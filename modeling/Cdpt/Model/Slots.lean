import Cdpt.Lib.Lts

/-!
# Reusable slots (`src/sync/reusable_slots.rs`)

The list of nodes in memory, as `head` and the `next` pointers, and any number
of calls at once: `acquire_or_default`, the drop of an `Entry`, and traversals
by `iter_all` and `iter_using`, one access a step. An `Entry` is named by the
call that acquired it, a node by the call that allocated it. A call that loses
the race to append frees its node and allocates another one at the next end it
comes to, so that it has one node at most.

The counter is an integer, so that a decrement below zero would show.
-/

namespace Cdpt.Slots

/-- `prev` is `head` (`none`) or the `next` pointer of a node. -/
abbrev Link := Option Nat

inductive Call
  /-- `acquire_or_default`: about to load `prev`. -/
  | load (prev : Link)
  /-- At the end of the list, with a new node. -/
  | append (prev : Link)
  | test (node : Nat)
  | take (node : Nat)
  /-- The node is taken, the counter not yet incremented. -/
  | count (node : Nat)
  /-- The call has returned and its `Entry` is alive. -/
  | live (node : Nat)
  /-- `Drop for Entry`: about to decrement the counter. -/
  | uncount (node : Nat)
  | release (node : Nat)
  | dropped
  /-- A traversal that is about to load `head`. -/
  | iterHead (all : Bool)
  /-- Between two nodes: the node to come and those handed out so far. -/
  | iter (all : Bool) (curr : Option Nat) (visited : List Nat)
  /-- `iter_using` has loaded `next` and is about to load `using`. -/
  | iterTest (node : Nat) (next : Option Nat) (visited : List Nat)
deriving DecidableEq, Repr

structure St where
  head : Option Nat
  next : Nat → Option Nat
  isUsing : Nat → Bool
  activeCount : Int
  nCalls : Nat
  calls : Nat → Call

def St.setCall (s : St) (c : Nat) (x : Call) : St :=
  { s with calls := Function.update s.calls c x }

def St.readLink (s : St) : Link → Option Nat
  | none => s.head
  | some n => s.next n

/-- `prev` points to the node of call `c`, which is `Node::new_using`. -/
def St.link (s : St) (prev : Link) (c : Nat) : St :=
  let s := { s with
    next := Function.update s.next c none
    isUsing := Function.update s.isUsing c true }
  match prev with
  | none => { s with head := some c }
  | some n => { s with next := Function.update s.next n (some c) }

/-- One access of call `c`. -/
def exec (s : St) (c : Nat) : Call → Option St
  | .load prev => some (s.setCall c (match s.readLink prev with
      | none => .append prev
      | some n => .test n))
  | .append prev => some (match s.readLink prev with
      | none => (s.link prev c).setCall c (.count c)
      | some _ => s.setCall c (.load prev))
  | .test n => some (s.setCall c (if s.isUsing n then .load (some n) else .take n))
  | .take n => some (
      if s.isUsing n then s.setCall c (.load (some n))
      else { s with isUsing := Function.update s.isUsing n true }.setCall c (.count n))
  | .count n => some ({ s with activeCount := s.activeCount + 1 }.setCall c (.live n))
  | .live _ => none
  | .uncount n => some ({ s with activeCount := s.activeCount - 1 }.setCall c (.release n))
  | .release n => some ({ s with isUsing := Function.update s.isUsing n false }.setCall c .dropped)
  | .dropped => none
  | .iterHead all => some (s.setCall c (.iter all s.head []))
  | .iter _ none _ => none
  | .iter all (some n) visited => some (s.setCall c (
      if all then .iter true (s.next n) (visited ++ [n]) else .iterTest n (s.next n) visited))
  | .iterTest n nx visited => some (s.setCall c
      (.iter false nx (if s.isUsing n then visited ++ [n] else visited)))

inductive Label
  | acquire
  | drop (c : Nat)
  | iterate (all : Bool)
  | run (c : Nat)
deriving DecidableEq, Repr

def St.begin (s : St) (x : Call) : St := { s.setCall s.nCalls x with nCalls := s.nCalls + 1 }

def step (s : St) : Label → Option St
  | .acquire => some (s.begin (.load none))
  | .iterate all => some (s.begin (.iterHead all))
  | .drop c =>
      if c < s.nCalls then
        match s.calls c with
        | .live n => some (s.setCall c (.uncount n))
        | _ => none
      else none
  | .run c => if c < s.nCalls then exec s c (s.calls c) else none

def St.init : St := ⟨none, fun _ => none, fun _ => false, 0, 0, fun _ => .dropped⟩

end Cdpt.Slots
