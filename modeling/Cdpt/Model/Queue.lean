import Cdpt.Lib.Lts
import Cdpt.Lib.Chain
import Cdpt.Lib.Linearizable

/-!
# The queue of object batches (`src/sync/queue.rs`)

Any number of calls of `push` and `try_pop` at once, one access to `head`,
`tail` or a `next` pointer a step, and one for handing a node to
`defer_destroy`. A node is named by the call that allocates it, and since it is
not freed while a guard could see it, its name is not used again. The calls in
the order of their link CAS and of their head CAS, and the nodes handed over,
are kept beside the queue.
-/

namespace Cdpt.Queue

open Linearizable (Event Status)

variable {T : Type}

/-- The first sentinel is node 0. -/
def node (c : Nat) : Nat := c + 1

inductive Op (T : Type)
  | push (t : T)
  | tryPop
deriving DecidableEq

inductive Res (T : Type)
  | pushed
  | popped (v : Option T)
deriving DecidableEq

/-- The next access of a call: those of `push` and `push_internal`, then those
of `try_pop` and `pop_internal`. -/
inductive Pc
  | pushTail
  | pushNext (onto : Nat)
  | pushHelp (onto next : Nat)
  | pushLink (onto : Nat)
  | pushSwing (onto : Nat)
  | popHead
  | popNext (head : Nat)
  | popCas (head next : Nat)
  | popTail (head next : Nat)
  | popSwing (head next : Nat)
  | retire (head next : Nat)
deriving DecidableEq, Repr

inductive Call (T : Type)
  | fresh
  | running (op : Op T) (pc : Pc)
  | returned (op : Op T) (r : Res T)
deriving DecidableEq

structure St (T : Type) where
  head : Nat
  tail : Nat
  next : Nat → Option Nat
  data : Nat → Option T
  calls : Nat → Call T
  history : List (Event Nat (Op T) (Res T))
  links : List Nat
  pops : List Nat
  retired : List Nat

def St.setCall (s : St T) (c : Nat) (x : Call T) : St T :=
  { s with calls := Function.update s.calls c x }

def St.goto (s : St T) (c : Nat) (op : Op T) (pc : Pc) : St T := s.setCall c (.running op pc)

/-- Call `c` returns `r`. -/
def St.giveBack (s : St T) (c : Nat) (op : Op T) (r : Res T) : St T :=
  { s.setCall c (.returned op r) with history := s.history ++ [.ret c r] }

/-- Call `c` is made; `push` allocates its node. -/
def St.begin (s : St T) (c : Nat) : Op T → St T
  | .push t => { s.goto c (.push t) .pushTail with
      data := Function.update s.data (node c) (some t)
      history := s.history ++ [.inv c (.push t)] }
  | .tryPop => { s.goto c .tryPop .popHead with history := s.history ++ [.inv c .tryPop] }

/-- A CAS of `tail`, whose result is not looked at. -/
def St.swing (s : St T) (old new : Nat) : St T :=
  { s with tail := if s.tail = old then new else s.tail }

/-- A successful CAS of the `next` pointer of `onto` by call `c`. -/
def St.link (s : St T) (onto c : Nat) : St T :=
  { s with next := Function.update s.next onto (some (node c)), links := s.links ++ [c] }

/-- A successful CAS of `head` by call `c`. -/
def St.advance (s : St T) (next c : Nat) : St T :=
  { s with head := next, pops := s.pops ++ [c] }

/-- `defer_destroy` of a node. -/
def St.retire (s : St T) (n : Nat) : St T := { s with retired := s.retired ++ [n] }

/-- One access of a call; `none` would be a read of a slot without a value. -/
def exec (s : St T) (c : Nat) (op : Op T) : Pc → Option (St T)
  | .pushTail => some (s.goto c op (.pushNext s.tail))
  | .pushNext onto => some (match s.next onto with
      | some next => s.goto c op (.pushHelp onto next)
      | none => s.goto c op (.pushLink onto))
  | .pushHelp onto next => some ((s.swing onto next).goto c op .pushTail)
  | .pushLink onto => some (match s.next onto with
      | none => (s.link onto c).goto c op (.pushSwing onto)
      | some _ => s.goto c op .pushTail)
  | .pushSwing onto => some ((s.swing onto (node c)).giveBack c op .pushed)
  | .popHead => some (s.goto c op (.popNext s.head))
  | .popNext head => some (match s.next head with
      | some next => s.goto c op (.popCas head next)
      | none => s.giveBack c op (.popped none))
  | .popCas head next => some (
      if s.head = head then (s.advance next c).goto c op (.popTail head next)
      else s.goto c op .popHead)
  | .popTail head next => some (
      if s.tail = head then s.goto c op (.popSwing head next)
      else s.goto c op (.retire head next))
  | .popSwing head next => some ((s.swing head next).goto c op (.retire head next))
  | .retire head next => (s.data next).map fun v =>
      (s.retire head).giveBack c op (.popped (some v))

inductive Label (T : Type)
  | call (c : Nat) (op : Op T)
  | run (c : Nat)

def step (s : St T) : Label T → Option (St T)
  | .call c op =>
      match s.calls c with
      | .fresh => some (s.begin c op)
      | _ => none
  | .run c =>
      match s.calls c with
      | .running op pc => exec s c op pc
      | _ => none

/-- `Queue::new`. -/
def St.init : St T := ⟨0, 0, fun _ => none, fun _ => none, fun _ => .fresh, [], [], [], []⟩

/-- All nodes that were ever in the queue, in order. -/
def St.order (s : St T) : List Nat := 0 :: s.links.map node

/-- The values in the queue. -/
def St.contents (s : St T) : List T := (s.order.drop (s.pops.length + 1)).filterMap s.data

def Call.pushes : Call T → Option T
  | .running (.push t) _ | .returned (.push t) _ => some t
  | _ => none

/-- The value that call `c` pushes. -/
def St.pushes (s : St T) (c : Nat) : Option T := (s.calls c).pushes

/-- The value that call `c` popped: it has returned it or is going to read it. -/
def St.answer (s : St T) (c : Nat) : Option T :=
  match s.calls c with
  | .returned _ (.popped v) => v
  | .running _ (.popTail _ next) | .running _ (.popSwing _ next) | .running _ (.retire _ next) =>
      s.data next
  | _ => none

end Cdpt.Queue
