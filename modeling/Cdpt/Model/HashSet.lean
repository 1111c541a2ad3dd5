import Cdpt.Lib.Lts
import Cdpt.Lib.Linearizable

/-!
# The fixed-capacity hash set (`src/sync/hash_set.rs`)

Any number of calls of `get_or_insert` and `contains` at once, one access to
`slots` a step. A box is named by the call that allocates it, so the address a
call gives out tells who inserted it. What follows the last access of a call is
private to it, and the call returns with that access.

The first loop of either function computes `hash + i` with a plain `+` before
each access. What that does when the sum does not fit a `usize` depends on the
build: `checked` tells whether overflow checks are on, in which case the call
panics there, whatever the table holds. Without them the sum wraps. The run
model (`step`) and the loop taken at once (`hotLoop`) make the same test. The
cold path adds 1 to an index, which always fits.

A call panics in two ways, for a full table as documented and for the sum, and
`Panic` keeps them apart. The box that `get_or_insert` allocates before it
reports a full table is never seen by anybody and is left out.
-/

namespace Cdpt.HashSet

open Linearizable (Event)

/-- The capacity `N`, the hash function and the law that ties it to `Eq`. -/
structure Params (T : Type) [BEq T] where
  log : Nat
  fits : log < 64
  hash : T → Nat
  respects : ∀ {x y : T}, x == y → hash x = hash y

variable {T : Type} [BEq T]

/-- `N`, a power of two that is a `usize`. -/
def Params.size (P : Params T) : Nat := 2 ^ P.log

/-- `(hash + i) & mask`; where the build does not check the sum, it wraps. -/
def Params.index (P : Params T) (hash i : Nat) : Nat := ((hash + i) % 2 ^ 64) &&& (P.size - 1)

inductive Op (T : Type)
  | getOrInsert (key : T)
  | contains (key : T)
deriving DecidableEq

def Op.key : Op T → T
  | .getOrInsert key | .contains key => key

inductive Res
  | entry (box : Nat) (inserted : Bool)
  | found (b : Bool)
deriving DecidableEq, Repr

/-- `hot i`: in the first loop of either function; `load` and `cas`: in the
loop of the cold path. -/
inductive Pc
  | hot (i : Nat)
  | load (idx : Nat)
  | cas (idx : Nat)
deriving DecidableEq, Repr

/-- Why a call panics: no slot is left for its key, or `hash + i` overflows. -/
inductive Panic
  | full
  | overflow
deriving DecidableEq, Repr

inductive Call (T : Type)
  | fresh
  | running (op : Op T) (pc : Pc)
  | returned (op : Op T) (r : Res)
  | panicked (op : Op T) (why : Panic)
deriving DecidableEq

structure St (T : Type) where
  slots : Nat → Option Nat
  boxes : Nat → Option T
  calls : Nat → Call T
  history : List (Event Nat (Op T) Res)

/-- What a call does next. `free`: the box of the loser is dropped. -/
inductive Next
  | goto (pc : Pc)
  | alloc (pc : Pc)
  | claim (idx : Nat)
  | ret (r : Res) (free : Bool)
  | panic (why : Panic)

/-- The probe of the cold path after it has found a box at `idx`. -/
def coldProbe (P : Params T) (idx box : Nat) (existing key : T) : Next :=
  if existing == key then .ret (.entry box false) true else .goto (.load (P.index idx 1))

/-- One access of a call with argument `op`; `none` would be a read of a box
that is not there. -/
def exec (P : Params T) (checked : Bool) (s : St T) (op : Op T) : Pc → Option Next
  | .hot i =>
      if checked = true ∧ 2 ^ 64 ≤ P.hash op.key + i then some (.panic .overflow)
      else
        let idx := P.index (P.hash op.key) i
        match s.slots idx with
        | none => some (match op with
            | .getOrInsert _ => .alloc (.load idx)
            | .contains _ => .ret (.found false) false)
        | some box => (s.boxes box).map fun existing =>
            if existing == op.key then
              match op with
              | .getOrInsert _ => .ret (.entry box false) false
              | .contains _ => .ret (.found true) false
            else if i + 1 < P.size then .goto (.hot (i + 1))
            else match op with
              | .getOrInsert _ => .panic .full
              | .contains _ => .ret (.found false) false
  | .load idx =>
      match s.slots idx with
      | none => some (.goto (.cas idx))
      | some box => (s.boxes box).map fun existing => coldProbe P idx box existing op.key
  | .cas idx =>
      match s.slots idx with
      | none => some (.claim idx)
      | some box => (s.boxes box).map fun existing => coldProbe P idx box existing op.key

def St.setCall (s : St T) (c : Nat) (x : Call T) : St T :=
  { s with calls := Function.update s.calls c x }

/-- Call `c` is made. -/
def St.begin (s : St T) (c : Nat) (op : Op T) : St T :=
  { s.setCall c (.running op (.hot 0)) with history := s.history ++ [.inv c op] }

/-- Call `c` returns `r`. -/
def St.giveBack (s : St T) (c : Nat) (op : Op T) (r : Res) : St T :=
  { s.setCall c (.returned op r) with history := s.history ++ [.ret c r] }

def Next.apply (s : St T) (c : Nat) (op : Op T) : Next → St T
  | .goto pc => s.setCall c (.running op pc)
  | .alloc pc => { s with boxes := Function.update s.boxes c (some op.key) }.setCall c
      (.running op pc)
  | .claim idx => { s with slots := Function.update s.slots idx (some c) }.giveBack c op
      (.entry c true)
  | .ret r free => { s with
      boxes := if free then Function.update s.boxes c none else s.boxes }.giveBack c op r
  | .panic why => s.setCall c (.panicked op why)

inductive Label (T : Type)
  | call (c : Nat) (op : Op T)
  | run (c : Nat)

def step (P : Params T) (checked : Bool) (s : St T) : Label T → Option (St T)
  | .call c op =>
      match s.calls c with
      | .fresh => some (s.begin c op)
      | _ => none
  | .run c =>
      match s.calls c with
      | .running op pc => (exec P checked s op pc).map fun n => n.apply s c op
      | _ => none

/-- `FixedHashSet::new`. -/
def St.init : St T := ⟨fun _ => none, fun _ => none, fun _ => .fresh, []⟩

/-- All `N` slots are occupied. -/
def St.full (P : Params T) (s : St T) : Prop := ∀ idx < P.size, (s.slots idx).isSome

instance (P : Params T) (s : St T) : Decidable (s.full P) :=
  inferInstanceAs (Decidable (∀ idx < P.size, (s.slots idx).isSome))

/-- The key in a slot. -/
def St.content (s : St T) (idx : Nat) : Option T := (s.slots idx).bind s.boxes

/-- All `N` slots are occupied by keys other than `key`. -/
def St.others (P : Params T) (s : St T) (key : T) : Prop :=
  ∀ idx < P.size, (s.content idx).any (fun k => !(k == key)) = true

instance (P : Params T) (s : St T) (key : T) : Decidable (s.others P key) :=
  inferInstanceAs
    (Decidable (∀ idx < P.size, (s.content idx).any (fun k => !(k == key)) = true))

/-- The key of a call that is past its first loop. -/
def Call.coldKey : Call T → Option T
  | .running op (.load _) | .running op (.cas _) => some op.key
  | _ => none

/-- Call `c` is past its first loop and the table is full of other keys. -/
def St.spins (P : Params T) (s : St T) (c : Nat) : Prop :=
  ∃ key ∈ (s.calls c).coldKey, s.others P key

instance (P : Params T) (s : St T) (c : Nat) : Decidable (s.spins P c) :=
  inferInstanceAs (Decidable (∃ key ∈ (s.calls c).coldKey, s.others P key))

/-- The next access of the call comes after a sum `hash + i` that does not fit, in
a build that checks it. -/
def Call.overflows (P : Params T) (checked : Bool) : Call T → Prop
  | .running op (.hot i) => checked = true ∧ 2 ^ 64 ≤ P.hash op.key + i
  | _ => False

instance (P : Params T) (checked : Bool) : (x : Call T) → Decidable (x.overflows P checked)
  | .running _ (.hot _) => inferInstanceAs (Decidable (_ ∧ _))
  | .running _ (.load _) | .running _ (.cas _) | .fresh | .returned _ _ | .panicked _ _ =>
      .isFalse id

/-- The step computes such a sum. -/
def Label.overflows (P : Params T) (checked : Bool) (s : St T) : Label T → Prop
  | .run c => (s.calls c).overflows P checked
  | .call _ _ => False

instance (P : Params T) (checked : Bool) (s : St T) :
    (l : Label T) → Decidable (l.overflows P checked s)
  | .run c => inferInstanceAs (Decidable ((s.calls c).overflows P checked))
  | .call _ _ => .isFalse id

def Label.runs (c : Nat) : Label T → Bool
  | .run c' => c' == c
  | .call _ _ => false

/-! ## The first loop at once

One call with nobody else around, on the keys the table holds.
-/

/-- How the first loop of `get_or_insert` ends. `overflow`: the build checks
`hash + i` and it does not fit a `usize`. -/
inductive Probe
  | found (idx : Nat)
  | null (idx : Nat)
  | full
  | overflow
deriving DecidableEq, Repr

/-- The last `n` iterations of the first loop, from `i` on. -/
def hotLoop (P : Params T) (checked : Bool) (hash : Nat) (content : Nat → Option T) (key : T) :
    Nat → Nat → Probe
  | 0, _ => .full
  | n + 1, i =>
      if checked = true ∧ 2 ^ 64 ≤ hash + i then .overflow
      else
        let idx := P.index hash i
        match content idx with
        | none => .null idx
        | some existing =>
            if existing == key then .found idx else hotLoop P checked hash content key n (i + 1)

/-- The state the call is in after its first loop. -/
def Probe.apply (s : St T) (c : Nat) (key : T) : Probe → St T
  | .found idx => s.giveBack c (.getOrInsert key) (.entry ((s.slots idx).getD 0) false)
  | .null idx => (Next.alloc (.load idx)).apply s c (.getOrInsert key)
  | .full => (Next.panic .full).apply s c (.getOrInsert key)
  | .overflow => (Next.panic .overflow).apply s c (.getOrInsert key)

end Cdpt.HashSet
