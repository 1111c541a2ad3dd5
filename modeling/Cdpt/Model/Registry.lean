import Cdpt.Model.HashSet
import Cdpt.Model.Header

/-!
# The type registry (`register_type`, `src/pointers.rs`)

A type is an element of `Ty`; `shade_erased::<T>` is named by `T`. The calls
of `register_type` share the set of `Cdpt.HashSet`, whose entries are compared
by their type only: the id of an entry is a cell of its own, unset when the
entry is made. A call runs inside `get_or_insert` until that returns, and goes
on from what it returned; where that panics (on a full table, or on the sum
`hash + i` in a build that checks it) the call ends inside the set, with nothing
drawn and nothing stored.

The draw is a `fetch_add`, which wraps in either build. A thread that finds an
entry before its owner has published the id spins on the entry's cell; one read
of it is a step.
-/

namespace Cdpt.Registry

variable {Ty : Type} [DecidableEq Ty]

/-- `ID_UNSET`. -/
def idUnset : BitVec 32 := BitVec.allOnes 32

/-- `TYPE_SET`, for a hash function of types. -/
def typeSet (hash : Ty → Nat) : HashSet.Params Ty :=
  ⟨typeIdBits, by decide, hash, fun h => by rw [eq_of_beq h]⟩

inductive Pc
  | idle
  | inSet
  | storeFn (newId : Nat)
  | publish (newId : Nat)
  | spin
  | returned (id : BitVec 8)
  | panicked
deriving DecidableEq, Repr

structure St (Ty : Type) where
  set : HashSet.St Ty
  nextTypeId : Nat
  ids : Nat → BitVec 32
  shadeFnTable : Nat → Option Ty
  calls : Nat → Pc

/-- Reading the id of the entry `box`: another thread may not have published
it yet. -/
def readId (s : St Ty) (box : Nat) : Pc :=
  if s.ids box = idUnset then .spin else .returned ((s.ids box).setWidth 8)

/-- One access of `register_type::<ty>` after `get_or_insert` has returned
`(box, inserted)`. -/
def exec (s : St Ty) (c : Nat) (ty : Ty) (box : Nat) (inserted : Bool) : Option (St Ty) :=
  match s.calls c with
  | .inSet => some (
      if inserted then
        { s with
          nextTypeId := (s.nextTypeId + 1) % 2 ^ 64
          calls := Function.update s.calls c
            (if s.nextTypeId < maxTypeId then .storeFn s.nextTypeId else .panicked) }
      else { s with calls := Function.update s.calls c (readId s box) })
  | .spin => some { s with calls := Function.update s.calls c (readId s box) }
  | .storeFn newId => some { s with
      shadeFnTable := Function.update s.shadeFnTable newId (some ty)
      calls := Function.update s.calls c (.publish newId) }
  | .publish newId => some { s with
      ids := Function.update s.ids box (BitVec.ofNat 32 newId)
      calls := Function.update s.calls c (.returned (BitVec.ofNat 8 newId)) }
  | _ => none

inductive Label (Ty : Type)
  | call (c : Nat) (ty : Ty)
  | set (c : Nat)
  | run (c : Nat)

def step (hash : Ty → Nat) (checked : Bool) (s : St Ty) : Label Ty → Option (St Ty)
  | .call c ty =>
      (HashSet.step (typeSet hash) checked s.set (.call c (.getOrInsert ty))).map fun set =>
        { s with set, calls := Function.update s.calls c .inSet }
  | .set c =>
      (HashSet.step (typeSet hash) checked s.set (.run c)).map fun set => { s with set }
  | .run c =>
      match s.set.calls c with
      | .returned (.getOrInsert ty) (.entry box inserted) => exec s c ty box inserted
      | _ => none

def St.init : St Ty := ⟨HashSet.St.init, 0, fun _ => idUnset, fun _ => none, fun _ => .idle⟩

/-- `get_shade_fn`. -/
def getShadeFn (s : St Ty) (typeId : BitVec 8) : Option Ty := s.shadeFnTable typeId.toNat

end Cdpt.Registry
