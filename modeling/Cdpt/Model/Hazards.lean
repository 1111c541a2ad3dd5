import Cdpt.Lib.Lts
import Cdpt.Model.Word

/-!
# Hazard slots (`src/internal.rs`)

The three parallel structures of a `Local` and the hazard pointers that are live on
it. They belong to one thread, so every operation is one step. A slot is `none`
while its memory is uninitialised; an access outside the arrays, or an `unwrap` of
`None`, has no result. A marker is `mark::<T>`, which is told apart by `T`.

What `grow_hazards` does to the new array is followed copy by copy: allocate it
uninitialised, at twice the length but for two slots at least, copy the old one to
the front and write null behind it. A scanner that has loaded the old array goes on
reading that; this is part of the machine, where the arrays that were replaced are
kept. The guard a slot is used under and the deferred destruction of the old array
play no role for who owns which index and are left out.
-/

namespace Cdpt.Hazards

/-- `HAZARDS_INIT_COUNT`. -/
def hazardsInitCount : Nat := 8

variable {T : Type}

structure Local (T : Type) where
  hazards : List (Option Word)
  hazardsMarker : List (Option T)
  availableHids : List Nat

/-- `Default for Local`. -/
def Local.default : Local T where
  hazards := List.replicate hazardsInitCount (some 0#64)
  hazardsMarker := List.replicate hazardsInitCount none
  availableHids := List.range hazardsInitCount

/-- `ptr::copy` and `ptr::write_bytes` into `dst` from `pos` on. -/
def overwrite {α : Type} (dst : List α) (pos : Nat) (src : List α) : List α :=
  dst.take pos ++ src ++ dst.drop (pos + src.length)

/-- `Vec::resize`. -/
def resize {α : Type} (l : List α) (n : Nat) (x : α) : List α :=
  l.take n ++ List.replicate (n - l.length) x

def Local.growHazards (l : Local T) : Local T :=
  let half := l.hazards.length
  let new := List.replicate (max half 1 * 2) none
  let new := overwrite new 0 l.hazards
  let new := overwrite new half (List.replicate half (some 0#64))
  { hazards := new
    hazardsMarker := resize l.hazardsMarker (half * 2) none
    availableHids := l.availableHids ++ List.range' half half }

/-- `available_hids.pop()`. -/
def Local.popHid (l : Local T) : Option (Nat × Local T) :=
  l.availableHids.getLast?.map fun hid =>
    (hid, { l with availableHids := l.availableHids.dropLast })

def Local.acquireHp (l : Local T) : Option (Nat × Local T) :=
  match l.popHid with
  | some r => some r
  | none => l.growHazards.popHid

def Local.releaseHp (l : Local T) (hid : Nat) : Local T :=
  { l with availableHids := l.availableHids ++ [hid] }

/-- Stores through `hazard_slot` and into `hazards_marker`. -/
def Local.setSlot (l : Local T) (hid : Nat) (ptr : Word) (marker : Option T) : Option (Local T) :=
  if hid < l.hazards.length ∧ hid < l.hazardsMarker.length then
    some { l with
      hazards := l.hazards.set hid (some ptr)
      hazardsMarker := l.hazardsMarker.set hid marker }
  else none

/-- `HazardPointer::protect::<T>`; `align` is the alignment of `ManObj<T>`. -/
def Local.protect (align : T → Align) (l : Local T) (hid : Nat) (ty : T) (addr : Word) :
    Option (Local T) :=
  l.setSlot hid (Word.asPtr (align ty) addr)
    (if Word.isNull (align ty) addr then none else some ty)

/-- `HazardPointer::clear`. -/
def Local.clear (l : Local T) (hid : Nat) : Option (Local T) := l.setSlot hid 0#64 none

/-- `HazardPointer::drop`. -/
def Local.drop (l : Local T) (hid : Nat) : Option (Local T) :=
  (l.clear hid).map fun l => l.releaseHp hid

/-- The loop of `phase_barrier`: the marker calls it makes. -/
def barrierCalls : List (Option Word × Option T) → Option (List (T × Word))
  | [] => some []
  | (none, _) :: _ => none
  | (some ptr, mark) :: rest =>
      if ptr = 0#64 then barrierCalls rest
      else mark.bind fun m => (barrierCalls rest).map fun calls => (m, ptr) :: calls

def Local.phaseBarrier (l : Local T) : Option (List (T × Word)) :=
  barrierCalls (l.hazards.zip l.hazardsMarker)

/-- A live `HazardPointer`, with what it protected last and at which type. -/
structure Hp (T : Type) where
  hid : Nat
  ptr : Word
  ty : Option T

structure St (T : Type) where
  loc : Local T
  live : List (Hp T)

/-- `i` is the place of a hazard pointer among the live ones. -/
inductive Label (T : Type)
  | new
  | protect (i : Nat) (ty : T) (addr : Word)
  | clear (i : Nat)
  | drop (i : Nat)

def step (align : T → Align) (s : St T) : Label T → Option (St T)
  | .new => s.loc.acquireHp.map fun r => ⟨r.2, s.live ++ [⟨r.1, 0#64, none⟩]⟩
  | .protect i ty addr =>
      s.live[i]?.bind fun h => (s.loc.protect align h.hid ty addr).map fun l =>
        ⟨l, s.live.set i ⟨h.hid, Word.asPtr (align ty) addr, some ty⟩⟩
  | .clear i =>
      s.live[i]?.bind fun h => (s.loc.clear h.hid).map fun l =>
        ⟨l, s.live.set i ⟨h.hid, 0#64, none⟩⟩
  | .drop i =>
      s.live[i]?.bind fun h => (s.loc.drop h.hid).map fun l => ⟨l, s.live.eraseIdx i⟩

/-- The hazard pointer a label is about exists. -/
def enabled (s : St T) : Label T → Prop
  | .new => True
  | .protect i _ _ | .clear i | .drop i => i < s.live.length

def St.init : St T := ⟨Local.default, []⟩

end Cdpt.Hazards
