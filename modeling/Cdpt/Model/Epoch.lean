import Mathlib

/-!
# Colours, phases and epochs (`src/epoch.rs`)

The decoded form of the epoch word: the pinned flag, the phase, the white colour and
the timestamp are the four fields of a record. Nothing in the phase protocol depends
on how they share one machine word.

The word itself is in `EpochWord`, where each function here is shown to be what the
masks and shifts of the code compute, for timestamps below `2 ^ 60`. The colour of
an epoch is the one that is white in it; the code calls the other one black, and
which of the two an object is allocated in depends on the phase.
-/

namespace Cdpt

inductive Color
  | C0
  | C1
deriving DecidableEq, Repr

def Color.flip : Color → Color
  | .C0 => .C1
  | .C1 => .C0

@[simp] theorem Color.flip_flip (c : Color) : c.flip.flip = c := by cases c <;> rfl

@[simp] theorem Color.flip_ne (c : Color) : c.flip ≠ c := by cases c <;> decide

@[simp] theorem Color.ne_flip (c : Color) : c ≠ c.flip := by cases c <;> decide

theorem Color.eq_flip_of_ne {c d : Color} (h : c ≠ d) : c = d.flip := by
  cases c <;> cases d <;> first | rfl | exact absurd rfl h

@[simp] theorem Color.flip_inj {c d : Color} : c.flip = d.flip ↔ c = d := by
  cases c <;> cases d <;> decide

inductive Phase
  | N
  | RT
  | CT
deriving DecidableEq, Repr

/-- `Epoch` with its word decoded. -/
structure Epoch where
  isPinned : Bool
  phase : Phase
  color : Color
  timestamp : Nat
deriving DecidableEq, Repr

namespace Epoch

def starting : Epoch := ⟨false, .N, .C0, 0⟩

def pinned (e : Epoch) : Epoch := { e with isPinned := true }

def withPhase (e : Epoch) (ph : Phase) : Epoch := { e with phase := ph }

def withColor (e : Epoch) (c : Color) : Epoch := { e with color := c }

def withTimestamp (e : Epoch) (n : Nat) : Epoch := { e with timestamp := n }

end Epoch

end Cdpt
