import Cdpt.Model.Word

/-!
# The header word (`ObjMeta`, `src/pointers.rs`)

The colour at the top, the type id below it, the root count in the rest. The root
count is changed by `fetch_add` and `fetch_sub` on the whole word, so it stays
inside its field only as long as it neither reaches the mask nor goes below zero.
The parts are read off as digits of the word.

The shift of the type id is computed from the number of its bits, which leaves 55
bits for the count, whatever the comment in the source says about 48. After the
functions come two facts about the updates: inside the range the count changes by
one and the upper digits are as before (`increment_spec`, `decrement_spec`), and a
function that writes one field leaves the others alone. Later modules look at the
fields and never at bits.
-/

namespace Cdpt

/-- `TYPE_ID_BITS`. -/
def typeIdBits : Nat := 8

/-- `MAX_TYPE_ID`. -/
def maxTypeId : Nat := 1 <<< typeIdBits

/-- `ObjMeta::TYPE_ID_SHIFT`, which is also `ROOT_COUNT_BITS`. -/
def typeIdShift : Nat := 63 - typeIdBits

/-- `ObjMeta::TYPE_ID_MASK`. -/
def typeIdMask : Word := ((1#64 <<< typeIdBits) - 1#64) <<< typeIdShift

/-- `ObjMeta::ROOT_COUNT_MASK`. -/
def rootCountMask : Word := (1#64 <<< typeIdShift) - 1#64

/-- `marked as usize`. -/
def Color.toWord : Color → Word
  | .C0 => 0#64
  | .C1 => 1#64

namespace Header

/-- `ObjMeta::new_with_type_id`; the type id is a `u8`. -/
def newWithTypeId (marked : Color) (rootCount : Word) (typeId : BitVec 8) : Word :=
  (marked.toWord <<< 63) ||| (typeId.setWidth 64 <<< typeIdShift) |||
    (rootCount &&& rootCountMask)

/-- `ObjMeta::type_id`. -/
def typeId (w : Word) : BitVec 8 := ((w &&& typeIdMask) >>> typeIdShift).setWidth 8

/-- `ObjMeta::marked`. -/
def marked (w : Word) : Color := Color.ofWord (w >>> 63)

/-- `ObjMeta::with_marked`. -/
def withMarked (w : Word) (c : Color) : Word := (w &&& ~~~(1#64 <<< 63)) ||| (c.toWord <<< 63)

/-- `ObjMeta::root_count`. -/
def rootCount (w : Word) : Word := w &&& rootCountMask

/-- The word after `increment_root_count`. -/
def increment (w : Word) : Word := w + 1#64

/-- The word after `decrement_root_count`. -/
def decrement (w : Word) : Word := w - 1#64

/-! ## Bits -/

@[simp] theorem getLsbD_rootCountMask (i : Nat) :
    rootCountMask.getLsbD i = decide (i < 55) := by
  rw [rootCountMask, getLsbD_one_shiftLeft_sub_one (by decide)]
  rfl

@[simp] theorem getLsbD_typeIdMask (i : Nat) :
    typeIdMask.getLsbD i = decide (55 ≤ i ∧ i < 63) := by
  rw [typeIdMask, BitVec.getLsbD_shiftLeft, getLsbD_one_shiftLeft_sub_one (by decide)]
  simp only [typeIdShift, typeIdBits]
  grind

theorem getLsbD_typeId (w : Word) (i : Nat) :
    (typeId w).getLsbD i = (decide (i < 8) && w.getLsbD (55 + i)) := by
  simp only [typeId, BitVec.getLsbD_setWidth, BitVec.getLsbD_ushiftRight, BitVec.getLsbD_and,
    getLsbD_typeIdMask, typeIdShift, typeIdBits]
  grind

theorem typeId_newWithTypeId (c : Color) (n : Word) (t : BitVec 8) :
    typeId (newWithTypeId c n t) = t := by
  refine BitVec.eq_of_getLsbD_eq fun i hi => ?_
  rw [getLsbD_typeId, newWithTypeId]
  simp only [BitVec.getLsbD_or, BitVec.getLsbD_and, BitVec.getLsbD_shiftLeft,
    BitVec.getLsbD_setWidth, getLsbD_rootCountMask, typeIdShift, typeIdBits]
  grind

theorem typeId_withMarked (w : Word) (c : Color) : typeId (withMarked w c) = typeId w := by
  refine BitVec.eq_of_getLsbD_eq fun i hi => ?_
  have hbit : (1#64 <<< 63).getLsbD (55 + i) = false := by
    rw [← BitVec.twoPow_eq, BitVec.getLsbD_twoPow]
    grind
  rw [getLsbD_typeId, getLsbD_typeId, withMarked]
  simp only [BitVec.getLsbD_or, BitVec.getLsbD_and, BitVec.getLsbD_not, hbit,
    BitVec.getLsbD_shiftLeft]
  grind

theorem rootCount_newWithTypeId (c : Color) (n : Word) (t : BitVec 8) :
    rootCount (newWithTypeId c n t) = rootCount n := by
  refine BitVec.eq_of_getLsbD_eq fun i hi => ?_
  rw [rootCount, rootCount, newWithTypeId]
  simp only [BitVec.getLsbD_or, BitVec.getLsbD_and, BitVec.getLsbD_shiftLeft,
    BitVec.getLsbD_setWidth, getLsbD_rootCountMask, typeIdShift, typeIdBits]
  grind

theorem rootCount_withMarked (w : Word) (c : Color) :
    rootCount (withMarked w c) = rootCount w := by
  refine BitVec.eq_of_getLsbD_eq fun i hi => ?_
  have hbit : i < 55 → (1#64 <<< 63).getLsbD i = false := by
    intro hi
    rw [← BitVec.twoPow_eq, BitVec.getLsbD_twoPow]
    grind
  rw [rootCount, rootCount, withMarked]
  simp only [BitVec.getLsbD_or, BitVec.getLsbD_and, BitVec.getLsbD_not,
    BitVec.getLsbD_shiftLeft, getLsbD_rootCountMask]
  grind

/-- The colour is the top bit. -/
theorem marked_eq (w : Word) : marked w = if w.getLsbD 63 then .C1 else .C0 := by
  have htop : w >>> 63 = 0#64 ↔ w.getLsbD 63 = false := by
    refine ⟨fun h => ?_, fun h => BitVec.eq_of_getLsbD_eq fun i hi => ?_⟩
    · have h0 := congrArg (·.getLsbD 0) h
      simpa only [BitVec.getLsbD_ushiftRight, BitVec.getLsbD_zero] using h0
    · rw [BitVec.getLsbD_ushiftRight, BitVec.getLsbD_zero]
      cases i with
      | zero => exact h
      | succ i => exact BitVec.getLsbD_of_ge _ _ (by omega)
  rw [marked, Color.ofWord]
  cases hw : w.getLsbD 63 with
  | false => rw [if_pos (htop.2 hw), if_neg Bool.false_ne_true]
  | true =>
      rw [if_neg fun h0 => ?_, if_pos rfl]
      rw [htop.1 h0] at hw
      cases hw

theorem getLsbD_toWord_shift (c : Color) :
    (c.toWord <<< 63).getLsbD 63 = decide (c = .C1) := by
  cases c <;> decide

theorem marked_newWithTypeId (c : Color) (n : Word) (t : BitVec 8) :
    marked (newWithTypeId c n t) = c := by
  rw [marked_eq, newWithTypeId, BitVec.getLsbD_or, BitVec.getLsbD_or, getLsbD_toWord_shift]
  have ht : (t.setWidth 64 <<< typeIdShift).getLsbD 63 = false := by
    simp only [BitVec.getLsbD_shiftLeft, BitVec.getLsbD_setWidth, typeIdShift, typeIdBits]
    rw [BitVec.getLsbD_of_ge t _ (by decide)]
    rfl
  have hn : (n &&& rootCountMask).getLsbD 63 = false := by
    rw [BitVec.getLsbD_and, getLsbD_rootCountMask]
    simp
  rw [ht, hn]
  cases c <;> rfl

theorem marked_withMarked (w : Word) (c : Color) : marked (withMarked w c) = c := by
  have hw : (w &&& ~~~(1#64 <<< 63)).getLsbD 63 = false := by
    rw [BitVec.getLsbD_and, BitVec.getLsbD_not]
    have hbit : (1#64 <<< 63).getLsbD 63 = true := by decide
    rw [hbit]
    simp
  rw [marked_eq, withMarked, BitVec.getLsbD_or, hw, getLsbD_toWord_shift]
  cases c <;> rfl

/-! ## Digits -/

theorem toNat_rootCount (w : Word) : (rootCount w).toNat = w.toNat % 2 ^ 55 := by
  have hmask : rootCountMask.toNat = 2 ^ 55 - 1 := by decide
  rw [rootCount, BitVec.toNat_and, hmask, Nat.and_two_pow_sub_one_eq_mod]

/-- Everything above the root count. -/
def upper (w : Word) : Nat := w.toNat / 2 ^ 55

theorem typeId_eq_of_upper {w w' : Word} (h : upper w = upper w') : typeId w = typeId w' := by
  have hbit : ∀ (x : Word) (i : Nat), x.getLsbD (55 + i) = (upper x).testBit i := by
    intro x i
    rw [BitVec.getLsbD, upper, Nat.testBit_div_two_pow, Nat.add_comm]
  refine BitVec.eq_of_getLsbD_eq fun i _ => ?_
  rw [getLsbD_typeId, getLsbD_typeId, hbit, hbit, h]

theorem marked_eq_of_upper {w w' : Word} (h : upper w = upper w') : marked w = marked w' := by
  have hshift : ∀ x : Word, (x >>> 63).toNat = upper x / 2 ^ 8 := by
    intro x
    rw [BitVec.toNat_ushiftRight, Nat.shiftRight_eq_div_pow, upper, Nat.div_div_eq_div_mul,
      ← Nat.pow_add]
  have : w >>> 63 = w' >>> 63 := BitVec.eq_of_toNat_eq (by rw [hshift, hshift, h])
  rw [marked, marked, this]

/-- A decrement of a positive count stays inside its field. -/
theorem decrement_spec {w : Word} (h : 0 < (rootCount w).toNat) :
    upper (decrement w) = upper w ∧
      (rootCount (decrement w)).toNat = (rootCount w).toNat - 1 := by
  rw [toNat_rootCount] at h
  have hle : (1#64).toNat ≤ w.toNat := by
    show 1 ≤ w.toNat
    omega
  have hsub : (decrement w).toNat = w.toNat - 1 := BitVec.toNat_sub_of_le hle
  rw [toNat_rootCount, toNat_rootCount, upper, upper, hsub]
  omega

/-- A decrement of a zero count borrows from the type id. -/
theorem upper_decrement_of_zero {w : Word} (h : (rootCount w).toNat = 0) :
    upper (decrement w) ≠ upper w := by
  rw [toNat_rootCount] at h
  have hw := w.isLt
  have hsub : (decrement w).toNat = (2 ^ 64 - 1 + w.toNat) % 2 ^ 64 := BitVec.toNat_sub w 1#64
  rw [upper, upper, hsub]
  omega

theorem increment_spec {w : Word} (h : (rootCount w).toNat < 2 ^ 55 - 1) :
    upper (increment w) = upper w ∧
      (rootCount (increment w)).toNat = (rootCount w).toNat + 1 := by
  rw [toNat_rootCount] at h
  have hw := w.isLt
  have hadd : (increment w).toNat = (w.toNat + 1) % 2 ^ 64 := BitVec.toNat_add w 1#64
  rw [toNat_rootCount, toNat_rootCount, upper, upper, hadd]
  omega

end Header

end Cdpt
