import Cdpt.Model.State

/-!
# The link word (`ManPtr`, `src/pointers.rs`)

A link is one `usize`: two metadata bits at the top, the tag in the bits the
alignment of `ManObj<T>` leaves free at the bottom, the address between them. The
functions below are those of `ManPtr<T>` on the bare word. What an operation does to
a word is read off its three parts, so each function comes with its effect on each
part.

`Align` is the alignment of the pointee as a power of two, small enough to leave
room for an address. An address is a word without metadata and with the low bits
clear, which is what an allocation gives; null is one of them. Setting a tag cuts it
to the low bits, and the constructors that take a bare pointer leave the metadata
zero, which reads as `Rooted`.
-/

namespace Cdpt

/-- A `usize`. -/
abbrev Word := BitVec 64

/-- The alignment of `ManObj<T>`, by its number of trailing zeros. The bound
leaves room for the metadata and an address. -/
structure Align where
  log : Nat
  fits : log ≤ 61

/-- `ManPtr::META_WIDTH`. -/
def metaWidth : Nat := 2

/-- `ManPtr::META_BITS`. -/
def metaBits : Word := ((1#64 <<< metaWidth) - 1#64) <<< (64 - metaWidth)

/-- `ManPtr::LOW_BITS`. -/
def Align.lowBits (a : Align) : Word := (1#64 <<< a.log) - 1#64

/-- `ManPtr::ADDR_BITS`. -/
def Align.addrBits (a : Align) : Word := BitVec.allOnes 64 &&& ~~~metaBits &&& ~~~a.lowBits

/-- `Color::from(usize)`. -/
def Color.ofWord (w : Word) : Color := if w = 0#64 then .C0 else .C1

namespace Word

/-- `ManPtr::meta`. -/
def ptrMeta (w : Word) : PtrMeta :=
  if w &&& (1#64 <<< 63) = 0#64 then .Rooted
  else .Unrooted (Color.ofWord (w &&& (1#64 <<< 62)))

/-- `ManPtr::unrooted_color_unchecked`. -/
def unrootedColor (w : Word) : Color := Color.ofWord (w &&& (1#64 <<< 62))

/-- The two bits `with_meta` writes. -/
def metaCode : PtrMeta → Word
  | .Rooted => 0b00#64
  | .Unrooted .C0 => 0b10#64
  | .Unrooted .C1 => 0b11#64

/-- `ManPtr::with_meta`. -/
def withMeta (w : Word) (m : PtrMeta) : Word :=
  (metaCode m <<< (64 - metaWidth)) ||| (w &&& ~~~metaBits)

/-- `ManPtr::without_meta`. -/
def withoutMeta (w : Word) : Word := w &&& ~~~metaBits

/-- `ManPtr::as_ptr`. -/
def asPtr (a : Align) (w : Word) : Word := w &&& a.addrBits

/-- `ManPtr::tag`. -/
def tag (a : Align) (w : Word) : Word := w &&& a.lowBits

/-- `ManPtr::with_tag`. -/
def withTag (a : Align) (w : Word) (tag : Word) : Word :=
  (w &&& ~~~a.lowBits) ||| (tag &&& a.lowBits)

/-- `ManPtr::is_null`. -/
def isNull (a : Align) (w : Word) : Bool := asPtr a w == 0#64

/-- The metadata bits. -/
def metaPart (w : Word) : Word := w &&& metaBits

/-- Words whose metadata bits `with_meta` can write; `0b01` is not one of them. -/
def Valid (w : Word) : Prop := w.withMeta w.ptrMeta = w

instance (w : Word) : Decidable w.Valid := inferInstanceAs (Decidable (_ = _))

end Word

/-- The address a `Local` holds: not null, aligned, no metadata. -/
@[ext] structure LocalPtr (a : Align) where
  addr : Word
  ne : addr ≠ 0#64
  clean : addr &&& a.addrBits = addr
deriving DecidableEq

namespace Word

/-- `ManPtr::from(Option<&Local>)`. -/
def ofLocal {a : Align} (p : Option (LocalPtr a)) : Word := (p.map LocalPtr.addr).getD 0#64

/-- `ManPtr::from((Option<&Local>, tag))`. -/
def ofLocalTag {a : Align} (p : Option (LocalPtr a) × Word) : Word := withTag a (ofLocal p.1) p.2

/-- The address of a word as a `Local`. -/
def asLocal (a : Align) (w : Word) : Option (LocalPtr a) :=
  if h : w.asPtr a = 0#64 then none
  else some ⟨w.asPtr a, h, by rw [asPtr, BitVec.and_assoc, BitVec.and_self]⟩

/-- `ManPtr::as_local_with_tag`. -/
def asLocalTag (a : Align) (w : Word) : Option (LocalPtr a) × Word := (w.asLocal a, w.tag a)

end Word

/-! ## The bits of the masks -/

theorem getLsbD_one_shiftLeft_sub_one {k i : Nat} (hk : k < 64) :
    ((1#64 <<< k) - 1#64).getLsbD i = decide (i < k) := by
  have hpow : 2 ^ k < 2 ^ 64 := Nat.pow_lt_pow_right (by decide) hk
  have hpos : 0 < 2 ^ k := Nat.pow_pos (by decide)
  have hshift : (1#64 <<< k).toNat = 2 ^ k := by
    rw [BitVec.toNat_shiftLeft, BitVec.toNat_ofNat, Nat.shiftLeft_eq, Nat.one_mod_eq_one.2,
      Nat.one_mul, Nat.mod_eq_of_lt hpow]
    decide
  have hsub : ((1#64 <<< k) - 1#64).toNat = 2 ^ k - 1 := by
    rw [BitVec.toNat_sub_of_le (by rw [BitVec.le_def, hshift]; exact hpos), hshift]
    rfl
  rw [BitVec.getLsbD, hsub, Nat.testBit_two_pow_sub_one]

@[simp] theorem getLsbD_lowBits (a : Align) (i : Nat) :
    a.lowBits.getLsbD i = decide (i < a.log) :=
  getLsbD_one_shiftLeft_sub_one (Nat.lt_of_le_of_lt a.fits (by decide))

@[simp] theorem getLsbD_metaBits (i : Nat) :
    metaBits.getLsbD i = decide (62 ≤ i ∧ i < 64) := by
  rw [metaBits, BitVec.getLsbD_shiftLeft, getLsbD_one_shiftLeft_sub_one (by decide)]
  simp only [metaWidth]
  grind

@[simp] theorem getLsbD_addrBits (a : Align) (i : Nat) :
    a.addrBits.getLsbD i = decide (a.log ≤ i ∧ i < 62) := by
  have := a.fits
  simp only [Align.addrBits, BitVec.getLsbD_and, BitVec.getLsbD_allOnes, BitVec.getLsbD_not,
    getLsbD_metaBits, getLsbD_lowBits]
  grind

theorem and_bit_eq_zero {w : Word} {j : Nat} (hj : j < 64) :
    w &&& (1#64 <<< j) = 0#64 ↔ w.getLsbD j = false := by
  rw [← BitVec.twoPow_eq, BitVec.and_twoPow]
  cases hw : w.getLsbD j with
  | false => simp
  | true =>
      have : BitVec.twoPow 64 j ≠ 0#64 := by
        intro h
        have := congrArg (fun x => BitVec.getLsbD x j) h
        simp [hj] at this
      simpa using this

namespace Word

theorem ptrMeta_eq (w : Word) : w.ptrMeta =
    if w.getLsbD 63 then .Unrooted (if w.getLsbD 62 then .C1 else .C0) else .Rooted := by
  simp only [ptrMeta, Color.ofWord, and_bit_eq_zero (show 63 < 64 by decide),
    and_bit_eq_zero (show 62 < 64 by decide)]
  cases w.getLsbD 63 <;> cases w.getLsbD 62 <;> rfl

theorem unrooted_of_meta {w : Word} (h : w.ptrMeta ≠ .Rooted) :
    w.ptrMeta = .Unrooted w.unrootedColor := by
  rw [ptrMeta] at h ⊢
  split at h
  · exact absurd rfl h
  · next hb => rw [if_neg hb, unrootedColor]

theorem getLsbD_withMeta (w : Word) (m : PtrMeta) (i : Nat) : (w.withMeta m).getLsbD i =
    if i < 62 then w.getLsbD i
    else decide (i = 62 ∧ m = .Unrooted .C1 ∨ i = 63 ∧ m ≠ .Rooted) := by
  have hcode : ∀ j, (metaCode m).getLsbD j =
      decide (j = 0 ∧ m = .Unrooted .C1 ∨ j = 1 ∧ m ≠ .Rooted) := by
    intro j
    rcases Nat.lt_or_ge j 64 with hj | hj
    · match m with
      | .Rooted => simp [metaCode]
      | .Unrooted .C0 =>
          revert j; decide
      | .Unrooted .C1 => revert j; decide
    · rw [BitVec.getLsbD_of_ge _ _ hj]
      grind
  simp only [withMeta, BitVec.getLsbD_or, BitVec.getLsbD_shiftLeft, hcode, BitVec.getLsbD_and,
    BitVec.getLsbD_not, getLsbD_metaBits, metaWidth]
  grind

@[simp] theorem ptrMeta_withMeta (w : Word) (m : PtrMeta) : (w.withMeta m).ptrMeta = m := by
  rw [ptrMeta_eq, getLsbD_withMeta, getLsbD_withMeta]
  match m with
  | .Rooted | .Unrooted .C0 | .Unrooted .C1 => rfl

theorem withMeta_withMeta (w : Word) (m m' : PtrMeta) :
    (w.withMeta m).withMeta m' = w.withMeta m' := by
  refine BitVec.eq_of_getLsbD_eq fun i hi => ?_
  simp only [getLsbD_withMeta]
  grind

theorem valid_withMeta (w : Word) (m : PtrMeta) : (w.withMeta m).Valid := by
  rw [Valid, ptrMeta_withMeta, withMeta_withMeta]

theorem withoutMeta_eq (w : Word) : w.withoutMeta = w.withMeta .Rooted := by
  refine BitVec.eq_of_getLsbD_eq fun i hi => ?_
  simp only [getLsbD_withMeta, withoutMeta, BitVec.getLsbD_and, BitVec.getLsbD_not,
    getLsbD_metaBits]
  grind

/-! ## What each operation does to the parts -/

@[simp] theorem asPtr_withMeta (a : Align) (w : Word) (m : PtrMeta) :
    (w.withMeta m).asPtr a = w.asPtr a := by
  refine BitVec.eq_of_getLsbD_eq fun i _ => ?_
  simp only [asPtr, BitVec.getLsbD_and, getLsbD_withMeta, getLsbD_addrBits]
  grind

@[simp] theorem tag_withMeta (a : Align) (w : Word) (m : PtrMeta) :
    (w.withMeta m).tag a = w.tag a := by
  have := a.fits
  refine BitVec.eq_of_getLsbD_eq fun i _ => ?_
  simp only [tag, BitVec.getLsbD_and, getLsbD_withMeta, getLsbD_lowBits]
  grind

theorem asLocal_congr {a : Align} {w w' : Word} (h : w.asPtr a = w'.asPtr a) :
    w.asLocal a = w'.asLocal a := by
  simp only [asLocal, h]

@[simp] theorem asLocalTag_withMeta (a : Align) (w : Word) (m : PtrMeta) :
    (w.withMeta m).asLocalTag a = w.asLocalTag a := by
  rw [asLocalTag, asLocalTag, tag_withMeta, asLocal_congr (asPtr_withMeta a w m)]

theorem asLocalTag_withoutMeta (a : Align) (w : Word) :
    w.withoutMeta.asLocalTag a = w.asLocalTag a := by
  rw [withoutMeta_eq, asLocalTag_withMeta]

/-- The address and the tag make up the word without its metadata. -/
theorem asPtr_or_tag (a : Align) (w : Word) : w.asPtr a ||| w.tag a = w.withoutMeta := by
  have := a.fits
  refine BitVec.eq_of_getLsbD_eq fun i _ => ?_
  simp only [asPtr, tag, withoutMeta, BitVec.getLsbD_or, BitVec.getLsbD_and, BitVec.getLsbD_not,
    getLsbD_addrBits, getLsbD_lowBits, getLsbD_metaBits]
  grind

theorem ofLocal_asLocal (a : Align) (w : Word) : ofLocal (w.asLocal a) = w.asPtr a := by
  rw [asLocal]
  split
  · next h => rw [h]; rfl
  · rfl

/-- Two words with the same address and tag differ in their metadata at most. -/
theorem asLocalTag_inj {a : Align} {w w' : Word} :
    w.asLocalTag a = w'.asLocalTag a ↔ w.withoutMeta = w'.withoutMeta := by
  constructor
  · intro h
    rw [asLocalTag, asLocalTag, Prod.mk.injEq] at h
    rw [← asPtr_or_tag a, ← asPtr_or_tag a, ← ofLocal_asLocal, ← ofLocal_asLocal, h.1, h.2]
  · intro h
    rw [← asLocalTag_withoutMeta, h, asLocalTag_withoutMeta]

theorem asPtr_ofLocal {a : Align} (p : Option (LocalPtr a)) :
    (ofLocal p).asPtr a = ofLocal p := by
  cases p with
  | none => exact BitVec.zero_and
  | some p => exact p.clean

theorem asLocal_ofLocal {a : Align} (p : Option (LocalPtr a)) : (ofLocal p).asLocal a = p := by
  rw [asLocal]
  cases p with
  | none => exact dif_pos (asPtr_ofLocal none)
  | some p =>
      have hp : (ofLocal (some p)).asPtr a = p.addr := asPtr_ofLocal (some p)
      rw [dif_neg (by rw [hp]; exact p.ne)]
      exact congrArg some (LocalPtr.ext hp)

@[simp] theorem asPtr_withTag (a : Align) (w t : Word) : (w.withTag a t).asPtr a = w.asPtr a := by
  refine BitVec.eq_of_getLsbD_eq fun i _ => ?_
  simp only [asPtr, withTag, BitVec.getLsbD_and, BitVec.getLsbD_or, BitVec.getLsbD_not,
    getLsbD_addrBits, getLsbD_lowBits]
  grind

@[simp] theorem tag_withTag (a : Align) (w t : Word) :
    (w.withTag a t).tag a = t &&& a.lowBits := by
  refine BitVec.eq_of_getLsbD_eq fun i _ => ?_
  simp only [tag, withTag, BitVec.getLsbD_and, BitVec.getLsbD_or, BitVec.getLsbD_not,
    getLsbD_lowBits]
  grind

theorem asLocalTag_ofLocalTag {a : Align} (p : Option (LocalPtr a) × Word) :
    (ofLocalTag p).asLocalTag a = (p.1, p.2 &&& a.lowBits) := by
  rw [asLocalTag, ofLocalTag, tag_withTag, asLocal_congr (asPtr_withTag a _ _), asLocal_ofLocal]

theorem withoutMeta_ofLocalTag {a : Align} (p : Option (LocalPtr a) × Word) :
    (ofLocalTag p).withoutMeta = ofLocalTag p := by
  have hclean : ofLocal p.1 &&& a.addrBits = ofLocal p.1 := asPtr_ofLocal p.1
  have := a.fits
  refine BitVec.eq_of_getLsbD_eq fun i _ => ?_
  rw [ofLocalTag, ← hclean]
  simp only [withoutMeta, withTag, BitVec.getLsbD_and, BitVec.getLsbD_or, BitVec.getLsbD_not,
    getLsbD_addrBits, getLsbD_lowBits, getLsbD_metaBits]
  grind

/-- The comparison that opens both forms of the CAS. -/
theorem withoutMeta_eq_ofLocalTag {a : Align} {w : Word} {p : Option (LocalPtr a) × Word} :
    w.withoutMeta = ofLocalTag p ↔ w.asLocalTag a = (p.1, p.2 &&& a.lowBits) := by
  rw [← withoutMeta_ofLocalTag, ← asLocalTag_inj, asLocalTag_ofLocalTag]

theorem withoutMeta_of_rooted {w : Word} (hv : w.Valid) (h : w.ptrMeta = .Rooted) :
    w.withoutMeta = w := by
  rw [withoutMeta_eq, ← h]
  exact hv

theorem valid_ofLocalTag {a : Align} (p : Option (LocalPtr a) × Word) :
    (ofLocalTag p).Valid := by
  rw [← withoutMeta_ofLocalTag, withoutMeta_eq]
  exact valid_withMeta _ _

end Word

end Cdpt
