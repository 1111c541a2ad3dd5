import Mathlib

/-!
# Naturals through binary64

Conversions of naturals to double precision and back, as exact functions on
naturals: `round` is rounding to nearest, ties to even, at 53 bits; the results
of a quotient and of a square root are given by their integral parts, which is
all a cast to an integer type keeps. Everything stays far below the largest
double, so no result is infinite except a quotient by zero.
-/

namespace F64

/-- The number of low bits that 53 bits do not hold. -/
def dropped (n : ℕ) : ℕ := n.log2 - 52

/-- Rounding to nearest goes up, ties to even. -/
def roundsUp (q r e : ℕ) : Bool := 2 ^ e < 2 * r || (2 * r == 2 ^ e && q % 2 == 1)

/-- A natural as a double. -/
def round (n : ℕ) : ℕ :=
  let e := dropped n
  (n / 2 ^ e + if roundsUp (n / 2 ^ e) (n % 2 ^ e) e then 1 else 0) * 2 ^ e

/-- A double as an unsigned integer of 64 bits; the cast saturates. -/
def toU64 (n : ℕ) : ℕ := min n (2 ^ 64 - 1)

/-- The integral part of `a / b` for the doubles `a` and `b`. The quotient is
taken to 128 bits after the point, with a last bit that stands for the rest. -/
def quotient (a b : ℕ) : ℕ :=
  if a = 0 then 0
  else if b = 0 then 2 ^ 64 - 1
  else
    let n := a * 2 ^ 128
    round (2 * (n / b) + if n % b = 0 then 0 else 1) / 2 ^ 129

/-- The integral part of the square root of the double `v`. -/
def sqrt (v : ℕ) : ℕ :=
  let m := v.log2 / 2
  let n := v * 4 ^ (52 - m)
  let s := n.sqrt
  (if s < n - s * s then s + 1 else s) / 2 ^ (52 - m)

theorem lt_two_pow_succ_log2 (n : ℕ) : n < 2 ^ (n.log2 + 1) := by
  rcases Nat.eq_zero_or_pos n with rfl | hpos
  · exact Nat.two_pow_pos _
  · exact (Nat.log2_lt (by omega)).1 (Nat.lt_succ_self _)

/-- What 53 bits hold is not changed. -/
theorem round_of_lt {n : ℕ} (h : n < 2 ^ 53) : round n = n := by
  have hd : dropped n = 0 := by
    rcases Nat.eq_zero_or_pos n with rfl | hpos
    · rfl
    · have := (Nat.log2_lt (by omega)).2 h
      rw [dropped]
      omega
  rw [round, hd]
  simp [roundsUp, Nat.mod_one]

/-- Rounding does not go past a power of two. -/
theorem round_le {n k : ℕ} (h : n ≤ 2 ^ k) : round n ≤ 2 ^ k := by
  rcases Nat.lt_or_ge n (2 ^ 53) with hlt | hge
  · rw [round_of_lt hlt]
    exact h
  · have hek : dropped n ≤ k := by
      have hlt : n < 2 ^ (k + 1) :=
        Nat.lt_of_le_of_lt h (Nat.pow_lt_pow_right (by decide) (Nat.lt_succ_self k))
      have hlog : n.log2 < k + 1 := (Nat.log2_lt (by omega)).2 hlt
      rw [dropped]
      omega
    have hpow : 2 ^ k = 2 ^ (k - dropped n) * 2 ^ dropped n := by
      rw [← Nat.pow_add, Nat.sub_add_cancel hek]
    have hpos : 0 < 2 ^ dropped n := Nat.two_pow_pos _
    rw [round, hpow]
    refine Nat.mul_le_mul_right _ ?_
    have hq : n / 2 ^ dropped n ≤ 2 ^ (k - dropped n) := by
      rw [Nat.div_le_iff_le_mul_add_pred hpos]
      rw [hpow, Nat.mul_comm] at h
      omega
    rcases Nat.lt_or_eq_of_le hq with hq | hq
    · split <;> omega
    · -- Then `n` is the power of two itself, and nothing is dropped.
      have hmod : n % 2 ^ dropped n = 0 := by
        have hdiv := Nat.div_add_mod n (2 ^ dropped n)
        rw [hq, Nat.mul_comm, ← hpow] at hdiv
        omega
      have hup : roundsUp (n / 2 ^ dropped n) (n % 2 ^ dropped n) (dropped n) = false := by
        rw [hmod, roundsUp]
        have : 2 ^ dropped n ≠ 0 := by omega
        simp [this.symm]
      rw [hup, hq]
      exact Nat.le_refl _

theorem toU64_lt (n : ℕ) : toU64 n < 2 ^ 64 := by
  rw [toU64]
  omega

/-- A square root has half the bits. -/
theorem sqrt_le {v : ℕ} (h : v < 2 ^ 64) : sqrt v ≤ 2 ^ 32 := by
  have hm : v.log2 / 2 ≤ 31 := by
    rcases Nat.eq_zero_or_pos v with rfl | hpos
    · decide
    · have := (Nat.log2_lt (by omega)).2 h
      omega
  generalize hmd : v.log2 / 2 = m at hm
  have hv : v < 4 ^ (m + 1) := by
    have hlt := lt_two_pow_succ_log2 v
    have hexp : v.log2 + 1 ≤ 2 * (m + 1) := by omega
    calc v < 2 ^ (v.log2 + 1) := hlt
      _ ≤ 2 ^ (2 * (m + 1)) := Nat.pow_le_pow_right (by decide) hexp
      _ = 4 ^ (m + 1) := by rw [Nat.pow_mul]
  have hn : v * 4 ^ (52 - m) < 2 ^ 53 * 2 ^ 53 := by
    calc v * 4 ^ (52 - m) < 4 ^ (m + 1) * 4 ^ (52 - m) :=
          Nat.mul_lt_mul_of_pos_right hv (Nat.pow_pos (by decide))
      _ = 4 ^ 53 := by rw [← Nat.pow_add]; congr 1; omega
      _ = 2 ^ 53 * 2 ^ 53 := by norm_num
  have hs : (v * 4 ^ (52 - m)).sqrt < 2 ^ 53 := Nat.sqrt_lt.2 hn
  have hr : ∀ x : ℕ, x ≤ 2 ^ 53 → x / 2 ^ (52 - m) ≤ 2 ^ 32 := by
    intro x hx
    have hp : 2 ^ 53 = 2 ^ (m + 1) * 2 ^ (52 - m) := by
      rw [← Nat.pow_add]
      congr 1
      omega
    have hle : x / 2 ^ (52 - m) ≤ 2 ^ (m + 1) :=
      Nat.div_le_of_le_mul (by rw [Nat.mul_comm, ← hp]; exact hx)
    exact Nat.le_trans hle (Nat.pow_le_pow_right (by decide) (by omega))
  rw [sqrt, hmd]
  refine hr _ ?_
  split <;> omega

end F64
