import Mathlib

/-!
# Sums that change at one place

An accounting argument compares a sum before and after a step that touches one
summand. The lemmas are stated without subtraction, so that `omega` can finish.

The form is an exchange: the new sum with what was there before is the old sum with
what is there now. There is one for a sum over a finite set (`sum_exchange`) and one
each for a list in which an entry is replaced or removed, and exchanges can be
extended by a summand that stays (`exchange_left`, `exchange_right`).
-/

open Finset

namespace Sums

section

variable {A : Type*} [AddCommMonoid A] {x x' a b : A}

/-- An exchange in one summand is an exchange in the sum. -/
theorem exchange_left (h : x' + a = x + b) (y : A) : x' + y + a = x + y + b := by
  rw [add_right_comm, h, add_right_comm]

theorem exchange_right (h : x' + a = x + b) (y : A) : y + x' + a = y + x + b := by
  rw [add_assoc, h, add_assoc]

end

theorem sum_exchange {ι A : Type*} [DecidableEq ι] [AddCommMonoid A] {u : Finset ι} {f g : ι → A}
    {k : ι} (hk : k ∈ u) (h : ∀ i ∈ u, i ≠ k → f i = g i) :
    ∑ i ∈ u, f i + g k = ∑ i ∈ u, g i + f k := by
  have hcong : ∑ i ∈ u.erase k, f i = ∑ i ∈ u.erase k, g i :=
    sum_congr rfl fun i hi => h i (mem_of_mem_erase hi) (ne_of_mem_erase hi)
  rw [← add_sum_erase u f hk, ← add_sum_erase u g hk, hcong, add_assoc, add_assoc, add_comm (f k),
    add_comm (g k), add_assoc, add_assoc, add_comm (f k)]

/-- The same for an entry of a list that is replaced. -/
theorem sum_map_set {α A : Type*} [AddCommMonoid A] (f : α → A) (b : α) :
    ∀ {as : List α} {k : Nat} {a : α}, as[k]? = some a →
      ((as.set k b).map f).sum + f a = (as.map f).sum + f b := by
  intro as
  induction as with
  | nil => simp
  | cons a₀ as ih =>
      intro k a h
      cases k with
      | zero =>
          cases h
          rw [List.set_cons_zero, List.map_cons, List.map_cons, List.sum_cons, List.sum_cons,
            add_right_comm, add_comm (f b), add_right_comm]
      | succ k =>
          rw [List.set_cons_succ, List.map_cons, List.map_cons, List.sum_cons, List.sum_cons,
            add_assoc, ih h, add_assoc]

/-- And for one that is removed. -/
theorem sum_map_eraseIdx {α A : Type*} [AddCommMonoid A] (f : α → A) :
    ∀ {as : List α} {k : Nat} {a : α}, as[k]? = some a →
      ((as.eraseIdx k).map f).sum + f a = (as.map f).sum := by
  intro as
  induction as with
  | nil => simp
  | cons a₀ as ih =>
      intro k a h
      cases k with
      | zero =>
          cases h
          rw [List.eraseIdx_cons_zero, List.map_cons, List.sum_cons, add_comm]
      | succ k =>
          rw [List.eraseIdx_cons_succ, List.map_cons, List.map_cons, List.sum_cons, List.sum_cons,
            add_assoc, ih h]

theorem sum_range_getElem? {α : Type*} (f : Option α → Nat) (as : List α) :
    ∑ i ∈ range as.length, f as[i]? = (as.map fun a => f (some a)).sum := by
  induction as with
  | nil => rfl
  | cons a as ih =>
      rw [List.length_cons, sum_range_succ', List.map_cons, List.sum_cons, ← ih, Nat.add_comm]
      simp

theorem sum_of_nodup {n : Nat} {f : Nat → Nat} {as : List Nat} (hn : as.Nodup)
    (hlt : ∀ a ∈ as, a < n) :
    ∑ i ∈ range n, f i =
      ∑ i ∈ range n, (if i ∈ as then 0 else f i) + (as.map f).sum := by
  have hsub : ∑ i ∈ range n, (if i ∈ as then f i else 0) = (as.map f).sum := by
    rw [← List.sum_toFinset f hn, ← sum_filter]
    refine sum_congr (Finset.ext fun i => ?_) fun _ _ => rfl
    simpa using fun hi => hlt i hi
  rw [← hsub, ← sum_add_distrib]
  refine sum_congr rfl fun i _ => ?_
  split <;> simp

end Sums
