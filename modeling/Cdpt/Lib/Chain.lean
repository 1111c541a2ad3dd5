import Mathlib

/-!
# Null-terminated chains of pointers

`Seg next start l`: the chain that starts at the pointer `start` and follows `next`
goes through the cells `l` and ends in null. Cells are added at the end, by a write
to the `next` pointer of the last one.

The list is determined by the pointers (`unique`), so a concurrent list can carry it
as a ghost: a step that writes no pointer keeps it (`congr`), the one step that does
extends it (`snoc`), and what a walker has in hand is a split of it, with the chain
from the cell under the cursor as a chain of its own (`drop`). Cells are found by
their position, and the pointer of each leads to the next (`next_eq`, `reaches`).
-/

namespace Chain

variable {α : Type*} {next next' : α → Option α} {start : Option α} {l l' : List α} {n c : α}

def Seg (next : α → Option α) : Option α → List α → Prop
  | start, [] => start = none
  | start, n :: l => start = some n ∧ Seg next (next n) l

theorem Seg.head (h : Seg next start l) : start = l.head? := by
  cases l with
  | nil => exact h
  | cons n l => exact h.1

/-- The pointers determine the cells. -/
theorem Seg.unique (h : Seg next start l) (h' : Seg next start l') : l = l' := by
  induction l generalizing start l' with
  | nil =>
      cases l' with
      | nil => rfl
      | cons m l' =>
          have hs : start = none := h
          rw [h'.1] at hs
          cases hs
  | cons n l ih =>
      cases l' with
      | nil =>
          have hs : start = none := h'
          rw [h.1] at hs
          cases hs
      | cons m l' =>
          have hs := h.1
          rw [h'.1] at hs
          cases hs
          rw [ih h.2 h'.2]

theorem Seg.congr (h : Seg next start l) (he : ∀ n ∈ l, next' n = next n) :
    Seg next' start l := by
  induction l generalizing start with
  | nil => exact h
  | cons n l ih =>
      refine ⟨h.1, ?_⟩
      rw [he n (by simp)]
      exact ih h.2 fun m hm => he m (by simp [hm])

/-- What is behind a cell of the chain is a chain. -/
theorem Seg.drop {l₁ l₂ : List α} (h : Seg next start (l₁ ++ n :: l₂)) :
    Seg next (next n) l₂ := by
  induction l₁ generalizing start with
  | nil => exact h.2
  | cons m l₁ ih => exact ih h.2

/-- The pointer of a cell leads to the cell behind it. -/
theorem Seg.next_eq {i : ℕ} (h : Seg next start l) (hi : l[i]? = some n) :
    next n = l[i + 1]? := by
  induction l generalizing start i with
  | nil => cases hi
  | cons m l ih =>
      cases i with
      | zero =>
          cases hi
          rw [List.getElem?_cons_succ, ← List.head?_eq_getElem?]
          exact h.2.head
      | succ i => exact ih h.2 hi

/-- A chain can be walked to its end. -/
theorem Seg.reaches {i : ℕ} (h : Seg next start l) (hi : l[i]? = some n) :
    ∃ m, next m = none ∧ Relation.ReflTransGen (fun a b => next a = some b) n m ∧
      l.getLast? = some m := by
  induction l generalizing start i n with
  | nil => cases hi
  | cons x l ih =>
      cases l with
      | nil =>
          have hn : n = x := by
            cases i with
            | zero => exact (Option.some.inj hi).symm
            | succ i => cases hi
          exact ⟨x, h.2, hn ▸ .refl, rfl⟩
      | cons y l =>
          have hlast : (x :: y :: l).getLast? = (y :: l).getLast? := List.getLast?_cons_cons
          cases i with
          | zero =>
              cases hi
              obtain ⟨m, hm, hr, hl⟩ := ih (i := 0) h.2 rfl
              exact ⟨m, hm, .head h.2.1 hr, hlast.trans hl⟩
          | succ i =>
              obtain ⟨m, hm, hr, hl⟩ := ih h.2 hi
              exact ⟨m, hm, hr, hlast.trans hl⟩

/-- The cell whose `next` pointer is null is the last one; it gets a successor. -/
theorem Seg.snoc [DecidableEq α] (h : Seg next start l) (hn : n ∈ l) (hend : next n = none)
    (hc : c ∉ l) (hnull : next c = none) :
    Seg (Function.update next n (some c)) start (l ++ [c]) := by
  induction l generalizing start with
  | nil => cases hn
  | cons m l ih =>
      refine ⟨h.1, ?_⟩
      have hcn : c ≠ n := by
        rintro rfl
        exact hc hn
      by_cases hmn : n = m
      · subst hmn
        have hl : l = [] := by
          have h2 := h.2
          rw [hend] at h2
          cases l with
          | nil => rfl
          | cons m l => cases h2.1
        subst hl
        rw [Function.update_self]
        refine ⟨rfl, ?_⟩
        show Function.update next n (some c) c = none
        rw [Function.update_of_ne hcn]
        exact hnull
      · rw [Function.update_of_ne (Ne.symm hmn)]
        have hn' : n ∈ l := (List.mem_cons.1 hn).resolve_left hmn
        exact ih h.2 hn' fun hc' => hc (List.mem_cons_of_mem m hc')

end Chain
