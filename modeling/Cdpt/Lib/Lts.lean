import Mathlib

/-!
# Labelled transition systems with a partial step function

A system is a function `step : σ → ι → Option σ`: a label that is not enabled
answers `none`. A claim about interleavings is a claim about every state that
some list of labels leads to, so the whole vocabulary is the reachability
predicate `Reaches`, its induction rule, and the executable `runs`, which
turns a concrete list of labels into a witness of reachability.

Runs are restricted by a predicate on the state before the step and the label.
That is the form every side condition takes here: a run is admissible when each
of its steps is, and admissibility never looks at what the step computes.
-/

namespace Lts

variable {σ ι : Type*} {step : σ → ι → Option σ} {P Q : σ → ι → Prop}

/-- `Reaches step P s s'`: some run from `s`, every step of which satisfies
`P` in the state it is taken from, ends in `s'`. -/
inductive Reaches (step : σ → ι → Option σ) (P : σ → ι → Prop) (s : σ) : σ → Prop
  | refl : Reaches step P s s
  | tail {s' s'' : σ} {l : ι} (h : Reaches step P s s') (hp : P s' l)
      (hs : step s' l = some s'') : Reaches step P s s''

/-- The invariant rule: what holds at the start and survives each admissible
step holds in every state reached. -/
theorem Reaches.invariant {I : σ → Prop} {s s' : σ} (h : Reaches step P s s')
    (h₀ : I s) (hstep : ∀ {a b : σ} {l : ι}, I a → P a l → step a l = some b → I b) :
    I s' := by
  induction h with
  | refl => exact h₀
  | tail _ hp hs ih => exact hstep ih hp hs

theorem Reaches.mono (hPQ : ∀ s l, P s l → Q s l) {s s' : σ}
    (h : Reaches step P s s') : Reaches step Q s s' := by
  induction h with
  | refl => exact .refl
  | tail _ hp hs ih => exact .tail ih (hPQ _ _ hp) hs

theorem Reaches.trans {s₁ s₂ s₃ : σ} (h : Reaches step P s₁ s₂)
    (h' : Reaches step P s₂ s₃) : Reaches step P s₁ s₃ := by
  induction h' with
  | refl => exact h
  | tail _ hp hs ih => exact .tail ih hp hs

/-- A run that takes a step takes its first one where it starts. -/
theorem Reaches.first {s s' : σ} (h : Reaches step P s s') : s = s' ∨ ∃ l, P s l := by
  induction h with
  | refl => exact .inl rfl
  | tail _ hp _ ih =>
      rcases ih with rfl | hfirst
      · exact .inr ⟨_, hp⟩
      · exact .inr hfirst

/-- A run that keeps the list of its labels. -/
inductive Trace (step : σ → ι → Option σ) (P : σ → ι → Prop) (s : σ) : List ι → σ → Prop
  | nil : Trace step P s [] s
  | snoc {ls : List ι} {s' s'' : σ} {l : ι} (h : Trace step P s ls s') (hp : P s' l)
      (hs : step s' l = some s'') : Trace step P s (ls ++ [l]) s''

theorem Trace.reaches {s s' : σ} {ls : List ι} (h : Trace step P s ls s') :
    Reaches step P s s' := by
  induction h with
  | nil => exact .refl
  | snoc _ hp hs ih => exact .tail ih hp hs

theorem Trace.append {s s₁ s' : σ} {ls ms : List ι} (h : Trace step P s ls s₁)
    (h' : Trace step P s₁ ms s') : Trace step P s (ls ++ ms) s' := by
  induction h' with
  | nil => exact (List.append_nil ls).symm ▸ h
  | snoc _ hp hs ih => exact List.append_assoc .. ▸ .snoc ih hp hs

/-- The ranking rule: a measure that no step increases and every step with a
label of the kind `p` decreases bounds how many of these there are. -/
theorem Trace.countP_le {I : σ → Prop} {p : ι → Bool} {μ : σ → ℕ} {s s' : σ} {ls : List ι}
    (h : Trace step P s ls s') (h₀ : I s)
    (hI : ∀ {a b : σ} {l : ι}, I a → P a l → step a l = some b → I b)
    (hμ : ∀ {a b : σ} {l : ι}, I a → P a l → step a l = some b →
      (if p l then 1 else 0) + μ b ≤ μ a) :
    ls.countP p + μ s' ≤ μ s := by
  suffices hall : I s' ∧ ls.countP p + μ s' ≤ μ s from hall.2
  induction h with
  | nil => exact ⟨h₀, by simp⟩
  | snoc _ hp hs ih =>
      obtain ⟨hi, hle⟩ := ih
      refine ⟨hI hi hp hs, ?_⟩
      have hstep := hμ hi hp hs
      rw [List.countP_append, List.countP_singleton]
      omega

/-- Runs a list of labels, checking admissibility at every step. -/
def runs (step : σ → ι → Option σ) (P : σ → ι → Prop) [∀ s l, Decidable (P s l)] :
    σ → List ι → Option σ
  | s, [] => some s
  | s, l :: ls => if P s l then (step s l).bind fun s' => runs step P s' ls else none

theorem Trace.cons {s s₁ s' : σ} {l : ι} {ls : List ι} (hp : P s l) (hs : step s l = some s₁)
    (h : Trace step P s₁ ls s') : Trace step P s (l :: ls) s' := by
  induction h with
  | nil => exact .snoc .nil hp hs
  | snoc _ hp' hs' ih => exact .snoc ih hp' hs'

theorem trace_of_runs [∀ s l, Decidable (P s l)] {ls : List ι} :
    ∀ {s s' : σ}, runs step P s ls = some s' → Trace step P s ls s' := by
  induction ls with
  | nil =>
      intro s s' h
      rw [runs, Option.some.injEq] at h
      exact h ▸ .nil
  | cons l ls ih =>
      intro s s' h
      rw [runs] at h
      split at h
      · next hp =>
          obtain ⟨s₁, hs₁, h⟩ := Option.bind_eq_some_iff.1 h
          exact .cons hp hs₁ (ih h)
      · next => cases h

theorem exists_trace_of_any [∀ s l, Decidable (P s l)] {p : σ → Bool} {s : σ} {ls : List ι}
    (h : (runs step P s ls).any p = true) : ∃ s', Trace step P s ls s' ∧ p s' = true := by
  cases hr : runs step P s ls with
  | none =>
      rw [hr] at h
      cases h
  | some s' =>
      rw [hr] at h
      exact ⟨s', trace_of_runs hr, h⟩

/-- A concrete run that ends in a state the test `p` accepts. -/
theorem exists_of_any [∀ s l, Decidable (P s l)] {p : σ → Bool} {s : σ} {ls : List ι}
    (h : (runs step P s ls).any p = true) : ∃ s', Reaches step P s s' ∧ p s' = true := by
  obtain ⟨s', ht, hp⟩ := exists_trace_of_any h
  exact ⟨s', ht.reaches, hp⟩

/-- A concrete run that ends in a state with the decidable property `Q`. -/
theorem exists_of_runs [∀ s l, Decidable (P s l)] {Q : σ → Prop} [DecidablePred Q] {s : σ}
    (ls : List ι) (h : (runs step P s ls).any (fun s' => decide (Q s')) = true) :
    ∃ s', Reaches step P s s' ∧ Q s' := by
  obtain ⟨s', hr, hQ⟩ := exists_of_any h
  exact ⟨s', hr, of_decide_eq_true hQ⟩

end Lts
