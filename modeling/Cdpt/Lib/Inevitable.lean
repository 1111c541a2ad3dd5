import Cdpt.Lib.Lts

/-!
# What every schedule comes to

`Reaches` says what some run can do. `Inevitably step P Q s` says what all of them
must: whoever chooses the steps, as long as each satisfies `P`, a state in `Q` comes
after finitely many of them, and until then there is always one to take. It needs no
fairness, so it fails as soon as one party can keep the others from moving.

The rule for it is a measure with values in any well-founded order, together with an
invariant that is needed only up to the first state in `Q`.
-/

namespace Lts

variable {σ ι : Type*} {step : σ → ι → Option σ} {P : σ → ι → Prop} {Q : σ → Prop}

/-- Every run of steps that satisfy `P` gets to a state in `Q`, and none gets stuck
before. -/
inductive Inevitably (step : σ → ι → Option σ) (P : σ → ι → Prop) (Q : σ → Prop) : σ → Prop
  | now {s : σ} (h : Q s) : Inevitably step P Q s
  | later {s : σ} (hmove : ∃ l s', P s l ∧ step s l = some s')
      (h : ∀ l s', P s l → step s l = some s' → Inevitably step P Q s') : Inevitably step P Q s

/-- What all runs come to, some run comes to. -/
theorem Inevitably.reaches {s : σ} (h : Inevitably step P Q s) :
    ∃ s', Reaches step P s s' ∧ Q s' := by
  induction h with
  | now h => exact ⟨_, .refl, h⟩
  | later hmove _ ih =>
      obtain ⟨l, s₁, hp, hs⟩ := hmove
      obtain ⟨s', hr, hQ⟩ := ih l s₁ hp hs
      exact ⟨s', (Reaches.refl.tail hp hs).trans hr, hQ⟩

/-- The measure rule: outside `Q` some step is possible and each one keeps the
invariant and goes down. -/
theorem Inevitably.of_measure {β : Type*} [LT β] [WellFoundedLT β] {I : σ → Prop} {μ : σ → β}
    (hmove : ∀ {a : σ}, I a → ¬ Q a → ∃ l b, P a l ∧ step a l = some b)
    (hstep : ∀ {a b : σ} {l : ι}, I a → ¬ Q a → P a l → step a l = some b → I b ∧ μ b < μ a)
    {s : σ} (h : I s) : Inevitably step P Q s := by
  suffices hall : ∀ x, ∀ s, μ s = x → I s → Inevitably step P Q s from hall _ s rfl h
  intro x
  induction x using WellFoundedLT.induction with
  | ind x ih =>
      rintro s rfl hI
      by_cases hQ : Q s
      · exact .now hQ
      · refine .later (hmove hI hQ) fun l s' hp hs => ?_
        obtain ⟨hI', hlt⟩ := hstep hI hQ hp hs
        exact ih _ hlt s' rfl hI'

end Lts
