import Mathlib

/-!
# Linearizable objects

A history is the list of calls and returns of an object in the order in which
they happen, each with the name of the call it belongs to. It is linearizable
when the calls that returned, and some of those that have not, can be put in
one order in which each gives the answer it gave when they are executed one
after the other, and which keeps a call that returned before another was made
before that other.

The proof obligation is reduced to a simulation. `Exec` is the object whose
calls take effect in one instant between call and return; every history of it
is linearizable, so an implementation whose steps `Exec` can follow is too.
-/

namespace Linearizable

variable {σ ι α ρ : Type*}

inductive Event (ι α ρ : Type*)
  | inv (i : ι) (a : α)
  | ret (i : ι) (r : ρ)
deriving DecidableEq

/-- `Legal spec v l w`: the calls of `l`, executed one after the other from `v`,
give the answers recorded with them and end in `w`. -/
inductive Legal (spec : σ → α → ρ → σ → Prop) (v : σ) : List (ι × α × ρ) → σ → Prop
  | nil : Legal spec v [] v
  | snoc {l : List (ι × α × ρ)} {w w' : σ} {i : ι} {a : α} {r : ρ} (h : Legal spec v l w)
      (hs : spec w a r w') : Legal spec v (l ++ [(i, a, r)]) w'

/-- The order `l` of calls explains the history `h`. -/
structure Explains (spec : σ → α → ρ → σ → Prop) (v : σ) (l : List (ι × α × ρ))
    (h : List (Event ι α ρ)) : Prop where
  nodup : (l.map Prod.fst).Nodup
  called : ∀ {i a r}, (i, a, r) ∈ l → .inv i a ∈ h
  answered : ∀ {i r}, .ret i r ∈ h → ∃ a, (i, a, r) ∈ l
  legal : ∃ w, Legal spec v l w
  /-- A call that returned before another was made comes before it. -/
  order : ∀ {i j r a}, [.ret i r, .inv j a].Sublist h → j ∈ l.map Prod.fst →
    [i, j].Sublist (l.map Prod.fst)

/-- Some order of its calls explains `h`. -/
def IsLinearizable (spec : σ → α → ρ → σ → Prop) (v : σ) (h : List (Event ι α ρ)) : Prop :=
  ∃ l, Explains spec v l h

/-! ## The atomic object -/

/-- How far a call has got. -/
inductive Status (α ρ : Type*)
  | fresh
  | called (a : α)
  | done (r : ρ)
  | returned

variable [DecidableEq ι]

/-- The executions of the object whose calls take effect at one instant: the
history so far, how far each call is, and the value of the object. -/
inductive Exec (spec : σ → α → ρ → σ → Prop) (v : σ) :
    List (Event ι α ρ) → (ι → Status α ρ) → σ → Prop
  | init : Exec spec v [] (fun _ => .fresh) v
  | inv {h : List (Event ι α ρ)} {st : ι → Status α ρ} {w : σ} {i : ι} (a : α)
      (he : Exec spec v h st w) (hi : st i = .fresh) :
      Exec spec v (h ++ [.inv i a]) (Function.update st i (.called a)) w
  | lin {h : List (Event ι α ρ)} {st : ι → Status α ρ} {w w' : σ} {i : ι} {a : α} {r : ρ}
      (he : Exec spec v h st w) (hi : st i = .called a) (hs : spec w a r w') :
      Exec spec v h (Function.update st i (.done r)) w'
  | ret {h : List (Event ι α ρ)} {st : ι → Status α ρ} {w : σ} {i : ι} {r : ρ}
      (he : Exec spec v h st w) (hi : st i = .done r) :
      Exec spec v (h ++ [.ret i r]) (Function.update st i .returned) w

theorem update_cases {st : ι → Status α ρ} {i j : ι} {x y : Status α ρ}
    (h : Function.update st i x j = y) : (j = i ∧ x = y) ∨ (j ≠ i ∧ st j = y) := by
  by_cases hji : j = i
  · subst hji
    rw [Function.update_self] at h
    exact .inl ⟨rfl, h⟩
  · rw [Function.update_of_ne hji] at h
    exact .inr ⟨hji, h⟩

theorem mem_snoc {β : Type*} {l : List β} {x y : β} (h : y ∈ l ++ [x]) : y ∈ l ∨ y = x := by
  rcases List.mem_append.1 h with h | h
  · exact .inl h
  · exact .inr (List.mem_singleton.1 h)

/-- The invariant rule: what every admissible call keeps true of the value and
makes true of its answer holds of the value and of all answers. -/
theorem Exec.invariant {spec : σ → α → ρ → σ → Prop} {v w : σ} {h : List (Event ι α ρ)}
    {st : ι → Status α ρ} {I : σ → Prop} {C : α → Prop} {R : ρ → Prop}
    (he : Exec spec v h st w) (hv : I v) (hcalls : ∀ i a, .inv i a ∈ h → C a)
    (hspec : ∀ {w a r w'}, I w → C a → spec w a r w' → I w' ∧ R r) :
    I w ∧ ∀ i r, .ret i r ∈ h → R r := by
  suffices hs : I w ∧ (∀ i r, .ret i r ∈ h → R r) ∧ (∀ i a, st i = .called a → C a) ∧
      ∀ i r, st i = .done r → R r from ⟨hs.1, hs.2.1⟩
  induction he with
  | init => exact ⟨hv, by simp, by simp, by simp⟩
  | @inv h st w i a _ hi ih =>
      obtain ⟨hw, hret, hcalled, hdone⟩ :=
        ih fun j b hm => hcalls j b (List.mem_append_left _ hm)
      refine ⟨hw, ?_, ?_, ?_⟩
      · intro j r hm
        rcases mem_snoc hm with hm | hm
        · exact hret j r hm
        · cases hm
      · intro j b hj
        rcases update_cases hj with ⟨rfl, he⟩ | ⟨-, hj⟩
        · cases he
          exact hcalls j a (by simp)
        · exact hcalled j b hj
      · intro j r hj
        rcases update_cases hj with ⟨rfl, he⟩ | ⟨-, hj⟩
        · cases he
        · exact hdone j r hj
  | @lin h st w w' i a r _ hi hs ih =>
      obtain ⟨hw, hret, hcalled, hdone⟩ := ih hcalls
      obtain ⟨hw', hr⟩ := hspec hw (hcalled i a hi) hs
      refine ⟨hw', hret, ?_, ?_⟩
      · intro j b hj
        rcases update_cases hj with ⟨rfl, he⟩ | ⟨-, hj⟩
        · cases he
        · exact hcalled j b hj
      · intro j r' hj
        rcases update_cases hj with ⟨rfl, he⟩ | ⟨-, hj⟩
        · cases he
          exact hr
        · exact hdone j r' hj
  | @ret h st w i r _ hi ih =>
      obtain ⟨hw, hret, hcalled, hdone⟩ :=
        ih fun j b hm => hcalls j b (List.mem_append_left _ hm)
      refine ⟨hw, ?_, ?_, ?_⟩
      · intro j r' hm
        rcases mem_snoc hm with hm | hm
        · exact hret j r' hm
        · cases hm
          exact hdone i r hi
      · intro j b hj
        rcases update_cases hj with ⟨rfl, he⟩ | ⟨-, hj⟩
        · cases he
        · exact hcalled j b hj
      · intro j r' hj
        rcases update_cases hj with ⟨rfl, he⟩ | ⟨-, hj⟩
        · cases he
        · exact hdone j r' hj

/-- What an order of the calls that have taken effect keeps to. -/
structure Follows (spec : σ → α → ρ → σ → Prop) (v : σ) (l : List (ι × α × ρ))
    (h : List (Event ι α ρ)) (st : ι → Status α ρ) (w : σ) : Prop where
  explains : Explains spec v l h
  reaches : Legal spec v l w
  called : ∀ {i a}, st i = .called a → .inv i a ∈ h ∧ i ∉ l.map Prod.fst
  fresh : ∀ {i}, st i = .fresh → i ∉ l.map Prod.fst
  done : ∀ {i r}, st i = .done r → ∃ a, (i, a, r) ∈ l

theorem sublist_pair_snoc {β : Type*} {l : List β} {a b x : β}
    (h : [a, b].Sublist (l ++ [x])) : [a, b].Sublist l ∨ (b = x ∧ a ∈ l) := by
  rcases List.sublist_append_iff.1 h with ⟨l₁, l₂, he, h₁, h₂⟩
  rcases List.sublist_singleton.1 h₂ with rfl | rfl
  · rw [List.append_nil] at he
    exact .inl (he ▸ h₁)
  · have he' : l₁ ++ [x] = [a] ++ [b] := he.symm
    obtain ⟨rfl, hx⟩ := List.append_inj' he' rfl
    cases hx
    exact .inr ⟨rfl, List.singleton_sublist.1 h₁⟩

theorem Follows.inv {spec : σ → α → ρ → σ → Prop} {v w : σ} {l : List (ι × α × ρ)}
    {h : List (Event ι α ρ)} {st : ι → Status α ρ} (hf : Follows spec v l h st w) {i : ι} (a : α)
    (hi : st i = .fresh) :
    Follows spec v l (h ++ [.inv i a]) (Function.update st i (.called a)) w := by
  have hnot := hf.fresh hi
  refine ⟨⟨hf.explains.nodup, ?_, ?_, hf.explains.legal, ?_⟩, hf.reaches, ?_, ?_, ?_⟩
  · intro j b r hm
    exact List.mem_append_left _ (hf.explains.called hm)
  · intro j r hm
    rcases mem_snoc hm with hm | hm
    · exact hf.explains.answered hm
    · cases hm
  · intro j k r b hs hk
    rcases sublist_pair_snoc hs with hs | ⟨he, -⟩
    · exact hf.explains.order hs hk
    · cases he
      exact absurd hk hnot
  · intro j b hj
    rcases update_cases hj with ⟨rfl, he⟩ | ⟨-, hj⟩
    · cases he
      exact ⟨by simp, hnot⟩
    · exact ⟨List.mem_append_left _ (hf.called hj).1, (hf.called hj).2⟩
  · intro j hj
    rcases update_cases hj with ⟨rfl, -⟩ | ⟨-, hj⟩
    · exact hnot
    · exact hf.fresh hj
  · intro j r hj
    rcases update_cases hj with ⟨rfl, he⟩ | ⟨-, hj⟩
    · cases he
    · exact hf.done hj

/-- The call that takes effect goes to the end of the order. -/
theorem Follows.lin {spec : σ → α → ρ → σ → Prop} {v w w' : σ} {l : List (ι × α × ρ)}
    {h : List (Event ι α ρ)} {st : ι → Status α ρ} (hf : Follows spec v l h st w) {i : ι} {a : α}
    {r : ρ} (hi : st i = .called a) (hs : spec w a r w') :
    Follows spec v (l ++ [(i, a, r)]) h (Function.update st i (.done r)) w' := by
  obtain ⟨hin, hnot⟩ := hf.called hi
  have hreach : Legal spec v (l ++ [(i, a, r)]) w' := .snoc hf.reaches hs
  refine ⟨⟨?_, ?_, ?_, ⟨w', hreach⟩, ?_⟩, hreach, ?_, ?_, ?_⟩
  · rw [List.map_append, List.map_singleton]
    exact List.Nodup.append hf.explains.nodup (List.nodup_singleton _)
      (List.disjoint_singleton.2 hnot)
  · intro j b r' hm
    rcases mem_snoc hm with hm | hm
    · exact hf.explains.called hm
    · cases hm
      exact hin
  · intro j r' hm
    obtain ⟨b, hb⟩ := hf.explains.answered hm
    exact ⟨b, List.mem_append_left _ hb⟩
  · intro j k r' b hsub hk
    rw [List.map_append, List.map_singleton] at hk ⊢
    rcases mem_snoc hk with hk | hk
    · exact (hf.explains.order hsub hk).trans (List.sublist_append_left _ _)
    · cases hk
      obtain ⟨b', hb'⟩ := hf.explains.answered (hsub.subset (List.mem_cons_self ..))
      have hj : j ∈ l.map Prod.fst := List.mem_map.2 ⟨_, hb', rfl⟩
      exact (List.singleton_sublist.2 hj).append (List.Sublist.refl [i])
  · intro j b hj
    rcases update_cases hj with ⟨rfl, he⟩ | ⟨hji, hj⟩
    · cases he
    · refine ⟨(hf.called hj).1, ?_⟩
      simp [hji, (hf.called hj).2]
  · intro j hj
    rcases update_cases hj with ⟨rfl, he⟩ | ⟨hji, hj⟩
    · cases he
    · simp [hji, hf.fresh hj]
  · intro j r' hj
    rcases update_cases hj with ⟨rfl, he⟩ | ⟨-, hj⟩
    · cases he
      exact ⟨a, by simp⟩
    · obtain ⟨b, hb⟩ := hf.done hj
      exact ⟨b, List.mem_append_left _ hb⟩

theorem Follows.ret {spec : σ → α → ρ → σ → Prop} {v w : σ} {l : List (ι × α × ρ)}
    {h : List (Event ι α ρ)} {st : ι → Status α ρ} (hf : Follows spec v l h st w) {i : ι} {r : ρ}
    (hi : st i = .done r) :
    Follows spec v l (h ++ [.ret i r]) (Function.update st i .returned) w := by
  refine ⟨⟨hf.explains.nodup, ?_, ?_, hf.explains.legal, ?_⟩, hf.reaches, ?_, ?_, ?_⟩
  · intro j b r' hm
    exact List.mem_append_left _ (hf.explains.called hm)
  · intro j r' hm
    rcases mem_snoc hm with hm | hm
    · exact hf.explains.answered hm
    · cases hm
      exact hf.done hi
  · intro j k r' b hs hk
    rcases sublist_pair_snoc hs with hs | ⟨he, -⟩
    · exact hf.explains.order hs hk
    · cases he
  · intro j b hj
    rcases update_cases hj with ⟨-, he⟩ | ⟨-, hj⟩
    · cases he
    · exact ⟨List.mem_append_left _ (hf.called hj).1, (hf.called hj).2⟩
  · intro j hj
    rcases update_cases hj with ⟨-, he⟩ | ⟨-, hj⟩
    · cases he
    · exact hf.fresh hj
  · intro j r' hj
    rcases update_cases hj with ⟨-, he⟩ | ⟨-, hj⟩
    · cases he
    · exact hf.done hj

/-- Every history of the atomic object is linearizable. -/
theorem Exec.isLinearizable {spec : σ → α → ρ → σ → Prop} {v w : σ} {h : List (Event ι α ρ)}
    {st : ι → Status α ρ} (he : Exec spec v h st w) : IsLinearizable spec v h := by
  suffices hf : ∃ l, Follows spec v l h st w by
    obtain ⟨l, hl⟩ := hf
    exact ⟨l, hl.explains⟩
  induction he with
  | init =>
      refine ⟨[], ⟨List.nodup_nil, ?_, ?_, ⟨v, .nil⟩, ?_⟩, .nil, ?_, ?_, ?_⟩ <;> simp
  | inv a _ hi ih =>
      obtain ⟨l, hl⟩ := ih
      exact ⟨l, hl.inv a hi⟩
  | lin _ hi hs ih =>
      obtain ⟨l, hl⟩ := ih
      exact ⟨_, hl.lin hi hs⟩
  | ret _ hi ih =>
      obtain ⟨l, hl⟩ := ih
      exact ⟨l, hl.ret hi⟩

end Linearizable
