import Cdpt.Proofs.Trace

/-!
# What the derived methods visit

The generated code calls its method once on each managed pointer unless a name is
read under a later binding of it. Every wrapper opens a block for the `__inner` it
binds, except the reference: its `let __inner` stands in the block of whatever
surrounds it. In a tuple that is itself reached through `__inner`, the elements
behind a reference are then looked up in what the reference leads to. `Ty.clear`
says that this happens to no element with managed pointers.

That clear types are visited exactly is an induction over the type (`Exact`), with
the environment in which the code runs as a parameter: the expression for a value
denotes it there. Only the tuple, and the fields of a variant, are interesting,
since their elements run one after the other in an environment that the elements
before may have changed. `Found` says what is left of it: the elements that do not
start at `__inner` are found as before, and those that do as long as nobody has
bound it.

For the converse it is enough to have, for each type that is not clear, one value
with a pointer that the code does not come to (`Missed`): where the code is to look
for it, a reference before has bound the name to something else, whose pointers are
others. As a run reaches nothing but parts of what its names denote, that pointer is
missed, whatever is visited twice instead. The two halves together make the
condition exact, for both generated methods, since they differ in the call at the
leaves only.
-/

namespace Cdpt.Derive

variable {α : Type} {m : Method}

/-! ## Clear types are visited exactly -/

/-- What the code for a type is to call its method on. -/
def visits (m : Method) (v : Val α) : List (Method × α) := v.occurrences.map fun p => (m, p)

theorem visits_list (m : Method) (v : Val α) (vs : List (Val α)) :
    (occurrencesList (v :: vs)).map (fun p => (m, p)) =
      visits m v ++ (occurrencesList vs).map fun p => (m, p) := by
  rw [occurrencesList, List.map_append, visits]

/-- The code for `T` is exact where its names are clear. -/
def Exact (α : Type) (m : Method) (T : Ty) : Prop :=
  ∀ (e : Expr) (env : Env α) (v : Val α), e.eval env = some v → HasTy T v →
    T.clear (e.root = .inner) = true → (trace m T e env).2 = visits m v

theorem exact_each {T : Ty} {x : Ident} (ih : Exact α m T)
    (hc : T.clear (x = .inner) = true) (env : Env α) (vs : List (Val α))
    (hvs : ∀ v ∈ vs, HasTy T v) :
    traceEach m T x env vs = (occurrencesList vs).map fun p => (m, p) := by
  induction vs with
  | nil => rfl
  | cons v vs ihvs =>
      have hv : (trace m T (.var x) (env.set x v)).2 = visits m v :=
        ih (.var x) (env.set x v) v (Function.update_self ..) (hvs v (by simp)) hc
      rw [visits_list, ← ihvs fun v hv => hvs v (by simp [hv]), ← hv]
      rfl

/-- Where the elements of a tuple, or the fields, are found. Once `__inner` is
bound again, nothing is said about those that start there. -/
def Found (es : Nat → Expr) (i : Nat) (bound : Bool) (env : Env α) (vs : List (Val α)) : Prop :=
  ∀ j < vs.length, (bound = true → (es (i + j)).root ≠ .inner) → (es (i + j)).eval env = vs[j]?

theorem Found.head {es : Nat → Expr} {i : Nat} {bound : Bool} {env : Env α} {v : Val α}
    {vs : List (Val α)} (h : Found es i bound env (v :: vs))
    (hi : bound = true → (es i).root ≠ .inner) : (es i).eval env = some v :=
  h 0 (Nat.succ_pos _) hi

/-- The code for the first element does not disturb the others. -/
theorem Found.tail {es : Nat → Expr} {i : Nat} {bound : Bool} {env : Env α} {v : Val α}
    {vs : List (Val α)} (h : Found es i bound env (v :: vs)) (T : Ty) :
    Found es (i + 1) (bound || T.bindsInner) (trace m T (es i) env).1 vs := by
  intro j hlt hj
  have hs := trace_sound (m := m) (P := fun _ => True) T (es i) env fun _ _ => trivial
  have hidx : i + 1 + j = i + (j + 1) := by omega
  rw [hidx] at hj ⊢
  have hold : (es (i + (j + 1))).eval env = vs[j]? :=
    h (j + 1) (Nat.succ_lt_succ hlt) fun hb => hj (by rw [hb, Bool.true_or])
  rw [← hold]
  cases hb : T.bindsInner with
  | false => rw [hs.kept hb]
  | true =>
      refine Expr.eval_congr (hs.frame _ (hj ?_))
      rw [hb, Bool.or_true]

/-- The three conditions on the first element. -/
theorem clearElems_cons {inner : Nat → Bool} {i : Nat} {bound : Bool} {T : Ty} {ts : List Ty} :
    clearElems inner i bound (T :: ts) = true ↔ T.clear (inner i) = true ∧
      (bound = true → inner i = true → T.hasPtr = false) ∧
      clearElems inner (i + 1) (bound || T.bindsInner) ts = true := by
  rw [clearElems]
  cases bound <;> cases inner i <;> cases T.hasPtr <;> simp

theorem exact_elems {ts : List Ty} {es : Nat → Expr} (ih : ∀ T ∈ ts, Exact α m T) :
    ∀ {i : Nat} {bound : Bool} {env : Env α} {vs : List (Val α)},
      List.Forall₂ HasTy ts vs → Found es i bound env vs →
      clearElems (fun j => (es j).root = .inner) i bound ts = true →
      (traceElems m es i ts env).2 = (occurrencesList vs).map fun p => (m, p) := by
  induction ts with
  | nil =>
      intro i bound env vs hvs _ _
      cases hvs
      rfl
  | cons T ts ihts =>
      intro i bound env vs hvs hfound hc
      cases hvs with
      | cons hv hvs =>
          obtain ⟨hT, hptr, hts⟩ := clearElems_cons.1 hc
          rw [traceElems_cons, visits_list,
            ihts (fun T hT => ih T (by simp [hT])) hvs (hfound.tail T) hts]
          refine congrArg (· ++ _) ?_
          -- Either the element is found, or there is nothing in it to find.
          by_cases hi : bound = true → (es i).root ≠ .inner
          · exact ih T (by simp) (es i) env _ (hfound.head hi) hv hT
          · push Not at hi
            have hno := hptr hi.1 (decide_eq_true hi.2)
            rw [trace_noPtr hno, visits, occurrences_noPtr hno hv]
            rfl

theorem Found.field {e : Expr} {env : Env α} {vs : List (Val α)}
    (h : e.eval env = some (.tuple vs)) : Found e.field 0 false env vs := by
  intro j _ _
  rw [Nat.zero_add, Expr.eval, h]

theorem exact (m : Method) (T : Ty) : Exact α m T := by
  induction T using Ty.induct with
  | ptr k =>
      intro e env v he hv _
      cases hv
      rw [trace_ptr m k he, visits, Val.occurrences]
      rfl
  | other =>
      intro e env v _ hv _
      cases hv
      rw [trace_other, visits, Val.occurrences]
      rfl
  | option T ih =>
      intro e env v he hv hc
      rw [Ty.clear] at hc
      rw [trace_option, he]
      cases hv with
      | none => rw [visits, Val.occurrences]; rfl
      | some hv =>
          rename_i w
          have hw := exact_each ih (x := .inner) hc env [w] fun v hv' =>
            List.mem_singleton.1 hv' ▸ hv
          rw [visits, Val.occurrences]
          simpa [occurrencesList, someOf] using hw
  | seq k T ih =>
      intro e env v he hv hc
      rw [Ty.clear] at hc
      rw [trace_seq, he]
      cases hv with
      | seq hvs =>
          rw [visits, Val.occurrences]
          exact exact_each ih (x := .inner) hc env _ hvs
  | array T ih =>
      intro e env v he hv hc
      rw [Ty.clear] at hc
      rw [trace_array, he]
      cases hv with
      | array hvs =>
          rw [visits, Val.occurrences]
          exact exact_each ih (x := .inner) hc env _ hvs
  | slice T ih =>
      intro e env v he hv hc
      rw [Ty.clear] at hc
      rw [trace_slice, he]
      cases hv with
      | slice hvs =>
          rw [visits, Val.occurrences]
          exact exact_each ih (x := .inner) hc env _ hvs
  | smart k T ih =>
      intro e env v he hv hc
      rw [Ty.clear] at hc
      cases hv with
      | smart hv =>
          rw [trace_smart]
          exact ih (.deref e) env v he hv hc
  | result T E ihT ihE =>
      intro e env v he hv hc
      rw [Ty.clear, Bool.and_eq_true] at hc
      rw [trace_result, he, visits]
      cases hv with
      | ok hv =>
          rename_i w
          have hw := exact_each ihT (x := .ok) hc.1 env [w] fun v hv' =>
            List.mem_singleton.1 hv' ▸ hv
          rw [Val.occurrences]
          simpa [occurrencesList, okOf, errOf, traceEach] using hw
      | err hv =>
          rename_i w
          have hw := exact_each ihE (x := .err) hc.2 env [w] fun v hv' =>
            List.mem_singleton.1 hv' ▸ hv
          rw [Val.occurrences]
          simpa [occurrencesList, okOf, errOf, traceEach] using hw
  | tuple ts ih =>
      intro e env v he hv hc
      rw [Ty.clear] at hc
      cases hv with
      | tuple hvs =>
          rw [trace_tuple, visits, Val.occurrences]
          exact exact_elems ih hvs (Found.field he) hc
  | reference T ih =>
      intro e env v he hv hc
      rw [Ty.clear] at hc
      cases hv with
      | reference hv =>
          have hin : (Expr.var .inner).eval (Function.update env .inner (e.eval env)) = some v :=
            (Function.update_self ..).trans he
          rw [trace_reference]
          split
          · exact ih (.var .inner) _ v hin hv hc
          · next ht =>
              -- Without a trace there is no pointer either.
              have hcode : (trace m T (.var .inner) (Function.update env .inner (e.eval env))).2 =
                  [] := by
                have hnone : genTraceForType m T (.var .inner) = none := by
                  rw [← Option.not_isSome_iff_eq_none, isSome_genTraceForType]
                  exact ht
                rw [trace, hnone]
                rfl
              rw [← ih (.var .inner) _ v hin hv hc, hcode]

/-! ## Other types are not

For a type that is not clear there is a value with an occurrence, here the one
named 1, that the code does not come to. All other occurrences are named 0. -/

def Plain (v : Val Nat) : Prop := ∀ p ∈ v.occurrences, p = 0

theorem plain_list {vs : List (Val Nat)} (h : ∀ v ∈ vs, Plain v) :
    ∀ p ∈ occurrencesList vs, p = 0 := by
  intro p hp
  obtain ⟨v, hv, hp⟩ := mem_occurrencesList.1 hp
  exact h v hv p hp

theorem exists_plain_elems {ts : List Ty} (ih : ∀ T ∈ ts, ∃ v, HasTy T v ∧ Plain v) :
    ∃ vs, List.Forall₂ HasTy ts vs ∧ ∀ v ∈ vs, Plain v := by
  induction ts with
  | nil => exact ⟨[], .nil, fun v hv => by cases hv⟩
  | cons T ts ihts =>
      obtain ⟨v, hv, hp⟩ := ih T (by simp)
      obtain ⟨vs, hvs, hps⟩ := ihts fun T hT => ih T (by simp [hT])
      refine ⟨v :: vs, .cons hv hvs, fun w hw => ?_⟩
      rcases List.mem_cons.1 hw with rfl | hw
      · exact hp
      · exact hps w hw

theorem exists_plain (T : Ty) : ∃ v, HasTy T v ∧ Plain v := by
  have hnil : Plain (.seq []) := fun p hp => by
    rw [Val.occurrences, occurrencesList] at hp
    cases hp
  induction T using Ty.induct with
  | ptr k =>
      refine ⟨.ptr 0, .ptr, fun p hp => ?_⟩
      rw [Val.occurrences] at hp
      exact List.mem_singleton.1 hp
  | other =>
      refine ⟨.other, .other, fun p hp => ?_⟩
      rw [Val.occurrences] at hp
      cases hp
  | option T =>
      refine ⟨.none, .none, fun p hp => ?_⟩
      rw [Val.occurrences] at hp
      cases hp
  | seq k T => exact ⟨.seq [], .seq (fun v hv => by cases hv), hnil⟩
  | array T => exact ⟨.seq [], .array (fun v hv => by cases hv), hnil⟩
  | slice T => exact ⟨.seq [], .slice (fun v hv => by cases hv), hnil⟩
  | smart k T ih =>
      obtain ⟨v, hv, hp⟩ := ih
      exact ⟨v, .smart hv, hp⟩
  | reference T ih =>
      obtain ⟨v, hv, hp⟩ := ih
      exact ⟨v, .reference hv, hp⟩
  | result T E ih =>
      obtain ⟨v, hv, hp⟩ := ih
      refine ⟨.ok v, .ok hv, fun p hpv => hp p ?_⟩
      rwa [Val.occurrences] at hpv
  | tuple ts ih =>
      obtain ⟨vs, hvs, hps⟩ := exists_plain_elems ih
      refine ⟨.tuple vs, .tuple hvs, fun p hp => plain_list hps p ?_⟩
      rwa [Val.occurrences] at hp

theorem exists_marked {T : Ty} (h : T.hasPtr = true) :
    ∃ v : Val Nat, HasTy T v ∧ 1 ∈ v.occurrences := by
  have hone : ∀ {v : Val Nat}, 1 ∈ v.occurrences → 1 ∈ (Val.seq [v]).occurrences := by
    intro v hv
    rw [Val.occurrences]
    exact mem_occurrencesList.2 ⟨v, by simp, hv⟩
  induction T using Ty.induct with
  | ptr k => exact ⟨.ptr 1, .ptr, by simp [Val.occurrences]⟩
  | other =>
      rw [Ty.hasPtr] at h
      cases h
  | option T ih =>
      obtain ⟨v, hv, h1⟩ := ih (by rwa [Ty.hasPtr] at h)
      exact ⟨.some v, .some hv, by rwa [Val.occurrences]⟩
  | seq k T ih =>
      obtain ⟨v, hv, h1⟩ := ih (by rwa [Ty.hasPtr] at h)
      exact ⟨.seq [v], .seq fun w hw => List.mem_singleton.1 hw ▸ hv, hone h1⟩
  | array T ih =>
      obtain ⟨v, hv, h1⟩ := ih (by rwa [Ty.hasPtr] at h)
      exact ⟨.seq [v], .array fun w hw => List.mem_singleton.1 hw ▸ hv, hone h1⟩
  | slice T ih =>
      obtain ⟨v, hv, h1⟩ := ih (by rwa [Ty.hasPtr] at h)
      exact ⟨.seq [v], .slice fun w hw => List.mem_singleton.1 hw ▸ hv, hone h1⟩
  | smart k T ih =>
      obtain ⟨v, hv, h1⟩ := ih (by rwa [Ty.hasPtr] at h)
      exact ⟨v, .smart hv, h1⟩
  | reference T ih =>
      obtain ⟨v, hv, h1⟩ := ih (by rwa [Ty.hasPtr] at h)
      exact ⟨v, .reference hv, h1⟩
  | result T E ihT ihE =>
      rw [Ty.hasPtr, Bool.or_eq_true] at h
      rcases h with h | h
      · obtain ⟨v, hv, h1⟩ := ihT h
        exact ⟨.ok v, .ok hv, by rwa [Val.occurrences]⟩
      · obtain ⟨v, hv, h1⟩ := ihE h
        exact ⟨.err v, .err hv, by rwa [Val.occurrences]⟩
  | tuple ts ih =>
      rw [Ty.hasPtr] at h
      have helems : ∃ vs : List (Val Nat), List.Forall₂ HasTy ts vs ∧ 1 ∈ occurrencesList vs := by
        induction ts with
        | nil =>
            rw [anyHasPtr] at h
            cases h
        | cons T ts ihts =>
            rw [anyHasPtr, Bool.or_eq_true] at h
            rcases h with h | h
            · obtain ⟨v, hv, h1⟩ := ih T (by simp) h
              obtain ⟨vs, hvs, -⟩ := exists_plain_elems fun T (_ : T ∈ ts) => exists_plain T
              exact ⟨v :: vs, .cons hv hvs, mem_occurrencesList.2 ⟨v, by simp, h1⟩⟩
            · obtain ⟨v, hv, -⟩ := exists_plain T
              obtain ⟨vs, hvs, h1⟩ := ihts (fun T hT => ih T (by simp [hT])) h
              exact ⟨v :: vs, .cons hv hvs, List.mem_append_right _ h1⟩
      obtain ⟨vs, hvs, h1⟩ := helems
      exact ⟨.tuple vs, .tuple hvs, by rwa [Val.occurrences]⟩

/-- A value with an occurrence that the code for its type does not come to. -/
def Missed (m : Method) (T : Ty) (inner : Bool) : Prop :=
  ∃ v : Val Nat, HasTy T v ∧ 1 ∈ v.occurrences ∧
    ∀ (e : Expr) (env : Env Nat), decide (e.root = .inner) = inner → e.eval env = some v →
      ∀ q ∈ (trace m T e env).2, q.2 = 0

/-- The rest of the elements when their values are plain and the trouble is
elsewhere. -/
theorem plain_elems {ts : List Ty} {es : Nat → Expr} {i : Nat} {bound : Bool} {env : Env Nat}
    {vs : List (Val Nat)} (hvs : List.Forall₂ HasTy ts vs) (hp : ∀ v ∈ vs, Plain v)
    (hf : Found es i bound env vs)
    (hc : clearElems (fun j => (es j).root = .inner) i bound ts = true) :
    ∀ q ∈ (traceElems m es i ts env).2, q.2 = 0 := by
  intro q hq
  rw [exact_elems (fun T _ => exact m T) hvs hf hc] at hq
  obtain ⟨p, hp', rfl⟩ := List.mem_map.1 hq
  exact plain_list hp p hp'

theorem missed_elems {ts : List Ty}
    (ih : ∀ T ∈ ts, ∀ inner, T.clear inner = false → Missed m T inner) {inner : Nat → Bool} :
    ∀ {i : Nat} {bound : Bool}, clearElems inner i bound ts = false →
      ∃ vs : List (Val Nat), List.Forall₂ HasTy ts vs ∧ 1 ∈ occurrencesList vs ∧
        ∀ (es : Nat → Expr) (env : Env Nat), (fun j => decide ((es j).root = .inner)) = inner →
          (bound = true → ∀ p ∈ held (env .inner), p = 0) → Found es i bound env vs →
          ∀ q ∈ (traceElems m es i ts env).2, q.2 = 0 := by
  induction ts with
  | nil =>
      intro i bound hc
      rw [clearElems] at hc
      cases hc
  | cons T ts ihts =>
      intro i bound hc
      -- A bound `__inner` leads to nothing that matters.
      have hlost : ∀ {es : Nat → Expr} {env : Env Nat},
          (bound = true → ∀ p ∈ held (env .inner), p = 0) → bound = true →
          (es i).root = .inner → ∀ p ∈ held ((es i).eval env), p = 0 := by
        intro es env hb hbound hroot p hp
        refine hb hbound p ?_
        rw [← hroot]
        exact held_root hp
      by_cases hrest : clearElems inner (i + 1) (bound || T.bindsInner) ts = true
      · obtain ⟨vs, hvs, hps⟩ := exists_plain_elems fun T (_ : T ∈ ts) => exists_plain T
        by_cases hover : bound = true ∧ inner i = true ∧ T.hasPtr = true
        · -- The element is looked up in what an earlier one has bound.
          obtain ⟨v, hv, h1⟩ := exists_marked hover.2.2
          refine ⟨v :: vs, .cons hv hvs, mem_occurrencesList.2 ⟨v, by simp, h1⟩, ?_⟩
          rintro es env rfl hb hf q hq
          rw [traceElems_cons] at hq
          rcases List.mem_append.1 hq with hq | hq
          · exact (trace_sound (P := (· = 0)) T (es i) env
              (hlost hb hover.1 (of_decide_eq_true hover.2.1))).calls q hq
          · exact plain_elems hvs hps (hf.tail T) hrest q hq
        · have hT : T.clear (inner i) = false := by
            by_contra hne
            rw [Bool.not_eq_false] at hne
            refine Bool.false_ne_true (hc.symm.trans (clearElems_cons.2 ⟨hne, ?_, hrest⟩))
            intro hbound hin
            by_contra hptr
            exact hover ⟨hbound, hin, Bool.eq_true_of_not_eq_false hptr⟩
          obtain ⟨v, hv, h1, hmiss⟩ := ih T (by simp) (inner i) hT
          refine ⟨v :: vs, .cons hv hvs, mem_occurrencesList.2 ⟨v, by simp, h1⟩, ?_⟩
          rintro es env rfl - hf q hq
          rw [traceElems_cons] at hq
          rcases List.mem_append.1 hq with hq | hq
          · refine hmiss (es i) env rfl (hf.head fun hbound hroot => ?_) q hq
            refine hover ⟨hbound, decide_eq_true hroot, ?_⟩
            by_contra hptr
            rw [occurrences_noPtr (Bool.eq_false_of_not_eq_true hptr) hv] at h1
            cases h1
          · exact plain_elems hvs hps (hf.tail T) hrest q hq
      · obtain ⟨vs, hvs, h1, hmiss⟩ := ihts (fun T hT => ih T (by simp [hT]))
          (Bool.eq_false_of_not_eq_true hrest)
        obtain ⟨v, hv, hp⟩ := exists_plain T
        refine ⟨v :: vs, .cons hv hvs, List.mem_append_right _ h1, ?_⟩
        rintro es env hin hb hf q hq
        have hzero : ∀ p ∈ held ((es i).eval env), p = 0 := by
          by_cases hi : bound = true → (es i).root ≠ .inner
          · rw [hf.head hi]
            exact hp
          · push Not at hi
            exact hlost hb hi.1 hi.2
        have hs := trace_sound (m := m) (P := (· = 0)) T (es i) env hzero
        rw [traceElems_cons] at hq
        rcases List.mem_append.1 hq with hq | hq
        · exact hs.calls q hq
        · refine hmiss es _ hin (fun hbound p hp => ?_) (hf.tail T) q hq
          cases hT : T.bindsInner with
          | true => exact hs.bound hT p hp
          | false =>
              rw [hs.kept hT] at hp
              rw [hT, Bool.or_false] at hbound
              exact hb hbound p hp

theorem missed (m : Method) (T : Ty) : ∀ inner, T.clear inner = false → Missed m T inner := by
  have heach : ∀ {T : Ty} {x : Ident} {v : Val Nat} {env : Env Nat},
      (∀ (e : Expr) (env : Env Nat), decide (e.root = .inner) = decide (x = .inner) →
        e.eval env = some v → ∀ q ∈ (trace m T e env).2, q.2 = 0) →
      ∀ q ∈ traceEach m T x env [v], q.2 = 0 := by
    intro T x v env hmiss q hq
    obtain ⟨w, hw, hq⟩ := List.mem_flatMap.1 hq
    rw [List.mem_singleton.1 hw] at hq
    exact hmiss (.var x) (env.set x v) rfl (Function.update_self ..) q hq
  have hone : ∀ {v : Val Nat}, 1 ∈ v.occurrences → 1 ∈ (Val.seq [v]).occurrences := by
    intro v hv
    rw [Val.occurrences]
    exact mem_occurrencesList.2 ⟨v, by simp, hv⟩
  induction T using Ty.induct with
  | ptr k | other =>
      intro inner hc
      rw [Ty.clear] at hc
      cases hc
  | option T ih =>
      intro inner hc
      rw [Ty.clear] at hc
      obtain ⟨v, hv, h1, hmiss⟩ := ih true hc
      refine ⟨.some v, .some hv, by rwa [Val.occurrences], fun e env _ he => ?_⟩
      rw [trace_option, he]
      exact heach hmiss
  | seq k T ih =>
      intro inner hc
      rw [Ty.clear] at hc
      obtain ⟨v, hv, h1, hmiss⟩ := ih true hc
      refine ⟨.seq [v], .seq fun w hw => List.mem_singleton.1 hw ▸ hv, hone h1,
        fun e env _ he => ?_⟩
      rw [trace_seq, he]
      exact heach hmiss
  | array T ih =>
      intro inner hc
      rw [Ty.clear] at hc
      obtain ⟨v, hv, h1, hmiss⟩ := ih true hc
      refine ⟨.seq [v], .array fun w hw => List.mem_singleton.1 hw ▸ hv, hone h1,
        fun e env _ he => ?_⟩
      rw [trace_array, he]
      exact heach hmiss
  | slice T ih =>
      intro inner hc
      rw [Ty.clear] at hc
      obtain ⟨v, hv, h1, hmiss⟩ := ih true hc
      refine ⟨.seq [v], .slice fun w hw => List.mem_singleton.1 hw ▸ hv, hone h1,
        fun e env _ he => ?_⟩
      rw [trace_slice, he]
      exact heach hmiss
  | smart k T ih =>
      intro inner hc
      rw [Ty.clear] at hc
      obtain ⟨v, hv, h1, hmiss⟩ := ih inner hc
      refine ⟨v, .smart hv, h1, fun e env hroot he => ?_⟩
      rw [trace_smart]
      exact hmiss (.deref e) env hroot he
  | result T E ihT ihE =>
      intro inner hc
      rw [Ty.clear, Bool.and_eq_false_iff] at hc
      rcases hc with hc | hc
      · obtain ⟨v, hv, h1, hmiss⟩ := ihT false hc
        refine ⟨.ok v, .ok hv, by rwa [Val.occurrences], fun e env _ he => ?_⟩
        rw [trace_result, he]
        intro q hq
        rcases List.mem_append.1 hq with hq | hq
        · exact heach (x := .ok) hmiss q hq
        · cases hq
      · obtain ⟨v, hv, h1, hmiss⟩ := ihE false hc
        refine ⟨.err v, .err hv, by rwa [Val.occurrences], fun e env _ he => ?_⟩
        rw [trace_result, he]
        intro q hq
        rcases List.mem_append.1 hq with hq | hq
        · cases hq
        · exact heach (x := .err) hmiss q hq
  | reference T ih =>
      intro inner hc
      rw [Ty.clear] at hc
      obtain ⟨v, hv, h1, hmiss⟩ := ih true hc
      refine ⟨v, .reference hv, h1, fun e env _ he => ?_⟩
      rw [trace_reference]
      split
      · exact hmiss (.var .inner) _ rfl ((Function.update_self ..).trans he)
      · intro q hq
        cases hq
  | tuple ts ih =>
      intro inner hc
      rw [Ty.clear] at hc
      obtain ⟨vs, hvs, h1, hmiss⟩ := missed_elems ih hc
      refine ⟨.tuple vs, .tuple hvs, by rwa [Val.occurrences], fun e env hroot he => ?_⟩
      rw [trace_tuple]
      exact hmiss e.field env (funext fun _ => hroot) (fun hb => by cases hb) (Found.field he)

/-! ## Structs and enums -/

theorem Fields.names_nodup (fs : Fields) : fs.names.Nodup := by
  cases fs with
  | named fs h => exact h
  | unnamed ts =>
      refine List.Nodup.map ?_ List.nodup_range
      intro i j hij
      cases hij
      rfl
  | unit => exact List.nodup_nil

theorem Fields.length_names (fs : Fields) : fs.names.length = fs.types.length := by
  cases fs <;> simp [Fields.names, Fields.types]

/-- A pattern with distinct names binds each to its field. -/
theorem bind_names {names : List Ident} (hnd : names.Nodup) :
    ∀ {vs : List (Val α)}, names.length = vs.length → ∀ {j : Nat} {x : Ident},
      names[j]? = some x → Env.bind names vs x = vs[j]? := by
  induction names with
  | nil =>
      intro vs _ j x hx
      cases hx
  | cons y names ih =>
      intro vs hlen j x hx
      cases vs with
      | nil => cases hlen
      | cons v vs =>
          have hy := List.nodup_cons.1 hnd
          cases j with
          | zero =>
              cases hx
              simp [Env.bind]
          | succ j =>
              have hx' : names[j]? = some x := hx
              have hne : x ≠ y := by
                rintro rfl
                exact hy.1 (List.mem_of_getElem? hx')
              have hlook : Env.bind (y :: names) (v :: vs) x = Env.bind names vs x := by
                have hbeq : (x == y) = false := beq_false_of_ne hne
                simp [Env.bind, List.lookup_cons, hbeq]
              rw [hlook, ih hy.2 (Nat.succ.inj hlen) hx']
              rfl

theorem Found.names {fs : Fields} {vs : List (Val α)} (hvs : List.Forall₂ HasTy fs.types vs) :
    Found (fs.expr true) 0 false (Env.bind fs.names vs) vs := by
  intro j hj _
  have hlen : fs.names.length = vs.length := fs.length_names.trans hvs.length_eq
  have hname : fs.names[j]? = some (fs.names.get ⟨j, hlen ▸ hj⟩) := List.getElem?_eq_getElem _
  have hexpr : fs.expr true (0 + j) = .var (fs.names.get ⟨j, hlen ▸ hj⟩) := by
    rw [Nat.zero_add, Fields.expr, if_pos rfl, hname]
    rfl
  rw [hexpr]
  exact bind_names fs.names_nodup hlen hname

/-- The environment in which the code for the fields runs. -/
def fieldsEnv (fs : Fields) (variant : Bool) (vs : List (Val α)) : Env α :=
  if variant then Env.bind fs.names vs else Env.set (fun _ => none) .self (.tuple vs)

theorem Found.fields {fs : Fields} {variant : Bool} {vs : List (Val α)}
    (hvs : List.Forall₂ HasTy fs.types vs) :
    Found (fs.expr variant) 0 false (fieldsEnv fs variant vs) vs := by
  cases variant with
  | true => exact Found.names hvs
  | false =>
      have hself : (Expr.var .self).eval (fieldsEnv fs false vs) = some (.tuple vs) := by
        rw [fieldsEnv, if_neg Bool.false_ne_true, Expr.eval, Env.set, Function.update_self]
      exact Found.field hself

theorem exact_fields {fs : Fields} {variant : Bool} (h : fs.clear variant = true)
    {vs : List (Val α)} (hvs : List.Forall₂ HasTy fs.types vs) :
    (execStmts (fieldsEnv fs variant vs) (genFieldsTrace fs m variant)).2 =
      (occurrencesList vs).map fun p => (m, p) :=
  exact_elems (fun T _ => exact m T) hvs (Found.fields hvs) h

theorem missed_fields (m : Method) {fs : Fields} {variant : Bool} (h : fs.clear variant = false) :
    ∃ vs : List (Val Nat), List.Forall₂ HasTy fs.types vs ∧ 1 ∈ occurrencesList vs ∧
      ∀ q ∈ (execStmts (fieldsEnv fs variant vs) (genFieldsTrace fs m variant)).2, q.2 = 0 := by
  obtain ⟨vs, hvs, h1, hmiss⟩ := missed_elems (fun T _ => missed m T) h
  exact ⟨vs, hvs, h1, hmiss _ _ rfl (fun hb => by cases hb) (Found.fields hvs)⟩

/-- The run that `missed_fields` speaks of is not a run over the occurrences. -/
theorem not_perm_of_missed {cs : List (Method × Nat)} {ps : List Nat} (h1 : 1 ∈ ps)
    (h : ∀ q ∈ cs, q.2 = 0) : ¬ cs.Perm (ps.map fun p => (m, p)) := by
  intro hperm
  have hmem : (m, 1) ∈ cs := hperm.mem_iff.2 (List.mem_map.2 ⟨1, h1, rfl⟩)
  exact Nat.one_ne_zero (h _ hmem)

/-- The methods generated for a clear type visit every value of it exactly. -/
theorem genBody_of_clear {d : Data} (m : Method) (hc : d.clear = true) :
    ∃ b, genBody d m = .ok b ∧ ∀ v : DataVal α, d.HasTy v →
      b.run v = v.occurrences.map fun p => (m, p) := by
  cases d with
  | struct fs =>
      refine ⟨_, rfl, fun v hv => ?_⟩
      exact exact_fields hc hv.2
  | enum variants =>
      refine ⟨_, rfl, fun v hv => ?_⟩
      obtain ⟨fs, hk, hvs⟩ := hv
      have hfs := List.all_eq_true.1 hc fs (List.mem_of_getElem? hk)
      simp only [Body.run, List.getElem?_map, hk, Option.map_some]
      exact exact_fields hfs hvs
  | union => cases hc

/-- The generated method is called exactly once on each occurrence of a managed
pointer in every value of the type if and only if the type is clear. -/
theorem genBody_visits_once (d : Data) (m : Method) :
    (∃ b, genBody d m = .ok b ∧ ∀ v : DataVal Nat, d.HasTy v →
      (b.run v).Perm (v.occurrences.map fun p => (m, p))) ↔ d.clear = true := by
  constructor
  · rintro ⟨b, hb, hrun⟩
    cases d with
    | struct fs =>
        cases hb
        by_contra hc
        obtain ⟨vs, hvs, h1, hmiss⟩ := missed_fields m (Bool.eq_false_of_not_eq_true hc)
        exact not_perm_of_missed h1 hmiss (hrun ⟨0, vs⟩ ⟨rfl, hvs⟩)
    | enum variants =>
        cases hb
        refine List.all_eq_true.2 fun fs hfs => ?_
        by_contra hc
        obtain ⟨vs, hvs, h1, hmiss⟩ := missed_fields m (Bool.eq_false_of_not_eq_true hc)
        obtain ⟨k, hk⟩ := List.mem_iff_getElem?.1 hfs
        have hp := hrun ⟨k, vs⟩ ⟨fs, hk, hvs⟩
        simp only [Body.run, List.getElem?_map, hk, Option.map_some] at hp
        exact not_perm_of_missed h1 hmiss hp
    | union => cases hb
  · intro hc
    obtain ⟨b, hb, hrun⟩ := genBody_of_clear (α := Nat) m hc
    exact ⟨b, hb, fun v hv => List.Perm.of_eq (hrun v hv)⟩

/-- `struct S { v: Vec<(&'static (Shared<T>, Shared<T>), &'static Shared<T>)> }` -/
def pairsOfReferences : Data :=
  .struct (.named [(.user 0, .seq .Vec (.tuple [
    .reference (.tuple [.ptr .Shared, .ptr .Shared]), .reference (.ptr .Shared)]))] (by decide))

def onePair : DataVal Nat := ⟨0, [.seq [.tuple [.tuple [.ptr 0, .ptr 1], .ptr 2]]]⟩

/-- The second `let __inner` reads `__inner.1` from what the first one has
bound: pointer 1 is visited twice and pointer 2 never. -/
theorem genBody_misses_second_reference : pairsOfReferences.HasTy onePair ∧
    ∃ b, genBody pairsOfReferences .unroot = .ok b ∧
      b.run onePair = [(.unroot, 0), (.unroot, 1), (.unroot, 1)] ∧
      ¬ (b.run onePair).Perm (onePair.occurrences.map fun p => (.unroot, p)) := by
  have hty : HasTy (.seq .Vec (.tuple [.reference (.tuple [.ptr .Shared, .ptr .Shared]),
      .reference (.ptr .Shared)])) (Val.seq [.tuple [.tuple [.ptr 0, .ptr 1], Val.ptr 2]]) := by
    refine .seq fun v hv => ?_
    rw [List.mem_singleton.1 hv]
    exact .tuple (.cons (.reference (.tuple (.cons .ptr (.cons .ptr .nil))))
      (.cons (.reference .ptr) .nil))
  refine ⟨⟨rfl, .cons hty .nil⟩, _, rfl, rfl, ?_⟩
  decide

end Cdpt.Derive
