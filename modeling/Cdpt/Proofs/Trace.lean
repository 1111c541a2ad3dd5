import Cdpt.Model.Derive

/-!
# Running the generated code

One equation for each wrapper says what the code for a type does in an environment,
and two facts about any such run carry the rest. It reaches nothing but what its
expression denotes there, and a `let` it leaves behind binds a part of that
(`trace_sound`). And code for a type without managed pointers makes no call,
wherever its names lead (`trace_noPtr`).

The generator returns nothing at all for a type without managed pointers, and a
statement otherwise; `trace` runs either. The equations after it are the meaning of
the generated loops, matches and lets in terms of the values: `Vec`, arrays and
slices run the code for the element type once for each element, `Option` and
`Result` for what is there, a tuple for its elements from left to right. They are
proved by running the interpreter for the generated statements and are the last
place where that interpreter is looked at.

What makes `trace_sound` worth having is that it holds for every type, clear or not.
A run of code that has lost track of its names still stays inside the value it was
given, which is what bounds the damage in `Derive`. Both facts are inductions over
the type, for the type and for a list of tuple elements at once.
-/

namespace Cdpt.Derive

variable {α : Type}

/-! ## Induction over types -/

theorem Ty.induct {motive : Ty → Prop} (ptr : ∀ k, motive (.ptr k)) (other : motive .other)
    (option : ∀ T, motive T → motive (.option T))
    (seq : ∀ k T, motive T → motive (.seq k T))
    (smart : ∀ k T, motive T → motive (.smart k T))
    (result : ∀ T E, motive T → motive E → motive (.result T E))
    (tuple : ∀ ts, (∀ T ∈ ts, motive T) → motive (.tuple ts))
    (array : ∀ T, motive T → motive (.array T)) (slice : ∀ T, motive T → motive (.slice T))
    (reference : ∀ T, motive T → motive (.reference T)) (T : Ty) : motive T := by
  refine Ty.rec (motive_1 := motive) (motive_2 := fun ts => ∀ T ∈ ts, motive T) ptr other option
    seq smart result tuple array slice reference ?_ ?_ T
  · intro T hT
    cases hT
  · intro T ts hT hts T' hT'
    rcases List.mem_cons.1 hT' with rfl | hT'
    · exact hT
    · exact hts T' hT'

/-! ## Expressions -/

/-- The occurrences in what an expression denotes, if anything. -/
def held (o : Option (Val α)) : List α := o.elim [] Val.occurrences

theorem mem_occurrencesList {vs : List (Val α)} {p : α} :
    p ∈ occurrencesList vs ↔ ∃ v ∈ vs, p ∈ v.occurrences := by
  induction vs with
  | nil => simp [occurrencesList]
  | cons v vs ih => simp [occurrencesList, ih]

/-- An expression depends on its first name only. -/
theorem Expr.eval_congr {env env' : Env α} {e : Expr} (h : env e.root = env' e.root) :
    e.eval env = e.eval env' := by
  induction e with
  | var x => exact h
  | field e i ih => rw [Expr.eval, Expr.eval, ih h]
  | deref e ih => exact ih h

theorem held_field {env : Env α} {e : Expr} {i : Nat} {p : α}
    (hp : p ∈ held ((Expr.field e i).eval env)) : p ∈ held (e.eval env) := by
  rw [Expr.eval] at hp
  split at hp
  · next vs he =>
      rw [he]
      cases hv : vs[i]? with
      | none =>
          rw [hv] at hp
          cases hp
      | some v =>
          rw [hv] at hp
          exact mem_occurrencesList.2 ⟨v, List.mem_of_getElem? hv, hp⟩
  · cases hp

/-- It denotes a part of what its first name is bound to. -/
theorem held_root {env : Env α} {e : Expr} {p : α} (hp : p ∈ held (e.eval env)) :
    p ∈ held (env e.root) := by
  induction e with
  | var x => exact hp
  | field e i ih => exact ih (held_field hp)
  | deref e ih => exact ih hp

/-! ## The code for a type, run -/

/-- The run of the code for a type, which may be empty. -/
def trace (m : Method) (T : Ty) (e : Expr) (env : Env α) : Env α × List (Method × α) :=
  execStmts env ((genTraceForType m T e).getD [])

def traceElems (m : Method) (es : Nat → Expr) (i : Nat) (ts : List Ty) (env : Env α) :
    Env α × List (Method × α) :=
  execStmts env (genElems m es i ts).flatten

def someOf : Option (Val α) → List (Val α)
  | some (.some v) => [v]
  | _ => []

def seqOf : Option (Val α) → List (Val α)
  | some (.seq vs) => vs
  | _ => []

def okOf : Option (Val α) → List (Val α)
  | some (.ok v) => [v]
  | _ => []

def errOf : Option (Val α) → List (Val α)
  | some (.err v) => [v]
  | _ => []

/-- The calls of the code for `T` with the name `x` bound to each of `vs`. -/
def traceEach (m : Method) (T : Ty) (x : Ident) (env : Env α) (vs : List (Val α)) :
    List (Method × α) :=
  vs.flatMap fun v => (trace m T (.var x) (env.set x v)).2

theorem execStmts_append (env : Env α) (ss ss' : List Stmt) :
    execStmts env (ss ++ ss') =
      ((execStmts (execStmts env ss).1 ss').1,
        (execStmts env ss).2 ++ (execStmts (execStmts env ss).1 ss').2) := by
  induction ss generalizing env with
  | nil => simp [execStmts]
  | cons s ss ih => simp [execStmts, ih]

theorem execStmts_singleton (env : Env α) (s : Stmt) : execStmts env [s] = s.exec env := by
  simp [execStmts]

theorem traceEach_nil (m : Method) {T : Ty} {x : Ident} (env : Env α) (vs : List (Val α))
    (h : genTraceForType m T (.var x) = none) : traceEach m T x env vs = [] := by
  simp [traceEach, trace, h, execStmts]

theorem isSome_genTraceForType (m : Method) (T : Ty) (e : Expr) :
    (genTraceForType m T e).isSome = T.traced := by
  induction T using Ty.induct generalizing e with
  | ptr k => simp [genTraceForType, Ty.traced]
  | other => simp [genTraceForType, Ty.traced]
  | option T ih | seq k T ih | array T ih | slice T ih | reference T ih =>
      simp [genTraceForType, Ty.traced, ih]
  | smart k T ih => rw [genTraceForType, Ty.traced, ih]
  | result T E => simp [genTraceForType, Ty.traced]
  | tuple ts ih =>
      have helems : ∀ (es : Nat → Expr) (i : Nat),
          (genElems m es i ts).isEmpty = !anyTraced ts := by
        induction ts with
        | nil => intro es i; rfl
        | cons T ts ihts =>
            intro es i
            have hT := ih T (by simp) (es i)
            have hts := ihts (fun T hT => ih T (by simp [hT])) es (i + 1)
            rw [genElems, anyTraced, ← hT, Bool.not_or, ← hts]
            cases genTraceForType m T (es i) <;> simp
      rw [genTraceForType, Ty.traced]
      simp only [helems e.field 0]
      cases anyTraced ts <;> rfl

theorem trace_ptr (m : Method) (k : PtrKind) {e : Expr} {env : Env α} {p : α}
    (h : e.eval env = some (.ptr p)) : trace m (.ptr k) e env = (env, [(m, p)]) := by
  simp [trace, genTraceForType, execStmts, Stmt.exec, h]

theorem trace_ptr_calls (m : Method) (k : PtrKind) (e : Expr) (env : Env α) :
    (trace m (.ptr k) e env).1 = env ∧
      ∀ q ∈ (trace m (.ptr k) e env).2, q.2 ∈ held (e.eval env) := by
  have he : trace m (.ptr k) e env = (Stmt.call e m).exec env := execStmts_singleton _ _
  rw [he, Stmt.exec]
  split
  · next p hp =>
      refine ⟨rfl, fun q hq => ?_⟩
      rw [hp, List.mem_singleton.1 hq]
      exact List.mem_singleton_self p
  · refine ⟨rfl, fun q hq => ?_⟩
    cases hq

theorem trace_other (m : Method) (e : Expr) (env : Env α) : trace m .other e env = (env, []) := by
  simp [trace, genTraceForType, execStmts]

theorem trace_option (m : Method) (T : Ty) (e : Expr) (env : Env α) :
    trace m (.option T) e env = (env, traceEach m T .inner env (someOf (e.eval env))) := by
  rw [trace, genTraceForType]
  cases h : genTraceForType m T (.var .inner) with
  | none => simp [execStmts, traceEach_nil m env _ h]
  | some ss =>
      simp only [Option.map_some, Option.getD_some, execStmts_singleton, Stmt.exec]
      split
      · next v hv => simp [hv, someOf, traceEach, trace, h]
      · next hv =>
          have hnone : someOf (e.eval env) = [] := by
            rw [someOf]
            exact hv
          rw [hnone]
          rfl

/-- The loop over a sequence, for `Vec` and its like, arrays and slices. -/
theorem exec_forIn (m : Method) (T : Ty) (e : Expr) (env : Env α) :
    execStmts env (((genTraceForType m T (.var .inner)).map fun ss => [.forIn e ss]).getD []) =
      (env, traceEach m T .inner env (seqOf (e.eval env))) := by
  cases h : genTraceForType m T (.var .inner) with
  | none => simp [execStmts, traceEach_nil m env _ h]
  | some ss =>
      simp only [Option.map_some, Option.getD_some, execStmts_singleton, Stmt.exec]
      split
      · next vs hvs => simp [hvs, seqOf, traceEach, trace, h]
      · next hvs =>
          have hnone : seqOf (e.eval env) = [] := by
            rw [seqOf]
            exact hvs
          rw [hnone]
          rfl

theorem trace_seq (m : Method) (k : SeqKind) (T : Ty) (e : Expr) (env : Env α) :
    trace m (.seq k T) e env = (env, traceEach m T .inner env (seqOf (e.eval env))) := by
  rw [trace, genTraceForType, exec_forIn]

theorem trace_array (m : Method) (T : Ty) (e : Expr) (env : Env α) :
    trace m (.array T) e env = (env, traceEach m T .inner env (seqOf (e.eval env))) := by
  rw [trace, genTraceForType, exec_forIn]

theorem trace_slice (m : Method) (T : Ty) (e : Expr) (env : Env α) :
    trace m (.slice T) e env = (env, traceEach m T .inner env (seqOf (e.eval env))) := by
  rw [trace, genTraceForType, exec_forIn]

theorem trace_smart (m : Method) (k : SmartKind) (T : Ty) (e : Expr) (env : Env α) :
    trace m (.smart k T) e env = trace m T (.deref e) env := by
  rw [trace, genTraceForType, trace]

theorem trace_result (m : Method) (T E : Ty) (e : Expr) (env : Env α) :
    trace m (.result T E) e env =
      (env, traceEach m T .ok env (okOf (e.eval env)) ++
        traceEach m E .err env (errOf (e.eval env))) := by
  rw [trace, genTraceForType]
  simp only [Option.getD_some, execStmts_singleton, Stmt.exec]
  split
  · next v hv => simp [hv, okOf, errOf, traceEach, trace]
  · next v hv => simp [hv, okOf, errOf, traceEach, trace]
  · next hok herr =>
      have hnok : okOf (e.eval env) = [] := by
        rw [okOf]
        exact hok
      have hnerr : errOf (e.eval env) = [] := by
        rw [errOf]
        exact herr
      rw [hnok, hnerr]
      rfl

theorem trace_reference (m : Method) (T : Ty) (e : Expr) (env : Env α) :
    trace m (.reference T) e env =
      if T.traced then trace m T (.var .inner) (Function.update env .inner (e.eval env))
      else (env, []) := by
  rw [trace, genTraceForType, ← isSome_genTraceForType m T (.var .inner)]
  cases h : genTraceForType m T (.var .inner) with
  | none => simp [execStmts]
  | some ss => simp [execStmts, Stmt.exec, trace, h]

theorem traceElems_cons (m : Method) (es : Nat → Expr) (i : Nat) (T : Ty) (ts : List Ty)
    (env : Env α) :
    traceElems m es i (T :: ts) env =
      ((traceElems m es (i + 1) ts (trace m T (es i) env).1).1,
        (trace m T (es i) env).2 ++ (traceElems m es (i + 1) ts (trace m T (es i) env).1).2) := by
  rw [traceElems, genElems, List.flatten_append, execStmts_append]
  cases h : genTraceForType m T (es i) <;> simp [trace, traceElems, h]

/-- A tuple is run as its elements one after the other. -/
theorem trace_tuple (m : Method) (ts : List Ty) (e : Expr) (env : Env α) :
    trace m (.tuple ts) e env = traceElems m e.field 0 ts env := by
  rw [trace, genTraceForType, traceElems]
  cases genElems m e.field 0 ts <;> simp

/-! ## What any run can reach -/

/-- Besides calls on occurrences with `P`, all a run of the code may do is bind
`__inner` again, to something whose occurrences have `P`. -/
structure Sound (P : α → Prop) (env : Env α) (binds : Bool)
    (r : Env α × List (Method × α)) : Prop where
  frame : ∀ x, x ≠ .inner → r.1 x = env x
  kept : binds = false → r.1 = env
  bound : binds = true → ∀ p ∈ held (r.1 .inner), P p
  calls : ∀ q ∈ r.2, P q.2

variable {P : α → Prop} {m : Method}

theorem sound_calls {env : Env α} {cs : List (Method × α)} (h : ∀ q ∈ cs, P q.2) :
    Sound P env false (env, cs) :=
  ⟨fun _ _ => rfl, fun _ => rfl, (fun hb => by cases hb), h⟩

theorem sound_each {T : Ty} {x : Ident} {env : Env α} {vs : List (Val α)}
    (ih : ∀ (e : Expr) (env : Env α) {P : α → Prop}, (∀ p ∈ held (e.eval env), P p) →
      Sound P env T.bindsInner (trace m T e env))
    (hvs : ∀ v ∈ vs, ∀ p ∈ v.occurrences, P p) : ∀ q ∈ traceEach m T x env vs, P q.2 := by
  intro q hq
  obtain ⟨v, hv, hq⟩ := List.mem_flatMap.1 hq
  refine (ih (.var x) (env.set x v) ?_).calls q hq
  have hx : (Expr.var x).eval (env.set x v) = some v := Function.update_self ..
  rw [hx]
  exact hvs v hv

theorem held_someOf {o : Option (Val α)} {v : Val α} (h : v ∈ someOf o) {p : α}
    (hp : p ∈ v.occurrences) : p ∈ held o := by
  rw [someOf.eq_def] at h
  split at h
  · rw [List.mem_singleton.1 h] at hp
    exact hp
  · cases h

theorem held_okOf {o : Option (Val α)} {v : Val α} (h : v ∈ okOf o) {p : α}
    (hp : p ∈ v.occurrences) : p ∈ held o := by
  rw [okOf.eq_def] at h
  split at h
  · rw [List.mem_singleton.1 h] at hp
    exact hp
  · cases h

theorem held_errOf {o : Option (Val α)} {v : Val α} (h : v ∈ errOf o) {p : α}
    (hp : p ∈ v.occurrences) : p ∈ held o := by
  rw [errOf.eq_def] at h
  split at h
  · rw [List.mem_singleton.1 h] at hp
    exact hp
  · cases h

theorem held_seqOf {o : Option (Val α)} {v : Val α} (h : v ∈ seqOf o) {p : α}
    (hp : p ∈ v.occurrences) : p ∈ held o := by
  rw [seqOf.eq_def] at h
  split at h
  · exact mem_occurrencesList.2 ⟨v, h, hp⟩
  · cases h

/-- An expression for a later element still denotes a part of the same thing. -/
theorem Sound.held_eval {env : Env α} {binds : Bool} {r : Env α × List (Method × α)}
    (h : Sound P env binds r) {e : Expr} (he : ∀ p ∈ held (e.eval env), P p) :
    ∀ p ∈ held (e.eval r.1), P p := by
  intro p hp
  cases binds with
  | false =>
      rw [h.kept rfl] at hp
      exact he p hp
  | true =>
      by_cases hroot : e.root = .inner
      · refine h.bound rfl p ?_
        rw [← hroot]
        exact held_root hp
      · rw [Expr.eval_congr (h.frame _ hroot)] at hp
        exact he p hp

theorem Sound.seq {env : Env α} {b b' : Bool} {r r' : Env α × List (Method × α)}
    (h : Sound P env b r) (h' : Sound P r.1 b' r') :
    Sound P env (b || b') (r'.1, r.2 ++ r'.2) where
  frame x hx := (h'.frame x hx).trans (h.frame x hx)
  kept hb := by
    rw [Bool.or_eq_false_iff] at hb
    exact (h'.kept hb.2).trans (h.kept hb.1)
  bound hb p hp := by
    cases b' with
    | true => exact h'.bound rfl p hp
    | false =>
        have hr : r'.1 = r.1 := h'.kept rfl
        rw [Bool.or_false] at hb
        exact h.bound hb p (hr ▸ hp)
  calls q hq := (List.mem_append.1 hq).elim (h.calls q) (h'.calls q)

theorem sound_elems {ts : List Ty} {es : Nat → Expr}
    (ih : ∀ T ∈ ts, ∀ (e : Expr) (env : Env α) {P : α → Prop},
      (∀ p ∈ held (e.eval env), P p) → Sound P env T.bindsInner (trace m T e env)) :
    ∀ (i : Nat) (env : Env α), (∀ j, ∀ p ∈ held ((es j).eval env), P p) →
      Sound P env (anyBindsInner ts) (traceElems m es i ts env) := by
  induction ts with
  | nil =>
      intro i env _
      exact sound_calls fun q hq => by cases hq
  | cons T ts ihts =>
      intro i env hes
      have hT := ih T (by simp) (es i) env (hes i)
      have hts := ihts (fun T hT => ih T (by simp [hT])) (i + 1) (trace m T (es i) env).1
        fun j => hT.held_eval (hes j)
      rw [traceElems_cons, anyBindsInner]
      exact hT.seq hts

theorem trace_sound (T : Ty) (e : Expr) (env : Env α) {P : α → Prop}
    (h : ∀ p ∈ held (e.eval env), P p) : Sound P env T.bindsInner (trace m T e env) := by
  induction T using Ty.induct generalizing e env P with
  | ptr k =>
      obtain ⟨henv, hcalls⟩ := trace_ptr_calls m k e env
      have hs : Sound P env false (env, (trace m (.ptr k) e env).2) :=
        sound_calls fun q hq => h _ (hcalls q hq)
      have hb : (Ty.ptr k).bindsInner = false := by simp [Ty.bindsInner]
      rw [hb]
      exact ⟨fun x _ => congrFun henv x, fun _ => henv, (fun hb => by cases hb), hs.calls⟩
  | other =>
      rw [trace_other]
      exact sound_calls fun q hq => by cases hq
  | option T ih =>
      rw [trace_option]
      exact sound_calls (sound_each ih fun v hv p hp => h p (held_someOf hv hp))
  | seq k T ih =>
      rw [trace_seq]
      exact sound_calls (sound_each ih fun v hv p hp => h p (held_seqOf hv hp))
  | array T ih =>
      rw [trace_array]
      exact sound_calls (sound_each ih fun v hv p hp => h p (held_seqOf hv hp))
  | slice T ih =>
      rw [trace_slice]
      exact sound_calls (sound_each ih fun v hv p hp => h p (held_seqOf hv hp))
  | smart k T ih =>
      rw [trace_smart, Ty.bindsInner]
      exact ih (.deref e) env h
  | result T E ihT ihE =>
      rw [trace_result]
      refine sound_calls fun q hq => ?_
      rcases List.mem_append.1 hq with hq | hq
      · exact sound_each ihT (fun v hv p hp => h p (held_okOf hv hp)) q hq
      · exact sound_each ihE (fun v hv p hp => h p (held_errOf hv hp)) q hq
  | tuple ts ih =>
      rw [trace_tuple, Ty.bindsInner]
      exact sound_elems ih 0 env fun j p hp => h p (held_field hp)
  | reference T ih =>
      rw [trace_reference, Ty.bindsInner]
      cases ht : T.traced with
      | false => exact sound_calls fun q hq => by cases hq
      | true =>
          rw [if_pos rfl]
          have hin : (Expr.var .inner).eval (Function.update env .inner (e.eval env)) =
              e.eval env := Function.update_self ..
          have hs := ih (.var .inner) (Function.update env .inner (e.eval env))
            (by rw [hin]; exact h)
          refine ⟨fun x hx => ?_, (fun hb => by cases hb), fun _ p hp => ?_, hs.calls⟩
          · rw [hs.frame x hx, Function.update_of_ne hx]
          · cases hb : T.bindsInner with
            | true => exact hs.bound hb p hp
            | false =>
                rw [hs.kept hb, Function.update_self] at hp
                exact h p hp

/-! ## Types without managed pointers -/

theorem trace_noPtr {T : Ty} (h : T.hasPtr = false) (e : Expr) (env : Env α) :
    (trace m T e env).2 = [] := by
  have heach : ∀ {T : Ty} {x : Ident} {env : Env α} {vs : List (Val α)},
      (∀ (e : Expr) (env : Env α), (trace m T e env).2 = []) → traceEach m T x env vs = [] := by
    intro T x env vs hT
    exact List.flatMap_eq_nil_iff.2 fun v _ => hT _ _
  induction T using Ty.induct generalizing e env with
  | ptr k =>
      rw [Ty.hasPtr] at h
      cases h
  | other => rw [trace_other]
  | option T ih =>
      rw [Ty.hasPtr] at h
      rw [trace_option, heach (ih h)]
  | seq k T ih =>
      rw [Ty.hasPtr] at h
      rw [trace_seq, heach (ih h)]
  | array T ih =>
      rw [Ty.hasPtr] at h
      rw [trace_array, heach (ih h)]
  | slice T ih =>
      rw [Ty.hasPtr] at h
      rw [trace_slice, heach (ih h)]
  | smart k T ih =>
      rw [Ty.hasPtr] at h
      rw [trace_smart]
      exact ih h _ _
  | result T E ihT ihE =>
      rw [Ty.hasPtr, Bool.or_eq_false_iff] at h
      rw [trace_result, heach (ihT h.1), heach (ihE h.2)]
      rfl
  | tuple ts ih =>
      rw [trace_tuple]
      rw [Ty.hasPtr] at h
      have helems : ∀ (i : Nat) (env : Env α), (traceElems m e.field i ts env).2 = [] := by
        induction ts with
        | nil => intro i env; rfl
        | cons T ts ihts =>
            intro i env
            rw [anyHasPtr, Bool.or_eq_false_iff] at h
            rw [traceElems_cons, ih T (by simp) h.1,
              ihts (fun T hT => ih T (by simp [hT])) h.2]
            rfl
      exact helems 0 env
  | reference T ih =>
      rw [Ty.hasPtr] at h
      rw [trace_reference]
      split
      · exact ih h _ _
      · rfl

theorem occurrences_noPtr {T : Ty} (h : T.hasPtr = false) {v : Val α} (hv : HasTy T v) :
    v.occurrences = [] := by
  have hlist : ∀ {vs : List (Val α)}, (∀ v ∈ vs, v.occurrences = []) →
      occurrencesList vs = [] := by
    intro vs hvs
    refine List.eq_nil_iff_forall_not_mem.2 fun p hp => ?_
    obtain ⟨v, hv, hp⟩ := mem_occurrencesList.1 hp
    rw [hvs v hv] at hp
    cases hp
  induction T using Ty.induct generalizing v with
  | ptr k =>
      rw [Ty.hasPtr] at h
      cases h
  | other =>
      cases hv
      rw [Val.occurrences]
  | option T ih =>
      rw [Ty.hasPtr] at h
      cases hv with
      | none => rw [Val.occurrences]
      | some hv => rw [Val.occurrences, ih h hv]
  | seq k T ih =>
      rw [Ty.hasPtr] at h
      cases hv with
      | seq hvs => rw [Val.occurrences, hlist fun v hv => ih h (hvs v hv)]
  | array T ih =>
      rw [Ty.hasPtr] at h
      cases hv with
      | array hvs => rw [Val.occurrences, hlist fun v hv => ih h (hvs v hv)]
  | slice T ih =>
      rw [Ty.hasPtr] at h
      cases hv with
      | slice hvs => rw [Val.occurrences, hlist fun v hv => ih h (hvs v hv)]
  | smart k T ih =>
      rw [Ty.hasPtr] at h
      cases hv with
      | smart hv => exact ih h hv
  | reference T ih =>
      rw [Ty.hasPtr] at h
      cases hv with
      | reference hv => exact ih h hv
  | result T E ihT ihE =>
      rw [Ty.hasPtr, Bool.or_eq_false_iff] at h
      cases hv with
      | ok hv => rw [Val.occurrences, ihT h.1 hv]
      | err hv => rw [Val.occurrences, ihE h.2 hv]
  | tuple ts ih =>
      rw [Ty.hasPtr] at h
      cases hv with
      | tuple hvs =>
          rw [Val.occurrences]
          induction hvs with
          | nil => rfl
          | cons hv hvs ihts =>
              rw [anyHasPtr, Bool.or_eq_false_iff] at h
              rw [occurrencesList, ih _ (by simp) h.1 hv,
                ihts (fun T hT => ih T (by simp [hT])) h.2]
              rfl

end Cdpt.Derive
