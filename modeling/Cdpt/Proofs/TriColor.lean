import Cdpt.Proofs.Cycle

/-!
# The tri-colour invariant of the barriers

While a trace is on, a black object has no white link, and whatever a black link
points at is safe. Each of the two has a companion on the stacks, because the step
that makes it true is not the step that needs it: a mark remembers the links it has
passed, a CAS on a black link what its insertion barrier has shaded, and `unroot`
what it has decremented.

Before the trace everything is white (`Calm`), and the store of the RT epoch turns
one invariant into the other: whoever is pinned then is pinned in N, and holds no
frame the second one has to say anything about.

So the induction is over two invariants. `Calm` holds from the start of the cycle to
the store of RT. Besides headers and links it says of an unrooted CAS in flight that
the link it expects is white (`Frame.casOld`): such a CAS may still be under way
when the trace begins, and can then only succeed on a link that nobody has darkened.
`Tri` takes over from there, with two clauses about the heap and five about the
stacks. For each of them the case analysis is by who writes: the frame of a mark,
the CAS of an operation, or `unroot` (`LinkWrite`), and what has been shaded by then
is in `Marking`. That what is safe stays safe is in `Safe`.

The store of the next N epoch ends the invariant, as the colours trade places.
-/

namespace Cdpt

/-- A black link stays black. -/
theorem dark_step {s s' : St} {lab : Label} (h : WellFormed s) (hN : s.epoch.phase ≠ .N)
    (hs : StepCase s lab s') {o : Oid} {i : Nat} (ho : o < s.nextObj)
    (hd : s.dark s.blackColor o i) : s'.dark s.blackColor o i := by
  unfold St.dark at hd ⊢
  rcases field_step hs o i with he | ⟨t, ch, f, rest, -, hst, hw⟩ | ⟨cs, -, rfl, -⟩
  · rw [he, hd]
  · have hf : f ∈ (s.locals t).stack := by simp [hst]
    have hm := h.links.metas hf
    generalize (s'.objs o).link i = x at hw
    cases hw with
    | rooted hok => exact absurd hm.2 hm.1
    | unrooted hok =>
        rw [show (s.objs o).link i = _ from hok.1] at hd
        exact hd
    | @unroot o' i' p hl =>
        cases hl
        obtain ⟨hi, -⟩ := h.links.window hf (o := o) (i := i) (p := p) ⟨rfl, rfl, rfl⟩
        have := h.links.ahead hf (.inr ⟨p, rfl, rfl, rfl⟩) (Nat.le_refl i) hi
        rw [hd] at this
        cases this
    | shade hl hq =>
        simp only [ManPtr.withMeta, black_of_head h hN hst ⟨rfl, rfl⟩]
  · exact absurd ho (Nat.lt_irrefl _)

/-- The invariant of a trace. -/
structure Tri (s : St) : Prop where
  black : ∀ {o i}, s.Live o → s.color o = s.blackColor → i < (s.objs o).arity →
    ((s.objs o).link i).ptrMeta = .Rooted ∨ s.dark s.blackColor o i
  link : ∀ {o i p}, s.Live o → i < (s.objs o).arity → s.dark s.blackColor o i →
    ((s.objs o).link i).addr = some p → s.Safe s.blackColor p
  visited : ∀ {t f o i j}, f ∈ (s.locals t).stack → f.marksAt o i → j < i →
    s.dark s.blackColor o j
  finished : ∀ {t f o j}, f ∈ (s.locals t).stack → f.finishes o → j < (s.objs o).arity →
    s.dark s.blackColor o j
  shaded : ∀ {t o i q p}, .mark (.linkCas o i q) ∈ (s.locals t).stack → q.addr = some p →
    s.Safe s.blackColor p
  inserted : ∀ {t o i old new k p},
    .ptr (.unrootedCas (.field o i) old new k) ∈ (s.locals t).stack →
    s.Live o → old.ptrMeta = .Unrooted s.blackColor → new.addr = some p → old.addr ≠ some p →
    s.Safe s.blackColor p
  unrooted : ∀ {t o i q p}, .ptr (.unrootStore o i q) ∈ (s.locals t).stack →
    s.allocColor t = s.blackColor → q.addr = some p → s.Safe s.blackColor p

/-- The frames that are about to write a link. -/
def Frame.writes : Frame → Bool
  | .mark (.linkCas _ _ _) | .ptr (.unrootedCas _ _ _ _) | .ptr (.unrootStore _ _ _) => true
  | _ => false

theorem exec_writes_guarded {s : St} {t : Lid} {ch : Nat} {f g : Frame}
    (hg : g ∈ (exec s t ch f).2) (h : g.writes = true) :
    f.pinning = false ∧ f.guarded = true := by
  cases f with
  | pin f =>
      cases f with
      | load | store | check | pin | workerExit =>
          simp only [exec, execPin] at hg
          repeat' split at hg
          all_goals grind [Frame.writes]
      | _ => exact ⟨rfl, rfl⟩
  | ptr f =>
      cases f with
      | cloneLoad | inc | publish | acquireHp | storeHazard | clearHazard =>
          simp only [exec, execPtr] at hg
          repeat' split at hg
          all_goals grind [Frame.writes]
      | _ => exact ⟨rfl, rfl⟩
  | mark f => exact ⟨rfl, rfl⟩
  | help f => exact ⟨rfl, rfl⟩

theorem startOp_writes {s s₁ : St} {t : Lid} {op : Op} {fs : List Frame} {g : Frame}
    (h : startOp s t op = some (s₁, fs)) (hg : g ∈ fs) : g.writes = false := by
  cases op <;> simp only [startOp] at h <;> (repeat' split at h) <;>
    first
    | (cases h; done)
    | (cases h; grind [dropFrames, Frame.writes])
    | (obtain ⟨o, ho, h⟩ := Option.map_eq_some_iff.1 h
       cases h
       grind [Frame.writes])

/-- The references of a frame that is about to write exist. -/
theorem lt_of_names {s s' : St} {lab : Label} (hs : StepCase s lab s') (h' : WellFormed s')
    {t : Lid} {ch : Nat} (hl : lab = .run t ch) {i : Lid} {g : Frame} {p : Oid}
    (hg : g ∈ (s'.locals i).stack)
    (hp : g.names p) : p < s.nextObj := by
  have hlt := h'.alloc.refLt (.frame hg hp)
  rcases nextObj_cases hs with ⟨hn, -⟩ | ⟨t, cs, size, k, he, -⟩
  · rwa [hn] at hlt
  · rw [hl] at he
    cases he

theorem names_of_marks {f : Frame} {o : Oid} (h : f.marks o) : f.names o := by
  cases f with
  | pin f => cases h
  | help f => cases h
  | mark f =>
      cases f with
      | linkCas p i q => exact .inl h
      | _ => exact h
  | ptr f =>
      cases f with
      | rcPhase c r | shade c r | record c r | push c r =>
          cases r <;> first | exact .inr (.inl h) | cases h
      | _ => cases h

section Trace

variable {s s' : St} {lab : Label} (h : WellFormed s) (hN : s.epoch.phase ≠ .N)

include h hN

/-- What an access has shaded is safe after it. -/
theorem safe_of_shades {t : Lid} {ch : Nat} {f : Frame} {rest : List Frame} {p : Oid}
    (hs : StepCase s (.run t ch) s') (hst : (s.locals t).stack = f :: rest)
    (hb : s.black t = s.blackColor) (hp : p < s.nextObj) (hsh : s.shades t ch f p) :
    s'.Safe s.blackColor p := by
  rcases hsh with hc | he
  · exact .inl (color_stable h hN hs hp (hc.trans hb))
  · refine .inr (.inl (.inl ⟨t, ?_⟩))
    cases hs with
    | run _ hst' =>
        rw [hst] at hst'
        cases hst'
        rw [setStack_tasks, he]
        simp [Eff.apply]

/-- A frame that is about to write is an old one or has just been reached. -/
theorem writes_step (hs : StepCase s lab s') {t : Lid} {g : Frame} (hg : g ∈ (s'.locals t).stack)
    (hw : g.writes = true) :
    g ∈ (s.locals t).stack ∨ ∃ ch f rest, lab = .run t ch ∧ (s.locals t).stack = f :: rest ∧
      g ∈ (exec s t ch f).2 ∧ s.black t = s.blackColor ∧ f.argOk := by
  rcases frame_step h.ground.pin.str hs hg with hg | ⟨op, s₁, fs, rfl, hop, hg⟩ |
    ⟨ch, f, rest, rfl, hst, hg⟩ | hg
  · exact .inl hg
  · have := startOp_writes hop hg
    rw [hw] at this
    cases this
  · exact .inr ⟨ch, f, rest, rfl, hst, hg, black_of_head h hN hst (exec_writes_guarded hg hw),
      h.args (t := t) (f := f) (by simp [hst])⟩
  · unfold Frame.starts at hg
    split at hg
    all_goals first
      | cases hw
      | cases hg

/-- A rooted link of a black object becomes black when its turn comes. -/
theorem rooted_step (hs : StepCase s lab s') {o : Oid} {i : Nat} (ho : o < s.nextObj)
    (hcol : s.color o = s.blackColor) (hr : ((s.objs o).link i).ptrMeta = .Rooted) :
    ((s'.objs o).link i).ptrMeta = .Rooted ∨ s'.dark s.blackColor o i := by
  unfold St.dark
  rcases field_step hs o i with he | ⟨t, ch, f, rest, -, hst, hw⟩ | ⟨cs, -, rfl, -⟩
  · exact .inl (he ▸ hr)
  · have hf : f ∈ (s.locals t).stack := by simp [hst]
    have hm := h.links.metas hf
    generalize (s'.objs o).link i = x at hw
    cases hw with
    | rooted hok => exact absurd hm.2 hm.1
    | unrooted hok =>
        rw [show (s.objs o).link i = _ from hok.1] at hr
        exact absurd hr hm.2
    | unroot hl =>
        cases hl
        exact .inr (congrArg PtrMeta.Unrooted ((h.alloc.color hf rfl).symm.trans hcol))
    | shade hl hq =>
        exact .inr (congrArg PtrMeta.Unrooted (black_of_head h hN hst ⟨rfl, rfl⟩))
  · exact absurd ho (Nat.lt_irrefl _)

theorem Tri.step (hb : s.Balanced) (htri : Tri s) (hs : StepCase s lab s') (h' : WellFormed s')
    (hc : s'.blackColor = s.blackColor) : Tri s' := by
  have hsafe : ∀ {p}, s.Ref p → s.Safe s.blackColor p → s'.Safe s.blackColor p :=
    fun hr => safe_step h hN hs (h.alloc.refLt hr)
  constructor
  case black =>
    intro o i hlive hcol hi
    rw [hc] at hcol ⊢
    rcases live_step hs hlive with hlive' | ⟨t, cs, size, k, rfl, rfl⟩
    · have ho := hlive'.1
      rw [arity_step hs (Nat.ne_of_lt ho)] at hi
      rcases color_step hs o with he | ⟨t, cs, size, k, -, rfl, -⟩ | ⟨t, ch, hd, rest, rfl, hst, -⟩
      · rw [he] at hcol
        rcases htri.black hlive' hcol hi with hr | hd
        · exact rooted_step h hN hs ho hcol hr
        · exact .inr (dark_step h hN hs ho hd)
      · exact absurd ho (Nat.lt_irrefl _)
      · exact .inr (dark_step h hN hs ho
          (htri.finished (t := t) (f := .mark (.headerCas o hd)) (by simp [hst]) rfl hi))
    · exact .inl (links_of_alloc h' hs hi)
  case link =>
    intro o i p hlive hi hd hp
    rw [hc] at hd ⊢
    rcases live_step hs hlive with hlive' | ⟨t, cs, size, k, rfl, rfl⟩
    · have ho := hlive'.1
      rw [arity_step hs (Nat.ne_of_lt ho)] at hi
      rcases field_step hs o i with he | ⟨t, ch, f, rest, rfl, hst, hw⟩ | ⟨cs, -, rfl, -⟩
      · rw [he] at hp
        unfold St.dark at hd
        rw [he] at hd
        exact hsafe (ref_link (l := .field o i) hp) (htri.link hlive' hi hd hp)
      · have hf : f ∈ (s.locals t).stack := by simp [hst]
        have hm := h.links.metas hf
        unfold St.dark at hd
        generalize (s'.objs o).link i = x at hw hd hp
        cases hw with
        | rooted hok => exact absurd hm.2 hm.1
        | @unrooted old new k hok =>
            have hnames : Frame.names p (.ptr (.unrootedCas (.field o i) old new k)) :=
              .inr (.inr (.inl hp))
            refine hsafe (.frame hf hnames) ?_
            by_cases hne : old.addr = some p
            · have hold : (s.objs o).link i = old := hok.1
              exact htri.link hlive' hi (by unfold St.dark; rw [hold]; exact hd) (hold ▸ hne)
            · exact htri.inserted hf hlive' hd hp hne
        | @unroot o' i' q hl =>
            cases hl
            exact hsafe (.frame hf hp) (htri.unrooted hf (PtrMeta.Unrooted.inj hd) hp)
        | @shade o' i' q hl hq =>
            cases hl
            exact hsafe (.frame hf (.inr hp)) (htri.shaded hf hp)
      · exact absurd ho (Nat.lt_irrefl _)
    · unfold St.dark at hd
      rw [links_of_alloc h' hs hi] at hd
      cases hd
  case visited =>
    intro t g o i j hg hm hj
    rw [hc]
    have hold : ∀ {f i}, f ∈ (s.locals t).stack → f.marksAt o i → j < i →
        s'.dark s.blackColor o j := fun hf hm hj =>
      dark_step h hN hs (h.alloc.refLt (.frame hf (names_of_marks (marks_of_marksAt hm))))
        (htri.visited hf hm hj)
    rcases frame_step h.ground.pin.str hs hg with hg | ⟨op, s₁, fs, rfl, hop, hg⟩ |
      ⟨ch, f, rest, rfl, hst, hg⟩ | hg
    · exact hold hg hm hj
    · exact absurd (marks_of_marksAt hm) (startOp_marks hop hg)
    · have hf : f ∈ (s.locals t).stack := by simp [hst]
      rcases exec_marksAt hg hm with rfl | hfm | ⟨j', rfl, hfm, hdone⟩
      · exact absurd hj (Nat.not_lt_zero j)
      · exact hold hf hfm hj
      · rcases Nat.lt_succ_iff_lt_or_eq.1 hj with hj | rfl
        · exact hold hf hfm hj
        · have hbl := black_of_head h hN hst (marks_guarded (marks_of_marksAt hfm))
          rw [hbl] at hdone
          rcases hdone with hd | ⟨q, he⟩
          · exact dark_step h hN hs
              (h.alloc.refLt (.frame hf (names_of_marks (marks_of_marksAt hfm)))) hd
          · cases hs with
            | run _ hst' =>
                rw [hst] at hst'
                cases hst'
                simp [St.dark, he, Eff.apply, St.setObj, ManPtr.withMeta]
    · unfold Frame.starts at hg
      split at hg
      all_goals first
        | cases hm
        | cases hg
  case finished =>
    intro t g o j hg hm hj
    rw [hc]
    have hlt : ∀ {f}, f ∈ (s.locals t).stack → f.marks o → o < s.nextObj := fun hf hm =>
      h.alloc.refLt (.frame hf (names_of_marks hm))
    have hold : ∀ {f}, f ∈ (s.locals t).stack → f.finishes o → s'.dark s.blackColor o j := by
      intro f hf hm
      have ho := hlt hf (marks_of_finishes hm)
      rw [arity_step hs (Nat.ne_of_lt ho)] at hj
      exact dark_step h hN hs ho (htri.finished hf hm hj)
    rcases frame_step h.ground.pin.str hs hg with hg | ⟨op, s₁, fs, rfl, hop, hg⟩ |
      ⟨ch, f, rest, rfl, hst, hg⟩ | hg
    · exact hold hg hm
    · exact absurd (marks_of_finishes hm) (startOp_marks hop hg)
    · have hf : f ∈ (s.locals t).stack := by simp [hst]
      rcases exec_finishes hg hm with hfm | ⟨i, rfl, hi⟩
      · exact hold hf hfm
      · have ho := hlt hf rfl
        rw [arity_step hs (Nat.ne_of_lt ho)] at hj
        exact dark_step h hN hs ho (htri.visited hf ⟨rfl, rfl⟩ (Nat.lt_of_lt_of_le hj hi))
    · unfold Frame.starts at hg
      split at hg
      all_goals first
        | cases hm
        | cases hg
  case shaded =>
    intro t o i q p hg hq
    rw [hc]
    rcases writes_step h hN hs hg rfl with hg' | ⟨ch, f, rest, rfl, hst, hg', hbl, ha⟩
    · exact hsafe (.frame hg' (.inr hq)) (htri.shaded hg' hq)
    · exact safe_of_shades h hN hs hst hbl (lt_of_names hs h' rfl hg (.inr hq))
        (exec_linkCas ha hN hg' hq)
  case inserted =>
    intro t o i old new k p hg hlive hm hp hne
    rw [hc] at hm ⊢
    have hnames : Frame.names p (.ptr (.unrootedCas (.field o i) old new k)) :=
      .inr (.inr (.inl hp))
    rcases writes_step h hN hs hg rfl with hg' | ⟨ch, f, rest, rfl, hst, hg', hbl, ha⟩
    · have hlive' : s.Live o := by
        rcases live_step hs hlive with hl | ⟨t', cs, size, k, -, rfl⟩
        · exact hl
        · exact absurd (h.alloc.refLt (.frame hg' (.inl rfl))) (Nat.lt_irrefl _)
      exact hsafe (.frame hg' hnames) (htri.inserted hg' hlive' hm hp hne)
    · exact safe_of_shades h hN hs hst hbl (lt_of_names hs h' rfl hg hnames)
        (exec_unrootedCas ha hN hg' (hbl ▸ hm) hp hne)
  case unrooted =>
    intro t o i q p hg hcol hq
    rw [hc] at hcol ⊢
    have hcol' : ∀ {f}, f ∈ (s.locals t).stack → f.owns o → s.allocColor t = s.blackColor :=
      fun hf ho => by
        rw [← allocColor_eq (h.alloc.pinView_step h.ground.pin hs hf ho)]
        exact hcol
    rcases writes_step h hN hs hg rfl with hg' | ⟨ch, f, rest, rfl, hst, hg', hbl, ha⟩
    · exact hsafe (.frame hg' hq) (htri.unrooted hg' (hcol' hg' rfl) hq)
    · have hp := lt_of_names hs h' rfl hg (show Frame.names p (.ptr (.unrootStore o i q)) from hq)
      rcases exec_unrootStore ha hN hg' hq with hsh | ⟨hdec, he, h1⟩
      · exact safe_of_shades h hN hs hst hbl hp hsh
      · have hpos := rootCount_pos_of_decrements h hb hst hdec
        refine .inr (.inr (.inl ?_))
        cases hs with
        | run _ hst' =>
            rw [hst] at hst'
            cases hst'
            show 0 < ((exec s t ch f).1.apply s t).rootCount p
            rw [he, rootCount_setCount, if_pos rfl]
            omega

end Trace

/-! ## Before the trace -/

def ShadeRet.casOld : ShadeRet → Option (Loc × ManPtr)
  | .insertion l old _ _ => some (l, old)
  | _ => none

/-- The value an unrooted CAS has read, and where. -/
def Frame.casOld : Frame → Option (Loc × ManPtr)
  | .ptr (.unrootedCas l old _ _) => some (l, old)
  | .ptr (.shade _ r) | .ptr (.record _ r) | .ptr (.push _ r) | .ptr (.rcPhase _ r) => r.casOld
  | _ => none

attribute [grind =] ShadeRet.casOld Frame.casOld

theorem casOld_unrootedOnce (s : St) (t : Lid) (l : Loc) (old new : ManPtr) (k : CasKind) :
    Frame.casOld (.ptr (unrootedOnce s t l old new k)) = some (l, old) := by
  unfold unrootedOnce
  repeat' split
  all_goals rfl

theorem casOld_resume {r : ShadeRet} {g : Frame} (hg : g ∈ r.resume) : g.casOld = r.casOld := by
  cases r <;> simp_all [ShadeRet.resume, Frame.casOld, ShadeRet.casOld]

theorem loc_of_casOld {f : Frame} {l : Loc} {old : ManPtr} (h : f.casOld = some (l, old)) :
    f.loc = some l := by
  cases f with
  | ptr f =>
      cases f with
      | rcPhase c r | shade c r | record c r | push c r =>
          cases r <;> cases h
          rfl
      | unrootedCas =>
          cases h
          rfl
      | _ => cases h
  | _ => cases h

/-- What a CAS expects is what its operation has read. -/
theorem exec_casOld {s : St} {t : Lid} {ch : Nat} {f g : Frame} {l : Loc} {old : ManPtr}
    (hg : g ∈ (exec s t ch f).2) (h : g.casOld = some (l, old)) :
    f.casOld = some (l, old) ∨ old = s.link l := by
  have hgl := loc_of_casOld h
  have hl := exec_loc hg hgl
  cases f with
  | ptr f =>
      cases f with
      | rootedCas l' o n k =>
          simp only [exec, execPtr, rootedFail] at hg
          repeat' split at hg
          all_goals grind [casOld_unrootedOnce, loc_dropTemp]
      | unrootedCas l' o n k =>
          simp only [exec, execPtr, unrootedFail] at hg
          repeat' split at hg
          all_goals grind [casOld_unrootedOnce]
      | _ =>
          first
          | (cases hl; done)
          | (simp only [exec, execPtr, rootedOnce] at hg
             repeat' split at hg
             all_goals grind [casOld_unrootedOnce, casOld_resume])
  | _ => cases hl

/-- The invariant of the N phase before a trace: everything is white. -/
structure Calm (s : St) : Prop where
  color : ∀ {o}, s.Live o → s.color o = s.epoch.color
  link : ∀ {o i}, s.Live o → i < (s.objs o).arity →
    ((s.objs o).link i).ptrMeta = .Rooted ∨ s.dark s.epoch.color o i
  old : ∀ {t f o i p}, f ∈ (s.locals t).stack → f.casOld = some (.field o i, p) → s.Live o →
    p.ptrMeta = .Unrooted s.epoch.color

theorem startOp_casOld {s s₁ : St} {t : Lid} {op : Op} {fs : List Frame} {g : Frame}
    (h : startOp s t op = some (s₁, fs)) (hg : g ∈ fs) : g.casOld = none := by
  cases op <;> simp only [startOp] at h <;> (repeat' split at h) <;>
    first
    | (cases h; done)
    | (cases h; grind [dropFrames])
    | (obtain ⟨o, ho, h⟩ := Option.map_eq_some_iff.1 h
       cases h
       grind)

theorem Calm.step {s s' : St} {lab : Label} (hcalm : Calm s) (h : WellFormed s)
    (hN : s.epoch.phase = .N) (hs : StepCase s lab s') (h' : WellFormed s')
    (he : s'.epoch = s.epoch) : Calm s' := by
  constructor
  case color =>
    intro o hlive
    rw [he]
    rcases live_step hs hlive with hlive' | ⟨t, cs, size, k, rfl, rfl⟩
    · rcases color_step hs o with
        hc | ⟨t, cs, size, k, -, rfl, -⟩ | ⟨t, ch, hd, rest, rfl, hst, -, hc⟩
      · rw [hc]
        exact hcalm.color hlive'
      · exact absurd hlive'.1 (Nat.lt_irrefl _)
      · rw [hc]
        exact normal_black h.ground hN (f := .mark (.headerCas o hd)) (by simp [hst]) rfl
    · cases hs with
      | op _ _ hst _ hop =>
          obtain ⟨rfl, rfl, hpos, -⟩ := startOp_alloc hop
          rw [← normal_allocColor h.ground.pin hN (t := t) ⟨hpos, by simp [hst]⟩]
          simp [St.newObj, St.color]
  case link =>
    intro o i hlive hi
    rw [he]
    rcases live_step hs hlive with hlive' | ⟨t, cs, size, k, rfl, rfl⟩
    · have ho := hlive'.1
      rw [arity_step hs (Nat.ne_of_lt ho)] at hi
      unfold St.dark
      rcases field_step hs o i with hl | ⟨t, ch, f, rest, -, hst, hw⟩ | ⟨cs, -, rfl, -⟩
      · rw [hl]
        exact hcalm.link hlive' hi
      · have hf : f ∈ (s.locals t).stack := by simp [hst]
        have hm := h.links.metas hf
        generalize (s'.objs o).link i = x at hw
        cases hw with
        | rooted hok => exact absurd hm.2 hm.1
        | @unrooted old new k hok => exact .inr (hcalm.old (p := old) hf rfl hlive')
        | unroot hl =>
            cases hl
            exact .inr (congrArg PtrMeta.Unrooted
              (normal_allocColor h.ground.pin hN (h.alloc.pinDone hf rfl)))
        | shade hl hq =>
            exact .inr (congrArg PtrMeta.Unrooted (normal_black h.ground hN hf rfl))
      · exact absurd ho (Nat.lt_irrefl _)
    · exact .inl (links_of_alloc h' hs hi)
  case old =>
    intro t g o i p hg hold hlive
    rw [he]
    have hlive' : ∀ {f}, f ∈ (s.locals t).stack → f.loc = some (.field o i) → s.Live o := by
      intro f hf hl
      rcases live_step hs hlive with hl | ⟨t', cs, size, k, -, rfl⟩
      · exact hl
      · exact absurd (h.alloc.refLt (.frame hf (names_of_loc hl))) (Nat.lt_irrefl _)
    rcases frame_step h.ground.pin.str hs hg with hg | ⟨op, s₁, fs, rfl, hop, hg⟩ |
      ⟨ch, f, rest, rfl, hst, hg⟩ | hg
    · exact hcalm.old hg hold (hlive' hg (loc_of_casOld hold))
    · rw [startOp_casOld hop hg] at hold
      cases hold
    · have hf : f ∈ (s.locals t).stack := by simp [hst]
      have hl := exec_loc hg (loc_of_casOld hold)
      rcases exec_casOld hg hold with hfo | hp
      · exact hcalm.old hf hfo (hlive' hf hl)
      · have hv := h.links.loc hf hl
        have hm : ((s.objs o).link i).ptrMeta ≠ .Rooted := h.links.fits h.alloc hf hl
        rw [hp]
        exact (hcalm.link (hlive' hf hl) hv).resolve_left hm
    · have hl := loc_of_starts hg
      rw [loc_of_casOld hold] at hl
      cases hl

/-- The store of the RT epoch starts the trace. -/
theorem Calm.start {s s' : St} {lab : Label} (hcalm : Calm s) (h : WellFormed s)
    (hN : s.epoch.phase = .N) (hs : StepCase s lab s') (hw : withinCycle s lab)
    (hne : s'.epoch ≠ s.epoch) : Tri s' := by
  have hc := (epoch_within hs hw).1
  rcases epoch_cases hs with he | ⟨-, hobjs, hnext, hloc, hwait, -⟩
  · exact absurd he hne
  have hcol : s'.blackColor = s.epoch.color.flip := by rw [St.blackColor, hc]
  have hlive : ∀ {o}, s'.Live o → s.Live o := fun hl => by
    unfold St.Live at hl ⊢
    rwa [hobjs, hnext] at hl
  have hph : ∀ {t f}, f ∈ (s'.locals t).stack → f.inPhase .N = true := by
    intro t f hf
    rw [hloc] at hf
    by_contra hN'
    obtain ⟨hd, hin⟩ := h.ground.sect.mem_phase hf (Bool.not_eq_true _ ▸ hN')
    rw [h.ground.pin.epoch_of_waited hwait hd] at hin
    exact hN' (hN ▸ hin)
  have hdark : ∀ {o i}, s.Live o → i < (s.objs o).arity →
      ¬ ((s.objs o).link i).ptrMeta = .Unrooted s.epoch.color.flip := by
    intro o i hl hi hd
    rcases hcalm.link hl hi with hr | hr
    · rw [hd] at hr
      cases hr
    · exact Color.flip_ne _ (PtrMeta.Unrooted.inj (hd.symm.trans hr))
  constructor
  case black =>
    intro o i hl hb hi
    have := hcalm.color (hlive hl)
    rw [hcol, St.color, hobjs] at hb
    exact absurd (hb.symm.trans this) (Color.flip_ne _)
  case link =>
    intro o i p hl hi hd hp
    rw [St.dark, hcol, hobjs] at hd
    rw [hobjs] at hi
    exact absurd hd (hdark (hlive hl) hi)
  case visited =>
    intro t f o i j hf hm
    have := hph hf
    rw [marks_phase (marks_of_marksAt hm)] at this
    cases this
  case finished =>
    intro t f o j hf hm
    have := hph hf
    rw [marks_phase (marks_of_finishes hm)] at this
    cases this
  case shaded =>
    intro t o i q p hf
    have := hph hf
    cases this
  case inserted =>
    intro t o i old new k p hf hl hm
    rw [hloc] at hf
    rw [hcol, hcalm.old hf rfl (hlive hl)] at hm
    exact absurd (PtrMeta.Unrooted.inj hm).symm (Color.flip_ne _)
  case unrooted =>
    intro t o i q p hf hb
    have hb' : s.allocColor t = s.epoch.color.flip := by
      rw [← hcol, ← hb]
      simp only [St.allocColor, St.black, St.white, hloc]
    rw [hloc] at hf
    rw [normal_allocColor h.ground.pin hN (h.alloc.pinDone hf rfl)] at hb'
    exact absurd hb'.symm (Color.flip_ne _)

/-! ## The invariant of the barriers -/

/-- An N phase in which sweeping is over, no operation is in flight, and every
header and every traced link has the white colour. -/
structure AllWhite (s : St) : Prop where
  normal : s.epoch.phase = .N
  swept : s.sweepers = []
  idle : ∀ t, (s.locals t).stack = []
  color : ∀ o, s.Live o → s.color o = s.epoch.color
  link : ∀ o i, s.Live o → i < (s.objs o).arity → s.dark s.epoch.color o i

theorem AllWhite.calm {s : St} (h : AllWhite s) : Calm s where
  color := h.color _
  link := fun hl hi => .inr (h.link _ _ hl hi)
  old := fun {t} _ _ _ _ hf => by
    rw [h.idle t] at hf
    cases hf

/-- Until the next N epoch is stored, a black object has only rooted or black
links, and whatever a black link points at is black, is being marked, has a root
count, or has lost its last count to an operation whose deletion barrier is not
over. -/
theorem tricolor {n : Nat} {s₀ s : St} (h₀ : Reachable n s₀) (hw : AllWhite s₀)
    (hr : Lts.Reaches step withinCycle s₀ s) :
    (∀ o i, s.Live o → s.color o = s₀.epoch.color.flip → i < (s.objs o).arity →
      ((s.objs o).link i).ptrMeta = .Rooted ∨ s.dark s₀.epoch.color.flip o i) ∧
    ∀ o i p, s.Live o → i < (s.objs o).arity → s.dark s₀.epoch.color.flip o i →
      ((s.objs o).link i).addr = some p → s.Safe s₀.epoch.color.flip p := by
  suffices hinv : Reachable n s ∧ s.epoch.color = s₀.epoch.color ∧
      ((s.epoch.phase = .N ∧ Calm s) ∨ (s.epoch.phase ≠ .N ∧ Tri s)) by
    obtain ⟨-, hc, ⟨-, hcalm⟩ | ⟨-, htri⟩⟩ := hinv
    · rw [← hc]
      refine ⟨fun o i hl hb => ?_, fun o i p hl hi hd => ?_⟩
      · exact absurd (hb.symm.trans (hcalm.color hl)) (Color.flip_ne _)
      · rcases hcalm.link hl hi with hm | hm
        · rw [hd] at hm
          cases hm
        · exact absurd (PtrMeta.Unrooted.inj (hd.symm.trans hm)) (Color.flip_ne _)
    · rw [← hc]
      exact ⟨fun o i => htri.black, fun o i p => htri.link⟩
  refine hr.invariant (I := fun s => Reachable n s ∧ s.epoch.color = s₀.epoch.color ∧
    ((s.epoch.phase = .N ∧ Calm s) ∨ (s.epoch.phase ≠ .N ∧ Tri s)))
    ⟨h₀, rfl, .inl ⟨hw.normal, hw.calm⟩⟩ ?_
  rintro a b lab ⟨ha, hc, hphase⟩ hin hstep
  have hs := stepCase hstep
  have hb : Reachable n b := .tail ha trivial hstep
  obtain ⟨hcol, hph⟩ := epoch_within hs hin
  have hwf := WellFormed.of_reachable ha
  have hwf' := WellFormed.of_reachable hb
  refine ⟨hb, hcol.trans hc, ?_⟩
  rcases hphase with ⟨hN, hcalm⟩ | ⟨hN, htri⟩
  · by_cases he : b.epoch = a.epoch
    · exact .inl ⟨he ▸ hN, hcalm.step hwf hN hs hwf' he⟩
    · refine .inr ⟨?_, hcalm.start hwf hN hs hin he⟩
      rcases epoch_cases hs with he' | ⟨⟨ch, rfl⟩, -, -, -, -, ⟨-, he'⟩ | ⟨-, he'⟩ | ⟨hst, -⟩⟩
      · exact absurd he' he
      · simp [he', St.transEpoch, Epoch.withPhase]
      · simp [he', St.transEpoch, Epoch.withPhase]
      · exact absurd ⟨hst, rfl⟩ hin
  · exact .inr ⟨hph hN, htri.step hwf hN (balanced_of_reachable ha) hs hwf' (by
      rw [St.blackColor, St.blackColor, hcol])⟩

/-- Thread 1 builds object 1 with a link to object 0, protects it, leaves, and pins
again in RT, where its barrier marks object 1. -/
def barrierRun : List Label :=
  [.register 1, .op 1 .pin] ++ List.replicate 4 (.run 1 0) ++
    [.op 1 (.alloc [] 8 (some (.shared, 0)))] ++ List.replicate 3 (.run 1 0) ++
    [.op 1 (.alloc [0] 8 none)] ++ List.replicate 6 (.run 1 0) ++
    [.op 1 (.protect (.guard 1))] ++ List.replicate 2 (.run 1 0) ++
    [.op 1 .dropGuard] ++ List.replicate 2 (.run 1 0) ++ [.coll 0, .op 1 .pin] ++
    List.replicate 22 (.run 1 0)

theorem allWhite_init (n : Nat) : AllWhite (St.init n) :=
  ⟨rfl, rfl, stack_init n, fun o h => absurd h.1 (Nat.not_lt_zero o),
    fun o _ h => absurd h.1 (Nat.not_lt_zero o)⟩

theorem tricolor_barrierRun :
    ∃ s, Lts.Reaches step withinCycle (St.init 1) s ∧ s.epoch.phase = .RT ∧ s.color 1 = .C1 ∧
      s.dark .C1 1 0 ∧ s.color 0 = .C0 ∧ s.Safe .C1 0 := by
  have hrun : ∃ s, Lts.Reaches step withinCycle (St.init 1) s ∧ s.epoch.phase = .RT ∧
      s.color 1 = .C1 ∧ s.color 0 = .C0 ∧ (1 < s.nextObj ∧ (s.objs 1).reclaimed = false) ∧
      0 < (s.objs 1).arity ∧ (s.objs 1).link 0 = ⟨.Unrooted .C1, some 0, 0⟩ :=
    Lts.exists_of_runs barrierRun (by decide +kernel)
  obtain ⟨s, hr, hph, hb, hw, hl, ha, hlink⟩ := hrun
  have hd : s.dark .C1 1 0 := by simp [St.dark, hlink]
  exact ⟨s, hr, hph, hb, hd, hw,
    (tricolor (n := 1) .refl (allWhite_init 1) hr).2 1 0 0 hl ha hd (by rw [hlink])⟩

end Cdpt
