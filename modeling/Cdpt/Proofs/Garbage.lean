import Cdpt.Proofs.Places

/-!
# Nothing is lost and nothing is freed twice

The batches hold every object that is not reclaimed, each of them once. So what a
sweep or a helper is about to reclaim has not been reclaimed before, and an object
that nobody marked cannot hide: when a trace is confirmed it is in `marked_objs`,
and when the sweep has returned only the helpers can still have it.

The first half is a count. The objects in all batches, frames and queues form a
multiset (`St.stored`), which is the first of the accounts of `Bytes` written out:
it is the set of the objects that exist and are not reclaimed, with multiplicity
one. Whoever is about to reclaim an object holds it in a batch, hence it is not
reclaimed; and after that it is in no batch, hence nobody comes to reclaim it again.

The second half is about colours and uses the first to know that a live object is
somewhere. `PlaceInv` excludes place after place: with the trace confirmed nobody is
pinned in RT, so no scan holds a batch (`scan_phase`); the threads' own batches and
`fresh_objs` hold the colour of new objects only; and so a white object is in
`marked_objs`, of which the sweep takes everything. What is not covered by this is a
helper that was pinned in N before the store and is still sweeping, and it is the
one place the result leaves.
-/

open Finset

namespace Cdpt

/-! ## The objects in the batches -/

/-- What a frame holds of a batch, or on its way into one. -/
def Frame.batch : Frame → List Oid
  | .ptr (.pushObj o _) => [o]
  | .ptr (.flushPush _ b _) => b
  | .help (.sweepObjs todo _ _ _ _) => todo
  | .help (.scanObjs _ done todo) => done ++ todo
  | .help (.forceHps _ _ _ done o todo) => done ++ o :: todo
  | _ => []

def Stage.batch : Stage → List Oid
  | .pendPush b _ _ => b
  | _ => []

/-- The objects in the batches of the threads, in the frames, in the two rows of
sharded queues, with the sweepers, and with the collector. -/
def St.stored (s : St) : Multiset Oid :=
  ∑ t ∈ range s.nLocals, (↑((s.locals t).objs .C0).1 + ↑((s.locals t).objs .C1).1 +
      ((s.locals t).stack.map fun f => (↑f.batch : Multiset Oid)).sum) +
    shards (fun _ b => (↑b : Multiset Oid)) s.freshObjs +
    shards (fun _ b => (↑b : Multiset Oid)) s.markedObjs +
    (s.sweepers.map fun w => (↑w.todo + ↑w.survived : Multiset Oid)).sum + ↑s.stage.batch

theorem stored_eq (s : St) (size : Oid → Nat) : ((stockWeights size).total s).1 = s.stored := by
  have hframe : ∀ c f, ((stockWeights size).frame c f).1 = (↑f.batch : Multiset Oid) := by
    intro c f
    cases f with
    | pin f | mark f => rfl
    | ptr f => cases f <;> rfl
    | help f => cases f <;> rfl
  have hstage : ((stockWeights size).stage s.stage).1 = (↑s.stage.batch : Multiset Oid) := by
    cases s.stage <;> rfl
  have htot := map_total (stockWeights size) (AddMonoidHom.fst (Multiset Oid) (ℕ × ℕ)) s
  simp only [AddMonoidHom.coe_fst, hframe, hstage] at htot
  exact htot

theorem stored_filter {n : Nat} {s : St} (h : Reachable n s) :
    s.stored = (Multiset.range s.nextObj).filter fun o => (s.objs o).reclaimed = false := by
  rw [← stored_eq s fun o => (s.objs o).size]
  exact ((ByteInv.of_reachable h).solvent _ fun _ _ => rfl).booked.places

theorem mem_stored {n : Nat} {s : St} (h : Reachable n s) {o : Oid} : o ∈ s.stored ↔ s.Live o := by
  rw [stored_filter h, Multiset.mem_filter, Multiset.mem_range, St.Live]

theorem mem_sum_map {α : Type} {l : List α} {g : α → Multiset Oid} {o : Oid} :
    o ∈ (l.map g).sum ↔ ∃ x ∈ l, o ∈ g x := by
  induction l with
  | nil => simp
  | cons x l ih => simp [ih]

theorem mem_shards {f : Color → Nat → List (List Oid)} {o : Oid}
    (h : o ∈ shards (fun _ b => (↑b : Multiset Oid)) f) : ∃ c q, ∃ b ∈ f c q, o ∈ b := by
  obtain ⟨q, -, hq⟩ := Multiset.mem_sum.1 h
  rcases Multiset.mem_add.1 hq with hq | hq
  · obtain ⟨b, hb, ho⟩ := mem_sum_map.1 hq
    exact ⟨.C0, q, b, hb, ho⟩
  · obtain ⟨b, hb, ho⟩ := mem_sum_map.1 hq
    exact ⟨.C1, q, b, hb, ho⟩

theorem frame_stored {s : St} {t : Lid} {f : Frame} {o : Oid} (hf : f ∈ (s.locals t).stack)
    (ho : o ∈ f.batch) :
    (∃ c, s.Open c o) ∨ s.Taken o ∨ .ptr (.pushObj o true) ∈ (s.locals t).stack := by
  cases f with
  | pin f | mark f => cases ho
  | ptr f =>
      cases f with
      | pushObj p newly =>
          obtain rfl := List.mem_singleton.1 ho
          cases newly with
          | true => exact .inr (.inr hf)
          | false => exact .inr (.inl (.frame hf rfl))
      | flushPush c b n => exact .inl ⟨c, .flush hf ho⟩
      | _ => cases ho
  | help f =>
      cases f with
      | sweepObjs todo bytes q qs k => exact .inr (.inl (.frame hf ho))
      | scanObjs sc done todo => exact .inr (.inl (.frame hf (List.mem_append.1 ho)))
      | forceHps h acc sc done p todo =>
          refine .inr (.inl (.frame hf ?_))
          rcases List.mem_append.1 ho with ho | ho
          · exact .inl ho
          · rcases List.mem_cons.1 ho with rfl | ho
            · exact .inr (.inl rfl)
            · exact .inr (.inr ho)
      | _ => cases ho

theorem stored_cases {s : St} {o : Oid} (h : o ∈ s.stored) :
    (∃ c, s.Open c o) ∨ s.Taken o ∨ ∃ t, .ptr (.pushObj o true) ∈ (s.locals t).stack := by
  rw [St.stored] at h
  rcases Multiset.mem_add.1 h with h | h
  · rcases Multiset.mem_add.1 h with h | h
    · rcases Multiset.mem_add.1 h with h | h
      · rcases Multiset.mem_add.1 h with h | h
        · obtain ⟨t, -, h⟩ := Multiset.mem_sum.1 h
          rcases Multiset.mem_add.1 h with h | h
          · rcases Multiset.mem_add.1 h with h | h
            · exact .inl ⟨.C0, .own h⟩
            · exact .inl ⟨.C1, .own h⟩
          · obtain ⟨f, hf, ho⟩ := mem_sum_map.1 h
            exact (frame_stored hf ho).imp id (.imp id fun hp => ⟨t, hp⟩)
        · obtain ⟨c, q, b, hb, ho⟩ := mem_shards h
          exact .inl ⟨c, .fresh hb ho⟩
      · obtain ⟨c, q, b, hb, ho⟩ := mem_shards h
        exact .inr (.inl (.marked hb ho))
    · obtain ⟨w, hw, ho⟩ := mem_sum_map.1 h
      exact .inr (.inl (.sweeper hw (Multiset.mem_add.1 ho)))
  · refine .inr (.inl (.stage ?_))
    cases hst : s.stage with
    | pendPush b n nx =>
        rw [hst] at h
        exact h
    | _ =>
        rw [hst] at h
        cases h

/-! ## No object is freed twice -/

/-- The object a step of a helper or of a sweep worker reclaims. -/
def St.reclaims (s : St) (o : Oid) : Label → Prop
  | .run t ch => ∃ f rest, (s.locals t).stack = f :: rest ∧ (exec s t ch f).1 = .reclaim o
  | .sweep k ch => ∃ w, s.sweepers[k]? = some w ∧ (sweepStep s w ch).1 = .reclaim o
  | _ => False

theorem lt_nLocals_of_mem {s : St} (hp : PinStr s) {t : Lid} {f : Frame}
    (hf : f ∈ (s.locals t).stack) : t < s.nLocals := by
  by_contra hlt
  have hnil := ((hp.node t).unused (hp.beyond t (Nat.not_lt.1 hlt))).2
  rw [hnil] at hf
  cases hf

theorem stored_of_frame {s : St} (hp : PinStr s) {t : Lid} {f : Frame} {o : Oid}
    (hf : f ∈ (s.locals t).stack) (ho : o ∈ f.batch) : o ∈ s.stored := by
  simp only [St.stored, Multiset.mem_add, Multiset.mem_sum, mem_sum_map]
  exact .inl (.inl (.inl (.inl
    ⟨t, mem_range.2 (lt_nLocals_of_mem hp hf), .inr ⟨f, hf, ho⟩⟩)))

theorem stored_of_sweeper {s : St} {w : Sweeper} {o : Oid} (hw : w ∈ s.sweepers)
    (ho : o ∈ w.todo) : o ∈ s.stored := by
  have hsum : o ∈ (s.sweepers.map fun w => (↑w.todo + ↑w.survived : Multiset Oid)).sum :=
    mem_sum_map.2 ⟨w, hw, Multiset.mem_add.2 (.inl ho)⟩
  simp only [St.stored, Multiset.mem_add] at hsum ⊢
  exact .inl (.inr hsum)

theorem stored_of_reclaims {s : St} (hp : PinStr s) {lab : Label} {o : Oid}
    (h : s.reclaims o lab) : o ∈ s.stored := by
  cases lab with
  | run t ch =>
      obtain ⟨f, rest, hstk, he⟩ := h
      have hmove := exec_batches s t ch f
      rw [he] at hmove
      generalize (exec s t ch f).2 = fs at hmove
      have hf : f ∈ (s.locals t).stack := by
        rw [hstk]
        exact List.mem_cons_self ..
      cases hmove with
      | idle _ hi | scan _ hi => cases hi
      | reclaim hc => exact stored_of_frame hp hf (List.mem_cons_self ..)
  | sweep k ch =>
      obtain ⟨w, hw, he⟩ := h
      have hmove := sweepStep_moves s w ch
      rw [he] at hmove
      generalize (sweepStep s w ch).2 = r at hmove
      cases hmove with
      | reclaim ht hc =>
          refine stored_of_sweeper (List.mem_of_getElem? hw) ?_
          rw [ht]
          exact List.mem_cons_self ..
  | _ => exact h.elim

theorem reclaimed_of_reclaims {s s' : St} {lab : Label} (hs : StepCase s lab s') {o : Oid}
    (h : s.reclaims o lab) : (s'.objs o).reclaimed = true := by
  cases hs with
  | @run t ch f rest ht hstk =>
      obtain ⟨f', rest', hstk', he⟩ := h
      rw [hstk] at hstk'
      cases hstk'
      rw [he]
      simp [Eff.apply, St.setObj]
  | @sweep k ch w hw =>
      obtain ⟨w', hw', he⟩ := h
      rw [hw] at hw'
      cases hw'
      rw [he]
      simp [Eff.apply, St.setObj]
  | _ => exact h.elim

theorem reclaims_of_step {s s' : St} {lab : Label} (hs : StepCase s lab s') {o : Oid}
    (ho : o < s.nextObj) (h : (s'.objs o).reclaimed = true) :
    (s.objs o).reclaimed = true ∨ s.reclaims o lab := by
  cases hs with
  | @op t op s₁ fs ht hu hstk hc hop =>
      refine .inl ?_
      rw [setStack_objs] at h
      obtain ⟨-, ⟨-, hobjs, -⟩ | ⟨cs, size, k, rfl⟩⟩ := startOp_heap hop
      · rwa [hobjs] at h
      · obtain ⟨rfl, -⟩ := startOp_alloc hop
        simpa [St.newObj, St.removeCells, Nat.ne_of_lt ho] using h
  | @run t ch f rest ht hstk =>
      rw [setStack_objs, (heap_apply _ s t o).2] at h
      exact h.imp id fun hd => ⟨f, rest, hstk, mem_dooms.1 hd⟩
  | @coll ch e st fs hstk hcoll =>
      rw [setStack_objs, withStage_objs, (heap_apply _ s s.collector o).2] at h
      refine h.imp id fun hd => ?_
      have hmove := (collStep_moves hcoll).1
      rw [mem_dooms.1 hd] at hmove
      cases hmove with
      | idle _ hi => cases hi
  | @sweep k ch w hw =>
      rw [withSweepers_objs, (heap_apply _ s s.collector o).2] at h
      exact h.imp id fun hd => ⟨w, hw, mem_dooms.1 hd⟩
  | @startWorker t lo hi hz js hj hr hc =>
      rw [setStack_objs, withJobs_objs, register_heap] at h
      exact .inl h
  | @register t hr hc =>
      rw [register_heap] at h
      exact .inl h
  | @exit t ht hu hstk hg hh hc => exact .inl h

/-- What is reclaimed stays so. -/
theorem gone_of_reaches {s s' : St} {o : Oid} (ho : o < s.nextObj)
    (hgone : (s.objs o).reclaimed = true)
    (hr : Lts.Reaches step (fun _ _ => True) s s') : ¬ s'.Live o := by
  suffices hinv : o < s'.nextObj ∧ (s'.objs o).reclaimed = true by
    rintro ⟨-, hlive⟩
    rw [hinv.2] at hlive
    cases hlive
  refine hr.invariant (I := fun u => o < u.nextObj ∧ (u.objs o).reclaimed = true) ⟨ho, hgone⟩ ?_
  intro a b lab ⟨ha, hga⟩ _ hab
  have hs := stepCase hab
  refine ⟨Nat.lt_of_lt_of_le ha (nextObj_step hs).1, ?_⟩
  by_contra hne
  rw [reclaimed_step hs (Nat.ne_of_lt ha) (Bool.eq_false_iff.2 hne)] at hga
  cases hga

/-- Every object that is not reclaimed is in one place of one batch, and the others
are in none. Who reclaims an object finds it unreclaimed, and nobody finds it in a
batch again. -/
theorem objects_stored_once {n : Nat} {s : St} (h : Reachable n s) :
    s.stored.Nodup ∧ (∀ o, o ∈ s.stored ↔ s.Live o) ∧
    ∀ {lab s' o}, step s lab = some s' → s.reclaims o lab →
      s.Live o ∧ ∀ s'', Lts.Reaches step (fun _ _ => True) s' s'' →
        o ∉ s''.stored ∧ ∀ lab', ¬ s''.reclaims o lab' := by
  refine ⟨?_, fun o => mem_stored h, ?_⟩
  · rw [stored_filter h]
    exact (Multiset.nodup_range _).filter _
  · intro lab s' o hs hrec
    have hlive := (mem_stored h).1 (stored_of_reclaims (Ground.of_reachable h).pin.str hrec)
    refine ⟨hlive, fun s'' hr => ?_⟩
    have h' : Reachable n s' := .tail h trivial hs
    have h'' : Reachable n s'' := h'.trans hr
    have hcase := stepCase hs
    have hgone : ¬ s''.Live o := gone_of_reaches
      (Nat.lt_of_lt_of_le hlive.1 (nextObj_step hcase).1) (reclaimed_of_reclaims hcase hrec) hr
    have hout : o ∉ s''.stored := fun ho => hgone ((mem_stored h'').1 ho)
    exact ⟨hout, fun lab' hrec' =>
      hout (stored_of_reclaims (Ground.of_reachable h'').pin.str hrec')⟩

theorem objects_stored_once_helperFirst : ∃ s s', Reachable 1 s ∧ step s (.run 1 0) = some s' ∧
    s.reclaims 0 (.run 1 0) ∧ s.Live 0 ∧ 0 ∈ s.stored ∧ 0 ∉ s'.stored := by
  have hrun : (Lts.runs step (fun _ _ => True) (St.init 1)
      (dropOne ++ traceAll ++ helperFirst)).any (fun s =>
        decide ((s.locals 1).stack.head? =
          some (.help (.sweepObjs [0] 0 0 [1, 2, 3, 4, 5, 6, 7] 0))) &&
        decide (s.color 0 = s.black 1) && (step s (.run 1 0)).isSome) = true := by
    decide +kernel
  obtain ⟨s, hr, h⟩ := Lts.exists_of_any hrun
  obtain ⟨h, hsome⟩ := Bool.and_eq_true_iff.1 h
  obtain ⟨hstk, hcol⟩ := Bool.and_eq_true_iff.1 h
  obtain ⟨s', hs⟩ := Option.isSome_iff_exists.1 hsome
  obtain ⟨rest, hstk⟩ := List.head?_eq_some_iff.1 (of_decide_eq_true hstk)
  have hrec : s.reclaims 0 (.run 1 0) := by
    refine ⟨_, rest, hstk, ?_⟩
    simp [exec, execHelp, of_decide_eq_true hcol]
  obtain ⟨-, hmem, hfree⟩ := objects_stored_once hr
  obtain ⟨hlive, hlater⟩ := hfree hs hrec
  exact ⟨s, s', hr, hs, hrec, hlive, (hmem 0).2 hlive, (hlater s' .refl).1⟩

/-! ## No object is lost -/

/-- A thread processes a batch of the root scan in RT only. -/
theorem scan_phase {s : St} (hc : SectInv s) {t : Lid} {f : Frame} {os : List Oid}
    (hf : f ∈ (s.locals t).stack) (hsc : f.scans = some os) :
    (s.locals t).pinDone ∧ (s.locals t).epoch.phase = .RT := by
  have hin : ∀ ph, f.inPhase ph = decide (ph = .RT) := by
    intro ph
    unfold Frame.scans at hsc
    split at hsc
    · rfl
    · rfl
    · cases hsc
  obtain ⟨hd, hph⟩ := hc.mem_phase hf ((hin .N).trans rfl)
  rw [hin] at hph
  exact ⟨hd, of_decide_eq_true hph⟩

/-- When nobody is pinned in RT, who holds objects of a batch sweeps it, or puts back
what has outlived the sweep. -/
theorem PlaceInv.frame_holds {s : St} (h : PlaceInv s)
    (hRT : ∀ t, (s.locals t).pinDone → (s.locals t).epoch.phase ≠ .RT) {t : Lid} {f : Frame}
    {o : Oid} (hf : f ∈ (s.locals t).stack) (ho : f.holds o) :
    ((s.locals t).pinDone ∧ (s.locals t).epoch.phase = .N) ∧
      (f.unswept o ∨ f = .ptr (.pushObj o false)) := by
  have hscan : ∀ os, f.scans ≠ some os := by
    intro os hsc
    obtain ⟨hd, hph⟩ := scan_phase h.wf.ground.sect hf hsc
    exact hRT t hd hph
  unfold Frame.holds at ho
  split at ho
  · obtain ⟨hd, hin⟩ := h.wf.ground.sect.mem_phase hf (unswept_phase (o := o) ho)
    exact ⟨⟨hd, by simpa [Frame.inPhase] using hin⟩, .inl ho⟩
  · exact absurd rfl (hscan _)
  · exact absurd rfl (hscan _)
  · subst ho
    exact ⟨keep_phase h.wf.ground.sect h.pushes hf, .inr rfl⟩
  · exact ho.elim

/-- An object on its way into its first batch has the colour of new objects. -/
theorem PlaceInv.new_color {s : St} (h : PlaceInv s)
    (hnp : s.epoch.phase = .N ∨ ¬ s.normalPinned) {t : Lid} {o : Oid}
    (hf : .ptr (.pushObj o true) ∈ (s.locals t).stack) : s.color o = s.newColor := by
  rw [h.wf.alloc.color hf rfl]
  exact allocColor_newColor h.wf.ground.pin hnp (h.wf.alloc.pinDone hf rfl)

theorem PlaceInv.white_marked {s : St} (h : PlaceInv s) (hst : s.stage = .nextNormal) {o : Oid}
    (ho : o ∈ s.stored) (hcol : s.color o = s.epoch.color) :
    ∃ q, ∃ b ∈ s.markedObjs s.epoch.color q, o ∈ b := by
  have hp := h.wf.ground.pin
  have hCT : s.epoch.phase = .CT := by
    have := hp.phase
    rw [hst] at this
    exact of_decide_eq_true this
  have hN : s.epoch.phase ≠ .N := by simp [hCT]
  have hnp := not_normalPinned_of_CT hp hCT
  have hnew : s.color o ≠ s.newColor := by
    rw [hcol, newColor_trace hN]
    exact Color.ne_flip _
  have hRT : ∀ t, (s.locals t).pinDone → (s.locals t).epoch.phase ≠ .RT := by
    intro t hd
    rw [hp.epoch_of_waited (by rw [St.waited, hst]; rfl) hd]
    simp [Epoch.pinned, hCT]
  rcases stored_cases ho with ⟨c, ho⟩ | ho | ⟨t, hf⟩
  · -- Under the white colour nothing waits any more, under the other one nothing is white.
    by_cases hc : c = s.newColor
    · exact absurd (h.colored (hc ▸ ho)) hnew
    · rw [newColor_trace hN] at hc
      obtain rfl : c = s.epoch.color := by simpa using Color.eq_flip_of_ne hc
      cases ho with
      | @own t hown =>
          rw [h.taken (i := t) (by rw [St.gathered, hst]; trivial)] at hown
          cases hown
      | @flush t b n hf hb =>
          have hflush := (h.flush hf).trans (allocColor_newColor hp (.inr hnp) (h.flush_pinned hf))
          exact absurd (hcol.trans hflush) hnew
      | @fresh q b hb hob =>
          exact absurd (h.scanned hN (List.ne_nil_of_mem hb))
            (not_unscanned (by rw [hst]; rfl) q)
  · cases ho with
    | @frame t f hf hh => exact absurd ⟨t, (h.frame_holds hRT hf hh).1⟩ hnp
    | stage hh =>
        rw [hst] at hh
        exact hh.elim
    | @marked c q b hb hob =>
        by_cases hc : c = s.epoch.color
        · exact ⟨q, b, hc ▸ hb, hob⟩
        · rw [Color.eq_flip_of_ne hc] at hb
          have := (h.swept (List.ne_nil_of_mem hb)).1
          rw [hst] at this
          cases this
    | sweeper hw hh =>
        have := h.stock.sweepers (List.ne_nil_of_mem hw)
        rw [hst] at this
        cases this
  · exact absurd (h.new_color (.inr hnp) hf) hnew

theorem PlaceInv.dead_unswept {s : St} (h : PlaceInv s) (hN : s.epoch.phase = .N) {o : Oid}
    (ho : o ∈ s.stored) (hcol : s.color o = s.epoch.color.flip) : s.Unswept o := by
  have hp := h.wf.ground.pin
  have hnew : s.color o ≠ s.newColor := by
    rw [hcol, newColor_N hN]
    exact Color.flip_ne _
  have hRT : ∀ t, (s.locals t).pinDone → (s.locals t).epoch.phase ≠ .RT := by
    intro t hd hph
    rcases normal_pins hp hN hd with ⟨hph', -⟩ | ⟨hph', -⟩ <;> rw [hph] at hph' <;> cases hph'
  rcases stored_cases ho with ⟨c, ho⟩ | ho | ⟨t, hf⟩
  · by_cases hc : c = s.newColor
    · exact absurd (h.colored (hc ▸ ho)) hnew
    · rw [newColor_N hN] at hc
      obtain rfl : c = s.epoch.color.flip := Color.eq_flip_of_ne hc
      obtain ⟨hown, hfresh⟩ := h.old hN
      cases ho with
      | @own t ho =>
          rw [hown t] at ho
          cases ho
      | @flush t b n hf hb =>
          have hflush := (h.flush hf).trans (allocColor_newColor hp (.inl hN) (h.flush_pinned hf))
          exact absurd (hcol.trans hflush) hnew
      | @fresh q b hb hob =>
          rw [hfresh q] at hb
          cases hb
  · cases ho with
    | @frame t f hf hh =>
        rcases (h.frame_holds hRT hf hh).2 with hun | rfl
        · exact .frame hf hun
        · exact absurd (h.kept hN hf) hnew
    | stage hh =>
        have hph := hp.phase
        cases hst : s.stage with
        | pendPush b n nx =>
            rw [hst, hN] at hph
            cases hph
        | _ =>
            rw [hst] at hh
            exact hh.elim
    | @marked c q b hb hob =>
        by_cases hc : c = s.epoch.color
        · rw [hc, h.marked hN q] at hb
          cases hb
        · rw [Color.eq_flip_of_ne hc] at hb
          exact .marked hb hob
    | sweeper hw hh =>
        rcases hh with hh | hh
        · exact .sweeper hw hh
        · exact absurd (h.survived hw hh) hnew
  · exact absurd (h.new_color (.inl hN) hf) hnew

/-- What the trace has not marked is swept. When the collector is about to store N,
the white objects are in the batches it is going to sweep. In N the objects of the
dead colour are ahead of the sweep, and once the workers have returned only a helper
can still have one. -/
theorem no_object_lost {n : Nat} {s : St} (hn : 0 < n) (h : Reachable n s) {o : Oid}
    (ho : s.Live o) :
    (s.stage = .nextNormal → s.color o = s.epoch.color →
      ∃ q, ∃ b ∈ s.markedObjs s.epoch.color q, o ∈ b) ∧
    (s.epoch.phase = .N → s.color o = s.epoch.color.flip → s.Unswept o ∧
      (s.stage ≠ .joinSweep → ∃ t, ∃ f ∈ (s.locals t).stack, f.unswept o)) := by
  have hP := PlaceInv.of_reachable hn h
  have hstored := (mem_stored h).2 ho
  refine ⟨fun hst hcol => hP.white_marked hst hstored hcol, fun hN hcol => ?_⟩
  have hun := hP.dead_unswept hN hstored hcol
  refine ⟨hun, fun hst => ?_⟩
  cases hun with
  | @frame t f hf hun => exact ⟨t, f, hf, hun⟩
  | marked hb hob => exact absurd (hP.swept (List.ne_nil_of_mem hb)).1 hst
  | sweeper hw hob => exact absurd (hP.stock.sweepers (List.ne_nil_of_mem hw)) hst

theorem no_object_lost_helperFirst : ∃ s, Reachable 1 s ∧ s.stage = .idle ∧ s.Live 0 ∧
    s.color 0 = s.epoch.color.flip ∧ ∃ t, ∃ f ∈ (s.locals t).stack, f.unswept 0 := by
  have hrun : (Lts.runs step (fun _ _ => True) (St.init 1)
      (dropOne ++ traceAll ++ helperFirst)).any (fun s =>
        decide (s.stage = .idle ∧ s.epoch.phase = .N) &&
        decide (s.color 0 = s.epoch.color.flip ∧ 0 < s.nextObj ∧ (s.objs 0).reclaimed = false)) =
          true := by
    decide +kernel
  obtain ⟨s, hr, h⟩ := Lts.exists_of_any hrun
  obtain ⟨hs, h⟩ := Bool.and_eq_true_iff.1 h
  obtain ⟨hst, hN⟩ := of_decide_eq_true hs
  obtain ⟨hcol, hlive⟩ := of_decide_eq_true h
  have hlost := (no_object_lost (by decide) hr hlive).2 hN hcol
  exact ⟨s, hr, hst, hlive, hcol, hlost.2 (by simp [hst])⟩

end Cdpt
