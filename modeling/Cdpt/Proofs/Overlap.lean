import Cdpt.Proofs.Heartbeat

/-!
# Marking beside the sweep of the cycle before

The colour that means marked in RT is the one a helper that is still pinned in N
takes for dead. A helper of the trace waits until there is no such thread, and the
collector does; what a mutator does to shade is to schedule. What is left is
`phase_barrier`, which marks what the hazard slots of its thread protect at once.
Where it meets no object that is still to be swept, whatever the sweep reclaims was
white when the cycle before was confirmed.

The proof follows two things through the overlap of a sweep and the next trace. One
is what is still to be swept (`St.Unswept`): after the store of N it only gets less,
since whoever adds to `marked_objs` has scanned the batch in RT and no helper of
that RT runs beside a thread in N (`marked_step`). The other is who begins to mark.
`exec_newMarks` names three kinds of frames: the barrier of a fresh pin, a helper
that has passed `is_tracing_synced`, and a worker of the root scan. The second and
the third do not run while a thread is left in N (`newMarks_step`), and by the time
of CT there is none.

So beside a thread in N the header of an unswept object changes only through the
barrier, and the hypothesis on the run (`barrierClear`) excludes that step and no
other. The last theorem is a run with this step in it, at whose end the helper
reclaims an object that a hazard slot protects.
-/

namespace Cdpt

/-! ## Objects that are still to be swept -/

def Frame.unswept (o : Oid) : Frame → Prop
  | .help (.sweepObjs todo _ _ _ _) => o ∈ todo
  | _ => False

/-- `o` is in a batch of the preceding cycle that nobody has swept. -/
inductive St.Unswept (s : St) (o : Oid) : Prop
  | frame {t : Lid} {f : Frame} (hf : f ∈ (s.locals t).stack) (ho : f.unswept o)
  | marked {q : Nat} {b : List Oid} (hb : b ∈ s.markedObjs s.epoch.color.flip q) (ho : o ∈ b)
  | sweeper {w : Sweeper} (hw : w ∈ s.sweepers) (ho : o ∈ w.todo)

theorem unswept_holds {f : Frame} {o : Oid} (h : f.unswept o) : f.holds o := by
  unfold Frame.unswept at h
  split at h
  · exact h
  · cases h

theorem unswept_phase {f : Frame} {o : Oid} (h : f.unswept o) : f.inPhase .RT = false := by
  unfold Frame.unswept at h
  split at h
  · rfl
  · cases h

theorem St.Unswept.taken {s : St} {o : Oid} (h : s.Unswept o) : s.Taken o := by
  cases h with
  | frame hf ho => exact .frame hf (unswept_holds ho)
  | marked hb ho => exact .marked hb ho
  | sweeper hw ho => exact .sweeper hw (.inl ho)

theorem unswept_of_carries {f : Frame} {o : Oid} (h : f.carries = false) : ¬ f.unswept o := by
  intro ho
  unfold Frame.unswept at ho
  split at ho
  · cases h
  · cases ho

theorem marked_apply {e : Eff} {s : St} {t : Lid} {c : Color} {q : Nat} {b : List Oid}
    (h : b ∈ (e.apply s t).markedObjs c q) :
    b ∈ s.markedObjs c q ∨ ∃ q', e = .pushMarked c q' b := by
  by_cases hfree : e.batchFree = true
  · rw [(batchFree_apply hfree s t).2.2.2.1] at h
    exact .inl h
  · cases e with
    | pushMarked c' q' b' =>
        rcases mem_setQueue h with h | ⟨rfl, rfl, h⟩
        · exact .inl h
        · rcases List.mem_append.1 h with h | h
          · exact .inl h
          · rw [List.mem_singleton.1 h]
            exact .inr ⟨_, rfl⟩
    | popMarked c' q' =>
        rcases mem_setQueue h with h | ⟨rfl, rfl, h⟩
        · exact .inl h
        · exact .inl (List.mem_of_mem_tail h)
    | pushObj | takeBatch | pushFresh | popFresh | spawnSweep => exact .inl h
    | _ => exact absurd rfl hfree

/-- A helper sweeps what it had to sweep, or a batch it has just popped. -/
theorem run_unswept {s : St} {t : Lid} {f g : Frame} {e : Eff} {fs : List Frame} {o : Oid}
    (hmove : BatchStep s t f e fs) (hg : g ∈ fs) (ho : g.unswept o) :
    f.unswept o ∨ ((∃ q qs k, f = .help (.normalPop q qs k)) ∧
      ∃ q, ∃ b ∈ s.markedObjs (s.black t) q, o ∈ b) := by
  have hidle : fs.all (fun g => !g.carries) = true → ¬ g.unswept o := fun hfs =>
    unswept_of_carries (by simpa using List.all_eq_true.1 hfs g hg)
  cases hmove with
  | idle _ _ hfs | swept hfs | scanned _ hfs => exact absurd ho (hidle hfs)
  | push | flushed | counted => cases hg
  | flush =>
      simp only [List.mem_cons, List.not_mem_nil, or_false] at hg
      rcases hg with rfl | rfl | rfl <;> cases ho
  | @sweepPop q qs k b bs hb =>
      rw [List.mem_singleton.1 hg] at ho
      exact .inr ⟨⟨q, qs, k, rfl⟩, q, b, by rw [hb]; exact List.mem_cons_self .., ho⟩
  | @reclaim p rest bytes q qs k hc =>
      rw [List.mem_singleton.1 hg] at ho
      exact .inl (List.mem_cons_of_mem p ho)
  | @keep p rest bytes q qs k hc =>
      simp only [List.mem_cons, List.not_mem_nil, or_false] at hg
      rcases hg with rfl | rfl
      · cases ho
      · exact .inl (List.mem_cons_of_mem p ho)
  | scanPop hb =>
      rw [List.mem_singleton.1 hg] at ho
      cases ho
  | @scan f g' e fs os hf he hfs hg' =>
      rcases List.mem_append.1 hg with hg | hg
      · exact absurd ho (unswept_of_carries (by simpa using List.all_eq_true.1 hfs g hg))
      · rw [List.mem_singleton.1 hg] at ho
        unfold Frame.unswept at ho
        split at ho
        · cases hg'
        · cases ho

/-- Who adds to `marked_objs` has scanned the batch. -/
theorem marked_step {s s' : St} {lab : Label} (hs : StepCase s lab s') {c : Color} {q : Nat}
    {b : List Oid} (h : b ∈ s'.markedObjs c q) :
    b ∈ s.markedObjs c q ∨ ∃ t sc rest, (s.locals t).stack = .help (.scanObjs sc b []) :: rest ∧
      c = s.white t := by
  cases hs with
  | @op t op s₁ fs ht hu hstk hc hop =>
      rw [setStack_markedObjs, (startOp_batches hop).2.2.1] at h
      exact .inl h
  | @run t ch f rest ht hstk =>
      rw [setStack_markedObjs] at h
      refine (marked_apply h).imp id fun ⟨q', he⟩ => ?_
      have hmove := exec_batches s t ch f
      rw [he] at hmove
      generalize (exec s t ch f).2 = fs at hmove
      cases hmove with
      | idle _ hi | scan _ hi => cases hi
      | @scanned sc done q fs hq hfs => exact ⟨t, sc, rest, hstk, rfl⟩
  | @coll ch e st fs hstk hcoll =>
      rw [setStack_markedObjs, withStage_markedObjs] at h
      refine (marked_apply h).imp id fun ⟨q', he⟩ => ?_
      have hmove := (collStep_moves hcoll).1
      rw [he] at hmove
      cases hmove with
      | idle _ hi => cases hi
  | @sweep k ch w hw =>
      rw [withSweepers_markedObjs] at h
      refine (marked_apply h).imp id fun ⟨q', he⟩ => ?_
      have hmove := sweepStep_moves s w ch
      rw [he] at hmove
      generalize (sweepStep s w ch).2 = r at hmove
      cases hmove
  | @startWorker t lo hi hz js hj hr hc =>
      rw [setStack_markedObjs, withJobs_markedObjs, (register_batches s t).2.1] at h
      exact .inl h
  | @register t hr hc =>
      rw [(register_batches s t).2.1] at h
      exact .inl h
  | @exit t ht hu hstk hg hh hc => exact .inl h

/-- A worker sweeps what it had to sweep, or a batch it has just popped. -/
theorem sweeper_step {s s' : St} {lab : Label} (hst : StockInv s) (hs : StepCase s lab s')
    {w : Sweeper} {o : Oid} (h : w ∈ s'.sweepers) (ho : o ∈ w.todo) :
    ∃ w₀ ∈ s.sweepers, o ∈ w₀.todo ∨ ∃ b ∈ s.markedObjs w₀.prevWhite w₀.q, o ∈ b := by
  cases hs with
  | @op t op s₁ fs ht hu hstk hc hop =>
      rw [setStack_sweepers, (startOp_batches hop).2.2.2.1] at h
      exact ⟨w, h, .inl ho⟩
  | @run t ch f rest ht hstk =>
      rw [setStack_sweepers, sweepers_apply (hst.run_fits ht (exec_batches s t ch f))] at h
      exact ⟨w, h, .inl ho⟩
  | @coll ch e st fs hstk hcoll =>
      rcases hst.coll_fits (collStep_moves hcoll).1 with hfit | hnext
      · rw [setStack_sweepers, withStage_sweepers, sweepers_apply hfit] at h
        exact ⟨w, h, .inl ho⟩
      · simp only [collStep, hnext, Option.some.injEq, Prod.mk.injEq] at hcoll
        obtain ⟨rfl, rfl, rfl⟩ := hcoll
        have hmem : w ∈ (shardRanges s.collectorThreads).map fun r =>
            (⟨s.epoch.color, r.1, r.2, [], [], 0⟩ : Sweeper) := h
        obtain ⟨r, -, rfl⟩ := List.mem_map.1 hmem
        cases ho
  | @sweep k ch w₀ hw =>
      have hmem : w ∈ nextSweepers s.sweepers k (sweepStep s w₀ ch).2 := by
        cases hr : (sweepStep s w₀ ch).2 <;> rw [hr] at h <;> exact h
      rcases mem_nextSweepers hmem with hold | hnew
      · exact ⟨w, hold, .inl ho⟩
      · refine ⟨w₀, List.mem_of_getElem? hw, ?_⟩
        have hmove := sweepStep_moves s w₀ ch
        rw [hnew] at hmove
        generalize (sweepStep s w₀ ch).1 = e at hmove
        cases hmove with
        | reclaim ht hc | keep ht hc _ | full ht hc _ _ =>
            exact .inl (by rw [ht]; exact List.mem_cons_of_mem _ ho)
        | pop ht hq hb => exact .inr ⟨_, by rw [hb]; exact List.mem_cons_self .., ho⟩
        | next ht hq hb | last ht hhi hq => exact .inl ho
  | @startWorker t lo hi hz js hj hr hc =>
      have h' : w ∈ (s.register t).sweepers := h
      rw [(register_batches s t).2.2] at h'
      exact ⟨w, h', .inl ho⟩
  | @register t hr hc =>
      rw [(register_batches s t).2.2] at h
      exact ⟨w, h, .inl ho⟩
  | @exit t ht hu hstk hg hh hc => exact ⟨w, h, .inl ho⟩

/-- What is to be swept only gets less, until the next N epoch. -/
theorem unswept_step {s s' : St} {lab : Label} (hwf : WellFormed s) (hst : StockInv s)
    (hw : s.sweepersWhite) (hs : StepCase s lab s') (hc : s'.epoch.color = s.epoch.color) {o : Oid}
    (h : s'.Unswept o) : s.Unswept o := by
  have hg := hwf.ground
  have hframe : ∀ {t : Lid} {f : Frame}, f ∈ (s'.locals t).stack → f.unswept o → s.Unswept o := by
    intro t f hf ho
    rcases frame_step hg.pin.str hs hf with hf | ⟨op, s₁, fs, -, hop, hf⟩ |
      ⟨ch, f₀, rest, -, hstk, hf⟩ | hf
    · exact .frame hf ho
    · exact absurd (unswept_holds ho) ((startOp_batches hop).2.2.2.2.2 o f hf)
    · rcases run_unswept (exec_batches s t ch f₀) hf ho with hold | ⟨⟨q, qs, k, rfl⟩, q', b, hb, ho⟩
      · exact .frame (by rw [hstk]; exact List.mem_cons_self ..) hold
      · obtain ⟨hd, hin⟩ := hg.sect.head_phase hstk rfl rfl
        have hN : (s.locals t).epoch.phase = .N := by simpa [Frame.inPhase] using hin
        obtain ⟨hwhite, -⟩ := pinned_white hg.pin hd (by rw [hN]; decide)
        rw [St.black, hwhite] at hb
        exact .marked hb ho
    · unfold Frame.unswept at ho
      split at ho
      · cases hf
      · cases ho
  cases h with
  | frame hf ho => exact hframe hf ho
  | @marked q b hb ho =>
      rw [hc] at hb
      rcases marked_step hs hb with hb | ⟨t, sc, rest, hstk, heq⟩
      · exact .marked hb ho
      · obtain ⟨hd, hin⟩ := hg.sect.head_phase hstk rfl rfl
        have hRT : (s.locals t).epoch.phase = .RT := by simpa [Frame.inPhase] using hin
        obtain ⟨hwhite, -⟩ := pinned_white hg.pin hd (by rw [hRT]; decide)
        rw [hwhite] at heq
        exact absurd heq (Color.flip_ne _)
  | @sweeper w hw' ho =>
      obtain ⟨w₀, hmem, hold | ⟨b, hb, ho⟩⟩ := sweeper_step hst hs hw' ho
      · exact .sweeper hmem hold
      · rw [hw w₀ hmem] at hb
        exact .marked hb ho

/-! ## Who begins to mark -/

theorem marks_of_resume {r : ShadeRet} {g : Frame} {o : Oid} (hg : g ∈ r.resume)
    (h : g.marks o) : r.marks o := by
  cases r <;> simp only [ShadeRet.resume, List.mem_singleton, List.not_mem_nil] at hg <;>
    (subst hg; exact h)

theorem marks_of_shadeLink {s : St} {t : Lid} {p o : Oid} {i : Nat} {q : ManPtr}
    (h : (shadeLink s t p i q).marks o) : p = o := by
  unfold shadeLink at h
  repeat' split at h
  all_goals exact h

theorem not_marks_unrootedOnce {s : St} {t : Lid} {l : Loc} {old new : ManPtr} {k : CasKind}
    {o : Oid} : ¬ Frame.marks o (.ptr (unrootedOnce s t l old new k)) := by
  intro h
  unfold unrootedOnce at h
  repeat' split at h
  all_goals cases h

theorem not_marks_dropTemp {p : ManPtr} {g : Frame} {o : Oid} (hg : g ∈ dropTemp p) :
    ¬ g.marks o := by
  intro h
  unfold dropTemp at hg
  split at hg
  · simp only [dropFrames, List.mem_cons, List.not_mem_nil, or_false] at hg
    rcases hg with rfl | rfl | rfl | rfl <;> cases h
  · cases hg

/-- The barrier of a fresh pin is about to mark `o`. -/
def St.barrierMeets (s : St) (t : Lid) (f : Frame) (o : Oid) : Prop :=
  ∃ i, f = .pin (.barrier i) ∧ (s.locals t).hazards[i]? = some (some o)

/-- Who begins to mark `o` is the barrier of a fresh pin, a helper that has found
no thread in N, or a worker of the root scan. -/
theorem exec_newMarks {s : St} {t : Lid} {ch : Nat} {f g : Frame} {o : Oid}
    (hg : g ∈ (exec s t ch f).2) (h : g.marks o) :
    f.marks o ∨ s.barrierMeets t f o ∨ f.afterSync = true ∨ f.isWorker = true := by
  have hscan : ∀ {sc : Scanner}, (!sc.isWorker) = true ∨ sc.isWorker = true := by
    intro sc
    cases sc.isWorker <;> simp
  cases f with
  | pin f =>
      cases f with
      | barrier i =>
          simp only [exec, execPin] at hg
          split at hg
          · cases hg
          · rw [List.mem_singleton.1 hg] at h
            cases h
          · next p hp =>
              simp only [List.mem_cons, List.not_mem_nil, or_false] at hg
              rcases hg with rfl | rfl | rfl | rfl | rfl
              · cases h
              · obtain rfl : p = o := h
                exact .inr (.inl ⟨i, rfl, hp⟩)
              · cases h
              · cases h
              · cases h
      | _ =>
          simp only [exec, execPin] at hg
          repeat' split at hg
          all_goals grind [Frame.marks]
  | ptr f =>
      cases f with
      | push p r => exact .inl (marks_of_resume hg h)
      | rcPhase p r | shade p r =>
          simp only [exec, execPtr] at hg
          split at hg
          · exact .inl (marks_of_resume hg h)
          · rw [List.mem_singleton.1 hg] at h
            exact .inl h
      | record p r =>
          simp only [exec, execPtr] at hg
          rw [List.mem_singleton.1 hg] at h
          exact .inl h
      | _ =>
          simp only [exec, execPtr, rootedOnce, rootedFail, unrootedFail] at hg
          repeat' split at hg
          all_goals grind [Frame.marks, ShadeRet.marks, not_marks_unrootedOnce, not_marks_dropTemp]
  | mark f =>
      refine .inl ?_
      cases f with
      | links p i | linkCas p i q =>
          simp only [exec, execMark] at hg
          split at hg <;> rw [List.mem_singleton.1 hg] at h <;>
            first
            | exact h
            | exact marks_of_shadeLink h
      | _ =>
          simp only [exec, execMark] at hg
          repeat' split at hg
          all_goals grind [Frame.marks]
  | help f =>
      cases f with
      | scanObjs sc done todo => exact .inr (.inr hscan)
      | forceHps hp acc sc done p todo => exact .inr (.inr (.inl rfl))
      | drainPop k => exact .inr (.inr (.inl rfl))
      | _ =>
          simp only [exec, execHelp] at hg
          repeat' split at hg
          all_goals grind [Frame.marks]

/-! ## Threads that are still in N -/

/-- Some thread is pinned in N. -/
def St.normalPinned (s : St) : Prop :=
  ∃ t, (s.locals t).pinDone ∧ (s.locals t).epoch.phase = .N

/-- Once N is over nobody pins in it. -/
theorem normalPinned_step {s s' : St} {lab : Label} (hp : PinInv s) (hs : StepCase s lab s')
    (hN : s.epoch.phase ≠ .N) (h : s'.normalPinned) : s.normalPinned := by
  obtain ⟨t, hd, hph⟩ := h
  rcases (node_step hp.str hs t).pinDone (hp.str.node t) hd with ⟨hd', he⟩ | he
  · exact ⟨t, hd', he ▸ hph⟩
  · rw [he] at hph
    exact absurd hph hN

theorem not_normalPinned_of_waited {s : St} (hp : PinInv s) (hw : s.waited)
    (hN : s.epoch.phase ≠ .N) : ¬ s.normalPinned := by
  rintro ⟨t, hd, hph⟩
  rw [hp.epoch_of_waited hw hd] at hph
  exact hN hph

/-- Beside a thread in N, with RT stored, everybody else is in N or RT. -/
theorem not_normalPinned_of_quiet {s : St} (hp : PinInv s) (hN : s.epoch.phase ≠ .N) {t : Lid}
    (hd : (s.locals t).pinDone) (hq : s.quiet t) : ¬ s.normalPinned := by
  rintro ⟨i, hdi, hphi⟩
  have hlt := hq i hdi hphi
  obtain ⟨n, hn, hen⟩ := hp.pins i hdi
  obtain ⟨m, hm, hem⟩ := hp.pins t hd
  have hni : (s.locals i).epoch.timestamp = n := by
    rw [hen]
    exact hp.stamp n (by omega)
  have hmt : (s.locals t).epoch.timestamp = m := by
    rw [hem]
    exact hp.stamp m (by omega)
  have hnow : n = s.epoch.timestamp := by omega
  rw [hen, hnow, hp.now] at hphi
  exact hN hphi

/-- In CT nobody is left in N. -/
theorem not_normalPinned_of_CT {s : St} (hp : PinInv s) (hCT : s.epoch.phase = .CT) :
    ¬ s.normalPinned := by
  rintro ⟨t, hd, hph⟩
  obtain ⟨n, hn, he⟩ := hp.pins t hd
  rw [he] at hph
  rcases hn with rfl | hn
  · rw [hp.now] at hph
    rw [show s.epoch.phase = .N from hph] at hCT
    cases hCT
  · have hnext := (hp.next n (by omega)).2
    rw [hn, hp.now] at hnext
    rw [show (s.past n).phase = .N from hph] at hnext
    rw [hnext.1] at hCT
    cases hCT

/-- Beside a thread that is still in N only the barrier of a fresh pin begins to
mark. -/
theorem newMarks_step {s s' : St} {lab : Label} (hg : Ground s) (hs : StepCase s lab s')
    (hN : s.epoch.phase ≠ .N) (hnp : s.normalPinned) {t : Lid} {g : Frame} {o : Oid}
    (hmem : g ∈ (s'.locals t).stack) (h : g.marks o) :
    (∃ f ∈ (s.locals t).stack, f.marks o) ∨
    ∃ ch f rest, lab = .run t ch ∧ (s.locals t).stack = f :: rest ∧ s.barrierMeets t f o := by
  have hstep := stack_step hg.pin.str hs t
  generalize (s'.locals t).stack = fs at hstep hmem
  cases hstep with
  | same _ => exact .inl ⟨g, hmem, h⟩
  | op hl _ _ hop => exact absurd h (startOp_marks hop hmem)
  | @run ch f rest hl _ hst =>
      have hhead : f ∈ (s.locals t).stack := by
        rw [hst]
        exact List.mem_cons_self ..
      rcases List.mem_append.1 hmem with hmem | hmem
      · rcases exec_newMarks hmem h with hold | hbar | hsync | hwork
        · exact .inl ⟨f, hhead, hold⟩
        · exact .inr ⟨ch, f, rest, hl, hst, hbar⟩
        · obtain ⟨hd, -⟩ := hg.sect.mem_phase hhead (afterSync_phase hsync)
          exact absurd hnp
            (not_normalPinned_of_quiet hg.pin hN hd (hg.sync.quiet t f hhead hsync))
        · obtain ⟨x, hx, hxe⟩ := hg.sect.worker t f hhead hwork
          have hj := hg.sect.exit t x hx hxe
          exact absurd hnp (not_normalPinned_of_waited hg.pin (by rw [St.waited, hj]; rfl) hN)
      · exact .inl ⟨g, by rw [hst]; exact List.mem_cons_of_mem f hmem, h⟩
  | coll hl ht hst hcoll =>
      rcases (collStep_guards hcoll).2 with rfl | rfl | ⟨rfl, -⟩ | ⟨p, rfl, hstage⟩
      · cases hmem
      · rw [List.mem_singleton.1 hmem] at h
        cases h
      · simp only [List.mem_cons, List.not_mem_nil, or_false] at hmem
        rcases hmem with rfl | rfl <;> cases h
      · refine absurd hnp (not_normalPinned_of_waited hg.pin ?_ hN)
        rcases hstage with hst | ⟨it, hst⟩ <;> rw [St.waited, hst] <;> rfl
  | worker hl hj hst =>
      simp only [List.mem_cons, List.not_mem_nil, or_false] at hmem
      rcases hmem with rfl | rfl | rfl | rfl | rfl <;> cases h

/-! ## The confirmed colours -/

theorem confirmed_apply (e : Eff) (s : St) (t : Lid) :
    (e.apply s t).confirmed = s.confirmed ∨ e = .confirm := by
  cases e with
  | confirm => exact .inr rfl
  | setLink l p => cases l <;> exact .inl rfl
  | _ => exact .inl rfl

theorem exec_ne_confirm (s : St) (t : Lid) (ch : Nat) (f : Frame) :
    (exec s t ch f).1 ≠ .confirm := by
  cases f with
  | pin f => cases f <;> simp only [exec, execPin] <;> (repeat' split) <;> simp
  | ptr f => cases f <;> simp only [exec, execPtr] <;> (repeat' split) <;> simp
  | mark f => cases f <;> simp only [exec, execMark] <;> (repeat' split) <;> simp
  | help f => cases f <;> simp only [exec, execHelp] <;> (repeat' split) <;> simp

theorem startOp_confirmed {s s₁ : St} {t : Lid} {op : Op} {fs : List Frame}
    (h : startOp s t op = some (s₁, fs)) : s₁.confirmed = s.confirmed := by
  cases op <;> simp only [startOp] at h <;> (repeat' split at h) <;>
    first
    | (cases h; done)
    | (cases h; rfl)
    | (obtain ⟨o, -, h⟩ := Option.map_eq_some_iff.1 h; cases h; rfl)

theorem collStep_confirm {s : St} {ch : Nat} {e : Eff} {st : Stage} {fs : List Frame}
    (h : collStep s ch = some (e, st, fs)) :
    (e = .confirm ∧ s.stage = .conf3 .fin) ∨ (e ≠ .confirm ∧ st ≠ .nextNormal) := by
  have hwait : s.afterWait ≠ .nextNormal := by
    unfold St.afterWait
    split <;> simp
  unfold collStep at h
  simp only at h
  repeat' split at h
  all_goals first
    | (cases h; done)
    | (cases h; simp_all)

/-- The colours are confirmed where the collector goes on to `next_normal`. -/
theorem confirm_step {s s' : St} {lab : Label} (hs : StepCase s lab s') :
    (s'.confirmed = s.confirmed ∧ (s'.stage = .nextNormal → s.stage = .nextNormal)) ∨
    (s.stage = .conf3 .fin ∧ s'.confirmed = s.color ∧ s'.color = s.color ∧
      s'.epoch = s.epoch) := by
  by_cases hl : lab.isColl = true
  · cases hs with
    | @coll ch e st fs hstk hcoll =>
        rcases collStep_confirm hcoll with ⟨rfl, hst⟩ | ⟨hne, hst⟩
        · exact .inr ⟨hst, rfl, rfl, rfl⟩
        · exact .inl ⟨(confirmed_apply e s s.collector).resolve_right hne, fun h => absurd h hst⟩
    | _ => cases hl
  · refine .inl ⟨?_, fun h => ?_⟩
    · cases hs with
      | @op t op s₁ fs ht hu hstk hc hop =>
          rw [setStack_confirmed, startOp_confirmed hop]
      | @run t ch f rest ht hstk =>
          exact (confirmed_apply _ s t).resolve_right (exec_ne_confirm s t ch f)
      | coll hstk hcoll => exact absurd rfl hl
      | @sweep k ch w hw =>
          refine (confirmed_apply _ s s.collector).resolve_right ?_
          unfold sweepStep
          repeat' split
          all_goals simp
      | @startWorker t lo hi hz js hj hr hc | @register t hr hc =>
          show (s.register t).confirmed = s.confirmed
          unfold St.register
          split <;> rfl
      | exit ht hu hstk hg hh hc => rfl
    · rw [stage_of_not_coll hs (by simpa using hl)] at h
      exact h

/-! ## The runs in which the barrier meets nothing unswept -/

/-- A step other than one by which the barrier of a fresh pin meets an object that
is still to be swept, beside a thread in N. -/
def barrierClear (s : St) (lab : Label) : Prop :=
  ∀ t ch f rest o, lab = .run t ch → (s.locals t).stack = f :: rest → s.barrierMeets t f o →
    s.normalPinned → ¬ s.Unswept o

/-- The sweep of the preceding cycle is not over. -/
def St.sweepLasts (s : St) : Prop := s.epoch.phase = .N ∨ s.normalPinned

structure OverlapInv (s : St) : Prop where
  wf : WellFormed s
  stock : StockInv s
  white : s.sweepersWhite
  done : s.stage = .nextNormal → ∀ o < s.nextObj, s.color o = s.epoch.color →
    s.confirmed o = s.epoch.color
  kept : s.sweepLasts → ∀ {o}, s.Unswept o → s.color o = s.epoch.color.flip →
    s.confirmed o = s.epoch.color.flip
  unmarked : s.epoch.phase ≠ .N → s.normalPinned → ∀ {o}, s.Unswept o →
    ∀ {t f}, f ∈ (s.locals t).stack → ¬ f.marks o

theorem OverlapInv.init (n : Nat) : OverlapInv (St.init n) where
  wf := .of_reachable .refl
  stock := .init n
  white w hw := by cases hw
  done h := by cases h
  kept _ {o} hu hc := by
    cases hu with
    | @frame t f hf ho =>
        rw [stack_init] at hf
        cases hf
    | marked hb ho => cases hb
    | sweeper hw ho => cases hw
  unmarked hN := absurd rfl hN

theorem sweepLasts_step {s s' : St} {lab : Label} (hp : PinInv s) (hs : StepCase s lab s')
    (he : s'.epoch = s.epoch) (h : s'.sweepLasts) : s.sweepLasts := by
  by_cases hN : s.epoch.phase = .N
  · exact .inl hN
  · rcases h with h | h
    · rw [he] at h
      exact absurd h hN
    · exact .inr (normalPinned_step hp hs hN h)

/-- What is still to be swept takes no colour but the white of its N. -/
theorem OverlapInv.color_step {s s' : St} {lab : Label} (h : OverlapInv s)
    (hs : StepCase s lab s') (hl : s.sweepLasts) {o : Oid} (hu : s.Unswept o) :
    s'.color o = s.color o ∨ s'.color o = s.epoch.color := by
  rcases Cdpt.color_step hs o with hsame | ⟨t, cs, size, k, -, rfl, -⟩ |
    ⟨t, ch, hd, rest, -, hstk, -, hcol⟩
  · exact .inl hsame
  · exact absurd (h.wf.alloc.takenLt hu.taken) (Nat.lt_irrefl _)
  · have hf : .mark (.headerCas o hd) ∈ (s.locals t).stack := by
      rw [hstk]
      exact List.mem_cons_self ..
    by_cases hN : s.epoch.phase = .N
    · rw [normal_black h.wf.ground hN hf rfl] at hcol
      exact .inr hcol
    · exact absurd rfl (h.unmarked hN (hl.resolve_left hN) hu hf)

theorem OverlapInv.kept_step {s s' : St} {lab : Label} (h : OverlapInv s) (h' : WellFormed s')
    (hs : StepCase s lab s') (hl : s'.sweepLasts) {o : Oid} (hu : s'.Unswept o)
    (hcol : s'.color o = s'.epoch.color.flip) : s'.confirmed o = s'.epoch.color.flip := by
  have hp := h.wf.ground.pin
  -- The colour of the epoch stays, and so do the confirmed ones.
  have hold : s'.epoch.color = s.epoch.color → s.sweepLasts → s.stage ≠ .conf3 .fin →
      s'.confirmed o = s'.epoch.color.flip := by
    intro hc hl hst
    have hu₀ := unswept_step h.wf h.stock h.white hs hc hu
    have hcol₀ : s.color o = s.epoch.color.flip := by
      rcases h.color_step hs hl hu₀ with heq | heq
      · rw [← heq, hcol, hc]
      · rw [heq, hc] at hcol
        exact absurd hcol.symm (Color.flip_ne _)
    rcases confirm_step hs with ⟨hsame, -⟩ | ⟨hconf, -⟩
    · rw [hsame, hc]
      exact h.kept hl hu₀ hcol₀
    · exact absurd hconf hst
  rcases epoch_cases hs with he | ⟨-, hobjs, hnext, hloc, hw, ⟨hst, he⟩ | ⟨hst, he⟩ | ⟨hst, he⟩⟩
  · have hl₀ := sweepLasts_step hp hs he hl
    refine hold (by rw [he]) hl₀ fun hst => ?_
    have hph : s.epoch.phase = .CT := by simpa [hst, Stage.inPhase] using hp.phase
    rcases hl₀ with hN | hnp
    · rw [hN] at hph
      cases hph
    · exact not_normalPinned_of_CT hp hph hnp
  · refine hold (by rw [he]; rfl) (.inl ?_) (by rw [hst]; simp)
    simpa [hst, Stage.inPhase] using hp.phase
  · rcases hl with hN | hnp
    · rw [he] at hN
      cases hN
    · exact absurd hnp (not_normalPinned_of_CT h'.ground.pin (by rw [he]; rfl))
  · have hlt : o < s.nextObj := hnext ▸ h'.alloc.takenLt hu.taken
    have hc : s'.epoch.color.flip = s.epoch.color := by
      rw [he]
      exact Color.flip_flip _
    have hcol₀ : s.color o = s.epoch.color := by
      rw [← hc, ← hcol, St.color, St.color, hobjs]
    rcases confirm_step hs with ⟨hsame, -⟩ | ⟨hconf, -⟩
    · rw [hsame, hc]
      exact h.done hst o hlt hcol₀
    · rw [hst] at hconf
      cases hconf

theorem OverlapInv.unmarked_step {s s' : St} {lab : Label} (h : OverlapInv s)
    (h' : WellFormed s') (hP : barrierClear s lab) (hs : StepCase s lab s')
    (hN : s'.epoch.phase ≠ .N) (hnp : s'.normalPinned) {o : Oid} (hu : s'.Unswept o) {t : Lid}
    {f : Frame} (hf : f ∈ (s'.locals t).stack) : ¬ f.marks o := by
  intro hm
  have hp := h.wf.ground.pin
  rcases epoch_cases hs with he | ⟨-, hobjs, hnext, hloc, hw, ⟨hst, he⟩ | ⟨hst, he⟩ | ⟨hst, he⟩⟩
  · rw [he] at hN
    have hnp₀ := normalPinned_step hp hs hN hnp
    have hu₀ := unswept_step h.wf h.stock h.white hs (by rw [he]) hu
    rcases newMarks_step h.wf.ground hs hN hnp₀ hf hm with ⟨g, hg, hgm⟩ |
      ⟨ch, g, rest, hl, hstk, hbar⟩
    · exact h.unmarked hN hnp₀ hu₀ hg hgm
    · exact hP t ch g rest o hl hstk hbar hnp₀ hu₀
  · -- Nobody marks when RT is stored: every thread is in N.
    rw [hloc] at hf
    obtain ⟨hd, hin⟩ := h.wf.ground.sect.mem_phase hf (marks_phase hm)
    have hph : s.epoch.phase = .N := by simpa [hst, Stage.inPhase] using hp.phase
    rw [hp.epoch_of_waited hw hd] at hin
    simp only [Epoch.pinned, hph, marks_phase hm] at hin
    cases hin
  · exact not_normalPinned_of_CT h'.ground.pin (by rw [he]; rfl) hnp
  · rw [he] at hN
    exact hN rfl

theorem OverlapInv.done_step {s s' : St} {lab : Label} (h : OverlapInv s) (h' : WellFormed s')
    (hs : StepCase s lab s') (hst : s'.stage = .nextNormal) {o : Oid} (ho : o < s'.nextObj)
    (hcol : s'.color o = s'.epoch.color) : s'.confirmed o = s'.epoch.color := by
  have hp := h.wf.ground.pin
  rcases confirm_step hs with ⟨hsame, hst₀⟩ | ⟨-, hconf, hsame, he⟩
  · have hph' : s'.epoch.phase = .CT := by simpa [hst, Stage.inPhase] using h'.ground.pin.phase
    have hph : s.epoch.phase = .CT := by simpa [hst₀ hst, Stage.inPhase] using hp.phase
    have hN : s.epoch.phase ≠ .N := by simp [hph]
    have he : s'.epoch = s.epoch := by
      rcases epoch_cases hs with he | ⟨-, -, -, -, -, ⟨hidle, -⟩ | ⟨hcomp, -⟩ | ⟨-, he⟩⟩
      · exact he
      · rw [hst₀ hst] at hidle
        cases hidle
      · rw [hst₀ hst] at hcomp
        cases hcomp
      · rw [he] at hph'
        cases hph'
    rw [he] at hcol ⊢
    rw [hsame]
    have hblack : ∀ {t : Lid}, (s.locals t).pinDone → s.black t ≠ s.epoch.color := by
      intro t hd
      rw [black_of_pinDone hp hN hd]
      exact Color.flip_ne _
    -- An object made in CT is black.
    have hnew : ∀ {t cs size k}, lab = .op t (.alloc cs size k) → o ≠ s.nextObj := by
      rintro t cs size k rfl rfl
      obtain ⟨hd, -, hc⟩ := alloc_new hs
      refine hblack hd (hcol ▸ ?_)
      rw [hc, St.allocColor, hp.epoch_of_waited (by rw [St.waited, hst₀ hst]; rfl) hd]
      simp [Epoch.pinned, hph]
    have hlt : o < s.nextObj := by
      rcases nextObj_cases hs with ⟨hn, -⟩ | ⟨t, cs, size, k, hlab, hn⟩
      · exact hn ▸ ho
      · rw [hn] at ho
        exact Nat.lt_of_le_of_ne (Nat.le_of_lt_succ ho) (hnew hlab)
    rcases Cdpt.color_step hs o with hc | ⟨t, cs, size, k, hlab, heq, -⟩ |
      ⟨t, ch, hd, rest, -, hstk, -, hc⟩
    · exact h.done (hst₀ hst) o hlt (hc ▸ hcol)
    · exact absurd heq (hnew hlab)
    · obtain ⟨hd, -⟩ := h.wf.ground.sect.head_phase hstk rfl rfl
      exact absurd (hc.symm.trans hcol) (hblack hd)
  · rw [hconf, ← hsame]
    exact hcol

theorem OverlapInv.step {s s' : St} {lab : Label} (h : OverlapInv s) (hP : barrierClear s lab)
    (hs : Cdpt.step s lab = some s') : OverlapInv s' where
  wf := h.wf.step hs
  stock := h.stock.step h.wf.ground.pin.str (stepCase hs)
  white := sweepersWhite_step h.white h.stock (stepCase hs)
  done hst _ ho hcol := h.done_step (h.wf.step hs) (stepCase hs) hst ho hcol
  kept hl _ hu hcol := h.kept_step (h.wf.step hs) (stepCase hs) hl hu hcol
  unmarked hN hnp _ hu _ _ hf := h.unmarked_step (h.wf.step hs) hP (stepCase hs) hN hnp hu hf

/-- Where the barrier of a fresh pin meets nothing that is still to be swept, a helper
in N reclaims only what was dead when the cycle before was confirmed, and no step gives
the colour it takes for dead to an object of the batch it holds. -/
theorem sweep_meets_no_mark {n : Nat} {s : St}
    (h : Lts.Reaches step barrierClear (St.init n) s) :
    (∀ {t o rest bytes q qs k stk},
      (s.locals t).stack = .help (.sweepObjs (o :: rest) bytes q qs k) :: stk →
      s.color o = s.black t → s.confirmed o = s.black t) ∧
    ∀ {lab s' t f o}, step s lab = some s' → f ∈ (s.locals t).stack → f.unswept o →
      s.color o ≠ s.black t → s'.color o ≠ s.black t := by
  have hinv := h.invariant (OverlapInv.init n) fun hi hP hs => hi.step hP hs
  have hblack : ∀ {t f o}, f ∈ (s.locals t).stack → f.unswept o →
      s.black t = s.epoch.color.flip ∧ s.sweepLasts := by
    intro t f o hf ho
    obtain ⟨hd, hin⟩ := hinv.wf.ground.sect.mem_phase hf (unswept_phase ho)
    have hN : (s.locals t).epoch.phase = .N := by
      unfold Frame.unswept at ho
      split at ho
      · simpa [Frame.inPhase] using hin
      · cases ho
    obtain ⟨hwhite, -⟩ := pinned_white hinv.wf.ground.pin hd (by rw [hN]; decide)
    exact ⟨by rw [St.black, hwhite], .inr ⟨t, hd, hN⟩⟩
  refine ⟨fun {t o rest bytes q qs k stk} hstk hcol => ?_,
    fun {lab s' t f o} hs hf ho hne => ?_⟩
  · have hf : .help (.sweepObjs (o :: rest) bytes q qs k) ∈ (s.locals t).stack := by
      rw [hstk]
      exact List.mem_cons_self ..
    have ho : Frame.unswept o (.help (.sweepObjs (o :: rest) bytes q qs k)) :=
      List.mem_cons_self ..
    obtain ⟨hb, hl⟩ := hblack hf ho
    rw [hb] at hcol ⊢
    exact hinv.kept hl (.frame hf ho) hcol
  · obtain ⟨hb, hl⟩ := hblack hf ho
    rcases hinv.color_step (stepCase hs) hl (.frame hf ho) with heq | heq
    · rwa [heq]
    · rw [heq, hb]
      exact Color.ne_flip _

/-- The thread that moves protects nothing. -/
def slotsEmpty (s : St) : Label → Prop
  | .run t _ => (s.locals t).hazards.all Option.isNone = true
  | _ => True

instance (s : St) : ∀ lab, Decidable (slotsEmpty s lab)
  | .run t _ => inferInstanceAs (Decidable ((s.locals t).hazards.all Option.isNone = true))
  | .op _ _ | .coll _ | .sweep _ _ | .startWorker _ | .register _ | .exit _ => instDecidableTrue

theorem barrierClear_of_slotsEmpty {s : St} {lab : Label} (h : slotsEmpty s lab) :
    barrierClear s lab := by
  rintro t ch f rest o rfl - ⟨i, -, hslot⟩ -
  have := List.all_eq_true.1 h (some o) (List.mem_of_getElem? hslot)
  cases this

/-- Thread 1 is still sweeping in N when RT is stored, and thread 2 pins in RT. -/
def freshPin : List Label :=
  List.flatten
    [dropOne, traceAll, helperFirst, [.coll 0, .register 2, .op 2 .pin], .replicate 14 (.run 2 0)]

theorem sweep_meets_no_mark_freshPin : ∃ s stk, Lts.Reaches step barrierClear (St.init 1) s ∧
    (s.locals 2).epoch = s.epoch.pinned ∧ s.epoch.phase = .RT ∧
    (s.locals 1).stack = .help (.sweepObjs [0] 0 0 [1, 2, 3, 4, 5, 6, 7] 0) :: stk ∧
    s.color 0 = s.black 1 ∧ s.confirmed 0 = s.black 1 := by
  have hrun : (Lts.runs step slotsEmpty (St.init 1) freshPin).any (fun s =>
      decide ((s.locals 2).epoch = s.epoch.pinned ∧ s.epoch.phase = .RT ∧
        (s.locals 1).stack = [.help (.sweepObjs [0] 0 0 [1, 2, 3, 4, 5, 6, 7] 0)] ∧
        s.color 0 = s.black 1)) = true := by
    decide +kernel
  obtain ⟨s, hr, h⟩ := Lts.exists_of_any hrun
  obtain ⟨he, hRT, hstk, hcol⟩ := of_decide_eq_true h
  have hr' := hr.mono fun u lab hu => barrierClear_of_slotsEmpty hu
  exact ⟨s, [], hr', he, hRT, hstk, hcol, (sweep_meets_no_mark hr').1 hstk hcol⟩

/-- Object 0, which thread 1 protects in slot 7, outlives a cycle, and thread 2 is
still sweeping its batch in N when thread 1 pins in RT. -/
def lateBarrier : List Label :=
  List.flatten
    [[.register 1, .op 1 .pin], .replicate 4 (.run 1 0), [.op 1 (.alloc [] 8 none)],
      .replicate 3 (.run 1 0), [.op 1 (.protect (.guard 0)), .run 1 0, .run 1 0],
      [.op 1 .dropGuard, .run 1 0, .run 1 0], .replicate 9 (.coll 0), .replicate 14 (.run 0 0),
      .replicate 33 (.coll 0), [.startWorker 2], .replicate 32 (.run 2 0),
      [.coll 0, .run 0 0, .run 0 0, .coll 0], .replicate 4 (.run 0 0), .replicate 8 (.coll 0),
      [.run 0 0, .run 0 0], .replicate 32 (.coll 0), [.register 2, .op 2 .pin],
      .replicate 4 (.run 2 0), [.op 2 .helpCollect], .replicate 3 (.run 2 0),
      .replicate 9 (.sweep 0 0), .replicate 12 (.coll 0), [.op 1 .pin], .replicate 17 (.run 1 0)]

/-- The helper reclaims the protected object, which was alive when the cycle before
was confirmed. -/
theorem barrier_marks_unswept : ∃ s s' stk, Reachable 1 s ∧
    (s.locals 2).stack = .help (.sweepObjs [0] 0 0 [1, 2, 3, 4, 5, 6, 7] 0) :: stk ∧
    (s.locals 1).hazards[7]? = some (some 0) ∧ s.confirmed 0 ≠ s.black 2 ∧
    step s (.run 2 0) = some s' ∧ (s'.objs 0).reclaimed = true := by
  have hrun : (Lts.runs step (fun _ _ => True) (St.init 1) lateBarrier).any (fun s =>
      decide ((s.locals 2).stack = [.help (.sweepObjs [0] 0 0 [1, 2, 3, 4, 5, 6, 7] 0)] ∧
        (s.locals 1).hazards[7]? = some (some 0) ∧ s.confirmed 0 ≠ s.black 2) &&
      (step s (.run 2 0)).any fun s' => (s'.objs 0).reclaimed) = true := by
    decide +kernel
  obtain ⟨s, hr, h⟩ := Lts.exists_of_any hrun
  obtain ⟨hs, h⟩ := Bool.and_eq_true_iff.1 h
  obtain ⟨hstk, hslot, hconf⟩ := of_decide_eq_true hs
  obtain ⟨s', hs', hrec⟩ := (Option.any_eq_true _ _).1 h
  exact ⟨s, s', [], hr, hstk, hslot, hconf, hs', hrec⟩

end Cdpt
