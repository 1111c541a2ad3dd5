import Cdpt.Proofs.Rooted

/-!
# The double collect is a snapshot

A thread records its timestamp before it touches its queue of mark tasks, and the
record of a timestamp stays as long as the collector stays with it. So the second
pass over the records looks back: a node it finds without the current timestamp has
not touched its queue up to then under a pin of that timestamp. Older pins are gone
once the wait has returned. What the pass over the queues found empty is therefore
still empty when the second pass begins, and nobody is executing a task, because a
task that is being executed was popped by a thread that had recorded it.

The invariant of the passes (`ConfInv`) has one clause about the queues: a queue
that the pass over the queues has gone by is empty, or its owner has a record
(`St.queueOk`). It survives every step, since the queue can only be filled by its
owner with a record or by the collector, who is busy checking (`queue_change`). The
second pass over the records then excludes these, again node by node, and what
remains is that all queues are empty.

The instant the result is about is the beginning of that pass, not its end: a thread
whose node the pass has gone by may record and push at once, with a pin of the same
timestamp.

Before the wait returns there may be threads that are pinned at the timestamp
before, and these do push and pop, under the record of their own timestamp. So it is
since the return of the wait, and not since the store of the epoch, that no queue
was touched; the last theorem is a run in which one is touched in between.
-/

namespace Cdpt

/-! ## Records -/

/-- The timestamp is recorded and the queue is about to be touched. -/
def Frame.armed : Frame → Bool
  | .ptr (.push _ _) | .help (.drainPop _) => true
  | _ => false

/-- A mark is being executed. -/
def Frame.marking : Frame → Bool
  | .mark _ => true
  | .ptr (.rcPhase _ r) | .ptr (.shade _ r) | .ptr (.record _ r) | .ptr (.push _ r) => r.isLink
  | _ => false

theorem marking_phase {f : Frame} (h : f.marking = true) : f.inPhase .N = false := by
  cases f with
  | mark f => rfl
  | ptr f =>
      cases f with
      | rcPhase o r | shade o r | record o r | push o r =>
          have hr : r.isLink = true := h
          show (!r.isLink || decide (Phase.N ≠ .N)) = false
          rw [hr]
          rfl
      | _ => cases h
  | pin f => cases h
  | help f => cases h

theorem mtModifiedTs_apply (e : Eff) (s : St) (t i : Lid) :
    ((e.apply s t).locals i).mtModifiedTs = (s.locals i).mtModifiedTs ∨
    ∃ ts, e = .recordMt ts ∧ i = t ∧ ((e.apply s t).locals i).mtModifiedTs = ts := by
  cases e with
  | recordMt ts =>
      by_cases hi : i = t
      · subst hi
        exact .inr ⟨ts, rfl, rfl, by simp [Eff.apply]⟩
      · exact .inl (by simp [Eff.apply, hi])
  | steal j n =>
      refine .inl ?_
      simp only [Eff.apply, setLocal_locals]
      split <;> split <;> simp_all
  | takeBatch j c => exact .inl (by by_cases hi : i = j <;> simp [Eff.apply, hi])
  | setLink l p => cases l <;> exact .inl rfl
  | nop | storeEpoch | setColor | setCount | newCell | pushFresh | popFresh | pushMarked
  | popMarked | addAllocated | addReclaimed | reclaim | spawn | spawnSweep | confirm =>
      exact .inl rfl
  | _ => exact .inl (by by_cases hi : i = t <;> simp [Eff.apply, hi])

/-- A thread records the timestamp it is pinned at. -/
theorem exec_recordMt {s : St} {t : Lid} {ch : Nat} {f : Frame} {ts : Nat}
    (h : (exec s t ch f).1 = .recordMt ts) :
    ts = (s.locals t).epoch.timestamp ∧ f.pinning = false ∧ f.guarded = true := by
  cases f with
  | pin f => cases f <;> simp only [exec, execPin] at h <;> (repeat' split at h) <;> cases h
  | ptr f =>
      cases f with
      | record o r =>
          cases h
          exact ⟨rfl, rfl, rfl⟩
      | _ =>
          simp only [exec, execPtr] at h
          repeat' split at h
          all_goals cases h
  | mark f => cases f <;> simp only [exec, execMark] at h <;> (repeat' split at h) <;> cases h
  | help f =>
      cases f with
      | drainRecord n =>
          cases h
          exact ⟨rfl, rfl, rfl⟩
      | _ =>
          simp only [exec, execHelp] at h
          repeat' split at h
          all_goals cases h

theorem armed_resume (r : ShadeRet) : r.resume.all (fun g => !g.armed) = true := by
  cases r <;> rfl

theorem armed_unrootedOnce (s : St) (t : Lid) (l : Loc) (old new : ManPtr) (k : CasKind) :
    Frame.armed (.ptr (unrootedOnce s t l old new k)) = false := by
  unfold unrootedOnce
  repeat' split
  all_goals rfl

theorem armed_ret (p : ManPtr) : Frame.armed (.ptr (.ret p)) = false := rfl

theorem armed_dropTemp (p : ManPtr) : (dropTemp p).all (fun g => !g.armed) = true := by
  unfold dropTemp
  split <;> rfl

/-- The record comes right before the frame that touches the queue. -/
theorem exec_armed (s : St) (t : Lid) (ch : Nat) (f : Frame) {g : Frame}
    (hg : g ∈ (exec s t ch f).2) (ha : g.armed = true) :
    (exec s t ch f).1 = .recordMt (s.locals t).epoch.timestamp ∧ (exec s t ch f).2 = [g] := by
  have hno : ∀ {fs : List Frame}, fs.all (fun g => !g.armed) = true → g ∉ fs := by
    intro fs hall hmem
    have := List.all_eq_true.1 hall g hmem
    rw [ha] at this
    cases this
  cases f with
  | pin f =>
      refine absurd hg (hno ?_)
      cases f <;> simp only [exec, execPin] <;> (repeat' split) <;> rfl
  | ptr f =>
      cases f with
      | record o r =>
          have hg' : g = .ptr (.push o r) := List.mem_singleton.1 hg
          rw [hg']
          exact ⟨rfl, rfl⟩
      | _ =>
          refine absurd hg (hno ?_)
          simp only [exec, execPtr, rootedOnce, rootedFail, unrootedFail]
          repeat' split
          all_goals first
            | rfl
            | exact armed_resume _
            | simp only [List.all_append, List.all_cons, List.all_nil, armed_unrootedOnce,
                armed_dropTemp, armed_ret, Bool.not_false, Bool.and_self]
  | mark f =>
      refine absurd hg (hno ?_)
      cases f <;> simp only [exec, execMark, shadeLink] <;> (repeat' split) <;> rfl
  | help f =>
      cases f with
      | drainRecord n =>
          have hg' : g = .help (.drainPop n) := List.mem_singleton.1 hg
          rw [hg']
          exact ⟨rfl, rfl⟩
      | _ =>
          refine absurd hg (hno ?_)
          simp only [exec, execHelp, scanObj, scanHazard, Scanner.next]
          repeat' split
          all_goals rfl

theorem marking_resume {r : ShadeRet} {g : Frame} (hg : g ∈ r.resume) (hm : g.marking = true) :
    r.isLink = true := by
  cases r with
  | link o i p => rfl
  | dropped => cases hg
  | _ =>
      rw [List.mem_singleton.1 hg] at hm
      cases hm

theorem marking_unrootedOnce (s : St) (t : Lid) (l : Loc) (old new : ManPtr) (k : CasKind) :
    Frame.marking (.ptr (unrootedOnce s t l old new k)) = false := by
  unfold unrootedOnce
  repeat' split
  all_goals rfl

theorem marking_ret (p : ManPtr) : Frame.marking (.ptr (.ret p)) = false := rfl

theorem marking_dropTemp (p : ManPtr) : (dropTemp p).all (fun g => !g.marking) = true := by
  unfold dropTemp
  split <;> rfl

/-- A mark goes on, or is started by a helper that has popped a task, or belongs
to root tracing. -/
theorem exec_marking {s : St} {t : Lid} {ch : Nat} {f g : Frame} (hg : g ∈ (exec s t ch f).2)
    (hm : g.marking = true) :
    f.marking = true ∨ f.armed = true ∨ f.inPhase .CT = false := by
  have hno : ∀ {fs : List Frame}, fs.all (fun g => !g.marking) = true → g ∉ fs := by
    intro fs hall hmem
    have := List.all_eq_true.1 hall g hmem
    rw [hm] at this
    cases this
  cases f with
  | mark f => exact .inl rfl
  | pin f =>
      cases f with
      | barrier i => exact .inr (.inr rfl)
      | _ =>
          refine absurd hg (hno ?_)
          simp only [exec, execPin]
          repeat' split
          all_goals rfl
  | ptr f =>
      cases f with
      | push o r => exact .inl (marking_resume hg hm)
      | rcPhase o r | shade o r =>
          simp only [exec, execPtr] at hg
          split at hg
          · exact .inl (marking_resume hg hm)
          · rw [List.mem_singleton.1 hg] at hm
            exact .inl hm
      | record o r =>
          simp only [exec, execPtr] at hg
          rw [List.mem_singleton.1 hg] at hm
          exact .inl hm
      | _ =>
          refine absurd hg (hno ?_)
          simp only [exec, execPtr, rootedOnce, rootedFail, unrootedFail]
          repeat' split
          all_goals first
            | rfl
            | simp only [List.all_append, List.all_cons, List.all_nil, marking_unrootedOnce,
                marking_dropTemp, marking_ret, Bool.not_false, Bool.and_self]
  | help f =>
      cases f with
      | drainPop n => exact .inr (.inl rfl)
      | scanObjs sc done todo => exact .inr (.inr rfl)
      | forceHps h acc sc done o todo => exact .inr (.inr rfl)
      | _ =>
          refine absurd hg (hno ?_)
          simp only [exec, execHelp]
          repeat' split
          all_goals rfl

theorem collStep_record {s : St} {ch : Nat} {e : Eff} {st : Stage} {fs : List Frame}
    (h : collStep s ch = some (e, st, fs)) (ts : Nat) : e ≠ .recordMt ts := by
  unfold collStep at h
  simp only at h
  repeat' split at h
  all_goals first
    | (cases h; done)
    | (cases h; simp)

theorem sweepStep_record (s : St) (w : Sweeper) (ch ts : Nat) :
    (sweepStep s w ch).1 ≠ .recordMt ts := by
  unfold sweepStep
  repeat' split
  all_goals simp

theorem startOp_record {s s₁ : St} {t : Lid} {op : Op} {fs : List Frame}
    (h : startOp s t op = some (s₁, fs)) (i : Lid) :
    (s₁.locals i).mtModifiedTs = (s.locals i).mtModifiedTs := by
  cases op with
  | protectGuard hid =>
      simp only [startOp] at h
      split at h
      · obtain ⟨o, -, h⟩ := Option.map_eq_some_iff.1 h
        cases h
        by_cases hi : i = t <;> simp [Eff.apply, hi]
      · cases h
  | _ =>
      simp only [startOp] at h
      repeat' split at h
      all_goals first
        | (cases h; done)
        | (cases h; rfl)
        | (obtain ⟨o, -, h⟩ := Option.map_eq_some_iff.1 h; cases h; rfl)

/-- A thread with something on its stack changes its record and its epoch only
by its own steps. -/
theorem others_step {s s' : St} {lab : Label} (hp : PinStr s) (hs : StepCase s lab s') {i : Lid}
    (hl : ∀ ch, lab ≠ .run i ch) (hst : (s.locals i).stack ≠ []) :
    (s'.locals i).epoch = (s.locals i).epoch ∧
      (s'.locals i).mtModifiedTs = (s.locals i).mtModifiedTs := by
  have hview : ∀ {l : Local}, l.pinView = (s.locals i).pinView → l.epoch = (s.locals i).epoch :=
    fun h => congrArg (fun v => v.2.2.1) h
  have hmt : ∀ {e : Eff} {t : Lid}, (∀ ts, e ≠ .recordMt ts) ∨ i ≠ t →
      ((e.apply s t).locals i).mtModifiedTs = (s.locals i).mtModifiedTs := by
    intro e t h
    rcases mtModifiedTs_apply e s t i with he | ⟨ts, he, hit, -⟩
    · exact he
    · exact (h.elim (fun h => h ts he) fun h => h hit).elim
  cases hs with
  | @op t o s₁ fs ht hu hst' hc hop =>
      have hi : i ≠ t := fun he => hst (he ▸ hst')
      rw [setStack_stack_ne _ _ hi]
      exact ⟨hview ((startOp_same hop).1.view i), startOp_record hop i⟩
  | @run t ch f rest ht hst' =>
      have hi : i ≠ t := fun he => hl ch (by rw [he])
      rw [setStack_stack_ne _ _ hi]
      exact ⟨hview (exec_pinView_ne s ch f hi), hmt (.inr hi)⟩
  | @coll ch e st fs hst' hcoll =>
      have hi : i ≠ s.collector := fun he => hst (he ▸ hst')
      rw [setStack_stack_ne _ _ hi]
      exact ⟨hview (collStep_pinView hcoll _ i), hmt (.inr hi)⟩
  | @sweep k ch w hw =>
      exact ⟨hview (apply_pinView (sweepStep_pinFree s w ch) s _ i),
        hmt (.inl (sweepStep_record s w ch))⟩
  | @startWorker t lo hi hz js hj hr hc =>
      have hi : i ≠ t := fun he => hst (he ▸ hp.free_stack hr)
      rw [setStack_stack_ne _ _ hi, withJobs_locals, register_ne s hi]
      exact ⟨rfl, rfl⟩
  | @register t hr hc =>
      have hi : i ≠ t := fun he => hst (he ▸ hp.free_stack hr)
      rw [register_ne s hi]
      exact ⟨rfl, rfl⟩
  | @exit t ht hu hst' hg hh hc =>
      have hi : i ≠ t := fun he => hst (he ▸ hst')
      simp [hi]

/-- The record of node `i` after a step of its own. -/
theorem run_record (s : St) (i : Lid) (ch : Nat) (f : Frame) (fs : List Frame) :
    ((((exec s i ch f).1.apply s i).setStack i fs).locals i).mtModifiedTs =
      (s.locals i).mtModifiedTs ∨
    ((((exec s i ch f).1.apply s i).setStack i fs).locals i).mtModifiedTs =
      (s.locals i).epoch.timestamp := by
  rw [setStack_locals, if_pos rfl]
  rcases mtModifiedTs_apply (exec s i ch f).1 s i i with he | ⟨ts, he, -, hts⟩
  · exact .inl he
  · exact .inr (hts.trans (exec_recordMt he).1)

/-- A thread about to touch its queue has recorded its timestamp, and so has a
mutator that executes a task in CT. -/
structure Local.Recorded (l : Local) (mutator : Prop) : Prop where
  armed : ∀ {f rest}, l.stack = f :: rest → (∀ g ∈ rest, g.armed = false) ∧
    (f.armed = true → l.mtModifiedTs = l.epoch.timestamp)
  marking : mutator → ∀ {f}, f ∈ l.stack → f.marking = true → l.epoch.phase = .CT →
    l.mtModifiedTs = l.epoch.timestamp

def RecInv (s : St) : Prop := ∀ t, (s.locals t).Recorded (t ≠ s.collector)

theorem Local.Recorded.plain {l : Local} {mutator : Prop}
    (h : ∀ g ∈ l.stack, g.armed = false ∧ (mutator → g.marking = false)) : l.Recorded mutator := by
  refine ⟨fun {f rest} hst => ⟨fun g hg => (h g (by simp [hst, hg])).1, fun ha => ?_⟩,
    fun hmut f hf hm => ?_⟩
  · rw [(h f (by simp [hst])).1] at ha
    cases ha
  · rw [(h f hf).2 hmut] at hm
    cases hm

theorem RecInv.init (n : Nat) : RecInv (St.init n) := by
  refine fun t => .plain fun g hg => ?_
  rw [stack_init] at hg
  cases hg

theorem startOp_noTask {s s₁ : St} {t : Lid} {op : Op} {fs : List Frame}
    (h : startOp s t op = some (s₁, fs)) :
    fs.all (fun g => !g.armed && !g.marking) = true := by
  cases op <;> simp only [startOp] at h <;> (repeat' split at h) <;>
    first
    | (cases h; done)
    | (cases h; rfl)
    | (obtain ⟨o, -, h⟩ := Option.map_eq_some_iff.1 h
       cases h
       rfl)

theorem RecInv.run {s s' : St} (h : RecInv s) (hc : SectInv s) {t : Lid} {ch : Nat} {f : Frame}
    {rest : List Frame} (hst : (s.locals t).stack = f :: rest)
    (hs' : s' = ((exec s t ch f).1.apply s t).setStack t ((exec s t ch f).2 ++ rest))
    (hc' : SectInv s') : (s'.locals t).Recorded (t ≠ s.collector) := by
  have hstack : (s'.locals t).stack = (exec s t ch f).2 ++ rest := by
    rw [hs', setStack_stack_self]
  have hview : (s'.locals t).pinView = (((exec s t ch f).1.apply s t).locals t).pinView := by
    rw [hs', setStack_locals, if_pos rfl]
    rfl
  have hrec := run_record s t ch f ((exec s t ch f).2 ++ rest)
  rw [← hs'] at hrec
  obtain ⟨hrest, hf⟩ := (h t).armed hst
  refine ⟨fun {f' rest'} hst' => ?_, fun htc g hg hm hCT => ?_⟩
  · rw [hstack] at hst'
    cases hfs : (exec s t ch f).2 with
    | nil =>
        rw [hfs, List.nil_append] at hst'
        refine ⟨fun g hg => hrest g (by simp [hst', hg]), fun ha => ?_⟩
        rw [hrest f' (by simp [hst'])] at ha
        cases ha
    | cons g gs =>
        rw [hfs, List.cons_append, List.cons.injEq] at hst'
        obtain ⟨rfl, rfl⟩ := hst'
        have hgs : ∀ x ∈ gs, x.armed = false := by
          intro x hx
          by_contra ha
          obtain ⟨-, hone⟩ := exec_armed s t ch f (g := x)
            (by simp [hfs, hx]) (Bool.eq_true_of_not_eq_false ha)
          rw [hfs] at hone
          cases hone
          cases hx
        refine ⟨fun x hx => (List.mem_append.1 hx).elim (hgs x) (hrest x), fun ha => ?_⟩
        obtain ⟨he, -⟩ := exec_armed s t ch f (g := g)
          (by simp [hfs]) ha
        rw [hs', setStack_locals, if_pos rfl, he]
        simp [Eff.apply]
  · have hgN := marking_phase hm
    -- The thread is in a section already, and stays in it.
    have hfrom : f.pinning = false ∧
        ((s.locals t).epoch.phase = .CT →
          (s.locals t).mtModifiedTs = (s.locals t).epoch.timestamp) := by
      have hmem : f ∈ (s.locals t).stack := by simp [hst]
      rw [hstack, List.mem_append] at hg
      rcases hg with hg | hg
      · rcases exec_marking hg hm with hfm | hfa | hfp
        · exact ⟨((pinDone_head hst).1 (hc.mem_phase hmem (marking_phase hfm)).1).2,
            (h t).marking htc hmem hfm⟩
        · refine ⟨?_, fun _ => hf hfa⟩
          cases f with
          | pin f => cases hfa
          | _ => rfl
        · obtain ⟨hd, hph⟩ := hc.mem_phase hmem hfp
          refine ⟨((pinDone_head hst).1 hd).2, fun hCT' => ?_⟩
          rw [hCT', hfp] at hph
          cases hph
      · have hmem' : g ∈ (s.locals t).stack := by simp [hst, hg]
        exact ⟨((pinDone_head hst).1 (hc.mem_phase hmem' hgN).1).2,
          (h t).marking htc hmem' hm⟩
    have hep := run_epoch hview (hc'.node t) hg hgN hfrom.1
    rw [hep] at hCT ⊢
    rcases hrec with hr | hr
    · rw [hr]
      exact hfrom.2 hCT
    · exact hr

theorem RecInv.step {s s' : St} {lab : Label} (h : RecInv s) (hp : PinInv s) (hc : SectInv s)
    (hs : StepCase s lab s') : RecInv s' := by
  intro t
  have hc' := hc.step hp hs
  rw [(step_nLocals hs).2]
  have hstep := stack_step hp.str hs t
  generalize hfs : (s'.locals t).stack = fs at hstep
  cases hstep with
  | same hl =>
      by_cases hnil : (s.locals t).stack = []
      · refine .plain fun g hg => ?_
        rw [hfs, hnil] at hg
        cases hg
      · obtain ⟨he, hr⟩ := others_step hp.str hs hl hnil
        refine ⟨?_, ?_⟩
        · rw [he, hr, hfs]
          exact (h t).armed
        · rw [he, hr, hfs]
          exact (h t).marking
  | op hl ht hst hop =>
      refine .plain fun g hg => ?_
      rw [hfs] at hg
      have := List.all_eq_true.1 (startOp_noTask hop) g hg
      rw [Bool.and_eq_true, Bool.not_eq_true', Bool.not_eq_true'] at this
      exact ⟨this.1, fun _ => this.2⟩
  | run hl ht hst =>
      subst hl
      cases hs with
      | run _ hst₀ =>
          rw [hst] at hst₀
          cases hst₀
          exact h.run hc hst rfl hc'
  | coll hl ht hst hcoll =>
      refine .plain fun g hg => ⟨?_, fun htc => (htc ht).elim⟩
      rw [hfs] at hg
      have hstart := collStep_starts hcoll hg
      cases g with
      | ptr f => cases hstart
      | help f => cases f <;> first | rfl | cases hstart
      | _ => rfl
  | worker hl hj hst =>
      refine .plain fun g hg => ?_
      rw [hfs] at hg
      simp only [List.mem_cons, List.not_mem_nil, or_false] at hg
      rcases hg with rfl | rfl | rfl | rfl | rfl <;> exact ⟨rfl, fun _ => rfl⟩

/-! ## What a record excludes -/

/-- Node `t` has recorded the current timestamp. -/
def St.dirty (s : St) (t : Lid) : Prop := (s.locals t).mtModifiedTs = s.epoch.timestamp

theorem record_step {s s' : St} {lab : Label} (hs : StepCase s lab s') {i : Lid}
    (hi : i < s.nLocals) :
    (s'.locals i).mtModifiedTs = (s.locals i).mtModifiedTs ∨
    ∃ ch f rest ts, lab = .run i ch ∧ (s.locals i).stack = f :: rest ∧
      (exec s i ch f).1 = .recordMt ts ∧ (s'.locals i).mtModifiedTs = ts := by
  have hstack : ∀ {s₁ : St} {t : Lid} {fs : List Frame},
      ((s₁.setStack t fs).locals i).mtModifiedTs = (s₁.locals i).mtModifiedTs := by
    intro s₁ t fs
    rw [setStack_locals]
    split
    · next h => rw [h]
    · rfl
  have hreg : ∀ t, ((s.register t).locals i).mtModifiedTs = (s.locals i).mtModifiedTs := by
    intro t
    by_cases hit : i = t
    · subst hit
      simp [St.register, hi]
    · rw [register_ne s hit]
  cases hs with
  | op ht hu hst hc hop => exact .inl (hstack.trans (startOp_record hop i))
  | @run t ch f rest ht hst =>
      rcases mtModifiedTs_apply (exec s t ch f).1 s t i with h | ⟨ts, he, rfl, hts⟩
      · exact .inl (hstack.trans h)
      · exact .inr ⟨ch, f, rest, ts, rfl, hst, he, hstack.trans hts⟩
  | @coll ch e st fs hst hcoll =>
      rcases mtModifiedTs_apply e s s.collector i with h | ⟨ts, he, -, -⟩
      · exact .inl (hstack.trans h)
      · exact absurd he (collStep_record hcoll ts)
  | @sweep k ch w hw =>
      rcases mtModifiedTs_apply (sweepStep s w ch).1 s s.collector i with h | ⟨ts, he, -, -⟩
      · exact .inl h
      · exact absurd he (sweepStep_record s w ch ts)
  | startWorker hj hr hc => exact .inl (hstack.trans (hreg _))
  | register hr hc => exact .inl (hreg _)
  | @exit t ht hu hst hg hh hc =>
      refine .inl ?_
      simp only [setLocal_locals]
      split
      · next h => rw [h]
      · rfl

/-- The record of the current timestamp stays while the epoch stands. -/
theorem dirty_step {s s' : St} {lab : Label} (hc : SectInv s) (hs : StepCase s lab s')
    (he : s'.epoch = s.epoch) {i : Lid} (hi : i < s.nLocals) (hf : s.Fresh i) (hd : s.dirty i) :
    s'.dirty i := by
  rw [St.dirty, he]
  rcases record_step hs hi with hr | ⟨ch, f, rest, ts, -, hst, hexec, hr⟩
  · rw [hr]
    exact hd
  · obtain ⟨rfl, hpin, hg⟩ := exec_recordMt hexec
    rw [hr]
    exact hf (hc.head_phase hst hpin hg).1

/-- What has recorded the current timestamp is found with it later on. -/
theorem dirty_of_reaches {s s' : St} (hg : Ground s) {i : Lid} (hi : i < s.nLocals)
    (hf : s.Fresh i) (hd : s.dirty i) (hr : Lts.Reaches step (fun _ _ => True) s s')
    (heq : s'.epoch.timestamp = s.epoch.timestamp) : s'.dirty i ∧ i < s'.nLocals := by
  have hinv : Ground s' ∧ s.epoch.timestamp ≤ s'.epoch.timestamp ∧
      (s'.epoch.timestamp = s.epoch.timestamp → s'.dirty i ∧ i < s'.nLocals ∧ s'.Fresh i) := by
    refine hr.invariant (I := fun s' => Ground s' ∧ s.epoch.timestamp ≤ s'.epoch.timestamp ∧
      (s'.epoch.timestamp = s.epoch.timestamp → s'.dirty i ∧ i < s'.nLocals ∧ s'.Fresh i))
      ⟨hg, Nat.le_refl _, fun _ => ⟨hd, hi, hf⟩⟩ ?_
    rintro a b lab ⟨ha, hle, hk⟩ - hs
    refine ⟨ha.step hs, ?_⟩
    cases epochStep (stepCase hs) with
    | same he hp hst =>
        rw [he]
        refine ⟨hle, fun hts => ?_⟩
        obtain ⟨hd, hi, hf⟩ := hk hts
        exact ⟨dirty_step ha.sect (stepCase hs) he hi hf hd,
          Nat.lt_of_lt_of_le hi (step_nLocals (stepCase hs)).1,
          Fresh_step ha.pin.str (stepCase hs) he hf⟩
    | store hn hu hw hp hst =>
        have := (hn ha.pin.phase).1
        exact ⟨by omega, fun _ => by omega⟩
  obtain ⟨-, -, hk⟩ := hinv
  exact ⟨(hk heq).1, (hk heq).2.1⟩

/-! ## Queues that were found empty -/

def Eff.onTasks : Eff → Bool
  | .pushTask _ | .popTask | .steal _ _ => true
  | _ => false

theorem exec_onTasks {s : St} {t : Lid} {ch : Nat} {f : Frame}
    (h : (exec s t ch f).1.onTasks = true) : f.armed = true := by
  cases he : (exec s t ch f).1 with
  | pushTask o =>
      obtain ⟨r, rfl⟩ := exec_pushTask he
      rfl
  | popTask =>
      obtain ⟨n, o, q, rfl, -⟩ := exec_popTask he
      rfl
  | steal i n => exact absurd he exec_steal
  | _ =>
      rw [he] at h
      cases h

/-- A queue changes when its owner, with a record, pushes or pops, or when the
collector drains. -/
theorem queue_change {s s' : St} {lab : Label} (ht : s.TasksLt) (hs : StepCase s lab s') {j : Lid}
    (hne : (s'.locals j).markTasks ≠ (s.locals j).markTasks) :
    (∃ ch f rest, lab = .run j ch ∧ (s.locals j).stack = f :: rest ∧ f.armed = true ∧
      j < s.nLocals) ∨
    ∃ ch e st fs, lab = .coll ch ∧ collStep s ch = some (e, st, fs) ∧ e.onTasks = true := by
  have happ : ∀ {e : Eff} {t : Lid}, ((e.apply s t).locals j).markTasks ≠ (s.locals j).markTasks →
      e.onTasks = true ∧ (j = t ∨ ∃ i n, e = .steal i n) := by
    intro e t hne
    rcases markTasks_apply e s t j with h | ⟨o, rfl, hj, -⟩ | ⟨rfl, hj, -⟩ | ⟨i, n, rfl, -⟩
    · exact absurd h hne
    · exact ⟨rfl, .inl hj⟩
    · exact ⟨rfl, .inl hj⟩
    · exact ⟨rfl, .inr ⟨i, n, rfl⟩⟩
  have hreg : ∀ t, ((s.register t).locals j).markTasks = (s.locals j).markTasks := by
    intro t
    by_cases hj : j = t
    · subst hj
      unfold St.register
      split
      · simp
      · next hn => simp [Local.default, ht j (Nat.not_lt.1 hn)]
    · rw [register_ne s hj]
  cases hs with
  | op ht hu hst hc hop =>
      rw [setStack_tasks] at hne
      exact absurd (startOp_tasks hop j) hne
  | @run t ch f rest ht hst =>
      rw [setStack_tasks] at hne
      obtain ⟨hon, rfl | ⟨i, n, he⟩⟩ := happ hne
      · exact .inl ⟨ch, f, rest, rfl, hst, exec_onTasks hon, ht⟩
      · exact absurd he exec_steal
  | @coll ch e st fs hst hc =>
      rw [setStack_tasks, withStage_locals] at hne
      exact .inr ⟨ch, e, st, fs, rfl, hc, (happ hne).1⟩
  | @sweep k ch w hw =>
      obtain ⟨hpush, hpop, hsteal⟩ := sweepStep_tasks s w ch
      rw [withSweepers_locals] at hne
      rcases markTasks_apply (sweepStep s w ch).1 s s.collector j with h | ⟨o, he, -⟩ |
        ⟨he, -⟩ | ⟨i, n, he, -⟩
      · exact absurd h hne
      · exact absurd he (hpush o)
      · exact absurd he hpop
      · exact absurd he (hsteal i n)
  | startWorker hj hr hc =>
      rw [setStack_tasks] at hne
      exact absurd (hreg _) hne
  | register hr hc => exact absurd (hreg _) hne
  | @exit t ht hu hst hg hh hc =>
      refine absurd ?_ hne
      simp only [setLocal_locals]
      split
      · next h => rw [h]
      · rfl

/-- A thread that touches its queue under a pin of the current timestamp has
recorded it. -/
theorem dirty_of_armed {s : St} (hc : SectInv s) (hr : RecInv s) {t : Lid} {f : Frame}
    {rest : List Frame} (hst : (s.locals t).stack = f :: rest) (ha : f.armed = true) :
    (s.locals t).pinDone ∧ (s.locals t).mtModifiedTs = (s.locals t).epoch.timestamp := by
  refine ⟨?_, ((hr t).armed hst).2 ha⟩
  cases f with
  | ptr f =>
      cases f with
      | push o r => exact (hc.head_phase hst rfl rfl).1
      | _ => cases ha
  | help f =>
      cases f with
      | drainPop n => exact (hc.head_phase hst rfl rfl).1
      | _ => cases ha
  | _ => cases ha

/-- The queue was empty when it was looked at, or its owner has a record. -/
def St.queueOk (s : St) (j : Lid) : Prop :=
  (s.locals j).markTasks = [] ∨ (s.dirty j ∧ j < s.nLocals)

theorem queueOk_step {s s' : St} {lab : Label} (h : WellFormed s) (hr : RecInv s)
    (hs : StepCase s lab s') (he : s'.epoch = s.epoch) (hw : s.waited)
    (hcoll : ∀ ch e st fs, collStep s ch = some (e, st, fs) → e.onTasks = false) {j : Lid}
    (hq : s.queueOk j) : s'.queueOk j := by
  have hdirty : s.dirty j → j < s.nLocals → s'.queueOk j := by
    intro hd hj
    exact .inr ⟨dirty_step h.ground.sect hs he hj (h.ground.pin.waited hw j) hd,
      Nat.lt_of_lt_of_le hj (step_nLocals hs).1⟩
  rcases hq with hq | ⟨hd, hj⟩
  · by_cases hsame : (s'.locals j).markTasks = (s.locals j).markTasks
    · exact .inl (hsame.trans hq)
    · rcases queue_change h.tasks hs hsame with ⟨ch, f, rest, -, hst, ha, hj⟩ |
        ⟨ch, e, st, fs, -, hc, hon⟩
      · obtain ⟨hd, hts⟩ := dirty_of_armed h.ground.sect hr hst ha
        exact hdirty (hts.trans (h.ground.pin.waited hw j hd)) hj
      · rw [hcoll ch e st fs hc] at hon
        cases hon
  · exact hdirty hd hj

/-! ## The three passes -/

/-- The stages the collector goes through with nothing on its stack: the wait
and the three passes. -/
def Stage.checking : Stage → Bool
  | .wait _ | .conf1 _ | .conf2 _ | .conf3 _ => true
  | _ => false

/-- The stages from a failed check, or from the scan, to the next store. -/
def Stage.draining : Stage → Bool
  | .drain | .find | .steal _ | .complete => true
  | _ => false

theorem collStep_checking {s : St} {ch : Nat} {e : Eff} {st : Stage} {fs : List Frame}
    (h : collStep s ch = some (e, st, fs)) (hst : st.checking = true) : fs = [] := by
  unfold collStep at h
  simp only at h
  repeat' split at h
  all_goals first
    | (cases h; done)
    | (cases h; first | rfl | cases hst)

/-- Only the stages that drain touch the queues. -/
theorem collStep_onTasks {s : St} {ch : Nat} {e : Eff} {st : Stage} {fs : List Frame}
    (h : collStep s ch = some (e, st, fs)) (he : e.onTasks = true) :
    s.stage.draining = true := by
  unfold collStep at h
  simp only at h
  repeat' split at h
  all_goals first
    | (cases h; done)
    | (cases h; first | (cases he; done) | simp_all [Stage.draining])

/-- Draining ends with the store of the next epoch. -/
theorem collStep_draining {s : St} {ch : Nat} {e : Eff} {st : Stage} {fs : List Frame}
    (h : collStep s ch = some (e, st, fs)) (he : e.pinFree = true)
    (hd : s.stage.draining = true) : st.draining = true := by
  unfold collStep at h
  simp only at h
  repeat' split at h
  all_goals first
    | (cases h; done)
    | (cases h; simp_all [Stage.draining, Eff.pinFree])

theorem collStep_wait {s : St} {ch : Nat} {e : Eff} {st : Stage} {fs : List Frame} {it : Iter}
    (hs : s.stage = .wait it) (h : collStep s ch = some (e, st, fs)) :
    (∃ it', st = .wait it') ∨ st = .scan ∨ st = .conf1 s.firstNode ∨ st = .idle := by
  simp only [collStep, hs, Option.some.injEq, Prod.mk.injEq] at h
  obtain ⟨-, h, -⟩ := h
  cases it with
  | fin =>
      rw [← h, St.afterWait]
      cases s.epoch.phase with
      | RT => exact .inr (.inl rfl)
      | CT => exact .inr (.inr (.inl rfl))
      | N => exact .inr (.inr (.inr rfl))
  | act i nx =>
      simp only at h
      split at h
      · exact .inl ⟨_, h.symm⟩
      · exact .inl ⟨_, h.symm⟩
  | _ => exact .inl ⟨_, h.symm⟩

/-- The pass over the queues begins after the first one over the records and
goes on past a node with an empty queue. -/
theorem collStep_conf2 {s : St} {ch : Nat} {e : Eff} {it : Iter} {fs : List Frame}
    (h : collStep s ch = some (e, .conf2 it, fs)) :
    it = s.firstNode ∨ ∃ it₀, s.stage = .conf2 it₀ ∧ (it = s.iterStep true it₀ ∨
      ∃ i nx, it₀ = .act i nx ∧ (s.locals i).markTasks = [] ∧ it = .goto nx) := by
  cases hs : s.stage with
  | conf1 it₀ =>
      simp only [collStep, hs, Option.some.injEq, Prod.mk.injEq] at h
      cases it₀ with
      | fin => exact .inl (Stage.conf2.inj h.2.1).symm
      | act i nx =>
          obtain ⟨-, h, -⟩ := h
          simp only at h
          split at h <;> cases h
      | _ => cases h.2.1
  | conf2 it₀ =>
      simp only [collStep, hs, Option.some.injEq, Prod.mk.injEq] at h
      refine .inr ⟨it₀, rfl, ?_⟩
      cases it₀ with
      | fin => cases h.2.1
      | act i nx =>
          obtain ⟨-, h, -⟩ := h
          simp only at h
          split at h
          · next hq => exact .inr ⟨i, nx, rfl, hq, (Stage.conf2.inj h).symm⟩
          · cases h
      | _ => exact .inl (Stage.conf2.inj h.2.1).symm
  | wait it₀ =>
      rcases collStep_wait hs h with ⟨it', h⟩ | h | h | h <;> cases h
  | _ =>
      simp only [collStep, hs] at h
      repeat' split at h
      all_goals cases h

/-- What a step of the second pass over the records does. -/
theorem collStep_conf3 {s : St} {ch : Nat} {e : Eff} {st : Stage} {fs : List Frame} {it : Iter}
    (hs : s.stage = .conf3 it) (h : collStep s ch = some (e, st, fs)) :
    (∃ i nx, it = .act i nx ∧ (st = .drain ∨ (st = .conf3 (.goto nx) ∧ ¬ s.dirty i))) ∨
    (it = .fin ∧ st = .nextNormal) ∨ st = .conf3 (s.iterStep true it) := by
  simp only [collStep, hs] at h
  cases it with
  | act i nx =>
      simp only [Option.some.injEq, Prod.mk.injEq] at h
      refine .inl ⟨i, nx, rfl, ?_⟩
      obtain ⟨-, h, -⟩ := h
      split at h
      · exact .inl h.symm
      · next hd => exact .inr ⟨h.symm, hd⟩
  | fin =>
      cases h
      exact .inr (.inl ⟨rfl, rfl⟩)
  | _ =>
      cases h
      exact .inr (.inr rfl)

/-- The second pass over the records begins when that over the queues has come
to the end of the list. -/
theorem collStep_of_conf3 {s : St} {ch : Nat} {e : Eff} {it : Iter} {fs : List Frame}
    (h : collStep s ch = some (e, .conf3 it, fs)) :
    s.stage = .conf2 .fin ∨ ∃ it₀, s.stage = .conf3 it₀ := by
  cases hs : s.stage with
  | conf3 it₀ => exact .inr ⟨it₀, rfl⟩
  | conf2 it₀ =>
      simp only [collStep, hs, Option.some.injEq, Prod.mk.injEq] at h
      cases it₀ with
      | fin => exact .inl rfl
      | act i nx =>
          obtain ⟨-, h, -⟩ := h
          simp only at h
          split at h <;> cases h
      | _ => cases h.2.1
  | conf1 it₀ =>
      simp only [collStep, hs, Option.some.injEq, Prod.mk.injEq] at h
      cases it₀ with
      | act i nx =>
          obtain ⟨-, h, -⟩ := h
          simp only at h
          split at h <;> cases h
      | _ => cases h.2.1
  | wait it₀ =>
      rcases collStep_wait hs h with ⟨it', h⟩ | h | h | h <;> cases h
  | _ =>
      simp only [collStep, hs] at h
      repeat' split at h
      all_goals cases h

/-- An iteration over all nodes, which does not test `using`. -/
def Iter.Untested : Iter → Prop
  | .test _ _ => False
  | it => it.Linked

theorem Iter.untested_goto (nx : Option Lid) : (Iter.goto nx).Untested := by
  cases nx <;> trivial

/-- One load of an iteration over all nodes: what it has newly passed is past the
end of the list. -/
theorem iterStep_all {s : St} {it : Iter} (hl : it.Untested) :
    (s.iterStep true it).Untested ∧
    ∀ {j}, (s.iterStep true it).passed j → it.passed j ∨ s.nLocals ≤ j := by
  cases it with
  | node i =>
      simp only [St.iterStep, St.nextNode, if_true]
      refine ⟨?_, fun {j} => ?_⟩
      · intro k hk
        split at hk <;> simp_all
      · rintro (h | ⟨h, hij⟩)
        · exact .inl h
        · refine .inr ?_
          split at h
          · cases h
          · next hn => exact Nat.le_trans (Nat.not_lt.1 hn) hij
  | test i nx => cases hl
  | act i nx => exact ⟨hl, .inl⟩
  | fin => exact ⟨hl, .inl⟩

/-- What the collector knows while it checks: it runs nothing, and the queues it
has passed were empty or have an owner with a record. -/
structure ConfInv (s : St) : Prop where
  bare : s.stage.checking = true → (s.locals s.collector).stack = []
  conf2 : ∀ {it}, s.stage = .conf2 it → it.Untested ∧ ∀ j, it.passed j → s.queueOk j
  conf3 : ∀ {it}, s.stage = .conf3 it → ∀ j, s.queueOk j

theorem ConfInv.init (n : Nat) : ConfInv (St.init n) where
  bare := fun h => by cases h
  conf2 := fun h => by cases h
  conf3 := fun h => by cases h

theorem bare_step {s s' : St} {lab : Label} (h : ConfInv s) (hs : StepCase s lab s')
    (hst : s'.stage.checking = true) : (s'.locals s'.collector).stack = [] := by
  rw [(step_nLocals hs).2]
  cases hs with
  | @op t o s₁ fs ht hu hst' hc hop =>
      rw [setStack_stack_ne _ _ (Ne.symm hc), (startOp_same hop).1.stack]
      refine h.bare ?_
      rw [← (startOp_same hop).1.stage]
      exact hst
  | @run t ch f rest ht hst' =>
      have hbare := h.bare (by rw [← hst]; exact congrArg _ (apply_stage ..).symm)
      have hc : s.collector ≠ t := fun hc => by
        rw [hc, hst'] at hbare
        cases hbare
      rw [setStack_stack_ne _ _ hc, apply_stack]
      exact hbare
  | @coll ch e st fs hst' hcoll =>
      rw [setStack_stack_self]
      exact collStep_checking hcoll hst
  | @sweep k ch w hw =>
      refine (apply_stack _ s _ _).trans (h.bare ?_)
      rw [← hst]
      exact congrArg _ (apply_stage ..).symm
  | @startWorker t lo hi hz js hj hr hc =>
      rw [setStack_stack_ne _ _ (Ne.symm hc), withJobs_locals, register_ne s (Ne.symm hc)]
      rw [setStack_stage, withJobs_stage, register_stage] at hst
      exact h.bare hst
  | @register t hr hc =>
      rw [register_ne s (Ne.symm hc)]
      exact h.bare (register_stage s t ▸ hst)
  | @exit t ht hu hst' hg hh hc =>
      rw [setLocal_locals, if_neg (Ne.symm hc)]
      exact h.bare hst

theorem ConfInv.step {s s' : St} {lab : Label} (h : ConfInv s) (hwf : WellFormed s)
    (hr : RecInv s) (hs : StepCase s lab s') : ConfInv s' := by
  have hkeep : s'.epoch = s.epoch → s.waited → s.stage.draining = false → ∀ {j},
      s.queueOk j → s'.queueOk j := by
    intro he hw hd j
    refine queueOk_step hwf hr hs he hw fun ch e st fs hcoll => ?_
    by_contra hon
    rw [collStep_onTasks hcoll (Bool.eq_true_of_not_eq_false hon)] at hd
    cases hd
  refine ⟨bare_step h hs, fun {it} hit => ?_, fun {it} hit => ?_⟩
  · cases epochStep hs with
    | same he hp hst =>
        rcases hst with hst | ⟨ch, e, fs, hcoll, -⟩
        · rw [hst] at hit
          obtain ⟨hu, hq⟩ := h.conf2 hit
          exact ⟨hu, fun j hj =>
            hkeep he (by rw [St.waited, hit]; rfl) (by rw [hit]; rfl) (hq j hj)⟩
        rw [hit] at hcoll
        rcases collStep_conf2 hcoll with rfl | ⟨it₀, hst₀, hcase⟩
        · rw [hwf.ground.pin.str.firstNode]
          exact ⟨trivial, fun j hj => absurd hj (Nat.not_lt_zero j)⟩
        obtain ⟨hu, hq⟩ := h.conf2 hst₀
        have hkeep' : ∀ {j}, s.queueOk j → s'.queueOk j :=
          hkeep he (by rw [St.waited, hst₀]; rfl) (by rw [hst₀]; rfl)
        rcases hcase with rfl | ⟨i, nx, rfl, hqi, rfl⟩
        · obtain ⟨hu', hp'⟩ := iterStep_all (s := s) hu
          refine ⟨hu', fun j hj => hkeep' ?_⟩
          rcases hp' hj with hj | hj
          · exact hq j hj
          · exact .inl (hwf.tasks j hj)
        · refine ⟨Iter.untested_goto nx, fun j hj => hkeep' ?_⟩
          rcases Iter.passed_goto hu hj with hj | rfl
          · exact hq j hj
          · exact .inl hqi
    | store hn hu hw hp hst =>
        rcases hst with hst | ⟨hst, -⟩ <;> rw [hst] at hit <;> cases hit
  · cases epochStep hs with
    | same he hp hst =>
        rcases hst with hst | ⟨ch, e, fs, hcoll, -⟩
        · rw [hst] at hit
          exact fun j => hkeep he (by rw [St.waited, hit]; rfl) (by rw [hit]; rfl) (h.conf3 hit j)
        rw [hit] at hcoll
        rcases collStep_of_conf3 hcoll with hst₀ | ⟨it₀, hst₀⟩
        · exact fun j => hkeep he (by rw [St.waited, hst₀]; rfl) (by rw [hst₀]; rfl)
            ((h.conf2 hst₀).2 j trivial)
        · exact fun j => hkeep he (by rw [St.waited, hst₀]; rfl) (by rw [hst₀]; rfl)
            (h.conf3 hst₀ j)
    | store hn hu hw hp hst =>
        rcases hst with hst | ⟨hst, -⟩ <;> rw [hst] at hit <;> cases hit

structure Checked (s : St) : Prop where
  wf : WellFormed s
  records : RecInv s
  conf : ConfInv s

theorem Checked.of_reachable {n : Nat} {s : St} (h : Reachable n s) : Checked s :=
  h.invariant ⟨.init n, .init n, .init n⟩ fun hi _ hs =>
    ⟨hi.wf.step hs, hi.records.step hi.wf.ground.pin hi.wf.ground.sect (stepCase hs),
      hi.conf.step hi.wf hi.records (stepCase hs)⟩

/-- Draining at a timestamp goes on as long as the timestamp stands. -/
theorem draining_of_reaches {s s' : St} (hg : Ground s) (hd : s.stage.draining = true)
    (hr : Lts.Reaches step (fun _ _ => True) s s')
    (heq : s'.epoch.timestamp = s.epoch.timestamp) : s'.stage.draining = true := by
  refine (hr.invariant (I := fun s' => Ground s' ∧ s.epoch.timestamp ≤ s'.epoch.timestamp ∧
    (s'.epoch.timestamp = s.epoch.timestamp → s'.stage.draining = true))
    ⟨hg, Nat.le_refl _, fun _ => hd⟩ ?_).2.2 heq
  rintro a b lab ⟨ha, hle, hk⟩ - hs
  refine ⟨ha.step hs, ?_⟩
  cases epochStep (stepCase hs) with
  | same he hp hst =>
      rw [he]
      refine ⟨hle, fun hts => ?_⟩
      rcases hst with hst | ⟨ch, e, fs, hcoll, hfree⟩
      · rw [hst]
        exact hk hts
      · exact collStep_draining hcoll hfree (hk hts)
  | store hn hu hw hp hst =>
      have := (hn ha.pin.phase).1
      exact ⟨by omega, fun _ => by omega⟩

/-- The second pass finds every record there is when it begins. -/
theorem conf3_walk {s s' : St} (hg : Ground s) (hst : s.stage = .conf3 (.node 0)) {t : Lid}
    (ht : t < s.nLocals) (hd : s.dirty t) (hr : Lts.Reaches step (fun _ _ => True) s s')
    (heq : s'.epoch.timestamp = s.epoch.timestamp) : s'.stage ≠ .nextNormal := by
  have hf : s.Fresh t := hg.pin.waited (by rw [St.waited, hst]; rfl) t
  have hwalk : Ground s' ∧ s.epoch.timestamp ≤ s'.epoch.timestamp ∧
      (s'.epoch.timestamp = s.epoch.timestamp → s'.stage.draining = true ∨
        ∃ it, s'.stage = .conf3 it ∧ it.Untested ∧ ¬ it.passed t) := by
    clear heq
    induction hr with
    | refl => exact ⟨hg, Nat.le_refl _, fun _ => .inr ⟨_, hst, trivial, Nat.not_lt_zero t⟩⟩
    | @tail a b lab hr _ hs ih =>
        obtain ⟨ha, hle, hk⟩ := ih
        refine ⟨ha.step hs, ?_⟩
        cases epochStep (stepCase hs) with
        | store hn hu hw hp hst =>
            have := (hn ha.pin.phase).1
            exact ⟨by omega, fun _ => by omega⟩
        | same he hp hst' =>
            rw [he]
            refine ⟨hle, fun hts => ?_⟩
            obtain ⟨hda, hta⟩ := dirty_of_reaches hg ht hf hd hr hts
            rcases hst' with hst' | ⟨ch, e, fs, hcoll, hfree⟩
            · rw [hst']
              exact hk hts
            rcases hk hts with hdr | ⟨it, hsta, hu, hpass⟩
            · exact .inl (collStep_draining hcoll hfree hdr)
            rcases collStep_conf3 hsta hcoll with ⟨i, nx, rfl, hb | ⟨hb, hnd⟩⟩ | ⟨rfl, -⟩ | hb
            · exact .inl (by rw [hb]; rfl)
            · refine .inr ⟨_, hb, Iter.untested_goto nx, fun hp' => ?_⟩
              rcases Iter.passed_goto hu hp' with hp' | rfl
              · exact hpass hp'
              · exact hnd hda
            · exact (hpass trivial).elim
            · obtain ⟨hu', hp'⟩ := iterStep_all (s := a) hu
              refine .inr ⟨_, hb, hu', fun hj => ?_⟩
              rcases hp' hj with hj | hj
              · exact hpass hj
              · exact absurd hta (Nat.not_lt.2 hj)
  intro hnn
  rcases hwalk.2.2 heq with hdr | ⟨it, hit, -⟩
  · rw [hnn] at hdr
    cases hdr
  · rw [hnn] at hit
    cases hit

/-- When the second pass over the records answers `true`, then at the instant it
began every queue was empty and no task was being executed. Since the epoch was
published no queue had been touched by a thread pinned at it, and since the wait
for it returned none had been touched at all. -/
theorem confirm_is_snapshot {n : Nat} {s s₂ : St} (h : Reachable n s)
    (hst : s.stage = .conf3 (.node 0)) (hr : Lts.Reaches step (fun _ _ => True) s s₂)
    (hts : s₂.epoch.timestamp = s.epoch.timestamp) (hok : s₂.stage = .nextNormal) :
    (∀ t, (s.locals t).markTasks = []) ∧
    (∀ t, ∀ f ∈ (s.locals t).stack, f.marking = false) ∧
    ∀ {a b : St} {lab : Label} {t : Lid}, Reachable n a → step a lab = some b →
      Lts.Reaches step (fun _ _ => True) b s → a.epoch.timestamp = s.epoch.timestamp →
      (b.locals t).markTasks ≠ (a.locals t).markTasks →
      ¬ a.waited ∧ (a.locals t).pinDone ∧
        (a.locals t).epoch.timestamp + 1 = s.epoch.timestamp := by
  have hinv := Checked.of_reachable h
  have hg := hinv.wf.ground
  have hw : s.waited := by
    rw [St.waited, hst]
    rfl
  have hclean : ∀ t < s.nLocals, ¬ s.dirty t :=
    fun t ht hd => conf3_walk hg hst ht hd hr hts hok
  refine ⟨fun t => ?_, fun t f hf => ?_, fun {a b lab t} ha hs hb hat hne => ?_⟩
  · rcases hinv.conf.conf3 hst t with hq | ⟨hd, ht⟩
    · exact hq
    · exact absurd hd (hclean t ht)
  · by_contra hm
    have hm := Bool.eq_true_of_not_eq_false hm
    obtain ⟨hd, -⟩ := hg.sect.mem_phase hf (marking_phase hm)
    have hep := hg.pin.epoch_of_waited hw hd
    have hCT : (s.locals t).epoch.phase = .CT := by
      have hph := hg.pin.phase
      rw [hst] at hph
      rw [hep]
      exact of_decide_eq_true hph
    have htc : t ≠ s.collector := by
      rintro rfl
      rw [hinv.conf.bare (by rw [hst]; rfl)] at hf
      cases hf
    have ht : t < s.nLocals := by
      by_contra hlt
      exact hg.pin.str.not_done (hg.pin.str.beyond t (Nat.not_lt.1 hlt)) hd
    refine hclean t ht ?_
    rw [St.dirty, (hinv.records t).marking htc hf hm hCT, hep]
    rfl
  · have hinva := Checked.of_reachable ha
    have hga := hinva.wf.ground
    have hra : Lts.Reaches step (fun _ _ => True) a s := .trans (.tail .refl trivial hs) hb
    rcases queue_change hinva.wf.tasks (stepCase hs) hne with ⟨ch, f, rest, -, hsta, harm, ht⟩ |
      ⟨ch, e, st, fs, -, hc, hon⟩
    · obtain ⟨hd, hmt⟩ := dirty_of_armed hga.sect hinva.records hsta harm
      have hold : (a.locals t).epoch.timestamp ≠ a.epoch.timestamp := by
        intro heq
        obtain ⟨hds, hts⟩ := dirty_of_reaches hga ht (fun _ => heq) (hmt.trans heq) hra hat.symm
        exact hclean t hts hds
      refine ⟨fun hwa => hold (hga.pin.waited hwa t hd), hd, ?_⟩
      obtain ⟨k, hk, hep⟩ := hga.pin.pins t hd
      have hstamp : (a.locals t).epoch.timestamp = k := by
        rw [hep]
        exact hga.pin.stamp k (by omega)
      omega
    · have hdr := draining_of_reaches hga (collStep_onTasks hc hon) hra hat.symm
      rw [hst] at hdr
      cases hdr

/-- Thread 1 drops the last `Shared` of object 0 in RT and is stopped before it
records; the collector scans, drains and publishes CT, and the thread records. -/
def lateRun : List Label :=
  List.flatten
    [[.register 1, .op 1 .pin], .replicate 4 (.run 1 0),
      [.op 1 (.alloc [] 8 (some (.shared, 0)))], .replicate 3 (.run 1 0),
      [.op 1 .dropGuard, .run 1 0, .run 1 0, .coll 0, .op 1 (.drop 0)],
      .replicate 17 (.run 1 0), .replicate 8 (.coll 0), .replicate 14 (.run 0 0),
      .replicate 33 (.coll 0), [.startWorker 2], .replicate 29 (.run 2 0),
      [.coll 0, .run 0 0, .run 0 0, .coll 0], .replicate 4 (.run 0 0), .replicate 8 (.coll 0),
      [.run 0 0, .run 0 0, .coll 0, .run 1 0]]

/-- The thread then pushes object 0, and has marked it when the wait returns. -/
theorem lateRun_push : ∃ a b s s₂, Reachable 1 a ∧ step a (.run 1 0) = some b ∧
    Lts.Reaches step (fun _ _ => True) b s ∧ Lts.Reaches step (fun _ _ => True) s s₂ ∧
    (b.locals 1).markTasks ≠ (a.locals 1).markTasks ∧
    a.epoch.timestamp = s.epoch.timestamp ∧ s.stage = .conf3 (.node 0) ∧
    s₂.epoch.timestamp = s.epoch.timestamp ∧ s₂.stage = .nextNormal := by
  have hrun : (Lts.runs step (fun _ _ => True) (St.init 1) lateRun).any (fun a =>
      (step a (.run 1 0)).any fun b =>
        decide ((b.locals 1).markTasks ≠ (a.locals 1).markTasks) &&
        (Lts.runs step (fun _ _ => True) b
          (List.replicate 38 (.run 1 1) ++ List.replicate 23 (.coll 0))).any fun s =>
            decide (a.epoch.timestamp = s.epoch.timestamp ∧ s.stage = .conf3 (.node 0)) &&
            (Lts.runs step (fun _ _ => True) s (List.replicate 7 (.coll 0))).any fun s₂ =>
              decide (s₂.epoch.timestamp = s.epoch.timestamp ∧ s₂.stage = .nextNormal)) = true := by
    decide +kernel
  obtain ⟨a, ha, h⟩ := Lts.exists_of_any hrun
  obtain ⟨b, hb, h⟩ := (Option.any_eq_true _ _).1 h
  obtain ⟨hne, h⟩ := Bool.and_eq_true_iff.1 h
  obtain ⟨s, hs, h⟩ := Lts.exists_of_any h
  obtain ⟨hconf, h⟩ := Bool.and_eq_true_iff.1 h
  obtain ⟨s₂, hs₂, h⟩ := Lts.exists_of_any h
  obtain ⟨hat, hst⟩ := of_decide_eq_true hconf
  exact ⟨a, b, s, s₂, ha, hb, hs, hs₂, of_decide_eq_true hne, hat, hst, of_decide_eq_true h⟩

theorem confirm_is_snapshot_lateRun :
    ∃ a b s s₂, Reachable 1 s ∧ s.stage = .conf3 (.node 0) ∧
      Lts.Reaches step (fun _ _ => True) s s₂ ∧ s₂.epoch.timestamp = s.epoch.timestamp ∧
      s₂.stage = .nextNormal ∧ (∀ t, (s.locals t).markTasks = []) ∧
      step a (.run 1 0) = some b ∧ (b.locals 1).markTasks ≠ (a.locals 1).markTasks ∧
      ¬ a.waited ∧ (a.locals 1).epoch.timestamp + 1 = s.epoch.timestamp := by
  obtain ⟨a, b, s, s₂, ha, hb, hs, hs₂, hne, hat, hst, hts, hok⟩ := lateRun_push
  have hr : Reachable 1 s := .trans (.tail ha trivial hb) hs
  obtain ⟨hempty, -, htouch⟩ := confirm_is_snapshot hr hst hs₂ hts hok
  obtain ⟨hw, -, hold⟩ := htouch ha hb hs hat hne
  exact ⟨a, b, s, s₂, hr, hst, hs₂, hts, hok, hempty, hb, hne, hw, hold⟩

/-- A thread pinned at the timestamp before does push after the epoch was
published. -/
theorem queue_touched_since_publication :
    ¬ ∀ {a b s s₂ : St} {lab : Label} {t : Lid}, Reachable 1 a → step a lab = some b →
      Lts.Reaches step (fun _ _ => True) b s → s.stage = .conf3 (.node 0) →
      Lts.Reaches step (fun _ _ => True) s s₂ → s₂.epoch.timestamp = s.epoch.timestamp →
      s₂.stage = .nextNormal → a.epoch.timestamp = s.epoch.timestamp →
      (b.locals t).markTasks = (a.locals t).markTasks := by
  intro h
  obtain ⟨a, b, s, s₂, ha, hb, hs, hs₂, hne, hat, hst, hts, hok⟩ := lateRun_push
  exact hne (h ha hb hs hst hs₂ hts hok hat)

end Cdpt
