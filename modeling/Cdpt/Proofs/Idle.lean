import Cdpt.Proofs.Handover

/-!
# The collector alone

What the machine does while no mutator takes a step. A label is silent when it moves
the collector, one of its workers or a sweeper. From a state in which no operation
is in flight, silent steps leave the graph of the heap, the root counts and the
hazard slots as they are: the only frames there are pin, scan, mark and drain.

The slots need an argument. A worker takes a node that is free and gives it back,
and a slot counts only while its node is in use. `FreeSlots` says that a free node,
a worker's node and the collector's own have no hazards at all. It holds in every
reachable state, as a thread may leave only when its slots are clear and a worker
never protects anything.

`Still` is what silent steps preserve: the frames in progress are quiet ones, and
they belong to the collector or to a worker it waits for. The threads that run have
then pinned the epoch of the cycle (`Still.pinned`), and who helps has pinned a
trace (`Still.helps`), so nobody helps to sweep. `Still.runs` says of any frame that
runs what it does and what it leaves, which is the case analysis over `exec` that
the next modules start from.

`Untouched` is the other side: the links point where they pointed, counts, cells and
slots are as they were, and only colours change, those of headers and of links.
-/

namespace Cdpt

/-! ## Nodes without hazards -/

/-- The frames of `protect`. -/
def Frame.protects : Frame → Bool
  | .ptr (.acquireHp _) | .ptr (.storeHazard _ _) => true
  | _ => false

/-- No thread of the program is on node `t`. -/
def St.unowned (s : St) (t : Lid) : Prop :=
  (s.locals t).isUsing = false ∨ t = s.collector ∨ ∃ f ∈ (s.locals t).stack, f.isExit = true

structure FreeSlots (s : St) : Prop where
  empty : ∀ {t}, s.unowned t → ∀ h ∈ (s.locals t).hazards, h = none
  plain : ∀ {t}, s.unowned t → ∀ f ∈ (s.locals t).stack, f.protects = false

theorem exec_protects {s : St} {t : Lid} {ch : Nat} {f g : Frame} (hg : g ∈ (exec s t ch f).2)
    (h : g.protects = true) : f.protects = true := by
  have hno : ∀ fs : List Frame, fs.all (fun g => !g.protects) = true → g ∉ fs := by
    intro fs hall hmem
    have := List.all_eq_true.1 hall g hmem
    rw [h] at this
    cases this
  have honce : ∀ (u : St) (t : Lid) (l : Loc) (old new : ManPtr) (k : CasKind),
      Frame.protects (.ptr (unrootedOnce u t l old new k)) = false := by
    intro u t l old new k
    unfold unrootedOnce
    repeat' split
    all_goals rfl
  have hret : ∀ p, Frame.protects (.ptr (.ret p)) = false := fun _ => rfl
  have hdrop : ∀ p, (dropTemp p).all (fun g => !g.protects) = true := by
    intro p
    unfold dropTemp
    split <;> rfl
  have hresume : ∀ r : ShadeRet, r.resume.all (fun g => !g.protects) = true := by
    intro r
    cases r <;> rfl
  by_contra hf
  refine absurd hg (hno _ ?_)
  cases f with
  | pin f => cases f <;> simp only [exec, execPin] <;> (repeat' split) <;> rfl
  | ptr f =>
      cases f with
      | acquireHp o => exact absurd rfl hf
      | _ =>
          simp only [exec, execPtr, rootedOnce, rootedFail, unrootedFail]
          repeat' split
          all_goals first
            | rfl
            | exact hresume _
            | simp only [List.all_append, List.all_cons, List.all_nil, honce, hdrop, hret,
                Bool.not_false, Bool.and_self]
  | mark f => cases f <;> simp only [exec, execMark, shadeLink] <;> (repeat' split) <;> rfl
  | help f =>
      cases f <;> simp only [exec, execHelp, scanObj, scanHazard, Scanner.next] <;>
        (repeat' split) <;> rfl

theorem hazards_none_of_slotStep {l l' : Local} {w : Option (Nat × Option Oid)}
    (hs : SlotStep l l' w) (hw : ∀ hid v, w = some (hid, v) → v = none)
    (h : ∀ x ∈ l.hazards, x = none) : ∀ x ∈ l'.hazards, x = none := by
  intro x hx
  cases hs with
  | same hh ho => exact h x (hh ▸ hx)
  | grow hh ho =>
      rw [hh] at hx
      rcases List.mem_append.1 hx with hx | hx
      · exact h x hx
      · exact List.eq_of_mem_replicate hx
  | @write hid v hh ho =>
      rw [hh] at hx
      rcases List.mem_or_eq_of_mem_set hx with hx | hx
      · exact h x hx
      · rw [hx, hw hid v rfl]

theorem writesSlot_of_plain {f : Frame} (h : f.protects = false) {hid : Nat} {v : Option Oid}
    (hw : f.writesSlot = some (hid, v)) : v = none := by
  unfold Frame.writesSlot at hw
  split at hw
  · cases h
  · cases hw
    rfl
  · cases hw

theorem FreeSlots.init (n : Nat) : FreeSlots (St.init n) where
  empty {t} _ h hh := by
    have hdef : ((St.init n).locals t).hazards = List.replicate hazardsInitCount none := by
      by_cases ht : t = 0 <;> simp [St.init, ht, Local.default]
    rw [hdef] at hh
    exact List.eq_of_mem_replicate hh
  plain _ f hf := by
    rw [stack_init] at hf
    cases hf

theorem PinStr.free {s : St} (hp : PinStr s) {t : Lid} (hr : s.canRegister t) :
    (s.locals t).isUsing = false := by
  rcases hr with ⟨-, hu, -⟩ | rfl
  · exact hu
  · exact hp.beyond _ (Nat.le_refl _)

/-- What a step can do to the hazard arrays of a node. -/
theorem slots_cases {s s' : St} {lab : Label} (hp : PinStr s) (hs : StepCase s lab s') (t : Lid) :
    ((s'.locals t).hazards = (s.locals t).hazards ∧
      (s'.locals t).oldHazards = (s.locals t).oldHazards) ∨
    ((s.locals t).isUsing = false ∧ (∀ h ∈ (s'.locals t).hazards, h = none) ∧
      (s'.locals t).oldHazards = []) ∨
    ∃ ch f rest, lab = .run t ch ∧ (s.locals t).stack = f :: rest ∧
      (exec s t ch f).1.slotFree = false ∧ SlotStep (s.locals t) (s'.locals t) f.writesSlot := by
  have hstack : ∀ (u : St) (i : Lid) (fs : List Frame),
      ((u.setStack i fs).locals t).hazards = (u.locals t).hazards ∧
      ((u.setStack i fs).locals t).oldHazards = (u.locals t).oldHazards := by
    intro u i fs
    rw [setStack_locals]
    split
    · next h => exact h ▸ ⟨rfl, rfl⟩
    · exact ⟨rfl, rfl⟩
  have hreg : ∀ i, s.canRegister i →
      (((s.register i).locals t).hazards = (s.locals t).hazards ∧
        ((s.register i).locals t).oldHazards = (s.locals t).oldHazards) ∨
      ((s.locals t).isUsing = false ∧ (∀ h ∈ ((s.register i).locals t).hazards, h = none) ∧
        ((s.register i).locals t).oldHazards = []) := by
    intro i hr
    by_cases hi : t = i
    · subst hi
      have hfree := hp.free hr
      unfold St.register
      split
      · exact .inl (by simp)
      · refine .inr ⟨hfree, ?_⟩
        simp only [setLocal_locals, if_true, Local.default]
        exact ⟨fun h hh => List.eq_of_mem_replicate hh, trivial⟩
    · exact .inl (register_ne s hi ▸ ⟨rfl, rfl⟩)
  cases hs with
  | @op i op s₁ fs hi hu hst hc hop =>
      obtain ⟨hh, ho⟩ := hstack s₁ i fs
      obtain ⟨held, hl⟩ := startOp_locals hop t
      rw [hl] at hh ho
      exact .inl ⟨hh, ho⟩
  | @run i ch f rest hi hst =>
      obtain ⟨hh, ho⟩ := hstack ((exec s i ch f).1.apply s i) i ((exec s i ch f).2 ++ rest)
      by_cases hne : t = i
      · subst hne
        cases hfree : (exec s t ch f).1.slotFree with
        | true =>
            obtain ⟨hh', ho'⟩ := slotFree_apply hfree s t t
            exact .inl ⟨hh.trans hh', ho.trans ho'⟩
        | false =>
            have hslot := slot_apply (exec s t ch f).1 s t
            rw [exec_writesSlot] at hslot
            exact .inr (.inr ⟨ch, f, rest, rfl, hst, hfree, hslot.of_eq hh ho⟩)
      · obtain ⟨hh', ho'⟩ := slot_apply_ne (exec s i ch f).1 s hne
        exact .inl ⟨hh.trans hh', ho.trans ho'⟩
  | @coll ch e st fs hst hcoll =>
      obtain ⟨hh, ho⟩ := hstack ((e.apply s s.collector).withStage st) s.collector fs
      obtain ⟨hh', ho'⟩ := slotFree_apply (collStep_slotFree hcoll) s s.collector t
      exact .inl ⟨hh.trans hh', ho.trans ho'⟩
  | @sweep k ch w hw => exact .inl (slotFree_apply (sweepStep_slotFree s w ch) s s.collector t)
  | @startWorker i lo hi hz js hj hr hc =>
      obtain ⟨hh, ho⟩ := hstack ((s.register i).withJobs js) i [.pin .pin,
        .help (.scanPop (.worker lo hi hz)), .pin .helpIf, .pin .unpin, .pin .workerExit]
      rw [hh, ho, withJobs_locals]
      rcases hreg i hr with h | h
      · exact .inl h
      · exact .inr (.inl h)
  | @register i hr hc =>
      rcases hreg i hr with h | h
      · exact .inl h
      · exact .inr (.inl h)
  | @exit i hi hu hst hg hh hc =>
      rw [setLocal_locals]
      split
      · next heq => exact .inl (heq ▸ ⟨rfl, rfl⟩)
      · exact .inl ⟨rfl, rfl⟩

/-- What a step can do to the `using` flag of a node. -/
theorem using_cases {s s' : St} {lab : Label} (hp : PinStr s) (hs : StepCase s lab s') (t : Lid) :
    (s'.locals t).isUsing = (s.locals t).isUsing ∨
    ((s.locals t).isUsing = false ∧ (s'.locals t).isUsing = true) ∨
    (lab = .exit t ∧ (∀ h ∈ (s.locals t).hazards, h = none) ∧ (s.locals t).stack = []) ∨
    ∃ ch f rest, lab = .run t ch ∧ (s.locals t).stack = f :: rest ∧ f.isExit = true := by
  have hview : ∀ {l l' : Local}, l'.pinView = l.pinView → l'.isUsing = l.isUsing :=
    fun h => congrArg Prod.fst h
  have hjoin : ∀ i, s.canRegister i →
      ((s.register i).locals t).isUsing = (s.locals t).isUsing ∨
      ((s.locals t).isUsing = false ∧ ((s.register i).locals t).isUsing = true) := by
    intro i hr
    rcases register_node hp hr t with ⟨-, heq⟩ | ⟨rfl, hu, -⟩
    · exact .inl (heq ▸ rfl)
    · exact .inr ⟨hp.free hr, hu⟩
  have hstack : ∀ (u : St) (i : Lid) (fs : List Frame),
      ((u.setStack i fs).locals t).isUsing = (u.locals t).isUsing := by
    intro u i fs
    rw [setStack_locals]
    split
    · next h => exact h ▸ rfl
    · rfl
  cases hs with
  | @op i op s₁ fs hi hu hst hc hop =>
      rw [hstack]
      exact .inl (hview ((startOp_same hop).1.view t))
  | @run i ch f rest hi hst =>
      rw [hstack]
      by_cases hne : t = i
      · subst hne
        cases hx : f.isExit with
        | false => exact .inl (exec_isUsing hx)
        | true => exact .inr (.inr (.inr ⟨ch, f, rest, rfl, hst, hx⟩))
      · exact .inl (hview (exec_pinView_ne s ch f hne))
  | @coll ch e st fs hst hcoll =>
      rw [hstack]
      exact .inl (hview (collStep_pinView hcoll s.collector t))
  | @sweep k ch w hw =>
      exact .inl (hview (apply_pinView (sweepStep_pinFree s w ch) s s.collector t))
  | @startWorker i lo hi hz js hj hr hc =>
      rw [hstack, withJobs_locals]
      rcases hjoin i hr with h | h
      · exact .inl h
      · exact .inr (.inl h)
  | @register i hr hc =>
      rcases hjoin i hr with h | h
      · exact .inl h
      · exact .inr (.inl h)
  | @exit i hi hu hst hg hh hc =>
      by_cases hne : t = i
      · subst hne
        exact .inr (.inr (.inl ⟨rfl, hh, hst⟩))
      · rw [setLocal_locals, if_neg hne]
        exact .inl rfl

/-- A node nobody owns was nobody's before, or its thread has just left. -/
theorem unowned_step {s s' : St} {lab : Label} (hp : PinStr s) (hs : StepCase s lab s') {t : Lid}
    (h : s'.unowned t) :
    s.unowned t ∨ (lab = .exit t ∧ (∀ x ∈ (s.locals t).hazards, x = none) ∧
      (s.locals t).stack = []) := by
  rcases h with hu | hcoll | ⟨g, hg, hx⟩
  · rcases using_cases hp hs t with heq | ⟨-, hu'⟩ | hexit | ⟨ch, f, rest, -, hst, hx⟩
    · exact .inl (.inl (heq ▸ hu))
    · rw [hu] at hu'
      cases hu'
    · exact .inr hexit
    · exact .inl (.inr (.inr ⟨f, hst ▸ List.mem_cons_self, hx⟩))
  · exact .inl (.inr (.inl (hcoll.trans (step_nLocals hs).2)))
  · have hplain : ∀ {fs : List Frame}, fs.all Frame.plain = true → g ∉ fs := by
      intro fs hall hmem
      rw [(plain_pinning hall).2 g hmem] at hx
      cases hx
    have hstep := stack_step hp hs t
    generalize (s'.locals t).stack = fs at hstep hg
    cases hstep with
    | same hl => exact .inl (.inr (.inr ⟨g, hg, hx⟩))
    | op hl ht hst hop => exact absurd hg (hplain (startOp_same hop).2)
    | @run ch f rest hl ht hst =>
        rcases List.mem_append.1 hg with hg | hg
        · rw [(exec_shape s t ch f).2 g hg] at hx
          cases hx
        · exact .inl (.inr (.inr ⟨g, hst ▸ List.mem_cons_of_mem f hg, hx⟩))
    | coll hl ht hst hcoll => exact absurd hg (hplain (collStep_cases hcoll).1)
    | worker hl hj hst =>
        subst hl
        cases hs with
        | startWorker hj' hr hc => exact .inl (.inl (hp.free hr))

theorem protects_of_starts {g : Frame} (h : g.starts = true) : g.protects = false := by
  unfold Frame.starts at h
  split at h
  all_goals first | rfl | cases h

theorem FreeSlots.empty_step {s s' : St} {lab : Label} (h : FreeSlots s) (hp : PinStr s)
    (hs : StepCase s lab s') {t : Lid} (hu : s'.unowned t) :
    ∀ x ∈ (s'.locals t).hazards, x = none := by
  have hempty : ∀ x ∈ (s.locals t).hazards, x = none := by
    rcases unowned_step hp hs hu with hu | ⟨-, hh, -⟩
    · exact h.empty hu
    · exact hh
  rcases slots_cases hp hs t with ⟨hh, -⟩ | ⟨-, hh, -⟩ | ⟨ch, f, rest, hl, hst, -, hslot⟩
  · exact hh ▸ hempty
  · exact hh
  · -- a thread that runs on a node of nobody does not write a reference into a slot
    have hplain : f.protects = false := by
      rcases unowned_step hp hs hu with hu | ⟨hl', -⟩
      · exact h.plain hu f (hst ▸ List.mem_cons_self)
      · rw [hl] at hl'
        cases hl'
    exact hazards_none_of_slotStep hslot (fun hid v hw => writesSlot_of_plain hplain hw) hempty

theorem FreeSlots.plain_step {s s' : St} {lab : Label} (h : FreeSlots s) (hp : PinStr s)
    (hs : StepCase s lab s') {t : Lid} (hu : s'.unowned t) {g : Frame}
    (hg : g ∈ (s'.locals t).stack) : g.protects = false := by
  have hold : ∀ {f}, f ∈ (s.locals t).stack → f.protects = false := by
    intro f hf
    rcases unowned_step hp hs hu with hu | ⟨-, -, hst⟩
    · exact h.plain hu f hf
    · rw [hst] at hf
      cases hf
  rcases frame_step hp hs hg with hg | ⟨op, s₁, fs, hl, hop, hg⟩ | ⟨ch, f, rest, hl, hst, hg⟩ |
      hstart
  · exact hold hg
  · -- an operation starts on a node its thread owns
    subst hl
    rcases unowned_step hp hs hu with hun | ⟨hl', -⟩
    · cases hs with
      | op ht hus hst hc hop' =>
          rcases hun with hun | hcoll | ⟨f, hf, -⟩
          · rw [hus] at hun
            cases hun
          · exact absurd hcoll hc
          · rw [hst] at hf
            cases hf
    · cases hl'
  · cases hpr : g.protects with
    | false => rfl
    | true => exact (exec_protects hg hpr).symm.trans (hold (hst ▸ List.mem_cons_self))
  · exact protects_of_starts hstart

theorem FreeSlots.of_reachable {n : Nat} {s : St} (h : Reachable n s) : FreeSlots s := by
  suffices hinv : PinStr s ∧ FreeSlots s from hinv.2
  refine h.invariant (I := fun u => PinStr u ∧ FreeSlots u) ⟨pinStr_init n, .init n⟩ ?_
  intro a b lab ⟨hp, hf⟩ _ hs
  have hcase := stepCase hs
  exact ⟨pinStr_step hp hcase, hf.empty_step hp hcase, fun hu _ hg => hf.plain_step hp hcase hu hg⟩

/-! ## Silent steps -/

/-- The steps in which the program has no part, once its operations have returned. -/
def Label.silent : Label → Bool
  | .run _ _ | .coll _ | .sweep _ _ | .startWorker _ => true
  | .op _ _ | .register _ | .exit _ => false

/-- The frames of the collector and its workers. -/
def Frame.quiet : Frame → Bool
  | .pin _ | .mark _ => true
  | .ptr (.shade _ r) | .ptr (.record _ r) | .ptr (.push _ r) => r.isLink
  | .ptr _ => false
  | .help (.normalNext _ _) | .help (.normalPop _ _ _) | .help (.sweepObjs _ _ _ _ _) => false
  | .help _ => true

/-- The effects of such a frame: none on a root count, a slot or a batch of new objects. -/
def Eff.quiet : Eff → Bool
  | .setCount _ _ | .growHazards | .takeHid | .storeHazard _ _ | .clearHazard _ | .reclaim _
  | .newCell _ _ | .hold _ | .pushObj _ _ _ | .takeBatch _ _ | .steal _ _ => false
  | _ => true

theorem quiet_resume {r : ShadeRet} (h : r.isLink = true) : r.resume.all Frame.quiet = true := by
  cases r with
  | link o i p => rfl
  | _ => cases h

theorem quiet_shadeLink (s : St) (t : Lid) (o : Oid) (i : Nat) (p : ManPtr) :
    (shadeLink s t o i p).quiet = true := by
  unfold shadeLink
  repeat' split
  all_goals rfl

/-- Quiet frames push quiet frames, as long as the thread has not pinned a normal phase. -/
theorem exec_quiet {s : St} {t : Lid} {ch : Nat} {f : Frame} (hf : f.quiet = true)
    (hph : f = .help .help → (s.locals t).epoch.phase ≠ .N) :
    (exec s t ch f).1.quiet = true ∧ (exec s t ch f).2.all Frame.quiet = true := by
  cases f with
  | pin f => cases f <;> simp only [exec, execPin] <;> (repeat' split) <;> exact ⟨rfl, rfl⟩
  | ptr f =>
      cases f with
      | shade o r =>
          refine ⟨rfl, ?_⟩
          simp only [exec, execPtr]
          split
          · exact quiet_resume hf
          · simpa [Frame.quiet] using hf
      | record o r => exact ⟨rfl, by simpa [exec, execPtr, Frame.quiet] using hf⟩
      | push o r => exact ⟨rfl, quiet_resume hf⟩
      | _ => cases hf
  | mark f =>
      cases f <;> simp only [exec, execMark] <;> (repeat' split) <;>
        first | exact ⟨rfl, rfl⟩ | exact ⟨rfl, by simp [quiet_shadeLink]⟩
  | help f =>
      cases f with
      | help =>
          refine ⟨rfl, ?_⟩
          simp only [exec, execHelp]
          split
          · next h => exact absurd h (hph rfl)
          · rfl
      | normalNext | normalPop | sweepObjs => cases hf
      | _ =>
          simp only [exec, execHelp, scanObj, scanHazard, Scanner.next]
          repeat' split
          all_goals exact ⟨rfl, rfl⟩

/-- The stages at which neither the collector nor a worker has a call in progress. -/
def Stage.rests : Stage → Bool
  | .idle | .wait _ | .steal _ | .conf1 _ | .conf2 _ | .conf3 _ | .nextNormal | .joinSweep => true
  | _ => false

theorem collStep_rests {s : St} {ch : Nat} {e : Eff} {st : Stage} {fs : List Frame}
    (h : collStep s ch = some (e, st, fs)) (hst : st.rests = true) :
    fs = [] ∧ s.stage ≠ .joinScan := by
  unfold collStep at h
  simp only at h
  repeat' split at h
  all_goals first
    | (cases h; done)
    | (cases h; cases hst; done)
    | (cases h; simp_all)

/-- Nothing is in progress but the work of the collector. -/
structure Still (s : St) : Prop where
  quiet : ∀ {t f}, f ∈ (s.locals t).stack → f.quiet = true
  alone : ∀ {t}, t ≠ s.collector → (s.locals t).stack ≠ [] →
    ∃ f ∈ (s.locals t).stack, f.isExit = true
  rests : s.stage.rests = true → ∀ t, (s.locals t).stack = []

theorem Still.of_idle {s : St} (h : ∀ t, (s.locals t).stack = []) : Still s where
  quiet {t f} hf := by
    rw [h t] at hf
    cases hf
  alone {t} _ hne := absurd (h t) hne
  rests _ := h

/-- Whoever has a call in progress is the collector, or a worker it waits for. -/
theorem Still.unowned {s : St} (h : Still s) {t : Lid} (hne : (s.locals t).stack ≠ []) :
    s.unowned t := by
  by_cases ht : t = s.collector
  · exact .inr (.inl ht)
  · exact .inr (.inr (h.alone ht hne))

theorem Still.phase {s : St} (h : Still s) (hp : PinInv s) {t : Lid}
    (hne : (s.locals t).stack ≠ []) : s.waited ∧ s.epoch.phase ≠ .N := by
  have hr : s.stage.rests ≠ true := fun hr => hne (h.rests hr t)
  have hin := hp.phase
  unfold St.waited
  generalize s.stage = st at hr hin
  cases st with
  | idle | wait | steal | conf1 | conf2 | conf3 | nextNormal | joinSweep => exact absurd rfl hr
  | _ =>
      refine ⟨rfl, fun hN => ?_⟩
      rw [hN] at hin
      cases hin

/-- The threads that run have pinned the epoch of the cycle. -/
theorem Still.pinned {s : St} (h : Still s) (hp : PinInv s) {t : Lid}
    (hne : (s.locals t).stack ≠ []) (hd : (s.locals t).pinDone) :
    (s.locals t).epoch = s.epoch.pinned :=
  hp.epoch_of_waited (h.phase hp hne).1 hd

theorem Still.others {s : St} (h : Still s) (hc : SectInv s) (hst : s.stage ≠ .joinScan)
    {t : Lid} (ht : t ≠ s.collector) : (s.locals t).stack = [] := by
  by_contra hne
  obtain ⟨f, hf, hx⟩ := h.alone ht hne
  exact hst (hc.exit t f hf hx)

theorem quiet_of_starts {g : Frame} (h : g.starts = true) : g.quiet = true := by
  unfold Frame.starts at h
  split at h
  all_goals first | rfl | cases h

/-- A thread that helps here has pinned a trace. -/
theorem Still.helps {s : St} (h : Still s) (hg : Ground s) {t : Lid} {f : Frame}
    {rest : List Frame} (hst : (s.locals t).stack = f :: rest) (hf : f = .help .help) :
    (s.locals t).epoch.phase ≠ .N := by
  subst hf
  have hne : (s.locals t).stack ≠ [] := by simp [hst]
  rw [h.pinned hg.pin hne (hg.sect.head_phase hst rfl rfl).1]
  exact (h.phase hg.pin hne).2

/-- What a frame that runs in a still state does and leaves. -/
theorem Still.runs {s : St} (h : Still s) (hg : Ground s) {t : Lid} {f : Frame}
    {rest : List Frame} (hst : (s.locals t).stack = f :: rest) (ch : Nat) :
    (exec s t ch f).1.quiet = true ∧ (exec s t ch f).2.all Frame.quiet = true :=
  exec_quiet (h.quiet (hst ▸ List.mem_cons_self)) (h.helps hg hst)

theorem Still.quiet_step {s s' : St} {lab : Label} (h : Still s) (hg : Ground s)
    (hs : StepCase s lab s') (hl : lab.silent = true) {t : Lid} {g : Frame}
    (hmem : g ∈ (s'.locals t).stack) : g.quiet = true := by
  rcases frame_step hg.pin.str hs hmem with hmem | ⟨op, s₁, fs, rfl, -, -⟩ |
      ⟨ch, f, rest, -, hst, hmem⟩ | hstart
  · exact h.quiet hmem
  · cases hl
  · exact List.all_eq_true.1 (h.runs hg hst ch).2 g hmem
  · exact quiet_of_starts hstart

theorem Still.alone_step {s s' : St} {lab : Label} (h : Still s) (hp : PinStr s)
    (hs : StepCase s lab s') (hl : lab.silent = true) {t : Lid} (ht : t ≠ s'.collector)
    (hne : (s'.locals t).stack ≠ []) : ∃ f ∈ (s'.locals t).stack, f.isExit = true := by
  rw [(step_nLocals hs).2] at ht
  have hstep := stack_step hp hs t
  generalize (s'.locals t).stack = fs at hstep hne
  cases hstep with
  | same hl' => exact h.alone ht hne
  | op hl' => exact absurd hl (by simp [hl', Label.silent])
  | @run ch f rest hl' hlt hst =>
      obtain ⟨g, hg, hx⟩ := h.alone ht (by simp [hst])
      rw [hst] at hg
      rcases List.mem_cons.1 hg with rfl | hg
      · -- the last frame of a worker is the only one left
        have hexit := (hp.node t).exit
        rw [hst, exitOk, if_pos hx] at hexit
        obtain ⟨-, rfl⟩ := hexit
        cases g with
        | pin g =>
            cases g with
            | workerExit => exact absurd rfl hne
            | _ => cases hx
        | _ => cases hx
      · exact ⟨g, List.mem_append_right _ hg, hx⟩
  | coll hl' hcoll => exact absurd hcoll ht
  | worker => exact ⟨.pin .workerExit, by simp, rfl⟩

theorem Still.rests_step {s s' : St} {lab : Label} (h : Still s) (hg : Ground s)
    (hs : StepCase s lab s') (hl : lab.silent = true) (hr : s'.stage.rests = true) (t : Lid) :
    (s'.locals t).stack = [] := by
  have hstep := stack_step hg.pin.str hs t
  by_cases hcoll : lab.isColl = true
  · cases hs with
    | @coll ch e st fs hst hc =>
        obtain ⟨rfl, hjoin⟩ := collStep_rests hc hr
        by_cases ht : t = s.collector
        · subst ht
          rw [setStack_stack_self]
        · rw [setStack_stack_ne _ _ ht, withStage_locals, apply_stack]
          exact h.others hg.sect hjoin ht
    | _ => cases hcoll
  · have hstage := stage_of_not_coll hs (Bool.eq_false_iff.2 hcoll)
    rw [hstage] at hr
    have hall := h.rests hr
    generalize (s'.locals t).stack = fs at hstep
    cases hstep with
    | same => exact hall t
    | op hl' => exact absurd hl (by simp [hl', Label.silent])
    | run hl' hlt hst => exact absurd (hall t) (by simp [hst])
    | coll hl' => exact absurd (by simp [hl', Label.isColl]) hcoll
    | worker hl' hj hst =>
        have := hg.sect.jobs (by simp [hj])
        rw [this] at hr
        cases hr

theorem Still.step {s s' : St} {lab : Label} (h : Still s) (hg : Ground s)
    (hs : StepCase s lab s') (hl : lab.silent = true) : Still s' :=
  ⟨h.quiet_step hg hs hl, h.alone_step hg.pin.str hs hl, h.rests_step hg hs hl⟩

/-! ## What silent steps leave as it is -/

/-- `s'` has the heap, the cells and the hazard slots of `s`: colours may differ, in
objects and in links. -/
structure Untouched (s s' : St) : Prop where
  nextObj : s'.nextObj = s.nextObj
  cells : s'.cells = s.cells
  count : ∀ o < s.nextObj, s'.rootCount o = s.rootCount o
  arity : ∀ o < s.nextObj, (s'.objs o).arity = (s.objs o).arity
  addr : ∀ o < s.nextObj, ∀ i, ((s'.objs o).link i).addr = ((s.objs o).link i).addr
  slots : ∀ t k a, s'.slotHolds t k a ↔ s.slotHolds t k a
  arrays : ∀ {t ver a}, some a ∈ s'.hazardArray t ver → some a ∈ s.hazardArray t ver

theorem Untouched.refl (s : St) : Untouched s s :=
  ⟨rfl, rfl, fun _ _ => rfl, fun _ _ => rfl, fun _ _ _ => rfl, fun _ _ _ => .rfl, id⟩

theorem Untouched.trans {s s₁ s₂ : St} (h : Untouched s s₁) (h' : Untouched s₁ s₂) :
    Untouched s s₂ := by
  have hn := h.nextObj
  exact {
    nextObj := h'.nextObj.trans hn
    cells := h'.cells.trans h.cells
    count := fun o ho => (h'.count o (hn ▸ ho)).trans (h.count o ho)
    arity := fun o ho => (h'.arity o (hn ▸ ho)).trans (h.arity o ho)
    addr := fun o ho i => (h'.addr o (hn ▸ ho) i).trans (h.addr o ho i)
    slots := fun t k a => (h'.slots t k a).trans (h.slots t k a)
    arrays := fun ha => h.arrays (h'.arrays ha) }

theorem LinkWrite.of_quiet {s : St} {t : Lid} {ch : Nat} {l : Loc} {f : Frame} {p : ManPtr}
    (h : LinkWrite s t ch l f p) (hf : f.quiet = true) :
    ∃ o i, l = .field o i ∧ p = (s.link l).withMeta (.Unrooted (s.black t)) := by
  cases h with
  | rooted | unrooted | unroot => cases hf
  | @shade o i p hl hlink => exact ⟨o, i, hl, hlink ▸ rfl⟩

theorem Still.cells {s s' : St} {lab : Label} (h : Still s) (hg : Ground s)
    (hs : StepCase s lab s') (hl : lab.silent = true) : s'.cells = s.cells := by
  funext c
  cases hs with
  | op | register | exit => cases hl
  | @run t ch f rest ht hst =>
      have hf : f.quiet = true := h.quiet (hst ▸ List.mem_cons_self)
      have he := (h.runs hg hst ch).1
      rcases cell_apply (exec s t ch f).1 s t c with heq | ⟨x, p, -, hset, -⟩ | ⟨k, p, -, hnew, -⟩
      · exact heq
      · obtain ⟨o, i, hloc, -⟩ := (exec_setLink hset).of_quiet hf
        cases hloc
      · rw [hnew] at he
        cases he
  | @coll ch e st fs hst hcoll =>
      obtain ⟨hset, hnew, -⟩ := collStep_setLink hcoll
      rcases cell_apply e s s.collector c with heq | ⟨x, p, -, rfl, -⟩ | ⟨k, p, -, rfl, -⟩
      · exact heq
      · exact absurd rfl (hset _ _)
      · exact absurd rfl (hnew _ _)
  | @sweep k ch w hw =>
      obtain ⟨hset, hnew, -⟩ := sweepStep_setLink s w ch
      rcases cell_apply (sweepStep s w ch).1 s s.collector c with heq | ⟨x, p, -, he, -⟩ |
          ⟨k, p, -, he, -⟩
      · exact heq
      · exact absurd he (hset _ _)
      · exact absurd he (hnew _ _)
  | @startWorker t lo hi hz js hj hr hc =>
      show (s.register t).cells c = s.cells c
      rw [register_cells]

/-- Links change their colour only. -/
theorem Still.link {s s' : St} {lab : Label} (h : Still s) (hs : StepCase s lab s')
    (hl : lab.silent = true) (o : Oid) (i : Nat) :
    (s'.objs o).link i = (s.objs o).link i ∨
    ∃ t, (s.locals t).stack ≠ [] ∧
      (s'.objs o).link i = ((s.objs o).link i).withMeta (.Unrooted (s.black t)) := by
  rcases field_step hs o i with heq | ⟨t, ch, f, rest, -, hst, hw⟩ | ⟨cs, ⟨t, size, k, rfl⟩, -⟩
  · exact .inl heq
  · obtain ⟨o', i', -, hp⟩ := hw.of_quiet (h.quiet (hst ▸ List.mem_cons_self))
    exact .inr ⟨t, by simp [hst], hp⟩
  · cases hl

theorem Still.slotCases {s s' : St} {lab : Label} (h : Still s) (hg : Ground s)
    (hs : StepCase s lab s') (t : Lid) :
    ((s'.locals t).hazards = (s.locals t).hazards ∧
      (s'.locals t).oldHazards = (s.locals t).oldHazards) ∨
    ((s.locals t).isUsing = false ∧ (∀ h ∈ (s'.locals t).hazards, h = none) ∧
      (s'.locals t).oldHazards = []) := by
  rcases slots_cases hg.pin.str hs t with heq | hfresh | ⟨ch, f, rest, -, hst, hfree, -⟩
  · exact .inl heq
  · exact .inr hfresh
  · have he := (h.runs hg hst ch).1
    generalize (exec s t ch f).1 = e at he hfree
    cases e with
    | growHazards | storeHazard | clearHazard => cases he
    | _ => cases hfree

theorem Still.slots {s s' : St} {lab : Label} (h : Still s) (hg : Ground s) (hfree : FreeSlots s)
    (hs : StepCase s lab s') (hl : lab.silent = true) (t : Lid) (k : Nat) (a : Oid) :
    s'.slotHolds t k a ↔ s.slotHolds t k a := by
  by_cases hu : s.unowned t
  · have hno : ∀ {l : Local}, (∀ x ∈ l.hazards, x = none) → l.hazards[k]? ≠ some (some a) := by
      intro l hall hk
      cases hall _ (List.mem_of_getElem? hk)
    have hempty := hfree.empty hu
    refine ⟨fun ha => absurd ha.2 (hno ?_), fun ha => absurd ha.2 (hno hempty)⟩
    rcases h.slotCases hg hs t with ⟨hh, -⟩ | ⟨-, hh, -⟩
    · exact hh ▸ hempty
    · exact hh
  · have hst : (s.locals t).stack = [] := by
      by_contra hne
      exact hu (h.unowned hne)
    have hus : (s.locals t).isUsing = true := by
      cases hv : (s.locals t).isUsing with
      | true => rfl
      | false => exact absurd (.inl hv) hu
    have hh : (s'.locals t).hazards = (s.locals t).hazards := by
      rcases h.slotCases hg hs t with ⟨hh, -⟩ | ⟨hus', -⟩
      · exact hh
      · rw [hus] at hus'
        cases hus'
    have hus' : (s'.locals t).isUsing = (s.locals t).isUsing := by
      rcases using_cases hg.pin.str hs t with heq | ⟨hv, -⟩ | ⟨rfl, -⟩ | ⟨ch, f, rest, -, hst', -⟩
      · exact heq
      · rw [hus] at hv
        cases hv
      · cases hl
      · rw [hst] at hst'
        cases hst'
    rw [St.slotHolds, St.slotHolds, hh, hus']

theorem Still.arrays {s s' : St} {lab : Label} (h : Still s) (hg : Ground s)
    (hs : StepCase s lab s') {t : Lid} {ver : Nat} {a : Oid}
    (ha : some a ∈ s'.hazardArray t ver) : some a ∈ s.hazardArray t ver := by
  rcases h.slotCases hg hs t with ⟨hh, ho⟩ | ⟨-, hh, ho⟩
  · exact hazardArray_of_eq hh ho ver ▸ ha
  · unfold St.hazardArray at ha
    split at ha
    · cases hh _ ha
    · simp [ho] at ha

theorem Still.untouched {s s' : St} {lab : Label} (h : Still s) (hg : Ground s)
    (hfree : FreeSlots s) (hs : StepCase s lab s') (hl : lab.silent = true) : Untouched s s' where
  nextObj := by
    rcases nextObj_cases hs with ⟨heq, -⟩ | ⟨t, cs, size, k, rfl, -⟩
    · exact heq
    · cases hl
  cells := h.cells hg hs hl
  count o ho := by
    rcases count_step hs (Nat.ne_of_lt ho) with heq | ⟨t, ch, f, rest, n, -, hst, hset, -⟩
    · exact heq
    · have he := (h.runs hg hst ch).1
      rw [hset] at he
      cases he
  arity o ho := arity_step hs (Nat.ne_of_lt ho)
  addr o _ i := by
    rcases h.link hs hl o i with heq | ⟨t, -, heq⟩ <;> rw [heq]
    rfl
  slots := h.slots hg hfree hs hl
  arrays := h.arrays hg hs

end Cdpt
