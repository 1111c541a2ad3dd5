import Cdpt.Proofs.Marking

/-!
# One collection cycle

From an N epoch to the next: which epochs are stored in between, what the threads
that are still pinned in an earlier one mean by their colours, and which objects the
cycle is about.

Within a cycle, that is up to the store of the next N epoch, the colour of the
global epoch stays and the phase only moves on (`epoch_within`). So a run can be cut
at the N epochs, and an argument about one cycle may fix its white colour at the
beginning. The threads are another matter: in N some may still be pinned in the CT
before it, whose black is this cycle's white. `normal_pins` says which pins there
can be, and `normal_black` what one of them means when it marks: it marks for the
trace that is over.

An object is live when it exists and has not been reclaimed. A cycle is about the
objects that are live when it begins: reclaiming is for good (`reclaimed_step`), an
address is never handed out twice, and an object that is new has rooted links only
(`links_of_alloc`).
-/

namespace Cdpt

/-- A step that stores an epoch touches nothing else a mutator can see. -/
theorem epoch_cases {s s' : St} {lab : Label} (hs : StepCase s lab s') :
    s'.epoch = s.epoch ∨
    ((∃ ch, lab = .coll ch) ∧ s'.objs = s.objs ∧ s'.nextObj = s.nextObj ∧ s'.locals = s.locals ∧
      s.waited ∧
      ((s.stage = .idle ∧ s'.epoch = s.transEpoch .RT) ∨
       (s.stage = .complete ∧ s'.epoch = s.transEpoch .CT) ∨
       (s.stage = .nextNormal ∧ s'.epoch = s.normalEpoch))) := by
  cases hs with
  | @coll ch e st fs hst hcoll =>
      have hloc : ∀ u : St, u.locals = s.locals → fs = [] →
          (u.setStack s.collector fs).locals = s.locals := by
        rintro u hu rfl
        funext t
        rw [setStack_locals]
        split
        · next ht => rw [ht, hu, ← hst]
        · rw [hu]
      have hnil : s.stage = .idle ∨ s.stage = .complete ∨ s.stage = .nextNormal → fs = [] := by
        intro h
        unfold collStep at hcoll
        rcases h with h | h | h <;> rw [h] at hcoll <;> cases hcoll <;> rfl
      obtain ⟨-, ⟨h, rfl, rfl⟩ | ⟨h, rfl, rfl⟩ | ⟨h, ⟨ws, rfl⟩, rfl⟩ | ⟨he, -⟩⟩ :=
        collStep_cases hcoll
      · exact .inr ⟨⟨ch, rfl⟩, rfl, rfl, hloc _ rfl (hnil (.inl h)),
          by simp [St.waited, h, Stage.waiting], .inl ⟨h, rfl⟩⟩
      · exact .inr ⟨⟨ch, rfl⟩, rfl, rfl, hloc _ rfl (hnil (.inr (.inl h))),
          by simp [St.waited, h, Stage.waiting], .inr (.inl ⟨h, rfl⟩)⟩
      · exact .inr ⟨⟨ch, rfl⟩, rfl, rfl, hloc _ rfl (hnil (.inr (.inr h))),
          by simp [St.waited, h, Stage.waiting], .inr (.inr ⟨h, rfl⟩)⟩
      · exact .inl (apply_epoch he s _).1
  | @op t op s₁ fs ht hu hst hc hop => exact .inl (startOp_same hop).1.epoch
  | @run t ch f rest ht hst =>
      refine .inl ?_
      rcases exec_pinFree_or s t ch f with ⟨he, -⟩ | ⟨g, rfl⟩
      · exact (apply_epoch he s t).1
      · cases g <;> simp only [exec, execPin] <;> (repeat' split) <;> rfl
  | @sweep k ch w hw => exact .inl (apply_epoch (sweepStep_pinFree s w ch) s s.collector).1
  | @startWorker t lo hi hz js hj hr hc =>
      refine .inl ?_
      show (s.register t).epoch = s.epoch
      unfold St.register
      split <;> rfl
  | @register t hr hc =>
      refine .inl ?_
      unfold St.register
      split <;> rfl
  | exit ht hu hst hg hh hc => exact .inl rfl

def Label.isColl : Label → Bool
  | .coll _ => true
  | _ => false

theorem stage_of_not_coll {s s' : St} {lab : Label} (hs : StepCase s lab s')
    (hl : lab.isColl = false) : s'.stage = s.stage := by
  cases hs with
  | op ht hu hstk hc hop => exact (startOp_same hop).1.stage
  | run ht hstk => exact apply_stage ..
  | coll hstk hcoll => cases hl
  | sweep hw => exact apply_stage ..
  | startWorker hj hr hc => exact register_stage ..
  | register hr hc => exact register_stage ..
  | exit ht hu hstk hg hh hc => rfl

/-- The steps of one cycle: all but the store of the next N epoch. -/
def withinCycle (s : St) (lab : Label) : Prop := ¬ (s.stage = .nextNormal ∧ lab.isColl = true)

instance (s : St) (lab : Label) : Decidable (withinCycle s lab) :=
  inferInstanceAs (Decidable (¬ _))

/-- Within a cycle the colour stays, and N is left for good. -/
theorem epoch_within {s s' : St} {lab : Label} (hs : StepCase s lab s') (hw : withinCycle s lab) :
    s'.epoch.color = s.epoch.color ∧ (s.epoch.phase ≠ .N → s'.epoch.phase ≠ .N) := by
  rcases epoch_cases hs with he | ⟨⟨ch, rfl⟩, -, -, -, -, ⟨-, he⟩ | ⟨-, he⟩ | ⟨hst, -⟩⟩
  · rw [he]
    exact ⟨rfl, id⟩
  · rw [he]
    exact ⟨rfl, fun _ => by simp [St.transEpoch, Epoch.withPhase]⟩
  · rw [he]
    exact ⟨rfl, fun _ => by simp [St.transEpoch, Epoch.withPhase]⟩
  · exact absurd ⟨hst, rfl⟩ hw

/-- In N a thread is pinned in this N or in the CT before it. -/
theorem normal_pins {s : St} (h : PinInv s) (hN : s.epoch.phase = .N) {t : Lid}
    (hd : (s.locals t).pinDone) :
    ((s.locals t).epoch.phase = .N ∧ s.white t = s.epoch.color) ∨
    ((s.locals t).epoch.phase = .CT ∧ s.black t = s.epoch.color) := by
  obtain ⟨n, hn, he⟩ := h.pins t hd
  simp only [St.black, St.white, he]
  rcases hn with rfl | hn
  · rw [h.now]
    exact .inl ⟨hN, rfl⟩
  · have hnext := (h.next n (by omega)).2
    rw [hn, h.now] at hnext
    simp only [Epoch.pinned]
    cases hph : (s.past n).phase with
    | N =>
        simp only [hph, hN] at hnext
        cases hnext.1
    | RT =>
        simp only [hph, hN] at hnext
        cases hnext.1
    | CT =>
        simp only [hph] at hnext
        rcases hnext with ⟨h', -⟩ | ⟨-, hc⟩
        · rw [hN] at h'
          cases h'
        · exact .inr ⟨rfl, hc.symm⟩

theorem normal_allocColor {s : St} (h : PinInv s) (hN : s.epoch.phase = .N) {t : Lid}
    (hd : (s.locals t).pinDone) : s.allocColor t = s.epoch.color := by
  unfold St.allocColor
  rcases normal_pins h hN hd with ⟨hph, hc⟩ | ⟨hph, hc⟩
  · rw [hph]
    exact hc
  · rw [hph]
    exact hc

/-- Who marks in N marks for the trace before. -/
theorem normal_black {s : St} (h : Ground s) (hN : s.epoch.phase = .N) {t : Lid} {f : Frame}
    (hf : f ∈ (s.locals t).stack) (hph : f.inPhase .N = false) : s.black t = s.epoch.color := by
  obtain ⟨hd, hin⟩ := h.sect.mem_phase hf hph
  rcases normal_pins h.pin hN hd with ⟨hp, -⟩ | ⟨-, hc⟩
  · rw [hp, hph] at hin
    cases hin
  · exact hc

theorem startOp_marks {s s₁ : St} {t : Lid} {op : Op} {fs : List Frame} {g : Frame} {o : Oid}
    (h : startOp s t op = some (s₁, fs)) (hg : g ∈ fs) : ¬ g.marks o := by
  cases op <;> simp only [startOp] at h <;> (repeat' split at h) <;>
    first
    | (cases h; done)
    | (cases h; grind [dropFrames, Frame.marks])
    | (obtain ⟨o, ho, h⟩ := Option.map_eq_some_iff.1 h
       cases h
       grind [Frame.marks])

/-! ## Live objects -/

theorem reclaimed_apply (e : Eff) (s : St) (t : Lid) (o : Oid) :
    ((e.apply s t).objs o).reclaimed = (s.objs o).reclaimed ∨
    ((e.apply s t).objs o).reclaimed = true := by
  cases e with
  | reclaim p =>
      by_cases hp : o = p
      · subst hp
        exact .inr (by simp [Eff.apply, St.setObj])
      · exact .inl (by simp [Eff.apply, St.setObj, hp])
  | setLink l q =>
      cases l with
      | cell c => exact .inl rfl
      | field p i => exact .inl (by by_cases hp : o = p <;> simp [Eff.apply, St.setObj, hp])
  | setColor p c | setCount p c =>
      exact .inl (by by_cases hp : o = p <;> simp [Eff.apply, St.setObj, hp])
  | _ => exact .inl rfl

/-- What has been reclaimed stays so. -/
theorem reclaimed_step {s s' : St} {lab : Label} (hs : StepCase s lab s') {o : Oid}
    (ho : o ≠ s.nextObj) (h : (s'.objs o).reclaimed = false) : (s.objs o).reclaimed = false := by
  have happ : ∀ e t, ((Eff.apply s t e).objs o).reclaimed = false →
      (s.objs o).reclaimed = false := by
    intro e t h
    rcases reclaimed_apply e s t o with he | he
    · rw [← he, h]
    · rw [he] at h
      cases h
  cases hs with
  | @op t op s₁ fs ht hu hst hc hop =>
      rw [setStack_objs] at h
      rw [← h]
      cases op with
      | alloc cs size k =>
          obtain ⟨rfl, -⟩ := startOp_alloc hop
          simp [St.newObj, St.removeCells, ho]
      | _ =>
          simp only [startOp] at hop
          repeat' split at hop
          all_goals first
            | (cases hop; done)
            | (cases hop; rfl)
            | (obtain ⟨x, -, hop⟩ := Option.map_eq_some_iff.1 hop; cases hop; rfl)
  | run ht hst => exact happ _ _ h
  | coll hst hcoll => exact happ _ _ h
  | sweep hw => exact happ _ _ h
  | startWorker hj hr hc => simpa using h
  | register hr hc => simpa using h
  | exit ht hu hst hg hh hc => exact h

/-- The object exists and has not been reclaimed. -/
def St.Live (s : St) (o : Oid) : Prop := o < s.nextObj ∧ (s.objs o).reclaimed = false

theorem live_step {s s' : St} {lab : Label} (hs : StepCase s lab s') {o : Oid} (h : s'.Live o) :
    s.Live o ∨ ∃ t cs size k, lab = .op t (.alloc cs size k) ∧ o = s.nextObj := by
  rcases nextObj_cases hs with ⟨hn, -⟩ | ⟨t, cs, size, k, hl, hn⟩
  · have ho : o < s.nextObj := hn ▸ h.1
    exact .inl ⟨ho, reclaimed_step hs (Nat.ne_of_lt ho) h.2⟩
  · by_cases ho : o = s.nextObj
    · exact .inr ⟨t, cs, size, k, hl, ho⟩
    · have hle : o < s.nextObj + 1 := hn ▸ h.1
      have hlt : o < s.nextObj := Nat.lt_of_le_of_ne (Nat.le_of_lt_succ hle) ho
      exact .inl ⟨hlt, reclaimed_step hs ho h.2⟩

/-- The links of a new object are rooted. -/
theorem links_of_alloc {s s' : St} {t : Lid} {cs : List Cid} {size : Nat}
    {k : Option (PtrKind × Nat)} (h' : WellFormed s')
    (hs : StepCase s (.op t (.alloc cs size k)) s') {i : Nat}
    (hi : i < (s'.objs s.nextObj).arity) : ((s'.objs s.nextObj).link i).ptrMeta = .Rooted := by
  have hst : Frame.ptr (.unroot s.nextObj 0) ∈ (s'.locals t).stack := by
    cases hs with
    | op _ _ _ _ hop =>
        obtain ⟨-, rfl, -⟩ := startOp_alloc hop
        rw [setStack_stack_self]
        simp
  exact h'.links.ahead hst (.inl rfl) (Nat.zero_le i) hi

end Cdpt
