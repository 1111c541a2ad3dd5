import Cdpt.Proofs.RootCount

/-!
# Objects the collector cannot miss

The target of a black link is black, on its way to being marked, or held by a root
count. `Safe` is that disjunction, and it survives every step of a trace: the end of
each alternative is the beginning of another. A mark that ends leaves a black
header, a count that drops to zero starts a deletion barrier, and a barrier that
ends leaves a mark task.

Which colour is black is itself not obvious, because every thread reads it from its
own pinned epoch. While a trace is on, the pins are close enough together that all
of them mean the same (`black_of_pinDone`): RT and CT of one cycle have one colour,
and a pin left over from the N before has been waited for.

The stability of the alternatives is shown one by one. A black header stays black
(`color_stable`), as whoever marks in this trace marks black. A task stays pending
until somebody executes it (`Tasks`), and its execution is a frame that stays on its
stack until the header is stored (`exec_marks`). A positive count stays positive or
is taken to zero by a step that pushes the barrier's frame (`exec_setCount`), and
that frame stays until the task is pushed (`exec_rcBarrier`). The invariant of a
trace, in `TriColor`, is stated with `Safe` as a whole.
-/

namespace Cdpt

/-- The colour of a marked object while a trace is on. -/
def St.blackColor (s : St) : Color := s.epoch.color.flip

/-- While a trace is on, every pinned thread means the same colour by black. -/
theorem black_of_pinDone {s : St} (h : PinInv s) (hN : s.epoch.phase ≠ .N) {t : Lid}
    (hd : (s.locals t).pinDone) : s.black t = s.blackColor := by
  obtain ⟨n, hn, he⟩ := h.pins t hd
  simp only [St.black, St.white, St.blackColor, Color.flip_inj, he]
  rcases hn with rfl | hn
  · rw [h.now]
    rfl
  · have hnext := (h.next n (by omega)).2
    rw [hn, h.now] at hnext
    simp only [Epoch.pinned]
    cases hph : (s.past n).phase with
    | N => simp only [hph] at hnext; exact hnext.2.symm
    | RT => simp only [hph] at hnext; exact hnext.2.symm
    | CT =>
        simp only [hph] at hnext
        exact (hnext.resolve_right fun h => hN h.1).2.symm

/-! ## Objects that are being marked -/

def ShadeRet.marks (o : Oid) : ShadeRet → Prop
  | .link p _ _ => p = o
  | _ => False

/-- The frame belongs to the execution of `ManObj::mark` on `o`. -/
def Frame.marks (o : Oid) : Frame → Prop
  | .mark (.task p) | .mark (.links p _) | .mark (.linkCas p _ _) | .mark (.header p)
  | .mark (.headerCas p _) => p = o
  | .ptr (.shade _ r) | .ptr (.record _ r) | .ptr (.push _ r) | .ptr (.rcPhase _ r) => r.marks o
  | _ => False

def ShadeRet.isRc : ShadeRet → Bool
  | .rooted _ | .dropped | .unroot _ _ _ => true
  | _ => false

/-- The root count of `o` has dropped to zero and its deletion barrier is not over. -/
def Frame.rcBarrier (o : Oid) : Frame → Prop
  | .ptr (.shade p r) | .ptr (.record p r) | .ptr (.push p r) | .ptr (.rcPhase p r) =>
      r.isRc = true ∧ p = o
  | _ => False

/-- `o` has a mark task, pending or executing. -/
def St.Marking (s : St) (o : Oid) : Prop :=
  (∃ t, o ∈ (s.locals t).markTasks) ∨ ∃ t, ∃ f ∈ (s.locals t).stack, f.marks o

/-- What the target of a black link may be. -/
def St.Safe (s : St) (b : Color) (o : Oid) : Prop :=
  s.color o = b ∨ s.Marking o ∨ 0 < s.rootCount o ∨
    ∃ t, ∃ f ∈ (s.locals t).stack, f.rcBarrier o

theorem marks_resume {r : ShadeRet} {o : Oid} (h : r.marks o) : ∃ g ∈ r.resume, g.marks o := by
  cases r with
  | link p i ptr => exact ⟨_, List.mem_singleton_self _, h⟩
  | _ => cases h

theorem marks_shadeLink (s : St) (t : Lid) (o : Oid) (i : Nat) (p : ManPtr) :
    (shadeLink s t o i p).marks o := by
  unfold shadeLink
  repeat' split
  all_goals rfl

/-- The marking of an object goes on until its header is black. -/
theorem exec_marks (s : St) (t : Lid) (ch : Nat) {f : Frame} {o : Oid} (h : f.marks o) :
    (∃ g ∈ (exec s t ch f).2, g.marks o) ∨ s.color o = s.black t ∨
    (exec s t ch f).1 = .setColor o (s.black t) := by
  unfold Frame.marks at h
  split at h
  · subst h
    simp only [exec, execMark]
    split
    · next hc => exact .inr (.inl hc)
    · exact .inl ⟨_, List.mem_singleton_self _, rfl⟩
  · subst h
    simp only [exec, execMark]
    split
    · exact .inl ⟨_, List.mem_singleton_self _, marks_shadeLink ..⟩
    · exact .inl ⟨_, List.mem_singleton_self _, rfl⟩
  · subst h
    simp only [exec, execMark]
    split
    · exact .inl ⟨_, List.mem_singleton_self _, rfl⟩
    · exact .inl ⟨_, List.mem_singleton_self _, marks_shadeLink ..⟩
  · subst h
    simp only [exec, execMark]
    split
    · next hc => exact .inr (.inl hc)
    · exact .inl ⟨_, List.mem_singleton_self _, rfl⟩
  · subst h
    simp only [exec, execMark]
    split
    · exact .inr (.inr rfl)
    · split
      · next hc => exact .inr (.inl hc)
      · exact .inl ⟨_, List.mem_singleton_self _, rfl⟩
  · simp only [exec, execPtr]
    split
    · exact .inl (marks_resume h)
    · exact .inl ⟨_, List.mem_singleton_self _, h⟩
  · exact .inl ⟨_, List.mem_singleton_self _, h⟩
  · exact .inl (marks_resume h)
  · simp only [exec, execPtr]
    split
    · exact .inl (marks_resume h)
    · exact .inl ⟨_, List.mem_singleton_self _, h⟩
  · cases h

/-- So does a deletion barrier until the object has a task. -/
theorem exec_rcBarrier {s : St} {t : Lid} {f : Frame} {o : Oid} (ch : Nat)
    (hN : s.epoch.phase ≠ .N) (h : f.rcBarrier o) :
    (∃ g ∈ (exec s t ch f).2, g.rcBarrier o) ∨ s.color o = s.black t ∨
    (exec s t ch f).1 = .pushTask o := by
  unfold Frame.rcBarrier at h
  split at h
  · obtain ⟨hr, rfl⟩ := h
    simp only [exec, execPtr]
    split
    · next hc => exact .inr (.inl hc)
    · exact .inl ⟨_, List.mem_singleton_self _, hr, rfl⟩
  · obtain ⟨hr, rfl⟩ := h
    exact .inl ⟨_, List.mem_singleton_self _, hr, rfl⟩
  · obtain ⟨hr, rfl⟩ := h
    exact .inr (.inr rfl)
  · obtain ⟨hr, rfl⟩ := h
    simp only [exec, execPtr, if_neg hN]
    exact .inl ⟨_, List.mem_singleton_self _, hr, rfl⟩
  · cases h

/-- A count that drops to zero starts a barrier. -/
theorem exec_setCount {s : St} {t : Lid} {ch : Nat} {f : Frame} {o : Oid} {n : Nat}
    (h : (exec s t ch f).1 = .setCount o n) :
    n = s.rootCount o + 1 ∨
    (n = s.rootCount o - 1 ∧ (s.rootCount o = 1 → ∃ g ∈ (exec s t ch f).2, g.rcBarrier o)) := by
  cases f with
  | pin f => cases f <;> simp only [exec, execPin] at h <;> (repeat' split at h) <;> cases h
  | ptr f =>
      cases f with
      | incNew l old new k =>
          simp only [exec, execPtr] at h
          split at h
          · cases h
            exact .inl rfl
          · cases h
      | inc p tag k =>
          cases h
          exact .inl rfl
      | rootedDec old =>
          simp only [exec, execPtr] at h ⊢
          split at h
          · cases h
            refine .inr ⟨rfl, fun h1 => ?_⟩
            simp only [if_pos h1]
            exact ⟨_, List.mem_singleton_self _, rfl, rfl⟩
          · cases h
      | dropDec p =>
          cases h
          refine .inr ⟨rfl, fun h1 => ?_⟩
          simp only [exec, execPtr, if_pos h1]
          exact ⟨_, List.mem_singleton_self _, rfl, rfl⟩
      | unroot p i =>
          simp only [exec, execPtr] at h ⊢
          split at h
          · next hi =>
            split at h
            · cases h
              refine .inr ⟨rfl, fun h1 => ?_⟩
              simp only [if_pos hi, if_pos h1]
              exact ⟨_, List.mem_singleton_self _, rfl, rfl⟩
            · cases h
          · cases h
      | _ =>
          simp only [exec, execPtr] at h
          repeat' split at h
          all_goals cases h
  | mark f => cases f <;> simp only [exec, execMark] at h <;> (repeat' split at h) <;> cases h
  | help f => cases f <;> simp only [exec, execHelp] at h <;> (repeat' split at h) <;> cases h

/-! ## What a step keeps -/

/-- Root counts change by the accesses that move them. -/
theorem count_step {s s' : St} {lab : Label} (hs : StepCase s lab s') {o : Oid}
    (ho : o ≠ s.nextObj) :
    s'.rootCount o = s.rootCount o ∨
    ∃ t ch f rest n, lab = .run t ch ∧ (s.locals t).stack = f :: rest ∧
      (exec s t ch f).1 = .setCount o n ∧ s'.rootCount o = n := by
  cases hs with
  | @op t op s₁ fs ht hu hst hc hop =>
      refine .inl ?_
      show s₁.rootCount o = s.rootCount o
      cases op with
      | alloc cs size k =>
          obtain ⟨rfl, -⟩ := startOp_alloc hop
          simp [St.rootCount, St.newObj, St.removeCells, ho]
      | _ =>
          simp only [startOp] at hop
          repeat' split at hop
          all_goals first
            | (cases hop; done)
            | (cases hop; rfl)
            | (obtain ⟨x, -, hop⟩ := Option.map_eq_some_iff.1 hop; cases hop; rfl)
  | @run t ch f rest ht hst =>
      rcases rootCount_apply (exec s t ch f).1 s t o with h | ⟨n, he, h⟩
      · exact .inl h
      · exact .inr ⟨t, ch, f, rest, n, rfl, hst, he, h⟩
  | @coll ch e st fs hst hcoll =>
      exact .inl (rootCount_other s s.collector e o ((collStep_setLink hcoll).2.2 o))
  | @sweep k ch w hw =>
      exact .inl (rootCount_other s s.collector _ o ((sweepStep_setLink s w ch).2.2 o))
  | startWorker hj hr hc => exact .inl (rootCount_of_objs (by simp) o)
  | register hr hc => exact .inl (rootCount_of_objs (by simp) o)
  | exit ht hu hst hg hh hc => exact .inl rfl

/-- A frame that leaves its stack has been executed. -/
theorem frame_keep {s s' : St} {lab : Label} (hp : PinStr s) (hs : StepCase s lab s') {t : Lid}
    {f : Frame} (hf : f ∈ (s.locals t).stack) :
    f ∈ (s'.locals t).stack ∨
    ∃ ch rest, lab = .run t ch ∧ (s.locals t).stack = f :: rest ∧
      s' = ((exec s t ch f).1.apply s t).setStack t ((exec s t ch f).2 ++ rest) ∧
      ∀ g ∈ (exec s t ch f).2, g ∈ (s'.locals t).stack := by
  have h := stack_step hp hs t
  generalize hfs : (s'.locals t).stack = fs at h
  cases h with
  | same _ => exact .inl hf
  | op _ _ hst _ | coll _ _ hst _ | worker _ _ hst =>
      rw [hst] at hf
      cases hf
  | @run ch g rest hl _ hst =>
      rw [hst, List.mem_cons] at hf
      rcases hf with rfl | hf
      · refine .inr ⟨ch, rest, hl, hst, ?_, fun g hg => List.mem_append_left _ hg⟩
        subst hl
        cases hs with
        | run _ hst' =>
            rw [hst] at hst'
            cases hst'
            rfl
      · exact .inl (List.mem_append_right _ hf)

theorem marks_phase {f : Frame} {o : Oid} (h : f.marks o) : f.inPhase .N = false := by
  unfold Frame.marks at h
  split at h
  all_goals first
    | rfl
    | cases h
    | (next r => cases r <;> first | rfl | cases h)

theorem marks_guarded {f : Frame} {o : Oid} (h : f.marks o) :
    f.pinning = false ∧ f.guarded = true := by
  unfold Frame.marks at h
  split at h
  all_goals first
    | exact ⟨rfl, rfl⟩
    | cases h

theorem rcBarrier_guarded {f : Frame} {o : Oid} (h : f.rcBarrier o) :
    f.pinning = false ∧ f.guarded = true := by
  unfold Frame.rcBarrier at h
  split at h
  all_goals first
    | exact ⟨rfl, rfl⟩
    | cases h

section Trace

variable {s s' : St} {lab : Label} (h : WellFormed s) (hN : s.epoch.phase ≠ .N)
  (hs : StepCase s lab s')

include h hN

/-- A thread that runs a frame of a critical section means the black of the trace. -/
theorem black_of_head {t : Lid} {f : Frame} {rest : List Frame}
    (hst : (s.locals t).stack = f :: rest) (hf : f.pinning = false ∧ f.guarded = true) :
    s.black t = s.blackColor :=
  black_of_pinDone h.ground.pin hN (h.ground.sect.head_phase hst hf.1 hf.2).1

include hs

/-- A black header stays black. -/
theorem color_stable {o : Oid} (ho : o < s.nextObj) (hc : s.color o = s.blackColor) :
    s'.color o = s.blackColor := by
  rcases color_step hs o with he | ⟨t, cs, size, k, -, rfl, -⟩ | ⟨t, ch, hd, rest, -, hst, -, he⟩
  · rw [he, hc]
  · exact absurd ho (Nat.lt_irrefl _)
  · rw [he, black_of_head h hN hst ⟨rfl, rfl⟩]

theorem marking_step {o : Oid} (ho : o < s.nextObj) (hm : s.Marking o) :
    s'.Marking o ∨ s'.color o = s.blackColor := by
  rcases hm with ⟨t, ht⟩ | ⟨t, f, hf, hm⟩
  · rcases task_step h.tasks hs ht with ⟨j, hj⟩ | ⟨j, hj⟩
    · exact .inl (.inl ⟨j, hj⟩)
    · exact .inl (.inr ⟨j, _, hj, rfl⟩)
  · rcases frame_keep h.ground.pin.str hs hf with hf' | ⟨ch, rest, hl, hst, rfl, hnew⟩
    · exact .inl (.inr ⟨t, f, hf', hm⟩)
    · have hb := black_of_head h hN hst (marks_guarded hm)
      rcases exec_marks s t ch hm with ⟨g, hg, hgm⟩ | hc | he
      · exact .inl (.inr ⟨t, g, hnew g hg, hgm⟩)
      · exact .inr (color_stable h hN hs ho (hc.trans hb))
      · refine .inr ?_
        rw [he, hb]
        simp [Eff.apply, St.setObj, St.color]

theorem safe_step {o : Oid} (ho : o < s.nextObj) (hsafe : s.Safe s.blackColor o) :
    s'.Safe s.blackColor o := by
  rcases hsafe with hc | hm | hcnt | ⟨t, f, hf, hb⟩
  · exact .inl (color_stable h hN hs ho hc)
  · rcases marking_step h hN hs ho hm with hm | hc
    · exact .inr (.inl hm)
    · exact .inl hc
  · rcases count_step hs (Nat.ne_of_lt ho) with he | ⟨t, ch, f, rest, n, rfl, hst, he, hn⟩
    · exact .inr (.inr (.inl (he ▸ hcnt)))
    · rcases exec_setCount he with rfl | ⟨rfl, hzero⟩
      · exact .inr (.inr (.inl (hn ▸ Nat.succ_pos _)))
      · by_cases h1 : s.rootCount o = 1
        · obtain ⟨g, hg, hgb⟩ := hzero h1
          refine .inr (.inr (.inr ⟨t, g, ?_, hgb⟩))
          cases hs with
          | run _ hst' =>
              rw [hst] at hst'
              cases hst'
              rw [setStack_stack_self]
              exact List.mem_append_left _ hg
        · exact .inr (.inr (.inl (by omega)))
  · rcases frame_keep h.ground.pin.str hs hf with hf' | ⟨ch, rest, hl, hst, hs', hnew⟩
    · exact .inr (.inr (.inr ⟨t, f, hf', hb⟩))
    · rcases exec_rcBarrier ch hN hb with ⟨g, hg, hgb⟩ | hc | he
      · exact .inr (.inr (.inr ⟨t, g, hnew g hg, hgb⟩))
      · exact .inl (color_stable h hN hs ho
          (hc.trans (black_of_head h hN hst (rcBarrier_guarded hb))))
      · refine .inr (.inl (.inl ⟨t, ?_⟩))
        rw [hs', setStack_tasks, he]
        simp [Eff.apply]

end Trace

end Cdpt
