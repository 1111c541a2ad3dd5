import Cdpt.Proofs.Links

/-!
# Mark tasks

A task is pushed to the queue of the thread that shades, and leaves it for the stack
of whoever executes it: the owner of the queue, or the collector, which steals from
any queue and keeps what it does not execute at once.

What the rest needs is that no task is lost, and it is needed in one form only: a
task that is pending before a step is pending after it, in the same queue or in
another one, or has just become a frame of the thread that took the step
(`task_step`). A thread that leaves does not take its queue along, since the node
keeps it for the next one to register there, and the collector empties the queues of
nodes that nobody uses.

The proof looks at the three effects that touch a queue. A push only adds. A pop by
the owner removes the front and comes with the frame that executes it
(`exec_popTask`, `collStep_tasks`). A theft of a batch moves a prefix of a queue to
the collector's own, again with a frame for the first of them; how long the batch is
makes no difference.
-/

namespace Cdpt

theorem markTasks_apply (e : Eff) (s : St) (t i : Lid) :
    ((e.apply s t).locals i).markTasks = (s.locals i).markTasks ∨
    (∃ o, e = .pushTask o ∧ i = t ∧
      ((e.apply s t).locals i).markTasks = (s.locals i).markTasks ++ [o]) ∨
    (e = .popTask ∧ i = t ∧ ((e.apply s t).locals i).markTasks = (s.locals i).markTasks.tail) ∨
    ∃ j n, e = .steal j n ∧ (i = t ∨ i = j) := by
  cases e with
  | pushTask o =>
      by_cases hi : i = t
      · subst hi
        exact .inr (.inl ⟨o, rfl, rfl, by simp [Eff.apply]⟩)
      · exact .inl (by simp [Eff.apply, hi])
  | popTask =>
      by_cases hi : i = t
      · subst hi
        exact .inr (.inr (.inl ⟨rfl, rfl, by simp [Eff.apply]⟩))
      · exact .inl (by simp [Eff.apply, hi])
  | steal j n =>
      by_cases hi : i = t
      · exact .inr (.inr (.inr ⟨j, n, rfl, .inl hi⟩))
      · by_cases hj : i = j
        · exact .inr (.inr (.inr ⟨j, n, rfl, .inr hj⟩))
        · exact .inl (by simp [Eff.apply, hi, hj])
  | takeBatch j c => exact .inl (by by_cases hi : i = j <;> simp [Eff.apply, hi])
  | setLink l p => cases l <;> exact .inl rfl
  | nop | storeEpoch | setColor | setCount | newCell | pushFresh | popFresh | pushMarked
  | popMarked | addAllocated | addReclaimed | reclaim | spawn | spawnSweep | confirm =>
      exact .inl rfl
  | _ => exact .inl (by by_cases hi : i = t <;> simp [Eff.apply, hi])

theorem exec_pushTask {s : St} {t : Lid} {ch : Nat} {f : Frame} {o : Oid}
    (h : (exec s t ch f).1 = .pushTask o) : ∃ r, f = .ptr (.push o r) := by
  cases f with
  | pin f => cases f <;> simp only [exec, execPin] at h <;> (repeat' split at h) <;> cases h
  | ptr f =>
      cases f with
      | push o' r =>
          cases h
          exact ⟨r, rfl⟩
      | _ =>
          simp only [exec, execPtr] at h
          repeat' split at h
          all_goals cases h
  | mark f => cases f <;> simp only [exec, execMark] at h <;> (repeat' split at h) <;> cases h
  | help f => cases f <;> simp only [exec, execHelp] at h <;> (repeat' split at h) <;> cases h

/-- A helper takes a task from its own queue to execute it. -/
theorem exec_popTask {s : St} {t : Lid} {ch : Nat} {f : Frame}
    (h : (exec s t ch f).1 = .popTask) : ∃ n o q, f = .help (.drainPop n) ∧
      (s.locals t).markTasks = o :: q ∧
        (exec s t ch f).2 = [.mark (.task o), .help (.drain n)] := by
  cases f with
  | pin f => cases f <;> simp only [exec, execPin] at h <;> (repeat' split at h) <;> cases h
  | ptr f => cases f <;> simp only [exec, execPtr] at h <;> (repeat' split at h) <;> cases h
  | mark f => cases f <;> simp only [exec, execMark] at h <;> (repeat' split at h) <;> cases h
  | help f =>
      cases f with
      | drainPop n =>
          simp only [exec, execHelp] at h ⊢
          split at h
          · next o q hq =>
              rw [hq]
              exact ⟨n, o, q, rfl, rfl, rfl⟩
          · cases h
      | _ =>
          simp only [exec, execHelp] at h
          repeat' split at h
          all_goals cases h

theorem exec_steal {s : St} {t : Lid} {ch : Nat} {f : Frame} {j : Lid} {n : Nat} :
    (exec s t ch f).1 ≠ .steal j n := by
  intro h
  cases f with
  | pin f => cases f <;> simp only [exec, execPin] at h <;> (repeat' split at h) <;> cases h
  | ptr f => cases f <;> simp only [exec, execPtr] at h <;> (repeat' split at h) <;> cases h
  | mark f => cases f <;> simp only [exec, execMark] at h <;> (repeat' split at h) <;> cases h
  | help f => cases f <;> simp only [exec, execHelp] at h <;> (repeat' split at h) <;> cases h

/-- The collector pops or steals a task to execute it. -/
theorem collStep_tasks {s : St} {ch : Nat} {e : Eff} {st : Stage} {fs : List Frame}
    (h : collStep s ch = some (e, st, fs)) :
    (∀ o, e ≠ .pushTask o) ∧
    (e = .popTask → ∃ o q, (s.locals s.collector).markTasks = o :: q ∧ fs = [.mark (.task o)]) ∧
    ∀ j n, e = .steal j n → ∃ o q, (s.locals j).markTasks = o :: q ∧ fs = [.mark (.task o)] := by
  unfold collStep at h
  simp only at h
  repeat' split at h
  all_goals first
    | (cases h; done)
    | (cases h; simp; done)
    | (cases h
       simp only [ne_eq, reduceCtorEq, not_false_eq_true, implies_true, false_implies, true_and,
         and_true, List.cons.injEq, Frame.mark.injEq, MarkFrame.task.injEq]
       first
         | exact fun _ => ⟨_, _, by assumption, rfl⟩
         | (rintro j n ⟨⟩
            exact ⟨_, _, by assumption, rfl⟩))

theorem sweepStep_tasks (s : St) (w : Sweeper) (ch : Nat) :
    (∀ o, (sweepStep s w ch).1 ≠ .pushTask o) ∧ (sweepStep s w ch).1 ≠ .popTask ∧
    ∀ j n, (sweepStep s w ch).1 ≠ .steal j n := by
  unfold sweepStep
  repeat' split
  all_goals simp

theorem startOp_tasks {s s₁ : St} {t : Lid} {op : Op} {fs : List Frame}
    (h : startOp s t op = some (s₁, fs)) (i : Lid) :
    (s₁.locals i).markTasks = (s.locals i).markTasks := by
  cases op with
  | protectGuard hid =>
      simp only [startOp] at h
      split at h
      · obtain ⟨o, -, h⟩ := Option.map_eq_some_iff.1 h
        cases h
        by_cases hi : i = t <;> simp [Eff.apply, hi]
      · cases h
  | _ =>
      simp only [startOp] at h
      repeat' split at h
      all_goals first
        | (cases h; done)
        | (cases h; rfl)
        | (obtain ⟨o, -, h⟩ := Option.map_eq_some_iff.1 h; cases h; rfl)

/-- A step that takes a task from the queue of `i`, or leaves it. -/
theorem mem_tasks_apply {s : St} {e : Eff} {t i : Lid} {p : Oid}
    (hp : p ∈ (s.locals i).markTasks) :
    (∃ j, p ∈ ((e.apply s t).locals j).markTasks) ∨
    (e = .popTask ∧ ∃ q, (s.locals t).markTasks = p :: q) ∨
    ∃ j n, e = .steal j n ∧ ∃ q, (s.locals j).markTasks = p :: q := by
  rcases markTasks_apply e s t i with h | ⟨o, -, -, h⟩ | ⟨he, rfl, h⟩ | ⟨j, n, rfl, hi⟩
  · exact .inl ⟨i, h ▸ hp⟩
  · exact .inl ⟨i, by rw [h]; exact List.mem_append_left _ hp⟩
  · cases hq : (s.locals i).markTasks with
    | nil =>
        rw [hq] at hp
        cases hp
    | cons o q =>
        rw [hq, List.tail_cons] at h
        rw [hq, List.mem_cons] at hp
        rcases hp with rfl | hp
        · exact .inr (.inl ⟨he, q, rfl⟩)
        · exact .inl ⟨i, h ▸ hp⟩
  · -- the thief keeps all it takes but the first, which it executes
    have hself : ((Eff.apply s t (.steal j n)).locals t).markTasks =
        (if t = j then (s.locals j).markTasks.drop (n + 1) else (s.locals t).markTasks) ++
          ((s.locals j).markTasks.take (n + 1)).tail := by
      by_cases ht : t = j
      · subst ht
        simp [Eff.apply]
      · simp [Eff.apply, ht]
    by_cases hij : i = j
    · subst hij
      rw [← List.take_append_drop (n + 1) (s.locals i).markTasks, List.mem_append] at hp
      rcases hp with hp | hp
      · cases hq : (s.locals i).markTasks with
        | nil => simp [hq] at hp
        | cons o q =>
            rw [hq, List.take_succ_cons, List.mem_cons] at hp
            rcases hp with rfl | hp
            · exact .inr (.inr ⟨i, n, rfl, q, hq⟩)
            · refine .inl ⟨t, ?_⟩
              rw [hself, hq]
              exact List.mem_append_right _ hp
      · by_cases ht : t = i
        · refine .inl ⟨t, ?_⟩
          rw [hself, if_pos ht]
          exact List.mem_append_left _ hp
        · refine .inl ⟨i, ?_⟩
          have hne : i ≠ t := fun h => ht h.symm
          simpa [Eff.apply, hne] using hp
    · have hit : i = t := hi.resolve_right hij
      subst hit
      refine .inl ⟨i, ?_⟩
      rw [hself, if_neg hij]
      exact List.mem_append_left _ hp

theorem setStack_tasks (s : St) (t j : Lid) (fs : List Frame) :
    ((s.setStack t fs).locals j).markTasks = (s.locals j).markTasks := by
  rw [setStack_locals]
  split
  · next h => rw [h]
  · rfl

/-- Nodes beyond the list have no tasks. -/
def St.TasksLt (s : St) : Prop := ∀ i, s.nLocals ≤ i → (s.locals i).markTasks = []

/-- A pending task stays in a queue until it is executed. -/
theorem task_step {s s' : St} {lab : Label} (hlt : s.TasksLt) (hs : StepCase s lab s') {i : Lid}
    {p : Oid} (hp : p ∈ (s.locals i).markTasks) :
    (∃ j, p ∈ (s'.locals j).markTasks) ∨ ∃ t, .mark (.task p) ∈ (s'.locals t).stack := by
  have hreg : ∀ t, p ∈ ((s.register t).locals i).markTasks := by
    intro t
    by_cases hi : i = t
    · subst hi
      have hi : i < s.nLocals := by
        refine Nat.lt_of_not_le fun hle => ?_
        rw [hlt i hle] at hp
        cases hp
      simpa [St.register, hi] using hp
    · rw [register_ne s hi]
      exact hp
  cases hs with
  | op ht hu hst hc hop =>
      exact .inl ⟨i, by rw [setStack_tasks, startOp_tasks hop]; exact hp⟩
  | @run t ch f rest ht hst =>
      rcases mem_tasks_apply (e := (exec s t ch f).1) (t := t) hp with ⟨j, h⟩ | ⟨he, q, hq⟩ |
        ⟨j, n, he, -⟩
      · exact .inl ⟨j, by rw [setStack_tasks]; exact h⟩
      · obtain ⟨n, o, q', -, hq', hfs⟩ := exec_popTask he
        rw [hq] at hq'
        cases hq'
        exact .inr ⟨t, by rw [setStack_stack_self, hfs]; simp⟩
      · exact absurd he exec_steal
  | @coll ch e st fs hst hcoll =>
      obtain ⟨-, hpop, hsteal⟩ := collStep_tasks hcoll
      rcases mem_tasks_apply (e := e) (t := s.collector) hp with ⟨j, h⟩ | ⟨he, q, hq⟩ |
        ⟨j, n, he, q, hq⟩
      · exact .inl ⟨j, by rw [setStack_tasks]; exact h⟩
      · obtain ⟨o, q', hq', rfl⟩ := hpop he
        rw [hq] at hq'
        cases hq'
        exact .inr ⟨s.collector, by simp⟩
      · obtain ⟨o, q', hq', rfl⟩ := hsteal j n he
        rw [hq] at hq'
        cases hq'
        exact .inr ⟨s.collector, by simp⟩
  | @sweep k ch w hw =>
      obtain ⟨-, hpop, hsteal⟩ := sweepStep_tasks s w ch
      rcases mem_tasks_apply (e := (sweepStep s w ch).1) (t := s.collector) hp with ⟨j, h⟩ |
        ⟨he, -⟩ | ⟨j, n, he, -⟩
      · exact .inl ⟨j, h⟩
      · exact absurd he hpop
      · exact absurd he (hsteal j n)
  | startWorker hj hr hc => exact .inl ⟨i, by rw [setStack_tasks]; exact hreg _⟩
  | register hr hc => exact .inl ⟨i, hreg _⟩
  | @exit t ht hu hst hg hh hc =>
      refine .inl ⟨i, ?_⟩
      simp only [setLocal_locals]
      split
      · next h => exact h ▸ hp
      · exact hp

theorem tasksLt_step {s s' : St} {lab : Label} (h : s.TasksLt) (hp : PinStr s)
    (hs : StepCase s lab s') : s'.TasksLt := by
  intro i hi
  have hle := (step_nLocals hs).1
  have h0 := h i (Nat.le_trans hle hi)
  have happ : ∀ {e : Eff} {t : Lid}, t < s.nLocals →
      (∀ j n, e = .steal j n → (s.locals j).markTasks ≠ []) →
      ((e.apply s t).locals i).markTasks = [] := by
    intro e t ht hsteal
    rcases markTasks_apply e s t i with h | ⟨o, -, rfl, -⟩ | ⟨-, rfl, -⟩ | ⟨j, n, rfl, hi'⟩
    · rw [h, h0]
    · exact absurd ht (Nat.not_lt_of_le (Nat.le_trans hle hi))
    · exact absurd ht (Nat.not_lt_of_le (Nat.le_trans hle hi))
    · rcases hi' with rfl | rfl
      · exact absurd ht (Nat.not_lt_of_le (Nat.le_trans hle hi))
      · exact absurd h0 (hsteal _ n rfl)
  have hcoll : s.collector < s.nLocals := by
    refine Nat.lt_of_not_le fun hle => ?_
    have := hp.coll
    rw [hp.beyond _ hle] at this
    cases this
  have hreg : ∀ t, s.canRegister t → t ≠ i → ((s.register t).locals i).markTasks = [] := by
    intro t _ hne
    rw [register_ne s hne.symm]
    exact h0
  cases hs with
  | op ht hu hst hc hop => rw [setStack_tasks, startOp_tasks hop, h0]
  | run ht hst =>
      rw [setStack_tasks]
      exact happ ht fun j n he => absurd he exec_steal
  | @coll ch e st fs hst hc =>
      rw [setStack_tasks]
      refine happ hcoll fun j n he hj => ?_
      obtain ⟨o, q, hq, -⟩ := (collStep_tasks hc).2.2 j n he
      rw [hj] at hq
      cases hq
  | @sweep k ch w hw => exact happ hcoll fun j n he => absurd he ((sweepStep_tasks s w ch).2.2 j n)
  | @startWorker t lo hi' hz js hj hr hc =>
      rw [setStack_tasks]
      exact hreg t hr fun he => Nat.not_lt_of_le hi (he ▸ register_lt hr)
  | @register t hr hc => exact hreg t hr fun he => Nat.not_lt_of_le hi (he ▸ register_lt hr)
  | @exit t ht hu hst hg hh hc =>
      simp only [setLocal_locals]
      split
      · next he => exact he ▸ h0
      · exact h0

end Cdpt
