import Cdpt.Model.Machine

/-!
# Reading a step

Everything the later proofs need to know about `step` without unfolding it:
the inversion of a step by the kind of its label, and, for each component of
the state, which effects touch it. No effect moves a stack, so a step changes
the stack of the thread that takes it and no other.

`StepCase` has one constructor for each kind of label, and each says all that
such a step does: the guards it has passed, and the state it leaves as the old
one under an effect, a new stack, a new stage or a new list of workers. An
invariant is then proved by cases on it, and the four kinds that are about a
frame (an operation, a step of a thread, of the collector, of a sweeper) come
down to one effect each, so that what is left is to look at the effects.

For those the lemmas of the last section are enough. They are stated by
component: what a component is after an effect is what it was, save for the one
or two effects that name it. A property that reads three fields of a node
(`Local.pinView`, for one) needs no more than the lemmas for these three.
-/

namespace Cdpt

def St.withStage (s : St) (st : Stage) : St := { s with stage := st }

def St.withSweepers (s : St) (ws : List Sweeper) : St := { s with sweepers := ws }

def St.withJobs (s : St) (js : List (Nat × Nat × List Oid)) : St := { s with jobs := js }

/-- A step, by the kind of its label. -/
inductive StepCase (s : St) : Label → St → Prop
  | op {t : Lid} {o : Op} {s₁ : St} {fs : List Frame} (ht : t < s.nLocals)
      (hu : (s.locals t).isUsing = true) (hst : (s.locals t).stack = [])
      (hc : t ≠ s.collector) (h : startOp s t o = some (s₁, fs)) :
      StepCase s (.op t o) (s₁.setStack t fs)
  | run {t : Lid} {ch : Nat} {f : Frame} {rest : List Frame} (ht : t < s.nLocals)
      (hst : (s.locals t).stack = f :: rest) :
      StepCase s (.run t ch)
        (((exec s t ch f).1.apply s t).setStack t ((exec s t ch f).2 ++ rest))
  | coll {ch : Nat} {e : Eff} {st : Stage} {fs : List Frame}
      (hst : (s.locals s.collector).stack = []) (h : collStep s ch = some (e, st, fs)) :
      StepCase s (.coll ch) (((e.apply s s.collector).withStage st).setStack s.collector fs)
  | sweep {k ch : Nat} {w : Sweeper} (h : s.sweepers[k]? = some w) :
      StepCase s (.sweep k ch) (((sweepStep s w ch).1.apply s s.collector).withSweepers
        (match (sweepStep s w ch).2 with
          | some w' => s.sweepers.set k w'
          | none => s.sweepers.eraseIdx k))
  | startWorker {t : Lid} {lo hi : Nat} {hs : List Oid} {js : List (Nat × Nat × List Oid)}
      (hj : s.jobs = (lo, hi, hs) :: js) (hr : s.canRegister t) (hc : t ≠ s.collector) :
      StepCase s (.startWorker t) (((s.register t).withJobs js).setStack t
        [.pin .pin, .help (.scanPop (.worker lo hi hs)), .pin .helpIf, .pin .unpin,
          .pin .workerExit])
  | register {t : Lid} (hr : s.canRegister t) (hc : t ≠ s.collector) :
      StepCase s (.register t) (s.register t)
  | exit {t : Lid} (ht : t < s.nLocals) (hu : (s.locals t).isUsing = true)
      (hst : (s.locals t).stack = []) (hg : (s.locals t).guardCount = 0)
      (hh : ∀ h ∈ (s.locals t).hazards, h = none) (hc : t ≠ s.collector) :
      StepCase s (.exit t) (s.setLocal t { s.locals t with isUsing := false })

theorem stepCase {s s' : St} {l : Label} (h : step s l = some s') : StepCase s l s' := by
  cases l with
  | op t o =>
      simp only [step] at h
      split at h
      · next hc =>
          obtain ⟨⟨s₁, fs⟩, hs, rfl⟩ := Option.map_eq_some_iff.1 h
          exact .op hc.1 hc.2.1 hc.2.2.1 hc.2.2.2 hs
      · cases h
  | run t ch =>
      simp only [step] at h
      split at h
      · next ht =>
          split at h
          · next f rest hst =>
              cases h
              exact .run ht hst
          · cases h
      · cases h
  | coll ch =>
      simp only [step] at h
      split at h
      · next hst =>
          obtain ⟨⟨e, st, fs⟩, hs, rfl⟩ := Option.map_eq_some_iff.1 h
          exact .coll hst hs
      · cases h
  | sweep k ch =>
      simp only [step] at h
      split at h
      · next w hw =>
          cases h
          exact .sweep hw
      · cases h
  | startWorker t =>
      simp only [step] at h
      split at h
      · next lo hi hs js hj =>
          split at h
          · next hc =>
              cases h
              exact .startWorker hj hc.1 hc.2
          · cases h
      · cases h
  | register t =>
      simp only [step] at h
      split at h
      · next hc =>
          cases h
          exact .register hc.1 hc.2
      · cases h
  | exit t =>
      simp only [step] at h
      split at h
      · next hc =>
          cases h
          exact .exit hc.1 hc.2.1 hc.2.2.1 hc.2.2.2.1 hc.2.2.2.2.1 hc.2.2.2.2.2
      · cases h

/-! ## Updates of one node -/

@[simp] theorem setLocal_locals (s : St) (t i : Lid) (l : Local) :
    (s.setLocal t l).locals i = if i = t then l else s.locals i := by
  simp [St.setLocal, Function.update_apply]

theorem setStack_locals (s : St) (t i : Lid) (fs : List Frame) :
    (s.setStack t fs).locals i = if i = t then { s.locals t with stack := fs } else s.locals i := by
  simp [St.setStack]

@[simp] theorem setStack_stack_self (s : St) (t : Lid) (fs : List Frame) :
    ((s.setStack t fs).locals t).stack = fs := by
  simp [St.setStack]

theorem setStack_stack_ne (s : St) {t i : Lid} (fs : List Frame) (h : i ≠ t) :
    (s.setStack t fs).locals i = s.locals i := by
  simp [St.setStack, h]

/-! ## No effect moves a stack -/

@[simp] theorem apply_stack (e : Eff) (s : St) (t i : Lid) :
    ((e.apply s t).locals i).stack = (s.locals i).stack := by
  cases e with
  | setLink l p => cases l <;> simp [Eff.apply, St.setObj]
  | steal j n =>
      simp only [Eff.apply, setLocal_locals]
      split <;> split <;> simp_all
  | _ =>
      simp only [Eff.apply, St.setObj, setLocal_locals]
      try (split <;> simp_all)

@[simp] theorem apply_collector (e : Eff) (s : St) (t : Lid) :
    (e.apply s t).collector = s.collector := by
  cases e with
  | setLink l p => cases l <;> rfl
  | _ => rfl

@[simp] theorem apply_stage (e : Eff) (s : St) (t : Lid) : (e.apply s t).stage = s.stage := by
  cases e with
  | setLink l p => cases l <;> rfl
  | _ => rfl

@[simp] theorem apply_nLocals (e : Eff) (s : St) (t : Lid) :
    (e.apply s t).nLocals = s.nLocals := by
  cases e with
  | setLink l p => cases l <;> rfl
  | _ => rfl

@[simp] theorem apply_nextObj (e : Eff) (s : St) (t : Lid) :
    (e.apply s t).nextObj = s.nextObj := by
  cases e with
  | setLink l p => cases l <;> rfl
  | _ => rfl

/-! ## Updates of one component -/

section

variable (s : St) (t : Lid) (l : Local)

@[simp] theorem setLocal_epoch : (s.setLocal t l).epoch = s.epoch := rfl

@[simp] theorem setLocal_nLocals : (s.setLocal t l).nLocals = s.nLocals := rfl

@[simp] theorem setLocal_nextObj : (s.setLocal t l).nextObj = s.nextObj := rfl

@[simp] theorem setLocal_objs : (s.setLocal t l).objs = s.objs := rfl

@[simp] theorem setLocal_nextCell : (s.setLocal t l).nextCell = s.nextCell := rfl

@[simp] theorem setLocal_cells : (s.setLocal t l).cells = s.cells := rfl

@[simp] theorem setLocal_freshObjs : (s.setLocal t l).freshObjs = s.freshObjs := rfl

@[simp] theorem setLocal_markedObjs : (s.setLocal t l).markedObjs = s.markedObjs := rfl

@[simp] theorem setLocal_collectorThreads :
    (s.setLocal t l).collectorThreads = s.collectorThreads := rfl

@[simp] theorem setLocal_collector : (s.setLocal t l).collector = s.collector := rfl

@[simp] theorem setLocal_stage : (s.setLocal t l).stage = s.stage := rfl

@[simp] theorem setLocal_jobs : (s.setLocal t l).jobs = s.jobs := rfl

@[simp] theorem setLocal_sweepers : (s.setLocal t l).sweepers = s.sweepers := rfl

@[simp] theorem setLocal_past : (s.setLocal t l).past = s.past := rfl

@[simp] theorem setLocal_confirmed : (s.setLocal t l).confirmed = s.confirmed := rfl

end

section

variable (s : St) (t : Lid) (fs : List Frame)

@[simp] theorem setStack_epoch : (s.setStack t fs).epoch = s.epoch := rfl

@[simp] theorem setStack_nLocals : (s.setStack t fs).nLocals = s.nLocals := rfl

@[simp] theorem setStack_nextObj : (s.setStack t fs).nextObj = s.nextObj := rfl

@[simp] theorem setStack_objs : (s.setStack t fs).objs = s.objs := rfl

@[simp] theorem setStack_nextCell : (s.setStack t fs).nextCell = s.nextCell := rfl

@[simp] theorem setStack_cells : (s.setStack t fs).cells = s.cells := rfl

@[simp] theorem setStack_freshObjs : (s.setStack t fs).freshObjs = s.freshObjs := rfl

@[simp] theorem setStack_markedObjs : (s.setStack t fs).markedObjs = s.markedObjs := rfl

@[simp] theorem setStack_collectorThreads :
    (s.setStack t fs).collectorThreads = s.collectorThreads := rfl

@[simp] theorem setStack_collector : (s.setStack t fs).collector = s.collector := rfl

@[simp] theorem setStack_stage : (s.setStack t fs).stage = s.stage := rfl

@[simp] theorem setStack_jobs : (s.setStack t fs).jobs = s.jobs := rfl

@[simp] theorem setStack_sweepers : (s.setStack t fs).sweepers = s.sweepers := rfl

@[simp] theorem setStack_past : (s.setStack t fs).past = s.past := rfl

@[simp] theorem setStack_confirmed : (s.setStack t fs).confirmed = s.confirmed := rfl

end

section

variable (s : St) (st : Stage)

@[simp] theorem withStage_epoch : (s.withStage st).epoch = s.epoch := rfl

@[simp] theorem withStage_nLocals : (s.withStage st).nLocals = s.nLocals := rfl

@[simp] theorem withStage_nextObj : (s.withStage st).nextObj = s.nextObj := rfl

@[simp] theorem withStage_objs : (s.withStage st).objs = s.objs := rfl

@[simp] theorem withStage_nextCell : (s.withStage st).nextCell = s.nextCell := rfl

@[simp] theorem withStage_cells : (s.withStage st).cells = s.cells := rfl

@[simp] theorem withStage_freshObjs : (s.withStage st).freshObjs = s.freshObjs := rfl

@[simp] theorem withStage_markedObjs : (s.withStage st).markedObjs = s.markedObjs := rfl

@[simp] theorem withStage_collectorThreads :
    (s.withStage st).collectorThreads = s.collectorThreads := rfl

@[simp] theorem withStage_collector : (s.withStage st).collector = s.collector := rfl

@[simp] theorem withStage_jobs : (s.withStage st).jobs = s.jobs := rfl

@[simp] theorem withStage_sweepers : (s.withStage st).sweepers = s.sweepers := rfl

@[simp] theorem withStage_past : (s.withStage st).past = s.past := rfl

@[simp] theorem withStage_confirmed : (s.withStage st).confirmed = s.confirmed := rfl

@[simp] theorem withStage_locals : (s.withStage st).locals = s.locals := rfl

@[simp] theorem withStage_stage : (s.withStage st).stage = st := rfl

end

section

variable (s : St) (ws : List Sweeper)

@[simp] theorem withSweepers_epoch : (s.withSweepers ws).epoch = s.epoch := rfl

@[simp] theorem withSweepers_nLocals : (s.withSweepers ws).nLocals = s.nLocals := rfl

@[simp] theorem withSweepers_nextObj : (s.withSweepers ws).nextObj = s.nextObj := rfl

@[simp] theorem withSweepers_objs : (s.withSweepers ws).objs = s.objs := rfl

@[simp] theorem withSweepers_nextCell : (s.withSweepers ws).nextCell = s.nextCell := rfl

@[simp] theorem withSweepers_cells : (s.withSweepers ws).cells = s.cells := rfl

@[simp] theorem withSweepers_freshObjs : (s.withSweepers ws).freshObjs = s.freshObjs := rfl

@[simp] theorem withSweepers_markedObjs : (s.withSweepers ws).markedObjs = s.markedObjs := rfl

@[simp] theorem withSweepers_collectorThreads :
    (s.withSweepers ws).collectorThreads = s.collectorThreads := rfl

@[simp] theorem withSweepers_collector : (s.withSweepers ws).collector = s.collector := rfl

@[simp] theorem withSweepers_stage : (s.withSweepers ws).stage = s.stage := rfl

@[simp] theorem withSweepers_jobs : (s.withSweepers ws).jobs = s.jobs := rfl

@[simp] theorem withSweepers_past : (s.withSweepers ws).past = s.past := rfl

@[simp] theorem withSweepers_confirmed : (s.withSweepers ws).confirmed = s.confirmed := rfl

@[simp] theorem withSweepers_locals : (s.withSweepers ws).locals = s.locals := rfl

@[simp] theorem withSweepers_sweepers : (s.withSweepers ws).sweepers = ws := rfl

end

section

variable (s : St) (js : List (Nat × Nat × List Oid))

@[simp] theorem withJobs_epoch : (s.withJobs js).epoch = s.epoch := rfl

@[simp] theorem withJobs_nLocals : (s.withJobs js).nLocals = s.nLocals := rfl

@[simp] theorem withJobs_nextObj : (s.withJobs js).nextObj = s.nextObj := rfl

@[simp] theorem withJobs_objs : (s.withJobs js).objs = s.objs := rfl

@[simp] theorem withJobs_nextCell : (s.withJobs js).nextCell = s.nextCell := rfl

@[simp] theorem withJobs_cells : (s.withJobs js).cells = s.cells := rfl

@[simp] theorem withJobs_freshObjs : (s.withJobs js).freshObjs = s.freshObjs := rfl

@[simp] theorem withJobs_markedObjs : (s.withJobs js).markedObjs = s.markedObjs := rfl

@[simp] theorem withJobs_collectorThreads :
    (s.withJobs js).collectorThreads = s.collectorThreads := rfl

@[simp] theorem withJobs_collector : (s.withJobs js).collector = s.collector := rfl

@[simp] theorem withJobs_stage : (s.withJobs js).stage = s.stage := rfl

@[simp] theorem withJobs_sweepers : (s.withJobs js).sweepers = s.sweepers := rfl

@[simp] theorem withJobs_past : (s.withJobs js).past = s.past := rfl

@[simp] theorem withJobs_confirmed : (s.withJobs js).confirmed = s.confirmed := rfl

@[simp] theorem withJobs_locals : (s.withJobs js).locals = s.locals := rfl

@[simp] theorem withJobs_jobs : (s.withJobs js).jobs = js := rfl

end

end Cdpt
