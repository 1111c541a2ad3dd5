import Cdpt.Proofs.Step

/-!
# The pin protocol

A pinning thread publishes an epoch it may have read long ago and validates it
in a loop, while threads join and leave. What carries the argument is one fact
about a single step, `NodeStep.pinDone`: a thread whose outermost pin has
completed either was in that state before, with the same epoch, or its last
load has just found the published epoch equal to the global one. A stale epoch
may be visible in the node, but it never counts as a completed pin.

To say when a pin has completed one has to read it off the node, where a guard
count of one is stored before the loop begins. `Local.pinDone` therefore asks
for a guard and for a top frame that is not in the loop, and `Local.Str` says
that only the top frame can be: a pin in progress is the innermost thing its
thread does. The same structure fixes what a thread may leave behind. The net
effect of every frame on the guard count is known (`Frame.net`), a step of a
frame keeps the sum over its stack, and so a worker's end, which gives its node
back, is only reached without a guard.

Most effects are none of this protocol's business (`Eff.pinFree`), and for them
the part of a node it reads (`Local.pinView`) is literally unchanged. That takes
care of the whole program but the dozen frames of pinning, unpinning and leaving.
-/

namespace Cdpt

/-- A frame of `pin_freshly` before its epoch is validated. -/
def Frame.pinning : Frame → Bool
  | .pin .load | .pin (.store _) | .pin (.check _) => true
  | _ => false

def Scanner.isWorker : Scanner → Bool
  | .worker _ _ _ => true
  | .helper _ _ _ _ => false

/-- A frame of a worker of the root scan. -/
def Frame.isWorker : Frame → Bool
  | .help (.scanPop sc) | .help (.scanObjs sc _ _) | .help (.forceHps _ _ sc _ _ _) => sc.isWorker
  | _ => false

/-- A frame an operation may start with. -/
def Frame.isEntry : Frame → Bool
  | .ptr _ | .pin .pin | .pin .helpIf | .pin .unpin | .mark (.task _) | .help .help => true
  | _ => false

/-- The one frame of a helper an operation starts with is the call. -/
theorem isEntry_help {f : HelpFrame} (h : Frame.isEntry (.help f) = true) : f = .help := by
  cases f <;> first | rfl | cases h

/-- The outermost pin of the thread on this node has completed. -/
def Local.pinDone (l : Local) : Prop :=
  0 < l.guardCount ∧ ∀ f ∈ l.stack.head?, f.pinning = false

instance (l : Local) : Decidable l.pinDone := inferInstanceAs (Decidable (_ ∧ _))

/-- The collector has stored an epoch and not yet waited for it. -/
def Stage.waiting : Stage → Bool
  | .wait _ | .joinSweep => true
  | _ => false

/-- The wait for the current epoch has returned. -/
def St.waited (s : St) : Prop := s.stage.waiting = false

instance (s : St) : Decidable s.waited := inferInstanceAs (Decidable (_ = _))

/-! ## What the frames of a step look like -/

/-- An effect that leaves the pins, the epochs and the registrations alone. -/
def Eff.pinFree : Eff → Bool
  | .storeEpoch _ | .storeLocalEpoch _ | .setGuardCount _ | .unpin | .observe _ | .release
  | .spawnSweep _ _ => false
  | _ => true

/-- A frame that is neither inside `pin_freshly` nor the end of a worker. -/
def Frame.plain (f : Frame) : Bool := !f.pinning && !f.isExit

@[simp] theorem plain_ptr (f : PtrFrame) : Frame.plain (.ptr f) = true := rfl

@[simp] theorem plain_mark (f : MarkFrame) : Frame.plain (.mark f) = true := rfl

@[simp] theorem plain_help (f : HelpFrame) : Frame.plain (.help f) = true := rfl

@[simp] theorem plain_resume (r : ShadeRet) : r.resume.all Frame.plain = true := by
  cases r <;> rfl

@[simp] theorem plain_dropTemp (p : ManPtr) : (dropTemp p).all Frame.plain = true := by
  unfold dropTemp
  split <;> rfl

@[simp] theorem plain_rootedFail (s : St) (t : Lid) (l : Loc) (cur new : ManPtr) (k : CasKind) :
    (rootedFail s t l cur new k).all Frame.plain = true := by
  unfold rootedFail
  repeat' split
  all_goals simp [List.all_append]

@[simp] theorem plain_unrootedFail (s : St) (t : Lid) (l : Loc) (old cur new : ManPtr)
    (k : CasKind) : (unrootedFail s t l old cur new k).all Frame.plain = true := by
  unfold unrootedFail
  repeat' split
  all_goals rfl

@[simp] theorem plain_scanHazard (hs : List Oid) (sc : Scanner) (done : List Oid) (o : Oid)
    (todo : List Oid) : (scanHazard hs sc done o todo).all Frame.plain = true := by
  unfold scanHazard
  split <;> rfl

@[simp] theorem plain_scanObj (s : St) (t : Lid) (sc : Scanner) (done : List Oid) (o : Oid)
    (todo : List Oid) : (scanObj s t sc done o todo).all Frame.plain = true := by
  unfold scanObj
  repeat' split
  all_goals first | rfl | exact plain_scanHazard ..

@[simp] theorem plain_scannerNext (sc : Scanner) : sc.next.all Frame.plain = true := by
  unfold Scanner.next
  repeat' split
  all_goals rfl

@[simp] theorem plain_shadeLink (s : St) (t : Lid) (o : Oid) (i : Nat) (p : ManPtr) :
    (shadeLink s t o i p).plain = true := by
  unfold shadeLink
  repeat' split
  all_goals rfl

theorem execPtr_plain (s : St) (t : Lid) (ch : Nat) (f : PtrFrame) :
    (execPtr s t ch f).1.pinFree = true ∧ (execPtr s t ch f).2.all Frame.plain = true := by
  cases f <;> simp only [execPtr] <;> (repeat' split) <;> simp [Eff.pinFree]

theorem execMark_plain (s : St) (t : Lid) (f : MarkFrame) :
    (execMark s t f).1.pinFree = true ∧ (execMark s t f).2.all Frame.plain = true := by
  cases f <;> simp only [execMark] <;> (repeat' split) <;> simp [Eff.pinFree]

theorem execHelp_plain (s : St) (t : Lid) (ch : Nat) (f : HelpFrame) :
    (execHelp s t ch f).1.pinFree = true ∧ (execHelp s t ch f).2.all Frame.plain = true := by
  cases f <;> simp only [execHelp] <;> (repeat' split) <;> simp [Eff.pinFree]

/-! ## What the effects do to a node -/

/-- The part of a node the pin protocol is about. -/
def Local.pinView (l : Local) : Bool × Nat × Epoch × Epoch :=
  (l.isUsing, l.guardCount, l.epoch, l.lastObserved)

theorem apply_pinView {e : Eff} (he : e.pinFree = true) (s : St) (t i : Lid) :
    ((e.apply s t).locals i).pinView = (s.locals i).pinView := by
  cases e with
  | setLink l p => cases l <;> rfl
  | steal j n =>
      simp only [Eff.apply, setLocal_locals]
      split <;> split <;> simp_all [Local.pinView]
  | _ =>
      first
        | (cases he; done)
        | (simp only [Eff.apply, St.setObj, setLocal_locals]
           try (split <;> simp_all [Local.pinView]))

theorem apply_epoch {e : Eff} (he : e.pinFree = true) (s : St) (t : Lid) :
    (e.apply s t).epoch = s.epoch ∧ (e.apply s t).past = s.past := by
  cases e with
  | setLink l p => cases l <;> exact ⟨rfl, rfl⟩
  | _ => first | exact ⟨rfl, rfl⟩ | cases he

/-- `s₁` differs from `s` in nothing that the pins or the control depend on. -/
structure SamePins (s s₁ : St) : Prop where
  view : ∀ i, (s₁.locals i).pinView = (s.locals i).pinView
  stack : ∀ i, (s₁.locals i).stack = (s.locals i).stack
  epoch : s₁.epoch = s.epoch
  past : s₁.past = s.past
  nLocals : s₁.nLocals = s.nLocals
  collector : s₁.collector = s.collector
  stage : s₁.stage = s.stage

theorem SamePins.refl (s : St) : SamePins s s :=
  ⟨fun _ => rfl, fun _ => rfl, rfl, rfl, rfl, rfl, rfl⟩

theorem SamePins.of_apply {e : Eff} (he : e.pinFree = true) (s : St) (t : Lid) :
    SamePins s (e.apply s t) where
  view := apply_pinView he s t
  stack := apply_stack e s t
  epoch := (apply_epoch he s t).1
  past := (apply_epoch he s t).2
  nLocals := apply_nLocals e s t
  collector := apply_collector e s t
  stage := apply_stage e s t

theorem startOp_same {s s₁ : St} {t : Lid} {o : Op} {fs : List Frame}
    (h : startOp s t o = some (s₁, fs)) : SamePins s s₁ ∧ fs.all Frame.plain = true := by
  have hcells : ∀ f : Cid → Option Cell, SamePins s { s with cells := f } := fun f =>
    ⟨fun _ => rfl, fun _ => rfl, rfl, rfl, rfl, rfl, rfl⟩
  cases o with
  | alloc cs size k =>
      simp only [startOp] at h
      split at h
      · cases h
        exact ⟨⟨fun _ => rfl, fun _ => rfl, rfl, rfl, rfl, rfl, rfl⟩, rfl⟩
      · cases h
  | noneNew tag =>
      cases h
      exact ⟨.of_apply rfl s t, rfl⟩
  | protectGuard hid =>
      simp only [startOp] at h
      split at h
      · obtain ⟨o, -, h⟩ := Option.map_eq_some_iff.1 h
        cases h
        exact ⟨.of_apply rfl s t, rfl⟩
      · cases h
  | convert c =>
      simp only [startOp] at h
      repeat' split at h
      all_goals cases h
      exact ⟨hcells _, rfl⟩
  | drop c =>
      simp only [startOp] at h
      repeat' split at h
      all_goals first
        | (cases h; done)
        | (cases h; exact ⟨hcells _, rfl⟩)
  | pin =>
      cases h
      exact ⟨.refl s, rfl⟩
  | dropGuard | repin | helpCollect | swap | compareExchange | clone =>
      simp only [startOp] at h
      repeat' split at h
      all_goals cases h
      exact ⟨.refl s, rfl⟩
  | load p =>
      simp only [startOp] at h
      split at h
      · obtain ⟨o, -, h⟩ := Option.map_eq_some_iff.1 h
        cases h
        exact ⟨.refl s, rfl⟩
      · cases h
  | asShared | protect | dropHandle =>
      obtain ⟨o, -, h⟩ := Option.map_eq_some_iff.1 h
      cases h
      exact ⟨.refl s, rfl⟩

theorem sweepStep_pinFree (s : St) (w : Sweeper) (ch : Nat) :
    (sweepStep s w ch).1.pinFree = true := by
  unfold sweepStep
  repeat' split
  all_goals rfl

/-- A step of the collector stores an epoch at three places and is otherwise
invisible to the pin protocol. -/
theorem collStep_cases {s : St} {ch : Nat} {e : Eff} {st : Stage} {fs : List Frame}
    (h : collStep s ch = some (e, st, fs)) :
    fs.all Frame.plain = true ∧
    ((s.stage = .idle ∧ e = .storeEpoch (s.transEpoch .RT) ∧ st = .wait s.firstNode) ∨
     (s.stage = .complete ∧ e = .storeEpoch (s.transEpoch .CT) ∧ st = .wait s.firstNode) ∨
     (s.stage = .nextNormal ∧ (∃ ws, e = .spawnSweep s.normalEpoch ws) ∧ st = .joinSweep) ∨
     (e.pinFree = true ∧ s.stage ≠ .idle ∧ s.stage ≠ .complete ∧ s.stage ≠ .nextNormal)) := by
  unfold collStep at h
  simp only at h
  repeat' split at h
  all_goals first
    | (cases h; done)
    | (cases h; simp_all [Eff.pinFree]; done)
    | (cases h; simp_all [Eff.pinFree, Frame.plain, Frame.pinning, Frame.isExit])

/-! ## Guards along a stack -/

/-- The guard count after frame `f` has returned. -/
def Frame.net (g : Nat) : Frame → Nat
  | .pin .pin => g + 1
  | .pin .unpin => g - 1
  | _ => g

/-- The guard count after all frames have returned, the first one first. -/
def netGuards (g : Nat) (fs : List Frame) : Nat := fs.foldl Frame.net g

@[simp] theorem netGuards_nil (g : Nat) : netGuards g [] = g := rfl

@[simp] theorem netGuards_cons (g : Nat) (f : Frame) (fs : List Frame) :
    netGuards g (f :: fs) = netGuards (f.net g) fs := rfl

@[simp] theorem netGuards_append (g : Nat) (fs fs' : List Frame) :
    netGuards g (fs ++ fs') = netGuards (netGuards g fs) fs' := List.foldl_append ..

@[simp] theorem net_ptr (g : Nat) (f : PtrFrame) : Frame.net g (.ptr f) = g := rfl

@[simp] theorem net_mark (g : Nat) (f : MarkFrame) : Frame.net g (.mark f) = g := rfl

@[simp] theorem net_help (g : Nat) (f : HelpFrame) : Frame.net g (.help f) = g := rfl

@[simp] theorem net_resume (g : Nat) (r : ShadeRet) : netGuards g r.resume = g := by
  cases r <;> rfl

@[simp] theorem net_dropTemp (g : Nat) (p : ManPtr) : netGuards g (dropTemp p) = g := by
  unfold dropTemp
  split <;> simp [dropFrames, Frame.net]

@[simp] theorem net_shadeLink (g : Nat) (s : St) (t : Lid) (o : Oid) (i : Nat) (p : ManPtr) :
    (shadeLink s t o i p).net g = g := by
  unfold shadeLink
  repeat' split
  all_goals rfl

@[simp] theorem net_scanHazard (g : Nat) (hs : List Oid) (sc : Scanner) (done : List Oid)
    (o : Oid) (todo : List Oid) : netGuards g (scanHazard hs sc done o todo) = g := by
  unfold scanHazard
  split <;> rfl

theorem execPtr_net (g : Nat) (s : St) (t : Lid) (ch : Nat) (f : PtrFrame) :
    netGuards g (execPtr s t ch f).2 = g := by
  cases f with
  | rootedCas l old new k =>
      simp only [execPtr, rootedFail]
      repeat' split
      all_goals simp
  | unrootedCas l old new k =>
      simp only [execPtr, unrootedFail]
      repeat' split
      all_goals simp
  | _ =>
      simp only [execPtr]
      repeat' split
      all_goals simp

theorem execMark_net (g : Nat) (s : St) (t : Lid) (f : MarkFrame) :
    netGuards g (execMark s t f).2 = g := by
  cases f <;> simp only [execMark] <;> (repeat' split) <;> simp

theorem execHelp_net (g : Nat) (s : St) (t : Lid) (ch : Nat) (f : HelpFrame) :
    netGuards g (execHelp s t ch f).2 = g := by
  cases f <;> simp only [execHelp, scanObj, Scanner.next] <;> (repeat' split) <;> simp

/-- A frame and what it turns into agree on the guards they leave behind. -/
theorem exec_net (s : St) (t : Lid) (ch : Nat) (f : Frame) :
    netGuards (((exec s t ch f).1.apply s t).locals t).guardCount (exec s t ch f).2 =
      f.net (s.locals t).guardCount := by
  have hfree : ∀ {e : Eff}, e.pinFree = true →
      ((e.apply s t).locals t).guardCount = (s.locals t).guardCount := fun he =>
    congrArg (fun v => v.2.1) (apply_pinView he s t t)
  cases f with
  | pin f =>
      cases f <;> simp only [exec, execPin] <;> (repeat' split) <;>
        simp_all [Eff.apply, Frame.net]
  | ptr f =>
      simp only [exec]
      rw [hfree (execPtr_plain s t ch f).1, execPtr_net, net_ptr]
  | mark f =>
      simp only [exec]
      rw [hfree (execMark_plain s t f).1, execMark_net, net_mark]
  | help f =>
      simp only [exec]
      rw [hfree (execHelp_plain s t ch f).1, execHelp_net, net_help]

/-- Only the head of the frames a step pushes can be inside `pin_freshly`, and
no step pushes the end of a worker. -/
theorem exec_shape (s : St) (t : Lid) (ch : Nat) (f : Frame) :
    (∀ g ∈ (exec s t ch f).2.tail, g.pinning = false) ∧
    (∀ g ∈ (exec s t ch f).2, g.isExit = false) := by
  have hplain : ∀ {fs : List Frame}, fs.all Frame.plain = true →
      (∀ g ∈ fs.tail, g.pinning = false) ∧ (∀ g ∈ fs, g.isExit = false) := by
    intro fs h
    rw [List.all_eq_true] at h
    constructor
    · intro g hg
      have := h g (List.mem_of_mem_tail hg)
      simp only [Frame.plain, Bool.and_eq_true, Bool.not_eq_true'] at this
      exact this.1
    · intro g hg
      have := h g hg
      simp only [Frame.plain, Bool.and_eq_true, Bool.not_eq_true'] at this
      exact this.2
  cases f with
  | pin f =>
      cases f <;> simp only [exec, execPin] <;> (repeat' split) <;>
        simp [Frame.pinning, Frame.isExit]
  | ptr f => exact hplain (execPtr_plain s t ch f).2
  | mark f => exact hplain (execMark_plain s t f).2
  | help f => exact hplain (execHelp_plain s t ch f).2

/-! ## The shape of a node -/

/-- The end of a worker stands at the bottom of its stack and is reached with no
guard left. -/
def exitOk : Nat → List Frame → Prop
  | _, [] => True
  | g, f :: fs => if f.isExit then g = 0 ∧ fs = [] else exitOk (f.net g) fs

theorem exitOk_append {fs : List Frame} (hfs : ∀ f ∈ fs, f.isExit = false) (fs' : List Frame) :
    ∀ g, exitOk g (fs ++ fs') ↔ exitOk (netGuards g fs) fs' := by
  induction fs with
  | nil => exact fun _ => Iff.rfl
  | cons f fs ih =>
      intro g
      rw [List.cons_append, exitOk, hfs f (by simp), if_neg (by simp), netGuards_cons]
      exact ih (fun f' hf' => hfs f' (by simp [hf'])) _

/-- What holds of every node by itself: a pin in progress is the innermost
thing its thread does, the epoch it is about to validate is the one it has
published, and a node is given back only when its thread is unpinned. -/
structure Local.Str (l : Local) : Prop where
  tail : ∀ f ∈ l.stack.tail, f.pinning = false
  check : ∀ e, l.stack.head? = some (.pin (.check e)) → l.epoch = e.pinned
  unused : l.isUsing = false → l.guardCount = 0 ∧ l.stack = []
  exit : exitOk l.guardCount l.stack

theorem Local.Str.of_eq {l l' : Local} (h : l.Str) (hv : l'.pinView = l.pinView)
    (hs : l'.stack = l.stack) : l'.Str := by
  simp only [Local.pinView, Prod.mk.injEq] at hv
  obtain ⟨hu, hg, he, -⟩ := hv
  exact ⟨hs ▸ h.tail, by rw [hs, he]; exact h.check, by rw [hu, hg, hs]; exact h.unused,
    by rw [hs, hg]; exact h.exit⟩

theorem plain_pinning {fs : List Frame} (h : fs.all Frame.plain = true) :
    (∀ f ∈ fs, f.pinning = false) ∧ (∀ f ∈ fs, f.isExit = false) := by
  rw [List.all_eq_true] at h
  have hf : ∀ f ∈ fs, f.pinning = false ∧ f.isExit = false := fun f hf => by
    simpa [Frame.plain] using h f hf
  exact ⟨fun f hm => (hf f hm).1, fun f hm => (hf f hm).2⟩

/-- A thread between two operations may push any frames but those of a pin in
progress and the end of a worker. -/
theorem Local.Str.push {l l' : Local} {fs : List Frame} (hus : l.isUsing = true)
    (hv : l'.pinView = l.pinView) (hfs : fs.all Frame.plain = true) (hs' : l'.stack = fs) :
    l'.Str := by
  simp only [Local.pinView, Prod.mk.injEq] at hv
  obtain ⟨hu, -⟩ := hv
  obtain ⟨hp, hx⟩ := plain_pinning hfs
  refine ⟨?_, ?_, fun hn => absurd (hu.symm.trans hn) (by simp [hus]), ?_⟩
  · rw [hs']
    exact fun f hf => hp f (List.mem_of_mem_tail hf)
  · rw [hs']
    intro e hh
    exact absurd (hp _ (List.mem_of_mem_head? hh)) (by simp [Frame.pinning])
  · rw [hs', ← List.append_nil fs, exitOk_append hx]
    trivial

/-- Only the frames of the pin protocol touch the pins. -/
theorem exec_pinFree_or (s : St) (t : Lid) (ch : Nat) (f : Frame) :
    ((exec s t ch f).1.pinFree = true ∧ (exec s t ch f).2.all Frame.plain = true ∧
      f.pinning = false) ∨ ∃ g, f = .pin g := by
  cases f with
  | pin g => exact .inr ⟨g, rfl⟩
  | ptr g => exact .inl ⟨(execPtr_plain s t ch g).1, (execPtr_plain s t ch g).2, rfl⟩
  | mark g => exact .inl ⟨(execMark_plain s t g).1, (execMark_plain s t g).2, rfl⟩
  | help g => exact .inl ⟨(execHelp_plain s t ch g).1, (execHelp_plain s t ch g).2, rfl⟩

theorem exec_check {s : St} {t : Lid} {ch : Nat} {f : Frame} {e : Epoch}
    (h : (exec s t ch f).2.head? = some (.pin (.check e))) :
    (((exec s t ch f).1.apply s t).locals t).epoch = e.pinned := by
  rcases exec_pinFree_or s t ch f with ⟨-, hp, -⟩ | ⟨g, rfl⟩
  · exact absurd ((plain_pinning hp).1 _ (List.mem_of_mem_head? h)) (by simp [Frame.pinning])
  · cases g with
    | store e' =>
        simp only [exec, execPin, List.head?_cons, Option.some.injEq, Frame.pin.injEq,
          PinFrame.check.injEq] at h
        subst h
        simp [exec, execPin, Eff.apply]
    | _ =>
        simp only [exec, execPin] at h
        repeat' split at h
        all_goals simp at h

theorem exec_isUsing {s : St} {t : Lid} {ch : Nat} {f : Frame} (hf : f.isExit = false) :
    (((exec s t ch f).1.apply s t).locals t).isUsing = (s.locals t).isUsing := by
  rcases exec_pinFree_or s t ch f with ⟨he, -⟩ | ⟨g, rfl⟩
  · exact congrArg Prod.fst (apply_pinView he s t t)
  · cases g with
    | workerExit => cases hf
    | _ =>
        simp only [exec, execPin]
        repeat' split
        all_goals simp [Eff.apply]

theorem Local.Str.run {s : St} {t : Lid} {ch : Nat} {f : Frame} {rest : List Frame} {l : Local}
    (h : (s.locals t).Str) (hst : (s.locals t).stack = f :: rest)
    (hv : l.pinView = (((exec s t ch f).1.apply s t).locals t).pinView)
    (hs : l.stack = (exec s t ch f).2 ++ rest) : l.Str := by
  simp only [Local.pinView, Prod.mk.injEq] at hv
  obtain ⟨hu, hg, he, -⟩ := hv
  obtain ⟨htail, hexit⟩ := exec_shape s t ch f
  have hrest : ∀ f' ∈ rest, f'.pinning = false := by simpa [hst] using h.tail
  refine ⟨?_, ?_, ?_, ?_⟩
  · rw [hs]
    cases hfs : (exec s t ch f).2 with
    | nil => exact fun f' hf' => hrest f' (List.mem_of_mem_tail hf')
    | cons a fs =>
        rw [hfs] at htail
        intro f' hf'
        rcases List.mem_append.1 hf' with hf' | hf'
        · exact htail f' hf'
        · exact hrest f' hf'
  · intro e hh
    rw [hs] at hh
    rw [he]
    cases hfs : (exec s t ch f).2 with
    | nil =>
        rw [hfs] at hh
        exact absurd (hrest _ (List.mem_of_mem_head? hh)) (by simp [Frame.pinning])
    | cons a fs =>
        rw [hfs] at hh
        exact exec_check (by rw [hfs]; simpa using hh)
  · cases hf : f.isExit with
    | false =>
        rw [hu, exec_isUsing hf]
        intro hn
        have := (h.unused hn).2
        rw [hst] at this
        cases this
    | true =>
        intro _
        have hx := h.exit
        rw [hst, exitOk, if_pos hf] at hx
        have hf' : f = .pin .workerExit := by
          unfold Frame.isExit at hf
          split at hf
          · rfl
          · cases hf
        subst hf'
        rw [hg, hs]
        simpa [exec, execPin, Eff.apply] using hx
  · rw [hs, hg, exitOk_append hexit, exec_net]
    have hx := h.exit
    rw [hst, exitOk] at hx
    split at hx
    · rw [hx.2]
      trivial
    · exact hx

/-- Every node is well formed, the nodes past the end of the list are free, and
the collector keeps its own. -/
structure PinStr (s : St) : Prop where
  node : ∀ i, (s.locals i).Str
  beyond : ∀ i, s.nLocals ≤ i → (s.locals i).isUsing = false
  coll : (s.locals s.collector).isUsing = true
  collExit : ∀ f ∈ (s.locals s.collector).stack, f.isExit = false

theorem PinStr.not_done {s : St} (h : PinStr s) {i : Lid} (hu : (s.locals i).isUsing = false) :
    ¬ (s.locals i).pinDone := fun hd => by
  have := ((h.node i).unused hu).1
  have := hd.1
  omega


theorem startOp_isEntry {s s₁ : St} {t : Lid} {o : Op} {fs : List Frame}
    (h : startOp s t o = some (s₁, fs)) : fs.all Frame.isEntry = true := by
  cases o <;> simp only [startOp] at h <;> (repeat' split at h) <;>
    first
    | (cases h; done)
    | (cases h; rfl)
    | (obtain ⟨o, -, h⟩ := Option.map_eq_some_iff.1 h; cases h; rfl)

theorem collStep_isEntry {s : St} {ch : Nat} {e : Eff} {st : Stage} {fs : List Frame}
    (h : collStep s ch = some (e, st, fs)) : fs.all Frame.isEntry = true := by
  unfold collStep at h
  simp only at h
  repeat' split at h
  all_goals first
    | (cases h; done)
    | (cases h; rfl)

/-- What a step can do to node `i`, whose record is `l` afterwards, in a list of
then `n` nodes. -/
inductive NodeStep (s : St) (n : Nat) (i : Lid) (l : Local) : Prop
  | same (hv : l.pinView = (s.locals i).pinView) (hs : l.stack = (s.locals i).stack)
  | push (hu : (s.locals i).isUsing = true) (hst : (s.locals i).stack = [])
      (hv : l.pinView = (s.locals i).pinView) (hfs : l.stack.all Frame.plain = true)
      (hen : l.stack.all Frame.isEntry = true)
  | run (ch : Nat) {f : Frame} {rest : List Frame} (hst : (s.locals i).stack = f :: rest)
      (hv : l.pinView = (((exec s i ch f).1.apply s i).locals i).pinView)
      (hs : l.stack = (exec s i ch f).2 ++ rest)
  | join (h₀ : (s.locals i).stack = []) (hn : i < n) (hc : i ≠ s.collector)
      (hu : l.isUsing = true) 
      (hg : l.guardCount = 0)
      (hs : l.stack = [] ∨ s.jobs ≠ [] ∧ ∃ lo hi hs, l.stack =
        [.pin .pin, .help (.scanPop (.worker lo hi hs)), .pin .helpIf, .pin .unpin,
          .pin .workerExit])
  | leave (h₀ : (s.locals i).stack = []) (hc : i ≠ s.collector) (hu : l.isUsing = false)
      (hg : l.guardCount = 0)
      (hs : l.stack = [])

theorem register_node {s : St} (h : PinStr s) {t : Lid} (hr : s.canRegister t) (i : Lid) :
    (i ≠ t ∧ (s.register t).locals i = s.locals i) ∨
    (i = t ∧ ((s.register t).locals i).isUsing = true ∧
      ((s.register t).locals i).guardCount = 0 ∧ ((s.register t).locals i).stack = []) := by
  by_cases hi : i = t
  · subst hi
    refine .inr ⟨rfl, ?_⟩
    unfold St.register
    split
    · next ht =>
        rcases hr with ⟨-, hu, hst⟩ | hn
        · simpa [hst] using ((h.node i).unused hu).1
        · exact absurd hn (Nat.ne_of_lt ht)
    · simp [Local.default]
  · refine .inl ⟨hi, ?_⟩
    unfold St.register
    split <;> simp [hi]

theorem PinStr.free_stack {s : St} (h : PinStr s) {t : Lid} (hr : s.canRegister t) :
    (s.locals t).stack = [] := by
  rcases hr with ⟨-, -, hst⟩ | rfl
  · exact hst
  · exact ((h.node _).unused (h.beyond _ (Nat.le_refl _))).2

theorem register_lt {s : St} {t : Lid} (hr : s.canRegister t) : t < (s.register t).nLocals := by
  unfold St.register
  split
  · next ht => exact ht
  · next ht =>
      rcases hr with ⟨ht', -⟩ | rfl
      · exact absurd ht' ht
      · exact Nat.lt_succ_self _

/-- An effect of the collector leaves every node alone. -/
theorem collStep_pinView {s : St} {ch : Nat} {e : Eff} {st : Stage} {fs : List Frame}
    (h : collStep s ch = some (e, st, fs)) (t i : Lid) :
    ((e.apply s t).locals i).pinView = (s.locals i).pinView := by
  obtain ⟨-, ⟨-, rfl, -⟩ | ⟨-, rfl, -⟩ | ⟨-, ⟨ws, rfl⟩, -⟩ | ⟨he, -⟩⟩ := collStep_cases h
  · rfl
  · rfl
  · rfl
  · exact apply_pinView he s t i

theorem exec_pinView_ne (s : St) (ch : Nat) (f : Frame) {t i : Lid} (hi : i ≠ t) :
    (((exec s t ch f).1.apply s t).locals i).pinView = (s.locals i).pinView := by
  rcases exec_pinFree_or s t ch f with ⟨he, -⟩ | ⟨g, rfl⟩
  · exact apply_pinView he s t i
  · cases g <;> simp only [exec, execPin] <;> (repeat' split) <;> simp [Eff.apply, hi]

theorem node_step {s s' : St} {lab : Label} (h : PinStr s) (hs : StepCase s lab s') (i : Lid) :
    NodeStep s s'.nLocals i (s'.locals i) := by
  cases hs with
  | @op t o s₁ fs ht hu hst hc hop =>
      obtain ⟨hsame, hfs⟩ := startOp_same hop
      by_cases hi : i = t
      · subst hi
        refine .push hu hst ?_ (by simpa using hfs) (by simpa using startOp_isEntry hop)
        rw [setStack_locals, if_pos rfl]
        exact hsame.view i
      · rw [setStack_stack_ne _ _ hi]
        exact .same (hsame.view i) (hsame.stack i)
  | @run t ch f rest ht hst =>
      by_cases hi : i = t
      · subst hi
        refine .run ch hst ?_ (by simp)
        rw [setStack_locals, if_pos rfl]
        rfl
      · rw [setStack_stack_ne _ _ hi]
        exact .same (exec_pinView_ne s ch f hi) (apply_stack ..)
  | @coll ch e st fs hst hcoll =>
      by_cases hi : i = s.collector
      · subst hi
        refine .push h.coll hst ?_ (by simpa using (collStep_cases hcoll).1)
          (by simpa using collStep_isEntry hcoll)
        rw [setStack_locals, if_pos rfl]
        exact collStep_pinView hcoll _ _
      · rw [setStack_stack_ne _ _ hi]
        exact .same (collStep_pinView hcoll _ i) (apply_stack e s _ i)
  | @sweep k ch w hw =>
      exact .same (apply_pinView (sweepStep_pinFree s w ch) s _ i) (apply_stack _ s _ i)
  | @startWorker t lo hi hs js hj hr hc =>
      rcases register_node h hr i with ⟨hi', he⟩ | ⟨rfl, hu, hg, -⟩
      · rw [setStack_stack_ne _ _ hi']
        exact .same (congrArg Local.pinView he) (congrArg Local.stack he)
      · refine .join (h.free_stack hr) (register_lt hr) hc ?_ ?_
          (.inr ⟨by simp [hj], lo, hi, hs, by simp⟩)
        · rw [setStack_locals, if_pos rfl]
          exact hu
        · rw [setStack_locals, if_pos rfl]
          exact hg
  | @register t hr hc =>
      rcases register_node h hr i with ⟨-, he⟩ | ⟨rfl, hu, hg, hst⟩
      · exact .same (congrArg Local.pinView he) (congrArg Local.stack he)
      · exact .join (h.free_stack hr) (register_lt hr) hc hu hg (.inl hst)
  | @exit t ht hu hst hg hh hc =>
      by_cases hi : i = t
      · subst hi
        exact .leave hst hc (by simp) (by simpa using hg) (by simpa using hst)
      · exact .same (by simp [hi]) (by simp [hi])

theorem NodeStep.str {s : St} {n : Nat} {i : Lid} {l : Local} (h : NodeStep s n i l)
    (hi : (s.locals i).Str) : l.Str := by
  cases h with
  | same hv hs => exact hi.of_eq hv hs
  | push hu hst hv hfs hen => exact Local.Str.push hu hv hfs rfl
  | run _ hst hv hs => exact hi.run hst hv hs
  | join h₀ hn hc hu hg hs =>
      rcases hs with hs | ⟨-, lo, hi', hs', hs⟩ <;>
        exact ⟨by simp [hs, Frame.pinning], by simp [hs], by simp [hu],
          by simp [hs, hg, exitOk, Frame.isExit, Frame.net]⟩
  | leave h₀ hc hu hg hs =>
      exact ⟨by simp [hs], by simp [hs], by simp [hg, hs], by simp [hs, exitOk]⟩

theorem pinDone_head {l : Local} {f : Frame} {rest : List Frame} (hs : l.stack = f :: rest) :
    l.pinDone ↔ 0 < l.guardCount ∧ f.pinning = false := by
  simp [Local.pinDone, hs]

/-- A thread that is not inside `pin_freshly` and does not enter it. -/
theorem exec_pinDone_plain {s : St} {i : Lid} {ch : Nat} {f : Frame} {rest : List Frame}
    {l : Local} (hst : (s.locals i).stack = f :: rest)
    (he : (exec s i ch f).1.pinFree = true) (hf : f.pinning = false)
    (hv : l.pinView = (((exec s i ch f).1.apply s i).locals i).pinView)
    (hd : l.pinDone) : (s.locals i).pinDone ∧ l.epoch = (s.locals i).epoch := by
  rw [apply_pinView he] at hv
  simp only [Local.pinView, Prod.mk.injEq] at hv
  obtain ⟨-, hg, hep, -⟩ := hv
  exact ⟨(pinDone_head hst).2 ⟨hg ▸ hd.1, hf⟩, hep⟩

/-- A pin is complete after a step when it was before, with the same epoch, or
when the step has just validated the epoch of the node. -/
theorem NodeStep.pinDone {s : St} {n : Nat} {i : Lid} {l : Local} (h : NodeStep s n i l)
    (hi : (s.locals i).Str) (hd : l.pinDone) :
    ((s.locals i).pinDone ∧ l.epoch = (s.locals i).epoch) ∨ l.epoch = s.epoch.pinned := by
  cases h with
  | same hv hs =>
      simp only [Local.pinView, Prod.mk.injEq] at hv
      obtain ⟨-, hg, he, -⟩ := hv
      exact .inl ⟨⟨hg ▸ hd.1, hs ▸ hd.2⟩, he⟩
  | push hu hst hv hfs hen =>
      simp only [Local.pinView, Prod.mk.injEq] at hv
      obtain ⟨-, hg, he, -⟩ := hv
      exact .inl ⟨⟨hg ▸ hd.1, by simp [hst]⟩, he⟩
  | @run ch f rest hst hv hs =>
      rcases exec_pinFree_or s i ch f with ⟨he, -, hf⟩ | ⟨g, rfl⟩
      · exact .inl (exec_pinDone_plain hst he hf hv hd)
      · have hep : l.epoch = (((exec s i ch (.pin g)).1.apply s i).locals i).epoch :=
          congrArg (fun v => v.2.2.1) hv
        have hgc : l.guardCount = (((exec s i ch (.pin g)).1.apply s i).locals i).guardCount :=
          congrArg (fun v => v.2.1) hv
        have hd' := hd
        simp only [Local.pinDone, hs] at hd'
        rw [pinDone_head hst, hep]
        rw [hgc] at hd'
        clear hv hs hd hep hgc
        cases g with
        | check e =>
            by_cases hc : s.epoch = e
            · refine .inr ?_
              have hsame : (((exec s i ch (.pin (.check e))).1.apply s i).locals i).epoch =
                  (s.locals i).epoch := by
                simp only [exec, execPin]
                repeat' split
                all_goals simp [Eff.apply]
              rw [hsame, hc]
              exact hi.check e (by rw [hst]; rfl)
            · simp [exec, execPin, hc, Frame.pinning] at hd'
        | _ =>
            simp only [exec, execPin] at hd' ⊢
            repeat' split at hd'
            all_goals simp_all [Eff.apply, Frame.pinning]
            all_goals try omega
  | join h₀ hn hc hu hg hs => exact absurd hd.1 (by omega)
  | leave h₀ hc hu hg hs => exact absurd hd.1 (by omega)

/-- The list of nodes only grows, and the collector stays where it is. -/
theorem step_nLocals {s s' : St} {lab : Label} (hs : StepCase s lab s') :
    s.nLocals ≤ s'.nLocals ∧ s'.collector = s.collector := by
  have hreg : ∀ t, s.nLocals ≤ (s.register t).nLocals ∧
      (s.register t).collector = s.collector := by
    intro t
    unfold St.register
    split
    · exact ⟨Nat.le_refl _, rfl⟩
    · exact ⟨Nat.le_succ _, rfl⟩
  cases hs with
  | op ht hu hst hc hop =>
      have h := (startOp_same hop).1
      exact ⟨Nat.le_of_eq h.nLocals.symm, h.collector⟩
  | run ht hst => exact ⟨Nat.le_of_eq (apply_nLocals ..).symm, apply_collector ..⟩
  | coll hst hcoll => exact ⟨Nat.le_of_eq (apply_nLocals ..).symm, apply_collector ..⟩
  | sweep hw => exact ⟨Nat.le_of_eq (apply_nLocals ..).symm, apply_collector ..⟩
  | startWorker hj hr hc => exact hreg _
  | register hr hc => exact hreg _
  | exit ht hu hst hg hh hc => exact ⟨Nat.le_refl _, rfl⟩

theorem pinStr_step {s s' : St} {lab : Label} (h : PinStr s) (hs : StepCase s lab s') :
    PinStr s' := by
  obtain ⟨hn, hcoll⟩ := step_nLocals hs
  have hnode := node_step h hs
  refine ⟨fun i => (hnode i).str (h.node i), fun i hi => ?_, ?_, ?_⟩
  · have hb := h.beyond i (Nat.le_trans hn hi)
    cases hnode i with
    | same hv _ => exact (congrArg Prod.fst hv).trans hb
    | push hu => exact absurd hu (by simp [hb])
    | run _ hst => exact absurd ((h.node i).unused hb).2 (by simp [hst])
    | join _ hlt => exact absurd hlt (Nat.not_lt.2 hi)
    | leave _ _ hu => exact hu
  · rw [hcoll]
    cases hnode s.collector with
    | same hv _ => exact (congrArg Prod.fst hv).trans h.coll
    | push hu _ hv => exact (congrArg Prod.fst hv).trans h.coll
    | run _ hst hv =>
        refine (congrArg Prod.fst hv).trans ((exec_isUsing ?_).trans h.coll)
        exact h.collExit _ (by simp [hst])
    | join _ _ hc => exact absurd rfl hc
    | leave _ hc => exact absurd rfl hc
  · rw [hcoll]
    cases hnode s.collector with
    | same _ hs => rw [hs]; exact h.collExit
    | push _ _ _ hfs => exact (plain_pinning hfs).2
    | run _ hst _ hs =>
        rw [hs]
        intro f hf
        rcases List.mem_append.1 hf with hf | hf
        · exact (exec_shape ..).2 f hf
        · exact h.collExit f (by simp [hst, hf])
    | join _ _ hc => exact absurd rfl hc
    | leave _ hc => exact absurd rfl hc

theorem pinStr_init (n : Nat) : PinStr (St.init n) := by
  have hnode : ∀ b : Bool, ({ Local.default with isUsing := b } : Local).Str := fun b =>
    ⟨by simp [Local.default], by simp [Local.default], by simp [Local.default],
      by simp [Local.default, exitOk]⟩
  refine ⟨fun i => ?_, fun i hi => ?_, by simp [St.init], by simp [St.init, Local.default]⟩
  · by_cases h : i = 0
    · subst h
      simpa [St.init] using hnode true
    · rw [show (St.init n).locals i = Local.default by simp [St.init, h]]
      exact hnode false
  · have h : i ≠ 0 := by simp only [St.init] at hi; omega
    simp [St.init, h, Local.default]

end Cdpt
