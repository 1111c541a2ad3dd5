import Cdpt.Proofs.Pin

/-!
# The pins separate the phases

The collector stores an epoch and then walks the list of nodes, one load at a
time, until every node it meets is unpinned or pinned at the new timestamp.
Given `NodeStep.pinDone`, the walk needs nothing else about the mutators: a node
it has passed cannot fall back to an older timestamp while the global epoch
stands, and a node that joins behind its back reads the new epoch. So when the
walk ends every complete pin is current, and the next store can leave pins at
most one timestamp behind.

A node is `Fresh` when its pin, if complete, has the current timestamp, and
`Fresh_step` says that it stays so until the next epoch is stored, whoever moves.
The walk is not atomic, though: a node may be taken by a new thread, or be added
at the end, after the walk has seen it free or seen the end. `Iter.passed` says
for a position of the walk which nodes it will not look at again, and the
invariant `PinInv` asks those, and only those, to be fresh.

What the rest of the development uses are the two consequences for pairs of
threads. Two complete pins are at the same timestamp or at neighbouring ones
(`pins_close`); and since a pass through RT lies between them, an N section that
overlaps a CT section belongs to the next cycle (`no_N_with_CT`). The ghost field
`past` keeps the epoch the run had at each timestamp, so that an old pin can be
said to carry the epoch of its time and not just some number.
-/

namespace Cdpt

/-! ## The global epoch -/

/-- The order of the phases: N, RT, CT one or more times, and N of the other
colour. -/
def Epoch.Next (e e' : Epoch) : Prop :=
  e'.timestamp = e.timestamp + 1 ∧
    match e.phase with
    | .N => e'.phase = .RT ∧ e'.color = e.color
    | .RT => e'.phase = .CT ∧ e'.color = e.color
    | .CT => (e'.phase = .CT ∧ e'.color = e.color) ∨ (e'.phase = .N ∧ e'.color = e.color.flip)

/-- The phases a stage of the collector belongs to. -/
def Stage.inPhase : Stage → Phase → Bool
  | .wait _, _ => true
  | .idle, ph | .joinSweep, ph => ph = .N
  | .scan, ph | .pending _, ph | .pendPush _ _ _, ph | .pendStat _ _, ph | .hps _ _, ph
  | .spawnScan _, ph | .joinScan, ph => ph = .RT
  | .drain, ph | .find, ph | .steal _, ph | .complete, ph => ph ≠ .N
  | .conf1 _, ph | .conf2 _, ph | .conf3 _, ph | .nextNormal, ph => ph = .CT

/-- What a step does to the global epoch: nothing, or the collector stores the
next one before it waits. -/
inductive EpochStep (s s' : St) : Prop
  | same (he : s'.epoch = s.epoch) (hp : s'.past = s.past)
      (hst : s'.stage = s.stage ∨ ∃ ch e fs, collStep s ch = some (e, s'.stage, fs) ∧
        e.pinFree = true)
  | store (hn : s.stage.inPhase s.epoch.phase = true → s.epoch.Next s'.epoch)
      (hu : s'.epoch.isPinned = s.epoch.isPinned) (hw : s.waited)
      (hp : s'.past = Function.update s.past s'.epoch.timestamp s'.epoch)
      (hst : s'.stage = .wait s.firstNode ∨ (s'.stage = .joinSweep ∧ s'.epoch.phase = .N))

theorem epochStep {s s' : St} {lab : Label} (hs : StepCase s lab s') : EpochStep s s' := by
  have hreg : ∀ t, (s.register t).epoch = s.epoch ∧ (s.register t).past = s.past ∧
      (s.register t).stage = s.stage := by
    intro t
    unfold St.register
    split <;> exact ⟨rfl, rfl, rfl⟩
  cases hs with
  | op ht hu hst hc hop =>
      have h := (startOp_same hop).1
      exact .same h.epoch h.past (.inl h.stage)
  | @run t ch f rest ht hst =>
      refine .same ?_ ?_ (.inl (apply_stage ..))
      all_goals
        rcases exec_pinFree_or s t ch f with ⟨he, -⟩ | ⟨g, rfl⟩
        · first | exact (apply_epoch he s t).1 | exact (apply_epoch he s t).2
        · cases g <;> simp only [exec, execPin] <;> (repeat' split) <;> rfl
  | @coll ch e st fs hst hcoll =>
      obtain ⟨-, ⟨hs, rfl, rfl⟩ | ⟨hs, rfl, rfl⟩ | ⟨hs, ⟨ws, rfl⟩, rfl⟩ | ⟨he, -⟩⟩ :=
        collStep_cases hcoll
      · refine .store (fun hi => ⟨rfl, ?_⟩) rfl (by rw [St.waited, hs]; rfl) rfl (.inl rfl)
        rw [hs] at hi
        simp [of_decide_eq_true hi]
        exact ⟨rfl, rfl⟩
      · refine .store (fun hi => ⟨rfl, ?_⟩) rfl (by rw [St.waited, hs]; rfl) rfl (.inl rfl)
        rw [hs] at hi
        have := of_decide_eq_true hi
        split
        · next h => exact absurd h this
        · exact ⟨rfl, rfl⟩
        · exact .inl ⟨rfl, rfl⟩
      · refine .store (fun hi => ⟨rfl, ?_⟩) rfl (by rw [St.waited, hs]; rfl) rfl (.inr ⟨rfl, rfl⟩)
        rw [hs] at hi
        simp only [of_decide_eq_true hi]
        exact .inr ⟨rfl, rfl⟩
      · exact .same (apply_epoch he s _).1 (apply_epoch he s _).2 (.inr ⟨ch, e, fs, hcoll, he⟩)
  | @sweep k ch w hw =>
      have h := apply_epoch (sweepStep_pinFree s w ch) s s.collector
      exact .same h.1 h.2 (.inl (apply_stage ..))
  | startWorker hj hr hc => exact .same (hreg _).1 (hreg _).2.1 (.inl (hreg _).2.2)
  | register hr hc => exact .same (hreg _).1 (hreg _).2.1 (.inl (hreg _).2.2)
  | exit ht hu hst hg hh hc => exact .same rfl rfl (.inl rfl)

theorem afterWait_inPhase (s : St) : s.afterWait.inPhase s.epoch.phase = true := by
  unfold St.afterWait
  split
  all_goals
    next h => simp [h, Stage.inPhase]

theorem collStep_inPhase {s : St} {ch : Nat} {e : Eff} {st : Stage} {fs : List Frame}
    (h : collStep s ch = some (e, st, fs)) (he : e.pinFree = true)
    (hp : s.stage.inPhase s.epoch.phase = true) : st.inPhase s.epoch.phase = true := by
  unfold collStep at h
  simp only at h
  repeat' split at h
  all_goals first
    | (cases h; done)
    | (cases h; exact afterWait_inPhase s)
    | (cases h; simp_all [Stage.inPhase, Eff.pinFree])

/-! ## The wait of the collector -/

/-- The nodes an iteration need not look at any more: those before it, and, once
it has found the end of the list, everything after its last node. -/
def Iter.passed (j : Lid) : Iter → Prop
  | .node i => j < i
  | .test i nx | .act i nx => j < i ∨ (nx = none ∧ i < j)
  | .fin => True

/-- The next node of an iteration was loaded from the one it stands at. -/
def Iter.Linked : Iter → Prop
  | .test i nx | .act i nx => ∀ j ∈ nx, j = i + 1
  | _ => True

theorem Iter.passed_goto {i j : Lid} {nx : Option Lid} (hl : ∀ k ∈ nx, k = i + 1)
    (h : (Iter.goto nx).passed j) : (j < i ∨ (nx = none ∧ i < j)) ∨ j = i := by
  cases nx with
  | none =>
      rcases Nat.lt_trichotomy j i with h | h | h
      · exact .inl (.inl h)
      · exact .inr h
      · exact .inl (.inr ⟨rfl, h⟩)
  | some k =>
      rw [hl k rfl] at h
      exact (Nat.lt_or_eq_of_le (Nat.le_of_lt_succ h)).imp .inl id

theorem Iter.linked_goto (nx : Option Lid) : (Iter.goto nx).Linked := by
  cases nx <;> trivial

/-- One load of an iteration over the nodes in use: it is still linked, and what
it has newly passed is a node not in use or past the end of the list. -/
theorem iterStep_passed {s : St} {it : Iter} {j : Lid} (hl : it.Linked)
    (hb : ∀ i, s.nLocals ≤ i → (s.locals i).isUsing = false) :
    (s.iterStep false it).Linked ∧
    ((s.iterStep false it).passed j → it.passed j ∨ (s.locals j).isUsing = false) := by
  cases it with
  | node i =>
      simp only [St.iterStep, St.nextNode, Bool.false_eq_true, if_false]
      refine ⟨?_, ?_⟩
      · intro k hk
        split at hk <;> simp_all
      · rintro (h | ⟨h, hij⟩)
        · exact .inl h
        · refine .inr (hb j ?_)
          split at h
          · cases h
          · next hn => exact Nat.le_trans (Nat.not_lt.1 hn) hij
  | test i nx =>
      simp only [St.iterStep]
      split
      · exact ⟨hl, .inl⟩
      · next hu =>
          refine ⟨Iter.linked_goto nx, fun h => ?_⟩
          rcases Iter.passed_goto hl h with h | rfl
          · exact .inl h
          · exact .inr (by simpa using hu)
  | act i nx => exact ⟨hl, .inl⟩
  | fin => exact ⟨hl, .inl⟩

/-! ## The invariant -/

/-- If its pin is complete, node `i` is pinned at the current timestamp. -/
def St.Fresh (s : St) (i : Lid) : Prop :=
  (s.locals i).pinDone → (s.locals i).epoch.timestamp = s.epoch.timestamp

structure PinInv (s : St) : Prop where
  str : PinStr s
  unpinned : s.epoch.isPinned = false
  now : s.past s.epoch.timestamp = s.epoch
  stamp : ∀ n ≤ s.epoch.timestamp, (s.past n).timestamp = n
  next : ∀ n < s.epoch.timestamp, (s.past n).Next (s.past (n + 1))
  phase : s.stage.inPhase s.epoch.phase = true
  pins : ∀ i, (s.locals i).pinDone → ∃ n, (n = s.epoch.timestamp ∨ n + 1 = s.epoch.timestamp) ∧
    (s.locals i).epoch = (s.past n).pinned
  waited : s.waited → ∀ i, s.Fresh i
  wait : ∀ it, s.stage = .wait it → it.Linked ∧ ∀ i, it.passed i → s.Fresh i

/-- A fresh node stays fresh while the global epoch stands. -/
theorem Fresh_step {s s' : St} {lab : Label} (h : PinStr s) (hs : StepCase s lab s')
    (he : s'.epoch = s.epoch) {i : Lid} (hf : s.Fresh i) : s'.Fresh i := by
  intro hd
  rcases (node_step h hs i).pinDone (h.node i) hd with ⟨hd', hep⟩ | hep
  · rw [hep, he]
    exact hf hd'
  · rw [hep, he]
    rfl

/-- At the node it has in hand, the wait goes on only when the node is fresh. -/
theorem PinInv.fresh_of_act {s : St} (h : PinInv s) {i : Lid}
    (hi : (s.locals i).epoch.isPinned = false ∨
      s.epoch.timestamp ≤ (s.locals i).epoch.timestamp) : s.Fresh i := by
  intro hd
  obtain ⟨n, hn, he⟩ := h.pins i hd
  have hts : (s.locals i).epoch.timestamp = n := by
    rw [he]
    exact h.stamp n (by omega)
  rcases hi with hi | hi
  · rw [he] at hi
    cases hi
  · omega

/-- The collector's own node starts the list, so an iteration has passed nothing
at its beginning. -/
theorem PinStr.firstNode {s : St} (h : PinStr s) : s.firstNode = .node 0 := by
  unfold St.firstNode
  refine if_pos (Nat.pos_of_ne_zero fun hn => ?_)
  have := h.beyond s.collector (hn ▸ Nat.zero_le _)
  rw [h.coll] at this
  cases this

theorem PinStr.passed_firstNode {s : St} (h : PinStr s) (p : Lid → Prop) :
    s.firstNode.Linked ∧ ∀ i, s.firstNode.passed i → p i := by
  rw [h.firstNode]
  exact ⟨trivial, fun i hi => absurd hi (Nat.not_lt_zero i)⟩

/-- A stage the collector reaches once its wait has returned is no wait, unless
an epoch is stored. -/
theorem collStep_waiting {s : St} {ch : Nat} {e : Eff} {st : Stage} {fs : List Frame}
    (hc : collStep s ch = some (e, st, fs)) (he : e.pinFree = true) (hw : s.waited) :
    st.waiting = false := by
  have hnw : s.stage.waiting = false := hw
  unfold collStep at hc
  simp only at hc
  repeat' split at hc
  all_goals first
    | (cases hc; done)
    | (cases hc; simp_all [Stage.waiting, Eff.pinFree])

/-- Where the wait goes next, only fresh nodes are behind it. -/
theorem PinInv.wait_coll {s : St} (h : PinInv s) {ch : Nat} {e : Eff} {st : Stage}
    {fs : List Frame} (hc : collStep s ch = some (e, st, fs)) (he : e.pinFree = true) :
    (∀ it, st = .wait it → it.Linked ∧ ∀ i, it.passed i → s.Fresh i) ∧
    (st.waiting = false → ∀ i, s.Fresh i) := by
  by_cases hw : s.waited
  · refine ⟨fun it hit => ?_, fun _ => h.waited hw⟩
    have := collStep_waiting hc he hw
    rw [hit] at this
    cases this
  cases hst : s.stage with
  | joinSweep =>
      simp only [collStep, hst] at hc
      split at hc
      · cases hc
        exact ⟨fun it hit => (Stage.wait.inj hit) ▸ h.str.passed_firstNode _, fun hn => by cases hn⟩
      · cases hc
  | wait it =>
      obtain ⟨hl, hp⟩ := h.wait it hst
      have hiter : (s.iterStep false it).Linked ∧
          ∀ i, (s.iterStep false it).passed i → s.Fresh i := by
        refine ⟨(iterStep_passed (j := 0) hl h.str.beyond).1, fun i hi => ?_⟩
        rcases (iterStep_passed hl h.str.beyond).2 hi with hi | hi
        · exact hp i hi
        · exact fun hd => absurd hd (h.str.not_done hi)
      cases it with
      | node i | test i nx =>
          simp only [collStep, hst] at hc
          cases hc
          exact ⟨fun it hit => (Stage.wait.inj hit) ▸ hiter, fun hn => by cases hn⟩
      | act i nx =>
          simp only [collStep, hst] at hc
          split at hc
          · next hi =>
              cases hc
              refine ⟨fun it hit => (Stage.wait.inj hit) ▸ ⟨Iter.linked_goto nx, fun j hj => ?_⟩,
                fun hn => by cases hn⟩
              rcases Iter.passed_goto hl hj with hj | rfl
              · exact hp j hj
              · exact h.fresh_of_act hi
          · cases hc
            exact ⟨fun it hit => (Stage.wait.inj hit) ▸ ⟨hl, hp⟩, fun hn => by cases hn⟩
      | fin =>
          simp only [collStep, hst] at hc
          cases hc
          refine ⟨fun it hit => ?_, fun _ i => hp i trivial⟩
          simp only [St.afterWait] at hit
          split at hit <;> cases hit
  | _ => exact absurd (by rw [St.waited, hst]; rfl) hw

theorem PinInv.init (n : Nat) : PinInv (St.init n) where
  str := pinStr_init n
  unpinned := rfl
  now := rfl
  stamp := fun m hm => by simp [St.init, Epoch.starting] at hm ⊢; omega
  next := fun m hm => absurd hm (Nat.not_lt_zero m)
  phase := rfl
  pins := fun i hd => absurd hd.1 (by
    by_cases h : i = 0 <;> simp [St.init, h, Local.default])
  waited := fun _ i hd => absurd hd.1 (by
    by_cases h : i = 0 <;> simp [St.init, h, Local.default])
  wait := fun it hit => by cases hit

theorem PinInv.step {s s' : St} {lab : Label} (h : PinInv s) (hs : step s lab = some s') :
    PinInv s' := by
  have hc := stepCase hs
  cases epochStep hc with
  | same he hp hst =>
      have hkeep : ∀ {i}, s.Fresh i → s'.Fresh i := Fresh_step h.str hc he
      have hwait : (∀ it, s'.stage = .wait it → it.Linked ∧ ∀ i, it.passed i → s.Fresh i) ∧
          (s'.stage.waiting = false → ∀ i, s.Fresh i) := by
        rcases hst with hst | ⟨ch, e, fs, hcoll, hfree⟩
        · rw [hst]
          exact ⟨h.wait, h.waited⟩
        · exact h.wait_coll hcoll hfree
      refine ⟨pinStr_step h.str hc, he ▸ h.unpinned, ?_, ?_, ?_, ?_, fun i hd => ?_,
        fun hw i => hkeep (hwait.2 hw i),
        fun it hit => ⟨(hwait.1 it hit).1, fun i hi => hkeep ((hwait.1 it hit).2 i hi)⟩⟩
      · rw [he, hp]
        exact h.now
      · rw [he, hp]
        exact h.stamp
      · rw [he, hp]
        exact h.next
      · rw [he]
        rcases hst with hst | ⟨ch, e, fs, hcoll, hfree⟩
        · rw [hst]
          exact h.phase
        · exact collStep_inPhase hcoll hfree h.phase
      · rw [he, hp]
        rcases (node_step h.str hc i).pinDone (h.str.node i) hd with ⟨hd', hep⟩ | hep
        · rw [hep]
          exact h.pins i hd'
        · exact ⟨_, .inl rfl, by rw [hep, h.now]⟩
  | store hn hu hw hp hst =>
      have hnext := hn h.phase
      have hold : ∀ n ≤ s.epoch.timestamp, s'.past n = s.past n := by
        intro n hle
        rw [hp, Function.update_of_ne]
        have := hnext.1
        omega
      refine ⟨pinStr_step h.str hc, hu.trans h.unpinned, ?_, ?_, ?_, ?_, fun i hd => ?_, ?_, ?_⟩
      · rw [hp, Function.update_self]
      · intro n hle
        by_cases hlt : n ≤ s.epoch.timestamp
        · rw [hold n hlt]
          exact h.stamp n hlt
        · have : n = s'.epoch.timestamp := by
            have := hnext.1
            omega
          rw [this, hp, Function.update_self]
      · intro n hlt
        rw [hold n (by have := hnext.1; omega)]
        by_cases hlt' : n < s.epoch.timestamp
        · rw [hold (n + 1) hlt']
          exact h.next n hlt'
        · have hn : n = s.epoch.timestamp := by
            have := hnext.1
            omega
          rw [hn, h.now, ← hnext.1, hp, Function.update_self]
          exact hnext
      · rcases hst with hst | ⟨hst, hph⟩
        · rw [hst]
          rfl
        · rw [hst, hph]
          rfl
      · have hts := hnext.1
        rcases (node_step h.str hc i).pinDone (h.str.node i) hd with ⟨hd', hep⟩ | hep
        · obtain ⟨n, hn, he⟩ := h.pins i hd'
          have hfresh := h.waited hw i hd'
          rw [he] at hfresh
          have hstamp := h.stamp n (by omega)
          have hns : n = s.epoch.timestamp := hstamp.symm.trans hfresh
          exact ⟨n, .inr (by omega), by rw [hep, he, hold n (by omega)]⟩
        · exact ⟨s.epoch.timestamp, .inr (by omega), by rw [hep, hold _ (Nat.le_refl _), h.now]⟩
      · intro hw'
        rcases hst with hst | ⟨hst, -⟩ <;>
        · rw [St.waited, hst] at hw'
          cases hw'
      · intro it hit
        rcases hst with hst | ⟨hst, -⟩
        · rw [hst] at hit
          cases hit
          exact h.str.passed_firstNode _
        · rw [hst] at hit
          cases hit

/-! ## The protocol -/

/-- Every state of every run of the whole system. -/
abbrev Reachable (n : Nat) (s : St) : Prop :=
  Lts.Reaches step (fun _ _ => True) (St.init n) s

theorem PinInv.of_reachable {n : Nat} {s : St} (h : Reachable n s) : PinInv s :=
  h.invariant (PinInv.init n) fun hi _ hs => hi.step hs

/-- The ghost history is the history: it records every epoch the run has had. -/
theorem past_of_reaches {s s' : St} (h : PinInv s)
    (hr : Lts.Reaches step (fun _ _ => True) s s') :
    s.epoch.timestamp ≤ s'.epoch.timestamp ∧ s'.past s.epoch.timestamp = s.epoch := by
  refine (hr.invariant (I := fun s' => PinInv s' ∧ s.epoch.timestamp ≤ s'.epoch.timestamp ∧
    s'.past s.epoch.timestamp = s.epoch) ⟨h, Nat.le_refl _, h.now⟩ ?_).2
  rintro a b l ⟨ha, hle, hpast⟩ - hs
  refine ⟨ha.step hs, ?_⟩
  cases epochStep (stepCase hs) with
  | same he hp hst => rw [he, hp]; exact ⟨hle, hpast⟩
  | store hn hu hw hp hst =>
      have := (hn ha.phase).1
      exact ⟨by omega, by rw [hp, Function.update_of_ne (by omega), hpast]⟩

/-- Between the return of the wait and the next store the wait stays returned. -/
theorem waited_of_reaches {s s' : St} (h : PinInv s) (hw : s.waited)
    (hr : Lts.Reaches step (fun _ _ => True) s s') :
    s'.epoch.timestamp = s.epoch.timestamp → s'.waited := by
  refine (hr.invariant (I := fun s' => PinInv s' ∧ s.epoch.timestamp ≤ s'.epoch.timestamp ∧
    (s'.epoch.timestamp = s.epoch.timestamp → s'.waited)) ⟨h, Nat.le_refl _, fun _ => hw⟩ ?_).2.2
  rintro a b l ⟨ha, hle, hwait⟩ - hs
  refine ⟨ha.step hs, ?_⟩
  cases epochStep (stepCase hs) with
  | same he hp hst =>
      rw [he]
      refine ⟨hle, fun heq => ?_⟩
      rcases hst with hst | ⟨ch, e, fs, hcoll, hfree⟩
      · rw [St.waited, hst]
        exact hwait heq
      · exact collStep_waiting hcoll hfree (hwait heq)
  | store hn hu hw hp hst =>
      have := (hn ha.phase).1
      exact ⟨by omega, fun _ => by omega⟩

/-- Two complete pins are at the same timestamp or at consecutive ones. -/
theorem PinInv.pins_close {s : St} (h : PinInv s) {i j : Lid} (hi : (s.locals i).pinDone)
    (hj : (s.locals j).pinDone) :
    (s.locals i).epoch = (s.locals j).epoch ∨
    ∃ e : Epoch, e.Next s.epoch ∧
      (((s.locals i).epoch = e.pinned ∧ (s.locals j).epoch = s.epoch.pinned) ∨
      ((s.locals j).epoch = e.pinned ∧ (s.locals i).epoch = s.epoch.pinned)) := by
  obtain ⟨n, hn, hei⟩ := h.pins i hi
  obtain ⟨m, hm, hej⟩ := h.pins j hj
  by_cases hnm : n = m
  · exact .inl (by rw [hei, hej, hnm])
  · obtain ⟨k, hk⟩ : ∃ k, k + 1 = s.epoch.timestamp := ⟨s.epoch.timestamp - 1, by omega⟩
    have hnext := h.next k (by omega)
    rw [hk, h.now] at hnext
    refine .inr ⟨_, hnext, ?_⟩
    rcases hn with hn | hn
    · have hm' : m = k := by omega
      exact .inr ⟨by rw [hej, hm'], by rw [hei, hn, h.now]⟩
    · have hn' : n = k := by omega
      have hm' : m = s.epoch.timestamp := by omega
      exact .inl ⟨by rw [hei, hn'], by rw [hej, hm', h.now]⟩

/-- An N critical section that overlaps one in CT belongs to the next cycle. -/
theorem PinInv.no_N_with_CT {s : St} (h : PinInv s) {i j : Lid} (hi : (s.locals i).pinDone)
    (hj : (s.locals j).pinDone) (hN : (s.locals i).epoch.phase = .N)
    (hCT : (s.locals j).epoch.phase = .CT) :
    (s.locals i).epoch.color = (s.locals j).epoch.color.flip ∧
      (s.locals i).epoch.timestamp = (s.locals j).epoch.timestamp + 1 := by
  rcases h.pins_close hi hj with he | ⟨e, hnext, ⟨hei, hej⟩ | ⟨hej, hei⟩⟩
  · rw [he, hCT] at hN
    cases hN
  · rw [hei] at hN
    rw [hej] at hCT
    have := hnext.2
    simp only [show e.phase = .N from hN] at this
    rw [show s.epoch.phase = .CT from hCT] at this
    cases this.1
  · rw [hei] at hN
    rw [hej] at hCT
    have := hnext.2
    simp only [show e.phase = .CT from hCT] at this
    rw [show s.epoch.phase = .N from hN] at this
    rcases this with ⟨hc, -⟩ | ⟨-, hc⟩
    · cases hc
    · rw [hei, hej]
      exact ⟨hc, hnext.1⟩

/-- Once the wait for an epoch has returned, no pin completes at an older one. -/
theorem pinDone_of_waited {s s' : St} (h : PinInv s) (hw : s.waited)
    (hr : Lts.Reaches step (fun _ _ => True) s s') {i : Lid} (hd : (s'.locals i).pinDone) :
    s.epoch.timestamp ≤ (s'.locals i).epoch.timestamp := by
  have h' : PinInv s' := hr.invariant h fun hi _ hs => hi.step hs
  have hle := (past_of_reaches h hr).1
  by_cases heq : s'.epoch.timestamp = s.epoch.timestamp
  · have := h'.waited (waited_of_reaches h hw hr heq) i hd
    omega
  · obtain ⟨n, hn, he⟩ := h'.pins i hd
    have hstamp := h'.stamp n (by omega)
    rw [he]
    show s.epoch.timestamp ≤ (s'.past n).timestamp
    omega

/-- The pin protocol separates the phases, in every state of every run:
a complete pin is at the current or the previous timestamp, with the epoch the
run had there; once the wait for an epoch has returned, every complete pin is at
that epoch; an N critical section never overlaps the CT critical section of the
trace that follows it; and once the wait of RT has returned, no pin completes in
the N before it. -/
theorem pin_separates_phases {n : Nat} {s : St} (h : Reachable n s) :
    (∀ i, (s.locals i).pinDone →
      ((s.locals i).epoch.timestamp = s.epoch.timestamp ∨
        (s.locals i).epoch.timestamp + 1 = s.epoch.timestamp) ∧
      (s.locals i).epoch = (s.past (s.locals i).epoch.timestamp).pinned ∧
      ∀ s₁, Reachable n s₁ → Lts.Reaches step (fun _ _ => True) s₁ s →
        s₁.epoch.timestamp = (s.locals i).epoch.timestamp →
        (s.locals i).epoch = s₁.epoch.pinned) ∧
    (s.waited → ∀ i, (s.locals i).pinDone →
      (s.locals i).epoch.timestamp = s.epoch.timestamp) ∧
    (∀ i j, (s.locals i).pinDone → (s.locals j).pinDone → (s.locals i).epoch.phase = .N →
      (s.locals j).epoch.phase = .CT →
      (s.locals i).epoch.color = (s.locals j).epoch.color.flip ∧
      (s.locals i).epoch.timestamp = (s.locals j).epoch.timestamp + 1) ∧
    (s.waited → s.epoch.phase = .RT → ∀ s', Lts.Reaches step (fun _ _ => True) s s' →
      ∀ i, (s'.locals i).pinDone → s.epoch.timestamp ≤ (s'.locals i).epoch.timestamp) := by
  have hinv := PinInv.of_reachable h
  refine ⟨fun i hd => ?_, fun hw i => hinv.waited hw i,
    fun i j hi hj => hinv.no_N_with_CT hi hj, fun hw _ s' hr i => pinDone_of_waited hinv hw hr⟩
  obtain ⟨k, hk, he⟩ := hinv.pins i hd
  have hts : (s.locals i).epoch.timestamp = k := by
    rw [he]
    exact hinv.stamp k (by omega)
  refine ⟨hts ▸ hk, by rw [hts]; exact he, fun s₁ h₁ hr heq => ?_⟩
  rw [he, ← hts, ← heq, (past_of_reaches (PinInv.of_reachable h₁) hr).2]

/-- The collector stores RT while thread 1 is pinned in N and thread 2 pins
behind it. -/
def overlapRun : List Label :=
  [.register 1, .register 2, .op 1 .pin] ++ List.replicate 4 (.run 1 0) ++ [.coll 0, .op 2 .pin] ++
    List.replicate 4 (.run 2 0)

theorem pin_separates_phases_overlapRun :
    ∃ s, Reachable 1 s ∧ (s.locals 1).pinDone ∧ (s.locals 2).pinDone ∧
      (s.locals 1).epoch.phase = .N ∧ (s.locals 2).epoch.phase = .RT ∧
      (s.locals 2).epoch.timestamp = s.epoch.timestamp ∧
      ((s.locals 1).epoch.timestamp = s.epoch.timestamp ∨
        (s.locals 1).epoch.timestamp + 1 = s.epoch.timestamp) := by
  have hrun : ∃ s, Reachable 1 s ∧ (s.locals 1).pinDone ∧ (s.locals 2).pinDone ∧
      (s.locals 1).epoch.phase = .N ∧ (s.locals 2).epoch.phase = .RT ∧
      (s.locals 2).epoch.timestamp = s.epoch.timestamp :=
    Lts.exists_of_runs overlapRun (by decide +kernel)
  obtain ⟨s, hr, h1, h2, hN, hRT, hts⟩ := hrun
  exact ⟨s, hr, h1, h2, hN, hRT, hts, ((pin_separates_phases hr).1 1 h1).1⟩

end Cdpt
