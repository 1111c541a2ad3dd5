import Cdpt.Proofs.Effort

/-!
# A cycle comes to its end

A cycle by the collector alone ends, and every schedule of the collector, its scan
workers and its sweepers ends it, exactly when no mutator is pinned as it begins: a
thread that stays pinned holds the first wait up, and nothing else can hold up
anything. This is the total correctness of a collection: where it ends (`Collected`),
what is left is what root counts and hazard slots lead to, every object is in one
batch of `fresh_objs` again, and only the colours have changed places.

That every schedule ends is two statements, which `Lib.Inevitable` puts together:
every step makes a measure smaller in a well-founded order, and before the end some
step can be taken. The order is lexicographic. First the legs of the cycle that are
left, as the epochs are stored one after the other. Within a leg it is the measure
of `Effort`: what is still white, the threads that are not about to darken a link,
and the work in frames, batches and tasks, together with the collector's own
position; and in the last leg what the sweep workers have ahead of them.

The one step that goes back is the confirmation that finds a task or a record.
Nobody records while nobody of the program runs, so it goes back only for a task,
and the search that follows finds one (`confirm_advances`, `find_advances`); the
credit of the collector's position depends on whether there is a task, so that this
is paid for.

Who waits, waits for somebody who can move (`can_move`): the collector for its
workers, whose frames always have a next access, or for nodes to be unpinned. That
last wait is where a mutator matters. If one is pinned at the start it stays so in
these runs, its epoch falls behind with the first store, and the collector waits at
its node whatever else happens (`Parked`), which is the other direction of the
result.
-/

namespace Cdpt

open Relation Finset

/-! ## Epochs of threads that are not pinned, records of the past -/

/-- A thread without guards has no pinned epoch. -/
def Local.released (l : Local) : Prop := l.guardCount = 0 → l.epoch.isPinned = false

theorem released_of_eq {l l' : Local} (h : l.released) (hg : l'.guardCount = l.guardCount)
    (he : l'.epoch = l.epoch) : l'.released := by
  rw [Local.released, hg, he]
  exact h

theorem released_of_view {l l' : Local} (h : l.released) (hv : l'.pinView = l.pinView) :
    l'.released := by
  simp only [Local.pinView, Prod.mk.injEq] at hv
  exact released_of_eq h hv.2.1 hv.2.2.1

theorem view_setStack (s : St) (t i : Lid) (fs : List Frame) :
    ((s.setStack t fs).locals i).pinView = (s.locals i).pinView := by
  rw [setStack_locals]
  split
  · next h => rw [h]; rfl
  · rfl

theorem released_run {s : St} (hc : SectInv s) {t : Lid} {ch : Nat} {f : Frame}
    {rest : List Frame} (hst : (s.locals t).stack = f :: rest) (h : (s.locals t).released) :
    (((exec s t ch f).1.apply s t).locals t).released := by
  rcases exec_pinFree_or s t ch f with ⟨he, -⟩ | ⟨g, rfl⟩
  · exact released_of_view h (apply_pinView he s t t)
  · cases g with
    | pin =>
        simp only [exec, execPin]
        split <;> simp [Eff.apply, Local.released]
    | store e =>
        -- A thread that pins an epoch has counted its guard already.
        have hok := hc.node t
        rw [hst] at hok
        have hpos : 0 < (s.locals t).guardCount := hok.1.1 rfl
        simp only [exec, execPin, Eff.apply, Local.released, setLocal_locals]
        exact fun hg => absurd hg (Nat.ne_of_gt hpos)
    | unpin =>
        simp only [exec, execPin]
        split
        · simp [Eff.apply, Local.released]
          rfl
        · next hne =>
            simp only [Eff.apply, Local.released, setLocal_locals, if_pos]
            intro hg
            exact h (by omega)
    | _ =>
        refine released_of_eq h ?_ ?_
        all_goals
          simp only [exec, execPin]
          repeat' split
        all_goals simp [Eff.apply]

theorem released_step {s s' : St} {lab : Label} (hc : SectInv s) (hs : StepCase s lab s')
    {i : Lid} (h : (s.locals i).released) : (s'.locals i).released := by
  have hreg : ∀ t, ((s.register t).locals i).released := by
    intro t
    by_cases hit : i = t
    · subst hit
      unfold St.register
      split
      · rw [setLocal_locals, if_pos rfl]
        exact h
      · show ((s.setLocal i { Local.default with isUsing := true }).locals i).released
        rw [setLocal_locals, if_pos rfl]
        exact fun _ => rfl
    · rw [register_ne s hit]
      exact h
  cases hs with
  | op ht hu hst hcoll hop =>
      exact released_of_view h ((view_setStack ..).trans ((startOp_same hop).1.view i))
  | @run t ch f rest ht hst =>
      refine released_of_view ?_ (view_setStack ..)
      by_cases hit : i = t
      · subst hit
        exact released_run hc hst h
      · exact released_of_view h (exec_pinView_ne s ch f hit)
  | @coll ch e st fs hst hcoll =>
      exact released_of_view h ((view_setStack ..).trans (collStep_pinView hcoll _ i))
  | @sweep k ch w hw => exact released_of_view h (apply_pinView (sweepStep_pinFree s w ch) s _ i)
  | startWorker hj hr hcoll => exact released_of_view (hreg _) (view_setStack ..)
  | register hr hcoll => exact hreg _
  | @exit t ht hu hst hg hh hcoll =>
      simp only [setLocal_locals]
      split
      · next hit => exact hit ▸ h
      · exact h

theorem record_le {s s' : St} {lab : Label} (hp : PinInv s) (hc : SectInv s)
    (hs : StepCase s lab s') (i : Lid) :
    (s'.locals i).mtModifiedTs ≤ (s.locals i).mtModifiedTs ∨
    (∃ ch f rest, lab = .run i ch ∧ (s.locals i).stack = f :: rest) ∧
      (s'.locals i).mtModifiedTs ≤ s.epoch.timestamp := by
  have hstack : ∀ (u : St) (t : Lid) (fs : List Frame),
      ((u.setStack t fs).locals i).mtModifiedTs = (u.locals i).mtModifiedTs := by
    intro u t fs
    rw [setStack_locals]
    split
    · next h => rw [h]
    · rfl
  have hreg : ∀ t, ((s.register t).locals i).mtModifiedTs ≤ (s.locals i).mtModifiedTs := by
    intro t
    by_cases hit : i = t
    · subst hit
      unfold St.register
      split
      · simp
      · simp [Local.default]
    · rw [register_ne s hit]
  cases hs with
  | op ht hu hst hcoll hop =>
      exact .inl (Nat.le_of_eq ((hstack ..).trans (startOp_record hop i)))
  | @run t ch f rest ht hst =>
      rcases mtModifiedTs_apply (exec s t ch f).1 s t i with h | ⟨ts, he, rfl, hts⟩
      · exact .inl (Nat.le_of_eq ((hstack ..).trans h))
      · refine .inr ⟨⟨ch, f, rest, rfl, hst⟩, ?_⟩
        obtain ⟨rfl, hpin, hg⟩ := exec_recordMt he
        rw [hstack, hts]
        obtain ⟨n, hn, hepoch⟩ := hp.pins i (hc.head_phase hst hpin hg).1
        rw [hepoch]
        show (s.past n).timestamp ≤ _
        rw [hp.stamp n (by omega)]
        omega
  | @coll ch e st fs hst hcoll =>
      rcases mtModifiedTs_apply e s s.collector i with h | ⟨ts, he, -⟩
      · exact .inl (Nat.le_of_eq ((hstack ..).trans h))
      · exact absurd he (collStep_record hcoll ts)
  | @sweep k ch w hw =>
      rcases mtModifiedTs_apply (sweepStep s w ch).1 s s.collector i with h | ⟨ts, he, -⟩
      · exact .inl (Nat.le_of_eq h)
      · exact absurd he (sweepStep_record s w ch ts)
  | startWorker hj hr hcoll => exact .inl ((hstack ..).trans_le (hreg _))
  | register hr hcoll => exact .inl (hreg _)
  | @exit t ht hu hst hg hh hcoll =>
      refine .inl ?_
      simp only [setLocal_locals]
      split
      · next h => rw [h]
      · exact Nat.le_refl _

theorem timestamp_le {s s' : St} {lab : Label} (hp : PinInv s) (hs : StepCase s lab s') :
    s.epoch.timestamp ≤ s'.epoch.timestamp := by
  cases epochStep hs with
  | same he => rw [he]
  | store hn =>
      rw [(hn hp.phase).1]
      exact Nat.le_succ _

/-- No thread has recorded a timestamp that is still to come. -/
theorem recorded_of_reachable {n : Nat} {s : St} (h : Reachable n s) (i : Lid) :
    (s.locals i).mtModifiedTs ≤ s.epoch.timestamp := by
  suffices hinv : Ground s ∧ ∀ i, (s.locals i).mtModifiedTs ≤ s.epoch.timestamp from hinv.2 i
  refine Lts.Reaches.invariant
    (I := fun s => Ground s ∧ ∀ i, (s.locals i).mtModifiedTs ≤ s.epoch.timestamp) h
    ⟨.init n, fun i => ?_⟩ fun {a b lab} hI _ hs => ?_
  · by_cases hi : i = 0 <;> simp [St.init, hi, Local.default]
  · obtain ⟨hg, hle⟩ := hI
    have hcase := stepCase hs
    have hmono := timestamp_le hg.pin hcase
    refine ⟨hg.step hs, fun i => ?_⟩
    rcases record_le hg.pin hg.sect hcase i with h | ⟨-, h⟩
    · exact (h.trans (hle i)).trans hmono
    · exact h.trans hmono

theorem released_of_reachable {n : Nat} {s : St} (h : Reachable n s) (i : Lid) :
    (s.locals i).released := by
  suffices hinv : Ground s ∧ ∀ i, (s.locals i).released from hinv.2 i
  refine Lts.Reaches.invariant (I := fun s => Ground s ∧ ∀ i, (s.locals i).released) h
    ⟨.init n, fun i => ?_⟩ fun {a b lab} hI _ hs => ?_
  · by_cases hi : i = 0
    · subst hi
      exact fun _ => rfl
    · have hdef : (St.init n).locals i = Local.default := by simp [St.init, hi]
      rw [hdef]
      exact fun _ => rfl
  · exact ⟨hI.1.step hs, fun i => released_step hI.1.sect (stepCase hs) (hI.2 i)⟩

/-! ## Runs of the collector that nobody holds up -/

/-- A state of a cycle by the collector alone in which no mutator is pinned. -/
structure Lone (n : Nat) (s₀ s : St) : Prop where
  quiet : Quiet n s₀ s
  free : ∀ {t}, t ≠ s.collector → (s.locals t).stack = [] → (s.locals t).guardCount = 0
  stamp : s.epoch.phase = .CT → s.stage.checking = true →
    ∀ i, (s.locals i).mtModifiedTs < s.epoch.timestamp
  own : ∀ i, ((s.locals i).objs s₀.epoch.color.flip).1 = []

theorem checking_rests {st : Stage} (h : st.checking = true) : st.rests = true := by
  cases st <;> first | rfl | cases h

theorem collStep_enters {s : St} {ch : Nat} {e : Eff} {st : Stage} {fs : List Frame}
    (h : collStep s ch = some (e, st, fs)) (hst : st.checking = true) :
    s.stage.checking = true ∨ s.stage = .idle ∨ s.stage = .complete ∨ s.stage = .joinSweep := by
  cases hs : s.stage with
  | wait | conf1 | conf2 | conf3 => exact .inl rfl
  | idle => exact .inr (.inl rfl)
  | complete => exact .inr (.inr (.inl rfl))
  | joinSweep => exact .inr (.inr (.inr rfl))
  | _ =>
      simp only [collStep, hs] at h
      repeat' split at h
      all_goals
        cases h
        try cases hst

section Lone

variable {n : Nat} {s₀ s s' : St} {lab : Label} (h : Lone n s₀ s) (hs : StepCase s lab s')

include h hs

theorem Lone.free_step {t : Lid} (ht : t ≠ s'.collector) (hst : (s'.locals t).stack = []) :
    (s'.locals t).guardCount = 0 := by
  have hp := (PinInv.of_reachable h.quiet.reach).str
  rw [(step_nLocals hs).2] at ht
  have hstep := node_step hp hs t
  generalize s'.locals t = l at hst hstep
  cases hstep with
  | same hv hs' => exact (congrArg (fun v => v.2.1) hv).trans (h.free ht (hs' ▸ hst))
  | push hu hst' hv => exact (congrArg (fun v => v.2.1) hv).trans (h.free ht hst')
  | @run ch f rest hst' hv hs' =>
      -- A worker that leaves has dropped its guard.
      rw [hst] at hs'
      obtain ⟨hnil, rfl⟩ := List.append_eq_nil_iff.1 hs'.symm
      obtain ⟨g, hg, hx⟩ := h.quiet.still.alone ht (by simp [hst'])
      rw [hst'] at hg
      obtain rfl := List.mem_singleton.1 hg
      have hexit := (hp.node t).exit
      rw [hst', exitOk, if_pos hx] at hexit
      cases g with
      | pin g =>
          cases g with
          | workerExit =>
              refine (congrArg (fun v => v.2.1) hv).trans (Eq.trans ?_ hexit.1)
              simp [exec, execPin, Eff.apply, Local.pinView]
          | _ => cases hx
      | _ => cases hx
  | join _ _ _ _ hg => exact hg
  | leave _ _ _ hg => exact hg

/-- Nobody of the program is there to put a new object into a batch. -/
theorem Lone.own_step (hst : StockInv s) (i : Lid) :
    ((s'.locals i).objs s₀.epoch.color.flip).1 = [] := by
  rcases own_cases hst hs i s₀.epoch.color.flip with he | he | ⟨ch, o, newly, rest, -, hstk, -⟩
  · rw [he]
    exact h.own i
  · exact he
  · have hf : .ptr (.pushObj o newly) ∈ (s.locals i).stack := hstk ▸ List.mem_cons_self ..
    cases h.quiet.still.quiet hf

theorem Lone.stamp_step (hCT : s'.epoch.phase = .CT) (hst : s'.stage.checking = true) (i : Lid) :
    (s'.locals i).mtModifiedTs < s'.epoch.timestamp := by
  have hg := Ground.of_reachable h.quiet.reach
  have hkeep : s'.epoch = s.epoch → s.stage.checking = true →
      (s'.locals i).mtModifiedTs < s'.epoch.timestamp := by
    intro he hst₀
    rw [he] at hCT ⊢
    rcases record_le hg.pin hg.sect hs i with hle | ⟨⟨ch, f, rest, -, hstk⟩, -⟩
    · exact hle.trans_lt (h.stamp hCT hst₀ i)
    · rw [h.quiet.still.rests (checking_rests hst₀) i] at hstk
      cases hstk
  cases cycle_step hs with
  | other _ he hst' => exact hkeep he (hst' ▸ hst)
  | coll _ hstk hcoll hfree he hst' =>
      rcases collStep_enters hcoll (hst' ▸ hst) with hc | hc | hc | hc
      · exact hkeep he hc
      · simp only [collStep, hc] at hcoll
        cases hcoll
        cases hfree
      · simp only [collStep, hc] at hcoll
        cases hcoll
        cases hfree
      · have hin := hg.pin.phase
        rw [hc, ← he, hCT] at hin
        cases hin
  | root _ _ _ he => rw [he] at hCT; cases hCT
  | complete _ hfix _ he =>
      rw [hfix.locals, he]
      exact Nat.lt_succ_of_le (recorded_of_reachable h.quiet.reach i)
  | normal _ _ _ he => rw [he] at hCT; cases hCT

end Lone

/-! ## The measure -/

/-- The legs of a cycle, counted from its end. -/
def Stage.leg (ph : Phase) : Stage → Nat
  | .idle => 0
  | .wait _ =>
      match ph with
      | .N => 1
      | .CT => 4
      | .RT => 6
  | .joinSweep => 2
  | .nextNormal => 3
  | .drain | .find | .steal _ | .complete | .conf1 _ | .conf2 _ | .conf3 _ => 4
  | .joinScan => 5
  | .scan | .pending _ | .pendPush _ _ _ | .pendStat _ _ | .hps _ _ | .spawnScan _ => 6

/-- Before the cycle begins, the collector may still have to finish the last one. -/
def St.leg (s s₀ : St) : Nat :=
  s.stage.leg s.epoch.phase + if s.epoch.timestamp ≤ s₀.epoch.timestamp then 7 else 0

/-- What a sweep worker has ahead of it, in objects and shards. -/
def Sweeper.weight (w : Sweeper) : Nat :=
  2 * w.todo.length + (w.hi - w.q) + (if w.survived = [] then 0 else 1) + 1

/-- What all of them have. -/
def St.sweepWork (s : St) : Nat :=
  (s.sweepers.map Sweeper.weight).sum + shards (fun _ b => 2 * b.length + 1) s.markedObjs

/-- The order of progress within a leg. -/
def St.rest (s : St) : ℕ ×ₗ ℕ ×ₗ ℕ :=
  if s.stage = .joinSweep then toLex (0, toLex (0, s.sweepWork))
  else toLex (s.scene.undone, toLex (s.restless, s.effort s.scene))

def St.measure (s s₀ : St) : ℕ ×ₗ ℕ ×ₗ ℕ ×ₗ ℕ ×ₗ ℕ :=
  toLex (s.leg s₀, toLex (s.jobs.length, s.rest))

theorem measure_lt {s s' s₀ : St} (h : s'.leg s₀ < s.leg s₀ ∨ s'.leg s₀ ≤ s.leg s₀ ∧
    (s'.jobs.length < s.jobs.length ∨ s'.jobs = s.jobs ∧ s'.rest < s.rest)) :
    s'.measure s₀ < s.measure s₀ := by
  refine Prod.Lex.toLex_lt_toLex.2 ?_
  rcases h with h | ⟨hle, h⟩
  · exact .inl h
  · rcases Nat.lt_or_eq_of_le hle with hlt | heq
    · exact .inl hlt
    · refine .inr ⟨heq, Prod.Lex.toLex_lt_toLex.2 ?_⟩
      rcases h with h | ⟨hj, h⟩
      · exact .inl h
      · exact .inr ⟨congrArg List.length hj, h⟩

theorem rest_lt {s s' : St} (hst : s.stage ≠ .joinSweep) (hst' : s'.stage ≠ .joinSweep)
    (h : s'.scene.undone < s.scene.undone ∨ s'.scene.undone = s.scene.undone ∧
      (s'.restless < s.restless ∨
        s'.restless ≤ s.restless ∧ s'.effort s'.scene < s.effort s.scene)) : s'.rest < s.rest := by
  rw [St.rest, St.rest, if_neg hst, if_neg hst', Prod.Lex.toLex_lt_toLex]
  rcases h with h | ⟨h, h' | ⟨hle, h'⟩⟩
  · exact .inl h
  · exact .inr ⟨h, Prod.Lex.toLex_lt_toLex.2 (.inl h')⟩
  · refine .inr ⟨h, Prod.Lex.toLex_lt_toLex.2 ?_⟩
    rcases Nat.lt_or_eq_of_le hle with hlt | heq
    · exact .inl hlt
    · exact .inr ⟨heq, h'⟩

theorem leg_lt {s s' s₀ : St} (ht : s.epoch.timestamp ≤ s'.epoch.timestamp)
    (h : s'.stage.leg s'.epoch.phase < s.stage.leg s.epoch.phase) : s'.leg s₀ < s.leg s₀ := by
  unfold St.leg
  split <;> split <;> omega

theorem leg_le {s s' s₀ : St} (ht : s.epoch.timestamp ≤ s'.epoch.timestamp)
    (h : s'.stage.leg s'.epoch.phase = s.stage.leg s.epoch.phase) : s'.leg s₀ ≤ s.leg s₀ := by
  unfold St.leg
  split <;> split <;> omega

/-! ## One step of the collector -/

section Pays

variable {n : Nat} {s₀ s : St} {ch : Nat} {e : Eff} {st : Stage} {fs : List Frame}

/-- A step of the collector within a leg is paid for by its position and by what it
takes from a queue, whatever it does to the batches and to the queues. -/
def St.pays (s : St) (e : Eff) (st : Stage) (fs : List Frame) : Prop :=
  ∀ own busy, (∀ i, own i ≤ s.openBatch s.scene i) → (e.onTasks = false → busy = s.busy) →
    (fs.map (s.scene.frame s.collector s.collector)).sum + e.spends s.scene s.collector +
        st.credit s.scene s.collector own busy <
      s.stage.credit s.scene s.collector (s.openBatch s.scene) s.busy +
        e.earns s.scene s s.collector

/-- It gets on to the next leg or goes on in this one. -/
def St.advances (s : St) (e : Eff) (st : Stage) (fs : List Frame) : Prop :=
  st.leg s.epoch.phase < s.stage.leg s.epoch.phase ∨
  st.leg s.epoch.phase = s.stage.leg s.epoch.phase ∧ s.pays e st fs

theorem pays_of_credit {fs : List Frame}
    (h : (fs.map (s.scene.frame s.collector s.collector)).sum +
        st.credit s.scene s.collector (s.openBatch s.scene) s.busy <
      s.stage.credit s.scene s.collector (s.openBatch s.scene) s.busy) : s.pays .nop st fs := by
  intro own busy hown hbusy
  rw [hbusy rfl]
  have := credit_mono (v := s.scene) hown s.collector s.busy st
  simp only [Eff.spends, Eff.earns]
  omega

theorem rank_first (f : Nat → Nat) :
    s.firstNode.rank s.scene.nLocals f = s.scene.firstNode.rank s.scene.nLocals f := rfl

/-- A walk over the nodes goes on. -/
theorem move_advances {K : Iter → Stage} {f : Nat → Nat} {k : Nat} (all : Bool) {it : Iter}
    (hK : ∀ it, (K it).credit s.scene s.collector (s.openBatch s.scene) s.busy =
      it.rank s.scene.nLocals f + k)
    (hleg : ∀ it it', (K it).leg s.epoch.phase = (K it').leg s.epoch.phase) (hst : s.stage = K it)
    (hm : it.moves = true) : s.advances .nop (K (s.iterStep all it)) [] := by
  have hlt := rank_iterStep s f all it hm
  refine .inr ⟨hst ▸ hleg _ _, pays_of_credit ?_⟩
  rw [hst, hK, hK, List.map_nil, List.sum_nil, Nat.zero_add]
  exact Nat.add_lt_add_right hlt k

theorem wait_advances {it : Iter} (hst : s.stage = .wait it)
    (hact : ∀ i nx, it = .act i nx → (s.locals i).epoch.isPinned = false)
    (h : collStep s ch = some (e, st, fs)) : s.advances e st fs := by
  have hround : s.firstNode.rank s.scene.nLocals (fun _ => 0) = s.scene.round := rfl
  have hphase : s.scene.epoch.phase = s.epoch.phase := rfl
  have hstep := h
  simp only [collStep, hst, Option.some.injEq, Prod.mk.injEq] at hstep
  obtain ⟨rfl, rfl, rfl⟩ := hstep
  cases it with
  | act i nx =>
      simp only [hact i nx rfl, true_or, if_true]
      refine .inr ⟨by rw [hst]; rfl, pays_of_credit ?_⟩
      simp only [hst, Stage.credit, rank_goto, rank_act, List.map_nil, List.sum_nil]
      omega
  | fin =>
      simp only [St.afterWait]
      cases hph : s.epoch.phase with
      | N =>
          refine .inl ?_
          rw [hst, hph]
          exact Nat.zero_lt_one
      | RT =>
          refine .inr ⟨by rw [hst, hph]; rfl, pays_of_credit ?_⟩
          simp only [hst, Stage.credit, hphase, hph, rank_fin, List.map_nil, List.sum_nil]
          omega
      | CT =>
          refine .inr ⟨by rw [hst, hph]; rfl, pays_of_credit ?_⟩
          simp only [hst, Stage.credit, hphase, hph, rank_fin, hround, List.map_nil, List.sum_nil]
          split <;> omega
  | node i => exact move_advances (K := .wait) false (fun _ => rfl) (fun _ _ => rfl) hst rfl
  | test i nx => exact move_advances (K := .wait) false (fun _ => rfl) (fun _ _ => rfl) hst rfl

/-- Taking the batches of the nodes, and scanning the slots. -/
theorem gather_advances (hwhite : s.white s.collector = s.epoch.color)
    (hst : (∃ it, s.stage = .pending it) ∨ (∃ b m nx, s.stage = .pendPush b m nx) ∨
      (∃ m nx, s.stage = .pendStat m nx) ∨ ∃ h acc, s.stage = .hps h acc)
    (h : collStep s ch = some (e, st, fs)) : s.advances e st fs := by
  rcases hst with ⟨it, hst⟩ | ⟨b, m, nx, hst⟩ | ⟨m, nx, hst⟩ | ⟨hp, acc, hst⟩
  · cases it with
    | act i nx =>
        simp only [collStep, hst] at h
        split at h
        · cases h
          refine .inr ⟨by rw [hst]; rfl, pays_of_credit ?_⟩
          simp only [hst, Stage.credit, rank_goto, rank_act, List.map_nil, List.sum_nil]
          omega
        · cases h
          refine .inr ⟨by rw [hst]; rfl, fun own busy hown _ => ?_⟩
          have hnext := gotoRank_mono (n := s.scene.nLocals) hown nx
          have hopen : s.openBatch s.scene i =
              s.scene.batch ((s.locals i).objs (s.white s.collector)).1 + 2 := by
            rw [hwhite]
            rfl
          simp only [hst, Stage.credit, Eff.spends, Eff.earns, rank_act, hopen, List.map_nil,
            List.sum_nil]
          omega
    | fin =>
        simp only [collStep, hst] at h
        cases h
        refine .inr ⟨by rw [hst]; rfl, pays_of_credit ?_⟩
        have hfirst : s.scene.firstNode = s.firstNode := rfl
        simp only [hst, Stage.credit, rank_fin, hfirst, List.map_nil, List.sum_nil]
        omega
    | node i =>
        simp only [collStep, hst] at h
        cases h
        exact move_advances (K := .pending) true (fun _ => Nat.add_assoc ..) (fun _ _ => rfl)
          hst rfl
    | test i nx =>
        simp only [collStep, hst] at h
        cases h
        exact move_advances (K := .pending) true (fun _ => Nat.add_assoc ..) (fun _ _ => rfl)
          hst rfl
  · simp only [collStep, hst] at h
    cases h
    refine .inr ⟨by rw [hst]; rfl, fun own busy hown _ => ?_⟩
    have hnext := gotoRank_mono (n := s.scene.nLocals) hown nx
    simp only [hst, Stage.credit, Eff.spends, Eff.earns, List.map_nil, List.sum_nil]
    omega
  · simp only [collStep, hst] at h
    cases h
    refine .inr ⟨by rw [hst]; rfl, fun own busy hown _ => ?_⟩
    have hnext := gotoRank_mono (n := s.scene.nLocals) hown nx
    simp only [hst, Stage.credit, Eff.spends, Eff.earns, rank_goto, List.map_nil, List.sum_nil]
    omega
  · simp only [collStep, hst, Option.some.injEq, Prod.mk.injEq] at h
    obtain ⟨rfl, rfl, rfl⟩ := h
    by_cases hfin : hp = .iter .fin
    · subst hfin
      refine .inr ⟨by rw [hst]; rfl, pays_of_credit ?_⟩
      simp only [hst, Stage.credit, HpScan.rank, rank_fin, List.map_nil, List.sum_nil]
      omega
    · have hlt := rank_hpStep s acc hfin
      split
      · exact absurd rfl hfin
      · refine .inr ⟨by rw [hst]; rfl, pays_of_credit ?_⟩
        simp only [hst, Stage.credit, List.map_nil, List.sum_nil]
        omega

/-- Looking for a task. A queue pays for what is found in it, and a search that finds
none has seen that there is none. -/
theorem find_advances (hbusy : s.stage = .steal .fin → s.busy = false)
    (hst : s.stage = .find ∨ ∃ it, s.stage = .steal it)
    (h : collStep s ch = some (e, st, fs)) : s.advances e st fs := by
  have hround : s.firstNode.rank s.scene.nLocals (fun _ => 0) = s.scene.round := rfl
  have hslack := credit_busy s.scene s.collector
  rcases hst with hst | ⟨it, hst⟩
  · simp only [collStep, hst] at h
    split at h
    · next o q hq =>
        cases h
        refine .inr ⟨by rw [hst], fun own busy _ _ => ?_⟩
        have := hslack own busy s.busy .find
        simp only [hst, Stage.credit, Eff.spends, Eff.earns, hq, List.map_cons, List.map_nil,
          List.sum_cons, List.sum_nil, List.take_succ_cons, List.take_zero, Scene.frame,
          Scene.markFrame, Scene.queued] at this ⊢
        omega
    · cases h
      refine .inr ⟨by rw [hst]; rfl, pays_of_credit ?_⟩
      simp only [hst, Stage.credit, hround, List.map_nil, List.sum_nil]
      split <;> omega
  · cases it with
    | act i nx =>
        simp only [collStep, hst] at h
        split at h
        · next o q hq =>
            cases h
            refine .inr ⟨by rw [hst]; rfl, fun own busy _ _ => ?_⟩
            have := hslack own busy true .find
            simp only [hst, Stage.credit, Eff.spends, Eff.earns, hq, List.map_cons, List.map_nil,
              List.sum_cons, List.sum_nil, List.take_succ_cons, List.take_zero, Scene.frame,
              Scene.markFrame, Scene.queued, rank_act, if_true] at this ⊢
            omega
        · cases h
          refine .inr ⟨by rw [hst]; rfl, pays_of_credit ?_⟩
          simp only [hst, Stage.credit, rank_goto, rank_act, List.map_nil, List.sum_nil]
          omega
    | fin =>
        simp only [collStep, hst] at h
        cases h
        refine .inr ⟨by rw [hst]; rfl, pays_of_credit ?_⟩
        simp only [hst, hbusy hst, Stage.credit, rank_fin, List.map_cons, List.map_nil,
          List.sum_cons, List.sum_nil, Scene.frame, Scene.pinFrame, Bool.false_eq_true, if_false]
        omega
    | node i =>
        simp only [collStep, hst] at h
        cases h
        exact move_advances (K := .steal) true (fun _ => rfl) (fun _ _ => rfl) hst rfl
    | test i nx =>
        simp only [collStep, hst] at h
        cases h
        exact move_advances (K := .steal) true (fun _ => rfl) (fun _ _ => rfl) hst rfl

theorem busy_of_task (hlt : s.TasksLt) {i : Lid} (h : (s.locals i).markTasks ≠ []) :
    s.busy = true := by
  refine decide_eq_true ⟨i, ?_, h⟩
  by_contra hge
  exact h (hlt i (Nat.not_lt.1 hge))

/-- The confirmation. Nobody records while nobody runs, so it goes back only for a task,
which is then found. -/
theorem confirm_advances (hlt : s.TasksLt)
    (hclean : ∀ i, (s.locals i).mtModifiedTs ≠ s.epoch.timestamp)
    (hbusy : s.stage = .conf2 .fin → s.busy = false)
    (hst : (∃ it, s.stage = .conf1 it) ∨ (∃ it, s.stage = .conf2 it) ∨ ∃ it, s.stage = .conf3 it)
    (h : collStep s ch = some (e, st, fs)) : s.advances e st fs := by
  have hround : s.firstNode.rank s.scene.nLocals (fun _ => 0) = s.scene.round := rfl
  rcases hst with ⟨it, hst⟩ | ⟨it, hst⟩ | ⟨it, hst⟩
  · cases it with
    | act i nx =>
        simp only [collStep, hst, if_neg (hclean i)] at h
        cases h
        refine .inr ⟨by rw [hst]; rfl, pays_of_credit ?_⟩
        simp only [hst, Stage.credit, rank_goto, rank_act, List.map_nil, List.sum_nil]
        omega
    | fin =>
        simp only [collStep, hst] at h
        cases h
        refine .inr ⟨by rw [hst]; rfl, pays_of_credit ?_⟩
        simp only [hst, Stage.credit, rank_fin, hround, List.map_nil, List.sum_nil]
        split <;> omega
    | node i =>
        simp only [collStep, hst] at h
        cases h
        exact move_advances (K := .conf1) true (fun _ => rfl) (fun _ _ => rfl) hst rfl
    | test i nx =>
        simp only [collStep, hst] at h
        cases h
        exact move_advances (K := .conf1) true (fun _ => rfl) (fun _ _ => rfl) hst rfl
  · cases it with
    | act i nx =>
        simp only [collStep, hst] at h
        by_cases htask : (s.locals i).markTasks = []
        · rw [if_pos htask] at h
          cases h
          refine .inr ⟨by rw [hst]; rfl, pays_of_credit ?_⟩
          simp only [hst, Stage.credit, rank_goto, rank_act, List.map_nil, List.sum_nil]
          omega
        · rw [if_neg htask] at h
          cases h
          refine .inr ⟨by rw [hst]; rfl, pays_of_credit ?_⟩
          simp only [hst, busy_of_task hlt htask, Stage.credit, rank_act, List.map_nil,
            List.sum_nil, if_true]
          omega
    | fin =>
        simp only [collStep, hst] at h
        cases h
        refine .inr ⟨by rw [hst]; rfl, pays_of_credit ?_⟩
        simp only [hst, hbusy hst, Stage.credit, rank_fin, hround, List.map_nil, List.sum_nil,
          Bool.false_eq_true, if_false]
        omega
    | node i =>
        simp only [collStep, hst] at h
        cases h
        exact move_advances (K := .conf2) true (fun _ => rfl) (fun _ _ => rfl) hst rfl
    | test i nx =>
        simp only [collStep, hst] at h
        cases h
        exact move_advances (K := .conf2) true (fun _ => rfl) (fun _ _ => rfl) hst rfl
  · cases it with
    | act i nx =>
        simp only [collStep, hst, if_neg (hclean i)] at h
        cases h
        refine .inr ⟨by rw [hst]; rfl, pays_of_credit ?_⟩
        simp only [hst, Stage.credit, rank_goto, rank_act, List.map_nil, List.sum_nil]
        omega
    | fin =>
        simp only [collStep, hst] at h
        cases h
        refine .inl ?_
        rw [hst]
        exact Nat.lt_succ_self 3
    | node i =>
        simp only [collStep, hst] at h
        cases h
        exact move_advances (K := .conf3) true (fun _ => rfl) (fun _ _ => rfl) hst rfl
    | test i nx =>
        simp only [collStep, hst] at h
        cases h
        exact move_advances (K := .conf3) true (fun _ => rfl) (fun _ _ => rfl) hst rfl

/-- What holds of a lone state that the collector moves in. -/
theorem Lone.released (h : Lone n s₀ s) {it : Iter} (hst : s.stage = .wait it) (i : Lid) :
    (s.locals i).epoch.isPinned = false := by
  have hg := Ground.of_reachable h.quiet.reach
  have hidle := h.quiet.still.rests (by rw [hst]; rfl)
  refine released_of_reachable h.quiet.reach i ?_
  by_cases hi : i = s.collector
  · have hcoll := (hg.sect.collector hg.pin (hidle _)).1
    rw [hst] at hcoll
    rw [hi]
    exact hcoll
  · exact h.free hi (hidle i)

theorem Lone.clean (h : Lone n s₀ s) (hst : s.stage.checking = true) (hCT : s.epoch.phase = .CT)
    (i : Lid) : (s.locals i).mtModifiedTs ≠ s.epoch.timestamp :=
  Nat.ne_of_lt (h.stamp hCT hst i)

theorem Lone.not_busy (h : Lone n s₀ s) (hst : s.stage.searching = some .fin) : s.busy = false := by
  refine decide_eq_false ?_
  rintro ⟨t, -, ht⟩
  exact ht ((h.quiet.drained.walk hst).2 t trivial)

theorem Lone.advances (h : Lone n s₀ s) (hstk : (s.locals s.collector).stack = [])
    (hcoll : collStep s ch = some (e, st, fs)) (hfree : e.pinFree = true) :
    s.advances e st fs := by
  have hwf := WellFormed.of_reachable h.quiet.reach
  have hphase := hwf.ground.pin.phase
  have hclean : s.stage.checking = true → s.epoch.phase = .CT →
      ∀ i, (s.locals i).mtModifiedTs ≠ s.epoch.timestamp := h.clean
  cases hst : s.stage with
  | wait it => exact wait_advances hst (fun i _ _ => h.released hst i) hcoll
  | pending | pendPush | pendStat | hps =>
      have hwhite := (hwf.ground.white_collector hstk (by rw [hst]; rfl)).1
      refine gather_advances hwhite ?_ hcoll
      simp [hst]
  | find | steal =>
      refine find_advances (fun hst => h.not_busy (by rw [hst]; rfl)) ?_ hcoll
      simp [hst]
  | conf1 | conf2 | conf3 =>
      have hCT : s.epoch.phase = .CT := by
        rw [hst] at hphase
        exact of_decide_eq_true hphase
      refine confirm_advances hwf.tasks (hclean (by rw [hst]; rfl) hCT)
        (fun hst => h.not_busy (by rw [hst]; rfl)) ?_ hcoll
      simp [hst]
  | scan =>
      simp only [collStep, hst] at hcoll
      cases hcoll
      refine .inr ⟨by rw [hst]; rfl, pays_of_credit ?_⟩
      simp only [hst, Stage.credit, rank_first, Scene.frame, Scene.pinFrame, List.map_cons,
        List.map_nil, List.sum_cons, List.sum_nil]
      omega
  | drain =>
      simp only [collStep, hst] at hcoll
      cases hcoll
      refine .inr ⟨by rw [hst]; rfl, pays_of_credit ?_⟩
      simp only [hst, Stage.credit, Scene.frame, Scene.pinFrame, List.map_cons, List.map_nil,
        List.sum_cons, List.sum_nil]
      split <;> omega
  | idle | complete | nextNormal =>
      simp only [collStep, hst] at hcoll
      cases hcoll
      cases hfree
  | spawnScan hs =>
      simp only [collStep, hst] at hcoll
      cases hcoll
      refine .inl ?_
      rw [hst]
      exact Nat.lt_succ_self 5
  | joinScan =>
      simp only [collStep, hst] at hcoll
      split at hcoll
      · cases hcoll
        refine .inl ?_
        rw [hst]
        exact Nat.lt_succ_self 4
      · cases hcoll
  | joinSweep =>
      simp only [collStep, hst] at hcoll
      split at hcoll
      · cases hcoll
        refine .inl ?_
        have hN : s.epoch.phase = .N := by
          rw [hst] at hphase
          exact of_decide_eq_true hphase
        rw [hst, hN]
        exact Nat.lt_succ_self 1
      · cases hcoll

theorem leg_joinScan {ph : Phase} {st : Stage} (h : st.leg ph = 5) : st = .joinScan := by
  cases st with
  | joinScan => rfl
  | wait it => cases ph <;> cases h
  | _ => cases h

theorem leg_joinSweep {ph : Phase} {st : Stage} (h : st.leg ph = 2) : st = .joinSweep := by
  cases st with
  | joinSweep => rfl
  | wait it => cases ph <;> cases h
  | _ => cases h

/-- Within a leg nobody has to be waited for. -/
theorem joins_of_leg {ph : Phase} (h : collStep s ch = some (e, st, fs))
    (hleg : st.leg ph = s.stage.leg ph) :
    (s.stage ≠ .joinScan ∧ st ≠ .joinScan) ∧ s.stage ≠ .joinSweep ∧ st ≠ .joinSweep := by
  have hscan : s.stage ≠ .joinScan := by
    intro hst
    simp only [collStep, hst] at h
    split at h
    · cases h
      rw [hst] at hleg
      cases hleg
    · cases h
  have hsweep : s.stage ≠ .joinSweep := by
    intro hst
    simp only [collStep, hst] at h
    split at h
    · cases h
      rw [hst] at hleg
      cases ph <;> cases hleg
    · cases h
  refine ⟨⟨hscan, fun hst => ?_⟩, hsweep, fun hst => ?_⟩
  · rw [hst] at hleg
    exact hscan (leg_joinScan hleg.symm)
  · rw [hst] at hleg
    exact hsweep (leg_joinSweep hleg.symm)

theorem collStep_objs (h : collStep s ch = some (e, st, fs)) (t : Lid) :
    (e.apply s t).objs = s.objs := by
  unfold collStep at h
  simp only at h
  repeat' split at h
  all_goals cases h
  all_goals rfl

/-- A collector's step that is paid for and leaves the scene alone. -/
theorem effort_coll {s' : St} (hc : s.collector < s.nLocals)
    (hstk : (s.locals s.collector).stack = []) (hcoll : collStep s ch = some (e, st, fs))
    (hs' : s' = ((e.apply s s.collector).withStage st).setStack s.collector fs)
    (hfit : e.fits s s.collector) (hlt : s.TasksLt) (hpays : s.pays e st fs) :
    s'.effort s.scene < s.effort s.scene := by
  have htask : ∀ i, (s'.locals i).markTasks =
      ((e.apply s s.collector).locals i).markTasks := fun i => by
    rw [hs', setStack_tasks, withStage_locals]
  have hobj : ∀ i, (s'.locals i).objs = ((e.apply s s.collector).locals i).objs := fun i => by
    rw [hs', setStack_locals, withStage_locals]
    split
    · next h => rw [h]
    · rfl
  have hown : ∀ i, s'.openBatch s.scene i ≤ s.openBatch s.scene i := by
    intro i
    rw [St.openBatch, St.openBatch, hobj]
    rcases own_effect e s s.collector i s.scene.epoch.color with heq | heq | ⟨o, newly, rfl, -⟩
    · rw [heq]
    · rw [heq]
      exact Nat.add_le_add_right (Nat.le_add_left ..) 2
    · have hmove := (collStep_moves hcoll).1
      cases hmove with
      | idle _ he => cases he
  have hbusy : e.onTasks = false → s'.busy = s.busy := by
    intro he
    refine busy_congr (by rw [hs']; exact apply_nLocals ..) fun i => (htask i).trans ?_
    rcases markTasks_apply e s s.collector i with heq | ⟨o, rfl, -⟩ | ⟨rfl, -⟩ | ⟨j, n, rfl, -⟩
    · exact heq
    · cases he
    · cases he
    · cases he
  have hpay := hpays _ _ hown hbusy
  have happly := chores_apply (v := s.scene) hc hfit fun {j m} he => by
    obtain ⟨o, q, hq, -⟩ := (collStep_tasks hcoll).2.2 j m he
    by_contra hge
    rw [hlt j (Nat.not_lt.1 hge)] at hq
    cases hq
  have hstack := chores_setStack (v := s.scene) (s := (e.apply s s.collector).withStage st)
    (t := s.collector) (by rw [withStage_nLocals, apply_nLocals]; exact hc) fs
  have hstage : ((e.apply s s.collector).withStage st).chores s.scene =
      (e.apply s s.collector).chores s.scene := rfl
  have hst' : s'.stage = st := by rw [hs']; rfl
  have hcol : s'.collector = s.collector := by rw [hs']; exact apply_collector ..
  rw [← hs', withStage_collector, withStage_locals, apply_collector, apply_stack, hstk, hstage,
    List.map_nil, List.sum_nil] at hstack
  rw [St.effort, St.effort, hst', hcol]
  omega

/-- In a state at rest nobody is about to darken anything. -/
theorem restless_idle {s' : St} (hn : s'.nLocals = s.nLocals)
    (hkeep : ∀ i, (s.locals i).stack = [] ∨
      s'.scene = s.scene ∧ (s'.locals i).stack = (s.locals i).stack) :
    s'.restless ≤ s.restless := by
  refine restless_le hn fun i hi => ?_
  rcases hkeep i with hnil | ⟨hscene, hstk⟩
  · obtain ⟨f, hf, -⟩ := hi
    rw [hnil] at hf
    cases hf
  · rw [St.poised, hscene, hstk]
    exact hi

/-- A new epoch of the same colour changes no weight but those of threads that pin. -/
theorem complete_down {s' : St} (hst : s.stage = .complete) (hfix : Frozen s s')
    (hn : s'.nLocals = s.nLocals) (hc : s'.collector = s.collector)
    (he : s'.epoch = s.transEpoch .CT) (hst' : s'.stage = .wait s.firstNode)
    (hidle : ∀ t, (s.locals t).stack = []) : s'.rest < s.rest := by
  have hscene : s'.scene = { s.scene with epoch := s'.epoch } := by
    refine Scene.ext hn hfix.nextObj rfl hfix.objs ?_ ?_
    · funext i
      simp only [St.scene, hfix.locals]
    · funext i ver
      simp only [St.scene, St.hazardArray, hfix.locals]
  have hcolor : s'.epoch.color = s.epoch.color := by rw [he]; rfl
  have hundone : s'.scene.undone = s.scene.undone := by
    rw [hscene]
    simp only [Scene.undone, Scene.black, hcolor]
    rfl
  refine rest_lt (fun h => ?_) (fun h => ?_) (.inr ⟨hundone, .inr ⟨?_, ?_⟩⟩)
  · rw [hst] at h
    cases h
  · rw [hst'] at h
    cases h
  · exact restless_idle hn fun i => .inl (hidle i)
  · have hchores : s'.chores s'.scene = s.chores s.scene := by
      have hsame : s'.chores s'.scene = s.chores s'.scene := by
        refine chores_congr hn hc (fun i => ?_) (fun i => ?_) hfix.freshObjs <;> rw [hfix.locals]
      rw [hsame, hscene]
      simp only [St.chores, St.nodeWork, hidle, List.map_nil, List.sum_nil]
      rfl
    have hbusy : s'.busy = s.busy := busy_congr hn fun i => by rw [hfix.locals]
    have hround : s.firstNode.rank s.scene.nLocals (fun _ => 0) = s.scene.round := rfl
    have hwait : s'.stage.credit s'.scene s'.collector (s'.openBatch s'.scene) s'.busy =
        s.scene.round + if s.busy then 3 * s.scene.round + s.scene.slots s.collector + 14
          else 3 * s.scene.round + 4 := by
      have hCT : s'.epoch.phase = .CT := by rw [he]; rfl
      rw [hst', hscene, hc, hbusy]
      simp only [Stage.credit, hCT]
      rfl
    rw [St.effort, St.effort, hchores, hwait, hst]
    simp only [Stage.credit]
    split <;> omega

/-- A step of the collector brings the cycle on. -/
theorem Lone.coll_down {s' : St} (hn : 0 < n) (h : Lone n s₀ s)
    (hs : Cdpt.step s (.coll ch) = some s')
    (hidle : s.stage = .idle → s.epoch = s₀.epoch) : s'.measure s₀ < s.measure s₀ := by
  have hcase := stepCase hs
  have hwf := WellFormed.of_reachable h.quiet.reach
  have hsect := hwf.ground.sect
  have hp := hwf.ground.pin
  have hsect' : SectInv s' := (Ground.of_reachable (.tail h.quiet.reach trivial hs)).sect
  have htime := timestamp_le hp hcase
  have hstock := (PlaceInv.of_reachable hn h.quiet.reach).stock
  obtain ⟨-, hcol⟩ := step_nLocals hcase
  have hstk : (s.locals s.collector).stack = [] := by
    cases hcase with
    | coll hst => exact hst
  have hnode : s'.nLocals = s.nLocals := by
    cases hcase with
    | coll => exact apply_nLocals ..
  have hrest : s.stage ≠ .joinScan → s'.stage ≠ .joinScan → s'.jobs = s.jobs := by
    intro hst hst'
    have hnone : ∀ {u : St}, SectInv u → u.stage ≠ .joinScan → u.jobs = [] := by
      intro u hu hne
      by_contra hj
      exact hne (hu.jobs hj)
    rw [hnone hsect hst, hnone hsect' hst']
  cases cycle_step hcase with
  | other hl => cases hl
  | @coll ch e st fs _ _ hcoll hfree he hst' hs' =>
      rcases h.advances hstk hcoll hfree with hlt | ⟨heq, hpays⟩
      · exact measure_lt (.inl (leg_lt htime (by rw [hst', he]; exact hlt)))
      · obtain ⟨⟨hscan, hscan'⟩, hsweep, hsweep'⟩ := joins_of_leg hcoll heq
        have hstack : ∀ i, i ≠ s.collector → (s'.locals i).stack = (s.locals i).stack := by
          intro i hi
          rw [hs', setStack_stack_ne _ _ hi, withStage_locals, apply_stack]
        have hc : s.collector < s.nLocals := by
          by_contra hge
          have := hp.str.beyond _ (Nat.not_lt.1 hge)
          rw [hp.str.coll] at this
          cases this
        have hscene : s'.scene = s.scene := by
          subst hs'
          rw [scene_setStack]
          exact scene_apply (collStep_slotFree hcoll) he (collStep_objs hcoll _)
        have hfit : e.fits s s.collector := by
          rcases hstock.coll_fits (collStep_moves hcoll).1 with hfit | hst
          · exact hfit
          · simp only [collStep, hst] at hcoll
            cases hcoll
            cases hfree
        refine measure_lt (.inr ⟨leg_le htime (by rw [hst', he]; exact heq), .inr ⟨?_, ?_⟩⟩)
        · exact hrest hscan (hst' ▸ hscan')
        · refine rest_lt hsweep (hst' ▸ hsweep') (.inr ⟨by rw [hscene], .inr ⟨?_, ?_⟩⟩)
          · refine restless_idle hnode fun i => ?_
            by_cases hi : i = s.collector
            · exact .inl (hi ▸ hstk)
            · exact .inr ⟨hscene, hstack i hi⟩
          · rw [hscene]
            exact effort_coll hc hstk hcoll hs' hfit hwf.tasks hpays
  | root hst hfix _ he hst' =>
      refine measure_lt (.inl ?_)
      have htime₀ : s.epoch.timestamp ≤ s₀.epoch.timestamp := by rw [hidle hst]
      have htime' : ¬ s'.epoch.timestamp ≤ s₀.epoch.timestamp := by
        rw [he, ← hidle hst]
        exact Nat.not_succ_le_self _
      rw [St.leg, St.leg, if_pos htime₀, if_neg htime', hst, hst', he]
      exact Nat.lt_succ_self 6
  | complete hst hfix _ he hst' =>
      have hall : ∀ t, (s.locals t).stack = [] := by
        intro t
        by_cases ht : t = s.collector
        · exact ht ▸ hstk
        · exact h.quiet.still.others hsect (by rw [hst]; exact Stage.noConfusion) ht
      refine measure_lt (.inr ⟨leg_le htime (by rw [hst, hst', he]; rfl), .inr ⟨?_, ?_⟩⟩)
      · exact hrest (by rw [hst]; exact Stage.noConfusion) (by rw [hst']; exact Stage.noConfusion)
      · exact complete_down hst hfix hnode hcol he hst' hall
  | normal hst _ _ he hst' =>
      refine measure_lt (.inl (leg_lt htime ?_))
      rw [hst, hst']
      exact Nat.lt_succ_self 2

end Pays

/-! ## One step of a thread -/

section Threads

variable {n : Nat} {s₀ s s' : St}

theorem guarded_of_marking {f : Frame} (h : f.marking = true) :
    f.pinning = false ∧ f.guarded = true := by
  cases f with
  | mark f => exact ⟨rfl, rfl⟩
  | ptr f => cases f <;> first | exact ⟨rfl, rfl⟩ | cases h
  | pin f => cases h
  | help f => cases h

/-- A step of a worker, or of the collector inside a call, brings the cycle on. -/
theorem Lone.run_down {t : Lid} {ch : Nat} (hn : 0 < n) (hset : Settled s₀) (h : Lone n s₀ s)
    (hs : Cdpt.step s (.run t ch) = some s') : s'.measure s₀ < s.measure s₀ := by
  have hwf := WellFormed.of_reachable h.quiet.reach
  have hg := hwf.ground
  have hstill := h.quiet.still
  have hcase := stepCase hs
  have htime := timestamp_le hg.pin hcase
  have hstage : s'.stage = s.stage := stage_of_not_coll hcase rfl
  have he : s'.epoch = s.epoch := by
    rcases epoch_cases hcase with he | ⟨⟨ch, hl⟩, -⟩
    · exact he
    · cases hl
  cases hcase with
  | @run t ch f rest ht hst =>
      have hmem : f ∈ (s.locals t).stack := hst ▸ List.mem_cons_self
      have hne : (s.locals t).stack ≠ [] := List.ne_nil_of_mem hmem
      have hsweep : s.stage ≠ .joinSweep := by
        intro hj
        exact hne (hstill.rests (by rw [hj]; rfl) t)
      have hlt : ∀ {o}, s₀.Reached o → o < s.nextObj := fun ho =>
        h.quiet.same.nextObj ▸ hset.lt ho
      have hmarks := h.quiet.traces.frame hmem
      have hdown := Cdpt.run_down ht hst rfl he (hstill.quiet hmem) (hstill.runs hg hst ch).1
        ((PlaceInv.of_reachable hn h.quiet.reach).stock.run_fits ht (exec_batches s t ch f))
        (fun hm => by
          obtain ⟨hp, hgd⟩ := guarded_of_marking hm
          have hd := (hg.sect.head_phase hst hp hgd).1
          exact black_of_pinDone hg.pin (hstill.phase hg.pin hne).2 hd)
        (fun hf => by subst hf; exact hlt hmarks)
        (fun hf => by subst hf; exact ⟨hlt hmarks.1, hmarks.2⟩) (hstill.helps hg hst)
        fun o ho => by
          cases (FreeSlots.of_reachable h.quiet.reach).empty (hstill.unowned hne) _ ho
      refine measure_lt (.inr ⟨leg_le htime (by rw [hstage, he]), .inr ⟨?_, ?_⟩⟩)
      · rw [setStack_jobs, apply_jobs (exec_byCollector ..)]
      · refine rest_lt hsweep (hstage ▸ hsweep) ?_
        rcases hdown with hlt | ⟨hscene, hdown⟩
        · exact .inl hlt
        · exact .inr ⟨by rw [hscene], hdown⟩

/-- A worker that starts takes a range of shards. -/
theorem Lone.worker_down {t : Lid} (h : Lone n s₀ s) (hs : Cdpt.step s (.startWorker t) = some s') :
    s'.measure s₀ < s.measure s₀ := by
  have hcase := stepCase hs
  have htime := timestamp_le (PinInv.of_reachable h.quiet.reach) hcase
  have hstage : s'.stage = s.stage := stage_of_not_coll hcase rfl
  have he : s'.epoch = s.epoch := by
    rcases epoch_cases hcase with he | ⟨⟨ch, hl⟩, -⟩
    · exact he
    · cases hl
  cases hcase with
  | startWorker hj hr hc =>
      refine measure_lt (.inr ⟨leg_le htime (by rw [hstage, he]), .inl ?_⟩)
      rw [hj]
      exact Nat.lt_succ_self _

/-- What a step of a sweeper does to its own work and to the batches it takes. -/
theorem sweep_pays (w : Sweeper) (ch : Nat) (hst : StockInv s) :
    (((sweepStep s w ch).2.map Sweeper.weight).getD 0) +
        shards (fun _ b => 2 * b.length + 1) ((sweepStep s w ch).1.apply s s.collector).markedObjs <
      w.weight + shards (fun _ b => 2 * b.length + 1) s.markedObjs := by
  unfold sweepStep
  split
  · next o rest ho =>
      split
      · simp only [Option.map_some, Option.getD_some, Sweeper.weight, ho, List.length_cons,
          Eff.apply, St.setObj]
        omega
      · split
        · simp only [Option.map_some, Option.getD_some, Sweeper.weight, ho, List.length_cons,
            Eff.apply]
          repeat' split
          all_goals omega
        · simp only [pushWithinCapacity_nil, Except.toOption, Option.map_some, Option.getD_some,
            Sweeper.weight, ho, List.length_cons, Eff.apply]
          repeat' split
          all_goals omega
  · next ho =>
      split
      · next hq =>
          split
          · next b bs hb =>
              have hpop := shards_pop (fun _ b => 2 * b.length + 1) s.markedObjs w.prevWhite
                (hst.marked_lt hb)
              rw [hb] at hpop
              simp only [List.take_succ_cons, List.take_zero, List.map_cons, List.map_nil,
                List.sum_cons, List.sum_nil] at hpop
              simp only [Option.map_some, Option.getD_some, Sweeper.weight, ho, List.length_nil,
                Eff.apply, hb]
              omega
          · simp only [Option.map_some, Option.getD_some, Sweeper.weight, Eff.apply]
            omega
      · split
        · next hs =>
            simp only [Option.map_some, Option.getD_some, Sweeper.weight, Eff.apply, if_neg hs,
              if_true]
            omega
        · simp only [Option.map_none, Option.getD_none, Sweeper.weight, Eff.apply]
          omega

/-- A step of a sweeper brings the cycle on. -/
theorem Lone.sweep_down {k ch : Nat} (hn : 0 < n) (h : Lone n s₀ s)
    (hs : Cdpt.step s (.sweep k ch) = some s') : s'.measure s₀ < s.measure s₀ := by
  have hstock := (PlaceInv.of_reachable hn h.quiet.reach).stock
  have hcase := stepCase hs
  have htime := timestamp_le (PinInv.of_reachable h.quiet.reach) hcase
  have hstage : s'.stage = s.stage := stage_of_not_coll hcase rfl
  have he : s'.epoch = s.epoch := by
    rcases epoch_cases hcase with he | ⟨⟨ch, hl⟩, -⟩
    · exact he
    · cases hl
  cases hcase with
  | @sweep k ch w hw =>
      have hjoin := hstock.sweepers (List.ne_nil_of_mem (List.mem_of_getElem? hw))
      have hpay := sweep_pays w ch hstock
      refine measure_lt (.inr ⟨leg_le htime (by rw [hstage, he]), .inr ⟨?_, ?_⟩⟩)
      · rw [withSweepers_jobs, apply_jobs (sweepStep_byCollector ..)]
      · rw [St.rest, St.rest, if_pos hjoin, if_pos (hstage ▸ hjoin), Prod.Lex.toLex_lt_toLex]
        refine .inr ⟨rfl, Prod.Lex.toLex_lt_toLex.2 (.inr ⟨rfl, ?_⟩)⟩
        cases hr : (sweepStep s w ch).2 with
        | some w' =>
            have hsum := Sums.sum_map_set Sweeper.weight w' hw
            rw [hr] at hpay
            simp only [Option.map_some, Option.getD_some] at hpay
            simp only [St.sweepWork, withSweepers_sweepers, withSweepers_markedObjs]
            omega
        | none =>
            have hsum := Sums.sum_map_eraseIdx Sweeper.weight hw
            rw [hr] at hpay
            simp only [Option.map_none, Option.getD_none] at hpay
            simp only [St.sweepWork, withSweepers_sweepers, withSweepers_markedObjs]
            omega

end Threads

/-! ## Somebody can move -/

theorem stack_lt {s : St} (hp : PinStr s) {t : Lid} (h : (s.locals t).stack ≠ []) :
    t < s.nLocals := by
  by_contra hge
  exact h ((hp.node t).unused (hp.beyond t (Nat.not_lt.1 hge))).2

theorem collStep_none {s : St} {ch : Nat} (h : collStep s ch = none) :
    (s.stage = .joinScan ∧ ¬ (s.jobs = [] ∧ s.workersDone)) ∨
    (s.stage = .joinSweep ∧ s.sweepers ≠ []) := by
  unfold collStep at h
  simp only at h
  repeat' split at h
  all_goals first
    | (cases h; done)
    | (next hst hj => exact .inl ⟨hst, hj⟩)
    | (next hst hw => exact .inr ⟨hst, hw⟩)

/-- Who waits, waits for somebody who can move. -/
theorem can_move {s : St} (hp : PinStr s) :
    ∃ lab s', byCollector s lab ∧ Cdpt.step s lab = some s' := by
  by_cases hbusy : ∃ t, (s.locals t).stack ≠ []
  · obtain ⟨t, hne⟩ := hbusy
    refine ⟨.run t 0, ?_⟩
    cases hst : (s.locals t).stack with
    | nil => exact absurd hst hne
    | cons f rest =>
        simp only [Cdpt.step, if_pos (stack_lt hp hne), hst]
        exact ⟨_, rfl, rfl⟩
  · have hidle : ∀ t, (s.locals t).stack = [] := fun t => by
      by_contra hne
      exact hbusy ⟨t, hne⟩
    cases hcoll : collStep s 0 with
    | some r =>
        refine ⟨.coll 0, ?_⟩
        simp only [Cdpt.step, if_pos (hidle _), hcoll]
        exact ⟨_, rfl, rfl⟩
    | none =>
        rcases collStep_none hcoll with ⟨-, hjoin⟩ | ⟨-, hw⟩
        · have hdone : s.workersDone := fun t _ f hf => by
            rw [hidle t] at hf
            cases hf
          -- a new node is always there for a worker
          have hne : s.nLocals ≠ s.collector := fun heq => by
            have := hp.beyond _ heq.le
            rw [hp.coll] at this
            cases this
          refine ⟨.startWorker s.nLocals, ?_⟩
          cases hj : s.jobs with
          | nil => exact absurd ⟨hj, hdone⟩ hjoin
          | cons job js =>
              simp only [Cdpt.step, hj]
              exact ⟨_, rfl, if_pos ⟨.inr rfl, hne⟩⟩
        · refine ⟨.sweep 0 0, ?_⟩
          cases hs : s.sweepers with
          | nil => exact absurd hs hw
          | cons w ws =>
              simp only [Cdpt.step, hs, List.getElem?_cons_zero]
              exact ⟨_, rfl, rfl⟩

/-! ## A mutator that stays pinned -/

section Parked

variable {s s' : St} {t : Lid}

/-- A node without a call in progress is left alone. -/
theorem parked_step {lab : Label} (hp : PinStr s) (hs : StepCase s lab s')
    (hl : lab.silent = true) (hu : (s.locals t).isUsing = true) (ht : t ≠ s.collector)
    (hst : (s.locals t).stack = []) :
    (s'.locals t).pinView = (s.locals t).pinView ∧ (s'.locals t).stack = [] := by
  cases hs with
  | op | register | exit => cases hl
  | @run i ch f rest hi hstk =>
      have hne : t ≠ i := by
        rintro rfl
        rw [hst] at hstk
        cases hstk
      rw [view_setStack, setStack_stack_ne _ _ hne, apply_stack]
      exact ⟨exec_pinView_ne s ch f hne, hst⟩
  | @coll ch e st fs hstk hcoll =>
      rw [view_setStack, setStack_stack_ne _ _ ht, withStage_locals, apply_stack]
      exact ⟨collStep_pinView hcoll _ t, hst⟩
  | @sweep k ch w hw =>
      refine ⟨apply_pinView (sweepStep_pinFree s w ch) s _ t, ?_⟩
      rw [withSweepers_locals, apply_stack]
      exact hst
  | @startWorker i lo hi hz js hj hr hc =>
      have hne : t ≠ i := by
        rintro rfl
        rw [hp.free hr] at hu
        cases hu
      rw [view_setStack, setStack_stack_ne _ _ hne, withJobs_locals, register_ne s hne]
      exact ⟨rfl, hst⟩

theorem epoch_grows {lab : Label} (hp : PinInv s) (hs : StepCase s lab s') :
    s'.epoch = s.epoch ∨ s.epoch.timestamp < s'.epoch.timestamp := by
  cases epochStep hs with
  | same he => exact .inl he
  | store hn =>
      right
      rw [(hn hp.phase).1]
      exact Nat.lt_succ_self _

/-- What stays as it was at `s₀` while thread `t` stays pinned. -/
structure Parked (n : Nat) (s₀ : St) (t : Lid) (s : St) : Prop where
  reach : Reachable n s
  coll : s.collector = s₀.collector
  view : (s.locals t).pinView = (s₀.locals t).pinView
  stack : (s.locals t).stack = []
  grows : s.epoch = s₀.epoch ∨ s₀.epoch.timestamp < s.epoch.timestamp

theorem Parked.step {n : Nat} {s₀ : St} {lab : Label} (h : Parked n s₀ t s)
    (hpos : (s₀.locals t).guardCount ≠ 0) (ht : t ≠ s₀.collector) (hl : lab.silent = true)
    (hs : Cdpt.step s lab = some s') : Parked n s₀ t s' := by
  have hp := PinInv.of_reachable h.reach
  have hcase := stepCase hs
  have hu : (s.locals t).isUsing = true := by
    cases hu : (s.locals t).isUsing with
    | true => rfl
    | false =>
        have hzero := ((hp.str.node t).unused hu).1
        exact absurd ((congrArg (fun v => v.2.1) h.view).symm.trans hzero) hpos
  obtain ⟨hview, hst⟩ := parked_step hp.str hcase hl hu (h.coll ▸ ht) h.stack
  refine ⟨.tail h.reach trivial hs, (step_nLocals hcase).2.trans h.coll,
    hview.trans h.view, hst, ?_⟩
  rcases epoch_grows hp hcase with he | hlt
  · exact he ▸ h.grows
  · rcases h.grows with he | hlt'
    · exact .inr (he ▸ hlt)
    · exact .inr (hlt'.trans hlt)

/-- The collector waits for a thread that stays pinned, whatever else happens. -/
theorem Parked.waits {n : Nat} {s₀ : St} (h : Parked n s₀ t s) (h₀ : Reachable n s₀)
    (hd : (s₀.locals t).pinDone) (hst : s.stage = .idle) : s.epoch = s₀.epoch := by
  refine h.grows.resolve_right fun hlt => ?_
  have hp := PinInv.of_reachable h.reach
  have hp₀ := PinInv.of_reachable h₀
  have hwaited : s.waited := by
    rw [St.waited, hst]
    rfl
  have hview := h.view
  simp only [Local.pinView, Prod.mk.injEq] at hview
  have hd' : (s.locals t).pinDone := by
    refine ⟨hview.2.1 ▸ hd.1, fun f hf => ?_⟩
    rw [h.stack] at hf
    cases hf
  -- the epoch it has pinned is one of the past, and the current one
  obtain ⟨k, hk, hpast⟩ := hp₀.pins t hd
  have hepoch : (s₀.past k).pinned = s.epoch.pinned :=
    hpast.symm.trans (hview.2.2.1.symm.trans (hp.epoch_of_waited hwaited hd'))
  have htime : (s₀.past k).pinned.timestamp = s.epoch.pinned.timestamp :=
    congrArg Epoch.timestamp hepoch
  change (s₀.past k).timestamp = s.epoch.timestamp at htime
  rw [hp₀.stamp k (by omega)] at htime
  omega

end Parked

/-! ## The end of a cycle -/

/-- What a root count or a hazard slot leads to. -/
def St.Needed (s : St) (o : Oid) : Prop :=
  ∃ r, ((s.Live r ∧ 0 < s.rootCount r) ∨ ∃ t k, s.slotHolds t k r) ∧ ReflTransGen s.points r o

/-- With no operation in flight that is what the program can get at. -/
theorem Settled.needed {n : Nat} {s : St} (h : Reachable n s) (hset : Settled s) (o : Oid) :
    s.Needed o ↔ s.Reached o := by
  have hwf := WellFormed.of_reachable h
  have hb := balanced_of_reachable h
  constructor
  · rintro ⟨r, hr, hpath⟩
    refine ⟨r, ?_, hpath⟩
    rcases hr with ⟨hlive, hpos⟩ | hslot
    · exact .inl (cell_of_rootCount hwf hb hset.white.idle hlive.1 hpos)
    · exact .inr hslot
  · rintro ⟨r, hr, hpath⟩
    refine ⟨r, ?_, hpath⟩
    rcases hr with ⟨c, x, hx, ha⟩ | hslot
    · exact .inl ⟨hset.live r (.of_root (.inl ⟨c, x, hx, ha⟩)), rootCount_pos_of_cell hwf hb hx ha⟩
    · exact .inr hslot

/-- The objects in the batches of `fresh_objs[c]`. -/
def St.inFresh (s : St) (c : Color) : Multiset Oid :=
  ∑ q ∈ range objBatchesShard, ((s.freshObjs c q).map fun b : List Oid => (b : Multiset Oid)).sum

section Batches

variable {s : St} (hP : PlaceInv s) (hset : Settled s)

include hP hset

/-- Between two cycles no batch waits to be swept. -/
theorem Settled.marked (hst : s.stage = .idle) (c : Color) (q : Nat) : s.markedObjs c q = [] := by
  by_cases hc : c = s.epoch.color
  · rw [hc]
    exact hP.marked hset.white.normal q
  · rw [Color.eq_flip_of_ne hc]
    by_contra hne
    obtain ⟨hjoin, -⟩ := hP.swept hne
    rw [hst] at hjoin
    cases hjoin

/-- The threads' own batches of the other colour are empty. -/
theorem Settled.own (hown : ∀ i, ((s.locals i).objs s.epoch.color).1 = []) (i : Lid) (c : Color) :
    ((s.locals i).objs c).1 = [] := by
  by_cases hc : c = s.epoch.color
  · rw [hc]
    exact hown i
  · rw [Color.eq_flip_of_ne hc]
    exact (hP.old hset.white.normal).1 i

/-- If those of this one are too, every object is in one batch of `fresh_objs`. -/
theorem Settled.inFresh {n : Nat} (h : Reachable n s) (hst : s.stage = .idle)
    (hown : ∀ i, ((s.locals i).objs s.epoch.color).1 = []) : s.inFresh s.epoch.color =
      (Multiset.range s.nextObj).filter fun o => (s.objs o).reclaimed = false := by
  have hfresh := (hP.old hset.white.normal).2
  rw [← stored_filter h, St.stored, hset.white.swept, hst]
  simp only [hset.own hP hown, hset.marked hP hst, hset.white.idle, shards, List.map_nil,
    List.sum_nil, Stage.batch, Multiset.coe_nil, add_zero, sum_const_zero, zero_add]
  rw [St.inFresh]
  refine sum_congr rfl fun q _ => ?_
  have hflip := hfresh q
  cases hc : s.epoch.color with
  | C0 =>
      rw [hc] at hflip
      rw [show s.freshObjs .C1 q = [] from hflip, List.map_nil, List.sum_nil, add_zero]
  | C1 =>
      rw [hc] at hflip
      rw [show s.freshObjs .C0 q = [] from hflip, List.map_nil, List.sum_nil, zero_add]

end Batches

/-- A cycle that began at `s₀` is over. What is left is what a root count or a hazard
slot leads to, in one batch each, the heap is the same up to the colours, and the next
cycle finds what this one has found, with the colours exchanged. -/
structure Collected (s₀ s : St) : Prop where
  idle : s.stage = .idle
  flip : s.epoch.color = s₀.epoch.color.flip
  settled : Settled s
  unpinned : ∀ t, (s.locals t).guardCount = 0
  same : Untouched s₀ s
  live : ∀ o, s.Live o ↔ s₀.Needed o
  fresh : s.inFresh s.epoch.color =
    (Multiset.range s.nextObj).filter fun o => (s.objs o).reclaimed = false
  own : ∀ t c, ((s.locals t).objs c).1 = []
  marked : ∀ c q, s.markedObjs c q = []

theorem Collected.next {s₀ s : St} (h : Collected s₀ s) : s.epoch ≠ s₀.epoch := fun he =>
  Color.flip_ne _ ((congrArg Epoch.color he).symm.trans h.flip).symm

section Finish

variable {n : Nat} {s₀ s s' : St} (hn : 0 < n) (h₀ : Reachable n s₀) (hset : Settled s₀)

include hn h₀ hset

theorem Lone.start (hfree : ∀ t, (s₀.locals t).guardCount = 0) : Lone n s₀ s₀ where
  quiet := .start hn h₀ hset
  free _ _ := hfree _
  stamp hCT := by
    rw [hset.white.normal] at hCT
    cases hCT
  own := ((PlaceInv.of_reachable hn h₀).old hset.white.normal).1

theorem Lone.collected (h : Lone n s₀ s) (hst : s.stage = .idle) (hne : s.epoch ≠ s₀.epoch) :
    Collected s₀ s := by
  have hset' := h.quiet.settled hn hset hst
  have hP := PlaceInv.of_reachable hn h.quiet.reach
  have hg := hP.wf.ground
  have hflip : s.epoch.color = s₀.epoch.color.flip := by
    cases h.quiet.turn with
    | before he => exact absurd he hne
    | trace hN => exact absurd hset'.white.normal hN
    | after _ hc => exact hc
  have hown : ∀ i, ((s.locals i).objs s.epoch.color).1 = [] := hflip ▸ h.own
  exact {
    idle := hst
    flip := hflip
    settled := hset'
    unpinned := fun t => by
      by_cases ht : t = s.collector
      · have hguards := (hg.sect.collector hg.pin (hset'.white.idle _)).1
        rw [hst] at hguards
        exact ht ▸ hguards
      · exact h.free ht (hset'.white.idle t)
    same := h.quiet.same
    live := fun o => ⟨fun ho => (hset.needed h₀ o).2 (h.quiet.kept_reached hn hst hne ho),
      fun ho => h.quiet.live o ((hset.needed h₀ o).1 ho)⟩
    fresh := hset'.inFresh hP h.quiet.reach hst hown
    own := hset'.own hP hown
    marked := hset'.marked hP hst }

theorem Lone.step {lab : Label} (h : Lone n s₀ s) (hnot : ¬ Collected s₀ s)
    (hl : byCollector s lab) (hs : Cdpt.step s lab = some s') :
    Lone n s₀ s' ∧ s'.measure s₀ < s.measure s₀ := by
  have hidle : s.stage = .idle → s.epoch = s₀.epoch := fun hst => by
    by_contra hne
    exact hnot (h.collected hn h₀ hset hst hne)
  have hcase := stepCase hs
  have hstock := (PlaceInv.of_reachable hn h.quiet.reach).stock
  refine ⟨⟨?_, h.free_step hcase, h.stamp_step hcase, h.own_step hcase hstock⟩, ?_⟩
  · rcases h.quiet.step hn h₀ hset hs hl with hq | ⟨hst, hne⟩
    · exact hq
    · exact absurd (hidle hst) hne
  · cases lab with
    | op | register | exit => cases hl
    | run t ch => exact h.run_down hn hset hs
    | coll ch => exact h.coll_down hn hs hidle
    | sweep k ch => exact h.sweep_down hn hs
    | startWorker t => exact h.worker_down hs

end Finish

/-- Nothing but a pinned mutator holds up a cycle: left to itself, the collector ends
one under every schedule exactly when no thread is pinned. It has then given back what
no root count and no hazard slot leads to and nothing else, and a cycle can begin again
with the colours exchanged. -/
theorem collection_finishes {n : Nat} {s₀ : St} (hn : 0 < n) (h₀ : Reachable n s₀)
    (hset : Settled s₀) : Lts.Inevitably step byCollector (Collected s₀) s₀ ↔
      ∀ t, (s₀.locals t).guardCount = 0 := by
  constructor
  · intro hall t
    by_contra hpos
    obtain ⟨s, hr, hdone⟩ := hall.reaches
    have hp₀ := PinInv.of_reachable h₀
    have hd : (s₀.locals t).pinDone := by
      refine ⟨Nat.pos_of_ne_zero hpos, fun f hf => ?_⟩
      rw [hset.white.idle t] at hf
      cases hf
    have hcoll : t ≠ s₀.collector := by
      rintro rfl
      have hguards := ((Ground.of_reachable h₀).sect.collector hp₀ (hset.white.idle _)).1
      have hin := hp₀.phase
      rw [hset.white.normal] at hin
      refine hpos (hguards.trans ?_)
      generalize s₀.stage = st at hin
      cases st <;> first | rfl | cases hin
    have hparked := hr.invariant (I := Parked n s₀ t)
      ⟨h₀, rfl, rfl, hset.white.idle t, .inl rfl⟩ fun h hl hs => h.step hpos hcoll hl hs
    exact hdone.next (hparked.waits h₀ hd hdone.idle)
  · intro hfree
    exact Lts.Inevitably.of_measure (I := Lone n s₀) (μ := fun s => s.measure s₀)
      (fun h _ => can_move (PinInv.of_reachable h.quiet.reach).str)
      (fun h hnot hl hs => h.step hn h₀ hset hnot hl hs) (.start hn h₀ hset hfree)

theorem collection_finishes_forgetOne : ∃ s₀, Reachable 1 s₀ ∧ Settled s₀ ∧ s₀.Live 0 ∧
    Lts.Inevitably step byCollector (Collected s₀) s₀ := by
  have hrun : (Lts.runs step (fun _ _ => True) (St.init 1) forgetOne).any (fun s₀ =>
      decide (s₀.epoch.phase = .N) && s₀.sweepers.isEmpty &&
      decide (∀ t < s₀.nLocals, (s₀.locals t).stack = [] ∧ (s₀.locals t).markTasks = []) &&
      decide (∀ o < s₀.nextObj, (s₀.objs o).reclaimed = false ∧ s₀.color o = s₀.epoch.color ∧
        ∀ i < (s₀.objs o).arity, ((s₀.objs o).link i).ptrMeta = .Unrooted s₀.epoch.color) &&
      decide (s₀.nextObj = 3) &&
      decide (∀ t < s₀.nLocals, (s₀.locals t).guardCount = 0)) = true := by
    decide +kernel
  obtain ⟨s₀, h₀, h⟩ := Lts.exists_of_any hrun
  simp only [Bool.and_eq_true, decide_eq_true_eq, List.isEmpty_iff] at h
  obtain ⟨⟨⟨⟨⟨hN, hswept⟩, hnode⟩, hobj⟩, hthree⟩, hguards⟩ := h
  have hlt : 0 < s₀.nextObj := by rw [hthree]; decide
  have hset := settled_of_nodes h₀ hN hswept hnode hobj
  refine ⟨s₀, h₀, hset, ⟨hlt, (hobj 0 hlt).1⟩,
    (collection_finishes (by decide) h₀ hset).2 fun t => ?_⟩
  have hp := (PinInv.of_reachable h₀).str
  by_cases ht : t < s₀.nLocals
  · exact hguards t ht
  · exact ((hp.node t).unused (hp.beyond t (Nat.le_of_not_lt ht))).1

end Cdpt
