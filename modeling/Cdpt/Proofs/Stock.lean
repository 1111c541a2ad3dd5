import Cdpt.Proofs.Cycle
import Cdpt.Proofs.Sweep

/-!
# What a step does to any account of the batches

`StockStep` lists the moves of a batch in the whole system, whoever makes them, and
says of each what it does to the worth of the batches under arbitrary weights. The
colour of the batch is the one the phase protocol gives it: who pops from
`marked_objs` to sweep pops the colour that was white, and who scans takes the white
one. An account is then kept by one look at this list.

The census (`Census`) has the same moves for each kind of step, in terms of frames
and effects. What is added here is the protocol. A helper reads the colour it sweeps
off its own epoch, the collector off its own, and the two agree because the wait
keeps pins apart (`pinned_white`, `Ground.white_collector`); the frame that counts a
flushed batch follows at once on the one that pushes it (`statOk`), so that its
thread cannot have pinned another epoch in between (`StockInv.frame_colors`).

A move is described by what it takes out of the batches and what it puts in
(`St.trades`), for any weights, and by an `Entry`: the objects that were made and
reclaimed, and what was added to the two counters. `HeapStep` says what such an
entry means for the heap. `stock_step` is the one induction-free case analysis over
all steps; the three accounts of `Bytes` and the books of `Garbage` start from it.
-/

open Sums

namespace Cdpt

/-! ## Where batches are -/

/-- The frame that adds the bytes of a flushed batch. -/
def Frame.isStat : Frame → Bool
  | .ptr (.flushStat _) => true
  | _ => false

/-- A batch is flushed without anything in between: the frame that counts it is on
top, or right below the one that pushes it. -/
def statOk (fs : List Frame) : Prop :=
  (∀ f ∈ fs.tail, f.isStat = false) ∨
    ∃ c b m n rest, fs = .ptr (.flushPush c b m) :: .ptr (.flushStat n) :: rest ∧
      ∀ f ∈ rest, f.isStat = false

/-- Batches are in the shards and the nodes there are, and sweepers only while the
collector waits for them. -/
structure StockInv (s : St) : Prop where
  fresh : ∀ c q, objBatchesShard ≤ q → s.freshObjs c q = []
  marked : ∀ c q, objBatchesShard ≤ q → s.markedObjs c q = []
  beyond : ∀ i, s.nLocals ≤ i → ∀ c, (s.locals i).objs c = ([], 0)
  sweepers : s.sweepers ≠ [] → s.stage = .joinSweep
  stat : ∀ t, statOk (s.locals t).stack

theorem idle_fits {e : Eff} (he : e.idle = true) (s : St) (t : Lid) : e.fits s t := by
  cases e <;> trivial

theorem StockInv.fresh_lt {s : St} (h : StockInv s) {c : Color} {q : Nat} {b : List Oid}
    {bs : List (List Oid)} (hb : s.freshObjs c q = b :: bs) : q < objBatchesShard := by
  by_contra hq
  rw [h.fresh c q (Nat.not_lt.1 hq)] at hb
  cases hb

theorem StockInv.marked_lt {s : St} (h : StockInv s) {c : Color} {q : Nat} {b : List Oid}
    {bs : List (List Oid)} (hb : s.markedObjs c q = b :: bs) : q < objBatchesShard := by
  by_contra hq
  rw [h.marked c q (Nat.not_lt.1 hq)] at hb
  cases hb

theorem StockInv.run_fits {s : St} (h : StockInv s) {t : Lid} (ht : t < s.nLocals) {f : Frame}
    {e : Eff} {fs : List Frame} (hmove : BatchStep s t f e fs) : e.fits s t := by
  cases hmove with
  | idle hf he hfs => exact idle_fits he s t
  | push | flush => exact ht
  | flushed hq => exact hq
  | sweepPop hb => exact h.marked_lt hb
  | scanPop hb => exact h.fresh_lt hb
  | scan hf he hfs hg => exact idle_fits he s t
  | scanned hq hfs => exact hq
  | counted | reclaim | keep | swept => trivial

theorem StockInv.coll_fits {s : St} (h : StockInv s) {e : Eff} {st : Stage}
    (hmove : CollBatch s e st) : e.fits s s.collector ∨ s.stage = .nextNormal := by
  cases hmove with
  | idle hst he hst' => exact .inl (idle_fits he s _)
  | @take i nx hst hb =>
      refine .inl (Nat.lt_of_not_le fun hle => hb ?_)
      rw [h.beyond i hle]
  | push hst hq => exact .inl hq
  | count hst => exact .inl trivial
  | spawn hst => exact .inr hst

theorem StockInv.sweep_fits {s : St} (h : StockInv s) {w : Sweeper} {e : Eff}
    {r : Option Sweeper} (hmove : SweepBatch s w e r) : e.fits s s.collector := by
  cases hmove with
  | pop ht hq hb => exact h.marked_lt hb
  | full _ _ _ hq | last _ _ hq => exact hq
  | _ => trivial

theorem setQueue_beyond {f : Color → Nat → List (List Oid)} {c : Color} {q : Nat}
    (hq : q < objBatchesShard) (bs : List (List Oid))
    (hf : ∀ c q, objBatchesShard ≤ q → f c q = []) (c' : Color) {q' : Nat}
    (hq' : objBatchesShard ≤ q') : setQueue f c q bs c' q' = [] := by
  have hne : q' ≠ q := by omega
  rw [setQueue, if_neg fun h => hne h.2]
  exact hf c' q' hq'

/-- The first three fields of the invariant. -/
def St.stocked (s : St) : Prop :=
  (∀ c q, objBatchesShard ≤ q → s.freshObjs c q = []) ∧
  (∀ c q, objBatchesShard ≤ q → s.markedObjs c q = []) ∧
  ∀ i, s.nLocals ≤ i → ∀ c, (s.locals i).objs c = ([], 0)

theorem stocked_apply {e : Eff} {s : St} {t : Lid} (hfit : e.fits s t) (h : s.stocked) :
    (e.apply s t).stocked := by
  obtain ⟨hf, hm, hb⟩ := h
  have hnode : ∀ {i : Lid} {l : Local}, i < s.nLocals →
      ∀ j, s.nLocals ≤ j → ∀ c, ((s.setLocal i l).locals j).objs c = ([], 0) := by
    intro i l hi j hj c
    have hne : j ≠ i := Nat.ne_of_gt (Nat.lt_of_lt_of_le hi hj)
    rw [setLocal_locals, if_neg hne]
    exact hb j hj c
  by_cases hfree : e.batchFree = true
  · obtain ⟨ho, -, hf', hm', -⟩ := batchFree_apply hfree s t
    rw [St.stocked, hf', hm', apply_nLocals]
    exact ⟨hf, hm, fun i hi c => by rw [ho]; exact hb i hi c⟩
  · cases e with
    | pushObj c o newly => exact ⟨hf, hm, hnode hfit⟩
    | takeBatch i c => exact ⟨hf, hm, hnode hfit⟩
    | pushFresh c q b | popFresh c q =>
        exact ⟨fun c' _ hq => setQueue_beyond hfit _ hf c' hq, hm, hb⟩
    | pushMarked c q b | popMarked c q =>
        exact ⟨hf, fun c' _ hq => setQueue_beyond hfit _ hm c' hq, hb⟩
    | spawnSweep e ws => cases hfit
    | _ => exact absurd rfl hfree

theorem isStat_carries {f : Frame} (h : f.carries = false) : f.isStat = false := by
  cases f with
  | ptr f => cases f <;> first | rfl | cases h
  | _ => rfl

theorem isStat_of_all {fs : List Frame} (h : fs.all (fun g => !g.carries) = true) :
    ∀ f ∈ fs, f.isStat = false := by
  intro f hf
  exact isStat_carries (by simpa using List.all_eq_true.1 h f hf)

theorem isStat_scans {f : Frame} {os : List Oid} (h : f.scans = some os) : f.isStat = false := by
  cases f with
  | ptr f => cases h
  | _ => rfl

theorem statOk_of_none {fs : List Frame} (h : ∀ f ∈ fs, f.isStat = false) : statOk fs :=
  .inl fun f hf => h f (List.mem_of_mem_tail hf)

theorem statOk_run {s : St} {t : Lid} {f : Frame} {e : Eff} {fs rest : List Frame}
    (hmove : BatchStep s t f e fs) (h : statOk (f :: rest)) : statOk (fs ++ rest) := by
  rcases h with h | ⟨c, b, m, n, rest', heq, h⟩
  · have hrest : ∀ g ∈ rest, g.isStat = false := h
    have happ : (∀ g ∈ fs, g.isStat = false) → statOk (fs ++ rest) := fun hfs =>
      statOk_of_none fun g hg => (List.mem_append.1 hg).elim (hfs g) (hrest g)
    cases hmove with
    | idle hf he hfs => exact happ (isStat_of_all hfs)
    | push | flushed | counted => exact happ (by simp)
    | flush =>
        refine .inr ⟨_, _, _, _, _, rfl, fun g hg => ?_⟩
        rcases List.mem_cons.1 hg with rfl | hg
        · rfl
        · exact hrest g hg
    | sweepPop | reclaim | scanPop => exact happ (by simp [Frame.isStat])
    | keep => exact happ (by simp [Frame.isStat])
    | swept hfs | scanned _ hfs => exact happ (isStat_of_all hfs)
    | scan hf he hfs hg =>
        refine happ fun g hg' => ?_
        rcases List.mem_append.1 hg' with hg' | hg'
        · exact isStat_of_all hfs g hg'
        · rw [List.mem_singleton.1 hg']
          exact isStat_scans hg
  · cases heq
    cases hmove with
    | idle hf => cases hf
    | flushed hq => exact .inl h
    | scan hf => cases hf

/-! ## The invariant over whole runs -/

theorem StockInv.init (n : Nat) : StockInv (St.init n) where
  fresh _ _ _ := rfl
  marked _ _ _ := rfl
  beyond i _ c := by
    by_cases hi : i = 0 <;> simp [St.init, hi, Local.default]
  sweepers h := absurd rfl h
  stat t := by
    rw [stack_init]
    exact statOk_of_none (by simp)

theorem startOp_stat {s s₁ : St} {t : Lid} {op : Op} {fs : List Frame}
    (h : startOp s t op = some (s₁, fs)) : statOk fs := by
  rcases startOp_carries h with hfs | ⟨cs, size, k, -, rfl⟩
  · exact statOk_of_none (isStat_of_all hfs)
  · exact statOk_of_none (by simp [Frame.isStat])

theorem StockInv.stat_step {s s' : St} {lab : Label} (h : StockInv s) (hp : PinStr s)
    (hs : StepCase s lab s') (t : Lid) : statOk (s'.locals t).stack := by
  have hstack := stack_step hp hs t
  generalize (s'.locals t).stack = fs at hstack
  cases hstack with
  | same => exact h.stat t
  | op hl ht hst hop => exact startOp_stat hop
  | @run ch f rest hl ht hst => exact statOk_run (exec_batches s t ch f) (hst ▸ h.stat t)
  | coll hl ht hst hcoll => exact statOk_of_none (isStat_of_all (collStep_moves hcoll).2)
  | worker => exact statOk_of_none (by simp [Frame.isStat])

theorem stocked_setStack {s : St} {t : Lid} {fs : List Frame} (h : s.stocked) :
    (s.setStack t fs).stocked := by
  obtain ⟨hf, hm, hb⟩ := h
  refine ⟨hf, hm, fun i hi c => ?_⟩
  rw [setStack_locals]
  split
  · next heq => exact heq ▸ hb i hi c
  · exact hb i hi c

theorem stocked_register {s : St} (t : Lid) (h : s.stocked) : (s.register t).stocked := by
  obtain ⟨hf, hm, hb⟩ := h
  unfold St.register
  split
  · refine ⟨hf, hm, fun i hi c => ?_⟩
    rw [setLocal_locals]
    split
    · next heq => exact heq ▸ hb i hi c
    · exact hb i hi c
  · refine ⟨hf, hm, fun i hi c => ?_⟩
    show ((s.setLocal t { Local.default with isUsing := true }).locals i).objs c = ([], 0)
    rw [setLocal_locals]
    split
    · rfl
    · exact hb i (Nat.le_of_succ_le hi) c

theorem StockInv.stocked {s : St} (h : StockInv s) : s.stocked := ⟨h.fresh, h.marked, h.beyond⟩

theorem StockInv.stocked_step {s s' : St} {lab : Label} (h : StockInv s)
    (hs : StepCase s lab s') : s'.stocked := by
  have hst := h.stocked
  cases hs with
  | @op t op s₁ fs ht hu hst' hc hop =>
      refine stocked_setStack ?_
      obtain ⟨ho, hf, hm, -⟩ := startOp_batches hop
      rw [St.stocked, hf, hm, (startOp_same hop).1.nLocals]
      exact ⟨h.fresh, h.marked, fun i hi c => by rw [ho]; exact h.beyond i hi c⟩
  | @run t ch f rest ht hst' =>
      exact stocked_setStack (stocked_apply (h.run_fits ht (exec_batches s t ch f)) hst)
  | @coll ch e st fs hst' hcoll =>
      refine stocked_setStack ?_
      have hmove := (collStep_moves hcoll).1
      rcases h.coll_fits hmove with hfit | hnext
      · exact stocked_apply hfit hst
      · simp only [collStep, hnext, Option.some.injEq, Prod.mk.injEq] at hcoll
        obtain ⟨rfl, -⟩ := hcoll
        exact hst
  | @sweep k ch w hw => exact stocked_apply (h.sweep_fits (sweepStep_moves s w ch)) hst
  | @startWorker t lo hi hz js hj hr hc =>
      have hreg : ((s.register t).withJobs js).stocked := stocked_register t hst
      exact stocked_setStack hreg
  | @register t hr hc => exact stocked_register t hst
  | @exit t ht hu hst' hg hh hc =>
      refine ⟨h.fresh, h.marked, fun i hi c => ?_⟩
      rw [setLocal_locals]
      split
      · next heq => exact heq ▸ h.beyond i hi c
      · exact h.beyond i hi c

theorem sweepers_apply {e : Eff} {s : St} {t : Lid} (hfit : e.fits s t) :
    (e.apply s t).sweepers = s.sweepers := by
  cases e with
  | setLink l p => cases l <;> rfl
  | spawnSweep e ws => cases hfit
  | _ => rfl

theorem StockInv.sweepers_step {s s' : St} {lab : Label} (h : StockInv s)
    (hs : StepCase s lab s') (hw : s'.sweepers ≠ []) : s'.stage = .joinSweep := by
  cases hs with
  | @op t op s₁ fs ht hu hst hc hop =>
      obtain ⟨-, -, -, hsw, -⟩ := startOp_batches hop
      rw [setStack_stage, (startOp_same hop).1.stage]
      exact h.sweepers (by rwa [setStack_sweepers, hsw] at hw)
  | @run t ch f rest ht hst =>
      rw [setStack_sweepers, sweepers_apply (h.run_fits ht (exec_batches s t ch f))] at hw
      rw [setStack_stage, apply_stage]
      exact h.sweepers hw
  | @coll ch e st fs hst hcoll =>
      rcases h.coll_fits (collStep_moves hcoll).1 with hfit | hnext
      · rw [setStack_sweepers, withStage_sweepers, sweepers_apply hfit] at hw
        -- the collector waits for its workers
        simp only [collStep, h.sweepers hw, if_neg hw] at hcoll
        cases hcoll
      · simp only [collStep, hnext, Option.some.injEq, Prod.mk.injEq] at hcoll
        exact hcoll.2.1.symm
  | @sweep k ch w hw' =>
      rw [withSweepers_stage, apply_stage]
      refine h.sweepers fun hnil => ?_
      rw [hnil] at hw'
      cases hw'
  | @startWorker t lo hi hz js hj hr hc =>
      have hsw : (s.register t).sweepers ≠ [] := hw
      rw [(register_batches s t).2.2] at hsw
      show (s.register t).stage = .joinSweep
      rw [register_stage]
      exact h.sweepers hsw
  | @register t hr hc =>
      rw [(register_batches s t).2.2] at hw
      rw [register_stage]
      exact h.sweepers hw
  | @exit t ht hu hst hg hh hc => exact h.sweepers hw

theorem StockInv.step {s s' : St} {lab : Label} (h : StockInv s) (hp : PinStr s)
    (hs : StepCase s lab s') : StockInv s' := by
  obtain ⟨hf, hm, hb⟩ := h.stocked_step hs
  exact ⟨hf, hm, hb, h.sweepers_step hs, h.stat_step hp hs⟩

/-! ## The colours -/

/-- A thread that is not pinned in CT has the white of the global epoch. -/
theorem pinned_white {s : St} (h : PinInv s) {t : Lid} (hd : (s.locals t).pinDone)
    (hCT : (s.locals t).epoch.phase ≠ .CT) : s.white t = s.epoch.color ∧
      ((s.locals t).epoch.phase = .RT → s.epoch.phase ≠ .N) := by
  obtain ⟨n, hn, he⟩ := h.pins t hd
  simp only [St.white, he] at hCT ⊢
  simp only [Epoch.pinned] at hCT ⊢
  rcases hn with rfl | hn
  · rw [h.now]
    exact ⟨rfl, fun hRT hN => by rw [hN] at hRT; cases hRT⟩
  · have hnext := (h.next n (by omega)).2
    rw [hn, h.now] at hnext
    cases hph : (s.past n).phase with
    | N =>
        simp only [hph] at hnext
        exact ⟨hnext.2.symm, fun h => by cases h⟩
    | RT =>
        simp only [hph] at hnext
        exact ⟨hnext.2.symm, fun _ hN => by rw [hN] at hnext; cases hnext.1⟩
    | CT => exact absurd hph hCT

/-! ## The moves -/

/-- The worth of the batches loses `out` and gains `into`, whatever they are worth. -/
def St.trades (s s' : St) (out into : ∀ {A : Type} [AddCancelCommMonoid A], Weights A → A) :
    Prop :=
  ∀ {A : Type} [AddCancelCommMonoid A] (W : Weights A), W.total s' + out W = W.total s + into W

/-- The worth of the batches stays; sweepers that have not started are worth nothing. -/
def St.sameWorth (s s' : St) : Prop :=
  ∀ {A : Type} [AddCancelCommMonoid A] (W : Weights A),
    (∀ c lo hi, W.sweeper ⟨c, lo, hi, [], [], 0⟩ = 0) → W.total s' = W.total s

/-- What a step enters in the books: the objects made and reclaimed, and the bytes
added to the two counters. -/
structure Entry where
  made : Multiset Oid
  gone : Multiset Oid
  allocated : Nat
  reclaimed : Nat

inductive StockStep (s s' : St) : Entry → Prop
  | idle (h : s.sameWorth s') : StockStep s s' ⟨0, 0, 0, 0⟩
  | alloc (h : s.trades s' (fun _ => 0) fun W => W.pushing s.nextObj true) :
      StockStep s s' ⟨{s.nextObj}, 0, 0, 0⟩
  | push {t : Lid} {c : Color} {o : Oid} (newly : Bool) (ho : o < s.nextObj)
      (h : s.trades s' (fun W => W.pushing o newly + W.own c ((s.locals t).objs c)) fun W =>
        W.own c (((s.locals t).objs c).1 ++ [o],
          if newly then ((s.locals t).objs c).2 + (s.objs o).size else ((s.locals t).objs c).2)) :
      StockStep s s' ⟨0, 0, 0, 0⟩
  | flush {t : Lid} {c : Color}
      (h : s.trades s' (fun W => W.own c ((s.locals t).objs c)) fun W =>
        W.flushing c ((s.locals t).objs c).1 + W.counting c ((s.locals t).objs c).2) :
      StockStep s s' ⟨0, 0, 0, 0⟩
  | flushed {c : Color} {b : List Oid}
      (h : s.trades s' (fun W => W.flushing c b) fun W => W.fresh c b) :
      StockStep s s' ⟨0, 0, 0, 0⟩
  | counted {c : Color} {n : Nat} (h : s.trades s' (fun W => W.counting c n) fun _ => 0) :
      StockStep s s' ⟨0, 0, n, 0⟩
  | sweepPop {b : List Oid}
      (h : s.trades s' (fun W => W.marked s.epoch.color.flip b) fun W => W.sweeping b 0) :
      StockStep s s' ⟨0, 0, 0, 0⟩
  | reclaim {o : Oid} {l : List Oid} {n : Nat} (ho : o < s.nextObj)
      (h : s.trades s' (fun W => W.sweeping (o :: l) n) fun W =>
        W.sweeping l (n + (s.objs o).size)) :
      StockStep s s' ⟨0, {o}, 0, 0⟩
  | keep {o : Oid} {l : List Oid} {n : Nat}
      (h : s.trades s' (fun W => W.sweeping (o :: l) n) fun W =>
        W.pushing o false + W.sweeping l n) :
      StockStep s s' ⟨0, 0, 0, 0⟩
  | swept {n : Nat} (h : s.trades s' (fun W => W.sweeping [] n) fun _ => 0) :
      StockStep s s' ⟨0, 0, 0, n⟩
  | scanPop {b : List Oid} (hN : s.epoch.phase ≠ .N)
      (h : s.trades s' (fun W => W.fresh s.epoch.color b) fun W => W.scanning b) :
      StockStep s s' ⟨0, 0, 0, 0⟩
  | scanned {b : List Oid} (hN : s.epoch.phase ≠ .N)
      (h : s.trades s' (fun W => W.scanning b) fun W => W.marked s.epoch.color b) :
      StockStep s s' ⟨0, 0, 0, 0⟩
  | take {i : Lid} (hN : s.epoch.phase ≠ .N)
      (h : s.trades s' (fun W => W.own s.epoch.color ((s.locals i).objs s.epoch.color)) fun W =>
        W.pending ((s.locals i).objs s.epoch.color).1 ((s.locals i).objs s.epoch.color).2) :
      StockStep s s' ⟨0, 0, 0, 0⟩
  | taken {b : List Oid} {n : Nat} (hN : s.epoch.phase ≠ .N)
      (h : s.trades s' (fun W => W.pending b n) fun W =>
        W.pendCount n + W.fresh s.epoch.color b) :
      StockStep s s' ⟨0, 0, 0, 0⟩
  | pended {n : Nat} (hN : s.epoch.phase ≠ .N)
      (h : s.trades s' (fun W => W.pendCount n) fun _ => 0) :
      StockStep s s' ⟨0, 0, n, 0⟩
  | worker {w : Sweeper} {e : Eff} {r : Option Sweeper} (ho : ∀ o ∈ w.todo, o < s.nextObj)
      (hN : s.epoch.phase = .N) (hmove : SweepBatch s w e r)
      (h : s.trades s' (fun W => W.sweeper w + W.out s s.collector e) fun W =>
        (r.map W.sweeper).getD 0 + W.into s s.collector e) :
      StockStep s s' ⟨0, e.dooms, e.counted.2, e.counted.1⟩

/-! ### Of a thread -/

theorem WellFormed.pushing_lt {s : St} (h : WellFormed s) {t : Lid} {o : Oid} {newly : Bool}
    (hf : .ptr (.pushObj o newly) ∈ (s.locals t).stack) : o < s.nextObj := by
  cases newly with
  | true => exact h.alloc.lt hf rfl
  | false => exact h.alloc.takenLt (.frame hf rfl)

/-- Only the frame that counts a flushed batch looks at the colour of its thread,
and such a thread does not pin. -/
theorem StockInv.frame_colors {s s' : St} (h : StockInv s) {t : Lid} {ch : Nat} {f : Frame}
    {rest : List Frame} (hst : (s.locals t).stack = f :: rest)
    (hs' : s' = ((exec s t ch f).1.apply s t).setStack t ((exec s t ch f).2 ++ rest)) :
    (s'.locals t).allocColor = (s.locals t).allocColor ∨
    (f.carries = false ∧ ∀ {A : Type} [AddCancelCommMonoid A] (W : Weights A),
      ∀ g ∈ f :: rest, ∀ c c', W.frame c g = W.frame c' g) := by
  rcases exec_pinFree_or s t ch f with ⟨he, -⟩ | ⟨g, rfl⟩
  · refine .inl (allocColor_of_view ?_)
    rw [hs', setStack_locals, if_pos rfl]
    exact apply_pinView he s t t
  · refine .inr ⟨rfl, fun W g hg c c' => ?_⟩
    have hstat : g.isStat = false := by
      have hok := h.stat t
      rw [hst] at hok
      rcases hok with hok | ⟨_, _, _, _, _, heq, -⟩
      · rcases List.mem_cons.1 hg with rfl | hg
        · rfl
        · exact hok g hg
      · cases heq
    cases g with
    | ptr g => cases g <;> first | rfl | cases hstat
    | help g => cases g <;> rfl
    | _ => rfl

theorem StockInv.run {s s' : St} (h : StockInv s) (hwf : WellFormed s) {t : Lid} {ch : Nat}
    {f : Frame} {rest : List Frame} (ht : t < s.nLocals) (hst : (s.locals t).stack = f :: rest)
    (hs' : s' = ((exec s t ch f).1.apply s t).setStack t ((exec s t ch f).2 ++ rest)) :
    StockStep s s' ⟨0, (exec s t ch f).1.dooms, (exec s t ch f).1.counted.2,
      (exec s t ch f).1.counted.1⟩ := by
  have hg := hwf.ground
  have hmove := exec_batches s t ch f
  have hfit := h.run_fits ht hmove
  have htot : ∀ {A : Type} [AddCancelCommMonoid A] (W : Weights A),
      W.total s' + (W.frame (s.locals t).allocColor f + W.out s t (exec s t ch f).1) =
        W.total s + (((exec s t ch f).2.map (W.frame (s'.locals t).allocColor)).sum +
          W.into s t (exec s t ch f).1) := fun W =>
    W.total_run ht hst hs' hfit ((h.frame_colors hst hs').imp id fun hc => hc.2 W)
  have hcol : f.carries = true → (s'.locals t).allocColor = (s.locals t).allocColor := fun hc =>
    (h.frame_colors hst hs').elim id fun hn => by rw [hn.1] at hc; cases hc
  clear hs'
  generalize exec s t ch f = r at hmove htot
  obtain ⟨e, fs⟩ := r
  cases hmove with
  | idle hc hi hfs =>
      have hbooks : e.dooms = 0 ∧ e.counted = 0 := by
        cases e <;> first | (cases hi; done) | exact ⟨rfl, rfl⟩
      rw [hbooks.1, hbooks.2]
      refine .idle fun W _ => ?_
      have hW := htot W
      rwa [W.frame_idle hc, W.frames_idle hfs, W.out_idle hi, W.into_idle hi, add_zero, add_zero,
        add_zero] at hW
  | @push o newly hroom =>
      have hmem : Frame.ptr (.pushObj o newly) ∈ (s.locals t).stack := by simp [hst]
      refine .push (t := t) (c := s.allocColor t) newly (hwf.pushing_lt hmem) fun W => ?_
      have hW := htot W
      rw [List.map_nil, List.sum_nil, zero_add] at hW
      exact hW
  | @flush o newly hfull =>
      refine .flush (t := t) (c := s.allocColor t) fun W => ?_
      have hW := htot W
      simp only [Weights.frame, Weights.out, Weights.into, W.own_nil, List.map_cons, List.map_nil,
        List.sum_cons, List.sum_nil, add_zero, hcol rfl, ← allocColor_local] at hW
      refine add_right_cancel (b := W.pushing o newly) ?_
      rw [add_assoc, add_comm (W.own _ _), hW, add_assoc, add_assoc]
  | @flushed c b n q hq =>
      refine .flushed (c := c) (b := b) fun W => ?_
      have hW := htot W
      simp only [Weights.frame, Weights.out, Weights.into, List.map_nil, List.sum_nil, add_zero,
        zero_add] at hW
      exact hW
  | @counted n =>
      refine .counted (c := (s.locals t).allocColor) fun W => ?_
      have hW := htot W
      simp only [Weights.frame, Weights.out, Weights.into, List.map_nil, List.sum_nil,
        add_zero] at hW
      exact hW.trans (add_zero _).symm
  | @sweepPop q qs k b bs hb =>
      have hmem : Frame.help (.normalPop q qs k) ∈ (s.locals t).stack := by simp [hst]
      have hRT : Frame.inPhase (.help (.normalPop q qs k)) .RT = false := rfl
      obtain ⟨hd, hph⟩ := hg.sect.mem_phase hmem hRT
      have hN : (s.locals t).epoch.phase = .N := of_decide_eq_true hph
      have hblack : s.black t = s.epoch.color.flip :=
        congrArg Color.flip (pinned_white hg.pin hd (by rw [hN]; decide)).1
      rw [hblack] at hb htot
      refine .sweepPop (b := b) fun W => ?_
      have hW := htot W
      simp only [Weights.frame, Weights.out, Weights.into, List.map_cons, List.map_nil,
        List.sum_cons, List.sum_nil, add_zero, zero_add, hb, List.take_one, List.head?_cons,
        Option.toList_some] at hW
      exact hW
  | @reclaim o rest bytes q qs k hc =>
      have hmem : Frame.help (.sweepObjs (o :: rest) bytes q qs k) ∈ (s.locals t).stack := by
        simp [hst]
      have ho : o < s.nextObj := hwf.alloc.takenLt (.frame hmem (List.mem_cons_self ..))
      refine .reclaim (l := rest) (n := bytes) ho fun W => ?_
      have hW := htot W
      simp only [Weights.frame, Weights.out, Weights.into, List.map_cons, List.map_nil,
        List.sum_cons, List.sum_nil, add_zero] at hW
      exact hW
  | @keep o rest bytes q qs k hc =>
      refine .keep (o := o) (l := rest) (n := bytes) fun W => ?_
      have hW := htot W
      simp only [Weights.frame, Weights.out, Weights.into, List.map_cons, List.map_nil,
        List.sum_cons, List.sum_nil, add_zero] at hW
      exact hW
  | @swept n q qs k fs hfs =>
      refine .swept fun W => ?_
      have hW := htot W
      rw [W.frames_idle hfs] at hW
      simp only [Weights.frame, Weights.out, Weights.into, add_zero] at hW
      exact hW.trans (add_zero _).symm
  | @scanPop sc q b bs hb =>
      obtain ⟨hd, -⟩ := hg.sect.head_phase hst rfl rfl
      have hRT := hg.sect.scan_phase hg.pin hst hd
      obtain ⟨hw, hN⟩ := pinned_white hg.pin hd (by rw [hRT]; decide)
      rw [hw] at hb htot
      refine .scanPop (b := b) (hN hRT) fun W => ?_
      have hW := htot W
      simp only [Weights.frame, Weights.out, Weights.into, List.map_cons, List.map_nil,
        List.sum_cons, List.sum_nil, add_zero, zero_add, List.nil_append, hb, List.take_one,
        List.head?_cons, Option.toList_some] at hW
      exact hW
  | @scan f g e fs os hf he hfs hg' =>
      have hbooks : e.dooms = 0 ∧ e.counted = 0 := by
        cases e <;> first | (cases he; done) | exact ⟨rfl, rfl⟩
      rw [hbooks.1, hbooks.2]
      refine .idle fun W _ => ?_
      have hW := htot W
      change _ = W.total s + (((fs ++ [g]).map (W.frame _)).sum + _) at hW
      rw [W.frame_scans hf, W.out_idle he, W.into_idle he, List.map_append, List.sum_append,
        W.frames_idle hfs, List.map_singleton, List.sum_singleton, W.frame_scans hg',
        zero_add] at hW
      exact add_right_cancel hW
  | @scanned sc done q fs hq hfs =>
      have hmem : Frame.help (.scanObjs sc done []) ∈ (s.locals t).stack := by simp [hst]
      have hnot : Frame.inPhase (.help (.scanObjs sc done [])) .N = false := rfl
      obtain ⟨hd, hph⟩ := hg.sect.mem_phase hmem hnot
      have hRT : (s.locals t).epoch.phase = .RT := of_decide_eq_true hph
      obtain ⟨hw, hN⟩ := pinned_white hg.pin hd (by rw [hRT]; decide)
      refine .scanned (b := done) (hN hRT) fun W => ?_
      have hW := htot W
      rw [W.frames_idle hfs] at hW
      simp only [Weights.frame, Weights.out, Weights.into, add_zero, zero_add, List.append_nil,
        hw] at hW
      exact hW

/-! ### Of the collector and of the sweepers -/

/-- The collector flushes in the white of its epoch. -/
theorem Ground.white_collector {s : St} (h : Ground s) (hst : (s.locals s.collector).stack = [])
    (hg : s.stage.guards = 1) : s.white s.collector = s.epoch.color ∧ s.epoch.phase ≠ .N := by
  obtain ⟨-, hpin⟩ := h.sect.collector h.pin hst
  obtain ⟨-, he, hN⟩ := hpin hg
  rw [St.white, he]
  exact ⟨rfl, hN⟩

theorem StockInv.coll {s s' : St} (h : StockInv s) (hg : Ground s) {ch : Nat} {e : Eff} {st : Stage}
    {fs : List Frame} (hst : (s.locals s.collector).stack = [])
    (hcoll : collStep s ch = some (e, st, fs))
    (hs' : s' = ((e.apply s s.collector).withStage st).setStack s.collector fs) :
    StockStep s s' ⟨0, e.dooms, e.counted.2, e.counted.1⟩ ∧
      (s'.epoch = s.epoch ∨ s.sameWorth s') := by
  obtain ⟨hmove, hfs⟩ := collStep_moves hcoll
  have hlt : s.collector < s.nLocals := Nat.lt_of_not_le fun hle => by
    have hu := hg.pin.str.beyond _ hle
    rw [hg.pin.str.coll] at hu
    cases hu
  have htot : e.fits s s.collector → ∀ {A : Type} [AddCancelCommMonoid A] (W : Weights A),
      W.total s' + (W.stage s.stage + W.out s s.collector e) =
        W.total s + (W.stage st + W.into s s.collector e) :=
    fun hfit {_ _} W => W.total_coll hlt hst hcoll hfit hs'
  cases hmove with
  | idle hcar hi hcar' =>
      have hbooks : e.dooms = 0 ∧ e.counted = 0 := by
        cases e <;> first | (cases hi; done) | exact ⟨rfl, rfl⟩
      rw [hbooks.1, hbooks.2]
      have hsame : s.sameWorth s' := fun W _ => by
        have hW := htot (idle_fits hi s _) W
        rwa [W.stage_idle hcar, W.stage_idle hcar', W.out_idle hi, W.into_idle hi, add_zero,
          add_zero, add_zero] at hW
      exact ⟨.idle hsame, .inr hsame⟩
  | @take i nx hstage hb =>
      obtain ⟨hw, hN⟩ := hg.white_collector hst (by rw [hstage]; rfl)
      have hfit := (h.coll_fits (.take hstage hb)).resolve_right (by rw [hstage]; simp)
      refine ⟨.take (i := i) hN fun W => ?_, .inl (by rw [hs']; rfl)⟩
      have hW := htot hfit W
      simp only [Weights.stage, Weights.out, Weights.into, hstage, hw, W.own_nil, zero_add,
        add_zero] at hW
      exact hW
  | @push b n q nx hstage hq =>
      obtain ⟨hw, hN⟩ := hg.white_collector hst (by rw [hstage]; rfl)
      refine ⟨.taken (b := b) (n := n) hN fun W => ?_, .inl (by rw [hs']; rfl)⟩
      have hW := htot hq W
      simp only [Weights.stage, Weights.out, Weights.into, hstage, hw, add_zero] at hW
      exact hW
  | @count n nx hstage =>
      obtain ⟨-, hN⟩ := hg.white_collector hst (by rw [hstage]; rfl)
      refine ⟨.pended hN fun W => ?_, .inl (by rw [hs']; rfl)⟩
      have hW := htot trivial W
      simp only [Weights.stage, Weights.out, Weights.into, hstage, add_zero] at hW
      exact hW.trans (add_zero _).symm
  | spawn hstage =>
      have hnone : s.sweepers = [] := by
        by_contra hne
        rw [h.sweepers hne] at hstage
        cases hstage
      have hsame : s.sameWorth s' := fun W hnew => by
        refine W.total_spawn hlt hst hfs hnone ?_ (by rw [hstage]; rfl) rfl hs'
        intro w hw
        obtain ⟨r, -, rfl⟩ := List.mem_map.1 hw
        exact hnew _ _ _
      exact ⟨.idle hsame, .inr hsame⟩

theorem StockInv.sweep {s s' : St} (h : StockInv s) (hwf : WellFormed s) {k : Nat} (ch : Nat)
    {w : Sweeper} (hw : s.sweepers[k]? = some w)
    (hs' : s' = ((sweepStep s w ch).1.apply s s.collector).withSweepers
      (nextSweepers s.sweepers k (sweepStep s w ch).2)) :
    StockStep s s' ⟨0, (sweepStep s w ch).1.dooms, (sweepStep s w ch).1.counted.2,
      (sweepStep s w ch).1.counted.1⟩ := by
  have hmem := List.mem_of_getElem? hw
  have hmove := sweepStep_moves s w ch
  have hN : s.epoch.phase = .N := by
    have hph := hwf.ground.pin.phase
    rw [h.sweepers (List.ne_nil_of_mem hmem)] at hph
    exact of_decide_eq_true hph
  have ho : ∀ o ∈ w.todo, o < s.nextObj := fun o ho => hwf.alloc.takenLt (.sweeper hmem (.inl ho))
  exact .worker ho hN hmove fun W => W.total_sweep hw (h.sweep_fits hmove) hs'

/-! ## The heap and the counters -/

/-- What an entry means for the objects. -/
structure HeapStep (s s' : St) (b : Entry) : Prop where
  range : Multiset.range s'.nextObj = Multiset.range s.nextObj + b.made
  size : ∀ o < s.nextObj, (s'.objs o).size = (s.objs o).size
  reclaimed : ∀ o < s.nextObj,
    ((s'.objs o).reclaimed = true ↔ (s.objs o).reclaimed = true ∨ o ∈ b.gone)
  made : ∀ o ∈ b.made, (s'.objs o).reclaimed = false
  counters : s'.counters = s.counters + (b.reclaimed, b.allocated)

theorem heap_apply (e : Eff) (s : St) (t : Lid) (o : Oid) :
    ((e.apply s t).objs o).size = (s.objs o).size ∧
    (((e.apply s t).objs o).reclaimed = true ↔
      (s.objs o).reclaimed = true ∨ o ∈ e.dooms) := by
  cases e with
  | reclaim p => by_cases ho : o = p <;> simp [Eff.apply, St.setObj, Eff.dooms, ho]
  | setLink l q =>
      cases l with
      | cell c => exact ⟨rfl, by simp [Eff.apply, Eff.dooms]⟩
      | field p i => by_cases ho : o = p <;> simp [Eff.apply, St.setObj, Eff.dooms, ho]
  | setColor p c | setCount p c =>
      by_cases ho : o = p <;> simp [Eff.apply, St.setObj, Eff.dooms, ho]
  | _ => simp [Eff.apply, Eff.dooms]

theorem heapStep_apply {s s' : St} {e : Eff} {t : Lid} (hn : s'.nextObj = s.nextObj)
    (ho : s'.objs = (e.apply s t).objs) (hc : s'.counters = (e.apply s t).counters) :
    HeapStep s s' ⟨0, e.dooms, e.counted.2, e.counted.1⟩ where
  range := by rw [hn, add_zero]
  size o _ := by
    rw [ho]
    exact (heap_apply e s t o).1
  reclaimed o _ := by
    rw [ho]
    exact (heap_apply e s t o).2
  made o h := absurd h (Multiset.notMem_zero o)
  counters := hc.trans (counters_apply e s t)

theorem heapStep_same {s s' : St} (hn : s'.nextObj = s.nextObj) (ho : s'.objs = s.objs)
    (hc : s'.counters = s.counters) : HeapStep s s' ⟨0, 0, 0, 0⟩ :=
  heapStep_apply (e := .nop) (t := 0) hn ho hc

/-- An operation other than `alloc` starts without touching the heap. -/
theorem startOp_heap {s s₁ : St} {t : Lid} {op : Op} {fs : List Frame}
    (h : startOp s t op = some (s₁, fs)) : s₁.counters = s.counters ∧
      ((s₁.nextObj = s.nextObj ∧ s₁.objs = s.objs ∧ fs.all (fun g => !g.carries) = true) ∨
      ∃ cs size k, op = .alloc cs size k) := by
  cases op with
  | alloc cs size k =>
      obtain ⟨rfl, -⟩ := startOp_alloc h
      exact ⟨rfl, .inr ⟨cs, size, k, rfl⟩⟩
  | _ =>
      simp only [startOp] at h
      repeat' split at h
      all_goals first
        | (cases h; done)
        | (cases h; exact ⟨rfl, .inl ⟨rfl, rfl, rfl⟩⟩)
        | (obtain ⟨o, -, h⟩ := Option.map_eq_some_iff.1 h
           cases h
           exact ⟨rfl, .inl ⟨rfl, rfl, rfl⟩⟩)

theorem StockInv.op {s s₁ : St} {t : Lid} {op : Op} {fs : List Frame}
    (ht : t < s.nLocals) (hst : (s.locals t).stack = []) (h : startOp s t op = some (s₁, fs)) :
    ∃ b, StockStep s (s₁.setStack t fs) b ∧ HeapStep s (s₁.setStack t fs) b := by
  have htot : ∀ {A : Type} [AddCancelCommMonoid A] (W : Weights A),
      W.total (s₁.setStack t fs) =
        W.total s + (fs.map (W.frame (s.locals t).allocColor)).sum := fun W => W.total_op ht hst h
  obtain ⟨hc, ⟨hn, ho, hfs⟩ | ⟨cs, size, k, rfl⟩⟩ := startOp_heap h
  · refine ⟨_, .idle fun W _ => ?_, heapStep_same hn ho hc⟩
    rw [htot W, W.frames_idle hfs, add_zero]
  · obtain ⟨rfl, rfl, -⟩ := startOp_alloc h
    refine ⟨_, .alloc fun W => ?_, ?_⟩
    · rw [htot W]
      simp [Weights.frame]
    · exact {
        range := (Multiset.range_succ _).trans (Multiset.singleton_add _ _ ▸ add_comm _ _)
        size := fun o ho => by simp [St.newObj, Nat.ne_of_lt ho]
        reclaimed := fun o ho => by simp [St.newObj, St.removeCells, Nat.ne_of_lt ho]
        made := fun o ho => by
          rw [Multiset.mem_singleton] at ho
          simp [ho, St.newObj]
        counters := hc }

theorem register_stock {s : St} {t : Lid} (hr : s.canRegister t) :
    s.sameWorth (s.register t) ∧ HeapStep s (s.register t) ⟨0, 0, 0, 0⟩ := by
  refine ⟨fun W _ => W.total_register hr, ?_⟩
  unfold St.register
  split <;> exact heapStep_same rfl rfl rfl

/-- Every step is one of the moves, and its entry is what happened to the heap and
to the counters. Where it stores an epoch it moves nothing. -/
theorem stock_step {s s' : St} {lab : Label} (h : StockInv s) (hwf : WellFormed s)
    (hs : StepCase s lab s') :
    (∃ b, StockStep s s' b ∧ HeapStep s s' b) ∧ (s'.epoch = s.epoch ∨ s.sameWorth s') := by
  have hg := hwf.ground
  have hep := epoch_cases hs
  cases hs with
  | @op t op s₁ fs ht hu hst hc hop =>
      exact ⟨StockInv.op ht hst hop, .inl (startOp_same hop).1.epoch⟩
  | @run t ch f rest ht hst =>
      refine ⟨⟨_, h.run hwf ht hst rfl, heapStep_apply (apply_nextObj ..) rfl rfl⟩, .inl ?_⟩
      rcases hep with hep | ⟨⟨ch, hl⟩, -⟩
      · exact hep
      · cases hl
  | @coll ch e st fs hst hcoll =>
      obtain ⟨hstep, hep⟩ := h.coll hg hst hcoll rfl
      exact ⟨⟨_, hstep, heapStep_apply (apply_nextObj ..) rfl rfl⟩, hep⟩
  | @sweep k ch w hw =>
      refine ⟨⟨_, h.sweep hwf ch hw ?_,
        heapStep_apply (t := s.collector) (apply_nextObj ..) rfl rfl⟩,
        .inl (apply_epoch (sweepStep_pinFree s w ch) s s.collector).1⟩
      cases (sweepStep s w ch).2 <;> rfl
  | @startWorker t lo hi hz js hj hr hc =>
      obtain ⟨hsame, hheap⟩ := register_stock hr
      have hstk : ((s.register t).withJobs js |>.locals t).stack = [] := by
        rcases register_node hg.pin.str hr t with ⟨hne, -⟩ | ⟨-, -, -, hstk⟩
        · exact absurd rfl hne
        · exact hstk
      have hworth : s.sameWorth (((s.register t).withJobs js).setStack t [.pin .pin,
          .help (.scanPop (.worker lo hi hz)), .pin .helpIf, .pin .unpin, .pin .workerExit]) := by
        intro A _ W hnew
        have hlt : t < ((s.register t).withJobs js).nLocals := register_lt hr
        rw [W.total_setStack_idle hlt (by rw [hstk]; rfl) rfl]
        exact hsame W hnew
      exact ⟨⟨_, .idle hworth, { hheap with }⟩, .inr hworth⟩
  | @register t hr hc =>
      obtain ⟨hsame, hheap⟩ := register_stock hr
      exact ⟨⟨_, .idle hsame, hheap⟩, .inr hsame⟩
  | @exit t ht hu hst hgc hh hc =>
      have hsame : s.sameWorth (s.setLocal t { s.locals t with isUsing := false }) :=
        fun W _ => W.total_exit s t
      exact ⟨⟨_, .idle hsame, heapStep_same rfl rfl rfl⟩, .inr hsame⟩

end Cdpt
