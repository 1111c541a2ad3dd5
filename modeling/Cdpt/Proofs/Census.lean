import Cdpt.Lib.Sums
import Cdpt.Proofs.Alloc

/-!
# Taking stock of the batches

Every account of what is in the batches adds something up over the same places: the
batch a thread has open for each colour, the frames that carry a batch or the bytes
of one, the two rows of sharded queues, the sweepers, and the stage of the
collector. `Weights` says what each of them is worth, in any commutative monoid, and
`total` is the sum.

A step moves a batch from one place to another. `total_run`, `total_coll` and
`total_sweep` say once what that does to the sum, whatever the weights are, and
`BatchStep`, `CollBatch` and `SweepBatch` list the moves there are. An account only
has to look at the list.

The equations are written without subtraction, as exchanges: the new total with what
was taken out is the old one with what was put in. Two exchanges are joined by
cancelling what they share (`exchange_trans`), which is why the monoid has to be
cancellative; the weights in use are numbers, multisets of objects, and tuples of
these.

That the list of moves is complete is one case analysis for each of `exec`,
`collStep` and `sweepStep`, made here and nowhere else. A change to how batches are
handed around, or one more place to keep them, needs a line in the list, and an
account needs another line only if it cares about it.
-/

open Finset Sums

namespace Cdpt

/-- `pinned_alloc_color`, of the node alone. -/
def Local.allocColor (l : Local) : Color :=
  match l.epoch.phase with
  | .N => l.epoch.color
  | _ => l.epoch.color.flip

theorem allocColor_local (s : St) (t : Lid) : s.allocColor t = (s.locals t).allocColor := by
  unfold St.allocColor Local.allocColor
  cases (s.locals t).epoch.phase <;> rfl

theorem allocColor_of_epoch {l l' : Local} (h : l'.epoch = l.epoch) :
    l'.allocColor = l.allocColor := by
  rw [Local.allocColor, h, Local.allocColor]

/-- What a place is worth: the batch a thread has open for a colour, an object on
its way into it, a batch on its way out of it and the bytes still to be counted
then (with the allocation colour of the thread), the part of a batch a helper has
not swept with the bytes it has reclaimed, a batch that is being scanned, the
queues, a sweeper, and what the collector flushes for others. -/
structure Weights (A : Type) [AddCancelCommMonoid A] where
  own : Color → List Oid × Nat → A
  pushing : Oid → Bool → A
  flushing : Color → List Oid → A
  counting : Color → Nat → A
  sweeping : List Oid → Nat → A
  scanning : List Oid → A
  fresh : Color → List Oid → A
  marked : Color → List Oid → A
  sweeper : Sweeper → A
  pending : List Oid → Nat → A
  pendCount : Nat → A
  own_nil : ∀ c, own c ([], 0) = 0

variable {A : Type} [AddCancelCommMonoid A]

/-- The worth of a row of sharded queues. -/
def shards (g : Color → List Oid → A) (f : Color → Nat → List (List Oid)) : A :=
  ∑ q ∈ range objBatchesShard, (((f .C0 q).map (g .C0)).sum + ((f .C1 q).map (g .C1)).sum)

theorem setQueue_self (f : Color → Nat → List (List Oid)) (c : Color) (q : Nat)
    (bs : List (List Oid)) : setQueue f c q bs c q = bs := by
  simp [setQueue]

theorem setQueue_color (f : Color → Nat → List (List Oid)) {c c' : Color} (hc : c' ≠ c) (q q' : Nat)
    (bs : List (List Oid)) : setQueue f c q bs c' q' = f c' q' := by
  simp [setQueue, hc]

theorem shards_setQueue (g : Color → List Oid → A) (f : Color → Nat → List (List Oid))
    (c : Color) {q : Nat} (hq : q < objBatchesShard) (bs : List (List Oid)) :
    shards g (setQueue f c q bs) + ((f c q).map (g c)).sum =
      shards g f + (bs.map (g c)).sum := by
  have hex : shards g (setQueue f c q bs) +
        (((f .C0 q).map (g .C0)).sum + ((f .C1 q).map (g .C1)).sum) =
      shards g f + (((setQueue f c q bs .C0 q).map (g .C0)).sum +
        ((setQueue f c q bs .C1 q).map (g .C1)).sum) := by
    refine sum_exchange (f := fun q' => ((setQueue f c q bs .C0 q').map (g .C0)).sum +
      ((setQueue f c q bs .C1 q').map (g .C1)).sum)
      (g := fun q' => ((f .C0 q').map (g .C0)).sum + ((f .C1 q').map (g .C1)).sum)
      (mem_range.2 hq) fun q' _ hne => ?_
    simp [setQueue, hne]
  cases c with
  | C0 =>
      rw [setQueue_self, setQueue_color f (by decide), ← add_assoc, ← add_assoc] at hex
      exact add_right_cancel hex
  | C1 =>
      rw [setQueue_self, setQueue_color f (by decide), add_comm ((f .C0 q).map (g .C0)).sum,
        add_comm ((f .C0 q).map (g .C0)).sum, ← add_assoc, ← add_assoc] at hex
      exact add_right_cancel hex

theorem shards_push (g : Color → List Oid → A) (f : Color → Nat → List (List Oid)) (c : Color)
    {q : Nat} (hq : q < objBatchesShard) (b : List Oid) :
    shards g (setQueue f c q (f c q ++ [b])) = shards g f + g c b := by
  have h := shards_setQueue g f c hq (f c q ++ [b])
  rw [List.map_append, List.sum_append, List.map_singleton, List.sum_singleton,
    add_comm ((f c q).map (g c)).sum (g c b), ← add_assoc] at h
  exact add_right_cancel h

theorem shards_pop (g : Color → List Oid → A) (f : Color → Nat → List (List Oid)) (c : Color)
    {q : Nat} (hq : q < objBatchesShard) :
    shards g (setQueue f c q (f c q).tail) + (((f c q).take 1).map (g c)).sum = shards g f := by
  have h := shards_setQueue g f c hq (f c q).tail
  cases hb : f c q with
  | nil =>
      rw [hb] at h
      rw [List.take_nil]
      exact h.trans (add_zero _)
  | cons b bs =>
      rw [hb, List.map_cons, List.sum_cons, ← add_assoc] at h
      rw [List.take_one, List.head?_cons, Option.toList_some, List.map_singleton,
        List.sum_singleton]
      exact add_right_cancel h

namespace Weights

variable (W : Weights A)

def frame (c : Color) : Frame → A
  | .ptr (.pushObj o newly) => W.pushing o newly
  | .ptr (.flushPush c' b _) => W.flushing c' b
  | .ptr (.flushStat n) => W.counting c n
  | .help (.sweepObjs todo bytes _ _ _) => W.sweeping todo bytes
  | .help (.scanObjs _ done todo) => W.scanning (done ++ todo)
  | .help (.forceHps _ _ _ done o todo) => W.scanning (done ++ o :: todo)
  | _ => 0

def stage : Stage → A
  | .pendPush b n _ => W.pending b n
  | .pendStat n _ => W.pendCount n
  | _ => 0

def node (l : Local) : A :=
  W.own .C0 (l.objs .C0) + W.own .C1 (l.objs .C1) + (l.stack.map (W.frame l.allocColor)).sum

def total (s : St) : A :=
  ∑ t ∈ range s.nLocals, W.node (s.locals t) + shards W.fresh s.freshObjs +
    shards W.marked s.markedObjs + (s.sweepers.map W.sweeper).sum + W.stage s.stage

/-- What a step takes out of the queues and the open batches. -/
def out (s : St) (t : Lid) : Eff → A
  | .pushObj c _ _ => W.own c ((s.locals t).objs c)
  | .takeBatch i c => W.own c ((s.locals i).objs c)
  | .popFresh c q => (((s.freshObjs c q).take 1).map (W.fresh c)).sum
  | .popMarked c q => (((s.markedObjs c q).take 1).map (W.marked c)).sum
  | _ => 0

/-- What it puts there. -/
def into (s : St) (t : Lid) : Eff → A
  | .pushObj c o newly => W.own c (((s.locals t).objs c).1 ++ [o],
      if newly then ((s.locals t).objs c).2 + (s.objs o).size else ((s.locals t).objs c).2)
  | .takeBatch _ c => W.own c ([], 0)
  | .pushFresh c _ b => W.fresh c b
  | .pushMarked c _ b => W.marked c b
  | _ => 0

end Weights

/-- The batch effects stay within the list of nodes and the array of shards. -/
def Eff.fits (s : St) (t : Lid) : Eff → Prop
  | .pushObj _ _ _ => t < s.nLocals
  | .takeBatch i _ => i < s.nLocals
  | .pushFresh _ q _ | .pushMarked _ q _ | .popFresh _ q | .popMarked _ q => q < objBatchesShard
  | .spawnSweep _ _ => False
  | _ => True

/-- The effects that leave the batches alone. -/
def Eff.batchFree : Eff → Bool
  | .pushObj _ _ _ | .takeBatch _ _ | .pushFresh _ _ _ | .popFresh _ _ | .pushMarked _ _ _
  | .popMarked _ _ | .spawnSweep _ _ => false
  | _ => true

theorem batchFree_apply {e : Eff} (he : e.batchFree = true) (s : St) (t : Lid) :
    (∀ i, ((e.apply s t).locals i).objs = (s.locals i).objs) ∧
    (∀ i, i ≠ t → ((e.apply s t).locals i).epoch = (s.locals i).epoch) ∧
    (e.apply s t).freshObjs = s.freshObjs ∧ (e.apply s t).markedObjs = s.markedObjs ∧
    (e.apply s t).sweepers = s.sweepers := by
  cases e with
  | pushObj | takeBatch | pushFresh | popFresh | pushMarked | popMarked | spawnSweep => cases he
  | setLink l p => cases l <;> exact ⟨fun _ => rfl, fun _ _ => rfl, rfl, rfl, rfl⟩
  | steal j n =>
      refine ⟨fun i => ?_, fun i _ => ?_, rfl, rfl, rfl⟩ <;>
        simp only [Eff.apply, setLocal_locals] <;> split <;> split <;> simp_all
  | _ =>
      refine ⟨fun i => ?_, fun i hi => ?_, rfl, rfl, rfl⟩
      · by_cases hi : i = t <;> simp [Eff.apply, St.setObj, hi]
      · simp [Eff.apply, St.setObj, hi]

namespace Weights

variable (W : Weights A)

theorem node_congr {l l' : Local} (ho : l'.objs = l.objs) (hs : l'.stack = l.stack)
    (hc : l'.allocColor = l.allocColor ∨ ∀ f ∈ l.stack, ∀ c c', W.frame c f = W.frame c' f) :
    W.node l' = W.node l := by
  rw [node, node, ho, hs]
  rcases hc with hc | hc
  · rw [hc]
  · rw [List.map_congr_left fun f hf => hc f hf l'.allocColor l.allocColor]

theorem total_congr {s s' : St} (hn : s'.nLocals = s.nLocals)
    (hl : ∀ i < s.nLocals, W.node (s'.locals i) = W.node (s.locals i))
    (hf : s'.freshObjs = s.freshObjs) (hm : s'.markedObjs = s.markedObjs)
    (hw : s'.sweepers = s.sweepers) (hst : s'.stage = s.stage) : W.total s' = W.total s := by
  rw [total, total, hn, hf, hm, hw, hst, sum_congr rfl fun i hi => hl i (mem_range.1 hi)]

theorem total_locals {s : St} (s' : St) {t : Lid} (ht : t < s.nLocals) (hn : s'.nLocals = s.nLocals)
    (hl : ∀ i, i ≠ t → s'.locals i = s.locals i) (hf : s'.freshObjs = s.freshObjs)
    (hm : s'.markedObjs = s.markedObjs) (hw : s'.sweepers = s.sweepers)
    (hst : s'.stage = s.stage) :
    W.total s' + W.node (s.locals t) = W.total s + W.node (s'.locals t) := by
  have hex := sum_exchange (u := range s.nLocals) (k := t)
    (f := fun i => W.node (s'.locals i)) (g := fun i => W.node (s.locals i))
    (mem_range.2 ht) fun i _ hne => by rw [hl i hne]
  rw [total, total, hn, hf, hm, hw, hst]
  exact exchange_left (exchange_left (exchange_left (exchange_left hex _) _) _) _

theorem node_own {l l' : Local} {c : Color} {b : List Oid × Nat}
    (ho : l'.objs = Function.update l.objs c b) (hs : l'.stack = l.stack)
    (he : l'.epoch = l.epoch) : W.node l' + W.own c (l.objs c) = W.node l + W.own c b := by
  have hc := allocColor_of_epoch he
  rw [node, node, ho, hs, hc]
  refine exchange_left ?_ _
  cases c with
  | C0 =>
      rw [Function.update_self, Function.update_of_ne (by decide)]
      exact exchange_left (add_comm _ _) _
  | C1 =>
      rw [Function.update_self, Function.update_of_ne (by decide)]
      exact exchange_right (add_comm _ _) _

/-- The sum changes by what an effect takes out and puts in. -/
theorem total_apply {s : St} {t : Lid} {e : Eff} (hfit : e.fits s t)
    (hc : ((e.apply s t).locals t).allocColor = (s.locals t).allocColor ∨
      ∀ f ∈ (s.locals t).stack, ∀ c c', W.frame c f = W.frame c' f) :
    W.total (e.apply s t) + W.out s t e = W.total s + W.into s t e := by
  have hnode : ∀ {i : Lid} {c : Color} {b : List Oid × Nat}, i < s.nLocals →
      W.total (s.setLocal i { s.locals i with objs := Function.update (s.locals i).objs c b }) +
        W.own c ((s.locals i).objs c) = W.total s + W.own c b := by
    intro i c b hi
    have hl := W.total_locals (s.setLocal i
      { s.locals i with objs := Function.update (s.locals i).objs c b }) hi rfl
      (fun j hj => by simp [hj]) rfl rfl rfl rfl
    rw [setLocal_locals, if_pos rfl] at hl
    have hn : W.node { s.locals i with objs := Function.update (s.locals i).objs c b } +
        W.own c ((s.locals i).objs c) = W.node (s.locals i) + W.own c b :=
      W.node_own rfl rfl rfl
    refine add_right_cancel (b := W.node (s.locals i)) ?_
    rw [add_right_comm, hl, add_right_comm, add_assoc, add_comm (W.own c _), hn]
    exact (add_assoc ..).symm.trans (add_right_comm ..)
  by_cases hfree : e.batchFree = true
  · obtain ⟨ho, hep, hf, hm, hw⟩ := batchFree_apply hfree s t
    have h0 : W.out s t e = 0 ∧ W.into s t e = 0 := by
      cases e <;> first | (cases hfree; done) | exact ⟨rfl, rfl⟩
    rw [h0.1, h0.2, add_zero, add_zero]
    refine W.total_congr (apply_nLocals ..) (fun i _ => ?_) hf hm hw (apply_stage ..)
    refine W.node_congr (ho i) (apply_stack ..) ?_
    by_cases hi : i = t
    · exact hi ▸ hc
    · exact .inl (allocColor_of_epoch (hep i hi))
  · cases e with
    | pushObj c o newly => exact hnode hfit
    | takeBatch i c => exact hnode hfit
    | pushFresh c q b =>
        have hq := shards_push W.fresh s.freshObjs c hfit b
        rw [← add_zero (shards W.fresh (setQueue _ _ _ _))] at hq
        exact exchange_left (exchange_left (exchange_left (exchange_right hq _) _) _) _
    | popFresh c q =>
        have hq := shards_pop W.fresh s.freshObjs c hfit
        rw [← add_zero (shards W.fresh s.freshObjs)] at hq
        exact exchange_left (exchange_left (exchange_left (exchange_right hq _) _) _) _
    | pushMarked c q b =>
        have hq := shards_push W.marked s.markedObjs c hfit b
        rw [← add_zero (shards W.marked (setQueue _ _ _ _))] at hq
        exact exchange_left (exchange_left (exchange_right hq _) _) _
    | popMarked c q =>
        have hq := shards_pop W.marked s.markedObjs c hfit
        rw [← add_zero (shards W.marked s.markedObjs)] at hq
        exact exchange_left (exchange_left (exchange_right hq _) _) _
    | spawnSweep e ws => exact hfit.elim
    | _ => exact absurd rfl hfree

theorem total_setStack (s : St) {t : Lid} (ht : t < s.nLocals) (fs : List Frame) :
    W.total (s.setStack t fs) + ((s.locals t).stack.map (W.frame (s.locals t).allocColor)).sum =
      W.total s + (fs.map (W.frame (s.locals t).allocColor)).sum := by
  have hl := W.total_locals (s.setStack t fs) ht rfl
    (fun j hj => setStack_stack_ne s fs hj) rfl rfl rfl rfl
  have hnode : W.node ((s.setStack t fs).locals t) =
      W.own .C0 ((s.locals t).objs .C0) + W.own .C1 ((s.locals t).objs .C1) +
        (fs.map (W.frame (s.locals t).allocColor)).sum := by
    rw [setStack_locals, if_pos rfl]
    rfl
  rw [hnode, node, add_left_comm, add_left_comm (W.total s)] at hl
  exact add_left_cancel hl

/-- One step of the thread on node `t`. -/
theorem total_run {s s' : St} {t : Lid} {ch : Nat} {f : Frame} {rest : List Frame}
    (ht : t < s.nLocals) (hst : (s.locals t).stack = f :: rest)
    (hs' : s' = ((exec s t ch f).1.apply s t).setStack t ((exec s t ch f).2 ++ rest))
    (hfit : (exec s t ch f).1.fits s t)
    (hc : (s'.locals t).allocColor = (s.locals t).allocColor ∨
      ∀ g ∈ f :: rest, ∀ c c', W.frame c g = W.frame c' g) :
    W.total s' + (W.frame (s.locals t).allocColor f + W.out s t (exec s t ch f).1) =
      W.total s + (((exec s t ch f).2.map (W.frame (s'.locals t).allocColor)).sum +
        W.into s t (exec s t ch f).1) := by
  have hcol : (s'.locals t).allocColor =
      (((exec s t ch f).1.apply s t).locals t).allocColor := by
    rw [hs', setStack_locals, if_pos rfl]
    rfl
  have happ := W.total_apply (e := (exec s t ch f).1) hfit (by rwa [hst, ← hcol])
  have hstk := W.total_setStack ((exec s t ch f).1.apply s t) (t := t)
    (by rwa [apply_nLocals]) ((exec s t ch f).2 ++ rest)
  rw [apply_stack, hst, ← hs', ← hcol, List.map_cons, List.sum_cons, List.map_append,
    List.sum_append, ← add_assoc, ← add_assoc] at hstk
  have hstk := add_right_cancel hstk
  have hf : W.frame (s'.locals t).allocColor f = W.frame (s.locals t).allocColor f :=
    hc.elim (fun h => by rw [h]) fun h => h f (by simp) _ _
  rw [← hf, ← add_assoc, hstk, add_right_comm, happ]
  exact (add_right_comm ..).trans (add_assoc ..)

end Weights

/-! ## The moves of a thread -/

/-- The frames that hold a batch, an object for one, or the bytes of one. -/
def Frame.carries : Frame → Bool
  | .ptr (.pushObj _ _) | .ptr (.flushPush _ _ _) | .ptr (.flushStat _)
  | .help (.sweepObjs _ _ _ _ _) | .help (.scanObjs _ _ _) | .help (.forceHps _ _ _ _ _ _) => true
  | _ => false

/-- The batch a scanner works on. -/
def Frame.scans : Frame → Option (List Oid)
  | .help (.scanObjs _ done todo) => some (done ++ todo)
  | .help (.forceHps _ _ _ done o todo) => some (done ++ o :: todo)
  | _ => none

/-- The effects that touch neither a batch nor a counter of bytes. -/
def Eff.idle : Eff → Bool
  | .pushObj _ _ _ | .takeBatch _ _ | .pushFresh _ _ _ | .popFresh _ _ | .pushMarked _ _ _
  | .popMarked _ _ | .spawnSweep _ _ | .addAllocated _ | .addReclaimed _ | .reclaim _ => false
  | _ => true

/-- What a step of a thread does to the batches. -/
inductive BatchStep (s : St) (t : Lid) : Frame → Eff → List Frame → Prop
  | idle {f : Frame} {e : Eff} {fs : List Frame} (hf : f.carries = false) (he : e.idle = true)
      (hfs : fs.all (fun g => !g.carries) = true) : BatchStep s t f e fs
  | push {o : Oid} {newly : Bool}
      (hroom : ((s.locals t).objs (s.allocColor t)).1.length < objBatchSize) :
      BatchStep s t (.ptr (.pushObj o newly)) (.pushObj (s.allocColor t) o newly) []
  | flush {o : Oid} {newly : Bool}
      (hfull : objBatchSize ≤ ((s.locals t).objs (s.allocColor t)).1.length) :
      BatchStep s t (.ptr (.pushObj o newly)) (.takeBatch t (s.allocColor t))
        [.ptr (.flushPush (s.allocColor t) ((s.locals t).objs (s.allocColor t)).1
            ((s.locals t).objs (s.allocColor t)).2),
          .ptr (.flushStat ((s.locals t).objs (s.allocColor t)).2), .ptr (.pushObj o newly)]
  | flushed {c : Color} {b : List Oid} {n q : Nat} (hq : q < objBatchesShard) :
      BatchStep s t (.ptr (.flushPush c b n)) (.pushFresh c q b) []
  | counted {n : Nat} : BatchStep s t (.ptr (.flushStat n)) (.addAllocated n) []
  | sweepPop {q : Nat} {qs : List Nat} {k : Nat} {b : List Oid} {bs : List (List Oid)}
      (hb : s.markedObjs (s.black t) q = b :: bs) :
      BatchStep s t (.help (.normalPop q qs k)) (.popMarked (s.black t) q)
        [.help (.sweepObjs b 0 q qs k)]
  | reclaim {o : Oid} {rest : List Oid} {bytes q : Nat} {qs : List Nat} {k : Nat}
      (hc : s.color o = s.black t) :
      BatchStep s t (.help (.sweepObjs (o :: rest) bytes q qs k)) (.reclaim o)
        [.help (.sweepObjs rest (bytes + (s.objs o).size) q qs k)]
  | keep {o : Oid} {rest : List Oid} {bytes q : Nat} {qs : List Nat} {k : Nat}
      (hc : s.color o ≠ s.black t) :
      BatchStep s t (.help (.sweepObjs (o :: rest) bytes q qs k)) .nop
        [.ptr (.pushObj o false), .help (.sweepObjs rest bytes q qs k)]
  | swept {bytes q : Nat} {qs : List Nat} {k : Nat} {fs : List Frame}
      (hfs : fs.all (fun g => !g.carries) = true) :
      BatchStep s t (.help (.sweepObjs [] bytes q qs k)) (.addReclaimed bytes) fs
  | scanPop {sc : Scanner} {q : Nat} {b : List Oid} {bs : List (List Oid)}
      (hb : s.freshObjs (s.white t) q = b :: bs) :
      BatchStep s t (.help (.scanPop sc)) (.popFresh (s.white t) q) [.help (.scanObjs sc [] b)]
  | scan {f g : Frame} {e : Eff} {fs : List Frame} {os : List Oid} (hf : f.scans = some os)
      (he : e.idle = true) (hfs : fs.all (fun g => !g.carries) = true) (hg : g.scans = some os) :
      BatchStep s t f e (fs ++ [g])
  | scanned {sc : Scanner} {done : List Oid} {q : Nat} {fs : List Frame}
      (hq : q < objBatchesShard) (hfs : fs.all (fun g => !g.carries) = true) :
      BatchStep s t (.help (.scanObjs sc done [])) (.pushMarked (s.white t) q done) fs

theorem carries_unrootedOnce (s : St) (t : Lid) (l : Loc) (old new : ManPtr) (k : CasKind) :
    Frame.carries (.ptr (unrootedOnce s t l old new k)) = false := by
  unfold unrootedOnce
  repeat' split
  all_goals rfl

theorem carries_resume (r : ShadeRet) : r.resume.all (fun g => !g.carries) = true := by
  cases r <;> rfl

theorem carries_ret (p : ManPtr) : Frame.carries (.ptr (.ret p)) = false := rfl

theorem carries_dropTemp (p : ManPtr) : (dropTemp p).all (fun g => !g.carries) = true := by
  unfold dropTemp
  split <;> rfl

theorem shard_lt (ch : Nat) : ch % objBatchesShard < objBatchesShard := Nat.mod_lt _ (by decide)

theorem scanHazard_batch (hs : List Oid) (sc : Scanner) (done : List Oid) (o : Oid)
    (todo : List Oid) : ∃ fs g, scanHazard hs sc done o todo = fs ++ [g] ∧
      fs.all (fun g => !g.carries) = true ∧ g.scans = some (done ++ o :: todo) := by
  have hg : Frame.scans (.help (.scanObjs sc (done ++ [o]) todo)) = some (done ++ o :: todo) := by
    rw [Frame.scans, List.append_assoc, List.singleton_append]
  unfold scanHazard
  split
  · exact ⟨[.mark (.links o 0)], _, rfl, rfl, hg⟩
  · exact ⟨[], _, rfl, rfl, hg⟩

theorem scanObj_batch (s : St) (t : Lid) (sc : Scanner) (done : List Oid) (o : Oid)
    (todo : List Oid) : ∃ fs g, scanObj s t sc done o todo = fs ++ [g] ∧
      fs.all (fun g => !g.carries) = true ∧ g.scans = some (done ++ o :: todo) := by
  unfold scanObj
  repeat' split
  all_goals first
    | exact scanHazard_batch ..
    | exact ⟨[], _, rfl, rfl, rfl⟩
    | exact ⟨[.mark (.links o 0)], .help (.scanObjs sc (done ++ [o]) todo), rfl, rfl, by
        rw [Frame.scans, List.append_assoc, List.singleton_append]⟩

theorem exec_batches (s : St) (t : Lid) (ch : Nat) (f : Frame) :
    BatchStep s t f (exec s t ch f).1 (exec s t ch f).2 := by
  cases f with
  | pin f =>
      refine .idle rfl ?_ ?_ <;> cases f <;> simp only [exec, execPin] <;> (repeat' split) <;> rfl
  | mark f =>
      refine .idle rfl ?_ ?_ <;> cases f <;> simp only [exec, execMark, shadeLink] <;>
        (repeat' split) <;> rfl
  | ptr f =>
      cases f with
      | pushObj o newly =>
          simp only [exec, execPtr]
          split
          · next h => exact .push h
          · next h => exact .flush (Nat.not_lt.1 h)
      | flushPush c b n => exact .flushed (shard_lt ch)
      | flushStat n => exact .counted
      | _ =>
          refine .idle rfl ?_ ?_
          · simp only [exec, execPtr]
            repeat' split
            all_goals rfl
          · simp only [exec, execPtr, rootedOnce, rootedFail, unrootedFail]
            repeat' split
            all_goals first
              | rfl
              | exact carries_resume _
              | simp only [List.all_append, List.all_cons, List.all_nil, carries_unrootedOnce,
                  carries_dropTemp, carries_ret, Bool.not_false, Bool.and_self]
  | help f =>
      cases f with
      | normalPop q qs k =>
          simp only [exec, execHelp]
          split
          · exact .idle rfl rfl rfl
          · next hb => exact .sweepPop hb
      | sweepObjs todo bytes q qs k =>
          simp only [exec, execHelp]
          split
          · split
            · next h => exact .reclaim h
            · next h => exact .keep h
          · refine .swept ?_
            split <;> rfl
      | scanPop sc =>
          simp only [exec, execHelp]
          repeat' split
          all_goals first
            | exact .idle rfl rfl rfl
            | (next hb => exact .scanPop hb)
      | scanObjs sc done todo =>
          simp only [exec, execHelp]
          split
          · obtain ⟨fs, g, hfs, hall, hg⟩ := scanObj_batch s t sc done _ _
            rw [hfs]
            exact .scan rfl rfl hall hg
          · refine .scanned (shard_lt ch) ?_
            unfold Scanner.next
            repeat' split
            all_goals rfl
      | forceHps h acc sc done o todo =>
          simp only [exec, execHelp]
          split
          · obtain ⟨fs, g, hfs, hall, hg⟩ := scanHazard_batch acc sc.force done o todo
            rw [hfs]
            exact .scan rfl rfl hall hg
          · have hnil : ([] : List Frame).all (fun g => !g.carries) = true := rfl
            exact .scan rfl rfl hnil rfl
      | _ =>
          refine .idle rfl ?_ ?_ <;> simp only [exec, execHelp] <;> (repeat' split) <;> rfl

/-! ## The moves of the collector and of the sweepers -/

def Stage.carries : Stage → Bool
  | .pendPush _ _ _ | .pendStat _ _ => true
  | _ => false

/-- What a step of the collector does to the batches. -/
inductive CollBatch (s : St) : Eff → Stage → Prop
  | idle {e : Eff} {st : Stage} (hst : s.stage.carries = false) (he : e.idle = true)
      (hst' : st.carries = false) : CollBatch s e st
  | take {i : Lid} {nx : Option Lid} (hst : s.stage = .pending (.act i nx))
      (hb : ((s.locals i).objs (s.white s.collector)).1 ≠ []) :
      CollBatch s (.takeBatch i (s.white s.collector))
        (.pendPush ((s.locals i).objs (s.white s.collector)).1
          ((s.locals i).objs (s.white s.collector)).2 nx)
  | push {b : List Oid} {n q : Nat} {nx : Option Lid} (hst : s.stage = .pendPush b n nx)
      (hq : q < objBatchesShard) :
      CollBatch s (.pushFresh (s.white s.collector) q b) (.pendStat n nx)
  | count {n : Nat} {nx : Option Lid} (hst : s.stage = .pendStat n nx) :
      CollBatch s (.addAllocated n) (.pending (.goto nx))
  | spawn (hst : s.stage = .nextNormal) :
      CollBatch s (.spawnSweep s.normalEpoch ((shardRanges s.collectorThreads).map fun r =>
        ⟨s.epoch.color, r.1, r.2, [], [], 0⟩)) .joinSweep

theorem collStep_moves {s : St} {ch : Nat} {e : Eff} {st : Stage} {fs : List Frame}
    (h : collStep s ch = some (e, st, fs)) :
    CollBatch s e st ∧ fs.all (fun g => !g.carries) = true := by
  have hafter : s.afterWait.carries = false := by
    unfold St.afterWait
    split <;> rfl
  cases hst : s.stage with
  | pendPush b n nx =>
      simp only [collStep, hst, Option.some.injEq, Prod.mk.injEq] at h
      obtain ⟨rfl, rfl, rfl⟩ := h
      exact ⟨.push hst (shard_lt ch), rfl⟩
  | pendStat n nx =>
      simp only [collStep, hst, Option.some.injEq, Prod.mk.injEq] at h
      obtain ⟨rfl, rfl, rfl⟩ := h
      exact ⟨.count hst, rfl⟩
  | nextNormal =>
      simp only [collStep, hst, Option.some.injEq, Prod.mk.injEq] at h
      obtain ⟨rfl, rfl, rfl⟩ := h
      exact ⟨.spawn hst, rfl⟩
  | pending it =>
      simp only [collStep, hst] at h
      split at h
      · split at h
        · cases h
          exact ⟨.idle (by rw [hst]; rfl) rfl rfl, rfl⟩
        · next hb =>
            cases h
            exact ⟨.take hst hb, rfl⟩
      · cases h
        exact ⟨.idle (by rw [hst]; rfl) rfl rfl, rfl⟩
      · cases h
        exact ⟨.idle (by rw [hst]; rfl) rfl rfl, rfl⟩
  | _ =>
      have hcar : s.stage.carries = false := by rw [hst]; rfl
      simp only [collStep, hst] at h
      repeat' split at h
      all_goals first
        | (cases h; done)
        | (cases h; exact ⟨.idle hcar rfl rfl, rfl⟩)
        | (cases h; exact ⟨.idle hcar rfl hafter, rfl⟩)

/-- What a step of a sweeper does to the batches. -/
inductive SweepBatch (s : St) (w : Sweeper) : Eff → Option Sweeper → Prop
  | reclaim {o : Oid} {rest : List Oid} (ht : w.todo = o :: rest) (hc : s.color o = w.prevWhite) :
      SweepBatch s w (.reclaim o) (some { w with todo := rest, bytes := w.bytes + (s.objs o).size })
  | keep {o : Oid} {rest : List Oid} (ht : w.todo = o :: rest) (hc : s.color o ≠ w.prevWhite)
      (hroom : w.survived.length < objBatchSize) :
      SweepBatch s w .nop (some { w with todo := rest, survived := w.survived ++ [o] })
  | full {o : Oid} {rest : List Oid} {q : Nat} (ht : w.todo = o :: rest)
      (hc : s.color o ≠ w.prevWhite) (hfull : objBatchSize ≤ w.survived.length)
      (hq : q < objBatchesShard) :
      SweepBatch s w (.pushFresh w.prevWhite.flip q w.survived)
        (some { w with todo := rest, survived := [o] })
  | pop {b : List Oid} {bs : List (List Oid)} (ht : w.todo = []) (hq : w.q < w.hi)
      (hb : s.markedObjs w.prevWhite w.q = b :: bs) :
      SweepBatch s w (.popMarked w.prevWhite w.q) (some { w with todo := b })
  | next (ht : w.todo = []) (hq : w.q < w.hi) (hb : s.markedObjs w.prevWhite w.q = []) :
      SweepBatch s w .nop (some { w with q := w.q + 1 })
  | last {q : Nat} (ht : w.todo = []) (hhi : ¬ w.q < w.hi) (hq : q < objBatchesShard) :
      SweepBatch s w (.pushFresh w.prevWhite.flip q w.survived) (some { w with survived := [] })
  | done (ht : w.todo = []) (hhi : ¬ w.q < w.hi) (hsv : w.survived = []) :
      SweepBatch s w (.addReclaimed w.bytes) none

theorem sweepStep_moves (s : St) (w : Sweeper) (ch : Nat) :
    SweepBatch s w (sweepStep s w ch).1 (sweepStep s w ch).2 := by
  unfold sweepStep
  split
  · next o rest ht =>
      split
      · next hc => exact .reclaim ht hc
      · next hc =>
          split
          · next hpush =>
              obtain ⟨hroom, rfl⟩ := pushWithinCapacity_eq_ok.1 hpush
              exact .keep ht hc hroom
          · next hpush =>
              obtain ⟨hfull, rfl⟩ := pushWithinCapacity_eq_error.1 hpush
              exact .full ht hc hfull (shard_lt ch)
  · next ht =>
      split
      · next hq =>
          split
          · next hb => exact .pop ht hq hb
          · next hb => exact .next ht hq hb
      · next hhi =>
          split
          · exact .last ht hhi (shard_lt ch)
          · next hsv => exact .done ht hhi (not_not.1 hsv)

/-- The sweepers after a step of the one at `k`. -/
def nextSweepers (ws : List Sweeper) (k : Nat) : Option Sweeper → List Sweeper
  | some w' => ws.set k w'
  | none => ws.eraseIdx k

namespace Weights

variable (W : Weights A)

theorem frame_idle {f : Frame} (h : f.carries = false) (c : Color) : W.frame c f = 0 := by
  cases f with
  | pin f | mark f => rfl
  | ptr f => cases f <;> first | rfl | cases h
  | help f => cases f <;> first | rfl | cases h

theorem frames_idle {fs : List Frame} (h : fs.all (fun g => !g.carries) = true) (c : Color) :
    (fs.map (W.frame c)).sum = 0 := by
  refine List.sum_eq_zero fun x hx => ?_
  obtain ⟨f, hf, rfl⟩ := List.mem_map.1 hx
  exact W.frame_idle (by simpa using List.all_eq_true.1 h f hf) c

theorem frame_scans {f : Frame} {os : List Oid} (h : f.scans = some os) (c : Color) :
    W.frame c f = W.scanning os := by
  cases f with
  | help f => cases f <;> first | (cases h; done) | (cases h; rfl)
  | _ => cases h

theorem stage_idle {st : Stage} (h : st.carries = false) : W.stage st = 0 := by
  cases st <;> first | rfl | cases h

theorem out_idle {e : Eff} (h : e.idle = true) (s : St) (t : Lid) : W.out s t e = 0 := by
  cases e <;> first | rfl | cases h

theorem into_idle {e : Eff} (h : e.idle = true) (s : St) (t : Lid) : W.into s t e = 0 := by
  cases e <;> first | rfl | cases h

theorem total_withStage (s : St) (st : Stage) :
    W.total (s.withStage st) + W.stage s.stage = W.total s + W.stage st :=
  exchange_right (add_comm _ _) _

theorem total_withSweepers (s : St) (ws : List Sweeper) :
    W.total (s.withSweepers ws) + (s.sweepers.map W.sweeper).sum =
      W.total s + (ws.map W.sweeper).sum :=
  exchange_left (exchange_right (add_comm _ _) _) _

/-- Joins two exchanges, one after the other. -/
theorem exchange_trans {x y z a b c d : A} (h : y + a = x + b) (h' : z + c = y + d) :
    z + (c + a) = x + (d + b) := by
  rw [← add_assoc, h', add_right_comm, h, add_right_comm, add_assoc]

/-- The frames the collector pushes carry nothing. -/
theorem total_setStack_idle {s : St} {t : Lid} {fs : List Frame} (ht : t < s.nLocals)
    (hst : (s.locals t).stack.all (fun g => !g.carries) = true)
    (hfs : fs.all (fun g => !g.carries) = true) : W.total (s.setStack t fs) = W.total s := by
  have h := W.total_setStack s ht fs
  rwa [W.frames_idle hst, W.frames_idle hfs, add_zero, add_zero] at h

/-- One step of the collector that spawns no sweepers. -/
theorem total_coll {s s' : St} {ch : Nat} {e : Eff} {st : Stage} {fs : List Frame}
    (hlt : s.collector < s.nLocals) (hst : (s.locals s.collector).stack = [])
    (hcoll : collStep s ch = some (e, st, fs)) (hfit : e.fits s s.collector)
    (hs' : s' = ((e.apply s s.collector).withStage st).setStack s.collector fs) :
    W.total s' + (W.stage s.stage + W.out s s.collector e) =
      W.total s + (W.stage st + W.into s s.collector e) := by
  have hstk : W.total s' = W.total ((e.apply s s.collector).withStage st) := by
    rw [hs']
    refine W.total_setStack_idle (by rwa [withStage_nLocals, apply_nLocals]) ?_
      (collStep_moves hcoll).2
    rw [withStage_locals, apply_stack, hst]
    rfl
  have happ := W.total_apply (e := e) hfit (.inr (by simp [hst]))
  have hstage := W.total_withStage (e.apply s s.collector) st
  rw [apply_stage] at hstage
  rw [hstk]
  exact exchange_trans happ hstage

/-- The step of the collector that spawns them. -/
theorem total_spawn {s s' : St} {ep : Epoch} {ws : List Sweeper} {st : Stage} {fs : List Frame}
    (hlt : s.collector < s.nLocals) (hst : (s.locals s.collector).stack = [])
    (hfs : fs.all (fun g => !g.carries) = true) (hnone : s.sweepers = [])
    (hw : ∀ w ∈ ws, W.sweeper w = 0) (h0 : W.stage s.stage = 0) (h1 : W.stage st = 0)
    (hs' : s' = (((Eff.spawnSweep ep ws).apply s s.collector).withStage st).setStack
      s.collector fs) : W.total s' = W.total s := by
  have hstk : W.total s' = W.total (((Eff.spawnSweep ep ws).apply s s.collector).withStage st) := by
    rw [hs']
    refine W.total_setStack_idle hlt ?_ hfs
    show (s.locals s.collector).stack.all _ = true
    rw [hst]
    rfl
  have hsw : (ws.map W.sweeper).sum = 0 := by
    refine List.sum_eq_zero fun x hx => ?_
    obtain ⟨w, hw', rfl⟩ := List.mem_map.1 hx
    exact hw w hw'
  rw [hstk, total, total]
  show _ + (ws.map W.sweeper).sum + W.stage st =
    _ + (s.sweepers.map W.sweeper).sum + W.stage s.stage
  rw [hsw, hnone, h0, h1]
  rfl

theorem sum_nextSweepers {ws : List Sweeper} {k : Nat} {w : Sweeper} (hw : ws[k]? = some w)
    (r : Option Sweeper) : ((nextSweepers ws k r).map W.sweeper).sum + W.sweeper w =
      (ws.map W.sweeper).sum + (r.map W.sweeper).getD 0 := by
  cases r with
  | some w' => exact sum_map_set W.sweeper w' hw
  | none => exact (sum_map_eraseIdx W.sweeper hw).trans (add_zero _).symm

/-- One step of a sweeper. -/
theorem total_sweep {s s' : St} {k ch : Nat} {w : Sweeper}
    (hw : s.sweepers[k]? = some w) (hfit : (sweepStep s w ch).1.fits s s.collector)
    (hs' : s' = ((sweepStep s w ch).1.apply s s.collector).withSweepers
      (nextSweepers s.sweepers k (sweepStep s w ch).2)) :
    W.total s' + (W.sweeper w + W.out s s.collector (sweepStep s w ch).1) =
      W.total s + (((sweepStep s w ch).2.map W.sweeper).getD 0 +
        W.into s s.collector (sweepStep s w ch).1) := by
  have hview := apply_pinView (sweepStep_pinFree s w ch) s s.collector s.collector
  have hep : (((sweepStep s w ch).1.apply s s.collector).locals s.collector).epoch =
      (s.locals s.collector).epoch := congrArg (fun v => v.2.2.1) hview
  have happ := W.total_apply (e := (sweepStep s w ch).1) hfit
    (.inl (allocColor_of_epoch hep))
  have hsw : ((sweepStep s w ch).1.apply s s.collector).sweepers = s.sweepers := by
    have hmoves := sweepStep_moves s w ch
    generalize sweepStep s w ch = r at hmoves
    obtain ⟨e, w'⟩ := r
    cases hmoves <;> rfl
  have hset := W.total_withSweepers ((sweepStep s w ch).1.apply s s.collector)
    (nextSweepers s.sweepers k (sweepStep s w ch).2)
  rw [← hs', hsw] at hset
  have hnext := W.sum_nextSweepers hw (sweepStep s w ch).2
  refine exchange_trans happ (add_right_cancel (b := (s.sweepers.map W.sweeper).sum) ?_)
  rw [add_right_comm, hset, add_assoc, hnext, add_assoc,
    add_comm ((sweepStep s w ch).2.map _ |>.getD 0)]

end Weights

/-! ## Counters -/

/-- What an effect adds to `total_reclaimed` and to `total_allocated`. -/
def Eff.counted : Eff → Nat × Nat
  | .addReclaimed n => (n, 0)
  | .addAllocated n => (0, n)
  | _ => 0

def St.counters (s : St) : Nat × Nat := (s.totalReclaimed, s.totalAllocated)

theorem counters_apply (e : Eff) (s : St) (t : Lid) :
    (e.apply s t).counters = s.counters + e.counted := by
  cases e with
  | setLink l p => cases l <;> rfl
  | _ => rfl

/-! ## The other moves -/

theorem startOp_carries {s s₁ : St} {t : Lid} {op : Op} {fs : List Frame}
    (h : startOp s t op = some (s₁, fs)) : fs.all (fun g => !g.carries) = true ∨
      ∃ cs size k, op = .alloc cs size k ∧ fs = [.ptr (.pushObj s.nextObj true),
        .ptr (.unroot s.nextObj 0), .ptr (.allocRet s.nextObj k)] := by
  cases op with
  | alloc cs size k =>
      obtain ⟨-, rfl, -⟩ := startOp_alloc h
      exact .inr ⟨cs, size, k, rfl, rfl⟩
  | _ =>
      refine .inl ?_
      simp only [startOp] at h
      repeat' split at h
      all_goals first
        | (cases h; done)
        | (cases h; rfl)
        | (obtain ⟨o, -, h⟩ := Option.map_eq_some_iff.1 h
           cases h
           rfl)

theorem allocColor_of_view {l l' : Local} (h : l'.pinView = l.pinView) :
    l'.allocColor = l.allocColor :=
  allocColor_of_epoch (congrArg (fun v => v.2.2.1) h)

namespace Weights

variable (W : Weights A)

theorem total_op {s s₁ : St} {t : Lid} {op : Op} {fs : List Frame} (ht : t < s.nLocals)
    (hst : (s.locals t).stack = []) (h : startOp s t op = some (s₁, fs)) :
    W.total (s₁.setStack t fs) = W.total s + (fs.map (W.frame (s.locals t).allocColor)).sum := by
  have hsame := (startOp_same h).1
  obtain ⟨ho, hf, hm, hw, -⟩ := startOp_batches h
  have hcongr : W.total s₁ = W.total s :=
    W.total_congr hsame.nLocals
      (fun i _ => W.node_congr (ho i) (hsame.stack i) (.inl (allocColor_of_view (hsame.view i))))
      hf hm hw hsame.stage
  have hstk := W.total_setStack s₁ (t := t) (by rwa [hsame.nLocals]) fs
  rw [hsame.stack, hst, hcongr, allocColor_of_view (hsame.view t)] at hstk
  exact (add_zero _).symm.trans hstk

theorem total_register {s : St} {t : Lid} (hr : s.canRegister t) :
    W.total (s.register t) = W.total s := by
  unfold St.register
  split
  · next ht =>
      refine W.total_congr rfl (fun i _ => ?_) rfl rfl rfl rfl
      by_cases hi : i = t
      · subst hi
        rw [setLocal_locals, if_pos rfl]
        rfl
      · rw [setLocal_locals, if_neg hi]
  · next ht =>
      have hn : t = s.nLocals := hr.elim (fun h => absurd h.1 ht) id
      subst hn
      have hnew : W.node { Local.default with isUsing := true } = 0 := by
        rw [node]
        show W.own .C0 ([], 0) + W.own .C1 ([], 0) + 0 = 0
        rw [W.own_nil, W.own_nil, add_zero, add_zero]
      rw [total, total]
      show ∑ i ∈ range (s.nLocals + 1),
        W.node ((s.setLocal s.nLocals _).locals i) + _ + _ + _ + _ = _
      rw [sum_range_succ, setLocal_locals, if_pos rfl, hnew, add_zero]
      refine congrArg (· + _ + _ + _ + _) (sum_congr rfl fun i hi => ?_)
      rw [setLocal_locals, if_neg (Nat.ne_of_lt (mem_range.1 hi))]

theorem total_exit (s : St) (t : Lid) :
    W.total (s.setLocal t { s.locals t with isUsing := false }) = W.total s := by
  refine W.total_congr rfl (fun i _ => ?_) rfl rfl rfl rfl
  by_cases hi : i = t
  · subst hi
    rw [setLocal_locals, if_pos rfl]
    rfl
  · rw [setLocal_locals, if_neg hi]

end Weights

end Cdpt
