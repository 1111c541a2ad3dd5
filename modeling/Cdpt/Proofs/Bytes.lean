import Cdpt.Proofs.Stock

/-!
# The bytes that are counted

Three accounts. `stocks` is exact: an object that is not reclaimed is in one place,
what is not yet counted as allocated is in the open batches and with those who flush
them, and what is not yet counted as reclaimed is with those who sweep.

`cover` says whose bytes are still to be counted: for each colour, the objects of
batches that were flushed outweigh the bytes that are on their way to the counter.
It cannot be stated batch by batch, since a batch is in the queue before its bytes
are counted, and others take it from there. What makes it work is the phase
protocol, for nothing is swept in a colour in which somebody still counts.

`doomed` is what a sweep can still reclaim. It is counted, since `cover` leaves it
out, and outside the store of an N epoch it only shrinks.

The three are put together in `zone_le`: what is reclaimed, counted or not, and what
can still be reclaimed before the next N epoch, is at most what has been counted as
allocated. As this bound does not grow while no N epoch is stored, it carries from
one read of the counters to the next, however the helpers go on in between. That is
the form in which `record_collection_stats` and `heartbeat` need it, as they read
the two counters one after the other and subtract.
-/

open Finset Sums

namespace Cdpt

/-! ## Objects, bytes to be counted, bytes reclaimed -/

abbrev Stocks := Multiset Oid × Nat × Nat

def stockWeights (size : Oid → Nat) : Weights Stocks where
  own _ b := (↑b.1, b.2, 0)
  pushing o newly := ({o}, if newly then size o else 0, 0)
  flushing _ b := (↑b, 0, 0)
  counting _ n := (0, n, 0)
  sweeping todo n := (↑todo, 0, n)
  scanning b := (↑b, 0, 0)
  fresh _ b := (↑b, 0, 0)
  marked _ b := (↑b, 0, 0)
  sweeper w := (↑w.todo + ↑w.survived, 0, w.bytes)
  pending b n := (↑b, n, 0)
  pendCount n := (0, n, 0)
  own_nil _ := rfl

/-- The sizes `size` are those of the objects there are. -/
def St.sized (s : St) (size : Oid → Nat) : Prop := ∀ o < s.nextObj, (s.objs o).size = size o

theorem HeapStep.sized {s s' : St} {b : Entry} (h : HeapStep s s' b) {size : Oid → Nat}
    (hs : s'.sized size) : s.sized size := by
  intro o ho
  have hmem : o ∈ Multiset.range s'.nextObj := by
    rw [h.range]
    exact Multiset.mem_add.2 (.inl (Multiset.mem_range.2 ho))
  rw [← h.size o ho]
  exact hs o (Multiset.mem_range.1 hmem)

theorem stocks_worker {s : St} {w : Sweeper} {e : Eff} {r : Option Sweeper} {size : Oid → Nat}
    (hs : s.sized size) (ho : ∀ o ∈ w.todo, o < s.nextObj) (hmove : SweepBatch s w e r) :
    (r.map (stockWeights size).sweeper).getD 0 + (stockWeights size).into s s.collector e +
        ((e.dooms, e.counted.2, e.counted.1) : Stocks) =
      (stockWeights size).sweeper w + (stockWeights size).out s s.collector e +
        ((0, 0, (e.dooms.map size).sum) : Stocks) := by
  cases hmove with
  | @reclaim o rest ht hc =>
      have hlt := ho o (by simp [ht])
      simp [Weights.out, Weights.into, stockWeights, Eff.dooms, Eff.counted, ht, hs o hlt]
      rw [add_comm, Multiset.singleton_add, Multiset.cons_coe]
  | @keep o rest ht hc hroom =>
      simp [Weights.out, Weights.into, stockWeights, Eff.dooms, Eff.counted, ht]
      rw [← List.append_assoc]
      exact List.perm_append_singleton o _
  | @full o rest q ht hc hfull hq =>
      simp [Weights.out, Weights.into, stockWeights, Eff.dooms, Eff.counted, ht]
  | @pop b bs ht hq hb =>
      simp [Weights.out, Weights.into, stockWeights, Eff.dooms, Eff.counted, ht, hb]
      exact List.perm_append_comm
  | next ht hq hb =>
      simp [Weights.out, Weights.into, stockWeights, Eff.dooms, Eff.counted]
  | last ht hhi hq =>
      simp [Weights.out, Weights.into, stockWeights, Eff.dooms, Eff.counted, ht]
  | done ht hhi hsv =>
      simp [Weights.out, Weights.into, stockWeights, Eff.dooms, Eff.counted, ht, hsv]

theorem stocks_step {s s' : St} {b : Entry} {size : Oid → Nat} (h : StockStep s s' b)
    (hh : HeapStep s s' b) (hs : s'.sized size) :
    (stockWeights size).total s' + ((b.gone, b.allocated, b.reclaimed) : Stocks) =
      (stockWeights size).total s +
        ((b.made, (b.made.map size).sum, (b.gone.map size).sum) : Stocks) := by
  have hsize := hh.sized hs
  have key : ∀ {x y d d' : Stocks},
      (stockWeights size).total s' + x = (stockWeights size).total s + y →
      y + d = x + d' → (stockWeights size).total s' + d = (stockWeights size).total s + d' := by
    intro x y d d' hW hxy
    refine add_right_cancel (b := x) ?_
    rw [add_right_comm, hW, add_assoc, hxy, add_comm x d', add_assoc]
  cases h with
  | idle h => exact congrArg (· + _) (h (stockWeights size) fun _ _ _ => rfl)
  | alloc h =>
      refine key (h (stockWeights size)) ?_
      simp [stockWeights]
  | push newly ho h =>
      refine key (h (stockWeights size)) ?_
      cases newly with
      | false => simp [stockWeights]
      | true =>
          simp [stockWeights, hsize _ ho]
          exact add_comm _ _
  | flush h =>
      refine key (h (stockWeights size)) ?_
      simp [stockWeights]
  | flushed h =>
      refine key (h (stockWeights size)) ?_
      simp [stockWeights]
  | counted h =>
      refine key (h (stockWeights size)) ?_
      simp [stockWeights]
  | sweepPop h =>
      refine key (h (stockWeights size)) ?_
      simp [stockWeights]
  | reclaim ho h =>
      refine key (h (stockWeights size)) ?_
      simp [stockWeights, hsize _ ho]
      rw [add_comm, Multiset.singleton_add, Multiset.cons_coe]
  | keep h =>
      refine key (h (stockWeights size)) ?_
      simp [stockWeights]
  | swept h =>
      refine key (h (stockWeights size)) ?_
      simp [stockWeights]
  | scanPop hN h =>
      refine key (h (stockWeights size)) ?_
      simp [stockWeights]
  | scanned hN h =>
      refine key (h (stockWeights size)) ?_
      simp [stockWeights]
  | take hN h =>
      refine key (h (stockWeights size)) ?_
      simp [stockWeights]
  | taken hN h =>
      refine key (h (stockWeights size)) ?_
      simp [stockWeights]
  | pended hN h =>
      refine key (h (stockWeights size)) ?_
      simp [stockWeights]
  | worker ho hN hmove h =>
      refine key (h (stockWeights size)) ?_
      exact stocks_worker hsize ho hmove

/-- The books with sizes `size`: an object that is not reclaimed is in one place, and
the two counters are exact up to what is on its way to them. -/
structure Booked (s : St) (size : Oid → Nat) : Prop where
  places : ((stockWeights size).total s).1 =
    (Multiset.range s.nextObj).filter fun o => (s.objs o).reclaimed = false
  allocated : s.totalAllocated + ((stockWeights size).total s).2.1 =
    ((Multiset.range s.nextObj).map size).sum
  reclaimed : s.totalReclaimed + ((stockWeights size).total s).2.2 +
    (((stockWeights size).total s).1.map size).sum = ((Multiset.range s.nextObj).map size).sum

theorem Booked.init (n : Nat) (size : Oid → Nat) : Booked (St.init n) size := by
  have htot : (stockWeights size).total (St.init n) = 0 := by
    simp [Weights.total, Weights.node, Weights.stage, shards, St.init, Local.default, stockWeights]
  refine ⟨?_, ?_, ?_⟩ <;> rw [htot] <;> rfl

theorem filter_of_add {x y g : Multiset Oid} (hx : x.Nodup) (h : y + g = x) :
    x.filter (· ∉ g) = y := by
  subst h
  have hd : Disjoint y g := (Multiset.nodup_add.1 hx).2.2
  have hg : g.filter (· ∉ g) = 0 := Multiset.filter_eq_nil.2 fun o ho hn => hn ho
  have hy : y.filter (· ∉ g) = y :=
    Multiset.filter_eq_self.2 fun o ho hg => Multiset.disjoint_left.1 hd ho hg
  rw [Multiset.filter_add, hy, hg, add_zero]

theorem StockStep.made_or_gone {s s' : St} {b : Entry} (h : StockStep s s' b) :
    b.gone = 0 ∨ b.made = 0 := by
  cases h <;> first | exact .inl rfl | exact .inr rfl

theorem Booked.step {s s' : St} {b : Entry} {size : Oid → Nat} (h : Booked s size)
    (hb : StockStep s s' b) (hh : HeapStep s s' b) (hs : s'.sized size) : Booked s' size := by
  have htot := stocks_step hb hh hs
  have hobjs : ((stockWeights size).total s').1 + b.gone =
      ((stockWeights size).total s).1 + b.made := congrArg Prod.fst htot
  have halloc : ((stockWeights size).total s').2.1 + b.allocated =
      ((stockWeights size).total s).2.1 + (b.made.map size).sum :=
    congrArg (fun x => x.2.1) htot
  have hrecl : ((stockWeights size).total s').2.2 + b.reclaimed =
      ((stockWeights size).total s).2.2 + (b.gone.map size).sum :=
    congrArg (fun x => x.2.2) htot
  have hcr : s'.totalReclaimed = s.totalReclaimed + b.reclaimed := congrArg Prod.fst hh.counters
  have hca : s'.totalAllocated = s.totalAllocated + b.allocated := congrArg Prod.snd hh.counters
  have hrange : ((Multiset.range s'.nextObj).map size).sum =
      ((Multiset.range s.nextObj).map size).sum + (b.made.map size).sum := by
    rw [hh.range, Multiset.map_add, Multiset.sum_add]
  have hlive : (Multiset.range s'.nextObj).filter (fun o => (s'.objs o).reclaimed = false) =
      ((stockWeights size).total s).1.filter (· ∉ b.gone) + b.made := by
    have hmade : b.made.filter (fun o => (s'.objs o).reclaimed = false) = b.made :=
      Multiset.filter_eq_self.2 hh.made
    rw [hh.range, Multiset.filter_add, hmade, h.places, Multiset.filter_filter]
    refine congrArg (· + b.made) (Multiset.filter_congr fun o ho => ?_)
    have hiff := hh.reclaimed o (Multiset.mem_range.1 ho)
    rw [← Bool.not_eq_true, ← Bool.not_eq_true, hiff, not_or, and_comm]
  refine ⟨?_, ?_, ?_⟩
  · rw [hlive]
    rcases hb.made_or_gone with hg | hm
    · rw [hg, add_zero] at hobjs
      rw [hobjs, hg]
      simp
    · rw [hm, add_zero] at hobjs
      have hnodup : ((stockWeights size).total s).1.Nodup := by
        rw [h.places]
        exact (Multiset.nodup_range _).filter _
      rw [filter_of_add hnodup hobjs, hm, add_zero]
  · have := h.allocated
    omega
  · have hsum := congrArg (fun m => (Multiset.map size m).sum) hobjs
    simp only [Multiset.map_add, Multiset.sum_add] at hsum
    have := h.reclaimed
    omega

/-! ## Open batches -/

/-- What an effect makes of an open batch. -/
theorem own_effect (e : Eff) (s : St) (t i : Lid) (c : Color) :
    ((e.apply s t).locals i).objs c = (s.locals i).objs c ∨
    ((e.apply s t).locals i).objs c = ([], 0) ∨
    ∃ o newly, e = .pushObj c o newly ∧ ((e.apply s t).locals i).objs c =
      (((s.locals i).objs c).1 ++ [o],
        if newly then ((s.locals i).objs c).2 + (s.objs o).size else ((s.locals i).objs c).2) := by
  have hnode : ∀ (j : Lid) (d : Color) (b : List Oid × Nat),
      ((s.setLocal j
        { s.locals j with objs := Function.update (s.locals j).objs d b }).locals i).objs c =
        if i = j ∧ c = d then b else (s.locals i).objs c := by
    intro j d b
    rw [setLocal_locals]
    by_cases hi : i = j
    · subst hi
      by_cases hc : c = d <;> simp [hc]
    · simp [hi]
  by_cases hfree : e.batchFree = true
  · exact .inl (congrFun ((batchFree_apply hfree s t).1 i) c)
  · cases e with
    | pushObj d o newly =>
        have hn := hnode t d (((s.locals t).objs d).1 ++ [o],
          if newly then ((s.locals t).objs d).2 + (s.objs o).size else ((s.locals t).objs d).2)
        by_cases hic : i = t ∧ c = d
        · rw [if_pos hic] at hn
          obtain ⟨rfl, rfl⟩ := hic
          exact .inr (.inr ⟨o, newly, rfl, hn⟩)
        · rw [if_neg hic] at hn
          exact .inl hn
    | takeBatch j d =>
        have hn := hnode j d ([], 0)
        by_cases hic : i = j ∧ c = d
        · rw [if_pos hic] at hn
          exact .inr (.inl hn)
        · rw [if_neg hic] at hn
          exact .inl hn
    | spawnSweep ep ws => exact .inl rfl
    | pushFresh | popFresh | pushMarked | popMarked => exact .inl rfl
    | _ => exact absurd rfl hfree

theorem frame_of_pushObj {s : St} {t : Lid} {f : Frame} {e : Eff} {fs : List Frame} {c : Color}
    {o : Oid} {newly : Bool} (hmove : BatchStep s t f e fs) (he : e = .pushObj c o newly) :
    f = .ptr (.pushObj o newly) := by
  cases hmove with
  | push hroom =>
      cases he
      rfl
  | idle _ hi | scan _ hi =>
      rw [he] at hi
      cases hi
  | _ => cases he

/-- The bytes of an open batch are those of objects in it. -/
def St.covered (s : St) (size : Oid → Nat) : Prop :=
  ∀ i c, ((s.locals i).objs c).2 ≤ (((s.locals i).objs c).1.map size).sum

theorem covered_of_own {s s' : St} {size : Oid → Nat} (h : s.covered size) (hs : s.sized size)
    (hown : ∀ i c, (s'.locals i).objs c = (s.locals i).objs c ∨ (s'.locals i).objs c = ([], 0) ∨
      ∃ o newly, o < s.nextObj ∧ (s'.locals i).objs c = (((s.locals i).objs c).1 ++ [o],
        if newly = true then ((s.locals i).objs c).2 + (s.objs o).size
        else ((s.locals i).objs c).2)) : s'.covered size := by
  intro i c
  have hold := h i c
  rcases hown i c with he | he | ⟨o, newly, ho, he⟩
  · rw [he]
    exact hold
  · rw [he]
    exact Nat.zero_le _
  · rw [he]
    simp only [List.map_append, List.sum_append, List.map_cons, List.map_nil, List.sum_cons,
      List.sum_nil, hs o ho]
    split <;> omega

theorem covered_step {s s' : St} {lab : Label} {size : Oid → Nat} (hwf : WellFormed s)
    (h : s.covered size) (hz : s.sized size) (hs : StepCase s lab s') : s'.covered size := by
  refine covered_of_own h hz fun i c => ?_
  have hstack : ∀ (u : St) (t : Lid) (fs : List Frame),
      ((u.setStack t fs).locals i).objs c = (u.locals i).objs c := by
    intro u t fs
    rw [setStack_locals]
    split
    · next hi => rw [hi]
    · rfl
  have hreg : ∀ t, s.canRegister t → ((s.register t).locals i).objs c = (s.locals i).objs c ∨
      ((s.register t).locals i).objs c = ([], 0) := by
    intro t hr
    unfold St.register
    split
    · refine .inl ?_
      rw [setLocal_locals]
      split
      · next hi => rw [hi]
      · rfl
    · show ((s.setLocal t { Local.default with isUsing := true }).locals i).objs c = _ ∨
        ((s.setLocal t { Local.default with isUsing := true }).locals i).objs c = ([], 0)
      rw [setLocal_locals]
      split
      · exact .inr rfl
      · exact .inl rfl
  cases hs with
  | @op t op s₁ fs ht hu hst hc hop =>
      refine .inl ?_
      rw [hstack, (startOp_batches hop).1]
  | @run t ch f rest ht hst =>
      rw [hstack]
      rcases own_effect (exec s t ch f).1 s t i c with he | he | ⟨o, newly, heff, he⟩
      · exact .inl he
      · exact .inr (.inl he)
      · refine .inr (.inr ⟨o, newly, ?_, he⟩)
        have hmem : Frame.ptr (.pushObj o newly) ∈ (s.locals t).stack := by
          rw [hst, frame_of_pushObj (exec_batches s t ch f) heff]
          exact List.mem_cons_self ..
        exact hwf.pushing_lt hmem
  | @coll ch e st fs hst hcoll =>
      rw [hstack, withStage_locals]
      rcases own_effect e s s.collector i c with he | he | ⟨o, newly, heff, he⟩
      · exact .inl he
      · exact .inr (.inl he)
      · subst heff
        cases (collStep_moves hcoll).1 with
        | idle _ hi => cases hi
  | @sweep k ch w hw =>
      rw [withSweepers_locals]
      rcases own_effect (sweepStep s w ch).1 s s.collector i c with he | he | ⟨o, newly, heff, he⟩
      · exact .inl he
      · exact .inr (.inl he)
      · exact absurd heff ((worker_batch (sweepStep_moves s w ch)).1 c o newly)
  | @startWorker t lo hi hz' js hj hr hc =>
      rw [hstack, withJobs_locals]
      exact (hreg t hr).imp id .inl
  | @register t hr hc => exact (hreg t hr).imp id .inl
  | @exit t ht hu hst hgc hh hc =>
      refine .inl ?_
      rw [setLocal_locals]
      split
      · next hi => rw [hi]
      · rfl

/-! ## Comparing accounts -/

namespace Weights

def add (V W : Weights ℤ) : Weights ℤ where
  own c b := V.own c b + W.own c b
  pushing o newly := V.pushing o newly + W.pushing o newly
  flushing c b := V.flushing c b + W.flushing c b
  counting c n := V.counting c n + W.counting c n
  sweeping todo n := V.sweeping todo n + W.sweeping todo n
  scanning b := V.scanning b + W.scanning b
  fresh c b := V.fresh c b + W.fresh c b
  marked c b := V.marked c b + W.marked c b
  sweeper w := V.sweeper w + W.sweeper w
  pending b n := V.pending b n + W.pending b n
  pendCount n := V.pendCount n + W.pendCount n
  own_nil c := by rw [V.own_nil, W.own_nil, add_zero]

theorem add_frame (V W : Weights ℤ) (c : Color) (f : Frame) :
    (V.add W).frame c f = V.frame c f + W.frame c f := by
  cases f with
  | pin f | mark f => rfl
  | ptr f => cases f <;> rfl
  | help f => cases f <;> rfl

theorem add_stage (V W : Weights ℤ) (st : Stage) :
    (V.add W).stage st = V.stage st + W.stage st := by
  cases st <;> rfl

theorem add_shards (g h : Color → List Oid → ℤ) (f : Color → Nat → List (List Oid)) :
    shards (fun c b => g c b + h c b) f = shards g f + shards h f := by
  rw [shards, shards, shards, ← sum_add_distrib]
  refine sum_congr rfl fun q _ => ?_
  rw [List.sum_map_add, List.sum_map_add]
  exact add_add_add_comm ..

theorem add_total (V W : Weights ℤ) (s : St) : (V.add W).total s = V.total s + W.total s := by
  have hnode : ∀ t, (V.add W).node (s.locals t) = V.node (s.locals t) + W.node (s.locals t) := by
    intro t
    have hstack : ((s.locals t).stack.map ((V.add W).frame (s.locals t).allocColor)).sum =
        ((s.locals t).stack.map (V.frame (s.locals t).allocColor)).sum +
          ((s.locals t).stack.map (W.frame (s.locals t).allocColor)).sum := by
      rw [List.map_congr_left fun f _ => add_frame V W _ f, List.sum_map_add]
    rw [node, node, node, hstack]
    show V.own _ _ + W.own _ _ + (V.own _ _ + W.own _ _) + _ = _
    ring
  have hfresh : shards (V.add W).fresh s.freshObjs = _ := add_shards V.fresh W.fresh s.freshObjs
  have hmarked : shards (V.add W).marked s.markedObjs = _ :=
    add_shards V.marked W.marked s.markedObjs
  have hsweep : (s.sweepers.map (V.add W).sweeper).sum = _ :=
    List.sum_map_add (f := V.sweeper) (g := W.sweeper)
  rw [total, total, total, sum_congr rfl fun t _ => hnode t, sum_add_distrib, hfresh, hmarked,
    hsweep, add_stage]
  ring

/-- Where every place is worth at least as much, the whole is. -/
theorem total_le {A : Type} [AddCancelCommMonoid A] (V : Weights ℤ) (W : Weights A) (φ : A →+ ℤ)
    {s : St} (hown : ∀ t c, V.own c ((s.locals t).objs c) ≤ φ (W.own c ((s.locals t).objs c)))
    (hframe : ∀ t < s.nLocals, ∀ f ∈ (s.locals t).stack,
      V.frame (s.locals t).allocColor f ≤ φ (W.frame (s.locals t).allocColor f))
    (hfresh : ∀ c b, V.fresh c b ≤ φ (W.fresh c b))
    (hmarked : ∀ c b, V.marked c b ≤ φ (W.marked c b))
    (hsweep : ∀ w, V.sweeper w ≤ φ (W.sweeper w))
    (hstage : V.stage s.stage ≤ φ (W.stage s.stage)) : V.total s ≤ φ (W.total s) := by
  have hlist : ∀ {α : Type} (l : List α) (f : α → ℤ) (g : α → A), (∀ x ∈ l, f x ≤ φ (g x)) →
      (l.map f).sum ≤ φ (l.map g).sum := by
    intro α l f g h
    rw [map_list_sum, List.map_map]
    exact List.sum_le_sum h
  have hshards : ∀ (f : Color → Nat → List (List Oid)) (g : Color → List Oid → ℤ)
      (h : Color → List Oid → A), (∀ c b, g c b ≤ φ (h c b)) → shards g f ≤ φ (shards h f) := by
    intro f g h hle
    rw [shards, shards, map_sum]
    refine sum_le_sum fun q _ => ?_
    rw [map_add]
    exact add_le_add (hlist _ _ _ fun b _ => hle .C0 b) (hlist _ _ _ fun b _ => hle .C1 b)
  have hnode : ∀ t ∈ range s.nLocals, V.node (s.locals t) ≤ φ (W.node (s.locals t)) := by
    intro t ht
    rw [node, node, map_add, map_add]
    exact add_le_add (add_le_add (hown t .C0) (hown t .C1))
      (hlist _ _ _ (hframe t (mem_range.1 ht)))
  rw [total, total, map_add, map_add, map_add, map_add, map_sum]
  exact add_le_add (add_le_add (add_le_add (add_le_add (sum_le_sum hnode)
    (hshards _ _ _ hfresh)) (hshards _ _ _ hmarked)) (hlist _ _ _ fun w _ => hsweep w)) hstage

/-- The account in which nothing is worth anything. -/
def zero : Weights ℤ where
  own _ _ := 0
  pushing _ _ := 0
  flushing _ _ := 0
  counting _ _ := 0
  sweeping _ _ := 0
  scanning _ := 0
  fresh _ _ := 0
  marked _ _ := 0
  sweeper _ := 0
  pending _ _ := 0
  pendCount _ := 0
  own_nil _ := rfl

theorem zero_frame (c : Color) (f : Frame) : zero.frame c f = 0 := by
  cases f with
  | pin f | mark f => rfl
  | ptr f => cases f <;> rfl
  | help f => cases f <;> rfl

theorem zero_stage (st : Stage) : zero.stage st = 0 := by cases st <;> rfl

theorem zero_total (s : St) : zero.total s = 0 := by
  have hnode : ∀ t, zero.node (s.locals t) = 0 := by
    intro t
    rw [node, List.map_congr_left fun f _ => zero_frame _ f]
    simp [zero]
  rw [total, sum_congr rfl fun t _ => hnode t, zero_stage]
  simp [zero, shards]

end Weights

/-! ## Bytes on their way to the counter -/

/-- Colour `c` is the white of a trace that is under way. -/
def St.traces (s : St) (c : Color) : Prop := s.epoch.phase ≠ .N ∧ c = s.epoch.color

instance (s : St) (c : Color) : Decidable (s.traces c) := inferInstanceAs (Decidable (_ ∧ _))

section

variable (size : Oid → Nat)

def bytes (b : List Oid) : ℤ := (b.map size).sum

/-- The objects of flushed batches of colour `c`, less the bytes to be counted for
them. While the colour is traced this includes the batches of the scan. -/
def coverWeights (c : Color) (tr : Prop) [Decidable tr] : Weights ℤ where
  own _ _ := 0
  pushing _ _ := 0
  flushing c' b := if c' = c then bytes size b else 0
  counting c' n := if c' = c then -n else 0
  sweeping _ _ := 0
  scanning b := if tr then bytes size b else 0
  fresh c' b := if c' = c then bytes size b else 0
  marked c' b := if tr ∧ c' = c then bytes size b else 0
  sweeper _ := 0
  pending b n := if tr then bytes size b - n else 0
  pendCount n := if tr then -n else 0
  own_nil _ := rfl

/-- What sweeping can still reclaim, and what it has reclaimed but not counted. -/
def doomedWeights (tr : Color → Prop) [DecidablePred tr] : Weights ℤ where
  own _ _ := 0
  pushing _ _ := 0
  flushing _ _ := 0
  counting _ _ := 0
  sweeping todo n := bytes size todo + n
  scanning b := if tr .C0 ∨ tr .C1 then 0 else bytes size b
  fresh _ _ := 0
  marked c b := if tr c then 0 else bytes size b
  sweeper w := bytes size w.todo + w.bytes
  pending _ _ := 0
  pendCount _ := 0
  own_nil _ := rfl

end

variable {size : Oid → Nat}

theorem bytes_nonneg (size : Oid → Nat) (b : List Oid) : 0 ≤ bytes size b := Int.natCast_nonneg _

theorem bytes_cons (o : Oid) (b : List Oid) : bytes size (o :: b) = size o + bytes size b := by
  simp [bytes]

theorem bytes_append (b b' : List Oid) : bytes size (b ++ b') = bytes size b + bytes size b' := by
  simp [bytes]

def St.cover (s : St) (size : Oid → Nat) (c : Color) : ℤ :=
  (coverWeights size c (s.traces c)).total s

theorem not_traces_flip (s : St) : ¬ s.traces s.epoch.color.flip := fun h =>
  Color.flip_ne _ h.2

theorem cover_out_le {s s' : St} {x y : ∀ {A : Type} [AddCancelCommMonoid A], Weights A → A}
    {c : Color} (h : s.trades s' x y)
    (hle : x (coverWeights size c (s.traces c)) ≤ y (coverWeights size c (s.traces c))) :
    (coverWeights size c (s.traces c)).total s ≤ (coverWeights size c (s.traces c)).total s' := by
  have htot : (coverWeights size c (s.traces c)).total s' + x (coverWeights size c (s.traces c)) =
      (coverWeights size c (s.traces c)).total s + y (coverWeights size c (s.traces c)) := h _
  omega

/-- No move takes from the cover. -/
theorem cover_move {s s' : St} {b : Entry} (h : StockStep s s' b) (hcov : s.covered size)
    (c : Color) : s.cover size c ≤ (coverWeights size c (s.traces c)).total s' := by
  have hbatch : ∀ i d, 0 ≤ bytes size ((s.locals i).objs d).1 - ((s.locals i).objs d).2 := by
    intro i d
    have := hcov i d
    unfold bytes
    omega
  have hflip : ¬ (s.traces c ∧ s.epoch.color.flip = c) := fun hc => by
    exact not_traces_flip s (hc.2 ▸ hc.1)
  cases h with
  | idle h => exact Int.le_of_eq (h _ fun _ _ _ => rfl).symm
  | alloc h => exact cover_out_le h (Int.le_refl 0)
  | push newly ho h => exact cover_out_le h (Int.le_refl 0)
  | @flush t d h =>
      refine cover_out_le h ?_
      have := hbatch t d
      simp only [coverWeights]
      split <;> omega
  | flushed h => exact cover_out_le h (Int.le_refl _)
  | @counted d n h =>
      refine cover_out_le h ?_
      simp only [coverWeights]
      split <;> omega
  | sweepPop h =>
      refine cover_out_le h ?_
      simp only [coverWeights, if_neg hflip]
      exact Int.le_refl 0
  | reclaim ho h => exact cover_out_le h (Int.le_refl 0)
  | keep h => exact cover_out_le h (Int.le_refl 0)
  | swept h => exact cover_out_le h (Int.le_refl 0)
  | @scanPop b hN h =>
      refine cover_out_le h ?_
      have := bytes_nonneg size b
      by_cases hc : s.epoch.color = c
      · have htr : s.traces c := ⟨hN, hc.symm⟩
        simp [coverWeights, htr, hc]
      · simp only [coverWeights, if_neg hc]
        split <;> omega
  | @scanned b hN h =>
      refine cover_out_le h ?_
      by_cases htr : s.traces c
      · have hc : s.epoch.color = c := htr.2.symm
        simp [coverWeights, htr, hc]
      · simp [coverWeights, htr]
  | @take i hN h =>
      refine cover_out_le h ?_
      have := hbatch i s.epoch.color
      simp only [coverWeights]
      split <;> omega
  | @taken b n hN h =>
      refine cover_out_le h ?_
      have := bytes_nonneg size b
      by_cases htr : s.traces c
      · have hc : s.epoch.color = c := htr.2.symm
        simp [coverWeights, htr, hc]
      · simp only [coverWeights, if_neg htr]
        split <;> omega
  | @pended n hN h =>
      refine cover_out_le h ?_
      simp only [coverWeights]
      split <;> omega
  | @worker w e r ho hN hmove h =>
      refine cover_out_le h ?_
      have htr : ¬ s.traces c := fun ht => ht.1 hN
      have hsv := bytes_nonneg size w.survived
      cases hmove with
      | full _ _ _ hq | last _ _ hq =>
          simp only [Weights.out, Weights.into, coverWeights, Option.map_some, Option.getD_some]
          split <;> omega
      | pop => simp [Weights.out, Weights.into, coverWeights, htr]
      | _ => simp [Weights.out, Weights.into, coverWeights]

/-! ## The store of an epoch -/

/-- At the end of a trace nobody is about to count bytes of the white colour. -/
theorem StockInv.no_white_count {s : St} (h : StockInv s) (hg : Ground s)
    (hst : s.stage = .nextNormal) {t : Lid} {n : Nat}
    (hf : Frame.ptr (.flushStat n) ∈ (s.locals t).stack) :
    (s.locals t).allocColor ≠ s.epoch.color := by
  have hCT : s.epoch.phase = .CT := by
    have := hg.pin.phase
    rw [hst] at this
    simpa [Stage.inPhase] using this
  have hd : (s.locals t).pinDone := by
    cases hs : (s.locals t).stack with
    | nil =>
        rw [hs] at hf
        cases hf
    | cons g rest =>
        have hstat := h.stat t
        rw [hs] at hf hstat
        rcases hstat with hno | ⟨c, b, m, k, rest', heq, -⟩
        · rcases List.mem_cons.1 hf with rfl | hf
          · exact (hg.sect.head_phase hs rfl rfl).1
          · cases hno _ hf
        · cases heq
          exact (hg.sect.head_phase hs rfl rfl).1
  have hep := hg.pin.epoch_of_waited (by rw [St.waited, hst]; rfl) hd
  rw [Local.allocColor, hep]
  simp [Epoch.pinned, hCT]

theorem cover_frame_le {c d : Color} {tr : Prop} [Decidable tr] (f : Frame) :
    (coverWeights size c False).frame d f ≤ (coverWeights size c tr).frame d f := by
  have hscan : ∀ b,
      (coverWeights size c False).scanning b ≤ (coverWeights size c tr).scanning b := by
    intro b
    have := bytes_nonneg size b
    simp only [coverWeights, if_false]
    split <;> omega
  cases f with
  | pin f | mark f => exact Int.le_refl _
  | ptr f => cases f <;> exact Int.le_refl _
  | help f => cases f <;> first | exact hscan _ | exact Int.le_refl _

/-- All that counts against the cover of a colour in a stack is a frame that adds
bytes of it. -/
theorem cover_frame_nonneg {c d : Color} {tr : Prop} [Decidable tr] (f : Frame)
    (hf : ∀ n, f = .ptr (.flushStat n) → d ≠ c) : 0 ≤ (coverWeights size c tr).frame d f := by
  cases f with
  | pin f | mark f => exact le_rfl
  | ptr f =>
      cases f with
      | flushPush d b n => exact ite_nonneg (bytes_nonneg size b) le_rfl
      | flushStat n =>
          show 0 ≤ if d = c then -(n : ℤ) else 0
          rw [if_neg (hf n rfl)]
      | _ => exact le_rfl
  | help f => cases f <;> first | exact ite_nonneg (bytes_nonneg size _) le_rfl | exact le_rfl

theorem cover_marked_le {c d : Color} {tr : Prop} [Decidable tr] (b : List Oid) :
    (coverWeights size c False).marked d b ≤ (coverWeights size c tr).marked d b := by
  have := bytes_nonneg size b
  simp only [coverWeights, false_and, if_false]
  split <;> omega

/-- The cover outlives the store of an epoch: a colour that comes to be traced has
more to it, and when the trace ends its count is complete. -/
theorem cover_store {s s' : St} {lab : Label} (h : StockInv s) (hg : Ground s)
    (hs : StepCase s lab s') (hne : s'.epoch ≠ s.epoch) (hw : s.sameWorth s')
    (hcov : ∀ c, 0 ≤ s.cover size c) (c : Color) : 0 ≤ s'.cover size c := by
  rw [St.cover, hw (coverWeights size c (s'.traces c)) fun _ _ _ => rfl]
  have hphase := hg.pin.phase
  have hsame : (s'.traces c ↔ s.traces c) → 0 ≤ (coverWeights size c (s'.traces c)).total s := by
    intro hiff
    have := hcov c
    rw [St.cover] at this
    convert this using 3
  rcases epoch_cases hs with he | ⟨-, -, -, -, -, ⟨hst, he⟩ | ⟨hst, he⟩ | ⟨hst, he⟩⟩
  · exact absurd he hne
  · -- the trace begins
    have hno : ¬ s.traces c := fun htr => by
      rw [hst] at hphase
      exact htr.1 (by simpa [Stage.inPhase] using hphase)
    have hold := hcov c
    simp only [St.cover, hno] at hold
    refine Int.le_trans hold (Weights.total_le _ _ (AddMonoidHom.id ℤ) (fun _ _ => Int.le_refl _)
      (fun t _ f _ => cover_frame_le f) (fun _ _ => Int.le_refl _) (fun d b => ?_)
      (fun _ => Int.le_refl _) ?_)
    · exact cover_marked_le b
    · rw [hst]
      exact Int.le_refl 0
  · refine hsame ?_
    rw [hst] at hphase
    rw [St.traces, St.traces, he]
    simp_all [Stage.inPhase, St.transEpoch, Epoch.withPhase, Epoch.withTimestamp]
  · -- the trace ends
    have hno : ¬ s'.traces c := fun htr => by
      rw [St.traces, he] at htr
      exact htr.1 rfl
    by_cases hc : c = s.epoch.color
    · rw [← Weights.zero_total s]
      refine Weights.total_le _ _ (AddMonoidHom.id ℤ) (fun _ _ => Int.le_refl _)
        (fun t _ f hf => ?_) (fun d b => ?_) (fun d b => ?_) (fun _ => Int.le_refl _) ?_
      · rw [Weights.zero_frame]
        refine cover_frame_nonneg f fun n hn => ?_
        subst hn
        exact hc ▸ h.no_white_count hg hst hf
      · exact ite_nonneg (bytes_nonneg size b) le_rfl
      · exact ite_nonneg (bytes_nonneg size b) le_rfl
      · rw [hst]
        exact Int.le_refl 0
    · refine hsame (iff_of_false hno fun htr => hc htr.2)

/-! ## What can still be reclaimed -/

/-- The bytes that are reclaimed and those that still can be before the next N epoch. -/
def St.zone (s : St) (size : Oid → Nat) : ℤ :=
  s.totalReclaimed + (doomedWeights size s.traces).total s

/-- With a trade the reclaimed and the doomed go down by what it loses. -/
theorem zone_trade {s s' : St} {x y : ∀ {A : Type} [AddCancelCommMonoid A], Weights A → A}
    {b : Entry} (hh : HeapStep s s' b) (h : s.trades s' x y)
    (hle : y (doomedWeights size s.traces) + b.reclaimed ≤ x (doomedWeights size s.traces)) :
    s'.totalReclaimed + (doomedWeights size s.traces).total s' ≤ s.zone size := by
  have htot : (doomedWeights size s.traces).total s' + x (doomedWeights size s.traces) =
      (doomedWeights size s.traces).total s + y (doomedWeights size s.traces) := h _
  have hcr : s'.totalReclaimed = s.totalReclaimed + b.reclaimed := congrArg Prod.fst hh.counters
  rw [St.zone, hcr]
  push_cast
  omega

theorem doomed_worker {s : St} {w : Sweeper} {e : Eff} {r : Option Sweeper}
    (hz : s.sized size) (ho : ∀ o ∈ w.todo, o < s.nextObj) (hN : s.epoch.phase = .N)
    (hmove : SweepBatch s w e r) :
    (r.map (doomedWeights size s.traces).sweeper).getD 0 +
        (doomedWeights size s.traces).into s s.collector e + e.counted.1 ≤
      (doomedWeights size s.traces).sweeper w +
        (doomedWeights size s.traces).out s s.collector e := by
  have htr : ∀ c, ¬ s.traces c := fun c ht => ht.1 hN
  cases hmove with
  | @reclaim o rest ht hc =>
      have hlt := ho o (by simp [ht])
      simp [Weights.out, Weights.into, doomedWeights, Eff.counted, ht, hz o hlt, bytes_cons]
      omega
  | @keep o rest ht hc hroom =>
      simp [Weights.out, Weights.into, doomedWeights, Eff.counted, ht, bytes_cons]
  | @full o rest q ht hc hfull hq =>
      simp [Weights.out, Weights.into, doomedWeights, Eff.counted, ht, bytes_cons]
  | @pop b bs ht hq hb =>
      simp [Weights.out, Weights.into, doomedWeights, Eff.counted, ht, hb, htr, bytes]
      omega
  | next ht hq hb => simp [Weights.out, Weights.into, doomedWeights, Eff.counted]
  | last ht hhi hq => simp [Weights.out, Weights.into, doomedWeights, Eff.counted, ht]
  | done ht hhi hsv => simp [Weights.out, Weights.into, doomedWeights, Eff.counted, ht, bytes]

/-- No move adds to what can be reclaimed. -/
theorem zone_move {s s' : St} {b : Entry} (h : StockStep s s' b) (hh : HeapStep s s' b)
    (hz : s.sized size) :
    s'.totalReclaimed + (doomedWeights size s.traces).total s' ≤ s.zone size := by
  have hflip := not_traces_flip s
  have hcolor : s.epoch.phase ≠ .N → s.traces s.epoch.color := fun hN => ⟨hN, rfl⟩
  have hany : s.epoch.phase ≠ .N → s.traces .C0 ∨ s.traces .C1 := by
    intro hN
    have := hcolor hN
    cases hc : s.epoch.color with
    | C0 => exact .inl (hc ▸ this)
    | C1 => exact .inr (hc ▸ this)
  cases h with
  | idle h =>
      have hcr : s'.totalReclaimed = s.totalReclaimed := congrArg Prod.fst hh.counters
      rw [St.zone, hcr, h (doomedWeights size s.traces) fun _ _ _ => rfl]
  | alloc h => exact zone_trade hh h le_rfl
  | push newly ho h => exact zone_trade hh h le_rfl
  | flush h => exact zone_trade hh h le_rfl
  | flushed h => exact zone_trade hh h le_rfl
  | counted h => exact zone_trade hh h le_rfl
  | sweepPop h =>
      refine zone_trade hh h ?_
      simp [doomedWeights, hflip]
  | reclaim ho h =>
      refine zone_trade hh h ?_
      simp only [doomedWeights, bytes_cons, hz _ ho]
      push_cast
      omega
  | @keep o l n h =>
      refine zone_trade hh h ?_
      simp only [doomedWeights, bytes_cons]
      omega
  | swept h =>
      refine zone_trade hh h ?_
      simp [doomedWeights, bytes]
  | scanPop hN h =>
      refine zone_trade hh h ?_
      simp [doomedWeights, hany hN]
  | scanned hN h =>
      refine zone_trade hh h ?_
      simp [doomedWeights, hany hN, hcolor hN]
  | take hN h => exact zone_trade hh h le_rfl
  | taken hN h => exact zone_trade hh h le_rfl
  | pended hN h => exact zone_trade hh h le_rfl
  | worker ho hN hmove h => exact zone_trade hh h (doomed_worker hz ho hN hmove)

theorem doomed_frame_le {tr tr' : Color → Prop} [DecidablePred tr] [DecidablePred tr']
    (h : ∀ c, tr c → tr' c) (c : Color) (f : Frame) :
    (doomedWeights size tr').frame c f ≤ (doomedWeights size tr).frame c f := by
  have hscan : ∀ b, (doomedWeights size tr').scanning b ≤ (doomedWeights size tr).scanning b := by
    intro b
    have := bytes_nonneg size b
    show (if tr' .C0 ∨ tr' .C1 then 0 else bytes size b) ≤
      if tr .C0 ∨ tr .C1 then 0 else bytes size b
    by_cases ht : tr .C0 ∨ tr .C1
    · rw [if_pos ht, if_pos (ht.imp (h _) (h _))]
    · rw [if_neg ht]
      split <;> omega
  cases f with
  | pin f | mark f => exact le_rfl
  | ptr f => cases f <;> exact le_rfl
  | help f => cases f <;> first | exact hscan _ | exact le_rfl

/-- A colour that comes to be traced is spared. -/
theorem doomed_total_le (size : Oid → Nat) {tr tr' : Color → Prop} [DecidablePred tr]
    [DecidablePred tr'] (h : ∀ c, tr c → tr' c) (s : St) :
    (doomedWeights size tr').total s ≤ (doomedWeights size tr).total s := by
  refine Weights.total_le _ _ (AddMonoidHom.id ℤ) (fun _ _ => le_rfl)
    (fun t _ f _ => doomed_frame_le h _ f) (fun _ _ => le_rfl) (fun c b => ?_) (fun _ => le_rfl) ?_
  · have := bytes_nonneg size b
    show (if tr' c then 0 else bytes size b) ≤ if tr c then 0 else bytes size b
    by_cases ht : tr c
    · rw [if_pos ht, if_pos (h c ht)]
    · rw [if_neg ht]
      split <;> omega
  · cases s.stage <;> exact le_rfl

/-- Until the next N epoch, what is reclaimed and what can be only shrinks. -/
theorem zone_step {s s' : St} {lab : Label} (h : StockInv s) (hwf : WellFormed s)
    (hs : StepCase s lab s') (hw : withinCycle s lab) (hz : s'.sized size) :
    s'.zone size ≤ s.zone size := by
  obtain ⟨⟨b, hb, hh⟩, -⟩ := stock_step h hwf hs
  obtain ⟨hcolor, hphase⟩ := epoch_within hs hw
  have htr : ∀ c, s.traces c → s'.traces c := fun c ht => ⟨hphase ht.1, hcolor ▸ ht.2⟩
  have hmove := zone_move hb hh (hh.sized hz)
  have hle := doomed_total_le size htr s'
  rw [St.zone]
  omega

/-- The bytes of the objects and of what is reclaimed, less those still to be counted. -/
def Stocks.worth (size : Oid → Nat) : Stocks →+ ℤ where
  toFun x := (x.1.map size).sum + x.2.2 - x.2.1
  map_zero' := rfl
  map_add' x y := by
    simp only [Prod.fst_add, Prod.snd_add, Multiset.map_add, Multiset.sum_add]
    push_cast
    ring

theorem worth_coe (b : List Oid) (n m : Nat) :
    Stocks.worth size (↑b, n, m) = bytes size b + m - n := rfl

theorem worth_batch (b : List Oid) : Stocks.worth size (↑b, 0, 0) = bytes size b := by
  simp [worth_coe]

/-- The three accounts together. -/
def accounts (size : Oid → Nat) (tr : Color → Prop) [DecidablePred tr] : Weights ℤ :=
  ((coverWeights size .C0 (tr .C0)).add (coverWeights size .C1 (tr .C1))).add
    (doomedWeights size tr)

section

variable {tr : Color → Prop} [DecidablePred tr]

theorem accounts_flushing (c : Color) (b : List Oid) :
    (accounts size tr).flushing c b = bytes size b := by
  cases c <;> simp [accounts, Weights.add, coverWeights, doomedWeights]

theorem accounts_counting (c : Color) (n : Nat) : (accounts size tr).counting c n = -n := by
  cases c <;> simp [accounts, Weights.add, coverWeights, doomedWeights]

theorem accounts_fresh (c : Color) (b : List Oid) :
    (accounts size tr).fresh c b = bytes size b := by
  cases c <;> simp [accounts, Weights.add, coverWeights, doomedWeights]

theorem accounts_marked (c : Color) (b : List Oid) :
    (accounts size tr).marked c b = bytes size b := by
  cases c <;> by_cases h₀ : tr .C0 <;> by_cases h₁ : tr .C1 <;>
    simp [accounts, Weights.add, coverWeights, doomedWeights, h₀, h₁]

theorem accounts_scanning (hx : ¬ (tr .C0 ∧ tr .C1)) (b : List Oid) :
    (accounts size tr).scanning b = bytes size b := by
  by_cases h₀ : tr .C0 <;> by_cases h₁ : tr .C1
  · exact absurd ⟨h₀, h₁⟩ hx
  all_goals simp [accounts, Weights.add, coverWeights, doomedWeights, h₀, h₁]

/-- What a frame is worth in the accounts is what it holds. -/
theorem accounts_frame_le (hx : ¬ (tr .C0 ∧ tr .C1)) (c : Color) (f : Frame) :
    (accounts size tr).frame c f ≤ Stocks.worth size ((stockWeights size).frame c f) := by
  have hzero : (0 : ℤ) ≤ Stocks.worth size 0 := le_of_eq (map_zero _).symm
  have hscan : ∀ b : List Oid,
      (accounts size tr).scanning b ≤ Stocks.worth size ((stockWeights size).scanning b) :=
    fun b => le_of_eq ((accounts_scanning hx b).trans (worth_batch b).symm)
  cases f with
  | pin f | mark f => exact hzero
  | ptr f =>
      cases f with
      | pushObj o newly =>
          show (0 : ℤ) ≤ Stocks.worth size ({o}, if newly then size o else 0, 0)
          cases newly <;> simp [Stocks.worth]
      | flushPush d b n => exact le_of_eq ((accounts_flushing d b).trans (worth_batch b).symm)
      | flushStat n =>
          refine le_of_eq ((accounts_counting c n).trans ?_)
          simp [Stocks.worth, stockWeights, Weights.frame]
      | _ => exact hzero
  | help f =>
      cases f with
      | sweepObjs todo n q qs trial =>
          show (0 : ℤ) + 0 + (bytes size todo + n) ≤ Stocks.worth size (↑todo, 0, n)
          simp [worth_coe]
      | scanObjs sc done todo => exact hscan _
      | forceHps h acc sc done o todo => exact hscan _
      | _ => exact hzero

end

theorem traces_one {s : St} (hN : s.epoch.phase ≠ .N) :
    (s.traces .C0 ∧ ¬ s.traces .C1) ∨ (¬ s.traces .C0 ∧ s.traces .C1) := by
  unfold St.traces
  cases s.epoch.color <;> simp [hN]

theorem accounts_pending {s : St} (hN : s.epoch.phase ≠ .N) (b : List Oid) (n : Nat) :
    (accounts size s.traces).pending b n = bytes size b - n := by
  rcases traces_one hN with ⟨h₀, h₁⟩ | ⟨h₀, h₁⟩ <;>
    simp [accounts, Weights.add, coverWeights, doomedWeights, h₀, h₁]

theorem accounts_pendCount {s : St} (hN : s.epoch.phase ≠ .N) (n : Nat) :
    (accounts size s.traces).pendCount n = -n := by
  rcases traces_one hN with ⟨h₀, h₁⟩ | ⟨h₀, h₁⟩ <;>
    simp [accounts, Weights.add, coverWeights, doomedWeights, h₀, h₁]

theorem accounts_stage_le {s : St} (hp : PinInv s) :
    (accounts size s.traces).stage s.stage ≤
      Stocks.worth size ((stockWeights size).stage s.stage) := by
  have hphase := hp.phase
  cases hst : s.stage with
  | pendPush b n nx =>
      rw [hst] at hphase
      have hN : s.epoch.phase ≠ .N := fun hN => by simp [Stage.inPhase, hN] at hphase
      refine le_of_eq ((accounts_pending hN b n).trans ?_)
      simp [worth_coe, Weights.stage, stockWeights]
  | pendStat n nx =>
      rw [hst] at hphase
      have hN : s.epoch.phase ≠ .N := fun hN => by simp [Stage.inPhase, hN] at hphase
      refine le_of_eq ((accounts_pendCount hN n).trans ?_)
      simp [Stocks.worth, Weights.stage, stockWeights]
  | _ => exact le_of_eq (map_zero (Stocks.worth size)).symm

/-- The books against the accounts: whatever is reclaimed or can be was counted. -/
theorem zone_le {s : St} (hp : PinInv s) (hb : Booked s size) (hcov : s.covered size)
    (hpos : ∀ c, 0 ≤ s.cover size c) : s.zone size ≤ s.totalAllocated := by
  have hx : ¬ (s.traces .C0 ∧ s.traces .C1) := fun h => by
    have := h.1.2.trans h.2.2.symm
    cases this
  have hle : (accounts size s.traces).total s ≤
      Stocks.worth size ((stockWeights size).total s) := by
    refine Weights.total_le _ _ _ (fun t c => ?_) (fun t _ f _ => accounts_frame_le hx _ f)
      (fun c b => ?_) (fun c b => ?_) (fun w => ?_) ?_
    · have := hcov t c
      show (0 : ℤ) ≤ Stocks.worth size (↑((s.locals t).objs c).1, ((s.locals t).objs c).2, 0)
      rw [worth_coe, bytes]
      omega
    · exact le_of_eq ((accounts_fresh c b).trans (worth_batch b).symm)
    · exact le_of_eq ((accounts_marked c b).trans (worth_batch b).symm)
    · show (0 : ℤ) + 0 + (bytes size w.todo + w.bytes) ≤
        Stocks.worth size (↑(w.todo ++ w.survived), 0, w.bytes)
      have := bytes_nonneg size w.survived
      rw [worth_coe, bytes_append]
      omega
    · exact accounts_stage_le hp
  have hV : (accounts size s.traces).total s = s.cover size .C0 + s.cover size .C1 +
      (doomedWeights size s.traces).total s := by
    rw [accounts, Weights.add_total, Weights.add_total]
    rfl
  have hφ : Stocks.worth size ((stockWeights size).total s) =
      s.totalAllocated - s.totalReclaimed := by
    have h₁ := hb.allocated
    have h₂ := hb.reclaimed
    show ((((stockWeights size).total s).1.map size).sum : ℤ) + ((stockWeights size).total s).2.2 -
      ((stockWeights size).total s).2.1 = _
    omega
  have h₀ := hpos .C0
  have h₁ := hpos .C1
  rw [St.zone]
  omega

/-! ## Every reachable state -/

/-- The books are right, and the accounts are in order. -/
structure Solvent (s : St) (size : Oid → Nat) : Prop where
  booked : Booked s size
  covered : s.covered size
  cover : ∀ c, 0 ≤ s.cover size c

structure ByteInv (s : St) : Prop where
  wf : WellFormed s
  stock : StockInv s
  solvent : ∀ size, s.sized size → Solvent s size

theorem Solvent.init (n : Nat) (size : Oid → Nat) : Solvent (St.init n) size where
  booked := .init n size
  covered i c := by
    by_cases hi : i = 0 <;> simp [St.init, hi, Local.default]
  cover c := by
    rw [St.cover]
    simp [Weights.total, Weights.node, Weights.stage, shards, St.init, Local.default, coverWeights]

theorem Solvent.step {s s' : St} {lab : Label} (h : Solvent s size) (hwf : WellFormed s)
    (hst : StockInv s) (hs : StepCase s lab s') (hz : s'.sized size) : Solvent s' size := by
  obtain ⟨⟨b, hb, hh⟩, hep⟩ := stock_step hst hwf hs
  refine ⟨h.booked.step hb hh hz, covered_step hwf h.covered (hh.sized hz) hs, fun c => ?_⟩
  by_cases he : s'.epoch = s.epoch
  · have hmove := cover_move hb h.covered c
    have htr : s'.traces c ↔ s.traces c := by rw [St.traces, St.traces, he]
    simp only [St.cover, htr]
    exact (h.cover c).trans hmove
  · exact cover_store hst hwf.ground hs he (hep.resolve_left he) h.cover c

theorem ByteInv.step {s s' : St} {lab : Label} (h : ByteInv s) (hab : Cdpt.step s lab = some s') :
    ByteInv s' := by
  have hs := stepCase hab
  refine ⟨h.wf.step hab, h.stock.step h.wf.ground.pin.str hs, fun size hz => ?_⟩
  obtain ⟨⟨e, -, hh⟩, -⟩ := stock_step h.stock h.wf hs
  exact (h.solvent size (hh.sized hz)).step h.wf h.stock hs hz

theorem ByteInv.of_reachable {n : Nat} {s : St} (h : Reachable n s) : ByteInv s :=
  h.invariant ⟨.init n, .init n, fun size _ => .init n size⟩ fun hi _ hs => hi.step hs

theorem ByteInv.sized_step {s s' : St} {lab : Label} (h : ByteInv s)
    (hab : Cdpt.step s lab = some s') (hz : s'.sized size) : s.sized size := by
  obtain ⟨⟨e, -, hh⟩, -⟩ := stock_step h.stock h.wf (stepCase hab)
  exact hh.sized hz

/-! ## The result -/

/-- The bytes a frame has still to add to `total_allocated`: those of a flushed
batch, or of a new object that is not in a batch yet. -/
def St.frameUncounted (s : St) : Frame → Nat
  | .ptr (.pushObj o true) => (s.objs o).size
  | .ptr (.flushStat n) => n
  | _ => 0

/-- The bytes the collector has still to add for the pending batch of a thread. -/
def Stage.uncounted : Stage → Nat
  | .pendPush _ n _ | .pendStat n _ => n
  | _ => 0

/-- The pending sizes of all local batches, and of those whose counter update is in
flight. -/
def St.uncounted (s : St) : Nat :=
  ∑ t ∈ range s.nLocals, (((s.locals t).objs .C0).2 + ((s.locals t).objs .C1).2 +
    ((s.locals t).stack.map s.frameUncounted).sum) + s.stage.uncounted

/-- The bytes a helper has reclaimed from the batch it is sweeping. -/
def Frame.swept : Frame → Nat
  | .help (.sweepObjs _ bytes _ _ _) => bytes
  | _ => 0

/-- The bytes of the sweeps in flight. -/
def St.sweptInFlight (s : St) : Nat :=
  ∑ t ∈ range s.nLocals, ((s.locals t).stack.map Frame.swept).sum +
    (s.sweepers.map Sweeper.bytes).sum

/-- `size_of_val` of the objects of `os`. -/
def St.sizes (s : St) (os : Finset Oid) : Nat := ∑ o ∈ os, (s.objs o).size

/-- What the places add up to, component by component. -/
theorem map_total {A B : Type} [AddCancelCommMonoid A] [AddCancelCommMonoid B] (W : Weights A)
    (φ : A →+ B) (s : St) : φ (W.total s) =
      ∑ t ∈ range s.nLocals, (φ (W.own .C0 ((s.locals t).objs .C0)) +
          φ (W.own .C1 ((s.locals t).objs .C1)) +
          ((s.locals t).stack.map fun f => φ (W.frame (s.locals t).allocColor f)).sum) +
        shards (fun c b => φ (W.fresh c b)) s.freshObjs +
        shards (fun c b => φ (W.marked c b)) s.markedObjs +
        (s.sweepers.map fun w => φ (W.sweeper w)).sum + φ (W.stage s.stage) := by
  have hlist : ∀ {α : Type} (l : List α) (g : α → A),
      φ (l.map g).sum = (l.map fun x => φ (g x)).sum := by
    intro α l g
    rw [map_list_sum, List.map_map]
    rfl
  have hshards : ∀ (g : Color → List Oid → A) (f : Color → Nat → List (List Oid)),
      φ (shards g f) = shards (fun c b => φ (g c b)) f := by
    intro g f
    rw [shards, shards, map_sum]
    refine sum_congr rfl fun q _ => ?_
    rw [map_add, hlist, hlist]
  simp only [Weights.total, Weights.node, map_add, map_sum, hlist, hshards]

theorem shards_zero {A : Type} [AddCancelCommMonoid A] (f : Color → Nat → List (List Oid)) :
    shards (fun _ _ => (0 : A)) f = 0 := by
  simp [shards]

theorem uncounted_eq (s : St) :
    ((stockWeights fun o => (s.objs o).size).total s).2.1 = s.uncounted := by
  have hframe : ∀ c f, ((stockWeights fun o => (s.objs o).size).frame c f).2.1 =
      s.frameUncounted f := by
    intro c f
    cases f with
    | pin f | mark f => rfl
    | ptr f =>
        cases f with
        | pushObj o newly => cases newly <;> rfl
        | _ => rfl
    | help f => cases f <;> rfl
  have hstage : ((stockWeights fun o => (s.objs o).size).stage s.stage).2.1 =
      s.stage.uncounted := by cases s.stage <;> rfl
  have htot := map_total (stockWeights fun o => (s.objs o).size)
    ((AddMonoidHom.fst ℕ ℕ).comp (AddMonoidHom.snd (Multiset Oid) (ℕ × ℕ))) s
  simp only [AddMonoidHom.coe_comp, AddMonoidHom.coe_fst, AddMonoidHom.coe_snd,
    Function.comp_apply, hframe, hstage] at htot
  rw [htot]
  simp [stockWeights, shards_zero, St.uncounted]

theorem sweptInFlight_eq (s : St) (size : Oid → Nat) :
    ((stockWeights size).total s).2.2 = s.sweptInFlight := by
  have hframe : ∀ c f, ((stockWeights size).frame c f).2.2 = f.swept := by
    intro c f
    cases f with
    | pin f | mark f => rfl
    | ptr f => cases f <;> rfl
    | help f => cases f <;> rfl
  have hstage : ((stockWeights size).stage s.stage).2.2 = 0 := by cases s.stage <;> rfl
  have htot := map_total (stockWeights size)
    ((AddMonoidHom.snd ℕ ℕ).comp (AddMonoidHom.snd (Multiset Oid) (ℕ × ℕ))) s
  simp only [AddMonoidHom.coe_comp, AddMonoidHom.coe_snd, Function.comp_apply, hframe,
    hstage] at htot
  rw [htot]
  simp [stockWeights, shards_zero, St.sweptInFlight]

/-- The objects there are, and those of them that are reclaimed. -/
def St.made (s : St) : Finset Oid := range s.nextObj

def St.gone (s : St) : Finset Oid := s.made.filter fun o => (s.objs o).reclaimed = true

theorem Booked.allocated_eq {s : St} (h : Booked s fun o => (s.objs o).size) :
    s.totalAllocated + s.uncounted = s.sizes s.made := by
  rw [← uncounted_eq]
  exact h.allocated

theorem Booked.reclaimed_eq {s : St} (h : Booked s fun o => (s.objs o).size) :
    s.totalReclaimed + s.sweptInFlight = s.sizes s.gone := by
  have hsplit : s.sizes s.gone + s.sizes (s.made.filter fun o => (s.objs o).reclaimed = false) =
      s.sizes s.made := by
    have := sum_filter_add_sum_filter_not s.made (fun o => (s.objs o).reclaimed = true)
      fun o => (s.objs o).size
    simp only [Bool.not_eq_true] at this
    exact this
  have hlive : (((stockWeights fun o => (s.objs o).size).total s).1.map
      fun o => (s.objs o).size).sum =
        s.sizes (s.made.filter fun o => (s.objs o).reclaimed = false) := by
    rw [h.places]
    rfl
  have hall : ((Multiset.range s.nextObj).map fun o => (s.objs o).size).sum = s.sizes s.made := rfl
  have hrec := h.reclaimed
  rw [sweptInFlight_eq, hlive, hall] at hrec
  omega

theorem doomed_nonneg (tr : Color → Prop) [DecidablePred tr] (s : St) :
    0 ≤ (doomedWeights size tr).total s := by
  have hbatch : ∀ b, 0 ≤ bytes size b := bytes_nonneg size
  rw [← Weights.zero_total s]
  refine Weights.total_le _ _ (AddMonoidHom.id ℤ) (fun _ _ => le_rfl) (fun t _ f _ => ?_)
    (fun _ _ => le_rfl) (fun c b => ite_nonneg le_rfl (hbatch b))
    (fun w => add_nonneg (hbatch _) (Int.natCast_nonneg _)) ?_
  · rw [Weights.zero_frame]
    cases f with
    | pin f | mark f => exact le_rfl
    | ptr f => cases f <;> exact le_rfl
    | help f =>
        cases f with
        | sweepObjs todo n q qs trial => exact add_nonneg (hbatch _) (Int.natCast_nonneg _)
        | scanObjs | forceHps => exact ite_nonneg le_rfl (hbatch _)
        | _ => exact le_rfl
  · cases s.stage <;> exact le_rfl

/-- While the collector does not move, nothing is swept that was not counted when it
stopped. -/
theorem reclaimed_le_of_run {n : Nat} {s s' : St} (h : Reachable n s)
    (hr : Lts.Reaches step (fun _ lab => lab.isColl = false) s s') :
    s'.totalReclaimed ≤ s.totalAllocated := by
  suffices hinv : ByteInv s' ∧ ∀ size, s'.sized size → s'.zone size ≤ s.totalAllocated by
    have hzone := hinv.2 (fun o => (s'.objs o).size) fun _ _ => rfl
    exact Int.ofNat_le.1 ((le_add_of_nonneg_right (doomed_nonneg s'.traces s')).trans hzone)
  refine hr.invariant (I := fun u => ByteInv u ∧ ∀ size, u.sized size → u.zone size ≤ _) ?_ ?_
  · have hi := ByteInv.of_reachable h
    refine ⟨hi, fun size hz => ?_⟩
    obtain ⟨hb, hcov, hpos⟩ := hi.solvent size hz
    exact zone_le hi.wf.ground.pin hb hcov hpos
  · intro a b lab ⟨hi, hzone⟩ hlab hab
    refine ⟨hi.step hab, fun size hz => ?_⟩
    have hwithin : withinCycle a lab := fun hw => by
      rw [hlab] at hw
      cases hw.2
    have hle := zone_step hi.stock hi.wf (stepCase hab) hwithin hz
    exact hle.trans (hzone size (hi.sized_step hab hz))

/-- The two counters are exact, and the reclaimed bytes never outgrow the allocated
ones. The collector reads the two one after the other in `record_collection_stats`,
and whatever the helpers sweep in between, the difference does not underflow. -/
theorem byte_accounting {n : Nat} {s : St} (h : Reachable n s) :
    s.totalAllocated + s.uncounted = s.sizes s.made ∧
    s.totalReclaimed + s.sweptInFlight = s.sizes s.gone ∧
    s.totalReclaimed ≤ s.totalAllocated ∧
    ∀ s', Lts.Reaches step (fun _ lab => lab.isColl = false) s s' →
      s'.totalReclaimed ≤ s.totalAllocated := by
  have hbook := ((ByteInv.of_reachable h).solvent _ fun _ _ => rfl).booked
  exact ⟨hbook.allocated_eq, hbook.reclaimed_eq, reclaimed_le_of_run h .refl,
    fun s' hr => reclaimed_le_of_run h hr⟩

/-- Thread 1 allocates one object and lets it go. -/
def dropOne : List Label :=
  List.flatten
    [[.register 1, .op 1 .pin], .replicate 4 (.run 1 0), [.op 1 (.alloc [] 8 none)],
      .replicate 3 (.run 1 0), [.op 1 .dropGuard, .run 1 0, .run 1 0]]

/-- The collector traces, with node 2 for its worker, and stores the next N epoch. -/
def traceAll : List Label :=
  List.flatten
    [.replicate 9 (.coll 0), .replicate 14 (.run 0 0), .replicate 33 (.coll 0), [.startWorker 2],
      .replicate 29 (.run 2 0), [.coll 0, .run 0 0, .run 0 0, .coll 0], .replicate 4 (.run 0 0),
      .replicate 8 (.coll 0), [.run 0 0, .run 0 0], .replicate 32 (.coll 0)]

/-- Thread 1 takes the batch before the sweep gets there. -/
def helperFirst : List Label :=
  List.flatten
    [[.op 1 .pin], .replicate 4 (.run 1 0), [.op 1 .helpCollect], .replicate 3 (.run 1 0),
      .replicate 9 (.sweep 0 0), .replicate 10 (.coll 0)]

/-- The cycle has ended and a helper is still sweeping: what it adds between the two
reads was counted before. -/
theorem byte_accounting_helperFirst : ∃ s s', Reachable 1 s ∧ s.stage = .idle ∧
    Lts.Reaches step (fun _ lab => lab.isColl = false) s s' ∧
    s.totalAllocated + s.uncounted = s.sizes s.made ∧ s.totalReclaimed = 0 ∧
    s'.totalReclaimed = 8 ∧ s'.totalReclaimed ≤ s.totalAllocated := by
  have hrun : (Lts.runs step (fun _ _ => True) (St.init 1)
      (dropOne ++ traceAll ++ helperFirst)).any (fun s =>
        decide (s.stage = .idle ∧ s.totalReclaimed = 0) &&
        (Lts.runs step (fun _ lab => lab.isColl = false) s (List.replicate 2 (.run 1 0))).any
          fun s' => decide (s'.totalReclaimed = 8)) = true := by
    decide +kernel
  obtain ⟨s, hr, h⟩ := Lts.exists_of_any hrun
  obtain ⟨hs, h⟩ := Bool.and_eq_true_iff.1 h
  obtain ⟨hst, h0⟩ := of_decide_eq_true hs
  obtain ⟨s', hr', h8⟩ := Lts.exists_of_any h
  obtain ⟨halloc, -, -, hlater⟩ := byte_accounting hr
  exact ⟨s, s', hr, hst, hr', halloc, h0, of_decide_eq_true h8, hlater s' hr'⟩

end Cdpt
