import Cdpt.Proofs.Census

/-!
# Sweeping does not depend on who does it

The workers of `sweep` and the helpers of `help_normal_inner` pop from the same
queues, and whatever they pop they have to bring to an end: a white object is
reclaimed and its bytes are counted, any other object goes to a batch of the next
white. So each object that waits in `marked_objs` can be booked from the start as
what it will become. `Ledger` keeps the three books, survivors, bytes reclaimed and
bytes allocated, and no step of a sweep changes it.

The books are weights of the census. An object that waits to be swept is worth what
it will become (`worth`), one that has come through is worth itself, and the bytes a
worker or a helper has not yet reported are worth themselves. With the colours and
sizes of the first state fixed, the move of an object out of a queue and into a
batch, or into the counter, then changes nothing (`run_ledger`, `worker_ledger`),
and a second account (`doomWeights`) does the same for the set of reclaimed objects.

That batches stay within their capacity is shown along the way, by what each side
tests before it pushes: `push_within_capacity` hands an object back only when the
batch is full, and the batch that replaces a full one is empty, so the assertion
behind it holds and no worker ends early.

Once nothing is in progress the books are the queues, the open batches and the two
counters (`quiet_ledger`), and the result is read off them.
-/

open Finset Sums

namespace Cdpt

/-! ## Runs that only sweep -/

/-- The objects that wait to be swept. -/
def St.due (s : St) (pw : Color) : Multiset Oid :=
  ∑ q ∈ range objBatchesShard, ((s.markedObjs pw q).flatten : Multiset Oid)

/-- The objects of colour `c` that have come through. -/
def St.kept (s : St) (c : Color) : Multiset Oid :=
  ∑ q ∈ range objBatchesShard, ((s.freshObjs c q).flatten : Multiset Oid) +
    ∑ t ∈ range s.nLocals, (((s.locals t).objs c).1 : Multiset Oid)

/-- The bytes of new objects in the open batches of colour `c`. -/
def St.unflushed (s : St) (c : Color) : Nat :=
  ∑ t ∈ range s.nLocals, ((s.locals t).objs c).2

/-- Every thread is between two operations and the workers of `sweep` are about to
start. The batches are what `ObjBatch` allows, and an object is owned once. -/
structure SweepStart (pw : Color) (s : St) : Prop where
  idle : ∀ t, (s.locals t).stack = []
  workers : s.sweepers = (shardRanges s.collectorThreads).map fun r => ⟨pw, r.1, r.2, [], [], 0⟩
  shards : ∀ q, objBatchesShard ≤ q → s.markedObjs pw q = []
  ownCap : ∀ t, ((s.locals t).objs pw.flip).1.length ≤ objBatchSize
  freshCap : ∀ q, ∀ b ∈ s.freshObjs pw.flip q, b.length ≤ objBatchSize
  owned : (s.kept pw.flip + s.due pw).Nodup

/-- The steps of a sweep: those of its workers, and those of mutators that are
pinned in the normal phase after `pw` was white and call `help_collect`. -/
def sweepOnly (pw : Color) (s : St) : Label → Prop
  | .sweep _ _ | .run _ _ => True
  | .op t o => o = .helpCollect ∧ (s.locals t).epoch.phase = .N ∧
      (s.locals t).epoch.color = pw.flip
  | .coll _ | .startWorker _ | .register _ | .exit _ => False

instance (pw : Color) (s : St) : ∀ lab, Decidable (sweepOnly pw s lab)
  | .sweep _ _ | .run _ _ => instDecidableTrue
  | .op _ _ => inferInstanceAs (Decidable (_ ∧ _))
  | .coll _ | .startWorker _ | .register _ | .exit _ => instDecidableFalse

/-- Nobody holds a batch. -/
def St.settled (s : St) (pw : Color) : Prop :=
  (∀ q < objBatchesShard, s.markedObjs pw q = []) ∧ s.sweepers = [] ∧
    ∀ t < s.nLocals, ∀ f ∈ (s.locals t).stack, f.carries = false

instance (s : St) (pw : Color) : Decidable (s.settled pw) :=
  haveI : Decidable (s.sweepers = []) := decidable_of_iff _ List.isEmpty_iff
  inferInstanceAs (Decidable (_ ∧ _ ∧ _))

/-- The frames of `help_normal`. -/
def Frame.sweeps (pw : Color) : Frame → Prop
  | .help .help | .help (.normalNext _ _) | .help (.normalPop _ _ _)
  | .help (.sweepObjs _ _ _ _ _) | .ptr (.pushObj _ false) | .ptr (.flushStat _) => True
  | .ptr (.flushPush c b _) => c = pw.flip ∧ b.length ≤ objBatchSize
  | _ => False

/-! ## The books -/

/-- Survivors, bytes reclaimed, bytes allocated. -/
abbrev Ledger := Multiset Oid × Nat × Nat

section

variable (pw : Color) (color : Oid → Color) (size : Oid → Nat)

/-- What an object that waits to be swept will become. -/
def worth (o : Oid) : Ledger := if color o = pw then (0, size o, 0) else ({o}, 0, 0)

def sweepWeights : Weights Ledger where
  own c b := if c = pw.flip then (↑b.1, 0, b.2) else 0
  pushing o newly := ({o}, 0, if newly then size o else 0)
  flushing c b := if c = pw.flip then (↑b, 0, 0) else 0
  counting c n := if c = pw.flip then (0, 0, n) else 0
  sweeping todo bytes := (todo.map (worth pw color size)).sum + (0, bytes, 0)
  scanning _ := 0
  fresh c b := if c = pw.flip then (↑b, 0, 0) else 0
  marked c b := if c = pw then (b.map (worth pw color size)).sum else 0
  sweeper w := (w.todo.map (worth pw color size)).sum + (↑w.survived, w.bytes, 0)
  pending _ _ := 0
  pendCount _ := 0
  own_nil c := by
    split <;> rfl

/-- The white objects that are not yet reclaimed. -/
def doomWeights : Weights (Multiset Oid) where
  own _ _ := 0
  pushing _ _ := 0
  flushing _ _ := 0
  counting _ _ := 0
  sweeping todo _ := ↑(todo.filter (color · = pw))
  scanning _ := 0
  fresh _ _ := 0
  marked c b := if c = pw then ↑(b.filter (color · = pw)) else 0
  sweeper w := ↑(w.todo.filter (color · = pw))
  pending _ _ := 0
  pendCount _ := 0
  own_nil _ := rfl

end

/-- The books of `s`, with the colours and the sizes of `s₀`. -/
def St.ledger (s₀ : St) (pw : Color) (s : St) : Ledger :=
  (sweepWeights pw s₀.color fun o => (s₀.objs o).size).total s + (0, s.counters)

def St.doomed (s₀ : St) (pw : Color) (s : St) : Multiset Oid :=
  (doomWeights pw s₀.color).total s

/-! ## What a sweep touches -/

/-- The effects of a sweep. -/
def Eff.sweeps : Eff → Bool
  | .nop | .pushObj _ _ _ | .takeBatch _ _ | .pushFresh _ _ _ | .popMarked _ _ | .addAllocated _
  | .addReclaimed _ | .reclaim _ => true
  | _ => false

theorem sweeps_apply {e : Eff} (he : e.sweeps = true) (s : St) (t : Lid) :
    (∀ o, (e.apply s t).color o = s.color o ∧ ((e.apply s t).objs o).size = (s.objs o).size) ∧
    ∀ i, ((e.apply s t).locals i).epoch = (s.locals i).epoch := by
  cases e with
  | nop | pushFresh | popMarked | addAllocated | addReclaimed =>
      exact ⟨fun _ => ⟨rfl, rfl⟩, fun _ => rfl⟩
  | pushObj c o newly =>
      refine ⟨fun _ => ⟨rfl, rfl⟩, fun i => ?_⟩
      by_cases hi : i = t <;> simp [Eff.apply, hi]
  | takeBatch j c =>
      refine ⟨fun _ => ⟨rfl, rfl⟩, fun i => ?_⟩
      by_cases hi : i = j <;> simp [Eff.apply, hi]
  | reclaim p =>
      refine ⟨fun o => ?_, fun _ => rfl⟩
      by_cases ho : o = p <;> simp [Eff.apply, St.color, St.setObj, ho]
  | _ => cases he

theorem sweeps_sweepers {e : Eff} (he : e.sweeps = true) (s : St) (t : Lid) :
    (e.apply s t).sweepers = s.sweepers := by
  cases e <;> first | rfl | cases he

theorem reclaimed_of_sweeps {e : Eff} (he : e.sweeps = true) (s : St) (t : Lid) (o : Oid) :
    ((e.apply s t).objs o).reclaimed = true ↔ (s.objs o).reclaimed = true ∨ e = .reclaim o := by
  cases e with
  | nop | pushFresh | popMarked | addAllocated | addReclaimed | pushObj | takeBatch =>
      simp [Eff.apply]
  | reclaim p =>
      by_cases ho : o = p
      · simp [Eff.apply, St.setObj, ho]
      · simp [Eff.apply, St.setObj, ho, Ne.symm ho]
  | _ => cases he

/-- A thread in `help_normal` stays there. -/
theorem exec_sweeps {s : St} {t : Lid} (ch : Nat) {pw : Color} {f : Frame} (hf : f.sweeps pw)
    (hN : (s.locals t).epoch.phase = .N) (hcol : s.allocColor t = pw.flip)
    (hcap : ((s.locals t).objs pw.flip).1.length ≤ objBatchSize) :
    (exec s t ch f).1.sweeps = true ∧ ∀ g ∈ (exec s t ch f).2, g.sweeps pw := by
  cases f with
  | pin f => cases hf
  | mark f => cases hf
  | ptr f =>
      cases f with
      | pushObj o newly =>
          cases newly with
          | true => cases hf
          | false =>
              simp only [exec, execPtr]
              split
              · exact ⟨rfl, fun g hg => by cases hg⟩
              · refine ⟨rfl, fun g hg => ?_⟩
                simp only [List.mem_cons, List.not_mem_nil, or_false] at hg
                rcases hg with rfl | rfl | rfl
                · exact ⟨hcol, hcol ▸ hcap⟩
                · trivial
                · trivial
      | flushPush c b n => exact ⟨rfl, fun g hg => by cases hg⟩
      | flushStat n => exact ⟨rfl, fun g hg => by cases hg⟩
      | _ => cases hf
  | help f =>
      cases f with
      | help =>
          simp only [exec, execHelp, hN]
          exact ⟨rfl, fun g hg => List.mem_singleton.1 hg ▸ trivial⟩
      | normalNext qs k =>
          simp only [exec, execHelp]
          split
          · exact ⟨rfl, fun g hg => by cases hg⟩
          · exact ⟨rfl, fun g hg => List.mem_singleton.1 hg ▸ trivial⟩
      | normalPop q qs k =>
          simp only [exec, execHelp]
          split <;> exact ⟨rfl, fun g hg => List.mem_singleton.1 hg ▸ trivial⟩
      | sweepObjs todo bytes q qs k =>
          simp only [exec, execHelp]
          split
          · split
            · exact ⟨rfl, fun g hg => List.mem_singleton.1 hg ▸ trivial⟩
            · refine ⟨rfl, fun g hg => ?_⟩
              simp only [List.mem_cons, List.not_mem_nil, or_false] at hg
              rcases hg with rfl | rfl <;> trivial
          · refine ⟨rfl, fun g hg => ?_⟩
            split at hg
            · exact List.mem_singleton.1 hg ▸ trivial
            · cases hg
      | _ => cases hf

theorem sweepStep_sweeps (s : St) (w : Sweeper) (ch : Nat) :
    (sweepStep s w ch).1.sweeps = true := by
  have hmoves := sweepStep_moves s w ch
  generalize sweepStep s w ch = r at hmoves
  obtain ⟨e, w'⟩ := r
  cases hmoves <;> rfl

theorem scans_not_sweeps {f : Frame} {pw : Color} {os : List Oid} (hf : f.sweeps pw)
    (hs : f.scans = some os) : False := by
  cases f with
  | help f => cases f <;> first | (cases hs; done) | cases hf
  | _ => cases hs

/-! ## No step changes the books -/

section

variable {s₀ s : St} {pw : Color}

theorem idle_sweeps {e : Eff} (hi : e.idle = true) (hs : e.sweeps = true) : e = .nop := by
  cases e <;> first | rfl | (cases hi; done) | cases hs

/-- The object an effect reclaims. -/
def Eff.dooms : Eff → Multiset Oid
  | .reclaim o => {o}
  | _ => 0

/-- What leaves a frame and the queues enters them again, or a counter. -/
theorem run_ledger {t : Lid} {f : Frame} {e : Eff} {fs : List Frame}
    (hheap : ∀ o, s.color o = s₀.color o ∧ (s.objs o).size = (s₀.objs o).size)
    (hblack : s.black t = pw) (halloc : s.allocColor t = pw.flip)
    (hmove : BatchStep s t f e fs) (hf : f.sweeps pw) (he : e.sweeps = true) :
    (sweepWeights pw s₀.color fun o => (s₀.objs o).size).frame pw.flip f +
        (sweepWeights pw s₀.color fun o => (s₀.objs o).size).out s t e =
      (fs.map ((sweepWeights pw s₀.color fun o => (s₀.objs o).size).frame pw.flip)).sum +
        (sweepWeights pw s₀.color fun o => (s₀.objs o).size).into s t e +
        ((0, e.counted) : Ledger) := by
  generalize hW : (sweepWeights pw s₀.color fun o => (s₀.objs o).size) = W
  cases hmove with
  | idle hc hi hfs =>
      rw [W.frame_idle hc, W.frames_idle hfs, W.out_idle hi, W.into_idle hi, idle_sweeps hi he]
      rfl
  | @push o newly hroom =>
      cases newly with
      | true => cases hf
      | false =>
          rw [halloc]
          subst hW
          simp [Weights.frame, Weights.out, Weights.into, sweepWeights, Eff.counted]
          exact (List.perm_append_singleton o _).symm
  | @flush o newly hfull =>
      rw [halloc]
      subst hW
      simp [Weights.frame, Weights.out, Weights.into, sweepWeights, Eff.counted]
      exact ⟨(Multiset.cons_coe o _).symm.trans (Multiset.singleton_add o _ ▸ add_comm _ _),
        add_comm _ _⟩
  | @flushed c b n q hq =>
      obtain ⟨rfl, -⟩ : c = pw.flip ∧ _ := hf
      subst hW
      simp [Weights.frame, Weights.out, Weights.into, sweepWeights, Eff.counted]
  | counted =>
      subst hW
      simp [Weights.frame, Weights.out, Weights.into, sweepWeights, Eff.counted]
  | sweepPop hb =>
      rw [hblack] at hb ⊢
      subst hW
      simp [Weights.frame, Weights.out, Weights.into, sweepWeights, Eff.counted, hb]
      show _ = _ + (0 : Ledger) + (0 : Ledger)
      rw [add_zero, add_zero]
  | @reclaim o rest bytes q qs k hc =>
      rw [hblack, (hheap o).1] at hc
      subst hW
      simp [Weights.frame, Weights.out, Weights.into, sweepWeights, Eff.counted, worth, hc, hheap]
      generalize (rest.map (worth pw s₀.color fun o => (s₀.objs o).size)).sum = x
      obtain ⟨os, n, m⟩ := x
      simp [add_comm, add_left_comm]
  | @keep o rest bytes q qs k hc =>
      rw [hblack, (hheap o).1] at hc
      subst hW
      simp [Weights.frame, Weights.out, Weights.into, sweepWeights, Eff.counted, worth, hc,
        add_assoc]
  | swept hfs =>
      rw [W.frames_idle hfs]
      subst hW
      simp [Weights.frame, Weights.out, Weights.into, sweepWeights, Eff.counted]
  | scanPop hb => cases hf
  | scan hf' => exact (scans_not_sweeps hf hf').elim
  | scanned hq hfs => cases hf

theorem run_doomed {t : Lid} {f : Frame} {e : Eff} {fs : List Frame}
    (hheap : ∀ o, s.color o = s₀.color o) (hblack : s.black t = pw)
    (hmove : BatchStep s t f e fs) (hf : f.sweeps pw) (he : e.sweeps = true) :
    (doomWeights pw s₀.color).frame pw.flip f + (doomWeights pw s₀.color).out s t e =
      (fs.map ((doomWeights pw s₀.color).frame pw.flip)).sum +
        (doomWeights pw s₀.color).into s t e + e.dooms := by
  generalize hW : doomWeights pw s₀.color = W
  cases hmove with
  | idle hc hi hfs =>
      rw [W.frame_idle hc, W.frames_idle hfs, W.out_idle hi, W.into_idle hi, idle_sweeps hi he]
      rfl
  | push | flush | flushed | counted =>
      subst hW
      rfl
  | sweepPop hb =>
      rw [hblack] at hb ⊢
      subst hW
      simp [Weights.frame, Weights.out, Weights.into, doomWeights, Eff.dooms, hb]
  | @reclaim o rest bytes q qs k hc =>
      rw [hblack, hheap o] at hc
      subst hW
      simp [Weights.frame, Weights.out, Weights.into, doomWeights, Eff.dooms, hc]
      exact (Multiset.cons_coe o _).symm.trans (Multiset.singleton_add o _ ▸ add_comm _ _)
  | @keep o rest bytes q qs k hc =>
      rw [hblack, hheap o] at hc
      subst hW
      simp [Weights.frame, Weights.out, Weights.into, doomWeights, Eff.dooms, hc]
  | swept hfs =>
      rw [W.frames_idle hfs]
      subst hW
      rfl
  | scanPop hb => cases hf
  | scan hf' => exact (scans_not_sweeps hf hf').elim
  | scanned hq hfs => cases hf

/-- The same for a worker of `sweep`. -/
theorem worker_ledger {w : Sweeper} {e : Eff} {r : Option Sweeper} {t : Lid}
    (hheap : ∀ o, s.color o = s₀.color o ∧ (s.objs o).size = (s₀.objs o).size)
    (hw : w.prevWhite = pw) (hmove : SweepBatch s w e r) :
    (sweepWeights pw s₀.color fun o => (s₀.objs o).size).sweeper w +
        (sweepWeights pw s₀.color fun o => (s₀.objs o).size).out s t e =
      (r.map (sweepWeights pw s₀.color fun o => (s₀.objs o).size).sweeper).getD 0 +
        (sweepWeights pw s₀.color fun o => (s₀.objs o).size).into s t e +
        ((0, e.counted) : Ledger) := by
  cases hmove with
  | @reclaim o rest ht hc =>
      rw [hw, (hheap o).1] at hc
      simp [Weights.out, Weights.into, sweepWeights, Eff.counted, worth, hc, hheap, ht]
      generalize (rest.map (worth pw s₀.color fun o => (s₀.objs o).size)).sum = x
      obtain ⟨os, n, m⟩ := x
      simp [add_comm, add_left_comm]
  | @keep o rest ht hc hroom =>
      rw [hw, (hheap o).1] at hc
      simp [Weights.out, Weights.into, sweepWeights, Eff.counted, worth, hc, ht]
      rw [← Multiset.coe_add, Multiset.coe_singleton]
      generalize (rest.map (worth pw s₀.color fun o => (s₀.objs o).size)).sum = x
      obtain ⟨os, n, m⟩ := x
      simp [add_comm, add_left_comm]
  | @full o rest q ht hc hfull hq =>
      rw [hw, (hheap o).1] at hc
      simp [Weights.out, Weights.into, sweepWeights, Eff.counted, worth, hc, ht, hw]
      generalize (rest.map (worth pw s₀.color fun o => (s₀.objs o).size)).sum = x
      obtain ⟨os, n, m⟩ := x
      simp [add_comm, add_left_comm]
  | pop ht hq hb =>
      rw [hw] at hb
      simp [Weights.out, Weights.into, sweepWeights, Eff.counted, ht, hw, hb]
      exact (add_comm _ _).trans (add_zero _).symm
  | next ht hq hb => simp [Weights.out, Weights.into, sweepWeights, Eff.counted, ht]
  | last ht hhi hq =>
      simp [Weights.out, Weights.into, sweepWeights, Eff.counted, ht, hw]
  | done ht hhi hsv =>
      simp [Weights.out, Weights.into, sweepWeights, Eff.counted, ht, hsv]

theorem worker_doomed {w : Sweeper} {e : Eff} {r : Option Sweeper} {t : Lid}
    (hheap : ∀ o, s.color o = s₀.color o) (hw : w.prevWhite = pw) (hmove : SweepBatch s w e r) :
    (doomWeights pw s₀.color).sweeper w + (doomWeights pw s₀.color).out s t e =
      (r.map (doomWeights pw s₀.color).sweeper).getD 0 +
        (doomWeights pw s₀.color).into s t e + e.dooms := by
  cases hmove with
  | @reclaim o rest ht hc =>
      rw [hw, hheap o] at hc
      simp [Weights.out, Weights.into, doomWeights, Eff.dooms, hc, ht]
      exact (Multiset.cons_coe o _).symm.trans (Multiset.singleton_add o _ ▸ add_comm _ _)
  | @keep o rest ht hc hroom =>
      rw [hw, hheap o] at hc
      simp [Weights.out, Weights.into, doomWeights, Eff.dooms, hc, ht]
  | @full o rest q ht hc hfull hq =>
      rw [hw, hheap o] at hc
      simp [Weights.out, Weights.into, doomWeights, Eff.dooms, hc, ht]
  | pop ht hq hb =>
      rw [hw] at hb
      simp [Weights.out, Weights.into, doomWeights, Eff.dooms, ht, hw, hb]
  | _ => simp_all [Weights.out, Weights.into, doomWeights, Eff.dooms]

end

/-! ## The invariant -/

/-- What holds in every state of a sweep that began in `s₀`. -/
structure SweepInv (pw : Color) (s₀ s : St) : Prop where
  heap : ∀ o, s.color o = s₀.color o ∧ (s.objs o).size = (s₀.objs o).size
  pinned : ∀ t, (s.locals t).stack ≠ [] →
    (s.locals t).epoch.phase = .N ∧ (s.locals t).epoch.color = pw.flip
  frames : ∀ t, ∀ f ∈ (s.locals t).stack, f.sweeps pw
  workers : ∀ w ∈ s.sweepers, w.prevWhite = pw ∧ w.survived.length ≤ objBatchSize
  shards : ∀ q, objBatchesShard ≤ q → s.markedObjs pw q = []
  ownCap : ∀ t, ((s.locals t).objs pw.flip).1.length ≤ objBatchSize
  freshCap : ∀ q, ∀ b ∈ s.freshObjs pw.flip q, b.length ≤ objBatchSize
  ledger : s₀.ledger pw s = s₀.ledger pw s₀
  doomed : ∀ o, ((s.objs o).reclaimed = true ∨ o ∈ s₀.doomed pw s) ↔
    ((s₀.objs o).reclaimed = true ∨ o ∈ s₀.doomed pw s₀)

theorem SweepStart.inv {pw : Color} {s₀ : St} (h : SweepStart pw s₀) : SweepInv pw s₀ s₀ where
  heap := fun _ => ⟨rfl, rfl⟩
  pinned := fun t ht => absurd (h.idle t) ht
  frames := fun t f hf => by
    rw [h.idle t] at hf
    cases hf
  workers := fun w hw => by
    rw [h.workers] at hw
    obtain ⟨r, -, rfl⟩ := List.mem_map.1 hw
    exact ⟨rfl, Nat.zero_le _⟩
  shards := h.shards
  ownCap := h.ownCap
  freshCap := h.freshCap
  ledger := rfl
  doomed := fun _ => Iff.rfl

theorem sweep_colors {s : St} {t : Lid} {pw : Color} (hN : (s.locals t).epoch.phase = .N)
    (hc : (s.locals t).epoch.color = pw.flip) :
    s.black t = pw ∧ s.allocColor t = pw.flip ∧ (s.locals t).allocColor = pw.flip := by
  have hwhite : s.white t = pw.flip := hc
  refine ⟨by rw [St.black, hwhite, Color.flip_flip], ?_, ?_⟩
  · rw [St.allocColor, hN]
    exact hwhite
  · rw [Local.allocColor, hN]
    exact hc

/-- What is booked is booked once: an exchange that balances against a counter
leaves their sum alone. -/
theorem exchange_counter {A : Type} [AddCancelCommMonoid A] {T T' x y c c' d : A}
    (h : T' + x = T + y) (hl : x = y + d) (hc : c' = c + d) : T' + c' = T + c := by
  refine add_right_cancel (b := y) ?_
  rw [hc, add_right_comm T c y, ← h, hl]
  abel

/-- The fields of the invariant about the heap and the capacities, after an effect
of a sweep. -/
theorem cap_apply {e : Eff} {s : St} {t : Lid} {pw : Color} (he : e.sweeps = true)
    (hown : ∀ t, ((s.locals t).objs pw.flip).1.length ≤ objBatchSize)
    (hroom : ∀ o newly, e = .pushObj pw.flip o newly →
      ((s.locals t).objs pw.flip).1.length < objBatchSize)
    (hfresh : ∀ q, ∀ b ∈ s.freshObjs pw.flip q, b.length ≤ objBatchSize)
    (hb : ∀ q b, e = .pushFresh pw.flip q b → b.length ≤ objBatchSize) :
    (∀ i, (((e.apply s t).locals i).objs pw.flip).1.length ≤ objBatchSize) ∧
    ∀ q, ∀ b ∈ (e.apply s t).freshObjs pw.flip q, b.length ≤ objBatchSize := by
  cases e with
  | nop | popMarked | addAllocated | addReclaimed | reclaim => exact ⟨hown, hfresh⟩
  | pushObj c o newly =>
      refine ⟨fun i => ?_, hfresh⟩
      by_cases hi : i = t
      · subst hi
        by_cases hc : c = pw.flip
        · subst hc
          simpa [Eff.apply] using hroom o newly rfl
        · simpa [Eff.apply, Ne.symm hc] using hown i
      · simpa [Eff.apply, hi] using hown i
  | takeBatch j c =>
      refine ⟨fun i => ?_, hfresh⟩
      by_cases hi : i = j
      · subst hi
        by_cases hc : c = pw.flip
        · subst hc
          simp [Eff.apply]
        · simpa [Eff.apply, Ne.symm hc] using hown i
      · simpa [Eff.apply, hi] using hown i
  | pushFresh c q' b' =>
      refine ⟨hown, fun q b hbq => ?_⟩
      rcases mem_setQueue hbq with hbq | ⟨hc, rfl, hbq⟩
      · exact hfresh q b hbq
      · subst hc
        rcases List.mem_append.1 hbq with hbq | hbq
        · exact hfresh q b hbq
        · cases List.mem_singleton.1 hbq
          exact hb q b' rfl
  | _ => cases he

theorem shards_apply {e : Eff} {s : St} {t : Lid} {pw : Color} (he : e.sweeps = true)
    (h : ∀ q, objBatchesShard ≤ q → s.markedObjs pw q = []) {q : Nat} (hq : objBatchesShard ≤ q) :
    (e.apply s t).markedObjs pw q = [] := by
  cases e with
  | popMarked c q' =>
      simp only [Eff.apply, setQueue]
      split
      · next hc => rw [← hc.1, ← hc.2, h q hq, List.tail_nil]
      · exact h q hq
  | nop | pushFresh | addAllocated | addReclaimed | reclaim | pushObj | takeBatch => exact h q hq
  | _ => cases he

theorem shard_of_queue {s : St} {pw : Color} {q : Nat} {b : List Oid} {bs : List (List Oid)}
    (h : ∀ q, objBatchesShard ≤ q → s.markedObjs pw q = []) (hb : s.markedObjs pw q = b :: bs) :
    q < objBatchesShard := by
  by_contra hq
  rw [h q (Nat.not_lt.1 hq)] at hb
  cases hb

/-- A thread sweeps within the array of shards. -/
theorem run_fits {s : St} {t : Lid} {pw : Color} {f : Frame} {e : Eff} {fs : List Frame}
    (ht : t < s.nLocals) (hsh : ∀ q, objBatchesShard ≤ q → s.markedObjs pw q = [])
    (hblack : s.black t = pw) (hmove : BatchStep s t f e fs) (he : e.sweeps = true) :
    e.fits s t := by
  cases hmove with
  | idle hc hi hfs =>
      rw [idle_sweeps hi he]
      trivial
  | push hroom => exact ht
  | flush hfull => exact ht
  | flushed hq => exact hq
  | sweepPop hb =>
      rw [hblack] at hb
      exact shard_of_queue hsh hb
  | counted | reclaim | keep | swept => trivial
  | scanPop | scanned => cases he
  | scan hf hi hfs hg =>
      rw [idle_sweeps hi he]
      trivial

theorem push_room {s : St} {t : Lid} {f : Frame} {e : Eff} {fs : List Frame} {c : Color} {o : Oid}
    {newly : Bool} (hmove : BatchStep s t f e fs) (he : e = .pushObj c o newly) :
    c = s.allocColor t ∧ ((s.locals t).objs c).1.length < objBatchSize := by
  cases hmove with
  | push hroom =>
      cases he
      exact ⟨rfl, hroom⟩
  | idle _ hi | scan _ hi =>
      subst he
      cases hi
  | _ => cases he

theorem flush_frame {s : St} {t : Lid} {f : Frame} {e : Eff} {fs : List Frame} {c : Color} {q : Nat}
    {b : List Oid} (hmove : BatchStep s t f e fs) (he : e = .pushFresh c q b) :
    ∃ n, f = .ptr (.flushPush c b n) := by
  cases hmove with
  | flushed hq =>
      cases he
      exact ⟨_, rfl⟩
  | idle _ hi | scan _ hi =>
      subst he
      cases hi
  | _ => cases he

theorem mem_dooms {e : Eff} {o : Oid} : o ∈ e.dooms ↔ e = .reclaim o := by
  cases e with
  | reclaim p =>
      rw [Eff.dooms, Multiset.mem_singleton, Eff.reclaim.injEq]
      exact eq_comm
  | _ => exact ⟨fun h => absurd h (Multiset.notMem_zero o), fun h => by cases h⟩

/-- An object is reclaimed or still due after a step when it was before. -/
theorem doomed_iff {e : Eff} {s : St} {t : Lid} {o : Oid} {T T' x y : Multiset Oid}
    (he : e.sweeps = true) (h : T' + x = T + y) (hl : x = y + e.dooms) :
    (((e.apply s t).objs o).reclaimed = true ∨ o ∈ T') ↔
      ((s.objs o).reclaimed = true ∨ o ∈ T) := by
  have hT : T = T' + e.dooms := by
    refine add_right_cancel (b := y) ?_
    rw [← h, hl]
    abel
  rw [reclaimed_of_sweeps he, hT, Multiset.mem_add, mem_dooms, or_assoc]
  exact or_congr Iff.rfl or_comm

theorem ledger_counters (s : St) (e : Eff) (t : Lid) :
    ((0, (e.apply s t).counters) : Ledger) = (0, s.counters) + (0, e.counted) := by
  rw [counters_apply]
  exact Prod.ext (add_zero _).symm rfl

theorem SweepInv.run {pw : Color} {s₀ s s' : St} {t : Lid} {ch : Nat} {f : Frame}
    {rest : List Frame} (h : SweepInv pw s₀ s) (ht : t < s.nLocals)
    (hst : (s.locals t).stack = f :: rest)
    (hs' : s' = ((exec s t ch f).1.apply s t).setStack t ((exec s t ch f).2 ++ rest)) :
    SweepInv pw s₀ s' := by
  obtain ⟨hN, hcol⟩ := h.pinned t (by simp [hst])
  obtain ⟨hblack, halloc, hlocal⟩ := sweep_colors hN hcol
  have hf := h.frames t f (by simp [hst])
  obtain ⟨he, hfs⟩ := exec_sweeps ch hf hN halloc (h.ownCap t)
  have hmove := exec_batches s t ch f
  have hfit := run_fits ht h.shards hblack hmove he
  obtain ⟨hheap, hep⟩ := sweeps_apply he s t
  have hep' : ∀ i, (s'.locals i).epoch = (s.locals i).epoch := by
    intro i
    rw [hs', setStack_locals]
    split
    · next hi => exact hi ▸ hep t
    · exact hep i
  have hother : ∀ {i}, i ≠ t → (s'.locals i).stack = (s.locals i).stack := by
    intro i hi
    rw [hs', setStack_stack_ne _ _ hi, apply_stack]
  have hself : (s'.locals t).stack = (exec s t ch f).2 ++ rest := by
    rw [hs', setStack_stack_self]
  have hobjs : ∀ i, (s'.locals i).objs = (((exec s t ch f).1.apply s t).locals i).objs := by
    intro i
    rw [hs', setStack_locals]
    split
    · next hi => rw [hi]
    · rfl
  obtain ⟨hown, hfresh⟩ := cap_apply he h.ownCap
    (fun o newly hpush => (push_room hmove hpush).2) h.freshCap (fun q b hpush => by
      obtain ⟨n, rfl⟩ := flush_frame hmove hpush
      exact hf.2)
  exact {
    heap := fun o => by
      rw [hs']
      exact ⟨(hheap o).1.trans (h.heap o).1, (hheap o).2.trans (h.heap o).2⟩
    pinned := fun i hi => by
      rw [hep']
      by_cases hit : i = t
      · exact hit ▸ ⟨hN, hcol⟩
      · exact h.pinned i (hother hit ▸ hi)
    frames := fun i g hg => by
      by_cases hit : i = t
      · subst hit
        rw [hself, List.mem_append] at hg
        exact hg.elim (hfs g) fun hg => h.frames i g (by simp [hst, hg])
      · exact h.frames i g (hother hit ▸ hg)
    workers := fun w hw => h.workers w (by
      rw [hs'] at hw
      exact sweeps_sweepers he s t ▸ hw)
    shards := fun q hq => by
      rw [hs']
      exact shards_apply he h.shards hq
    ownCap := fun i => by
      rw [hobjs]
      exact hown i
    freshCap := fun q => by
      rw [hs']
      exact hfresh q
    ledger := by
      have htot := (sweepWeights pw s₀.color fun o => (s₀.objs o).size).total_run ht hst hs' hfit
        (.inl (allocColor_of_epoch (hep' t)))
      rw [allocColor_of_epoch (hep' t), hlocal] at htot
      have hlaw := run_ledger h.heap hblack halloc hmove hf he
      rw [← h.ledger]
      refine exchange_counter htot hlaw ?_
      rw [hs']
      exact ledger_counters s _ t
    doomed := fun o => by
      have htot := (doomWeights pw s₀.color).total_run ht hst hs' hfit
        (.inl (allocColor_of_epoch (hep' t)))
      rw [allocColor_of_epoch (hep' t), hlocal] at htot
      rw [← h.doomed o, hs'] at *
      exact doomed_iff he htot (run_doomed (fun o => (h.heap o).1) hblack hmove hf he) }

/-- What a worker pushes is its batch of survivors, which stays within its
capacity. -/
theorem worker_batch {s : St} {w : Sweeper} {e : Eff} {r : Option Sweeper}
    (hmove : SweepBatch s w e r) : (∀ c o newly, e ≠ .pushObj c o newly) ∧
      (∀ c q b, e = .pushFresh c q b → b = w.survived) ∧
      (w.survived.length ≤ objBatchSize →
        ∀ w' ∈ r, w'.prevWhite = w.prevWhite ∧ w'.survived.length ≤ objBatchSize) := by
  cases hmove with
  | reclaim ht hc => simp
  | keep ht hc hroom => simpa using fun _ => hroom
  | full ht hc hfull hq =>
      refine ⟨by simp, fun c q b h => ?_, fun _ => by simp [objBatchSize]⟩
      cases h
      rfl
  | pop ht hq hb => simp
  | next ht hq hb => simp
  | last ht hhi hq =>
      refine ⟨by simp, fun c q b h => ?_, fun _ => by simp⟩
      cases h
      rfl
  | done ht hhi hsv => simp

theorem mem_nextSweepers {ws : List Sweeper} {k : Nat} {r : Option Sweeper} {w : Sweeper}
    (h : w ∈ nextSweepers ws k r) : w ∈ ws ∨ r = some w := by
  cases r with
  | none => exact .inl (List.mem_of_mem_eraseIdx h)
  | some w' => exact (List.mem_or_eq_of_mem_set h).imp id fun h => by rw [h]

theorem SweepInv.sweep {pw : Color} {s₀ s s' : St} {k : Nat} {w : Sweeper}
    (h : SweepInv pw s₀ s) (ch : Nat) (hw : s.sweepers[k]? = some w)
    (hs' : s' = ((sweepStep s w ch).1.apply s s.collector).withSweepers
      (nextSweepers s.sweepers k (sweepStep s w ch).2)) : SweepInv pw s₀ s' := by
  obtain ⟨hwhite, hsv⟩ := h.workers w (List.mem_of_getElem? hw)
  have he := sweepStep_sweeps s w ch
  have hmove := sweepStep_moves s w ch
  have hfit : (sweepStep s w ch).1.fits s s.collector := by
    generalize sweepStep s w ch = r at hmove
    obtain ⟨e, w'⟩ := r
    cases hmove with
    | pop ht hq hb =>
        rw [hwhite] at hb ⊢
        exact shard_of_queue h.shards hb
    | full _ _ _ hq | last _ _ hq => exact hq
    | _ => trivial
  obtain ⟨hheap, hep⟩ := sweeps_apply he s s.collector
  obtain ⟨hnot, hbatch, hnext⟩ := worker_batch hmove
  obtain ⟨hown, hfresh⟩ := cap_apply he h.ownCap
    (fun o newly hpush => absurd hpush (hnot _ o newly)) h.freshCap
    (fun q b hpush => (hbatch _ q b hpush) ▸ hsv)
  exact {
    heap := fun o => by
      rw [hs']
      exact ⟨(hheap o).1.trans (h.heap o).1, (hheap o).2.trans (h.heap o).2⟩
    pinned := fun i hi => by
      rw [hs', withSweepers_locals, apply_stack] at hi
      rw [hs', withSweepers_locals, hep]
      exact h.pinned i hi
    frames := fun i g hg => by
      rw [hs', withSweepers_locals, apply_stack] at hg
      exact h.frames i g hg
    workers := fun w' hw' => by
      rw [hs', withSweepers_sweepers] at hw'
      rcases mem_nextSweepers hw' with hw' | hw'
      · exact h.workers w' hw'
      · exact hwhite ▸ hnext hsv w' hw'
    shards := fun q hq => by
      rw [hs']
      exact shards_apply he h.shards hq
    ownCap := fun i => by
      rw [hs', withSweepers_locals]
      exact hown i
    freshCap := fun q => by
      rw [hs']
      exact hfresh q
    ledger := by
      have htot := (sweepWeights pw s₀.color fun o => (s₀.objs o).size).total_sweep hw hfit hs'
      rw [← h.ledger]
      refine exchange_counter htot (worker_ledger h.heap hwhite hmove) ?_
      rw [hs']
      exact ledger_counters s _ s.collector
    doomed := fun o => by
      have htot := (doomWeights pw s₀.color).total_sweep hw hfit hs'
      rw [← h.doomed o, hs'] at *
      exact doomed_iff he htot (worker_doomed (fun o => (h.heap o).1) hwhite hmove) }

theorem SweepInv.help {pw : Color} {s₀ s : St} {t : Lid} (h : SweepInv pw s₀ s)
    (ht : t < s.nLocals) (hst : (s.locals t).stack = [])
    (hN : (s.locals t).epoch.phase = .N ∧ (s.locals t).epoch.color = pw.flip) :
    SweepInv pw s₀ (s.setStack t [.help .help]) := by
  have hlocal : ∀ i, ((s.setStack t [.help .help]).locals i).objs = (s.locals i).objs ∧
      ((s.setStack t [.help .help]).locals i).epoch = (s.locals i).epoch := by
    intro i
    rw [setStack_locals]
    split
    · next hi => exact hi ▸ ⟨rfl, rfl⟩
    · exact ⟨rfl, rfl⟩
  have htot : ∀ {A : Type} [AddCancelCommMonoid A] (W : Weights A),
      W.total (s.setStack t [.help .help]) = W.total s :=
    fun W => W.total_setStack_idle ht (by rw [hst]; rfl) rfl
  exact {
    heap := h.heap
    pinned := fun i hi => by
      rw [(hlocal i).2]
      by_cases hit : i = t
      · exact hit ▸ hN
      · rw [setStack_stack_ne _ _ hit] at hi
        exact h.pinned i hi
    frames := fun i g hg => by
      by_cases hit : i = t
      · subst hit
        rw [setStack_stack_self, List.mem_singleton] at hg
        exact hg ▸ trivial
      · rw [setStack_stack_ne _ _ hit] at hg
        exact h.frames i g hg
    workers := h.workers
    shards := h.shards
    ownCap := fun i => (hlocal i).1 ▸ h.ownCap i
    freshCap := h.freshCap
    ledger := by
      rw [← h.ledger, St.ledger, htot]
      rfl
    doomed := fun o => by
      rw [← h.doomed o, St.doomed, htot]
      rfl }

theorem SweepInv.step {pw : Color} {s₀ s s' : St} {lab : Label} (h : SweepInv pw s₀ s)
    (hp : sweepOnly pw s lab) (hs : Cdpt.step s lab = some s') : SweepInv pw s₀ s' := by
  cases stepCase hs with
  | @op t o s₁ fs ht hu hst hc hop =>
      obtain ⟨rfl, hN⟩ := hp
      simp only [startOp] at hop
      split at hop
      · cases hop
        exact h.help ht hst hN
      · cases hop
  | run ht hst => exact h.run ht hst rfl
  | @sweep k ch w hw =>
      refine h.sweep ch hw ?_
      cases (sweepStep s w ch).2 <;> rfl
  | coll | startWorker | register | exit => cases hp

/-! ## When nothing is in progress -/

section

variable {s : St} {pw : Color}

theorem worth_sum (color : Oid → Color) (size : Oid → Nat) (os : Multiset Oid) :
    (os.map (worth pw color size)).sum =
      (os.filter (color · ≠ pw), ((os.filter (color · = pw)).map size).sum, 0) := by
  induction os using Multiset.induction_on with
  | empty => rfl
  | cons o os ih =>
      rw [Multiset.map_cons, Multiset.sum_cons, ih, worth]
      by_cases hc : color o = pw
      · simp [hc]
      · simp [hc]

/-- What an additive function makes of a row of queues. -/
theorem shards_hom {A : Type} [AddCancelCommMonoid A] (φ : Multiset Oid →+ A) (c₀ : Color)
    (f : Color → Nat → List (List Oid)) :
    shards (fun c (b : List Oid) => if c = c₀ then φ b else 0) f =
      φ (∑ q ∈ range objBatchesShard, ((f c₀ q).flatten : Multiset Oid)) := by
  have hflat : ∀ bs : List (List Oid),
      (bs.map fun b : List Oid => φ (b : Multiset Oid)).sum = φ (bs.flatten : Multiset Oid) := by
    intro bs
    induction bs with
    | nil => exact (map_zero φ).symm
    | cons b bs ih =>
        rw [List.map_cons, List.sum_cons, ih, List.flatten_cons, ← Multiset.coe_add, map_add]
  rw [shards, map_sum]
  refine sum_congr rfl fun q _ => ?_
  rw [← hflat]
  cases c₀ <;> simp

/-- Where no frame and no worker holds a batch, the books are what lies in the
queues and the open batches. -/
theorem quiet_ledger (color : Oid → Color) (size : Oid → Nat)
    (hfr : ∀ t < s.nLocals, ∀ f ∈ (s.locals t).stack, f.carries = false)
    (hw : ∀ w ∈ s.sweepers, w.todo = [] ∧ w.survived = [] ∧ w.bytes = 0) :
    (sweepWeights pw color size).total s =
      (s.kept pw.flip, 0, s.unflushed pw.flip) + ((s.due pw).map (worth pw color size)).sum := by
  generalize hW : sweepWeights pw color size = W
  have hnode : ∀ t < s.nLocals, W.node (s.locals t) =
      ((((s.locals t).objs pw.flip).1, 0, ((s.locals t).objs pw.flip).2) : Ledger) := by
    intro t ht
    have hall : (s.locals t).stack.all (fun g => !g.carries) = true :=
      List.all_eq_true.2 fun f hf => by rw [hfr t ht f hf]; rfl
    rw [Weights.node, W.frames_idle hall]
    subst hW
    cases pw <;> simp [sweepWeights, Color.flip]
  have hfresh : shards W.fresh s.freshObjs =
      ((∑ q ∈ range objBatchesShard, ((s.freshObjs pw.flip q).flatten : Multiset Oid), 0, 0) :
        Ledger) := by
    subst hW
    exact shards_hom (AddMonoidHom.inl (Multiset Oid) (Nat × Nat)) pw.flip s.freshObjs
  have hmarked : shards W.marked s.markedObjs = ((s.due pw).map (worth pw color size)).sum := by
    subst hW
    exact shards_hom (Multiset.sumAddMonoidHom.comp
      (Multiset.mapAddMonoidHom (worth pw color size))) pw s.markedObjs
  have hsweep : (s.sweepers.map W.sweeper).sum = 0 := by
    refine List.sum_eq_zero fun x hx => ?_
    obtain ⟨w, hws, rfl⟩ := List.mem_map.1 hx
    obtain ⟨ht, hs, hb⟩ := hw w hws
    subst hW
    simp [sweepWeights, ht, hs, hb]
  have hstage : W.stage s.stage = 0 := by
    subst hW
    cases s.stage <;> rfl
  rw [Weights.total, hsweep, hstage, sum_congr rfl fun t ht => hnode t (mem_range.1 ht), hfresh,
    hmarked, add_zero, add_zero]
  refine congrArg (· + _) (Prod.ext ?_ (Prod.ext ?_ ?_))
  · rw [Prod.fst_add, Prod.fst_sum]
    exact add_comm _ _
  · rw [Prod.snd_add, Prod.fst_add, Prod.snd_sum, Prod.fst_sum, sum_const_zero]
    rfl
  · rw [Prod.snd_add, Prod.snd_add, Prod.snd_sum, Prod.snd_sum]
    rfl

/-- `Multiset.filter`, as an additive function. -/
def filterHom (p : Oid → Prop) [DecidablePred p] : Multiset Oid →+ Multiset Oid where
  toFun := Multiset.filter p
  map_zero' := rfl
  map_add' := Multiset.filter_add p

theorem quiet_doomed (color : Oid → Color)
    (hfr : ∀ t < s.nLocals, ∀ f ∈ (s.locals t).stack, f.carries = false)
    (hw : ∀ w ∈ s.sweepers, w.todo = []) :
    (doomWeights pw color).total s = (s.due pw).filter (color · = pw) := by
  generalize hW : doomWeights pw color = W
  have hnode : ∀ t < s.nLocals, W.node (s.locals t) = 0 := by
    intro t ht
    have hall : (s.locals t).stack.all (fun g => !g.carries) = true :=
      List.all_eq_true.2 fun f hf => by rw [hfr t ht f hf]; rfl
    rw [Weights.node, W.frames_idle hall]
    subst hW
    rfl
  have hfresh : shards W.fresh s.freshObjs = 0 := by
    subst hW
    simp [shards, doomWeights]
  have hmarked : shards W.marked s.markedObjs = (s.due pw).filter (color · = pw) := by
    subst hW
    exact shards_hom (filterHom (color · = pw)) pw s.markedObjs
  have hsweep : (s.sweepers.map W.sweeper).sum = 0 := by
    refine List.sum_eq_zero fun x hx => ?_
    obtain ⟨w, hws, rfl⟩ := List.mem_map.1 hx
    subst hW
    simp [doomWeights, hw w hws]
  have hstage : W.stage s.stage = 0 := by
    subst hW
    cases s.stage <;> rfl
  rw [Weights.total, hsweep, hstage, sum_congr rfl fun t ht => hnode t (mem_range.1 ht), hfresh,
    hmarked, sum_const_zero, add_zero, add_zero, add_zero, zero_add]

end

/-- However the batches are shared out between the workers and the helpers: no
batch outgrows its capacity, a full batch of survivors is always replaced by one
that takes the object, and so a worker ends with nothing left in its hands. Once
nobody holds a batch, what is reclaimed is what was white, every survivor is in one
batch of the next white, the bytes reclaimed are counted, and the survivors are not
counted as allocated again. -/
theorem sweep_any_split {pw : Color} {s₀ s : St} (h₀ : SweepStart pw s₀)
    (hr : Lts.Reaches step (sweepOnly pw) s₀ s) :
    ((∀ t, ((s.locals t).objs pw.flip).1.length ≤ objBatchSize) ∧
      (∀ q, ∀ b ∈ s.freshObjs pw.flip q, b.length ≤ objBatchSize) ∧
      ∀ w ∈ s.sweepers, w.survived.length ≤ objBatchSize ∧
        (∀ o e, pushWithinCapacity w.survived o = .error e → pushWithinCapacity [] e = .ok [o]) ∧
        ∀ ch, (sweepStep s w ch).2 = none → w.todo = [] ∧ w.survived = []) ∧
    (s.settled pw →
      (∀ o, (s.objs o).reclaimed = true ↔
        (s₀.objs o).reclaimed = true ∨ (o ∈ s₀.due pw ∧ s₀.color o = pw)) ∧
      s.kept pw.flip = s₀.kept pw.flip + (s₀.due pw).filter (s₀.color · ≠ pw) ∧
      (s.kept pw.flip).Nodup ∧
      s.totalReclaimed = s₀.totalReclaimed +
        (((s₀.due pw).filter (s₀.color · = pw)).map fun o => (s₀.objs o).size).sum ∧
      s.totalAllocated + s.unflushed pw.flip = s₀.totalAllocated + s₀.unflushed pw.flip) := by
  have hinv : SweepInv pw s₀ s := hr.invariant h₀.inv fun hi hp hs => hi.step hp hs
  refine ⟨⟨hinv.ownCap, hinv.freshCap, fun w hw =>
    ⟨(hinv.workers w hw).2, fun o e he => ?_, fun ch hend => ?_⟩⟩, ?_⟩
  · obtain ⟨-, rfl⟩ := pushWithinCapacity_eq_error.1 he
    exact pushWithinCapacity_nil o
  · have hmove := sweepStep_moves s w ch
    rw [hend] at hmove
    generalize (sweepStep s w ch).1 = e at hmove
    cases hmove with
    | done ht hhi hsv => exact ⟨ht, hsv⟩
  rintro ⟨hq, hw, hfr⟩
  have hdue : s.due pw = 0 := by
    rw [St.due]
    exact sum_eq_zero fun q hlt => by rw [hq q (mem_range.1 hlt)]; rfl
  have hidle : ∀ t < s₀.nLocals, ∀ f ∈ (s₀.locals t).stack, f.carries = false := by
    intro t _ f hf
    rw [h₀.idle t] at hf
    cases hf
  have hfreshW : ∀ w ∈ s₀.sweepers, w.todo = [] ∧ w.survived = [] ∧ w.bytes = 0 := by
    intro w hw
    rw [h₀.workers] at hw
    obtain ⟨r, -, rfl⟩ := List.mem_map.1 hw
    exact ⟨rfl, rfl, rfl⟩
  have hbooks := hinv.ledger
  rw [St.ledger, St.ledger, quiet_ledger _ _ hfr (by simp [hw]), quiet_ledger _ _ hidle hfreshW,
    hdue, worth_sum, worth_sum] at hbooks
  have hkept : s.kept pw.flip = s₀.kept pw.flip + (s₀.due pw).filter (s₀.color · ≠ pw) := by
    have := congrArg Prod.fst hbooks
    simpa using this
  refine ⟨fun o => ?_, hkept, ?_, ?_, ?_⟩
  · have hdoom := hinv.doomed o
    rw [St.doomed, St.doomed, quiet_doomed _ hfr (by simp [hw]),
      quiet_doomed _ hidle fun w hw => (hfreshW w hw).1, hdue, Multiset.filter_zero,
      Multiset.mem_filter] at hdoom
    simpa using hdoom
  · rw [hkept]
    exact Multiset.nodup_of_le (by gcongr; exact Multiset.filter_le _ _) h₀.owned
  · have hbytes := congrArg (fun l => l.2.1) hbooks
    simp only [St.counters, Prod.snd_add, Prod.fst_add, Multiset.filter_zero, Multiset.map_zero,
      Multiset.sum_zero] at hbytes
    omega
  · have hbytes := congrArg (fun l => l.2.2) hbooks
    simp only [St.counters, Prod.snd_add] at hbytes
    omega

/-- Two objects wait on shard 3, one of them white; thread 1 is pinned in the N
that follows. -/
def twoDue : St :=
  { St.init 1 with
    epoch := ⟨false, .N, .C1, 3⟩
    nLocals := 2
    locals := fun i => { Local.default with
      isUsing := true
      guardCount := if i = 1 then 1 else 0
      epoch := ⟨true, .N, .C1, 3⟩ }
    nextObj := 2
    objs := fun o =>
      ⟨⟨if o = 0 then .C0 else .C1, 0⟩, 0, fun _ => .atomic, fun _ => .null, 8, false⟩
    markedObjs := setQueue (fun _ _ => []) .C0 3 [[0], [1]]
    stage := .joinSweep
    sweepers := [⟨.C0, 0, objBatchesShard, [], [], 0⟩] }

/-- The helper takes the white object and the worker the other one. -/
def splitSweep : List Label :=
  .op 1 .helpCollect :: (List.replicate 5 (.run 1 3) ++ List.replicate 12 (.sweep 0 0))

theorem twoDue_start : SweepStart .C0 twoDue where
  idle := fun _ => rfl
  workers := rfl
  shards := fun q hq => by
    have h3 : q ≠ 3 := fun h => by
      rw [h] at hq
      exact absurd hq (by decide)
    simp [twoDue, setQueue, h3]
  ownCap := fun _ => Nat.zero_le _
  freshCap := fun q b hb => by cases hb
  owned := by decide +kernel

theorem sweep_any_split_splitSweep :
    ∃ s, Lts.Reaches step (sweepOnly .C0) twoDue s ∧ (s.objs 0).reclaimed = true ∧
      s.kept .C1 = {1} ∧ s.totalReclaimed = 8 ∧ s.totalAllocated = 0 := by
  have hrun : ∃ s, Lts.Reaches step (sweepOnly .C0) twoDue s ∧ s.settled .C0 :=
    Lts.exists_of_runs splitSweep (by decide +kernel)
  obtain ⟨s, hr, hset⟩ := hrun
  obtain ⟨hrec, hkept, -, hbytes, halloc⟩ := (sweep_any_split twoDue_start hr).2 hset
  refine ⟨s, hr, (hrec 0).2 (.inr ⟨by decide +kernel, rfl⟩), ?_, ?_, ?_⟩
  · exact hkept.trans (by decide +kernel)
  · rw [hbytes]
    decide +kernel
  · have hstart : twoDue.totalAllocated + twoDue.unflushed .C1 = 0 := by decide +kernel
    exact (Nat.add_eq_zero_iff.1 (halloc.trans hstart)).1

end Cdpt
