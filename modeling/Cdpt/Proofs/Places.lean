import Cdpt.Proofs.Confirm
import Cdpt.Proofs.Overlap

/-!
# Where the objects are

An object is stored in a batch, and every batch is on its way: from the thread that
fills it to `fresh_objs`, through a scan to `marked_objs`, through a sweep back. The
colour a batch is filed under says what is known of its objects. What is filed under
the colour of new objects has that colour, and under the other one there is nothing
left once the root scan has returned. So whatever is white when the trace is
confirmed is in `marked_objs`, and whatever has the dead colour after the sweep is
in the hands of a helper.

The walk of the collector over the nodes and the split of the shards among its
workers are the two loops behind it, and each has the same shape: what is not done
yet is ahead of somebody. For the walk that is the position of the collector
(`Stage.gathered`), for the shards a worker, a job that no worker has taken up, or
the collector that has not handed out the jobs (`St.unscanned`). A worker leaves a
shard behind when it has found it empty, and nothing is added to a white shard after
the walk, which is why one look is enough.

`newColor` is the colour of what is allocated and of what is marked, and the two
agree: white in N, black in a trace. It changes with the store of RT only, and that
is also the moment when the open batches of the threads change their meaning, from
batches of new objects to batches the walk has to take. The invariant `PlaceInv` is
therefore stated per colour, and the steps that store an epoch are the ones that
need work; the rest move batches within a row.
-/

namespace Cdpt

/-! ## Batches that grow -/

theorem own_setStack (s : St) (t i : Lid) (fs : List Frame) (c : Color) :
    ((s.setStack t fs).locals i).objs c = (s.locals i).objs c := by
  rw [setStack_locals]
  split
  · next hi => rw [hi]
  · rfl

theorem own_register {s : St} {t i : Lid} {c : Color}
    (hb : ∀ i, s.nLocals ≤ i → ∀ c, (s.locals i).objs c = ([], 0)) :
    ((s.register t).locals i).objs c = (s.locals i).objs c := by
  unfold St.register
  split
  · rw [setLocal_locals]
    split
    · next hi => rw [hi]
    · rfl
  · next hlt =>
      show ((s.setLocal t { Local.default with isUsing := true }).locals i).objs c = _
      rw [setLocal_locals]
      split
      · next hi => rw [hi, hb t (Nat.not_lt.1 hlt) c]; rfl
      · rfl

/-- A thread fills the batch of its allocation colour. -/
theorem own_cases {s s' : St} {lab : Label} (hst : StockInv s) (hs : StepCase s lab s') (i : Lid)
    (c : Color) :
    ((s'.locals i).objs c).1 = ((s.locals i).objs c).1 ∨ ((s'.locals i).objs c).1 = [] ∨
    ∃ ch o newly rest, lab = .run i ch ∧ (s.locals i).stack = .ptr (.pushObj o newly) :: rest ∧
      c = s.allocColor i ∧ ((s'.locals i).objs c).1 = ((s.locals i).objs c).1 ++ [o] := by
  cases hs with
  | @op t op s₁ fs ht hu hstk hc hop =>
      rw [own_setStack, (startOp_batches hop).1]
      exact .inl rfl
  | @run t ch f rest ht hstk =>
      rw [own_setStack]
      rcases own_effect (exec s t ch f).1 s t i c with he | he | ⟨o, newly, heff, he⟩
      · exact .inl (by rw [he])
      · exact .inr (.inl (by rw [he]))
      · by_cases hi : i = t
        · subst hi
          have hf := frame_of_pushObj (exec_batches s i ch f) heff
          have hc : c = s.allocColor i := by
            rcases exec_opens (show (exec s i ch f).1.opens c o by rw [heff]; exact ⟨rfl, rfl⟩) with
              ⟨-, -, hc⟩ | ⟨b, n, hflush, -⟩
            · exact hc
            · rw [hf] at hflush
              cases hflush
          exact .inr (.inr ⟨ch, o, newly, rest, rfl, hf ▸ hstk, hc, by rw [he]⟩)
        · rw [heff]
          simp [Eff.apply, hi]
  | @coll ch e st fs hstk hcoll =>
      rw [own_setStack, withStage_locals]
      rcases own_effect e s s.collector i c with he | he | ⟨o, newly, heff, -⟩
      · exact .inl (by rw [he])
      · exact .inr (.inl (by rw [he]))
      · subst heff
        cases (collStep_moves hcoll).1 with
        | idle _ hi => cases hi
  | @sweep k ch w hw =>
      rw [withSweepers_locals]
      rcases own_effect (sweepStep s w ch).1 s s.collector i c with he | he | ⟨o, newly, heff, -⟩
      · exact .inl (by rw [he])
      · exact .inr (.inl (by rw [he]))
      · exact absurd heff ((worker_batch (sweepStep_moves s w ch)).1 c o newly)
  | @startWorker t lo hi hz js hj hr hc =>
      rw [own_setStack, withJobs_locals, own_register hst.beyond]
      exact .inl rfl
  | @register t hr hc =>
      rw [own_register hst.beyond]
      exact .inl rfl
  | @exit t ht hu hstk hg hh hc =>
      refine .inl ?_
      rw [setLocal_locals]
      split
      · next hi => rw [hi]
      · rfl

/-- A batch is flushed by the thread that filled it, under its allocation colour. -/
theorem flush_cases {s s' : St} {lab : Label} (hp : PinStr s) (hs : StepCase s lab s') {t : Lid}
    {c : Color} {b : List Oid} {n : Nat} (h : .ptr (.flushPush c b n) ∈ (s'.locals t).stack) :
    .ptr (.flushPush c b n) ∈ (s.locals t).stack ∨
    ∃ ch o newly rest, lab = .run t ch ∧ (s.locals t).stack = .ptr (.pushObj o newly) :: rest ∧
      c = s.allocColor t ∧ b = ((s.locals t).objs c).1 := by
  rcases frame_step hp hs h with hold | ⟨op, s₁, fs, -, hop, hmem⟩ |
    ⟨ch, f, rest, hl, hstk, hmem⟩ | hstart
  · exact .inl hold
  · exact absurd hmem ((startOp_batches hop).2.2.2.2.1 c b n)
  · refine .inr ?_
    have hmove := exec_batches s t ch f
    generalize (exec s t ch f).1 = e at hmove
    generalize (exec s t ch f).2 = fs at hmove hmem
    cases hmove with
    | idle _ _ hfs | swept hfs | scanned _ hfs =>
        have := List.all_eq_true.1 hfs _ hmem
        cases this
    | push | flushed | counted => cases hmem
    | @flush o newly hfull =>
        simp only [List.mem_cons, List.not_mem_nil, or_false] at hmem
        rcases hmem with hmem | hmem | hmem
        · cases hmem
          exact ⟨ch, o, newly, rest, hl, hstk, rfl, rfl⟩
        · cases hmem
        · cases hmem
    | sweepPop | reclaim | scanPop =>
        rw [List.mem_singleton] at hmem
        cases hmem
    | keep =>
        simp only [List.mem_cons, List.not_mem_nil, or_false] at hmem
        rcases hmem with hmem | hmem <;> cases hmem
    | @scan f g e fs os hf he hfs hg =>
        rcases List.mem_append.1 hmem with hmem | hmem
        · have := List.all_eq_true.1 hfs _ hmem
          cases this
        · rw [← List.mem_singleton.1 hmem] at hg
          cases hg
  · cases hstart

theorem fresh_effect {e : Eff} {s : St} {t : Lid} {c : Color} {q : Nat} {b : List Oid}
    (h : b ∈ (e.apply s t).freshObjs c q) :
    b ∈ s.freshObjs c q ∨ ∃ q', e = .pushFresh c q' b := by
  by_cases hfree : e.batchFree = true
  · rw [(batchFree_apply hfree s t).2.2.1] at h
    exact .inl h
  · cases e with
    | pushFresh c' q' b' =>
        rcases mem_setQueue h with h | ⟨rfl, rfl, h⟩
        · exact .inl h
        · rcases List.mem_append.1 h with h | h
          · exact .inl h
          · rw [List.mem_singleton.1 h]
            exact .inr ⟨_, rfl⟩
    | popFresh c' q' =>
        rcases mem_setQueue h with h | ⟨rfl, rfl, h⟩
        · exact .inl h
        · exact .inl (List.mem_of_mem_tail h)
    | pushObj | takeBatch | pushMarked | popMarked | spawnSweep => exact .inl h
    | _ => exact absurd rfl hfree

/-- A batch comes to `fresh_objs` from the thread that filled it, from the walk of the
collector, or from a sweep. -/
theorem fresh_cases {s s' : St} {lab : Label} (hs : StepCase s lab s') {c : Color} {q : Nat}
    {b : List Oid} (h : b ∈ s'.freshObjs c q) :
    b ∈ s.freshObjs c q ∨
    (∃ t n rest, (s.locals t).stack = .ptr (.flushPush c b n) :: rest) ∨
    (∃ n nx, s.stage = .pendPush b n nx ∧ c = s.white s.collector ∧
      (s.locals s.collector).stack = []) ∨
    ∃ w ∈ s.sweepers, c = w.prevWhite.flip ∧ b = w.survived := by
  cases hs with
  | @op t op s₁ fs ht hu hstk hc hop =>
      rw [setStack_freshObjs, (startOp_batches hop).2.1] at h
      exact .inl h
  | @run t ch f rest ht hstk =>
      rw [setStack_freshObjs] at h
      refine (fresh_effect h).imp id fun ⟨q', he⟩ => .inl ?_
      have hmove := exec_batches s t ch f
      rw [he] at hmove
      generalize (exec s t ch f).2 = fs at hmove
      cases hmove with
      | idle _ hi | scan _ hi => cases hi
      | @flushed c b n q hq => exact ⟨t, n, rest, hstk⟩
  | @coll ch e st fs hstk hcoll =>
      rw [setStack_freshObjs, withStage_freshObjs] at h
      refine (fresh_effect h).imp id fun ⟨q', he⟩ => .inr (.inl ?_)
      have hmove := (collStep_moves hcoll).1
      rw [he] at hmove
      cases hmove with
      | idle _ hi => cases hi
      | @push b n q nx hst hq => exact ⟨n, nx, hst, rfl, hstk⟩
  | @sweep k ch w hw =>
      rw [withSweepers_freshObjs] at h
      refine (fresh_effect h).imp id fun ⟨q', he⟩ =>
        .inr (.inr ⟨w, List.mem_of_getElem? hw, ?_⟩)
      have hmove := sweepStep_moves s w ch
      rw [he] at hmove
      generalize (sweepStep s w ch).2 = r at hmove
      cases hmove with
      | full | last => exact ⟨rfl, rfl⟩
  | @startWorker t lo hi hz js hj hr hc =>
      rw [setStack_freshObjs, withJobs_freshObjs, (register_batches s t).1] at h
      exact .inl h
  | @register t hr hc =>
      rw [(register_batches s t).1] at h
      exact .inl h
  | @exit t ht hu hstk hg hh hc => exact .inl h

/-! ## The colour new objects have -/

/-- The colour of what is allocated, and of what is marked: white in N, black in a
trace. It changes with the store of RT only. -/
def St.newColor (s : St) : Color :=
  match s.epoch.phase with
  | .N => s.epoch.color
  | _ => s.epoch.color.flip

theorem newColor_N {s : St} (h : s.epoch.phase = .N) : s.newColor = s.epoch.color := by
  rw [St.newColor, h]

theorem newColor_trace {s : St} (h : s.epoch.phase ≠ .N) : s.newColor = s.epoch.color.flip := by
  unfold St.newColor
  split
  · next hN => exact absurd hN h
  · rfl

/-- Whoever marks, marks to the colour of new objects. -/
theorem mark_newColor {s : St} (h : Ground s) {t : Lid} {f : Frame}
    (hf : f ∈ (s.locals t).stack) (hph : f.inPhase .N = false) : s.black t = s.newColor := by
  by_cases hN : s.epoch.phase = .N
  · rw [newColor_N hN, normal_black h hN hf hph]
  · rw [newColor_trace hN, black_of_pinDone h.pin hN (h.sect.mem_phase hf hph).1]
    rfl

/-- What has the colour of new objects keeps it. -/
theorem newColor_stable {s s' : St} {lab : Label} (hwf : WellFormed s) (hs : StepCase s lab s')
    {o : Oid} (ho : o < s.nextObj) (hc : s.color o = s.newColor) : s'.color o = s.newColor := by
  rcases color_step hs o with hsame | ⟨t, cs, size, k, -, rfl, -⟩ |
    ⟨t, ch, hd, rest, -, hstk, -, hcol⟩
  · rw [hsame, hc]
  · exact absurd ho (Nat.lt_irrefl _)
  · rw [hcol]
    exact mark_newColor hwf.ground (by rw [hstk]; exact List.mem_cons_self ..) rfl

/-- Beside a trace that nobody precedes in N, everybody allocates in the colour of new
objects. -/
theorem allocColor_newColor {s : St} (hp : PinInv s) (hnp : s.epoch.phase = .N ∨ ¬ s.normalPinned)
    {t : Lid} (hd : (s.locals t).pinDone) : s.allocColor t = s.newColor := by
  by_cases hN : s.epoch.phase = .N
  · rw [newColor_N hN, normal_allocColor hp hN hd]
  · rw [newColor_trace hN, ← St.blackColor, ← black_of_pinDone hp hN hd, St.allocColor]
    split
    · next hph => exact absurd ⟨t, hd, hph⟩ (hnp.resolve_left hN)
    · rfl

/-! ## The two loops -/

/-- The walk of the collector over the white batches of the threads is past node `i`. -/
def Stage.gathered (ph : Phase) (i : Lid) : Stage → Prop
  | .pending it => it.passed i
  | .pendPush _ _ nx | .pendStat _ nx => (Iter.goto nx).passed i
  | .hps _ _ | .spawnScan _ | .joinScan | .drain | .find | .steal _ | .complete | .conf1 _
  | .conf2 _ | .conf3 _ | .nextNormal => True
  | .wait _ => ph = .CT
  | .idle | .scan | .joinSweep => False

def St.gathered (s : St) (i : Lid) : Prop := s.stage.gathered s.epoch.phase i

/-- The frames of a worker that has shard `q` ahead of it. -/
def Frame.covers (q : Nat) : Frame → Prop
  | .help (.scanPop (.worker lo hi _)) | .help (.scanObjs (.worker lo hi _) _ _) =>
      lo ≤ q ∧ q < hi
  | _ => False

/-- Shard `q` of the white batches is ahead of the root scan. -/
def St.unscanned (s : St) (q : Nat) : Prop :=
  match s.stage with
  | .joinScan => (∃ j ∈ s.jobs, j.1 ≤ q ∧ q < j.2.1) ∨
      ∃ t, ∃ f ∈ (s.locals t).stack, f.covers q
  | .drain | .find | .steal _ | .complete | .conf1 _ | .conf2 _ | .conf3 _ | .nextNormal => False
  | .wait _ => s.epoch.phase ≠ .CT
  | _ => True

theorem gathered_pins {s : St} (hp : PinInv s) {i : Lid} (h : s.gathered i) :
    s.epoch.phase ≠ .N ∧ ¬ s.normalPinned := by
  have hph := hp.phase
  have hwaited : s.waited → s.epoch.phase ≠ .N → s.epoch.phase ≠ .N ∧ ¬ s.normalPinned :=
    fun hw hN => ⟨hN, not_normalPinned_of_waited hp hw hN⟩
  unfold St.gathered at h
  cases hst : s.stage with
  | idle | scan | joinSweep =>
      rw [hst] at h
      cases h
  | wait it =>
      rw [hst] at h
      have hCT : s.epoch.phase = .CT := h
      exact ⟨by simp [hCT], not_normalPinned_of_CT hp hCT⟩
  | _ =>
      rw [hst] at hph
      exact hwaited (by rw [St.waited, hst]; rfl) (by simp_all [Stage.inPhase])

theorem shardRanges_cover {n q : Nat} (hn : 0 < n) (hq : q < objBatchesShard) :
    ∃ r ∈ shardRanges n, r.1 ≤ q ∧ q < r.2 := by
  unfold shardRanges
  by_cases hlast : q / (objBatchesShard / n) < n - 1 ∧ 0 < objBatchesShard / n
  · obtain ⟨hlt, hbase⟩ := hlast
    refine ⟨_, List.mem_map.2 ⟨q / (objBatchesShard / n), List.mem_range.2 (by omega), rfl⟩,
      Nat.div_mul_le_self q _, ?_⟩
    rw [if_neg (by omega), ← Nat.succ_mul]
    exact Nat.lt_mul_of_div_lt (Nat.lt_succ_self _) hbase
  · refine ⟨_, List.mem_map.2 ⟨n - 1, List.mem_range.2 (by omega), rfl⟩, ?_, ?_⟩
    · by_cases hbase : 0 < objBatchesShard / n
      · have hle : n - 1 ≤ q / (objBatchesShard / n) := Nat.not_lt.1 fun h => hlast ⟨h, hbase⟩
        exact (Nat.le_div_iff_mul_le hbase).1 hle
      · simp [Nat.eq_zero_of_not_pos hbase]
    · simpa using hq

/-! ## Frames of `push_obj` -/

def Frame.isFlush : Frame → Bool
  | .ptr (.flushPush _ _ _) => true
  | _ => false

def Frame.isSweep : Frame → Bool
  | .help (.sweepObjs _ _ _ _ _) => true
  | _ => false

def Frame.isKeep : Frame → Bool
  | .ptr (.pushObj _ false) => true
  | _ => false

/-- A batch is flushed on top of the stack, and an object that outlives the sweep is
put back above the loop that found it. -/
def pushOk : List Frame → Prop
  | [] => True
  | f :: fs => (∀ g ∈ fs, g.isFlush = false) ∧ (f.isKeep = true → ∃ g ∈ fs, g.isSweep = true) ∧
      pushOk fs

theorem pushOk_of_plain {fs : List Frame} (h : ∀ f ∈ fs, f.isFlush = false ∧ f.isKeep = false) :
    pushOk fs := by
  induction fs with
  | nil => trivial
  | cons f fs ih =>
      refine ⟨fun g hg => (h g (List.mem_cons_of_mem f hg)).1, fun hk => ?_,
        ih fun g hg => h g (List.mem_cons_of_mem f hg)⟩
      rw [(h f (List.mem_cons_self ..)).2] at hk
      cases hk

/-- Frames that put nothing back can come on top of anything. -/
theorem pushOk_append {fs rest : List Frame} (hrest : ∀ g ∈ rest, g.isFlush = false)
    (h : pushOk rest) (hfs : ∀ f ∈ fs, f.isFlush = false ∧ f.isKeep = false) :
    pushOk (fs ++ rest) := by
  induction fs with
  | nil => exact h
  | cons f fs ih =>
      have htail : ∀ g ∈ fs, g.isFlush = false ∧ g.isKeep = false := fun g hg =>
        hfs g (List.mem_cons_of_mem f hg)
      refine ⟨fun g hg => ?_, fun hk => ?_, ih htail⟩
      · rcases List.mem_append.1 hg with hg | hg
        · exact (htail g hg).1
        · exact hrest g hg
      · rw [(hfs f (List.mem_cons_self ..)).2] at hk
        cases hk

theorem plain_of_carries {f : Frame} (h : f.carries = false) :
    f.isFlush = false ∧ f.isKeep = false := by
  refine ⟨?_, ?_⟩
  · unfold Frame.isFlush
    split
    · cases h
    · rfl
  · unfold Frame.isKeep
    split
    · cases h
    · rfl

theorem plain_of_all {fs : List Frame} (h : fs.all (fun g => !g.carries) = true) :
    ∀ f ∈ fs, f.isFlush = false ∧ f.isKeep = false := fun f hf =>
  plain_of_carries (by simpa using List.all_eq_true.1 h f hf)

theorem pushOk_run {s : St} {t : Lid} {f : Frame} {e : Eff} {fs rest : List Frame}
    (hmove : BatchStep s t f e fs) (h : pushOk (f :: rest)) : pushOk (fs ++ rest) := by
  obtain ⟨hflush, hkeep, hrest⟩ := h
  cases hmove with
  | idle _ _ hfs | swept hfs | scanned _ hfs => exact pushOk_append hflush hrest (plain_of_all hfs)
  | push | flushed | counted => exact hrest
  | @flush o newly hfull =>
      have hlast : pushOk (.ptr (.pushObj o newly) :: rest) := ⟨hflush, hkeep, hrest⟩
      refine ⟨fun g hg => ?_, fun hk => absurd hk (by simp [Frame.isKeep]), fun g hg => ?_,
        fun hk => absurd hk (by simp [Frame.isKeep]), hlast⟩
      · rcases List.mem_cons.1 hg with rfl | hg
        · rfl
        · rcases List.mem_cons.1 hg with rfl | hg
          · rfl
          · exact hflush g hg
      · rcases List.mem_cons.1 hg with rfl | hg
        · rfl
        · exact hflush g hg
  | sweepPop | reclaim | scanPop =>
      refine pushOk_append hflush hrest fun g hg => ?_
      rw [List.mem_singleton.1 hg]
      exact ⟨rfl, rfl⟩
  | keep =>
      refine ⟨fun g hg => ?_, fun _ => ⟨_, List.mem_cons_self .., rfl⟩,
        hflush, fun hk => absurd hk (by simp [Frame.isKeep]), hrest⟩
      rcases List.mem_cons.1 hg with rfl | hg
      · rfl
      · exact hflush g hg
  | @scan f g e fs os hf he hfs hg =>
      refine pushOk_append hflush hrest fun x hx => ?_
      rcases List.mem_append.1 hx with hx | hx
      · exact plain_of_all hfs x hx
      · rw [List.mem_singleton.1 hx]
        unfold Frame.scans at hg
        split at hg
        · exact ⟨rfl, rfl⟩
        · exact ⟨rfl, rfl⟩
        · cases hg

theorem startOp_pushes {s s₁ : St} {t : Lid} {op : Op} {fs : List Frame}
    (h : startOp s t op = some (s₁, fs)) : ∀ f ∈ fs, f.isFlush = false ∧ f.isKeep = false := by
  rcases startOp_carries h with hall | ⟨cs, size, k, -, rfl⟩
  · exact plain_of_all hall
  · intro f hf
    simp only [List.mem_cons, List.not_mem_nil, or_false] at hf
    rcases hf with rfl | rfl | rfl <;> exact ⟨rfl, rfl⟩

theorem pushOk_step {s s' : St} {lab : Label} (hp : PinStr s) (hs : StepCase s lab s')
    (h : ∀ t, pushOk (s.locals t).stack) (t : Lid) : pushOk (s'.locals t).stack := by
  have hstep := stack_step hp hs t
  generalize (s'.locals t).stack = fs at hstep
  cases hstep with
  | same _ => exact h t
  | op _ _ _ hop => exact pushOk_of_plain (startOp_pushes hop)
  | @run ch f rest _ _ hst => exact pushOk_run (exec_batches s t ch f) (hst ▸ h t)
  | coll _ _ _ hcoll => exact pushOk_of_plain (plain_of_all (collStep_moves hcoll).2)
  | worker =>
      refine pushOk_of_plain fun f hf => ?_
      simp only [List.mem_cons, List.not_mem_nil, or_false] at hf
      rcases hf with rfl | rfl | rfl | rfl | rfl <;> exact ⟨rfl, rfl⟩

theorem isSweep_of_keep {fs : List Frame} (h : pushOk fs) {o : Oid}
    (hf : .ptr (.pushObj o false) ∈ fs) : ∃ g ∈ fs, g.isSweep = true := by
  induction fs with
  | nil => cases hf
  | cons f fs ih =>
      rcases List.mem_cons.1 hf with rfl | hf
      · obtain ⟨g, hg, hsw⟩ := h.2.1 rfl
        exact ⟨g, List.mem_cons_of_mem _ hg, hsw⟩
      · obtain ⟨g, hg, hsw⟩ := ih h.2.2 hf
        exact ⟨g, List.mem_cons_of_mem f hg, hsw⟩

/-- Who puts an object back is pinned in N. -/
theorem keep_phase {s : St} (hc : SectInv s) (h : ∀ t, pushOk (s.locals t).stack) {t : Lid}
    {o : Oid} (hf : .ptr (.pushObj o false) ∈ (s.locals t).stack) :
    (s.locals t).pinDone ∧ (s.locals t).epoch.phase = .N := by
  obtain ⟨g, hg, hsw⟩ := isSweep_of_keep (h t) hf
  unfold Frame.isSweep at hsw
  split at hsw
  · obtain ⟨hd, hin⟩ := hc.mem_phase hg (show Frame.inPhase _ .RT = false from rfl)
    exact ⟨hd, by simpa [Frame.inPhase] using hin⟩
  · cases hsw

theorem flush_head {fs : List Frame} (h : pushOk fs) {c : Color} {b : List Oid} {n : Nat}
    (hf : .ptr (.flushPush c b n) ∈ fs) : ∃ rest, fs = .ptr (.flushPush c b n) :: rest := by
  cases fs with
  | nil => cases hf
  | cons f fs =>
      rcases List.mem_cons.1 hf with rfl | hf
      · exact ⟨fs, rfl⟩
      · have := h.1 _ hf
        cases this

/-! ## The invariant -/

/-- What the colour of a batch says of its objects, and which batches are empty. -/
structure PlaceInv (s : St) : Prop where
  wf : WellFormed s
  stock : StockInv s
  white : s.sweepersWhite
  threads : 0 < s.collectorThreads
  pushes : ∀ t, pushOk (s.locals t).stack
  flush : ∀ {t c b n}, .ptr (.flushPush c b n) ∈ (s.locals t).stack → c = s.allocColor t
  walk : ∀ {it}, s.stage = .pending it → it.Untested
  taken : ∀ {i}, s.gathered i → ((s.locals i).objs s.epoch.color).1 = []
  scanned : s.epoch.phase ≠ .N → ∀ {q}, s.freshObjs s.epoch.color q ≠ [] → s.unscanned q
  old : s.epoch.phase = .N → (∀ i, ((s.locals i).objs s.epoch.color.flip).1 = []) ∧
    ∀ q, s.freshObjs s.epoch.color.flip q = []
  colored : ∀ {o}, s.Open s.newColor o → s.color o = s.newColor
  survived : ∀ {w o}, w ∈ s.sweepers → o ∈ w.survived → s.color o = s.newColor
  kept : s.epoch.phase = .N → ∀ {t o}, .ptr (.pushObj o false) ∈ (s.locals t).stack →
    s.color o = s.newColor
  swept : ∀ {q}, s.markedObjs s.epoch.color.flip q ≠ [] →
    s.stage = .joinSweep ∧ ∃ w ∈ s.sweepers, w.q ≤ q ∧ q < w.hi
  marked : s.epoch.phase = .N → ∀ q, s.markedObjs s.epoch.color q = []

theorem collectorThreads_step {s s' : St} {lab : Label} (hs : StepCase s lab s') :
    s'.collectorThreads = s.collectorThreads := by
  have happly : ∀ (e : Eff) (t : Lid), (e.apply s t).collectorThreads = s.collectorThreads := by
    intro e t
    cases e with
    | setLink l p => cases l <;> rfl
    | _ => rfl
  cases hs with
  | @op t op s₁ fs ht hu hstk hc hop =>
      rw [setStack_collectorThreads]
      cases op <;> simp only [startOp] at hop <;> (repeat' split at hop) <;>
        first
        | (cases hop; done)
        | (cases hop; rfl)
        | (obtain ⟨o, -, hop⟩ := Option.map_eq_some_iff.1 hop; cases hop; rfl)
  | run ht hstk => exact happly ..
  | coll hstk hcoll => exact happly ..
  | sweep hw => exact happly ..
  | @startWorker t lo hi hz js hj hr hc | @register t hr hc =>
      show (s.register t).collectorThreads = s.collectorThreads
      unfold St.register
      split <;> rfl
  | exit ht hu hstk hg hh hc => rfl

theorem PlaceInv.flush_step {s s' : St} {lab : Label} (h : PlaceInv s) (hs : StepCase s lab s')
    {t : Lid} {c : Color} {b : List Oid} {n : Nat}
    (hf : .ptr (.flushPush c b n) ∈ (s'.locals t).stack) : c = s'.allocColor t := by
  have hp := h.wf.ground.pin.str
  rcases flush_cases hp hs hf with hold | ⟨ch, o, newly, rest, rfl, hstk, hc, -⟩
  · obtain ⟨rest, hstk⟩ := flush_head (h.pushes t) hold
    by_cases hl : ∃ ch, lab = .run t ch
    · -- The head of the stack is the flush, and it is done.
      obtain ⟨ch, rfl⟩ := hl
      cases hs with
      | @run t ch f rest' ht hstk' =>
          rw [hstk] at hstk'
          cases hstk'
          rw [setStack_stack_self] at hf
          have hno := (hstk ▸ h.pushes t).1 _ hf
          cases hno
    · obtain ⟨he, -⟩ := others_step hp hs (i := t) (fun ch hl' => hl ⟨ch, hl'⟩) (by simp [hstk])
      rw [h.flush hold, allocColor_local, allocColor_local, allocColor_of_epoch he]
  · cases hs with
    | @run t ch f rest' ht hstk' =>
        rw [hstk] at hstk'
        cases hstk'
        rw [hc]
        refine (allocColor_eq ?_).symm
        rw [setStack_locals, if_pos rfl]
        exact apply_pinView (execPtr_plain s t ch _).1 s t t

theorem PlaceInv.flush_pinned {s : St} (h : PlaceInv s) {t : Lid} {c : Color} {b : List Oid}
    {n : Nat} (hf : .ptr (.flushPush c b n) ∈ (s.locals t).stack) : (s.locals t).pinDone := by
  obtain ⟨rest, hstk⟩ := flush_head (h.pushes t) hf
  exact (h.wf.ground.sect.head_phase hstk rfl rfl).1

/-- Where nobody precedes the trace in N, a batch is flushed under the colour of new
objects. -/
theorem PlaceInv.flush_newColor {s : St} (h : PlaceInv s)
    (hnp : s.epoch.phase = .N ∨ ¬ s.normalPinned) {t : Lid} {c : Color} {b : List Oid} {n : Nat}
    (hf : .ptr (.flushPush c b n) ∈ (s.locals t).stack) : c = s.newColor := by
  rw [h.flush hf]
  exact allocColor_newColor h.wf.ground.pin hnp (h.flush_pinned hf)

/-- What the walk has newly passed is past the end of the list, or has been taken. -/
theorem PlaceInv.gathered_coll {s : St} (h : PlaceInv s) {ch : Nat} {e : Eff} {st : Stage}
    {fs : List Frame} (hstk : (s.locals s.collector).stack = [])
    (hcoll : collStep s ch = some (e, st, fs)) (he : e.pinFree = true) {i : Lid}
    (hi : st.gathered s.epoch.phase i) :
    s.gathered i ∨ s.nLocals ≤ i ∨
      (((e.apply s s.collector).locals i).objs s.epoch.color).1 = [] := by
  have hg := h.wf.ground
  unfold St.gathered
  cases hst : s.stage with
  | idle | complete | nextNormal =>
      simp only [collStep, hst, Option.some.injEq, Prod.mk.injEq] at hcoll
      obtain ⟨rfl, rfl, rfl⟩ := hcoll
      cases he
  | joinSweep =>
      simp only [collStep, hst] at hcoll
      split at hcoll
      · cases hcoll
        have hN : s.epoch.phase = .N := by simpa [hst, Stage.inPhase] using hg.pin.phase
        rw [show s.epoch.phase = .CT from hi] at hN
        cases hN
      · cases hcoll
  | wait it =>
      simp only [collStep, hst, Option.some.injEq, Prod.mk.injEq] at hcoll
      obtain ⟨-, rfl, -⟩ := hcoll
      refine .inl ?_
      split at hi
      · split at hi <;> exact hi
      · unfold St.afterWait at hi
        split at hi
        · cases hi
        · next hCT => exact hCT
        · cases hi
      · exact hi
  | scan =>
      simp only [collStep, hst, Option.some.injEq, Prod.mk.injEq] at hcoll
      obtain ⟨-, rfl, -⟩ := hcoll
      rw [hg.pin.str.firstNode] at hi
      exact absurd hi (Nat.not_lt_zero i)
  | pending it =>
      have hw := h.walk hst
      obtain ⟨hcol, -⟩ := hg.white_collector hstk (by rw [hst]; rfl)
      simp only [collStep, hst] at hcoll
      cases it with
      | act j nx =>
          simp only [hcol] at hcoll
          cases hb : ((s.locals j).objs s.epoch.color).1 with
          | nil =>
              simp only [hb, Option.some.injEq, Prod.mk.injEq] at hcoll
              obtain ⟨rfl, rfl, -⟩ := hcoll
              rcases Iter.passed_goto hw hi with hold | rfl
              · exact .inl hold
              · exact .inr (.inr hb)
          | cons o b =>
              simp only [hb, Option.some.injEq, Prod.mk.injEq] at hcoll
              obtain ⟨rfl, rfl, -⟩ := hcoll
              rcases Iter.passed_goto hw hi with hold | rfl
              · exact .inl hold
              · exact .inr (.inr (by simp [Eff.apply]))
      | fin => exact .inl trivial
      | node j | test j nx =>
          simp only [Option.some.injEq, Prod.mk.injEq] at hcoll
          obtain ⟨-, rfl, -⟩ := hcoll
          rcases (iterStep_all hw).2 hi with hold | hlt
          · exact .inl hold
          · exact .inr (.inl hlt)
  | pendPush b size nx | pendStat size nx =>
      simp only [collStep, hst, Option.some.injEq, Prod.mk.injEq] at hcoll
      obtain ⟨-, rfl, -⟩ := hcoll
      exact .inl hi
  | _ => exact .inl trivial

/-- Nothing changes but the epoch and the place of the collector. -/
structure Frozen (s s' : St) : Prop where
  locals : s'.locals = s.locals
  objs : s'.objs = s.objs
  nextObj : s'.nextObj = s.nextObj
  freshObjs : s'.freshObjs = s.freshObjs
  markedObjs : s'.markedObjs = s.markedObjs

/-- The steps of a cycle: one that leaves the epoch alone, of a thread or of the
collector, or one of the three stores. -/
inductive CycleStep (s : St) (lab : Label) (s' : St) : Prop
  | other (hl : lab.isColl = false) (he : s'.epoch = s.epoch) (hst : s'.stage = s.stage)
  | coll {ch : Nat} {e : Eff} {st : Stage} {fs : List Frame} (hl : lab = .coll ch)
      (hstk : (s.locals s.collector).stack = []) (hcoll : collStep s ch = some (e, st, fs))
      (hfree : e.pinFree = true) (he : s'.epoch = s.epoch) (hst : s'.stage = st)
      (hs' : s' = ((e.apply s s.collector).withStage st).setStack s.collector fs)
  | root (hst : s.stage = .idle) (hfix : Frozen s s') (hw : s'.sweepers = s.sweepers)
      (he : s'.epoch = s.transEpoch .RT) (hst' : s'.stage = .wait s.firstNode)
  | complete (hst : s.stage = .complete) (hfix : Frozen s s') (hw : s'.sweepers = s.sweepers)
      (he : s'.epoch = s.transEpoch .CT) (hst' : s'.stage = .wait s.firstNode)
  | normal (hst : s.stage = .nextNormal) (hfix : Frozen s s')
      (hw : s'.sweepers = (shardRanges s.collectorThreads).map fun r =>
        ⟨s.epoch.color, r.1, r.2, [], [], 0⟩)
      (he : s'.epoch = s.normalEpoch) (hst' : s'.stage = .joinSweep)

theorem setStack_nil {s : St} {t : Lid} (h : (s.locals t).stack = []) :
    (s.setStack t []).locals = s.locals := by
  funext i
  rw [setStack_locals]
  split
  · next hi => rw [hi, ← h]
  · rfl

theorem cycle_step {s s' : St} {lab : Label} (hs : StepCase s lab s') : CycleStep s lab s' := by
  by_cases hl : lab.isColl = true
  · cases hs with
    | @coll ch e st fs hstk hcoll =>
        rcases (collStep_cases hcoll).2 with ⟨hst, rfl, -⟩ | ⟨hst, rfl, -⟩ | ⟨hst, -, -⟩ |
          ⟨hfree, -⟩
        · simp only [collStep, hst, Option.some.injEq, Prod.mk.injEq] at hcoll
          obtain ⟨-, rfl, rfl⟩ := hcoll
          exact .root hst ⟨setStack_nil hstk, rfl, rfl, rfl, rfl⟩ rfl rfl rfl
        · simp only [collStep, hst, Option.some.injEq, Prod.mk.injEq] at hcoll
          obtain ⟨-, rfl, rfl⟩ := hcoll
          exact .complete hst ⟨setStack_nil hstk, rfl, rfl, rfl, rfl⟩ rfl rfl rfl
        · simp only [collStep, hst, Option.some.injEq, Prod.mk.injEq] at hcoll
          obtain ⟨rfl, rfl, rfl⟩ := hcoll
          exact .normal hst ⟨setStack_nil hstk, rfl, rfl, rfl, rfl⟩ rfl rfl rfl
        · exact .coll rfl hstk hcoll hfree (apply_epoch hfree s s.collector).1 rfl rfl
    | _ => cases hl
  · have hl' : lab.isColl = false := by simpa using hl
    rcases epoch_cases hs with he | ⟨⟨ch, rfl⟩, -⟩
    · exact .other hl' he (stage_of_not_coll hs hl')
    · cases hl'

/-- Once the walk has passed a thread, its white batch stays empty. -/
theorem PlaceInv.taken_step {s s' : St} {lab : Label} (h : PlaceInv s) (hs : StepCase s lab s')
    {i : Lid} (hi : s'.gathered i) : ((s'.locals i).objs s'.epoch.color).1 = [] := by
  have hp := h.wf.ground.pin
  -- While the colour stays, a thread fills the batch of new objects only.
  have hkeep : s.gathered i → ((s'.locals i).objs s.epoch.color).1 = [] := by
    intro hgat
    rcases own_cases h.stock hs i s.epoch.color with he | he | ⟨ch, o, newly, rest, -, hstk, hc, -⟩
    · rw [he]
      exact h.taken hgat
    · exact he
    · obtain ⟨hN, hnp⟩ := gathered_pins hp hgat
      have hd := (h.wf.ground.sect.head_phase hstk rfl rfl).1
      rw [allocColor_newColor hp (.inr hnp) hd, newColor_trace hN] at hc
      exact absurd hc (Color.ne_flip _)
  cases cycle_step hs with
  | other hl he hst =>
      rw [he]
      exact hkeep (by unfold St.gathered at hi ⊢; rwa [hst, he] at hi)
  | @coll ch e st fs hl hstk hcoll hfree he hst hs' =>
      rw [he]
      have hi' : st.gathered s.epoch.phase i := by
        unfold St.gathered at hi
        rwa [hst, he] at hi
      rcases h.gathered_coll hstk hcoll hfree hi' with hgat | hlt | hnil
      · exact hkeep hgat
      · rw [hs', own_setStack, withStage_locals]
        rcases own_effect e s s.collector i s.epoch.color with hsame | hnil | ⟨o, newly, heff, -⟩
        · rw [hsame, h.stock.beyond i hlt]
        · rw [hnil]
        · subst heff
          cases (collStep_moves hcoll).1 with
          | idle _ hid => cases hid
      · rw [hs', own_setStack, withStage_locals]
        exact hnil
  | root hst hfix hw he hst' =>
      unfold St.gathered at hi
      rw [hst', he] at hi
      cases hi
  | complete hst hfix hw he hst' =>
      rw [he]
      exact hkeep (by rw [St.gathered, hst]; trivial)
  | normal hst hfix hw he hst' =>
      unfold St.gathered at hi
      rw [hst'] at hi
      cases hi

theorem PlaceInv.walk_step {s s' : St} {lab : Label} (h : PlaceInv s) (hs : StepCase s lab s')
    {it : Iter} (hit : s'.stage = .pending it) : it.Untested := by
  have hp := h.wf.ground.pin
  cases cycle_step hs with
  | other hl he hst => exact h.walk (hst ▸ hit)
  | @coll ch e st fs hl hstk hcoll hfree he hst hs' =>
      rw [hst] at hit
      subst hit
      cases hst : s.stage with
      | pending it₀ =>
          have hw := h.walk hst
          simp only [collStep, hst] at hcoll
          cases it₀ with
          | act j nx =>
              simp only at hcoll
              split at hcoll
              · simp only [Option.some.injEq, Prod.mk.injEq, Stage.pending.injEq] at hcoll
                rw [← hcoll.2.1]
                exact Iter.untested_goto nx
              · simp at hcoll
          | fin => simp at hcoll
          | node j | test j nx =>
              simp only [Option.some.injEq, Prod.mk.injEq, Stage.pending.injEq] at hcoll
              rw [← hcoll.2.1]
              exact (iterStep_all hw).1
      | scan =>
          simp only [collStep, hst, Option.some.injEq, Prod.mk.injEq, Stage.pending.injEq] at hcoll
          rw [← hcoll.2.1, hp.str.firstNode]
          trivial
      | pendStat size nx =>
          simp only [collStep, hst, Option.some.injEq, Prod.mk.injEq, Stage.pending.injEq] at hcoll
          rw [← hcoll.2.1]
          exact Iter.untested_goto nx
      | _ =>
          simp only [collStep, hst, St.afterWait] at hcoll
          repeat' split at hcoll
          all_goals simp_all
  | root hst hfix hw he hst' | complete hst hfix hw he hst' | normal hst hfix hw he hst' =>
      rw [hst'] at hit
      cases hit

theorem isWorker_of_covers {f : Frame} {q : Nat} (h : f.covers q) : f.isWorker = true := by
  unfold Frame.covers at h
  split at h
  · rfl
  · rfl
  · cases h

/-- A worker leaves a shard behind when it has found it empty. -/
theorem exec_covers {s : St} {t : Lid} (ch : Nat) {f : Frame} {q : Nat} (hc : f.covers q)
    (hne : s.freshObjs (s.white t) q ≠ []) : ∃ g ∈ (exec s t ch f).2, g.covers q := by
  unfold Frame.covers at hc
  split at hc
  · next lo hi hz =>
      obtain ⟨hlo, hhi⟩ := hc
      simp only [exec, execHelp, if_pos (Nat.lt_of_le_of_lt hlo hhi)]
      split
      · next hnil =>
          have hlt : lo ≠ q := by
            rintro rfl
            exact hne hnil
          exact ⟨_, List.mem_singleton.2 rfl, by omega, hhi⟩
      · exact ⟨_, List.mem_singleton.2 rfl, hlo, hhi⟩
  · next lo hi hz done todo =>
      cases todo with
      | nil => exact ⟨_, List.mem_singleton.2 rfl, hc⟩
      | cons o rest =>
          simp only [exec, execHelp, scanObj, scanHazard]
          repeat' split
          all_goals exact ⟨.help (.scanObjs (.worker lo hi hz) (done ++ [o]) rest), by simp, hc⟩
  · cases hc

theorem covers_step {s s' : St} {lab : Label} (hg : Ground s) (hs : StepCase s lab s') {t : Lid}
    {f : Frame} {q : Nat} (hf : f ∈ (s.locals t).stack) (hc : f.covers q)
    (hne : s.freshObjs s.epoch.color q ≠ []) : ∃ g ∈ (s'.locals t).stack, g.covers q := by
  rcases frame_keep hg.pin.str hs hf with hf | ⟨ch, rest, -, hstk, -, hnew⟩
  · exact ⟨f, hf, hc⟩
  · -- A worker runs while the collector waits for it, so it is pinned in RT.
    obtain ⟨x, hx, hxe⟩ := hg.sect.worker t f hf (isWorker_of_covers hc)
    have hj := hg.sect.exit t x hx hxe
    have hguard : f.pinning = false ∧ f.guarded = true := by
      unfold Frame.covers at hc
      split at hc
      · exact ⟨rfl, rfl⟩
      · exact ⟨rfl, rfl⟩
      · cases hc
    have hd := (hg.sect.head_phase hstk hguard.1 hguard.2).1
    have hwhite : s.white t = s.epoch.color := by
      rw [St.white, hg.pin.epoch_of_waited (by rw [St.waited, hj]; rfl) hd]
      rfl
    obtain ⟨g, hg', hgc⟩ := exec_covers ch hc (hwhite ▸ hne)
    exact ⟨g, hnew g hg', hgc⟩

/-- A worker that starts takes over the shards of its job. -/
theorem jobs_step {s s' : St} {lab : Label} (hs : StepCase s lab s') (hl : lab.isColl = false)
    {j : Nat × Nat × List Oid} (hj : j ∈ s.jobs) :
    j ∈ s'.jobs ∨ ∃ t, .help (.scanPop (.worker j.1 j.2.1 j.2.2)) ∈ (s'.locals t).stack := by
  have happly : ∀ (e : Eff) (t : Lid), (∀ js, e ≠ .spawn js) → (e.apply s t).jobs = s.jobs := by
    intro e t he
    cases e with
    | setLink l p => cases l <;> rfl
    | spawn js => exact absurd rfl (he js)
    | _ => rfl
  have hexec : ∀ (t : Lid) (ch : Nat) (f : Frame) js, (exec s t ch f).1 ≠ .spawn js := by
    intro t ch f js
    cases f with
    | pin f => cases f <;> simp only [exec, execPin] <;> (repeat' split) <;> simp
    | ptr f => cases f <;> simp only [exec, execPtr] <;> (repeat' split) <;> simp
    | mark f => cases f <;> simp only [exec, execMark] <;> (repeat' split) <;> simp
    | help f => cases f <;> simp only [exec, execHelp] <;> (repeat' split) <;> simp
  cases hs with
  | @op t op s₁ fs ht hu hstk hc hop =>
      refine .inl ?_
      rw [setStack_jobs]
      have : s₁.jobs = s.jobs := by
        cases op <;> simp only [startOp] at hop <;> (repeat' split at hop) <;>
          first
          | (cases hop; done)
          | (cases hop; rfl)
          | (obtain ⟨o, -, hop⟩ := Option.map_eq_some_iff.1 hop; cases hop; rfl)
      rwa [this]
  | @run t ch f rest ht hstk =>
      refine .inl ?_
      rw [setStack_jobs, happly _ t (hexec t ch f)]
      exact hj
  | coll hstk hcoll => cases hl
  | @sweep k ch w hw =>
      refine .inl ?_
      rw [withSweepers_jobs, happly]
      · exact hj
      · intro js
        unfold sweepStep
        repeat' split
        all_goals simp
  | @startWorker t lo hi hz js hjobs hr hc =>
      rw [hjobs] at hj
      rcases List.mem_cons.1 hj with rfl | hj
      · refine .inr ⟨t, ?_⟩
        rw [setStack_stack_self]
        simp
      · exact .inl hj
  | @register t hr hc =>
      refine .inl ?_
      unfold St.register
      split <;> exact hj
  | exit ht hu hstk hg hh hc => exact .inl hj

/-- The stages behind the root scan. -/
def Stage.behind : Stage → Bool
  | .drain | .find | .steal _ | .complete | .conf1 _ | .conf2 _ | .conf3 _ | .nextNormal => true
  | _ => false

theorem behind_phase {st : Stage} {ph : Phase} (h : st.behind = true)
    (hph : st.inPhase ph = true) : ph ≠ .N := by
  rintro rfl
  cases st <;> first
    | (cases h; done)
    | simp [Stage.inPhase] at hph

theorem behind_gathered {st : Stage} (h : st.behind = true) (ph : Phase) (i : Lid) :
    st.gathered ph i := by
  cases st <;> trivial

theorem not_unscanned {s : St} (h : s.stage.behind = true) (q : Nat) : ¬ s.unscanned q := by
  unfold St.unscanned
  cases hst : s.stage <;> rw [hst] at h <;> first
    | (cases h; done)
    | exact id

/-- The collector gets behind the root scan when its workers have returned. -/
theorem collStep_behind {s : St} {ch : Nat} {e : Eff} {st : Stage} {fs : List Frame}
    (h : collStep s ch = some (e, st, fs)) (hst : st.behind = true) :
    s.stage.behind = true ∨ (s.stage = .joinScan ∧ s.jobs = [] ∧ s.workersDone) ∨
    ((∃ it, s.stage = .wait it) ∧ s.epoch.phase = .CT) := by
  cases hstage : s.stage with
  | joinScan =>
      simp only [collStep, hstage] at h
      split at h
      · next hd => exact .inr (.inl ⟨rfl, hd⟩)
      · cases h
  | wait it =>
      simp only [collStep, hstage, Option.some.injEq, Prod.mk.injEq] at h
      obtain ⟨-, rfl, -⟩ := h
      refine .inr (.inr ⟨⟨it, rfl⟩, ?_⟩)
      split at hst
      · split at hst <;> cases hst
      · unfold St.afterWait at hst
        split at hst
        · cases hst
        · next hCT => exact hCT
        · cases hst
      · cases hst
  | drain | find | steal _ | complete | conf1 _ | conf2 _ | conf3 _ | nextNormal => exact .inl rfl
  | _ =>
      simp only [collStep, hstage] at h
      repeat' split at h
      all_goals first
        | (cases h; done)
        | (cases h; cases hst)

/-- What is not scanned in a stage behind the walk. -/
theorem PlaceInv.fresh_behind {s : St} (h : PlaceInv s) (hb : s.stage.behind = true ∨
    ((∃ it, s.stage = .wait it) ∧ s.epoch.phase = .CT)) (q : Nat) :
    s.freshObjs s.epoch.color q = [] := by
  by_contra hne
  have hN : s.epoch.phase ≠ .N := by
    rcases hb with hb | ⟨-, hCT⟩
    · exact behind_phase hb h.wf.ground.pin.phase
    · simp [hCT]
  have hun := h.scanned hN hne
  rcases hb with hb | ⟨⟨it, hst⟩, hCT⟩
  · exact not_unscanned hb q hun
  · rw [St.unscanned, hst] at hun
    exact hun hCT

/-- White batches that are left in a shard are ahead of the root scan. -/
theorem PlaceInv.scanned_step {s s' : St} {lab : Label} (h : PlaceInv s) (hst' : StockInv s')
    (hs : StepCase s lab s') (hN : s'.epoch.phase ≠ .N) {q : Nat}
    (hne : s'.freshObjs s'.epoch.color q ≠ []) : s'.unscanned q := by
  have hg := h.wf.ground
  have hp := hg.pin
  -- Behind the walk of the collector nothing white is added to the shards.
  have hold : (∀ i, s.gathered i) → s'.epoch.color = s.epoch.color → (∀ b n nx,
      s.stage ≠ .pendPush b n nx) → s.freshObjs s.epoch.color q ≠ [] := by
    intro hgat hc hpend
    obtain ⟨hN₀, hnp⟩ := gathered_pins hp (hgat 0)
    obtain ⟨b, hb⟩ := List.exists_mem_of_ne_nil _ hne
    rw [hc] at hb
    rcases fresh_cases hs hb with hb | ⟨t, n, rest, hstk⟩ | ⟨n, nx, hst, -⟩ | ⟨w, hw, -⟩
    · exact List.ne_nil_of_mem hb
    · have hcol := h.flush_newColor (.inr hnp) (t := t) (by rw [hstk]; exact List.mem_cons_self ..)
      rw [newColor_trace hN₀] at hcol
      exact absurd hcol (Color.ne_flip _)
    · exact absurd hst (hpend b n nx)
    · have hj := h.stock.sweepers (List.ne_nil_of_mem hw)
      have hph := hp.phase
      rw [hj] at hph
      exact absurd (by simpa [Stage.inPhase] using hph) hN₀
  -- Behind the root scan nothing is left.
  have hbehind : s'.epoch.color = s.epoch.color → ¬ (s.stage.behind = true ∨
      ((∃ it, s.stage = .wait it) ∧ s.epoch.phase = .CT)) := by
    intro hc hb
    refine hold (fun i => ?_) hc (fun b n nx hst => ?_) (h.fresh_behind hb q)
    · rw [St.gathered]
      rcases hb with hb | ⟨⟨it, hst⟩, hCT⟩
      · exact behind_gathered hb _ i
      · rw [hst]
        exact hCT
    · rcases hb with hb | ⟨⟨it, hst'⟩, -⟩
      · rw [hst] at hb
        cases hb
      · rw [hst] at hst'
        cases hst'
  have hjoin : s'.epoch = s.epoch → s.stage = .joinScan → (∃ j ∈ s.jobs, j.1 ≤ q ∧ q < j.2.1) ∨
      ∃ t, ∃ f ∈ (s.locals t).stack, f.covers q := by
    intro he hst
    have hun := h.scanned (he ▸ hN) (hold (fun i => by rw [St.gathered, hst]; trivial) (by rw [he])
      (by simp [hst]))
    rwa [St.unscanned, hst] at hun
  cases cycle_step hs with
  | other hl he hst =>
      unfold St.unscanned
      rw [hst]
      cases hstage : s.stage with
      | joinScan =>
          have hne₀ := hold (fun i => by rw [St.gathered, hstage]; trivial) (by rw [he])
            (by simp [hstage])
          rcases hjoin he hstage with ⟨j, hj, hq⟩ | ⟨t, f, hf, hc⟩
          · rcases jobs_step hs hl hj with hj | ⟨t, hf⟩
            · exact .inl ⟨j, hj, hq⟩
            · exact .inr ⟨t, _, hf, hq⟩
          · exact .inr ⟨t, covers_step hg hs hf hc hne₀⟩
      | wait it =>
          intro hCT
          rw [he] at hCT
          exact hbehind (by rw [he]) (.inr ⟨⟨it, hstage⟩, hCT⟩)
      | drain | find | steal it | complete | conf1 it | conf2 it | conf3 it | nextNormal =>
          exact hbehind (by rw [he]) (.inl (by rw [hstage]; rfl))
      | _ => trivial
  | @coll ch e st fs hl hstk hcoll hfree he hst hs' =>
      have hdone : st.behind = true → False := by
        intro hb
        rcases collStep_behind hcoll hb with hb | ⟨hjs, hnil, hd⟩ | hwait
        · exact hbehind (by rw [he]) (.inl hb)
        · rcases hjoin he hjs with ⟨j, hj, -⟩ | ⟨t, f, hf, hc⟩
          · rw [hnil] at hj
            cases hj
          · obtain ⟨x, hx, hxe⟩ := hg.sect.worker t f hf (isWorker_of_covers hc)
            have hlt : t < s.nLocals := Nat.lt_of_not_le fun hle => by
              rw [((hp.str.node t).unused (hp.str.beyond t hle)).2] at hx
              cases hx
            rw [hd t hlt x hx] at hxe
            cases hxe
        · exact hbehind (by rw [he]) (.inr hwait)
      unfold St.unscanned
      rw [hst]
      cases st with
      | joinScan =>
          have hspawn : ∃ hs, s.stage = .spawnScan hs := by
            cases hstage : s.stage with
            | spawnScan hs => exact ⟨hs, rfl⟩
            | _ =>
                simp only [collStep, hstage, St.afterWait] at hcoll
                repeat' split at hcoll
                all_goals simp_all
          obtain ⟨hz, hstage⟩ := hspawn
          simp only [collStep, hstage, Option.some.injEq, Prod.mk.injEq] at hcoll
          obtain ⟨rfl, -, rfl⟩ := hcoll
          have hq : q < objBatchesShard := Nat.lt_of_not_le fun hle => hne (hst'.fresh _ q hle)
          obtain ⟨r, hr, hlo, hhi⟩ := shardRanges_cover h.threads hq
          refine .inl ⟨(r.1, r.2, hz), ?_, hlo, hhi⟩
          rw [hs']
          exact List.mem_map.2 ⟨r, hr, rfl⟩
      | wait it =>
          intro hCT
          rw [he] at hCT
          have hwait : ∃ it, s.stage = .wait it := by
            have hph := hp.phase
            cases hstage : s.stage with
            | wait it => exact ⟨it, rfl⟩
            | joinSweep =>
                rw [hstage] at hph
                rw [show s.epoch.phase = .N by simpa [Stage.inPhase] using hph] at hCT
                cases hCT
            | idle | complete =>
                simp only [collStep, hstage, Option.some.injEq, Prod.mk.injEq] at hcoll
                obtain ⟨rfl, -, -⟩ := hcoll
                cases hfree
            | _ =>
                simp only [collStep, hstage] at hcoll
                repeat' split at hcoll
                all_goals simp_all
          exact hbehind (by rw [he]) (.inr ⟨hwait, hCT⟩)
      | drain | find | steal it | complete | conf1 it | conf2 it | conf3 it | nextNormal =>
          exact hdone rfl
      | _ => trivial
  | root hst hfix hw he hst' =>
      unfold St.unscanned
      rw [hst', he]
      simp [St.transEpoch, Epoch.withPhase]
  | complete hst hfix hw he hst' => exact (hbehind (by rw [he]; rfl) (.inl (by rw [hst]; rfl))).elim
  | normal hst hfix hw he hst' =>
      rw [he] at hN
      exact absurd rfl hN

/-! ## The fields, step by step -/

theorem sweepers_phase {s : St} (h : PlaceInv s) {w : Sweeper} (hw : w ∈ s.sweepers) :
    s.epoch.phase = .N := by
  have hph := h.wf.ground.pin.phase
  rw [h.stock.sweepers (List.ne_nil_of_mem hw)] at hph
  simpa [Stage.inPhase] using hph

/-- In N nothing is filed under the dead colour. -/
theorem PlaceInv.old_step {s s' : St} {lab : Label} (h : PlaceInv s) (hs : StepCase s lab s')
    (hN' : s'.epoch.phase = .N) :
    (∀ i, ((s'.locals i).objs s'.epoch.color.flip).1 = []) ∧
      ∀ q, s'.freshObjs s'.epoch.color.flip q = [] := by
  have hg := h.wf.ground
  have hsame : s'.epoch = s.epoch → s.epoch.phase = .N →
      (∀ i, ((s'.locals i).objs s.epoch.color.flip).1 = []) ∧
        ∀ q, s'.freshObjs s.epoch.color.flip q = [] := by
    intro he hN
    obtain ⟨hown, hfresh⟩ := h.old hN
    refine ⟨fun i => ?_, fun q => ?_⟩
    · rcases own_cases h.stock hs i s.epoch.color.flip with heq | heq |
        ⟨ch, o, newly, rest, -, hstk, hc, -⟩
      · rw [heq, hown i]
      · exact heq
      · have hd := (hg.sect.head_phase hstk rfl rfl).1
        rw [normal_allocColor hg.pin hN hd] at hc
        exact absurd hc (Color.flip_ne _)
    · by_contra hne
      obtain ⟨b, hb⟩ := List.exists_mem_of_ne_nil _ hne
      rcases fresh_cases hs hb with hb | ⟨t, n, rest, hstk⟩ | ⟨n, nx, hst, -⟩ | ⟨w, hw, hc, -⟩
      · rw [hfresh q] at hb
        cases hb
      · have hc := h.flush_newColor (.inl hN) (t := t) (by rw [hstk]; exact List.mem_cons_self ..)
        rw [newColor_N hN] at hc
        exact absurd hc (Color.flip_ne _)
      · have hph := hg.pin.phase
        rw [hst, hN] at hph
        cases hph
      · rw [h.white w hw, Color.flip_flip] at hc
        exact absurd hc (Color.flip_ne _)
  cases cycle_step hs with
  | other hl he hst =>
      rw [he]
      exact hsame he (he ▸ hN')
  | coll hl hstk hcoll hfree he hst hs' =>
      rw [he]
      exact hsame he (he ▸ hN')
  | root hst hfix hw he hst' | complete hst hfix hw he hst' =>
      rw [he] at hN'
      cases hN'
  | normal hst hfix hw he hst' =>
      have hc : s'.epoch.color.flip = s.epoch.color := by
        rw [he]
        exact Color.flip_flip _
      rw [hc, hfix.locals, hfix.freshObjs]
      exact ⟨fun i => h.taken (by rw [St.gathered, hst]; trivial),
        h.fresh_behind (.inl (by rw [hst]; rfl))⟩

/-- What is put into a batch has the colour of new objects, where the batch has. -/
theorem PlaceInv.push_color {s : St} (h : PlaceInv s) {t : Lid} {o : Oid} {newly : Bool}
    {rest : List Frame} (hstk : (s.locals t).stack = .ptr (.pushObj o newly) :: rest)
    (hc : s.allocColor t = s.newColor) : s.color o = s.newColor := by
  have hf : .ptr (.pushObj o newly) ∈ (s.locals t).stack := by
    rw [hstk]
    exact List.mem_cons_self ..
  cases newly with
  | true => rw [h.wf.alloc.color hf rfl, hc]
  | false =>
      obtain ⟨hd, hph⟩ := keep_phase h.wf.ground.sect h.pushes hf
      by_cases hN : s.epoch.phase = .N
      · exact h.kept hN hf
      · -- Only a helper in N puts something back, and under the white of its N.
        obtain ⟨hwhite, -⟩ := pinned_white h.wf.ground.pin hd (by rw [hph]; decide)
        rw [St.allocColor, hph, newColor_trace hN] at hc
        exact absurd (hwhite.symm.trans hc) (Color.ne_flip _)

theorem PlaceInv.colored_step {s s' : St} {lab : Label} (h : PlaceInv s) (hs : StepCase s lab s')
    {o : Oid} (ho : s'.Open s'.newColor o) : s'.color o = s'.newColor := by
  have hg := h.wf.ground
  have hstable : s'.newColor = s.newColor → o < s.nextObj → s.color o = s.newColor →
      s'.color o = s'.newColor := by
    intro hc hlt hcol
    rw [hc]
    exact newColor_stable h.wf hs hlt hcol
  have hopen : s'.newColor = s.newColor → s.Open s.newColor o → s'.color o = s'.newColor :=
    fun hc hop => hstable hc (h.wf.alloc.openLt hop) (h.colored hop)
  have hsame : s'.epoch = s.epoch → s'.color o = s'.newColor := by
    intro he
    have hc : s'.newColor = s.newColor := by rw [St.newColor, St.newColor, he]
    rw [hc] at ho
    cases ho with
    | @own i hmem =>
        rcases own_cases h.stock hs i s.newColor with heq | heq |
          ⟨ch, p, newly, rest, -, hstk, hcol, heq⟩
        · exact hopen hc (.own (heq ▸ hmem))
        · rw [heq] at hmem
          cases hmem
        · rw [heq] at hmem
          rcases List.mem_append.1 hmem with hmem | hmem
          · exact hopen hc (.own hmem)
          · rw [List.mem_singleton.1 hmem] at hstable ⊢
            exact hstable hc (h.wf.pushing_lt (by rw [hstk]; exact List.mem_cons_self ..))
              (h.push_color hstk hcol.symm)
    | @flush t b n hf hmem =>
        rcases flush_cases hg.pin.str hs hf with hf | ⟨ch, p, newly, rest, -, -, -, hb⟩
        · exact hopen hc (.flush hf hmem)
        · exact hopen hc (.own (hb ▸ hmem))
    | @fresh q b hb hmem =>
        rcases fresh_cases hs hb with hb | ⟨t, n, rest, hstk⟩ | ⟨n, nx, hst, hcol, hstk⟩ |
          ⟨w, hw, -, rfl⟩
        · exact hopen hc (.fresh hb hmem)
        · exact hopen hc (.flush (by rw [hstk]; exact List.mem_cons_self ..) hmem)
        · obtain ⟨hwhite, hN⟩ := hg.white_collector hstk (by rw [hst]; rfl)
          rw [hwhite, newColor_trace hN] at hcol
          exact absurd hcol (Color.flip_ne _)
        · exact hstable hc (h.wf.alloc.takenLt (.sweeper hw (.inr hmem))) (h.survived hw hmem)
  have hfrozen : Frozen s s' → s'.newColor = s.newColor → s'.color o = s'.newColor := by
    intro hfix hc
    rw [hc] at ho
    refine hopen hc ?_
    cases ho with
    | own hmem => exact .own (hfix.locals ▸ hmem)
    | flush hf hmem => exact .flush (hfix.locals ▸ hf) hmem
    | fresh hb hmem => exact .fresh (hfix.freshObjs ▸ hb) hmem
  cases cycle_step hs with
  | other hl he hst => exact hsame he
  | coll hl hstk hcoll hfree he hst hs' => exact hsame he
  | root hst hfix hw he hst' =>
      -- Nothing is filed under the new colour yet.
      have hN : s.epoch.phase = .N := by simpa [hst, Stage.inPhase] using hg.pin.phase
      obtain ⟨hown, hfresh⟩ := h.old hN
      have hc : s'.newColor = s.epoch.color.flip := by
        rw [newColor_trace (by rw [he]; simp [St.transEpoch, Epoch.withPhase]), he]
        rfl
      rw [hc] at ho
      cases ho with
      | @own i hmem =>
          rw [hfix.locals, hown i] at hmem
          cases hmem
      | flush hf hmem =>
          rw [hfix.locals] at hf
          have hcol := h.flush_newColor (.inl hN) hf
          rw [newColor_N hN] at hcol
          exact absurd hcol (Color.flip_ne _)
      | @fresh q b hb hmem =>
          rw [hfix.freshObjs, hfresh q] at hb
          cases hb
  | complete hst hfix hw he hst' =>
      refine hfrozen hfix ?_
      have hN := behind_phase (by rw [hst]; rfl) hg.pin.phase
      rw [newColor_trace hN, newColor_trace (by rw [he]; simp [St.transEpoch, Epoch.withPhase]), he]
      rfl
  | normal hst hfix hw he hst' =>
      refine hfrozen hfix ?_
      have hN := behind_phase (by rw [hst]; rfl) hg.pin.phase
      rw [newColor_trace hN, newColor_N (by rw [he]; rfl), he]
      rfl

/-- The workers of a sweep come with the N epoch and move by their own steps. -/
theorem sweepers_cases {s s' : St} {lab : Label} (hst : StockInv s) (hs : StepCase s lab s')
    {w : Sweeper} (h : w ∈ s'.sweepers) :
    w ∈ s.sweepers ∨ (s.stage = .nextNormal ∧ w.survived = []) ∨
    ∃ k ch w₀, lab = .sweep k ch ∧ s.sweepers[k]? = some w₀ ∧ (sweepStep s w₀ ch).2 = some w := by
  cases hs with
  | @op t op s₁ fs ht hu hstk hc hop =>
      rw [setStack_sweepers, (startOp_batches hop).2.2.2.1] at h
      exact .inl h
  | @run t ch f rest ht hstk =>
      rw [setStack_sweepers, sweepers_apply (hst.run_fits ht (exec_batches s t ch f))] at h
      exact .inl h
  | @coll ch e st fs hstk hcoll =>
      rcases hst.coll_fits (collStep_moves hcoll).1 with hfit | hnext
      · rw [setStack_sweepers, withStage_sweepers, sweepers_apply hfit] at h
        exact .inl h
      · refine .inr (.inl ⟨hnext, ?_⟩)
        simp only [collStep, hnext, Option.some.injEq, Prod.mk.injEq] at hcoll
        obtain ⟨rfl, rfl, rfl⟩ := hcoll
        have hmem : w ∈ (shardRanges s.collectorThreads).map fun r =>
            (⟨s.epoch.color, r.1, r.2, [], [], 0⟩ : Sweeper) := h
        obtain ⟨r, -, rfl⟩ := List.mem_map.1 hmem
        rfl
  | @sweep k ch w₀ hw =>
      have hmem : w ∈ nextSweepers s.sweepers k (sweepStep s w₀ ch).2 := by
        cases hr : (sweepStep s w₀ ch).2 <;> rw [hr] at h <;> exact h
      rcases mem_nextSweepers hmem with hold | hnew
      · exact .inl hold
      · exact .inr (.inr ⟨k, ch, w₀, rfl, hw, hnew⟩)
  | @startWorker t lo hi hz js hj hr hc =>
      have h' : w ∈ (s.register t).sweepers := h
      rw [(register_batches s t).2.2] at h'
      exact .inl h'
  | @register t hr hc =>
      rw [(register_batches s t).2.2] at h
      exact .inl h
  | @exit t ht hu hstk hg hh hc => exact .inl h

theorem PlaceInv.survived_step {s s' : St} {lab : Label} (h : PlaceInv s)
    (h' : StockInv s') (hs : StepCase s lab s') {w : Sweeper} {o : Oid} (hw : w ∈ s'.sweepers)
    (ho : o ∈ w.survived) : s'.color o = s'.newColor := by
  have hst' := h'.sweepers (List.ne_nil_of_mem hw)
  have hsame : s'.epoch = s.epoch → s'.color o = s'.newColor := by
    intro he
    have hstable : ∀ w₀ ∈ s.sweepers, (o ∈ w₀.todo ∨ o ∈ w₀.survived) → s.color o = s.newColor →
        s'.color o = s'.newColor := by
      intro w₀ hw₀ hmem hcol
      rw [show s'.newColor = s.newColor by rw [St.newColor, St.newColor, he]]
      exact newColor_stable h.wf hs (h.wf.alloc.takenLt (.sweeper hw₀ hmem)) hcol
    rcases sweepers_cases h.stock hs hw with hold | ⟨-, hnil⟩ | ⟨k, ch, w₀, -, hk, hstep⟩
    · exact hstable w hold (.inr ho) (h.survived hold ho)
    · rw [hnil] at ho
      cases ho
    · have hw₀ := List.mem_of_getElem? hk
      have hkeep : ∀ {p rest}, w₀.todo = p :: rest → s.color p ≠ w₀.prevWhite →
          s.color p = s.newColor := by
        intro p rest _ hne
        rw [h.white w₀ hw₀] at hne
        rw [newColor_N (sweepers_phase h hw₀), Color.eq_flip_of_ne hne, Color.flip_flip]
      have hmove := sweepStep_moves s w₀ ch
      rw [hstep] at hmove
      generalize (sweepStep s w₀ ch).1 = e at hmove
      cases hmove with
      | reclaim | pop | next => exact hstable w₀ hw₀ (.inr ho) (h.survived hw₀ ho)
      | last => cases ho
      | @keep p rest ht hc hroom =>
          rcases List.mem_append.1 ho with ho | ho
          · exact hstable w₀ hw₀ (.inr ho) (h.survived hw₀ ho)
          · rw [List.mem_singleton.1 ho] at hstable ⊢
            exact hstable w₀ hw₀ (.inl (by rw [ht]; exact List.mem_cons_self ..)) (hkeep ht hc)
      | @full p rest q ht hc hfull hq =>
          rw [List.mem_singleton.1 ho] at hstable ⊢
          exact hstable w₀ hw₀ (.inl (by rw [ht]; exact List.mem_cons_self ..)) (hkeep ht hc)
  cases cycle_step hs with
  | other hl he hst => exact hsame he
  | coll hl hstk hcoll hfree he hst hs' => exact hsame he
  | root hst hfix hws he hst'' | complete hst hfix hws he hst'' =>
      rw [hst''] at hst'
      cases hst'
  | normal hst hfix hws he hst'' =>
      rw [hws] at hw
      obtain ⟨r, -, rfl⟩ := List.mem_map.1 hw
      cases ho

theorem PlaceInv.kept_step {s s' : St} {lab : Label} (h : PlaceInv s) (hs : StepCase s lab s')
    (hN' : s'.epoch.phase = .N) {t : Lid} {o : Oid}
    (hf : .ptr (.pushObj o false) ∈ (s'.locals t).stack) : s'.color o = s'.newColor := by
  have hg := h.wf.ground
  have hsame : s'.epoch = s.epoch → s'.color o = s'.newColor := by
    intro he
    have hN : s.epoch.phase = .N := he ▸ hN'
    have hstable : o < s.nextObj → s.color o = s.newColor → s'.color o = s'.newColor := by
      intro hlt hcol
      rw [show s'.newColor = s.newColor by rw [St.newColor, St.newColor, he]]
      exact newColor_stable h.wf hs hlt hcol
    have hold : .ptr (.pushObj o false) ∈ (s.locals t).stack → s'.color o = s'.newColor :=
      fun hf => hstable (h.wf.pushing_lt hf) (h.kept hN hf)
    rcases frame_step hg.pin.str hs hf with hf | ⟨op, s₁, fs, -, hop, hf⟩ |
      ⟨ch, f, rest, -, hstk, hf⟩ | hf
    · exact hold hf
    · have := (startOp_pushes hop _ hf).2
      cases this
    · have hhead : f ∈ (s.locals t).stack := by
        rw [hstk]
        exact List.mem_cons_self ..
      have hmove := exec_batches s t ch f
      generalize (exec s t ch f).1 = e at hmove
      generalize (exec s t ch f).2 = fs at hmove hf
      cases hmove with
      | idle _ _ hfs | swept hfs | scanned _ hfs =>
          have := (plain_of_all hfs _ hf).2
          cases this
      | push | flushed | counted => cases hf
      | @flush p newly hfull =>
          simp only [List.mem_cons, List.not_mem_nil, or_false] at hf
          rcases hf with hf | hf | hf
          · cases hf
          · cases hf
          · cases hf
            exact hold hhead
      | sweepPop | reclaim | scanPop =>
          rw [List.mem_singleton] at hf
          cases hf
      | @keep p rest bytes q qs k hc =>
          simp only [List.mem_cons, List.not_mem_nil, or_false] at hf
          rcases hf with hf | hf
          · cases hf
            obtain ⟨hd, hin⟩ := hg.sect.head_phase hstk rfl rfl
            have hph : (s.locals t).epoch.phase = .N := by simpa [Frame.inPhase] using hin
            obtain ⟨hwhite, -⟩ := pinned_white hg.pin hd (by rw [hph]; decide)
            rw [St.black, hwhite] at hc
            refine hstable (h.wf.alloc.takenLt (.frame hhead (List.mem_cons_self ..))) ?_
            rw [newColor_N hN, Color.eq_flip_of_ne hc, Color.flip_flip]
          · cases hf
      | @scan f g e fs os hfs he hall hgs =>
          rcases List.mem_append.1 hf with hf | hf
          · have := (plain_of_all hall _ hf).2
            cases this
          · rw [← List.mem_singleton.1 hf] at hgs
            cases hgs
    · cases hf
  cases cycle_step hs with
  | other hl he hst => exact hsame he
  | coll hl hstk hcoll hfree he hst hs' => exact hsame he
  | root hst hfix hws he hst' | complete hst hfix hws he hst' =>
      rw [he] at hN'
      cases hN'
  | normal hst hfix hws he hst' =>
      -- Nobody is pinned in N when the trace has been confirmed.
      rw [hfix.locals] at hf
      obtain ⟨hd, hph⟩ := keep_phase hg.sect h.pushes hf
      have hN := behind_phase (by rw [hst]; rfl) hg.pin.phase
      exact absurd ⟨t, hd, hph⟩
        (not_normalPinned_of_waited hg.pin (by rw [St.waited, hst]; rfl) hN)

/-- Who adds to `marked_objs` adds to the white ones of a trace. -/
theorem marked_white {s s' : St} {lab : Label} (hg : Ground s) (hs : StepCase s lab s') {c : Color}
    {q : Nat} {b : List Oid} (h : b ∈ s'.markedObjs c q) :
    b ∈ s.markedObjs c q ∨ (c = s.epoch.color ∧ s.epoch.phase ≠ .N) := by
  refine (marked_step hs h).imp id fun ⟨t, sc, rest, hstk, hc⟩ => ?_
  obtain ⟨hd, hin⟩ := hg.sect.head_phase hstk rfl rfl
  have hRT : (s.locals t).epoch.phase = .RT := by simpa [Frame.inPhase] using hin
  obtain ⟨hwhite, hN⟩ := pinned_white hg.pin hd (by rw [hRT]; decide)
  exact ⟨hc.trans hwhite, hN hRT⟩

/-- A worker of the sweep leaves a shard behind when it has found it empty. -/
theorem sweepStep_covers {s : St} {w : Sweeper} (ch : Nat) {q : Nat} (hlo : w.q ≤ q)
    (hhi : q < w.hi) (hne : s.markedObjs w.prevWhite q ≠ []) :
    ∃ w', (sweepStep s w ch).2 = some w' ∧ w'.q ≤ q ∧ q < w'.hi := by
  have hmove := sweepStep_moves s w ch
  generalize (sweepStep s w ch).1 = e at hmove
  generalize (sweepStep s w ch).2 = r at hmove
  cases hmove with
  | reclaim | keep | full | pop => exact ⟨_, rfl, hlo, hhi⟩
  | next ht hq hb =>
      have hlt : w.q ≠ q := by
        rintro rfl
        exact hne hb
      exact ⟨_, rfl, by show w.q + 1 ≤ q; omega, hhi⟩
  | last ht hhi hq => exact ⟨_, rfl, hlo, by assumption⟩
  | done ht hhi hsv => omega

theorem mem_nextSweepers_of_ne {ws : List Sweeper} {k j : Nat} {w : Sweeper}
    (hj : ws[j]? = some w) (hne : j ≠ k) (r : Option Sweeper) : w ∈ nextSweepers ws k r := by
  cases r with
  | some w' =>
      refine List.mem_of_getElem? (i := j) ?_
      rw [nextSweepers, List.getElem?_set_ne (Ne.symm hne)]
      exact hj
  | none => exact List.mem_eraseIdx_iff_getElem?.2 ⟨j, hne, hj⟩

theorem PlaceInv.swept_step {s s' : St} {lab : Label} (h : PlaceInv s) (h' : StockInv s')
    (hs : StepCase s lab s') {q : Nat} (hne : s'.markedObjs s'.epoch.color.flip q ≠ []) :
    s'.stage = .joinSweep ∧ ∃ w ∈ s'.sweepers, w.q ≤ q ∧ q < w.hi := by
  have hg := h.wf.ground
  have hold : s'.epoch.color = s.epoch.color →
      s.markedObjs s.epoch.color.flip q ≠ [] := by
    intro hc
    obtain ⟨b, hb⟩ := List.exists_mem_of_ne_nil _ hne
    rw [hc] at hb
    rcases marked_white hg hs hb with hb | ⟨hcol, -⟩
    · exact List.ne_nil_of_mem hb
    · exact absurd hcol (Color.flip_ne _)
  cases cycle_step hs with
  | other hl he hst =>
      have hne₀ := hold (by rw [he])
      obtain ⟨hstage, w, hw, hlo, hhi⟩ := h.swept hne₀
      refine ⟨hst.trans hstage, ?_⟩
      obtain ⟨j, hj⟩ := List.mem_iff_getElem?.1 hw
      cases hs with
      | @op t op s₁ fs ht hu hstk hc hop =>
          rw [setStack_sweepers, (startOp_batches hop).2.2.2.1]
          exact ⟨w, hw, hlo, hhi⟩
      | @run t ch f rest ht hstk =>
          rw [setStack_sweepers, sweepers_apply (h.stock.run_fits ht (exec_batches s t ch f))]
          exact ⟨w, hw, hlo, hhi⟩
      | coll hstk hcoll => cases hl
      | @sweep k ch w₀ hk =>
          rw [withSweepers_sweepers]
          by_cases hjk : j = k
          · subst hjk
            obtain rfl : w = w₀ := Option.some.inj (hj.symm.trans hk)
            obtain ⟨w', hr, hlo', hhi'⟩ :=
              sweepStep_covers (s := s) ch hlo hhi (h.white w hw ▸ hne₀)
            refine ⟨w', ?_, hlo', hhi'⟩
            rw [hr]
            exact List.mem_of_getElem? (i := j) (List.getElem?_set_self
              (List.getElem?_eq_some_iff.1 hj).1)
          · refine ⟨w, ?_, hlo, hhi⟩
            have := mem_nextSweepers_of_ne hj hjk (sweepStep s w₀ ch).2
            cases hr : (sweepStep s w₀ ch).2 <;> rw [hr] at this <;> exact this
      | @startWorker t lo hi hz js hj hr hc =>
          refine ⟨w, ?_, hlo, hhi⟩
          show w ∈ (s.register t).sweepers
          rw [(register_batches s t).2.2]
          exact hw
      | @register t hr hc =>
          rw [(register_batches s t).2.2]
          exact ⟨w, hw, hlo, hhi⟩
      | exit ht hu hstk hg hh hc => exact ⟨w, hw, hlo, hhi⟩
  | @coll ch e st fs hl hstk hcoll hfree he hst hs' =>
      -- The collector waits for the workers.
      obtain ⟨hstage, w, hw, -⟩ := h.swept (hold (by rw [he]))
      simp only [collStep, hstage, if_neg (List.ne_nil_of_mem hw)] at hcoll
      cases hcoll
  | root hst hfix hws he hst' | complete hst hfix hws he hst' =>
      have hne₀ := hold (by rw [he]; rfl)
      rw [(h.swept hne₀).1] at hst
      cases hst
  | normal hst hfix hws he hst' =>
      refine ⟨hst', ?_⟩
      have hq : q < objBatchesShard := Nat.lt_of_not_le fun hle => hne (h'.marked _ q hle)
      obtain ⟨r, hr, hlo, hhi⟩ := shardRanges_cover h.threads hq
      rw [hws]
      exact ⟨_, List.mem_map.2 ⟨r, hr, rfl⟩, hlo, hhi⟩

theorem PlaceInv.marked_none {s s' : St} {lab : Label} (h : PlaceInv s) (hs : StepCase s lab s')
    (hN' : s'.epoch.phase = .N) (q : Nat) : s'.markedObjs s'.epoch.color q = [] := by
  have hg := h.wf.ground
  have hsame : s'.epoch = s.epoch → s'.markedObjs s'.epoch.color q = [] := by
    intro he
    have hN : s.epoch.phase = .N := he ▸ hN'
    by_contra hne
    obtain ⟨b, hb⟩ := List.exists_mem_of_ne_nil _ hne
    rw [he] at hb
    rcases marked_white hg hs hb with hb | ⟨-, hne⟩
    · rw [h.marked hN q] at hb
      cases hb
    · exact hne hN
  cases cycle_step hs with
  | other hl he hst => exact hsame he
  | coll hl hstk hcoll hfree he hst hs' => exact hsame he
  | root hst hfix hws he hst' | complete hst hfix hws he hst' =>
      rw [he] at hN'
      cases hN'
  | normal hst hfix hws he hst' =>
      by_contra hne
      rw [hfix.markedObjs, he] at hne
      rw [(h.swept hne).1] at hst
      cases hst

theorem PlaceInv.init {n : Nat} (hn : 0 < n) : PlaceInv (St.init n) where
  wf := .init n
  stock := .init n
  white w hw := by cases hw
  threads := hn
  pushes t := by
    rw [stack_init]
    trivial
  flush {t c b k} hf := by
    rw [stack_init] at hf
    cases hf
  walk h := by cases h
  taken h := h.elim
  scanned hN := absurd rfl hN
  old _ := by
    refine ⟨fun i => ?_, fun q => rfl⟩
    by_cases hi : i = 0 <;> simp [St.init, hi, Local.default]
  colored {o} ho := rfl
  survived hw := by cases hw
  kept _ {t o} hf := by
    rw [stack_init] at hf
    cases hf
  swept hne := absurd rfl hne
  marked _ q := rfl

theorem PlaceInv.step {s s' : St} {lab : Label} (h : PlaceInv s)
    (hs : Cdpt.step s lab = some s') : PlaceInv s' :=
  have hcase := stepCase hs
  have hstock := h.stock.step h.wf.ground.pin.str hcase
  { wf := h.wf.step hs
    stock := hstock
    white := sweepersWhite_step h.white h.stock hcase
    threads := collectorThreads_step hcase ▸ h.threads
    pushes := pushOk_step h.wf.ground.pin.str hcase h.pushes
    flush := h.flush_step hcase
    walk := h.walk_step hcase
    taken := h.taken_step hcase
    scanned := h.scanned_step hstock hcase
    old := h.old_step hcase
    colored := h.colored_step hcase
    survived := h.survived_step hstock hcase
    kept := h.kept_step hcase
    swept := h.swept_step hstock hcase
    marked := h.marked_none hcase }

theorem PlaceInv.of_reachable {n : Nat} {s : St} (hn : 0 < n) (h : Reachable n s) : PlaceInv s :=
  h.invariant (.init hn) fun hi _ hs => hi.step hs

end Cdpt
