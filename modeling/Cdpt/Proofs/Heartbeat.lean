import Cdpt.Model.Heartbeat
import Cdpt.Proofs.Bytes

/-!
# The heartbeat and the sweep

Two bounds carry the first read of `heartbeat` to the second. As long as no N epoch
is stored, what is reclaimed and what can be only shrinks. Once it is stored, only
objects that were white then are reclaimed, up to the end of the cycle; and the next
one does not begin, since the collector needs `HBSTATS` first. In between stands the
store itself, which turns a whole colour over to the sweep, bytes included that were
counted after the first read.

The heartbeat thread holds the lock on `HBSTATS` from before its first read to after
its second, and the collector takes the same lock in `record_collection_stats`
before it can begin another cycle. So at most one N epoch is stored between the two
reads (`Inv.begin`), and the argument has three parts: up to the store, the store,
and after it. The first is the bound of `Bytes`. For the last one, `sweepable` is
the set of objects that are reclaimed or have the dead colour; in N nothing joins
it, because new objects have the other colour and marking means the other colour too
(`sweepable_step`).

The store is where the condition `whiteCounted` comes in: the white objects of that
instant must have been counted at the first read. It is a condition on the state
before the store. Without it the subtraction can underflow: in the last run an
object is in a local batch at the first read, and counted and reclaimed before the
second.
-/

open Finset

namespace Cdpt

/-! ## What one sweep can reclaim -/

/-- The workers of `sweep` reclaim the colour that was white before. -/
def St.sweepersWhite (s : St) : Prop := ∀ w ∈ s.sweepers, w.prevWhite = s.epoch.color.flip

theorem prevWhite_moves {s : St} {w w' : Sweeper} {e : Eff} {r : Option Sweeper}
    (hmove : SweepBatch s w e r) (h : r = some w') : w'.prevWhite = w.prevWhite := by
  cases hmove <;> cases h <;> rfl

theorem sweepersWhite_step {s s' : St} {lab : Label} (h : s.sweepersWhite) (hst : StockInv s)
    (hs : StepCase s lab s') : s'.sweepersWhite := by
  have hkeep : s'.sweepers = s.sweepers → s'.epoch = s.epoch → s'.sweepersWhite := by
    intro hw he w hmem
    rw [he]
    exact h w (hw ▸ hmem)
  have hep := epoch_cases hs
  cases hs with
  | @op t op s₁ fs ht hu hstk hc hop =>
      obtain ⟨-, -, -, hw, -⟩ := startOp_batches hop
      exact hkeep (by rw [setStack_sweepers, hw]) (startOp_same hop).1.epoch
  | @run t ch f rest ht hstk =>
      refine hkeep ?_ (hep.resolve_right fun hc => by obtain ⟨⟨_, hl⟩, -⟩ := hc; cases hl)
      rw [setStack_sweepers, sweepers_apply (hst.run_fits ht (exec_batches s t ch f))]
  | @coll ch e st fs hstk hcoll =>
      rcases hst.coll_fits (collStep_moves hcoll).1 with hfit | hnext
      · rcases hep with he | ⟨-, -, -, -, -, hstage⟩
        · refine hkeep ?_ he
          rw [setStack_sweepers, withStage_sweepers, sweepers_apply hfit]
        · -- an epoch is stored when there are no workers
          intro w hmem
          rw [setStack_sweepers, withStage_sweepers, sweepers_apply hfit] at hmem
          have hjoin := hst.sweepers (List.ne_nil_of_mem hmem)
          rw [hjoin] at hstage
          rcases hstage with ⟨hne, -⟩ | ⟨hne, -⟩ | ⟨hne, -⟩ <;> cases hne
      · simp only [collStep, hnext, Option.some.injEq, Prod.mk.injEq] at hcoll
        obtain ⟨rfl, rfl, rfl⟩ := hcoll
        intro w hmem
        have hmem' : w ∈ (shardRanges s.collectorThreads).map fun r =>
            (⟨s.epoch.color, r.1, r.2, [], [], 0⟩ : Sweeper) := hmem
        obtain ⟨r, -, rfl⟩ := List.mem_map.1 hmem'
        exact (Color.flip_flip _).symm
  | @sweep k ch w hw =>
      intro w' hmem
      have he := (apply_epoch (sweepStep_pinFree s w ch) s s.collector).1
      have hmem' : w' ∈ nextSweepers s.sweepers k (sweepStep s w ch).2 := by
        cases hr : (sweepStep s w ch).2 <;> rw [hr] at hmem <;> exact hmem
      show w'.prevWhite = ((sweepStep s w ch).1.apply s s.collector).epoch.color.flip
      rw [he]
      rcases mem_nextSweepers hmem' with hold | hnew
      · exact h w' hold
      · rw [prevWhite_moves (sweepStep_moves s w ch) hnew]
        exact h w (List.mem_of_getElem? hw)
  | @startWorker t lo hi hz js hj hr hc =>
      exact hkeep (register_batches s t).2.2 (hep.resolve_right fun hc => by
        obtain ⟨⟨_, hl⟩, -⟩ := hc
        cases hl)
  | @register t hr hc =>
      exact hkeep (register_batches s t).2.2 (hep.resolve_right fun hc => by
        obtain ⟨⟨_, hl⟩, -⟩ := hc
        cases hl)
  | @exit t ht hu hstk hg hh hc => exact hkeep rfl rfl

/-- In N only the colour that was white before is reclaimed. -/
theorem reclaimed_color {s s' : St} {lab : Label} (hwf : WellFormed s) (hw : s.sweepersWhite)
    (hN : s.epoch.phase = .N) (hs : StepCase s lab s') {o : Oid} (ho : o < s.nextObj)
    (h : (s'.objs o).reclaimed = true) :
    (s.objs o).reclaimed = true ∨ s.color o = s.epoch.color.flip := by
  cases hs with
  | @op t op s₁ fs ht hu hstk hc hop =>
      refine .inl ?_
      rw [setStack_objs] at h
      obtain ⟨-, ⟨-, hobjs, -⟩ | ⟨cs, size, k, rfl⟩⟩ := startOp_heap hop
      · rwa [hobjs] at h
      · obtain ⟨rfl, -⟩ := startOp_alloc hop
        simpa [St.newObj, St.removeCells, Nat.ne_of_lt ho] using h
  | @run t ch f rest ht hstk =>
      rw [setStack_objs, (heap_apply _ s t o).2] at h
      refine h.imp id fun hd => ?_
      have he := mem_dooms.1 hd
      have hmove := exec_batches s t ch f
      rw [he] at hmove
      generalize (exec s t ch f).2 = fs at hmove
      cases hmove with
      | idle _ hi | scan _ hi => cases hi
      | reclaim hc =>
          obtain ⟨hd, hin⟩ := hwf.ground.sect.head_phase hstk rfl rfl
          rw [hc]
          rcases normal_pins hwf.ground.pin hN hd with ⟨-, hwhite⟩ | ⟨hCT, -⟩
          · rw [St.black, hwhite]
          · rw [hCT] at hin
            cases hin
  | @coll ch e st fs hstk hcoll =>
      rw [setStack_objs, withStage_objs, (heap_apply _ s s.collector o).2] at h
      refine h.imp id fun hd => ?_
      have he := mem_dooms.1 hd
      have hmove := (collStep_moves hcoll).1
      rw [he] at hmove
      cases hmove with
      | idle _ hi => cases hi
  | @sweep k ch w hw' =>
      rw [withSweepers_objs, (heap_apply _ s s.collector o).2] at h
      refine h.imp id fun hd => ?_
      have he := mem_dooms.1 hd
      have hmove := sweepStep_moves s w ch
      rw [he] at hmove
      generalize (sweepStep s w ch).2 = r at hmove
      cases hmove with
      | reclaim ht hc => rw [hc, hw w (List.mem_of_getElem? hw')]
  | @startWorker t lo hi hz js hj hr hc =>
      rw [setStack_objs, withJobs_objs, register_heap] at h
      exact .inl h
  | @register t hr hc =>
      rw [register_heap] at h
      exact .inl h
  | @exit t ht hu hstk hg hh hc => exact .inl h

/-- The objects that are reclaimed or of colour `c`. -/
def St.sweepable (s : St) (c : Color) : Finset Oid :=
  s.made.filter fun o => (s.objs o).reclaimed = true ∨ s.color o = c

theorem mem_sweepable {s : St} {c : Color} {o : Oid} : o ∈ s.sweepable c ↔
    o < s.nextObj ∧ ((s.objs o).reclaimed = true ∨ s.color o = c) := by
  rw [St.sweepable, mem_filter, St.made, mem_range]

/-- What is allocated in N has the colour of the epoch. -/
theorem alloc_new {s s' : St} {t : Lid} {cs : List Cid} {size : Nat}
    {k : Option (PtrKind × Nat)} (hs : StepCase s (.op t (.alloc cs size k)) s') :
    (s.locals t).pinDone ∧ (s'.objs s.nextObj).reclaimed = false ∧
      s'.color s.nextObj = s.allocColor t := by
  cases hs with
  | @op t op s₁ fs ht hu hstk hc hop =>
      obtain ⟨rfl, -, hg, -⟩ := startOp_alloc hop
      exact ⟨⟨hg, by simp [hstk]⟩, by simp [St.newObj], by simp [St.color, St.newObj]⟩

theorem alloc_color {s s' : St} {t : Lid} {cs : List Cid} {size : Nat}
    {k : Option (PtrKind × Nat)} (h : PinInv s) (hN : s.epoch.phase = .N)
    (hs : StepCase s (.op t (.alloc cs size k)) s') :
    (s'.objs s.nextObj).reclaimed = false ∧ s'.color s.nextObj = s.epoch.color := by
  obtain ⟨hd, hr, hcol⟩ := alloc_new hs
  exact ⟨hr, hcol.trans (normal_allocColor h hN hd)⟩

/-- In N nothing comes to be sweepable. -/
theorem sweepable_step {s s' : St} {lab : Label} (hwf : WellFormed s) (hw : s.sweepersWhite)
    (hN : s.epoch.phase = .N) (hs : StepCase s lab s') :
    s'.sweepable s.epoch.color.flip ⊆ s.sweepable s.epoch.color.flip := by
  intro o h
  obtain ⟨hlt, hdead⟩ := mem_sweepable.1 h
  have hold : o < s.nextObj := by
    rcases nextObj_cases hs with ⟨hn, -⟩ | ⟨t, cs, size, k, rfl, hn⟩
    · exact hn ▸ hlt
    · have hle : o < s.nextObj + 1 := hn ▸ hlt
      refine Nat.lt_of_le_of_ne (Nat.le_of_lt_succ hle) fun heq => ?_
      subst heq
      obtain ⟨hr, hc⟩ := alloc_color hwf.ground.pin hN hs
      rw [hr, hc] at hdead
      rcases hdead with hdead | hdead
      · cases hdead
      · exact Color.ne_flip _ hdead
  refine mem_sweepable.2 ⟨hold, ?_⟩
  rcases hdead with hr | hc
  · exact reclaimed_color hwf hw hN hs hold hr
  · refine .inr ?_
    rcases color_step hs o with he | ⟨t, cs, size, k, -, rfl, -⟩ | ⟨t, ch, hd, rest, -, hst, -, he⟩
    · rw [← he, hc]
    · exact absurd hold (Nat.lt_irrefl _)
    · -- who still marks does so for the trace before, in the new white
      have hblack := normal_black hwf.ground hN (f := .mark (.headerCas o hd)) (t := t)
        (by simp [hst]) rfl
      rw [he, hblack] at hc
      exact absurd hc (Color.ne_flip _)

theorem sizes_le {s s' : St} {us us' : Finset Oid} (hsub : us' ⊆ us)
    (hsize : ∀ o ∈ us', (s'.objs o).size = (s.objs o).size) : s'.sizes us' ≤ s.sizes us := by
  rw [St.sizes, sum_congr rfl hsize]
  exact sum_le_sum_of_subset hsub

namespace Heartbeat

/-! ## From the first read to the second -/

/-- When an N epoch is stored between the two reads, all that is reclaimed or still
white was counted at the first. -/
def whiteCounted (s : St) : Label → Prop
  | .sys (.coll _) => s.sys.stage = .nextNormal → ∀ c ∈ s.call, ∀ newTotalAlloc ∈ c.newTotalAlloc,
      s.sys.sizes (s.sys.sweepable s.sys.epoch.color) ≤ newTotalAlloc
  | _ => True

instance (s : St) : ∀ lab, Decidable (whiteCounted s lab)
  | .sys (.coll _) => inferInstanceAs (Decidable (s.sys.stage = .nextNormal →
      ∀ c ∈ s.call, ∀ newTotalAlloc ∈ c.newTotalAlloc,
        s.sys.sizes (s.sys.sweepable s.sys.epoch.color) ≤ newTotalAlloc))
  | .sys (.op _ _) | .sys (.run _ _) | .sys (.sweep _ _) | .sys (.startWorker _)
  | .sys (.register _) | .sys (.exit _) | .start | .request | .isCollectionNecessary | .lock _ _
  | .readAlloc | .readReclm => instDecidableTrue

/-- The collector is past the store of an N epoch, and not yet through with the cycle. -/
def St.sweeping (s : St) : Prop :=
  s.sys.epoch.phase = .N ∧ (s.loop = .recording ∨ (s.loop = .cycle ∧ s.sys.stage ≠ .idle))

/-- What the second counter can be is at most `a`. -/
def St.bounded (s : St) (a : Nat) : Prop :=
  (∀ size, s.sys.sized size → s.sys.zone size ≤ a) ∨
  (s.sweeping ∧ s.sys.sizes (s.sys.sweepable s.sys.epoch.color.flip) ≤ a)

structure Inv (s : St) : Prop where
  bytes : ByteInv s.sys
  white : s.sys.sweepersWhite
  idle : s.loop ≠ .cycle → s.sys.stage = .idle
  stats : s.stats.totalAlloc ≤ s.sys.totalAllocated
  started : s.call ≠ none → s.loop ≠ .starting
  caller : ∀ c ∈ s.call, c.caller = .collector → s.loop = .recording
  elapsed : ∀ c ∈ s.call, c.ms ≠ 0
  read : ∀ c ∈ s.call, ∀ a ∈ c.newTotalAlloc,
    s.stats.totalAlloc ≤ a ∧ a ≤ s.sys.totalAllocated ∧ s.bounded a

theorem Inv.init (n : Nat) : Inv (St.init n) where
  bytes := .of_reachable .refl
  white w h := by cases h
  idle _ := rfl
  stats := Nat.zero_le _
  started h := absurd rfl h
  caller c h := by cases h
  elapsed c h := by cases h
  read c h := by cases h

theorem Inv.subtracts {s : St} (h : Inv s) : s.subtracts := by
  intro c hc a ha
  obtain ⟨hstats, -, hbound⟩ := h.read c hc a ha
  have hreclm : s.sys.totalReclaimed ≤ a := by
    rcases hbound with hzone | ⟨-, hsize⟩
    · have hle := hzone (fun o => (s.sys.objs o).size) fun _ _ => rfl
      exact Int.ofNat_le.1 ((le_add_of_nonneg_right (doomed_nonneg _ s.sys)).trans hle)
    · have hgone := ((h.bytes).solvent _ fun _ _ => rfl).booked.reclaimed_eq
      have hsub : s.sys.sizes s.sys.gone ≤ s.sys.sizes (s.sys.sweepable s.sys.epoch.color.flip) :=
        sizes_le (fun o ho => by
          obtain ⟨hm, hr⟩ := mem_filter.1 ho
          exact mem_filter.2 ⟨hm, .inl hr⟩) fun _ _ => rfl
      omega
  simp [Pacing.sub, hstats, hreclm]

/-- The store of an N epoch hands the white objects to the sweep. -/
theorem sweepable_store {s u : Cdpt.St} {ch : Nat} (hst : s.stage = .nextNormal)
    (hs : StepCase s (.coll ch) u) : u.epoch.phase = .N ∧ u.stage ≠ .idle ∧
      u.sizes (u.sweepable u.epoch.color.flip) = s.sizes (s.sweepable s.epoch.color) := by
  cases hs with
  | coll hstk hcoll =>
      simp only [collStep, hst, Option.some.injEq, Prod.mk.injEq] at hcoll
      obtain ⟨rfl, rfl, rfl⟩ := hcoll
      have hflip : s.normalEpoch.color.flip = s.epoch.color := Color.flip_flip _
      refine ⟨rfl, ?_, ?_⟩
      · intro h
        cases h
      · show s.sizes (s.sweepable s.normalEpoch.color.flip) = _
        rw [hflip]

/-- What the collector loop does when the machine moves. -/
def St.moved (s : St) (lab : Cdpt.Label) (u : Cdpt.St) : Loop :=
  if lab.isColl = true ∧ u.stage = .idle then .recording else s.loop

theorem Inv.bounded_step {s : St} {lab : Cdpt.Label} {u : Cdpt.St} (h : Inv s)
    (hP : whiteCounted s (.sys lab)) (hcoll : lab.isColl = true → s.loop = .cycle)
    (hu : Cdpt.step s.sys lab = some u) {c : Call} {a : Nat} (hc : c ∈ s.call)
    (ha : a ∈ c.newTotalAlloc) (hb : s.bounded a) :
    St.bounded { s with sys := u, loop := s.moved lab u } a := by
  have hs := stepCase hu
  rcases hb with hzone | ⟨⟨hN, hloop⟩, hsize⟩
  · by_cases hwithin : withinCycle s.sys lab
    · refine .inl fun size hz => ?_
      exact (zone_step h.bytes.stock h.bytes.wf hs hwithin hz).trans
        (hzone size (h.bytes.sized_step hu hz))
    · obtain ⟨hst, hl⟩ := not_not.1 hwithin
      cases lab with
      | coll ch =>
          obtain ⟨hN, hidle, heq⟩ := sweepable_store hst hs
          refine .inr ⟨⟨hN, .inr ⟨?_, hidle⟩⟩, ?_⟩
          · show s.moved (.coll ch) u = .cycle
            rw [St.moved, if_neg fun h => hidle h.2]
            exact hcoll rfl
          · exact heq ▸ hP hst c hc a ha
      | _ => cases hl
  · have hphase := h.bytes.wf.ground.pin.phase
    have he : u.epoch = s.sys.epoch := by
      rcases epoch_cases hs with he | ⟨⟨ch, rfl⟩, -, -, -, -, ⟨hst, -⟩ | ⟨hst, -⟩ | ⟨hst, -⟩⟩
      · exact he
      · rcases hloop with hl | ⟨-, hne⟩
        · rw [hcoll rfl] at hl
          cases hl
        · exact absurd hst hne
      · rw [hst, hN] at hphase
        cases hphase
      · rw [hst, hN] at hphase
        cases hphase
    refine .inr ⟨⟨he ▸ hN, ?_⟩, ?_⟩
    · show s.moved lab u = .recording ∨ (s.moved lab u = .cycle ∧ u.stage ≠ .idle)
      rw [St.moved]
      split
      · exact .inl rfl
      · next hno =>
          refine hloop.imp id fun ⟨hcycle, hne⟩ => ⟨hcycle, fun hidle => ?_⟩
          have hl : lab.isColl = false := by simpa [hidle] using hno
          exact hne (stage_of_not_coll hs hl ▸ hidle)
    · show u.sizes (u.sweepable u.epoch.color.flip) ≤ a
      rw [he]
      have hsub := sweepable_step h.bytes.wf h.white hN hs
      obtain ⟨⟨b, -, hh⟩, -⟩ := stock_step h.bytes.stock h.bytes.wf hs
      refine (sizes_le hsub fun o ho => hh.size o ?_).trans hsize
      exact (mem_sweepable.1 (hsub ho)).1

theorem step_sys {s s' : St} {lab : Cdpt.Label} (h : step s (.sys lab) = some s') :
    (lab.isColl = true → s.loop = .cycle) ∧
    ∃ u, Cdpt.step s.sys lab = some u ∧ s' = { s with sys := u, loop := s.moved lab u } := by
  cases lab with
  | coll ch =>
      simp only [step] at h
      split at h
      · next hl =>
          obtain ⟨u, hu, rfl⟩ := Option.map_eq_some_iff.1 h
          refine ⟨fun _ => hl, u, hu, ?_⟩
          simp [St.moved, Label.isColl, hl]
      · cases h
  | _ =>
      obtain ⟨u, hu, rfl⟩ := Option.map_eq_some_iff.1 h
      refine ⟨?_, u, hu, ?_⟩
      · intro hl
        cases hl
      · simp [St.moved, Label.isColl]

theorem totalAllocated_mono {s s' : Cdpt.St} {lab : Cdpt.Label} (h : ByteInv s)
    (hs : StepCase s lab s') : s.totalAllocated ≤ s'.totalAllocated := by
  obtain ⟨⟨b, -, hh⟩, -⟩ := stock_step h.stock h.wf hs
  have hc : s'.totalAllocated = s.totalAllocated + b.allocated := congrArg Prod.snd hh.counters
  omega

theorem Inv.sys {s : St} {lab : Cdpt.Label} {u : Cdpt.St} (h : Inv s)
    (hP : whiteCounted s (.sys lab)) (hcoll : lab.isColl = true → s.loop = .cycle)
    (hu : Cdpt.step s.sys lab = some u) : Inv { s with sys := u, loop := s.moved lab u } where
  bytes := h.bytes.step hu
  white := sweepersWhite_step h.white h.bytes.stock (stepCase hu)
  idle hne := by
    show u.stage = .idle
    have hne' : s.moved lab u ≠ .cycle := hne
    rw [St.moved] at hne'
    split at hne'
    · next hl => exact hl.2
    · have hl : lab.isColl = false := by
        by_contra hl
        exact hne' (hcoll (by simpa using hl))
      rw [stage_of_not_coll (stepCase hu) hl]
      exact h.idle hne'
  stats := h.stats.trans (totalAllocated_mono h.bytes (stepCase hu))
  started hc := by
    show s.moved lab u ≠ .starting
    rw [St.moved]
    split
    · intro hl
      cases hl
    · exact h.started hc
  caller c hc hcol := by
    show s.moved lab u = .recording
    rw [St.moved]
    split
    · rfl
    · exact h.caller c hc hcol
  elapsed := h.elapsed
  read c hc a ha := by
    obtain ⟨hstats, hle, hb⟩ := h.read c hc a ha
    exact ⟨hstats, hle.trans (totalAllocated_mono h.bytes (stepCase hu)),
      h.bounded_step hP hcoll hu hc ha hb⟩

theorem heartbeat_totalAlloc {hb hb' : Pacing.HeartbeatStats} {ms a r : Nat} (hms : ms ≠ 0)
    (h : Pacing.heartbeat hb ms a r = some hb') : hb'.totalAlloc = a := by
  simp only [Pacing.heartbeat, if_neg hms, bind, Option.bind_eq_some_iff, Option.some.injEq] at h
  obtain ⟨_, _, _, _, _, _, rfl⟩ := h
  rfl

/-- Between two calls of `heartbeat`. -/
theorem Inv.quiet {s s' : St} (h : Inv s) (hsys : s'.sys = s.sys) (hcall : s'.call = none)
    (hidle : s'.loop ≠ .cycle → s.sys.stage = .idle)
    (hstats : s'.stats.totalAlloc ≤ s.sys.totalAllocated) : Inv s' where
  bytes := hsys ▸ h.bytes
  white := hsys ▸ h.white
  idle hne := hsys ▸ hidle hne
  stats := hsys ▸ hstats
  started hc := absurd hcall hc
  caller c hc := by
    rw [hcall] at hc
    cases hc
  elapsed c hc := by
    rw [hcall] at hc
    cases hc
  read c hc := by
    rw [hcall] at hc
    cases hc

theorem Inv.returned {s : St} (h : Inv s) {caller : Caller}
    (hc : caller = .collector → s.loop = .recording) (hne : s.returned caller ≠ .cycle) :
    s.sys.stage = .idle := by
  cases caller with
  | thread => exact h.idle hne
  | collector =>
      refine h.idle fun hl => ?_
      rw [hc rfl] at hl
      cases hl

theorem Inv.readAlloc {s s' : St} (h : Inv s) (hs : Heartbeat.step s .readAlloc = some s') :
    Inv s' := by
  simp only [Heartbeat.step] at hs
  split at hs
  · next caller ms hcall =>
      cases hs
      refine { h with
        started := fun _ => h.started (by simp [hcall])
        caller := fun c hc => ?_
        elapsed := fun c hc => ?_
        read := fun c hc a ha => ?_ }
      · cases hc
        exact h.caller ⟨caller, ms, none⟩ (by simp [hcall])
      · cases hc
        exact h.elapsed ⟨caller, ms, none⟩ (by simp [hcall])
      · cases hc
        cases ha
        refine ⟨h.stats, le_rfl, .inl fun size hz => ?_⟩
        obtain ⟨hb, hcov, hpos⟩ := h.bytes.solvent size hz
        exact zone_le h.bytes.wf.ground.pin hb hcov hpos
  · cases hs

theorem Inv.readReclm {s s' : St} (h : Inv s) (hs : Heartbeat.step s .readReclm = some s') :
    Inv s' := by
  simp only [Heartbeat.step] at hs
  split at hs
  · next caller ms a hcall =>
      split at hs
      · cases hs
      · split at hs
        · next stats hstats =>
            cases hs
            obtain ⟨-, hle, -⟩ := h.read _ (by rw [hcall]; rfl) a rfl
            refine h.quiet rfl rfl (h.returned (h.caller _ (by rw [hcall]; rfl))) ?_
            rw [heartbeat_totalAlloc (h.elapsed _ (by rw [hcall]; rfl)) hstats]
            exact hle
        · cases hs
          exact { h with }
  · cases hs

theorem Inv.lock {s s' : St} {caller : Caller} {ms : Nat} (h : Inv s)
    (hs : Heartbeat.step s (.lock caller ms) = some s') : Inv s' := by
  simp only [Heartbeat.step] at hs
  split at hs
  · next hc =>
      obtain ⟨hnone, hstart, hcoll⟩ := hc
      split at hs
      · cases hs
        exact h.quiet rfl hnone (h.returned hcoll) h.stats
      · next hms =>
          cases hs
          refine { h with
            started := fun _ => hstart
            caller := fun c hc => ?_
            elapsed := fun c hc => ?_
            read := fun c hc a ha => ?_ }
          · cases hc
            exact hcoll
          · cases hc
            exact hms
          · cases hc
            cases ha
  · cases hs

/-- A new cycle does not begin while the heartbeat thread waits for the end of one. -/
theorem Inv.begin {s : St} {requested : Bool} (h : Inv s) (hl : s.loop = .deciding) :
    Inv { s with loop := .cycle, requested := requested } := by
  refine { h with
    idle := fun hne => absurd rfl hne
    started := fun _ hne => by cases hne
    caller := fun c hc hcol => ?_
    read := fun c hc a ha => ?_ }
  · have := h.caller c hc hcol
    rw [hl] at this
    cases this
  · obtain ⟨hstats, hle, hzone | ⟨⟨-, hloop⟩, -⟩⟩ := h.read c hc a ha
    · exact ⟨hstats, hle, .inl hzone⟩
    · rw [hl] at hloop
      rcases hloop with hloop | ⟨hloop, -⟩ <;> cases hloop

theorem Inv.step {s s' : St} {lab : Label} (h : Inv s) (hP : whiteCounted s lab)
    (hs : Heartbeat.step s lab = some s') : Inv s' := by
  cases lab with
  | sys lab =>
      obtain ⟨hcoll, u, hu, rfl⟩ := step_sys hs
      exact h.sys hP hcoll hu
  | start =>
      simp only [Heartbeat.step] at hs
      split at hs
      · next hl =>
          cases hs
          have hnone : s.call = none := by
            by_contra hc
            exact h.started hc hl
          exact h.quiet rfl hnone (fun _ => h.idle (by simp [hl])) le_rfl
      · cases hs
  | request =>
      cases hs
      exact { h with }
  | isCollectionNecessary =>
      simp only [Heartbeat.step] at hs
      split at hs
      · next hl =>
          split at hs
          · cases hs
            exact h.begin hl
          · split at hs
            · cases hs
              exact h.begin hl
            · cases hs
      · cases hs
  | lock caller ms => exact h.lock hs
  | readAlloc => exact h.readAlloc hs
  | readReclm => exact h.readReclm hs

/-- In every run in which the N epochs that are stored between the two reads of a
`heartbeat` find all white objects counted by the first, none of its subtractions
underflows. -/
theorem heartbeat_subtracts {n : Nat} {s : St}
    (h : Lts.Reaches step whiteCounted (St.init n) s) : s.subtracts :=
  (h.invariant (Inv.init n) fun hi hP hs => hi.step hP hs).subtracts

/-- An object is allocated and dropped, and a cycle reclaims it, with the first read at
the end of the trace. -/
def lateRead : List Label :=
  List.flatten
    [[.start], dropOne.map .sys, [.request, .isCollectionNecessary],
      traceAll.dropLast.map .sys, [.lock .thread 10, .readAlloc, .sys (.coll 0)],
      .replicate 11 (.sys (.sweep 0 0))]

theorem heartbeat_subtracts_lateRead : ∃ s, Lts.Reaches step whiteCounted (St.init 1) s ∧
    s.call = some ⟨.thread, 10, some 8⟩ ∧ s.sys.totalReclaimed = 8 ∧ s.subtracts := by
  have hrun : (Lts.runs step whiteCounted (St.init 1) lateRead).any (fun s =>
      decide (s.call = some ⟨.thread, 10, some 8⟩ ∧ s.sys.totalReclaimed = 8)) = true := by
    decide +kernel
  obtain ⟨s, hr, h⟩ := Lts.exists_of_any hrun
  obtain ⟨hcall, hreclm⟩ := of_decide_eq_true h
  exact ⟨s, hr, hcall, hreclm, heartbeat_subtracts hr⟩

/-- The same with the first read before the cycle: the object is in a local batch, and
is counted and reclaimed before the second. -/
def earlyRead : List Label :=
  List.flatten
    [[.start], dropOne.map .sys, [.lock .thread 10, .readAlloc, .request, .isCollectionNecessary],
      traceAll.map .sys, .replicate 11 (.sys (.sweep 0 0))]

theorem heartbeat_underflows : ∃ s, Lts.Reaches step (fun _ _ => True) (St.init 1) s ∧
    s.call = some ⟨.thread, 10, some 0⟩ ∧ s.sys.totalReclaimed = 8 ∧ ¬ s.subtracts := by
  have hrun : (Lts.runs step (fun _ _ => True) (St.init 1) earlyRead).any (fun s =>
      decide (s.call = some ⟨.thread, 10, some 0⟩ ∧ s.sys.totalReclaimed = 8)) = true := by
    decide +kernel
  obtain ⟨s, hr, h⟩ := Lts.exists_of_any hrun
  obtain ⟨hcall, hreclm⟩ := of_decide_eq_true h
  refine ⟨s, hr, hcall, hreclm, fun hsub => ?_⟩
  have hdiff := (hsub _ hcall 0 rfl).2
  rw [hreclm] at hdiff
  cases hdiff

end Heartbeat

end Cdpt
