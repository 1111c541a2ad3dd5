import Cdpt.Proofs.Watched

/-!
# What a hazard slot and a root count are worth

An object that one hazard slot has named since before the root trace, or whose root
count has been positive since then, is marked by whoever scans its batch: the
scanner finds the count positive, or finds the object in its set. So it outlives the
sweep, and since that leaves the object with the colour it started from, it outlives
every cycle for as long as it is held.

The two ways to hold an object are one type (`Anchor`), and `St.ready` says what the
scanners have to know for each: nothing for a count, since it is read afresh for
every object, and for a slot what `Watched` says. A batch is scanned by one scanner,
who is done with an object when it has begun to mark it or has decided against it;
`past_frame` shows that an anchored object is never decided against (`accounted`), and
`Kept` that it is black at the end of the trace, where the mark has ended. The sweep takes white
objects, and the next N finds the object with the colour it began with.

A slot can also be traded for a root count. The scanner reads the count first and
looks at its set afterwards, so the trade goes unnoticed only by a helper that has
read the count as zero, is still collecting its set (`St.undecided`) and has not come
upon the object (`St.unaware`). Where there is no such helper at the instant of the
trade, every scanner of the trace either has the object in its set already or will
read the count later, and the argument goes through with the one anchor before the
instant and the other after it. The collector has its set before it reads a count, so
that only the short circuit of a helper leaves this gap (`handover_missed`).
-/

namespace Cdpt

/-! ## Anchors -/

/-- What holds an object: one slot of one node, or its root count. -/
inductive Anchor
  | slot (i : Lid) (k : Nat)
  | root
deriving DecidableEq, Repr

def St.anchored (s : St) (o : Oid) : Anchor → Prop
  | .slot i k => s.slotHolds i k o
  | .root => 0 < s.rootCount o

instance (s : St) (o : Oid) : ∀ a, Decidable (s.anchored o a)
  | .slot i k => inferInstanceAs (Decidable (s.slotHolds i k o))
  | .root => inferInstanceAs (Decidable (0 < s.rootCount o))

/-- A helper has read the root count of `o` as zero and collects the hazards to find
out about it. -/
def St.undecided (s : St) (o : Oid) : Prop :=
  ∃ t h acc sc done todo, .help (.forceHps h acc sc done o todo) ∈ (s.locals t).stack

/-- And it has not come upon `o` yet. -/
def Frame.unaware (o : Oid) : Frame → Prop
  | .help (.forceHps _ acc _ _ p _) => p = o ∧ o ∉ acc
  | _ => False

instance (o : Oid) : (f : Frame) → Decidable (f.unaware o)
  | .help (.forceHps _ _ _ _ _ _) => inferInstanceAs (Decidable (_ ∧ _))
  | .help .help | .help (.normalNext _ _) | .help (.normalPop _ _ _)
  | .help (.sweepObjs _ _ _ _ _) | .help (.synced _) | .help (.rootNext _ _ _)
  | .help (.scanPop _) | .help (.scanObjs _ _ _) | .help .drainInit | .help (.drain _)
  | .help (.drainRecord _) | .help (.drainPop _) | .pin _ | .ptr _ | .mark _ => .isFalse id

def St.unaware (s : St) (o : Oid) : Prop := ∃ t, ∃ f ∈ (s.locals t).stack, f.unaware o

theorem St.unaware.exists {s : St} {o : Oid} (h : s.unaware o) : ∃ t h acc sc done todo,
    .help (.forceHps h acc sc done o todo) ∈ (s.locals t).stack ∧ o ∉ acc := by
  obtain ⟨t, f, hf, hu⟩ := h
  unfold Frame.unaware at hu
  split at hu
  · obtain ⟨rfl, hno⟩ := hu
    exact ⟨t, _, _, _, _, _, hf, hno⟩
  · exact hu.elim

theorem St.unaware.undecided {s : St} {o : Oid} (h : s.unaware o) : s.undecided o := by
  obtain ⟨t, p, acc, sc, done, todo, hf, -⟩ := h.exists
  exact ⟨t, p, acc, sc, done, todo, hf⟩

/-- What the scanners know of the anchor. -/
def St.ready (s : St) (o : Oid) : Anchor → Prop
  | .slot i k => Watched s i k o
  | .root => ¬ s.unaware o

theorem ready_of_normal {s : St} (hg : Ground s) (hc : CacheInv s) (hN : s.epoch.phase = .N)
    (o : Oid) (a : Anchor) : s.ready o a := by
  cases a with
  | slot i k => exact .of_normal hg hc hN _ _
  | root =>
      intro hund
      obtain ⟨t, h, acc, sc, done, todo, hf⟩ := hund.undecided
      obtain ⟨hd, hRT⟩ := scan_phase hg.sect hf rfl
      rcases normal_pins hg.pin hN hd with ⟨hph, -⟩ | ⟨hph, -⟩ <;> rw [hRT] at hph <;> cases hph

theorem mem_hpStep {s : St} {h : HpScan} {acc : List Oid} {o : Oid} (ho : o ∈ acc) :
    o ∈ (s.hpStep h acc).2 := by
  cases h with
  | iter it => cases it <;> exact ho
  | slots i ver j nx =>
      simp only [St.hpStep]
      split
      · exact ho
      · exact ho
      · exact List.mem_append_left _ ho

theorem unaware_step {s s' : St} {lab : Label} (hp : PinStr s) (hs : StepCase s lab s') {o : Oid}
    (h : s'.unaware o) : s.unaware o ∨ s.rootCount o = 0 := by
  obtain ⟨t, hp', acc, sc, done, todo, hmem, hno⟩ := h.exists
  rcases scan_frames hp hs hmem rfl with hold | ⟨ch, f, rest, -, hstk, hmove, -⟩ | ⟨j, -, hj⟩
  · exact .inl ⟨t, _, hold, rfl, hno⟩
  · generalize hgen : Frame.help (.forceHps hp' acc sc done o todo) = g at hmove
    cases hmove with
    | force hr =>
        cases hgen
        exact .inr hr
    | @load h₀ acc₀ _ _ _ _ =>
        cases hgen
        exact .inl ⟨t, .help (.forceHps h₀ acc₀ sc done o todo),
          by rw [hstk]; exact List.mem_cons_self .., rfl, fun ho => hno (mem_hpStep ho)⟩
    | @next sc' done' g hg' =>
        subst hgen
        exact absurd hg' forceHps_not_next
    | _ => cases hgen
  · cases hj

theorem ready_step {s s' : St} {lab : Label} (hg : Ground s) (hs : StepCase s lab s') {o : Oid}
    {a : Anchor} (h : s.ready o a) (ha : s.anchored o a) (ha' : s'.anchored o a) :
    s'.ready o a := by
  cases a with
  | slot i k => exact Watched.step h hg hs ha ha'
  | root =>
      intro hund
      rcases unaware_step hg.pin.str hs hund with hund | hr
      · exact h hund
      · exact absurd ha (by rw [St.anchored, hr]; exact Nat.lt_irrefl 0)

/-- A scanner that has read the root count as zero finds the object in its set. -/
theorem consults_mem {s : St} (hg : Ground s) (hc : CacheInv s) (hN : s.epoch.phase ≠ .N)
    {o : Oid} {a : Anchor} (h : s.ready o a) (ha : s.anchored o a) {t : Lid} {sc : Scanner}
    {done todo hs : List Oid} (hf : .help (.scanObjs sc done todo) ∈ (s.locals t).stack)
    (hr : s.rootCount o = 0) (hcons : s.consults t hs sc) : o ∈ hs := by
  cases a with
  | root => exact absurd ha (by rw [St.anchored, hr]; exact Nat.lt_irrefl 0)
  | slot i k => exact Informed.consults h hg hc hN hf hcons

theorem collected_mem {s : St} {o : Oid} {a : Anchor} (h : s.ready o a) {t : Lid} {sc : Scanner}
    {acc done todo : List Oid}
    (hf : .help (.forceHps (.iter .fin) acc sc done o todo) ∈ (s.locals t).stack) : o ∈ acc := by
  cases a with
  | root => exact by_contra fun hno => h ⟨t, _, hf, rfl, hno⟩
  | slot i k => exact mem_of_seesAt (Informed.force h hf)

/-! ## What the scan has left behind -/

def Frame.past (o : Oid) : Frame → Prop
  | .help (.scanObjs _ done _) | .help (.forceHps _ _ _ done _ _) => o ∈ done
  | _ => False

/-- A scanner is done with `o`, as far as it is concerned. -/
inductive St.Past (s : St) (o : Oid) : Prop
  | frame {t : Lid} {f : Frame} (hf : f ∈ (s.locals t).stack) (ho : f.past o)
  | marked {q : Nat} {b : List Oid} (hb : b ∈ s.markedObjs s.epoch.color q) (ho : o ∈ b)

/-- A thread that is pinned in RT marks `o`. -/
def St.rootMarking (s : St) (o : Oid) : Prop :=
  ∃ t, (s.locals t).pinDone ∧ (s.locals t).epoch.phase = .RT ∧
    ∃ f ∈ (s.locals t).stack, f.marks o

theorem past_scans {f : Frame} {o : Oid} (h : f.past o) : ∃ os, f.scans = some os := by
  unfold Frame.past at h
  split at h
  · exact ⟨_, rfl⟩
  · exact ⟨_, rfl⟩
  · exact h.elim

theorem scans_isScan {f : Frame} {os : List Oid} (h : f.scans = some os) : f.isScan = true := by
  unfold Frame.scans at h
  split at h
  · rfl
  · rfl
  · cases h

/-- Who is done with the object has been so before, or has just begun to mark it. -/
theorem past_frame {s s' : St} {lab : Label} (hg : Ground s) (hc : CacheInv s)
    (hs : StepCase s lab s') (hN : s.epoch.phase ≠ .N) {o : Oid} {a : Anchor} (h : s.ready o a)
    (ha : s.anchored o a) {t : Lid} {g : Frame} (hmem : g ∈ (s'.locals t).stack)
    (hpast : g.past o) : s.Past o ∨ .mark (.links o 0) ∈ (s'.locals t).stack := by
  obtain ⟨os, hos⟩ := past_scans hpast
  rcases scan_frames hg.pin.str hs hmem (scans_isScan hos) with hold |
    ⟨ch, f, rest, -, hstk, hmove, hnew⟩ | ⟨j, -, rfl⟩
  · exact .inl (.frame hold hpast)
  · have hf : f ∈ (s.locals t).stack := by
      rw [hstk]
      exact List.mem_cons_self ..
    cases hmove with
    | start | pick | empty | shard => exact hpast.elim
    | pop => cases hpast
    | @seen sc sc' done todo p hsc hm =>
        rcases List.mem_append.1 hpast with hdone | hp
        · exact .inl (.frame hf hdone)
        · obtain rfl := List.mem_singleton.1 hp
          rcases hm with hm | ⟨hr, hs', hcons, hno⟩
          · exact .inr (hnew _ hm)
          · exact absurd (consults_mem hg hc hN h ha hf hr hcons) hno
    | force hr => exact .inl (.frame hf hpast)
    | load => exact .inl (.frame hf hpast)
    | @got acc sc done todo p hm =>
        rcases List.mem_append.1 hpast with hdone | hp
        · exact .inl (.frame hf hdone)
        · obtain rfl := List.mem_singleton.1 hp
          rcases hm with hm | hno
          · exact .inr (hnew _ hm)
          · exact absurd (collected_mem h hf) hno
    | @next sc done g hg' =>
        unfold Scanner.next at hg'
        split at hg'
        · rw [List.mem_singleton.1 hg'] at hpast
          exact hpast.elim
        · split at hg'
          · rw [List.mem_singleton.1 hg'] at hpast
            exact hpast.elim
          · cases hg'
  · exact hpast.elim

theorem rootMarking_step {s s' : St} {lab : Label} (hwf : WellFormed s) (hg' : Ground s')
    (hs : StepCase s lab s') {o : Oid} (ho : o < s.nextObj) (h : s.rootMarking o) :
    s'.rootMarking o ∨ s'.color o = s.newColor := by
  obtain ⟨t, hd, hRT, f, hf, hm⟩ := h
  have hg := hwf.ground
  have hstill : ∀ g ∈ (s'.locals t).stack, g.marks o → s'.rootMarking o := by
    intro g hmem hgm
    have hd' := (hg'.sect.mem_phase hmem (marks_phase hgm)).1
    refine ⟨t, hd', ?_, g, hmem, hgm⟩
    rw [(node_step hg.pin.str hs t).epoch_of_pinned hd hd']
    exact hRT
  rcases frame_keep hg.pin.str hs hf with hf' | ⟨ch, rest, hl, hstk, hs', hnew⟩
  · exact .inl (hstill f hf' hm)
  · have hb := mark_newColor hg hf (marks_phase hm)
    rcases exec_marks s t ch hm with ⟨g, hmem, hgm⟩ | hcol | he
    · exact .inl (hstill g (hnew g hmem) hgm)
    · exact .inr (newColor_stable hwf hs ho (hcol.trans hb))
    · refine .inr ?_
      rw [hs', he, hb]
      simp [Eff.apply, St.setObj, St.color]

/-- In a trace, whoever is done with `o` has marked it or is marking it. -/
def St.accounted (s : St) (o : Oid) : Prop :=
  s.epoch.phase ≠ .N → s.Past o → s.color o = s.newColor ∨ s.rootMarking o

/-- When RT is stored, the scan has not begun. -/
theorem not_past_of_root {s s' : St} (hP : PlaceInv s) (hst : s.stage = .idle) (hfix : Frozen s s')
    (he : s'.epoch = s.transEpoch .RT) {o : Oid} : ¬ s'.Past o := by
  have hg := hP.wf.ground
  have hN : s.epoch.phase = .N := by
    have hph := hg.pin.phase
    rw [hst] at hph
    exact of_decide_eq_true hph
  intro hpast
  cases hpast with
  | @frame t f hf hp =>
      obtain ⟨os, hos⟩ := past_scans hp
      rw [hfix.locals] at hf
      obtain ⟨hd, hRT⟩ := scan_phase hg.sect hf hos
      rcases normal_pins hg.pin hN hd with ⟨hph, -⟩ | ⟨hph, -⟩ <;> rw [hRT] at hph <;> cases hph
  | @marked q b hb ho =>
      rw [hfix.markedObjs, he] at hb
      rw [show (s.transEpoch .RT).color = s.epoch.color from rfl, hP.marked hN q] at hb
      cases hb

theorem accounted_step {s s' : St} {lab : Label} (hP : PlaceInv s) (hC : CacheInv s)
    (hg' : Ground s') (hs : StepCase s lab s') {o : Oid} (ho : o < s.nextObj)
    (h : s.accounted o) {a : Anchor} (hr : s.ready o a) (ha : s.anchored o a) :
    s'.accounted o := by
  intro hN' hpast
  have hwf := hP.wf
  have hg := hwf.ground
  have htrace : s.epoch.phase ≠ .N → s'.epoch.color = s.epoch.color →
      s'.color o = s'.newColor ∨ s'.rootMarking o := by
    intro hN hc
    have hnew : s'.newColor = s.newColor := by
      rw [newColor_trace hN, newColor_trace hN', hc]
    have hkeep : s.Past o → s'.color o = s'.newColor ∨ s'.rootMarking o := by
      intro hp
      rcases h hN hp with hcol | hm
      · exact .inl ((newColor_stable hwf hs ho hcol).trans hnew.symm)
      · exact (rootMarking_step hwf hg' hs ho hm).elim .inr fun hcol =>
          .inl (hcol.trans hnew.symm)
    cases hpast with
    | @frame t g hmem hp =>
        rcases past_frame hg hC hs hN hr ha hmem hp with hp | hmark
        · exact hkeep hp
        · obtain ⟨os, hos⟩ := past_scans hp
          obtain ⟨hd, hRT⟩ := scan_phase hg'.sect hmem hos
          exact .inr ⟨t, hd, hRT, _, hmark, rfl⟩
    | @marked q b hb ho =>
        rw [hc] at hb
        rcases marked_step hs hb with hb | ⟨t, sc, rest, hstk, -⟩
        · exact hkeep (.marked hb ho)
        · refine hkeep (.frame (t := t) (f := .help (.scanObjs sc b [])) ?_ ho)
          rw [hstk]
          exact List.mem_cons_self ..
  cases cycle_step hs with
  | other hl he hst => exact htrace (he ▸ hN') (by rw [he])
  | coll hl hstk hcoll hfree he hst hs' => exact htrace (he ▸ hN') (by rw [he])
  | root hst hfix hw he hst' => exact absurd hpast (not_past_of_root hP hst hfix he)
  | complete hst hfix hw he hst' =>
      refine htrace ?_ (by rw [he]; rfl)
      intro hN
      have hph := hg.pin.phase
      rw [hst, hN] at hph
      cases hph
  | normal hst hfix hw he hst' =>
      rw [he] at hN'
      exact absurd rfl hN'

/-! ## An object that is held outlives the cycle -/

theorem unswept_normalPinned {s : St} (h : PlaceInv s) (hN : s.epoch.phase ≠ .N) {o : Oid}
    (hu : s.Unswept o) : s.normalPinned := by
  have hjoin : s.stage ≠ .joinSweep := by
    intro hst
    have hph := h.wf.ground.pin.phase
    rw [hst] at hph
    exact hN (of_decide_eq_true hph)
  cases hu with
  | @frame t f hf hu =>
      obtain ⟨hd, hin⟩ := h.wf.ground.sect.mem_phase hf (unswept_phase hu)
      refine ⟨t, hd, ?_⟩
      unfold Frame.unswept at hu
      split at hu
      · exact of_decide_eq_true hin
      · exact hu.elim
  | marked hb ho => exact absurd (h.swept (List.ne_nil_of_mem hb)).1 hjoin
  | sweeper hw ho => exact absurd (h.stock.sweepers (List.ne_nil_of_mem hw)) hjoin

/-- The colours of an object that is held: in N that of the objects there are; in a
trace the same one until it is swept, and black once a scanner is done with it and the
mark has ended. -/
structure Kept (s : St) (o : Oid) : Prop where
  live : s.Live o
  normal : s.epoch.phase = .N → s.color o = s.epoch.color
  unswept : s.epoch.phase ≠ .N → s.Unswept o → s.color o = s.epoch.color
  past : s.accounted o

theorem Kept.of_normal {s : St} {o : Oid} (hN : s.epoch.phase = .N) (hlive : s.Live o)
    (hcol : s.color o = s.epoch.color) : Kept s o :=
  ⟨hlive, fun _ => hcol, fun h => absurd hN h, fun h => absurd hN h⟩

section Step

variable {s s' : St} {lab : Label} {o : Oid} (h : Kept s o) (hP : PlaceInv s) (hO : OverlapInv s)
  (hs : StepCase s lab s')

include h hP

/-- When the trace is confirmed, what is held is black. -/
theorem Kept.confirmed {n : Nat} (hR : Reachable n s) (hst : s.stage = .nextNormal) :
    s.color o = s.epoch.color.flip := by
  have hp := hP.wf.ground.pin
  have hCT : s.epoch.phase = .CT := by
    have := hp.phase
    rw [hst] at this
    exact of_decide_eq_true this
  have hN : s.epoch.phase ≠ .N := by simp [hCT]
  refine Color.eq_flip_of_ne fun hcol => ?_
  obtain ⟨q, b, hb, ho⟩ := hP.white_marked hst ((mem_stored hR).2 h.live) hcol
  rcases h.past hN (.marked hb ho) with hblack | ⟨t, hd, hRT, -⟩
  · rw [newColor_trace hN, hcol] at hblack
    exact Color.ne_flip _ hblack
  · rw [hp.epoch_of_waited (by rw [St.waited, hst]; rfl) hd] at hRT
    simp [Epoch.pinned, hCT] at hRT

include hs

theorem Kept.live_step : s'.Live o := by
  obtain ⟨ho, hlive⟩ := h.live
  refine ⟨Nat.lt_of_lt_of_le ho (nextObj_step hs).1, ?_⟩
  by_contra hne
  have hgone : (s'.objs o).reclaimed = true := by simpa using hne
  by_cases hN : s.epoch.phase = .N
  · rcases reclaimed_color hP.wf hP.white hN hs ho hgone with hgone | hcol
    · rw [hlive] at hgone
      cases hgone
    · rw [h.normal hN] at hcol
      exact Color.ne_flip _ hcol
  · -- Only a helper that is still in N sweeps now, and it keeps what is not black.
    have hrec := (reclaims_of_step hs ho hgone).resolve_left (by simp [hlive])
    cases lab with
    | run t ch =>
        obtain ⟨f, rest, hstk, he⟩ := hrec
        have hmove := exec_batches s t ch f
        rw [he] at hmove
        generalize (exec s t ch f).2 = fs at hmove
        have hf : f ∈ (s.locals t).stack := by
          rw [hstk]
          exact List.mem_cons_self ..
        cases hmove with
        | idle _ hi | scan _ hi => cases hi
        | @reclaim _ todo bytes q qs k hc =>
            have hu : s.Unswept o := .frame hf (List.mem_cons_self ..)
            have hd := (hP.wf.ground.sect.head_phase hstk rfl rfl).1
            rw [h.unswept hN hu, black_of_pinDone hP.wf.ground.pin hN hd] at hc
            exact Color.ne_flip _ hc
    | sweep k ch =>
        obtain ⟨w, hw, -⟩ := hrec
        have hst := hP.stock.sweepers (List.ne_nil_of_mem (List.mem_of_getElem? hw))
        have hph := hP.wf.ground.pin.phase
        rw [hst] at hph
        exact hN (of_decide_eq_true hph)
    | _ => exact hrec.elim

theorem Kept.normal_step {n : Nat} (hR : Reachable n s) (hN' : s'.epoch.phase = .N) :
    s'.color o = s'.epoch.color := by
  have hsame : s'.epoch = s.epoch → s'.color o = s'.epoch.color := by
    intro he
    have hN : s.epoch.phase = .N := he ▸ hN'
    have hcol := newColor_stable hP.wf hs h.live.1 ((h.normal hN).trans (newColor_N hN).symm)
    rw [hcol, newColor_N hN, he]
  cases cycle_step hs with
  | other hl he hst => exact hsame he
  | coll hl hstk hcoll hfree he hst hs' => exact hsame he
  | root hst hfix hw he hst' | complete hst hfix hw he hst' =>
      rw [he] at hN'
      cases hN'
  | normal hst hfix hw he hst' =>
      rw [St.color, hfix.objs, he]
      exact h.confirmed hP hR hst

include hO

theorem Kept.unswept_step (hN' : s'.epoch.phase ≠ .N) (hu : s'.Unswept o) :
    s'.color o = s'.epoch.color := by
  have htrace : s.epoch.phase ≠ .N → s'.epoch.color = s.epoch.color →
      s'.color o = s'.epoch.color := by
    intro hN hc
    have hu₀ := Cdpt.unswept_step hP.wf hP.stock hP.white hs hc hu
    rw [hc]
    rcases hO.color_step hs (.inr (unswept_normalPinned hP hN hu₀)) hu₀ with hcol | hcol
    · rw [hcol]
      exact h.unswept hN hu₀
    · exact hcol
  cases cycle_step hs with
  | other hl he hst => exact htrace (he ▸ hN') (by rw [he])
  | coll hl hstk hcoll hfree he hst hs' => exact htrace (he ▸ hN') (by rw [he])
  | root hst hfix hw he hst' =>
      have hN : s.epoch.phase = .N := by
        have hph := hP.wf.ground.pin.phase
        rw [hst] at hph
        exact of_decide_eq_true hph
      rw [St.color, hfix.objs, he]
      exact h.normal hN
  | complete hst hfix hw he hst' =>
      refine htrace ?_ (by rw [he]; rfl)
      intro hN
      have hph := hP.wf.ground.pin.phase
      rw [hst, hN] at hph
      cases hph
  | normal hst hfix hw he hst' =>
      rw [he] at hN'
      exact absurd rfl hN'

end Step

theorem CacheInv.of_reachable {n : Nat} {s : St} (h : Reachable n s) : CacheInv s := by
  suffices hinv : Ground s ∧ CacheInv s from hinv.2
  refine h.invariant (I := fun u => Ground u ∧ CacheInv u) ⟨.init n, .init n⟩ ?_
  intro a b lab ⟨hg, hc⟩ _ hs
  have hg' := hg.step hs
  exact ⟨hg', hc.step hg hg' (stepCase hs)⟩

theorem OverlapInv.of_reaches {n : Nat} {s : St}
    (h : Lts.Reaches Cdpt.step barrierClear (St.init n) s) : OverlapInv s :=
  h.invariant (.init n) fun hi hP hs => hi.step hP hs

/-- What holds in a run in which the anchor holds the object. -/
structure Held (n : Nat) (a : Anchor) (o : Oid) (s : St) : Prop where
  reach : Reachable n s
  overlap : OverlapInv s
  kept : Kept s o
  ready : s.anchored o a → s.ready o a

theorem Held.of_normal {n : Nat} {s : St} {o : Oid} (h : Reachable n s) (hO : OverlapInv s)
    (hN : s.epoch.phase = .N) (hlive : s.Live o) (hcol : s.color o = s.epoch.color) (a : Anchor) :
    Held n a o s :=
  ⟨h, hO, .of_normal hN hlive hcol,
    fun _ => ready_of_normal (.of_reachable h) (.of_reachable h) hN o a⟩

/-- The steps of a run in which the anchor holds the object. -/
def holdsOn (a : Anchor) (o : Oid) (s : St) (lab : Label) : Prop :=
  s.anchored o a ∧ barrierClear s lab

theorem Held.step {n : Nat} (hn : 0 < n) {a : Anchor} {o : Oid} {s s' : St} {lab : Label}
    (h : Held n a o s) (ha : holdsOn a o s lab) (hs : Cdpt.step s lab = some s') :
    Held n a o s' := by
  have hcase := stepCase hs
  have hP := PlaceInv.of_reachable hn h.reach
  have hC := CacheInv.of_reachable h.reach
  have hg' := hP.wf.ground.step hs
  refine ⟨.tail h.reach trivial hs, h.overlap.step ha.2 hs,
    ⟨h.kept.live_step hP hcase, h.kept.normal_step hP hcase h.reach,
      h.kept.unswept_step hP h.overlap hcase,
      accounted_step hP hC hg' hcase h.kept.live.1 h.kept.past (h.ready ha.1) ha.1⟩,
    fun ha' => ?_⟩
  exact ready_step hP.wf.ground hcase (h.ready ha.1) ha.1 ha'

theorem Held.of_reaches {n : Nat} (hn : 0 < n) {a : Anchor} {o : Oid} {s s' : St}
    (h : Held n a o s) (hr : Lts.Reaches Cdpt.step (holdsOn a o) s s') : Held n a o s' :=
  hr.invariant h fun hi ha hs => hi.step hn ha hs

/-- An object that is not garbage when N is stored, or allocated in it, is not
reclaimed while one slot names it, or while its root count is positive, however many
cycles pass. Whoever has scanned its batch has marked it or is doing so. -/
theorem anchored_survives {n : Nat} {s₀ s : St} {o : Oid} {a : Anchor} (hn : 0 < n)
    (h₀ : Lts.Reaches step barrierClear (St.init n) s₀) (hN : s₀.epoch.phase = .N)
    (hlive : s₀.Live o) (hcol : s₀.color o = s₀.epoch.color)
    (hr : Lts.Reaches step (holdsOn a o) s₀ s) :
    s.Live o ∧ (s.epoch.phase ≠ .N → s.Past o → s.color o = s.blackColor ∨ s.rootMarking o) := by
  have hR : Reachable n s₀ := h₀.mono fun _ _ _ => trivial
  have hheld := (Held.of_normal hR (.of_reaches h₀) hN hlive hcol a).of_reaches hn hr
  refine ⟨hheld.kept.live, fun hN hp => ?_⟩
  rw [St.blackColor, ← newColor_trace hN]
  exact hheld.kept.past hN hp

def Frame.isBarrier : Frame → Bool
  | .pin (.barrier _) => true
  | _ => false

/-- A phase barrier runs only where there is nothing to mark. -/
def barrierIdle (s : St) : Label → Prop
  | .run t _ => (s.locals t).hazards.all Option.isNone = true ∨
      (s.locals t).stack.head?.any Frame.isBarrier = false
  | _ => True

instance (s : St) : ∀ lab, Decidable (barrierIdle s lab)
  | .run t _ => inferInstanceAs (Decidable ((s.locals t).hazards.all Option.isNone = true ∨
      (s.locals t).stack.head?.any Frame.isBarrier = false))
  | .op _ _ | .coll _ | .sweep _ _ | .startWorker _ | .register _ | .exit _ => instDecidableTrue

theorem barrierClear_of_idle {s : St} {lab : Label} (h : barrierIdle s lab) :
    barrierClear s lab := by
  rintro t ch f rest o rfl hstk ⟨i, rfl, hi⟩ - -
  rcases h with hnone | hhead
  · have := List.all_eq_true.1 hnone _ (List.mem_of_getElem? hi)
    cases this
  · rw [hstk] at hhead
    cases hhead

/-- Thread 1 allocates object 0 and protects it with slot 7. -/
def protectOne : List Label :=
  List.flatten
    [[.register 1, .op 1 .pin], .replicate 4 (.run 1 0), [.op 1 (.alloc [] 8 none)],
      .replicate 3 (.run 1 0), [.op 1 (.protect (.guard 0)), .run 1 0, .run 1 0]]

/-- The rest of a cycle, with node 2 for the worker of the scan and one for the sweep. -/
def restOfCycle : List Label :=
  List.flatten
    [.replicate 6 (.coll 0), .replicate 14 (.run 0 0), .replicate 33 (.coll 0), [.startWorker 2],
      .replicate 32 (.run 2 0), [.coll 0, .run 0 0, .run 0 0, .coll 0], .replicate 4 (.run 0 0),
      .replicate 8 (.coll 0), [.run 0 0, .run 0 0], .replicate 32 (.coll 0),
      .replicate 12 (.sweep 0 0)]

/-- Thread 1 leaves its critical section and the collector begins to trace. -/
def leaveAndTrace : List Label :=
  List.flatten [[.op 1 .dropGuard, .run 1 0, .run 1 0], .replicate 3 (.coll 0)]

theorem anchored_survives_protectOne : ∃ s₀ s, Lts.Reaches step barrierClear (St.init 1) s₀ ∧
    Lts.Reaches step (holdsOn (.slot 1 7) 0) s₀ s ∧ s.epoch.phase = .N ∧
    s.epoch.timestamp = 3 ∧ s.Live 0 := by
  have hrun : (Lts.runs step barrierIdle (St.init 1) protectOne).any (fun s₀ =>
      decide (s₀.epoch.phase = .N ∧ s₀.color 0 = s₀.epoch.color) &&
      decide (0 < s₀.nextObj ∧ (s₀.objs 0).reclaimed = false) &&
      (Lts.runs step (fun s lab => s.anchored 0 (.slot 1 7) ∧ barrierIdle s lab) s₀
        (leaveAndTrace ++ restOfCycle)).any
          fun s => decide (s.epoch.phase = .N ∧ s.epoch.timestamp = 3)) = true := by
    decide +kernel
  obtain ⟨s₀, hr₀, h⟩ := Lts.exists_of_any hrun
  obtain ⟨hstart, h⟩ := Bool.and_eq_true_iff.1 h
  obtain ⟨hcol, hlive⟩ := Bool.and_eq_true_iff.1 hstart
  obtain ⟨hN, hcol⟩ := of_decide_eq_true hcol
  have hlive₀ := of_decide_eq_true hlive
  obtain ⟨s, hr, hend⟩ := Lts.exists_of_any h
  obtain ⟨hN', hts⟩ := of_decide_eq_true hend
  have h₀ := hr₀.mono fun _ _ hb => barrierClear_of_idle hb
  have hheld : Lts.Reaches step (holdsOn (.slot 1 7) 0) s₀ s :=
    hr.mono fun _ _ ⟨ha, hb⟩ => ⟨ha, barrierClear_of_idle hb⟩
  exact ⟨s₀, s, h₀, hheld, hN', hts,
    (anchored_survives (by decide) h₀ hN hlive₀ hcol hheld).1⟩

/-- The same when the slot is traded for a root count, unless a helper has read the
count before and is still collecting its hazards. -/
theorem traded_survives {n : Nat} {s₀ s₁ s : St} {o : Oid} {i : Lid} {k : Nat} (hn : 0 < n)
    (h₀ : Lts.Reaches step barrierClear (St.init n) s₀) (hN : s₀.epoch.phase = .N)
    (hlive : s₀.Live o) (hcol : s₀.color o = s₀.epoch.color)
    (hslot : Lts.Reaches step (holdsOn (.slot i k) o) s₀ s₁) (hund : ¬ s₁.undecided o)
    (hroot : Lts.Reaches step (holdsOn .root o) s₁ s) :
    s.Live o ∧ (s.epoch.phase ≠ .N → s.Past o → s.color o = s.blackColor ∨ s.rootMarking o) := by
  have hR : Reachable n s₀ := h₀.mono fun _ _ _ => trivial
  have hheld := (Held.of_normal hR (.of_reaches h₀) hN hlive hcol (.slot i k)).of_reaches hn hslot
  have hheld' : Held n .root o s₁ :=
    ⟨hheld.reach, hheld.overlap, hheld.kept, fun _ hun => hund hun.undecided⟩
  have hend := hheld'.of_reaches hn hroot
  refine ⟨hend.kept.live, fun hN hp => ?_⟩
  rw [St.blackColor, ← newColor_trace hN]
  exact hend.kept.past hN hp

/-- Thread 1 makes a `Shared` of what it protects. -/
def promote : List Label := [.op 1 (.asShared (.hazard 7) .shared), .run 1 0]

/-- It drops the `Local<Handle>`. -/
def giveUp : List Label := [.run 1 0, .op 1 (.dropHandle 7), .run 1 0]

theorem traded_survives_promote : ∃ s₀ s₁ s, Lts.Reaches step barrierClear (St.init 1) s₀ ∧
    Lts.Reaches step (holdsOn (.slot 1 7) 0) s₀ s₁ ∧ s₁.epoch.phase = .RT ∧
    Lts.Reaches step (holdsOn .root 0) s₁ s ∧ (s.locals 1).hazards[7]? = some none ∧
    s.epoch.timestamp = 3 ∧ s.Live 0 := by
  have hrun : (Lts.runs step barrierIdle (St.init 1) protectOne).any (fun s₀ =>
      decide (s₀.epoch.phase = .N ∧ s₀.color 0 = s₀.epoch.color) &&
      decide (0 < s₀.nextObj ∧ (s₀.objs 0).reclaimed = false) &&
      (Lts.runs step (fun s lab => s.anchored 0 (.slot 1 7) ∧ barrierIdle s lab) s₀
        (leaveAndTrace ++ promote)).any fun s₁ =>
          decide (s₁.epoch.phase = .RT ∧
            ∀ t < s₁.nLocals, ∀ f ∈ (s₁.locals t).stack, f.carries = false) &&
          (Lts.runs step (fun s lab => s.anchored 0 .root ∧ barrierIdle s lab) s₁
            (giveUp ++ restOfCycle)).any
              fun s => decide ((s.locals 1).hazards[7]? = some none ∧ s.epoch.timestamp = 3)) =
      true := by
    decide +kernel
  obtain ⟨s₀, hr₀, h⟩ := Lts.exists_of_any hrun
  obtain ⟨hstart, h⟩ := Bool.and_eq_true_iff.1 h
  obtain ⟨hcol, hlive⟩ := Bool.and_eq_true_iff.1 hstart
  obtain ⟨hN, hcol⟩ := of_decide_eq_true hcol
  have hlive₀ := of_decide_eq_true hlive
  obtain ⟨s₁, hr₁, h⟩ := Lts.exists_of_any h
  obtain ⟨hmid, h⟩ := Bool.and_eq_true_iff.1 h
  obtain ⟨hRT, hfree⟩ := of_decide_eq_true hmid
  obtain ⟨s, hr, hend⟩ := Lts.exists_of_any h
  obtain ⟨hslot, hts⟩ := of_decide_eq_true hend
  have h₀ := hr₀.mono fun _ _ hb => barrierClear_of_idle hb
  have hheld : Lts.Reaches step (holdsOn (.slot 1 7) 0) s₀ s₁ :=
    hr₁.mono fun _ _ ⟨ha, hb⟩ => ⟨ha, barrierClear_of_idle hb⟩
  have hroot : Lts.Reaches step (holdsOn .root 0) s₁ s :=
    hr.mono fun _ _ ⟨ha, hb⟩ => ⟨ha, barrierClear_of_idle hb⟩
  have hR : Reachable 1 s₁ :=
    (h₀.mono fun _ _ _ => trivial).trans (hheld.mono fun _ _ _ => trivial)
  have hund : ¬ s₁.undecided 0 := by
    rintro ⟨t, hp, acc, sc, done, todo, hf⟩
    have := hfree t (lt_nLocals_of_mem (Ground.of_reachable hR).pin.str hf) _ hf
    cases this
  exact ⟨s₀, s₁, s, h₀, hheld, hRT, hroot, hslot, hts,
    (traded_survives (by decide) h₀ hN hlive₀ hcol hheld hund hroot).1⟩

/-! ## The trade seen by the scanners of one trace -/

/-- What holds of an object while the anchor holds it, whatever else goes on. -/
structure Told (n : Nat) (a : Anchor) (o : Oid) (s : St) : Prop where
  reach : Reachable n s
  lt : o < s.nextObj
  past : s.accounted o
  ready : s.anchored o a → s.ready o a

/-- When RT is stored nobody has scanned anything. -/
theorem Told.of_root {n : Nat} {s s' : St} {lab : Label} {o : Oid} (hn : 0 < n)
    (h : Reachable n s) (hN : s.epoch.phase = .N) (hs : Cdpt.step s lab = some s')
    (hRT : s'.epoch.phase = .RT) (ho : o < s'.nextObj) (a : Anchor) : Told n a o s' := by
  have hP := PlaceInv.of_reachable hn h
  have hg := hP.wf.ground
  have hcase := stepCase hs
  have hsame : s'.epoch ≠ s.epoch := fun he => by
    rw [he, hN] at hRT
    cases hRT
  cases cycle_step hcase with
  | other _ he => exact absurd he hsame
  | coll _ _ _ _ he => exact absurd he hsame
  | root hst hfix hw he hst' =>
      refine ⟨.tail h trivial hs, ho, fun _ hp => absurd hp (not_past_of_root hP hst hfix he),
        fun ha => ?_⟩
      have ha₀ : s.anchored o a := by
        cases a with
        | slot i k => rwa [St.anchored, St.slotHolds, hfix.locals] at ha
        | root => rwa [St.anchored, St.rootCount, hfix.objs] at ha
      exact ready_step hg hcase (ready_of_normal hg (.of_reachable h) hN o a) ha₀ ha
  | complete _ _ _ he =>
      rw [he] at hRT
      cases hRT
  | normal _ _ _ he =>
      rw [he] at hRT
      cases hRT

/-- The steps of a run in which the anchor holds the object, with no other condition. -/
def anchoredOn (a : Anchor) (o : Oid) (s : St) (_ : Label) : Prop := s.anchored o a

instance (a : Anchor) (o : Oid) (s : St) (lab : Label) : Decidable (anchoredOn a o s lab) :=
  inferInstanceAs (Decidable (s.anchored o a))

theorem Told.step {n : Nat} (hn : 0 < n) {a : Anchor} {o : Oid} {s s' : St} {lab : Label}
    (h : Told n a o s) (ha : s.anchored o a) (hs : Cdpt.step s lab = some s') : Told n a o s' := by
  have hcase := stepCase hs
  have hP := PlaceInv.of_reachable hn h.reach
  have hg := hP.wf.ground
  exact {
    reach := .tail h.reach trivial hs
    lt := Nat.lt_of_lt_of_le h.lt (nextObj_step hcase).1
    past := accounted_step hP (.of_reachable h.reach) (hg.step hs) hcase h.lt h.past (h.ready ha) ha
    ready := ready_step hg hcase (h.ready ha) ha }

theorem Told.of_reaches {n : Nat} (hn : 0 < n) {a : Anchor} {o : Oid} {s s' : St}
    (h : Told n a o s) (hr : Lts.Reaches Cdpt.step (anchoredOn a o) s s') : Told n a o s' :=
  hr.invariant h fun hi ha hs => hi.step hn ha hs

/-- An object is held by one slot from the store of RT on, and by its root count from
some instant on. If no helper is at that instant between reading the count as zero and
coming upon the object in a slot, whoever is done with the object in the trace has
marked it, or is marking it. -/
theorem handover_not_missed {n : Nat} {s₀ s₁ s₂ s : St} {lab : Label} {o : Oid} {i : Lid} {k : Nat}
    (hn : 0 < n) (h₀ : Reachable n s₀) (hN : s₀.epoch.phase = .N) (hs : step s₀ lab = some s₁)
    (hRT : s₁.epoch.phase = .RT) (ho : o < s₁.nextObj)
    (hslot : Lts.Reaches step (anchoredOn (.slot i k) o) s₁ s₂) (haware : ¬ s₂.unaware o)
    (hroot : Lts.Reaches step (anchoredOn .root o) s₂ s)
    (htrace : s.epoch.phase ≠ .N) (hpast : s.Past o) :
    s.color o = s.blackColor ∨ s.rootMarking o := by
  have htold := (Told.of_root hn h₀ hN hs hRT ho (.slot i k)).of_reaches hn hslot
  have htold' : Told n .root o s₂ := ⟨htold.reach, htold.lt, htold.past, fun _ => haware⟩
  rw [St.blackColor, ← newColor_trace htrace]
  exact (htold'.of_reaches hn hroot).past htrace hpast

/-- Thread 1 protects object 0 and leaves its critical section; thread 2 comes. -/
def protectAndLeave : List Label :=
  protectOne ++ [.register 2, .op 1 .dropGuard, .run 1 0, .run 1 0]

/-- The collector puts the batch of object 0 into `fresh_objs`. Thread 2 helps: it takes
the batch, reads the root count of the object and begins to collect the hazards. -/
def helperReads : List Label :=
  List.flatten
    [.replicate 11 (.coll 0), .replicate 14 (.run 0 0), .replicate 5 (.coll 0), [.op 2 .pin],
      .replicate 14 (.run 2 0), [.op 2 .helpCollect], .replicate 14 (.run 2 0)]

/-- The helper has read slot 7 when the thread makes its `Shared`, and goes on after
the slot has been cleared. -/
theorem handover_not_missed_readSlot : ∃ s₁ s₂ s, s₁.epoch.phase = .RT ∧
    Lts.Reaches step (anchoredOn (.slot 1 7) 0) s₁ s₂ ∧ s₂.undecided 0 ∧
    Lts.Reaches step (anchoredOn .root 0) s₂ s ∧ (s.locals 1).hazards[7]? = some none ∧
    s.epoch.phase = .RT ∧ (s.color 0 = s.blackColor ∨ s.rootMarking 0) := by
  have hrun : (Lts.runs step (fun _ _ => True) (St.init 1) protectAndLeave).any (fun s₀ =>
      decide (s₀.epoch.phase = .N) && (step s₀ (.coll 0)).any fun s₁ =>
        decide (s₁.epoch.phase = .RT ∧ 0 < s₁.nextObj) &&
        (Lts.runs step (anchoredOn (.slot 1 7) 0) s₁
          (helperReads ++ .replicate 23 (.run 2 0) ++ promote)).any fun s₂ =>
            decide ((s₂.locals 2).stack.head? = some (.help (.forceHps
              (.slots 1 0 8 (some 2)) [0] (.helper 0 [1, 2, 3, 4, 5, 6, 7] 0 false) [] 0 []))) &&
            decide (∀ t < s₂.nLocals, ∀ f ∈ (s₂.locals t).stack, ¬ f.unaware 0) &&
            (Lts.runs step (anchoredOn .root 0) s₂ (giveUp ++ .replicate 36 (.run 2 0))).any
              fun s => decide ((s.locals 1).hazards[7]? = some none ∧ s.epoch.phase = .RT ∧
                s.markedObjs s.epoch.color 0 = [[0]])) = true := by
    decide +kernel
  obtain ⟨s₀, h₀, h⟩ := Lts.exists_of_any hrun
  obtain ⟨hN, h⟩ := Bool.and_eq_true_iff.1 h
  obtain ⟨s₁, hs, h⟩ := (Option.any_eq_true ..).1 h
  obtain ⟨hRT, h⟩ := Bool.and_eq_true_iff.1 h
  obtain ⟨hRT, ho⟩ := of_decide_eq_true hRT
  obtain ⟨s₂, hslot, h⟩ := Lts.exists_of_any h
  obtain ⟨h, hend⟩ := Bool.and_eq_true_iff.1 h
  obtain ⟨hund, hall⟩ := Bool.and_eq_true_iff.1 h
  obtain ⟨rest, hund⟩ := List.head?_eq_some_iff.1 (of_decide_eq_true hund)
  obtain ⟨s, hroot, hend⟩ := Lts.exists_of_any hend
  obtain ⟨hgone, hRT', hmarked⟩ := of_decide_eq_true hend
  have hR : Reachable 1 s₂ :=
    (Lts.Reaches.tail h₀ trivial hs).trans (hslot.mono fun _ _ _ => trivial)
  have haware : ¬ s₂.unaware 0 := by
    rintro ⟨t, f, hf, hu⟩
    exact of_decide_eq_true hall t (lt_nLocals_of_mem (Ground.of_reachable hR).pin.str hf) f hf hu
  refine ⟨s₁, s₂, s, hRT, hslot, ⟨2, _, _, _, _, _, hund ▸ List.mem_cons_self ..⟩, hroot, hgone,
    hRT', ?_⟩
  exact handover_not_missed (by decide) h₀ (of_decide_eq_true hN) hs hRT ho hslot haware hroot
    (by rw [hRT']; decide) (.marked (hmarked ▸ List.mem_cons_self ..) (List.mem_cons_self ..))

/-- The thread makes its `Shared` and clears the slot between the two reads of the
helper, which then pushes the batch with the object unmarked. -/
theorem handover_missed : ∃ s₀ s₁ s, Reachable 1 s₀ ∧ s₀.epoch.phase = .N ∧
    step s₀ (.coll 0) = some s₁ ∧ s₁.epoch.phase = .RT ∧ s₁.rootCount 0 = 0 ∧
    Lts.Reaches step (fun s _ => s.anchored 0 (.slot 1 7) ∨ s.anchored 0 .root) s₁ s ∧
    s.anchored 0 .root ∧ s.epoch.phase = .RT ∧ s.Past 0 ∧ s.color 0 ≠ s.blackColor ∧
    ∀ t < s.nLocals, (s.locals t).stack = [] ∧ (s.locals t).markTasks = [] := by
  have hrun : (Lts.runs step (fun _ _ => True) (St.init 1) protectAndLeave).any (fun s₀ =>
      decide (s₀.epoch.phase = .N) && (step s₀ (.coll 0)).any fun s₁ =>
        decide (s₁.epoch.phase = .RT ∧ s₁.rootCount 0 = 0) &&
        (Lts.runs step (fun s _ => s.anchored 0 (.slot 1 7) ∨ s.anchored 0 .root) s₁
          (helperReads ++ promote ++ giveUp ++ .replicate 56 (.run 2 0))).any fun s =>
            decide (s.anchored 0 .root ∧ s.epoch.phase = .RT ∧
              s.markedObjs s.epoch.color 0 = [[0]] ∧ s.color 0 ≠ s.blackColor) &&
            decide (∀ t < s.nLocals, (s.locals t).stack = [] ∧ (s.locals t).markTasks = [])) =
              true := by
    decide +kernel
  obtain ⟨s₀, h₀, h⟩ := Lts.exists_of_any hrun
  obtain ⟨hN, h⟩ := Bool.and_eq_true_iff.1 h
  obtain ⟨s₁, hs, h⟩ := (Option.any_eq_true ..).1 h
  obtain ⟨hstart, h⟩ := Bool.and_eq_true_iff.1 h
  obtain ⟨hRT, hzero⟩ := of_decide_eq_true hstart
  obtain ⟨s, hr, h⟩ := Lts.exists_of_any h
  obtain ⟨h, hrest⟩ := Bool.and_eq_true_iff.1 h
  obtain ⟨hroot, hRT', hmarked, hwhite⟩ := of_decide_eq_true h
  exact ⟨s₀, s₁, s, h₀, of_decide_eq_true hN, hs, hRT, hzero, hr, hroot, hRT',
    .marked (hmarked ▸ List.mem_cons_self ..) (List.mem_cons_self ..), hwhite,
    of_decide_eq_true hrest⟩

end Cdpt
