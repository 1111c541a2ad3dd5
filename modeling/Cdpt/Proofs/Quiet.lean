import Cdpt.Proofs.Idle
import Cdpt.Proofs.TriColor

/-!
# A cycle by the collector alone

What a whole cycle does when no mutator takes a step in it. The collector is then
exact: it keeps an object precisely when a cell of the program or a hazard slot
leads to it, and it gives everything else back before it is idle again.

Both halves are about the same trace. That nothing else is marked is an invariant of
the trace (`Traces`): a task, a frame that marks and a black object belong to a set
that contains the roots and is closed under the links. That everything is marked is
read off at the end, where the trace is confirmed: the roots are black because they
have been held since the cycle began, and black objects have black links.

The second half is assembled from what the modules before have shown for the
collector in company. `Handover` gives the roots, as a cell is a positive root count
(with no operation in flight the two are the same number) and a hazard slot is an
anchor. `Tri` gives the links, with the word "safe" cut down to "black": when the
trace is confirmed there is no task, no mark in progress and no operation in flight
(`Drained`), and what has a root count is a root. The first half needs the other
direction of the same facts: a scanner consults counts and slots, and these speak
for roots only (`Consults`).

Where a cycle stands is one of three (`Turn`): before the trace, in it, or behind
the store of N, each with the invariant that belongs there. A step keeps to its turn
or takes the next, and when the collector is idle again the state is settled, so
that any number of cycles follow by induction over the run.
-/

namespace Cdpt

open Relation Finset

/-! ## What the program can get at -/

/-- A cell of the program or a hazard slot names `o`. -/
def St.roots (s : St) (o : Oid) : Prop :=
  (∃ c x, s.cells c = some x ∧ x.link.addr = some o) ∨ ∃ t k, s.slotHolds t k o

/-- A traced pointer of `o` has the address `p`. -/
def St.points (s : St) (o p : Oid) : Prop :=
  ∃ i < (s.objs o).arity, ((s.objs o).link i).addr = some p

def St.Reached (s : St) (o : Oid) : Prop := ∃ r, s.roots r ∧ ReflTransGen s.points r o

theorem St.Reached.link {s : St} {o p : Oid} (h : s.Reached o) (hp : s.points o p) :
    s.Reached p := by
  obtain ⟨r, hr, hpath⟩ := h
  exact ⟨r, hr, hpath.tail hp⟩

theorem St.Reached.of_root {s : St} {o : Oid} (h : s.roots o) : s.Reached o := ⟨o, h, .refl⟩

/-- With no operation in flight a root count is the number of cells. -/
theorem cell_of_rootCount {s : St} (h : WellFormed s) (hb : s.Balanced)
    (hidle : ∀ t, (s.locals t).stack = []) {o : Oid} (ho : o < s.nextObj)
    (hpos : 0 < s.rootCount o) : ∃ c x, s.cells c = some x ∧ x.link.addr = some o := by
  have hflight : s.inFlight o = 0 := by
    unfold St.inFlight
    exact sum_eq_zero fun t _ => by rw [hidle t]; rfl
  have hkept : s.keptFields o = 0 := by
    unfold St.keptFields St.sumFields
    refine sum_eq_zero fun p hp => sum_eq_zero fun i hi => ?_
    have hm := h.links.done (mem_range.1 hp) (fun t f hf => by rw [hidle t] at hf; cases hf)
      (mem_range.1 hi)
    unfold St.keeps
    split
    · rfl
    · exact if_neg fun hroot => hm hroot.1
  have hcells : s.rootedCells o ≠ 0 := by
    have := hb o ho
    omega
  obtain ⟨c, -, hc⟩ := exists_ne_zero_of_sum_ne_zero hcells
  have hroot : ((s.link (.cell c)).addr = some o) := by
    by_contra hne
    exact hc (if_neg fun hr => hne hr.2)
  cases hx : s.cells c with
  | none =>
      rw [St.link, hx] at hroot
      cases hroot
  | some x =>
      rw [St.link, hx] at hroot
      exact ⟨c, x, hx, hroot⟩

/-! ## Nothing else is marked -/

/-- The objects that a frame is going to mark or to push are in `R`. -/
def St.marksIn (s : St) (R : Oid → Prop) : Frame → Prop
  | .mark (.task o) | .mark (.links o _) | .mark (.header o) | .mark (.headerCas o _) => R o
  | .mark (.linkCas o i _) => R o ∧ i < (s.objs o).arity
  | .ptr (.shade p (.link o i _)) | .ptr (.record p (.link o i _))
  | .ptr (.push p (.link o i _)) => R p ∧ R o ∧ i < (s.objs o).arity
  | _ => True

section Exec

variable {s : St} {t : Lid} {R : Oid → Prop} (hR : ∀ {o p}, R o → s.points o p → R p)

theorem marksIn_of_plain {f : Frame} (h : f.marking = false) : s.marksIn R f := by
  cases f with
  | ptr f =>
      cases f with
      | shade p r | record p r | push p r =>
          cases r with
          | link => cases h
          | _ => trivial
      | _ => trivial
  | mark f => cases h
  | _ => trivial

theorem marksIn_congr {s' : St} (h : ∀ {o}, R o → (s'.objs o).arity = (s.objs o).arity)
    {f : Frame} (hf : s.marksIn R f) : s'.marksIn R f := by
  cases f with
  | ptr f =>
      cases f with
      | shade p r | record p r | push p r =>
          cases r with
          | link o i q => exact ⟨hf.1, hf.2.1, (h hf.2.1).symm ▸ hf.2.2⟩
          | _ => trivial
      | _ => trivial
  | mark f =>
      cases f with
      | linkCas o i p => exact ⟨hf.1, (h hf.1).symm ▸ hf.2⟩
      | _ => exact hf
  | _ => trivial

include hR in
theorem marksIn_shadeLink {o : Oid} {i : Nat} (ho : R o) (hi : i < (s.objs o).arity) :
    s.marksIn R (shadeLink s t o i (s.link (.field o i))) := by
  unfold shadeLink
  split
  · exact ho
  · split
    · next c hc => exact ⟨hR ho ⟨i, hi, hc⟩, ho, hi⟩
    · exact ⟨ho, hi⟩

theorem marksIn_scanHazard {hs : List Oid} {sc : Scanner} {done todo : List Oid} {o : Oid}
    (ho : o ∈ hs → R o) {g : Frame} (hg : g ∈ scanHazard hs sc done o todo) : s.marksIn R g := by
  unfold scanHazard at hg
  split at hg
  · next hmem =>
      simp only [List.mem_cons, List.not_mem_nil, or_false] at hg
      rcases hg with rfl | rfl
      · exact ho hmem
      · trivial
  · rw [List.mem_singleton.1 hg]
    trivial

theorem marksIn_scanObj {sc : Scanner} {done todo : List Oid} {o : Oid}
    (hcount : 0 < s.rootCount o → R o) (hset : ∀ hs, s.consults t hs sc → o ∈ hs → R o)
    {g : Frame} (hg : g ∈ scanObj s t sc done o todo) : s.marksIn R g := by
  unfold scanObj at hg
  split at hg
  · next hpos =>
      simp only [List.mem_cons, List.not_mem_nil, or_false] at hg
      rcases hg with rfl | rfl
      · exact hcount hpos
      · trivial
  · split at hg
    · exact marksIn_scanHazard (hset _ rfl) hg
    · exact marksIn_scanHazard (hset _ rfl) hg
    · split at hg
      · next hs e hcache =>
          split at hg
          · next he => exact marksIn_scanHazard (hset hs (by rw [St.consults, hcache, he])) hg
          · rw [List.mem_singleton.1 hg]
            trivial
      · rw [List.mem_singleton.1 hg]
        trivial

include hR in
/-- A quiet frame that is about objects of `R` pushes frames that are. -/
theorem exec_marksIn {ch : Nat} {f : Frame} (hf : f.quiet = true) (hm : s.marksIn R f)
    (htask : ∀ o ∈ (s.locals t).markTasks, R o)
    (hslot : ∀ o, some o ∈ (s.locals t).hazards → R o)
    (hscan : ∀ {sc done o todo}, f = .help (.scanObjs sc done (o :: todo)) →
      (0 < s.rootCount o → R o) ∧ ∀ hs, s.consults t hs sc → o ∈ hs → R o)
    (hforce : ∀ {acc sc done o todo}, f = .help (.forceHps (.iter .fin) acc sc done o todo) →
      o ∈ acc → R o) {g : Frame} (hg : g ∈ (exec s t ch f).2) : s.marksIn R g := by
  have hplain : ∀ {fs : List Frame}, fs.all (fun g => !g.marking) = true → g ∈ fs →
      s.marksIn R g := by
    intro fs hall hmem
    exact marksIn_of_plain (by simpa using List.all_eq_true.1 hall g hmem)
  have hsingle : ∀ {x : Frame}, g ∈ [x] → s.marksIn R x → s.marksIn R g := by
    intro x hmem hx
    exact List.mem_singleton.1 hmem ▸ hx
  cases f with
  | pin f =>
      cases f with
      | barrier i =>
          simp only [exec, execPin] at hg
          split at hg
          · exact hplain rfl hg
          · exact hplain rfl hg
          · next o ho =>
              rcases List.mem_cons.1 hg with rfl | hg
              · trivial
              · rcases List.mem_cons.1 hg with rfl | hg
                · exact hslot o (List.mem_of_getElem? ho)
                · exact hplain rfl hg
      | _ =>
          simp only [exec, execPin] at hg
          repeat' split at hg
          all_goals exact hplain rfl hg
  | ptr f =>
      cases f with
      | shade p r =>
          cases r with
          | link o i q =>
              simp only [exec, execPtr] at hg
              split at hg
              · exact hsingle hg hm.2
              · exact hsingle hg hm
          | _ => cases hf
      | record p r => exact hsingle hg (by cases r <;> exact hm)
      | push p r =>
          cases r with
          | link o i q => exact hsingle hg hm.2
          | _ => cases hf
      | _ => cases hf
  | mark f =>
      cases f with
      | task o =>
          simp only [exec, execMark] at hg
          split at hg
          · cases hg
          · exact hsingle hg hm
      | links o i =>
          simp only [exec, execMark] at hg
          split at hg
          · next hi => exact hsingle hg (marksIn_shadeLink hR hm hi)
          · exact hsingle hg hm
      | linkCas o i p =>
          simp only [exec, execMark] at hg
          split at hg
          · exact hsingle hg hm.1
          · exact hsingle hg (marksIn_shadeLink hR hm.1 hm.2)
      | header o =>
          simp only [exec, execMark] at hg
          split at hg
          · cases hg
          · exact hsingle hg hm
      | headerCas o h =>
          simp only [exec, execMark] at hg
          repeat' split at hg
          · cases hg
          · cases hg
          · exact hsingle hg hm
  | help f =>
      cases f with
      | scanObjs sc done todo =>
          cases todo with
          | nil =>
              simp only [exec, execHelp, Scanner.next] at hg
              repeat' split at hg
              all_goals exact hplain rfl hg
          | cons o todo => exact marksIn_scanObj (hscan rfl).1 (hscan rfl).2 hg
      | forceHps h acc sc done o todo =>
          simp only [exec, execHelp] at hg
          split at hg
          · exact marksIn_scanHazard (hforce rfl) hg
          · exact hplain rfl hg
      | drainPop n =>
          simp only [exec, execHelp] at hg
          split at hg
          · next o q htasks =>
              rcases List.mem_cons.1 hg with rfl | hg
              · exact htask o (htasks ▸ List.mem_cons_self)
              · exact hplain rfl hg
          · cases hg
      | _ =>
          simp only [exec, execHelp] at hg
          repeat' split at hg
          all_goals exact hplain rfl hg

end Exec

/-- A task is an old one, or the effect has pushed it. -/
theorem mem_tasks_of_apply {e : Eff} {s : St} {t i : Lid} {p : Oid}
    (h : p ∈ ((e.apply s t).locals i).markTasks) :
    (∃ j, p ∈ (s.locals j).markTasks) ∨ e = .pushTask p := by
  rcases markTasks_apply e s t i with heq | ⟨o, rfl, -, heq⟩ | ⟨-, -, heq⟩ | ⟨j, n, rfl, -⟩
  · exact .inl ⟨i, heq ▸ h⟩
  · rw [heq] at h
    rcases List.mem_append.1 h with h | h
    · exact .inl ⟨i, h⟩
    · exact .inr (List.mem_singleton.1 h ▸ rfl)
  · exact .inl ⟨i, List.mem_of_mem_tail (heq ▸ h)⟩
  · -- what the thief has and what it leaves were in the two queues
    refine .inl ?_
    simp only [Eff.apply, setLocal_locals] at h
    split at h
    · rcases List.mem_append.1 h with h | h
      · split at h
        · exact ⟨j, List.mem_of_mem_drop h⟩
        · exact ⟨t, h⟩
      · exact ⟨j, List.mem_of_mem_take (List.mem_of_mem_tail h)⟩
    · split at h
      · exact ⟨j, List.mem_of_mem_drop h⟩
      · exact ⟨i, h⟩

theorem tasks_cases {s s' : St} {lab : Label} (hs : StepCase s lab s') {i : Lid} {p : Oid}
    (h : p ∈ (s'.locals i).markTasks) :
    (∃ j, p ∈ (s.locals j).markTasks) ∨
    ∃ t ch r rest, lab = .run t ch ∧ (s.locals t).stack = .ptr (.push p r) :: rest := by
  have hreg : ∀ t, p ∈ ((s.register t).locals i).markTasks → ∃ j, p ∈ (s.locals j).markTasks := by
    intro t h
    unfold St.register at h
    split at h
    · simp only [setLocal_locals] at h
      split at h
      · exact ⟨t, h⟩
      · exact ⟨i, h⟩
    · simp only [setLocal_locals] at h
      split at h
      · cases h
      · exact ⟨i, h⟩
  cases hs with
  | op ht hu hst hc hop =>
      rw [setStack_tasks, startOp_tasks hop] at h
      exact .inl ⟨i, h⟩
  | @run t ch f rest ht hst =>
      rw [setStack_tasks] at h
      rcases mem_tasks_of_apply h with h | he
      · exact .inl h
      · obtain ⟨r, rfl⟩ := exec_pushTask he
        exact .inr ⟨t, ch, r, rest, rfl, hst⟩
  | @coll ch e st fs hst hcoll =>
      rw [setStack_tasks] at h
      rcases mem_tasks_of_apply h with h | he
      · exact .inl h
      · exact absurd he ((collStep_tasks hcoll).1 p)
  | @sweep k ch w hw =>
      rcases mem_tasks_of_apply h with h | he
      · exact .inl h
      · exact absurd he ((sweepStep_tasks s w ch).1 p)
  | @startWorker t lo hi hz js hj hr hc =>
      rw [setStack_tasks] at h
      exact .inl (hreg t h)
  | @register t hr hc => exact .inl (hreg t h)
  | @exit t ht hu hst hg hh hc =>
      rw [setLocal_locals] at h
      split at h
      · exact .inl ⟨t, h⟩
      · exact .inl ⟨i, h⟩

theorem collStep_mark {s : St} {ch : Nat} {e : Eff} {st : Stage} {fs : List Frame} {g : Frame}
    (h : collStep s ch = some (e, st, fs)) (hg : g ∈ fs) :
    g.marking = false ∨ ∃ j o, o ∈ (s.locals j).markTasks ∧ g = .mark (.task o) := by
  have hpins : ∀ {fs : List Frame}, g ∈ fs → fs.all (fun g => !g.marking) = true →
      g.marking = false := by
    intro fs hmem hall
    simpa using List.all_eq_true.1 hall g hmem
  unfold collStep at h
  simp only at h
  repeat' split at h
  all_goals cases h
  all_goals first
    | exact .inl (hpins hg rfl)
    | (next o q hq =>
        exact .inr ⟨_, o, hq ▸ List.mem_cons_self, List.mem_singleton.1 hg⟩)

/-- Tasks, frames that mark and objects of colour `b` are about objects of `R`. -/
structure Traces (s : St) (R : Oid → Prop) (b : Color) : Prop where
  task : ∀ {t o}, o ∈ (s.locals t).markTasks → R o
  frame : ∀ {t f}, f ∈ (s.locals t).stack → s.marksIn R f
  black : ∀ {o}, s.Live o → s.color o = b → R o

/-- What a trace consults before it marks an object as a root speaks for objects of `R`. -/
structure Consults (s : St) (R : Oid → Prop) : Prop where
  slot : ∀ {t o}, some o ∈ (s.locals t).hazards → R o
  count : ∀ {o}, o < s.nextObj → 0 < s.rootCount o → R o
  set : ∀ {t sc done todo hs o}, .help (.scanObjs sc done todo) ∈ (s.locals t).stack →
    s.consults t hs sc → o ∈ hs → R o
  force : ∀ {t acc sc done p todo o},
    .help (.forceHps (.iter .fin) acc sc done p todo) ∈ (s.locals t).stack → o ∈ acc → R o

section Step

variable {s s' : St} {lab : Label} {R : Oid → Prop} {b : Color} (h : Traces s R b)
  (hwf : WellFormed s) (hstill : Still s) (hs : StepCase s lab s') (hl : lab.silent = true)

include h hs

include hstill in
theorem Traces.task_step {t : Lid} {o : Oid} (ho : o ∈ (s'.locals t).markTasks) : R o := by
  rcases tasks_cases hs ho with ⟨j, hj⟩ | ⟨t, ch, r, rest, -, hst⟩
  · exact h.task hj
  · have hmem : .ptr (.push o r) ∈ (s.locals t).stack := hst ▸ List.mem_cons_self
    have hq := hstill.quiet hmem
    have hm := h.frame hmem
    cases r with
    | link p i q => exact hm.1
    | _ => cases hq

include hl in
theorem Traces.black_step {o : Oid} (hlive : s'.Live o) (hcol : s'.color o = b) : R o := by
  have hlive' : s.Live o := by
    rcases live_step hs hlive with hlive | ⟨t, cs, size, k, rfl, -⟩
    · exact hlive
    · cases hl
  rcases color_step hs o with heq | ⟨t, cs, size, k, rfl, -⟩ | ⟨t, ch, hd, rest, -, hst, -⟩
  · exact h.black hlive' (heq ▸ hcol)
  · cases hl
  · exact h.frame (f := .mark (.headerCas o hd)) (hst ▸ List.mem_cons_self)

include hwf hstill hl in
theorem Traces.frame_step (hR : ∀ {o p}, R o → s.points o p → R p) (hc : Consults s R)
    {t : Lid} {g : Frame} (hg : g ∈ (s'.locals t).stack) : s.marksIn R g := by
  have hstep := stack_step hwf.ground.pin.str hs t
  generalize (s'.locals t).stack = fs at hstep hg
  cases hstep with
  | same => exact h.frame hg
  | op hl' => exact absurd hl (by simp [hl', Label.silent])
  | @run ch f rest hl' ht hst =>
      rcases List.mem_append.1 hg with hg | hg
      · have hmem : f ∈ (s.locals t).stack := hst ▸ List.mem_cons_self
        refine exec_marksIn hR (hstill.quiet hmem) (h.frame hmem) (fun o ho => h.task ho)
          (fun o ho => hc.slot ho) ?_ ?_ hg
        · rintro sc done o todo rfl
          have ho : o < s.nextObj := hwf.alloc.takenLt (.frame hmem (.inr List.mem_cons_self))
          exact ⟨hc.count ho, fun hs hcons => hc.set hmem hcons⟩
        · rintro acc sc done o todo rfl
          exact hc.force hmem
      · exact h.frame (hst ▸ List.mem_cons_of_mem f hg)
  | coll hl' ht hst hcoll =>
      rcases collStep_mark hcoll hg with hg | ⟨j, o, ho, rfl⟩
      · exact marksIn_of_plain hg
      · exact h.task ho
  | worker =>
      simp only [List.mem_cons, List.not_mem_nil, or_false] at hg
      rcases hg with rfl | rfl | rfl | rfl | rfl <;> trivial

include hwf hstill hl in
theorem Traces.step (hR : ∀ {o p}, R o → s.points o p → R p) (hc : Consults s R)
    (harity : ∀ {o}, R o → (s'.objs o).arity = (s.objs o).arity) : Traces s' R b := by
  refine ⟨h.task_step hstill hs, fun hg => ?_, h.black_step hs hl⟩
  exact marksIn_congr harity (h.frame_step hwf hstill hs hl hR hc hg)

end Step

/-! ## The hazards that are collected -/

/-- A scan of the hazard slots has met objects of `R`, and is in an array of such. -/
def St.collects (s : St) (R : Oid → Prop) (h : HpScan) (acc : List Oid) : Prop :=
  (∀ o ∈ acc, R o) ∧
    ∀ i ver j nx, h = .slots i ver j nx → ∀ o, some o ∈ s.hazardArray i ver → R o

theorem collects_start (s : St) (R : Oid → Prop) : s.collects R (.iter s.firstNode) [] :=
  ⟨fun _ h => (List.not_mem_nil h).elim, fun _ _ _ _ h => by cases h⟩

theorem collects_hpStep {s : St} {R : Oid → Prop}
    (hslot : ∀ {t o}, some o ∈ (s.locals t).hazards → R o) {h : HpScan} {acc : List Oid}
    (hc : s.collects R h acc) : s.collects R (s.hpStep h acc).1 (s.hpStep h acc).2 := by
  obtain ⟨hacc, harr⟩ := hc
  have hiter : ∀ it, s.collects R (.iter it) acc := fun it => ⟨hacc, fun _ _ _ _ h => by cases h⟩
  cases h with
  | iter it =>
      cases it with
      | act i nx =>
          refine ⟨hacc, ?_⟩
          rintro i' ver j nx' heq o ho
          cases heq
          rw [St.hazardArray, if_pos rfl] at ho
          exact hslot ho
      | _ => exact hiter _
  | slots i ver j nx =>
      have harr' := harr i ver j nx rfl
      have hnext : ∀ {acc'}, (∀ o ∈ acc', R o) → s.collects R (.slots i ver (j + 1) nx) acc' := by
        intro acc' hacc'
        refine ⟨hacc', ?_⟩
        rintro i' ver' j' nx' heq
        cases heq
        exact harr'
      simp only [St.hpStep]
      split
      · exact hiter _
      · exact hnext hacc
      · next o ho =>
          refine hnext fun p hp => ?_
          rcases List.mem_append.1 hp with hp | hp
          · exact hacc p hp
          · rw [List.mem_singleton.1 hp]
            exact harr' o (List.mem_of_getElem? ho)

theorem collects_keep {s s' : St} {R : Oid → Prop}
    (h : ∀ {t ver a}, some a ∈ s'.hazardArray t ver → some a ∈ s.hazardArray t ver)
    {sc : HpScan} {acc : List Oid} (hc : s.collects R sc acc) : s'.collects R sc acc :=
  ⟨hc.1, fun i ver j nx heq o ho => hc.2 i ver j nx heq o (h ho)⟩

/-! ## The state between two cycles -/

/-- No operation is in flight, no sweep or mark is pending, everything is white, and what
the program can get at is there. -/
structure Settled (s : St) : Prop where
  white : AllWhite s
  task : ∀ t, (s.locals t).markTasks = []
  live : ∀ o, s.Reached o → s.Live o

section Untouched

variable {s₀ s : St} (hset : Settled s₀) (hsame : Untouched s₀ s)

include hset

theorem Settled.lt {o : Oid} (h : s₀.Reached o) : o < s₀.nextObj := (hset.live o h).1

include hsame

theorem Settled.points {o p : Oid} (ho : s₀.Reached o) : s.points o p ↔ s₀.points o p := by
  have hlt := hset.lt ho
  simp only [St.points, hsame.arity o hlt, hsame.addr o hlt]

theorem Settled.closed {o p : Oid} (ho : s₀.Reached o) (hp : s.points o p) : s₀.Reached p :=
  ho.link ((hset.points hsame ho).1 hp)

omit hset in
theorem Untouched.roots (o : Oid) : s.roots o ↔ s₀.roots o := by
  simp only [St.roots, hsame.cells, hsame.slots]

theorem Settled.reached (o : Oid) : s.Reached o ↔ s₀.Reached o := by
  constructor
  · rintro ⟨r, hr, hpath⟩
    induction hpath with
    | refl => exact .of_root ((hsame.roots r).1 hr)
    | tail _ hp ih => exact hset.closed hsame ih hp
  · rintro ⟨r, hr, hpath⟩
    suffices hboth : s.Reached o ∧ s₀.Reached o from hboth.1
    induction hpath with
    | refl => exact ⟨.of_root ((hsame.roots r).2 hr), .of_root hr⟩
    | tail _ hp ih => exact ⟨ih.1.link ((hset.points hsame ih.2).2 hp), ih.2.link hp⟩

/-- Counts and slots speak for what the program can get at. -/
theorem Settled.consults {n : Nat} (h₀ : Reachable n s₀) (hR : Reachable n s) (hstill : Still s)
    (hinf : Informed s (s.collects s₀.Reached) fun hs => ∀ o ∈ hs, s₀.Reached o) :
    Consults s s₀.Reached where
  slot {t o} ho := by
    obtain ⟨k, hk⟩ := List.mem_iff_getElem?.1 ho
    have hus : (s.locals t).isUsing = true := by
      cases hu : (s.locals t).isUsing with
      | true => rfl
      | false => cases (FreeSlots.of_reachable hR).empty (.inl hu) _ ho
    exact .of_root (.inr ⟨t, k, (hsame.slots t k o).1 ⟨hus, hk⟩⟩)
  count {o} ho hpos := by
    rw [hsame.nextObj] at ho
    rw [hsame.count o ho] at hpos
    exact .of_root (.inl (cell_of_rootCount (.of_reachable h₀) (balanced_of_reachable h₀)
      hset.white.idle ho hpos))
  set {t sc done todo hs o} hf hcons ho := by
    have hg := Ground.of_reachable hR
    have hN := (hstill.phase hg.pin (List.ne_nil_of_mem hf)).2
    exact hinf.consults hg (.of_reachable hR) hN hf hcons o ho
  force hf ho := (hinf.force hf).1 _ ho

end Untouched

/-! ## Tasks -/

/-- A walk over the queues: those it has passed are empty. -/
def St.searched (s : St) (it : Iter) : Prop :=
  it.Untested ∧ ∀ j, it.passed j → (s.locals j).markTasks = []

/-- The walks of `find_task` and of the second pass of the confirmation. -/
def Stage.searching : Stage → Option Iter
  | .steal it | .conf2 it => some it
  | _ => none

/-- While the collector checks that it is done, and after that, there is no task left. -/
structure Drained (s : St) : Prop where
  walk : ∀ {it}, s.stage.searching = some it → s.searched it
  conf3 : (∃ it, s.stage = .conf3 it) ∨ s.stage = .nextNormal → ∀ j, (s.locals j).markTasks = []
  normal : s.epoch.phase = .N → ∀ j, (s.locals j).markTasks = []

/-- At rest, only the walk that has found a task touches a queue. -/
theorem Still.tasks {s s' : St} {lab : Label} (h : Still s) (hwf : WellFormed s)
    (hs : StepCase s lab s') (hr : s.stage.rests = true)
    (hr' : s.stage.draining = true → s'.stage.rests = true) (j : Lid) :
    (s'.locals j).markTasks = (s.locals j).markTasks := by
  by_contra hne
  rcases queue_change hwf.tasks hs hne with ⟨ch, f, rest, -, hst, -⟩ |
      ⟨ch, e, st, fs, rfl, hcoll, he⟩
  · rw [h.rests hr j] at hst
    cases hst
  · have hd := collStep_onTasks hcoll he
    have hst' : s'.stage = st := by
      cases hs with
      | coll hstk hcoll' =>
          rw [hcoll] at hcoll'
          cases hcoll'
          rfl
    rw [hst'] at hr'
    specialize hr' hd
    cases hst : s.stage with
    | steal it =>
        simp only [collStep, hst] at hcoll
        repeat' split at hcoll
        all_goals first
          | (cases hcoll; cases hr'; done)
          | (cases hcoll; cases he)
    | _ => rw [hst] at hr hd; first | (cases hr; done) | cases hd

theorem rests_of_normal {s : St} (hp : PinInv s) (hN : s.epoch.phase = .N) :
    s.stage.rests = true ∧ s.stage.draining = false := by
  have hin := hp.phase
  rw [hN] at hin
  generalize s.stage = st at hin
  cases st <;> first | exact ⟨rfl, rfl⟩ | cases hin

theorem rests_of_searching {st : Stage} {it : Iter} (h : st.searching = some it) :
    st.rests = true := by
  cases st <;> first | rfl | cases h

theorem collStep_steal {s : St} {ch : Nat} {e : Eff} {fs : List Frame} {it : Iter}
    (h : collStep s ch = some (e, .steal it, fs)) :
    it = s.firstNode ∨ ∃ it₀, s.stage = .steal it₀ ∧ (it = s.iterStep true it₀ ∨
      ∃ i nx, it₀ = .act i nx ∧ (s.locals i).markTasks = [] ∧ it = .goto nx) := by
  cases hs : s.stage with
  | find =>
      simp only [collStep, hs] at h
      split at h
      · cases h
      · cases h
        exact .inl rfl
  | steal it₀ =>
      refine .inr ⟨it₀, rfl, ?_⟩
      cases it₀ with
      | act i nx =>
          simp only [collStep, hs] at h
          split at h
          · cases h
          · next htask =>
              cases h
              exact .inr ⟨i, nx, rfl, htask, rfl⟩
      | fin =>
          simp only [collStep, hs] at h
          cases h
      | _ =>
          simp only [collStep, hs, Option.some.injEq, Prod.mk.injEq] at h
          exact .inl (Stage.steal.inj h.2.1).symm
  | wait it₀ =>
      rcases collStep_wait hs h with ⟨it', h'⟩ | h' | h' | h' <;> cases h'
  | _ =>
      simp only [collStep, hs] at h
      repeat' split at h
      all_goals cases h

theorem collStep_searching {s : St} {ch : Nat} {e : Eff} {st : Stage} {fs : List Frame} {it : Iter}
    (h : collStep s ch = some (e, st, fs)) (hst : st.searching = some it) :
    it = s.firstNode ∨ ∃ it₀, s.stage.searching = some it₀ ∧ (it = s.iterStep true it₀ ∨
      ∃ i nx, it₀ = .act i nx ∧ (s.locals i).markTasks = [] ∧ it = .goto nx) := by
  cases st with
  | steal it' =>
      cases hst
      rcases collStep_steal h with hit | ⟨it₀, hst₀, hit⟩
      · exact .inl hit
      · exact .inr ⟨it₀, by rw [hst₀]; rfl, hit⟩
  | conf2 it' =>
      cases hst
      rcases collStep_conf2 h with hit | ⟨it₀, hst₀, hit⟩
      · exact .inl hit
      · exact .inr ⟨it₀, by rw [hst₀]; rfl, hit⟩
  | _ => cases hst

theorem Drained.walk_step {s s' : St} {lab : Label} (h : Drained s) (hstill : Still s)
    (hwf : WellFormed s) (hs : StepCase s lab s') {it : Iter}
    (hst : s'.stage.searching = some it) : s'.searched it := by
  by_cases hl : lab.isColl = true
  · cases hs with
    | @coll ch e st fs hstk hcoll =>
        have hs := StepCase.coll hstk hcoll
        rcases collStep_searching hcoll hst with rfl | ⟨it₀, hst₀, hit⟩
        · rw [hwf.ground.pin.str.firstNode]
          exact ⟨trivial, fun j hj => absurd hj (Nat.not_lt_zero j)⟩
        · obtain ⟨hun, hpassed⟩ := h.walk hst₀
          have hkeep := hstill.tasks hwf hs (rests_of_searching hst₀)
            fun _ => rests_of_searching hst
          rcases hit with rfl | ⟨i, nx, rfl, htask, rfl⟩
          · obtain ⟨hun', hpass⟩ := iterStep_all (s := s) hun
            refine ⟨hun', fun j hj => ?_⟩
            rw [hkeep]
            rcases hpass hj with hj | hj
            · exact hpassed j hj
            · exact hwf.tasks j hj
          · refine ⟨Iter.untested_goto nx, fun j hj => ?_⟩
            rw [hkeep]
            rcases Iter.passed_goto hun hj with hj | rfl
            · exact hpassed j hj
            · exact htask
    | _ => cases hl
  · have hstage := stage_of_not_coll hs (Bool.eq_false_iff.2 hl)
    have hst₀ := hstage ▸ hst
    obtain ⟨hun, hpassed⟩ := h.walk hst₀
    refine ⟨hun, fun j hj => ?_⟩
    rw [hstill.tasks hwf hs (rests_of_searching hst₀) fun _ => rests_of_searching hst]
    exact hpassed j hj

theorem Drained.conf3_step {s s' : St} {lab : Label} (h : Drained s) (hstill : Still s)
    (hwf : WellFormed s) (hs : StepCase s lab s')
    (hst : (∃ it, s'.stage = .conf3 it) ∨ s'.stage = .nextNormal) (j : Lid) :
    (s'.locals j).markTasks = [] := by
  have hr' : s'.stage.rests = true := by
    rcases hst with ⟨it, hst⟩ | hst <;> rw [hst] <;> rfl
  have hkeep : s.stage.rests = true → (s.locals j).markTasks = [] → (s'.locals j).markTasks = [] :=
    fun hr hj => (hstill.tasks hwf hs hr (fun _ => hr') j).trans hj
  have hold : (∃ it, s.stage = .conf3 it) ∨ s.stage = .nextNormal →
      (s'.locals j).markTasks = [] := by
    intro hst₀
    refine hkeep ?_ (h.conf3 hst₀ j)
    rcases hst₀ with ⟨it, hst₀⟩ | hst₀ <;> rw [hst₀] <;> rfl
  by_cases hl : lab.isColl = true
  · cases hs with
    | @coll ch e st fs hstk hcoll =>
        rcases hst with ⟨it, hst⟩ | hst
        · obtain rfl : st = .conf3 it := hst
          rcases collStep_of_conf3 hcoll with hst₀ | hst₀
          · have hsearch : s.stage.searching = some .fin := by rw [hst₀]; rfl
            exact hkeep (rests_of_searching hsearch) ((h.walk hsearch).2 j trivial)
          · exact hold (.inl hst₀)
        · obtain rfl : st = .nextNormal := hst
          rcases collStep_confirm hcoll with ⟨-, hst₀⟩ | ⟨-, hne⟩
          · exact hold (.inl ⟨_, hst₀⟩)
          · exact absurd rfl hne
    | _ => cases hl
  · rw [stage_of_not_coll hs (Bool.eq_false_iff.2 hl)] at hst
    exact hold hst

theorem Drained.normal_step {s s' : St} {lab : Label} (h : Drained s) (hstill : Still s)
    (hwf : WellFormed s) (hs : StepCase s lab s') (hN : s'.epoch.phase = .N) (j : Lid) :
    (s'.locals j).markTasks = [] := by
  rcases epoch_cases hs with he | ⟨-, -, -, hloc, -, ⟨-, he⟩ | ⟨-, he⟩ | ⟨hst, -⟩⟩
  · rw [he] at hN
    obtain ⟨hr, hd⟩ := rests_of_normal hwf.ground.pin hN
    rw [hstill.tasks hwf hs hr fun h => absurd (hd ▸ h) Bool.false_ne_true]
    exact h.normal hN j
  · rw [he] at hN
    cases hN
  · rw [he] at hN
    cases hN
  · rw [hloc]
    exact h.conf3 (.inr hst) j

theorem Drained.step {s s' : St} {lab : Label} (h : Drained s) (hstill : Still s)
    (hwf : WellFormed s) (hs : StepCase s lab s') : Drained s' :=
  ⟨h.walk_step hstill hwf hs, h.conf3_step hstill hwf hs, h.normal_step hstill hwf hs⟩

/-! ## The cycle -/

/-- Where a cycle that the collector runs alone from `s₀` stands. -/
inductive Turn (s₀ s : St) : Prop
  | before (he : s.epoch = s₀.epoch) (hcalm : Calm s)
  | trace (hN : s.epoch.phase ≠ .N) (hc : s.epoch.color = s₀.epoch.color) (htri : Tri s)
  | after (hN : s.epoch.phase = .N) (hc : s.epoch.color = s₀.epoch.color.flip)
      (hdone : ∀ o, s₀.Reached o → s.color o = s.epoch.color)
      (hlink : ∀ o, s₀.Reached o → ∀ i < (s.objs o).arity, s.dark s.epoch.color o i)

structure Quiet (n : Nat) (s₀ s : St) : Prop where
  reach : Reachable n s
  still : Still s
  same : Untouched s₀ s
  held : ∀ {o a}, s₀.Reached o → s₀.anchored o a → Held n a o s
  informed : Informed s (s.collects s₀.Reached) fun hs => ∀ o ∈ hs, s₀.Reached o
  traces : Traces s s₀.Reached s₀.epoch.color.flip
  drained : Drained s
  live : ∀ o, s₀.Reached o → s.Live o
  fewer : ∀ o, s.Live o → s₀.Live o
  turn : Turn s₀ s

theorem AllWhite.swept_all {s : St} (h : AllWhite s) (hP : PlaceInv s) {o : Oid} :
    ¬ s.Unswept o := by
  rintro (⟨hf, -⟩ | ⟨hb, -⟩ | ⟨hw, -⟩)
  · rw [h.idle] at hf
    cases hf
  · obtain ⟨-, w, hw, -⟩ := hP.swept (List.ne_nil_of_mem hb)
    rw [h.swept] at hw
    cases hw
  · rw [h.swept] at hw
    cases hw

theorem AllWhite.overlap {s : St} (h : AllWhite s) (hP : PlaceInv s) : OverlapInv s where
  wf := hP.wf
  stock := hP.stock
  white := hP.white
  done hst := by
    have hin := hP.wf.ground.pin.phase
    rw [hst, h.normal] at hin
    cases hin
  kept _ _ hu := absurd hu (h.swept_all hP)
  unmarked hN := absurd h.normal hN

theorem anchored_of_root {n : Nat} {s : St} (h : Reachable n s) {o : Oid} (ho : s.roots o) :
    ∃ a, s.anchored o a := by
  rcases ho with ⟨c, x, hx, ha⟩ | ⟨t, k, hk⟩
  · exact ⟨.root, rootCount_pos_of_cell (.of_reachable h) (balanced_of_reachable h) hx ha⟩
  · exact ⟨.slot t k, hk⟩

theorem Quiet.start {n : Nat} (hn : 0 < n) {s : St} (h : Reachable n s) (hset : Settled s) :
    Quiet n s s where
  reach := h
  still := .of_idle hset.white.idle
  same := .refl s
  held {o a} ho _ := by
    have hlive := hset.live o ho
    exact .of_normal h (hset.white.overlap (.of_reachable hn h)) hset.white.normal hlive
      (hset.white.color o hlive) a
  informed := .of_normal (.of_reachable h) (.of_reachable h) hset.white.normal _ _
  traces := by
    refine ⟨fun {t o} ho => ?_, fun {t f} hf => ?_, fun {o} hlive hcol => ?_⟩
    · rw [hset.task t] at ho
      cases ho
    · rw [hset.white.idle t] at hf
      cases hf
    · rw [hset.white.color o hlive] at hcol
      exact absurd hcol (Color.ne_flip _)
  drained := by
    refine ⟨fun {it} hst => ?_, fun _ => hset.task, fun _ => hset.task⟩
    have hdrain := (rests_of_normal (.of_reachable h) hset.white.normal).2
    have hin := (PinInv.of_reachable h).phase
    rw [hset.white.normal] at hin
    generalize s.stage = st at hst hdrain hin
    cases st <;> first | (cases hst; done) | (cases hdrain; done) | cases hin
  live := hset.live
  fewer _ ho := ho
  turn := .before rfl hset.white.calm

section Cycle

variable {n : Nat} {s₀ s s' : St} {lab : Label} (hn : 0 < n) (h₀ : Reachable n s₀)
  (hset : Settled s₀) (h : Quiet n s₀ s) (hs : step s lab = some s') (hl : lab.silent = true)

include h in
theorem Quiet.anchored {o : Oid} {a : Anchor} (ho : o < s₀.nextObj) (ha : s₀.anchored o a) :
    s.anchored o a := by
  cases a with
  | slot i k => exact (h.same.slots i k o).2 ha
  | root =>
      show 0 < s.rootCount o
      rw [h.same.count o ho]
      exact ha

/-- Those who run have no hazards of their own to mark. -/
theorem Still.barrierClear {s : St} (h : Still s) (hR : Reachable n s) (lab : Label) :
    barrierClear s lab := by
  rintro t ch f rest o - hst ⟨i, -, hi⟩
  have hu := h.unowned (t := t) (by simp [hst])
  cases (FreeSlots.of_reachable hR).empty hu _ (List.mem_of_getElem? hi)

include hn h in
theorem Quiet.anchored_confirmed (hst : s.stage = .nextNormal) {o : Oid} {a : Anchor}
    (ho : s₀.Reached o) (ha : s₀.anchored o a) : s.color o = s.epoch.color.flip :=
  (h.held ho ha).kept.confirmed (.of_reachable hn h.reach) h.reach hst

include h in
theorem Quiet.unrooted (hidle : ∀ t, (s.locals t).stack = []) {o : Oid} (ho : o < s₀.nextObj)
    {i : Nat} (hi : i < (s.objs o).arity) : ((s.objs o).link i).ptrMeta ≠ .Rooted := by
  refine (WellFormed.of_reachable h.reach).links.done (h.same.nextObj ▸ ho) ?_ hi
  intro t f hf
  rw [hidle t] at hf
  cases hf

include hn h₀ hset h in
/-- When the trace is confirmed, all that the program can get at is black. -/
theorem Quiet.confirmed (hst : s.stage = .nextNormal) (htri : Tri s) {o : Oid}
    (ho : s₀.Reached o) : s.color o = s.epoch.color.flip := by
  have hidle := h.still.rests (by rw [hst]; rfl)
  obtain ⟨r, hr, hpath⟩ := ho
  induction hpath with
  | refl =>
      obtain ⟨a, ha⟩ := anchored_of_root h₀ hr
      exact h.anchored_confirmed hn hst (.of_root hr) ha
  | @tail b c hpath hp ih =>
      have hb : s₀.Reached b := ⟨r, hr, hpath⟩
      have hlt := hset.lt hb
      obtain ⟨i, hi, haddr⟩ := (hset.points h.same hb).2 hp
      have hdark := (htri.black (h.live b hb) ih hi).resolve_left (h.unrooted hidle hlt hi)
      -- nothing is pending any more, so the pointee of a black link is black
      rcases htri.link (h.live b hb) hi hdark haddr with hcol | hmark | hpos | ⟨t, f, hf, -⟩
      · exact hcol
      · rcases hmark with ⟨t, htask⟩ | ⟨t, f, hf, -⟩
        · rw [h.drained.conf3 (.inr hst) t] at htask
          cases htask
        · rw [hidle t] at hf
          cases hf
      · rw [h.same.count c (hset.lt (hb.link hp))] at hpos
        exact h.anchored_confirmed hn hst (hb.link hp) (a := .root) hpos
      · rw [hidle t] at hf
        cases hf

/-! ## One step -/

include hn hset h hs in
theorem Quiet.held_step {o : Oid} {a : Anchor} (ho : s₀.Reached o) (ha : s₀.anchored o a) :
    Held n a o s' :=
  (h.held ho ha).step hn ⟨h.anchored (hset.lt ho) ha, h.still.barrierClear h.reach lab⟩ hs

include h hs hl in
theorem Quiet.same_step : Untouched s s' :=
  h.still.untouched (.of_reachable h.reach) (.of_reachable h.reach) (stepCase hs) hl

include h₀ hset h hs hl in
theorem Quiet.informed_step :
    Informed s' (s'.collects s₀.Reached) fun hs => ∀ o ∈ hs, s₀.Reached o := by
  have hc := hset.consults h.same h₀ h.reach h.still h.informed
  refine h.informed.step (.of_reachable h.reach) (stepCase hs) (collects_start s _)
    (collects_hpStep hc.slot) And.left (collects_keep (h.same_step hs hl).arrays)

include h₀ hset h hs hl in
theorem Quiet.traces_step : Traces s' s₀.Reached s₀.epoch.color.flip := by
  have hc := hset.consults h.same h₀ h.reach h.still h.informed
  refine h.traces.step (.of_reachable h.reach) h.still (stepCase hs) hl (hset.closed h.same) hc ?_
  intro o ho
  exact (h.same_step hs hl).arity o (h.same.nextObj ▸ hset.lt ho)

include hn hset h hs hl in
theorem Quiet.live_step {o : Oid} (ho : s₀.Reached o) : s'.Live o := by
  have hcase := stepCase hs
  have hP := PlaceInv.of_reachable hn h.reach
  obtain ⟨hlt, hlive⟩ := h.live o ho
  refine ⟨(h.same_step hs hl).nextObj ▸ hlt, ?_⟩
  by_contra hne
  have hgone : (s'.objs o).reclaimed = true := by simpa using hne
  have hnormal : s.epoch.phase = .N → s.color o = s.epoch.color.flip := by
    intro hN
    rcases reclaimed_color hP.wf hP.white hN hcase hlt hgone with hgone | hcol
    · rw [hlive] at hgone
      cases hgone
    · exact hcol
  cases h.turn with
  | before he hcalm =>
      have hcol := hnormal (he ▸ hset.white.normal)
      rw [hcalm.color ⟨hlt, hlive⟩] at hcol
      exact Color.ne_flip _ hcol
  | trace hN hc htri =>
      rcases reclaims_of_step hcase hlt hgone with hgone | hrec
      · rw [hlive] at hgone
        cases hgone
      · cases lab with
        | run t ch =>
            obtain ⟨f, rest, hst, he⟩ := hrec
            have hq := (h.still.runs hP.wf.ground hst ch).1
            rw [he] at hq
            cases hq
        | sweep k ch =>
            obtain ⟨w, hw, -⟩ := hrec
            exact hN (sweepers_phase hP (List.mem_of_getElem? hw))
        | _ => exact hrec
  | after hN hc hdone hlink =>
      have hcol := hnormal hN
      rw [hdone o ho] at hcol
      exact Color.ne_flip _ hcol

include hn h₀ hset h hs hl in
/-- The cycle goes on, or the next one begins. -/
theorem Quiet.turn_step : Turn s₀ s' ∨ (s.stage = .idle ∧ s.epoch ≠ s₀.epoch) := by
  have hcase := stepCase hs
  have hwf := WellFormed.of_reachable h.reach
  have hwf' := hwf.step hs
  have hphase := hwf.ground.pin.phase
  rcases epoch_cases hcase with he | ⟨⟨ch, rfl⟩, hobjs, -, -, -, hepoch⟩
  · refine .inl ?_
    cases h.turn with
    | before he₀ hcalm =>
        exact .before (he.trans he₀) (hcalm.step hwf (he₀ ▸ hset.white.normal) hcase hwf' he)
    | trace hN hc htri =>
        refine .trace (he ▸ hN) (he ▸ hc) ?_
        exact htri.step hwf hN (balanced_of_reachable h.reach) hcase hwf'
          (by rw [St.blackColor, he]; rfl)
    | after hN hc hdone hlink =>
        have hidle := h.still.rests (rests_of_normal hwf.ground.pin hN).1
        refine .after (he ▸ hN) (he ▸ hc) (fun o ho => ?_) fun o ho i hi => ?_
        · have hlt : o < s.nextObj := (h.live o ho).1
          have hnew := newColor_N hN
          rw [he, ← hnew]
          exact newColor_stable hwf hcase hlt (hnew ▸ hdone o ho)
        · rw [(h.same_step hs hl).arity o (h.live o ho).1] at hi
          rcases h.still.link hcase hl o i with heq | ⟨t, hne, -⟩
          · rw [St.dark, heq, he]
            exact hlink o ho i hi
          · exact absurd (hidle t) hne
  · rcases hepoch with ⟨hst, he⟩ | ⟨hst, he⟩ | ⟨hst, he⟩
    · have hN : s.epoch.phase = .N := by
        rw [hst] at hphase
        exact of_decide_eq_true hphase
      cases h.turn with
      | before he₀ hcalm =>
          have hne : s'.epoch ≠ s.epoch := by
            intro heq
            have := congrArg Epoch.timestamp (he ▸ heq)
            exact absurd this (Nat.succ_ne_self _)
          refine .inl (.trace (by rw [he]; intro hcon; cases hcon) (by rw [he, ← he₀]; rfl) ?_)
          exact hcalm.start hwf hN hcase (fun hw => by rw [hst] at hw; cases hw.1) hne
      | trace hN' => exact absurd hN hN'
      | after _ hc =>
          refine .inr ⟨hst, fun heq => ?_⟩
          rw [heq] at hc
          exact Color.ne_flip _ hc
    · have hN : s.epoch.phase ≠ .N := by
        rw [hst] at hphase
        exact of_decide_eq_true hphase
      cases h.turn with
      | before he₀ => exact absurd (he₀ ▸ hset.white.normal) hN
      | trace _ hc htri =>
          refine .inl (.trace (by rw [he]; intro hcon; cases hcon) (by rw [he]; exact hc) ?_)
          exact htri.step hwf hN (balanced_of_reachable h.reach) hcase hwf'
            (by rw [St.blackColor, he]; rfl)
      | after hN' => exact absurd hN' hN
    · have hN : s.epoch.phase ≠ .N := by
        rw [hst] at hphase
        rw [of_decide_eq_true hphase]
        decide
      have hidle := h.still.rests (by rw [hst]; rfl)
      have hcol : s'.epoch.color = s.epoch.color.flip := by rw [he]; rfl
      cases h.turn with
      | before he₀ => exact absurd (he₀ ▸ hset.white.normal) hN
      | trace _ hc htri =>
          have hdone : ∀ {o}, s₀.Reached o → s.color o = s.epoch.color.flip :=
            h.confirmed hn h₀ hset hst htri
          refine .inl (.after (by rw [he]; rfl) (hcol.trans (hc ▸ rfl)) (fun o ho => ?_)
            fun o ho i hi => ?_)
          · rw [St.color, hobjs, hcol]
            exact hdone ho
          · rw [hobjs] at hi
            rw [St.dark, hobjs, hcol]
            exact (htri.black (h.live o ho) (hdone ho) hi).resolve_left
              (h.unrooted hidle (hset.lt ho) hi)
      | after hN' => exact absurd hN' hN

include hn h₀ hset h hs hl in
theorem Quiet.step : Quiet n s₀ s' ∨ (s.stage = .idle ∧ s.epoch ≠ s₀.epoch) := by
  have hcase := stepCase hs
  have hwf := WellFormed.of_reachable h.reach
  rcases h.turn_step hn h₀ hset hs hl with hturn | hidle
  · refine .inl ⟨.tail h.reach trivial hs, h.still.step hwf.ground hcase hl,
      h.same.trans (h.same_step hs hl), h.held_step hn hset hs, h.informed_step h₀ hset hs hl,
      h.traces_step h₀ hset hs hl, h.drained.step h.still hwf hcase,
      fun o ho => h.live_step hn hset hs hl ho, fun o ho => ?_, hturn⟩
    rcases Cdpt.live_step hcase ho with ho | ⟨t, cs, size, k, rfl, -⟩
    · exact h.fewer o ho
    · cases hl
  · exact .inr hidle

include hn h in
/-- When the collector is idle, the dead objects have been given back. -/
theorem Quiet.idle_color (hst : s.stage = .idle) {o : Oid} (hlive : s.Live o) :
    s.color o = s.epoch.color := by
  have hP := PlaceInv.of_reachable hn h.reach
  have hN : s.epoch.phase = .N := by
    have hphase := hP.wf.ground.pin.phase
    rw [hst] at hphase
    exact of_decide_eq_true hphase
  have hidle := h.still.rests (by rw [hst]; rfl)
  by_contra hne
  rcases hP.dead_unswept hN ((mem_stored h.reach).2 hlive) (Color.eq_flip_of_ne hne) with
    ⟨hf, -⟩ | ⟨hb, -⟩ | ⟨hw, -⟩
  · rw [hidle] at hf
    cases hf
  · have := (hP.swept (List.ne_nil_of_mem hb)).1
    rw [hst] at this
    cases this
  · have := hP.stock.sweepers (List.ne_nil_of_mem hw)
    rw [hst] at this
    cases this

include hn hset h in
/-- Between two cycles the state is settled again. -/
theorem Quiet.settled (hst : s.stage = .idle) : Settled s := by
  have hP := PlaceInv.of_reachable hn h.reach
  have hN : s.epoch.phase = .N := by
    have hphase := hP.wf.ground.pin.phase
    rw [hst] at hphase
    exact of_decide_eq_true hphase
  have hidle := h.still.rests (by rw [hst]; rfl)
  have hswept : s.sweepers = [] := by
    by_contra hne
    have := hP.stock.sweepers hne
    rw [hst] at this
    cases this
  refine ⟨⟨hN, hswept, hidle, fun o => h.idle_color hn hst, fun o i hlive hi => ?_⟩,
    h.drained.normal hN, fun o ho => h.live o ((hset.reached h.same o).1 ho)⟩
  cases h.turn with
  | before he hcalm =>
      exact (hcalm.link hlive hi).resolve_left (h.unrooted hidle (h.fewer o hlive).1 hi)
  | trace hN' => exact absurd hN hN'
  | after _ hc hdone hlink =>
      have hcol := h.idle_color hn hst hlive
      exact hlink o (h.traces.black hlive (hcol.trans hc)) i hi

include hn h in
theorem Quiet.kept_reached (hst : s.stage = .idle) (hne : s.epoch ≠ s₀.epoch) {o : Oid}
    (hlive : s.Live o) : s₀.Reached o := by
  cases h.turn with
  | before he => exact absurd he hne
  | trace hN =>
      have hphase := (PinInv.of_reachable h.reach).phase
      rw [hst] at hphase
      exact absurd (of_decide_eq_true hphase) hN
  | after _ hc => exact h.traces.black hlive ((h.idle_color hn hst hlive).trans hc)

end Cycle

/-- Runs in which the program takes no step. -/
def byCollector (_ : St) (lab : Label) : Prop := lab.silent = true

instance (s : St) (lab : Label) : Decidable (byCollector s lab) :=
  inferInstanceAs (Decidable (_ = _))

/-- The collector alone is exact. From a settled state, and for as long as the program
takes no step, what the program can get at is kept; and whenever the collector is idle
with a cycle behind it, the objects that are left are those, the state is settled again,
and cells, links and slots are as they were. -/
theorem collector_alone_is_exact {n : Nat} {s₀ s : St} (hn : 0 < n) (h₀ : Reachable n s₀)
    (hset : Settled s₀) (hr : Lts.Reaches step byCollector s₀ s) :
    (∀ o, s₀.Reached o → s.Live o) ∧ (∀ o, s.Reached o ↔ s₀.Reached o) ∧
    (s.stage = .idle → s.epoch ≠ s₀.epoch →
      Settled s ∧ ∀ o, s.Live o ↔ s₀.Reached o) := by
  -- the cycle that is going on has begun in a settled state of its own
  suffices hinv : ∃ s₁, Reachable n s₁ ∧ Settled s₁ ∧ Untouched s₀ s₁ ∧ Quiet n s₁ s ∧
      (s₁ = s₀ ∨ ∀ o, s₁.Live o → s₀.Reached o) by
    obtain ⟨s₁, h₁, hset₁, hsame, hq, hold⟩ := hinv
    have hreached := hset.reached hsame
    have hkeep : ∀ o, s₀.Reached o → s.Live o := fun o ho => hq.live o ((hreached o).2 ho)
    refine ⟨hkeep, hset.reached (hsame.trans hq.same), fun hst hne => ?_⟩
    refine ⟨hq.settled hn hset₁ hst, fun o => ⟨fun hlive => ?_, hkeep o⟩⟩
    rcases hold with rfl | hold
    · exact hq.kept_reached hn hst hne hlive
    · exact hold o (hq.fewer o hlive)
  refine hr.invariant (I := fun s => ∃ s₁, Reachable n s₁ ∧ Settled s₁ ∧ Untouched s₀ s₁ ∧
    Quiet n s₁ s ∧ (s₁ = s₀ ∨ ∀ o, s₁.Live o → s₀.Reached o))
    ⟨s₀, h₀, hset, .refl s₀, .start hn h₀ hset, .inl rfl⟩ ?_
  rintro a b lab ⟨s₁, h₁, hset₁, hsame, hq, hold⟩ hl hs
  rcases hq.step hn h₁ hset₁ hs hl with hq' | ⟨hst, hne⟩
  · exact ⟨s₁, h₁, hset₁, hsame, hq', hold⟩
  · have hset' := hq.settled hn hset₁ hst
    rcases (Quiet.start hn hq.reach hset').step hn hq.reach hset' hs hl with hq' | ⟨-, hne'⟩
    · refine ⟨a, hq.reach, hset', hsame.trans hq.same, hq', .inr fun o ho => ?_⟩
      exact (hset.reached hsame o).1 (hq.kept_reached hn hst hne ho)
    · exact absurd rfl hne'

theorem reached_lt {s : St} (h : WellFormed s) {o : Oid} (ho : s.Reached o) : o < s.nextObj := by
  refine h.alloc.refLt ?_
  obtain ⟨r, hr, hpath⟩ := ho
  cases hpath with
  | refl =>
      rcases hr with ⟨c, x, hx, ha⟩ | ⟨t, k, -, hk⟩
      · exact .cell hx ha
      · exact .hazard (List.mem_of_getElem? hk)
  | tail _ hp =>
      obtain ⟨i, -, ha⟩ := hp
      exact .field ha

/-- A state in which nothing has been reclaimed is settled when its nodes are at rest and
its objects are white. -/
theorem settled_of_nodes {n : Nat} {s : St} (h : Reachable n s) (hN : s.epoch.phase = .N)
    (hswept : s.sweepers = [])
    (hnode : ∀ t < s.nLocals, (s.locals t).stack = [] ∧ (s.locals t).markTasks = [])
    (hobj : ∀ o < s.nextObj, (s.objs o).reclaimed = false ∧ s.color o = s.epoch.color ∧
      ∀ i < (s.objs o).arity, ((s.objs o).link i).ptrMeta = .Unrooted s.epoch.color) :
    Settled s := by
  have hwf := WellFormed.of_reachable h
  have hidle : ∀ t, (s.locals t).stack = [] := by
    intro t
    by_cases ht : t < s.nLocals
    · exact (hnode t ht).1
    · exact ((hwf.ground.pin.str.node t).unused
        (hwf.ground.pin.str.beyond t (Nat.le_of_not_lt ht))).2
  refine ⟨⟨hN, hswept, hidle, fun o ho => (hobj o ho.1).2.1,
    fun o i ho hi => (hobj o ho.1).2.2 i hi⟩, fun t => ?_, fun o ho => ?_⟩
  · by_cases ht : t < s.nLocals
    · exact (hnode t ht).2
    · exact hwf.tasks t (Nat.le_of_not_lt ht)
  · have hlt := reached_lt hwf ho
    exact ⟨hlt, (hobj o hlt).1⟩

/-- Thread 1 allocates object 0, which it forgets, and object 2 with a link to object 1,
for which it keeps a cell. -/
def forgetOne : List Label :=
  List.flatten
    [[.register 1, .op 1 .pin], .replicate 4 (.run 1 0), [.op 1 (.alloc [] 8 none)],
      .replicate 3 (.run 1 0), [.op 1 (.alloc [] 8 (some (.shared, 0)))], .replicate 3 (.run 1 0),
      [.op 1 (.alloc [0] 8 (some (.shared, 0)))], .replicate 6 (.run 1 0),
      [.op 1 .dropGuard, .run 1 0, .run 1 0]]

/-- A cycle of the collector, with node 2 for its one worker. -/
def aloneCycle : List Label :=
  List.flatten
    [.replicate 9 (.coll 0), .replicate 14 (.run 0 0), .replicate 33 (.coll 0), [.startWorker 2],
      .replicate 39 (.run 2 0), [.coll 0, .run 0 0, .run 0 0, .coll 0], .replicate 4 (.run 0 0),
      .replicate 7 (.coll 0), .replicate 4 (.run 0 0), .replicate 8 (.coll 0),
      [.run 0 0, .run 0 0], .replicate 32 (.coll 0), .replicate 14 (.sweep 0 0),
      .replicate 10 (.coll 0)]

theorem collector_alone_is_exact_forgetOne : ∃ s₀ s, Reachable 1 s₀ ∧ Settled s₀ ∧
    Lts.Reaches step byCollector s₀ s ∧ s.stage = .idle ∧ s.epoch ≠ s₀.epoch ∧
    (∀ o, s.Live o ↔ s₀.Reached o) ∧ s₀.Live 0 ∧ ¬ s.Live 0 ∧ s.Live 1 := by
  have hrun : (Lts.runs step (fun _ _ => True) (St.init 1) forgetOne).any (fun s₀ =>
      decide (s₀.epoch.phase = .N) && s₀.sweepers.isEmpty &&
      decide (∀ t < s₀.nLocals, (s₀.locals t).stack = [] ∧ (s₀.locals t).markTasks = []) &&
      decide (∀ o < s₀.nextObj, (s₀.objs o).reclaimed = false ∧ s₀.color o = s₀.epoch.color ∧
        ∀ i < (s₀.objs o).arity, ((s₀.objs o).link i).ptrMeta = .Unrooted s₀.epoch.color) &&
      decide (s₀.nextObj = 3) &&
      (Lts.runs step byCollector s₀ aloneCycle).any fun s =>
        decide (s.stage = .idle ∧ s.epoch ≠ s₀.epoch ∧ (s.objs 0).reclaimed = true ∧
          1 < s.nextObj ∧ (s.objs 1).reclaimed = false)) = true := by
    decide +kernel
  obtain ⟨s₀, h₀, h⟩ := Lts.exists_of_any hrun
  simp only [Bool.and_eq_true, decide_eq_true_eq, List.isEmpty_iff] at h
  obtain ⟨⟨⟨⟨⟨hN, hswept⟩, hnode⟩, hobj⟩, hthree⟩, h⟩ := h
  obtain ⟨s, hr, hend⟩ := Lts.exists_of_any h
  obtain ⟨hst, hne, hgone, hlive⟩ := of_decide_eq_true hend
  have hset := settled_of_nodes h₀ hN hswept hnode hobj
  have hexact := (collector_alone_is_exact (by decide) h₀ hset hr).2.2 hst hne
  have hlt : 0 < s₀.nextObj := by rw [hthree]; decide
  refine ⟨s₀, s, h₀, hset, hr, hst, hne, hexact.2, ⟨hlt, (hobj 0 hlt).1⟩, ?_, hlive⟩
  rintro ⟨-, hzero⟩
  rw [hgone] at hzero
  cases hzero

end Cdpt
