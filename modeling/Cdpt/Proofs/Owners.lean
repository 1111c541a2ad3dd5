import Cdpt.Lib.Sums
import Cdpt.Proofs.Rooted

/-!
# Who owns a root count

Counts of an object are owned by rooted cells, by rooted fields and by operations in
flight. Each kind of owner is a sum; this module says what a step does to each of
them. The one owner that is not visible in memory is a field that `unroot` has
reached: it is rooted still, but its count is gone, and `windowed` tells it apart.

An operation in flight owns what it has counted and not yet published, or unlinked
and not yet released. `Frame.owed` reads the number off its frame: one for the
temporary of a rooted attempt and for the old value of a successful one, one for a
pointer that is being dropped, for a clone, and for the first pointer to a new
object. Frames of several nested operations lie on one stack, so the sum runs over
stacks of all nodes (`inFlight`).

The fields need the windows. A field counts if its link is rooted and no thread
stands between the decrement and the store of its `unroot` (`keeps`), and a window
is opened and closed by the thread that builds the object alone. With that, each
summand changes in a few steps only, and for those the change is given here as an
exchange: `inFlight_step` for the frames of one stack, `rootedCells_setLink` for a
CAS on a cell, `keeps_unroot` for the loop. `RootCount` adds them up.
-/

namespace Cdpt

open Finset Sums

/-! ## Counting the owners of a count -/

/-- One for a rooted link to `o`. -/
def ManPtr.roots (o : Oid) (p : ManPtr) : Nat :=
  if p.ptrMeta = .Rooted ∧ p.addr = some o then 1 else 0

/-- One for a link to `o`. -/
def ManPtr.points (o : Oid) (p : ManPtr) : Nat := if p.addr = some o then 1 else 0

/-- The counts of `o` that an operation in flight has yet to publish or to release:
the temporary of a rooted attempt, the old value of a successful one, a dropped
pointer, a clone, and the first pointer to a new object. -/
def Frame.owed (o : Oid) : Frame → Nat
  | .ptr (.rootedCas _ _ new _) => new.points o
  | .ptr (.rootedDec old) => old.points o
  | .ptr (.dropDec p) | .ptr (.publish p _ _) | .ptr (.allocRet p (some _)) =>
      if p = o then 1 else 0
  | _ => 0

def ShadeRet.leaves (o : Oid) (i : Nat) : ShadeRet → Bool
  | .unroot o' i' _ => o' = o ∧ i' = i
  | _ => false

/-- `unroot` has decremented the pointee of field `i` of `o` and has yet to store
the link. -/
def Frame.leaves (o : Oid) (i : Nat) : Frame → Bool
  | .ptr (.unrootStore o' i' _) => o' = o ∧ i' = i
  | .ptr (.shade _ r) | .ptr (.record _ r) | .ptr (.push _ r) | .ptr (.rcPhase _ r) => r.leaves o i
  | _ => false

namespace St

variable (s : St)

def windowed (o : Oid) (i : Nat) : Prop :=
  ∃ t < s.nLocals, ∃ f ∈ (s.locals t).stack, f.leaves o i = true

instance (o : Oid) (i : Nat) : Decidable (s.windowed o i) :=
  inferInstanceAs (Decidable (∃ t < s.nLocals, ∃ f ∈ (s.locals t).stack, f.leaves o i = true))

/-- Sums over all traced fields. -/
def sumFields (f : Oid → Nat → Nat) : Nat :=
  ∑ o ∈ range s.nextObj, ∑ i ∈ range (s.objs o).arity, f o i

/-- The rooted cells outside the heap whose address is `o`. -/
def rootedCells (o : Oid) : Nat := ∑ c ∈ range s.nextCell, (s.link (.cell c)).roots o

/-- The rooted fields whose address is `o`. -/
def rootedFields (o : Oid) : Nat := s.sumFields fun p i => ((s.objs p).link i).roots o

/-- Those whose `unroot` has given up the count already. -/
def leavingFields (o : Oid) : Nat :=
  s.sumFields fun p i => if s.windowed p i then ((s.objs p).link i).roots o else 0

/-- The counts of `o` held by operations in flight. -/
def inFlight (o : Oid) : Nat :=
  ∑ t ∈ range s.nLocals, ((s.locals t).stack.map (Frame.owed o)).sum

/-- What a rooted field contributes. -/
def keeps (o p : Oid) (i : Nat) : Nat :=
  if s.windowed p i then 0 else ((s.objs p).link i).roots o

def keptFields (o : Oid) : Nat := s.sumFields (s.keeps o)

theorem kept_add_leaving (o : Oid) : s.keptFields o + s.leavingFields o = s.rootedFields o := by
  simp only [keptFields, leavingFields, rootedFields, sumFields, keeps]
  rw [← sum_add_distrib]
  refine sum_congr rfl fun p _ => ?_
  rw [← sum_add_distrib]
  refine sum_congr rfl fun i _ => ?_
  split <;> simp

end St

/-! ## Windows -/

theorem leaves_iff {f : Frame} {o : Oid} {i : Nat} :
    f.leaves o i = true ↔ ∃ p, f.window o i p := by
  cases f with
  | ptr f =>
      cases f with
      | rcPhase c r | shade c r | record c r | push c r =>
          cases r <;> simp [Frame.leaves, ShadeRet.leaves, Frame.window, ShadeRet.window]
      | _ => simp [Frame.leaves, Frame.window]
  | _ => simp [Frame.leaves, Frame.window]

theorem windowed_iff {s : St} (hp : PinStr s) {o : Oid} {i : Nat} :
    s.windowed o i ↔ ∃ t p, ∃ f ∈ (s.locals t).stack, f.window o i p := by
  constructor
  · rintro ⟨t, -, f, hf, h⟩
    obtain ⟨p, hw⟩ := leaves_iff.1 h
    exact ⟨t, p, f, hf, hw⟩
  · rintro ⟨t, p, f, hf, hw⟩
    exact ⟨t, hp.lt_of_mem hf, f, hf, leaves_iff.2 ⟨p, hw⟩⟩

/-- A window stays open until the link is stored. -/
theorem exec_keeps_window (s : St) (t : Lid) (ch : Nat) {f : Frame} {o : Oid} {i : Nat}
    {p : ManPtr} (h : f.window o i p) :
    (∃ g ∈ (exec s t ch f).2, g.window o i p) ∨ f = .ptr (.unrootStore o i p) := by
  have hresume : ∀ {r : ShadeRet}, r.window o i p → ∃ g ∈ r.resume, g.window o i p := by
    intro r hr
    cases r with
    | unroot o' i' p' => exact ⟨_, List.mem_singleton_self _, hr⟩
    | _ => cases hr
  unfold Frame.window at h
  split at h
  · obtain ⟨rfl, rfl, rfl⟩ := h
    exact .inr rfl
  · refine .inl ?_
    simp only [exec, execPtr]
    split
    · exact hresume h
    · exact ⟨_, List.mem_singleton_self _, h⟩
  · exact .inl ⟨_, List.mem_singleton_self _, h⟩
  · exact .inl (hresume h)
  · refine .inl ?_
    simp only [exec, execPtr]
    split
    · exact hresume h
    · exact ⟨_, List.mem_singleton_self _, h⟩
  · cases h

/-- A window that is open after a step was open before, or has just been opened. -/
theorem windowed_of_step {s s' : St} {lab : Label} (h : WellFormed s)
    (hs : StepCase s lab s') (hp' : PinStr s') {o : Oid} {i : Nat} (hw : s'.windowed o i) :
    s.windowed o i ∨ ∃ t ch rest, lab = .run t ch ∧
      (s.locals t).stack = .ptr (.unroot o i) :: rest ∧ i < (s.objs o).arity := by
  have hp := h.ground.pin.str
  obtain ⟨t, p, g, hg, hw⟩ := (windowed_iff hp').1 hw
  rcases frame_step hp hs hg with hg | ⟨op, s₁, fs, rfl, hop, hg⟩ | ⟨ch, f, rest, rfl, hst, hg⟩ |
    hg
  · exact .inl ((windowed_iff hp).2 ⟨t, p, g, hg, hw⟩)
  · have := startOp_unroots hop hg (isUnroot_of_unroots (.inr ⟨p, hw⟩))
    subst this
    cases hw
  · rcases exec_window hg hw with hw | ⟨rfl, hi, -⟩
    · exact .inl ((windowed_iff hp).2 ⟨t, p, f, by simp [hst], hw⟩)
    · exact .inr ⟨t, ch, rest, rfl, hst, hi⟩
  · have hn := isUnroot_of_starts hg
    rw [isUnroot_of_unroots (.inr ⟨p, hw⟩)] at hn
    cases hn

/-- An open window is still open after a step, or its link has been stored. -/
theorem windowed_step {s s' : St} {lab : Label} (h : WellFormed s)
    (hs : StepCase s lab s') (hp' : PinStr s') {o : Oid} {i : Nat} (hw : s.windowed o i) :
    s'.windowed o i ∨ ((s'.objs o).link i).ptrMeta ≠ .Rooted := by
  have hp := h.ground.pin.str
  obtain ⟨t, p, f, hf, hw⟩ := (windowed_iff hp).1 hw
  have hst' := stack_step hp hs t
  generalize hfs : (s'.locals t).stack = fs at hst'
  have hmem : ∀ {g}, g ∈ fs → g.window o i p → s'.windowed o i := fun hg hw =>
    (windowed_iff hp').2 ⟨t, p, _, hfs ▸ hg, hw⟩
  cases hst' with
  | same _ => exact .inl (hmem hf hw)
  | op _ _ hst _ | coll _ _ hst _ | worker _ _ hst =>
      rw [hst] at hf
      cases hf
  | @run ch g rest hl _ hst =>
      rw [hst, List.mem_cons] at hf
      rcases hf with rfl | hf
      · rcases exec_keeps_window s t ch hw with ⟨x, hx, hxw⟩ | rfl
        · exact .inl (hmem (List.mem_append_left _ hx) hxw)
        · refine .inr ?_
          subst hl
          cases hs with
          | run _ hst' =>
              rw [hst] at hst'
              cases hst'
              simp [exec, execPtr, Eff.apply, St.setObj, ManPtr.withMeta]
      · exact .inl (hmem (List.mem_append_right _ hf) hw)

/-- The link of a field changes only where it does not hold a count. -/
theorem link_step_of_done {s s' : St} {lab : Label} (h : WellFormed s) (hs : StepCase s lab s')
    {o : Oid} {i : Nat} (ho : o < s.nextObj) (hi : i < (s.objs o).arity) :
    (s'.objs o).link i = (s.objs o).link i ∨
    ((s'.objs o).link i).ptrMeta ≠ .Rooted ∧
      (s.windowed o i ∨ ((s.objs o).link i).ptrMeta ≠ .Rooted) := by
  rcases field_step hs o i with he | ⟨t, ch, f, rest, -, hst, hw⟩ | ⟨cs, -, rfl, -⟩
  · exact .inl he
  · have hf : f ∈ (s.locals t).stack := by simp [hst]
    refine .inr ⟨hw.meta_ne (h.links.metas hf), ?_⟩
    generalize (s'.objs o).link i = x at hw
    cases hw with
    | rooted hok => exact .inr (h.links.field h.alloc (.frame hf (.inl rfl)) hi)
    | unrooted hok => exact .inr (h.links.field h.alloc (.frame hf (.inl rfl)) hi)
    | unroot hl =>
        cases hl
        exact .inl ((windowed_iff h.ground.pin.str).2 ⟨t, _, _, hf, rfl, rfl, rfl⟩)
    | shade hl _ =>
        cases hl
        exact .inr (h.links.field h.alloc (.frame hf (.inl rfl)) hi)
  · exact absurd ho (Nat.lt_irrefl _)

theorem roots_of_ne {p : ManPtr} (h : p.ptrMeta ≠ .Rooted) (o : Oid) : p.roots o = 0 := by
  simp [ManPtr.roots, h]

theorem keeps_eq_zero {s : St} {p : Oid} {i : Nat} (o : Oid)
    (h : s.windowed p i ∨ ((s.objs p).link i).ptrMeta ≠ .Rooted) : s.keeps o p i = 0 := by
  rcases h with hw | hm
  · simp only [St.keeps, if_pos hw]
  · simp only [St.keeps, roots_of_ne hm, ite_self]

/-- `unroot` takes the count of its field. -/
theorem keeps_unroot {s s' : St} {t : Lid} {ch : Nat} {p : Oid} {i : Nat} {rest : List Frame}
    (h : WellFormed s) (hs : StepCase s (.run t ch) s') (hp' : PinStr s') (o : Oid)
    (hst : (s.locals t).stack = .ptr (.unroot p i) :: rest) (hi : i < (s.objs p).arity) :
    s'.keeps o p i = 0 ∧ s.keeps o p i = ((s.objs p).link i).roots o := by
  refine ⟨keeps_eq_zero o (.inl ?_), ?_⟩
  · cases hs with
    | run _ hst' =>
        rw [hst] at hst'
        cases hst'
        refine (windowed_iff hp').2 ⟨t, (s.objs p).link i, ?_⟩
        rw [setStack_stack_self]
        simp only [exec, execPtr, if_pos hi]
        repeat' split
        all_goals exact ⟨_, List.mem_cons_self .., rfl, rfl, rfl⟩
  · refine if_neg fun hw => ?_
    obtain ⟨t', q, g, hg, hgw⟩ := (windowed_iff h.ground.pin.str).1 hw
    have hgu : g.unroots p i := .inr ⟨q, hgw⟩
    have hf : Frame.ptr (.unroot p i) ∈ (s.locals t).stack := by simp [hst]
    have ht := h.alloc.uniq hg (owns_of_unroots hgu) hf rfl
    subst ht
    rw [hst, List.mem_cons] at hg
    rcases hg with rfl | hg
    · cases hgw
    · exact h.links.not_mem_rest hst rfl hg (isUnroot_of_unroots hgu)

/-- No other step does. -/
theorem keeps_step {s s' : St} {lab : Label} (h : WellFormed s) (hs : StepCase s lab s')
    (hp' : PinStr s') {p : Oid} {i : Nat} (hlt : p < s.nextObj) (hi : i < (s.objs p).arity)
    (o : Oid) (hno : ∀ t ch rest, lab = .run t ch →
      (s.locals t).stack ≠ .ptr (.unroot p i) :: rest) : s'.keeps o p i = s.keeps o p i := by
  rcases link_step_of_done h hs hlt hi with he | ⟨hm', hold⟩
  · by_cases hw : s.windowed p i
    · rw [keeps_eq_zero o (.inl hw), keeps_eq_zero o (windowed_step h hs hp' hw)]
    · have hw' : ¬ s'.windowed p i := by
        intro hw'
        rcases windowed_of_step h hs hp' hw' with hw' | ⟨t, ch, rest, hl, hst, -⟩
        · exact hw hw'
        · exact hno t ch rest hl hst
      simp only [St.keeps, if_neg hw, if_neg hw', he]
  · rw [keeps_eq_zero o hold, keeps_eq_zero o (.inr hm')]

/-! ## What a step does to each summand -/

theorem keptFields_same {s s' : St} {lab : Label} (h : WellFormed s) (hs : StepCase s lab s')
    (hp' : PinStr s') (o : Oid) (hn : s'.nextObj = s.nextObj)
    (hno : ∀ t ch p i rest, lab = .run t ch → i < (s.objs p).arity →
      (s.locals t).stack ≠ .ptr (.unroot p i) :: rest) : s'.keptFields o = s.keptFields o := by
  simp only [St.keptFields, St.sumFields, hn]
  refine sum_congr rfl fun p hlt => ?_
  rw [mem_range] at hlt
  rw [arity_step hs (Nat.ne_of_lt hlt)]
  refine sum_congr rfl fun i hi => ?_
  rw [mem_range] at hi
  exact keeps_step h hs hp' hlt hi o fun t ch rest hl => hno t ch p i rest hl hi

theorem keptFields_unroot {s s' : St} {t : Lid} {ch : Nat} {p : Oid} {i : Nat} {rest : List Frame}
    (h : WellFormed s) (hs : StepCase s (.run t ch) s') (hp' : PinStr s') (o : Oid)
    (hst : (s.locals t).stack = .ptr (.unroot p i) :: rest) (hi : i < (s.objs p).arity) :
    s.keptFields o = s'.keptFields o + ((s.objs p).link i).roots o := by
  have hlt : p < s.nextObj := h.alloc.lt (t := t) (f := .ptr (.unroot p i)) (by simp [hst]) rfl
  have hn : s'.nextObj = s.nextObj := by
    rcases nextObj_cases hs with ⟨hn, -⟩ | ⟨t, cs, size, k, hl, -⟩
    · exact hn
    · cases hl
  have hother : ∀ q j, q < s.nextObj → j < (s.objs q).arity → q ≠ p ∨ j ≠ i →
      s'.keeps o q j = s.keeps o q j := by
    intro q j hq hj hne
    refine keeps_step h hs hp' hq hj o fun t' ch' rest' hl hst' => ?_
    cases hl
    rw [hst] at hst'
    cases hst'
    simp at hne
  obtain ⟨h0, hr⟩ := keeps_unroot h hs hp' o hst hi
  simp only [St.keptFields, St.sumFields, hn]
  have hinner := sum_exchange (u := range (s.objs p).arity) (f := s.keeps o p)
    (g := s'.keeps o p) (k := i) (mem_range.2 hi)
    fun j hj hne => (hother p j hlt (mem_range.1 hj) (.inr hne)).symm
  have houter := sum_exchange (u := range s.nextObj) (k := p)
    (f := fun q => ∑ j ∈ range (s.objs q).arity, s.keeps o q j)
    (g := fun q => ∑ j ∈ range (s'.objs q).arity, s'.keeps o q j) (mem_range.2 hlt)
    fun q hq hne => by
      rw [mem_range] at hq
      rw [arity_step hs (Nat.ne_of_lt hq)]
      exact sum_congr rfl fun j hj => (hother q j hq (mem_range.1 hj) (.inl hne)).symm
  rw [arity_step hs (Nat.ne_of_lt hlt)] at houter
  omega

theorem keptFields_alloc {s s' : St} {t : Lid} {cs : List Cid} {size : Nat}
    {k : Option (PtrKind × Nat)} (h : WellFormed s)
    (hs : StepCase s (.op t (.alloc cs size k)) s') (hp' : PinStr s') (o : Oid) :
    s'.keptFields o = s.keptFields o + (cs.map fun c => (s.link (.cell c)).roots o).sum := by
  have hn := (nextObj_step hs).2 rfl
  have hobj : (s'.objs s.nextObj).arity = cs.length ∧
      ∀ i, (s'.objs s.nextObj).link i = (((cs[i]?).bind s.cells).map Cell.link).getD .null := by
    cases hs with
    | op _ _ _ _ hop =>
        obtain ⟨rfl, -⟩ := startOp_alloc hop
        simp [St.newObj]
  have hnew : ∀ i, s'.keeps o s.nextObj i =
      ((((cs[i]?).bind s.cells).map Cell.link).getD .null).roots o := by
    intro i
    rw [← hobj.2 i]
    refine if_neg fun hw => ?_
    rcases windowed_of_step h hs hp' hw with hw | ⟨t, ch, rest, hl, -⟩
    · obtain ⟨t, p, f, hf, hw⟩ := (windowed_iff h.ground.pin.str).1 hw
      exact absurd (h.alloc.lt hf (owns_of_unroots (.inr ⟨p, hw⟩))) (Nat.lt_irrefl _)
    · cases hl
  simp only [St.keptFields, St.sumFields, hn, sum_range_succ, hobj.1]
  congr 1
  · refine sum_congr rfl fun p hlt => ?_
    rw [mem_range] at hlt
    rw [arity_step hs (Nat.ne_of_lt hlt)]
    refine sum_congr rfl fun i hi => ?_
    exact keeps_step h hs hp' hlt (mem_range.1 hi) o (by intro _ _ _ hl; cases hl)
  · rw [sum_congr rfl fun i _ => hnew i, sum_range_getElem? fun c =>
      (((c.bind s.cells).map Cell.link).getD .null).roots o]
    rfl

theorem inFlight_eq {s : St} (hp : PinStr s) {n : Nat} (hn : s.nLocals ≤ n) (o : Oid) :
    s.inFlight o = ∑ t ∈ range n, ((s.locals t).stack.map (Frame.owed o)).sum := by
  refine sum_subset (range_subset_range.2 hn) fun t _ ht => ?_
  rw [mem_range, Nat.not_lt] at ht
  rw [((hp.node t).unused (hp.beyond t ht)).2]
  rfl

/-- The frames of one stack change. -/
theorem inFlight_step {s s' : St} (hp : PinStr s) (hp' : PinStr s') (o : Oid) (t : Lid)
    (hother : ∀ i, i ≠ t → (s'.locals i).stack = (s.locals i).stack) :
    s'.inFlight o + ((s.locals t).stack.map (Frame.owed o)).sum =
      s.inFlight o + ((s'.locals t).stack.map (Frame.owed o)).sum := by
  have hle : s.nLocals ≤ s.nLocals + s'.nLocals + t + 1 := by omega
  have hle' : s'.nLocals ≤ s.nLocals + s'.nLocals + t + 1 := by omega
  rw [inFlight_eq hp hle o, inFlight_eq hp' hle' o]
  have ht : t < s.nLocals + s'.nLocals + t + 1 := Nat.lt_succ_of_le (Nat.le_add_left t _)
  refine sum_exchange (f := fun i => ((s'.locals i).stack.map (Frame.owed o)).sum)
    (g := fun i => ((s.locals i).stack.map (Frame.owed o)).sum) (mem_range.2 ht) fun i _ hi => ?_
  simp only [hother i hi]

theorem inFlight_same {s s' : St} (hp : PinStr s) (hp' : PinStr s') (o : Oid) (t : Lid)
    (hother : ∀ i, i ≠ t → (s'.locals i).stack = (s.locals i).stack)
    (h0 : ((s.locals t).stack.map (Frame.owed o)).sum = 0)
    (h0' : ((s'.locals t).stack.map (Frame.owed o)).sum = 0) : s'.inFlight o = s.inFlight o := by
  have := inFlight_step hp hp' o t hother
  omega

theorem rootedCells_congr {s s' : St} (o : Oid) (hn : s'.nextCell = s.nextCell)
    (h : ∀ c, s'.link (.cell c) = s.link (.cell c)) : s'.rootedCells o = s.rootedCells o := by
  simp only [St.rootedCells, hn, h]

theorem link_cell {s : St} {c : Cid} {x : Cell} (h : s.cells c = some x) :
    s.link (.cell c) = x.link := by
  simp [St.link, h]

/-- A CAS on a cell. -/
theorem rootedCells_setLink {s : St} (h : WellFormed s) (o : Oid) {t : Lid} {c : Cid}
    (hc : (s.cells c).isSome = true) (p : ManPtr) :
    (Eff.apply s t (.setLink (.cell c) p)).rootedCells o + (s.link (.cell c)).roots o =
      s.rootedCells o + p.roots o := by
  obtain ⟨x, hx⟩ := Option.isSome_iff_exists.1 hc
  have hlt := h.links.cellsLt c x hx
  have hnew : (Eff.apply s t (.setLink (.cell c) p)).link (.cell c) = p := by
    simp [Eff.apply, St.link, hx]
  have hsum := sum_exchange (u := range s.nextCell) (k := c)
    (f := fun d => ((Eff.apply s t (.setLink (.cell c) p)).link (.cell d)).roots o)
    (g := fun d => (s.link (.cell d)).roots o) (mem_range.2 hlt) fun d _ hd => by
      simp [Eff.apply, St.link, hd]
  simp only [hnew] at hsum
  exact hsum

theorem rootedCells_newCell (s : St) (o : Oid) (t : Lid) (k : PtrKind) (p : ManPtr) :
    (Eff.apply s t (.newCell k p)).rootedCells o = s.rootedCells o + p.roots o := by
  simp only [St.rootedCells, Eff.apply, sum_range_succ]
  congr 1
  · refine sum_congr rfl fun d hd => ?_
    rw [mem_range] at hd
    simp [St.link, Nat.ne_of_lt hd]
  · simp [St.link]

theorem rootedCells_remove {s : St} (h : WellFormed s) (o : Oid) {cs : List Cid} (hn : cs.Nodup)
    (hcs : ∀ c ∈ cs, (s.cells c).isSome = true) :
    s.rootedCells o =
      (s.removeCells cs).rootedCells o + (cs.map fun c => (s.link (.cell c)).roots o).sum := by
  have hlt : ∀ c ∈ cs, c < s.nextCell := fun c hc => by
    obtain ⟨x, hx⟩ := Option.isSome_iff_exists.1 (hcs c hc)
    exact h.links.cellsLt c x hx
  simp only [St.rootedCells]
  rw [sum_of_nodup hn hlt]
  congr 1
  refine sum_congr rfl fun c _ => ?_
  simp only [St.link, St.removeCells]
  split <;> simp [ManPtr.roots, ManPtr.null]

theorem rootCount_apply (e : Eff) (s : St) (t : Lid) (o : Oid) :
    (e.apply s t).rootCount o = s.rootCount o ∨ ∃ n, e = .setCount o n ∧
      (e.apply s t).rootCount o = n := by
  cases e with
  | setCount p n =>
      by_cases hp : o = p
      · subst hp
        exact .inr ⟨n, rfl, by simp [Eff.apply, St.setObj, St.rootCount]⟩
      · exact .inl (by simp [Eff.apply, St.setObj, St.rootCount, hp])
  | setLink l q =>
      cases l with
      | cell c => exact .inl rfl
      | field p i => exact .inl (by by_cases hp : o = p <;>
          simp [Eff.apply, St.setObj, St.rootCount, hp])
  | setColor p n | reclaim p =>
      exact .inl (by by_cases hp : o = p <;> simp [Eff.apply, St.setObj, St.rootCount, hp])
  | _ => exact .inl rfl

/-- The frames that move a count. -/
def Frame.counts : Frame → Bool
  | .ptr (.incNew _ _ _ _) | .ptr (.rootedCas _ _ _ _) | .ptr (.rootedDec _) | .ptr (.dropDec _)
  | .ptr (.inc _ _ _) | .ptr (.publish _ _ _) | .ptr (.unroot _ _) | .ptr (.allocRet _ _) => true
  | _ => false

theorem owed_resume (r : ShadeRet) (o : Oid) : (r.resume.map (Frame.owed o)).sum = 0 := by
  cases r <;> rfl

theorem owed_unrootedOnce (s : St) (t : Lid) (l : Loc) (old new : ManPtr) (k : CasKind) (o : Oid) :
    Frame.owed o (.ptr (unrootedOnce s t l old new k)) = 0 := by
  unfold unrootedOnce
  repeat' split
  all_goals rfl

theorem owed_rootedOnce (l : Loc) (old new : ManPtr) (k : CasKind) (o : Oid) :
    Frame.owed o (.ptr (rootedOnce l old new k)) = 0 := by
  unfold rootedOnce
  split
  · rfl
  · next h => simp [Frame.owed, ManPtr.points, h]

theorem owed_ret (p : ManPtr) (o : Oid) : Frame.owed o (.ptr (.ret p)) = 0 := rfl

theorem owed_rootedCas (l : Loc) (old new : ManPtr) (k : CasKind) (o : Oid) :
    Frame.owed o (.ptr (.rootedCas l old new k)) = new.points o := rfl

theorem owed_dropTemp (p : ManPtr) (o : Oid) :
    ((dropTemp p).map (Frame.owed o)).sum = p.points o := by
  unfold dropTemp
  split
  · next q h => simp [dropFrames, Frame.owed, ManPtr.points, h]
  · next h => simp [ManPtr.points, h]

theorem owed_rootedFail (s : St) (t : Lid) (l : Loc) (cur new : ManPtr) (k : CasKind) (o : Oid) :
    ((rootedFail s t l cur new k).map (Frame.owed o)).sum = new.points o := by
  unfold rootedFail
  repeat' split
  all_goals simp [owed_dropTemp, owed_unrootedOnce, owed_ret, owed_rootedCas]

theorem exec_owed (s : St) (t : Lid) (ch : Nat) {f : Frame} (hf : f.counts = false) (o : Oid) :
    ((exec s t ch f).2.map (Frame.owed o)).sum = 0 ∧ f.owed o = 0 := by
  cases f with
  | pin f =>
      refine ⟨?_, rfl⟩
      cases f <;> simp only [exec, execPin] <;> (repeat' split) <;> rfl
  | ptr f =>
      cases f with
      | rcPhase p r | shade p r | push p r =>
          refine ⟨?_, rfl⟩
          simp only [exec, execPtr]
          repeat' split
          all_goals first
            | exact owed_resume r o
            | rfl
      | _ =>
          first
          | (cases hf; done)
          | (refine ⟨?_, rfl⟩
             simp only [exec, execPtr, unrootedFail]
             repeat' split
             all_goals first
               | rfl
               | simp [owed_unrootedOnce, owed_rootedOnce])
  | mark f =>
      refine ⟨?_, rfl⟩
      cases f <;> simp only [exec, execMark, shadeLink] <;> (repeat' split) <;> rfl
  | help f =>
      refine ⟨?_, rfl⟩
      cases f <;> simp only [exec, execHelp, scanObj, scanHazard, Scanner.next] <;>
        (repeat' split) <;> rfl

theorem exec_counts (s : St) (t : Lid) (ch : Nat) {f : Frame} (hf : f.counts = false) :
    (∀ p n, (exec s t ch f).1 ≠ .setCount p n) ∧ ∀ k p, (exec s t ch f).1 ≠ .newCell k p := by
  cases f with
  | pin f => cases f <;> simp only [exec, execPin] <;> (repeat' split) <;> simp
  | ptr f =>
      cases f <;> first
        | (cases hf; done)
        | (simp only [exec, execPtr]
           repeat' split
           all_goals simp)
  | mark f => cases f <;> simp only [exec, execMark] <;> (repeat' split) <;> simp
  | help f => cases f <;> simp only [exec, execHelp] <;> (repeat' split) <;> simp

end Cdpt
