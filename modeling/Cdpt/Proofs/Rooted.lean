import Cdpt.Proofs.Tasks

/-!
# Which links are rooted

A cell outside the heap is rooted for as long as it exists. A field is rooted while
its object is being built and the loop of `unroot` has not passed it, and never
again: a CAS keeps the metadata it has read, and shading only meets objects that are
done. `LinkInv` says this together with where the loop stands, and `WellFormed` is
the invariant that everything below starts from.

The two halves lean on each other. That an operation on a field never writes a
rooted link follows from what its frame has read (`Frame.metaOk`), which is kept
because the only writer of the other kind is the loop, and the loop works on an
object that no operation can have found (`AllocInv.not_unroots`). Conversely the
loop may count on the links of its object being as it has left them, as nobody else
writes there (`LinkWrite.unroot_of_owns`). So a step is taken by the writer: an
operation, or `shade`, on a finished object, or the loop on its own.

Cells are simpler, since they change hands only with the operation that takes them
by value; `CellStep` lists what can become of one.

`WellFormed` is `Ground` with the construction and the links. It holds in every
reachable state (`WellFormed.of_reachable`), and the modules on root counts and on
marking take it as their hypothesis.
-/

namespace Cdpt

/-! ## Cells -/

@[simp] theorem register_cells (s : St) (t : Lid) : (s.register t).cells = s.cells := by
  unfold St.register
  split <;> rfl

@[simp] theorem register_heap (s : St) (t : Lid) : (s.register t).objs = s.objs := by
  unfold St.register
  split <;> rfl

@[simp] theorem register_nextCell (s : St) (t : Lid) : (s.register t).nextCell = s.nextCell := by
  unfold St.register
  split <;> rfl

/-- What a step can make of cell `c`. -/
inductive CellStep (s : St) (lab : Label) (c : Cid) : Option Cell → Prop
  | same : CellStep s lab c (s.cells c)
  | write {t : Lid} {ch : Nat} {f : Frame} {rest : List Frame} {x : Cell} {p : ManPtr}
      (hl : lab = .run t ch) (hst : (s.locals t).stack = f :: rest) (hx : s.cells c = some x)
      (hw : LinkWrite s t ch (.cell c) f p) : CellStep s lab c (some { x with link := p })
  | fresh {x : Cell} (hc : c = s.nextCell) (hx : x.link.ptrMeta = .Rooted) :
      CellStep s lab c (some x)
  | convert {x : Cell} {k : PtrKind} (hx : s.cells c = some x) :
      CellStep s lab c (some { x with kind := k })
  | gone (h : s.idleCell c) : CellStep s lab c none

theorem exec_newCell {s : St} {t : Lid} {ch : Nat} {f : Frame} {k : PtrKind} {p : ManPtr}
    (h : (exec s t ch f).1 = .newCell k p) : p.ptrMeta = .Rooted := by
  cases f with
  | pin f => cases f <;> simp only [exec, execPin] at h <;> (repeat' split at h) <;> cases h
  | ptr f =>
      cases f <;> simp only [exec, execPtr] at h <;> (repeat' split at h) <;>
        first
        | (cases h; done)
        | (cases h; rfl)
  | mark f => cases f <;> simp only [exec, execMark] at h <;> (repeat' split at h) <;> cases h
  | help f => cases f <;> simp only [exec, execHelp] at h <;> (repeat' split at h) <;> cases h

theorem startOp_cell {s s₁ : St} {t : Lid} {op : Op} {fs : List Frame} (lab : Label)
    (h : startOp s t op = some (s₁, fs)) (c : Cid) : CellStep s lab c (s₁.cells c) := by
  cases op with
  | alloc cs size k =>
      obtain ⟨rfl, -, -, -, hcs⟩ := startOp_alloc h
      simp only [St.newObj, St.removeCells]
      split
      · next hc => exact .gone (hcs c hc).2
      · exact .same
  | drop c' =>
      simp only [startOp] at h
      split at h
      · split at h
        · next hidle =>
            cases h
            simp only [St.removeCells, List.mem_singleton]
            split
            · next hc => exact .gone (hc ▸ hidle)
            · exact .same
        · cases h
      · cases h
  | convert c' =>
      simp only [startOp] at h
      split at h
      · next x hx =>
          split at h
          · cases h
            by_cases hc : c = c'
            · subst hc
              simp only [Function.update_self]
              exact .convert hx
            · simp only [Function.update_of_ne hc]
              exact .same
          · cases h
      · cases h
  | noneNew tag =>
      cases h
      by_cases hc : c = s.nextCell
      · subst hc
        simp only [Eff.apply, Function.update_self]
        exact .fresh rfl rfl
      · simp only [Eff.apply, Function.update_of_ne hc]
        exact .same
  | _ =>
      simp only [startOp] at h
      repeat' split at h
      all_goals first
        | (cases h; done)
        | (cases h; exact .same)
        | (obtain ⟨o, -, h⟩ := Option.map_eq_some_iff.1 h; cases h; exact .same)

theorem cell_step {s s' : St} {lab : Label} (hs : StepCase s lab s') (c : Cid) :
    CellStep s lab c (s'.cells c) := by
  cases hs with
  | op ht hu hst hc hop => exact startOp_cell _ hop c
  | @run t ch f rest ht hst =>
      rw [setStack_cells]
      rcases cell_apply (exec s t ch f).1 s t c with h | ⟨x, p, hx, he, h⟩ | ⟨k, p, hc, he, h⟩
      · rw [h]
        exact .same
      · rw [h]
        exact .write rfl hst hx (exec_setLink he)
      · rw [h]
        exact .fresh hc (exec_newCell he)
  | @coll ch e st fs hst hcoll =>
      rw [setStack_cells, withStage_cells]
      rcases cell_apply e s s.collector c with h | ⟨x, p, hx, he, h⟩ | ⟨k, p, hc, he, h⟩
      · rw [h]
        exact .same
      · exact absurd he ((collStep_setLink hcoll).1 _ _)
      · exact absurd he ((collStep_setLink hcoll).2.1 _ _)
  | @sweep k ch w hw =>
      rw [withSweepers_cells]
      rcases cell_apply (sweepStep s w ch).1 s s.collector c with
        h | ⟨x, p, hx, he, h⟩ | ⟨k, p, hc, he, h⟩
      · rw [h]
        exact .same
      · exact absurd he ((sweepStep_setLink s w ch).1 _ _)
      · exact absurd he ((sweepStep_setLink s w ch).2.1 _ _)
  | @startWorker t lo hi hz js hj hr hc =>
      rw [setStack_cells, withJobs_cells, register_cells]
      exact .same
  | @register t hr hc =>
      rw [register_cells]
      exact .same
  | exit ht hu hst hg hh hc => exact .same

/-- The cells that are in use have been handed out. -/
def St.CellsLt (s : St) : Prop := ∀ c x, s.cells c = some x → c < s.nextCell

theorem cellsLt_apply {s : St} (h : s.CellsLt) (e : Eff) (t : Lid) : (e.apply s t).CellsLt := by
  cases e with
  | newCell k p =>
      intro c x hx
      by_cases hc : c = s.nextCell
      · subst hc
        exact Nat.lt_succ_self _
      · simp only [Eff.apply, Function.update_of_ne hc] at hx
        exact Nat.lt_succ_of_lt (h c x hx)
  | setLink l p =>
      cases l with
      | field o i => exact h
      | cell c' =>
          intro c x hx
          simp only [Eff.apply, Function.update_apply] at hx
          split at hx
          · next hc =>
              obtain ⟨y, hy, -⟩ := Option.map_eq_some_iff.1 hx
              subst hc
              exact h _ y hy
          · exact h c x hx
  | _ => exact h

theorem startOp_cellsLt {s s₁ : St} {t : Lid} {op : Op} {fs : List Frame} (hlt : s.CellsLt)
    (h : startOp s t op = some (s₁, fs)) : s₁.CellsLt := by
  cases op with
  | alloc cs size k =>
      obtain ⟨rfl, -⟩ := startOp_alloc h
      intro c x hx
      simp only [St.newObj, St.removeCells] at hx ⊢
      split at hx
      · cases hx
      · exact hlt c x hx
  | drop c' =>
      simp only [startOp] at h
      repeat' split at h
      all_goals first
        | (cases h; done)
        | (cases h
           intro c x hx
           simp only [St.removeCells] at hx ⊢
           split at hx
           · cases hx
           · exact hlt c x hx)
  | convert c' =>
      simp only [startOp] at h
      split at h
      · next y hy =>
          split at h
          · cases h
            intro c x hx
            simp only [Function.update_apply] at hx
            split at hx
            · next hc =>
                subst hc
                exact hlt _ y hy
            · exact hlt c x hx
          · cases h
      · cases h
  | noneNew tag =>
      cases h
      exact cellsLt_apply hlt _ t
  | _ =>
      simp only [startOp] at h
      repeat' split at h
      all_goals first
        | (cases h; done)
        | (cases h; exact hlt)
        | (obtain ⟨o, -, h⟩ := Option.map_eq_some_iff.1 h; cases h; exact hlt)

theorem cellsLt_step {s s' : St} {lab : Label} (h : s.CellsLt) (hs : StepCase s lab s') :
    s'.CellsLt := by
  cases hs with
  | op ht hu hst hc hop =>
      have h₁ := startOp_cellsLt h hop
      exact h₁
  | run ht hst => exact cellsLt_apply h _ _
  | coll hst hcoll => exact cellsLt_apply h _ _
  | sweep hw => exact cellsLt_apply h _ _
  | startWorker hj hr hc | register hr hc =>
      intro c x hx
      simp only [setStack_cells, withJobs_cells, register_cells, setStack_nextCell,
        withJobs_nextCell, register_nextCell] at hx ⊢
      exact h c x hx
  | exit ht hu hst hg hh hc => exact h

/-! ## Fields -/

@[simp] theorem apply_arity (e : Eff) (s : St) (t : Lid) (o : Oid) :
    ((e.apply s t).objs o).arity = (s.objs o).arity := by
  cases e with
  | setLink l p =>
      cases l with
      | cell c => rfl
      | field o' i => by_cases h : o = o' <;> simp [Eff.apply, St.setObj, h]
  | setColor o' _ | setCount o' _ | reclaim o' =>
      by_cases h : o = o' <;> simp [Eff.apply, St.setObj, h]
  | _ => rfl

/-- An object keeps its fields. -/
theorem arity_step {s s' : St} {lab : Label} (hs : StepCase s lab s') {o : Oid}
    (ho : o ≠ s.nextObj) : (s'.objs o).arity = (s.objs o).arity := by
  cases hs with
  | @op t op s₁ fs ht hu hst hc hop =>
      rw [setStack_objs]
      cases op with
      | alloc cs size k =>
          obtain ⟨rfl, -⟩ := startOp_alloc hop
          simp [St.newObj, ho, St.removeCells]
      | _ =>
          simp only [startOp] at hop
          repeat' split at hop
          all_goals first
            | (cases hop; done)
            | (cases hop; rfl)
            | (obtain ⟨o, -, h⟩ := Option.map_eq_some_iff.1 hop; cases h; rfl)
  | run ht hst => rw [setStack_objs, apply_arity]
  | coll hst hcoll => rw [setStack_objs, withStage_objs, apply_arity]
  | sweep hw => rw [withSweepers_objs, apply_arity]
  | startWorker hj hr hc => rw [setStack_objs, withJobs_objs, register_heap]
  | register hr hc => rw [register_heap]
  | exit ht hu hst hg hh hc => rfl

/-- Cells are rooted, and so are the fields of an object that is being built, from
the one its thread has come to; all other fields are not. -/
structure LinkInv (s : St) : Prop where
  cell : ∀ {c x}, s.cells c = some x → x.link.ptrMeta = .Rooted
  cellsLt : s.CellsLt
  loc : ∀ {t f l}, f ∈ (s.locals t).stack → f.loc = some l → s.validLoc l
  metas : ∀ {t f}, f ∈ (s.locals t).stack → f.metaOk
  window : ∀ {t f o i p}, f ∈ (s.locals t).stack → f.window o i p →
    i < (s.objs o).arity ∧ (s.objs o).link i = p
  ahead : ∀ {t f o i j}, f ∈ (s.locals t).stack → f.unroots o i → i ≤ j → j < (s.objs o).arity →
    ((s.objs o).link j).ptrMeta = .Rooted
  behind : ∀ {t f o i j}, f ∈ (s.locals t).stack → f.unroots o i → j < i →
    ((s.objs o).link j).ptrMeta ≠ .Rooted
  done : ∀ {o j}, o < s.nextObj → (∀ t, ∀ f ∈ (s.locals t).stack, ∀ i, ¬ f.unroots o i) →
    j < (s.objs o).arity → ((s.objs o).link j).ptrMeta ≠ .Rooted
  single : ∀ t, (s.locals t).stack.countP Frame.isUnroot ≤ 1

theorem names_of_loc {f : Frame} {o : Oid} {i : Nat} (h : f.loc = some (.field o i)) :
    f.names o := by
  cases f with
  | ptr f =>
      cases f with
      | rcPhase c r | shade c r | record c r | push c r =>
          cases r <;> cases h
          exact .inr (.inl rfl)
      | load | cloneLoad =>
          cases h
          rfl
      | swapLoad | casLoad | incNew | rootedCas | unrootedCas =>
          cases h
          exact .inl rfl
      | _ => cases h
  | _ => cases h

theorem onCell_of_loc {f : Frame} {c : Cid} (h : f.loc = some (.cell c)) : f.onCell c = true := by
  cases f with
  | ptr f =>
      cases f with
      | rcPhase o r | shade o r | record o r | push o r =>
          cases r <;> cases h
          simp [Frame.onCell]
      | load | cloneLoad | swapLoad | casLoad | incNew | rootedCas | unrootedCas =>
          cases h
          simp [Frame.onCell]
      | _ => cases h
  | _ => cases h

/-- Nobody works on the fields of an object that is being built. -/
theorem AllocInv.not_unroots {s : St} (h : AllocInv s) {o : Oid} (hr : s.Ref o) :
    ∀ t, ∀ f ∈ (s.locals t).stack, ∀ i, ¬ f.unroots o i :=
  fun _ _ hf _ hu => h.ref hf (owns_of_unroots hu) hr

theorem LinkInv.field {s : St} (h : LinkInv s) (ha : AllocInv s) {o : Oid} {i : Nat}
    (hr : s.Ref o) (hi : i < (s.objs o).arity) : ((s.objs o).link i).ptrMeta ≠ .Rooted :=
  h.done (ha.refLt hr) (ha.not_unroots hr) hi

theorem LinkInv.fits {s : St} (h : LinkInv s) (ha : AllocInv s) {t : Lid} {f : Frame} {l : Loc}
    (hf : f ∈ (s.locals t).stack) (hl : f.loc = some l) : l.fits (s.link l).ptrMeta := by
  have hv := h.loc hf hl
  cases l with
  | cell c =>
      obtain ⟨x, hx⟩ := Option.isSome_iff_exists.1 hv
      simp only [Loc.fits, St.link, hx, Option.map_some, Option.getD_some]
      exact h.cell hx
  | field o i => exact h.field ha (.frame hf (names_of_loc hl)) hv

/-- A rooted link is never what an operation on a field writes. -/
theorem LinkWrite.meta_ne {s : St} {t : Lid} {ch : Nat} {o : Oid} {i : Nat} {f : Frame}
    {p : ManPtr} (h : LinkWrite s t ch (.field o i) f p) (hm : f.metaOk) :
    p.ptrMeta ≠ .Rooted := by
  cases h with
  | rooted h => exact absurd hm.2 hm.1
  | unrooted h => exact hm.2
  | unroot hl => simp [ManPtr.withMeta]
  | shade hl h => simp [ManPtr.withMeta]

/-- While an object is being built, only `unroot` writes its fields. -/
theorem LinkWrite.unroot_of_owns {s : St} (ha : AllocInv s) {t t' : Lid} {ch : Nat} {o : Oid}
    {i : Nat} {f g : Frame} {p : ManPtr} (h : LinkWrite s t ch (.field o i) f p)
    (hf : f ∈ (s.locals t).stack) (hg : g ∈ (s.locals t').stack) (ho : g.owns o) :
    t = t' ∧ ∃ q, f = .ptr (.unrootStore o i q) := by
  have hr : ¬ s.Ref o := ha.ref hg ho
  cases h with
  | rooted h => exact absurd (.frame hf (.inl rfl)) hr
  | unrooted h => exact absurd (.frame hf (.inl rfl)) hr
  | unroot hl =>
      cases hl
      exact ⟨ha.uniq hf rfl hg ho, _, rfl⟩
  | shade hl h =>
      cases hl
      exact absurd (.frame hf (.inl rfl)) hr

/-- The links of an object under construction, while its thread stays where it is
in the loop. -/
theorem LinkInv.field_step {s s' : St} {lab : Label} (ha : AllocInv s)
    (hs : StepCase s lab s') {t : Lid} {g : Frame} {o : Oid} (j : Nat)
    (hg : g ∈ (s.locals t).stack) (ho : g.owns o) :
    (s'.objs o).link j = (s.objs o).link j ∨
    ∃ ch p rest, lab = .run t ch ∧ (s.locals t).stack = .ptr (.unrootStore o j p) :: rest ∧
      (s'.objs o).link j = p.withMeta (.Unrooted (s.allocColor t)) := by
  rcases Cdpt.field_step hs o j with h | ⟨t', ch, f, rest, hl, hst, hw⟩ | ⟨cs, -, rfl, -⟩
  · exact .inl h
  · obtain ⟨rfl, q, rfl⟩ := hw.unroot_of_owns ha (by simp [hst]) hg ho
    refine .inr ⟨ch, q, rest, hl, hst, ?_⟩
    generalize (s'.objs o).link j = x at hw ⊢
    cases hw
    rfl
  · exact absurd (ha.lt hg ho) (Nat.lt_irrefl _)

theorem LinkInv.not_mem_rest {s : St} (h : LinkInv s) {t : Lid} {f g : Frame}
    {rest : List Frame} (hst : (s.locals t).stack = f :: rest) (hf : f.isUnroot = true)
    (hg : g ∈ rest) : ¬ g.isUnroot = true := by
  intro hu
  have hle := h.single t
  have hpos : 0 < rest.countP Frame.isUnroot := List.countP_pos_iff.2 ⟨g, hg, hu⟩
  rw [hst, List.countP_cons, if_pos hf] at hle
  omega

/-- How the loop that unroots the fields of `o` moves. -/
theorem LinkInv.unroots_step {s s' : St} {lab : Label} (h : LinkInv s) (hp : PinStr s)
    (hs : StepCase s lab s') {t : Lid} {g : Frame} {o : Oid} {i : Nat}
    (hg : g ∈ (s'.locals t).stack) (hu : g.unroots o i) :
    (∃ f ∈ (s.locals t).stack, f.unroots o i ∧
      (∀ p, g.window o i p → f.window o i p ∨ (i < (s.objs o).arity ∧ (s.objs o).link i = p)) ∧
      ∀ ch j p rest, lab = .run t ch → (s.locals t).stack ≠ .ptr (.unrootStore o j p) :: rest) ∨
    (∃ ch j p rest, lab = .run t ch ∧ (s.locals t).stack = .ptr (.unrootStore o j p) :: rest ∧
      i = j + 1 ∧ g = .ptr (.unroot o i)) ∨
    ∃ cs size k, lab = .op t (.alloc cs size k) ∧ o = s.nextObj ∧ i = 0 ∧
      g = .ptr (.unroot o i) := by
  have hst' := stack_step hp hs t
  generalize (s'.locals t).stack = fs at hst' hg
  cases hst' with
  | same hl => exact .inl ⟨g, hg, hu, fun p => .inl, fun ch _ _ _ he => absurd he (hl ch)⟩
  | op hl _ _ hop =>
      refine .inr (.inr ?_)
      obtain ⟨-, cs, size, k, rfl⟩ := startOp_owns hop hg (owns_of_unroots hu)
      have hg := startOp_unroots hop hg (isUnroot_of_unroots hu)
      subst hg
      rcases hu with hu | ⟨p, hu⟩
      · cases hu
        exact ⟨cs, size, k, hl, rfl, rfl, rfl⟩
      · cases hu
  | @run ch f rest hl _ hst =>
      rcases List.mem_append.1 hg with hg | hg
      · by_cases hf : ∃ j p, f = .ptr (.unrootStore o j p)
        · obtain ⟨j, p, rfl⟩ := hf
          refine .inr (.inl ⟨ch, j, p, rest, hl, hst, ?_⟩)
          simp only [exec, execPtr, List.mem_singleton] at hg
          subst hg
          rcases hu with hu | ⟨p, hu⟩
          · cases hu
            exact ⟨rfl, rfl⟩
          · cases hu
        · rcases exec_unroots hg hu with hfu | ⟨j, p, rfl, -⟩
          · refine .inl ⟨f, by simp [hst], hfu, fun p hw => ?_, fun ch j p rest _ hst₂ => ?_⟩
            · rcases exec_window hg hw with hw | ⟨-, hw⟩
              · exact .inl hw
              · exact .inr hw
            · rw [hst] at hst₂
              cases hst₂
              exact hf ⟨j, p, rfl⟩
          · exact absurd ⟨j, p, rfl⟩ hf
      · refine .inl ⟨g, by simp [hst, hg], hu, fun p => .inl, fun ch j p rest' _ hst₂ => ?_⟩
        rw [hst] at hst₂
        cases hst₂
        exact h.not_mem_rest hst rfl ‹g ∈ rest› (isUnroot_of_unroots hu)
  | coll _ _ _ hcoll =>
      have := isUnroot_of_starts (collStep_starts hcoll hg)
      rw [isUnroot_of_unroots hu] at this
      cases this
  | worker =>
      have := isUnroot_of_unroots hu
      simp only [List.mem_cons, List.not_mem_nil, or_false] at hg
      rcases hg with rfl | rfl | rfl | rfl | rfl <;> cases this

theorem exec_count (s : St) (t : Lid) (ch : Nat) (f : Frame) :
    (exec s t ch f).2.countP Frame.isUnroot ≤ if f.isUnroot = true then 1 else 0 := by
  by_cases hall : ∃ x ∈ (exec s t ch f).2, x.isUnroot = true
  · obtain ⟨x, hx, hu⟩ := hall
    obtain ⟨hf, hlen⟩ := exec_isUnroot hx hu
    rw [if_pos hf]
    exact Nat.le_trans List.countP_le_length hlen
  · have h0 : (exec s t ch f).2.countP Frame.isUnroot = 0 :=
      List.countP_eq_zero.2 fun x hx hu => hall ⟨x, hx, hu⟩
    rw [h0]
    exact Nat.zero_le _

theorem startOp_count {s s₁ : St} {t : Lid} {op : Op} {fs : List Frame}
    (h : startOp s t op = some (s₁, fs)) : fs.countP Frame.isUnroot ≤ 1 := by
  cases op with
  | alloc cs size k =>
      obtain ⟨-, rfl, -⟩ := startOp_alloc h
      exact Nat.le_refl _
  | _ =>
      have h0 : fs.countP Frame.isUnroot = 0 := by
        refine List.countP_eq_zero.2 fun g hg hu => ?_
        have := startOp_unroots h hg hu
        subst this
        obtain ⟨-, cs, size, k, hop⟩ := startOp_owns h hg rfl
        cases hop
      exact h0 ▸ Nat.zero_le _

theorem LinkInv.single_step {s s' : St} {lab : Label} (h : LinkInv s) (hp : PinStr s)
    (hs : StepCase s lab s') (t : Lid) : (s'.locals t).stack.countP Frame.isUnroot ≤ 1 := by
  have hst' := stack_step hp hs t
  generalize (s'.locals t).stack = fs at hst'
  cases hst' with
  | same _ => exact h.single t
  | op hl _ _ hop => exact startOp_count hop
  | @run ch f rest hl _ hst =>
      have hold := h.single t
      rw [hst, List.countP_cons] at hold
      have hnew := exec_count s t ch f
      rw [List.countP_append]
      omega
  | coll _ _ _ hcoll =>
      have h0 : fs.countP Frame.isUnroot = 0 :=
        List.countP_eq_zero.2 fun g hg => by simp [isUnroot_of_starts (collStep_starts hcoll hg)]
      exact h0 ▸ Nat.zero_le _
  | worker => exact Nat.zero_le _

/-- The loop is over when it has come to the end of the fields. -/
theorem loop_end {s s' : St} {lab : Label} (hp : PinStr s)
    (hs : StepCase s lab s') {t : Lid} {f : Frame} {o : Oid} {i : Nat}
    (hf : f ∈ (s.locals t).stack) (hu : f.unroots o i)
    (hno : ∀ g ∈ (s'.locals t).stack, ∀ i, ¬ g.unroots o i) :
    ∃ ch rest, lab = .run t ch ∧ (s.locals t).stack = .ptr (.unroot o i) :: rest ∧
      (s.objs o).arity ≤ i := by
  have hst' := stack_step hp hs t
  generalize (s'.locals t).stack = fs at hst' hno
  cases hst' with
  | same _ => exact absurd hu (hno f hf i)
  | op _ _ hst _ | coll _ _ hst _ | worker _ _ hst =>
      rw [hst] at hf
      cases hf
  | @run ch g rest hl _ hst =>
      rw [hst, List.mem_cons] at hf
      rcases hf with rfl | hf
      · rcases exec_keeps_unroot s t ch hu with ⟨x, hx, j, hxu⟩ | ⟨rfl, hi⟩
        · exact absurd hxu (hno x (List.mem_append_left _ hx) j)
        · exact ⟨ch, rest, hl, hst, hi⟩
      · exact absurd hu (hno f (List.mem_append_right _ hf) i)

theorem LinkInv.step {s s' : St} {lab : Label} (h : LinkInv s) (hg : Ground s) (ha : AllocInv s)
    (hs : StepCase s lab s') : LinkInv s' := by
  have hp := hg.pin.str
  have hne : ∀ {t f o}, f ∈ (s.locals t).stack → f.owns o → o ≠ s.nextObj :=
    fun hf ho he => absurd (ha.lt hf ho) (by simp [he])
  constructor
  case cell =>
    intro c x hx
    have hc := cell_step hs c
    rw [hx] at hc
    generalize hy : some x = y at hc
    cases hc with
    | same => exact h.cell hy.symm
    | @write t ch f rest z p hl hst hz hw =>
        cases hy
        have hm := h.metas (t := t) (f := f) (by simp [hst])
        cases hw with
        | rooted _ => rfl
        | unrooted _ => exact absurd hm.1 hm.2
        | unroot hl => cases hl
        | shade hl _ => cases hl
    | fresh hc hx =>
        cases hy
        exact hx
    | @convert z k hz =>
        cases hy
        exact h.cell (x := z) hz
    | gone _ => cases hy
  case cellsLt => exact cellsLt_step h.cellsLt hs
  case loc =>
    intro t g l hg' hl
    have hkeep : ∀ {t f}, f ∈ (s.locals t).stack → f.loc = some l → s'.validLoc l := by
      intro t f hf hl
      have hv := h.loc hf hl
      cases l with
      | cell c =>
          have hc := cell_step hs c
          simp only [St.validLoc] at hv ⊢
          generalize s'.cells c = x at hc
          cases hc with
          | same => exact hv
          | gone hidle =>
              exact absurd (onCell_of_loc hl) (hidle t (hp.lt_of_mem hf) f hf)
          | _ => rfl
      | field o i =>
          have ho := ha.refLt (.frame hf (names_of_loc hl))
          simp only [St.validLoc] at hv ⊢
          rwa [arity_step hs (Nat.ne_of_lt ho)]
    rcases frame_step hp hs hg' with hg' | ⟨op, s₁, fs, rfl, hop, hg'⟩ |
      ⟨ch, f, rest, rfl, hst, hg'⟩ | hg'
    · exact hkeep hg' hl
    · obtain ⟨hv, -, rfl⟩ := startOp_loc hop hg' hl
      cases hs with
      | op _ _ _ _ hop' =>
          rw [hop] at hop'
          cases hop'
          cases l <;> exact hv
    · exact hkeep (f := f) (t := t) (by simp [hst]) (exec_loc hg' hl)
    · rw [loc_of_starts hg'] at hl
      cases hl
  case metas =>
    intro t g hg'
    rcases frame_step hp hs hg' with hg' | ⟨op, s₁, fs, rfl, hop, hg'⟩ |
      ⟨ch, f, rest, rfl, hst, hg'⟩ | hg'
    · exact h.metas hg'
    · by_cases hn : g.loc = none
      · exact metaOk_of_loc hn
      · obtain ⟨l, hl⟩ := Option.ne_none_iff_exists'.1 hn
        exact (startOp_loc hop hg' hl).2.1
    · have hf : f ∈ (s.locals t).stack := by simp [hst]
      exact exec_metaOk (h.metas hf) (fun l hl => h.fits ha hf hl) hg'
    · exact metaOk_of_loc (loc_of_starts hg')
  case window =>
    intro t g o i p hg' hw
    rcases h.unroots_step hp hs hg' (.inr ⟨p, hw⟩) with
      ⟨f, hf, hu, hwin, hno⟩ | ⟨ch, j, q, rest, -, -, -, rfl⟩ | ⟨cs, size, k, -, -, -, rfl⟩
    · have ho := owns_of_unroots hu
      have hold : i < (s.objs o).arity ∧ (s.objs o).link i = p := by
        rcases hwin p hw with hw | hw
        · exact h.window hf hw
        · exact hw
      rw [arity_step hs (hne hf ho)]
      rcases LinkInv.field_step ha hs i hf ho with he | ⟨ch, q, rest, hl, hst, -⟩
      · rwa [he]
      · exact absurd hst (hno ch i q rest hl)
    · cases hw
    · cases hw
  case ahead =>
    intro t g o i j hg' hu hij hj
    rcases h.unroots_step hp hs hg' hu with
      ⟨f, hf, hfu, -, hno⟩ | ⟨ch, k, q, rest, rfl, hst, rfl, -⟩ | ⟨cs, size, k, rfl, rfl, rfl, -⟩
    · have ho := owns_of_unroots hfu
      rw [arity_step hs (hne hf ho)] at hj
      rcases LinkInv.field_step ha hs j hf ho with he | ⟨ch, q, rest, hl, hst, -⟩
      · rw [he]
        exact h.ahead hf hfu hij hj
      · exact absurd hst (hno ch j q rest hl)
    · have hf : Frame.ptr (.unrootStore o k q) ∈ (s.locals t).stack := by simp [hst]
      rw [arity_step hs (hne hf rfl)] at hj
      rcases LinkInv.field_step ha hs j hf rfl with he | ⟨ch, q', rest', hl, hst', -⟩
      · rw [he]
        exact h.ahead hf (.inr ⟨q, rfl, rfl, rfl⟩) (Nat.le_of_succ_le hij) hj
      · rw [hst] at hst'
        cases hst'
        exact absurd hij (Nat.not_succ_le_self _)
    · cases hs with
      | op _ _ _ _ hop =>
          obtain ⟨rfl, -⟩ := startOp_alloc hop
          simp only [setStack_objs, St.newObj, Function.update_self]
          cases hx : (cs[j]?).bind s.cells with
          | none => rfl
          | some x =>
              obtain ⟨c, -, hc⟩ := Option.bind_eq_some_iff.1 hx
              exact h.cell hc
  case behind =>
    intro t g o i j hg' hu hij
    rcases h.unroots_step hp hs hg' hu with
      ⟨f, hf, hfu, -, hno⟩ | ⟨ch, k, q, rest, rfl, hst, rfl, -⟩ | ⟨cs, size, k, rfl, rfl, rfl, -⟩
    · have ho := owns_of_unroots hfu
      rcases LinkInv.field_step ha hs j hf ho with he | ⟨ch, q, rest, hl, hst, -⟩
      · rw [he]
        exact h.behind hf hfu hij
      · exact absurd hst (hno ch j q rest hl)
    · have hf : Frame.ptr (.unrootStore o k q) ∈ (s.locals t).stack := by simp [hst]
      by_cases hjk : j = k
      · subst hjk
        cases hs with
        | run _ hst' =>
            rw [hst] at hst'
            cases hst'
            simp [exec, execPtr, Eff.apply, St.setObj, ManPtr.withMeta]
      · rcases LinkInv.field_step ha hs j hf rfl with he | ⟨ch, q', rest', hl, hst', he⟩
        · rw [he]
          exact h.behind hf (.inr ⟨q, rfl, rfl, rfl⟩) (by omega)
        · rw [he]
          simp [ManPtr.withMeta]
    · cases hij
  case done =>
    intro o j ho hno hj
    have hold : o < s.nextObj → (∀ t, ∀ f ∈ (s.locals t).stack, ∀ i, ¬ f.unroots o i) →
        j < (s.objs o).arity → ((s'.objs o).link j).ptrMeta ≠ .Rooted := by
      intro ho hno hj
      rcases Cdpt.field_step hs o j with he | ⟨t, ch, f, rest, -, hst, hw⟩ | ⟨cs, -, rfl, -⟩
      · rw [he]
        exact h.done ho hno hj
      · exact hw.meta_ne (h.metas (t := t) (by simp [hst]))
      · exact absurd ho (Nat.lt_irrefl _)
    by_cases ho' : o < s.nextObj
    · rw [arity_step hs (Nat.ne_of_lt ho')] at hj
      by_cases hno' : ∀ t, ∀ f ∈ (s.locals t).stack, ∀ i, ¬ f.unroots o i
      · exact hold ho' hno' hj
      · push Not at hno'
        obtain ⟨t, f, hf, i, hu⟩ := hno'
        obtain ⟨ch, rest, rfl, hst, hend⟩ := loop_end hp hs hf hu (hno t)
        rcases LinkInv.field_step ha hs j hf (owns_of_unroots hu) with
          he | ⟨ch', q, rest', -, hst', -⟩
        · rw [he]
          exact h.behind hf hu (Nat.lt_of_lt_of_le hj hend)
        · rw [hst] at hst'
          cases hst'
    · -- a new object is at the start of the loop
      rcases nextObj_cases hs with ⟨he, -⟩ | ⟨t, cs, size, k, rfl, he⟩
      · exact absurd (he ▸ ho) ho'
      · have hoe : o = s.nextObj := by omega
        subst hoe
        cases hs with
        | op _ _ _ _ hop =>
            obtain ⟨-, rfl, -⟩ := startOp_alloc hop
            exact absurd (.inl rfl) (hno t (.ptr (.unroot s.nextObj 0)) (by simp) 0)
  case single => exact h.single_step hp hs

theorem LinkInv.init (n : Nat) : LinkInv (St.init n) := by
  have hst : ∀ {t f}, f ∉ ((St.init n).locals t).stack := fun {t f} hf => by
    rw [stack_init] at hf
    cases hf
  exact ⟨nofun, nofun, fun hf => absurd hf hst, fun hf => absurd hf hst, fun hf => absurd hf hst,
    fun hf => absurd hf hst, fun hf => absurd hf hst, fun ho => absurd ho (Nat.not_lt_zero _),
    fun t => by simp [stack_init]⟩

/-- The invariant of every reachable state. -/
structure WellFormed (s : St) : Prop where
  ground : Ground s
  alloc : AllocInv s
  links : LinkInv s
  args : ∀ {t f}, f ∈ (s.locals t).stack → f.argOk
  tasks : s.TasksLt

theorem args_step {s s' : St} {lab : Label} (h : ∀ {t f}, f ∈ (s.locals t).stack → f.argOk)
    (hp : PinStr s) (hs : StepCase s lab s') {t : Lid} {g : Frame}
    (hg : g ∈ (s'.locals t).stack) : g.argOk := by
  rcases frame_step hp hs hg with hg | ⟨op, s₁, fs, -, hop, hg⟩ | ⟨ch, f, rest, -, hst, hg⟩ | hg
  · exact h hg
  · exact startOp_argOk hop hg
  · exact exec_argOk (h (t := t) (f := f) (by simp [hst])) hg
  · exact argOk_of_starts hg

theorem WellFormed.init (n : Nat) : WellFormed (St.init n) :=
  ⟨.init n, .init n, .init n, fun hf => by simp [stack_init] at hf, fun i _ => by
    by_cases hi : i = 0 <;> simp [St.init, Local.default, hi]⟩

theorem WellFormed.step {s s' : St} {lab : Label} (h : WellFormed s)
    (hs : Cdpt.step s lab = some s') : WellFormed s' :=
  ⟨h.ground.step hs, h.alloc.step h.ground (stepCase hs),
    h.links.step h.ground h.alloc (stepCase hs),
    args_step h.args h.ground.pin.str (stepCase hs),
    tasksLt_step h.tasks h.ground.pin.str (stepCase hs)⟩

theorem WellFormed.of_reachable {n : Nat} {s : St} (h : Reachable n s) : WellFormed s :=
  h.invariant (.init n) fun hi _ hs => hi.step hs

end Cdpt
