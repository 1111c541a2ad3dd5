import Cdpt.Proofs.Alloc

/-!
# The links of cells and objects

Which frames write a link, on which link an operation in flight works, and how far
the loop that unroots the fields of a new object has come. What a step does to a
stack is said once, in `stack_step`; every statement about the frames in flight
after a step starts from there.

The links of fields and cells that are there already are written by four kinds of
frame only: the CAS of an operation on a rooted or an unrooted link, that of
`shade`, and the plain store of `unroot`. `LinkWrite` lists them with the word each
writes, so that an invariant about links has four cases to look at and not the whole
program (`field_step`). What a frame knows about its link (`Frame.loc`,
`Frame.metaOk`) is the other half: an operation has read the metadata before it goes
down a path, and its CAS compares with what it has read.

The loop of `unroot` needs more, since the count of a field is given up one access
before its link is stored. `Frame.window` names the frames in between,
`Frame.unroots` the position of the loop, and the lemmas after them say how each
moves: a window opens with the decrement and closes with the store, and the position
goes from one field to the next. That the loop works on links nobody else writes is
not shown here but in `Rooted`, from `AllocInv`.
-/

namespace Cdpt

/-! ## How a stack changes -/

/-- What a step can make of the stack of node `t`. -/
inductive StackStep (s : St) (lab : Label) (t : Lid) : List Frame → Prop
  | same (hl : ∀ ch, lab ≠ .run t ch) : StackStep s lab t (s.locals t).stack
  | op {op : Op} {s₁ : St} {fs : List Frame} (hl : lab = .op t op) (ht : t < s.nLocals)
      (hst : (s.locals t).stack = []) (hop : startOp s t op = some (s₁, fs)) :
      StackStep s lab t fs
  | run {ch : Nat} {f : Frame} {rest : List Frame} (hl : lab = .run t ch) (ht : t < s.nLocals)
      (hst : (s.locals t).stack = f :: rest) : StackStep s lab t ((exec s t ch f).2 ++ rest)
  | coll {ch : Nat} {e : Eff} {st : Stage} {fs : List Frame} (hl : lab = .coll ch)
      (ht : t = s.collector) (hst : (s.locals t).stack = [])
      (hcoll : collStep s ch = some (e, st, fs)) : StackStep s lab t fs
  | worker {lo hi : Nat} {hz : List Oid} {js : List (Nat × Nat × List Oid)}
      (hl : lab = .startWorker t) (hj : s.jobs = (lo, hi, hz) :: js)
      (hst : (s.locals t).stack = []) :
      StackStep s lab t [.pin .pin, .help (.scanPop (.worker lo hi hz)), .pin .helpIf, .pin .unpin,
        .pin .workerExit]

theorem stack_step {s s' : St} {lab : Label} (hp : PinStr s) (hs : StepCase s lab s') (t : Lid) :
    StackStep s lab t (s'.locals t).stack := by
  cases hs with
  | @op t' op s₁ fs ht hu hst hc hop =>
      by_cases hi : t = t'
      · subst hi
        rw [setStack_stack_self]
        exact .op rfl ht hst hop
      · rw [setStack_stack_ne _ _ hi, (startOp_same hop).1.stack]
        exact .same (fun _ => nofun)
  | @run t' ch f rest ht hst =>
      by_cases hi : t = t'
      · subst hi
        rw [setStack_stack_self]
        exact .run rfl ht hst
      · rw [setStack_stack_ne _ _ hi, apply_stack]
        exact .same (by rintro ch' ⟨⟩; exact hi rfl)
  | @coll ch e st fs hst hcoll =>
      by_cases hi : t = s.collector
      · subst hi
        rw [setStack_stack_self]
        exact .coll rfl rfl hst hcoll
      · rw [setStack_stack_ne _ _ hi, withStage_locals, apply_stack]
        exact .same (fun _ => nofun)
  | sweep hw =>
      rw [withSweepers_locals, apply_stack]
      exact .same (fun _ => nofun)
  | @startWorker t' lo hi hz js hj hr hc =>
      by_cases hi' : t = t'
      · subst hi'
        rw [setStack_stack_self]
        exact .worker rfl hj (hp.free_stack hr)
      · rw [setStack_stack_ne _ _ hi', withJobs_locals, register_ne s hi']
        exact .same (fun _ => nofun)
  | @register t' hr hc =>
      by_cases hi' : t = t'
      · subst hi'
        rcases register_node hp hr t with ⟨hne, -⟩ | ⟨-, -, -, hst⟩
        · exact absurd rfl hne
        · rw [hst, ← hp.free_stack hr]
          exact .same (fun _ => nofun)
      · rw [register_ne s hi']
        exact .same (fun _ => nofun)
  | @exit t' ht hu hst hgc hh hc =>
      simp only [setLocal_locals]
      split
      · next hi =>
          subst hi
          exact .same (fun _ => nofun)
      · exact .same (fun _ => nofun)

/-! ## The steps that write a link -/

/-- What the top frame of `t` writes to the link `l` it has found to hold `cur`. -/
inductive LinkWrite (s : St) (t : Lid) (ch : Nat) (l : Loc) : Frame → ManPtr → Prop
  | rooted {old new : ManPtr} {k : CasKind} (h : casOk (s.link l) old k ch) :
      LinkWrite s t ch l (.ptr (.rootedCas l old new k)) (new.withMeta .Rooted)
  | unrooted {old new : ManPtr} {k : CasKind} (h : casOk (s.link l) old k ch) :
      LinkWrite s t ch l (.ptr (.unrootedCas l old new k)) (new.withMeta old.ptrMeta)
  | unroot {o : Oid} {i : Nat} {p : ManPtr} (hl : l = .field o i) :
      LinkWrite s t ch l (.ptr (.unrootStore o i p)) (p.withMeta (.Unrooted (s.allocColor t)))
  | shade {o : Oid} {i : Nat} {p : ManPtr} (hl : l = .field o i) (h : s.link l = p) :
      LinkWrite s t ch l (.mark (.linkCas o i p)) (p.withMeta (.Unrooted (s.black t)))

theorem exec_setLink {s : St} {t : Lid} {ch : Nat} {f : Frame} {l : Loc} {p : ManPtr}
    (h : (exec s t ch f).1 = .setLink l p) : LinkWrite s t ch l f p := by
  cases f with
  | pin f => cases f <;> simp only [exec, execPin] at h <;> (repeat' split at h) <;> cases h
  | ptr f =>
      cases f with
      | rootedCas l old new k =>
          simp only [exec, execPtr] at h
          split at h
          · next hok =>
              cases h
              exact .rooted hok
          · cases h
      | unrootedCas l old new k =>
          simp only [exec, execPtr] at h
          split at h
          · next hok =>
              cases h
              exact .unrooted hok
          · cases h
      | unrootStore o i p =>
          cases h
          exact .unroot rfl
      | _ =>
          simp only [exec, execPtr] at h
          repeat' split at h
          all_goals cases h
  | mark f =>
      cases f <;> simp only [exec, execMark] at h <;> (repeat' split at h) <;>
        first
        | (cases h; done)
        | (next hl => cases h; exact .shade rfl hl)
  | help f => cases f <;> simp only [exec, execHelp] at h <;> (repeat' split at h) <;> cases h

theorem field_apply (e : Eff) (s : St) (t : Lid) (o : Oid) (i : Nat) :
    ((e.apply s t).objs o).link i = (s.objs o).link i ∨
    ∃ p, e = .setLink (.field o i) p ∧ ((e.apply s t).objs o).link i = p := by
  cases e with
  | setLink l p =>
      cases l with
      | cell c => exact .inl rfl
      | field o' j =>
          by_cases ho : o = o'
          · subst ho
            by_cases hj : i = j
            · subst hj
              exact .inr ⟨p, rfl, by simp [Eff.apply, St.setObj]⟩
            · exact .inl (by simp [Eff.apply, St.setObj, hj])
          · exact .inl (by simp [Eff.apply, St.setObj, ho])
  | setColor p c | setCount p n | reclaim p =>
      refine .inl ?_
      by_cases hp : o = p
      · subst hp
        simp [Eff.apply, St.setObj]
      · simp [Eff.apply, St.setObj, hp]
  | _ => exact .inl rfl

theorem cell_apply (e : Eff) (s : St) (t : Lid) (c : Cid) :
    (e.apply s t).cells c = s.cells c ∨
    (∃ x p, s.cells c = some x ∧ e = .setLink (.cell c) p ∧
      (e.apply s t).cells c = some { x with link := p }) ∨
    ∃ k p, c = s.nextCell ∧ e = .newCell k p ∧ (e.apply s t).cells c = some ⟨k, p⟩ := by
  cases e with
  | setLink l p =>
      cases l with
      | field o j => exact .inl rfl
      | cell c' =>
          by_cases hc : c = c'
          · subst hc
            cases hx : s.cells c with
            | none => exact .inl (by simp [Eff.apply, hx])
            | some x => exact .inr (.inl ⟨x, p, rfl, rfl, by simp [Eff.apply, hx]⟩)
          · exact .inl (by simp [Eff.apply, hc])
  | newCell k p =>
      by_cases hc : c = s.nextCell
      · subst hc
        exact .inr (.inr ⟨k, p, rfl, rfl, by simp [Eff.apply]⟩)
      · exact .inl (by simp [Eff.apply, hc])
  | _ => exact .inl rfl

theorem collStep_setLink {s : St} {ch : Nat} {e : Eff} {st : Stage} {fs : List Frame}
    (h : collStep s ch = some (e, st, fs)) :
    (∀ l p, e ≠ .setLink l p) ∧ (∀ k p, e ≠ .newCell k p) ∧ ∀ o n, e ≠ .setCount o n := by
  unfold collStep at h
  simp only at h
  repeat' split at h
  all_goals first
    | (cases h; done)
    | (cases h; simp)

theorem sweepStep_setLink (s : St) (w : Sweeper) (ch : Nat) :
    (∀ l p, (sweepStep s w ch).1 ≠ .setLink l p) ∧ (∀ k p, (sweepStep s w ch).1 ≠ .newCell k p) ∧
    ∀ o n, (sweepStep s w ch).1 ≠ .setCount o n := by
  unfold sweepStep
  repeat' split
  all_goals simp

/-- The step `lab` starts the construction of an object from the cells `cs`. -/
def Label.builds (lab : Label) (cs : List Cid) : Prop := ∃ t size k, lab = .op t (.alloc cs size k)

theorem startOp_field {s s₁ : St} {t : Lid} {op : Op} {fs : List Frame}
    (h : startOp s t op = some (s₁, fs)) (o : Oid) (i : Nat) :
    (s₁.objs o).link i = (s.objs o).link i ∨
    ∃ cs size k, op = .alloc cs size k ∧ o = s.nextObj ∧
      (s₁.objs o).link i = (((cs[i]?).bind s.cells).map Cell.link).getD .null := by
  cases op with
  | alloc cs size k =>
      obtain ⟨rfl, -⟩ := startOp_alloc h
      by_cases ho : o = s.nextObj
      · subst ho
        exact .inr ⟨cs, size, k, rfl, rfl, by simp [St.newObj]⟩
      · exact .inl (by simp [St.newObj, St.removeCells, ho])
  | _ =>
      refine .inl ?_
      simp only [startOp] at h
      repeat' split at h
      all_goals first
        | (cases h; done)
        | (cases h; rfl)
        | (obtain ⟨o, -, h⟩ := Option.map_eq_some_iff.1 h; cases h; rfl)

/-- The link of a field after a step. -/
theorem field_step {s s' : St} {lab : Label} (hs : StepCase s lab s') (o : Oid) (i : Nat) :
    (s'.objs o).link i = (s.objs o).link i ∨
    (∃ t ch f rest, lab = .run t ch ∧ (s.locals t).stack = f :: rest ∧
      LinkWrite s t ch (.field o i) f ((s'.objs o).link i)) ∨
    ∃ cs, lab.builds cs ∧ o = s.nextObj ∧
      (s'.objs o).link i = (((cs[i]?).bind s.cells).map Cell.link).getD .null := by
  cases hs with
  | @op t op s₁ fs ht hu hst hc hop =>
      rcases startOp_field hop o i with h | ⟨cs, size, k, rfl, ho, h⟩
      · exact .inl h
      · exact .inr (.inr ⟨cs, ⟨t, size, k, rfl⟩, ho, h⟩)
  | @run t ch f rest ht hst =>
      rcases field_apply (exec s t ch f).1 s t o i with h | ⟨p, he, h⟩
      · exact .inl h
      · refine .inr (.inl ⟨t, ch, f, rest, rfl, hst, ?_⟩)
        rw [setStack_objs, h]
        exact exec_setLink he
  | @coll ch e st fs hst hcoll =>
      refine .inl ((field_apply e s s.collector o i).resolve_right ?_)
      rintro ⟨p, he, -⟩
      exact (collStep_setLink hcoll).1 _ _ he
  | @sweep k ch w hw =>
      refine .inl ((field_apply (sweepStep s w ch).1 s s.collector o i).resolve_right ?_)
      rintro ⟨p, he, -⟩
      exact (sweepStep_setLink s w ch).1 _ _ he
  | @startWorker t lo hi hz js hj hr hc =>
      refine .inl ?_
      rw [setStack_objs, withJobs_objs]
      unfold St.register
      split <;> rfl
  | @register t hr hc =>
      refine .inl ?_
      unfold St.register
      split <;> rfl
  | exit ht hu hst hg hh hc => exact .inl rfl

/-! ## Where the frames of an operation point -/

def ShadeRet.loc : ShadeRet → Option Loc
  | .insertion l _ _ _ => some l
  | _ => none

/-- The link an operation in flight works on. -/
def Frame.loc : Frame → Option Loc
  | .ptr (.load l) | .ptr (.swapLoad l _) | .ptr (.casLoad l _ _ _)
  | .ptr (.incNew l _ _ _) | .ptr (.rootedCas l _ _ _) | .ptr (.unrootedCas l _ _ _)
  | .ptr (.cloneLoad l) => some l
  | .ptr (.shade _ r) | .ptr (.record _ r) | .ptr (.push _ r) | .ptr (.rcPhase _ r) => r.loc
  | _ => none

/-- Cells are rooted; the fields an operation can come across are not. -/
def Loc.fits : Loc → PtrMeta → Prop
  | .cell _, m => m = .Rooted
  | .field _ _, m => m ≠ .Rooted

def ShadeRet.metaOk : ShadeRet → Prop
  | .insertion l old _ _ => l.fits old.ptrMeta ∧ old.ptrMeta ≠ .Rooted
  | _ => True

/-- The path an operation has taken fits the metadata it has read. -/
def Frame.metaOk : Frame → Prop
  | .ptr (.incNew l old _ _) | .ptr (.rootedCas l old _ _) =>
      l.fits old.ptrMeta ∧ old.ptrMeta = .Rooted
  | .ptr (.unrootedCas l old _ _) => l.fits old.ptrMeta ∧ old.ptrMeta ≠ .Rooted
  | .ptr (.shade _ r) | .ptr (.record _ r) | .ptr (.push _ r) | .ptr (.rcPhase _ r) => r.metaOk
  | _ => True

def ShadeRet.window (o : Oid) (i : Nat) (p : ManPtr) : ShadeRet → Prop
  | .unroot o' i' p' => o' = o ∧ i' = i ∧ p' = p
  | _ => False

/-- `unroot` has decremented the pointee `p` of field `i` of `o` and has yet to
store the link. -/
def Frame.window (o : Oid) (i : Nat) (p : ManPtr) : Frame → Prop
  | .ptr (.unrootStore o' i' p') => o' = o ∧ i' = i ∧ p' = p
  | .ptr (.shade _ r) | .ptr (.record _ r) | .ptr (.push _ r) | .ptr (.rcPhase _ r) =>
      r.window o i p
  | _ => False

/-- The frame stands at field `i` in the loop that unroots the fields of `o`. -/
def Frame.unroots (o : Oid) (i : Nat) (f : Frame) : Prop :=
  f = .ptr (.unroot o i) ∨ ∃ p, f.window o i p

/-- Some position of that loop. -/
def Frame.isUnroot : Frame → Bool
  | .ptr (.unroot _ _) | .ptr (.unrootStore _ _ _) => true
  | .ptr (.rcPhase _ r) | .ptr (.shade _ r) | .ptr (.record _ r) | .ptr (.push _ r) => r.isUnroot
  | _ => false

attribute [grind =] ShadeRet.loc Frame.loc ShadeRet.metaOk Frame.metaOk ShadeRet.window
  Frame.window

theorem isUnroot_of_unroots {o : Oid} {i : Nat} {f : Frame} (h : f.unroots o i) :
    f.isUnroot = true := by
  rcases h with rfl | ⟨p, h⟩
  · rfl
  · unfold Frame.window at h
    split at h
    all_goals first
      | rfl
      | cases h
      | (next r => cases r <;> first | rfl | cases h)

theorem owns_of_unroots {o : Oid} {i : Nat} {f : Frame} (h : f.unroots o i) : f.owns o := by
  rcases h with rfl | ⟨p, h⟩
  · rfl
  · unfold Frame.window at h
    split at h
    · exact h.1
    all_goals first
      | cases h
      | (next r => cases r <;> first | exact h.1 | cases h)

theorem loc_resume {r : ShadeRet} {g : Frame} (hg : g ∈ r.resume) : g.loc = r.loc := by
  cases r <;> simp_all [ShadeRet.resume, Frame.loc, ShadeRet.loc]

theorem loc_unrootedOnce (s : St) (t : Lid) (l : Loc) (old new : ManPtr) (k : CasKind) :
    Frame.loc (.ptr (unrootedOnce s t l old new k)) = some l := by
  unfold unrootedOnce
  repeat' split
  all_goals rfl

theorem loc_dropTemp {p : ManPtr} {g : Frame} (hg : g ∈ dropTemp p) : g.loc = none := by
  unfold dropTemp at hg
  split at hg
  · simp only [dropFrames, List.mem_cons, List.not_mem_nil, or_false] at hg
    rcases hg with rfl | rfl | rfl | rfl <;> rfl
  · cases hg

theorem exec_loc {s : St} {t : Lid} {ch : Nat} {f g : Frame} {l : Loc}
    (hg : g ∈ (exec s t ch f).2) (hl : g.loc = some l) : f.loc = some l := by
  cases f with
  | pin f =>
      cases f <;> simp only [exec, execPin] at hg <;> (repeat' split at hg) <;> grind
  | ptr f =>
      cases f <;> simp only [exec, execPtr, rootedFail, unrootedFail, rootedOnce] at hg <;>
        (repeat' split at hg) <;> grind [loc_resume, loc_unrootedOnce, loc_dropTemp]
  | mark f =>
      cases f <;> simp only [exec, execMark, shadeLink] at hg <;> (repeat' split at hg) <;> grind
  | help f =>
      cases f <;> simp only [exec, execHelp, scanObj, scanHazard, Scanner.next] at hg <;>
        (repeat' split at hg) <;> grind

theorem metaOk_unrootedOnce {s : St} {t : Lid} {l : Loc} {old new : ManPtr} {k : CasKind}
    (h : l.fits old.ptrMeta) (hr : old.ptrMeta ≠ .Rooted) :
    Frame.metaOk (.ptr (unrootedOnce s t l old new k)) := by
  unfold unrootedOnce
  repeat' split
  all_goals exact ⟨h, hr⟩

theorem metaOk_rootedOnce {l : Loc} {old new : ManPtr} {k : CasKind}
    (h : l.fits old.ptrMeta) (hr : old.ptrMeta = .Rooted) :
    Frame.metaOk (.ptr (rootedOnce l old new k)) := by
  unfold rootedOnce
  split
  all_goals exact ⟨h, hr⟩

theorem Loc.fits_congr {l : Loc} {m m' : PtrMeta} (h : l.fits m) (h' : l.fits m')
    (hr : m ≠ .Rooted) : m' ≠ .Rooted := by
  cases l with
  | cell c => exact absurd h hr
  | field o i => exact h' 

theorem metaOk_of_loc {f : Frame} (h : f.loc = none) : f.metaOk := by
  cases f with
  | ptr f =>
      cases f with
      | rcPhase o r | shade o r | record o r | push o r =>
          cases r <;> trivial
      | _ => trivial
  | _ => trivial

theorem metaOk_resume {r : ShadeRet} {g : Frame} (hg : g ∈ r.resume) (h : r.metaOk) :
    g.metaOk := by
  cases r <;> simp_all [ShadeRet.resume, Frame.metaOk, ShadeRet.metaOk]

theorem exec_metaOk {s : St} {t : Lid} {ch : Nat} {f g : Frame} (h : f.metaOk)
    (hfit : ∀ l, f.loc = some l → l.fits (s.link l).ptrMeta) (hg : g ∈ (exec s t ch f).2) :
    g.metaOk := by
  by_cases hn : g.loc = none
  · exact metaOk_of_loc hn
  obtain ⟨l, hl⟩ := Option.ne_none_iff_exists'.1 hn
  have hf := exec_loc hg hl
  replace hfit := hfit l hf
  cases f with
  | ptr f =>
      cases f with
      | rootedCas l' old new k =>
          cases hf
          have hr : (s.link l).ptrMeta = .Rooted := by
            by_contra hr
            exact Loc.fits_congr hfit h.1 hr h.2
          simp only [exec, execPtr, rootedFail] at hg
          repeat' split at hg
          all_goals grind [metaOk_unrootedOnce, loc_dropTemp]
      | unrootedCas l' old new k =>
          cases hf
          have hr := Loc.fits_congr h.1 hfit h.2
          simp only [exec, execPtr, unrootedFail] at hg
          repeat' split at hg
          all_goals grind [metaOk_unrootedOnce]
      | _ =>
          simp only [exec, execPtr] at hg
          repeat' split at hg
          all_goals grind [metaOk_unrootedOnce, metaOk_rootedOnce, metaOk_resume]
  | _ => cases hf

theorem window_resume {r : ShadeRet} {g : Frame} {o : Oid} {i : Nat} {p : ManPtr}
    (hg : g ∈ r.resume) : g.window o i p ↔ r.window o i p := by
  cases r <;> simp_all [ShadeRet.resume, Frame.window, ShadeRet.window]

/-- The window of a field opens when its pointee is decremented. -/
theorem exec_window {s : St} {t : Lid} {ch : Nat} {f g : Frame} {o : Oid} {i : Nat} {p : ManPtr}
    (hg : g ∈ (exec s t ch f).2) (hw : g.window o i p) :
    f.window o i p ∨ (f = .ptr (.unroot o i) ∧ i < (s.objs o).arity ∧ (s.objs o).link i = p) := by
  have ho := (exec_owns hg (owns_of_unroots (.inr ⟨p, hw⟩))).1
  cases f with
  | ptr f =>
      cases f with
      | rcPhase c r | shade c r | push c r | record c r =>
          simp only [exec, execPtr] at hg
          repeat' split at hg
          all_goals grind [window_resume]
      | unroot o' i' =>
          simp only [exec, execPtr] at hg
          repeat' split at hg
          all_goals grind [St.link]
      | pushObj _ b =>
          cases b
          · cases ho
          · simp only [exec, execPtr] at hg
            repeat' split at hg
            all_goals grind
      | _ =>
          simp only [exec, execPtr] at hg
          repeat' split at hg
          all_goals grind [Frame.owns]
  | _ => cases ho

/-- The loop goes from one field to the next. -/
theorem exec_unroot {s : St} {t : Lid} {ch : Nat} {f : Frame} {o : Oid} {i : Nat}
    (hg : .ptr (.unroot o i) ∈ (exec s t ch f).2) :
    ∃ j p, f = .ptr (.unrootStore o j p) ∧ i = j + 1 := by
  have ho := (exec_owns (o := o) hg rfl).1
  cases f with
  | ptr f =>
      cases f with
      | rcPhase c r | shade c r | push c r | record c r =>
          cases r <;> simp only [exec, execPtr, ShadeRet.resume] at hg <;>
            (repeat' split at hg) <;> grind
      | _ =>
          simp only [exec, execPtr] at hg
          repeat' split at hg
          all_goals grind [Frame.owns]
  | _ => cases ho

theorem exec_unroots {s : St} {t : Lid} {ch : Nat} {f g : Frame} {o : Oid} {i : Nat}
    (hg : g ∈ (exec s t ch f).2) (hu : g.unroots o i) :
    f.unroots o i ∨ ∃ j p, f = .ptr (.unrootStore o j p) ∧ i = j + 1 := by
  rcases hu with rfl | ⟨p, hw⟩
  · exact .inr (exec_unroot hg)
  · rcases exec_window hg hw with h | ⟨rfl, -⟩
    · exact .inl (.inr ⟨p, h⟩)
    · exact .inl (.inl rfl)

/-- It is left at the end only. -/
theorem exec_keeps_unroot (s : St) (t : Lid) (ch : Nat) {f : Frame} {o : Oid} {i : Nat}
    (h : f.unroots o i) :
    (∃ g ∈ (exec s t ch f).2, ∃ j, g.unroots o j) ∨
    (f = .ptr (.unroot o i) ∧ (s.objs o).arity ≤ i) := by
  have hresume : ∀ {r : ShadeRet} {p}, r.window o i p →
      ∃ g ∈ r.resume, ∃ j, g.unroots o j := by
    intro r p hr
    cases r with
    | unroot o' i' p' => exact ⟨_, List.mem_singleton_self _, i, .inr ⟨p, hr⟩⟩
    | _ => cases hr
  rcases h with rfl | ⟨p, hw⟩
  · simp only [exec, execPtr]
    repeat' split
    · exact .inl ⟨_, List.mem_singleton_self _, i, .inr ⟨_, rfl, rfl, rfl⟩⟩
    · exact .inl ⟨_, List.mem_singleton_self _, i, .inr ⟨_, rfl, rfl, rfl⟩⟩
    · exact .inl ⟨_, List.mem_singleton_self _, i, .inr ⟨_, rfl, rfl, rfl⟩⟩
    · next h => exact .inr ⟨trivial, Nat.le_of_not_lt h⟩
  · refine .inl ?_
    unfold Frame.window at hw
    split at hw
    · obtain ⟨rfl, rfl, rfl⟩ := hw
      exact ⟨_, List.mem_singleton_self _, _, .inl rfl⟩
    · simp only [exec, execPtr]
      split
      · exact hresume hw
      · exact ⟨_, List.mem_singleton_self _, i, .inr ⟨p, hw⟩⟩
    · exact ⟨_, List.mem_singleton_self _, i, .inr ⟨p, hw⟩⟩
    · exact hresume hw
    · simp only [exec, execPtr]
      split
      · exact hresume hw
      · exact ⟨_, List.mem_singleton_self _, i, .inr ⟨p, hw⟩⟩
    · cases hw

theorem isUnroot_resume {r : ShadeRet} {g : Frame} (hg : g ∈ r.resume) :
    g.isUnroot = r.isUnroot := by
  cases r <;> simp_all [ShadeRet.resume, Frame.isUnroot, ShadeRet.isUnroot]

theorem length_resume (r : ShadeRet) : r.resume.length ≤ 1 := by
  cases r <;> simp [ShadeRet.resume]

theorem isAlloc_of_isUnroot {f : Frame} (h : f.isUnroot = true) : f.isAlloc = true := by
  unfold Frame.isUnroot at h
  split at h
  all_goals first
    | rfl
    | exact h
    | cases h

/-- One position of the loop leads to one. -/
theorem exec_isUnroot {s : St} {t : Lid} {ch : Nat} {f g : Frame} (hg : g ∈ (exec s t ch f).2)
    (h : g.isUnroot = true) : f.isUnroot = true ∧ (exec s t ch f).2.length ≤ 1 := by
  have ha := isAlloc_of_isUnroot h
  cases f with
  | pin f =>
      cases f <;> simp only [exec, execPin] at hg <;> (repeat' split at hg) <;>
        grind [Frame.isAlloc]
  | ptr f =>
      have hall := List.all_eq_true.1 (execPtr_isAlloc s t ch f) _ hg
      rw [ha] at hall
      cases f with
      | rcPhase o r | shade o r | push o r | record o r =>
          simp only [exec, execPtr] at hg ⊢
          repeat' split at hg
          all_goals grind [isUnroot_resume, length_resume, Frame.isUnroot]
      | pushObj | flushPush | flushStat | unroot | unrootStore | allocRet =>
          simp only [exec, execPtr] at hg ⊢
          repeat' split at hg
          all_goals grind [Frame.isUnroot]
      | _ => cases hall
  | mark f =>
      cases f <;> simp only [exec, execMark, shadeLink] at hg <;> (repeat' split at hg) <;>
        grind [Frame.isAlloc, ShadeRet.isUnroot]
  | help f =>
      cases f <;> simp only [exec, execHelp, scanObj, scanHazard, Scanner.next] at hg <;>
        (repeat' split at hg) <;> grind [Frame.isUnroot]

/-! ## What an operation starts with -/

/-- The link is there: a live cell, or a field of its object. -/
def St.validLoc (s : St) : Loc → Prop
  | .cell c => (s.cells c).isSome = true
  | .field o i => i < (s.objs o).arity

theorem validLoc_place {s : St} {t : Lid} {p : Place} {k : PtrKind} {l : Loc}
    (h : s.place t p = some (k, l)) : s.validLoc l := by
  cases p with
  | cell c =>
      obtain ⟨x, hx, he⟩ := Option.map_eq_some_iff.1 h
      cases he
      simp [St.validLoc, hx]
  | field b path i =>
      obtain ⟨r, -, h⟩ := Option.bind_eq_some_iff.1 h
      obtain ⟨o, -, h⟩ := Option.bind_eq_some_iff.1 h
      split at h
      · next hi =>
          cases h
          exact hi
      · cases h

theorem startOp_loc {s s₁ : St} {t : Lid} {op : Op} {fs : List Frame} {g : Frame} {l : Loc}
    (h : startOp s t op = some (s₁, fs)) (hg : g ∈ fs) (hl : g.loc = some l) :
    s.validLoc l ∧ g.metaOk ∧ s₁ = s := by
  cases op <;> simp only [startOp] at h <;> (repeat' split at h) <;>
    first
    | (cases h; done)
    | (cases h; grind [dropFrames])
    | (cases h
       simp only [List.mem_singleton] at hg
       subst hg
       cases hl
       exact ⟨validLoc_place (by assumption), trivial, rfl⟩)
    | (obtain ⟨o, ho, h⟩ := Option.map_eq_some_iff.1 h
       cases h
       grind [validLoc_place])

theorem startOp_unroots {s s₁ : St} {t : Lid} {op : Op} {fs : List Frame} {g : Frame}
    (h : startOp s t op = some (s₁, fs)) (hg : g ∈ fs) (hu : g.isUnroot = true) :
    g = .ptr (.unroot s.nextObj 0) := by
  cases op <;> simp only [startOp] at h <;> (repeat' split at h) <;>
    first
    | (cases h; done)
    | (cases h; grind [Frame.isUnroot, dropFrames])
    | (obtain ⟨o, ho, h⟩ := Option.map_eq_some_iff.1 h
       cases h
       grind [Frame.isUnroot])

/-- The frames the collector and a new worker start with. -/
def Frame.starts : Frame → Bool
  | .pin .pin | .pin .helpIf | .pin .unpin | .pin .workerExit | .mark (.task _)
  | .help (.scanPop (.worker _ _ _)) => true
  | _ => false

theorem loc_of_starts {g : Frame} (h : g.starts = true) : g.loc = none := by
  unfold Frame.starts at h
  split at h
  all_goals first
    | rfl
    | cases h

theorem isUnroot_of_starts {g : Frame} (h : g.starts = true) : g.isUnroot = false := by
  unfold Frame.starts at h
  split at h
  all_goals first
    | rfl
    | cases h

theorem collStep_starts {s : St} {ch : Nat} {e : Eff} {st : Stage} {fs : List Frame} {g : Frame}
    (h : collStep s ch = some (e, st, fs)) (hg : g ∈ fs) : g.starts = true := by
  rcases (collStep_guards h).2 with rfl | rfl | ⟨rfl, -⟩ | ⟨p, rfl, -⟩ <;>
    simp only [List.mem_cons, List.not_mem_nil, or_false] at hg
  · subst hg
    rfl
  · rcases hg with rfl | rfl <;> rfl
  · subst hg
    rfl

/-- A frame is an old one, or comes from an operation or from the top frame. -/
theorem frame_step {s s' : St} {lab : Label} (hp : PinStr s) (hs : StepCase s lab s') {t : Lid}
    {g : Frame} (hg : g ∈ (s'.locals t).stack) :
    g ∈ (s.locals t).stack ∨
    (∃ op s₁ fs, lab = .op t op ∧ startOp s t op = some (s₁, fs) ∧ g ∈ fs) ∨
    (∃ ch f rest, lab = .run t ch ∧ (s.locals t).stack = f :: rest ∧ g ∈ (exec s t ch f).2) ∨
    g.starts = true := by
  have h := stack_step hp hs t
  generalize (s'.locals t).stack = fs at h hg
  cases h with
  | same _ => exact .inl hg
  | op hl _ _ hop => exact .inr (.inl ⟨_, _, _, hl, hop, hg⟩)
  | run hl _ hst =>
      rcases List.mem_append.1 hg with hg | hg
      · exact .inr (.inr (.inl ⟨_, _, _, hl, hst, hg⟩))
      · exact .inl (by simp [hst, hg])
  | coll _ _ _ hcoll => exact .inr (.inr (.inr (collStep_starts hcoll hg)))
  | worker =>
      simp only [List.mem_cons, List.not_mem_nil, or_false] at hg
      rcases hg with rfl | rfl | rfl | rfl | rfl <;> exact .inr (.inr (.inr rfl))

/-! ## What a call of `shade_pointee` is about -/

/-- The pointer a call of `shade_pointee` belongs to has the address `o`. -/
def ShadeRet.about (o : Oid) : ShadeRet → Prop
  | .insertion _ _ new _ => new.addr = some o
  | .deletion old | .rooted old => old.addr = some o
  | .dropped => True
  | .unroot _ _ ptr | .link _ _ ptr => ptr.addr = some o

def Frame.argOk : Frame → Prop
  | .ptr (.shade o r) | .ptr (.record o r) | .ptr (.push o r) | .ptr (.rcPhase o r) => r.about o
  | _ => True

attribute [grind =] ShadeRet.about Frame.argOk

theorem argOk_unrootedOnce (s : St) (t : Lid) (l : Loc) (old new : ManPtr) (k : CasKind) :
    Frame.argOk (.ptr (unrootedOnce s t l old new k)) := by
  unfold unrootedOnce
  split
  · split
    · next h => exact h
    · trivial
  · trivial

theorem argOk_rootedOnce (l : Loc) (old new : ManPtr) (k : CasKind) :
    Frame.argOk (.ptr (rootedOnce l old new k)) := by
  unfold rootedOnce
  split <;> trivial

theorem argOk_resume {r : ShadeRet} {g : Frame} (hg : g ∈ r.resume) : g.argOk := by
  cases r <;> simp only [ShadeRet.resume, List.mem_singleton, List.not_mem_nil] at hg <;>
    (subst hg; trivial)

theorem argOk_dropTemp {p : ManPtr} {g : Frame} (hg : g ∈ dropTemp p) : g.argOk := by
  unfold dropTemp at hg
  split at hg
  · simp only [dropFrames, List.mem_cons, List.not_mem_nil, or_false] at hg
    rcases hg with rfl | rfl | rfl | rfl <;> trivial
  · cases hg

theorem argOk_shadeLink (s : St) (t : Lid) (o : Oid) (i : Nat) (p : ManPtr) :
    (shadeLink s t o i p).argOk := by
  unfold shadeLink
  split
  · trivial
  · split
    · next h => exact h
    · trivial

theorem exec_argOk {s : St} {t : Lid} {ch : Nat} {f g : Frame} (h : f.argOk)
    (hg : g ∈ (exec s t ch f).2) : g.argOk := by
  cases f with
  | pin f =>
      cases f <;> simp only [exec, execPin] at hg <;> (repeat' split at hg) <;> grind
  | ptr f =>
      cases f with
      | rootedCas l old new k =>
          simp only [exec, execPtr, rootedFail] at hg
          repeat' split at hg
          all_goals grind [argOk_unrootedOnce, argOk_dropTemp]
      | unrootedCas l old new k =>
          simp only [exec, execPtr, unrootedFail] at hg
          repeat' split at hg
          all_goals grind [argOk_unrootedOnce]
      | _ =>
          simp only [exec, execPtr] at hg
          repeat' split at hg
          all_goals grind [argOk_unrootedOnce, argOk_rootedOnce, argOk_resume]
  | mark f =>
      cases f <;> simp only [exec, execMark] at hg <;> (repeat' split at hg) <;>
        grind [argOk_shadeLink]
  | help f =>
      cases f <;> simp only [exec, execHelp, scanObj, scanHazard, Scanner.next] at hg <;>
        (repeat' split at hg) <;> grind

theorem startOp_argOk {s s₁ : St} {t : Lid} {op : Op} {fs : List Frame} {g : Frame}
    (h : startOp s t op = some (s₁, fs)) (hg : g ∈ fs) : g.argOk := by
  cases op <;> simp only [startOp] at h <;> (repeat' split at h) <;>
    first
    | (cases h; done)
    | (cases h; grind [dropFrames])
    | (obtain ⟨o, ho, h⟩ := Option.map_eq_some_iff.1 h
       cases h
       grind)

theorem argOk_of_starts {g : Frame} (h : g.starts = true) : g.argOk := by
  unfold Frame.starts at h
  split at h
  all_goals trivial

end Cdpt
