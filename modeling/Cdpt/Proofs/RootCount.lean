import Cdpt.Proofs.Owners

/-!
# Root counts are conserved

A step of a thread moves a count from one owner to another or changes it together
with an owner. The equation between the count and the owners is what makes the
decrements of the code safe, so it is proved by the induction that uses it.

That is the one subtle point. A header's count is a number from which the code
subtracts, so the step that takes one away keeps the equation only if there is one
to take, and there is because of the equation in the state before: the frame that is
about to decrement owns a count itself (`Frame.owed`), or stands at a field that
does. `balance_run` goes through the frames of `Frame.counts` one by one with this
in hand. An attempt that fails is one of them: it has counted its new value before
and keeps the count with its temporary, with which it tries again or which it drops.

The other steps are of two kinds. Starting an operation may take cells by value,
whose counts pass to the frame it pushes (`balance_op`); and everything else moves
neither counts nor owners (`balanced_other`).

The consequences are read off the equation by positivity of one summand. A rooted
cell, or a rooted field whose `unroot` has not begun, keeps its pointee's count
above zero. Between the decrement and the store of `unroot` it does not, and the
last theorem exhibits a state in which the link is rooted and the count zero: the
equation has to leave out the windows, and it leaves out nothing else.
-/

namespace Cdpt

open Finset Sums

/-! ## The equation -/

/-- Every count has an owner, and every owner its count. -/
def St.Balanced (s : St) : Prop :=
  ∀ o < s.nextObj, s.rootCount o = s.rootedCells o + s.keptFields o + s.inFlight o

theorem inFlight_ge {s : St} (hp : PinStr s) {t : Lid} {f : Frame} {rest : List Frame} (o : Oid)
    (hst : (s.locals t).stack = f :: rest) : f.owed o ≤ s.inFlight o := by
  have hlt : t < s.nLocals := hp.lt_of_mem (f := f) (by simp [hst])
  refine Nat.le_trans ?_ (single_le_sum (s := range s.nLocals)
    (f := fun t => ((s.locals t).stack.map (Frame.owed o)).sum) (fun _ _ => Nat.zero_le _)
    (mem_range.2 hlt))
  simp [hst]

/-- The cells are what they were after any effect but a CAS on one and a new one. -/
theorem rootedCells_apply (s : St) (t : Lid) (e : Eff) (o : Oid)
    (hset : ∀ c p, e ≠ .setLink (.cell c) p) (hnew : ∀ k p, e ≠ .newCell k p) :
    (e.apply s t).rootedCells o = s.rootedCells o := by
  cases e with
  | newCell k p => exact absurd rfl (hnew k p)
  | setLink l p =>
      cases l with
      | cell c => exact absurd rfl (hset c p)
      | field => rfl
  | _ => rfl

theorem rootCount_other (s : St) (t : Lid) (e : Eff) (o : Oid) (h : ∀ n, e ≠ .setCount o n) :
    (e.apply s t).rootCount o = s.rootCount o :=
  (rootCount_apply e s t o).resolve_right fun ⟨n, he, _⟩ => h n he

theorem rootCount_setCount (s : St) (t : Lid) (p o : Oid) (n : Nat) :
    (Eff.apply s t (.setCount p n)).rootCount o = if p = o then n else s.rootCount o := by
  by_cases hp : p = o
  · subst hp
    simp [Eff.apply, St.setObj, St.rootCount]
  · have hp' : o ≠ p := fun h => hp h.symm
    simp [Eff.apply, St.setObj, St.rootCount, hp, hp']

theorem rootedCells_setCount (s : St) (t : Lid) (p o : Oid) (n : Nat) :
    (Eff.apply s t (.setCount p n)).rootedCells o = s.rootedCells o := rfl

theorem rootedCells_hold (s : St) (t : Lid) (p : Option Oid) (o : Oid) :
    (Eff.apply s t (.hold p)).rootedCells o = s.rootedCells o := rfl

theorem rootCount_hold (s : St) (t : Lid) (p : Option Oid) (o : Oid) :
    (Eff.apply s t (.hold p)).rootCount o = s.rootCount o := rfl

theorem rootCount_newCell (s : St) (t : Lid) (k : PtrKind) (p : ManPtr) (o : Oid) :
    (Eff.apply s t (.newCell k p)).rootCount o = s.rootCount o := rfl

/-- One step of one thread moves counts between their owners. -/
theorem balance_run {s s' : St} {t : Lid} {ch : Nat} {f : Frame} {rest : List Frame}
    (h : WellFormed s) (hb : s.Balanced) (hs : StepCase s (.run t ch) s') (hp' : PinStr s')
    (hst : (s.locals t).stack = f :: rest) {o : Oid} (ho : o < s.nextObj) :
    s'.rootCount o + (s.rootedCells o + s.keptFields o + f.owed o) =
      s.rootCount o + (s'.rootedCells o + s'.keptFields o +
        ((exec s t ch f).2.map (Frame.owed o)).sum) := by
  have hf : f ∈ (s.locals t).stack := by simp [hst]
  have hn : s'.nextObj = s.nextObj := by
    rcases nextObj_cases hs with ⟨hn, -⟩ | ⟨t, cs, size, k, hl, -⟩
    · exact hn
    · cases hl
  have hkept : (∀ p i, f ≠ .ptr (.unroot p i)) → s'.keptFields o = s.keptFields o := by
    intro hno
    refine keptFields_same h hs hp' o hn fun t' ch' p i rest' hl _ hst' => ?_
    cases hl
    rw [hst] at hst'
    cases hst'
    exact hno p i rfl
  have hpos : f.owed o ≤ s.rootCount o := by
    rw [hb o ho]
    exact Nat.le_trans (inFlight_ge h.ground.pin.str o hst) (Nat.le_add_left _ _)
  obtain ⟨hcount, hcells⟩ : s'.rootCount o = ((exec s t ch f).1.apply s t).rootCount o ∧
      s'.rootedCells o = ((exec s t ch f).1.apply s t).rootedCells o := by
    cases hs with
    | run _ hst' =>
        rw [hst] at hst'
        cases hst'
        exact ⟨rfl, rfl⟩
  rw [hcount, hcells]
  by_cases hc : f.counts = false
  · obtain ⟨hno, hnc⟩ := exec_counts s t ch hc
    obtain ⟨h0, h0'⟩ := exec_owed s t ch hc o
    rw [h0, h0', hkept (by rintro p i rfl; cases hc), rootCount_other _ _ _ _ (hno o),
      rootedCells_apply s t _ o ?_ hnc]
    intro c p he
    have hm := h.links.metas hf
    cases exec_setLink he with
    | rooted _ => cases hc
    | unrooted _ => exact hm.2 hm.1
    | unroot hl => cases hl
    | shade hl _ => cases hl
  cases f with
  | ptr f =>
      cases f with
      | incNew l old new k =>
          rw [hkept (by intro _ _ he; cases he)]
          cases hnew : new.addr with
          | none =>
              simp [exec, execPtr, hnew, Frame.owed, ManPtr.points, Eff.apply]
          | some p =>
              simp only [exec, execPtr, hnew, rootCount_setCount, Frame.owed, List.map_cons,
                List.map_nil, List.sum_cons, List.sum_nil, ManPtr.points, Option.some.injEq]
              rw [rootedCells_setCount]
              split
              · next he =>
                  subst he
                  omega
              · omega
      | inc p tag k =>
          rw [hkept (by intro _ _ he; cases he)]
          simp only [exec, execPtr, rootCount_setCount, Frame.owed, List.map_cons, List.map_nil,
            List.sum_cons, List.sum_nil]
          rw [rootedCells_setCount]
          split
          · next he =>
              subst he
              omega
          · omega
      | publish p tag k =>
          rw [hkept (by intro _ _ he; cases he)]
          simp only [exec, execPtr, Frame.owed, List.map_nil, List.sum_nil, rootedCells_newCell,
            ManPtr.roots, true_and, Option.some.injEq]
          rw [rootCount_newCell]
          omega
      | allocRet p k =>
          rw [hkept (by intro _ _ he; cases he)]
          cases k with
          | none =>
              simp only [exec, execPtr, Frame.owed, List.map_nil, List.sum_nil]
              rw [rootCount_hold, rootedCells_hold]
          | some x =>
              simp only [exec, execPtr, Frame.owed, List.map_nil, List.sum_nil,
                rootedCells_newCell, ManPtr.roots, true_and, Option.some.injEq]
              rw [rootCount_newCell]
              omega
      | dropDec p =>
          rw [hkept (by intro _ _ he; cases he)]
          have h0 : ((if s.rootCount p = 1 then [Frame.ptr (.rcPhase p .dropped)] else []).map
              (Frame.owed o)).sum = 0 := by
            split <;> rfl
          simp only [exec, execPtr, h0, rootCount_setCount]
          rw [rootedCells_setCount]
          simp only [Frame.owed] at hpos ⊢
          split
          · next he =>
              subst he
              simp only [if_true] at hpos
              omega
          · omega
      | rootedDec old =>
          rw [hkept (by intro _ _ he; cases he)]
          cases hold : old.addr with
          | none =>
              simp [exec, execPtr, hold, Frame.owed, ManPtr.points, Eff.apply]
          | some p =>
              have h0 : ((if s.rootCount p = 1 then [Frame.ptr (.rcPhase p (.rooted old))]
                  else [.ptr (.ret old)]).map (Frame.owed o)).sum = 0 := by
                split <;> rfl
              simp only [exec, execPtr, hold, h0, rootCount_setCount]
              rw [rootedCells_setCount]
              simp only [Frame.owed, ManPtr.points, hold, Option.some.injEq] at hpos ⊢
              split
              · next he =>
                  subst he
                  simp only [if_true] at hpos
                  omega
              · omega
      | rootedCas l old new k =>
          rw [hkept (by intro _ _ he; cases he)]
          have hm := h.links.metas hf
          have hv := h.links.loc hf rfl
          cases l with
          | field q j => exact absurd hm.2 hm.1
          | cell c =>
              by_cases hok : casOk (s.link (.cell c)) old k ch
              · have hsum := rootedCells_setLink h o (t := t) hv (new.withMeta .Rooted)
                have heff : (exec s t ch (.ptr (.rootedCas (.cell c) old new k))).1 =
                    .setLink (.cell c) (new.withMeta .Rooted) := by
                  simp only [exec, execPtr, if_pos hok]
                have hold : ((exec s t ch (.ptr (.rootedCas (.cell c) old new k))).2.map
                    (Frame.owed o)).sum = old.points o := by
                  simp only [exec, execPtr, if_pos hok]
                  cases ha : old.addr <;> simp [Frame.owed, ManPtr.points, ha]
                have hro : (s.link (.cell c)).roots o = old.points o := by
                  simp [ManPtr.roots, ManPtr.points, hok.1, hm.2]
                have hrn : (new.withMeta .Rooted).roots o = new.points o := by
                  simp [ManPtr.roots, ManPtr.points, ManPtr.withMeta]
                rw [hold, heff, owed_rootedCas]
                rw [show (Eff.apply s t (.setLink (.cell c) (new.withMeta .Rooted))).rootCount o =
                  s.rootCount o from rfl]
                omega
              · simp only [exec, execPtr, if_neg hok, owed_rootedFail, Frame.owed, Eff.apply]
      | unroot p i =>
          by_cases hi : i < (s.objs p).arity
          · have hkept := keptFields_unroot h hs hp' o hst hi
            have hroot := h.links.ahead hf (.inl rfl) (Nat.le_refl i) hi
            cases hc : ((s.objs p).link i).addr with
            | none =>
                have h0 : ((s.objs p).link i).roots o = 0 := by simp [ManPtr.roots, hc]
                simp only [exec, execPtr, if_pos hi, St.link, hc, Frame.owed, List.map_cons,
                  List.map_nil, List.sum_cons, List.sum_nil, Eff.apply]
                omega
            | some c =>
                have h1 : ((s.objs p).link i).roots o = if c = o then 1 else 0 := by
                  simp [ManPtr.roots, hc, hroot]
                have h0 : ((if s.rootCount c = 1
                    then [Frame.ptr (.rcPhase c (.unroot p i ((s.objs p).link i)))]
                    else [.ptr (.unrootStore p i ((s.objs p).link i))]).map (Frame.owed o)).sum
                    = 0 := by
                  split <;> rfl
                simp only [exec, execPtr, if_pos hi, St.link, hc, h0, rootCount_setCount,
                  Frame.owed]
                rw [rootedCells_setCount]
                have hbo := hb o ho
                split
                · next he =>
                    subst he
                    rw [if_pos rfl] at h1
                    omega
                · next he =>
                    rw [if_neg he] at h1
                    omega
          · have hsame : s'.keptFields o = s.keptFields o := by
              refine keptFields_same h hs hp' o hn fun t' ch' q j rest' hl hj hst' => ?_
              cases hl
              rw [hst] at hst'
              cases hst'
              exact hi hj
            rw [hsame]
            simp only [exec, execPtr, if_neg hi, Frame.owed, List.map_nil, List.sum_nil, Eff.apply]
      | _ => exact absurd rfl hc
  | _ => exact absurd rfl hc

theorem rootedCells_of_cells {s s' : St} (hc : s'.cells = s.cells) (hn : s'.nextCell = s.nextCell)
    (o : Oid) : s'.rootedCells o = s.rootedCells o :=
  rootedCells_congr o hn fun c => by simp [St.link, hc]

theorem rootCount_of_objs {s s' : St} (h : s'.objs = s.objs) (o : Oid) :
    s'.rootCount o = s.rootCount o := by
  simp [St.rootCount, h]

/-- Starting an operation moves the counts of the cells it takes by value. -/
theorem balance_op {s s₁ : St} {t : Lid} {op : Op} {fs : List Frame} (h : WellFormed s)
    (hop : startOp s t op = some (s₁, fs)) (hna : ∀ cs size k, op ≠ .alloc cs size k) (o : Oid) :
    s₁.rootCount o = s.rootCount o ∧
    s₁.rootedCells o + (fs.map (Frame.owed o)).sum = s.rootedCells o := by
  cases op with
  | alloc cs size k => exact absurd rfl (hna cs size k)
  | noneNew tag =>
      cases hop
      refine ⟨rfl, ?_⟩
      rw [rootedCells_newCell]
      simp [ManPtr.roots]
  | convert c =>
      simp only [startOp] at hop
      split at hop
      · next x hx =>
          split at hop
          · cases hop
            refine ⟨rfl, rootedCells_congr o rfl fun d => ?_⟩
            by_cases hd : d = c
            · subst hd
              simp [St.link, hx]
            · simp [St.link, hd]
          · cases hop
      · cases hop
  | drop c =>
      simp only [startOp] at hop
      split at hop
      · next x hx =>
          split at hop
          · cases hop
            refine ⟨rfl, ?_⟩
            rw [rootedCells_remove h o (List.nodup_singleton c) (by simp [hx])]
            simp only [List.map_cons, List.map_nil, List.sum_cons, List.sum_nil, Nat.add_zero,
              link_cell hx]
            congr 1
            have hm := h.links.cell hx
            cases ha : x.link.addr with
            | none => simp [hm, ManPtr.roots, ha]
            | some p => simp [hm, ManPtr.roots, ha, dropFrames, Frame.owed]
          · cases hop
      · cases hop
  | _ =>
      simp only [startOp] at hop
      repeat' split at hop
      all_goals first
        | (cases hop; done)
        | (cases hop; exact ⟨rfl, rfl⟩)
        | (obtain ⟨x, -, hop⟩ := Option.map_eq_some_iff.1 hop; cases hop; exact ⟨rfl, rfl⟩)

/-- Nothing owns a count of an object that does not exist yet. -/
theorem unowned {s : St} (h : WellFormed s) {o : Oid} (ho : s.nextObj ≤ o) :
    s.rootedCells o = 0 ∧ s.keptFields o = 0 ∧ s.inFlight o = 0 := by
  have href : ¬ s.Ref o := fun hr => Nat.not_lt_of_le ho (h.alloc.refLt hr)
  have hroots : ∀ l, (s.link l).roots o = 0 := fun l => by
    refine if_neg fun ⟨_, ha⟩ => href (ref_link (l := l) ha)
  refine ⟨sum_eq_zero fun c _ => hroots _, ?_, ?_⟩
  · simp only [St.keptFields, St.sumFields]
    refine sum_eq_zero fun p _ => sum_eq_zero fun i _ => ?_
    unfold St.keeps
    split
    · rfl
    · exact hroots (.field p i)
  · refine sum_eq_zero fun t _ => ?_
    refine List.sum_eq_zero fun n hn => ?_
    obtain ⟨f, hf, rfl⟩ := List.mem_map.1 hn
    have hnames : ¬ f.names o := fun hn => href (.frame hf hn)
    have howns : ¬ f.owns o := fun hn => Nat.not_lt_of_le ho (h.alloc.lt hf hn)
    unfold Frame.owed
    split
    · next l old new k => exact if_neg fun ha => hnames (.inr (.inr (.inl ha)))
    · exact if_neg hnames
    · exact if_neg hnames
    · exact if_neg hnames
    · exact if_neg howns
    · rfl

theorem balanced_op {s s' : St} {t : Lid} {op : Op} (hb : s.Balanced) (h : WellFormed s)
    (hs : StepCase s (.op t op) s') (hp' : PinStr s') : s'.Balanced := by
  have hp := h.ground.pin.str
  intro o ho
  have hs₀ := hs
  cases hs with
  | @op _ _ s₁ fs ht hu hst hc hop =>
      have hother : ∀ i, i ≠ t → ((s₁.setStack t fs).locals i).stack = (s.locals i).stack :=
        fun i hi => by rw [setStack_stack_ne _ _ hi, (startOp_same hop).1.stack]
      have hfl := inFlight_step hp hp' o t hother
      rw [setStack_stack_self, hst, List.map_nil, List.sum_nil, Nat.add_zero] at hfl
      rcases nextObj_cases hs₀ with ⟨hn, hna⟩ | ⟨t', cs, size, k, hl, hn⟩
      · have hkept := keptFields_same h hs₀ hp' o hn nofun
        obtain ⟨hcount, hcells⟩ :=
          balance_op h hop (fun cs size k he => hna t cs size k (by rw [he])) o
        have hold := hb o (hn ▸ ho)
        rw [hfl, hkept]
        show s₁.rootCount o = s₁.rootedCells o + _ + _
        omega
      · cases hl
        obtain ⟨rfl, rfl, -, hnd, hcs⟩ := startOp_alloc hop
        have hkept := keptFields_alloc h hs₀ hp' o
        have hcells := rootedCells_remove h o hnd fun c hc => (hcs c hc).1
        have hcells' : ((s.newObj t cs size (if k.isSome = true then 1 else 0)).setStack t
            [.ptr (.pushObj s.nextObj true), .ptr (.unroot s.nextObj 0),
              .ptr (.allocRet s.nextObj k)]).rootedCells o = (s.removeCells cs).rootedCells o := rfl
        rw [hfl, hkept, hcells']
        by_cases hlt : o < s.nextObj
        · have hold := hb o hlt
          have hne : o ≠ s.nextObj := Nat.ne_of_lt hlt
          have hcount : ((s.newObj t cs size (if k.isSome = true then 1 else 0)).setStack t
              [.ptr (.pushObj s.nextObj true), .ptr (.unroot s.nextObj 0),
                .ptr (.allocRet s.nextObj k)]).rootCount o = s.rootCount o := by
            simp [St.rootCount, St.newObj, St.removeCells, hne]
          have h0 : Frame.owed o (.ptr (.allocRet s.nextObj k)) = 0 := by
            cases k <;> simp [Frame.owed, hne.symm]
          simp only [hcount, List.map_cons, List.map_nil, List.sum_cons, List.sum_nil, h0]
          simp only [Frame.owed]
          omega
        · rw [setStack_nextObj] at ho hn
          rw [hn] at ho
          have hoe : o = s.nextObj :=
            Nat.le_antisymm (Nat.le_of_lt_succ ho) (Nat.le_of_not_lt hlt)
          subst hoe
          obtain ⟨hc0, hk0, hf0⟩ := unowned h (Nat.le_refl s.nextObj)
          have hcount : ((s.newObj t cs size (if k.isSome = true then 1 else 0)).setStack t
              [.ptr (.pushObj s.nextObj true), .ptr (.unroot s.nextObj 0),
                .ptr (.allocRet s.nextObj k)]).rootCount s.nextObj =
              if k.isSome = true then 1 else 0 := by
            simp [St.rootCount, St.newObj]
          have h0 : Frame.owed s.nextObj (.ptr (.allocRet s.nextObj k)) =
              if k.isSome = true then 1 else 0 := by
            cases k <;> simp [Frame.owed]
          simp only [hcount, List.map_cons, List.map_nil, List.sum_cons, List.sum_nil, h0]
          simp only [Frame.owed]
          omega

theorem balanced_run {s s' : St} {t : Lid} {ch : Nat} (hb : s.Balanced) (h : WellFormed s)
    (hs : StepCase s (.run t ch) s') (hp' : PinStr s') : s'.Balanced := by
  intro o ho
  have hs₀ := hs
  cases hs with
  | @run _ _ f rest ht hst =>
      rw [setStack_nextObj, apply_nextObj] at ho
      have hbal := balance_run h hb hs₀ hp' hst ho
      have hfl := inFlight_step h.ground.pin.str hp' o t fun i hi => by
        rw [setStack_stack_ne _ _ hi, apply_stack]
      rw [setStack_stack_self, hst, List.map_cons, List.sum_cons, List.map_append,
        List.sum_append] at hfl
      have hold := hb o ho
      omega

/-- All other steps leave the counts and their owners alone. -/
theorem balanced_other {s s' : St} {lab : Label} (hb : s.Balanced) (h : WellFormed s)
    (hs : StepCase s lab s') (hp' : PinStr s') (hop : ∀ t op, lab ≠ .op t op)
    (hrun : ∀ t ch, lab ≠ .run t ch) : s'.Balanced := by
  have hp := h.ground.pin.str
  have hn : s'.nextObj = s.nextObj := by
    rcases nextObj_cases hs with ⟨hn, -⟩ | ⟨t, cs, size, k, hl, -⟩
    · exact hn
    · exact absurd hl (hop _ _)
  intro o ho
  rw [hn] at ho
  have hkept := keptFields_same h hs hp' o hn fun t ch _ _ _ hl => absurd hl (hrun t ch)
  suffices hsame : s'.rootCount o = s.rootCount o ∧ s'.rootedCells o = s.rootedCells o ∧
      s'.inFlight o = s.inFlight o by
    rw [hsame.1, hsame.2.1, hsame.2.2, hkept]
    exact hb o ho
  cases hs with
  | op ht hu hst hc hop' => exact absurd rfl (hop _ _)
  | run ht hst => exact absurd rfl (hrun _ _)
  | @coll ch e st fs hst hcoll =>
      obtain ⟨hl, hc, hcnt⟩ := collStep_setLink hcoll
      refine ⟨rootCount_other s s.collector e o (hcnt o),
        rootedCells_apply s s.collector e o (fun c => hl (.cell c)) hc,
        inFlight_same hp hp' o s.collector
          (fun i hi => by rw [setStack_stack_ne _ _ hi, withStage_locals, apply_stack])
          (by simp [hst]) ?_⟩
      rw [setStack_stack_self]
      rcases (collStep_guards hcoll).2 with rfl | rfl | ⟨rfl, -⟩ | ⟨p, rfl, -⟩ <;> rfl
  | @sweep k ch w hw =>
      obtain ⟨hl, hc, hcnt⟩ := sweepStep_setLink s w ch
      refine ⟨rootCount_other s s.collector _ o (hcnt o),
        rootedCells_apply s s.collector _ o (fun c => hl (.cell c)) hc, ?_⟩
      simp [St.inFlight]
  | @startWorker t lo hi hz js hj hr hc =>
      refine ⟨rootCount_of_objs (by simp) o, rootedCells_of_cells (by simp) (by simp) o,
        inFlight_same hp hp' o t (fun i hi' => ?_) (by simp [hp.free_stack hr]) ?_⟩
      · rw [setStack_stack_ne _ _ hi', withJobs_locals, register_ne s hi']
      · rw [setStack_stack_self]
        rfl
  | @register t hr hc =>
      refine ⟨rootCount_of_objs (by simp) o, rootedCells_of_cells (by simp) (by simp) o,
        inFlight_same hp hp' o t (fun i hi' => ?_) (by simp [hp.free_stack hr]) ?_⟩
      · rw [register_ne s hi']
      · rcases register_node hp hr t with ⟨hne, -⟩ | ⟨-, -, -, hst⟩
        · exact absurd rfl hne
        · simp [hst]
  | @exit t ht hu hst hg hh hc =>
      refine ⟨rfl, rfl, inFlight_same hp hp' o t (fun i hi => ?_) (by simp [hst]) ?_⟩
      · simp [hi]
      · simp [hst]

theorem St.Balanced.step {s s' : St} {lab : Label} (hb : s.Balanced) (h : WellFormed s)
    (hs : StepCase s lab s') (hp' : PinStr s') : s'.Balanced := by
  cases lab with
  | op t op => exact balanced_op hb h hs hp'
  | run t ch => exact balanced_run hb h hs hp'
  | _ => exact balanced_other hb h hs hp' nofun nofun

theorem balanced_of_reachable {n : Nat} {s : St} (h : Reachable n s) : s.Balanced := by
  suffices hi : WellFormed s ∧ s.Balanced from hi.2
  refine h.invariant (I := fun s => WellFormed s ∧ s.Balanced)
    ⟨.init n, fun o ho => absurd ho (Nat.not_lt_zero o)⟩ fun hi _ hs => ?_
  have hwf := hi.1.step hs
  exact ⟨hwf, hi.2.step hi.1 (stepCase hs) hwf.ground.pin.str⟩

/-! ## Consequences -/

/-- The access at frame `f` decrements the root count of `o`. -/
def St.decrements (s : St) (o : Oid) : Frame → Prop
  | .ptr (.rootedDec old) => old.addr = some o
  | .ptr (.dropDec p) => p = o
  | .ptr (.unroot p i) => i < (s.objs p).arity ∧ ((s.objs p).link i).addr = some o
  | _ => False

theorem keeps_le {s : St} {p : Oid} {i : Nat} (hp : p < s.nextObj) (hi : i < (s.objs p).arity)
    (o : Oid) : s.keeps o p i ≤ s.keptFields o :=
  Nat.le_trans
    (single_le_sum (s := range (s.objs p).arity) (f := s.keeps o p) (fun _ _ => Nat.zero_le _)
      (mem_range.2 hi))
    (single_le_sum (s := range s.nextObj)
      (f := fun q => ∑ j ∈ range (s.objs q).arity, s.keeps o q j) (fun _ _ => Nat.zero_le _)
      (mem_range.2 hp))

/-- A rooted field keeps its pointee alive until its `unroot` has begun. -/
theorem rootCount_pos_of_field {s : St} (h : WellFormed s) (hb : s.Balanced) {p o : Oid} {i : Nat}
    (hp : p < s.nextObj) (hi : i < (s.objs p).arity)
    (hm : ((s.objs p).link i).ptrMeta = .Rooted) (ha : ((s.objs p).link i).addr = some o)
    (hw : ¬ s.windowed p i) : 0 < s.rootCount o := by
  have hkeep : s.keeps o p i = 1 := by simp [St.keeps, hw, ManPtr.roots, hm, ha]
  have hle := keeps_le hp hi o
  have hbal := hb o (h.alloc.refLt (ref_link (l := .field p i) ha))
  omega

theorem rootCount_pos_of_cell {s : St} (h : WellFormed s) (hb : s.Balanced) {c : Cid} {x : Cell}
    {o : Oid} (hx : s.cells c = some x) (ha : x.link.addr = some o) : 0 < s.rootCount o := by
  have hone : (s.link (.cell c)).roots o = 1 := by
    simp [link_cell hx, ManPtr.roots, h.links.cell hx, ha]
  have hle : (s.link (.cell c)).roots o ≤ s.rootedCells o :=
    single_le_sum (s := range s.nextCell) (f := fun d => (s.link (.cell d)).roots o)
      (fun _ _ => Nat.zero_le _) (mem_range.2 (h.links.cellsLt c x hx))
  have hbal := hb o (h.alloc.refLt (ref_link (l := .cell c) (by rw [link_cell hx]; exact ha)))
  omega

/-- A decrement finds a count to take. -/
theorem rootCount_pos_of_decrements {s : St} (h : WellFormed s) (hb : s.Balanced) {t : Lid}
    {f : Frame} {rest : List Frame} {o : Oid} (hst : (s.locals t).stack = f :: rest)
    (hd : s.decrements o f) : 0 < s.rootCount o := by
  have hf : f ∈ (s.locals t).stack := by simp [hst]
  have howed := inFlight_ge h.ground.pin.str o hst
  unfold St.decrements at hd
  split at hd
  · next old =>
      have hbal := hb o (h.alloc.refLt (.frame hf hd))
      simp only [Frame.owed, ManPtr.points, hd, if_true] at howed
      omega
  · next p =>
      have hbal := hb o (h.alloc.refLt (.frame hf hd))
      simp only [Frame.owed, hd, if_true] at howed
      omega
  · next p i =>
      have hlt := h.alloc.lt hf (o := p) rfl
      refine rootCount_pos_of_field h hb hlt hd.1
        (h.links.ahead hf (.inl rfl) (Nat.le_refl i) hd.1) hd.2 fun hw => ?_
      obtain ⟨t', q, g, hg, hgw⟩ := (windowed_iff h.ground.pin.str).1 hw
      have hgu : g.unroots p i := .inr ⟨q, hgw⟩
      have ht := h.alloc.uniq hg (owns_of_unroots hgu) hf rfl
      subst ht
      rw [hst, List.mem_cons] at hg
      rcases hg with rfl | hg
      · cases hgw
      · exact h.links.not_mem_rest hst rfl hg (isUnroot_of_unroots hgu)
  · cases hd

/-- The top frame is an attempt to change a link that fails. -/
def St.casFails (s : St) (ch : Nat) : Frame → Prop
  | .ptr (.rootedCas l old _ k) | .ptr (.unrootedCas l old _ k) => ¬ casOk (s.link l) old k ch
  | _ => False

/-- A failed attempt writes nothing, and the count its temporary holds stays with
the thread, which tries again with it or drops it. -/
theorem counts_of_casFails {s s' : St} {t : Lid} {ch : Nat} {f : Frame} {rest : List Frame}
    (hp : PinStr s) (hs : StepCase s (.run t ch) s') (hp' : PinStr s')
    (hst : (s.locals t).stack = f :: rest) (hf : s.casFails ch f) :
    s'.objs = s.objs ∧ s'.cells = s.cells ∧ ∀ o, s'.inFlight o = s.inFlight o := by
  have hexec : (exec s t ch f).1 = .nop ∧
      ∀ o, ((exec s t ch f).2.map (Frame.owed o)).sum = f.owed o := by
    unfold St.casFails at hf
    split at hf
    · next l old new k =>
        simp only [exec, execPtr, if_neg hf]
        exact ⟨trivial, fun o => owed_rootedFail s t l (s.link l) new k o⟩
    · next l old new k =>
        refine ⟨by simp only [exec, execPtr, if_neg hf], fun o => ?_⟩
        obtain ⟨h0, h0'⟩ := exec_owed s t ch
          (f := .ptr (.unrootedCas l old new k)) rfl o
        rw [h0, h0']
    · cases hf
  cases hs with
  | run _ hst' =>
      rw [hst] at hst'
      cases hst'
      refine ⟨by rw [hexec.1]; rfl, by rw [hexec.1]; rfl, fun o => ?_⟩
      have hfl := inFlight_step hp hp' o t fun i hi => by
        rw [setStack_stack_ne _ _ hi, apply_stack]
      rw [setStack_stack_self, hst, List.map_cons, List.sum_cons, List.map_append,
        List.sum_append, hexec.2 o] at hfl
      omega

/-- Root counts are conserved. A count is owned by a rooted cell, by a rooted field
that `unroot` has not come to, or by an operation in flight; so no decrement
underflows, whatever a rooted cell points at has a positive count, and an attempt
that fails leaves the counts and who owns them as they were. -/
theorem root_counts_conserved {n : Nat} {s : St} (h : Reachable n s) :
    (∀ o < s.nextObj, s.rootCount o + s.leavingFields o =
      s.rootedCells o + s.rootedFields o + s.inFlight o) ∧
    (∀ t f rest o, (s.locals t).stack = f :: rest → s.decrements o f → 0 < s.rootCount o) ∧
    (∀ c x o, s.cells c = some x → x.link.addr = some o →
      x.link.ptrMeta = .Rooted ∧ 0 < s.rootCount o) ∧
    (∀ p i o, p < s.nextObj → i < (s.objs p).arity → ((s.objs p).link i).ptrMeta = .Rooted →
      ((s.objs p).link i).addr = some o → ¬ s.windowed p i → 0 < s.rootCount o) ∧
    ∀ t ch f rest s', (s.locals t).stack = f :: rest → s.casFails ch f →
      step s (.run t ch) = some s' →
      s'.objs = s.objs ∧ s'.cells = s.cells ∧ ∀ o, s'.inFlight o = s.inFlight o := by
  have hwf := WellFormed.of_reachable h
  have hb := balanced_of_reachable h
  refine ⟨fun o ho => ?_, fun t f rest o => rootCount_pos_of_decrements hwf hb,
    fun c x o hx ha => ⟨hwf.links.cell hx, rootCount_pos_of_cell hwf hb hx ha⟩,
    fun p i o hp hi hm ha => rootCount_pos_of_field hwf hb hp hi hm ha,
    fun t ch f rest s' hst hf hs => ?_⟩
  · have hbal := hb o ho
    have hsum := s.kept_add_leaving o
    omega
  · exact counts_of_casFails hwf.ground.pin.str (stepCase hs) (hwf.step hs).ground.pin.str hst hf

/-- Thread 1 allocates object 0 and clones the `Shared` it gets. -/
def cloneRun : List Label :=
  [.register 1, .op 1 .pin] ++ List.replicate 4 (.run 1 0) ++
    [.op 1 (.alloc [] 8 (some (.shared, 0)))] ++ List.replicate 3 (.run 1 0) ++
    [.op 1 (.clone (.cell 0))] ++ List.replicate 2 (.run 1 0)

theorem root_counts_conserved_cloneRun :
    ∃ s, Reachable 1 s ∧ s.rootCount 0 = 2 ∧ s.rootedCells 0 = 1 ∧ s.inFlight 0 = 1 ∧
      s.rootCount 0 + s.leavingFields 0 = s.rootedCells 0 + s.rootedFields 0 + s.inFlight 0 := by
  have hrun : ∃ s, Reachable 1 s ∧ 0 < s.nextObj ∧ s.rootCount 0 = 2 ∧ s.rootedCells 0 = 1 ∧
      s.inFlight 0 = 1 := Lts.exists_of_runs cloneRun (by decide +kernel)
  obtain ⟨s, hr, hlt, hcount, hcells, hfl⟩ := hrun
  exact ⟨s, hr, hcount, hcells, hfl, (root_counts_conserved hr).1 0 hlt⟩

/-- Thread 1 moves the only pointer to object 0 into a field of object 1 and has
come to the field in `unroot`. -/
def unrootRun : List Label :=
  [.register 1, .op 1 .pin] ++ List.replicate 4 (.run 1 0) ++
    [.op 1 (.alloc [] 8 (some (.shared, 0)))] ++ List.replicate 3 (.run 1 0) ++
    [.op 1 (.alloc [0] 8 none)] ++ List.replicate 2 (.run 1 0)

/-- A rooted link whose pointee has no count left: `unroot` decrements first. -/
theorem rooted_field_without_count :
    ¬ ∀ n s, Reachable n s → ∀ o < s.nextObj,
      s.rootCount o = s.rootedCells o + s.rootedFields o + s.inFlight o := by
  intro h
  have hrun : ∃ s, Reachable 1 s ∧ 0 < s.nextObj ∧ s.rootCount 0 = 0 ∧ s.rootedFields 0 = 1 :=
    Lts.exists_of_runs unrootRun (by decide +kernel)
  obtain ⟨s, hr, hlt, hcount, hfield⟩ := hrun
  have := h 1 s hr 0 hlt
  omega

end Cdpt
