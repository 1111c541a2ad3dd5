import Cdpt.Proofs.Cycle

/-!
# What `collect_hps` sees

A scan of the hazard slots is not atomic: it reads the arrays of one thread after
the other, each slot by slot, and the arrays may be replaced under it. `unread` says
which slots of a thread it has still to read, in the array it will find there. An
address is safe as long as it is in the set already or in one of these slots.

The scan is the same code for the collector and for a helper that forces its
`LazyCell` (`Scans`), so `HpScan` is a state of its own and `sees` a property of it
and of the memory alone. One load keeps what the scan sees: between two nodes, as a
node in use is handed out; at a node, as its array is loaded; in an array, as the
slot is collected or is not the one; and at the end of an array, where the slots
have all been read. What the owner does meanwhile is one of two things. It may grow
its array, which copies the slots and leaves the array the scan has loaded as it is
(`unread_grow`); or it writes one slot (`unread_write`).

A write can hide an address from the scan in one way only: the thread protects it
twice, in a slot the scan has passed and in one it has not, and clears the second.
That is the condition on the runs (`keepsCopy`), taken on the state before the step,
and the last theorem is a run that violates it: the handle moves from slot 7 to slot
6 behind the scan, and the address is missed though it was protected all along.
-/

namespace Cdpt

/-! ## Scans -/

/-- Who runs `collect_hps`: the collector, or a helper whose `LazyCell` is forced. -/
inductive Scans
  | collector
  | helper (u : Lid)
deriving DecidableEq, Repr

/-- Where the scan is and what it has collected. -/
def St.scanAt (s : St) : Scans → Option (HpScan × List Oid)
  | .collector =>
      match s.stage with
      | .hps h acc => some (h, acc)
      | _ => none
  | .helper u =>
      match (s.locals u).stack with
      | .help (.forceHps h acc _ _ _ _) :: _ => some (h, acc)
      | _ => none

/-- Slot `k` of thread `t` holds `a`, and the scan has still to read it. -/
def St.unread (s : St) (t : Lid) (a : Oid) (k : Nat) : HpScan → Prop
  | .iter it => ¬ it.passed t ∧ (s.locals t).hazards[k]? = some (some a)
  | .slots i ver j nx =>
      if i = t then j ≤ k ∧ (s.hazardArray t ver)[k]? = some (some a)
      else ¬ (Iter.goto nx).passed t ∧ (s.locals t).hazards[k]? = some (some a)

/-- The scan reads an array of `t` that has been replaced. -/
def St.readsOld (s : St) (t : Lid) : HpScan → Prop
  | .slots i ver _ _ => i = t ∧ ver ≠ (s.locals t).oldHazards.length
  | .iter _ => False

/-- The next node was loaded from the one the scan is at. -/
def HpScan.Linked : HpScan → Prop
  | .iter it => it.Linked
  | .slots i _ _ nx => ∀ j ∈ nx, j = i + 1

/-- The scan has `a`, or is going to read it. -/
def St.sees (s : St) (t : Lid) (a : Oid) (h : HpScan) (acc : List Oid) : Prop :=
  h.Linked ∧ (a ∈ acc ∨ ∃ k, s.unread t a k h)

/-- Thread `t` protects `a` with a hazard slot. -/
def St.protects (s : St) (t : Lid) (a : Oid) : Prop :=
  (s.locals t).isUsing = true ∧ some a ∈ (s.locals t).hazards

instance (s : St) (t : Lid) (a : Oid) : Decidable (s.protects t a) :=
  inferInstanceAs (Decidable (_ ∧ _))

section Load

variable {s : St} {t : Lid} {a : Oid} {acc : List Oid}

/-- Between two nodes: a node in use is not passed over. -/
theorem sees_iter (hp : PinStr s) (hu : (s.locals t).isUsing = true) {it : Iter}
    (h : s.sees t a (.iter it) acc) : s.sees t a (.iter (s.iterStep false it)) acc := by
  obtain ⟨hl, hsee⟩ := h
  have hl' : it.Linked := hl
  obtain ⟨hlink, hpass⟩ := iterStep_passed (j := t) hl' hp.beyond
  refine ⟨hlink, hsee.imp id fun ⟨k, hnot, hk⟩ => ⟨k, fun hgo => ?_, hk⟩⟩
  rcases hpass hgo with hpass | hunused
  · exact hnot hpass
  · rw [hu] at hunused
    cases hunused

/-- At a node: its array is loaded. -/
theorem sees_act {i : Lid} {nx : Option Lid} (h : s.sees t a (.iter (.act i nx)) acc) :
    s.sees t a (.slots i (s.locals i).oldHazards.length 0 nx) acc := by
  obtain ⟨hl, hsee⟩ := h
  refine ⟨hl, hsee.imp id fun ⟨k, hnot, hk⟩ => ⟨k, ?_⟩⟩
  rw [St.unread]
  by_cases hi : i = t
  · subst hi
    rw [if_pos rfl]
    exact ⟨Nat.zero_le k, by simpa [St.hazardArray] using hk⟩
  · rw [if_neg hi]
    refine ⟨fun hgo => ?_, hk⟩
    rcases Iter.passed_goto hl hgo with hpass | heq
    · exact hnot hpass
    · exact hi heq.symm

/-- In an array: the slot it reads is collected. -/
theorem sees_slot {i : Lid} {ver j : Nat} {nx : Option Lid} {v : Option Oid}
    (hv : (s.hazardArray i ver)[j]? = some v) (h : s.sees t a (.slots i ver j nx) acc) :
    s.sees t a (.slots i ver (j + 1) nx) (acc ++ v.toList) := by
  obtain ⟨hl, hsee⟩ := h
  refine ⟨hl, ?_⟩
  rcases hsee with hmem | ⟨k, hk⟩
  · exact .inl (List.mem_append_left _ hmem)
  · rw [St.unread] at hk
    by_cases hi : i = t
    · subst hi
      rw [if_pos rfl] at hk
      obtain ⟨hle, hk⟩ := hk
      rcases Nat.eq_or_lt_of_le hle with rfl | hlt
      · rw [hv] at hk
        cases hk
        exact .inl (by simp)
      · exact .inr ⟨k, by rw [St.unread, if_pos rfl]; exact ⟨hlt, hk⟩⟩
    · rw [if_neg hi] at hk
      exact .inr ⟨k, by rw [St.unread, if_neg hi]; exact hk⟩

/-- At the end of an array. -/
theorem sees_next {i : Lid} {ver j : Nat} {nx : Option Lid}
    (hv : (s.hazardArray i ver)[j]? = none) (h : s.sees t a (.slots i ver j nx) acc) :
    s.sees t a (.iter (.goto nx)) acc := by
  obtain ⟨hl, hsee⟩ := h
  refine ⟨Iter.linked_goto nx, hsee.imp id fun ⟨k, hk⟩ => ⟨k, ?_⟩⟩
  rw [St.unread] at hk
  by_cases hi : i = t
  · subst hi
    rw [if_pos rfl] at hk
    obtain ⟨hle, hk⟩ := hk
    have hlen := List.getElem?_eq_none_iff.1 hv
    rw [List.getElem?_eq_none (hlen.trans hle)] at hk
    cases hk
  · rwa [if_neg hi] at hk

/-- One load keeps what the scan sees. -/
theorem sees_hpStep (hp : PinStr s) (hu : (s.locals t).isUsing = true) {h : HpScan}
    (hs : s.sees t a h acc) : s.sees t a (s.hpStep h acc).1 (s.hpStep h acc).2 := by
  cases h with
  | iter it =>
      cases it with
      | act i nx => exact sees_act hs
      | node i => exact sees_iter hp hu hs
      | test i nx => exact sees_iter hp hu hs
      | fin => exact sees_iter hp hu hs
  | slots i ver j nx =>
      cases hv : (s.hazardArray i ver)[j]? with
      | none =>
          simp only [St.hpStep, hv]
          exact sees_next hv hs
      | some v =>
          have hslot := sees_slot hv hs
          cases v with
          | none =>
              simp only [St.hpStep, hv]
              simpa using hslot
          | some o =>
              simp only [St.hpStep, hv]
              exact hslot

end Load

/-! ## What happens to the slots of a thread -/

/-- The slot a frame writes, and what it writes there. -/
def Frame.writesSlot : Frame → Option (Nat × Option Oid)
  | .ptr (.storeHazard hid o) => some (hid, some o)
  | .ptr (.clearHazard hid) => some (hid, none)
  | _ => none

/-- What an effect of its own thread makes of the hazard array. -/
inductive SlotStep (l l' : Local) : Option (Nat × Option Oid) → Prop
  | same (hh : l'.hazards = l.hazards) (ho : l'.oldHazards = l.oldHazards) : SlotStep l l' none
  | grow (hh : l'.hazards = l.hazards ++ List.replicate l.hazards.length none)
      (ho : l'.oldHazards = l.oldHazards ++ [l.hazards]) : SlotStep l l' none
  | write {hid : Nat} {v : Option Oid} (hh : l'.hazards = l.hazards.set hid v)
      (ho : l'.oldHazards = l.oldHazards) : SlotStep l l' (some (hid, v))

theorem SlotStep.of_eq {l l₁ l₂ : Local} {w : Option (Nat × Option Oid)} (h : SlotStep l l₁ w)
    (hh : l₂.hazards = l₁.hazards) (ho : l₂.oldHazards = l₁.oldHazards) : SlotStep l l₂ w := by
  cases h with
  | same hh' ho' => exact .same (hh.trans hh') (ho.trans ho')
  | grow hh' ho' => exact .grow (hh.trans hh') (ho.trans ho')
  | write hh' ho' => exact .write (hh.trans hh') (ho.trans ho')

def Eff.writesSlot : Eff → Option (Nat × Option Oid)
  | .storeHazard hid v => some (hid, v)
  | .clearHazard hid => some (hid, none)
  | _ => none

def Eff.slotFree : Eff → Bool
  | .growHazards | .storeHazard _ _ | .clearHazard _ => false
  | _ => true

theorem slotFree_apply {e : Eff} (he : e.slotFree = true) (s : St) (t i : Lid) :
    ((e.apply s t).locals i).hazards = (s.locals i).hazards ∧
    ((e.apply s t).locals i).oldHazards = (s.locals i).oldHazards := by
  cases e with
  | growHazards | storeHazard | clearHazard => cases he
  | setLink l p => cases l <;> exact ⟨rfl, rfl⟩
  | steal j n => simp only [Eff.apply, setLocal_locals]; split <;> split <;> simp_all
  | takeBatch j c => simp only [Eff.apply, setLocal_locals]; split <;> simp_all
  | _ => by_cases hi : i = t <;> simp [Eff.apply, St.setObj, hi]

theorem slot_apply (e : Eff) (s : St) (t : Lid) :
    SlotStep (s.locals t) ((e.apply s t).locals t) e.writesSlot := by
  cases e with
  | growHazards => exact .grow (by simp [Eff.apply]) (by simp [Eff.apply])
  | storeHazard hid v | clearHazard hid =>
      exact .write (by simp [Eff.apply]) (by simp [Eff.apply])
  | _ => exact .same (slotFree_apply rfl s t t).1 (slotFree_apply rfl s t t).2

/-- Nobody writes into the hazard array of another thread. -/
theorem slot_apply_ne (e : Eff) (s : St) {t i : Lid} (hi : i ≠ t) :
    ((e.apply s t).locals i).hazards = (s.locals i).hazards ∧
    ((e.apply s t).locals i).oldHazards = (s.locals i).oldHazards := by
  cases e with
  | growHazards | storeHazard | clearHazard => simp [Eff.apply, hi]
  | _ => exact slotFree_apply rfl s t i

theorem exec_writesSlot (s : St) (t : Lid) (ch : Nat) (f : Frame) :
    (exec s t ch f).1.writesSlot = f.writesSlot := by
  cases f with
  | pin f => cases f <;> simp only [exec, execPin] <;> (repeat' split) <;> rfl
  | ptr f => cases f <;> simp only [exec, execPtr] <;> (repeat' split) <;> rfl
  | mark f => cases f <;> simp only [exec, execMark] <;> (repeat' split) <;> rfl
  | help f => cases f <;> simp only [exec, execHelp] <;> (repeat' split) <;> rfl

theorem collStep_slotFree {s : St} {ch : Nat} {e : Eff} {st : Stage} {fs : List Frame}
    (h : collStep s ch = some (e, st, fs)) : e.slotFree = true := by
  unfold collStep at h
  simp only at h
  repeat' split at h
  all_goals first
    | (cases h; done)
    | (cases h; rfl)

theorem sweepStep_slotFree (s : St) (w : Sweeper) (ch : Nat) :
    (sweepStep s w ch).1.slotFree = true := by
  unfold sweepStep
  repeat' split
  all_goals rfl

/-- The start of an operation changes what its thread holds at most. -/
theorem startOp_locals {s s₁ : St} {t : Lid} {op : Op} {fs : List Frame}
    (h : startOp s t op = some (s₁, fs)) (i : Lid) :
    ∃ held, s₁.locals i = { s.locals i with held := held } := by
  cases op with
  | protectGuard hid =>
      simp only [startOp] at h
      split at h
      · obtain ⟨o, -, h⟩ := Option.map_eq_some_iff.1 h
        cases h
        by_cases hi : i = t
        · exact ⟨o :: (s.locals i).held, by simp [Eff.apply, hi]⟩
        · exact ⟨(s.locals i).held, by simp [Eff.apply, hi]⟩
      · cases h
  | _ =>
      refine ⟨(s.locals i).held, ?_⟩
      simp only [startOp] at h
      repeat' split at h
      all_goals first
        | (cases h; done)
        | (cases h; rfl)
        | (obtain ⟨o, -, h⟩ := Option.map_eq_some_iff.1 h
           cases h
           rfl)

/-- What a step makes of the slots of a thread that is there: `grow_hazards`, or the
write of the frame the thread is at. -/
theorem slot_step {s s' : St} {lab : Label} (hs : StepCase s lab s') {t : Lid}
    (hu : (s.locals t).isUsing = true) (ht : t < s.nLocals) :
    SlotStep (s.locals t) (s'.locals t) none ∨
    ∃ ch f rest hid v, lab = .run t ch ∧ (s.locals t).stack = f :: rest ∧
      f.writesSlot = some (hid, v) ∧ SlotStep (s.locals t) (s'.locals t) (some (hid, v)) := by
  have hstack : ∀ (u : St) (i : Lid) (fs : List Frame),
      ((u.setStack i fs).locals t).hazards = (u.locals t).hazards ∧
      ((u.setStack i fs).locals t).oldHazards = (u.locals t).oldHazards := by
    intro u i fs
    rw [setStack_locals]
    split
    · next hi => exact hi ▸ ⟨rfl, rfl⟩
    · exact ⟨rfl, rfl⟩
  have hreg : ∀ i, s.canRegister i → (s.register i).locals t = s.locals t := by
    intro i hr
    have hne : t ≠ i := by
      rintro rfl
      rcases hr with ⟨-, hun, -⟩ | hn
      · rw [hu] at hun
        cases hun
      · exact absurd ht (Nat.not_lt_of_le (Nat.le_of_eq hn.symm))
    unfold St.register
    split
    · rw [setLocal_locals, if_neg hne]
    · show (s.setLocal i _).locals t = _
      rw [setLocal_locals, if_neg hne]
  cases hs with
  | @op i op s₁ fs hi hu' hst hc hop =>
      obtain ⟨hh, ho⟩ := hstack s₁ i fs
      obtain ⟨held, hl⟩ := startOp_locals hop t
      rw [hl] at hh ho
      exact .inl (.same hh ho)
  | @run i ch f rest hi hst =>
      obtain ⟨hh, ho⟩ := hstack ((exec s i ch f).1.apply s i) i ((exec s i ch f).2 ++ rest)
      by_cases hne : t = i
      · subst hne
        have hslot := slot_apply (exec s t ch f).1 s t
        rw [exec_writesSlot] at hslot
        have hslot' : SlotStep (s.locals t)
            ((((exec s t ch f).1.apply s t).setStack t ((exec s t ch f).2 ++ rest)).locals t)
            f.writesSlot := hslot.of_eq hh ho
        cases hw : f.writesSlot with
        | none => exact .inl (hw ▸ hslot')
        | some w => exact .inr ⟨ch, f, rest, w.1, w.2, rfl, hst, hw, hw ▸ hslot'⟩
      · obtain ⟨hh', ho'⟩ := slot_apply_ne (exec s i ch f).1 s hne
        exact .inl (.same (hh.trans hh') (ho.trans ho'))
  | @coll ch e st fs hst hcoll =>
      obtain ⟨hh, ho⟩ := hstack ((e.apply s s.collector).withStage st) s.collector fs
      obtain ⟨hh', ho'⟩ := slotFree_apply (collStep_slotFree hcoll) s s.collector t
      exact .inl (.same (hh.trans hh') (ho.trans ho'))
  | @sweep k ch w hw =>
      obtain ⟨hh, ho⟩ := slotFree_apply (sweepStep_slotFree s w ch) s s.collector t
      exact .inl (.same hh ho)
  | @startWorker i lo hi hz js hj hr hc =>
      obtain ⟨hh, ho⟩ := hstack ((s.register i).withJobs js) i [.pin .pin,
        .help (.scanPop (.worker lo hi hz)), .pin .helpIf, .pin .unpin, .pin .workerExit]
      rw [withJobs_locals, hreg i hr] at hh ho
      exact .inl (.same hh ho)
  | @register i hr hc =>
      refine .inl ?_
      rw [hreg i hr]
      exact .same rfl rfl
  | @exit i hi hu' hst hg hh hc =>
      refine .inl ?_
      rw [setLocal_locals]
      split
      · next heq => exact heq ▸ .same rfl rfl
      · exact .same rfl rfl

/-! ## The steps of a scan -/

theorem scanAt_collector {s : St} {h : HpScan} {acc : List Oid} :
    s.scanAt .collector = some (h, acc) ↔ s.stage = .hps h acc := by
  simp only [St.scanAt]
  split
  · next h' acc' heq => simp [heq]
  · next hne => simpa using hne h acc

theorem scanAt_helper {s : St} {u : Lid} {h : HpScan} {acc : List Oid} :
    s.scanAt (.helper u) = some (h, acc) ↔
      ∃ sc done o todo rest,
        (s.locals u).stack = .help (.forceHps h acc sc done o todo) :: rest := by
  simp only [St.scanAt]
  split
  · next h' acc' sc done o todo rest heq => simp [heq]
  · next hne => simpa using fun sc done o todo rest heq => hne h acc sc done o todo rest heq

/-- A scan that is not at its end stands still, or makes one load. -/
theorem scan_step {s s' : St} {lab : Label} (hp : PinStr s) (hs : StepCase s lab s') {w : Scans}
    {h : HpScan} {acc : List Oid} (hw : s.scanAt w = some (h, acc)) (hh : h ≠ .iter .fin) :
    s'.scanAt w = some (h, acc) ∨ (s'.scanAt w = some (s.hpStep h acc) ∧
      ∀ t, (s'.locals t).hazards = (s.locals t).hazards ∧
        (s'.locals t).oldHazards = (s.locals t).oldHazards) := by
  have hnop : ∀ (i t : Lid) (fs : List Frame),
      ((s.setStack i fs).locals t).hazards = (s.locals t).hazards ∧
      ((s.setStack i fs).locals t).oldHazards = (s.locals t).oldHazards := by
    intro i t fs
    rw [setStack_locals]
    split
    · next heq => exact heq ▸ ⟨rfl, rfl⟩
    · exact ⟨rfl, rfl⟩
  cases w with
  | collector =>
      rw [scanAt_collector] at hw
      by_cases hl : lab.isColl = true
      · cases hs with
        | @coll ch e st fs hst hcoll =>
            have hnext : collStep s ch =
                some (.nop, .hps (s.hpStep h acc).1 (s.hpStep h acc).2, []) := by
              simp only [collStep, hw]
            rw [hnext] at hcoll
            cases hcoll
            exact .inr ⟨scanAt_collector.2 rfl, fun t => hnop s.collector t []⟩
        | _ => cases hl
      · refine .inl (scanAt_collector.2 ?_)
        rw [stage_of_not_coll hs (by simpa using hl), hw]
  | helper u =>
      obtain ⟨sc, done, o, todo, rest, hst⟩ := scanAt_helper.1 hw
      have hstack := stack_step hp hs u
      by_cases hl : ∃ ch, lab = .run u ch
      · obtain ⟨ch, rfl⟩ := hl
        cases hs with
        | @run t ch f rest' ht hst' =>
            rw [hst] at hst'
            cases hst'
            have hexec : exec s u ch (.help (.forceHps h acc sc done o todo)) =
                (.nop,
                  [.help (.forceHps (s.hpStep h acc).1 (s.hpStep h acc).2 sc done o todo)]) := by
              simp only [exec, execHelp]
            rw [hexec]
            refine .inr ⟨scanAt_helper.2 ⟨sc, done, o, todo, rest, ?_⟩, fun t => hnop u t _⟩
            rw [setStack_stack_self]
            rfl
      · refine .inl (scanAt_helper.2 ⟨sc, done, o, todo, rest, ?_⟩)
        generalize (s'.locals u).stack = fs at hstack
        cases hstack with
        | same => exact hst
        | run hl' => exact absurd ⟨_, hl'⟩ hl
        | op _ _ hst' | coll _ _ hst' | worker _ _ hst' =>
            rw [hst] at hst'
            cases hst'

/-! ## What a scan sees in spite of its thread -/

theorem hazardArray_of_eq {s s' : St} {t : Lid} (hh : (s'.locals t).hazards = (s.locals t).hazards)
    (ho : (s'.locals t).oldHazards = (s.locals t).oldHazards) (ver : Nat) :
    s'.hazardArray t ver = s.hazardArray t ver := by
  rw [St.hazardArray, St.hazardArray, hh, ho]

theorem unread_of_eq {s s' : St} {t : Lid} (hh : (s'.locals t).hazards = (s.locals t).hazards)
    (ho : (s'.locals t).oldHazards = (s.locals t).oldHazards) {a : Oid} {k : Nat} {h : HpScan}
    (hk : s.unread t a k h) : s'.unread t a k h := by
  cases h with
  | iter it => exact ⟨hk.1, hh ▸ hk.2⟩
  | slots i ver j nx =>
      rw [St.unread] at hk ⊢
      split
      · next hi => rwa [if_pos hi, ← hazardArray_of_eq hh ho] at hk
      · next hi => rwa [if_neg hi, ← hh] at hk

/-- `grow_hazards` copies the slots, and the array a scan has loaded stays as it is. -/
theorem unread_grow {s s' : St} {t : Lid}
    (hh : (s'.locals t).hazards =
      (s.locals t).hazards ++ List.replicate (s.locals t).hazards.length none)
    (ho : (s'.locals t).oldHazards = (s.locals t).oldHazards ++ [(s.locals t).hazards]) {a : Oid}
    {k : Nat} {h : HpScan} (hk : s.unread t a k h) : s'.unread t a k h := by
  have hslot : ∀ {k : Nat}, (s.locals t).hazards[k]? = some (some a) →
      (s'.locals t).hazards[k]? = some (some a) := by
    intro k hk
    rw [hh, List.getElem?_append_left (List.getElem?_eq_some_iff.1 hk).1]
    exact hk
  cases h with
  | iter it => exact ⟨hk.1, hslot hk.2⟩
  | slots i ver j nx =>
      rw [St.unread] at hk ⊢
      split
      · next hi =>
          rw [if_pos hi] at hk
          refine ⟨hk.1, ?_⟩
          have harr := hk.2
          rw [St.hazardArray] at harr ⊢
          rw [ho, List.length_append, List.length_singleton]
          by_cases hver : ver = (s.locals t).oldHazards.length
          · rw [if_pos hver] at harr
            rw [if_neg (by omega), hver]
            simpa using harr
          · rw [if_neg hver] at harr
            have hlt : ver < (s.locals t).oldHazards.length := by
              by_contra hge
              rw [List.getElem?_eq_none (Nat.not_lt.1 hge)] at harr
              cases harr
            rw [if_neg (by omega), List.getElem?_append_left hlt]
            exact harr
      · next hi =>
          rw [if_neg hi] at hk
          exact ⟨hk.1, hslot hk.2⟩

/-- A write leaves the other slots alone, and all of an array that was replaced. -/
theorem unread_write {s s' : St} {t : Lid} {hid : Nat} {v : Option Oid}
    (hh : (s'.locals t).hazards = (s.locals t).hazards.set hid v)
    (ho : (s'.locals t).oldHazards = (s.locals t).oldHazards) {a : Oid} {k : Nat} {h : HpScan}
    (hk : s.unread t a k h) (hne : k = hid → s.readsOld t h) : s'.unread t a k h := by
  have hslot : k ≠ hid → (s'.locals t).hazards[k]? = (s.locals t).hazards[k]? := by
    intro hne
    rw [hh, List.getElem?_set_ne (Ne.symm hne)]
  cases h with
  | iter it =>
      have hkh : k ≠ hid := fun heq => hne heq
      exact ⟨hk.1, (hslot hkh).trans hk.2⟩
  | slots i ver j nx =>
      rw [St.unread] at hk ⊢
      split
      · next hi =>
          rw [if_pos hi] at hk
          refine ⟨hk.1, ?_⟩
          have harr := hk.2
          rw [St.hazardArray] at harr ⊢
          rw [ho]
          by_cases hver : ver = (s.locals t).oldHazards.length
          · rw [if_pos hver] at harr ⊢
            have hkh : k ≠ hid := fun heq => (hne heq).2 hver
            exact (hslot hkh).trans harr
          · rwa [if_neg hver] at harr ⊢
      · next hi =>
          rw [if_neg hi] at hk
          have hkh : k ≠ hid := fun heq => hi (hne heq).1
          exact ⟨hk.1, (hslot hkh).trans hk.2⟩

/-- The thread does not write over the last copy of `a` that the scan has still to
read, unless the scan has it. -/
def St.keepsCopy (s : St) (w : Scans) (t : Lid) (a : Oid) (lab : Label) : Prop :=
  ∀ ch f rest hid v h acc, lab = .run t ch → (s.locals t).stack = f :: rest →
    f.writesSlot = some (hid, v) → s.scanAt w = some (h, acc) →
    a ∈ acc ∨ ∃ k, s.unread t a k h ∧ (k = hid → s.readsOld t h)

theorem sees_step {s s' : St} {lab : Label} (hp : PinStr s) (hs : StepCase s lab s') {w : Scans}
    {t : Lid} {a : Oid} {h : HpScan} {acc : List Oid} (hu : (s.locals t).isUsing = true)
    (hw : s.scanAt w = some (h, acc)) (hh : h ≠ .iter .fin) (hk : s.keepsCopy w t a lab)
    (hsee : s.sees t a h acc) :
    ∃ h' acc', s'.scanAt w = some (h', acc') ∧ s'.sees t a h' acc' := by
  have ht : t < s.nLocals := by
    by_contra hge
    rw [hp.beyond t (Nat.not_lt.1 hge)] at hu
    cases hu
  rcases scan_step hp hs hw hh with hstay | ⟨hload, hsame⟩
  · refine ⟨h, acc, hstay, hsee.1, ?_⟩
    rcases slot_step hs hu ht with hslot | ⟨ch, f, rest, hid, v, hl, hst, hf, hslot⟩
    · refine hsee.2.imp id fun ⟨k, hk⟩ => ⟨k, ?_⟩
      cases hslot with
      | same hh ho => exact unread_of_eq hh ho hk
      | grow hh ho => exact unread_grow hh ho hk
    · refine (hk ch f rest hid v h acc hl hst hf hw).imp id fun ⟨k, hk, hne⟩ => ⟨k, ?_⟩
      cases hslot with
      | write hh ho => exact unread_write hh ho hk hne
  · obtain ⟨hl, hsee'⟩ := sees_hpStep hp hu hsee
    refine ⟨_, _, hload, hl, hsee'.imp id fun ⟨k, hk⟩ => ⟨k, ?_⟩⟩
    exact unread_of_eq (hsame t).1 (hsame t).2 hk

/-- A scan that is at its end stands still, or is over. -/
theorem scan_end {s s' : St} {lab : Label} (hp : PinStr s) (hs : StepCase s lab s') {w : Scans}
    {acc : List Oid} (hw : s.scanAt w = some (.iter .fin, acc)) :
    s'.scanAt w = some (.iter .fin, acc) ∨ s'.scanAt w = none := by
  cases w with
  | collector =>
      rw [scanAt_collector] at hw
      by_cases hl : lab.isColl = true
      · cases hs with
        | @coll ch e st fs hst hcoll =>
            simp only [collStep, hw, Option.some.injEq, Prod.mk.injEq] at hcoll
            obtain ⟨rfl, rfl, rfl⟩ := hcoll
            exact .inr rfl
        | _ => cases hl
      · refine .inl (scanAt_collector.2 ?_)
        rw [stage_of_not_coll hs (by simpa using hl), hw]
  | helper u =>
      obtain ⟨sc, done, o, todo, rest, hst⟩ := scanAt_helper.1 hw
      have hstack := stack_step hp hs u
      simp only [St.scanAt]
      generalize (s'.locals u).stack = fs at hstack
      cases hstack with
      | same => exact .inl (by rw [hst])
      | @run ch f rest' hl ht hst' =>
          rw [hst] at hst'
          cases hst'
          refine .inr ?_
          simp only [exec, execHelp, scanHazard]
          by_cases ho : o ∈ acc
          · rw [if_pos ho]
            rfl
          · rw [if_neg ho]
            rfl
      | op _ _ hst' | coll _ _ hst' | worker _ _ hst' =>
          rw [hst] at hst'
          cases hst'

/-- The steps of a run during which the scan is under way, thread `t` protects `a`,
and never gives up the last copy that the scan would find. -/
def duringScan (w : Scans) (t : Lid) (a : Oid) (s : St) (lab : Label) : Prop :=
  (s.scanAt w).isSome = true ∧ s.protects t a ∧ s.keepsCopy w t a lab

/-- Where a thread that protects an address all along does not clear the last copy
ahead of the scan, the scan collects it. -/
theorem collect_hps_complete {n : Nat} {s₀ s : St} {w : Scans} {t : Lid} {a : Oid}
    {acc : List Oid} (h₀ : Reachable n s₀) (hstart : s₀.scanAt w = some (.iter s₀.firstNode, []))
    (hprot : s₀.protects t a) (hr : Lts.Reaches step (duringScan w t a) s₀ s)
    (hend : s.scanAt w = some (.iter .fin, acc)) : a ∈ acc := by
  suffices hinv : Ground s ∧ ∀ h acc, s.scanAt w = some (h, acc) → s.sees t a h acc by
    rcases (hinv.2 _ _ hend).2 with hmem | ⟨k, hnot, -⟩
    · exact hmem
    · exact absurd trivial hnot
  refine hr.invariant (I := fun u => Ground u ∧ ∀ h acc, u.scanAt w = some (h, acc) →
    u.sees t a h acc) ?_ ?_
  · refine ⟨.of_reachable h₀, fun h acc hw => ?_⟩
    rw [hstart] at hw
    cases hw
    obtain ⟨hu, hmem⟩ := hprot
    obtain ⟨k, hk, hget⟩ := List.getElem_of_mem hmem
    obtain ⟨hl, hpass⟩ := (Ground.of_reachable h₀).pin.str.passed_firstNode fun _ => False
    exact ⟨hl, .inr ⟨k, hpass t, by rw [List.getElem?_eq_getElem hk, hget]⟩⟩
  · intro u u' lab ⟨hg, hsee⟩ ⟨hsome, ⟨hu, _⟩, hk⟩ hstep
    refine ⟨hg.step hstep, fun h' acc' hw' => ?_⟩
    obtain ⟨⟨h, acc⟩, hw⟩ := Option.isSome_iff_exists.1 hsome
    by_cases hfin : h = .iter .fin
    · subst hfin
      rcases scan_end hg.pin.str (stepCase hstep) hw with hsame | hnone
      · rw [hsame] at hw'
        cases hw'
        refine ⟨trivial, .inl ?_⟩
        exact (hsee _ _ hw).2.resolve_right fun hk => hk.choose_spec.1 trivial
      · rw [hnone] at hw'
        cases hw'
    · obtain ⟨h₁, acc₁, hw₁, hsee₁⟩ :=
        sees_step hg.pin.str (stepCase hstep) hu hw hfin hk (hsee _ _ hw)
      rw [hw₁] at hw'
      cases hw'
      exact hsee₁

/-- Thread 1 protects object 0, in slot 7, and the collector begins its scan. -/
def untilScan : List Label :=
  List.flatten
    [[.register 1, .op 1 .pin], .replicate 4 (.run 1 0), [.op 1 (.alloc [] 8 none)],
      .replicate 3 (.run 1 0), [.op 1 (.protect (.guard 0)), .run 1 0, .run 1 0],
      [.op 1 .dropGuard, .run 1 0, .run 1 0], .replicate 9 (.coll 0), .replicate 14 (.run 0 0),
      .replicate 7 (.coll 0)]

/-- Thread 1 protects object 0 again, in slot 6, and drops the first handle. -/
def moveHandle : List Label :=
  [.op 1 (.protect (.hazard 7)), .run 1 0, .run 1 0, .op 1 (.dropHandle 7), .run 1 0]

def Label.runsOn (t : Lid) : Label → Bool
  | .run i _ => i = t
  | _ => false

/-- The scan is under way and has what thread 1 is about to move. -/
def hasMoved (s : St) (lab : Label) : Prop :=
  (s.scanAt .collector).isSome = true ∧ s.protects 1 0 ∧
    (lab.runsOn 1 = true → ∀ r ∈ s.scanAt .collector, 0 ∈ r.2)

instance (s : St) (lab : Label) : Decidable (hasMoved s lab) :=
  inferInstanceAs (Decidable (_ ∧ _ ∧ _))

theorem collect_hps_complete_moveHandle : ∃ s₀ s, Reachable 1 s₀ ∧
    Lts.Reaches step (duringScan .collector 1 0) s₀ s ∧ (s.locals 1).hazards[7]? = some none ∧
    ∃ acc, s.scanAt .collector = some (.iter .fin, acc) ∧ 0 ∈ acc := by
  have hrun : (Lts.runs step (fun _ _ => True) (St.init 1) untilScan).any (fun s₀ =>
      decide (s₀.scanAt .collector = some (.iter s₀.firstNode, []) ∧ s₀.protects 1 0) &&
      (Lts.runs step hasMoved s₀ (.replicate 23 (.coll 0) ++ moveHandle ++ [.coll 0])).any fun s =>
        decide (s.scanAt .collector = some (.iter .fin, [0]) ∧
          (s.locals 1).hazards[7]? = some none)) = true := by
    decide +kernel
  obtain ⟨s₀, h₀, h⟩ := Lts.exists_of_any hrun
  obtain ⟨hs₀, h⟩ := Bool.and_eq_true_iff.1 h
  obtain ⟨hstart, hprot⟩ := of_decide_eq_true hs₀
  obtain ⟨s, hr, h⟩ := Lts.exists_of_any h
  obtain ⟨hend, hslot⟩ := of_decide_eq_true h
  have hr' : Lts.Reaches step (duringScan .collector 1 0) s₀ s :=
    hr.mono fun u lab hu => ⟨hu.1, hu.2.1, fun ch f rest hid v h acc hl _ _ hw =>
      .inl (hu.2.2 (by rw [hl]; rfl) (h, acc) hw)⟩
  exact ⟨s₀, s, h₀, hr', hslot, [0], hend, collect_hps_complete h₀ hstart hprot hr' hend⟩

theorem collect_hps_misses : ∃ s₀ s, Reachable 1 s₀ ∧
    s₀.scanAt .collector = some (.iter s₀.firstNode, []) ∧
    Lts.Reaches step (fun s _ => (s.scanAt .collector).isSome = true ∧ s.protects 1 0) s₀ s ∧
    s.protects 1 0 ∧ s.scanAt .collector = some (.iter .fin, []) := by
  have hrun : (Lts.runs step (fun _ _ => True) (St.init 1) untilScan).any (fun s₀ =>
      decide (s₀.scanAt .collector = some (.iter s₀.firstNode, [])) &&
      (Lts.runs step (fun s _ => (s.scanAt .collector).isSome = true ∧ s.protects 1 0) s₀
        (.replicate 22 (.coll 0) ++ moveHandle ++ [.coll 0, .coll 0])).any fun s =>
          decide (s.protects 1 0 ∧ s.scanAt .collector = some (.iter .fin, []))) = true := by
    decide +kernel
  obtain ⟨s₀, h₀, h⟩ := Lts.exists_of_any hrun
  obtain ⟨hstart, h⟩ := Bool.and_eq_true_iff.1 h
  obtain ⟨s, hr, h⟩ := Lts.exists_of_any h
  obtain ⟨hprot, hend⟩ := of_decide_eq_true h
  exact ⟨s₀, s, h₀, of_decide_eq_true hstart, hr, hprot, hend⟩

end Cdpt
