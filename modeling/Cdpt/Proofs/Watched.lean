import Cdpt.Proofs.Collect
import Cdpt.Proofs.Garbage

/-!
# Who knows of a hazard slot

A slot that names an object from before the root trace on is known to everybody who
scans a batch in it. Knowledge travels in a set of addresses, and there are three
ways to get one: the collector reads the slots and hands its set down to the
workers, a helper reads them itself, or it takes the set that it has read before in
the same epoch. The slots are read one by one while the threads go on, so what is
known of a scan under way is that it has the object, or is going to read it from
this slot.

`ScanMove` lists what a scanner can do next. `Informed` is the invariant, for any
property of a scan under way and of the sets that come out of it, and `Watched` is
the one of a single slot.

Why one slot and not an address, as in `Collect`? There the thread may move its
protection around as long as the scan does not miss it, which depends on where each
of several scans is. With one slot that names the object from before the trace to
the end of it no scan can miss it, whenever it begins, so the condition is about the
slot alone and `seesAt` is simpler than `sees`.

The set a helper caches is the delicate part. It is valid for the epoch it was
collected in, and the helper compares before it uses it. Since a pin keeps its
epoch, and an epoch does not come back, a cached set with the helper's epoch was
collected under the same RT (`CacheInv`), and so after the slot was set.
-/

namespace Cdpt

/-! ## One slot, read while the threads go on -/

/-- The scan has `a`, or is going to read it from slot `k` of node `t`. -/
def St.seesAt (s : St) (t : Lid) (k : Nat) (a : Oid) (h : HpScan) (acc : List Oid) : Prop :=
  h.Linked ∧ (a ∈ acc ∨ s.unread t a k h)

/-- Slot `k` of node `t`, which is in use, names `a`. -/
def St.slotHolds (s : St) (t : Lid) (k : Nat) (a : Oid) : Prop :=
  (s.locals t).isUsing = true ∧ (s.locals t).hazards[k]? = some (some a)

instance (s : St) (t : Lid) (k : Nat) (a : Oid) : Decidable (s.slotHolds t k a) :=
  inferInstanceAs (Decidable (_ ∧ _))

section Slot

variable {s s' : St} {t : Lid} {k : Nat} {a : Oid} {acc : List Oid}

theorem seesAt_start (hp : PinStr s) (ha : s.slotHolds t k a) :
    s.seesAt t k a (.iter s.firstNode) [] := by
  obtain ⟨hl, hpass⟩ := hp.passed_firstNode fun _ => False
  exact ⟨hl, .inr ⟨hpass t, ha.2⟩⟩

theorem mem_of_seesAt (h : s.seesAt t k a (.iter .fin) acc) : a ∈ acc :=
  h.2.resolve_right fun hk => hk.1 trivial

theorem seesAt_iter (hp : PinStr s) (ha : s.slotHolds t k a) {it : Iter}
    (h : s.seesAt t k a (.iter it) acc) : s.seesAt t k a (.iter (s.iterStep false it)) acc := by
  obtain ⟨hl, hsee⟩ := h
  obtain ⟨hlink, hpass⟩ := iterStep_passed (j := t) (show it.Linked from hl) hp.beyond
  refine ⟨hlink, hsee.imp id fun ⟨hnot, hk⟩ => ⟨fun hgo => ?_, hk⟩⟩
  rcases hpass hgo with hpass | hunused
  · exact hnot hpass
  · rw [ha.1] at hunused
    cases hunused

theorem seesAt_act {i : Lid} {nx : Option Lid} (h : s.seesAt t k a (.iter (.act i nx)) acc) :
    s.seesAt t k a (.slots i (s.locals i).oldHazards.length 0 nx) acc := by
  obtain ⟨hl, hsee⟩ := h
  refine ⟨hl, hsee.imp id fun ⟨hnot, hk⟩ => ?_⟩
  rw [St.unread]
  by_cases hi : i = t
  · subst hi
    rw [if_pos rfl]
    exact ⟨Nat.zero_le k, by simpa [St.hazardArray] using hk⟩
  · rw [if_neg hi]
    refine ⟨fun hgo => ?_, hk⟩
    rcases Iter.passed_goto hl hgo with hpass | heq
    · exact hnot hpass
    · exact hi heq.symm

theorem seesAt_slot {i : Lid} {ver j : Nat} {nx : Option Lid} {v : Option Oid}
    (hv : (s.hazardArray i ver)[j]? = some v) (h : s.seesAt t k a (.slots i ver j nx) acc) :
    s.seesAt t k a (.slots i ver (j + 1) nx) (acc ++ v.toList) := by
  obtain ⟨hl, hmem | hk⟩ := h
  · exact ⟨hl, .inl (List.mem_append_left _ hmem)⟩
  · refine ⟨hl, ?_⟩
    rw [St.unread] at hk ⊢
    by_cases hi : i = t
    · subst hi
      rw [if_pos rfl] at hk ⊢
      obtain ⟨hle, hk⟩ := hk
      rcases Nat.eq_or_lt_of_le hle with rfl | hlt
      · rw [hv] at hk
        cases hk
        exact .inl (by simp)
      · exact .inr ⟨hlt, hk⟩
    · rw [if_neg hi] at hk ⊢
      exact .inr hk

theorem seesAt_next {i : Lid} {ver j : Nat} {nx : Option Lid}
    (hv : (s.hazardArray i ver)[j]? = none) (h : s.seesAt t k a (.slots i ver j nx) acc) :
    s.seesAt t k a (.iter (.goto nx)) acc := by
  obtain ⟨hl, hsee⟩ := h
  refine ⟨Iter.linked_goto nx, hsee.imp id fun hk => ?_⟩
  rw [St.unread] at hk
  by_cases hi : i = t
  · subst hi
    rw [if_pos rfl] at hk
    obtain ⟨hle, hk⟩ := hk
    have hlen := List.getElem?_eq_none_iff.1 hv
    rw [List.getElem?_eq_none (hlen.trans hle)] at hk
    cases hk
  · rwa [if_neg hi] at hk

theorem seesAt_hpStep (hp : PinStr s) (ha : s.slotHolds t k a) {h : HpScan}
    (hs : s.seesAt t k a h acc) : s.seesAt t k a (s.hpStep h acc).1 (s.hpStep h acc).2 := by
  cases h with
  | iter it =>
      cases it with
      | act i nx => exact seesAt_act hs
      | node i => exact seesAt_iter hp ha hs
      | test i nx => exact seesAt_iter hp ha hs
      | fin => exact seesAt_iter hp ha hs
  | slots i ver j nx =>
      cases hv : (s.hazardArray i ver)[j]? with
      | none =>
          simp only [St.hpStep, hv]
          exact seesAt_next hv hs
      | some v =>
          have hslot := seesAt_slot hv hs
          cases v with
          | none =>
              simp only [St.hpStep, hv]
              simpa using hslot
          | some o =>
              simp only [St.hpStep, hv]
              exact hslot

/-- The threads may write to their slots and grow their arrays, as long as the slot
names `a` before and after. -/
theorem seesAt_keep (hs : ∃ w, SlotStep (s.locals t) (s'.locals t) w) (ha : s.slotHolds t k a)
    (ha' : s'.slotHolds t k a) {h : HpScan} (hsee : s.seesAt t k a h acc) :
    s'.seesAt t k a h acc := by
  obtain ⟨hl, hmem | hk⟩ := hsee
  · exact ⟨hl, .inl hmem⟩
  · refine ⟨hl, .inr ?_⟩
    cases h with
    | iter it => exact ⟨hk.1, ha'.2⟩
    | slots i ver j nx =>
        rw [St.unread] at hk ⊢
        by_cases hi : i = t
        · subst hi
          rw [if_pos rfl] at hk ⊢
          refine ⟨hk.1, ?_⟩
          -- The array the scan has loaded is still the current one, or it is a copy.
          obtain ⟨w, hstep⟩ := hs
          have hold : (s'.locals i).oldHazards = (s.locals i).oldHazards ∨
              (s'.locals i).oldHazards = (s.locals i).oldHazards ++ [(s.locals i).hazards] := by
            cases hstep with
            | same hh ho => exact .inl ho
            | grow hh ho => exact .inr ho
            | write hh ho => exact .inl ho
          have hk₂ := hk.2
          unfold St.hazardArray at hk₂ ⊢
          rcases hold with ho | ho
          · rw [ho]
            split
            · exact ha'.2
            · next hne =>
                rw [if_neg hne] at hk₂
                exact hk₂
          · rw [ho, List.length_append, List.length_singleton]
            split
            · exact ha'.2
            · next hne =>
                by_cases hver : ver = (s.locals i).oldHazards.length
                · rw [hver, List.getElem?_concat_length]
                  exact ha.2
                · rw [if_neg hver] at hk₂
                  by_cases hlt : ver < (s.locals i).oldHazards.length
                  · rw [List.getElem?_append_left hlt]
                    exact hk₂
                  · rw [List.getElem?_eq_none (Nat.not_lt.1 hlt)] at hk₂
                    simp at hk₂
        · rw [if_neg hi] at hk ⊢
          exact ⟨hk.1, ha'.2⟩

end Slot

theorem slotStep_of_holds {s s' : St} {lab : Label} (hp : PinStr s) (hs : StepCase s lab s')
    {t : Lid} {k : Nat} {a : Oid} (ha : s.slotHolds t k a) :
    ∃ w, SlotStep (s.locals t) (s'.locals t) w := by
  have ht : t < s.nLocals := by
    by_contra hge
    have hu := ha.1
    rw [hp.beyond t (Nat.not_lt.1 hge)] at hu
    cases hu
  rcases slot_step hs ha.1 ht with hslot | ⟨ch, f, rest, hid, v, -, -, -, hslot⟩
  · exact ⟨_, hslot⟩
  · exact ⟨_, hslot⟩

/-! ## The steps of a scanner -/

/-- The frames of the root scan. -/
def Frame.isScan : Frame → Bool
  | .help (.rootNext _ _ _) | .help (.scanPop _) | .help (.scanObjs _ _ _)
  | .help (.forceHps _ _ _ _ _ _) => true
  | _ => false

/-- The set of hazards a scanner on node `t` looks at when a root count is zero. -/
def St.consults (s : St) (t : Lid) (hs : List Oid) : Scanner → Prop
  | .worker _ _ hs' => hs = hs'
  | .helper _ _ _ true => hs = ((s.locals t).cachedHazards.map Prod.fst).getD []
  | .helper _ _ _ false => (s.locals t).cachedHazards = some (hs, (s.locals t).epoch)

/-- Where the frames of the root scan come from. The scanner is done with an object
when it has begun to mark it, or when neither the count nor the set spoke for it. -/
inductive ScanMove (s : St) (t : Lid) (fs : List Frame) : Frame → Frame → Prop
  | start {qs : List Nat} : ScanMove s t fs (.help (.synced .fin)) (.help (.rootNext qs 0 false))
  | pick {q k : Nat} {qs qs' : List Nat} {fd : Bool} :
      ScanMove s t fs (.help (.rootNext qs k fd)) (.help (.scanPop (.helper q qs' k fd)))
  | empty {q k : Nat} {qs : List Nat} {fd : Bool} :
      ScanMove s t fs (.help (.scanPop (.helper q qs k fd))) (.help (.rootNext qs k fd))
  | shard {q hi : Nat} {hs : List Oid} :
      ScanMove s t fs (.help (.scanPop (.worker q hi hs)))
        (.help (.scanPop (.worker (q + 1) hi hs)))
  | pop {sc : Scanner} {b : List Oid} :
      ScanMove s t fs (.help (.scanPop sc)) (.help (.scanObjs sc [] b))
  | seen {sc sc' : Scanner} {done todo : List Oid} {o : Oid}
      (hsc : sc' = sc ∨ sc' = sc.force ∧
        ∃ hs, (s.locals t).cachedHazards = some (hs, (s.locals t).epoch))
      (hm : .mark (.links o 0) ∈ fs ∨ s.rootCount o = 0 ∧ ∃ hs, s.consults t hs sc ∧ o ∉ hs) :
      ScanMove s t fs (.help (.scanObjs sc done (o :: todo)))
        (.help (.scanObjs sc' (done ++ [o]) todo))
  | force {q k : Nat} {qs : List Nat} {done todo : List Oid} {o : Oid} (hr : s.rootCount o = 0) :
      ScanMove s t fs (.help (.scanObjs (.helper q qs k false) done (o :: todo)))
        (.help (.forceHps (.iter s.firstNode) [] (.helper q qs k false) done o todo))
  | load {h : HpScan} {acc : List Oid} {sc : Scanner} {done todo : List Oid} {o : Oid} :
      ScanMove s t fs (.help (.forceHps h acc sc done o todo))
        (.help (.forceHps (s.hpStep h acc).1 (s.hpStep h acc).2 sc done o todo))
  | got {acc : List Oid} {sc : Scanner} {done todo : List Oid} {o : Oid}
      (hm : .mark (.links o 0) ∈ fs ∨ o ∉ acc) :
      ScanMove s t fs (.help (.forceHps (.iter .fin) acc sc done o todo))
        (.help (.scanObjs sc.force (done ++ [o]) todo))
  | next {sc : Scanner} {done : List Oid} {g : Frame} (hg : g ∈ sc.next) :
      ScanMove s t fs (.help (.scanObjs sc done [])) g

theorem ScanMove.guarded {s : St} {t : Lid} {fs : List Frame} {f g : Frame}
    (h : ScanMove s t fs f g) : f.pinning = false ∧ f.guarded = true := by
  cases h <;> exact ⟨rfl, rfl⟩

theorem scanHazard_moves {hs : List Oid} {sc : Scanner} {done todo : List Oid} {o : Oid} {g : Frame}
    (hg : g ∈ scanHazard hs sc done o todo) (hsc : g.isScan = true) :
    g = .help (.scanObjs sc (done ++ [o]) todo) ∧
      (.mark (.links o 0) ∈ scanHazard hs sc done o todo ∨ o ∉ hs) := by
  unfold scanHazard at hg ⊢
  by_cases ho : o ∈ hs
  · rw [if_pos ho] at hg ⊢
    simp only [List.mem_cons, List.not_mem_nil, or_false] at hg
    rcases hg with rfl | rfl
    · cases hsc
    · exact ⟨rfl, .inl (by simp)⟩
  · rw [if_neg ho] at hg
    exact ⟨List.mem_singleton.1 hg, .inr ho⟩

theorem scanObj_moves {s : St} {t : Lid} {sc : Scanner} {done todo : List Oid} {o : Oid}
    {g : Frame} (hg : g ∈ scanObj s t sc done o todo) (hsc : g.isScan = true) :
    ScanMove s t (scanObj s t sc done o todo) (.help (.scanObjs sc done (o :: todo))) g := by
  unfold scanObj at hg ⊢
  by_cases hr : 0 < s.rootCount o
  · rw [if_pos hr] at hg ⊢
    simp only [List.mem_cons, List.not_mem_nil, or_false] at hg
    rcases hg with rfl | rfl
    · cases hsc
    · exact .seen (.inl rfl) (.inl (by simp))
  · have hr₀ : s.rootCount o = 0 := Nat.eq_zero_of_not_pos hr
    rw [if_neg hr] at hg ⊢
    cases sc with
    | worker q hi hs =>
        obtain ⟨rfl, hm⟩ := scanHazard_moves hg hsc
        exact .seen (.inl rfl) (hm.imp id fun ho => ⟨hr₀, _, rfl, ho⟩)
    | helper q qs k fd =>
        cases fd with
        | true =>
            obtain ⟨rfl, hm⟩ := scanHazard_moves hg hsc
            exact .seen (.inl rfl) (hm.imp id fun ho => ⟨hr₀, _, rfl, ho⟩)
        | false =>
            cases hc : (s.locals t).cachedHazards with
            | none =>
                simp only [hc] at hg ⊢
                rw [List.mem_singleton.1 hg]
                exact .force hr₀
            | some c =>
                obtain ⟨hs, e⟩ := c
                simp only [hc] at hg ⊢
                by_cases he : e = (s.locals t).epoch
                · subst he
                  rw [if_pos rfl] at hg ⊢
                  obtain ⟨rfl, hm⟩ := scanHazard_moves hg hsc
                  exact .seen (.inr ⟨rfl, hs, hc⟩) (hm.imp id fun ho => ⟨hr₀, hs, hc, ho⟩)
                · rw [if_neg he] at hg ⊢
                  rw [List.mem_singleton.1 hg]
                  exact .force hr₀

theorem exec_scans {s : St} {t : Lid} {ch : Nat} {f g : Frame} (hg : g ∈ (exec s t ch f).2)
    (hsc : g.isScan = true) : ScanMove s t (exec s t ch f).2 f g := by
  have hno : ∀ fs : List Frame, fs.all (fun g => !g.isScan) = true → g ∉ fs := by
    intro fs hall hmem
    have := List.all_eq_true.1 hall g hmem
    rw [hsc] at this
    cases this
  cases f with
  | pin f =>
      refine absurd hg (hno _ ?_)
      cases f <;> simp only [exec, execPin] <;> (repeat' split) <;> rfl
  | ptr f =>
      have hhelp := List.all_eq_true.1 (execPtr_all (p := Frame.notHelp) (fun _ => rfl)
        (fun _ => rfl) (fun _ => rfl) s t ch f) g hg
      cases g <;> first | cases hsc | cases hhelp
  | mark f =>
      refine absurd hg (hno _ ?_)
      cases f <;> simp only [exec, execMark, shadeLink] <;> (repeat' split) <;> rfl
  | help f =>
      cases f with
      | scanObjs sc done todo =>
          cases todo with
          | nil => exact .next hg
          | cons o todo => exact scanObj_moves hg hsc
      | forceHps h acc sc done o todo =>
          simp only [exec, execHelp] at hg ⊢
          split at hg
          · obtain ⟨rfl, hm⟩ := scanHazard_moves hg hsc
            exact .got hm
          · rw [List.mem_singleton.1 hg]
            exact .load
      | scanPop sc =>
          cases sc with
          | worker q hi hs =>
              simp only [exec, execHelp] at hg ⊢
              repeat' split at hg
              · rw [List.mem_singleton.1 hg]
                exact .shard
              · rw [List.mem_singleton.1 hg]
                exact .pop
              · cases hg
          | helper q qs k fd =>
              simp only [exec, execHelp] at hg ⊢
              split at hg
              · rw [List.mem_singleton.1 hg]
                exact .empty
              · rw [List.mem_singleton.1 hg]
                exact .pop
      | rootNext qs k fd =>
          simp only [exec, execHelp] at hg ⊢
          split at hg
          · cases hg
          · rw [List.mem_singleton.1 hg]
            exact .pick
      | synced it =>
          cases it with
          | fin =>
              simp only [exec, execHelp] at hg ⊢
              split at hg
              · simp only [List.mem_cons, List.not_mem_nil, or_false] at hg
                rcases hg with rfl | rfl
                · exact .start
                · cases hsc
              · rw [List.mem_singleton.1 hg] at hsc
                cases hsc
          | _ =>
              refine absurd hg (hno _ ?_)
              simp only [exec, execHelp]
              repeat' split
              all_goals rfl
      | _ =>
          refine absurd hg (hno _ ?_)
          simp only [exec, execHelp]
          repeat' split
          all_goals rfl

theorem scan_frames {s s' : St} {lab : Label} (hp : PinStr s) (hs : StepCase s lab s') {t : Lid}
    {g : Frame} (hg : g ∈ (s'.locals t).stack) (hsc : g.isScan = true) :
    g ∈ (s.locals t).stack ∨
    (∃ ch f rest, lab = .run t ch ∧ (s.locals t).stack = f :: rest ∧
      ScanMove s t (exec s t ch f).2 f g ∧ ∀ g ∈ (exec s t ch f).2, g ∈ (s'.locals t).stack) ∨
    ∃ j ∈ s.jobs, g = .help (.scanPop (.worker j.1 j.2.1 j.2.2)) := by
  have hno : ∀ fs : List Frame, fs.all Frame.isEntry = true → g ∉ fs := by
    intro fs hall hmem
    have hentry := List.all_eq_true.1 hall g hmem
    unfold Frame.isScan at hsc
    split at hsc <;> first | cases hentry | cases hsc
  have hstep := stack_step hp hs t
  generalize (s'.locals t).stack = fs at hstep hg ⊢
  cases hstep with
  | same _ => exact .inl hg
  | op _ _ _ hop => exact absurd hg (hno _ (startOp_isEntry hop))
  | @run ch f rest hl _ hst =>
      rcases List.mem_append.1 hg with hg | hg
      · exact .inr (.inl ⟨ch, f, rest, hl, hst, exec_scans hg hsc,
          fun g hg => List.mem_append_left _ hg⟩)
      · exact .inl (by rw [hst]; exact List.mem_cons_of_mem f hg)
  | coll _ _ _ hcoll => exact absurd hg (hno _ (collStep_isEntry hcoll))
  | @worker lo hi hz js _ hj _ =>
      refine .inr (.inr ⟨(lo, hi, hz), by rw [hj]; exact List.mem_cons_self .., ?_⟩)
      simp only [List.mem_cons, List.not_mem_nil, or_false] at hg
      rcases hg with rfl | rfl | rfl | rfl | rfl
      · cases hsc
      · rfl
      · cases hsc
      · cases hsc
      · cases hsc

/-! ## The set a helper keeps for the epoch -/

/-- The frames of a helper whose `LazyCell` is forced. -/
def Frame.forced : Frame → Bool
  | .help (.rootNext _ _ f) | .help (.scanPop (.helper _ _ _ f))
  | .help (.scanObjs (.helper _ _ _ f) _ _) | .help (.forceHps _ _ (.helper _ _ _ f) _ _ _) => f
  | _ => false

theorem cachedHazards_apply (e : Eff) (s : St) (t i : Lid) :
    ((e.apply s t).locals i).cachedHazards = (s.locals i).cachedHazards ∨
    ∃ hs, e = .cacheHazards hs ∧ i = t ∧
      ((e.apply s t).locals i).cachedHazards = some (hs, (s.locals t).epoch) := by
  cases e with
  | cacheHazards hs =>
      by_cases hi : i = t
      · subst hi
        exact .inr ⟨hs, rfl, rfl, by simp [Eff.apply]⟩
      · exact .inl (by simp [Eff.apply, hi])
  | steal j n =>
      refine .inl ?_
      simp only [Eff.apply, setLocal_locals]
      split <;> split <;> simp_all
  | takeBatch j c => exact .inl (by by_cases hi : i = j <;> simp [Eff.apply, hi])
  | setLink l p => cases l <;> exact .inl rfl
  | nop | storeEpoch | setColor | setCount | newCell | pushFresh | popFresh | pushMarked
  | popMarked | addAllocated | addReclaimed | reclaim | spawn | spawnSweep | confirm =>
      exact .inl rfl
  | _ => exact .inl (by by_cases hi : i = t <;> simp [Eff.apply, hi])

theorem exec_cacheHazards {s : St} {t : Lid} {ch : Nat} {f : Frame} {hs : List Oid}
    (h : (exec s t ch f).1 = .cacheHazards hs) :
    ∃ sc done o todo, f = .help (.forceHps (.iter .fin) hs sc done o todo) := by
  cases f with
  | pin f => cases f <;> simp only [exec, execPin] at h <;> (repeat' split at h) <;> cases h
  | ptr f => cases f <;> simp only [exec, execPtr] at h <;> (repeat' split at h) <;> cases h
  | mark f => cases f <;> simp only [exec, execMark] at h <;> (repeat' split at h) <;> cases h
  | help f =>
      cases f <;> simp only [exec, execHelp] at h <;> (repeat' split at h) <;> cases h
      exact ⟨_, _, _, _, rfl⟩

theorem collStep_cache {s : St} {ch : Nat} {e : Eff} {st : Stage} {fs : List Frame}
    (h : collStep s ch = some (e, st, fs)) (hs : List Oid) : e ≠ .cacheHazards hs := by
  unfold collStep at h
  simp only at h
  repeat' split at h
  all_goals first
    | (cases h; done)
    | (cases h; simp)

theorem sweepStep_cache (s : St) (w : Sweeper) (ch : Nat) (hs : List Oid) :
    (sweepStep s w ch).1 ≠ .cacheHazards hs := by
  unfold sweepStep
  repeat' split
  all_goals simp

/-- What node `i` has cached after a step: what it had, nothing if it is new, or the
set it has just collected. -/
theorem cached_step {s s' : St} {lab : Label} (hs : StepCase s lab s') (i : Lid) :
    (s'.locals i).cachedHazards = (s.locals i).cachedHazards ∨
    (s.nLocals ≤ i ∧ (s'.locals i).cachedHazards = none) ∨
    ∃ ch acc sc done o todo rest, lab = .run i ch ∧
      (s.locals i).stack = .help (.forceHps (.iter .fin) acc sc done o todo) :: rest ∧
      (s'.locals i).cachedHazards = some (acc, (s.locals i).epoch) := by
  have hstk : ∀ (u : St) (t : Lid) (fs : List Frame),
      ((u.setStack t fs).locals i).cachedHazards = (u.locals i).cachedHazards := by
    intro u t fs
    rw [setStack_locals]
    split
    · next hi => rw [hi]
    · rfl
  have hreg : ∀ t, ((s.register t).locals i).cachedHazards = (s.locals i).cachedHazards ∨
      (s.nLocals ≤ i ∧ ((s.register t).locals i).cachedHazards = none) := by
    intro t
    unfold St.register
    split
    · by_cases hi : i = t <;> simp [hi]
    · next hlt =>
        by_cases hi : i = t
        · subst hi
          exact .inr ⟨Nat.not_lt.1 hlt, by simp [Local.default]⟩
        · exact .inl (by simp [hi])
  cases hs with
  | @op t op s₁ fs ht hu hst hc hop =>
      rw [hstk]
      obtain ⟨held, hl⟩ := startOp_locals hop i
      exact .inl (by rw [hl])
  | @run t ch f rest ht hst =>
      rw [hstk]
      rcases cachedHazards_apply (exec s t ch f).1 s t i with he | ⟨acc, he, rfl, hc⟩
      · exact .inl he
      · obtain ⟨sc, done, o, todo, rfl⟩ := exec_cacheHazards he
        exact .inr (.inr ⟨ch, acc, sc, done, o, todo, rest, rfl, hst, hc⟩)
  | @coll ch e st fs hst hcoll =>
      rw [hstk]
      rcases cachedHazards_apply e s s.collector i with he | ⟨acc, he, -⟩
      · exact .inl he
      · exact absurd he (collStep_cache hcoll acc)
  | @sweep k ch w hw =>
      rcases cachedHazards_apply (sweepStep s w ch).1 s s.collector i with he | ⟨acc, he, -⟩
      · exact .inl he
      · exact absurd he (sweepStep_cache s w ch acc)
  | @startWorker t lo hi hz js hj hr hc =>
      rw [hstk]
      exact (hreg t).imp id .inl
  | @register t hr hc => exact (hreg t).imp id .inl
  | @exit t ht hu hst hg hh hc =>
      refine .inl ?_
      rw [setLocal_locals]
      split
      · next hi => rw [hi]
      · rfl

/-- A thread that stays pinned keeps its epoch. -/
theorem NodeStep.epoch_of_pinned {s : St} {n : Nat} {i : Lid} {l : Local} (h : NodeStep s n i l)
    (hd : (s.locals i).pinDone) (hd' : l.pinDone) : l.epoch = (s.locals i).epoch := by
  cases h with
  | same hv hs | push hu hst hv hfs hen => exact congrArg (fun v => v.2.2.1) hv
  | @run ch f rest hst hv hs =>
      rcases exec_pinFree_or s i ch f with ⟨he, -, hf⟩ | ⟨g, rfl⟩
      · exact (exec_pinDone_plain hst he hf hv hd').2
      · have hep : l.epoch = (((exec s i ch (.pin g)).1.apply s i).locals i).epoch :=
          congrArg (fun v => v.2.2.1) hv
        have hgc : l.guardCount = (((exec s i ch (.pin g)).1.apply s i).locals i).guardCount :=
          congrArg (fun v => v.2.1) hv
        rw [pinDone_head hst] at hd
        have hpos := hd'.1
        rw [hgc] at hpos
        rw [hep]
        cases g with
        | load | store e | check e => cases hd.2
        | _ =>
            simp only [exec, execPin] at hpos ⊢
            repeat' split
            all_goals simp_all [Eff.apply]
  | join h₀ hn hc hu hg hs => exact absurd hd'.1 (by omega)
  | leave h₀ hc hu hg hs => exact absurd hd'.1 (by omega)

theorem forced_scan {f : Frame} (h : f.forced = true) : f.isScan = true ∧ f.inPhase .N = false := by
  unfold Frame.forced at h
  split at h
  all_goals first
    | exact ⟨rfl, rfl⟩
    | cases h

theorem forced_next {sc : Scanner} {done : List Oid} {g : Frame} (hg : g ∈ sc.next)
    (h : g.forced = true) : Frame.forced (.help (.scanObjs sc done [])) = true := by
  unfold Scanner.next at hg
  split at hg
  · rw [List.mem_singleton.1 hg] at h
    cases h
  · split at hg
    · rw [List.mem_singleton.1 hg] at h
      exact h
    · cases hg

/-- What is cached was collected in an epoch that is over or still stands, and a helper
whose cell is forced has the set of its own epoch. -/
structure CacheInv (s : St) : Prop where
  stamp : ∀ {t hs e}, (s.locals t).cachedHazards = some (hs, e) →
    e.timestamp ≤ s.epoch.timestamp
  forced : ∀ {t f}, f ∈ (s.locals t).stack → f.forced = true →
    ∃ hs, (s.locals t).cachedHazards = some (hs, (s.locals t).epoch)

theorem CacheInv.init (n : Nat) : CacheInv (St.init n) where
  stamp {t hs e} h := by
    by_cases ht : t = 0 <;> simp [St.init, ht, Local.default] at h
  forced {t f} hf := by
    rw [stack_init] at hf
    cases hf

/-- A frame of a helper that is forced after a step was so before, or its set is at
hand. -/
theorem forced_moves {s : St} {t : Lid} {fs : List Frame} {f g : Frame}
    (hmove : ScanMove s t fs f g) (h : g.forced = true) :
    f.forced = true ∨ (∃ hs, (s.locals t).cachedHazards = some (hs, (s.locals t).epoch)) ∨
    ∃ acc sc done o todo, f = .help (.forceHps (.iter .fin) acc sc done o todo) := by
  cases hmove with
  | start => cases h
  | pick => exact .inl h
  | empty => exact .inl h
  | shard => cases h
  | @pop sc b => cases sc <;> exact .inl h
  | @seen sc sc' done todo o hsc hm =>
      rcases hsc with rfl | ⟨-, hc⟩
      · cases sc' <;> exact .inl h
      · exact .inr (.inl hc)
  | force => cases h
  | @load _ _ sc _ _ _ => cases sc <;> exact .inl h
  | got hm => exact .inr (.inr ⟨_, _, _, _, _, rfl⟩)
  | next hg => exact .inl (forced_next hg h)

theorem timestamp_step {s s' : St} {lab : Label} (hp : PinInv s) (hs : StepCase s lab s') :
    s.epoch.timestamp ≤ s'.epoch.timestamp := by
  cases epochStep hs with
  | same he => rw [he]
  | store hn =>
      have := (hn hp.phase).1
      omega

theorem CacheInv.step {s s' : St} {lab : Label} (h : CacheInv s) (hg : Ground s) (hg' : Ground s')
    (hs : StepCase s lab s') : CacheInv s' where
  stamp {t hs' e} hc := by
    have hmono := timestamp_step hg.pin hs
    rcases cached_step hs t with hsame | ⟨-, hnone⟩ |
      ⟨ch, acc, sc, done, o, todo, rest, -, hstk, hnew⟩
    · exact (h.stamp (hsame ▸ hc)).trans hmono
    · rw [hnone] at hc
      cases hc
    · rw [hnew] at hc
      cases hc
      obtain ⟨m, hm, he⟩ := hg.pin.pins t (hg.sect.head_phase hstk rfl rfl).1
      have hle : m ≤ s.epoch.timestamp := by omega
      rw [he]
      exact ((hg.pin.stamp m hle).le.trans hle).trans hmono
  forced {t g} hmem hf := by
    obtain ⟨hscan, hph⟩ := forced_scan hf
    have hd' := (hg'.sect.mem_phase hmem hph).1
    -- The thread is pinned before the step, since it is past `pin_freshly` after it.
    suffices hold : (s.locals t).pinDone ∧ t < s.nLocals ∧
        ((∃ hs, (s.locals t).cachedHazards = some (hs, (s.locals t).epoch)) ∨
        ∃ ch acc sc done o todo rest, lab = .run t ch ∧
          (s.locals t).stack = .help (.forceHps (.iter .fin) acc sc done o todo) :: rest) by
      obtain ⟨hd, ht, hold⟩ := hold
      rw [(node_step hg.pin.str hs t).epoch_of_pinned hd hd']
      rcases cached_step hs t with hsame | ⟨hge, -⟩ | ⟨_, acc, _, _, _, _, _, -, -, hnew⟩
      · rcases hold with ⟨hs', hc⟩ | ⟨ch, acc, sc, done, o, todo, rest, hl, hstk⟩
        · exact ⟨hs', hsame.trans hc⟩
        · subst hl
          cases hs with
          | @run t ch f rest' ht hstk' =>
              rw [hstk] at hstk'
              cases hstk'
              refine ⟨acc, ?_⟩
              rw [setStack_locals, if_pos rfl]
              simp [exec, execHelp, Eff.apply]
      · exact absurd ht (Nat.not_lt.2 hge)
      · exact ⟨acc, hnew⟩
    rcases scan_frames hg.pin.str hs hmem hscan with hold | ⟨ch, f, rest, hl, hstk, hmove, -⟩ |
      ⟨j, hj, rfl⟩
    · exact ⟨(hg.sect.mem_phase hold hph).1, lt_nLocals_of_mem hg.pin.str hold,
        .inl (h.forced hold hf)⟩
    · have hmem₀ : f ∈ (s.locals t).stack := by
        rw [hstk]
        exact List.mem_cons_self ..
      have ht := lt_nLocals_of_mem hg.pin.str hmem₀
      have hd := (hg.sect.head_phase hstk hmove.guarded.1 hmove.guarded.2).1
      refine ⟨hd, ht, ?_⟩
      rcases forced_moves hmove hf with hf₀ | hc | ⟨acc, sc, done, o, todo, rfl⟩
      · exact .inl (h.forced hmem₀ hf₀)
      · exact .inl hc
      · exact .inr ⟨ch, acc, sc, done, o, todo, rest, hl, hstk⟩
    · cases hf

/-! ## What one slot is worth to the scanners -/

/-- No N epoch was stored since `e`. -/
def St.thisCycle (s : St) (e : Epoch) : Prop :=
  ∀ m, e.timestamp ≤ m → m ≤ s.epoch.timestamp → (s.past m).phase ≠ .N

theorem thisCycle_step {s s' : St} {lab : Label} (hp : PinInv s) (hs : StepCase s lab s')
    {e : Epoch} (h : s'.thisCycle e) : s.thisCycle e := by
  intro m hle hm
  have hpast : s'.past m = s.past m := by
    cases epochStep hs with
    | same he hpast => rw [hpast]
    | store hn hu hw hpast hst =>
        have := (hn hp.phase).1
        rw [hpast, Function.update_of_ne (by omega)]
  rw [← hpast]
  exact h m hle (hm.trans (timestamp_step hp hs))

/-- A thread that is pinned in RT is pinned in the RT of this cycle. -/
theorem thisCycle_of_pinned {s : St} (hp : PinInv s) (hN : s.epoch.phase ≠ .N) {t : Lid}
    (hd : (s.locals t).pinDone) (hRT : (s.locals t).epoch.phase = .RT) :
    s.thisCycle (s.locals t).epoch := by
  obtain ⟨n, hn, he⟩ := hp.pins t hd
  have hstamp := hp.stamp n (by omega)
  intro m hle hm hph
  rw [he] at hle hRT
  have hle' : n ≤ m := hstamp ▸ hle
  have hcase : m = n ∨ m = s.epoch.timestamp := by omega
  rcases hcase with rfl | rfl
  · rw [show (s.past m).phase = .RT from hRT] at hph
    cases hph
  · rw [hp.now] at hph
    exact hN hph

/-- The scanner whose frame this is. -/
def Frame.scanner : Frame → Option Scanner
  | .help (.scanPop sc) | .help (.scanObjs sc _ _) | .help (.forceHps _ _ sc _ _ _) => some sc
  | _ => none

/-- Whoever collects hazards for this cycle is at a point that `S` allows, and the sets
that were collected are such as `K` says. -/
structure Informed (s : St) (S : HpScan → List Oid → Prop) (K : List Oid → Prop) : Prop where
  hps : ∀ {h acc}, s.stage = .hps h acc → S h acc
  spawn : ∀ {hs}, s.stage = .spawnScan hs → K hs
  jobs : ∀ j ∈ s.jobs, K j.2.2
  worker : ∀ {t f lo hi hs}, f ∈ (s.locals t).stack → f.scanner = some (.worker lo hi hs) → K hs
  force : ∀ {t h acc sc done p todo},
    .help (.forceHps h acc sc done p todo) ∈ (s.locals t).stack → S h acc
  cached : ∀ {t hs e}, (s.locals t).cachedHazards = some (hs, e) → s.thisCycle e → K hs

theorem Informed.of_normal {s : St} (hg : Ground s) (hc : CacheInv s) (hN : s.epoch.phase = .N)
    (S : HpScan → List Oid → Prop) (K : List Oid → Prop) : Informed s S K := by
  have hph := hg.pin.phase
  have hjoin : s.stage ≠ .joinScan := by
    intro hst
    rw [hst, hN] at hph
    cases hph
  refine ⟨?_, ?_, ?_, ?_, ?_, ?_⟩
  · intro h acc hst
    rw [hst, hN] at hph
    cases hph
  · intro hs hst
    rw [hst, hN] at hph
    cases hph
  · intro j hj
    exact absurd (hg.sect.jobs (List.ne_nil_of_mem hj)) hjoin
  · intro t f lo hi hs hf hsc
    have hw : f.isWorker = true := by
      unfold Frame.scanner at hsc
      split at hsc
      all_goals cases hsc
      all_goals rfl
    obtain ⟨x, hx, hxe⟩ := hg.sect.worker t f hf hw
    exact absurd (hg.sect.exit t x hx hxe) hjoin
  · intro t h acc sc done p todo hf
    obtain ⟨hd, hRT⟩ := scan_phase hg.sect hf rfl
    rcases normal_pins hg.pin hN hd with ⟨hph', -⟩ | ⟨hph', -⟩ <;> rw [hRT] at hph' <;> cases hph'
  · intro t hs e hcache hcyc
    have hnow := hcyc s.epoch.timestamp (hc.stamp hcache) le_rfl
    rw [hg.pin.now] at hnow
    exact absurd hN hnow

theorem collStep_hps {s : St} {ch : Nat} {e : Eff} {h : HpScan} {acc : List Oid}
    {fs : List Frame} (hcoll : collStep s ch = some (e, .hps h acc, fs)) :
    (h = .iter s.firstNode ∧ acc = []) ∨
    ∃ h₀ acc₀, s.stage = .hps h₀ acc₀ ∧ h = (s.hpStep h₀ acc₀).1 ∧ acc = (s.hpStep h₀ acc₀).2 := by
  cases hst : s.stage with
  | pending it =>
      simp only [collStep, hst] at hcoll
      repeat' split at hcoll
      all_goals cases hcoll
      exact .inl ⟨rfl, rfl⟩
  | hps h₀ acc₀ =>
      simp only [collStep, hst] at hcoll
      split at hcoll
      · cases hcoll
      · cases hcoll
        exact .inr ⟨h₀, acc₀, rfl, rfl, rfl⟩
  | _ =>
      simp only [collStep, hst, St.afterWait] at hcoll
      repeat' split at hcoll
      all_goals cases hcoll

theorem collStep_spawnScan {s : St} {ch : Nat} {e : Eff} {hs : List Oid} {fs : List Frame}
    (hcoll : collStep s ch = some (e, .spawnScan hs, fs)) : s.stage = .hps (.iter .fin) hs := by
  cases hst : s.stage with
  | hps h₀ acc₀ =>
      simp only [collStep, hst] at hcoll
      split at hcoll
      · cases hcoll
        rfl
      · cases hcoll
  | _ =>
      simp only [collStep, hst, St.afterWait] at hcoll
      repeat' split at hcoll
      all_goals cases hcoll

/-- The jobs of the workers are handed out by the collector, with the set it has. -/
theorem jobs_cases {s s' : St} {lab : Label} (hs : StepCase s lab s') {j : Nat × Nat × List Oid}
    (hj : j ∈ s'.jobs) : j ∈ s.jobs ∨ s.stage = .spawnScan j.2.2 := by
  cases hs with
  | @op t op s₁ fs ht hu hst hc hop =>
      rw [setStack_jobs, startOp_jobs hop] at hj
      exact .inl hj
  | @run t ch f rest ht hst =>
      rw [setStack_jobs, apply_jobs (exec_byCollector ..)] at hj
      exact .inl hj
  | @coll ch e st fs hst hcoll =>
      rw [setStack_jobs, withStage_jobs] at hj
      cases hstage : s.stage with
      | spawnScan hs =>
          simp only [collStep, hstage] at hcoll
          cases hcoll
          obtain ⟨r, -, rfl⟩ := List.mem_map.1 hj
          exact .inr rfl
      | _ =>
          refine .inl ?_
          simp only [collStep, hstage] at hcoll
          repeat' split at hcoll
          all_goals first
            | (cases hcoll; done)
            | (cases hcoll; exact hj)
  | @sweep m ch w hw =>
      rw [withSweepers_jobs, apply_jobs (sweepStep_byCollector ..)] at hj
      exact .inl hj
  | @startWorker t lo hi hz js hjs hr hc =>
      rw [setStack_jobs, withJobs_jobs] at hj
      exact .inl (by rw [hjs]; exact List.mem_cons_of_mem _ hj)
  | @register t hr hc =>
      rw [register_jobs] at hj
      exact .inl hj
  | exit ht hu hst hg hh hc => exact .inl hj

theorem worker_next {sc : Scanner} {g : Frame} {lo hi : Nat} {hs : List Oid} (hg : g ∈ sc.next)
    (h : g.scanner = some (.worker lo hi hs)) : ∃ lo', sc = .worker lo' hi hs := by
  unfold Scanner.next at hg
  split at hg
  · rw [List.mem_singleton.1 hg] at h
    cases h
    exact ⟨_, rfl⟩
  · split at hg
    · rw [List.mem_singleton.1 hg] at h
      cases h
    · cases hg

theorem forceHps_not_next {sc sc' : Scanner} {h : HpScan} {acc done todo : List Oid} {o : Oid} :
    Frame.help (.forceHps h acc sc' done o todo) ∉ sc.next := by
  intro hg
  unfold Scanner.next at hg
  split at hg
  · cases List.mem_singleton.1 hg
  · split at hg
    · cases List.mem_singleton.1 hg
    · cases hg

theorem force_worker {sc : Scanner} {lo hi : Nat} {hs : List Oid}
    (h : sc.force = .worker lo hi hs) : sc = .worker lo hi hs := by
  cases sc with
  | worker q hi' hs' => exact h
  | helper q qs k fd => cases h

/-- A worker keeps the set it was given. -/
theorem worker_moves {s : St} {t : Lid} {fs : List Frame} {f g : Frame}
    (hmove : ScanMove s t fs f g) {lo hi : Nat} {hs : List Oid}
    (h : g.scanner = some (.worker lo hi hs)) :
    ∃ lo', f.scanner = some (.worker lo' hi hs) := by
  cases hmove with
  | start | pick | empty | force => cases h
  | shard =>
      cases h
      exact ⟨_, rfl⟩
  | pop | load => exact ⟨_, h⟩
  | @seen sc sc' done todo o hsc hm =>
      rcases hsc with rfl | ⟨rfl, -⟩
      · exact ⟨_, h⟩
      · exact ⟨_, congrArg some (force_worker (Option.some.inj h))⟩
  | got hm => exact ⟨_, congrArg some (force_worker (Option.some.inj h))⟩
  | next hg =>
      obtain ⟨lo', rfl⟩ := worker_next hg h
      exact ⟨lo', rfl⟩

theorem scanner_isScan {f : Frame} {sc : Scanner} (h : f.scanner = some sc) : f.isScan = true := by
  unfold Frame.scanner at h
  split at h
  · rfl
  · rfl
  · rfl
  · cases h

/-- A scan starts, loads and stands while others move; the sets are those of the scans
that have ended. -/
theorem Informed.step {s s' : St} {lab : Label} {S S' : HpScan → List Oid → Prop}
    {K : List Oid → Prop} (h : Informed s S K) (hg : Ground s) (hs : StepCase s lab s')
    (hstart : S (.iter s.firstNode) [])
    (hload : ∀ {h acc}, S h acc → S (s.hpStep h acc).1 (s.hpStep h acc).2)
    (hfin : ∀ {acc}, S (.iter .fin) acc → K acc) (hkeep : ∀ {h acc}, S h acc → S' h acc) :
    Informed s' S' K := by
  have hp := hg.pin.str
  refine ⟨?_, ?_, ?_, ?_, ?_, ?_⟩
  · intro hp' acc hst
    cases cycle_step hs with
    | other hl he hst' => exact hkeep (h.hps (hst'.symm.trans hst))
    | coll hl hstk hcoll hfree he hst' hs' =>
        rw [hst'] at hst
        subst hst
        rcases collStep_hps hcoll with ⟨rfl, rfl⟩ | ⟨h₀, acc₀, hst₀, rfl, rfl⟩
        · exact hkeep hstart
        · exact hkeep (hload (h.hps hst₀))
    | root hst₀ hfix hw he hst' | complete hst₀ hfix hw he hst' | normal hst₀ hfix hw he hst' =>
        rw [hst'] at hst
        cases hst
  · intro hz hst
    cases cycle_step hs with
    | other hl he hst' => exact h.spawn (hst'.symm.trans hst)
    | coll hl hstk hcoll hfree he hst' hs' =>
        rw [hst'] at hst
        subst hst
        exact hfin (h.hps (collStep_spawnScan hcoll))
    | root hst₀ hfix hw he hst' | complete hst₀ hfix hw he hst' | normal hst₀ hfix hw he hst' =>
        rw [hst'] at hst
        cases hst
  · intro j hj
    rcases jobs_cases hs hj with hj | hst
    · exact h.jobs j hj
    · exact h.spawn hst
  · intro t g lo hi hz hmem hsc
    rcases scan_frames hp hs hmem (scanner_isScan hsc) with hold |
      ⟨ch, f, rest, -, hstk, hmove, -⟩ | ⟨j, hj, rfl⟩
    · exact h.worker hold hsc
    · obtain ⟨lo', hsc'⟩ := worker_moves hmove hsc
      exact h.worker (t := t) (f := f) (by rw [hstk]; exact List.mem_cons_self ..) hsc'
    · cases hsc
      exact h.jobs j hj
  · intro t hp' acc sc done p todo hmem
    rcases scan_frames hp hs hmem rfl with hold | ⟨ch, f, rest, -, hstk, hmove, -⟩ | ⟨j, -, hj⟩
    · exact hkeep (h.force hold)
    · generalize hgen : Frame.help (.forceHps hp' acc sc done p todo) = g at hmove
      cases hmove with
      | force hr =>
          cases hgen
          exact hkeep hstart
      | @load h₀ acc₀ sc' done' todo' p' =>
          cases hgen
          have hmem₀ : Frame.help (.forceHps h₀ acc₀ sc done p todo) ∈ (s.locals t).stack := by
            rw [hstk]
            exact List.mem_cons_self ..
          exact hkeep (hload (h.force hmem₀))
      | @next sc' done' g hg' =>
          subst hgen
          exact absurd hg' forceHps_not_next
      | _ => cases hgen
    · cases hj
  · intro t hz e hc hcyc
    have hcyc₀ := thisCycle_step hg.pin hs hcyc
    rcases cached_step hs t with hsame | ⟨-, hnone⟩ |
      ⟨ch, acc, sc, done, p, todo, rest, -, hstk, hnew⟩
    · exact h.cached (hsame.symm.trans hc) hcyc₀
    · rw [hnone] at hc
      cases hc
    · rw [hnew] at hc
      cases hc
      have hmem : Frame.help (.forceHps (.iter .fin) hz sc done p todo) ∈ (s.locals t).stack := by
        rw [hstk]
        exact List.mem_cons_self ..
      exact hfin (h.force hmem)

/-- The set a scanner looks at was collected in this cycle. -/
theorem Informed.consults {s : St} {S : HpScan → List Oid → Prop} {K : List Oid → Prop}
    (h : Informed s S K) (hg : Ground s) (hc : CacheInv s) (hN : s.epoch.phase ≠ .N) {t : Lid}
    {sc : Scanner} {done todo hs : List Oid}
    (hf : .help (.scanObjs sc done todo) ∈ (s.locals t).stack) (hcons : s.consults t hs sc) :
    K hs := by
  obtain ⟨hd, hRT⟩ := scan_phase hg.sect hf rfl
  have hcyc := thisCycle_of_pinned hg.pin hN hd hRT
  cases sc with
  | worker lo hi hs' =>
      obtain rfl : hs = hs' := hcons
      exact h.worker hf rfl
  | helper q qs k fd =>
      cases fd with
      | true =>
          obtain ⟨hs₀, hcache⟩ := hc.forced hf rfl
          have heq : hs = hs₀ := by
            rw [St.consults, hcache] at hcons
            exact hcons
          exact heq ▸ h.cached hcache hcyc
      | false => exact h.cached hcons hcyc

/-- Slot `k` of node `i` names `o`, and whoever collects hazards for this cycle has found
it there or is going to. -/
def Watched (s : St) (i : Lid) (k : Nat) (o : Oid) : Prop :=
  Informed s (s.seesAt i k o) fun hs => o ∈ hs

/-- As long as the slot names the object, the scanners stay informed. -/
theorem Watched.step {s s' : St} {lab : Label} {i : Lid} {k : Nat} {o : Oid} (h : Watched s i k o)
    (hg : Ground s) (hs : StepCase s lab s') (ha : s.slotHolds i k o)
    (ha' : s'.slotHolds i k o) : Watched s' i k o :=
  have hp := hg.pin.str
  Informed.step h hg hs (seesAt_start hp ha) (seesAt_hpStep hp ha) mem_of_seesAt
    (seesAt_keep (slotStep_of_holds hp hs ha) ha ha')

end Cdpt
