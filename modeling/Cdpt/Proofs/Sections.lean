import Cdpt.Proofs.Phases

/-!
# Critical sections along a stack

A thread may hold several guards, and what it still has to do lies on its stack.
`sectOk` reads a stack from the top and says, frame by frame, that a frame which
needs a guard has one and that a frame which belongs to a phase will run in it.
A frame below the last unpin of a section is reached in a section whose phase is
not known yet, so it has to be fit for any.

A section is a pair (`Sect`): the phase if it is known, and the guard count.
Each frame maps the section it starts in to the one it leaves (`Frame.sect`), so
that a stack is checked by one fold. A step replaces the top frame by some
others, and what has to be shown is local: the new frames can run in the section
the old one was in, and lead back to the same one (`sectKeep`). The frames of a
drop come with a pin of their own and can be pushed anywhere, which is how a
value may be dropped inside any operation.

The collector is a thread like the others, with guards that follow its stage. The
workers of the root scan are the one case where the phase of a frame is known
only through the collector: they live while it waits for them, in RT.

The use of all this is `head_phase`: whatever frame a thread runs next, if it
belongs to a phase, the thread's pin is complete and in that phase. Every later
argument that begins with "a thread that is scanning is in RT" ends here.
-/

namespace Cdpt

/-- Frames that run under a guard. -/
def Frame.guarded : Frame → Bool
  | .pin .pin | .pin .workerExit => false
  | .ptr (.cloneLoad _) | .ptr (.inc _ _ _) | .ptr (.publish _ _ _) | .ptr (.acquireHp _)
  | .ptr (.storeHazard _ _) | .ptr (.clearHazard _) => false
  | _ => true

def ShadeRet.isLink : ShadeRet → Bool
  | .link _ _ _ => true
  | _ => false

/-- The phases a frame can run in. A worker of the root scan is always in RT, but
that is known only once it has pinned. -/
def Frame.inPhase : Frame → Phase → Bool
  | .pin (.barrier _), ph | .pin (.observe _), ph => ph = .RT
  | .ptr (.rcPhase _ r), ph | .ptr (.shade _ r), ph | .ptr (.record _ r), ph
  | .ptr (.push _ r), ph => !r.isLink || ph ≠ .N
  | .mark _, ph => ph ≠ .N
  | .help f, ph =>
      match f with
      | .help => true
      | .normalNext _ _ | .normalPop _ _ _ | .sweepObjs _ _ _ _ _ => ph = .N
      | .synced _ | .drainInit | .drain _ | .drainRecord _ | .drainPop _ => ph ≠ .N
      | .scanPop sc => sc.isWorker || ph = .RT
      | .rootNext _ _ _ | .scanObjs _ _ _ | .forceHps _ _ _ _ _ _ => ph = .RT
  | _, _ => true

/-- What is known of the critical section at a point of a stack: its phase, when
the pin that opens it is complete, and the number of guards. -/
abbrev Sect := Option Phase × Nat

def Frame.okIn (p : Sect) (f : Frame) : Prop :=
  (f.guarded = true → 0 < p.2) ∧ ∀ ph, (∀ q ∈ p.1, q = ph) → f.inPhase ph = true

/-- The section after frame `f` has returned. -/
def Frame.sect (p : Sect) (f : Frame) : Sect :=
  (if f.net p.2 = 0 then none else p.1, f.net p.2)

theorem sect_unpin (k : Option Phase) (g : Nat) :
    Frame.sect (k, g) (.pin .unpin) = (if g - 1 = 0 then none else k, g - 1) := rfl

/-- Every frame of a stack is where it can run. -/
def sectOk : Sect → List Frame → Prop
  | _, [] => True
  | p, f :: fs => f.okIn p ∧ sectOk (f.sect p) fs

theorem sectOk_append (fs fs' : List Frame) :
    ∀ p, sectOk p (fs ++ fs') ↔ sectOk p fs ∧ sectOk (fs.foldl Frame.sect p) fs' := by
  induction fs with
  | nil => intro p; simp [sectOk]
  | cons f fs ih =>
      intro p
      rw [List.cons_append, sectOk, sectOk, ih, List.foldl_cons, and_assoc]

/-- What holds whatever the phase holds in each. -/
theorem sectOk_known {ph : Phase} {fs : List Frame} :
    ∀ {g}, sectOk (none, g) fs → sectOk (some ph, g) fs := by
  induction fs with
  | nil => intro _ _; trivial
  | cons f fs ih =>
      rintro g ⟨⟨hg, hp⟩, hfs⟩
      refine ⟨⟨hg, fun q _ => hp q (by simp)⟩, ?_⟩
      unfold Frame.sect at hfs ⊢
      split
      · next h => simpa [h] using hfs
      · next h => exact ih (by simpa [h] using hfs)

/-- The section a thread is in. -/
def Local.sect (l : Local) : Sect := (if l.pinDone then some l.epoch.phase else none, l.guardCount)


/-! ## The frames a step pushes -/

/-- The frames `fs` can run in section `p` and lead back to it. -/
def sectKeep (p : Sect) (fs : List Frame) : Prop := sectOk p fs ∧ fs.foldl Frame.sect p = p

@[simp] theorem sectKeep_nil (p : Sect) : sectKeep p [] := ⟨trivial, rfl⟩

theorem sectKeep.append {p : Sect} {fs fs' : List Frame} (h : sectKeep p fs)
    (h' : sectKeep p fs') : sectKeep p (fs ++ fs') := by
  refine ⟨(sectOk_append ..).2 ⟨h.1, ?_⟩, ?_⟩
  · rw [h.2]
    exact h'.1
  · rw [List.foldl_append, h.2, h'.2]

/-- A frame that moves no guard. -/
def Frame.still (f : Frame) : Prop := ∀ g, f.net g = g

theorem sectKeep.cons {ph : Phase} {g : Nat} {f : Frame} {fs : List Frame} (hf : f.still)
    (hp : f.inPhase ph = true) (h : sectKeep (some ph, g + 1) fs) :
    sectKeep (some ph, g + 1) (f :: fs) := by
  have hsect : f.sect (some ph, g + 1) = (some ph, g + 1) := by simp [Frame.sect, hf (g + 1)]
  refine ⟨⟨⟨fun _ => Nat.succ_pos g, fun q hq => ?_⟩, ?_⟩, ?_⟩
  · rw [← hq ph rfl]
    exact hp
  · rw [hsect]
    exact h.1
  · rw [List.foldl_cons, hsect, h.2]

theorem sectKeep.cons_free {f : Frame} {fs : List Frame} (hf : f.still) (hg : f.guarded = false)
    (hp : ∀ ph, f.inPhase ph = true) (h : sectKeep (none, 0) fs) :
    sectKeep (none, 0) (f :: fs) := by
  have hsect : f.sect (none, 0) = (none, 0) := by simp [Frame.sect, hf 0]
  refine ⟨⟨⟨by simp [hg], fun q _ => hp q⟩, ?_⟩, ?_⟩
  · rw [hsect]
    exact h.1
  · rw [List.foldl_cons, hsect, h.2]

@[simp] theorem still_ptr (f : PtrFrame) : Frame.still (.ptr f) := fun _ => rfl

@[simp] theorem still_mark (f : MarkFrame) : Frame.still (.mark f) := fun _ => rfl

@[simp] theorem still_help (f : HelpFrame) : Frame.still (.help f) := fun _ => rfl

@[simp] theorem still_shadeLink (s : St) (t : Lid) (o : Oid) (i : Nat) (p : ManPtr) :
    (shadeLink s t o i p).still := fun g => net_shadeLink g s t o i p

/-- The frames of a drop pin, so they run anywhere. -/
theorem sectKeep_dropFrames (ph : Phase) (g : Nat) (o : Oid) :
    sectKeep (some ph, g + 1) (dropFrames o) := by
  simp [sectKeep, sectOk, dropFrames, Frame.okIn, Frame.sect, Frame.net, Frame.guarded,
    Frame.inPhase]

theorem sectKeep_dropTemp (ph : Phase) (g : Nat) (p : ManPtr) :
    sectKeep (some ph, g + 1) (dropTemp p) := by
  unfold dropTemp
  split
  · exact sectKeep_dropFrames ph g _
  · exact sectKeep_nil _

/-- A frame that runs in phase `ph` and leaves the guards alone. -/
def Frame.stays (ph : Phase) : Frame → Bool
  | .pin .pin | .pin .unpin => false
  | f => f.inPhase ph

theorem Frame.stays_iff {ph : Phase} {f : Frame} (h : f.stays ph = true) :
    f.still ∧ f.inPhase ph = true := by
  unfold Frame.stays at h
  split at h
  · cases h
  · cases h
  · next h1 h2 =>
      refine ⟨fun g => ?_, h⟩
      unfold Frame.net
      split
      · exact absurd rfl h1
      · exact absurd rfl h2
      · rfl

theorem sectKeep_of_stays {ph : Phase} {g : Nat} {fs : List Frame}
    (h : fs.all (Frame.stays ph) = true) : sectKeep (some ph, g + 1) fs := by
  induction fs with
  | nil => exact sectKeep_nil _
  | cons f fs ih =>
      rw [List.all_cons, Bool.and_eq_true] at h
      exact .cons (Frame.stays_iff h.1).1 (Frame.stays_iff h.1).2 (ih h.2)

@[simp] theorem stays_unrootedOnce (s : St) (t : Lid) (l : Loc) (old new : ManPtr) (k : CasKind)
    (ph : Phase) : Frame.stays ph (.ptr (unrootedOnce s t l old new k)) = true := by
  unfold unrootedOnce
  repeat' split
  all_goals rfl

@[simp] theorem stays_rootedOnce (l : Loc) (old new : ManPtr) (k : CasKind) (ph : Phase) :
    Frame.stays ph (.ptr (rootedOnce l old new k)) = true := by
  unfold rootedOnce
  split <;> rfl

theorem stays_resume {r : ShadeRet} {ph : Phase} (h : (!r.isLink || ph ≠ .N) = true) :
    r.resume.all (Frame.stays ph) = true := by
  cases r with
  | link o i p => simpa [ShadeRet.resume, Frame.stays, Frame.inPhase, ShadeRet.isLink] using h
  | _ => rfl

theorem execPtr_sect {ph : Phase} {f : PtrFrame} (g : Nat) (s : St) (t : Lid) (ch : Nat)
    (h : Frame.inPhase (.ptr f) ph = true) :
    sectKeep (some ph, g + 1) (execPtr s t ch f).2 := by
  cases f with
  | rootedCas l old new k =>
      simp only [execPtr, rootedFail]
      repeat' split
      all_goals first
        | exact sectKeep_of_stays rfl
        | exact (sectKeep_dropTemp ph g new).append (sectKeep_of_stays (by simp))
        | exact .cons (still_ptr _) rfl (sectKeep_dropTemp ph g new)
  | unrootedCas l old new k =>
      refine sectKeep_of_stays ?_
      simp only [execPtr, unrootedFail]
      repeat' split
      all_goals first | rfl | simp
  | rcPhase o r | shade o r | push o r =>
      refine sectKeep_of_stays ?_
      simp only [execPtr]
      repeat' split
      all_goals first | exact stays_resume h | exact (Bool.and_true _).trans h
  | record o r =>
      refine sectKeep_of_stays ?_
      simp only [execPtr, List.all_cons, List.all_nil, Bool.and_true]
      exact h
  | _ =>
      refine sectKeep_of_stays ?_
      simp only [execPtr]
      repeat' split
      all_goals first | rfl | simp

/-- What an operation without a guard does stays outside. -/
theorem execPtr_sect_free {f : PtrFrame} (s : St) (t : Lid) (ch : Nat)
    (h : Frame.guarded (.ptr f) = false) : sectKeep (none, 0) (execPtr s t ch f).2 := by
  cases f with
  | cloneLoad | inc | publish | acquireHp | storeHazard | clearHazard =>
      simp only [execPtr]
      repeat' split
      all_goals first
        | exact sectKeep_nil _
        | exact .cons_free (still_ptr _) rfl (fun _ => rfl) (sectKeep_nil _)
  | _ => cases h

@[simp] theorem stays_shadeLink {ph : Phase} (h : ph ≠ .N) (s : St) (t : Lid) (o : Oid) (i : Nat)
    (p : ManPtr) : (shadeLink s t o i p).stays ph = true := by
  unfold shadeLink
  repeat' split
  all_goals simp [Frame.stays, Frame.inPhase, h]

theorem execMark_sect {ph : Phase} (g : Nat) (s : St) (t : Lid) {f : MarkFrame}
    (h : ph ≠ .N) : sectKeep (some ph, g + 1) (execMark s t f).2 := by
  refine sectKeep_of_stays ?_
  have hm : ∀ f, Frame.stays ph (.mark f) = true := fun f => by simp [Frame.stays, Frame.inPhase, h]
  cases f <;> simp only [execMark] <;> (repeat' split) <;> simp [hm, h]

theorem stays_scanHazard (hs : List Oid) (sc : Scanner) (done : List Oid) (o : Oid)
    (todo : List Oid) : (scanHazard hs sc done o todo).all (Frame.stays .RT) = true := by
  unfold scanHazard
  split <;> rfl

theorem stays_scanObj (s : St) (t : Lid) (sc : Scanner) (done : List Oid) (o : Oid)
    (todo : List Oid) : (scanObj s t sc done o todo).all (Frame.stays .RT) = true := by
  unfold scanObj
  repeat' split
  all_goals first | rfl | exact stays_scanHazard ..

/-- The phase of the thread is the one the frames it pushes run in; a worker has
to be in RT. -/
theorem execHelp_sect {ph : Phase} (g : Nat) (s : St) (t : Lid) (ch : Nat) {f : HelpFrame}
    (hph : (s.locals t).epoch.phase = ph) (h : Frame.inPhase (.help f) ph = true)
    (hw : ∀ sc, f = .scanPop sc → ph = .RT) :
    sectKeep (some ph, g + 1) (execHelp s t ch f).2 := by
  refine sectKeep_of_stays ?_
  cases f with
  | scanObjs sc done todo =>
      cases of_decide_eq_true h
      simp only [execHelp, Scanner.next]
      repeat' split
      all_goals first | rfl | exact stays_scanObj ..
  | forceHps hp acc sc done o todo =>
      cases of_decide_eq_true h
      simp only [execHelp]
      repeat' split
      all_goals first | rfl | exact stays_scanHazard ..
  | scanPop sc =>
      cases hw sc rfl
      simp only [execHelp]
      repeat' split
      all_goals rfl
  | help =>
      simp only [execHelp]
      split
      · next hN =>
          rw [hN] at hph
          cases hph
          rfl
      · next hN =>
          cases ph with
          | N => exact absurd hph hN
          | _ => rfl
  | synced it =>
      simp only [execHelp]
      cases ph with
      | N => cases h
      | _ =>
          repeat' split
          all_goals first | rfl | simp_all
  | _ =>
      simp only [execHelp]
      cases ph <;> first
        | (cases h; done)
        | (repeat' split
           all_goals rfl)


/-! ## A step of a thread -/

theorem sect_none {l : Local} {f : Frame} {r : List Frame} (hs : l.stack = f :: r)
    (hf : f.pinning = true) : l.sect = (none, l.guardCount) := by
  rw [Local.sect, if_neg]
  rw [pinDone_head hs, hf]
  simp

theorem sect_pinned {l : Local} (h : l.pinDone) :
    l.sect = (some l.epoch.phase, l.guardCount - 1 + 1) := by
  rw [Local.sect, if_pos h, Nat.sub_add_cancel h.1]

theorem sect_free {l : Local} (h : l.guardCount = 0) : l.sect = (none, 0) := by
  rw [Local.sect, if_neg fun hd => absurd hd.1 (by omega), h]

theorem sect_eq {l l' : Local} (hg : l'.guardCount = l.guardCount) (he : l'.epoch = l.epoch)
    (hd : l'.pinDone ↔ l.pinDone) : l'.sect = l.sect := by
  simp only [Local.sect, hg, he, hd]

theorem pinDone_of_tail {l : Local} {a b : List Frame} (hs : l.stack = a ++ b)
    (hfs : ∀ f ∈ a, f.pinning = false) (hrest : ∀ f ∈ b, f.pinning = false) :
    l.pinDone ↔ 0 < l.guardCount := by
  refine and_iff_left fun f hf => ?_
  have := List.mem_of_mem_head? hf
  rw [hs, List.mem_append] at this
  exact this.elim (hfs f) (hrest f)

/-- A frame outside the pin protocol leaves its thread in the section it is in. -/
theorem sect_run_plain {s : St} {t : Lid} {ch : Nat} {f : Frame} {rest : List Frame} {l : Local}
    (hstr : (s.locals t).Str) (hst : (s.locals t).stack = f :: rest)
    (he : (exec s t ch f).1.pinFree = true) (hp : (exec s t ch f).2.all Frame.plain = true)
    (hf : f.pinning = false)
    (hv : l.pinView = (((exec s t ch f).1.apply s t).locals t).pinView)
    (hs : l.stack = (exec s t ch f).2 ++ rest) : l.sect = (s.locals t).sect := by
  have hrest : ∀ f' ∈ rest, f'.pinning = false := by simpa [hst] using hstr.tail
  rw [apply_pinView he] at hv
  have hg : l.guardCount = (s.locals t).guardCount := congrArg (fun v => v.2.1) hv
  refine sect_eq hg (congrArg (fun v => v.2.2.1) hv) ?_
  rw [pinDone_of_tail hs (plain_pinning hp).1 hrest, pinDone_head hst, hg]
  simp only [hf, and_true]

theorem sect_of_keep {p : Sect} {f : Frame} {fs rest : List Frame} (hf : f.sect p = p)
    (h : sectOk p (f :: rest)) (hk : sectKeep p fs) : sectOk p (fs ++ rest) := by
  refine (sectOk_append ..).2 ⟨hk.1, ?_⟩
  rw [hk.2, ← hf]
  exact h.2

theorem still_sect {f : Frame} (hf : f.still) {p : Sect} (hp : p.2 = 0 → p.1 = none) :
    f.sect p = p := by
  rcases p with ⟨k, g⟩
  simp only [Frame.sect, hf g]
  split
  · next h => exact congrArg (·, g) (hp h).symm
  · rfl

theorem sect_wf (l : Local) : l.sect.2 = 0 → l.sect.1 = none := by
  intro h
  rw [sect_free h]

theorem sect_head {l : Local} {f : Frame} {rest : List Frame} (hs : l.stack = f :: rest)
    (hf : f.pinning = false) :
    l.sect = (none, 0) ∨ (l.pinDone ∧ l.sect = (some l.epoch.phase, l.guardCount - 1 + 1)) := by
  rcases Nat.eq_zero_or_pos l.guardCount with h | h
  · exact .inl (sect_free h)
  · have hd : l.pinDone := (pinDone_head hs).2 ⟨h, hf⟩
    exact .inr ⟨hd, sect_pinned hd⟩

/-- A frame that needs a guard finds its thread pinned. -/
theorem sect_under {l : Local} {f : Frame} {rest : List Frame} (hs : l.stack = f :: rest)
    (hf : f.pinning = false) (hg : 0 < l.sect.2) :
    l.pinDone ∧ l.sect = (some l.epoch.phase, l.guardCount - 1 + 1) :=
  (sect_head hs hf).resolve_left fun h => by
    rw [h] at hg
    exact absurd hg (Nat.lt_irrefl 0)

theorem sect_run_keep {l l' : Local} {f : Frame} {fs rest : List Frame}
    (hrest : ∀ f' ∈ rest, f'.pinning = false) (hd : l.pinDone) (hs : l'.stack = fs ++ rest)
    (hg : l'.guardCount = l.guardCount) (he : l'.epoch = l.epoch)
    (hfs : ∀ f' ∈ fs, f'.pinning = false) (hf : f.still) (hok : sectOk l.sect (f :: rest))
    (hk : sectKeep (some l.epoch.phase, l.guardCount - 1 + 1) fs) : sectOk l'.sect l'.stack := by
  have hl : l'.sect = l.sect := by
    refine sect_eq hg he ?_
    rw [pinDone_of_tail hs hfs hrest, hg]
    exact iff_of_true hd.1 hd
  rw [hl, hs]
  exact sect_of_keep (still_sect hf (sect_wf l)) hok (by rwa [sect_pinned hd])

theorem sect_run_pin {s : St} {t : Lid} {ch : Nat} {f : PinFrame} {rest : List Frame} {l : Local}
    (hstr : (s.locals t).Str) (hst : (s.locals t).stack = .pin f :: rest)
    (hok : sectOk (s.locals t).sect (.pin f :: rest))
    (hv : l.pinView = (((exec s t ch (.pin f)).1.apply s t).locals t).pinView)
    (hs : l.stack = (exec s t ch (.pin f)).2 ++ rest) : sectOk l.sect l.stack := by
  have hrest : ∀ f' ∈ rest, f'.pinning = false := by simpa [hst] using hstr.tail
  have hgc : l.guardCount = (((exec s t ch (.pin f)).1.apply s t).locals t).guardCount :=
    congrArg (fun v => v.2.1) hv
  have hep : l.epoch = (((exec s t ch (.pin f)).1.apply s t).locals t).epoch :=
    congrArg (fun v => v.2.2.1) hv
  obtain ⟨⟨hg, hin⟩, hnext⟩ := hok
  cases f with
  | pin =>
      simp only [exec, execPin] at hs hgc hep
      split at hs
      · next h0 =>
          simp only [h0, if_true, Eff.apply, setLocal_locals] at hgc hep
          rw [hs, sect_none (l := l) (r := rest) hs rfl, hgc]
          refine ⟨⟨fun _ => Nat.one_pos, fun _ _ => rfl⟩, ?_⟩
          rw [sect_free h0] at hnext
          simpa [Frame.sect, Frame.net] using hnext
      · next h0 =>
          simp only [h0, if_false, Eff.apply, setLocal_locals, if_true] at hgc hep
          have hd : (s.locals t).pinDone := (pinDone_head hst).2 ⟨Nat.pos_of_ne_zero h0, rfl⟩
          have hd' : l.pinDone := (pinDone_of_tail (a := []) hs (by simp) hrest).2 (by omega)
          rw [hs, Local.sect, if_pos hd', hgc, hep]
          rw [Local.sect, if_pos hd] at hnext
          simpa [Frame.sect, Frame.net] using hnext
  | load | store e =>
      simp only [exec, execPin, Eff.apply, setLocal_locals, if_true] at hs hgc
      rw [sect_none hst rfl] at hnext hg
      rw [hs, sect_none (l := l) (r := rest) hs rfl, hgc]
      rw [still_sect (fun _ => rfl) (fun _ => rfl)] at hnext
      refine ⟨⟨fun _ => hg rfl, fun _ _ => rfl⟩, ?_⟩
      rw [still_sect (fun _ => rfl) (fun _ => rfl)]
      exact hnext
  | check e =>
      rw [sect_none hst rfl] at hnext hg
      have hpos : 0 < (s.locals t).guardCount := hg rfl
      have hgc' : l.guardCount = (s.locals t).guardCount := by
        rw [hgc]
        simp only [exec, execPin]
        repeat' split
        all_goals simp [Eff.apply]
      have hep' : l.epoch = (s.locals t).epoch := by
        rw [hep]
        simp only [exec, execPin]
        repeat' split
        all_goals simp [Eff.apply]
      have hch : (s.locals t).epoch = e.pinned := hstr.check e (by rw [hst]; rfl)
      have hk : sectOk (none, (s.locals t).guardCount) rest := by
        rwa [still_sect (fun _ => rfl) (fun _ => rfl)] at hnext
      simp only [exec, execPin] at hs
      split at hs
      · split at hs
        · next hRT =>
            have hd : l.pinDone := by
              rw [pinDone_head (l := l) hs, hgc']
              exact ⟨hpos, rfl⟩
            have hph : l.epoch.phase = .RT := by
              rw [hep', hch]
              exact hRT.2
            rw [hs, sect_pinned hd, hph]
            have hkeep : sectKeep (some .RT, l.guardCount - 1 + 1)
                [.pin (.barrier 0), .pin (.observe e)] := sectKeep_of_stays rfl
            refine (sectOk_append ..).2 ⟨hkeep.1, ?_⟩
            rw [hkeep.2, hgc', Nat.sub_add_cancel hpos]
            exact sectOk_known hk
        · have hd : l.pinDone := (pinDone_of_tail (a := []) hs (by simp) hrest).2 (by omega)
          rw [hs, Local.sect, if_pos hd, hgc']
          exact sectOk_known hk
      · rw [hs, sect_none (l := l) (r := rest) hs rfl, hgc']
        refine ⟨⟨fun _ => hpos, fun _ _ => rfl⟩, ?_⟩
        rw [still_sect (fun _ => rfl) (fun _ => rfl)]
        exact hk
  | barrier i =>
      have hsect := sect_under hst rfl (hg rfl)
      have hph : (s.locals t).epoch.phase = .RT :=
        of_decide_eq_true (hin _ (by rw [hsect.2]; simp))
      have hkeep : sectKeep (some .RT, (s.locals t).guardCount - 1 + 1)
          (exec s t ch (.pin (.barrier i))).2 := by
        simp only [exec, execPin]
        repeat' split
        · exact sectKeep_nil _
        · exact sectKeep_of_stays rfl
        · simp [sectKeep, sectOk, Frame.okIn, Frame.sect, Frame.net, Frame.guarded, Frame.inPhase]
      refine sect_run_keep hrest hsect.1 hs ?_ ?_ ?_ (fun _ => rfl) ⟨⟨hg, hin⟩, hnext⟩
        (hph.symm ▸ hkeep)
      · rw [hgc]
        simp only [exec, execPin]
        repeat' split
        all_goals rfl
      · rw [hep]
        simp only [exec, execPin]
        repeat' split
        all_goals rfl
      · simp only [exec, execPin]
        repeat' split
        all_goals simp [Frame.pinning]
  | observe e | helpIf =>
      have hsect := sect_under hst rfl (hg rfl)
      refine sect_run_keep hrest hsect.1 hs ?_ ?_ ?_ (fun _ => rfl) ⟨⟨hg, hin⟩, hnext⟩ ?_
      · rw [hgc]
        simp [exec, execPin, Eff.apply]
      · rw [hep]
        simp [exec, execPin, Eff.apply]
      · simp only [exec, execPin]
        repeat' split
        all_goals simp [Frame.pinning]
      · simp only [exec, execPin]
        repeat' split
        all_goals exact sectKeep_of_stays rfl
  | unpin =>
      obtain ⟨hd, hsect⟩ := sect_under hst rfl (hg rfl)
      simp only [exec, execPin] at hs hgc hep
      rw [Local.sect, if_pos hd, sect_unpin] at hnext
      split at hs
      · next h1 =>
          simp only [h1, if_true, Eff.apply, setLocal_locals] at hgc
          rw [hs, sect_free hgc]
          simpa [h1] using hnext
      · next h1 =>
          have hpos := hd.1
          simp only [h1, if_false, Eff.apply, setLocal_locals, if_true] at hgc hep
          have hd' : l.pinDone := (pinDone_of_tail (a := []) hs (by simp) hrest).2 (by omega)
          rw [hs, Local.sect, if_pos hd', hgc, hep]
          rwa [if_neg (by omega)] at hnext
  | workerExit =>
      have hx : (s.locals t).guardCount = 0 ∧ rest = [] := by
        simpa [hst, exitOk, Frame.isExit] using hstr.exit
      rw [hs, hx.2]
      trivial

theorem sect_run {s : St} {t : Lid} (ch : Nat) {f : Frame} {rest : List Frame} {l : Local}
    (hstr : (s.locals t).Str) (hst : (s.locals t).stack = f :: rest)
    (hok : sectOk (s.locals t).sect (f :: rest))
    (hw : ∀ sc, f = .help (.scanPop sc) → (s.locals t).pinDone → (s.locals t).epoch.phase = .RT)
    (hv : l.pinView = (((exec s t ch f).1.apply s t).locals t).pinView)
    (hs : l.stack = (exec s t ch f).2 ++ rest) : sectOk l.sect l.stack := by
  have hplain : f.still → f.pinning = false → (exec s t ch f).1.pinFree = true →
      (exec s t ch f).2.all Frame.plain = true → sectKeep (s.locals t).sect (exec s t ch f).2 →
      sectOk l.sect l.stack := by
    intro hf hf' he hp hk
    rw [sect_run_plain hstr hst he hp hf' hv hs, hs]
    exact sect_of_keep (still_sect hf (sect_wf _)) hok hk
  obtain ⟨⟨hg, hin⟩, -⟩ := id hok
  have hph : ∀ {g}, (s.locals t).sect = (some (s.locals t).epoch.phase, g) →
      f.inPhase (s.locals t).epoch.phase = true := fun h => hin _ (by rw [h]; simp)
  cases f with
  | pin f => exact sect_run_pin hstr hst hok hv hs
  | ptr f =>
      refine hplain (still_ptr f) rfl (execPtr_plain s t ch f).1 (execPtr_plain s t ch f).2 ?_
      rcases sect_head hst rfl with h0 | ⟨-, hsd⟩
      · rw [h0] at hg ⊢
        refine execPtr_sect_free s t ch (Bool.eq_false_iff.2 fun hc => ?_)
        exact absurd (hg hc) (Nat.lt_irrefl 0)
      · rw [hsd]
        exact execPtr_sect _ s t ch (hph hsd)
  | mark f =>
      have hsd := (sect_under hst rfl (hg rfl)).2
      refine hplain (still_mark f) rfl (execMark_plain s t f).1 (execMark_plain s t f).2 ?_
      rw [hsd]
      exact execMark_sect _ s t (by simpa [Frame.inPhase] using hph hsd)
  | help f =>
      obtain ⟨hd, hsd⟩ := sect_under hst rfl (hg rfl)
      refine hplain (still_help f) rfl (execHelp_plain s t ch f).1 (execHelp_plain s t ch f).2 ?_
      rw [hsd]
      exact execHelp_sect _ s t ch rfl (hph hsd) fun sc hsc => hw sc (by rw [hsc]) hd

/-! ## Operations and the collector -/

theorem startOp_sect {s s₁ : St} {t : Lid} {o : Op} {fs : List Frame}
    (hst : (s.locals t).stack = []) (h : startOp s t o = some (s₁, fs)) :
    sectOk (s.locals t).sect fs := by
  have hpos : 0 < (s.locals t).guardCount → ∀ {fs}, (∀ ph g, sectOk (some ph, g + 1) fs) →
      sectOk (s.locals t).sect fs := fun hg fs hfs => by
    rw [sect_pinned ⟨hg, by simp [hst]⟩]
    exact hfs _ _
  have hfree : ∀ {fs}, sectOk (none, 0) fs → (∀ ph g, sectOk (some ph, g + 1) fs) →
      sectOk (s.locals t).sect fs := fun hfs hfs' => by
    rcases Nat.eq_zero_or_pos (s.locals t).guardCount with h | h
    · rw [sect_free h]
      exact hfs
    · exact hpos h hfs'
  cases o with
  | pin =>
      cases h
      exact hfree ⟨⟨nofun, fun _ _ => rfl⟩, trivial⟩ fun _ _ => ⟨⟨nofun, fun _ _ => rfl⟩, trivial⟩
  | noneNew tag =>
      cases h
      exact trivial
  | dropGuard | repin =>
      simp only [startOp] at h
      split at h
      · next hg =>
          cases h
          exact hpos hg fun _ _ => by
            simp [sectOk, Frame.okIn, Frame.sect, Frame.net, Frame.guarded, Frame.inPhase]
      · cases h
  | helpCollect | alloc =>
      simp only [startOp] at h
      split at h
      · next hg =>
          cases h
          first
            | exact hpos hg fun _ _ => (sectKeep_of_stays rfl).1
            | exact hpos hg.1 fun _ _ => (sectKeep_of_stays rfl).1
      · cases h
  | load p =>
      simp only [startOp] at h
      split at h
      · next hg =>
          obtain ⟨o, -, h⟩ := Option.map_eq_some_iff.1 h
          cases h
          exact hpos hg fun _ _ => (sectKeep_of_stays rfl).1
      · cases h
  | swap | compareExchange =>
      simp only [startOp] at h
      split at h
      · next hg =>
          repeat' split at h
          all_goals cases h
          exact hpos hg fun _ _ => (sectKeep_of_stays rfl).1
      · cases h
  | clone p =>
      simp only [startOp] at h
      repeat' split at h
      all_goals cases h
      exact hfree (sectKeep.cons_free (still_ptr _) rfl (fun _ => rfl) (sectKeep_nil _)).1
        fun _ _ => (sectKeep_of_stays rfl).1
  | asShared | protect | dropHandle =>
      obtain ⟨o, -, h⟩ := Option.map_eq_some_iff.1 h
      cases h
      exact hfree (sectKeep.cons_free (still_ptr _) rfl (fun _ => rfl) (sectKeep_nil _)).1
        fun _ _ => (sectKeep_of_stays rfl).1
  | convert c =>
      simp only [startOp] at h
      repeat' split at h
      all_goals cases h
      exact trivial
  | drop c =>
      simp only [startOp] at h
      repeat' split at h
      all_goals first
        | (cases h; done)
        | (cases h; exact trivial)
        | (cases h
           exact hfree (by simp [dropFrames, sectOk, Frame.okIn, Frame.sect, Frame.net,
             Frame.guarded, Frame.inPhase]) fun ph g => (sectKeep_dropFrames ph g _).1)
  | protectGuard hid =>
      simp only [startOp] at h
      split at h
      · obtain ⟨o, -, h⟩ := Option.map_eq_some_iff.1 h
        cases h
        exact trivial
      · cases h

/-- The guards the collector holds at a stage. -/
def Stage.guards : Stage → Nat
  | .pending _ | .pendPush _ _ _ | .pendStat _ _ | .hps _ _ | .spawnScan _ | .joinScan
  | .find | .steal _ => 1
  | _ => 0

@[simp] theorem guards_afterWait (s : St) : s.afterWait.guards = 0 := by
  unfold St.afterWait
  split <;> rfl

theorem collStep_guards {s : St} {ch : Nat} {e : Eff} {st : Stage} {fs : List Frame}
    (h : collStep s ch = some (e, st, fs)) :
    netGuards s.stage.guards fs = st.guards ∧
    (fs = [] ∨ fs = [.pin .pin] ∨ (fs = [.pin .helpIf, .pin .unpin] ∧ s.stage.guards = 1) ∨
      ∃ o, fs = [.mark (.task o)] ∧ (s.stage = .find ∨ ∃ it, s.stage = .steal it)) := by
  unfold collStep at h
  simp only at h
  repeat' split at h
  all_goals first
    | (cases h; done)
    | (cases h
       have hg := guards_afterWait s
       simp_all [Stage.guards, Frame.net])

/-- The critical sections are where they should be. A worker of the root scan has
its end at the bottom of its stack, and runs only while the collector waits for
its workers, so that its phase is RT. -/
structure SectInv (s : St) : Prop where
  node : ∀ i, sectOk (s.locals i).sect (s.locals i).stack
  coll : netGuards (s.locals s.collector).guardCount (s.locals s.collector).stack = s.stage.guards
  jobs : s.jobs ≠ [] → s.stage = .joinScan
  exit : ∀ i, ∀ f ∈ (s.locals i).stack, f.isExit = true → s.stage = .joinScan
  worker : ∀ i, ∀ f ∈ (s.locals i).stack, f.isWorker = true →
    ∃ f ∈ (s.locals i).stack, f.isExit = true

theorem PinInv.epoch_of_waited {s : St} (h : PinInv s) (hw : s.waited) {i : Lid}
    (hd : (s.locals i).pinDone) : (s.locals i).epoch = s.epoch.pinned := by
  obtain ⟨n, hn, he⟩ := h.pins i hd
  have hf := h.waited hw i hd
  rw [he] at hf
  have hs := h.stamp n (by omega)
  have : n = s.epoch.timestamp := hs.symm.trans hf
  rw [he, this, h.now]

section FrameKinds

variable {p : Frame → Bool}

/-- Pointer operations never push a frame of a helper. -/
theorem execPtr_all (hptr : ∀ f, p (.ptr f) = true) (hmark : ∀ f, p (.mark f) = true)
    (hpin : ∀ f, p (.pin f) = true) (s : St) (t : Lid) (ch : Nat) (f : PtrFrame) :
    (execPtr s t ch f).2.all p = true := by
  have hresume : ∀ r : ShadeRet, r.resume.all p = true := fun r => by
    cases r <;> simp [ShadeRet.resume, hptr, hmark]
  have hdrop : ∀ q, (dropTemp q).all p = true := fun q => by
    unfold dropTemp
    split <;> simp [dropFrames, hptr, hpin]
  cases f <;> simp only [execPtr, rootedFail, unrootedFail] <;> (repeat' split) <;>
    simp [hptr, hresume, hdrop]

theorem execMark_all (hptr : ∀ f, p (.ptr f) = true) (hmark : ∀ f, p (.mark f) = true) (s : St)
    (t : Lid) (f : MarkFrame) : (execMark s t f).2.all p = true := by
  have hlink : ∀ o i q, p (shadeLink s t o i q) = true := fun o i q => by
    unfold shadeLink
    repeat' split
    all_goals simp [hptr, hmark]
  cases f <;> simp only [execMark] <;> (repeat' split) <;> simp [hmark, hlink]

end FrameKinds

/-- A worker frame comes from a worker frame. -/
theorem exec_isWorker (s : St) (t : Lid) (ch : Nat) {f : Frame} (hf : f.isWorker = false) :
    (exec s t ch f).2.all (fun g => !g.isWorker) = true := by
  have hhaz : ∀ {hs sc done o todo}, sc.isWorker = false →
      (scanHazard hs sc done o todo).all (fun g => !g.isWorker) = true := by
    intro hs sc done o todo hsc
    unfold scanHazard
    split <;> simp [Frame.isWorker, hsc]
  have hforce : ∀ {sc : Scanner}, sc.isWorker = false → sc.force.isWorker = false := by
    rintro (_ | _) h <;> simp_all [Scanner.force, Scanner.isWorker]
  cases f with
  | pin f =>
      cases f <;> simp only [exec, execPin] <;> (repeat' split) <;> rfl
  | ptr f => exact execPtr_all (fun _ => rfl) (fun _ => rfl) (fun _ => rfl) s t ch f
  | mark f => exact execMark_all (fun _ => rfl) (fun _ => rfl) s t f
  | help f =>
      cases f with
      | scanObjs sc done todo =>
          have hsc : sc.isWorker = false := hf
          simp only [exec, execHelp, scanObj, Scanner.next]
          repeat' split
          all_goals first
            | rfl
            | exact hhaz rfl
            | exact hhaz hsc
            | exact hhaz (hforce hsc)
            | simp [Frame.isWorker, hsc]
      | forceHps h acc sc done o todo =>
          have hsc : sc.isWorker = false := hf
          simp only [exec, execHelp]
          split
          · exact hhaz (hforce hsc)
          · simp [Frame.isWorker, hsc]
      | scanPop sc =>
          cases sc with
          | worker => cases hf
          | helper =>
              simp only [exec, execHelp]
              split <;> rfl
      | _ =>
          simp only [exec, execHelp]
          repeat' split
          all_goals rfl

theorem sectOk_same {l l' : Local} (h : sectOk l.sect l.stack) (hv : l'.pinView = l.pinView)
    (hs : l'.stack = l.stack) : sectOk l'.sect l'.stack := by
  have hg : l'.guardCount = l.guardCount := congrArg (fun v => v.2.1) hv
  rw [sect_eq hg (congrArg (fun v => v.2.2.1) hv) (by rw [Local.pinDone, Local.pinDone, hg, hs]),
    hs]
  exact h

theorem sectOk_push {l l' : Local} (hst : l.stack = []) (hv : l'.pinView = l.pinView)
    (hp : l'.stack.all Frame.plain = true) (h : sectOk l.sect l'.stack) :
    sectOk l'.sect l'.stack := by
  have hg : l'.guardCount = l.guardCount := congrArg (fun v => v.2.1) hv
  rwa [sect_eq hg (congrArg (fun v => v.2.2.1) hv)]
  rw [pinDone_of_tail (l := l') (a := l'.stack) (b := []) (by simp) (plain_pinning hp).1
    (by simp), pinDone_of_tail (l := l) (a := []) (b := []) hst (by simp) (by simp), hg]

/-- The collector between two calls: pinned as its stage says, and in the current
epoch then. -/
theorem SectInv.collector {s : St} (h : SectInv s) (hp : PinInv s)
    (hst : (s.locals s.collector).stack = []) :
    (s.locals s.collector).guardCount = s.stage.guards ∧
    (s.stage.guards = 1 → (s.locals s.collector).pinDone ∧
      (s.locals s.collector).epoch = s.epoch.pinned ∧ s.epoch.phase ≠ .N) := by
  have hg : (s.locals s.collector).guardCount = s.stage.guards := by
    have := h.coll
    rwa [hst, netGuards_nil] at this
  refine ⟨hg, fun h1 => ?_⟩
  have hd : (s.locals s.collector).pinDone := ⟨by omega, by simp [hst]⟩
  have hw : s.waited := by
    rw [St.waited]
    cases hs : s.stage <;> rw [hs] at h1 <;> first | rfl | cases h1
  refine ⟨hd, hp.epoch_of_waited hw hd, fun hN => ?_⟩
  have := hp.phase
  rw [hN] at this
  cases hs : s.stage <;> rw [hs] at h1 this <;> first | (cases this; done) | cases h1

theorem SectInv.coll_frames {s : St} (h : SectInv s) (hp : PinInv s)
    (hst : (s.locals s.collector).stack = []) {ch : Nat} {e : Eff} {st : Stage} {fs : List Frame}
    (hc : collStep s ch = some (e, st, fs)) : sectOk (s.locals s.collector).sect fs := by
  obtain ⟨hg, hpin⟩ := h.collector hp hst
  rcases (collStep_guards hc).2 with rfl | rfl | ⟨rfl, h1⟩ | ⟨o, rfl, hfind⟩
  · trivial
  · exact ⟨⟨nofun, fun _ _ => rfl⟩, trivial⟩
  · rw [sect_pinned (hpin h1).1]
    simp [sectOk, Frame.okIn, Frame.sect, Frame.net, Frame.guarded, Frame.inPhase]
  · have h1 : s.stage.guards = 1 := by
      rcases hfind with hs | ⟨it, hs⟩ <;> rw [hs] <;> rfl
    obtain ⟨hd, he, hN⟩ := hpin h1
    rw [sect_pinned hd, he]
    refine (sectKeep_of_stays ?_).1
    simpa [Frame.stays, Frame.inPhase, Epoch.pinned] using hN

/-- A scan frame that runs is in RT. -/
theorem SectInv.scan_phase {s : St} (h : SectInv s) (hp : PinInv s) {i : Lid} {sc : Scanner}
    {rest : List Frame} (hst : (s.locals i).stack = .help (.scanPop sc) :: rest)
    (hd : (s.locals i).pinDone) : (s.locals i).epoch.phase = .RT := by
  cases hw : sc.isWorker with
  | false =>
      have hin := (h.node i)
      rw [hst] at hin
      have := hin.1.2 (s.locals i).epoch.phase (by rw [sect_pinned hd]; simp)
      simpa [Frame.inPhase, hw] using this
  | true =>
      obtain ⟨f, hf, hx⟩ := h.worker i (.help (.scanPop sc)) (by simp [hst]) hw
      have hj := h.exit i f hf hx
      rw [hp.epoch_of_waited (by rw [St.waited, hj]; rfl) hd]
      have := hp.phase
      rw [hj] at this
      exact of_decide_eq_true this

theorem SectInv.init (n : Nat) : SectInv (St.init n) := by
  have hst : ∀ i, ((St.init n).locals i).stack = [] := fun i => by
    by_cases h : i = 0 <;> simp [St.init, h, Local.default]
  refine ⟨fun i => ?_, ?_, by simp [St.init], fun i f hf => ?_, fun i f hf => ?_⟩
  · rw [hst]
    trivial
  · rw [hst]
    rfl
  · rw [hst] at hf
    cases hf
  · rw [hst] at hf
    cases hf

theorem SectInv.node_step {s s' : St} {lab : Label} (h : SectInv s) (hp : PinInv s)
    (hs : StepCase s lab s') (i : Lid) : sectOk (s'.locals i).sect (s'.locals i).stack := by
  cases hs with
  | @op t o s₁ fs ht hu hst hc hop =>
      obtain ⟨hsame, hfs⟩ := startOp_same hop
      by_cases hi : i = t
      · subst hi
        refine sectOk_push hst ?_ (by simpa using hfs) (by simpa using startOp_sect hst hop)
        rw [setStack_locals, if_pos rfl]
        exact hsame.view i
      · rw [setStack_stack_ne _ _ hi]
        exact sectOk_same (h.node i) (hsame.view i) (hsame.stack i)
  | @run t ch f rest ht hst =>
      by_cases hi : i = t
      · subst hi
        refine sect_run ch (hp.str.node i) hst (hst ▸ h.node i) ?_ ?_ (by simp)
        · rintro sc rfl hd
          exact h.scan_phase hp hst hd
        · rw [setStack_locals, if_pos rfl]
          rfl
      · rw [setStack_stack_ne _ _ hi]
        exact sectOk_same (h.node i) (exec_pinView_ne s ch f hi) (apply_stack ..)
  | @coll ch e st fs hst hcoll =>
      by_cases hi : i = s.collector
      · subst hi
        refine sectOk_push hst ?_ (by simpa using (collStep_cases hcoll).1)
          (by simpa using h.coll_frames hp hst hcoll)
        rw [setStack_locals, if_pos rfl]
        exact collStep_pinView hcoll _ _
      · rw [setStack_stack_ne _ _ hi]
        exact sectOk_same (h.node i) (collStep_pinView hcoll _ i) (apply_stack e s _ i)
  | @sweep k ch w hw =>
      exact sectOk_same (h.node i) (apply_pinView (sweepStep_pinFree s w ch) s _ i)
        (apply_stack _ s _ i)
  | @startWorker t lo hi hs js hj hr hc =>
      rcases register_node hp.str hr i with ⟨hi', he⟩ | ⟨rfl, hu, hg, -⟩
      · rw [setStack_stack_ne _ _ hi']
        exact sectOk_same (h.node i) (congrArg Local.pinView he) (congrArg Local.stack he)
      · rw [sect_free, setStack_stack_self]
        · simp [sectOk, Frame.okIn, Frame.sect, Frame.net, Frame.guarded, Frame.inPhase,
            Scanner.isWorker]
        · rw [setStack_locals, if_pos rfl]
          exact hg
  | @register t hr hc =>
      rcases register_node hp.str hr i with ⟨-, he⟩ | ⟨rfl, hu, hg, hst⟩
      · exact sectOk_same (h.node i) (congrArg Local.pinView he) (congrArg Local.stack he)
      · rw [hst]
        trivial
  | @exit t ht hu hst hg hh hc =>
      by_cases hi : i = t
      · subst hi
        simp only [setLocal_locals, if_true, hst]
        trivial
      · simpa [hi] using h.node i

theorem collStep_joinScan {s : St} {ch : Nat} {e : Eff} {st : Stage} {fs : List Frame}
    (h : collStep s ch = some (e, st, fs)) :
    (s.stage = .joinScan → s.jobs = [] ∧ s.workersDone) ∧
    ((e.apply s s.collector).jobs = s.jobs ∨ st = .joinScan) := by
  refine ⟨fun hj => ?_, ?_⟩
  · simp only [collStep, hj] at h
    split at h
    · next hd => exact hd
    · cases h
  · unfold collStep at h
    simp only at h
    repeat' split at h
    all_goals first
      | (cases h; done)
      | (cases h; exact .inl rfl)
      | (cases h; exact .inr rfl)

/-- The effects that belong to the collector's own thread. -/
def Eff.byCollector : Eff → Bool
  | .storeEpoch _ | .spawn _ | .spawnSweep _ _ | .confirm | .steal _ _ => true
  | _ => false

theorem exec_byCollector (s : St) (t : Lid) (ch : Nat) (f : Frame) :
    (exec s t ch f).1.byCollector = false := by
  cases f with
  | pin f => cases f <;> simp only [exec, execPin] <;> (repeat' split) <;> rfl
  | ptr f => cases f <;> simp only [exec, execPtr] <;> (repeat' split) <;> rfl
  | mark f => cases f <;> simp only [exec, execMark] <;> (repeat' split) <;> rfl
  | help f => cases f <;> simp only [exec, execHelp] <;> (repeat' split) <;> rfl

theorem sweepStep_byCollector (s : St) (w : Sweeper) (ch : Nat) :
    (sweepStep s w ch).1.byCollector = false := by
  unfold sweepStep
  repeat' split
  all_goals rfl

theorem apply_jobs {e : Eff} (he : e.byCollector = false) (s : St) (t : Lid) :
    (e.apply s t).jobs = s.jobs := by
  cases e with
  | setLink l p => cases l <;> rfl
  | _ => first | (cases he; done) | rfl

theorem startOp_jobs {s s₁ : St} {t : Lid} {o : Op} {fs : List Frame}
    (h : startOp s t o = some (s₁, fs)) : s₁.jobs = s.jobs := by
  cases o <;> simp only [startOp] at h <;> (repeat' split at h) <;>
    first
    | (cases h; done)
    | (cases h; rfl)
    | (obtain ⟨o, -, h⟩ := Option.map_eq_some_iff.1 h; cases h; rfl)

@[simp] theorem register_jobs (s : St) (t : Lid) : (s.register t).jobs = s.jobs := by
  unfold St.register
  split <;> rfl

theorem register_ne (s : St) {t i : Lid} (h : i ≠ t) : (s.register t).locals i = s.locals i := by
  unfold St.register
  split <;> simp [h]

@[simp] theorem register_stage (s : St) (t : Lid) : (s.register t).stage = s.stage := by
  unfold St.register
  split <;> rfl

/-- Workers are set going by the collector and only come from its jobs. -/
theorem SectInv.jobs_step {s s' : St} {lab : Label} (h : SectInv s) (hs : StepCase s lab s') :
    s'.jobs ≠ [] → s'.stage = .joinScan := by
  cases hs with
  | op ht hu hst hc hop =>
      rw [setStack_jobs, setStack_stage, startOp_jobs hop, (startOp_same hop).1.stage]
      exact h.jobs
  | run ht hst =>
      rw [setStack_jobs, setStack_stage, apply_jobs (exec_byCollector ..), apply_stage]
      exact h.jobs
  | coll hst hcoll =>
      rw [setStack_jobs, setStack_stage, withStage_jobs, withStage_stage]
      intro hj
      rcases (collStep_joinScan hcoll).2 with he | hst
      · rw [he] at hj
        exact absurd ((collStep_joinScan hcoll).1 (h.jobs hj)).1 hj
      · exact hst
  | sweep hw =>
      rw [withSweepers_jobs, withSweepers_stage, apply_jobs (sweepStep_byCollector ..), apply_stage]
      exact h.jobs
  | startWorker hj' hr hc =>
      intro _
      rw [setStack_stage, withJobs_stage, register_stage]
      exact h.jobs (by simp [hj'])
  | register hr hc =>
      rw [register_jobs, register_stage]
      exact h.jobs
  | exit ht hu hst hg hh hc => exact h.jobs

theorem PinStr.lt_of_mem {s : St} (h : PinStr s) {i : Lid} {f : Frame}
    (hf : f ∈ (s.locals i).stack) : i < s.nLocals := by
  refine Nat.lt_of_not_le fun hle => ?_
  rw [((h.node i).unused (h.beyond i hle)).2] at hf
  cases hf

/-- The collector does not go on while a worker is left. -/
theorem joinScan_stays {s s' : St} {lab : Label} (hj : s.stage = .joinScan)
    (hb : s.jobs ≠ [] ∨ ¬ s.workersDone) (hs : StepCase s lab s') : s'.stage = .joinScan := by
  cases hs with
  | op ht hu hst hc hop => rw [setStack_stage, (startOp_same hop).1.stage, hj]
  | run ht hst => rw [setStack_stage, apply_stage, hj]
  | coll hst hcoll =>
      obtain ⟨hjobs, hd⟩ := (collStep_joinScan hcoll).1 hj
      exact absurd hb (by simp [hjobs, hd])
  | sweep hw => rw [withSweepers_stage, apply_stage, hj]
  | startWorker hj' hr hc => rw [setStack_stage, withJobs_stage, register_stage, hj]
  | register hr hc => rw [register_stage, hj]
  | exit ht hu hst hg hh hc => exact hj

theorem SectInv.exit_stays {s s' : St} {lab : Label} (h : SectInv s) (hp : PinInv s)
    (hs : StepCase s lab s') {i : Lid} {f : Frame} (hf : f ∈ (s.locals i).stack)
    (hx : f.isExit = true) : s'.stage = .joinScan := by
  refine joinScan_stays (h.exit i f hf hx) (.inr fun hd => ?_) hs
  have := hd i (hp.str.lt_of_mem hf) f hf
  rw [hx] at this
  cases this

/-- The guards of the collector follow its stage. -/
theorem SectInv.coll_step {s s' : St} {lab : Label} (h : SectInv s) (hs : StepCase s lab s') :
    netGuards (s'.locals s.collector).guardCount (s'.locals s.collector).stack =
      s'.stage.guards := by
  have hsame : ∀ {l : Local} {st : Stage}, l.pinView = (s.locals s.collector).pinView →
      l.stack = (s.locals s.collector).stack → st = s.stage →
      netGuards l.guardCount l.stack = st.guards := by
    intro l st hv hst hstage
    rw [show l.guardCount = _ from congrArg (fun v => v.2.1) hv, hst, hstage]
    exact h.coll
  cases hs with
  | op ht hu hst hc hop =>
      rw [setStack_stack_ne _ _ hc.symm]
      have hsm := (startOp_same hop).1
      exact hsame (hsm.view _) (hsm.stack _) hsm.stage
  | @run t ch f rest ht hst =>
      by_cases hi : s.collector = t
      · subst hi
        rw [setStack_stage, apply_stage, setStack_locals, if_pos rfl]
        rw [netGuards_append, exec_net, ← h.coll, hst, netGuards_cons]
      · rw [setStack_stack_ne _ _ hi]
        exact hsame (exec_pinView_ne s ch f hi) (apply_stack ..) (apply_stage ..)
  | @coll ch e st fs hst hcoll =>
      have hg : (s.locals s.collector).guardCount = s.stage.guards := by
        have := h.coll
        rwa [hst, netGuards_nil] at this
      have hg' : ((e.apply s s.collector).locals s.collector).guardCount = s.stage.guards :=
        (congrArg (fun v => v.2.1) (collStep_pinView hcoll s.collector s.collector)).trans hg
      rw [setStack_stage, withStage_stage, setStack_locals, if_pos rfl, withStage_locals]
      rw [← (collStep_guards hcoll).1, ← hg']
  | @sweep k ch w hw =>
      exact hsame (apply_pinView (sweepStep_pinFree s w ch) s _ _) (apply_stack _ s _ _)
        (apply_stage ..)
  | @startWorker t lo hi hs js hj hr hc =>
      rw [setStack_stack_ne _ _ hc.symm, withJobs_locals]
      exact hsame (by rw [register_ne s hc.symm]) (by rw [register_ne s hc.symm])
        (register_stage s t)
  | @register t hr hc =>
      exact hsame (by rw [register_ne s hc.symm]) (by rw [register_ne s hc.symm])
        (register_stage s t)
  | exit ht hu hst hg hh hc => exact hsame (by simp [hc.symm]) (by simp [hc.symm]) rfl

theorem SectInv.step {s s' : St} {lab : Label} (h : SectInv s) (hp : PinInv s)
    (hs : StepCase s lab s') : SectInv s' := by
  have hnode := Cdpt.node_step hp.str hs
  refine ⟨h.node_step hp hs, ?_, h.jobs_step hs, fun i f hf hx => ?_, fun i f hf hw => ?_⟩
  · rw [(step_nLocals hs).2]
    exact h.coll_step hs
  · cases hnode i with
    | same _ hst => exact h.exit_stays hp hs (hst ▸ hf) hx
    | push _ _ _ hfs =>
        rw [(plain_pinning hfs).2 f hf] at hx
        cases hx
    | run _ hst _ hs' =>
        rw [hs', List.mem_append] at hf
        rcases hf with hf | hf
        · rw [(exec_shape ..).2 f hf] at hx
          cases hx
        · exact h.exit_stays hp hs (by rw [hst]; exact List.mem_cons_of_mem _ hf) hx
    | join _ _ _ _ _ hst =>
        rcases hst with hst | ⟨hj, -⟩
        · rw [hst] at hf
          cases hf
        · exact joinScan_stays (h.jobs hj) (.inl hj) hs
    | leave _ _ _ _ hst =>
        rw [hst] at hf
        cases hf
  · cases hnode i with
    | same _ hst =>
        rw [hst] at hf ⊢
        exact h.worker i f hf hw
    | push _ _ _ _ hfs =>
        have := List.all_eq_true.1 hfs f hf
        cases f with
        | help g =>
            cases isEntry_help this
            cases hw
        | _ => cases hw
    | @run ch g rest hst _ hs' =>
        have hwork : ∃ f ∈ (s.locals i).stack, f.isWorker = true := by
          rw [hs', List.mem_append] at hf
          rcases hf with hf | hf
          · refine ⟨g, by simp [hst], Bool.of_not_eq_false fun hg => ?_⟩
            have := List.all_eq_true.1 (exec_isWorker s i ch hg) f hf
            rw [hw] at this
            cases this
          · exact ⟨f, by simp [hst, hf], hw⟩
        obtain ⟨f', hf', hw'⟩ := hwork
        obtain ⟨x, hx, hxe⟩ := h.worker i f' hf' hw'
        rw [hst, List.mem_cons] at hx
        rcases hx with rfl | hx
        · -- the end of a worker runs on an otherwise empty stack
          have hex := (hp.str.node i).exit
          rw [hst, exitOk, if_pos hxe] at hex
          rw [hst, hex.2, List.mem_singleton] at hf'
          subst hf'
          cases f' <;> simp_all [Frame.isExit, Frame.isWorker]
        · exact ⟨x, by rw [hs']; exact List.mem_append_right _ hx, hxe⟩
    | join _ _ _ _ _ hst =>
        rcases hst with hst | ⟨-, lo, hi, hs', hst⟩
        · rw [hst] at hf
          cases hf
        · exact ⟨.pin .workerExit, by simp [hst], rfl⟩
    | leave _ _ _ _ hst =>
        rw [hst] at hf
        cases hf

/-! ## What a frame tells about its thread -/

theorem sectOk_mem {f : Frame} {fs : List Frame} :
    ∀ {p : Sect}, sectOk p fs → f ∈ fs →
      (∃ ph, p.1 = some ph ∧ f.inPhase ph = true) ∨ ∀ ph, f.inPhase ph = true := by
  induction fs with
  | nil => intro _ _ hf; cases hf
  | cons g fs ih =>
      rintro ⟨k, n⟩ ⟨⟨-, hin⟩, hnext⟩ hf
      rcases List.mem_cons.1 hf with rfl | hf
      · cases k with
        | none => exact .inr fun ph => hin ph (by simp)
        | some ph => exact .inl ⟨ph, rfl, hin ph (by simp)⟩
      · rcases ih hnext hf with ⟨ph, hk, hph⟩ | h
        · refine .inl ⟨ph, ?_, hph⟩
          simp only [Frame.sect] at hk
          split at hk
          · cases hk
          · exact hk
        · exact .inr h

/-- A frame that cannot run in every phase is in the section its thread is in. -/
theorem SectInv.mem_phase {s : St} (h : SectInv s) {t : Lid} {f : Frame}
    (hf : f ∈ (s.locals t).stack) {ph : Phase} (hph : f.inPhase ph = false) :
    (s.locals t).pinDone ∧ f.inPhase (s.locals t).epoch.phase = true := by
  rcases sectOk_mem (h.node t) hf with ⟨q, hq, hin⟩ | hall
  · unfold Local.sect at hq
    simp only at hq
    split at hq
    · next hd =>
        cases hq
        exact ⟨hd, hin⟩
    · cases hq
  · rw [hall ph] at hph
    cases hph

/-- A frame that runs under a guard runs in a complete pin. -/
theorem SectInv.head_phase {s : St} (h : SectInv s) {t : Lid} {f : Frame} {rest : List Frame}
    (hst : (s.locals t).stack = f :: rest) (hf : f.pinning = false) (hg : f.guarded = true) :
    (s.locals t).pinDone ∧ f.inPhase (s.locals t).epoch.phase = true := by
  have hok := h.node t
  rw [hst] at hok
  obtain ⟨hd, hs⟩ := sect_under hst hf (hok.1.1 hg)
  exact ⟨hd, hok.1.2 _ (by rw [hs]; simp)⟩

end Cdpt
