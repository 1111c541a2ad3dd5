import Cdpt.Proofs.Batches

/-!
# Objects under construction are private

`alloc` puts a new object into a batch before it unroots its fields, so the object
can be seen by whoever takes the batch while its links are still rooted. That nobody
does is a matter of colours: the batch has the colour the thread allocates in, a
scanner takes batches of its white colour, and the two differ as long as no thread
is left in the N before the scan. `AllocInv` carries this together with what it
takes to keep it: nobody names the object, and the thread that builds it does
nothing else until it is done.

The colours need two facts about other threads, and both are in the modules before:
a scanner that is not a worker has passed `is_tracing_synced`, so it is pinned
beside no thread of the preceding N (`Synced`), and a worker runs while the
collector waits for it, in RT (`Sections`). `allocColor_ne_white` puts them
together. With it there are two ways for a step to touch the object: as one of the
builder's own, which leaves it to the builder, or by scanning the batch it is in,
which is the case the colours exclude.

When the last frame of the allocation has run, the object is like any other, with
all its links unrooted, and its address is a reference of the thread that has made
it.
-/

namespace Cdpt

def ShadeRet.owns (o : Oid) : ShadeRet → Prop
  | .unroot p _ _ => p = o
  | _ => False

/-- The frame belongs to the allocation of `o`. -/
def Frame.owns (o : Oid) : Frame → Prop
  | .ptr (.pushObj p true) | .ptr (.unroot p _) | .ptr (.unrootStore p _ _)
  | .ptr (.allocRet p _) => p = o
  | .ptr (.rcPhase _ r) | .ptr (.shade _ r) | .ptr (.record _ r) | .ptr (.push _ r) => r.owns o
  | _ => False

def Frame.isRet : Frame → Bool
  | .ptr (.allocRet _ _) => true
  | _ => false

theorem isAlloc_of_owns {f : Frame} {o : Oid} (h : f.owns o) : f.isAlloc = true := by
  unfold Frame.owns at h
  split at h
  all_goals first
    | rfl
    | cases h
    | (next r => cases r <;> first | rfl | cases h)

theorem owns_resume {r : ShadeRet} {g : Frame} {o : Oid} (hg : g ∈ r.resume) (h : g.owns o) :
    r.owns o := by
  cases r <;> simp_all [ShadeRet.resume, Frame.owns, ShadeRet.owns]

/-- The frames of an allocation only come from its own. -/
theorem exec_owns {s : St} {t : Lid} {ch : Nat} {f g : Frame} {o : Oid}
    (hg : g ∈ (exec s t ch f).2) (h : g.owns o) : f.owns o ∧ g.isRet = false := by
  have ha := isAlloc_of_owns h
  cases f with
  | pin f =>
      cases f <;> simp only [exec, execPin] at hg <;> (repeat' split at hg) <;>
        simp at hg <;> grind [Frame.isAlloc]
  | ptr f =>
      have hall := List.all_eq_true.1 (execPtr_isAlloc s t ch f) _ hg
      rw [ha] at hall
      cases f with
      | pushObj | flushPush | flushStat | unroot | unrootStore | allocRet  =>
          simp only [exec, execPtr] at hg
          repeat' split at hg
          all_goals grind [Frame.owns, ShadeRet.owns, Frame.isRet]
      | rcPhase o r | shade o r | push o r | record o r =>
          cases r with
          | unroot p i q =>
              simp only [exec, execPtr, ShadeRet.resume] at hg
              repeat' split at hg
              all_goals grind [Frame.owns, ShadeRet.owns, Frame.isRet]
          | _ => cases hall
      | _ => cases hall
  | mark f =>
      cases f <;> simp only [exec, execMark, shadeLink] at hg <;> (repeat' split at hg) <;>
        grind [Frame.owns, ShadeRet.owns]
  | help f =>
      cases f <;> simp only [exec, execHelp, scanObj, scanHazard, Scanner.next] at hg <;>
        (repeat' split at hg) <;> grind [Frame.owns]


theorem startOp_owns {s s₁ : St} {t : Lid} {op : Op} {fs : List Frame} {g : Frame} {o : Oid}
    (h : startOp s t op = some (s₁, fs)) (hg : g ∈ fs) (ho : g.owns o) :
    o = s.nextObj ∧ ∃ cs size k, op = .alloc cs size k := by
  cases op <;> simp only [startOp] at h <;> (repeat' split at h) <;>
    first
    | (cases h; done)
    | (cases h; simp_all [Frame.owns, dropFrames]; done)
    | (cases h; grind [Frame.owns, dropFrames])
    | (obtain ⟨o, -, h⟩ := Option.map_eq_some_iff.1 h
       cases h
       simp_all [Frame.owns])

theorem startOp_alloc {s s₁ : St} {t : Lid} {cs : List Cid} {size : Nat}
    {k : Option (PtrKind × Nat)} {fs : List Frame}
    (h : startOp s t (.alloc cs size k) = some (s₁, fs)) :
    s₁ = s.newObj t cs size (if k.isSome then 1 else 0) ∧
    fs = [.ptr (.pushObj s.nextObj true), .ptr (.unroot s.nextObj 0),
      .ptr (.allocRet s.nextObj k)] ∧ 0 < (s.locals t).guardCount ∧ cs.Nodup ∧
    ∀ c ∈ cs, (s.cells c).isSome = true ∧ s.idleCell c := by
  simp only [startOp] at h
  split at h
  · next hc =>
      cases h
      exact ⟨rfl, rfl, hc⟩
  · cases h

theorem startOp_ret {s s₁ : St} {t : Lid} {op : Op} {fs : List Frame}
    (h : startOp s t op = some (s₁, fs)) : ∀ f ∈ fs.dropLast, f.isRet = false := by
  cases op <;> simp only [startOp] at h <;> (repeat' split at h) <;>
    first
    | (cases h; done)
    | (cases h; simp [Frame.isRet, dropFrames])
    | (obtain ⟨o, -, h⟩ := Option.map_eq_some_iff.1 h
       cases h
       simp)

/-- A frame of an allocation was there before or starts one. -/
theorem own_step {s s' : St} {lab : Label} (hs : StepCase s lab s') {t : Lid}
    {g : Frame} {o : Oid} (hg : g ∈ (s'.locals t).stack) (ho : g.owns o) :
    (∃ f ∈ (s.locals t).stack, f.owns o) ∨
    ∃ cs size k, lab = .op t (.alloc cs size k) ∧ o = s.nextObj := by
  cases hs with
  | @op t' op s₁ fs ht hu hst hc hop =>
      by_cases hi : t = t'
      · subst hi
        rw [setStack_stack_self] at hg
        obtain ⟨h, cs, size, k, rfl⟩ := startOp_owns hop hg ho
        exact .inr ⟨cs, size, k, rfl, h⟩
      · rw [setStack_stack_ne _ _ hi, (startOp_same hop).1.stack] at hg
        exact .inl ⟨g, hg, ho⟩
  | @run t' ch f rest ht hst =>
      by_cases hi : t = t'
      · subst hi
        rw [setStack_stack_self, List.mem_append] at hg
        rcases hg with hg | hg
        · exact .inl ⟨f, by simp [hst], (exec_owns hg ho).1⟩
        · exact .inl ⟨g, by simp [hst, hg], ho⟩
      · rw [setStack_stack_ne _ _ hi, apply_stack] at hg
        exact .inl ⟨g, hg, ho⟩
  | @coll ch e st fs hst hcoll =>
      by_cases hi : t = s.collector
      · subst hi
        rw [setStack_stack_self] at hg
        rcases (collStep_guards hcoll).2 with rfl | rfl | ⟨rfl, -⟩ | ⟨p, rfl, -⟩ <;>
          simp only [List.mem_cons, List.not_mem_nil, or_false] at hg
        · subst hg
          cases ho
        · rcases hg with rfl | rfl <;> cases ho
        · subst hg
          cases ho
      · rw [setStack_stack_ne _ _ hi, withStage_locals, apply_stack] at hg
        exact .inl ⟨g, hg, ho⟩
  | sweep hw =>
      rw [withSweepers_locals, apply_stack] at hg
      exact .inl ⟨g, hg, ho⟩
  | @startWorker t' lo hi hz js hj hr hc =>
      by_cases hi' : t = t'
      · subst hi'
        rw [setStack_stack_self] at hg
        simp only [List.mem_cons, List.not_mem_nil, or_false] at hg
        rcases hg with rfl | rfl | rfl | rfl | rfl <;> cases ho
      · rw [setStack_stack_ne _ _ hi'] at hg
        exact .inl ⟨g, register_stack hg, ho⟩
  | register hr hc => exact .inl ⟨g, register_stack hg, ho⟩
  | @exit t' ht hu hst hgc hh hc =>
      simp only [setLocal_locals] at hg
      split at hg
      · next hi => exact .inl ⟨g, hi ▸ hg, ho⟩
      · exact .inl ⟨g, hg, ho⟩

/-- A scanner and a thread in an allocation never mean the same colour. -/
theorem allocColor_ne_white {s : St} (hp : PinInv s) {t t' : Lid} (hd : (s.locals t).pinDone)
    (hd' : (s.locals t').pinDone) (hRT : (s.locals t').epoch.phase = .RT) (hq : s.quiet t') :
    s.allocColor t ≠ s.white t' := by
  have hne : (s.locals t).epoch.phase ≠ .N → (s.locals t).epoch.color = (s.locals t').epoch.color →
      s.allocColor t ≠ s.white t' := by
    intro hN hc
    have : s.allocColor t = (s.white t).flip := by
      unfold St.allocColor
      split
      · next h => exact absurd h hN
      · rfl
    rw [this, St.white, St.white, hc]
    exact Color.flip_ne _
  rcases hp.pins_close hd hd' with he | ⟨e, hnext, ⟨he, he'⟩ | ⟨he', he⟩⟩
  · exact hne (by rw [he, hRT]; simp) (by rw [he])
  · -- the allocation is in the epoch before RT, which the scanner has seen the end of
    have hph : s.epoch.phase = .RT := by rw [he'] at hRT; exact hRT
    have hN : (s.locals t).epoch.phase = .N := by
      have := hnext.2
      rw [he]
      cases hep : e.phase with
      | N => exact hep
      | RT => simp [hep, hph] at this
      | CT => simp [hep, hph] at this
    have := hq t hd hN
    rw [he, he'] at this
    have := hnext.1
    simp only [Epoch.pinned] at *
    omega
  · have hph : e.phase = .RT := by rw [he'] at hRT; exact hRT
    have := hnext.2
    simp only [hph] at this
    refine hne ?_ ?_
    · rw [he]
      simp [Epoch.pinned, this.1]
    · rw [he, he']
      exact this.2


/-! ## Header colours -/

theorem color_apply (e : Eff) (s : St) (t : Lid) (o : Oid) :
    (e.apply s t).color o = s.color o ∨ ∃ c, e = .setColor o c ∧ (e.apply s t).color o = c := by
  cases e with
  | setColor p c =>
      by_cases hp : o = p
      · subst hp
        exact .inr ⟨c, rfl, by simp [Eff.apply, St.setObj, St.color]⟩
      · exact .inl (by simp [Eff.apply, St.setObj, St.color, hp])
  | setLink l q =>
      cases l with
      | cell c => exact .inl rfl
      | field p i =>
          refine .inl ?_
          by_cases hp : o = p
          · subst hp
            simp [Eff.apply, St.setObj, St.color]
          · simp [Eff.apply, St.setObj, St.color, hp]
  | setCount p n | reclaim p =>
      refine .inl ?_
      by_cases hp : o = p
      · subst hp
        simp [Eff.apply, St.setObj, St.color]
      · simp [Eff.apply, St.setObj, St.color, hp]
  | _ => exact .inl rfl

theorem exec_setColor {s : St} {t : Lid} {ch : Nat} {f : Frame} {o : Oid} {c : Color}
    (h : (exec s t ch f).1 = .setColor o c) :
    ∃ hd, f = .mark (.headerCas o hd) ∧ (s.objs o).header = hd ∧ c = s.black t := by
  cases f with
  | pin f => cases f <;> simp only [exec, execPin] at h <;> (repeat' split at h) <;> cases h
  | ptr f => cases f <;> simp only [exec, execPtr] at h <;> (repeat' split at h) <;> cases h
  | mark f =>
      cases f <;> simp only [exec, execMark] at h <;> (repeat' split at h) <;>
        first
        | (cases h; done)
        | (next hh => cases h; exact ⟨_, rfl, hh, rfl⟩)
  | help f => cases f <;> simp only [exec, execHelp] at h <;> (repeat' split at h) <;> cases h

theorem startOp_color {s s₁ : St} {t : Lid} {op : Op} {fs : List Frame}
    (h : startOp s t op = some (s₁, fs)) (o : Oid) :
    s₁.color o = s.color o ∨
    (o = s.nextObj ∧ s₁.color o = s.allocColor t ∧ ∃ cs size k, op = .alloc cs size k) := by
  cases op with
  | alloc cs size k =>
      obtain ⟨rfl, -⟩ := startOp_alloc h
      by_cases ho : o = s.nextObj
      · subst ho
        exact .inr ⟨rfl, by simp [St.newObj, St.color], cs, size, k, rfl⟩
      · exact .inl (by simp [St.newObj, St.color, St.removeCells, ho])
  | _ =>
      refine .inl ?_
      simp only [startOp] at h
      repeat' split at h
      all_goals first
        | (cases h; done)
        | (cases h; rfl)
        | (obtain ⟨o, -, h⟩ := Option.map_eq_some_iff.1 h; cases h; rfl)

/-- A header changes its colour when it is marked, and a new one has the
allocation colour. -/
theorem color_step {s s' : St} {lab : Label} (hs : StepCase s lab s') (o : Oid) :
    s'.color o = s.color o ∨
    (∃ t cs size k, lab = .op t (.alloc cs size k) ∧ o = s.nextObj ∧
      s'.color o = s.allocColor t) ∨
    ∃ t ch hd rest, lab = .run t ch ∧ (s.locals t).stack = .mark (.headerCas o hd) :: rest ∧
      (s.objs o).header = hd ∧ s'.color o = s.black t := by
  cases hs with
  | @op t op s₁ fs ht hu hst hc hop =>
      rcases startOp_color hop o with h | ⟨ho, h, cs, size, k, rfl⟩
      · exact .inl h
      · exact .inr (.inl ⟨t, cs, size, k, rfl, ho, h⟩)
  | @run t ch f rest ht hst =>
      rcases color_apply (exec s t ch f).1 s t o with h | ⟨c, he, h⟩
      · exact .inl h
      · obtain ⟨hd, rfl, hh, rfl⟩ := exec_setColor he
        exact .inr (.inr ⟨t, ch, hd, rest, rfl, hst, hh, h⟩)
  | @coll ch e st fs hst hcoll =>
      refine .inl ((color_apply e s s.collector o).resolve_right ?_)
      rintro ⟨c, rfl, -⟩
      unfold collStep at hcoll
      simp only at hcoll
      repeat' split at hcoll
      all_goals cases hcoll
  | @sweep k ch w hw =>
      refine .inl ((color_apply (sweepStep s w ch).1 s s.collector o).resolve_right ?_)
      rintro ⟨c, he, -⟩
      unfold sweepStep at he
      repeat' split at he
      all_goals cases he
  | @startWorker t lo hi hz js hj hr hc =>
      refine .inl ?_
      show (s.register t).color o = s.color o
      unfold St.register
      split <;> rfl
  | @register t hr hc =>
      refine .inl ?_
      unfold St.register
      split <;> rfl
  | exit ht hu hst hg hh hc => exact .inl rfl


/-! ## Objects under construction -/

/-- An object under construction belongs to one thread, which is pinned and does
nothing else; nobody else can come across it, and the batches that hold it have
the colour the thread allocates in. -/
structure AllocInv (s : St) : Prop where
  lt : ∀ {t f o}, f ∈ (s.locals t).stack → f.owns o → o < s.nextObj
  uniq : ∀ {t t' f f' o}, f ∈ (s.locals t).stack → f.owns o → f' ∈ (s.locals t').stack →
    f'.owns o → t = t'
  alloc : ∀ {t f o}, f ∈ (s.locals t).stack → f.owns o →
    (∀ g ∈ (s.locals t).stack, g.isAlloc = true) ∧ 0 < (s.locals t).guardCount
  last : ∀ t, ∀ f ∈ (s.locals t).stack.dropLast, f.isRet = false
  color : ∀ {t f o}, f ∈ (s.locals t).stack → f.owns o → s.color o = s.allocColor t
  ref : ∀ {t f o}, f ∈ (s.locals t).stack → f.owns o → ¬ s.Ref o
  taken : ∀ {t f o}, f ∈ (s.locals t).stack → f.owns o → ¬ s.Taken o
  batch : ∀ {t f o c}, f ∈ (s.locals t).stack → f.owns o → s.Open c o → c = s.allocColor t
  refLt : ∀ {o}, s.Ref o → o < s.nextObj
  takenLt : ∀ {o}, s.Taken o → o < s.nextObj
  openLt : ∀ {c o}, s.Open c o → o < s.nextObj

theorem isAlloc_plain {f : Frame} (h : f.isAlloc = true) : ∃ g, f = .ptr g := by
  cases f with
  | ptr g => exact ⟨g, rfl⟩
  | _ => cases h

/-- A thread that builds an object is pinned. -/
theorem AllocInv.pinDone {s : St} (h : AllocInv s) {t : Lid} {f : Frame} {o : Oid}
    (hf : f ∈ (s.locals t).stack) (ho : f.owns o) : (s.locals t).pinDone := by
  obtain ⟨hall, hg⟩ := h.alloc hf ho
  refine ⟨hg, fun g hg' => ?_⟩
  obtain ⟨p, rfl⟩ := isAlloc_plain (hall g (List.mem_of_mem_head? hg'))
  rfl

/-- It keeps its epoch, too. -/
theorem AllocInv.pinView_step {s s' : St} {lab : Label} (h : AllocInv s) (hp : PinInv s)
    (hs : StepCase s lab s') {t : Lid} {f : Frame} {o : Oid} (hf : f ∈ (s.locals t).stack)
    (ho : f.owns o) : (s'.locals t).pinView = (s.locals t).pinView := by
  have hd := h.pinDone hf ho
  cases node_step hp.str hs t with
  | same hv _ => exact hv
  | push _ hst =>
      rw [hst] at hf
      cases hf
  | @run ch g rest hst hv _ =>
      obtain ⟨p, rfl⟩ := isAlloc_plain ((h.alloc hf ho).1 g (by simp [hst]))
      rw [hv]
      exact apply_pinView (execPtr_plain s t ch p).1 s t t
  | join h₀ | leave h₀ =>
      rw [h₀] at hf
      cases hf


theorem allocColor_eq {s s' : St} {t : Lid} (h : (s'.locals t).pinView = (s.locals t).pinView) :
    s'.allocColor t = s.allocColor t := by
  have he : (s'.locals t).epoch = (s.locals t).epoch := congrArg (fun v => v.2.2.1) h
  simp only [St.allocColor, St.black, St.white, he]

/-- Addresses are handed out by `alloc`, one at a time. -/
theorem nextObj_cases {s s' : St} {lab : Label} (hs : StepCase s lab s') :
    (s'.nextObj = s.nextObj ∧ ∀ t cs size k, lab ≠ .op t (.alloc cs size k)) ∨
    ∃ t cs size k, lab = .op t (.alloc cs size k) ∧ s'.nextObj = s.nextObj + 1 := by
  cases hs with
  | @op t op s₁ fs ht hu hst hc hop =>
      rw [setStack_nextObj]
      cases op with
      | alloc cs size k =>
          obtain ⟨rfl, -⟩ := startOp_alloc hop
          exact .inr ⟨t, cs, size, k, rfl, rfl⟩
      | _ =>
          refine .inl ⟨?_, fun _ _ _ _ h => by cases h⟩
          simp only [startOp] at hop
          repeat' split at hop
          all_goals first
            | (cases hop; done)
            | (cases hop; rfl)
            | (obtain ⟨o, -, hop⟩ := Option.map_eq_some_iff.1 hop; cases hop; rfl)
  | run ht hst => exact .inl ⟨apply_nextObj .., fun _ _ _ _ h => by cases h⟩
  | coll hst hcoll => exact .inl ⟨apply_nextObj .., fun _ _ _ _ h => by cases h⟩
  | sweep hw => exact .inl ⟨apply_nextObj .., fun _ _ _ _ h => by cases h⟩
  | @startWorker t lo hi hz js hj hr hc =>
      refine .inl ⟨?_, fun _ _ _ _ h => by cases h⟩
      show (s.register t).nextObj = s.nextObj
      unfold St.register
      split <;> rfl
  | @register t hr hc =>
      refine .inl ⟨?_, fun _ _ _ _ h => by cases h⟩
      unfold St.register
      split <;> rfl
  | exit ht hu hst hg hh hc => exact .inl ⟨rfl, fun _ _ _ _ h => by cases h⟩

theorem nextObj_step {s s' : St} {lab : Label} (hs : StepCase s lab s') :
    s.nextObj ≤ s'.nextObj ∧
    (∀ {t cs size k}, lab = .op t (.alloc cs size k) → s'.nextObj = s.nextObj + 1) := by
  rcases nextObj_cases hs with ⟨he, hno⟩ | ⟨t, cs, size, k, -, he⟩
  · exact ⟨Nat.le_of_eq he.symm, fun h => absurd h (hno _ _ _ _)⟩
  · exact ⟨he ▸ Nat.le_succ _, fun _ => he⟩

/-- Nothing that is scanned is under construction. -/
theorem AllocInv.not_scanned {s : St} (h : AllocInv s) (hg : Ground s) {t t' : Lid} {f : Frame}
    {o : Oid} {sc : Scanner} {rest : List Frame} (hf : f ∈ (s.locals t).stack) (ho : f.owns o)
    (hst : (s.locals t').stack = .help (.scanPop sc) :: rest) : ¬ s.Open (s.white t') o := by
  intro hopen
  obtain ⟨hd, -⟩ := hg.sect.head_phase hst rfl rfl
  have hRT := hg.sect.scan_phase hg.pin hst hd
  have hq : s.quiet t' := by
    cases hw : sc.isWorker with
    | false => exact hg.sync.quiet t' _ (by rw [hst]; exact List.mem_cons_self ..) (by
        simp [Frame.afterSync, hw])
    | true =>
        obtain ⟨x, hx, hxe⟩ := hg.sect.worker t' (.help (.scanPop sc)) (by simp [hst]) hw
        have hj := hg.sect.exit t' x hx hxe
        have hph := hg.pin.phase
        rw [hj] at hph
        exact quiet_of_waited hg.pin (by rw [St.waited, hj]; rfl)
          (by rw [of_decide_eq_true hph]; simp) t'
  exact allocColor_ne_white hg.pin (h.pinDone hf ho) hd hRT hq (h.batch hf ho hopen).symm

theorem AllocInv.not_pending {s : St} (h : AllocInv s) (hg : Ground s) {t : Lid} {f : Frame}
    {o : Oid} {it : Iter} (hf : f ∈ (s.locals t).stack) (ho : f.owns o)
    (hst : s.stage = .pending it) (hc : (s.locals s.collector).stack = []) :
    ¬ s.Open (s.white s.collector) o := by
  intro hopen
  obtain ⟨-, hpin⟩ := hg.sect.collector hg.pin hc
  obtain ⟨hd, he, -⟩ := hpin (by rw [hst]; rfl)
  have hph := hg.pin.phase
  rw [hst] at hph
  have hRT : s.epoch.phase = .RT := of_decide_eq_true hph
  have hq : s.quiet s.collector :=
    quiet_of_waited hg.pin (by rw [St.waited, hst]; rfl) (by rw [hRT]; simp) _
  exact allocColor_ne_white hg.pin (h.pinDone hf ho) hd (by rw [he]; exact hRT) hq
    (h.batch hf ho hopen).symm

/-- The frame that finishes an allocation is the last of its thread. -/
theorem AllocInv.last_step {s s' : St} {lab : Label} (h : AllocInv s) (hp : PinInv s)
    (hs : StepCase s lab s') (t : Lid) : ∀ f ∈ (s'.locals t).stack.dropLast, f.isRet = false := by
  intro f hf
  have hrun : ∀ {a b : List Frame}, (∀ g ∈ a, g.isRet = false) →
      (∀ g ∈ b.dropLast, g.isRet = false) → f ∈ (a ++ b).dropLast → f.isRet = false := by
    intro a b ha hb hf
    cases b with
    | nil =>
        rw [List.append_nil] at hf
        exact ha f (List.dropLast_subset _ hf)
    | cons x b =>
        rw [List.dropLast_append_of_ne_nil (by simp), List.mem_append] at hf
        exact hf.elim (ha f) (hb f)
  cases hs with
  | @op t' op s₁ fs ht hu hst hc hop =>
      by_cases hi : t = t'
      · subst hi
        rw [setStack_stack_self] at hf
        exact startOp_ret hop f hf
      · rw [setStack_stack_ne _ _ hi, (startOp_same hop).1.stack] at hf
        exact h.last t f hf
  | @run t' ch g rest ht hst =>
      by_cases hi : t = t'
      · subst hi
        rw [setStack_stack_self] at hf
        refine hrun (fun x hx => ?_) (fun x hx => ?_) hf
        · refine Bool.eq_false_iff.2 fun hr => ?_
          cases x with
          | ptr x =>
              cases x with
              | allocRet o k =>
                  have := (exec_owns (o := o) hx rfl).2
                  cases this
              | _ => cases hr
          | _ => cases hr
        · refine h.last t x ?_
          rw [hst]
          cases rest with
          | nil => cases hx
          | cons y rest => simpa using .inr hx
      · rw [setStack_stack_ne _ _ hi, apply_stack] at hf
        exact h.last t f hf
  | @coll ch e st fs hst hcoll =>
      by_cases hi : t = s.collector
      · subst hi
        rw [setStack_stack_self] at hf
        rcases (collStep_guards hcoll).2 with rfl | rfl | ⟨rfl, -⟩ | ⟨p, rfl, -⟩ <;>
          simp at hf
        subst hf
        rfl
      · rw [setStack_stack_ne _ _ hi, withStage_locals, apply_stack] at hf
        exact h.last t f hf
  | sweep hw =>
      rw [withSweepers_locals, apply_stack] at hf
      exact h.last t f hf
  | @startWorker t' lo hi hz js hj hr hc =>
      by_cases hi' : t = t'
      · subst hi'
        rw [setStack_stack_self] at hf
        simp only [List.dropLast, List.mem_cons, List.not_mem_nil, or_false] at hf
        rcases hf with rfl | rfl | rfl | rfl <;> rfl
      · rw [setStack_stack_ne _ _ hi', withJobs_locals, register_ne s hi'] at hf
        exact h.last t f hf
  | @register t' hr hc =>
      by_cases hi' : t = t'
      · subst hi'
        rcases register_node hp.str hr t with ⟨hne, -⟩ | ⟨-, -, -, hst⟩
        · exact absurd rfl hne
        · rw [hst] at hf
          cases hf
      · rw [register_ne s hi'] at hf
        exact h.last t f hf
  | @exit t' ht hu hst hgc hh hc =>
      simp only [setLocal_locals] at hf
      split at hf
      · next hi => exact h.last t f (hi ▸ hf)
      · exact h.last t f hf

theorem AllocInv.step {s s' : St} {lab : Label} (h : AllocInv s) (hg : Ground s)
    (hs : StepCase s lab s') : AllocInv s' := by
  obtain ⟨hle, hnext⟩ := nextObj_step hs
  have href : ∀ {o}, s'.Ref o → s.Ref o ∨ s.Taken o ∨ ∃ t ch k rest, lab = .run t ch ∧
      (s.locals t).stack = .ptr (.allocRet o k) :: rest := fun hr => by
    rcases ref_step hs hr with hr | ⟨t, f, hf, ho⟩ | hr
    · exact .inl hr
    · exact .inr (.inl (.frame hf ho))
    · exact .inr (.inr hr)
  -- An owner in the new state owned the object before, or starts to build it.
  have hown : ∀ {t f o}, f ∈ (s'.locals t).stack → f.owns o →
      (∃ g ∈ (s.locals t).stack, g.owns o) ∨
      ∃ cs size k, lab = .op t (.alloc cs size k) ∧ o = s.nextObj := own_step hs
  have hnew : ∀ {o}, s.Ref o ∨ s.Taken o ∨ (∃ c, s.Open c o) → o ≠ s.nextObj := by
    rintro o (hr | ht | ⟨c, hb⟩) rfl
    · exact absurd (h.refLt hr) (Nat.lt_irrefl _)
    · exact absurd (h.takenLt ht) (Nat.lt_irrefl _)
    · exact absurd (h.openLt hb) (Nat.lt_irrefl _)
  constructor
  case lt =>
    intro t f o hf ho
    rcases hown hf ho with ⟨g, hg', ho'⟩ | ⟨cs, size, k, hl, rfl⟩
    · exact Nat.lt_of_lt_of_le (h.lt hg' ho') hle
    · rw [hnext hl]
      exact Nat.lt_succ_self _
  case uniq =>
    intro t t' f f' o hf ho hf' ho'
    rcases hown hf ho with ⟨g, hg₁, hg₂⟩ | ⟨cs, size, k, hl, rfl⟩
    · rcases hown hf' ho' with ⟨g', hg₁', hg₂'⟩ | ⟨cs, size, k, hl, rfl⟩
      · exact h.uniq hg₁ hg₂ hg₁' hg₂'
      · exact absurd (h.lt hg₁ hg₂) (Nat.lt_irrefl _)
    · rcases hown hf' ho' with ⟨g', hg₁', hg₂'⟩ | ⟨cs', size', k', hl', -⟩
      · exact absurd (h.lt hg₁' hg₂') (Nat.lt_irrefl _)
      · rw [hl] at hl'
        cases hl'
        rfl
  case alloc =>
    intro t f o hf ho
    rcases hown hf ho with ⟨g, hg₁, hg₂⟩ | ⟨cs, size, k, rfl, rfl⟩
    · have hv := h.pinView_step hg.pin hs hg₁ hg₂
      obtain ⟨hall, hpos⟩ := h.alloc hg₁ hg₂
      refine ⟨?_, by rwa [show (s'.locals t).guardCount = _ from congrArg (fun v => v.2.1) hv]⟩
      cases node_step hg.pin.str hs t with
      | same _ hst =>
          rw [hst]
          exact hall
      | push _ hst =>
          rw [hst] at hg₁
          cases hg₁
      | @run ch x rest hst _ hst' =>
          rw [hst']
          intro y hy
          rcases List.mem_append.1 hy with hy | hy
          · have hx := hall x (by simp [hst])
            obtain ⟨p, rfl⟩ := isAlloc_plain hx
            have := List.all_eq_true.1 (execPtr_isAlloc s t ch p) y hy
            rw [hx] at this
            simpa using this
          · exact hall y (by simp [hst, hy])
      | join h₀ | leave h₀ =>
          rw [h₀] at hg₁
          cases hg₁
    · cases hs with
      | op ht hu hst hc hop =>
          obtain ⟨rfl, rfl, hpos, -⟩ := startOp_alloc hop
          rw [setStack_stack_self, setStack_locals, if_pos rfl]
          exact ⟨by simp [Frame.isAlloc], hpos⟩
  case last => exact fun t => h.last_step hg.pin hs t
  case color =>
    intro t f o hf ho
    rcases hown hf ho with ⟨g, hg₁, hg₂⟩ | ⟨cs, size, k, rfl, rfl⟩
    · rw [allocColor_eq (h.pinView_step hg.pin hs hg₁ hg₂), ← h.color hg₁ hg₂]
      rcases color_step hs o with hc | ⟨t', cs, size, k, -, rfl, -⟩ | ⟨t', ch, hd, rest, -, hst, -⟩
      · exact hc
      · exact absurd (h.lt hg₁ hg₂) (Nat.lt_irrefl _)
      · exact absurd (.frame (t := t') (f := .mark (.headerCas o hd)) (by simp [hst]) rfl)
          (h.ref hg₁ hg₂)
    · cases hs with
      | op ht hu hst hc hop =>
          obtain ⟨rfl, rfl, -⟩ := startOp_alloc hop
          rw [allocColor_eq (s := s) (by rw [setStack_locals, if_pos rfl]; rfl)]
          simp [St.newObj, St.color]
  case ref =>
    intro t f o hf ho hr
    rcases hown hf ho with ⟨g, hg₁, hg₂⟩ | ⟨cs, size, k, rfl, rfl⟩
    · rcases href hr with hr | ht | ⟨t', ch, k, rest, rfl, hst⟩
      · exact h.ref hg₁ hg₂ hr
      · exact h.taken hg₁ hg₂ ht
      · -- the construction is over, and its last frame with it
        have hret : .ptr (.allocRet o k) ∈ (s.locals t').stack := by simp [hst]
        have ht := h.uniq hg₁ hg₂ hret rfl
        subst ht
        have hlast : rest = [] := by
          cases rest with
          | nil => rfl
          | cons x rest =>
              have := h.last t (.ptr (.allocRet o k)) (by simp [hst])
              cases this
        cases hs with
        | run _ hst' =>
            rw [hst] at hst'
            cases hst'
            rw [setStack_stack_self, hlast, List.append_nil] at hf
            cases k <;> cases hf
    · rcases href hr with hr | ht | ⟨t', ch, k, rest, hl, -⟩
      · exact hnew (.inl hr) rfl
      · exact hnew (.inr (.inl ht)) rfl
      · cases hl
  case taken =>
    intro t f o hf ho ht
    rcases hown hf ho with ⟨g, hg₁, hg₂⟩ | ⟨cs, size, k, rfl, rfl⟩
    · rcases taken_step hs ht with ht | ⟨t', ch, sc, rest, -, hst, hb⟩ | ⟨it, hit, hc, hb⟩
      · exact h.taken hg₁ hg₂ ht
      · exact h.not_scanned hg hg₁ hg₂ hst hb
      · exact h.not_pending hg hg₁ hg₂ hit hc hb
    · rcases taken_step hs ht with ht | ⟨t', ch, sc, rest, -, hst, hb⟩ | ⟨it, hit, hc, hb⟩
      · exact hnew (.inr (.inl ht)) rfl
      · exact hnew (.inr (.inr ⟨_, hb⟩)) rfl
      · exact hnew (.inr (.inr ⟨_, hb⟩)) rfl
  case batch =>
    intro t f o c hf ho hb
    rcases hown hf ho with ⟨g, hg₁, hg₂⟩ | ⟨cs, size, k, rfl, rfl⟩
    · rw [allocColor_eq (h.pinView_step hg.pin hs hg₁ hg₂)]
      rcases open_step hs hb with hb | ht | ⟨t', ch, rest, -, hst, rfl⟩
      · exact h.batch hg₁ hg₂ hb
      · exact absurd ht (h.taken hg₁ hg₂)
      · have hpush : .ptr (.pushObj o true) ∈ (s.locals t').stack := by simp [hst]
        rw [h.uniq hg₁ hg₂ hpush rfl]
    · rcases open_step hs hb with hb | ht | ⟨t', ch, rest, hl, -⟩
      · exact absurd rfl (hnew (.inr (.inr ⟨_, hb⟩)))
      · exact absurd rfl (hnew (.inr (.inl ht)))
      · cases hl
  case refLt =>
    intro o hr
    refine Nat.lt_of_lt_of_le ?_ hle
    rcases href hr with hr | ht | ⟨t, ch, k, rest, -, hst⟩
    · exact h.refLt hr
    · exact h.takenLt ht
    · exact h.lt (t := t) (f := .ptr (.allocRet o k)) (by simp [hst]) rfl
  case takenLt =>
    intro o ht
    refine Nat.lt_of_lt_of_le ?_ hle
    rcases taken_step hs ht with ht | ⟨t, ch, sc, rest, -, -, hb⟩ | ⟨it, -, -, hb⟩
    · exact h.takenLt ht
    · exact h.openLt hb
    · exact h.openLt hb
  case openLt =>
    intro c o hb
    refine Nat.lt_of_lt_of_le ?_ hle
    rcases open_step hs hb with hb | ht | ⟨t, ch, rest, -, hst, -⟩
    · exact h.openLt hb
    · exact h.takenLt ht
    · exact h.lt (t := t) (f := .ptr (.pushObj o true)) (by simp [hst]) rfl


theorem AllocInv.init (n : Nat) : AllocInv (St.init n) := by
  have hst : ∀ {t f}, f ∉ ((St.init n).locals t).stack := fun {t f} hf => by
    rw [stack_init] at hf
    cases hf
  have href : ∀ {o}, ¬ (St.init n).Ref o := by
    intro o hr
    have hloc : ∀ {t}, ¬ ((St.init n).locals t).names o := fun {t} h => by
      by_cases ht : t = 0 <;>
        simp [St.init, ht, Local.names, Local.default, List.mem_replicate] at h
    cases hr with
    | cell h ha => cases h
    | field ha => cases ha
    | held h => exact hloc (.inl h)
    | hazard h => exact hloc (.inr (.inl h))
    | oldHazard ha h => exact hloc (.inr (.inr (.inl ⟨_, ha, h⟩)))
    | task h => exact hloc (.inr (.inr (.inr (.inl h))))
    | cached h ho => exact hloc (.inr (.inr (.inr (.inr ⟨_, _, h, ho⟩))))
    | frame hf ho => exact hst hf
    | stage h => cases h
    | job hj ho => cases hj
  have htaken : ∀ {o}, ¬ (St.init n).Taken o := by
    intro o ht
    cases ht with
    | frame hf ho => exact hst hf
    | stage h => cases h
    | marked hb ho => cases hb
    | sweeper hw ho => cases hw
  have hopen : ∀ {c o}, ¬ (St.init n).Open c o := by
    intro c o hb
    cases hb with
    | @own t h => by_cases ht : t = 0 <;> simp [St.init, ht, Local.default] at h
    | flush hf ho => exact hst hf
    | fresh hb ho => cases hb
  exact ⟨fun hf => absurd hf hst, fun hf => absurd hf hst, fun hf => absurd hf hst,
    fun t f hf => by simp [stack_init] at hf, fun hf => absurd hf hst, fun hf => absurd hf hst,
    fun hf => absurd hf hst, fun hf => absurd hf hst, fun hr => absurd hr href,
    fun ht => absurd ht htaken, fun hb => absurd hb hopen⟩

end Cdpt
