import Cdpt.Proofs.Synced

/-!
# Who can come to use an object

`St.Ref s o` lists the places from which the program or the collector may get
hold of `o`: a link, a reference or hazard pointer of a thread, a mark task, a
value in flight. It leaves out two places on purpose. The batches name every
object whether it is reachable or not, and the frames of an allocation name the
object that is being built.

Everything rests on `ref_step`: a step makes nothing known that was not known
before, save an object taken from a batch and one whose construction is over.
It is proved in three layers that mirror how a step is made. An effect writes
what it names and nothing else (`ref_apply`). A frame's effect and the frames it
pushes name only what the frame itself names, what its thread holds, or what it
loads from memory (`exec` and the operations, one lemma for each group). And a
step puts the two together.

So "is it known" can be asked of the state before a step and of the frame alone,
without looking at what the step has written. The two exceptions are what the
following modules are about: objects in batches, of which `Batches` and `Alloc`
say when they are published, and objects in construction, which nobody else can
reach until `Local::new` returns.
-/

namespace Cdpt

section Names

variable (o : Oid)

def ManPtr.names (p : ManPtr) : Prop := p.addr = some o

def Loc.names : Loc → Prop
  | .field p _ => p = o
  | .cell _ => False

def CasKind.names : CasKind → Prop
  | .strong p => p.names o
  | _ => False

def ShadeRet.names : ShadeRet → Prop
  | .insertion l old new k => l.names o ∨ old.names o ∨ new.names o ∨ k.names o
  | .deletion old | .rooted old => old.names o
  | .dropped => False
  | .unroot _ _ q => q.names o
  | .link p _ q => p = o ∨ q.names o

def PtrFrame.names : PtrFrame → Prop
  | .load l | .cloneLoad l => l.names o
  | .swapLoad l new => l.names o ∨ new.names o
  | .casLoad l cur new _ => l.names o ∨ cur.names o ∨ new.names o
  | .incNew l old new k | .rootedCas l old new k | .unrootedCas l old new k =>
      l.names o ∨ old.names o ∨ new.names o ∨ k.names o
  | .rootedDec p | .delPhase p | .ret p => p.names o
  | .dropDec p | .inc p _ _ | .publish p _ _ | .acquireHp p | .storeHazard _ p => p = o
  | .rcPhase p r | .shade p r | .record p r | .push p r => p = o ∨ r.names o
  | .unrootStore _ _ q => q.names o
  | .pushObj _ _ | .flushPush _ _ _ | .flushStat _ | .unroot _ _ | .allocRet _ _
  | .clearHazard _ => False

def MarkFrame.names : MarkFrame → Prop
  | .task p | .links p _ | .header p | .headerCas p _ => p = o
  | .linkCas p _ q => p = o ∨ q.names o

def Scanner.names : Scanner → Prop
  | .worker _ _ hs => o ∈ hs
  | .helper _ _ _ _ => False

def HelpFrame.names : HelpFrame → Prop
  | .scanPop sc | .scanObjs sc _ _ => sc.names o
  | .forceHps _ acc sc _ _ _ => o ∈ acc ∨ sc.names o
  | _ => False

/-- The frame names `o`, other than in a batch or as the object its thread is
building. -/
def Frame.names : Frame → Prop
  | .pin _ => False
  | .ptr f => f.names o
  | .mark f => f.names o
  | .help f => f.names o

def Stage.names : Stage → Prop
  | .hps _ acc => o ∈ acc
  | .spawnScan hs => o ∈ hs
  | _ => False

end Names

/-- Somebody may come to use object `o`. -/
inductive St.Ref (s : St) (o : Oid) : Prop
  | cell {c : Cid} {x : Cell} (h : s.cells c = some x) (ha : x.link.names o)
  | field {p : Oid} {i : Nat} (ha : ((s.objs p).link i).names o)
  | held {t : Lid} (h : o ∈ (s.locals t).held)
  | hazard {t : Lid} (h : some o ∈ (s.locals t).hazards)
  | oldHazard {t : Lid} {a : List (Option Oid)} (ha : a ∈ (s.locals t).oldHazards) (h : some o ∈ a)
  | task {t : Lid} (h : o ∈ (s.locals t).markTasks)
  | cached {t : Lid} {hs : List Oid} {e : Epoch} (h : (s.locals t).cachedHazards = some (hs, e))
      (ho : o ∈ hs)
  | frame {t : Lid} {f : Frame} (hf : f ∈ (s.locals t).stack) (ho : f.names o)
  | stage (h : s.stage.names o)
  | job {j : Nat × Nat × List Oid} (hj : j ∈ s.jobs) (ho : o ∈ j.2.2)

/-- The effect writes `o` somewhere. -/
def Eff.names (o : Oid) : Eff → Prop
  | .hold p => p = some o
  | .setLink _ p | .newCell _ p => p.names o
  | .storeHazard _ v => v = some o
  | .pushTask p => p = o
  | .cacheHazards hs => o ∈ hs
  | .spawn js => ∃ j ∈ js, o ∈ j.2.2
  | _ => False

theorem ref_link {s : St} {l : Loc} {o : Oid} (h : (s.link l).names o) : s.Ref o := by
  cases l with
  | field p i => exact .field h
  | cell c =>
      simp only [St.link] at h
      cases hc : s.cells c with
      | none => simp [hc, ManPtr.null, ManPtr.names] at h
      | some x =>
          rw [hc] at h
          exact .cell hc h

@[simp, grind =] theorem addr_withMeta (p : ManPtr) (m : PtrMeta) :
    (p.withMeta m).addr = p.addr := rfl

@[simp, grind =] theorem names_withMeta (o : Oid) (p : ManPtr) (m : PtrMeta) :
    (p.withMeta m).names o ↔ p.names o := Iff.rfl

theorem names_unrootedOnce {s : St} {t : Lid} {l : Loc} {old new : ManPtr} {k : CasKind} {o : Oid}
    (h : (unrootedOnce s t l old new k).names o) :
    l.names o ∨ old.names o ∨ new.names o ∨ k.names o := by
  unfold unrootedOnce at h
  repeat' split at h
  all_goals simp_all [PtrFrame.names, ShadeRet.names, ManPtr.names]
  tauto

theorem names_resume {r : ShadeRet} {g : Frame} {o : Oid} (hg : g ∈ r.resume) (ho : g.names o) :
    r.names o := by
  cases r <;>
    simp_all [ShadeRet.resume, ShadeRet.names, Frame.names, PtrFrame.names, MarkFrame.names]

theorem names_dropTemp {p : ManPtr} {g : Frame} {o : Oid} (hg : g ∈ dropTemp p) (ho : g.names o) :
    p.names o := by
  unfold dropTemp dropFrames at hg
  split at hg
  · next o' h =>
      simp only [List.mem_cons, List.not_mem_nil, or_false] at hg
      rcases hg with rfl | rfl | rfl | rfl
      · cases ho
      · simpa [Frame.names, PtrFrame.names, ManPtr.names, h] using ho
      · cases ho
      · cases ho
  · cases hg


attribute [grind →] names_unrootedOnce names_resume names_dropTemp
attribute [grind =] ManPtr.names Loc.names CasKind.names ShadeRet.names PtrFrame.names
  MarkFrame.names Scanner.names HelpFrame.names Frame.names

theorem execPtr_names {s : St} {t : Lid} {ch : Nat} {f : PtrFrame} {o : Oid}
    (hf : f.names o → s.Ref o) : ∀ g ∈ (execPtr s t ch f).2, g.names o → s.Ref o := by
  have hl : ∀ l, (s.link l).names o → s.Ref o := fun _ => ref_link
  cases f with
  | rootedCas l old new k =>
      have hl := hl l
      simp only [execPtr, rootedFail]
      repeat' split
      all_goals grind
  | unrootedCas l old new k =>
      have hl := hl l
      simp only [execPtr, unrootedFail]
      repeat' split
      all_goals grind
  | _ =>
      simp only [execPtr]
      repeat' split
      all_goals grind [rootedOnce]

theorem execPtr_writes {s : St} {t : Lid} {ch : Nat} {f : PtrFrame} {o : Oid}
    (hf : f.names o → s.Ref o) :
    (execPtr s t ch f).1.names o → s.Ref o ∨ ∃ k, f = .allocRet o k := by
  have hl : ∀ l, (s.link l).names o → s.Ref o := fun _ => ref_link
  cases f <;> simp only [execPtr] <;> (repeat' split) <;> grind [Eff.names]

theorem names_shadeLink {s : St} {t : Lid} {p : Oid} {i : Nat} {q : ManPtr} {o : Oid}
    (h : (shadeLink s t p i q).names o) : p = o ∨ q.names o := by
  unfold shadeLink at h
  repeat' split at h
  all_goals grind

attribute [grind →] names_shadeLink

theorem execMark_names {s : St} {t : Lid} {f : MarkFrame} {o : Oid} (hf : f.names o → s.Ref o) :
    ∀ g ∈ (execMark s t f).2, g.names o → s.Ref o := by
  have hl : ∀ l, (s.link l).names o → s.Ref o := fun _ => ref_link
  cases f <;> simp only [execMark] <;> (repeat' split) <;> grind

theorem execMark_writes {s : St} {t : Lid} {f : MarkFrame} {o : Oid} (hf : f.names o → s.Ref o) :
    (execMark s t f).1.names o → s.Ref o := by
  cases f <;> simp only [execMark] <;> (repeat' split) <;> grind [Eff.names]

theorem names_scanHazard {hs : List Oid} {sc : Scanner} {done todo : List Oid} {p : Oid} {g : Frame}
    {o : Oid} (hg : g ∈ scanHazard hs sc done p todo) (ho : g.names o) :
    sc.names o ∨ p = o := by
  unfold scanHazard at hg
  split at hg
  all_goals grind

@[grind =] theorem names_force (o : Oid) (sc : Scanner) : sc.force.names o ↔ sc.names o := by
  cases sc <;> rfl

theorem hpStep_names {s : St} {h : HpScan} {acc : List Oid} {o : Oid}
    (ho : o ∈ (s.hpStep h acc).2) : o ∈ acc ∨ s.Ref o := by
  cases h with
  | iter it => cases it <;> exact .inl ho
  | slots i ver j nx =>
      simp only [St.hpStep] at ho
      split at ho
      · exact .inl ho
      · exact .inl ho
      · next p hp =>
          simp only [List.mem_append, List.mem_singleton] at ho
          rcases ho with ho | rfl
          · exact .inl ho
          · refine .inr ?_
            have hm := List.mem_of_getElem? hp
            unfold St.hazardArray at hm
            split at hm
            · exact .hazard hm
            · cases ha : (s.locals i).oldHazards[ver]? with
              | none => simp [ha] at hm
              | some a => exact .oldHazard (List.mem_of_getElem? ha) (by simpa [ha] using hm)

attribute [grind →] names_scanHazard hpStep_names

/-- The objects of batches that are being worked on. -/
def Frame.holds (o : Oid) : Frame → Prop
  | .help (.sweepObjs todo _ _ _ _) => o ∈ todo
  | .help (.scanObjs _ done todo) => o ∈ done ∨ o ∈ todo
  | .help (.forceHps _ _ _ done p todo) => o ∈ done ∨ p = o ∨ o ∈ todo
  | .ptr (.pushObj p false) => p = o
  | _ => False

attribute [grind =] Frame.holds

theorem execHelp_names {s : St} {t : Lid} {ch : Nat} {f : HelpFrame} {o : Oid}
    (hf : f.names o → s.Ref o) :
    ∀ g ∈ (execHelp s t ch f).2, g.names o → s.Ref o ∨ Frame.holds o (.help f) := by
  have htask : o ∈ (s.locals t).markTasks → s.Ref o := .task
  cases f <;> simp only [execHelp, scanObj, Scanner.next] <;> (repeat' split) <;> grind

theorem execHelp_writes {s : St} {t : Lid} {ch : Nat} {f : HelpFrame} {o : Oid}
    (hf : f.names o → s.Ref o) : (execHelp s t ch f).1.names o → s.Ref o := by
  cases f <;> simp only [execHelp, scanObj, Scanner.next] <;> (repeat' split) <;> grind [Eff.names]


/-! ## Effects -/

/-- The references a node holds besides its stack. -/
def Local.names (o : Oid) (l : Local) : Prop :=
  o ∈ l.held ∨ some o ∈ l.hazards ∨ (∃ a ∈ l.oldHazards, some o ∈ a) ∨ o ∈ l.markTasks ∨
    ∃ hs e, l.cachedHazards = some (hs, e) ∧ o ∈ hs

theorem Local.names.ref {s : St} {t : Lid} {o : Oid} (h : (s.locals t).names o) : s.Ref o := by
  rcases h with h | h | ⟨a, ha, h⟩ | h | ⟨hs, e, h, ho⟩
  · exact .held h
  · exact .hazard h
  · exact .oldHazard ha h
  · exact .task h
  · exact .cached h ho

theorem names_apply {e : Eff} {s : St} {t i : Lid} {o : Oid}
    (h : ((e.apply s t).locals i).names o) : s.Ref o ∨ e.names o := by
  have hs : ∀ j, (s.locals j).names o → s.Ref o ∨ e.names o := fun j h => .inl h.ref
  cases e with
  | setLink l p => cases l <;> exact hs i h
  | steal j n =>
      have hi := hs i
      have hj := hs j
      simp only [Eff.apply, setLocal_locals] at h
      have hq : o ∈ (s.locals j).markTasks.take (n + 1) ∨ o ∈ (s.locals j).markTasks.drop (n + 1) →
          (s.locals j).names o := fun h => by
        refine .inr (.inr (.inr (.inl ?_)))
        rcases h with h | h
        · exact List.mem_of_mem_take h
        · exact List.mem_of_mem_drop h
      have ht : o ∈ ((s.locals j).markTasks.take (n + 1)).tail →
          o ∈ (s.locals j).markTasks.take (n + 1) := List.mem_of_mem_tail
      simp only [Local.names] at *
      grind
  | growHazards =>
      have hi := hs i
      simp only [Eff.apply, setLocal_locals] at h
      split at h
      · next ht =>
          subst ht
          simp only [Local.names, List.mem_append, List.mem_replicate, List.mem_singleton] at h hi
          grind
      · exact hi h
  | storeHazard hid v =>
      have hi := hs i
      simp only [Eff.apply, setLocal_locals] at h
      split at h
      · next ht =>
          subst ht
          have hset : some o ∈ (s.locals i).hazards.set hid v →
              some o ∈ (s.locals i).hazards ∨ some o = v := List.mem_or_eq_of_mem_set
          simp only [Local.names] at h hi
          grind [Eff.names]
      · exact hi h
  | clearHazard hid =>
      have hi := hs i
      simp only [Eff.apply, setLocal_locals] at h
      split at h
      · next ht =>
          subst ht
          have hset : some o ∈ (s.locals i).hazards.set hid none →
              some o ∈ (s.locals i).hazards ∨ some o = none := List.mem_or_eq_of_mem_set
          simp only [Local.names] at h hi
          grind
      · exact hi h
  | popTask =>
      have hi := hs i
      simp only [Eff.apply, setLocal_locals] at h
      split at h
      · next ht =>
          subst ht
          have htail : o ∈ (s.locals i).markTasks.tail → o ∈ (s.locals i).markTasks :=
            List.mem_of_mem_tail
          simp only [Local.names] at h hi
          grind
      · exact hi h
  | _ =>
      have hi := hs i
      first
        | exact hi h
        | (simp only [Eff.apply, setLocal_locals] at h
           split at h
           · next ht =>
               subst ht
               simp only [Local.names, List.mem_append, List.mem_singleton] at h hi
               grind [Eff.names]
           · exact hi h)


theorem cells_apply {e : Eff} {s : St} {t : Lid} {c : Cid} {x : Cell} {o : Oid}
    (h : (e.apply s t).cells c = some x) (ha : x.link.names o) : s.Ref o ∨ e.names o := by
  cases e with
  | setLink l p =>
      cases l with
      | field q i => exact .inl (.cell h ha)
      | cell c' =>
          simp only [Eff.apply, Function.update_apply] at h
          split at h
          · obtain ⟨y, -, rfl⟩ := Option.map_eq_some_iff.1 h
            exact .inr ha
          · exact .inl (.cell h ha)
  | newCell k p =>
      simp only [Eff.apply, Function.update_apply] at h
      split at h
      · cases h
        exact .inr ha
      · exact .inl (.cell h ha)
  | _ => exact .inl (.cell h ha)

theorem fields_apply {e : Eff} {s : St} {t : Lid} {p : Oid} {i : Nat} {o : Oid}
    (h : (((e.apply s t).objs p).link i).names o) : s.Ref o ∨ e.names o := by
  have hf : ((s.objs p).link i).names o → s.Ref o ∨ e.names o := fun h => .inl (.field h)
  cases e with
  | setLink l q =>
      cases l with
      | cell c => exact hf h
      | field o' j =>
          simp only [Eff.apply, St.setObj, Function.update_apply] at h
          split at h
          · next hp =>
              subst hp
              simp only [Function.update_apply] at h
              split at h
              · exact .inr h
              · exact hf h
          · exact hf h
  | setColor | setCount | reclaim =>
      simp only [Eff.apply, St.setObj, Function.update_apply] at h
      split at h
      · next hp =>
          subst hp
          exact hf h
      · exact hf h
  | _ => exact hf h

/-- An effect makes known only what it writes. -/
theorem ref_apply {e : Eff} {s : St} {t : Lid} {o : Oid} (h : (e.apply s t).Ref o) :
    s.Ref o ∨ e.names o := by
  cases h with
  | cell h ha => exact cells_apply h ha
  | field ha => exact fields_apply ha
  | held h => exact names_apply (.inl h)
  | hazard h => exact names_apply (.inr (.inl h))
  | oldHazard ha h => exact names_apply (.inr (.inr (.inl ⟨_, ha, h⟩)))
  | task h => exact names_apply (.inr (.inr (.inr (.inl h))))
  | cached h ho => exact names_apply (.inr (.inr (.inr (.inr ⟨_, _, h, ho⟩))))
  | frame hf ho =>
      rw [apply_stack] at hf
      exact .inl (.frame hf ho)
  | stage h =>
      rw [apply_stage] at h
      exact .inl (.stage h)
  | @job j hj ho =>
      cases e with
      | spawn js => exact .inr ⟨j, hj, ho⟩
      | setLink l p => cases l <;> exact .inl (.job hj ho)
      | _ => exact .inl (.job hj ho)

theorem ref_setLocal {s : St} {t : Lid} {l : Local} {o : Oid} (h : (s.setLocal t l).Ref o)
    (hn : l.names o → s.Ref o) (hf : ∀ f ∈ l.stack, f.names o → s.Ref o) : s.Ref o := by
  have hloc : ∀ {i}, ((s.setLocal t l).locals i).names o → s.Ref o := by
    intro i hi
    rw [setLocal_locals] at hi
    split at hi
    · exact hn hi
    · exact hi.ref
  cases h with
  | cell h ha => exact .cell h ha
  | field ha => exact .field ha
  | held h => exact hloc (.inl h)
  | hazard h => exact hloc (.inr (.inl h))
  | oldHazard ha h => exact hloc (.inr (.inr (.inl ⟨_, ha, h⟩)))
  | task h => exact hloc (.inr (.inr (.inr (.inl h))))
  | cached h ho => exact hloc (.inr (.inr (.inr (.inr ⟨_, _, h, ho⟩))))
  | @frame i f hm ho =>
      rw [setLocal_locals] at hm
      split at hm
      · exact hf f hm ho
      · exact .frame hm ho
  | stage h => exact .stage h
  | job hj ho => exact .job hj ho

/-- Only its own frames are new in a node whose stack is replaced. -/
theorem ref_setStack {s : St} {t : Lid} {fs : List Frame} {o : Oid} (h : (s.setStack t fs).Ref o) :
    s.Ref o ∨ ∃ f ∈ fs, f.names o := by
  refine or_iff_not_imp_right.2 fun hn => ref_setLocal h (fun hl => Local.names.ref (t := t) hl) ?_
  exact fun f hf ho => absurd ⟨f, hf, ho⟩ hn

/-! ## Operations -/

theorem ref_localArg {s : St} {t : Lid} {b : Base} {o : Oid} (h : s.localArg t b = some o) :
    s.Ref o := by
  cases b with
  | guard p =>
      simp only [St.localArg] at h
      split at h
      · next hh =>
          cases h
          exact .held hh.2
      · cases h
  | hazard hid =>
      simp only [St.localArg] at h
      cases hq : (s.locals t).hazards[hid]? with
      | none => simp [hq] at h
      | some v =>
          rw [hq] at h
          have hv : v = some o := h
          exact .hazard (hv ▸ List.mem_of_getElem? hq)
  | cell c => cases h

theorem ref_base {s : St} {t : Lid} {b : Base} {o : Oid} (h : s.base t b = some o) : s.Ref o := by
  cases b with
  | cell c =>
      simp only [St.base] at h
      split at h
      · next p hc => exact .cell hc h
      · cases h
  | guard p => exact ref_localArg (t := t) (b := .guard p) h
  | hazard hid => exact ref_localArg (t := t) (b := .hazard hid) h

theorem ref_follow {s : St} {is : List Nat} : ∀ {p o : Oid}, s.Ref p → s.follow p is = some o →
    s.Ref o := by
  induction is with
  | nil =>
      intro p o hp h
      cases h
      exact hp
  | cons i is ih =>
      intro p o hp h
      simp only [St.follow] at h
      split at h
      · obtain ⟨q, hq, h⟩ := Option.bind_eq_some_iff.1 h
        exact ih (.field (p := p) (i := i) hq) h
      · cases h

theorem ref_place {s : St} {t : Lid} {p : Place} {k : PtrKind} {l : Loc} {o : Oid}
    (h : s.place t p = some (k, l)) (ho : l.names o) : s.Ref o := by
  cases p with
  | cell c =>
      obtain ⟨x, -, hx⟩ := Option.map_eq_some_iff.1 h
      cases hx
      cases ho
  | field b path i =>
      obtain ⟨r, hr, h⟩ := Option.bind_eq_some_iff.1 h
      obtain ⟨q, hq, h⟩ := Option.bind_eq_some_iff.1 h
      split at h
      · cases h
        cases ho
        exact ref_follow (ref_base hr) hq
      · cases h

theorem ref_optArg {s : St} {t : Lid} {b : Option Base} {q : Option Oid} {o : Oid}
    (h : s.optArg t b = some q) (ho : q = some o) : s.Ref o := by
  cases b with
  | none =>
      cases h
      cases ho
  | some b =>
      obtain ⟨p, hp, rfl⟩ := Option.map_eq_some_iff.1 h
      cases ho
      exact ref_localArg hp


/-- A state that differs in its cells and in the links of its objects only. -/
theorem ref_of_links {s s₁ : St} {o : Oid} (h : s₁.Ref o) (hl : s₁.locals = s.locals)
    (hst : s₁.stage = s.stage) (hj : s₁.jobs = s.jobs)
    (hc : ∀ c x, s₁.cells c = some x → x.link.names o → s.Ref o)
    (hf : ∀ p i, ((s₁.objs p).link i).names o → s.Ref o) : s.Ref o := by
  cases h with
  | cell h ha => exact hc _ _ h ha
  | field ha => exact hf _ _ ha
  | held h => exact .held (hl ▸ h)
  | hazard h => exact .hazard (hl ▸ h)
  | oldHazard ha h => exact .oldHazard (hl ▸ ha) h
  | task h => exact .task (hl ▸ h)
  | cached h ho => exact .cached (hl ▸ h) ho
  | frame hf ho => exact .frame (hl ▸ hf) ho
  | stage h => exact .stage (hst ▸ h)
  | job hj' ho => exact .job (hj ▸ hj') ho

theorem ref_removeCells {s : St} {cs : List Cid} {o : Oid} (h : (s.removeCells cs).Ref o) :
    s.Ref o := by
  refine ref_of_links h rfl rfl rfl (fun c x hx ha => ?_) (fun p i ha => .field ha)
  simp only [St.removeCells] at hx
  split at hx
  · cases hx
  · exact .cell hx ha

theorem ref_newObj {s : St} {t : Lid} {cs : List Cid} {size n : Nat} {o : Oid}
    (h : (s.newObj t cs size n).Ref o) : s.Ref o := by
  refine ref_of_links h rfl rfl rfl (fun c x hx ha => ?_) (fun p i ha => ?_)
  · simp only [St.newObj, St.removeCells] at hx
    split at hx
    · cases hx
    · exact .cell hx ha
  · simp only [St.newObj, Function.update_apply] at ha
    split at ha
    · cases hc : (cs[i]?).bind s.cells with
      | none => simp [hc, ManPtr.names, ManPtr.null] at ha
      | some x =>
          obtain ⟨c, -, hx⟩ := Option.bind_eq_some_iff.1 hc
          simp only [hc, Option.map_some, Option.getD_some] at ha
          exact .cell hx ha
    · exact .field ha

/-- An operation starts with what its thread can name. -/
theorem startOp_names {s s₁ : St} {t : Lid} {op : Op} {fs : List Frame} {o : Oid}
    (h : startOp s t op = some (s₁, fs)) :
    (s₁.Ref o → s.Ref o) ∧ ∀ f ∈ fs, f.names o → s.Ref o := by
  cases op with
  | pin =>
      cases h
      exact ⟨id, by simp [Frame.names]⟩
  | dropGuard | repin | helpCollect =>
      simp only [startOp] at h
      split at h
      · cases h
        exact ⟨id, by simp [Frame.names, HelpFrame.names]⟩
      · cases h
  | noneNew tag =>
      cases h
      refine ⟨fun h => (ref_apply h).elim id fun h => ?_, by simp⟩
      cases h
  | alloc cs size k =>
      simp only [startOp] at h
      split at h
      · cases h
        exact ⟨ref_newObj, by simp [Frame.names, PtrFrame.names]⟩
      · cases h
  | load p =>
      simp only [startOp] at h
      split at h
      · obtain ⟨⟨k, l⟩, hp, h⟩ := Option.map_eq_some_iff.1 h
        cases h
        refine ⟨id, fun f hf ho => ?_⟩
        cases List.mem_singleton.1 hf
        exact ref_place hp ho
      · cases h
  | swap p new tag =>
      simp only [startOp] at h
      split at h
      · split at h
        · next l q hp hq =>
            cases h
            refine ⟨id, fun f hf ho => ?_⟩
            cases List.mem_singleton.1 hf
            exact ho.elim (ref_place hp) (ref_optArg hq)
        · cases h
      · cases h
  | compareExchange p current new weak =>
      simp only [startOp] at h
      split at h
      · split at h
        · next l c q hp hc hq =>
            cases h
            refine ⟨id, fun f hf ho => ?_⟩
            cases List.mem_singleton.1 hf
            exact ho.elim (ref_place hp) fun ho => ho.elim (ref_optArg hc) (ref_optArg hq)
        · cases h
      · cases h
  | clone p =>
      simp only [startOp] at h
      split at h
      · next l hp =>
          cases h
          refine ⟨id, fun f hf ho => ?_⟩
          cases List.mem_singleton.1 hf
          exact ref_place hp ho
      · cases h
  | asShared b k | protect b =>
      obtain ⟨p, hp, h⟩ := Option.map_eq_some_iff.1 h
      cases h
      refine ⟨id, fun f hf ho => ?_⟩
      cases List.mem_singleton.1 hf
      cases ho
      exact ref_localArg hp
  | convert c =>
      simp only [startOp] at h
      split at h
      · next x hx =>
          split at h
          · cases h
            refine ⟨fun h => ref_of_links h rfl rfl rfl (fun c' y hy ha => ?_)
              (fun p i ha => .field ha), by simp⟩
            simp only [Function.update_apply] at hy
            split at hy
            · cases hy
              exact .cell hx ha
            · exact .cell hy ha
          · cases h
      · cases h
  | drop c =>
      simp only [startOp] at h
      split at h
      · next x hx =>
          split at h
          · cases h
            refine ⟨ref_removeCells, fun f hf ho => ?_⟩
            split at hf
            · next p hm hp =>
                have : dropFrames p = dropTemp x.link := by simp [dropTemp, hp]
                rw [this] at hf
                exact .cell hx (names_dropTemp hf ho)
            · cases hf
          · cases h
      · cases h
  | protectGuard hid =>
      simp only [startOp] at h
      split at h
      · obtain ⟨p, hp, h⟩ := Option.map_eq_some_iff.1 h
        cases h
        refine ⟨fun h => (ref_apply h).elim id fun h => ?_, by simp⟩
        cases h
        exact ref_localArg hp
      · cases h
  | dropHandle hid =>
      obtain ⟨p, hp, h⟩ := Option.map_eq_some_iff.1 h
      cases h
      exact ⟨id, by simp [Frame.names, PtrFrame.names]⟩


/-! ## Steps -/

theorem exec_names {s : St} (t : Lid) (ch : Nat) {f : Frame} {o : Oid}
    (hf : f.names o → s.Ref o) :
    (∀ g ∈ (exec s t ch f).2, g.names o → s.Ref o ∨ f.holds o) ∧
    ((exec s t ch f).1.names o → s.Ref o ∨ ∃ k, f = .ptr (.allocRet o k)) := by
  cases f with
  | pin f =>
      have hz : ∀ (i : Nat) p, (s.locals t).hazards[i]? = some (some p) → p = o → s.Ref o := by
        rintro i p hp rfl
        exact .hazard (List.mem_of_getElem? hp)
      cases f <;> simp only [exec, execPin] <;> (repeat' split) <;>
        grind [Frame.names, MarkFrame.names, HelpFrame.names, Eff.names]
  | ptr f =>
      refine ⟨fun g hg ho => .inl (execPtr_names hf g hg ho), fun h => ?_⟩
      rcases execPtr_writes hf h with h | ⟨k, rfl⟩
      · exact .inl h
      · exact .inr ⟨k, rfl⟩
  | mark f =>
      exact ⟨fun g hg ho => .inl (execMark_names hf g hg ho), fun h => .inl (execMark_writes hf h)⟩
  | help f => exact ⟨execHelp_names hf, fun h => .inl (execHelp_writes hf h)⟩

theorem collStep_names {s : St} {ch : Nat} {e : Eff} {st : Stage} {fs : List Frame} {o : Oid}
    (h : collStep s ch = some (e, st, fs)) :
    (e.names o → s.Ref o) ∧ (st.names o → s.Ref o) ∧ ∀ f ∈ fs, f.names o → s.Ref o := by
  have hstage : s.stage.names o → s.Ref o := .stage
  have htask : ∀ i, o ∈ (s.locals i).markTasks → s.Ref o := fun i => .task
  have hafter : ¬ s.afterWait.names o := by
    unfold St.afterWait
    split <;> exact id
  unfold collStep at h
  simp only at h
  repeat' split at h
  all_goals first
    | (cases h; done)
    | (cases h
       simp_all only [Stage.names, Eff.names, Frame.names, MarkFrame.names]
       grind [Frame.names, MarkFrame.names])

theorem ref_withStage {s : St} {st : Stage} {o : Oid} (h : (s.withStage st).Ref o) :
    s.Ref o ∨ st.names o := by
  cases h with
  | cell h ha => exact .inl (.cell h ha)
  | field ha => exact .inl (.field ha)
  | held h => exact .inl (.held h)
  | hazard h => exact .inl (.hazard h)
  | oldHazard ha h => exact .inl (.oldHazard ha h)
  | task h => exact .inl (.task h)
  | cached h ho => exact .inl (.cached h ho)
  | frame hf ho => exact .inl (.frame hf ho)
  | stage h => exact .inr h
  | job hj ho => exact .inl (.job hj ho)

theorem ref_withSweepers {s : St} {ws : List Sweeper} {o : Oid} (h : (s.withSweepers ws).Ref o) :
    s.Ref o :=
  ref_of_links h rfl rfl rfl (fun _ _ hx ha => .cell hx ha) fun _ _ ha => .field ha

theorem register_refs {s : St} {t i : Lid} {o : Oid} (h : ((s.register t).locals i).names o) :
    (s.locals i).names o := by
  unfold St.register at h
  split at h
  · simp only [setLocal_locals] at h
    split at h
    · next hi =>
        subst hi
        exact h
    · exact h
  · simp only [setLocal_locals] at h
    split at h
    · simp [Local.names, Local.default, List.mem_replicate] at h
    · exact h

theorem ref_register {s : St} {t : Lid} (js : List (Nat × Nat × List Oid)) {o : Oid}
    (hjs : ∀ j ∈ js, j ∈ s.jobs) (h : ((s.register t).withJobs js).Ref o) : s.Ref o := by
  have hsame : (s.register t).cells = s.cells ∧ (s.register t).objs = s.objs := by
    unfold St.register
    split <;> exact ⟨rfl, rfl⟩
  have hloc : ∀ {i}, (((s.register t).withJobs js).locals i).names o → s.Ref o := fun h =>
    (register_refs h).ref
  cases h with
  | cell h ha => exact .cell (hsame.1 ▸ h) ha
  | field ha => exact .field (hsame.2 ▸ ha)
  | held h => exact hloc (.inl h)
  | hazard h => exact hloc (.inr (.inl h))
  | oldHazard ha h => exact hloc (.inr (.inr (.inl ⟨_, ha, h⟩)))
  | task h => exact hloc (.inr (.inr (.inr (.inl h))))
  | cached h ho => exact hloc (.inr (.inr (.inr (.inr ⟨_, _, h, ho⟩))))
  | @frame i f hf ho =>
      refine .frame (t := i) ?_ ho
      simp only [withJobs_locals, St.register] at hf
      split at hf
      all_goals
        simp only [setLocal_locals] at hf
        split at hf
        · next hi => first | (simp [Local.default] at hf; done) | exact hi ▸ hf
        · exact hf
  | stage h => exact .stage ((register_stage s t) ▸ h)
  | job hj ho => exact .job (hjs _ hj) ho

/-- A step makes an object known that was known before, that sat in a batch its
thread is working on, or that the thread has just finished building. -/
theorem ref_step {s s' : St} {lab : Label} {o : Oid} (hs : StepCase s lab s') (h : s'.Ref o) :
    s.Ref o ∨ (∃ t, ∃ f ∈ (s.locals t).stack, f.holds o) ∨
    ∃ t ch k rest, lab = .run t ch ∧ (s.locals t).stack = .ptr (.allocRet o k) :: rest := by
  cases hs with
  | op ht hu hst hc hop =>
      rcases ref_setStack h with h | ⟨f, hf, ho⟩
      · exact .inl ((startOp_names hop).1 h)
      · exact .inl ((startOp_names hop).2 f hf ho)
  | @run t ch f rest ht hst =>
      have hmem : f ∈ (s.locals t).stack := by simp [hst]
      have hex := exec_names (s := s) (o := o) t ch (.frame hmem)
      rcases ref_setStack h with h | ⟨g, hg, ho⟩
      · rcases ref_apply h with h | h
        · exact .inl h
        · rcases hex.2 h with h | ⟨k, rfl⟩
          · exact .inl h
          · exact .inr (.inr ⟨t, ch, k, rest, rfl, hst⟩)
      · rcases List.mem_append.1 hg with hg | hg
        · rcases hex.1 g hg ho with h | h
          · exact .inl h
          · exact .inr (.inl ⟨t, f, hmem, h⟩)
        · exact .inl (.frame (t := t) (by simp [hst, hg]) ho)
  | coll hst hcoll =>
      obtain ⟨he, hstage, hfs⟩ := collStep_names (o := o) hcoll
      rcases ref_setStack h with h | ⟨f, hf, ho⟩
      · rcases ref_withStage h with h | h
        · exact .inl ((ref_apply h).elim id he)
        · exact .inl (hstage h)
      · exact .inl (hfs f hf ho)
  | @sweep k ch w hw =>
      refine .inl ((ref_apply (ref_withSweepers h)).elim id fun he => ?_)
      unfold sweepStep at he
      repeat' split at he
      all_goals cases he
  | @startWorker t lo hi hz js hj hr hc =>
      rcases ref_setStack h with h | ⟨f, hf, ho⟩
      · exact .inl (ref_register js (fun j hj' => by simp [hj, hj']) h)
      · simp only [List.mem_cons, List.not_mem_nil, or_false] at hf
        rcases hf with rfl | rfl | rfl | rfl | rfl
        · cases ho
        · exact .inl (.job (j := (lo, hi, hz)) (by simp [hj]) ho)
        · cases ho
        · cases ho
        · cases ho
  | @register t hr hc =>
      refine .inl (ref_register (t := t) s.jobs (fun _ => id) ?_)
      rw [← register_jobs s t]
      exact h
  | @exit t ht hu hst hg hh hc =>
      exact .inl (ref_setLocal h (fun hl => Local.names.ref (t := t) hl) (by simp [hst]))

end Cdpt
