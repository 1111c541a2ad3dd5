import Cdpt.Proofs.Refs

/-!
# Where the batches are

Every object sits in a batch from the moment it is built. A batch is open while
it waits for the root scan, in the node of a thread or in `fresh_objs`, and taken
from there on. `open_step` and `taken_step` say how an object gets from one to
the other: a fresh object is pushed under the allocation colour of its thread,
and only a scanner or the collector takes an open batch.

The open batches come in two colours, and the colour matters: a batch of the
white colour will be scanned in this cycle, one of the other in the next. It is
fixed by the thread's own epoch at the time of the push, so an object that is
pushed late, by a thread still pinned in the phase before, goes to the batch of
that phase. `open_step` keeps track of this.

Both relations are about membership only. That an object is in one place and
not in two is a matter of counting and left to `Census`; here it is enough to
know where an object that turns up in a place can have come from. The proofs
follow the layers of a step again. A thread's frames hold batches in a handful
of places (`Frame.holds`, `Stage.holds`), `exec_holds` says that what a thread
works through was taken from a queue or a node, and `sweepStep_batches` says the
same of a sweeper.
-/

namespace Cdpt

/-- `o` is in a batch of colour `c` that the root scan has still to process. -/
inductive St.Open (s : St) (c : Color) (o : Oid) : Prop
  | own {t : Lid} (h : o ∈ ((s.locals t).objs c).1)
  | flush {t : Lid} {b : List Oid} {n : Nat} (hf : .ptr (.flushPush c b n) ∈ (s.locals t).stack)
      (ho : o ∈ b)
  | fresh {q : Nat} {b : List Oid} (hb : b ∈ s.freshObjs c q) (ho : o ∈ b)

def Stage.holds (o : Oid) : Stage → Prop
  | .pendPush b _ _ => o ∈ b
  | _ => False

/-- `o` is in a batch that somebody processes or has processed. -/
inductive St.Taken (s : St) (o : Oid) : Prop
  | frame {t : Lid} {f : Frame} (hf : f ∈ (s.locals t).stack) (ho : f.holds o)
  | stage (h : s.stage.holds o)
  | marked {c : Color} {q : Nat} {b : List Oid} (hb : b ∈ s.markedObjs c q) (ho : o ∈ b)
  | sweeper {w : Sweeper} (hw : w ∈ s.sweepers) (ho : o ∈ w.todo ∨ o ∈ w.survived)

def Eff.opens (c : Color) (o : Oid) : Eff → Prop
  | .pushObj c' p _ => c' = c ∧ p = o
  | .pushFresh c' _ b => c' = c ∧ o ∈ b
  | _ => False

def Eff.takes (o : Oid) : Eff → Prop
  | .pushMarked _ _ b => o ∈ b
  | .spawnSweep _ ws => ∃ w ∈ ws, o ∈ w.todo ∨ o ∈ w.survived
  | _ => False

theorem mem_setQueue {f : Color → Nat → List (List Oid)} {c c' : Color} {q q' : Nat}
    {bs : List (List Oid)} {b : List Oid} (h : b ∈ setQueue f c q bs c' q') :
    b ∈ f c' q' ∨ (c' = c ∧ q' = q ∧ b ∈ bs) := by
  unfold setQueue at h
  split at h
  · next hq => exact .inr ⟨hq.1, hq.2, h⟩
  · exact .inl h

theorem own_apply {e : Eff} {s : St} {t i : Lid} {c : Color} {o : Oid}
    (h : o ∈ (((e.apply s t).locals i).objs c).1) :
    o ∈ ((s.locals i).objs c).1 ∨ e.opens c o := by
  cases e with
  | setLink l p => cases l <;> exact .inl h
  | steal j n =>
      simp only [Eff.apply, setLocal_locals] at h
      split at h <;> split at h <;> simp_all
  | pushObj c' p newly =>
      simp only [Eff.apply, setLocal_locals] at h
      split at h
      · next hi =>
          subst hi
          simp only [Function.update_apply] at h
          split at h
          · next hc =>
              subst hc
              rcases List.mem_append.1 h with h | h
              · exact .inl h
              · exact .inr ⟨rfl, (List.mem_singleton.1 h).symm⟩
          · exact .inl h
      · exact .inl h
  | takeBatch j c' =>
      simp only [Eff.apply, setLocal_locals] at h
      split at h
      · next hi =>
          subst hi
          simp only [Function.update_apply] at h
          split at h
          · cases h
          · exact .inl h
      · exact .inl h
  | _ =>
      first
        | exact .inl h
        | (simp only [Eff.apply, setLocal_locals] at h
           split at h <;> simp_all)

theorem fresh_apply {e : Eff} {s : St} {t : Lid} {c : Color} {q : Nat} {b : List Oid} {o : Oid}
    (hb : b ∈ (e.apply s t).freshObjs c q) (ho : o ∈ b) : s.Open c o ∨ e.opens c o := by
  cases e with
  | setLink l p => cases l <;> exact .inl (.fresh hb ho)
  | pushFresh c' q' b' =>
      rcases mem_setQueue hb with h | ⟨rfl, rfl, h⟩
      · exact .inl (.fresh h ho)
      · rcases List.mem_append.1 h with h | h
        · exact .inl (.fresh h ho)
        · cases List.mem_singleton.1 h
          exact .inr ⟨rfl, ho⟩
  | popFresh c' q' =>
      rcases mem_setQueue hb with h | ⟨rfl, rfl, h⟩
      · exact .inl (.fresh h ho)
      · exact .inl (.fresh (List.mem_of_mem_tail h) ho)
  | _ => exact .inl (.fresh hb ho)

theorem open_apply {e : Eff} {s : St} {t : Lid} {c : Color} {o : Oid} (h : (e.apply s t).Open c o) :
    s.Open c o ∨ e.opens c o := by
  cases h with
  | own h => exact (own_apply h).imp .own id
  | flush hf ho =>
      rw [apply_stack] at hf
      exact .inl (.flush hf ho)
  | fresh hb ho => exact fresh_apply hb ho

theorem taken_apply {e : Eff} {s : St} {t : Lid} {o : Oid} (h : (e.apply s t).Taken o) :
    s.Taken o ∨ e.takes o := by
  cases h with
  | frame hf ho =>
      rw [apply_stack] at hf
      exact .inl (.frame hf ho)
  | stage h =>
      rw [apply_stage] at h
      exact .inl (.stage h)
  | marked hb ho =>
      cases e with
      | setLink l p => cases l <;> exact .inl (.marked hb ho)
      | pushMarked c' q' b' =>
          rcases mem_setQueue hb with h | ⟨rfl, rfl, h⟩
          · exact .inl (.marked h ho)
          · rcases List.mem_append.1 h with h | h
            · exact .inl (.marked h ho)
            · cases List.mem_singleton.1 h
              exact .inr ho
      | popMarked c' q' =>
          rcases mem_setQueue hb with h | ⟨rfl, rfl, h⟩
          · exact .inl (.marked h ho)
          · exact .inl (.marked (List.mem_of_mem_tail h) ho)
      | _ => exact .inl (.marked hb ho)
  | @sweeper w hw ho =>
      cases e with
      | setLink l p => cases l <;> exact .inl (.sweeper hw ho)
      | spawnSweep e ws => exact .inr ⟨w, hw, ho⟩
      | _ => exact .inl (.sweeper hw ho)

/-! ## Threads -/

theorem exec_opens {s : St} {t : Lid} {ch : Nat} {f : Frame} {c : Color} {o : Oid}
    (h : (exec s t ch f).1.opens c o) :
    (∃ newly, f = .ptr (.pushObj o newly) ∧ c = s.allocColor t) ∨
      ∃ b n, f = .ptr (.flushPush c b n) ∧ o ∈ b := by
  cases f with
  | pin f =>
      cases f <;> simp only [exec, execPin] at h <;> (repeat' split at h) <;> cases h
  | ptr f =>
      cases f <;> simp only [exec, execPtr] at h <;> (repeat' split at h) <;>
        first
        | (cases h; done)
        | (obtain ⟨rfl, rfl⟩ := h; exact .inl ⟨_, rfl, rfl⟩)
        | (obtain ⟨rfl, h⟩ := h; exact .inr ⟨_, _, rfl, h⟩)
  | mark f =>
      cases f <;> simp only [exec, execMark] at h <;> (repeat' split at h) <;> cases h
  | help f =>
      cases f <;> simp only [exec, execHelp] at h <;> (repeat' split at h) <;> cases h


def ShadeRet.isUnroot : ShadeRet → Bool
  | .unroot _ _ _ => true
  | _ => false

/-- The frames of an allocation, and of `push_obj`. -/
def Frame.isAlloc : Frame → Bool
  | .ptr (.pushObj _ _) | .ptr (.flushPush _ _ _) | .ptr (.flushStat _) | .ptr (.unroot _ _)
  | .ptr (.unrootStore _ _ _) | .ptr (.allocRet _ _) => true
  | .ptr (.rcPhase _ r) | .ptr (.shade _ r) | .ptr (.record _ r) | .ptr (.push _ r) => r.isUnroot
  | _ => false

theorem isAlloc_unrootedOnce (s : St) (t : Lid) (l : Loc) (old new : ManPtr) (k : CasKind) :
    Frame.isAlloc (.ptr (unrootedOnce s t l old new k)) = false := by
  unfold unrootedOnce
  repeat' split
  all_goals rfl

theorem isAlloc_resume (r : ShadeRet) :
    r.resume.all (fun g => g.isAlloc == r.isUnroot) = true := by
  cases r <;> rfl

theorem isAlloc_dropTemp (p : ManPtr) : (dropTemp p).all (fun g => g.isAlloc == false) = true := by
  unfold dropTemp
  split <;> rfl

/-- An allocation stays an allocation, and nothing else becomes one. -/
theorem execPtr_isAlloc (s : St) (t : Lid) (ch : Nat) (f : PtrFrame) :
    (execPtr s t ch f).2.all (fun g => g.isAlloc == Frame.isAlloc (.ptr f)) = true := by
  cases f with
  | rootedCas l old new k =>
      simp only [execPtr, rootedFail]
      repeat' split
      all_goals first
        | rfl
        | exact isAlloc_dropTemp new
        | (rw [List.all_append, Bool.and_eq_true]
           exact ⟨isAlloc_dropTemp new, by simp [isAlloc_unrootedOnce]; rfl⟩)
  | unrootedCas l old new k =>
      simp only [execPtr, unrootedFail]
      repeat' split
      all_goals first
        | rfl
        | (simp [isAlloc_unrootedOnce]; rfl)
  | swapLoad | casLoad =>
      simp only [execPtr, rootedOnce]
      repeat' split
      all_goals first
        | rfl
        | (simp [isAlloc_unrootedOnce]; rfl)
  | rcPhase o r | shade o r | push o r =>
      simp only [execPtr]
      repeat' split
      all_goals first
        | exact isAlloc_resume r
        | simp [Frame.isAlloc]
  | record o r => simp [execPtr, Frame.isAlloc]
  | _ =>
      simp only [execPtr]
      repeat' split
      all_goals rfl

/-- Only `push_obj` on a full batch starts a flush. -/
theorem exec_flush {s : St} {t : Lid} {ch : Nat} {f : Frame} {c : Color} {b : List Oid} {n : Nat}
    (h : .ptr (.flushPush c b n) ∈ (exec s t ch f).2) : b = ((s.locals t).objs c).1 := by
  cases f with
  | pin f =>
      cases f <;> simp only [exec, execPin] at h <;> (repeat' split at h) <;> simp at h
  | ptr f =>
      have hall := List.all_eq_true.1 (execPtr_isAlloc s t ch f) _ h
      cases f with
      | pushObj o newly =>
          simp only [exec, execPtr] at h
          split at h
          · cases h
          · simp only [List.mem_cons, List.not_mem_nil, or_false, Frame.ptr.injEq,
              PtrFrame.flushPush.injEq, reduceCtorEq] at h
            rw [h.1, h.2.1]
      | rcPhase o r | shade o r | push o r =>
          cases r <;> simp only [exec, execPtr, ShadeRet.resume] at h <;> (repeat' split at h) <;>
            simp at h
      | flushPush | flushStat | unroot | unrootStore | allocRet | record =>
          simp only [exec, execPtr] at h
          repeat' split at h
          all_goals simp at h
      | _ => cases hall
  | mark f =>
      simp only [exec] at h
      cases f <;> simp only [execMark, shadeLink] at h <;> (repeat' split at h) <;> simp at h
  | help f =>
      cases f <;> simp only [exec, execHelp, scanObj, scanHazard, Scanner.next] at h <;>
        (repeat' split at h) <;> simp at h

theorem exec_takes {s : St} {t : Lid} {ch : Nat} {f : Frame} {o : Oid}
    (h : (exec s t ch f).1.takes o) : f.holds o := by
  cases f with
  | pin f =>
      cases f <;> simp only [exec, execPin] at h <;> (repeat' split at h) <;> cases h
  | ptr f =>
      cases f <;> simp only [exec, execPtr] at h <;> (repeat' split at h) <;> cases h
  | mark f =>
      cases f <;> simp only [exec, execMark] at h <;> (repeat' split at h) <;> cases h
  | help f =>
      cases f <;> simp only [exec, execHelp] at h <;> (repeat' split at h) <;>
        first
        | (cases h; done)
        | exact .inl h

theorem holds_scanHazard {hs : List Oid} {sc : Scanner} {done todo : List Oid} {p o : Oid}
    {g : Frame} (hg : g ∈ scanHazard hs sc done p todo) (h : g.holds o) :
    o ∈ done ∨ p = o ∨ o ∈ todo := by
  have hscan : Frame.holds o (.help (.scanObjs sc (done ++ [p]) todo)) →
      o ∈ done ∨ p = o ∨ o ∈ todo := by
    simp only [Frame.holds, List.mem_append, List.mem_singleton]
    rintro ((h | rfl) | h)
    · exact .inl h
    · exact .inr (.inl rfl)
    · exact .inr (.inr h)
  unfold scanHazard at hg
  split at hg <;> simp only [List.mem_cons, List.not_mem_nil, or_false] at hg
  · rcases hg with rfl | rfl
    · cases h
    · exact hscan h
  · subst hg
    exact hscan h

theorem holds_scanObj {s : St} {t : Lid} {sc : Scanner} {done todo : List Oid} {p o : Oid}
    {g : Frame} (hg : g ∈ scanObj s t sc done p todo) (h : g.holds o) :
    o ∈ done ∨ o ∈ p :: todo := by
  suffices hh : o ∈ done ∨ p = o ∨ o ∈ todo by
    simpa [eq_comm] using hh
  have hin : g ∈ [Frame.mark (.links p 0), .help (.scanObjs sc (done ++ [p]) todo)] →
      o ∈ done ∨ p = o ∨ o ∈ todo := fun hg =>
    (holds_scanHazard (by simpa [scanHazard] using hg :
      g ∈ scanHazard [p] sc done p todo) h)
  unfold scanObj at hg
  repeat' split at hg
  all_goals first
    | exact hin hg
    | exact holds_scanHazard hg h
    | (rw [List.mem_singleton.1 hg] at h; exact h)

def Frame.notHelp : Frame → Bool
  | .help _ => false
  | _ => true

/-- What a thread works through, it has taken from where batches are pushed. -/
theorem exec_holds {s : St} {t : Lid} {ch : Nat} {f g : Frame} {o : Oid}
    (hg : g ∈ (exec s t ch f).2) (h : g.holds o) :
    f.holds o ∨
    (∃ sc, f = .help (.scanPop sc) ∧ ∃ q, ∃ b ∈ s.freshObjs (s.white t) q, o ∈ b) ∨
    ∃ q, ∃ b ∈ s.markedObjs (s.black t) q, o ∈ b := by
  cases f with
  | pin f =>
      cases f <;> simp only [exec, execPin] at hg <;> (repeat' split at hg) <;> grind
  | ptr f =>
      refine .inl ?_
      have hall := List.all_eq_true.1 (execPtr_isAlloc s t ch f) _ hg
      cases f with
      | pushObj p newly =>
          simp only [exec, execPtr] at hg
          split at hg
          · cases hg
          · grind
      | rcPhase p r | shade p r | push p r =>
          cases r <;> simp only [exec, execPtr, ShadeRet.resume] at hg <;>
            (repeat' split at hg) <;> grind
      | flushPush | flushStat | unroot | unrootStore | allocRet | record =>
          simp only [exec, execPtr] at hg
          repeat' split at hg
          all_goals grind
      | _ =>
          cases g with
          | ptr g =>
              cases g with
              | pushObj => cases hall
              | _ => cases h
          | help g =>
              have := List.all_eq_true.1 (execPtr_all (p := Frame.notHelp) (fun _ => rfl)
                (fun _ => rfl) (fun _ => rfl) s t ch _) _ hg
              cases this
          | _ => cases h
  | mark f =>
      cases f <;> simp only [exec, execMark, shadeLink] at hg <;> (repeat' split at hg) <;> grind
  | help f =>
      cases f with
      | scanObjs sc done todo =>
          simp only [exec, execHelp, Scanner.next] at hg
          split at hg
          · exact .inl (holds_scanObj hg h)
          · repeat' split at hg
            all_goals grind
      | forceHps hp acc sc done p todo =>
          simp only [exec, execHelp] at hg
          split at hg
          · exact .inl (holds_scanHazard hg h)
          · grind
      | _ =>
          simp only [exec, execHelp] at hg
          repeat' split at hg
          all_goals grind

/-! ## The collector and its sweepers -/

theorem collStep_batches {s : St} {ch : Nat} {e : Eff} {st : Stage} {fs : List Frame} {o : Oid}
    (h : collStep s ch = some (e, st, fs)) :
    (∀ c, e.opens c o → s.stage.holds o) ∧ ¬ e.takes o ∧ (∀ f ∈ fs, ¬ f.holds o) ∧
    (∀ c b n, .ptr (.flushPush c b n) ∉ fs) ∧
    (st.holds o → (∃ it, s.stage = .pending it) ∧ s.Open (s.white s.collector) o) := by
  have hafter : ¬ s.afterWait.holds o := by
    unfold St.afterWait
    split <;> exact id
  unfold collStep at h
  simp only at h
  repeat' split at h
  all_goals first
    | (cases h; done)
    | (cases h
       simp_all [Stage.holds, Eff.opens, Eff.takes, Frame.holds]
       done)
    | (cases h
       simp_all [Stage.holds, Eff.opens, Eff.takes, Frame.holds]
       exact .own)

theorem sweepStep_batches {s : St} {w : Sweeper} {ch : Nat} {o : Oid} :
    (∀ c, (sweepStep s w ch).1.opens c o → o ∈ w.survived) ∧ ¬ (sweepStep s w ch).1.takes o ∧
    ∀ w' ∈ (sweepStep s w ch).2, o ∈ w'.todo ∨ o ∈ w'.survived →
      (o ∈ w.todo ∨ o ∈ w.survived) ∨ ∃ c q, ∃ b ∈ s.markedObjs c q, o ∈ b := by
  have hroom : ∀ e, (pushWithinCapacity [] e).toOption = some [e] := fun _ => rfl
  unfold sweepStep
  simp only [hroom, Option.map_some]
  repeat' split
  all_goals
    refine ⟨fun c h => ?_, fun h => ?_, fun w' hw' ho => ?_⟩
  all_goals first
    | (cases h; done)
    | exact h.2
    | grind [pushWithinCapacity_eq_ok, pushWithinCapacity_eq_error]


/-! ## Steps -/

theorem open_setStack {s : St} {t : Lid} {fs : List Frame} {c : Color} {o : Oid}
    (h : (s.setStack t fs).Open c o) :
    s.Open c o ∨ ∃ b n, .ptr (.flushPush c b n) ∈ fs ∧ o ∈ b := by
  cases h with
  | @own i h =>
      rw [setStack_locals] at h
      split at h
      · exact .inl (.own (t := t) h)
      · exact .inl (.own h)
  | @flush i b n hf ho =>
      by_cases hi : i = t
      · subst hi
        rw [setStack_stack_self] at hf
        exact .inr ⟨b, n, hf, ho⟩
      · rw [setStack_stack_ne _ _ hi] at hf
        exact .inl (.flush hf ho)
  | fresh hb ho => exact .inl (.fresh hb ho)

theorem taken_setStack {s : St} {t : Lid} {fs : List Frame} {o : Oid}
    (h : (s.setStack t fs).Taken o) : s.Taken o ∨ ∃ f ∈ fs, f.holds o := by
  cases h with
  | @frame i f hf ho =>
      by_cases hi : i = t
      · subst hi
        rw [setStack_stack_self] at hf
        exact .inr ⟨f, hf, ho⟩
      · rw [setStack_stack_ne _ _ hi] at hf
        exact .inl (.frame hf ho)
  | stage h => exact .inl (.stage h)
  | marked hb ho => exact .inl (.marked hb ho)
  | sweeper hw ho => exact .inl (.sweeper hw ho)

/-- An operation starts without touching a batch. -/
theorem startOp_batches {s s₁ : St} {t : Lid} {op : Op} {fs : List Frame}
    (h : startOp s t op = some (s₁, fs)) :
    (∀ i, (s₁.locals i).objs = (s.locals i).objs) ∧ s₁.freshObjs = s.freshObjs ∧
    s₁.markedObjs = s.markedObjs ∧ s₁.sweepers = s.sweepers ∧
    (∀ c b n, .ptr (.flushPush c b n) ∉ fs) ∧ ∀ o, ∀ f ∈ fs, ¬ f.holds o := by
  cases op <;> simp only [startOp] at h <;> (repeat' split at h) <;>
    first
    | (cases h; done)
    | (cases h; simp [Frame.holds, St.newObj, St.removeCells, Eff.apply, dropFrames])
    | (obtain ⟨o, -, h⟩ := Option.map_eq_some_iff.1 h
       cases h
       simp [Frame.holds]
       done)
    | (obtain ⟨o, -, h⟩ := Option.map_eq_some_iff.1 h
       cases h
       refine ⟨fun i => ?_, rfl, rfl, rfl, by simp, by simp⟩
       simp only [Eff.apply, setLocal_locals]
       split <;> simp_all)


theorem register_objs {s : St} {t i : Lid} {c : Color} {o : Oid}
    (h : o ∈ (((s.register t).locals i).objs c).1) : o ∈ ((s.locals i).objs c).1 := by
  unfold St.register at h
  split at h <;> simp only [setLocal_locals] at h <;> split at h
  · next hi => exact hi ▸ h
  · exact h
  · cases h
  · exact h

theorem register_batches (s : St) (t : Lid) :
    (s.register t).freshObjs = s.freshObjs ∧ (s.register t).markedObjs = s.markedObjs ∧
    (s.register t).sweepers = s.sweepers := by
  unfold St.register
  split <;> exact ⟨rfl, rfl, rfl⟩

theorem register_stack {s : St} {t i : Lid} {f : Frame} (h : f ∈ ((s.register t).locals i).stack) :
    f ∈ (s.locals i).stack := by
  unfold St.register at h
  split at h <;> simp only [setLocal_locals] at h <;> split at h
  · next hi => exact hi ▸ h
  · exact h
  · cases h
  · exact h

/-- An object gets into an open batch when it is pushed there, fresh from its
construction or after somebody has looked at it. -/
theorem open_step {s s' : St} {lab : Label} {c : Color} {o : Oid} (hs : StepCase s lab s')
    (h : s'.Open c o) :
    s.Open c o ∨ s.Taken o ∨
    ∃ t ch rest, lab = .run t ch ∧ (s.locals t).stack = .ptr (.pushObj o true) :: rest ∧
      c = s.allocColor t := by
  cases hs with
  | op ht hu hst hc hop =>
      obtain ⟨hobjs, hfresh, -, -, hflush, -⟩ := startOp_batches hop
      refine .inl ?_
      rcases open_setStack h with h | ⟨b, n, hm, -⟩
      · cases h with
        | own h => exact .own (by rw [← hobjs]; exact h)
        | flush hf ho => exact .flush ((startOp_same hop).1.stack _ ▸ hf) ho
        | fresh hb ho => exact .fresh (hfresh ▸ hb) ho
      · exact absurd hm (hflush c b n)
  | @run t ch f rest ht hst =>
      have hmem : f ∈ (s.locals t).stack := by simp [hst]
      rcases open_setStack h with h | ⟨b, n, hm, ho⟩
      · rcases open_apply h with h | h
        · exact .inl h
        · rcases exec_opens h with ⟨newly, rfl, rfl⟩ | ⟨b, n, rfl, ho⟩
          · cases newly with
            | true => exact .inr (.inr ⟨t, ch, rest, rfl, hst, rfl⟩)
            | false => exact .inr (.inl (.frame hmem rfl))
          · exact .inl (.flush hmem ho)
      · rcases List.mem_append.1 hm with hm | hm
        · exact .inl (.own (exec_flush hm ▸ ho))
        · exact .inl (.flush (hst ▸ List.mem_cons_of_mem f hm) ho)
  | @coll ch e st fs hst hcoll =>
      obtain ⟨hop, -, -, hflush, -⟩ := collStep_batches (o := o) hcoll
      rcases open_setStack h with h | ⟨b, n, hm, -⟩
      · have h' : (e.apply s s.collector).Open c o := by
          cases h with
          | own h => exact .own h
          | flush hf ho => exact .flush hf ho
          | fresh hb ho => exact .fresh hb ho
        rcases open_apply h' with h | h
        · exact .inl h
        · exact .inr (.inl (.stage (hop c h)))
      · exact absurd hm (hflush c b n)
  | @sweep k ch w hw =>
      have h' : (Eff.apply s s.collector (sweepStep s w ch).1).Open c o := by
        cases h with
        | own h => exact .own h
        | flush hf ho => exact .flush hf ho
        | fresh hb ho => exact .fresh hb ho
      rcases open_apply h' with h | h
      · exact .inl h
      · exact .inr (.inl (.sweeper (List.mem_of_getElem? hw)
          (.inr (sweepStep_batches.1 c h))))
  | startWorker hj hr hc =>
      rcases open_setStack h with h | ⟨b, n, hm, -⟩
      · refine .inl ?_
        cases h with
        | own h => exact .own (register_objs h)
        | flush hf ho => exact .flush (register_stack hf) ho
        | fresh hb ho => exact .fresh ((register_batches s _).1 ▸ hb) ho
      · simp at hm
  | register hr hc =>
      refine .inl ?_
      cases h with
      | own h => exact .own (register_objs h)
      | flush hf ho => exact .flush (register_stack hf) ho
      | fresh hb ho => exact .fresh ((register_batches s _).1 ▸ hb) ho
  | @exit t ht hu hst hg hh hc =>
      refine .inl ?_
      cases h with
      | own h =>
          simp only [setLocal_locals] at h
          split at h
          · exact .own (t := t) h
          · exact .own h
      | flush hf ho =>
          simp only [setLocal_locals] at hf
          split at hf
          · exact .flush (t := t) hf ho
          · exact .flush hf ho
      | fresh hb ho => exact .fresh hb ho

/-- A batch is taken by the root scan, or by the collector before it. -/
theorem taken_step {s s' : St} {lab : Label} {o : Oid} (hs : StepCase s lab s') (h : s'.Taken o) :
    s.Taken o ∨
    (∃ t ch sc rest, lab = .run t ch ∧ (s.locals t).stack = .help (.scanPop sc) :: rest ∧
      s.Open (s.white t) o) ∨
    ∃ it, s.stage = .pending it ∧ (s.locals s.collector).stack = [] ∧
      s.Open (s.white s.collector) o := by
  cases hs with
  | op ht hu hst hc hop =>
      obtain ⟨-, -, hmarked, hsw, -, hholds⟩ := startOp_batches hop
      refine .inl ?_
      rcases taken_setStack h with h | ⟨f, hf, ho⟩
      · cases h with
        | frame hf ho => exact .frame ((startOp_same hop).1.stack _ ▸ hf) ho
        | stage h => exact .stage ((startOp_same hop).1.stage ▸ h)
        | marked hb ho => exact .marked (hmarked ▸ hb) ho
        | sweeper hw ho => exact .sweeper (hsw ▸ hw) ho
      · exact absurd ho (hholds o f hf)
  | @run t ch f rest ht hst =>
      have hmem : f ∈ (s.locals t).stack := by simp [hst]
      rcases taken_setStack h with h | ⟨g, hg, ho⟩
      · rcases taken_apply h with h | h
        · exact .inl h
        · exact .inl (.frame hmem (exec_takes h))
      · rcases List.mem_append.1 hg with hg | hg
        · rcases exec_holds hg ho with h | ⟨sc, rfl, q, b, hb, ho⟩ | ⟨q, b, hb, ho⟩
          · exact .inl (.frame hmem h)
          · exact .inr (.inl ⟨t, ch, sc, rest, rfl, hst, .fresh hb ho⟩)
          · exact .inl (.marked hb ho)
        · exact .inl (.frame (t := t) (by simp [hst, hg]) ho)
  | @coll ch e st fs hst hcoll =>
      obtain ⟨-, htk, hfs, -, hstage⟩ := collStep_batches (o := o) hcoll
      rcases taken_setStack h with h | ⟨f, hf, ho⟩
      · have h' : (e.apply s s.collector).Taken o ∨ st.holds o := by
          cases h with
          | frame hf ho => exact .inl (.frame hf ho)
          | stage h => exact .inr h
          | marked hb ho => exact .inl (.marked hb ho)
          | sweeper hw ho => exact .inl (.sweeper hw ho)
        rcases h' with h | h
        · exact .inl ((taken_apply h).resolve_right htk)
        · obtain ⟨⟨it, hit⟩, ho⟩ := hstage h
          exact .inr (.inr ⟨it, hit, hst, ho⟩)
      · exact absurd ho (hfs f hf)
  | @sweep k ch w hw =>
      refine .inl ?_
      have hback : (Eff.apply s s.collector (sweepStep s w ch).1).Taken o → s.Taken o := fun h =>
        (taken_apply h).resolve_right sweepStep_batches.2.1
      cases h with
      | frame hf ho => exact hback (.frame hf ho)
      | stage h => exact hback (.stage h)
      | marked hb ho => exact hback (.marked hb ho)
      | @sweeper w' hw' ho =>
          have hmem := List.mem_of_getElem? hw
          have hfrom : w' ∈ s.sweepers ∨ w' ∈ (sweepStep s w ch).2 := by
            rw [withSweepers_sweepers] at hw'
            split at hw'
            · next w₁ h₁ =>
                rcases List.mem_or_eq_of_mem_set hw' with h | h
                · exact .inl h
                · exact .inr (by rw [h₁, h]; rfl)
            · exact .inl (List.mem_of_mem_eraseIdx hw')
          rcases hfrom with h | h
          · exact .sweeper h ho
          · rcases sweepStep_batches.2.2 w' h ho with h | ⟨c, q, b, hb, ho⟩
            · exact .sweeper hmem h
            · exact .marked hb ho
  | startWorker hj hr hc =>
      refine .inl ?_
      rcases taken_setStack h with h | ⟨f, hf, ho⟩
      · cases h with
        | frame hf ho => exact .frame (register_stack hf) ho
        | stage h => exact .stage (register_stage s _ ▸ h)
        | marked hb ho => exact .marked ((register_batches s _).2.1 ▸ hb) ho
        | sweeper hw ho => exact .sweeper ((register_batches s _).2.2 ▸ hw) ho
      · simp only [List.mem_cons, List.not_mem_nil, or_false] at hf
        rcases hf with rfl | rfl | rfl | rfl | rfl <;> cases ho
  | register hr hc =>
      refine .inl ?_
      cases h with
      | frame hf ho => exact .frame (register_stack hf) ho
      | stage h => exact .stage (register_stage s _ ▸ h)
      | marked hb ho => exact .marked ((register_batches s _).2.1 ▸ hb) ho
      | sweeper hw ho => exact .sweeper ((register_batches s _).2.2 ▸ hw) ho
  | @exit t ht hu hst hg hh hc =>
      refine .inl ?_
      cases h with
      | frame hf ho =>
          simp only [setLocal_locals] at hf
          split at hf
          · exact .frame (t := t) hf ho
          · exact .frame hf ho
      | stage h => exact .stage h
      | marked hb ho => exact .marked hb ho
      | sweeper hw ho => exact .sweeper hw ho

end Cdpt
