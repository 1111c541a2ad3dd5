import Cdpt.Proofs.Sections

/-!
# A helper that traces runs beside no thread of the preceding N

`is_tracing_synced` walks the nodes like the wait of the collector and gives up
at the first one that shows a pinned N epoch. The argument is the one of the
wait: a node the walk has passed can show N again only with the epoch of a later
cycle, since a pin completes at the current epoch and the helper's own pin keeps
that within one timestamp. `Ground` collects what the rest of the development
takes for granted about pins, sections and helpers.

The check is weaker than the wait in one way. The collector waits for the
current epoch, while a helper may be pinned at the epoch before it, and the pin
it finds may be of either. So what the walk establishes for a node is stated
relative to the helper's own timestamp (`quietAt`): the node is not pinned in an
N that began before the helper's pin. This survives every step as long as the
helper keeps its epoch, even when the collector goes on to the next phase,
because the helper's pin holds the epoch there.

Where the wait of the collector for a tracing phase has returned there is
nothing to check (`quiet_of_waited`), which is why the scan workers and the
collector itself trace without asking. The frames behind the check
(`Frame.afterSync`) are reached only through it, and `SyncInv` carries the answer
along to every one of them.
-/

namespace Cdpt

/-- Node `i` is not pinned in an N that began before the pin of `t`. -/
def St.quietAt (s : St) (t i : Lid) : Prop :=
  (s.locals i).pinDone → (s.locals i).epoch.phase = .N →
    (s.locals t).epoch.timestamp < (s.locals i).epoch.timestamp

def St.quiet (s : St) (t : Lid) : Prop := ∀ i, s.quietAt t i

/-- What a helper does once `is_tracing_synced` has answered `true`. -/
def Frame.afterSync : Frame → Bool
  | .help (.rootNext _ _ _) | .help (.forceHps _ _ _ _ _ _) | .help .drainInit
  | .help (.drain _) | .help (.drainRecord _) | .help (.drainPop _) => true
  | .help (.scanPop sc) | .help (.scanObjs sc _ _) => !sc.isWorker
  | _ => false

structure SyncInv (s : St) : Prop where
  quiet : ∀ t, ∀ f ∈ (s.locals t).stack, f.afterSync = true → s.quiet t
  iter : ∀ t it, .help (.synced it) ∈ (s.locals t).stack →
    it.Linked ∧ ∀ i, it.passed i → s.quietAt t i

theorem afterSync_phase {f : Frame} (h : f.afterSync = true) : f.inPhase .N = false := by
  unfold Frame.afterSync at h
  split at h
  all_goals first
    | rfl
    | cases h
    | (simp only [Bool.not_eq_true'] at h; simp [Frame.inPhase, h])

/-- While `t` keeps its epoch, what it has seen stays seen. -/
theorem quietAt_step {s s' : St} {lab : Label} (hp : PinInv s) (hs : StepCase s lab s') {t i : Lid}
    (hd : (s.locals t).pinDone) (hN : (s.locals t).epoch.phase ≠ .N)
    (he : (s'.locals t).epoch = (s.locals t).epoch) (hq : s.quietAt t i) : s'.quietAt t i := by
  intro hdi hNi
  rw [he]
  rcases (node_step hp.str hs i).pinDone (hp.str.node i) hdi with ⟨hdi', hei⟩ | hei
  · rw [hei] at hNi ⊢
    exact hq hdi' hNi
  · rw [hei] at hNi ⊢
    obtain ⟨n, hn, het⟩ := hp.pins t hd
    have hts : (s.locals t).epoch.timestamp = n := by
      rw [het]
      exact hp.stamp n (by omega)
    rcases hn with hn | hn
    · refine absurd ?_ hN
      rw [het, hn, hp.now]
      exact hNi
    · rw [hts]
      show n < s.epoch.timestamp
      omega

/-- Once the wait of a tracing phase has returned there is no N pin at all. -/
theorem quiet_of_waited {s : St} (hp : PinInv s) (hw : s.waited) (hN : s.epoch.phase ≠ .N)
    (t : Lid) : s.quiet t := by
  intro i hd hNi
  rw [hp.epoch_of_waited hw hd] at hNi
  exact absurd hNi hN

/-- Frames past the check come from frames past the check, or from the check. -/
theorem exec_afterSync {s : St} {t : Lid} {ch : Nat} {f g : Frame} (hg : g ∈ (exec s t ch f).2)
    (ha : g.afterSync = true) : f.afterSync = true ∨ f = .help (.synced .fin) := by
  by_contra hc
  rw [not_or] at hc
  have hall : (exec s t ch f).2.all (fun g => !g.afterSync) = true := by
    cases f with
    | pin f => cases f <;> simp only [exec, execPin] <;> (repeat' split) <;> rfl
    | ptr f => exact execPtr_all (fun _ => rfl) (fun _ => rfl) (fun _ => rfl) s t ch f
    | mark f => exact execMark_all (fun _ => rfl) (fun _ => rfl) s t f
    | help f =>
        cases f with
        | synced it =>
            cases it with
            | fin => exact absurd rfl hc.2
            | _ =>
                simp only [exec, execHelp]
                repeat' split
                all_goals rfl
        | scanObjs sc done todo =>
            cases sc with
            | helper => exact absurd rfl hc.1
            | worker q hi hs =>
                simp only [exec, execHelp, scanObj, scanHazard, Scanner.next]
                repeat' split
                all_goals rfl
        | scanPop sc =>
            cases sc with
            | helper => exact absurd rfl hc.1
            | worker q hi hs =>
                simp only [exec, execHelp]
                repeat' split
                all_goals rfl
        | help | normalNext | normalPop | sweepObjs =>
            simp only [exec, execHelp]
            repeat' split
            all_goals rfl
        | _ => exact absurd rfl hc.1
  have := List.all_eq_true.1 hall g hg
  rw [ha] at this
  cases this

def Frame.notSynced : Frame → Bool
  | .help (.synced _) => false
  | _ => true

/-- The walk starts at the first node and moves on past a node that is not
pinned in N. -/
theorem exec_synced {s : St} {t : Lid} {ch : Nat} {f : Frame} {it : Iter}
    (hg : .help (.synced it) ∈ (exec s t ch f).2) :
    (f = .help .help ∧ it = s.firstNode) ∨
    ∃ it₀, f = .help (.synced it₀) ∧ (it = s.iterStep false it₀ ∨
      ∃ i nx, it₀ = .act i nx ∧ it = .goto nx ∧
        ¬ ((s.locals i).epoch.isPinned = true ∧ (s.locals i).epoch.phase = .N)) := by
  have hno : ∀ {fs : List Frame},
      fs.all Frame.notSynced = true → .help (.synced it) ∉ fs := by
    intro fs h hm
    have := List.all_eq_true.1 h _ hm
    cases this
  cases f with
  | pin f =>
      exact absurd hg (hno (by
        cases f <;> simp only [exec, execPin] <;> (repeat' split) <;> rfl))
  | ptr f =>
      exact absurd hg (hno (execPtr_all (fun _ => rfl) (fun _ => rfl) (fun _ => rfl) s t ch f))
  | mark f => exact absurd hg (hno (execMark_all (fun _ => rfl) (fun _ => rfl) s t f))
  | help f =>
      cases f with
      | help =>
          simp only [exec, execHelp] at hg
          split at hg
          · simp at hg
          · simp only [List.mem_singleton, Frame.help.injEq, HelpFrame.synced.injEq] at hg
            exact .inl ⟨rfl, hg⟩
      | synced it₀ =>
          refine .inr ⟨it₀, rfl, ?_⟩
          cases it₀ with
          | act i nx =>
              simp only [exec, execHelp] at hg
              split at hg
              · cases hg
              · next hn =>
                  simp only [List.mem_singleton, Frame.help.injEq, HelpFrame.synced.injEq] at hg
                  exact .inr ⟨i, nx, rfl, hg, hn⟩
          | fin =>
              simp only [exec, execHelp] at hg
              split at hg <;> simp at hg
          | _ =>
              simp only [exec, execHelp, List.mem_singleton, Frame.help.injEq,
                HelpFrame.synced.injEq] at hg
              exact .inl hg
      | _ =>
          refine absurd hg (hno ?_)
          simp only [exec, execHelp, scanObj, scanHazard, Scanner.next]
          repeat' split
          all_goals rfl

/-- The thread that runs keeps its epoch as long as it has something left to do
in the phase it is in. -/
theorem run_epoch {s : St} {t : Lid} {ch : Nat} {f : Frame} {l : Local}
    (hv : l.pinView = (((exec s t ch f).1.apply s t).locals t).pinView)
    (hok : sectOk l.sect l.stack) {g : Frame}
    (hg : g ∈ l.stack) {ph : Phase} (hph : g.inPhase ph = false) (hf : f.pinning = false) :
    l.epoch = (s.locals t).epoch := by
  have hep : l.epoch = (((exec s t ch f).1.apply s t).locals t).epoch :=
    congrArg (fun v => v.2.2.1) hv
  rw [hep]
  rcases exec_pinFree_or s t ch f with ⟨he, -⟩ | ⟨g', rfl⟩
  · exact congrArg (fun v => v.2.2.1) (apply_pinView he s t t)
  · cases g' with
    | unpin =>
        have hgc : l.guardCount = (((exec s t ch (.pin .unpin)).1.apply s t).locals t).guardCount :=
          congrArg (fun v => v.2.1) hv
        simp only [exec, execPin] at hgc ⊢
        split
        · next h1 =>
            -- the last guard is gone: nothing that is left belongs to a phase
            rw [if_pos h1] at hgc
            simp only [Eff.apply, setLocal_locals, if_true] at hgc
            rw [sect_free hgc] at hok
            rcases sectOk_mem hok hg with ⟨q, hq, -⟩ | hall
            · cases hq
            · rw [hall ph] at hph
              cases hph
        · simp [Eff.apply]
    | load | store | check => cases hf
    | _ =>
        simp only [exec, execPin]
        repeat' split
        all_goals simp [Eff.apply]

/-- One step of the walk passes nodes that are not in use, or not pinned in N. -/
theorem quietAt_walk {s : St} (hp : PinInv s) {t : Lid} {it₀ it : Iter}
    (hl : it₀.Linked) (hq : ∀ i, it₀.passed i → s.quietAt t i)
    (h : it = s.iterStep false it₀ ∨ ∃ i nx, it₀ = .act i nx ∧ it = .goto nx ∧
      ¬ ((s.locals i).epoch.isPinned = true ∧ (s.locals i).epoch.phase = .N)) :
    it.Linked ∧ ∀ i, it.passed i → s.quietAt t i := by
  rcases h with rfl | ⟨i, nx, rfl, rfl, hn⟩
  · refine ⟨(iterStep_passed (j := 0) hl hp.str.beyond).1, fun i hi => ?_⟩
    rcases (iterStep_passed hl hp.str.beyond).2 hi with hi | hu
    · exact hq i hi
    · exact fun hd => absurd hd (hp.str.not_done hu)
  · refine ⟨Iter.linked_goto nx, fun j hj => ?_⟩
    rcases Iter.passed_goto hl hj with hj | rfl
    · exact hq j hj
    · intro hd hN
      obtain ⟨n, -, he⟩ := hp.pins j hd
      exact absurd ⟨by rw [he]; rfl, hN⟩ hn

theorem SyncInv.step {s s' : St} {lab : Label} (h : SyncInv s) (hp : PinInv s) (hc : SectInv s)
    (hs : StepCase s lab s') : SyncInv s' := by
  have hc' : SectInv s' := hc.step hp hs
  have hnode := node_step hp.str hs
  -- What is left of a thread's own view once it is known to keep its epoch.
  have hkeep : ∀ {t : Lid} {g : Frame}, g ∈ (s.locals t).stack → g.inPhase .N = false →
      (s'.locals t).epoch = (s.locals t).epoch → ∀ {i}, s.quietAt t i → s'.quietAt t i := by
    intro t g hg hgN he i hq
    obtain ⟨hd, hph⟩ := hc.mem_phase hg hgN
    exact quietAt_step hp hs hd (fun hN => by rw [hN, hgN] at hph; cases hph) he hq
  -- A thread inside `pin_freshly` has nothing on its stack that belongs to a phase.
  have hpin : ∀ {t : Lid} {f g : Frame} {rest : List Frame}, (s.locals t).stack = f :: rest →
      g ∈ (s.locals t).stack → g.inPhase .N = false → f.pinning = false := by
    intro t f g rest hst hg hgN
    exact ((pinDone_head hst).1 (hc.mem_phase hg hgN).1).2
  refine ⟨fun t g hg ha => ?_, fun t it hg => ?_⟩
  · have hgN := afterSync_phase ha
    cases hnode t with
    | same hv hst =>
        rw [hst] at hg
        exact fun i => hkeep hg hgN (congrArg (fun v => v.2.2.1) hv) (h.quiet t g hg ha i)
    | push _ _ _ _ hen =>
        have := List.all_eq_true.1 hen g hg
        cases g with
        | help f =>
            cases isEntry_help this
            cases ha
        | _ => cases ha
    | @run ch f rest hst hv hst' =>
        have hfrom : ∃ g₀ ∈ (s.locals t).stack, g₀.inPhase .N = false ∧ s.quiet t := by
          rw [hst', List.mem_append] at hg
          rcases hg with hg | hg
          · rcases exec_afterSync hg ha with hf | rfl
            · exact ⟨f, by simp [hst], afterSync_phase hf, h.quiet t f (by simp [hst]) hf⟩
            · exact ⟨_, by rw [hst]; exact List.mem_cons_self .., rfl,
                fun i => (h.iter t .fin (by simp [hst])).2 i trivial⟩
          · exact ⟨g, by simp [hst, hg], hgN, h.quiet t g (by simp [hst, hg]) ha⟩
        obtain ⟨g₀, hg₀, hgN₀, hq⟩ := hfrom
        exact fun i => hkeep hg₀ hgN₀
          (run_epoch hv (hc'.node t) hg hgN (hpin hst hg₀ hgN₀)) (hq i)
    | join _ _ _ _ _ hst =>
        rcases hst with hst | ⟨-, lo, hi, hz, hst⟩ <;> rw [hst] at hg
        · cases hg
        · simp only [List.mem_cons, List.not_mem_nil, or_false] at hg
          rcases hg with rfl | rfl | rfl | rfl | rfl <;> cases ha
    | leave _ _ _ _ hst =>
        rw [hst] at hg
        cases hg
  · have hgN : Frame.inPhase (.help (.synced it)) .N = false := rfl
    cases hnode t with
    | same hv hst =>
        rw [hst] at hg
        obtain ⟨hl, hq⟩ := h.iter t it hg
        exact ⟨hl, fun i hi => hkeep hg hgN (congrArg (fun v => v.2.2.1) hv) (hq i hi)⟩
    | push _ _ _ _ hen =>
        have := List.all_eq_true.1 hen _ hg
        cases this
    | @run ch f rest hst hv hst' =>
        have hmem := hg
        rw [hst', List.mem_append] at hg
        rcases hg with hg | hg
        · rcases exec_synced hg with ⟨rfl, rfl⟩ | ⟨it₀, rfl, hit⟩
          · exact hp.str.passed_firstNode _
          · have hg₀ : .help (.synced it₀) ∈ (s.locals t).stack := by simp [hst]
            obtain ⟨hl, hq⟩ := h.iter t it₀ hg₀
            obtain ⟨hl', hq'⟩ := quietAt_walk hp hl hq hit
            exact ⟨hl', fun i hi => hkeep hg₀ rfl
              (run_epoch hv (hc'.node t) hmem hgN rfl) (hq' i hi)⟩
        · have hg₀ : .help (.synced it) ∈ (s.locals t).stack := by simp [hst, hg]
          obtain ⟨hl, hq⟩ := h.iter t it hg₀
          exact ⟨hl, fun i hi => hkeep hg₀ hgN
            (run_epoch hv (hc'.node t) hmem hgN (hpin hst hg₀ hgN)) (hq i hi)⟩
    | join _ _ _ _ _ hst =>
        rcases hst with hst | ⟨-, lo, hi, hz, hst⟩ <;> rw [hst] at hg <;> simp at hg
    | leave _ _ _ _ hst =>
        rw [hst] at hg
        cases hg

/-! ## What every reachable state has -/

structure Ground (s : St) : Prop where
  pin : PinInv s
  sect : SectInv s
  sync : SyncInv s

theorem stack_init (n : Nat) (i : Lid) : ((St.init n).locals i).stack = [] := by
  by_cases h : i = 0 <;> simp [St.init, h, Local.default]

theorem Ground.init (n : Nat) : Ground (St.init n) where
  pin := .init n
  sect := .init n
  sync := ⟨fun t f hf => by simp [stack_init] at hf, fun t it hf => by simp [stack_init] at hf⟩

theorem Ground.step {s s' : St} {lab : Label} (h : Ground s) (hs : Cdpt.step s lab = some s') :
    Ground s' where
  pin := h.pin.step hs
  sect := h.sect.step h.pin (stepCase hs)
  sync := h.sync.step h.pin h.sect (stepCase hs)

theorem Ground.of_reachable {n : Nat} {s : St} (h : Reachable n s) : Ground s :=
  h.invariant (Ground.init n) fun hi _ hs => hi.step hs

end Cdpt
