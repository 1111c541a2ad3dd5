import Cdpt.Lib.Inevitable
import Cdpt.Proofs.Quiet

/-!
# What a trace still has to do

The measure under which a cycle by the collector alone comes to an end, whoever is
scheduled. Most of it is a weight for every frame that covers the frames it leaves,
with the batches, the queued tasks and the collector's own position in the same
currency. One step does not fit in: `schedule_mark` adds a task, and what a task
costs cannot be bounded by the frame that adds it, since marking goes round in
cycles.

What bounds it is that a thread that has scheduled a task for the pointee of a link
next tries to darken the link. Either that succeeds, and there is one white link
less, or another thread has darkened it in between. So white links and objects come
first, then the threads that are not about to darken a link, and only then the
weights. A frame whose view of a link is out of date pays for its task in advance:
its weight may jump when a link changes, since that step has already paid.

The weights are functions of a `Scene`, the part of the state that changes only when
the trace gets on: colours of links and objects, the number of nodes and objects,
the epoch. Within one scene a weight is a constant of its frame, so a step is paid
for or not by what it pops and pushes (`exec_pays`), which is one inequality for
each frame of a quiet thread. `run_down` puts it together for a step of a thread:
the scene changes and something has been darkened; or a link is about to be; or the
work gets less.

The walks of the collector over the nodes are weighed by what they have ahead. A
node can be appended meanwhile only for a worker that starts, which is a change of
the scene.
-/

namespace Cdpt

open Finset

/-! ## Walks over `locals` -/

section Walk

variable (n : Nat) (c : Nat → Nat)

/-- The steps a walk over `n` nodes has ahead of it at the `next` pointer of node `i`,
when it spends `c i` on a node besides the three of its own. -/
def nodeRank (i : Nat) : Nat := c i + 3 + ∑ j ∈ Ico (i + 1) n, (c j + 3)

def gotoRank : Option Lid → Nat
  | some j => nodeRank n c j
  | none => 0

def Iter.rank : Iter → Nat
  | .node i => nodeRank n c i
  | .test i nx => gotoRank n c nx + c i + 2
  | .act i nx => gotoRank n c nx + c i + 1
  | .fin => 0

@[simp] theorem rank_goto (nx : Option Lid) : (Iter.goto nx).rank n c = gotoRank n c nx := by
  cases nx <;> rfl

@[simp] theorem rank_fin : Iter.rank n c .fin = 0 := rfl

@[simp] theorem rank_act (i : Lid) (nx : Option Lid) :
    Iter.rank n c (.act i nx) = gotoRank n c nx + c i + 1 := rfl

variable {n c}

theorem gotoRank_mono {c' : Nat → Nat} (h : ∀ i, c' i ≤ c i) (nx : Option Lid) :
    gotoRank n c' nx ≤ gotoRank n c nx := by
  cases nx with
  | none => exact Nat.le_refl _
  | some j =>
      have hsum : ∑ k ∈ Ico (j + 1) n, (c' k + 3) ≤ ∑ k ∈ Ico (j + 1) n, (c k + 3) :=
        sum_le_sum fun k _ => Nat.add_le_add_right (h k) 3
      exact Nat.add_le_add (Nat.add_le_add_right (h j) 3) hsum

theorem rank_mono {c' : Nat → Nat} (h : ∀ i, c' i ≤ c i) (it : Iter) :
    it.rank n c' ≤ it.rank n c := by
  cases it with
  | node i => exact gotoRank_mono h (some i)
  | test i nx | act i nx =>
      have := gotoRank_mono (n := n) h nx
      have := h i
      simp only [Iter.rank]
      omega
  | fin => exact Nat.le_refl _

theorem gotoRank_next (s : St) (c : Nat → Nat) (i : Nat) :
    gotoRank s.nLocals c (s.nextNode i) + c i + 3 ≤ nodeRank s.nLocals c i := by
  unfold St.nextNode nodeRank
  split
  · next h =>
      show nodeRank s.nLocals c (i + 1) + c i + 3 ≤ _
      rw [sum_eq_sum_Ico_succ_bot h, nodeRank]
      omega
  · show 0 + c i + 3 ≤ _
    omega

/-- Between two nodes. -/
def Iter.moves : Iter → Bool
  | .node _ | .test _ _ => true
  | .act _ _ | .fin => false

theorem rank_iterStep (s : St) (c : Nat → Nat) (all : Bool) (it : Iter) (h : it.moves = true) :
    (s.iterStep all it).rank s.nLocals c < it.rank s.nLocals c := by
  cases it with
  | node i =>
      have := gotoRank_next s c i
      cases all <;> simp only [St.iterStep, Iter.rank, if_pos, Bool.false_eq_true, if_false] <;>
        omega
  | test i nx =>
      simp only [St.iterStep]
      split
      · simp only [Iter.rank]
        omega
      · rw [rank_goto, Iter.rank]
        omega
  | act | fin => cases h

end Walk

/-! ## Weights -/

/-- What the weights are taken against. It changes when a trace gets on: a link or an
object is marked, a worker is started, an epoch is stored. -/
@[ext] structure Scene where
  nLocals : Nat
  nextObj : Oid
  epoch : Epoch
  objs : Oid → ManObj
  /-- The length of the current hazard array. -/
  slots : Lid → Nat
  arrays : Lid → Nat → Nat

def St.scene (s : St) : Scene where
  nLocals := s.nLocals
  nextObj := s.nextObj
  epoch := s.epoch
  objs := s.objs
  slots i := (s.locals i).hazards.length
  arrays i ver := (s.hazardArray i ver).length

def HpScan.rank (v : Scene) : HpScan → Nat
  | .iter it => it.rank v.nLocals fun i => v.slots i + 1
  | .slots i ver j nx => gotoRank v.nLocals (fun i => v.slots i + 1) nx + (v.arrays i ver - j) + 1

def Scanner.rank : Scanner → Nat
  | .worker q hi _ => hi - q + 1
  | .helper _ qs _ _ => 2 * qs.length + 2

namespace Scene

variable (v : Scene)

def black : Color := v.epoch.color.flip

def firstNode : Iter := if 0 < v.nLocals then .node 0 else .fin

/-- A walk over all nodes. -/
def round : Nat := v.firstNode.rank v.nLocals fun _ => 0

/-- `ptr` is what link `i` of `o` holds, and the link is not dark. -/
def current (o : Oid) (i : Nat) (ptr : ManPtr) : Prop :=
  (v.objs o).link i = ptr ∧ ptr.ptrMeta ≠ .Unrooted v.black

instance (o : Oid) (i : Nat) (ptr : ManPtr) : Decidable (v.current o i ptr) :=
  inferInstanceAs (Decidable (_ ∧ _))

/-- A pass over the links of `o` from `i` on that finds them dark, and the header. -/
def visit (o : Oid) (i : Nat) : Nat := 4 * ((v.objs o).arity - i) + 4

/-- `Guard::help_collect`. -/
def helpCost : Nat := v.round + 2 * objBatchesShard + 8

/-- More than any position of the collector is worth over another that differs from
it only in whether there are tasks. -/
def slack (c : Lid) : Nat := 4 * v.round + v.slots c + v.helpCost + 20

/-- A task in a queue. It also pays for the round of `find_task` that finds it. -/
def queued (c : Lid) (o : Oid) : Nat := v.visit o 0 + v.round + v.slack c + 5

/-- What comes after `shade_pointee` when another thread has changed the link. -/
def stale (c : Lid) (p o : Oid) (i : Nat) : Nat := v.visit o i + v.queued c p + v.slack c + 1

/-- An object of a batch that is still to be scanned. -/
def scanned (o : Oid) : Nat :=
  HpScan.rank v (.iter v.firstNode) + v.visit o 0 + 4

def batch (b : List Oid) : Nat := (b.map v.scanned).sum + 2

def pinFrame (t : Lid) : PinFrame → Nat
  | .pin => v.slots t + 8
  | .load => v.slots t + 7
  | .store e => v.slots t + if e = v.epoch then 5 else 7
  | .check e => v.slots t + if e = v.epoch then 4 else 6
  | .barrier i => v.slots t - i + 1
  | .observe _ => 1
  | .helpIf => v.helpCost + 1
  | .unpin => 1
  | .workerExit => 1

def markFrame : MarkFrame → Nat
  | .task o => v.visit o 0 + 1
  | .links o i => v.visit o i
  | .linkCas o i ptr => if v.current o i ptr then 0 else v.visit o i + 1
  | .header _ => 3
  | .headerCas o h => if (v.objs o).header = h then 1 else 2

/-- Only links are shaded here. The `k` steps are those up to the push. -/
def shading (c : Lid) (k : Nat) (p : Oid) : ShadeRet → Nat
  | .link o i ptr => k + if v.current o i ptr then 0 else v.stale c p o i
  | _ => 0

def ptrFrame (c : Lid) : PtrFrame → Nat
  | .shade p r => v.shading c 3 p r
  | .record p r => v.shading c 2 p r
  | .push p r => v.shading c 1 p r
  | _ => 0

def helpFrame : HelpFrame → Nat
  | .help => v.helpCost
  | .synced it => it.rank v.nLocals (fun _ => 0) + 2 * objBatchesShard + 7
  | .rootNext qs _ _ => 2 * qs.length + 1
  | .scanPop sc => sc.rank
  | .scanObjs sc _ todo => (todo.map v.scanned).sum + sc.rank + 1
  | .forceHps h _ sc _ o todo =>
      h.rank v + v.visit o 0 + 2 + ((todo.map v.scanned).sum + sc.rank + 1)
  | .drainInit => 4
  | .drain _ => 3
  | .drainRecord _ => 2
  | .drainPop _ => 1
  | _ => 0

/-- The weight of a frame of thread `t`, where `c` is the collector. -/
def frame (c t : Lid) : Frame → Nat
  | .pin f => v.pinFrame t f
  | .ptr f => v.ptrFrame c f
  | .mark f => v.markFrame f
  | .help f => v.helpFrame f

end Scene

/-! ## One step of a thread -/

/-- What an effect takes out of the queues. -/
def Eff.earns (v : Scene) (s : St) (t : Lid) : Eff → Nat
  | .popTask => (((s.locals t).markTasks.take 1).map (v.queued s.collector)).sum
  | .steal i _ => (((s.locals i).markTasks.take 1).map (v.queued s.collector)).sum
  | .popFresh c q => (((s.freshObjs c q).take 1).map v.batch).sum
  | _ => 0

/-- What an effect puts into the queues. -/
def Eff.spends (v : Scene) (c : Lid) : Eff → Nat
  | .pushTask o => v.queued c o
  | .pushFresh _ _ b => v.batch b
  | _ => 0

/-- What the collector's position can gain by the effect: only there being tasks or
not makes a difference to it. -/
def Eff.risk (v : Scene) (c : Lid) : Eff → Nat
  | .pushTask _ | .popTask => v.slack c
  | _ => 0

theorem rank_hpStep (s : St) {h : HpScan} (acc : List Oid) (hne : h ≠ .iter .fin) :
    (s.hpStep h acc).1.rank s.scene < h.rank s.scene := by
  cases h with
  | iter it =>
      cases it with
      | act i nx =>
          have hlen : s.scene.arrays i (s.locals i).oldHazards.length = s.scene.slots i := by
            simp [St.scene, St.hazardArray]
          simp only [St.hpStep, HpScan.rank, rank_act, hlen]
          omega
      | fin => exact absurd rfl hne
      | node i => exact rank_iterStep s _ false (.node i) rfl
      | test i nx => exact rank_iterStep s _ false (.test i nx) rfl
  | slots i ver j nx =>
      have hlen : s.scene.arrays i ver = (s.hazardArray i ver).length := rfl
      simp only [St.hpStep]
      split
      · simp only [HpScan.rank, rank_goto]
        omega
      · next hj =>
          have hlt := (List.getElem?_eq_some_iff.1 hj).1
          simp only [HpScan.rank, hlen]
          omega
      · next o hj =>
          have hlt := (List.getElem?_eq_some_iff.1 hj).1
          simp only [HpScan.rank, hlen]
          omega

section Pays

variable {s : St} {c t : Lid}

theorem pin_pays (ch : Nat) {f : PinFrame}
    (hslot : ∀ {i o}, f = .barrier i → (s.locals t).hazards[i]? ≠ some (some o)) :
    ((execPin s t ch f).2.map (s.scene.frame c t)).sum < s.scene.pinFrame t f := by
  have hlen : s.scene.slots t = (s.locals t).hazards.length := rfl
  have hep : s.scene.epoch = s.epoch := rfl
  cases f with
  | pin =>
      simp only [execPin]
      split <;> simp [Scene.frame, Scene.pinFrame]
  | load => simp [execPin, Scene.frame, Scene.pinFrame, hep]
  | store e =>
      simp only [execPin, List.map_cons, List.map_nil, List.sum_cons, List.sum_nil, Scene.frame,
        Scene.pinFrame]
      split <;> omega
  | check e =>
      simp only [execPin]
      split
      · next he =>
          subst he
          split <;> simp [Scene.frame, Scene.pinFrame, hep]
      · next he =>
          have he' : e ≠ s.epoch := Ne.symm he
          simp [Scene.frame, Scene.pinFrame, hep, he']
  | barrier i =>
      simp only [execPin]
      split
      · simp [Scene.pinFrame]
      · next hi =>
          have hlt := (List.getElem?_eq_some_iff.1 hi).1
          simp only [List.map_cons, List.map_nil, List.sum_cons, List.sum_nil, Scene.frame,
            Scene.pinFrame, hlen]
          omega
      · next o hi => exact absurd hi (hslot rfl)
  | observe | unpin | workerExit =>
      simp only [execPin]
      repeat' split
      all_goals simp [Scene.pinFrame]
  | helpIf =>
      simp only [execPin]
      split <;> simp [Scene.frame, Scene.pinFrame, Scene.helpFrame]

theorem visit_pos (v : Scene) (o : Oid) (i : Nat) : 4 ≤ v.visit o i := Nat.le_add_left ..

theorem visit_succ_le (v : Scene) (o : Oid) (i : Nat) : v.visit o (i + 1) ≤ v.visit o i := by
  unfold Scene.visit
  omega

theorem shadeLink_weight (hb : s.black t = s.blackColor) (o : Oid) (i : Nat) :
    s.scene.frame c t (shadeLink s t o i (s.link (.field o i))) ≤ s.scene.visit o (i + 1) := by
  have hpos := visit_pos s.scene o (i + 1)
  unfold shadeLink
  split
  · exact Nat.le_refl _
  · next hp =>
      have hcur : s.scene.current o i (s.link (.field o i)) :=
        ⟨rfl, fun h => hp (h.trans (congrArg PtrMeta.Unrooted hb.symm))⟩
      split
      · simp only [Scene.frame, Scene.ptrFrame, Scene.shading, if_pos hcur]
        omega
      · simp only [Scene.frame, Scene.markFrame, if_pos hcur]
        omega

theorem mark_pays {f : MarkFrame} (hb : s.black t = s.blackColor)
    (hcas : ∀ {o i ptr}, f = .linkCas o i ptr → ¬ s.scene.current o i ptr) :
    ((execMark s t f).2.map (s.scene.frame c t)).sum < s.scene.markFrame f := by
  cases f with
  | task o =>
      simp only [execMark]
      split <;> simp [Scene.frame, Scene.markFrame]
  | links o i =>
      simp only [execMark]
      split
      · next hi =>
          have hlt : s.scene.visit o (i + 1) < s.scene.visit o i := by
            have harity : (s.scene.objs o).arity = (s.objs o).arity := rfl
            simp only [Scene.visit, harity]
            omega
          simpa [Scene.markFrame] using
            Nat.lt_of_le_of_lt (shadeLink_weight (c := c) hb o i) hlt
      · have hpos := visit_pos s.scene o i
        simp only [List.map_cons, List.map_nil, List.sum_cons, List.sum_nil, Scene.frame,
          Scene.markFrame]
        omega
  | linkCas o i ptr =>
      have hle := visit_succ_le s.scene o i
      simp only [execMark, Scene.markFrame, if_neg (hcas rfl)]
      split
      · simp only [List.map_cons, List.map_nil, List.sum_cons, List.sum_nil, Scene.frame,
          Scene.markFrame]
        omega
      · have hw := shadeLink_weight (c := c) hb o i
        simp only [List.map_cons, List.map_nil, List.sum_cons, List.sum_nil]
        omega
  | header o =>
      simp only [execMark]
      split
      · simp [Scene.markFrame]
      · simp [Scene.frame, Scene.markFrame, St.scene]
  | headerCas o h =>
      simp only [execMark]
      split
      · next hh => simp [Scene.markFrame, St.scene, hh]
      · next hh =>
          split
          · simp [Scene.markFrame, St.scene, hh]
          · simp [Scene.frame, Scene.markFrame, St.scene, hh]

theorem ptr_pays (ch : Nat) {f : PtrFrame} (hq : Frame.quiet (.ptr f) = true)
    (hpush : ∀ {p o i ptr}, f = .push p (.link o i ptr) → ¬ s.scene.current o i ptr) :
    ((execPtr s t ch f).2.map (s.scene.frame c t)).sum + (execPtr s t ch f).1.spends s.scene c +
      (execPtr s t ch f).1.risk s.scene c < s.scene.ptrFrame c f := by
  cases f with
  | shade p r =>
      cases r with
      | link o i ptr =>
          have hle := visit_succ_le s.scene o i
          simp only [execPtr, Eff.spends, Eff.risk, Scene.ptrFrame, Scene.shading]
          split
          · simp only [ShadeRet.resume, List.map_cons, List.map_nil, List.sum_cons, List.sum_nil,
              Scene.frame, Scene.markFrame]
            split
            · omega
            · simp only [Scene.stale]
              omega
          · simp only [List.map_cons, List.map_nil, List.sum_cons, List.sum_nil, Scene.frame,
              Scene.ptrFrame, Scene.shading]
            omega
      | _ => cases hq
  | record p r =>
      cases r with
      | link o i ptr =>
          simp only [execPtr, Eff.spends, Eff.risk, List.map_cons, List.map_nil, List.sum_cons,
            List.sum_nil, Scene.frame, Scene.ptrFrame, Scene.shading]
          omega
      | _ => cases hq
  | push p r =>
      cases r with
      | link o i ptr =>
          simp only [execPtr, Eff.spends, Eff.risk, ShadeRet.resume, List.map_cons, List.map_nil,
            List.sum_cons, List.sum_nil, Scene.frame, Scene.markFrame, Scene.ptrFrame,
            Scene.shading, if_neg (hpush rfl), Scene.stale]
          omega
      | _ => cases hq
  | _ => cases hq

theorem scanHazard_weight (hs : List Oid) (sc : Scanner) (done : List Oid) (o : Oid)
    (todo : List Oid) :
    ((scanHazard hs sc done o todo).map (s.scene.frame c t)).sum ≤
      s.scene.visit o 0 + ((todo.map s.scene.scanned).sum + sc.rank + 1) := by
  unfold scanHazard
  split <;> simp [Scene.frame, Scene.markFrame, Scene.helpFrame]

@[simp] theorem rank_force (sc : Scanner) : sc.force.rank = sc.rank := by cases sc <;> rfl

theorem scanObj_weight (sc : Scanner) (done : List Oid) (o : Oid) (todo : List Oid) :
    ((scanObj s t sc done o todo).map (s.scene.frame c t)).sum <
      s.scene.scanned o + ((todo.map s.scene.scanned).sum + sc.rank + 1) := by
  have hobj : s.scene.visit o 0 < s.scene.scanned o := by
    unfold Scene.scanned
    omega
  have hhazard : ∀ hs (sc' : Scanner), sc'.rank = sc.rank →
      ((scanHazard hs sc' done o todo).map (s.scene.frame c t)).sum <
        s.scene.scanned o + ((todo.map s.scene.scanned).sum + sc.rank + 1) := by
    intro hs sc' hsc
    have hw := scanHazard_weight (s := s) (c := c) (t := t) hs sc' done o todo
    rw [hsc] at hw
    omega
  have hforce : ((([.help (.forceHps (.iter s.firstNode) [] sc done o todo)] :
      List Frame)).map (s.scene.frame c t)).sum <
        s.scene.scanned o + ((todo.map s.scene.scanned).sum + sc.rank + 1) := by
    have hfirst : s.scene.firstNode = s.firstNode := rfl
    simp only [List.map_cons, List.map_nil, List.sum_cons, List.sum_nil, Scene.frame,
      Scene.helpFrame, Scene.scanned, hfirst]
    omega
  unfold scanObj
  split
  · simp only [List.map_cons, List.map_nil, List.sum_cons, List.sum_nil, Scene.frame,
      Scene.markFrame, Scene.helpFrame]
    omega
  · split
    · exact hhazard _ _ rfl
    · exact hhazard _ _ rfl
    · split
      · split
        · exact hhazard _ _ (rank_force _)
        · exact hforce
      · exact hforce

theorem scannerNext_weight (sc : Scanner) :
    (sc.next.map (s.scene.frame c t)).sum ≤ sc.rank := by
  cases sc with
  | worker q hi hs => simp [Scanner.next, Scene.frame, Scene.helpFrame]
  | helper q qs k f =>
      simp only [Scanner.next]
      split <;> simp [Scene.frame, Scene.helpFrame, Scanner.rank]

theorem length_pickShard {qs : List Nat} (hne : qs ≠ []) (ch : Nat) :
    (qs.erase (pickShard qs ch)).length + 1 = qs.length := by
  have hpos : 0 < qs.length := List.length_pos_iff.2 hne
  have hlt : ch % qs.length < qs.length := Nat.mod_lt _ hpos
  have hmem : pickShard qs ch ∈ qs := by
    rw [pickShard, List.getD_eq_getElem _ _ hlt]
    exact List.getElem_mem hlt
  rw [List.length_erase_of_mem hmem]
  omega

theorem synced_pays (it : Iter) :
    ((execHelp s t 0 (.synced it)).2.map (s.scene.frame c t)).sum <
      s.scene.helpFrame (.synced it) := by
  cases it with
  | act i nx =>
      simp only [execHelp]
      split
      · simp [Scene.helpFrame]
      · simp only [List.map_cons, List.map_nil, List.sum_cons, List.sum_nil, Scene.frame,
          Scene.helpFrame, rank_act, rank_goto]
        omega
  | fin =>
      simp only [execHelp]
      split <;> simp [Scene.frame, Scene.helpFrame, objBatchesShard]
  | node i =>
      have := rank_iterStep s (fun _ => 0) false (.node i) rfl
      simpa [execHelp, Scene.frame, Scene.helpFrame, St.scene] using this
  | test i nx =>
      have := rank_iterStep s (fun _ => 0) false (.test i nx) rfl
      simpa [execHelp, Scene.frame, Scene.helpFrame, St.scene] using this

theorem scanPop_pays (ch : Nat) (sc : Scanner) :
    ((execHelp s t ch (.scanPop sc)).2.map (s.scene.frame c t)).sum <
      s.scene.helpFrame (.scanPop sc) + (execHelp s t ch (.scanPop sc)).1.earns s.scene s t := by
  -- What a scanner takes from a queue it pays for the scan with.
  have hpop : ∀ (col : Color) (q : Nat) {b : List Oid} {bs : List (List Oid)},
      s.freshObjs col q = b :: bs →
      (([.help (.scanObjs sc [] b)] : List Frame).map (s.scene.frame c t)).sum <
        sc.rank + Eff.earns s.scene s t (.popFresh col q) := by
    intro col q b bs hb
    simp only [List.map_cons, List.map_nil, List.sum_cons, List.sum_nil, Scene.frame,
      Scene.helpFrame, Eff.earns, hb, List.take_succ_cons, List.take_zero, Scene.batch]
    omega
  cases sc with
  | worker q hi hs =>
      simp only [execHelp]
      split
      · next hq =>
          split
          · simp only [List.map_cons, List.map_nil, List.sum_cons, List.sum_nil, Scene.frame,
              Scene.helpFrame, Scanner.rank, Eff.earns]
            omega
          · next b bs hb => exact hpop _ _ hb
      · simp [Scene.helpFrame, Scanner.rank]
  | helper q qs k f =>
      simp only [execHelp]
      split
      · simp [Scene.frame, Scene.helpFrame, Scanner.rank, Eff.earns]
      · next b bs hb => exact hpop _ _ hb

theorem help_pays (ch : Nat) {f : HelpFrame} (hq : Frame.quiet (.help f) = true)
    (hph : f = .help → (s.locals t).epoch.phase ≠ .N) (hc : c = s.collector) :
    ((execHelp s t ch f).2.map (s.scene.frame c t)).sum + (execHelp s t ch f).1.spends s.scene c +
        (execHelp s t ch f).1.risk s.scene c <
      s.scene.helpFrame f + (execHelp s t ch f).1.earns s.scene s t := by
  cases f with
  | help =>
      have hround : s.firstNode.rank s.scene.nLocals (fun _ => 0) = s.scene.round := rfl
      simp only [execHelp]
      split
      · next hN => exact absurd hN (hph rfl)
      · simp only [List.map_cons, List.map_nil, List.sum_cons, List.sum_nil, Scene.frame,
          Scene.helpFrame, Scene.helpCost, Eff.spends, Eff.risk, Eff.earns, hround]
        omega
  | normalNext | normalPop | sweepObjs => cases hq
  | synced it => exact synced_pays it
  | rootNext qs k f =>
      simp only [execHelp]
      split
      · simp [Scene.helpFrame, Eff.spends, Eff.risk]
      · next hne =>
          have hlen := length_pickShard (fun h : qs = [] => hne h) ch
          simp only [List.map_cons, List.map_nil, List.sum_cons, List.sum_nil, Scene.frame,
            Scene.helpFrame, Scanner.rank, Eff.spends, Eff.risk, Eff.earns]
          omega
  | scanPop sc =>
      have hpay := scanPop_pays (s := s) (c := c) (t := t) ch sc
      cases sc with
      | worker q hi hs =>
          simp only [execHelp] at hpay ⊢
          repeat' split
          all_goals simp_all [Eff.spends, Eff.risk]
      | helper q qs k f =>
          simp only [execHelp] at hpay ⊢
          split
          all_goals simp_all [Eff.spends, Eff.risk]
  | scanObjs sc done todo =>
      cases todo with
      | nil =>
          have hnext := scannerNext_weight (s := s) (c := c) (t := t) sc
          simp only [execHelp, Eff.spends, Eff.risk, Eff.earns, Scene.helpFrame, List.map_nil,
            List.sum_nil]
          omega
      | cons o todo =>
          have hobj := scanObj_weight (s := s) (c := c) (t := t) sc done o todo
          simp only [execHelp, Eff.spends, Eff.risk, Eff.earns, Scene.helpFrame, List.map_cons,
            List.sum_cons]
          omega
  | forceHps h acc sc done o todo =>
      by_cases hfin : h = .iter .fin
      · subst hfin
        have hw := scanHazard_weight (s := s) (c := c) (t := t) acc sc.force done o todo
        rw [rank_force] at hw
        simp only [execHelp, Eff.spends, Eff.risk, Eff.earns, Scene.helpFrame, HpScan.rank,
          rank_fin]
        omega
      · have hlt := rank_hpStep s acc hfin
        have hexec : execHelp s t ch (.forceHps h acc sc done o todo) = (.nop,
            [.help (.forceHps (s.hpStep h acc).1 (s.hpStep h acc).2 sc done o todo)]) := by
          simp only [execHelp]
        rw [hexec]
        simp only [List.map_cons, List.map_nil, List.sum_cons, List.sum_nil, Scene.frame,
          Scene.helpFrame, Eff.spends, Eff.risk, Eff.earns]
        omega
  | drainInit => simp [execHelp, Scene.frame, Scene.helpFrame, Eff.spends, Eff.risk, Eff.earns]
  | drain n =>
      simp only [execHelp]
      split <;> simp [Scene.frame, Scene.helpFrame, Eff.spends, Eff.risk, Eff.earns]
  | drainRecord n =>
      simp [execHelp, Scene.frame, Scene.helpFrame, Eff.spends, Eff.risk, Eff.earns]
  | drainPop n =>
      simp only [execHelp]
      split
      · next o q hq =>
          simp only [List.map_cons, List.map_nil, List.sum_cons, List.sum_nil, Scene.frame,
            Scene.helpFrame, Scene.markFrame, Eff.spends, Eff.risk, Eff.earns, hq,
            List.take_succ_cons, List.take_zero, Scene.queued, hc]
          omega
      · simp [Scene.helpFrame, Eff.spends, Eff.risk]

/-- A frame about to darken a link that is still white. -/
def Frame.poised (v : Scene) : Frame → Prop
  | .mark (.linkCas o i q) => v.current o i q
  | _ => False

instance (v : Scene) : (f : Frame) → Decidable (f.poised v)
  | .mark (.linkCas o i q) => inferInstanceAs (Decidable (v.current o i q))
  | .mark (.task _) | .mark (.links _ _) | .mark (.header _) | .mark (.headerCas _ _)
  | .pin _ | .ptr _ | .help _ => .isFalse id

/-- A frame about to schedule a task before it darkens a link that is still white. -/
def Frame.schedules (v : Scene) : Frame → Prop
  | .ptr (.push _ (.link o i q)) => v.current o i q
  | _ => False

/-- Every other step of a thread is paid for by the frame it runs and what it takes
from the queues. -/
theorem exec_pays (ch : Nat) {f : Frame} (hq : f.quiet = true)
    (hb : f.marking = true → s.black t = s.blackColor)
    (hph : f = .help .help → (s.locals t).epoch.phase ≠ .N)
    (hslot : ∀ o, some o ∉ (s.locals t).hazards) (hcas : ¬ f.poised s.scene)
    (hpush : ¬ f.schedules s.scene) :
    ((exec s t ch f).2.map (s.scene.frame s.collector t)).sum +
        (exec s t ch f).1.spends s.scene s.collector + (exec s t ch f).1.risk s.scene s.collector <
      s.scene.frame s.collector t f + (exec s t ch f).1.earns s.scene s t := by
  cases f with
  | pin f =>
      have hpay := pin_pays (s := s) (c := s.collector) (t := t) ch (f := f) fun {i o} _ hi =>
        hslot o (List.mem_of_getElem? hi)
      have hfree : (execPin s t ch f).1.spends s.scene s.collector = 0 ∧
          (execPin s t ch f).1.risk s.scene s.collector = 0 := by
        cases f <;> simp only [execPin] <;> (repeat' split) <;> exact ⟨rfl, rfl⟩
      simp only [exec, Scene.frame, hfree.1, hfree.2]
      omega
  | ptr f =>
      have hpay := ptr_pays (s := s) (c := s.collector) (t := t) ch hq fun {p o i ptr} hf hcur =>
        hpush (by subst hf; exact hcur)
      simp only [exec, Scene.frame]
      omega
  | mark f =>
      have hpay := mark_pays (s := s) (c := s.collector) (f := f) (hb rfl)
        fun {o i ptr} hf hcur => hcas (by subst hf; exact hcur)
      have hfree : (execMark s t f).1.spends s.scene s.collector = 0 ∧
          (execMark s t f).1.risk s.scene s.collector = 0 := by
        cases f <;> simp only [execMark] <;> (repeat' split) <;> exact ⟨rfl, rfl⟩
      simp only [exec, Scene.frame, hfree.1, hfree.2]
      omega
  | help f => exact help_pays ch hq (fun hf => hph (hf ▸ rfl)) rfl

end Pays

/-! ## What is still white -/

/-- The objects and links a trace has yet to darken. -/
def Scene.undone (v : Scene) : Nat :=
  ∑ o ∈ range v.nextObj, ((if (v.objs o).header.marked = v.black then 0 else 1) +
    ∑ i ∈ range (v.objs o).arity, if ((v.objs o).link i).ptrMeta = .Unrooted v.black then 0 else 1)

instance (s : St) (b : Color) (o : Oid) (i : Nat) : Decidable (s.dark b o i) :=
  inferInstanceAs (Decidable (_ = _))

theorem undone_lt {s s' : St} (hn : s'.nextObj = s.nextObj) (hb : s'.blackColor = s.blackColor)
    (harity : ∀ o, (s'.objs o).arity = (s.objs o).arity)
    (hcol : ∀ o, s.color o = s.blackColor → s'.color o = s.blackColor)
    (hlink : ∀ o i, s.dark s.blackColor o i → s'.dark s.blackColor o i)
    (hnew : ∃ o < s.nextObj, (s.color o ≠ s.blackColor ∧ s'.color o = s.blackColor) ∨
      ∃ i < (s.objs o).arity, ¬ s.dark s.blackColor o i ∧ s'.dark s.blackColor o i) :
    s'.scene.undone < s.scene.undone := by
  have hcolor : ∀ o, (if s'.color o = s.blackColor then 0 else 1) ≤
      (if s.color o = s.blackColor then 0 else 1 : Nat) := by
    intro o
    split
    · exact Nat.zero_le _
    · next h => rw [if_neg fun h' => h (hcol o h')]
  have hdark : ∀ o, ∀ i ∈ range (s.objs o).arity,
      (if s'.dark s.blackColor o i then 0 else 1) ≤
        (if s.dark s.blackColor o i then 0 else 1 : Nat) := by
    intro o i _
    split
    · exact Nat.zero_le _
    · next h => rw [if_neg fun h' => h (hlink o i h')]
  show ∑ o ∈ range s'.nextObj, ((if s'.color o = s'.blackColor then 0 else 1) +
      ∑ i ∈ range (s'.objs o).arity,
        if s'.dark s'.blackColor o i then 0 else 1) <
    ∑ o ∈ range s.nextObj, ((if s.color o = s.blackColor then 0 else 1) +
      ∑ i ∈ range (s.objs o).arity,
        if s.dark s.blackColor o i then 0 else 1)
  rw [hn, hb]
  obtain ⟨o, ho, hdone⟩ := hnew
  refine sum_lt_sum (fun p _ => ?_) ⟨o, mem_range.2 ho, ?_⟩
  · rw [harity p]
    exact Nat.add_le_add (hcolor p) (sum_le_sum (hdark p))
  · rw [harity o]
    rcases hdone with ⟨hold, hnew⟩ | ⟨i, hi, hold, hnew⟩
    · refine Nat.add_lt_add_of_lt_of_le ?_ (sum_le_sum (hdark o))
      rw [if_pos hnew, if_neg hold]
      exact Nat.zero_lt_one
    · refine Nat.add_lt_add_of_le_of_lt (hcolor o) (sum_lt_sum (hdark o) ⟨i, mem_range.2 hi, ?_⟩)
      rw [if_pos hnew, if_neg hold]
      exact Nat.zero_lt_one

/-- Writing a link or a header colour that is there already changes nothing. -/
theorem setLink_self {s : St} {t : Lid} {o : Oid} {i : Nat} {p : ManPtr}
    (h : (s.objs o).link i = p) : ((Eff.setLink (.field o i) p).apply s t).objs = s.objs := by
  subst h
  simp [Eff.apply, St.setObj]

theorem setColor_self {s : St} {t : Lid} {o : Oid} {c : Color} (h : s.color o = c) :
    ((Eff.setColor o c).apply s t).objs = s.objs := by
  subst h
  simp [Eff.apply, St.setObj, St.color]

theorem slotFree_of_quiet {e : Eff} (h : e.quiet = true) : e.slotFree = true := by
  cases e <;> first | rfl | cases h

theorem scene_eq {s s' : St} (hn : s'.nLocals = s.nLocals) (hobj : s'.nextObj = s.nextObj)
    (he : s'.epoch = s.epoch) (ho : s'.objs = s.objs)
    (hh : ∀ i, (s'.locals i).hazards = (s.locals i).hazards)
    (hold : ∀ i, (s'.locals i).oldHazards = (s.locals i).oldHazards) : s'.scene = s.scene := by
  have harr : ∀ i ver, s'.hazardArray i ver = s.hazardArray i ver := fun i ver => by
    rw [St.hazardArray, St.hazardArray, hh, hold]
  simp only [St.scene, hn, hobj, he, ho, hh, harr]

theorem scene_setStack (s : St) (t : Lid) (fs : List Frame) :
    (s.setStack t fs).scene = s.scene := by
  refine scene_eq rfl rfl rfl rfl (fun i => ?_) fun i => ?_ <;> rw [setStack_locals] <;> split
  all_goals first | rfl | (next h => rw [h])

theorem scene_apply {e : Eff} {s : St} {t : Lid} (hslot : e.slotFree = true)
    (he : (e.apply s t).epoch = s.epoch) (ho : (e.apply s t).objs = s.objs) :
    (e.apply s t).scene = s.scene :=
  scene_eq (apply_nLocals ..) (apply_nextObj ..) he ho (fun i => (slotFree_apply hslot s t i).1)
    fun i => (slotFree_apply hslot s t i).2

theorem undone_setColor {s : St} {t : Lid} {o : Oid} (ho : o < s.nextObj)
    (hcol : s.color o ≠ s.blackColor) :
    ((Eff.setColor o s.blackColor).apply s t).scene.undone < s.scene.undone := by
  have hobj : ∀ p, ((Eff.setColor o s.blackColor).apply s t).objs p =
      if p = o then { s.objs o with header := { (s.objs o).header with marked := s.blackColor } }
      else s.objs p := fun p => Function.update_apply ..
  refine undone_lt rfl rfl (fun p => ?_) (fun p hp => ?_) (fun p i hp => ?_)
    ⟨o, ho, .inl ⟨hcol, ?_⟩⟩
  · rw [hobj]
    split
    · next h => rw [h]
    · rfl
  · rw [St.color, hobj]
    split
    · rfl
    · exact hp
  · rw [St.dark, hobj]
    split
    · next h => exact h ▸ hp
    · exact hp
  · rw [St.color, hobj, if_pos rfl]

theorem undone_setLink {s : St} {t : Lid} {o : Oid} {i : Nat} {q : ManPtr} (ho : o < s.nextObj)
    (hi : i < (s.objs o).arity) (hdark : ¬ s.dark s.blackColor o i)
    (hq : q.ptrMeta = .Unrooted s.blackColor) :
    ((Eff.setLink (.field o i) q).apply s t).scene.undone < s.scene.undone := by
  have hobj : ∀ p, ((Eff.setLink (.field o i) q).apply s t).objs p =
      if p = o then { s.objs o with link := Function.update (s.objs o).link i q }
      else s.objs p := fun p => Function.update_apply ..
  refine undone_lt rfl rfl (fun p => ?_) (fun p hp => ?_) (fun p j hp => ?_)
    ⟨o, ho, .inr ⟨i, hi, hdark, ?_⟩⟩
  · rw [hobj]
    split
    · next h => rw [h]
    · rfl
  · rw [St.color, hobj]
    split
    · next h => exact h ▸ hp
    · exact hp
  · rw [St.dark, hobj]
    split
    · next h =>
        subst h
        show (Function.update (s.objs p).link i q j).ptrMeta = _
        rw [Function.update_apply]
        split
        · exact hq
        · exact hp
    · exact hp
  · rw [St.dark, hobj, if_pos rfl]
    show (Function.update (s.objs o).link i q i).ptrMeta = _
    rw [Function.update_self]
    exact hq

section Run

variable {s s' : St} {t : Lid} {ch : Nat} {f : Frame} {rest : List Frame}

theorem exec_poised {s : St} {f : Frame} (t : Lid) (ch : Nat) (h : f.poised s.scene) :
    ∃ o i p, f = .mark (.linkCas o i p) ∧ ¬ s.dark s.blackColor o i ∧
      (exec s t ch f).1 = .setLink (.field o i) (p.withMeta (.Unrooted (s.black t))) := by
  unfold Frame.poised at h
  split at h
  · next o i p =>
      obtain ⟨hcur, hwhite⟩ := h
      refine ⟨o, i, p, rfl, fun hdark => hwhite (hcur ▸ hdark), ?_⟩
      have hlink : s.link (.field o i) = p := hcur
      simp only [exec, execMark, if_pos hlink]
  · cases h

/-- A thread that does not change the scene darkens nothing, and one that does has
darkened something. -/
theorem run_scene (hf : f.quiet = true) (hq : (exec s t ch f).1.quiet = true)
    (hb : f.marking = true → s.black t = s.blackColor)
    (hheader : ∀ {o h}, f = .mark (.headerCas o h) → o < s.nextObj)
    (hlink : ∀ {o i p}, f = .mark (.linkCas o i p) → o < s.nextObj ∧ i < (s.objs o).arity)
    (hs : s' = ((exec s t ch f).1.apply s t).setStack t ((exec s t ch f).2 ++ rest))
    (he : s'.epoch = s.epoch) :
    (s'.scene = s.scene ∧ ¬ f.poised s.scene) ∨ s'.scene.undone < s.scene.undone := by
  have hundone : s'.scene.undone = ((exec s t ch f).1.apply s t).scene.undone := by rw [hs]; rfl
  by_cases hp : f.poised s.scene
  · obtain ⟨o, i, p, rfl, hwhite, hexec⟩ := exec_poised t ch hp
    obtain ⟨ho, hi⟩ := hlink rfl
    rw [hundone, hexec, hb rfl]
    exact .inr (undone_setLink ho hi hwhite rfl)
  · have hsame : ((exec s t ch f).1.apply s t).objs = s.objs → s'.scene = s.scene := fun ho => by
      subst hs
      rw [scene_setStack]
      exact scene_apply (slotFree_of_quiet hq) he ho
    cases hexec : (exec s t ch f).1 with
    | setColor o c =>
        obtain ⟨hd, rfl, -, hc⟩ := exec_setColor hexec
        rw [hb rfl] at hc
        subst hc
        by_cases hcol : s.color o = s.blackColor
        · exact .inl ⟨hsame (hexec ▸ setColor_self hcol), hp⟩
        · rw [hundone, hexec]
          exact .inr (undone_setColor (hheader rfl) hcol)
    | setLink l q =>
        cases exec_setLink hexec with
        | rooted | unrooted | unroot => cases hf
        | @shade o i p hl hcur =>
            -- The link is dark already: the CAS writes what is there.
            subst hl
            have hdark : p.ptrMeta = .Unrooted (s.black t) := by
              rw [hb rfl]
              by_contra h
              exact hp ⟨hcur, h⟩
            have hkeep : p.withMeta (.Unrooted (s.black t)) = p := by
              rw [← hdark]
              rfl
            refine .inl ⟨hsame ?_, hp⟩
            rw [hexec, hkeep]
            exact setLink_self hcur
    | setCount | reclaim =>
        rw [hexec] at hq
        cases hq
    | _ => exact .inl ⟨hsame (by rw [hexec]; rfl), hp⟩

end Run

/-! ## The whole of it -/

def St.nodeWork (v : Scene) (s : St) (t : Nat) : Nat :=
  ((s.locals t).stack.map (v.frame s.collector t)).sum +
    ((s.locals t).markTasks.map (v.queued s.collector)).sum

/-- Frames, tasks and fresh batches. -/
def St.chores (v : Scene) (s : St) : Nat :=
  ∑ t ∈ range s.nLocals, s.nodeWork v t + shards (fun _ => v.batch) s.freshObjs

section Chores

variable {v : Scene} {s : St} {t : Lid}

theorem chores_setLocal (ht : t < s.nLocals) (l : Local) (hst : l.stack = (s.locals t).stack) :
    (s.setLocal t l).chores v + ((s.locals t).markTasks.map (v.queued s.collector)).sum =
      s.chores v + (l.markTasks.map (v.queued s.collector)).sum := by
  have hsum := Sums.sum_exchange (mem_range.2 ht)
    (f := (s.setLocal t l).nodeWork v) (g := s.nodeWork v) fun i _ hi => by
      rw [St.nodeWork, setLocal_locals, if_neg hi, setLocal_collector]
      rfl
  have hnode : (s.setLocal t l).nodeWork v t =
      ((s.locals t).stack.map (v.frame s.collector t)).sum +
        (l.markTasks.map (v.queued s.collector)).sum := by
    rw [St.nodeWork, setLocal_locals, if_pos rfl, hst, setLocal_collector]
  have hold : s.nodeWork v t = ((s.locals t).stack.map (v.frame s.collector t)).sum +
      ((s.locals t).markTasks.map (v.queued s.collector)).sum := rfl
  show ∑ i ∈ range s.nLocals, (s.setLocal t l).nodeWork v i + _ + _ = _
  rw [St.chores, setLocal_freshObjs]
  omega

theorem chores_setStack (ht : t < s.nLocals) (fs : List Frame) :
    (s.setStack t fs).chores v + ((s.locals t).stack.map (v.frame s.collector t)).sum =
      s.chores v + (fs.map (v.frame s.collector t)).sum := by
  have hsum := Sums.sum_exchange (mem_range.2 ht)
    (f := (s.setStack t fs).nodeWork v) (g := s.nodeWork v) fun i _ hi => by
      rw [St.nodeWork, setStack_stack_ne _ _ hi, setStack_collector]
      rfl
  have hnode : (s.setStack t fs).nodeWork v t = (fs.map (v.frame s.collector t)).sum +
      ((s.locals t).markTasks.map (v.queued s.collector)).sum := by
    rw [St.nodeWork, setStack_stack_self, setStack_tasks, setStack_collector]
  have hold : s.nodeWork v t = ((s.locals t).stack.map (v.frame s.collector t)).sum +
      ((s.locals t).markTasks.map (v.queued s.collector)).sum := rfl
  show ∑ i ∈ range s.nLocals, (s.setStack t fs).nodeWork v i + _ + _ = _
  rw [St.chores, setStack_freshObjs]
  omega

theorem chores_congr {s' : St} (hn : s'.nLocals = s.nLocals) (hc : s'.collector = s.collector)
    (hstk : ∀ i, (s'.locals i).stack = (s.locals i).stack)
    (htask : ∀ i, (s'.locals i).markTasks = (s.locals i).markTasks)
    (hf : s'.freshObjs = s.freshObjs) : s'.chores v = s.chores v := by
  simp only [St.chores, St.nodeWork, hn, hc, hstk, htask, hf]

/-- The queues and the frames after an effect. -/
theorem chores_apply {e : Eff} (ht : t < s.nLocals) (hfit : e.fits s t)
    (hsteal : ∀ {j n}, e = .steal j n → j < s.nLocals) :
    (e.apply s t).chores v + e.earns v s t = s.chores v + e.spends v s.collector := by
  have hqueue : ∀ (f : Oid → Nat) (q : List Oid),
      (q.tail.map f).sum + ((q.take 1).map f).sum = (q.map f).sum := by
    intro f q
    cases q with
    | nil => rfl
    | cons o r =>
        simp
        omega
  cases e with
  | pushTask o =>
      have h := chores_setLocal (v := v) ht
        { s.locals t with markTasks := (s.locals t).markTasks ++ [o] } rfl
      simp only [List.map_append, List.map_cons, List.map_nil, List.sum_append, List.sum_cons,
        List.sum_nil] at h
      simp only [Eff.apply, Eff.earns, Eff.spends]
      omega
  | popTask =>
      have h := chores_setLocal (v := v) ht
        { s.locals t with markTasks := (s.locals t).markTasks.tail } rfl
      have hq := hqueue (v.queued s.collector) (s.locals t).markTasks
      simp only at h
      simp only [Eff.apply, Eff.earns, Eff.spends]
      omega
  | steal j n =>
      -- Two writes: the victim's queue first, then the thief's.
      have hj := hsteal rfl
      have hfirst := chores_setLocal (v := v) hj
        { s.locals j with markTasks := (s.locals j).markTasks.drop (n + 1) } rfl
      generalize hu : s.setLocal j { s.locals j with
        markTasks := (s.locals j).markTasks.drop (n + 1) } = u at hfirst
      have hnu : u.nLocals = s.nLocals := by rw [← hu, setLocal_nLocals]
      have hcu : u.collector = s.collector := by rw [← hu, setLocal_collector]
      have hsecond := chores_setLocal (v := v) (s := u) (t := t) (by rw [hnu]; exact ht)
        { u.locals t with markTasks := (u.locals t).markTasks ++
          ((s.locals j).markTasks.take (n + 1)).tail } rfl
      have happly : (Eff.steal j n).apply s t = u.setLocal t { u.locals t with
          markTasks := (u.locals t).markTasks ++ ((s.locals j).markTasks.take (n + 1)).tail } := by
        rw [← hu]
        rfl
      have hsplit := hqueue (v.queued s.collector) ((s.locals j).markTasks.take (n + 1))
      have hall : (((s.locals j).markTasks.take (n + 1)).map (v.queued s.collector)).sum +
          (((s.locals j).markTasks.drop (n + 1)).map (v.queued s.collector)).sum =
            ((s.locals j).markTasks.map (v.queued s.collector)).sum := by
        rw [← List.sum_append, ← List.map_append, List.take_append_drop]
      rw [List.take_take, Nat.min_eq_left (by omega : 1 ≤ n + 1)] at hsplit
      simp only [List.map_append, List.sum_append, hcu] at hfirst hsecond
      rw [happly]
      simp only [Eff.earns, Eff.spends]
      omega
  | pushFresh c q b =>
      have h := shards_push (fun _ => v.batch) s.freshObjs c hfit b
      have hb : (Eff.apply s t (.pushFresh c q b)).chores v =
        ∑ t ∈ range s.nLocals, s.nodeWork v t + shards (fun _ => v.batch)
          (setQueue s.freshObjs c q (s.freshObjs c q ++ [b])) := rfl
      rw [hb, h]
      simp only [St.chores, Eff.earns, Eff.spends]
      omega
  | popFresh c q =>
      have h := shards_pop (fun _ => v.batch) s.freshObjs c hfit
      have hb : (Eff.apply s t (.popFresh c q)).chores v = ∑ t ∈ range s.nLocals, s.nodeWork v t +
        shards (fun _ => v.batch) (setQueue s.freshObjs c q (s.freshObjs c q).tail) := rfl
      rw [hb]
      simp only [St.chores, Eff.earns, Eff.spends]
      omega
  | setLink l p =>
      cases l <;> exact congrArg (· + 0) (chores_congr rfl rfl (fun _ => rfl) (fun _ => rfl) rfl)
  | _ =>
      refine congrArg (· + 0) (chores_congr (apply_nLocals ..) (apply_collector ..)
        (fun i => apply_stack ..) (fun i => ?_) rfl)
      rcases markTasks_apply _ s t i with heq | ⟨o, he, -⟩ | ⟨he, -⟩ | ⟨j, n, he, -⟩
      · exact heq
      · cases he
      · cases he
      · cases he

end Chores

/-! ## The collector's own position -/

/-- Whether a task is queued anywhere. -/
def St.busy (s : St) : Bool := decide (∃ t < s.nLocals, (s.locals t).markTasks ≠ [])

/-- What `take_obj_batch` spends on node `i`. -/
def St.openBatch (v : Scene) (s : St) (i : Nat) : Nat :=
  v.batch ((s.locals i).objs v.epoch.color).1 + 2

/-- The position of the collector up to `next_normal`. Without tasks the trace ends:
`find_task` fails, and the confirmation that follows does not. With tasks the way is
shorter, since the collector comes upon one. -/
def Stage.credit (v : Scene) (c : Lid) (own : Nat → Nat) (busy : Bool) : Stage → Nat
  | .wait it => it.rank v.nLocals (fun _ => 0) + match v.epoch.phase with
      | .N => 1
      | .RT => v.firstNode.rank v.nLocals own + HpScan.rank v (.iter v.firstNode) + v.slots c + 13
      | .CT => if busy then 3 * v.round + v.slots c + 14 else 3 * v.round + 4
  | .scan => v.firstNode.rank v.nLocals own + HpScan.rank v (.iter v.firstNode) + v.slots c + 12
  | .pending it => it.rank v.nLocals own + HpScan.rank v (.iter v.firstNode) + 3
  | .pendPush b _ nx =>
      gotoRank v.nLocals own nx + v.batch b + HpScan.rank v (.iter v.firstNode) + 5
  | .pendStat _ nx => gotoRank v.nLocals own nx + HpScan.rank v (.iter v.firstNode) + 4
  | .hps h _ => h.rank v + 2
  | .spawnScan _ => 1
  | .drain => if busy then v.round + v.slots c + 11 else 5 * v.round + v.helpCost + v.slots c + 18
  | .find => if busy then v.round + 2 else 5 * v.round + v.helpCost + 9
  | .steal it => it.rank v.nLocals (fun _ => 0) +
      if busy then 1 else 4 * v.round + v.helpCost + 8
  | .complete => if busy then 4 * v.round + v.slots c + 15 else 4 * v.round + 5
  | .conf1 it => it.rank v.nLocals (fun _ => 0) +
      if busy then 2 * v.round + v.slots c + 13 else 2 * v.round + 3
  | .conf2 it => it.rank v.nLocals (fun _ => 0) +
      if busy then v.round + v.slots c + 12 else v.round + 2
  | .conf3 it => it.rank v.nLocals (fun _ => 0) + 1
  | .idle | .joinScan | .nextNormal | .joinSweep => 0

theorem credit_busy (v : Scene) (c : Lid) (own : Nat → Nat) (b b' : Bool) (st : Stage) :
    st.credit v c own b ≤ st.credit v c own b' + v.slack c := by
  cases st with
  | wait it =>
      simp only [Stage.credit, Scene.slack]
      cases v.epoch.phase with
      | N | RT => exact Nat.le_add_right _ _
      | CT => cases b <;> cases b' <;> simp <;> omega
  | drain | find | steal | complete | conf1 | conf2 =>
      simp only [Stage.credit, Scene.slack]
      cases b <;> cases b' <;> simp <;> omega
  | _ => exact Nat.le_add_right _ _

theorem credit_mono {v : Scene} {own own' : Nat → Nat} (h : ∀ i, own' i ≤ own i) (c : Lid)
    (b : Bool) (st : Stage) : st.credit v c own' b ≤ st.credit v c own b := by
  cases st with
  | wait it =>
      have hr := rank_mono (n := v.nLocals) h v.firstNode
      simp only [Stage.credit]
      split <;> omega
  | scan | pending =>
      simp only [Stage.credit]
      have := rank_mono (n := v.nLocals) h
      gcongr
      exact this _
  | pendPush b n nx | pendStat n nx =>
      have := gotoRank_mono (n := v.nLocals) h nx
      simp only [Stage.credit]
      omega
  | _ => exact Nat.le_refl _

/-- Frames, tasks, fresh batches and the collector's own position. -/
def St.effort (v : Scene) (s : St) : Nat :=
  s.chores v + s.stage.credit v s.collector (s.openBatch v) s.busy

/-! ## Threads about to darken a link -/

def St.poised (s : St) (t : Nat) : Prop := ∃ f ∈ (s.locals t).stack.head?, f.poised s.scene

instance (s : St) (t : Nat) : Decidable (s.poised t) :=
  inferInstanceAs (Decidable (∃ f ∈ (s.locals t).stack.head?, f.poised s.scene))

/-- The threads that still have to find the link they will darken. -/
def St.restless (s : St) : Nat := ((range s.nLocals).filter fun t => ¬ s.poised t).card

theorem restless_le {s s' : St} (hn : s'.nLocals = s.nLocals)
    (h : ∀ i, s.poised i → s'.poised i) : s'.restless ≤ s.restless := by
  refine card_le_card fun i hi => ?_
  rw [mem_filter] at hi ⊢
  exact ⟨hn ▸ hi.1, fun hp => hi.2 (h i hp)⟩

theorem restless_lt {s s' : St} (hn : s'.nLocals = s.nLocals)
    (h : ∀ i, s.poised i → s'.poised i) {t : Lid} (ht : t < s.nLocals) (hold : ¬ s.poised t)
    (hnew : s'.poised t) : s'.restless < s.restless := by
  refine card_lt_card ⟨fun i hi => ?_, fun hsub => ?_⟩
  · rw [mem_filter] at hi ⊢
    exact ⟨hn ▸ hi.1, fun hp => hi.2 (h i hp)⟩
  · have hmem := hsub (mem_filter.2 ⟨mem_range.2 ht, hold⟩)
    exact (mem_filter.1 hmem).2 hnew

section RunEffort

variable {s s' : St} {t : Lid} {ch : Nat} {f : Frame} {rest : List Frame}

theorem objs_of_quiet {e : Eff} (hq : e.quiet = true) (s : St) (t i : Lid) :
    ((e.apply s t).locals i).objs = (s.locals i).objs := by
  cases e with
  | pushObj | takeBatch => cases hq
  | setLink l p => cases l <;> rfl
  | steal j n =>
      simp only [Eff.apply, setLocal_locals]
      split <;> split <;> simp_all
  | _ =>
      first
        | rfl
        | (simp only [Eff.apply, setLocal_locals]; split <;> simp_all)

theorem busy_congr (hn : s'.nLocals = s.nLocals)
    (h : ∀ i, (s'.locals i).markTasks = (s.locals i).markTasks) : s'.busy = s.busy := by
  simp only [St.busy, hn, h]

theorem credit_run (hq : (exec s t ch f).1.quiet = true) (hn : s'.nLocals = s.nLocals)
    (hs : s' = ((exec s t ch f).1.apply s t).setStack t ((exec s t ch f).2 ++ rest)) (v : Scene) :
    s'.stage.credit v s'.collector (s'.openBatch v) s'.busy ≤
      s.stage.credit v s.collector (s.openBatch v) s.busy +
        (exec s t ch f).1.risk v s.collector := by
  have hobj : ∀ i, (s'.locals i).objs = (s.locals i).objs := fun i => by
    rw [hs, setStack_locals]
    split
    · next h => exact h ▸ objs_of_quiet hq s t t
    · exact objs_of_quiet hq s t i
  have hown : s'.openBatch v = s.openBatch v := by
    funext i
    rw [St.openBatch, St.openBatch, hobj]
  have hst : s'.stage = s.stage := by rw [hs]; exact apply_stage ..
  have hc : s'.collector = s.collector := by rw [hs]; exact apply_collector ..
  have htask : ∀ i, (s'.locals i).markTasks =
      (((exec s t ch f).1.apply s t).locals i).markTasks := fun i => by rw [hs, setStack_tasks]
  rw [hown, hst, hc]
  have hrisk := credit_busy v s.collector (s.openBatch v) s'.busy s.busy s.stage
  generalize he : (exec s t ch f).1 = e at htask ⊢
  have hsame : (∀ i, (s'.locals i).markTasks = (s.locals i).markTasks) →
      s.stage.credit v s.collector (s.openBatch v) s'.busy ≤
        s.stage.credit v s.collector (s.openBatch v) s.busy + e.risk v s.collector := fun h => by
    rw [busy_congr hn h]
    exact Nat.le_add_right ..
  cases e with
  | pushTask | popTask => exact hrisk
  | steal j n => exact absurd he exec_steal
  | _ =>
      refine hsame fun i => (htask i).trans ?_
      rcases markTasks_apply _ s t i with heq | ⟨o, h, -⟩ | ⟨h, -⟩ | ⟨j, n, h, -⟩
      · exact heq
      · cases h
      · cases h
      · cases h

/-- A step of a thread that leaves the scene alone and schedules nothing in it. -/
theorem effort_run (ht : t < s.nLocals) (hst : (s.locals t).stack = f :: rest)
    (hs : s' = ((exec s t ch f).1.apply s t).setStack t ((exec s t ch f).2 ++ rest))
    (hq : (exec s t ch f).1.quiet = true) (hfit : (exec s t ch f).1.fits s t)
    (hpay : ((exec s t ch f).2.map (s.scene.frame s.collector t)).sum +
        (exec s t ch f).1.spends s.scene s.collector + (exec s t ch f).1.risk s.scene s.collector <
      s.scene.frame s.collector t f + (exec s t ch f).1.earns s.scene s t) :
    s'.effort s.scene < s.effort s.scene := by
  have hcredit := credit_run hq (by rw [hs]; exact apply_nLocals ..) hs s.scene
  have happly := chores_apply (v := s.scene) ht hfit fun {j n} h => absurd h exec_steal
  have hstack := chores_setStack (v := s.scene) (s := (exec s t ch f).1.apply s t) (t := t)
    (by rw [apply_nLocals]; exact ht) ((exec s t ch f).2 ++ rest)
  rw [← hs, apply_stack, apply_collector, hst] at hstack
  simp only [List.map_append, List.map_cons, List.sum_append, List.sum_cons] at hstack
  unfold St.effort
  omega

theorem stack_run (hs : s' = ((exec s t ch f).1.apply s t).setStack t ((exec s t ch f).2 ++ rest))
    {i : Lid} (hi : i ≠ t) : (s'.locals i).stack = (s.locals i).stack := by
  rw [hs, setStack_stack_ne _ _ hi, apply_stack]

/-- The three ways a step of a thread brings the trace on. -/
theorem run_down (ht : t < s.nLocals) (hst : (s.locals t).stack = f :: rest)
    (hs : s' = ((exec s t ch f).1.apply s t).setStack t ((exec s t ch f).2 ++ rest))
    (he : s'.epoch = s.epoch) (hf : f.quiet = true) (hq : (exec s t ch f).1.quiet = true)
    (hfit : (exec s t ch f).1.fits s t) (hb : f.marking = true → s.black t = s.blackColor)
    (hheader : ∀ {o h}, f = .mark (.headerCas o h) → o < s.nextObj)
    (hlink : ∀ {o i p}, f = .mark (.linkCas o i p) → o < s.nextObj ∧ i < (s.objs o).arity)
    (hph : f = .help .help → (s.locals t).epoch.phase ≠ .N)
    (hslot : ∀ o, some o ∉ (s.locals t).hazards) :
    s'.scene.undone < s.scene.undone ∨ s'.scene = s.scene ∧ (s'.restless < s.restless ∨
      s'.restless ≤ s.restless ∧ s'.effort s'.scene < s.effort s.scene) := by
  rcases run_scene hf hq hb hheader hlink hs he with ⟨hscene, hpoised⟩ | hlt
  · refine .inr ⟨hscene, ?_⟩
    have hn : s'.nLocals = s.nLocals := by rw [hs]; exact apply_nLocals ..
    have hnot : ¬ s.poised t := by
      rintro ⟨g, hg, hp⟩
      rw [hst] at hg
      cases hg
      exact hpoised hp
    have hkeep : ∀ i, s.poised i → s'.poised i := by
      intro i hi
      by_cases hit : i = t
      · exact absurd (hit ▸ hi) hnot
      · obtain ⟨g, hg, hp⟩ := hi
        exact ⟨g, stack_run hs hit ▸ hg, hscene ▸ hp⟩
    by_cases hsched : f.schedules s.scene
    · refine .inl (restless_lt hn hkeep ht hnot ?_)
      unfold Frame.schedules at hsched
      split at hsched
      · next p o i q =>
          have hstk : (s'.locals t).stack = .mark (.linkCas o i q) :: rest := by
            rw [hs, setStack_stack_self]
            rfl
          refine ⟨.mark (.linkCas o i q), by rw [hstk]; rfl, ?_⟩
          rw [hscene]
          exact hsched
      · cases hsched
    · refine .inr ⟨restless_le hn hkeep, ?_⟩
      rw [hscene]
      exact effort_run ht hst hs hq hfit (exec_pays ch hf hb hph hslot hpoised hsched)
  · exact .inl hlt

end RunEffort

end Cdpt
