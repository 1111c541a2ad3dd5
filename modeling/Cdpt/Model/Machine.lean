import Cdpt.Lib.Lts
import Cdpt.Model.Threads

/-!
# The whole system: mutators, collector, workers

A label names who moves: a mutator that starts an operation of the public API
(`op`), a thread that executes its top frame (`run`), the collector between two
calls (`coll`), a worker that starts or sweeps, and threads that join or leave.
`step` is the interleaving semantics; every schedule is a list of labels.

What an operation may be applied to follows the ownership rules of the API. A
`Local<Guard>` is one the thread holds under its guard, a `Local<Handle>` is a
live hazard slot of the thread, a `Shared` can be followed without a guard, and
a cell can be dropped or moved into an object only when no operation is using
it, since its owner has it by value then.
-/

namespace Cdpt

/-! ## Arguments of the public operations -/

/-- A reference a thread can start from. -/
inductive Base
  | guard (o : Oid)
  | hazard (hid : Nat)
  | cell (c : Cid)
deriving DecidableEq, Repr

/-- A `&Local` argument: one of the two `Local` types. -/
def St.localArg (s : St) (t : Lid) : Base → Option Oid
  | .guard o => if 0 < (s.locals t).guardCount ∧ o ∈ (s.locals t).held then some o else none
  | .hazard hid => ((s.locals t).hazards[hid]?).getD none
  | .cell _ => none

/-- What a reference dereferences to: a `Local`, or a `Shared` outside the heap. -/
def St.base (s : St) (t : Lid) : Base → Option Oid
  | .cell c =>
      match s.cells c with
      | some ⟨.shared, p⟩ => p.addr
      | _ => none
  | b => s.localArg t b

/-- Follows `Shared` fields, which takes no guard. -/
def St.follow (s : St) : Oid → List Nat → Option Oid
  | o, [] => some o
  | o, i :: is =>
      if i < (s.objs o).arity ∧ (s.objs o).kind i = .shared then
        ((s.objs o).link i).addr.bind fun p => s.follow p is
      else none

/-- A pointer the program can name: a cell of its own or a field of an object it
can dereference. -/
inductive Place
  | cell (c : Cid)
  | field (b : Base) (path : List Nat) (i : Nat)
deriving DecidableEq, Repr

def St.place (s : St) (t : Lid) : Place → Option (PtrKind × Loc)
  | .cell c => (s.cells c).map fun x => (x.kind, .cell c)
  | .field b path i =>
      (s.base t b).bind fun r => (s.follow r path).bind fun o =>
        if i < (s.objs o).arity then some ((s.objs o).kind i, .field o i) else none

/-- An optional `&Local` argument. -/
def St.optArg (s : St) (t : Lid) : Option Base → Option (Option Oid)
  | none => some none
  | some b => (s.localArg t b).map some

/-- The public operations. -/
inductive Op
  | pin
  | dropGuard
  | repin
  | helpCollect
  | noneNew (tag : Nat)
  | alloc (fields : List Cid) (size : Nat) (k : Option (PtrKind × Nat))
  | load (p : Place)
  | swap (p : Place) (new : Option Base) (tag : Nat)
  | compareExchange (p : Place) (current : Option Base × Nat) (new : Option Base × Nat)
      (weak : Bool)
  | clone (p : Place)
  | asShared (b : Base) (k : PtrKind)
  | convert (c : Cid)
  | drop (c : Cid)
  | protect (b : Base)
  | protectGuard (hid : Nat)
  | dropHandle (hid : Nat)
deriving DecidableEq, Repr

/-- The cell an operation in flight works on. -/
def Frame.onCell (c : Cid) : Frame → Bool
  | .ptr (.load l) | .ptr (.swapLoad l _) | .ptr (.casLoad l _ _ _)
  | .ptr (.incNew l _ _ _) | .ptr (.rootedCas l _ _ _) | .ptr (.unrootedCas l _ _ _)
  | .ptr (.cloneLoad l) => l = .cell c
  | .ptr (.shade _ r) | .ptr (.record _ r) | .ptr (.push _ r) | .ptr (.rcPhase _ r) =>
      match r with
      | .insertion l _ _ _ => l = .cell c
      | _ => false
  | _ => false

/-- No operation in flight works on cell `c`. -/
def St.idleCell (s : St) (c : Cid) : Prop :=
  ∀ t < s.nLocals, ∀ f ∈ (s.locals t).stack, ¬ f.onCell c

instance (s : St) (c : Cid) : Decidable (s.idleCell c) :=
  inferInstanceAs (Decidable (∀ t < s.nLocals, ∀ f ∈ (s.locals t).stack, ¬ f.onCell c))

def St.removeCells (s : St) (cs : List Cid) : St :=
  { s with cells := fun c => if c ∈ cs then none else s.cells c }

/-- `Box::new(ManObj::new(item, color, root_count))`: the cells of the item
become the fields of a fresh object. -/
def St.newObj (s : St) (t : Lid) (cs : List Cid) (size count : Nat) : St :=
  { s.removeCells cs with
    nextObj := s.nextObj + 1
    objs := Function.update s.objs s.nextObj
      { header := ⟨s.allocColor t, count⟩
        arity := cs.length
        kind := fun i => (((cs[i]?).bind s.cells).map Cell.kind).getD .atomic
        link := fun i => (((cs[i]?).bind s.cells).map Cell.link).getD .null
        size := size
        reclaimed := false } }

/-- Starts an operation: the frames it pushes and, where the first thing it
does is private to the thread, the state after that. -/
def startOp (s : St) (t : Lid) : Op → Option (St × List Frame)
  | .pin => some (s, [.pin .pin])
  | .dropGuard =>
      if 0 < (s.locals t).guardCount then some (s, [.pin .helpIf, .pin .unpin]) else none
  | .repin =>
      if 0 < (s.locals t).guardCount then
        some (s, [.pin .helpIf, .pin .unpin, .pin .pin])
      else none
  | .helpCollect =>
      if 0 < (s.locals t).guardCount then some (s, [.help .help]) else none
  | .noneNew tag => some ((Eff.newCell .atomic ⟨.Rooted, none, tag⟩).apply s t, [])
  | .alloc cs size k =>
      if 0 < (s.locals t).guardCount ∧ cs.Nodup ∧
          (∀ c ∈ cs, (s.cells c).isSome ∧ s.idleCell c) then
        some (s.newObj t cs size (if k.isSome then 1 else 0),
          [.ptr (.pushObj s.nextObj true), .ptr (.unroot s.nextObj 0),
            .ptr (.allocRet s.nextObj k)])
      else none
  | .load p =>
      if 0 < (s.locals t).guardCount then
        (s.place t p).map fun (_, l) => (s, [.ptr (.load l)])
      else none
  | .swap p new tag =>
      if 0 < (s.locals t).guardCount then
        match s.place t p, s.optArg t new with
        | some (.atomic, l), some o => some (s, [.ptr (.swapLoad l (.ofLocal o tag))])
        | _, _ => none
      else none
  | .compareExchange p current new weak =>
      if 0 < (s.locals t).guardCount then
        match s.place t p, s.optArg t current.1, s.optArg t new.1 with
        | some (.atomic, l), some c, some o =>
            some (s, [.ptr (.casLoad l (.ofLocal c current.2) (.ofLocal o new.2) weak)])
        | _, _, _ => none
      else none
  | .clone p =>
      match s.place t p with
      | some (.shared, l) => some (s, [.ptr (.cloneLoad l)])
      | _ => none
  | .asShared b k => (s.localArg t b).map fun o => (s, [.ptr (.inc o 0 k)])
  | .convert c =>
      match s.cells c with
      | some x =>
          if s.idleCell c then
            some ({ s with cells := Function.update s.cells c (some { x with kind := .atomic }) },
              [])
          else none
      | none => none
  | .drop c =>
      match s.cells c with
      | some x =>
          if s.idleCell c then
            some (s.removeCells [c],
              match x.link.ptrMeta, x.link.addr with
              | .Rooted, some o => dropFrames o
              | _, _ => [])
          else none
      | none => none
  | .protect b => (s.localArg t b).map fun o => (s, [.ptr (.acquireHp o)])
  | .protectGuard hid =>
      if 0 < (s.locals t).guardCount then
        (s.localArg t (.hazard hid)).map fun o => ((Eff.hold (some o)).apply s t, [])
      else none
  | .dropHandle hid =>
      (s.localArg t (.hazard hid)).map fun _ => (s, [.ptr (.clearHazard hid)])

/-! ## The collector (`src/collector.rs`) -/

/-- `parallel_shard_work`: the shard ranges of `n` workers. -/
def shardRanges (n : Nat) : List (Nat × Nat) :=
  (List.range n).map fun k =>
    (k * (objBatchesShard / n),
      if k = n - 1 then objBatchesShard else k * (objBatchesShard / n) + objBatchesShard / n)

/-- The epoch of `phase_trans(ph)`. -/
def St.transEpoch (s : St) (ph : Phase) : Epoch :=
  (s.epoch.withTimestamp (s.epoch.timestamp + 1)).withPhase ph

/-- The epoch of `next_normal`. -/
def St.normalEpoch (s : St) : Epoch :=
  ((s.epoch.withTimestamp (s.epoch.timestamp + 1)).withPhase .N).withColor s.epoch.color.flip

/-- What follows the return of `wait_all_mutators_unpin`. -/
def St.afterWait (s : St) : Stage :=
  match s.epoch.phase with
  | .RT => .scan
  | .CT => .conf1 s.firstNode
  | .N => .idle

/-- `thread::scope` joins: every worker that was started has given back its node. -/
def St.workersDone (s : St) : Prop :=
  ∀ t < s.nLocals, ∀ f ∈ (s.locals t).stack, f.isExit = false

instance (s : St) : Decidable s.workersDone :=
  inferInstanceAs (Decidable (∀ t < s.nLocals, ∀ f ∈ (s.locals t).stack, f.isExit = false))

/-- One step of `collector_loop` outside the functions that run on the stack;
`none` where it has to wait for its workers. -/
def collStep (s : St) (ch : Nat) : Option (Eff × Stage × List Frame) :=
  let t := s.collector
  match s.stage with
  | .idle => some (.storeEpoch (s.transEpoch .RT), .wait s.firstNode, [])
  | .wait it => some (.nop, match it with
      | .act i nx =>
          let e := (s.locals i).epoch
          if e.isPinned = false ∨ s.epoch.timestamp ≤ e.timestamp then .wait (.goto nx)
          else .wait it
      | .fin => s.afterWait
      | it => .wait (s.iterStep false it), [])
  | .scan => some (.nop, .pending s.firstNode, [.pin .pin])
  | .pending it =>
      match it with
      | .act i nx =>
          match ((s.locals i).objs (s.white t)).1 with
          | [] => some (.nop, .pending (.goto nx), [])
          | _ => some (.takeBatch i (s.white t),
              .pendPush ((s.locals i).objs (s.white t)).1 ((s.locals i).objs (s.white t)).2 nx, [])
      | .fin => some (.nop, .hps (.iter s.firstNode) [], [])
      | it => some (.nop, .pending (s.iterStep true it), [])
  | .pendPush b size nx =>
      some (.pushFresh (s.white t) (ch % objBatchesShard) b, .pendStat size nx, [])
  | .pendStat size nx => some (.addAllocated size, .pending (.goto nx), [])
  | .hps h acc => some (.nop, match h with
      | .iter .fin => .spawnScan acc
      | h => .hps (s.hpStep h acc).1 (s.hpStep h acc).2, [])
  | .spawnScan hs =>
      some (.spawn ((shardRanges s.collectorThreads).map fun r => (r.1, r.2, hs)), .joinScan, [])
  | .joinScan =>
      if s.jobs = [] ∧ s.workersDone then some (.nop, .drain, [.pin .helpIf, .pin .unpin])
      else none
  | .drain => some (.nop, .find, [.pin .pin])
  | .find =>
      match (s.locals t).markTasks with
      | o :: _ => some (.popTask, .find, [.mark (.task o)])
      | [] => some (.nop, .steal s.firstNode, [])
  | .steal it =>
      match it with
      | .act i nx =>
          match (s.locals i).markTasks with
          | o :: _ => some (.steal i ch, .find, [.mark (.task o)])
          | [] => some (.nop, .steal (.goto nx), [])
      | .fin => some (.nop, .complete, [.pin .helpIf, .pin .unpin])
      | it => some (.nop, .steal (s.iterStep true it), [])
  | .complete => some (.storeEpoch (s.transEpoch .CT), .wait s.firstNode, [])
  | .conf1 it => some (.nop, match it with
      | .act i nx =>
          if (s.locals i).mtModifiedTs = s.epoch.timestamp then .drain else .conf1 (.goto nx)
      | .fin => .conf2 s.firstNode
      | it => .conf1 (s.iterStep true it), [])
  | .conf2 it => some (.nop, match it with
      | .act i nx => if (s.locals i).markTasks = [] then .conf2 (.goto nx) else .drain
      | .fin => .conf3 s.firstNode
      | it => .conf2 (s.iterStep true it), [])
  | .conf3 it =>
      match it with
      | .act i nx => some (.nop,
          if (s.locals i).mtModifiedTs = s.epoch.timestamp then .drain else .conf3 (.goto nx), [])
      | .fin => some (.confirm, .nextNormal, [])
      | it => some (.nop, .conf3 (s.iterStep true it), [])
  | .nextNormal =>
      some (.spawnSweep s.normalEpoch ((shardRanges s.collectorThreads).map fun r =>
        ⟨s.epoch.color, r.1, r.2, [], [], 0⟩), .joinSweep, [])
  | .joinSweep => if s.sweepers = [] then some (.nop, .wait s.firstNode, []) else none

/-- One step of a worker of `sweep`; `none` as the second component when the
worker is done, or when its assertion fails. -/
def sweepStep (s : St) (w : Sweeper) (ch : Nat) : Eff × Option Sweeper :=
  match w.todo with
  | o :: rest =>
      if s.color o = w.prevWhite then
        (.reclaim o, some { w with todo := rest, bytes := w.bytes + (s.objs o).size })
      else match pushWithinCapacity w.survived o with
        | .ok survived => (.nop, some { w with todo := rest, survived })
        -- `assert!(survived_batch.push_within_capacity(e).is_ok())`
        | .error e => (.pushFresh w.prevWhite.flip (ch % objBatchesShard) w.survived,
            (pushWithinCapacity [] e).toOption.map fun survived =>
              { w with todo := rest, survived })
  | [] =>
      if w.q < w.hi then
        match s.markedObjs w.prevWhite w.q with
        | b :: _ => (.popMarked w.prevWhite w.q, some { w with todo := b })
        | [] => (.nop, some { w with q := w.q + 1 })
      else if w.survived ≠ [] then
        (.pushFresh w.prevWhite.flip (ch % objBatchesShard) w.survived,
          some { w with survived := [] })
      else (.addReclaimed w.bytes, none)

/-! ## The step function -/

inductive Label
  | op (t : Lid) (o : Op)
  | run (t : Lid) (ch : Nat)
  | coll (ch : Nat)
  | sweep (k ch : Nat)
  | startWorker (t : Lid)
  | register (t : Lid)
  | exit (t : Lid)
deriving DecidableEq, Repr

def St.setStack (s : St) (t : Lid) (fs : List Frame) : St :=
  s.setLocal t { s.locals t with stack := fs }

/-- Whether node `t` can be handed to a new thread: reused when free, or
appended at the end of the list. -/
def St.canRegister (s : St) (t : Lid) : Prop :=
  (t < s.nLocals ∧ (s.locals t).isUsing = false ∧ (s.locals t).stack = []) ∨ t = s.nLocals

instance (s : St) (t : Lid) : Decidable (s.canRegister t) :=
  inferInstanceAs (Decidable (_ ∨ _))

/-- The CAS of `acquire_or_default` that takes node `t`. -/
def St.register (s : St) (t : Lid) : St :=
  if t < s.nLocals then s.setLocal t { s.locals t with isUsing := true }
  else { s.setLocal t { Local.default with isUsing := true } with nLocals := s.nLocals + 1 }

def step (s : St) : Label → Option St
  | .op t o =>
      if t < s.nLocals ∧ (s.locals t).isUsing ∧ (s.locals t).stack = [] ∧ t ≠ s.collector then
        (startOp s t o).map fun (s', fs) => s'.setStack t fs
      else none
  | .run t ch =>
      if t < s.nLocals then
        match (s.locals t).stack with
        | f :: rest =>
            some (((exec s t ch f).1.apply s t).setStack t ((exec s t ch f).2 ++ rest))
        | [] => none
      else none
  | .coll ch =>
      if (s.locals s.collector).stack = [] then
        (collStep s ch).map fun (e, st, fs) =>
          ({ e.apply s s.collector with stage := st }).setStack s.collector fs
      else none
  | .sweep k ch =>
      match s.sweepers[k]? with
      | some w =>
          let r := sweepStep s w ch
          some { r.1.apply s s.collector with
            sweepers := match r.2 with
              | some w' => s.sweepers.set k w'
              | none => s.sweepers.eraseIdx k }
      | none => none
  | .startWorker t =>
      match s.jobs with
      | (lo, hi, hs) :: js =>
          if s.canRegister t ∧ t ≠ s.collector then
            some ({ s.register t with jobs := js }.setStack t
              [.pin .pin, .help (.scanPop (.worker lo hi hs)), .pin .helpIf, .pin .unpin,
                .pin .workerExit])
          else none
      | [] => none
  | .register t => if s.canRegister t ∧ t ≠ s.collector then some (s.register t) else none
  | .exit t =>
      if t < s.nLocals ∧ (s.locals t).isUsing ∧ (s.locals t).stack = [] ∧
          (s.locals t).guardCount = 0 ∧ (∀ h ∈ (s.locals t).hazards, h = none) ∧
          t ≠ s.collector then
        some (s.setLocal t { s.locals t with isUsing := false })
      else none

/-- The state `Global::new` and the registration of the collector leave. -/
def St.init (threads : Nat) : St where
  epoch := .starting
  nLocals := 1
  locals := Function.update (fun _ => Local.default) 0 { Local.default with isUsing := true }
  nextObj := 0
  objs := fun _ => ⟨⟨.C0, 0⟩, 0, fun _ => .atomic, fun _ => .null, 0, false⟩
  nextCell := 0
  cells := fun _ => none
  freshObjs := fun _ _ => []
  markedObjs := fun _ _ => []
  totalAllocated := 0
  totalReclaimed := 0
  collectorThreads := threads
  collector := 0
  stage := .idle
  jobs := []
  sweepers := []
  past := fun _ => .starting
  confirmed := fun _ => .C0

end Cdpt
