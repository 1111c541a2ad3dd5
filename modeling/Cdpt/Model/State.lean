import Cdpt.Model.Epoch

/-!
# The shared state of the collector and its threads

One record per thread-local participant (`Local`, `src/internal.rs`), one for
each managed object, and the fields of `Global`. Every thread carries a stack
of frames: the top frame is the place the thread has reached in the source,
with the values its local variables have there, and executing it performs
exactly one atomic access. What a step does to the state is an `Eff`, so that a
property of one component only has to look at the effects that touch it.

Words are decoded: a link is its metadata, address and tag, a header is its
colour and root count. Addresses are never reused, as is usual for a model of
a collector; the bit layouts are the business of other modules.

Numbers are unbounded where the code has fields of a word, which is right within
these bounds. A timestamp has 60 bits of the epoch word and grows by one with each
phase. A root count has 55 bits of the header, so that fewer than `2 ^ 55` handles
may point to one object at a time. A guard count is checked by the code
(`checked_add`). `total_allocated` and `total_reclaimed` only grow: they are exact
until `2 ^ 64` bytes have been allocated, and what is said about their sums holds
of their residues after that.

The mark queue of a thread, a deque of `crossbeam` made with `new_fifo`, is a list,
as its operations take effect at one point each: the owner pushes at the end and
pops at the front, and a thief takes a batch from the front, of a size that is
left open. A `Retry` changes nothing and is no step. The other queues are those of
`sync/queue.rs`, which have a module of their own. A batch has room for exactly
`OBJ_BATCH_SIZE` objects, what `Vec::with_capacity` reserves at least.
-/

namespace Cdpt

/-- The address of a `ManObj`. -/
abbrev Oid := Nat

/-- A pointer cell owned by value outside the managed heap. -/
abbrev Cid := Nat

/-- A node of `global().locals`. -/
abbrev Lid := Nat

inductive PtrMeta
  | Rooted
  | Unrooted (c : Color)
deriving DecidableEq, Repr

/-- `ManPtr`, decoded: metadata, address (`none` is null) and low tag bits. -/
structure ManPtr where
  ptrMeta : PtrMeta
  addr : Option Oid
  tag : Nat
deriving DecidableEq, Repr

namespace ManPtr

def null : ManPtr := ⟨.Rooted, none, 0⟩

/-- `ManPtr::from((Option<&Local>, tag))`: a bare pointer, whose zero metadata
bits read as `Rooted`. -/
def ofLocal (o : Option Oid) (tag : Nat) : ManPtr := ⟨.Rooted, o, tag⟩

def withMeta (p : ManPtr) (m : PtrMeta) : ManPtr := { p with ptrMeta := m }

def withoutMeta (p : ManPtr) : ManPtr := p.withMeta .Rooted

end ManPtr

/-- The decoded header word. -/
structure ObjMeta where
  marked : Color
  rootCount : Nat
deriving DecidableEq, Repr

/-- What a managed pointer is to the type system: a `Shared` never changes its
address, the two atomic types do. -/
inductive PtrKind
  | shared
  | atomic
deriving DecidableEq, Repr

structure ManObj where
  header : ObjMeta
  /-- The traced pointers of the item, in the order the derive visits them. -/
  arity : Nat
  kind : Nat → PtrKind
  link : Nat → ManPtr
  size : Nat
  reclaimed : Bool

structure Cell where
  kind : PtrKind
  link : ManPtr

/-- Where a link lives. -/
inductive Loc
  | field (o : Oid) (i : Nat)
  | cell (c : Cid)
deriving DecidableEq, Repr

/-- Position of a `SlotIter`: about to load the `next` pointer of a node, about
to test `using`, about to hand the node out, or exhausted. -/
inductive Iter
  | node (i : Lid)
  | test (i : Lid) (nx : Option Lid)
  | act (i : Lid) (nx : Option Lid)
  | fin
deriving DecidableEq, Repr

/-- Position of `collect_hps`: between two nodes, or inside the hazard array
(by version) of one of them. -/
inductive HpScan
  | iter (it : Iter)
  | slots (i : Lid) (ver j : Nat) (nx : Option Lid)
deriving DecidableEq, Repr

/-! ## Frames -/

/-- Which operation runs the CAS, and so what a failure does. -/
inductive CasKind
  | swap
  | strong (current : ManPtr)
  | weak
deriving DecidableEq, Repr

/-- Where a call of `shade_pointee` returns to. -/
inductive ShadeRet
  | insertion (l : Loc) (old new : ManPtr) (k : CasKind)
  | deletion (old : ManPtr)
  | rooted (old : ManPtr)
  | dropped
  | unroot (o : Oid) (i : Nat) (ptr : ManPtr)
  | link (o : Oid) (i : Nat) (ptr : ManPtr)
deriving DecidableEq, Repr

/-- `pin_inner`, `pin_freshly`, `phase_barrier` and `Guard::drop`. -/
inductive PinFrame
  | pin
  | load
  | store (e : Epoch)
  | check (e : Epoch)
  | barrier (i : Nat)
  | observe (e : Epoch)
  | helpIf
  | unpin
  | workerExit
deriving DecidableEq, Repr

/-- The pointer operations of `src/pointers.rs` and what they call. -/
inductive PtrFrame
  | load (l : Loc)
  | swapLoad (l : Loc) (new : ManPtr)
  | casLoad (l : Loc) (current new : ManPtr) (weak : Bool)
  | incNew (l : Loc) (old new : ManPtr) (k : CasKind)
  | rootedCas (l : Loc) (old new : ManPtr) (k : CasKind)
  | rootedDec (old : ManPtr)
  | dropDec (o : Oid)
  | rcPhase (o : Oid) (r : ShadeRet)
  | unrootedCas (l : Loc) (old new : ManPtr) (k : CasKind)
  | delPhase (old : ManPtr)
  | shade (o : Oid) (r : ShadeRet)
  | record (o : Oid) (r : ShadeRet)
  | push (o : Oid) (r : ShadeRet)
  | ret (p : ManPtr)
  | cloneLoad (l : Loc)
  | inc (o : Oid) (tag : Nat) (k : PtrKind)
  | publish (o : Oid) (tag : Nat) (k : PtrKind)
  | pushObj (o : Oid) (newly : Bool)
  | flushPush (c : Color) (batch : List Oid) (size : Nat)
  | flushStat (size : Nat)
  | unroot (o : Oid) (i : Nat)
  | unrootStore (o : Oid) (i : Nat) (ptr : ManPtr)
  | allocRet (o : Oid) (k : Option (PtrKind × Nat))
  | acquireHp (o : Oid)
  | storeHazard (hid : Nat) (o : Oid)
  | clearHazard (hid : Nat)
deriving DecidableEq, Repr

/-- `ManObj::mark`, `MarkObj::mark`, `TracePtr::shade` and `AtomicObjMeta::mark`. -/
inductive MarkFrame
  | task (o : Oid)
  | links (o : Oid) (i : Nat)
  | linkCas (o : Oid) (i : Nat) (ptr : ManPtr)
  | header (o : Oid)
  | headerCas (o : Oid) (h : ObjMeta)
deriving DecidableEq, Repr

/-- Who scans the batches of `fresh_objs`: a worker of `scan_allocated_objs`
on its range of shards, with the hazard set it was given, or a helper in
`help_root_tracing`, with the shards it has left, the batches it has done and
whether its `LazyCell` is forced. -/
inductive Scanner
  | worker (q hi : Nat) (hazards : List Oid)
  | helper (q : Nat) (qs : List Nat) (trial : Nat) (forced : Bool)
deriving DecidableEq, Repr

/-- `Guard::help_collect` and the scan of the fresh batches. -/
inductive HelpFrame
  | help
  | normalNext (qs : List Nat) (trial : Nat)
  | normalPop (q : Nat) (qs : List Nat) (trial : Nat)
  | sweepObjs (todo : List Oid) (bytes q : Nat) (qs : List Nat) (trial : Nat)
  | synced (it : Iter)
  | rootNext (qs : List Nat) (trial : Nat) (forced : Bool)
  | scanPop (sc : Scanner)
  | scanObjs (sc : Scanner) (done todo : List Oid)
  | forceHps (h : HpScan) (acc : List Oid) (sc : Scanner) (done : List Oid) (o : Oid)
      (todo : List Oid)
  | drainInit
  | drain (n : Nat)
  | drainRecord (n : Nat)
  | drainPop (n : Nat)
deriving DecidableEq, Repr

inductive Frame
  | pin (f : PinFrame)
  | ptr (f : PtrFrame)
  | mark (f : MarkFrame)
  | help (f : HelpFrame)
deriving DecidableEq, Repr

/-- The end of a scan worker: its node is given back. -/
def Frame.isExit : Frame → Bool
  | .pin .workerExit => true
  | _ => false

/-! ## Records -/

/-- `Local` (`src/internal.rs`), with the thread that uses the node: the
`Local<Guard>` values it holds and the operation it is in. -/
structure Local where
  isUsing : Bool
  guardCount : Nat
  lastObserved : Epoch
  epoch : Epoch
  mtModifiedTs : Nat
  /-- The current hazard array. -/
  hazards : List (Option Oid)
  /-- The arrays `grow_hazards` has replaced, oldest first. A scan that loaded
  one of them goes on reading it. -/
  oldHazards : List (List (Option Oid))
  availableHids : List Nat
  markTasks : List Oid
  objs : Color → List Oid × Nat
  cachedHazards : Option (List Oid × Epoch)
  held : List Oid
  stack : List Frame

/-- `HAZARDS_INIT_COUNT`. -/
def hazardsInitCount : Nat := 8

/-- `OBJ_BATCHES_SHARD`. -/
def objBatchesShard : Nat := 8

/-- `OBJ_BATCH_SIZE`. -/
def objBatchSize : Nat := 64

/-- `ObjBatch::push_within_capacity`: a full batch hands the object back. -/
def pushWithinCapacity (b : List Oid) (o : Oid) : Except Oid (List Oid) :=
  if b.length < objBatchSize then .ok (b ++ [o]) else .error o

theorem pushWithinCapacity_eq_ok {b b' : List Oid} {o : Oid} :
    pushWithinCapacity b o = .ok b' ↔ b.length < objBatchSize ∧ b ++ [o] = b' := by
  unfold pushWithinCapacity
  split
  · next h => simp [h]
  · next h => simp [h]

theorem pushWithinCapacity_eq_error {b : List Oid} {o e : Oid} :
    pushWithinCapacity b o = .error e ↔ objBatchSize ≤ b.length ∧ o = e := by
  unfold pushWithinCapacity
  split
  · next h => simp [Nat.not_le.2 h]
  · next h => simp [Nat.not_lt.1 h]

/-- An empty batch has room. -/
@[simp] theorem pushWithinCapacity_nil (o : Oid) : pushWithinCapacity [] o = .ok [o] := rfl

/-- `Default for Local`; the free list is kept with its last element first. -/
def Local.default : Local where
  isUsing := false
  guardCount := 0
  lastObserved := .starting
  epoch := .starting
  mtModifiedTs := 0
  hazards := List.replicate hazardsInitCount none
  oldHazards := []
  availableHids := (List.range hazardsInitCount).reverse
  markTasks := []
  objs := fun _ => ([], 0)
  cachedHazards := none
  held := []
  stack := []

/-- A worker thread of `sweep`. -/
structure Sweeper where
  prevWhite : Color
  q : Nat
  hi : Nat
  todo : List Oid
  survived : List Oid
  bytes : Nat

/-- Where `collector_loop` stands between two calls that need the stack. -/
inductive Stage
  | idle
  | wait (it : Iter)
  | scan
  | pending (it : Iter)
  | pendPush (batch : List Oid) (size : Nat) (nx : Option Lid)
  | pendStat (size : Nat) (nx : Option Lid)
  | hps (h : HpScan) (acc : List Oid)
  | spawnScan (hazards : List Oid)
  | joinScan
  | drain
  | find
  | steal (it : Iter)
  | complete
  | conf1 (it : Iter)
  | conf2 (it : Iter)
  | conf3 (it : Iter)
  | nextNormal
  | joinSweep
deriving DecidableEq, Repr

structure St where
  epoch : Epoch
  nLocals : Nat
  locals : Lid → Local
  nextObj : Nat
  objs : Oid → ManObj
  nextCell : Nat
  cells : Cid → Option Cell
  freshObjs : Color → Nat → List (List Oid)
  markedObjs : Color → Nat → List (List Oid)
  totalAllocated : Nat
  totalReclaimed : Nat
  collectorThreads : Nat
  collector : Lid
  stage : Stage
  /-- Shard ranges and hazard sets of workers that have not started yet. -/
  jobs : List (Nat × Nat × List Oid)
  sweepers : List Sweeper
  /-- Ghost: the epoch that was stored with each timestamp. -/
  past : Nat → Epoch
  /-- Ghost: the header colours when `try_confirm_completion` last answered
  `true`. -/
  confirmed : Oid → Color

namespace St

def link (s : St) : Loc → ManPtr
  | .field o i => (s.objs o).link i
  | .cell c => ((s.cells c).map Cell.link).getD .null

def color (s : St) (o : Oid) : Color := (s.objs o).header.marked

def rootCount (s : St) (o : Oid) : Nat := (s.objs o).header.rootCount

/-- `Guard::white_color` of the thread on node `t`. -/
def white (s : St) (t : Lid) : Color := (s.locals t).epoch.color

/-- `Guard::black_color`. -/
def black (s : St) (t : Lid) : Color := (s.white t).flip

/-- `pinned_alloc_color`. -/
def allocColor (s : St) (t : Lid) : Color :=
  match (s.locals t).epoch.phase with
  | .N => s.white t
  | _ => s.black t

/-- Reads slot `j` of version `ver` of the hazard array of node `i`. -/
def hazardArray (s : St) (i : Lid) (ver : Nat) : List (Option Oid) :=
  if ver = (s.locals i).oldHazards.length then (s.locals i).hazards
  else ((s.locals i).oldHazards[ver]?).getD []

/-- The `next` pointer of node `i`. -/
def nextNode (s : St) (i : Lid) : Option Lid :=
  if i + 1 < s.nLocals then some (i + 1) else none

/-- `head.load`: the start of an iteration over `locals`. -/
def firstNode (s : St) : Iter := if 0 < s.nLocals then .node 0 else .fin

def setLocal (s : St) (t : Lid) (l : Local) : St :=
  { s with locals := Function.update s.locals t l }

def setObj (s : St) (o : Oid) (m : ManObj) : St :=
  { s with objs := Function.update s.objs o m }

end St

def Iter.goto : Option Lid → Iter
  | some j => .node j
  | none => .fin

/-! ## Effects -/

/-- What one step does to the state, besides moving the control of its thread. -/
inductive Eff
  | nop
  | storeEpoch (e : Epoch)
  | storeLocalEpoch (e : Epoch)
  | setGuardCount (n : Nat)
  | unpin
  | observe (e : Epoch)
  | release
  | recordMt (ts : Nat)
  | pushTask (o : Oid)
  | popTask
  | steal (i : Lid) (n : Nat)
  | hold (o : Option Oid)
  | setColor (o : Oid) (c : Color)
  | setCount (o : Oid) (n : Nat)
  | setLink (l : Loc) (p : ManPtr)
  | newCell (k : PtrKind) (p : ManPtr)
  | growHazards
  | takeHid
  | storeHazard (hid : Nat) (v : Option Oid)
  | clearHazard (hid : Nat)
  | cacheHazards (hs : List Oid)
  | pushObj (c : Color) (o : Oid) (newly : Bool)
  | takeBatch (i : Lid) (c : Color)
  | pushFresh (c : Color) (q : Nat) (b : List Oid)
  | popFresh (c : Color) (q : Nat)
  | pushMarked (c : Color) (q : Nat) (b : List Oid)
  | popMarked (c : Color) (q : Nat)
  | addAllocated (n : Nat)
  | addReclaimed (n : Nat)
  | reclaim (o : Oid)
  | spawn (js : List (Nat × Nat × List Oid))
  | spawnSweep (e : Epoch) (ws : List Sweeper)
  | confirm
deriving Inhabited

/-- Replaces the queue at `(c, q)` of a sharded object list. -/
def setQueue (f : Color → Nat → List (List Oid)) (c : Color) (q : Nat)
    (b : List (List Oid)) : Color → Nat → List (List Oid) :=
  fun c' q' => if c' = c ∧ q' = q then b else f c' q'

/-- Performs an effect on behalf of the thread on node `t`. -/
def Eff.apply (s : St) (t : Lid) : Eff → St
  | .nop => s
  | .storeEpoch e => { s with epoch := e, past := Function.update s.past e.timestamp e }
  | .storeLocalEpoch e => s.setLocal t { s.locals t with epoch := e }
  | .setGuardCount n => s.setLocal t { s.locals t with guardCount := n }
  | .unpin => s.setLocal t { s.locals t with guardCount := 0, epoch := .starting, held := [] }
  | .observe e => s.setLocal t { s.locals t with lastObserved := e }
  | .release => s.setLocal t { s.locals t with isUsing := false }
  | .recordMt ts => s.setLocal t { s.locals t with mtModifiedTs := ts }
  | .pushTask o => s.setLocal t { s.locals t with markTasks := (s.locals t).markTasks ++ [o] }
  | .popTask => s.setLocal t { s.locals t with markTasks := (s.locals t).markTasks.tail }
  | .steal i n =>
      let q := (s.locals i).markTasks
      let s := s.setLocal i { s.locals i with markTasks := q.drop (n + 1) }
      s.setLocal t { s.locals t with
        markTasks := (s.locals t).markTasks ++ (q.take (n + 1)).tail }
  | .hold o => s.setLocal t { s.locals t with held := o.toList ++ (s.locals t).held }
  | .setColor o c => s.setObj o
      { s.objs o with header := { (s.objs o).header with marked := c } }
  | .setCount o n => s.setObj o
      { s.objs o with header := { (s.objs o).header with rootCount := n } }
  | .setLink (.field o i) p => s.setObj o
      { s.objs o with link := Function.update (s.objs o).link i p }
  | .setLink (.cell c) p => { s with
      cells := Function.update s.cells c ((s.cells c).map fun x => { x with link := p }) }
  | .newCell k p => { s with
      cells := Function.update s.cells s.nextCell (some ⟨k, p⟩), nextCell := s.nextCell + 1 }
  | .growHazards =>
      let l := s.locals t
      s.setLocal t { l with
        hazards := l.hazards ++ List.replicate l.hazards.length none
        oldHazards := l.oldHazards ++ [l.hazards]
        availableHids :=
          (List.range' l.hazards.length l.hazards.length).reverse ++ l.availableHids }
  | .takeHid => s.setLocal t { s.locals t with availableHids := (s.locals t).availableHids.tail }
  | .storeHazard hid v => s.setLocal t { s.locals t with
      hazards := (s.locals t).hazards.set hid v }
  | .clearHazard hid => s.setLocal t { s.locals t with
      hazards := (s.locals t).hazards.set hid none
      availableHids := hid :: (s.locals t).availableHids }
  | .cacheHazards hs => s.setLocal t { s.locals t with
      cachedHazards := some (hs, (s.locals t).epoch) }
  | .pushObj c o newly =>
      let b := (s.locals t).objs c
      s.setLocal t { s.locals t with
        objs := Function.update (s.locals t).objs c
          (b.1 ++ [o], if newly then b.2 + (s.objs o).size else b.2) }
  | .takeBatch i c => s.setLocal i { s.locals i with
      objs := Function.update (s.locals i).objs c ([], 0) }
  | .pushFresh c q b => { s with freshObjs := setQueue s.freshObjs c q (s.freshObjs c q ++ [b]) }
  | .popFresh c q => { s with freshObjs := setQueue s.freshObjs c q (s.freshObjs c q).tail }
  | .pushMarked c q b => { s with
      markedObjs := setQueue s.markedObjs c q (s.markedObjs c q ++ [b]) }
  | .popMarked c q => { s with markedObjs := setQueue s.markedObjs c q (s.markedObjs c q).tail }
  | .addAllocated n => { s with totalAllocated := s.totalAllocated + n }
  | .addReclaimed n => { s with totalReclaimed := s.totalReclaimed + n }
  | .reclaim o => s.setObj o { s.objs o with reclaimed := true }
  | .spawn js => { s with jobs := js }
  | .spawnSweep e ws => { s with
      epoch := e, past := Function.update s.past e.timestamp e, sweepers := ws }
  | .confirm => { s with confirmed := s.color }

end Cdpt
