import Cdpt.Model.State

/-!
# What a thread does at its top frame

`execPin`, `execPtr`, `execMark` and `execHelp` follow `src/internal.rs`,
`src/pointers.rs` and `src/guards.rs` one atomic access at a time. Each takes
the top frame and answers with the effect of the access and the frames that
replace it: an evolving frame is a program counter inside one function, and the
stack only grows where the source calls a function that has to return.

`ch` resolves what the source leaves to chance or to counters that carry no
meaning of their own: the shard a batch is pushed to, the order in which a
helper visits the shards, a spurious failure of the weak CAS, and whether the
guard that is being dropped was asked to help.
-/

namespace Cdpt

/-! ## Iterating over `locals` -/

/-- `SlotIter::next` up to the point where a node is handed out; `all` tells
`iter_all` from `iter_using`. -/
def St.iterStep (s : St) (all : Bool) : Iter → Iter
  | .node i => if all then .act i (s.nextNode i) else .test i (s.nextNode i)
  | .test i nx => if (s.locals i).isUsing then .act i nx else .goto nx
  | it => it

/-- One load of `Global::collect_hps`. -/
def St.hpStep (s : St) : HpScan → List Oid → HpScan × List Oid
  | .iter (.act i nx), acc => (.slots i (s.locals i).oldHazards.length 0 nx, acc)
  | .iter it, acc => (.iter (s.iterStep false it), acc)
  | .slots i ver j nx, acc =>
      match (s.hazardArray i ver)[j]? with
      | none => (.iter (.goto nx), acc)
      | some none => (.slots i ver (j + 1) nx, acc)
      | some (some o) => (.slots i ver (j + 1) nx, acc ++ [o])

/-! ## Pinning (`src/internal.rs`) -/

def execPin (s : St) (t : Lid) (ch : Nat) : PinFrame → Eff × List Frame
  | .pin =>
      if (s.locals t).guardCount = 0 then (.setGuardCount 1, [.pin .load])
      else (.setGuardCount ((s.locals t).guardCount + 1), [])
  | .load => (.nop, [.pin (.store s.epoch)])
  | .store e => (.storeLocalEpoch e.pinned, [.pin (.check e)])
  | .check e =>
      if s.epoch = e then
        if (s.locals t).lastObserved.timestamp ≠ e.timestamp ∧ e.phase = .RT then
          (.nop, [.pin (.barrier 0), .pin (.observe e)])
        else (.observe e, [])
      else (.nop, [.pin (.store s.epoch)])
  | .barrier i =>
      match (s.locals t).hazards[i]? with
      | none => (.nop, [])
      | some none => (.nop, [.pin (.barrier (i + 1))])
      | some (some o) =>
          -- `mark(&pin())`: the nested guard lives until the mark returns.
          (.nop, [.pin .pin, .mark (.task o), .pin .helpIf, .pin .unpin,
            .pin (.barrier (i + 1))])
  | .observe e => (.observe e, [])
  | .helpIf => (.nop, if ch = 0 then [] else [.help .help])
  | .unpin =>
      if (s.locals t).guardCount = 1 then (.unpin, [])
      else (.setGuardCount ((s.locals t).guardCount - 1), [])
  | .workerExit => (.release, [])

/-! ## Pointer operations (`src/pointers.rs`) -/

/-- What the caller of `shade_pointee` does next. -/
def ShadeRet.resume : ShadeRet → List Frame
  | .insertion l old new k => [.ptr (.unrootedCas l old new k)]
  | .deletion old => [.ptr (.ret old)]
  | .rooted old => [.ptr (.ret old)]
  | .dropped => []
  | .unroot o i ptr => [.ptr (.unrootStore o i ptr)]
  | .link o i ptr => [.mark (.linkCas o i ptr)]

/-- `internal_cmpxchg_unrooted_once` up to its CAS: the insertion barrier runs
when the pointers differ and the link is black. -/
def unrootedOnce (s : St) (t : Lid) (l : Loc) (old new : ManPtr) (k : CasKind) : PtrFrame :=
  if old.addr ≠ new.addr ∧ old.ptrMeta = .Unrooted (s.black t) then
    match new.addr with
    | some o => .shade o (.insertion l old new k)
    | none => .unrootedCas l old new k
  else .unrootedCas l old new k

/-- The rooted path increments the new pointee before its CAS. -/
def rootedOnce (l : Loc) (old new : ManPtr) (k : CasKind) : PtrFrame :=
  match new.addr with
  | some _ => .incNew l old new k
  | none => .rootedCas l old new k

/-- `Drop for AtomicSharedOption` on a rooted cell: pin, decrement, and leave. -/
def dropFrames (o : Oid) : List Frame :=
  [.pin .pin, .ptr (.dropDec o), .pin .helpIf, .pin .unpin]

/-- The temporary `Shared` of a rooted attempt that did not insert it. -/
def dropTemp (new : ManPtr) : List Frame :=
  match new.addr with
  | some o => dropFrames o
  | none => []

/-- A failed rooted CAS that observed `cur`. -/
def rootedFail (s : St) (t : Lid) (l : Loc) (cur new : ManPtr) : CasKind → List Frame
  | .swap =>
      if cur.ptrMeta = .Rooted then [.ptr (.rootedCas l cur new .swap)]
      else dropTemp new ++ [.ptr (unrootedOnce s t l cur new .swap)]
  | .strong current =>
      if cur.ptrMeta = .Rooted ∨ cur.withoutMeta ≠ current then .ptr (.ret cur) :: dropTemp new
      else dropTemp new ++ [.ptr (unrootedOnce s t l cur new (.strong current))]
  | .weak => .ptr (.ret cur) :: dropTemp new

/-- A failed unrooted CAS that observed `cur`: the strong form retries when only
the metadata has changed. -/
def unrootedFail (s : St) (t : Lid) (l : Loc) (old cur new : ManPtr) : CasKind → List Frame
  | .swap => [.ptr (unrootedOnce s t l cur new .swap)]
  | .strong current =>
      if cur.withoutMeta = old.withoutMeta then
        [.ptr (unrootedOnce s t l cur new (.strong current))]
      else [.ptr (.ret cur)]
  | .weak => [.ptr (.ret cur)]

/-- Whether a CAS of kind `k` on a link that holds `cur` succeeds; the weak form
may fail spuriously. -/
def casOk (cur old : ManPtr) (k : CasKind) (ch : Nat) : Prop :=
  cur = old ∧ (k = .weak → ch = 0)

instance (cur old : ManPtr) (k : CasKind) (ch : Nat) : Decidable (casOk cur old k ch) :=
  inferInstanceAs (Decidable (_ ∧ _))

def execPtr (s : St) (t : Lid) (ch : Nat) : PtrFrame → Eff × List Frame
  | .load l => (.hold (s.link l).addr, [])
  | .swapLoad l new =>
      let old := s.link l
      if old.ptrMeta = .Rooted then (.nop, [.ptr (rootedOnce l old new .swap)])
      else (.nop, [.ptr (unrootedOnce s t l old new .swap)])
  | .casLoad l current new weak =>
      let old := s.link l
      let k := if weak then CasKind.weak else .strong current
      if old.withoutMeta ≠ current then (.nop, [.ptr (.ret old)])
      else if old.ptrMeta = .Rooted then (.nop, [.ptr (rootedOnce l old new k)])
      else (.nop, [.ptr (unrootedOnce s t l old new k)])
  | .incNew l old new k =>
      match new.addr with
      | some o => (.setCount o (s.rootCount o + 1), [.ptr (.rootedCas l old new k)])
      | none => (.nop, [.ptr (.rootedCas l old new k)])
  | .rootedCas l old new k =>
      if casOk (s.link l) old k ch then
        (.setLink l (new.withMeta .Rooted),
          match old.addr with
          | some _ => [.ptr (.rootedDec old)]
          | none => [.ptr (.ret old)])
      else (.nop, rootedFail s t l (s.link l) new k)
  | .rootedDec old =>
      match old.addr with
      | some o => (.setCount o (s.rootCount o - 1),
          if s.rootCount o = 1 then [.ptr (.rcPhase o (.rooted old))] else [.ptr (.ret old)])
      | none => (.nop, [.ptr (.ret old)])
  | .dropDec o => (.setCount o (s.rootCount o - 1),
      if s.rootCount o = 1 then [.ptr (.rcPhase o .dropped)] else [])
  | .rcPhase o r => (.nop, if s.epoch.phase = .N then r.resume else [.ptr (.shade o r)])
  | .unrootedCas l old new k =>
      if casOk (s.link l) old k ch then
        (.setLink l (new.withMeta old.ptrMeta),
          if old.addr ≠ new.addr ∧ old.ptrMeta = .Unrooted (s.white t) then
            [.ptr (.delPhase old)]
          else [.ptr (.ret old)])
      else (.nop, unrootedFail s t l old (s.link l) new k)
  | .delPhase old => (.nop,
      if s.epoch.phase = .N then [.ptr (.ret old)]
      else match old.addr with
        | some o => [.ptr (.shade o (.deletion old))]
        | none => [.ptr (.ret old)])
  | .shade o r => (.nop, if s.color o = s.black t then r.resume else [.ptr (.record o r)])
  | .record o r => (.recordMt (s.locals t).epoch.timestamp, [.ptr (.push o r)])
  | .push o r => (.pushTask o, r.resume)
  | .ret p => (.hold p.addr, [])
  | .cloneLoad l =>
      match (s.link l).addr with
      | some o => (.nop, [.ptr (.inc o (s.link l).tag .shared)])
      | none => (.nop, [])
  | .inc o tag k => (.setCount o (s.rootCount o + 1), [.ptr (.publish o tag k)])
  | .publish o tag k => (.newCell k ⟨.Rooted, some o, tag⟩, [])
  | .pushObj o newly =>
      let c := s.allocColor t
      let b := (s.locals t).objs c
      if b.1.length < objBatchSize then (.pushObj c o newly, [])
      else (.takeBatch t c,
        [.ptr (.flushPush c b.1 b.2), .ptr (.flushStat b.2), .ptr (.pushObj o newly)])
  | .flushPush c b _ => (.pushFresh c (ch % objBatchesShard) b, [])
  | .flushStat size => (.addAllocated size, [])
  | .unroot o i =>
      if i < (s.objs o).arity then
        let p := s.link (.field o i)
        match p.addr with
        | some c => (.setCount c (s.rootCount c - 1),
            if s.rootCount c = 1 then [.ptr (.rcPhase c (.unroot o i p))]
            else [.ptr (.unrootStore o i p)])
        | none => (.nop, [.ptr (.unrootStore o i p)])
      else (.nop, [])
  | .unrootStore o i ptr =>
      (.setLink (.field o i) (ptr.withMeta (.Unrooted (s.allocColor t))),
        [.ptr (.unroot o (i + 1))])
  | .allocRet o k =>
      match k with
      | some (k, tag) => (.newCell k ⟨.Rooted, some o, tag⟩, [])
      | none => (.hold (some o), [])
  | .acquireHp o =>
      match (s.locals t).availableHids with
      | hid :: _ => (.takeHid, [.ptr (.storeHazard hid o)])
      | [] => (.growHazards, [.ptr (.acquireHp o)])
  | .storeHazard hid o => (.storeHazard hid (some o), [])
  | .clearHazard hid => (.clearHazard hid, [])

/-! ## Marking -/

/-- The body of `TracePtr::shade` at the value `p` it has read. -/
def shadeLink (s : St) (t : Lid) (o : Oid) (i : Nat) (p : ManPtr) : Frame :=
  if p.ptrMeta = .Unrooted (s.black t) then .mark (.links o (i + 1))
  else match p.addr with
    | some c => .ptr (.shade c (.link o i p))
    | none => .mark (.linkCas o i p)

def execMark (s : St) (t : Lid) : MarkFrame → Eff × List Frame
  | .task o => (.nop, if s.color o = s.black t then [] else [.mark (.links o 0)])
  | .links o i =>
      if i < (s.objs o).arity then (.nop, [shadeLink s t o i (s.link (.field o i))])
      else (.nop, [.mark (.header o)])
  | .linkCas o i p =>
      if s.link (.field o i) = p then
        (.setLink (.field o i) (p.withMeta (.Unrooted (s.black t))), [.mark (.links o (i + 1))])
      else (.nop, [shadeLink s t o i (s.link (.field o i))])
  | .header o =>
      (.nop, if s.color o = s.black t then [] else [.mark (.headerCas o (s.objs o).header)])
  | .headerCas o h =>
      if (s.objs o).header = h then (.setColor o (s.black t), [])
      else (.nop, if s.color o = s.black t then []
        else [.mark (.headerCas o (s.objs o).header)])

/-! ## Helping (`src/guards.rs`) -/

/-- `HELP_NORMAL_MAX_TRIAL`. -/
def helpNormalMaxTrial : Nat := 2

/-- `HELP_TRACING_MAX_TRIAL`. -/
def helpTracingMaxTrial : Nat := 4

/-- The scanner once its `LazyCell` has been forced. -/
def Scanner.force : Scanner → Scanner
  | .helper q qs k _ => .helper q qs k true
  | sc => sc

/-- The next shard of a random permutation of those that are left. -/
def pickShard (qs : List Nat) (ch : Nat) : Nat := qs.getD (ch % qs.length) 0

/-- After the root count of `o` has been read as zero and the hazard set `hs`
is at hand: mark `o` when it is in the set, then go on. -/
def scanHazard (hs : List Oid) (sc : Scanner) (done : List Oid) (o : Oid)
    (todo : List Oid) : List Frame :=
  if o ∈ hs then [.mark (.links o 0), .help (.scanObjs sc (done ++ [o]) todo)]
  else [.help (.scanObjs sc (done ++ [o]) todo)]

/-- `obj.root_count() > 0 || hazards.contains(&obj.address())` and the mark. -/
def scanObj (s : St) (t : Lid) (sc : Scanner) (done : List Oid) (o : Oid)
    (todo : List Oid) : List Frame :=
  if 0 < s.rootCount o then
    [.mark (.links o 0), .help (.scanObjs sc (done ++ [o]) todo)]
  else match sc with
    | .worker _ _ hs => scanHazard hs sc done o todo
    | .helper _ _ _ true =>
        scanHazard (((s.locals t).cachedHazards.map Prod.fst).getD []) sc done o todo
    | .helper _ _ _ false =>
        -- `scan_or_reuse_hazards`: the cached set is good for the same epoch only.
        match (s.locals t).cachedHazards with
        | some (hs, e) =>
            if e = (s.locals t).epoch then scanHazard hs sc.force done o todo
            else [.help (.forceHps (.iter s.firstNode) [] sc done o todo)]
        | none => [.help (.forceHps (.iter s.firstNode) [] sc done o todo)]

/-- After a batch has been moved to `marked_objs`. -/
def Scanner.next : Scanner → List Frame
  | .worker q hi hs => [.help (.scanPop (.worker q hi hs))]
  | .helper q qs k f =>
      if k + 1 < helpTracingMaxTrial then [.help (.scanPop (.helper q qs (k + 1) f))] else []

def execHelp (s : St) (t : Lid) (ch : Nat) : HelpFrame → Eff × List Frame
  | .help => (.nop, match (s.locals t).epoch.phase with
      | .N => [.help (.normalNext (List.range objBatchesShard) 0)]
      | _ => [.help (.synced s.firstNode)])
  | .normalNext qs k => (.nop, match qs with
      | [] => []
      | _ => [.help (.normalPop (pickShard qs ch) (qs.erase (pickShard qs ch)) k)])
  | .normalPop q qs k =>
      match s.markedObjs (s.black t) q with
      | [] => (.nop, [.help (.normalNext qs k)])
      | b :: _ => (.popMarked (s.black t) q, [.help (.sweepObjs b 0 q qs k)])
  | .sweepObjs todo bytes q qs k =>
      match todo with
      | o :: rest =>
          if s.color o = s.black t then
            (.reclaim o, [.help (.sweepObjs rest (bytes + (s.objs o).size) q qs k)])
          else (.nop, [.ptr (.pushObj o false), .help (.sweepObjs rest bytes q qs k)])
      | [] => (.addReclaimed bytes,
          if k + 1 < helpNormalMaxTrial then [.help (.normalPop q qs (k + 1))] else [])
  | .synced it => (.nop, match it with
      | .act i nx =>
          let e := (s.locals i).epoch
          if e.isPinned ∧ e.phase = .N then [] else [.help (.synced (.goto nx))]
      | .fin =>
          match (s.locals t).epoch.phase with
          | .RT => [.help (.rootNext (List.range objBatchesShard) 0 false), .help .drainInit]
          | _ => [.help .drainInit]
      | it => [.help (.synced (s.iterStep false it))])
  | .rootNext qs k f => (.nop, match qs with
      | [] => []
      | _ => [.help (.scanPop (.helper (pickShard qs ch) (qs.erase (pickShard qs ch)) k f))])
  | .scanPop sc =>
      match sc with
      | .worker q hi hs =>
          if q < hi then
            match s.freshObjs (s.white t) q with
            | [] => (.nop, [.help (.scanPop (.worker (q + 1) hi hs))])
            | b :: _ => (.popFresh (s.white t) q, [.help (.scanObjs sc [] b)])
          else (.nop, [])
      | .helper q qs k f =>
          match s.freshObjs (s.white t) q with
          | [] => (.nop, [.help (.rootNext qs k f)])
          | b :: _ => (.popFresh (s.white t) q, [.help (.scanObjs sc [] b)])
  | .scanObjs sc done todo =>
      match todo with
      | o :: rest => (.nop, scanObj s t sc done o rest)
      | [] => (.pushMarked (s.white t) (ch % objBatchesShard) done, sc.next)
  | .forceHps h acc sc done o todo =>
      match h with
      | .iter .fin => (.cacheHazards acc, scanHazard acc sc.force done o todo)
      | h => (.nop, [.help (.forceHps (s.hpStep h acc).1 (s.hpStep h acc).2 sc done o todo)])
  | .drainInit =>
      (.nop, [.help (.drain (max ((s.locals t).markTasks.length / 2) (objBatchSize / 2)))])
  | .drain n => (.nop, match n, (s.locals t).markTasks with
      | n + 1, _ :: _ => [.help (.drainRecord n)]
      | _, _ => [])
  | .drainRecord n => (.recordMt (s.locals t).epoch.timestamp, [.help (.drainPop n)])
  | .drainPop n =>
      match (s.locals t).markTasks with
      | o :: _ => (.popTask, [.mark (.task o), .help (.drain n)])
      | [] => (.nop, [])

/-- One step of the thread on node `t` at frame `f`. -/
def exec (s : St) (t : Lid) (ch : Nat) : Frame → Eff × List Frame
  | .pin f => execPin s t ch f
  | .ptr f => execPtr s t ch f
  | .mark f => execMark s t f
  | .help f => execHelp s t ch f

end Cdpt
