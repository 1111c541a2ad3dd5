import Cdpt.Lib.F64
import Cdpt.Lib.Lts

/-!
# Pacing (`src/collector.rs`, `HeapHeadroom` in `src/internal.rs`)

The statistics the collector paces itself by. Integer operations are checked: one
that overflows, underflows or divides by zero has no result, so a call without one
is a call that fails. What a call reads of the world is part of its label: the
elapsed milliseconds, the samples of the two byte counters, the number of active
threads and the two flags.

Computations in `f64` are those of `Lib.F64`, which rounds as binary64 does; their
operands are integers and their results are cast back to integers. A heartbeat that
comes in the same millisecond as the last one changes nothing. `as_millis` is 128
bits wide and is cut to a `usize` before it divides. `record_collection_stats` calls
`heartbeat` in its middle, between its own samples of the counters, and the order of
the samples in `Collection` is that of the code.
-/

namespace Cdpt.Pacing

/-- `+`, `-`, `*` and `/` on `usize`. -/
def add (a b : Nat) : Option Nat := if a + b < 2 ^ 64 then some (a + b) else none

def sub (a b : Nat) : Option Nat := if b ≤ a then some (a - b) else none

def mul (a b : Nat) : Option Nat := if a * b < 2 ^ 64 then some (a * b) else none

def div (a b : Nat) : Option Nat := if b = 0 then none else some (a / b)

/-- `as isize`. -/
def toIsize (n : Nat) : Int := if n % 2 ^ 64 < 2 ^ 63 then n % 2 ^ 64 else n % 2 ^ 64 - 2 ^ 64

/-- `-` on `isize`. -/
def isub (a b : Int) : Option Int :=
  if -2 ^ 63 ≤ a - b ∧ a - b < 2 ^ 63 then some (a - b) else none

inductive HeapHeadroom
  | FixedMiB (mib : Nat)
  | Proportional (divisor : Nat)
deriving DecidableEq, Repr

/-- `HEADROOM_PROPORTIONAL_BIT`. -/
def headroomProportionalBit : Nat := 2 ^ 63

/-- `n.clamp(1, 1024)`. -/
def clamp (n : Nat) : Nat := min (max n 1) 1024

/-- `HeapHeadroom::pack`; `none` where the product overflows. -/
def HeapHeadroom.pack : HeapHeadroom → Option Nat
  | .FixedMiB mib => (mul (clamp mib) 1024).bind fun n => mul n 1024
  | .Proportional d => some (clamp d ||| headroomProportionalBit)

/-- `HeapHeadroom::unpack`. -/
def HeapHeadroom.unpack (bits : Nat) : HeapHeadroom :=
  if bits &&& headroomProportionalBit ≠ 0 then
    .Proportional (bits &&& (2 ^ 64 - 1 - headroomProportionalBit))
  else .FixedMiB (bits / (1024 * 1024))

/-- `HBSTATS`; the time of the last measurement is not kept. -/
structure HeartbeatStats where
  heapUsage : Nat
  totalAlloc : Nat
  allocPerMs : Nat
  allocPerMsSmooth : Nat
deriving DecidableEq, Repr

/-- `HBSTATS`, `CSTATS` and the packed headroom. `lastAlloc` and `lastReclm`
are the greatest samples so far; no call reads them. -/
structure St where
  hb : HeartbeatStats
  reclmPerMsSmooth : Nat
  collTimeMsSmooth : Nat
  desiredHeapLimit : Nat
  headroom : Nat
  lastAlloc : Nat
  lastReclm : Nat
deriving DecidableEq, Repr

/-- `smooth`; all three factors are `0.5`, so both products are exact. -/
def smooth (prev curr : Nat) : Nat :=
  if prev = 0 then curr else F64.toU64 (F64.round (F64.round prev + F64.round curr) / 2)

/-- `heartbeat`, `ms` after the last measurement. -/
def heartbeat (hb : HeartbeatStats) (ms newTotalAlloc newTotalReclm : Nat) :
    Option HeartbeatStats :=
  if ms = 0 then some hb
  else do
    let allocDiff ← sub newTotalAlloc hb.totalAlloc
    let newAllocPerMs ← div allocDiff (ms % 2 ^ 64)
    let heapUsage ← sub newTotalAlloc newTotalReclm
    some {
      heapUsage
      totalAlloc := newTotalAlloc
      allocPerMs := newAllocPerMs
      allocPerMsSmooth := smooth hb.allocPerMsSmooth newAllocPerMs }

/-- The configured minimum headroom. -/
def headroomMin (headroom heapUsage : Nat) : Option Nat :=
  match HeapHeadroom.unpack headroom with
  | .FixedMiB mib => (mul mib 1024).bind fun n => mul n 1024
  | .Proportional divisor => (div heapUsage divisor).map fun n => max n (16 * 1024)

/-- `(x as f64).sqrt().max(h as f64) as usize`. -/
def sqrtMax (x h : Nat) : Nat := F64.toU64 (max (F64.sqrt (F64.round x)) (F64.round h))

/-- What one call of `record_collection_stats` reads: the duration of the cycle
and the samples, in the order in which they are taken, `hbMs` being the time
since the last heartbeat. -/
structure Collection where
  ms : Nat
  reclAtStart : Nat
  allocAtEnd : Nat
  reclAtEnd : Nat
  hbMs : Nat
  hbAlloc : Nat
  hbReclm : Nat
  activeCount : Nat
deriving DecidableEq, Repr

/-- `curr_coll_time_ms`. -/
def Collection.collTimeMs (r : Collection) : Nat := max r.ms 1 % 2 ^ 64

/-- `new_reclm_rate`. -/
def St.newReclmRate (s : St) (r : Collection) : Nat :=
  smooth s.reclmPerMsSmooth
    (F64.toU64 (F64.quotient (F64.round (r.reclAtEnd - r.reclAtStart)) (F64.round r.collTimeMs)))

def recordCollectionStats (s : St) (r : Collection) : Option St := do
  let _ ← sub r.reclAtEnd r.reclAtStart
  let newReclmRate := s.newReclmRate r
  let hb ← heartbeat s.hb r.hbMs r.hbAlloc r.hbReclm
  let heapUsage ← sub r.allocAtEnd r.reclAtEnd
  let extra ←
    if newReclmRate = 0 then (mul r.activeCount 1024).bind fun n => mul n 1024
    else do
      let headroomMin ← headroomMin s.headroom heapUsage
      let x ← mul heapUsage hb.allocPerMsSmooth
      let x ← div x newReclmRate
      let x ← div x 10
      some (sqrtMax x headroomMin)
  let desiredHeapLimit ← add heapUsage extra
  some { s with
    hb
    reclmPerMsSmooth := newReclmRate
    collTimeMsSmooth := smooth s.collTimeMsSmooth r.collTimeMs
    desiredHeapLimit
    lastAlloc := r.hbAlloc
    lastReclm := r.hbReclm }

/-- The answer of `is_collection_necessary` when neither flag decides it. -/
def heapIsFull (s : St) (alloc reclm : Nat) : Option Bool :=
  let heapUsage := alloc - reclm
  let heapLimit := s.desiredHeapLimit
  if heapLimit < heapUsage then some true
  else do
    let rate ← isub (toIsize s.hb.allocPerMsSmooth) (toIsize s.reclmPerMsSmooth)
    if rate < 0 then some (decide (heapUsage ≥ heapLimit))
    else if rate = 0 then some false
    else do
      let room ← sub heapLimit heapUsage
      let oomTimeMs ← div room rate.toNat
      some (decide (oomTimeMs ≤ s.collTimeMsSmooth))

def isCollectionNecessary (s : St) (enabled requested : Bool) (alloc reclm : Nat) :
    Option (Bool × St) :=
  if enabled = false then some (false, { s with desiredHeapLimit := 0 })
  else if requested = true then some (true, s)
  else (heapIsFull s alloc reclm).map fun b =>
    (b, { s with lastAlloc := alloc, lastReclm := reclm })

inductive Label
  | heartbeat (ms alloc reclm : Nat)
  | recordCollectionStats (r : Collection)
  | isCollectionNecessary (enabled requested : Bool) (alloc reclm : Nat)
  | setHeapHeadroom (headroom : HeapHeadroom)
deriving DecidableEq, Repr

def step (s : St) : Label → Option St
  | .heartbeat ms alloc reclm =>
      (heartbeat s.hb ms alloc reclm).map fun hb =>
        { s with hb, lastAlloc := alloc, lastReclm := reclm }
  | .recordCollectionStats r => recordCollectionStats s r
  | .isCollectionNecessary enabled requested alloc reclm =>
      (isCollectionNecessary s enabled requested alloc reclm).map Prod.snd
  | .setHeapHeadroom headroom => headroom.pack.map fun bits => { s with headroom := bits }

/-- The start of `collector_loop`, with `FixedMiB(1)`. -/
def St.init (alloc reclm : Nat) : St :=
  ⟨⟨0, alloc, 0, 0⟩, 0, 0, 0, 1024 * 1024, alloc, reclm⟩

/-- Later samples of counters that only grow, stay below `2 ^ 63` and never
have more reclaimed than allocated. -/
def St.sample (s : St) (alloc reclm : Nat) : Prop :=
  s.lastAlloc ≤ alloc ∧ s.lastReclm ≤ reclm ∧ reclm ≤ alloc ∧ alloc < 2 ^ 63

def Collection.sampled (s : St) (r : Collection) : Prop :=
  s.sample r.allocAtEnd r.reclAtEnd ∧ r.reclAtStart ≤ r.reclAtEnd ∧
    r.allocAtEnd ≤ r.hbAlloc ∧ r.reclAtEnd ≤ r.hbReclm ∧ r.hbReclm ≤ r.hbAlloc ∧
    r.hbAlloc < 2 ^ 63

instance (s : St) (alloc reclm : Nat) : Decidable (s.sample alloc reclm) :=
  inferInstanceAs (Decidable (_ ∧ _))

instance (s : St) (r : Collection) : Decidable (r.sampled s) :=
  inferInstanceAs (Decidable (_ ∧ _))

def sampled (s : St) : Label → Prop
  | .heartbeat _ alloc reclm | .isCollectionNecessary _ _ alloc reclm => s.sample alloc reclm
  | .recordCollectionStats r => r.sampled s
  | .setHeapHeadroom _ => True

instance (s : St) : ∀ l, Decidable (sampled s l)
  | .heartbeat _ alloc reclm | .isCollectionNecessary _ _ alloc reclm =>
      inferInstanceAs (Decidable (s.sample alloc reclm))
  | .recordCollectionStats r => inferInstanceAs (Decidable (r.sampled s))
  | .setHeapHeadroom _ => instDecidableTrue

end Cdpt.Pacing
