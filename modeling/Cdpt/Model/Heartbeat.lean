import Cdpt.Model.Machine
import Cdpt.Model.Pacing

/-!
# The heartbeat beside the collector (`src/collector.rs`)

`heartbeat` reads the two byte counters one after the other with `HBSTATS` held.
The heartbeat thread calls it at any time, the collector at the end of each cycle,
in `record_collection_stats`. The machine goes on in between: `HBSTATS` is taken
only by the two callers and, for reading, where `is_collection_necessary` has no
explicit request to answer, so that a cycle which has started runs to its end.

The functions of the pacing model compute what is stored; here is when the counters
are read.
-/

namespace Cdpt.Heartbeat

/-- Where `collector_loop` is: before its first statement, in
`is_collection_necessary`, in the cycle, or in `record_collection_stats`. -/
inductive Loop
  | starting
  | deciding
  | cycle
  | recording
deriving DecidableEq, Repr

inductive Caller
  | thread
  | collector
deriving DecidableEq, Repr

/-- A call of `heartbeat` that holds `HBSTATS`, `ms` after the last measurement:
`newTotalAlloc` is what it has read of the first counter. -/
structure Call where
  caller : Caller
  ms : Nat
  newTotalAlloc : Option Nat
deriving DecidableEq, Repr

structure St where
  sys : Cdpt.St
  loop : Loop
  /-- `collection_requested`. -/
  requested : Bool
  stats : Pacing.HeartbeatStats
  call : Option Call
  /-- A subtraction has underflowed, with the lock held. -/
  panicked : Bool

inductive Label
  | sys (lab : Cdpt.Label)
  | start
  | request
  | isCollectionNecessary
  | lock (caller : Caller) (ms : Nat)
  | readAlloc
  | readReclm
deriving DecidableEq, Repr

/-- What the collector does when `heartbeat` has returned to it. -/
def St.returned (s : St) : Caller → Loop
  | .thread => s.loop
  | .collector => .deciding

def step (s : St) : Label → Option St
  | .sys (.coll ch) =>
      if s.loop = .cycle then
        (Cdpt.step s.sys (.coll ch)).map fun u =>
          { s with sys := u, loop := if u.stage = .idle then .recording else .cycle }
      else none
  | .sys lab => (Cdpt.step s.sys lab).map fun u => { s with sys := u }
  | .start =>
      if s.loop = .starting then
        some { s with
          loop := .deciding
          stats := { s.stats with totalAlloc := s.sys.totalAllocated } }
      else none
  | .request => some { s with requested := true }
  | .isCollectionNecessary =>
      if s.loop = .deciding then
        if s.requested then some { s with loop := .cycle, requested := false }
        else if s.call = none then some { s with loop := .cycle }
        else none
      else none
  | .lock caller ms =>
      if s.call = none ∧ s.loop ≠ .starting ∧ (caller = .collector → s.loop = .recording) then
        if ms = 0 then some { s with loop := s.returned caller }
        else some { s with call := some ⟨caller, ms, none⟩ }
      else none
  | .readAlloc =>
      match s.call with
      | some ⟨caller, ms, none⟩ =>
          some { s with call := some ⟨caller, ms, some s.sys.totalAllocated⟩ }
      | _ => none
  | .readReclm =>
      match s.call with
      | some ⟨caller, ms, some newTotalAlloc⟩ =>
          if s.panicked then none
          else match Pacing.heartbeat s.stats ms newTotalAlloc s.sys.totalReclaimed with
            | some stats => some { s with stats, loop := s.returned caller, call := none }
            | none => some { s with panicked := true }
      | _ => none

def St.init (threads : Nat) : St :=
  ⟨Cdpt.St.init threads, .starting, false, ⟨0, 0, 0, 0⟩, none, false⟩

/-- The two differences `heartbeat` takes, when it has read both counters. -/
def St.subtracts (s : St) : Prop :=
  ∀ c ∈ s.call, ∀ newTotalAlloc ∈ c.newTotalAlloc,
    (Pacing.sub newTotalAlloc s.stats.totalAlloc).isSome = true ∧
    (Pacing.sub newTotalAlloc s.sys.totalReclaimed).isSome = true

end Cdpt.Heartbeat
