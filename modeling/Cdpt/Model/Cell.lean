import Cdpt.Lib.Lts
import Cdpt.Lib.Linearizable
import Cdpt.Model.Word

/-!
# One `AtomicSharedOption` cell (`src/pointers.rs`)

The operations of the cell on its packed word, one access of `link` a step, by
any number of threads at once; `shade` is what collectors and helpers do to
the same word. Between two accesses an operation runs its barriers, adjusts
root counts and drops its temporary `Shared`. None of that touches the word,
so here it is the time that passes between two steps of the call.

The events of a call are kept in the ghost field `history`.
-/

namespace Cdpt.Cell

open Linearizable (Event)

inductive TagOp
  | and
  | or
  | xor
deriving DecidableEq, Repr

def TagOp.apply : TagOp → Word → Word → Word
  | .and, w, t => w &&& t
  | .or, w, t => w ||| t
  | .xor, w, t => w ^^^ t

/-- The word `fetch_tag_and`, `fetch_tag_or` and `fetch_tag_xor` leave: the
three hand the same masked argument to `fetch_and`, `fetch_or` and `fetch_xor`. -/
def fetchTag (a : Align) (f : TagOp) (w tag : Word) : Word := f.apply w (tag &&& a.lowBits)

/-- A pointer and a tag, as the operations take and return them. -/
abbrev WithTag (a : Align) := Option (LocalPtr a) × Word

/-- The forms without a tag are those with the tag 0, which drop the tag of
their answer. -/
inductive Op (a : Align)
  | load
  | store (new : WithTag a)
  | swap (new : WithTag a)
  | take
  | compareExchange (current new : WithTag a)
  | compareExchangeWeak (current new : WithTag a)
  | fetchTag (f : TagOp) (tag : Word)
  | shade (black : Color)
deriving DecidableEq

inductive Res (a : Align)
  | unit
  | value (v : WithTag a)
  | ok (v : WithTag a)
  | err (v : WithTag a)
deriving DecidableEq

/-- Where a call stands: about to perform the access, with its local variables. -/
inductive Pc (a : Align)
  | load
  | swapLoad (new : Word)
  | swapRooted (old new : Word)
  | swapUnrooted (old new : Word)
  | casLoad (weak : Bool) (current new : WithTag a)
  | casRooted (weak : Bool) (current new : WithTag a) (old : Word)
  | casUnrooted (weak : Bool) (old new : Word)
  | fetchTag (f : TagOp) (tag : Word)
  | shadeLoad (black : Color)
  | shadeCas (black : Color) (ptr : Word)
  | done (ok : Bool) (w : Word)
deriving DecidableEq

def Op.start {a : Align} : Op a → Pc a
  | .load => .load
  | .store new | .swap new => .swapLoad (Word.ofLocalTag new)
  | .take => .swapLoad (Word.ofLocalTag (none, 0#64) (a := a))
  | .compareExchange current new => .casLoad false current new
  | .compareExchangeWeak current new => .casLoad true current new
  | .fetchTag f tag => .fetchTag f tag
  | .shade black => .shadeLoad black

/-- What the operation makes of the word its last access gave it. -/
def Op.result {a : Align} : Op a → Bool → Word → Res a
  | .store _, _, _ | .shade _, _, _ => .unit
  | .compareExchange _ _, ok, w | .compareExchangeWeak _ _, ok, w =>
      if ok then .ok (w.asLocalTag a) else .err (w.asLocalTag a)
  | _, _, w => .value (w.asLocalTag a)

/-- `internal_swap` after it has read `old`: the rooted loop, or the unrooted
path, on which every failure retries with the word it saw. -/
def swapFrom {a : Align} (old new : Word) : Pc a :=
  if old.ptrMeta = .Rooted then .swapRooted old new else .swapUnrooted old new

/-- The body of the loop of `shade`. -/
def shadeFrom {a : Align} (black : Color) (ptr : Word) : Pc a :=
  if ptr.ptrMeta = .Unrooted black then .done true ptr else .shadeCas black ptr

/-- `compare_exchange` of `link` at `w`; the weak form may fail spuriously. -/
def casOk (weak spurious : Bool) (w old : Word) : Bool := w == old && !(weak && spurious)

/-- One access: the word after it and where the call goes on. -/
def exec {a : Align} (w : Word) (spurious : Bool) : Pc a → Word × Pc a
  | .load => (w, .done true w)
  | .swapLoad new => (w, swapFrom w new)
  | .swapRooted old new =>
      if w = old then (new.withMeta .Rooted, .done true old) else (w, swapFrom w new)
  | .swapUnrooted old new =>
      if w = old then (new.withMeta (.Unrooted old.unrootedColor), .done true old)
      else (w, .swapUnrooted w new)
  | .casLoad weak current new =>
      if w.withoutMeta ≠ Word.ofLocalTag current then (w, .done false w)
      else if w.ptrMeta = .Rooted then (w, .casRooted weak current new w)
      else (w, .casUnrooted weak w (Word.ofLocalTag new))
  | .casRooted weak current new old =>
      if casOk weak spurious w old then
        ((Word.ofLocalTag new).withMeta .Rooted, .done true old)
      else if weak ∨ w.ptrMeta = .Rooted ∨ w.withoutMeta ≠ Word.ofLocalTag current then
        (w, .done false w)
      else (w, .casUnrooted false w (Word.ofLocalTag new))
  | .casUnrooted weak old new =>
      if casOk weak spurious w old then
        (new.withMeta (.Unrooted old.unrootedColor), .done true old)
      else if ¬ weak ∧ w.withoutMeta = old.withoutMeta then
        -- Only the metadata has changed.
        (w, .casUnrooted false w new)
      else (w, .done false w)
  | .fetchTag f tag => (Cell.fetchTag a f w tag, .done true w)
  | .shadeLoad black => (w, shadeFrom black w)
  | .shadeCas black ptr =>
      if w = ptr then (ptr.withMeta (.Unrooted black), .done true ptr)
      else (w, shadeFrom black w)
  | .done ok r => (w, .done ok r)

/-! ## The system of all calls -/

inductive Call (a : Align)
  | fresh
  | running (op : Op a) (pc : Pc a)
  | returned

structure St (a : Align) where
  word : Word
  calls : Nat → Call a
  history : List (Event Nat (Op a) (Res a))

inductive Label (a : Align)
  | call (i : Nat) (op : Op a)
  | run (i : Nat) (spurious : Bool)
  | ret (i : Nat)

def step {a : Align} (s : St a) : Label a → Option (St a)
  | .call i op =>
      match s.calls i with
      | .fresh => some { s with
          calls := Function.update s.calls i (.running op op.start)
          history := s.history ++ [.inv i op] }
      | _ => none
  | .run i spurious =>
      match s.calls i with
      | .running _ (.done _ _) => none
      | .running op pc => some { s with
          word := (exec s.word spurious pc).1
          calls := Function.update s.calls i (.running op (exec s.word spurious pc).2) }
      | _ => none
  | .ret i =>
      match s.calls i with
      | .running op (.done ok w) => some { s with
          calls := Function.update s.calls i .returned
          history := s.history ++ [.ret i (op.result ok w)] }
      | _ => none

/-- A cell that holds `w`, and no call made yet. -/
def init {a : Align} (w : Word) : St a := ⟨w, fun _ => .fresh, []⟩

/-- Runs without `fetch_tag_and`. -/
def Label.noTagAnd {a : Align} : Label a → Bool
  | .call _ (.fetchTag .and _) => false
  | _ => true

end Cdpt.Cell
