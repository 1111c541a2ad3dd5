import Cdpt.Lib.Lts
import Cdpt.Model.Header

/-!
# The shared header word (`AtomicObjMeta`, `src/pointers.rs`)

Any number of calls of `increment_root_count`, `decrement_root_count` and `mark` on
one header, one access to the word a step. The two counts of completed updates are
kept beside the word; no call reads them.

An update is a single `fetch_add` or `fetch_sub`, and answers with the count in the
word it has replaced. The loop of `mark` reads, gives up if the colour is there
already, and compares with the whole word it has read, so it fails when a count has
changed in between and goes round again. `within` states the bounds on the running
count as a condition on the steps, before they are made.
-/

namespace Cdpt.Meta

/-- `mark` with `guard.black_color()`. -/
inductive Op
  | increment
  | decrement
  | mark (black : Color)
deriving DecidableEq, Repr

inductive Call
  | fresh
  | running (op : Op)
  /-- In the loop of `mark`, about to compare with `w`. -/
  | cas (black : Color) (w : Word)
  | returned (op : Op) (prev : Option Word)
deriving DecidableEq

structure St where
  word : Word
  incs : Nat
  decs : Nat
  calls : Nat → Call

def St.setCall (s : St) (c : Nat) (x : Call) : St :=
  { s with calls := Function.update s.calls c x }

/-- The head of the loop of `mark`, with `w` just read. -/
def loopHead (black : Color) (w : Word) : Call :=
  if Header.marked w = black then .returned (.mark black) none else .cas black w

/-- The next access of call `c`. -/
def exec (s : St) (c : Nat) : Call → Option St
  | .running .increment =>
      some ({ s with word := Header.increment s.word, incs := s.incs + 1 }.setCall c
        (.returned .increment (some (Header.rootCount s.word))))
  | .running .decrement =>
      some ({ s with word := Header.decrement s.word, decs := s.decs + 1 }.setCall c
        (.returned .decrement (some (Header.rootCount s.word))))
  | .running (.mark black) => some (s.setCall c (loopHead black s.word))
  | .cas black w =>
      if s.word = w then
        some ({ s with word := Header.withMarked w black }.setCall c (.returned (.mark black) none))
      else some (s.setCall c (loopHead black s.word))
  | .fresh | .returned _ _ => none

inductive Label
  | call (c : Nat) (op : Op)
  | run (c : Nat)
deriving DecidableEq, Repr

def step (s : St) : Label → Option St
  | .call c op =>
      match s.calls c with
      | .fresh => some (s.setCall c (.running op))
      | _ => none
  | .run c => exec s c (s.calls c)

/-- `new_with_type_id`. -/
def St.init (color : Color) (count : Word) (typeId : BitVec 8) : St :=
  ⟨Header.newWithTypeId color count typeId, 0, 0, fun _ => .fresh⟩

/-- The running count stays within `0 ..= 2 ^ 55 - 1`. -/
def Call.within (count : Nat) (s : St) : Call → Prop
  | .running .increment => count + s.incs + 1 < 2 ^ 55 + s.decs
  | .running .decrement => s.decs < count + s.incs
  | _ => True

instance (count : Nat) (s : St) : ∀ x, Decidable (Call.within count s x)
  | .running .increment => inferInstanceAs (Decidable (_ < _))
  | .running .decrement => inferInstanceAs (Decidable (_ < _))
  | .running (.mark _) | .fresh | .cas _ _ | .returned _ _ => instDecidableTrue

def within (count : Nat) (s : St) : Label → Prop
  | .run c => (s.calls c).within count s
  | .call _ _ => True

instance (count : Nat) (s : St) : ∀ l, Decidable (within count s l)
  | .run c => inferInstanceAs (Decidable ((s.calls c).within count s))
  | .call _ _ => instDecidableTrue

/-- A mark in progress uses `black`. -/
def Call.marks (black : Color) : Call → Prop
  | .running (.mark b) | .cas b _ => b = black
  | _ => True

def marksUse (black : Color) (s : St) : Label → Prop
  | .run c => (s.calls c).marks black
  | .call _ _ => True

end Cdpt.Meta
