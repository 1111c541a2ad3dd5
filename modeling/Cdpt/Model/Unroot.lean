import Cdpt.Lib.Lts
import Cdpt.Model.Derive
import Cdpt.Model.Header

/-!
# Root contributions of pointer cells (`src/pointers.rs`)

A pointer cell (`AtomicSharedOption`, and `AtomicShared` and `Shared` around
it) contributes one to the root count of its pointee while its metadata says
`Rooted`. An allocation moves a value into the managed heap and runs the derived
`unroot_outgoings` on it, which takes the contributions of its cells away.

The values are those of the derive macro, their occurrences named by the cells:
two values that share an `Arc` name the same cells. Which cells of a value are
still owned outside the managed heap after it has been moved (by another clone
of the `Arc`, or by the owner of a `&'static`) is for the program to choose.
The headers are words, so that a decrement below zero does what it does.

Shading only schedules a mark task, and what marking does to a header is a step
of its own.
-/

namespace Cdpt.Unroot

open Derive (Data DataVal)

structure Cell where
  target : Option Nat
  ptrMeta : PtrMeta
deriving DecidableEq, Repr

structure St where
  nObjs : Nat
  header : Nat → Word
  nCells : Nat
  cells : Nat → Cell
  /-- The cell has an owner outside the managed heap. -/
  outside : Nat → Bool
  /-- The cell is contained in a managed object. -/
  managed : Nat → Bool
  /-- How often `unroot` has decremented a count on behalf of the cell. -/
  unroots : Nat → Nat
  /-- The type id and the colour that the header was given. -/
  typeIds : Nat → BitVec 8
  colors : Nat → Color

def St.setHeader (s : St) (o : Nat) (w : Word) : St :=
  { s with header := Function.update s.header o w }

def St.setCell (s : St) (c : Nat) (x : Cell) : St :=
  { s with cells := Function.update s.cells c x }

/-- `increment_root_count` of the pointee, if there is one. -/
def St.increment (s : St) : Option Nat → St
  | none => s
  | some o => s.setHeader o (Header.increment (s.header o))

/-- `decrement_root_count` of the pointee, if there is one. -/
def St.decrement (s : St) : Option Nat → St
  | none => s
  | some o => s.setHeader o (Header.decrement (s.header o))

/-- `AtomicSharedOption::unroot`, without the debug assertion. The other two
pointer types delegate to it. -/
def unroot (allocColor : Color) (s : St) (c : Nat) : St :=
  let x := s.cells c
  let s := s.decrement x.target
  let n := s.unroots c + if x.target.isSome then 1 else 0
  let s := { s with unroots := Function.update s.unroots c n }
  s.setCell c { x with ptrMeta := .Unrooted allocColor }

/-- A value of a type with a derived `TraceObj`. -/
structure Item where
  data : Data
  val : DataVal Nat
  hasTy : data.HasTy val

def Item.cells (x : Item) : List Nat := x.val.occurrences

/-- The derived `unroot_outgoings`. -/
def unrootOutgoings (allocColor : Color) (x : Item) (s : St) : St :=
  match Derive.genBody x.data .unroot with
  | .ok b => (b.run x.val).foldl (fun s q => unroot allocColor s q.2) s
  | .error _ => s

/-- `ManObj::new`. -/
def St.newObj (s : St) (color : Color) (rootCount : Word) (typeId : BitVec 8) : St :=
  { s with
    nObjs := s.nObjs + 1
    header := Function.update s.header s.nObjs (Header.newWithTypeId color rootCount typeId)
    typeIds := Function.update s.typeIds s.nObjs typeId
    colors := Function.update s.colors s.nObjs color }

/-- A new rooted cell, which the caller owns. -/
def St.newCell (s : St) (target : Option Nat) : St :=
  { s with
    nCells := s.nCells + 1
    cells := Function.update s.cells s.nCells ⟨target, .Rooted⟩
    outside := Function.update s.outside s.nCells true }

/-- The cells of the value are now in the managed heap. -/
def St.moveIn (s : St) (x : Item) (still : List Nat) : St :=
  { s with
    managed := fun c => s.managed c || decide (c ∈ x.cells)
    outside := fun c => s.outside c && (decide (c ∉ x.cells) || decide (c ∈ still)) }

inductive Label
  /-- `Local::new`, or with `rooted` `Shared::new`, `AtomicShared::new` and
  `AtomicSharedOption::some`. The cells in `still` keep an owner outside. -/
  | alloc (rooted : Bool) (x : Item) (still : List Nat) (typeId : BitVec 8) (allocColor : Color)
  /-- `Shared::clone`, `as_shared`, `as_atomic_shared`. -/
  | share (o : Nat)
  /-- `AtomicSharedOption::none`. -/
  | none
  /-- A store, swap or successful exchange on a cell. -/
  | store (c : Nat) (new : Option Nat)
  /-- The last owner outside the managed heap gives the cell up. -/
  | drop (c : Nat)
  /-- `AtomicObjMeta::mark`. -/
  | mark (o : Nat) (c : Color)

/-- A value can be built from cells that are owned outside or that are shared
with a managed object. -/
def St.reachable (s : St) (c : Nat) : Bool := s.outside c || s.managed c

/-- What a cell adds to the root count of object `o`. -/
def Cell.share (x : Cell) (o : Nat) : Nat :=
  if x.target = some o ∧ x.ptrMeta = .Rooted then 1 else 0

/-- The number of rooted cells that point to `o`. -/
def St.rootedTo (s : St) (o : Nat) : Nat := ∑ c ∈ Finset.range s.nCells, (s.cells c).share o

/-- The root count field holds no more. The rooted cells that exist at a time do
not get there, as each takes 8 bytes of an address space of at most 57 bits; cells
that are forgotten stay counted and would have to be made one after the other. -/
def maxRootCount : Nat := 2 ^ 55 - 1

/-- Object `o` can be given one more rooted cell. -/
def St.hasRoom (s : St) (o : Nat) : Prop := s.rootedTo o < maxRootCount

instance (s : St) (o : Nat) : Decidable (s.hasRoom o) :=
  inferInstanceAs (Decidable (s.rootedTo o < maxRootCount))

def St.validTarget (s : St) (t : Option Nat) : Bool := t.all (· < s.nObjs)

/-- `Drop for AtomicSharedOption`, when no managed object shares the cell. -/
def St.dropCell (s : St) (c : Nat) : St :=
  let x := s.cells c
  let s := if x.ptrMeta = .Rooted then s.decrement x.target else s
  s.setCell c ⟨none, x.ptrMeta⟩

/-- The rooted path of `internal_swap` moves the contribution of the cell; on
an unrooted cell only the link changes. -/
def St.store (s : St) (c : Nat) (new : Option Nat) : St :=
  let x := s.cells c
  let s := if x.ptrMeta = .Rooted then (s.increment new).decrement x.target else s
  s.setCell c { x with target := new }

def step (s : St) : Label → Option St
  | .alloc rooted x still typeId allocColor =>
      if ∀ c ∈ x.cells, s.reachable c = true then
        let o := s.nObjs
        let s := s.newObj allocColor (if rooted then 1#64 else 0#64) typeId
        let s := unrootOutgoings allocColor x s
        let s := s.moveIn x still
        some (if rooted then s.newCell (some o) else s)
      else none
  | .share o => if o < s.nObjs ∧ s.hasRoom o then
      some ((s.increment (some o)).newCell (some o)) else none
  | .none => some (s.newCell none)
  | .store c new =>
      if s.reachable c ∧ s.validTarget new ∧
          ((s.cells c).ptrMeta = .Rooted → ∀ o ∈ new, s.hasRoom o) then
        some (s.store c new)
      else none
  | .drop c =>
      if s.outside c then
        let s := if s.managed c then s else s.dropCell c
        some { s with outside := Function.update s.outside c false }
      else none
  | .mark o c => if o < s.nObjs then
      some { s.setHeader o (Header.withMarked (s.header o) c) with
        colors := Function.update s.colors o c } else none

def St.init : St where
  nObjs := 0
  header _ := 0#64
  nCells := 0
  cells _ := ⟨none, .Rooted⟩
  outside _ := false
  managed _ := false
  unroots _ := 0
  typeIds _ := 0#8
  colors _ := .C0

end Cdpt.Unroot
