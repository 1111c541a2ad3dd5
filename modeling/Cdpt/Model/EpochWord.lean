import Cdpt.Lib.Lts
import Cdpt.Model.Header

/-!
# The epoch word (`Epoch`, `src/epoch.rs`)

From the bottom: the pinned bit, two bits of phase number, the white colour and the
timestamp. The functions are those of `Epoch` on the bare word, and the run is that
of `collector_loop`, which enters one phase after the other.

A phase is read by a conversion that panics on `0b11`, so it has no value there, and
neither has what is computed from it. `timestamp + 1` is an addition on words and
wraps. `phase_trans` and `next_normal` differ in the colour alone. `CT` is entered
again each time its confirmation fails, and `N` only after `CT`, which is what
`next` says.
-/

namespace Cdpt

/-- `phase as usize`. -/
def Phase.toWord : Phase → Word
  | .N => 0b00#64
  | .RT => 0b01#64
  | .CT => 0b10#64

/-- `Phase::from(usize)`; `none` where it panics. -/
def Phase.ofWord (w : Word) : Option Phase :=
  if w = 0b00#64 then some .N
  else if w = 0b01#64 then some .RT
  else if w = 0b10#64 then some .CT
  else none

namespace EpochWord

/-- `Epoch::PINNED_BIT`. -/
def pinnedBit : Word := 0b1#64 <<< 0

/-- `Epoch::PHASE_NUMBER_BITS`. -/
def phaseNumberBits : Word := 0b11#64 <<< 1

/-- `Epoch::COLOR_BIT`. -/
def colorBit : Word := 0b1#64 <<< 3

/-- `Epoch::TIMESTAMP_BITS`. -/
def timestampBits : Word := BitVec.allOnes 64 <<< 4

/-- `Epoch::starting`. -/
def starting : Word := 0#64

def isPinned (e : Word) : Bool := decide (0#64 < e &&& pinnedBit)

def pinned (e : Word) : Word := e ||| pinnedBit

def unpinned (e : Word) : Word := e &&& ~~~pinnedBit

def phase (e : Word) : Option Phase := Phase.ofWord ((e &&& phaseNumberBits) >>> 1)

def withPhase (e : Word) (ph : Phase) : Word := (e &&& ~~~phaseNumberBits) ||| (ph.toWord <<< 1)

def color (e : Word) : Color := Color.ofWord ((e &&& colorBit) >>> 3)

def withColor (e : Word) (c : Color) : Word := (e &&& ~~~colorBit) ||| (c.toWord <<< 3)

def timestamp (e : Word) : Word := (e &&& timestampBits) >>> 4

def withTimestamp (e : Word) (value : Word) : Word := (e &&& ~~~timestampBits) ||| (value <<< 4)

/-- What `phase_trans` stores. -/
def phaseTrans (e : Word) (new : Phase) : Word :=
  withPhase (withTimestamp e (timestamp e + 1#64)) new

/-- What `next_normal` stores. -/
def nextNormal (e : Word) : Word :=
  withColor (withPhase (withTimestamp e (timestamp e + 1#64)) .N) (color e).flip

/-- `pinned_alloc_color` of a thread pinned at `e`. -/
def pinnedAllocColor (e : Word) : Option Color :=
  (phase e).map fun ph =>
    match ph with
    | .N => color e
    | _ => (color e).flip

/-- The phases the collector can enter next: it confirms completion only after
a `phase_trans(CT)`. -/
def next : Phase → List Phase
  | .N => [.RT]
  | .RT => [.CT]
  | .CT => [.CT, .N]

/-- The global epoch and how far the collector is in its cycle. -/
structure St where
  word : Word
  pos : Phase

def enter (e : Word) : Phase → Word
  | .N => nextNormal e
  | .RT => phaseTrans e .RT
  | .CT => phaseTrans e .CT

/-- The collector enters `ph`. -/
def step (s : St) (ph : Phase) : Option St :=
  if ph ∈ next s.pos then some ⟨enter s.word ph, ph⟩ else none

def St.init : St := ⟨starting, .N⟩

end EpochWord

end Cdpt
