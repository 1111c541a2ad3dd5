import Cdpt.Model.Meta

/-!
# Count updates and marks on one header word

An update inside the range touches the digits below the type id only, and a
successful CAS rewrites the word it has compared with, so its count is the current
one. What a step does to the three fields is therefore local, and the invariant is
the count equation and the type id.

A count is changed by `fetch_add` and `fetch_sub` on the whole word, a mark by a
loop of load and CAS that writes the colour into the word it has read. Both can be
under way at once. If the count moves between the load of a mark and its CAS, the
CAS fails and the mark tries again, and if the colour moves under an update, the
update does not see it. So an access that writes is an update or the CAS of a mark,
and the others leave the word alone (`StepCase`); the equation for the count follows
by counting the completed updates of either kind.

The range matters. An increment at the largest count would carry into the type id,
and a decrement at zero would borrow from it; the hypothesis on the run is that the
count, as the updates have left it, stays within its bounds. Under it the update is
local to the low digits, which is a fact about the word (`Header.increment_spec`,
`Header.decrement_spec`) and used here as such. That the bounds hold in the system
is the business of `RootCount`.
-/

namespace Cdpt.Meta

open Header

/-- The fields of the word after completed updates of a header that started
with `count` and `id`. -/
structure Inv (count : Nat) (id : BitVec 8) (s : St) : Prop where
  typeId : typeId s.word = id
  count : (rootCount s.word).toNat + s.decs = count + s.incs

theorem Inv.init (color : Color) {count : Word} (id : BitVec 8) (h : count.toNat < 2 ^ 55) :
    Inv count.toNat id (St.init color count id) where
  typeId := typeId_newWithTypeId color count id
  count := by
    show (rootCount (newWithTypeId color count id)).toNat + 0 = count.toNat + 0
    rw [rootCount_newWithTypeId, toNat_rootCount, Nat.mod_eq_of_lt h]

/-- What one access does. -/
inductive StepCase (s : St) : Label → St → Prop
  | begin {c : Nat} {op : Op} (hc : s.calls c = .fresh) :
      StepCase s (.call c op) (s.setCall c (.running op))
  | increment {c : Nat} (hc : s.calls c = .running .increment) :
      StepCase s (.run c) ({ s with word := Header.increment s.word, incs := s.incs + 1 }.setCall c
        (.returned .increment (some (rootCount s.word))))
  | decrement {c : Nat} (hc : s.calls c = .running .decrement) :
      StepCase s (.run c) ({ s with word := Header.decrement s.word, decs := s.decs + 1 }.setCall c
        (.returned .decrement (some (rootCount s.word))))
  /-- The loop of `mark` ends without a write. -/
  | settled {c : Nat} {black : Color}
      (hc : s.calls c = .running (.mark black) ∨ ∃ w, s.calls c = .cas black w)
      (hm : marked s.word = black) :
      StepCase s (.run c) (s.setCall c (.returned (.mark black) none))
  | retry {c : Nat} {black : Color}
      (hc : s.calls c = .running (.mark black) ∨ ∃ w, s.calls c = .cas black w) :
      StepCase s (.run c) (s.setCall c (.cas black s.word))
  | marked {c : Nat} {black : Color} (hc : s.calls c = .cas black s.word) :
      StepCase s (.run c) ({ s with word := withMarked s.word black }.setCall c
        (.returned (.mark black) none))

theorem loopHead_case {s : St} {c : Nat} {black : Color}
    (hc : s.calls c = .running (.mark black) ∨ ∃ w, s.calls c = .cas black w) :
    StepCase s (.run c) (s.setCall c (loopHead black s.word)) := by
  rw [loopHead]
  split
  · next hm => exact .settled hc hm
  · exact .retry hc

theorem step_cases {s s' : St} {l : Label} (h : step s l = some s') : StepCase s l s' := by
  cases l with
  | call c op =>
      simp only [step] at h
      split at h
      · next hc =>
          cases h
          exact .begin hc
      · cases h
  | run c =>
      simp only [step] at h
      cases hc : s.calls c with
      | running op =>
          rw [hc] at h
          cases op with
          | increment =>
              cases h
              exact .increment hc
          | decrement =>
              cases h
              exact .decrement hc
          | mark black =>
              cases h
              exact loopHead_case (.inl hc)
      | cas black w =>
          rw [hc, exec] at h
          split at h
          · next hw =>
              subst hw
              cases h
              exact .marked hc
          · cases h
            exact loopHead_case (.inr ⟨w, hc⟩)
      | fresh | returned =>
          rw [hc] at h
          cases h

/-- An update inside the range leaves everything above the count alone. -/
theorem upper_update {count : Nat} {id : BitVec 8} {s : St} (h : Inv count id s) :
    (count + s.incs + 1 < 2 ^ 55 + s.decs →
      upper (Header.increment s.word) = upper s.word ∧
      (rootCount (Header.increment s.word)).toNat = (rootCount s.word).toNat + 1) ∧
    (s.decs < count + s.incs →
      upper (Header.decrement s.word) = upper s.word ∧
      (rootCount (Header.decrement s.word)).toNat + 1 = (rootCount s.word).toNat) := by
  have hcount := h.count
  constructor
  · intro hw
    exact increment_spec (by omega)
  · intro hw
    have hpos : 0 < (rootCount s.word).toNat := by omega
    obtain ⟨hup, hdec⟩ := decrement_spec hpos
    exact ⟨hup, by omega⟩

theorem Inv.step {count : Nat} {id : BitVec 8} {s s' : St} (h : Inv count id s) {l : Label}
    (hw : within count s l) (hs : Meta.step s l = some s') : Inv count id s' := by
  have hid := h.typeId
  have hcount := h.count
  cases step_cases hs with
  | begin | settled | retry => exact ⟨hid, hcount⟩
  | @increment c hc =>
      rw [within, hc] at hw
      obtain ⟨hup, hinc⟩ := (upper_update h).1 hw
      refine ⟨(typeId_eq_of_upper hup).trans hid, ?_⟩
      show (rootCount (Header.increment s.word)).toNat + s.decs = count + (s.incs + 1)
      omega
  | @decrement c hc =>
      rw [within, hc] at hw
      obtain ⟨hup, hdec⟩ := (upper_update h).2 hw
      refine ⟨(typeId_eq_of_upper hup).trans hid, ?_⟩
      show (rootCount (Header.decrement s.word)).toNat + (s.decs + 1) = count + s.incs
      omega
  | @marked c black hc =>
      refine ⟨(typeId_withMarked s.word black).trans hid, ?_⟩
      show (rootCount (withMarked s.word black)).toNat + s.decs = count + s.incs
      rw [rootCount_withMarked, hcount]

theorem Inv.of_reaches {count : Nat} {id : BitVec 8} {s s' : St} (h : Inv count id s)
    (hr : Lts.Reaches Meta.step (within count) s s') : Inv count id s' :=
  hr.invariant h fun hx hw hs => hx.step hw hs

/-- The colour changes by marks alone. -/
theorem marked_step {count : Nat} {id : BitVec 8} {s s' : St} (h : Inv count id s) {l : Label}
    (hw : within count s l) {black : Color} (hb : marksUse black s l)
    (hm : marked s.word = black) (hs : step s l = some s') : marked s'.word = black := by
  cases step_cases hs with
  | begin | settled | retry => exact hm
  | @increment c hc =>
      rw [within, hc] at hw
      exact (marked_eq_of_upper ((upper_update h).1 hw).1).trans hm
  | @decrement c hc =>
      rw [within, hc] at hw
      exact (marked_eq_of_upper ((upper_update h).2 hw).1).trans hm
  | @marked c b hc =>
      rw [marksUse, hc] at hb
      have hcol : b = black := hb
      rw [← hcol]
      exact marked_withMarked s.word b

end Cdpt.Meta
