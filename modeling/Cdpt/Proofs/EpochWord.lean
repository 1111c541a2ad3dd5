import Cdpt.Model.EpochWord
import Cdpt.Model.Machine

/-!
# The epoch word holds an epoch

`pack` lays out a decoded epoch, the timestamp in the upper 60 bits. Every function
of the word is the function of the record with the same name, so that a run over
words is one over records, which the rest of the development is about.

The layout is taken apart once: `pack` is an append of bit vectors, the masks and
shifts of the code select the two digits of it, and the setters replace one field of
the four low bits. After that each function of the word has one equation (`pack` on
one side, the record function inside `pack` on the other), and none of the later
proofs looks at a bit. The timestamp is the top digit, so adding to it wraps without
touching the others; that the sum is the mathematical one takes fewer than `2 ^ 60`
transitions, and this is the only bound there is.

The run is that of the collector loop over the packed word, with `CT` entered as
often as its confirmation fails. Each of the three transitions of the code is one of
the record (`trans`, `normal`), and the same record functions are what the collector
of the machine stores (`machine_epochs`). So the two models of an epoch meet here:
what is proved about phases and colours on records holds of the word the code
stores.
-/

namespace Cdpt.EpochWord

/-- The bits below the timestamp. -/
def low : Bool → Phase → Color → BitVec 4
  | b, ph, c => (BitVec.ofBool b).setWidth 4 ||| (ph.toWord.setWidth 4 <<< 1) |||
      (c.toWord.setWidth 4 <<< 3)

/-- The word of an epoch; the timestamp wraps. -/
def pack (e : Epoch) : Word := BitVec.ofNat 60 e.timestamp ++ low e.isPinned e.phase e.color

/-! ## Masks as two digits -/

theorem pinnedBit_eq : pinnedBit = 0#60 ++ 0b0001#4 := by decide

theorem phaseNumberBits_eq : phaseNumberBits = 0#60 ++ 0b0110#4 := by decide

theorem colorBit_eq : colorBit = 0#60 ++ 0b1000#4 := by decide

theorem timestampBits_eq : timestampBits = BitVec.allOnes 60 ++ 0b0000#4 := by decide

theorem phase_shift_eq (ph : Phase) : ph.toWord <<< 1 = 0#60 ++ (ph.toWord.setWidth 4 <<< 1) := by
  cases ph <;> decide

theorem color_shift_eq (c : Color) : c.toWord <<< 3 = 0#60 ++ (c.toWord.setWidth 4 <<< 3) := by
  cases c <;> decide

theorem low_pinned (b : Bool) (ph : Phase) (c : Color) :
    low b ph c ||| 0b0001#4 = low true ph c := by
  cases b <;> cases ph <;> cases c <;> decide

theorem low_phase (b : Bool) (ph ph' : Phase) (c : Color) :
    (low b ph c &&& ~~~0b0110#4) ||| (ph'.toWord.setWidth 4 <<< 1) = low b ph' c := by
  cases b <;> cases ph <;> cases ph' <;> cases c <;> decide

theorem low_color (b : Bool) (ph : Phase) (c c' : Color) :
    (low b ph c &&& ~~~0b1000#4) ||| (c'.toWord.setWidth 4 <<< 3) = low b ph c' := by
  cases b <;> cases ph <;> cases c <;> cases c' <;> decide

theorem shift_eq (v : Word) : v <<< 4 = v.setWidth 60 ++ 0b0000#4 := by
  refine BitVec.eq_of_getLsbD_eq fun i hi => ?_
  rw [BitVec.getLsbD_shiftLeft, BitVec.getLsbD_append, BitVec.getLsbD_setWidth]
  by_cases h : i < 4
  · simp [h]
  · have h60 : i - 4 < 60 := by omega
    simp [h, hi, h60]

/-! ## One function of the word after the other -/

variable (e : Epoch)

theorem isPinned_pack : isPinned (pack e) = e.isPinned := by
  rw [isPinned, pack, pinnedBit_eq, BitVec.and_append, BitVec.and_zero]
  generalize e.isPinned = b, e.phase = ph, e.color = c
  cases b <;> cases ph <;> cases c <;> decide

theorem phase_pack : phase (pack e) = some e.phase := by
  rw [phase, pack, phaseNumberBits_eq, BitVec.and_append, BitVec.and_zero]
  generalize e.isPinned = b, e.phase = ph, e.color = c
  cases b <;> cases ph <;> cases c <;> decide

theorem color_pack : color (pack e) = e.color := by
  rw [color, pack, colorBit_eq, BitVec.and_append, BitVec.and_zero]
  generalize e.isPinned = b, e.phase = ph, e.color = c
  cases b <;> cases ph <;> cases c <;> decide

theorem toNat_timestamp_pack : (timestamp (pack e)).toNat = e.timestamp % 2 ^ 60 := by
  have hand : pack e &&& timestampBits = BitVec.ofNat 60 e.timestamp ++ 0b0000#4 := by
    rw [pack, timestampBits_eq, BitVec.and_append, BitVec.and_allOnes, BitVec.and_zero]
  rw [timestamp, hand, BitVec.toNat_ushiftRight, BitVec.toNat_append, BitVec.toNat_ofNat]
  show ((e.timestamp % 2 ^ 60) <<< 4 ||| 0) >>> 4 = e.timestamp % 2 ^ 60
  rw [Nat.or_zero, Nat.shiftLeft_shiftRight]

theorem pinned_pack : pinned (pack e) = pack e.pinned := by
  rw [pinned, pack, pinnedBit_eq, BitVec.or_append, BitVec.or_zero, low_pinned]
  rfl

theorem withPhase_pack (ph : Phase) : withPhase (pack e) ph = pack (e.withPhase ph) := by
  rw [withPhase, pack, phaseNumberBits_eq, BitVec.not_append, BitVec.and_append, phase_shift_eq,
    BitVec.or_append, BitVec.not_zero, BitVec.and_allOnes, BitVec.or_zero, low_phase]
  rfl

theorem withColor_pack (c : Color) : withColor (pack e) c = pack (e.withColor c) := by
  rw [withColor, pack, colorBit_eq, BitVec.not_append, BitVec.and_append, color_shift_eq,
    BitVec.or_append, BitVec.not_zero, BitVec.and_allOnes, BitVec.or_zero, low_color]
  rfl

theorem withTimestamp_pack (v : Word) :
    withTimestamp (pack e) v = pack (e.withTimestamp v.toNat) := by
  have hkeep : pack e &&& ~~~timestampBits = 0#60 ++ low e.isPinned e.phase e.color := by
    rw [pack, timestampBits_eq, BitVec.not_append, BitVec.and_append, BitVec.not_allOnes,
      BitVec.and_zero, BitVec.not_zero, BitVec.and_allOnes]
  rw [withTimestamp, hkeep, shift_eq, BitVec.or_append, BitVec.zero_or, BitVec.or_zero, pack,
    Epoch.withTimestamp, BitVec.ofNat_toNat]

/-! ## The transitions -/

/-- `phase_trans` on the decoded epoch. -/
def trans (e : Epoch) (ph : Phase) : Epoch := (e.withTimestamp (e.timestamp + 1)).withPhase ph

/-- `next_normal` on the decoded epoch. -/
def normal (e : Epoch) : Epoch := (trans e .N).withColor e.color.flip

section

variable {e} (h : e.timestamp < 2 ^ 60)

include h

theorem timestamp_pack : (timestamp (pack e)).toNat = e.timestamp := by
  rw [toNat_timestamp_pack, Nat.mod_eq_of_lt h]

/-- The sum fits: the timestamp has 60 bits. -/
theorem toNat_timestamp_succ : (timestamp (pack e) + 1#64).toNat = e.timestamp + 1 := by
  rw [BitVec.toNat_add, timestamp_pack h]
  show (e.timestamp + 1) % 2 ^ 64 = e.timestamp + 1
  omega

theorem phaseTrans_pack (ph : Phase) : phaseTrans (pack e) ph = pack (trans e ph) := by
  rw [phaseTrans, withTimestamp_pack, withPhase_pack, toNat_timestamp_succ h]
  rfl

theorem nextNormal_pack : nextNormal (pack e) = pack (normal e) := by
  rw [nextNormal, withTimestamp_pack, withPhase_pack, withColor_pack, toNat_timestamp_succ h,
    color_pack]
  rfl

end

/-- The epochs the collector of the machine stores are those of the word. -/
theorem machine_epochs (s : Cdpt.St) (h : s.epoch.timestamp < 2 ^ 60) (ph : Phase) :
    pack (s.transEpoch ph) = phaseTrans (pack s.epoch) ph ∧
      pack s.normalEpoch = nextNormal (pack s.epoch) :=
  ⟨(phaseTrans_pack h ph).symm, (nextNormal_pack h).symm⟩

theorem pinnedAllocColor_pack :
    pinnedAllocColor (pack e) = some (if e.phase = .N then e.color else e.color.flip) := by
  rw [pinnedAllocColor, phase_pack, color_pack]
  cases e.phase <;> rfl

/-! ## Runs -/

/-- The epoch after the transitions `ls`, which end in the phase `pos`. -/
def epochAfter (ls : List Phase) (pos : Phase) : Epoch :=
  ⟨false, pos, Color.flip^[ls.count .N] .C0, ls.length⟩

theorem step_eq {s s' : St} {ph : Phase} (hs : step s ph = some s') :
    ph ∈ next s.pos ∧ s'.pos = ph ∧
      s'.word = if ph = .N then nextNormal s.word else phaseTrans s.word ph := by
  by_cases hmem : ph ∈ next s.pos
  · rw [step, if_pos hmem] at hs
    obtain rfl := Option.some.inj hs
    refine ⟨hmem, rfl, ?_⟩
    cases ph <;> rfl
  · rw [step, if_neg hmem] at hs
    cases hs

theorem epochAfter_snoc (ls : List Phase) (pos ph : Phase) :
    epochAfter (ls ++ [ph]) ph =
      if ph = .N then normal (epochAfter ls pos) else trans (epochAfter ls pos) ph := by
  have hcount : (ls ++ [ph]).count .N = ls.count .N + if ph = .N then 1 else 0 := by
    rw [List.count_append, List.count_singleton]
    cases ph <;> rfl
  have hlen : (ls ++ [ph]).length = ls.length + 1 := by simp
  rw [epochAfter, hcount, hlen]
  cases ph with
  | N =>
      rw [if_pos rfl, if_pos rfl, Function.iterate_succ_apply']
      rfl
  | RT | CT => rfl

theorem word_of_trace {ls : List Phase} {s : St}
    (h : Lts.Trace step (fun _ _ => True) St.init ls s) (hlen : ls.length < 2 ^ 60) :
    s.word = pack (epochAfter ls s.pos) ∧ s.pos = ls.getLastD .N := by
  induction h with
  | nil => exact ⟨by decide, rfl⟩
  | @snoc ls s s' ph h _ hs ih =>
      rw [List.length_append, List.length_singleton] at hlen
      have hlt : ls.length < 2 ^ 60 := by omega
      obtain ⟨-, hpos, hw⟩ := step_eq hs
      obtain ⟨hword, -⟩ := ih hlt
      have hts : (epochAfter ls s.pos).timestamp < 2 ^ 60 := hlt
      refine ⟨?_, by rw [hpos]; simp⟩
      rw [hw, hpos, hword, nextNormal_pack hts, phaseTrans_pack hts, epochAfter_snoc ls s.pos ph]
      split <;> rfl

/-- Every step but the one to `RT` keeps the allocation colour. -/
theorem pinnedAllocColor_step {ls : List Phase} {pos ph : Phase} (hn : ph ∈ next pos)
    (hRT : ph ≠ .RT) :
    pinnedAllocColor (pack (epochAfter (ls ++ [ph]) ph).pinned) =
      pinnedAllocColor (pack (epochAfter ls pos).pinned) := by
  rw [epochAfter_snoc ls pos ph, pinnedAllocColor_pack, pinnedAllocColor_pack]
  cases pos with
  | N => exact absurd (List.mem_singleton.1 hn) hRT
  | RT | CT =>
      cases ph with
      | N => rfl
      | RT => exact absurd rfl hRT
      | CT => rfl

theorem pinnedAllocColor_trace {ls ms : List Phase} {s s' : St}
    (h : Lts.Trace step (fun _ _ => True) St.init ls s)
    (h' : Lts.Trace step (fun _ _ => True) s ms s') (hlen : (ls ++ ms).length < 2 ^ 60)
    (hRT : Phase.RT ∉ ms) :
    pinnedAllocColor (pinned s'.word) = pinnedAllocColor (pinned s.word) := by
  induction h' with
  | nil => rfl
  | @snoc ms a b ph ht _ hs ih =>
      rw [← List.append_assoc, List.length_append, List.length_singleton] at hlen
      rw [List.mem_append, List.mem_singleton, not_or] at hRT
      rw [← ih (by omega) hRT.1]
      obtain ⟨hmem, hpos, -⟩ := step_eq hs
      have hfull := h.append ht
      obtain ⟨ha, -⟩ := word_of_trace hfull (by omega)
      obtain ⟨hb, -⟩ := word_of_trace (.snoc hfull trivial hs)
        (by rw [List.length_append, List.length_singleton]; exact hlen)
      rw [ha, hb, pinned_pack, pinned_pack, hpos]
      exact pinnedAllocColor_step hmem fun he => hRT.2 he.symm

/-- After fewer than `2 ^ 60` transitions, whatever the number of cycles: the
global word decodes to the phase entered last and the number of transitions,
with the white colour flipped once for each completed cycle and the pinned bit
clear; a thread pinned at it decodes the same; and until the next cycle starts,
the allocation colour stays what it is, the white of the normal phase when that
is reached. -/
theorem epochWord_faithful {ls : List Phase} {s : St}
    (h : Lts.Trace step (fun _ _ => True) St.init ls s) (hlen : ls.length < 2 ^ 60) :
    phase s.word = some (ls.getLastD .N) ∧
    (timestamp s.word).toNat = ls.length ∧
    color s.word = Color.flip^[ls.count .N] .C0 ∧
    isPinned s.word = false ∧
    (isPinned (pinned s.word) = true ∧ phase (pinned s.word) = phase s.word ∧
      color (pinned s.word) = color s.word ∧ timestamp (pinned s.word) = timestamp s.word) ∧
    (∀ ph s', step s ph = some s' → ph ∈ next (ls.getLastD .N)) ∧
    ∀ {ms : List Phase} {s' : St}, Lts.Trace step (fun _ _ => True) s ms s' →
      (ls ++ ms).length < 2 ^ 60 → Phase.RT ∉ ms →
      pinnedAllocColor (pinned s'.word) = pinnedAllocColor (pinned s.word) ∧
      (phase s'.word = some .N →
        pinnedAllocColor (pinned s'.word) = some (color s'.word)) := by
  obtain ⟨hw, hpos⟩ := word_of_trace h hlen
  have hts : (epochAfter ls s.pos).timestamp < 2 ^ 60 := hlen
  have hts' : (epochAfter ls s.pos).pinned.timestamp < 2 ^ 60 := hlen
  refine ⟨?_, ?_, ?_, ?_, ⟨?_, ?_, ?_, ?_⟩, fun ph s' hs => ?_, fun {ms s'} h' hlen' hRT => ?_⟩
  · rw [hw, phase_pack, ← hpos]
    rfl
  · rw [hw, timestamp_pack hts]
    rfl
  · rw [hw, color_pack]
    rfl
  · rw [hw, isPinned_pack]
    rfl
  · rw [hw, pinned_pack, isPinned_pack]
    rfl
  · rw [hw, pinned_pack, phase_pack, phase_pack]
    rfl
  · rw [hw, pinned_pack, color_pack, color_pack]
    rfl
  · refine BitVec.eq_of_toNat_eq ?_
    rw [hw, pinned_pack, timestamp_pack hts', timestamp_pack hts]
    rfl
  · rw [← hpos]
    exact (step_eq hs).1
  · refine ⟨pinnedAllocColor_trace h h' hlen' hRT, fun hN => ?_⟩
    obtain ⟨hw', -⟩ := word_of_trace (h.append h') hlen'
    rw [hw', phase_pack] at hN
    rw [hw', pinned_pack, pinnedAllocColor_pack, color_pack]
    exact congrArg some (if_pos (Option.some.inj hN))

/-- Two cycles, the second with two tries to complete. -/
def twoCycles : List Phase := [.RT, .CT, .N, .RT, .CT, .CT, .N]

theorem epochWord_faithful_twoCycles : ∃ s : St,
    phase s.word = some .N ∧ (timestamp s.word).toNat = 7 ∧ color s.word = .C0 ∧
    pinnedAllocColor (pinned s.word) = some .C0 := by
  have hrun : (Lts.runs step (fun _ _ => True) St.init twoCycles).any
      (fun s => s.word = 112#64) = true := by decide
  obtain ⟨s, ht, -⟩ := Lts.exists_trace_of_any hrun
  obtain ⟨hph, hts, hcol, -, -, -, halloc⟩ := epochWord_faithful ht (by decide)
  obtain ⟨-, hN⟩ := halloc .nil (by decide) (by decide)
  have hC0 : color s.word = .C0 := hcol.trans (by decide)
  exact ⟨s, hph, hts, hC0, (hN hph).trans (by rw [hC0])⟩

end Cdpt.EpochWord
