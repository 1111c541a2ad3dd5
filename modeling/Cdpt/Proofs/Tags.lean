import Cdpt.Proofs.Cell

/-!
# Tag operations and the pointer that is never null

A tag operation is one `fetch_and`, `fetch_or` or `fetch_xor` of the link, and
its answer is what that access found. `TagOnly` says what it is to do, over the
access that `exec` makes for a call that has just started: the call is done
after it, its result is the pair that was in the word, the tag is the old one
combined with the masked argument, and address and metadata are those of the
word before.

`fetch_tag_or` and `fetch_tag_xor` mask their argument to the tag bits, where
zero is neutral, so they change nothing else. `fetch_tag_and` masks it the same
way, and for AND zero is not neutral: it keeps the tag bits of the argument and
clears the rest of the word, address and metadata included. It does what its
comment says on a rooted null link only. That makes the condition exact, word
by word (`tagOnly_iff`), and the answer is the one part of it that never fails
(`exec_fetchTag`).

`AtomicShared` hands `Some` to every operation of the cell and unwraps what it
gets back. That the address is never null is a property of the register: all
that is ever written to it is `Some`. So it is proved there, for the atomic
register of `Proofs/Cell`, and comes down to the machine with the history.
-/

namespace Cdpt.Cell

open Linearizable (Event Status Exec)

variable {a : Align}

/-- What a call of a tag operation is to do to the word `w` with its one access:
answer the pair that was there, change the tag, leave the rest. -/
structure TagOnly (a : Align) (f : TagOp) (w tag : Word) : Prop where
  answer : ∀ spurious, ∃ ok r,
    (exec (a := a) w spurious (Op.fetchTag f tag).start).2 = .done ok r ∧
      (Op.fetchTag (a := a) f tag).result ok r = .value (w.asLocalTag a)
  addr : ∀ spurious,
    (exec (a := a) w spurious (Op.fetchTag f tag).start).1.asPtr a = w.asPtr a
  metaBits : ∀ spurious,
    (exec (a := a) w spurious (Op.fetchTag f tag).start).1.metaPart = w.metaPart
  tag : ∀ spurious, (exec (a := a) w spurious (Op.fetchTag f tag).start).1.tag a =
    f.apply (w.tag a) (tag &&& a.lowBits)

/-- The access of a tag operation: the call is done and holds the word it found. -/
theorem exec_fetchTag (f : TagOp) (w tag : Word) (spurious : Bool) :
    exec (a := a) w spurious (Op.fetchTag f tag).start = (fetchTag a f w tag, .done true w) :=
  rfl

theorem asPtr_fetchTag_and (w tag : Word) : (fetchTag a .and w tag).asPtr a = 0#64 := by
  refine BitVec.eq_of_getLsbD_eq fun i _ => ?_
  simp only [fetchTag, TagOp.apply, Word.asPtr, BitVec.getLsbD_and, getLsbD_addrBits,
    getLsbD_lowBits, BitVec.getLsbD_zero]
  grind

theorem metaPart_fetchTag_and (w tag : Word) : (fetchTag a .and w tag).metaPart = 0#64 := by
  have := a.fits
  refine BitVec.eq_of_getLsbD_eq fun i _ => ?_
  simp only [fetchTag, TagOp.apply, Word.metaPart, BitVec.getLsbD_and, getLsbD_metaBits,
    getLsbD_lowBits, BitVec.getLsbD_zero]
  grind

/-- AND is the exception: it needs a word that has nothing else to lose. -/
theorem tagOnly_iff (f : TagOp) (w tag : Word) :
    TagOnly a f w tag ↔ (f = .and → w.asPtr a = 0#64 ∧ w.metaPart = 0#64) := by
  constructor
  · rintro h rfl
    have haddr := h.addr false
    have hmeta := h.metaBits false
    rw [exec_fetchTag] at haddr hmeta
    rw [← haddr, ← hmeta]
    exact ⟨asPtr_fetchTag_and w tag, metaPart_fetchTag_and w tag⟩
  · intro h
    have haddr : (fetchTag a f w tag).asPtr a = w.asPtr a := by
      by_cases hf : f = .and
      · rw [hf, asPtr_fetchTag_and, (h hf).1]
      · exact asPtr_fetchTag w tag hf
    have hmeta : (fetchTag a f w tag).metaPart = w.metaPart := by
      by_cases hf : f = .and
      · rw [hf, metaPart_fetchTag_and, (h hf).2]
      · exact metaPart_fetchTag w tag hf
    refine ⟨fun spurious => ⟨true, w, ?_, rfl⟩, fun spurious => ?_, fun spurious => ?_,
      fun spurious => ?_⟩ <;> rw [exec_fetchTag]
    · exact haddr
    · exact hmeta
    · exact tag_fetchTag f w tag

/-- A call that has made its last access keeps what it found until it returns. -/
theorem done_step {s s' : St a} {l : Label a} {i : Nat} {op : Op a} {ok : Bool} {w : Word}
    (hi : s.calls i = .running op (.done ok w)) (hl : l ≠ .ret i) (hs : step s l = some s') :
    s'.calls i = .running op (.done ok w) := by
  cases step_cases hs with
  | @begin j op' hj =>
      have hij : i ≠ j := by
        rintro rfl
        rw [hi] at hj
        cases hj
      exact (Function.update_of_ne hij _ _).trans hi
  | @access j spurious op' pc hj hpc =>
      have hij : i ≠ j := by
        rintro rfl
        rw [hi] at hj
        cases hj
        exact hpc ok w rfl
      exact (Function.update_of_ne hij _ _).trans hi
  | @giveBack j op' ok' w' hj =>
      have hij : i ≠ j := by
        rintro rfl
        exact hl rfl
      exact (Function.update_of_ne hij _ _).trans hi

/-- The call as its caller sees it: whatever runs between the access and the
return, the answer is the pair that was in the cell before the access. -/
theorem fetchTag_answers {s s₁ s₂ s' : St a} {i : Nat} {f : TagOp} {tag : Word} {spurious : Bool}
    (hi : s.calls i = .running (.fetchTag f tag) (Op.fetchTag f tag).start)
    (hs : step s (.run i spurious) = some s₁) (hr : Lts.Reaches step (fun _ l => l ≠ .ret i) s₁ s₂)
    (hs' : step s₂ (.ret i) = some s') :
    s'.history = s₂.history ++ [.ret i (.value (s.word.asLocalTag a))] := by
  have hdone : s₁.calls i = .running (.fetchTag f tag) (.done true s.word) := by
    simp only [step, hi] at hs
    cases hs
    exact Function.update_self ..
  have hwait : s₂.calls i = .running (.fetchTag f tag) (.done true s.word) :=
    hr.invariant (I := fun u => u.calls i = _) hdone fun hu hl hstep => done_step hu hl hstep
  simp only [step, hwait] at hs'
  cases hs'
  rfl

/-! ## `AtomicShared` -/

/-- The operations of its inner cell that an `AtomicShared` calls: `Some` stands
in every argument, and there is no `take`. -/
def Op.isShared : Op a → Bool
  | .load | .fetchTag _ _ | .shade _ => true
  | .store new | .swap new => new.1.isSome
  | .take => false
  | .compareExchange current new | .compareExchangeWeak current new =>
      current.1.isSome && new.1.isSome

def Label.isShared : Label a → Bool
  | .call _ op => op.isShared
  | _ => true

/-- The runs of an `AtomicShared` that do not call `fetch_tag_and`. -/
def Label.sharedNoAnd (l : Label a) : Prop := l.isShared = true ∧ l.noTagAnd = true

instance (l : Label a) : Decidable l.sharedNoAnd := inferInstanceAs (Decidable (_ ∧ _))

/-- `AtomicShared::new_with_tag`, or a cell of this kind whose metadata has
changed since. -/
def initShared (m : PtrMeta) (p : LocalPtr a) (tag : Word) : St a :=
  init ((Word.ofLocalTag (some p, tag)).withMeta m)

/-- `unwrap_unchecked` is applied to a `Some`. -/
def Res.unwraps : Res a → Prop
  | .unit => True
  | .value v | .ok v | .err v => v.1.isSome

/-- One call of a shared operation keeps the register off null and has an
answer to unwrap. -/
theorem Spec.unwraps {v v' : WithTag a} {op : Op a} {r : Res a} (h : Spec v op r v')
    (ho : op.isShared = true) (hv : v.1.isSome) : v'.1.isSome ∧ r.unwraps := by
  cases h with
  | load | shade | tagOr | tagXor | casErr | weakErr =>
      first
        | exact ⟨hv, hv⟩
        | exact ⟨hv, trivial⟩
  | store => exact ⟨ho, trivial⟩
  | swap => exact ⟨ho, hv⟩
  | casOk | weakOk =>
      rw [Op.isShared, Bool.and_eq_true] at ho
      exact ⟨ho.2, hv⟩
  | take => cases ho

/-- The history holds calls of shared operations only. -/
theorem shared_history {s₀ s : St a} (h₀ : s₀.history = [])
    (h : Lts.Reaches step (fun _ l => l.sharedNoAnd) s₀ s) :
    ∀ i op, .inv i op ∈ s.history → op.isShared = true := by
  refine Lts.Reaches.invariant (I := fun s => ∀ i op, .inv i op ∈ s.history → op.isShared = true) h
    (by simp [h₀]) ?_
  intro s s' l ih hl hs i op hm
  cases step_cases hs with
  | begin =>
      rcases Linearizable.mem_snoc hm with hm | hm
      · exact ih i op hm
      · cases hm
        exact hl.1
  | access => exact ih i op hm
  | giveBack =>
      rcases Linearizable.mem_snoc hm with hm | hm
      · exact ih i op hm
      · cases hm

/-- The cell of an `AtomicShared` is off null and hands out only what can be
unwrapped, in every run that does not call `fetch_tag_and`. -/
theorem shared_unwraps (m : PtrMeta) (p : LocalPtr a) (tag : Word) {s : St a}
    (h : Lts.Reaches step (fun _ l => l.sharedNoAnd)
      (initShared m p tag) s) :
    s.word.isNull a = false ∧ ∀ i r, .ret i r ∈ s.history → r.unwraps := by
  have hf : Follows (WithTag.fit (some p, tag)) s :=
    follows_of_reaches m (some p, tag) (h.mono fun _ _ hl => hl.2)
  obtain ⟨hw, hret⟩ := hf.exec.invariant (I := fun v => v.1.isSome)
    (C := fun op => op.isShared = true) (R := Res.unwraps) rfl (shared_history rfl h)
    fun hv ho hs => hs.unwraps ho hv
  refine ⟨?_, hret⟩
  simp only [Word.asLocalTag, Word.asLocal] at hw
  split at hw
  · cases hw
  · next hne => simpa [Word.isNull] using hne

/-- Calling it, on the other hand, is what makes the address null. -/
theorem isNull_of_tagAnd {s s' : St a} {i : Nat} {op : Op a} {tag : Word} {spurious : Bool}
    (hi : s.calls i = .running op (.fetchTag .and tag))
    (hs : step s (.run i spurious) = some s') : s'.word.isNull a = true := by
  simp only [step, hi] at hs
  cases hs
  simp only [exec, Word.isNull, asPtr_fetchTag_and]
  rfl

/-- The tag operations answer the pair they found, and change the tag only exactly
when they are not `fetch_tag_and`, or there is nothing but a tag in the word. For
an `AtomicShared` this makes calling `fetch_tag_and` the one way to null. -/
theorem tag_operations (a : Align) :
    (∀ (f : TagOp) (w tag : Word),
      TagOnly a f w tag ↔ (f = .and → w.asPtr a = 0#64 ∧ w.metaPart = 0#64)) ∧
    (∀ (s s₁ s₂ s' : St a) (i : Nat) (f : TagOp) (tag : Word) (spurious : Bool),
      s.calls i = .running (.fetchTag f tag) (Op.fetchTag f tag).start →
      step s (.run i spurious) = some s₁ →
      Lts.Reaches step (fun _ l => l ≠ .ret i) s₁ s₂ → step s₂ (.ret i) = some s' →
      s'.history = s₂.history ++ [.ret i (.value (s.word.asLocalTag a))]) ∧
    (∀ (m : PtrMeta) (p : LocalPtr a) (tag : Word) (s : St a),
      Lts.Reaches step (fun _ l => l.sharedNoAnd) (initShared m p tag) s →
      s.word.isNull a = false ∧ ∀ i r, .ret i r ∈ s.history → r.unwraps) ∧
    ∀ (s s' : St a) (i : Nat) (op : Op a) (tag : Word) (spurious : Bool),
      s.calls i = .running op (.fetchTag .and tag) → step s (.run i spurious) = some s' →
      s'.word.isNull a = true :=
  ⟨tagOnly_iff, fun _ _ _ _ _ _ _ _ hi hs hr hs' => fetchTag_answers hi hs hr hs',
    fun m p tag _ h => shared_unwraps m p tag h, fun _ _ _ _ _ _ hi hs => isNull_of_tagAnd hi hs⟩

/-- An unrooted link at address `0x1000` with tag 1. -/
def taggedLink : Word := (Word.ofLocalTag (some samplePtr, 1#64)).withMeta (.Unrooted .C1)

/-- `fetch_tag_and` with a full mask, which should do nothing, and a `load`. -/
def tagAndRun : List (Label wordAlign) :=
  [.call 0 (.fetchTag .and 7#64), .run 0 false, .ret 0, .call 1 .load, .run 1 false, .ret 1]

/-- AND with all tag bits set loses the address and the metadata, and the next
`load` of the `AtomicShared` unwraps `None`. -/
theorem tagAnd_clears_address :
    ¬ TagOnly wordAlign .and taggedLink 7#64 ∧
    ∃ s : St wordAlign, Lts.Reaches step (fun _ _ => True)
        (initShared (.Unrooted .C1) samplePtr 1#64) s ∧
      s.history = [.inv 0 (.fetchTag .and 7#64), .ret 0 (.value (some samplePtr, 1#64)),
        .inv 1 .load, .ret 1 (.value (none, 1#64))] ∧
      s.word.ptrMeta = .Rooted := by
  constructor
  · rw [tagOnly_iff]
    decide +kernel
  · exact Lts.exists_of_runs tagAndRun (by decide +kernel)

/-- A weak CAS that fails spuriously between two tag operations. -/
def tagXorRun : List (Label wordAlign) :=
  [.call 0 (.fetchTag .or 6#64), .run 0 false, .ret 0,
    .call 1 (.compareExchangeWeak (some samplePtr, 7#64) (some samplePtr, 0#64)), .run 1 false,
    .run 1 true, .ret 1, .call 2 (.fetchTag .xor 3#64), .run 2 false, .ret 2]

/-- Call 0 of that run, made and about to access the link. -/
def tagOrMade : St wordAlign where
  word := (Word.ofLocalTag (some samplePtr, 1#64)).withMeta (.Unrooted .C0)
  calls := Function.update (fun _ => .fresh) 0 (.running (.fetchTag .or 6#64) (.fetchTag .or 6#64))
  history := [.inv 0 (.fetchTag .or 6#64)]

theorem tag_operations_tagXorRun :
    TagOnly wordAlign .xor taggedLink 3#64 ∧
    (∃ s' : St wordAlign, s'.history =
      [.inv 0 (.fetchTag .or 6#64), .ret 0 (.value (tagOrMade.word.asLocalTag wordAlign))]) ∧
    ∃ s : St wordAlign, s.word.asLocalTag wordAlign = (some samplePtr, 4#64) ∧
      s.history.length = 6 ∧ s.word.isNull wordAlign = false := by
  have hrun : ∃ s, Lts.Reaches step (fun _ l => l.sharedNoAnd)
      (initShared (.Unrooted .C0) samplePtr 1#64) s ∧
      s.word.asLocalTag wordAlign = (some samplePtr, 4#64) ∧ s.history.length = 6 :=
    Lts.exists_of_runs tagXorRun (by decide +kernel)
  obtain ⟨honly, hanswer, hnull, -⟩ := tag_operations wordAlign
  refine ⟨(honly .xor taggedLink 3#64).2 (by decide), ?_, ?_⟩
  · exact ⟨_, hanswer tagOrMade _ _ _ 0 .or 6#64 false rfl rfl .refl rfl⟩
  · obtain ⟨s, hs, hv, hl⟩ := hrun
    exact ⟨s, hv, hl, (hnull _ _ _ s hs).1⟩

end Cdpt.Cell
