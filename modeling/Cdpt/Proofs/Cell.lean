import Cdpt.Model.Cell

/-!
# The cell is a linearizable register

What the register holds is the address and the tag of the word; the metadata is
invisible. Every operation takes effect at its last access: a CAS that succeeds
found the word it had read before, hence the address and tag it wanted, and one that
reports a failure saw another address or tag, because a rooted word has no metadata
to differ in and an unrooted word whose metadata alone has changed is tried again.

`At` records what a call knows at each of its positions. With it each access either
is the instant at which the call takes effect on the register or leaves the register
alone, which is a simulation of the atomic register.

Two points of the code need care. The rooted path compares whole words and may
report a failure when the metadata alone differs; it cannot, as a rooted cell stays
rooted and its word has the metadata of what the call expects. And the values a cell
can hold are those its word can: a tag that does not fit the low bits is cut when it
is packed (`WithTag.fit`), so the register is specified with tags that are cut as
well. A weak CAS may fail without a reason, which the specification allows it and no
other operation.

Shading is a step between the accesses of others. It changes the colour of an
unrooted word and nothing of what the register holds, so it is no event of the
history, and what a call knows survives it.
-/

namespace Cdpt.Cell

open Linearizable (Status Exec IsLinearizable)

variable {a : Align}

/-- The pair as the word can hold it: the tag is cut to the low bits. -/
def WithTag.fit (p : WithTag a) : WithTag a := (p.1, p.2 &&& a.lowBits)

/-- The atomic register over an address and a tag. `Spec v op r v'`: at `v`,
`op` may answer `r` and leave `v'`. -/
inductive Spec : WithTag a → Op a → Res a → WithTag a → Prop
  | load (v : WithTag a) : Spec v .load (.value v) v
  | store (v new : WithTag a) : Spec v (.store new) .unit new.fit
  | swap (v new : WithTag a) : Spec v (.swap new) (.value v) new.fit
  | take (v : WithTag a) : Spec v .take (.value v) (none, 0#64)
  | casOk (current new : WithTag a) :
      Spec current.fit (.compareExchange current new) (.ok current.fit) new.fit
  | casErr {v current : WithTag a} (new : WithTag a) (h : v ≠ current.fit) :
      Spec v (.compareExchange current new) (.err v) v
  | weakOk (current new : WithTag a) :
      Spec current.fit (.compareExchangeWeak current new) (.ok current.fit) new.fit
  | weakErr (v current new : WithTag a) : Spec v (.compareExchangeWeak current new) (.err v) v
  | tagOr (v : WithTag a) (tag : Word) :
      Spec v (.fetchTag .or tag) (.value v) (v.1, v.2 ||| (tag &&& a.lowBits))
  | tagXor (v : WithTag a) (tag : Word) :
      Spec v (.fetchTag .xor tag) (.value v) (v.1, v.2 ^^^ (tag &&& a.lowBits))
  | shade (v : WithTag a) (black : Color) : Spec v (.shade black) .unit v

theorem Spec.shade_eq {v v' : WithTag a} {black : Color} {r : Res a}
    (h : Spec v (.shade black) r v') : v' = v := by
  cases h
  rfl

/-- The CAS of either strength. -/
def Op.cas (weak : Bool) (current new : WithTag a) : Op a :=
  if weak then .compareExchangeWeak current new else .compareExchange current new

/-- The operations that run `internal_swap`, by what they write. -/
inductive Op.Swaps : Op a → WithTag a → Prop
  | store (new : WithTag a) : Op.Swaps (.store new) new
  | swap (new : WithTag a) : Op.Swaps (.swap new) new
  | take : Op.Swaps .take (none, 0#64)

/-- What a call of `op` knows when it stands at a position. -/
inductive At : Op a → Pc a → Prop
  | load : At .load .load
  | swapLoad {op : Op a} {new : WithTag a} (h : op.Swaps new) :
      At op (.swapLoad (Word.ofLocalTag new))
  | swapRooted {op : Op a} {new : WithTag a} (h : op.Swaps new) (old : Word) :
      At op (.swapRooted old (Word.ofLocalTag new))
  | swapUnrooted {op : Op a} {new : WithTag a} (h : op.Swaps new) (old : Word) :
      At op (.swapUnrooted old (Word.ofLocalTag new))
  | casLoad (weak : Bool) (current new : WithTag a) :
      At (.cas weak current new) (.casLoad weak current new)
  | casRooted (weak : Bool) {current : WithTag a} (new : WithTag a) {old : Word}
      (hv : old.Valid) (hm : old.ptrMeta = .Rooted) (ho : old.asLocalTag a = current.fit) :
      At (.cas weak current new) (.casRooted weak current new old)
  | casUnrooted (weak : Bool) {current : WithTag a} (new : WithTag a) {old : Word}
      (ho : old.asLocalTag a = current.fit) :
      At (.cas weak current new) (.casUnrooted weak old (Word.ofLocalTag new))
  | fetchTag {f : TagOp} (tag : Word) (hf : f ≠ .and) : At (.fetchTag f tag) (.fetchTag f tag)
  | shadeLoad (black : Color) : At (.shade black) (.shadeLoad black)
  | shadeCas (black : Color) (ptr : Word) : At (.shade black) (.shadeCas black ptr)

theorem at_start {op : Op a} (h : ∀ tag, op ≠ .fetchTag .and tag) : At op op.start := by
  cases op with
  | load => exact .load
  | store new => exact .swapLoad (.store new)
  | swap new => exact .swapLoad (.swap new)
  | take => exact .swapLoad .take
  | compareExchange current new => exact .casLoad false current new
  | compareExchangeWeak current new => exact .casLoad true current new
  | fetchTag f tag => exact .fetchTag tag (by rintro rfl; exact h tag rfl)
  | shade black => exact .shadeLoad black

/-! ## Tag operations on the word -/

theorem asPtr_fetchTag (w tag : Word) {f : TagOp} (hf : f ≠ .and) :
    (fetchTag a f w tag).asPtr a = w.asPtr a := by
  refine BitVec.eq_of_getLsbD_eq fun i _ => ?_
  cases f with
  | and => exact absurd rfl hf
  | or | xor =>
      simp only [fetchTag, TagOp.apply, Word.asPtr, BitVec.getLsbD_and, BitVec.getLsbD_or,
        BitVec.getLsbD_xor, getLsbD_addrBits, getLsbD_lowBits]
      grind

theorem metaPart_fetchTag (w tag : Word) {f : TagOp} (hf : f ≠ .and) :
    (fetchTag a f w tag).metaPart = w.metaPart := by
  have := a.fits
  refine BitVec.eq_of_getLsbD_eq fun i _ => ?_
  cases f with
  | and => exact absurd rfl hf
  | or | xor =>
      simp only [fetchTag, TagOp.apply, Word.metaPart, BitVec.getLsbD_and, BitVec.getLsbD_or,
        BitVec.getLsbD_xor, getLsbD_metaBits, getLsbD_lowBits]
      grind

theorem tag_fetchTag (f : TagOp) (w tag : Word) :
    (fetchTag a f w tag).tag a = f.apply (w.tag a) (tag &&& a.lowBits) := by
  refine BitVec.eq_of_getLsbD_eq fun i _ => ?_
  cases f <;>
    simp only [fetchTag, TagOp.apply, Word.tag, BitVec.getLsbD_and, BitVec.getLsbD_or,
      BitVec.getLsbD_xor, getLsbD_lowBits] <;>
    grind

theorem asLocalTag_fetchTag (w tag : Word) {f : TagOp} (hf : f ≠ .and) :
    (fetchTag a f w tag).asLocalTag a =
      (w.asLocal a, f.apply (w.tag a) (tag &&& a.lowBits)) := by
  rw [Word.asLocalTag, tag_fetchTag, Word.asLocal_congr (asPtr_fetchTag w tag hf)]

/-! ## Metadata -/

theorem valid_iff (w : Word) : w.Valid ↔ (w.getLsbD 62 = true → w.getLsbD 63 = true) := by
  rw [Word.Valid]
  constructor
  · intro h h62
    rw [← h, Word.getLsbD_withMeta, if_neg (by decide), Word.ptrMeta_eq] at h62
    cases h63 : w.getLsbD 63 with
    | true => rfl
    | false =>
        simp only [h63] at h62
        simp at h62
  · intro h
    refine BitVec.eq_of_getLsbD_eq fun i hi => ?_
    rw [Word.getLsbD_withMeta, Word.ptrMeta_eq]
    rcases Nat.lt_or_ge i 62 with h62 | h62
    · rw [if_pos h62]
    · rw [if_neg (Nat.not_lt.2 h62)]
      obtain rfl | rfl : i = 62 ∨ i = 63 := by omega
      · cases h62 : w.getLsbD 62 <;> cases h63 : w.getLsbD 63 <;> simp_all
      · cases h63 : w.getLsbD 63 <;> simp_all

theorem valid_fetchTag {w : Word} (tag : Word) {f : TagOp} (hf : f ≠ .and) (hv : w.Valid) :
    (fetchTag a f w tag).Valid := by
  have hbit : ∀ i, 62 ≤ i → i < 64 → (fetchTag a f w tag).getLsbD i = w.getLsbD i := by
    intro i hlo hhi
    have := congrArg (fun x => BitVec.getLsbD x i) (metaPart_fetchTag (a := a) w tag hf)
    simpa only [Word.metaPart, BitVec.getLsbD_and, getLsbD_metaBits, hlo, hhi, and_self,
      decide_true, Bool.and_true] using this
  rw [valid_iff, hbit 62 (by decide) (by decide), hbit 63 (by decide) (by decide)]
  exact (valid_iff w).1 hv

theorem exec_valid {op : Op a} {pc : Pc a} (hat : At op pc) {w : Word} (hv : w.Valid)
    (spurious : Bool) : (exec w spurious pc).1.Valid := by
  cases hat with
  | fetchTag tag hf => exact valid_fetchTag tag hf hv
  | _ =>
      simp only [exec]
      repeat' split
      all_goals first
        | with_reducible exact hv
        | with_reducible exact Word.valid_withMeta _ _

/-! ## One access -/

theorem spec_swap {op : Op a} {new : WithTag a} (h : op.Swaps new) (v : WithTag a) (w : Word)
    (hw : w.asLocalTag a = v) (m : PtrMeta) (ok : Bool) :
    Spec v op (op.result ok w) (((Word.ofLocalTag new).withMeta m).asLocalTag a) := by
  rw [Word.asLocalTag_withMeta, Word.asLocalTag_ofLocalTag]
  subst hw
  cases h with
  | store new => exact .store _ new
  | swap new => exact .swap _ new
  | take =>
      have : (0#64 : Word) &&& a.lowBits = 0#64 := BitVec.zero_and
      rw [this]
      exact .take _

theorem spec_casOk (weak : Bool) {current : WithTag a} (new : WithTag a) {old : Word}
    (ho : old.asLocalTag a = current.fit) (m : PtrMeta) :
    Spec (old.asLocalTag a) (.cas weak current new) ((Op.cas weak current new).result true old)
      (((Word.ofLocalTag new).withMeta m).asLocalTag a) := by
  rw [Word.asLocalTag_withMeta, Word.asLocalTag_ofLocalTag, Op.cas]
  cases weak with
  | true =>
      rw [if_pos rfl, Op.result, if_pos rfl, ho]
      exact .weakOk current new
  | false =>
      rw [if_neg Bool.false_ne_true, Op.result, if_pos rfl, ho]
      exact .casOk current new

theorem spec_casErr {weak : Bool} {current : WithTag a} (new : WithTag a) {w : Word}
    (h : weak = true ∨ w.asLocalTag a ≠ current.fit) :
    Spec (w.asLocalTag a) (.cas weak current new) ((Op.cas weak current new).result false w)
      (w.asLocalTag a) := by
  rw [Op.cas]
  cases weak with
  | true =>
      rw [if_pos rfl]
      exact .weakErr _ current new
  | false =>
      rw [if_neg Bool.false_ne_true]
      exact .casErr new (h.resolve_left Bool.false_ne_true)

/-- An access either is the instant at which the call takes effect, or leaves
the word as it was. -/
theorem exec_spec {op : Op a} {pc : Pc a} (hat : At op pc) {w : Word} (hv : w.Valid)
    (spurious : Bool) :
    (∃ ok r, (exec w spurious pc).2 = .done ok r ∧
      Spec (w.asLocalTag a) op (op.result ok r) ((exec w spurious pc).1.asLocalTag a)) ∨
    (At op (exec w spurious pc).2 ∧ (exec w spurious pc).1 = w) := by
  have hswap : ∀ {new : WithTag a}, op.Swaps new → At op (swapFrom w (Word.ofLocalTag new)) := by
    intro new h
    rw [swapFrom]
    split
    · exact .swapRooted h w
    · exact .swapUnrooted h w
  have hshade : ∀ black, op = .shade black →
      (∃ ok r, shadeFrom black w = (.done ok r : Pc a) ∧
        Spec (w.asLocalTag a) op (op.result ok r) (w.asLocalTag a)) ∨
      At op (shadeFrom black w) := by
    rintro black rfl
    rw [shadeFrom]
    split
    · exact .inl ⟨true, w, rfl, .shade _ black⟩
    · exact .inr (.shadeCas black w)
  cases hat with
  | load => exact .inl ⟨true, w, rfl, .load _⟩
  | swapLoad h => exact .inr ⟨hswap h, rfl⟩
  | swapRooted h old =>
      simp only [exec]
      split
      · next he =>
          subst he
          exact .inl ⟨true, w, rfl, spec_swap h _ w rfl _ true⟩
      · exact .inr ⟨hswap h, rfl⟩
  | swapUnrooted h old =>
      simp only [exec]
      split
      · next he =>
          subst he
          exact .inl ⟨true, w, rfl, spec_swap h _ w rfl _ true⟩
      · exact .inr ⟨.swapUnrooted h w, rfl⟩
  | casLoad weak current new =>
      simp only [exec]
      split
      · next hne =>
          exact .inl ⟨false, w, rfl,
            spec_casErr new (.inr fun he => hne (Word.withoutMeta_eq_ofLocalTag.2 he))⟩
      · next he =>
          have ho := Word.withoutMeta_eq_ofLocalTag.1 (not_not.1 he)
          split
          · next hm => exact .inr ⟨.casRooted weak new hv hm ho, rfl⟩
          · exact .inr ⟨.casUnrooted weak new ho, rfl⟩
  | @casRooted weak current new old hvo hm ho =>
      simp only [exec]
      split
      · next hok =>
          obtain rfl : w = old := by
            rw [casOk, Bool.and_eq_true, beq_iff_eq] at hok
            exact hok.1
          exact .inl ⟨true, w, rfl, spec_casOk weak new ho _⟩
      · next hok =>
          split
          · next hfail =>
              refine .inl ⟨false, w, rfl, spec_casErr new ?_⟩
              cases weak with
              | true => exact .inl rfl
              | false =>
                  refine .inr fun he => ?_
                  rcases hfail with h | hmw | hne
                  · exact Bool.false_ne_true h
                  · -- Two rooted words with one address and tag are one word.
                    have hwo := Word.asLocalTag_inj.1 (he.trans ho.symm)
                    rw [Word.withoutMeta_of_rooted hv hmw, Word.withoutMeta_of_rooted hvo hm]
                      at hwo
                    simp [casOk, hwo] at hok
                  · exact hne (Word.withoutMeta_eq_ofLocalTag.2 he)
          · next hgo =>
              rw [not_or, not_or, not_not] at hgo
              cases weak with
              | true => exact absurd rfl hgo.1
              | false =>
                  have hw := Word.withoutMeta_eq_ofLocalTag.1 hgo.2.2
                  exact .inr ⟨.casUnrooted false new hw, rfl⟩
  | @casUnrooted weak current new old ho =>
      simp only [exec]
      split
      · next hok =>
          obtain rfl : w = old := by
            rw [casOk, Bool.and_eq_true, beq_iff_eq] at hok
            exact hok.1
          exact .inl ⟨true, w, rfl, spec_casOk weak new ho _⟩
      · split
        · next hgo =>
            cases weak with
            | true => exact absurd rfl hgo.1
            | false =>
                exact .inr ⟨.casUnrooted false new ((Word.asLocalTag_inj.2 hgo.2).trans ho), rfl⟩
        · next hstop =>
            refine .inl ⟨false, w, rfl, spec_casErr new ?_⟩
            cases weak with
            | true => exact .inl rfl
            | false =>
                refine .inr fun he => hstop ⟨Bool.false_ne_true, ?_⟩
                exact Word.asLocalTag_inj.1 (he.trans ho.symm)
  | @fetchTag f tag hf =>
      refine .inl ⟨true, w, rfl, ?_⟩
      simp only [exec]
      rw [asLocalTag_fetchTag w tag hf]
      cases f with
      | and => exact absurd rfl hf
      | or => exact .tagOr (w.asLocalTag a) tag
      | xor => exact .tagXor (w.asLocalTag a) tag
  | shadeLoad black =>
      rcases hshade black rfl with h | h
      · exact .inl h
      · exact .inr ⟨h, rfl⟩
  | shadeCas black ptr =>
      simp only [exec]
      split
      · next he =>
          subst he
          refine .inl ⟨true, w, rfl, ?_⟩
          rw [Word.asLocalTag_withMeta]
          exact .shade _ black
      · rcases hshade black rfl with h | h
        · exact .inl h
        · exact .inr ⟨h, rfl⟩

/-! ## Whole runs -/

/-- How the atomic register sees a call. -/
def Call.status : Call a → Status (Op a) (Res a)
  | .fresh => .fresh
  | .running op (.done ok w) => .done (op.result ok w)
  | .running op _ => .called op
  | .returned => .returned

theorem status_at {op : Op a} {pc : Pc a} (h : At op pc) :
    (Call.running op pc).status = .called op := by
  cases h <;> rfl

/-- The state follows an execution of the atomic register. -/
structure Follows (v : WithTag a) (s : St a) : Prop where
  valid : s.word.Valid
  sound : ∀ {i op pc}, s.calls i = .running op pc → At op pc ∨ ∃ ok w, pc = .done ok w
  exec : Exec Spec v s.history (fun i => (s.calls i).status) (s.word.asLocalTag a)

theorem status_update (calls : Nat → Call a) (i : Nat) (c : Call a) :
    (fun j => (Function.update calls i c j).status) =
      Function.update (fun j => (calls j).status) i c.status := by
  funext j
  by_cases hj : j = i
  · subst hj
    rw [Function.update_self, Function.update_self]
  · rw [Function.update_of_ne hj, Function.update_of_ne hj]

/-- The forms a step can take. -/
inductive StepCase (s : St a) : Label a → St a → Prop
  | begin {i : Nat} {op : Op a} (hi : s.calls i = .fresh) :
      StepCase s (.call i op) { s with
        calls := Function.update s.calls i (.running op op.start)
        history := s.history ++ [.inv i op] }
  | access {i : Nat} {spurious : Bool} {op : Op a} {pc : Pc a} (hi : s.calls i = .running op pc)
      (hpc : ∀ ok w, pc ≠ .done ok w) :
      StepCase s (.run i spurious) { s with
        word := (exec s.word spurious pc).1
        calls := Function.update s.calls i (.running op (exec s.word spurious pc).2) }
  | giveBack {i : Nat} {op : Op a} {ok : Bool} {w : Word}
      (hi : s.calls i = .running op (.done ok w)) :
      StepCase s (.ret i) { s with
        calls := Function.update s.calls i .returned
        history := s.history ++ [.ret i (op.result ok w)] }

theorem step_cases {s s' : St a} {l : Label a} (hs : step s l = some s') : StepCase s l s' := by
  cases l with
  | call i op =>
      simp only [step] at hs
      split at hs
      · next hi =>
          cases hs
          exact .begin hi
      · cases hs
  | run i spurious =>
      simp only [step] at hs
      split at hs
      · cases hs
      · next op pc hpc hi =>
          cases hs
          exact .access hi fun ok w he => hpc ok w he
      · cases hs
  | ret i =>
      simp only [step] at hs
      split at hs
      · next op ok w hi =>
          cases hs
          exact .giveBack hi
      · cases hs

theorem follows_step {v : WithTag a} {s s' : St a} {l : Label a} (hf : Follows v s)
    (hl : l.noTagAnd = true) (hs : step s l = some s') : Follows v s' := by
  have hsound : ∀ {i : Nat} {c : Call a}, (∀ op pc, c = .running op pc →
      At op pc ∨ ∃ ok w, pc = .done ok w) → ∀ {j op pc},
      Function.update s.calls i c j = .running op pc → At op pc ∨ ∃ ok w, pc = .done ok w := by
    intro i c hc j op pc hj
    by_cases hji : j = i
    · subst hji
      rw [Function.update_self] at hj
      exact hc op pc hj
    · rw [Function.update_of_ne hji] at hj
      exact hf.sound hj
  cases step_cases hs with
  | @begin i op hi =>
      have hat : At op op.start := at_start fun tag he => by
        subst he
        cases hl
      refine ⟨hf.valid, hsound fun _ _ he => ?_, ?_⟩
      · cases he
        exact .inl hat
      · rw [status_update, status_at hat]
        exact .inv op hf.exec (by rw [hi]; rfl)
  | @access i spurious op pc hi hpc =>
      have hat : At op pc := by
        rcases hf.sound hi with h | ⟨ok, w, he⟩
        · exact h
        · exact absurd he (hpc ok w)
      have hcalled : (s.calls i).status = .called op := by rw [hi, status_at hat]
      refine ⟨exec_valid hat hf.valid spurious, hsound fun _ _ he => ?_, ?_⟩
      · cases he
        rcases exec_spec hat hf.valid spurious with ⟨ok, w, hd, -⟩ | ⟨h, -⟩
        · exact .inr ⟨ok, w, hd⟩
        · exact .inl h
      · rw [status_update]
        rcases exec_spec hat hf.valid spurious with ⟨ok, w, hd, hsp⟩ | ⟨h, hw⟩
        · rw [hd]
          exact .lin hf.exec hcalled hsp
        · rw [status_at h, hw, ← hcalled, Function.update_eq_self]
          exact hf.exec
  | giveBack hi =>
      refine ⟨hf.valid, hsound (fun _ _ he => by cases he), ?_⟩
      rw [status_update]
      exact .ret hf.exec (by rw [hi]; rfl)

theorem follows_of_reaches (m : PtrMeta) (p : WithTag a) {s : St a}
    (h : Lts.Reaches step (fun _ l => l.noTagAnd = true)
      (init ((Word.ofLocalTag p).withMeta m)) s) : Follows p.fit s := by
  refine Lts.Reaches.invariant h ⟨Word.valid_withMeta _ _, (fun he => by cases he), ?_⟩
    follows_step
  have : p.fit = ((Word.ofLocalTag p).withMeta m).asLocalTag a := by
    rw [Word.asLocalTag_withMeta, Word.asLocalTag_ofLocalTag, WithTag.fit]
  rw [this]
  exact .init

/-- Whatever the interleaving of its calls with each other and with shading,
the history of a cell is one of an atomic register over its address and tag,
and no step of `shade` changes what the register holds. -/
theorem cell_linearizable (m : PtrMeta) (p : WithTag a) {s : St a}
    (h : Lts.Reaches step (fun _ l => l.noTagAnd = true)
      (init ((Word.ofLocalTag p).withMeta m)) s) :
    IsLinearizable Spec p.fit s.history ∧
    ∀ {i : Nat} {black : Color} {pc : Pc a} {spurious : Bool} {s' : St a},
      s.calls i = .running (.shade black) pc → step s (.run i spurious) = some s' →
      s'.word.asLocalTag a = s.word.asLocalTag a := by
  have hf := follows_of_reaches m p h
  refine ⟨hf.exec.isLinearizable, ?_⟩
  intro i black pc spurious s' hi hs
  rcases hf.sound hi with hat | ⟨ok, w, rfl⟩
  · have hs' : s'.word = (exec s.word spurious pc).1 := by
      simp only [step, hi] at hs
      split at hs
      · cases hs
      · next he =>
          cases he
          cases hs
          rfl
      · cases hs
    rw [hs']
    rcases exec_spec hat hf.valid spurious with ⟨ok, w, -, hsp⟩ | ⟨-, hw⟩
    · exact hsp.shade_eq
    · rw [hw]
  · simp [step, hi] at hs

/-- A word-aligned type. -/
def wordAlign : Align := ⟨3, by decide⟩

def samplePtr : LocalPtr wordAlign := ⟨0x1000#64, by decide, by decide⟩

/-- A strong CAS on an unrooted link whose colour flips between its read and
its first attempt. -/
def shadedCas : List (Label wordAlign) :=
  [.call 0 (.compareExchange (some samplePtr, 0#64) (none, 9#64)), .run 0 false,
    .call 1 (.shade .C1), .run 1 false, .run 1 false, .ret 1,
    .run 0 false, .run 0 false, .ret 0]

theorem cell_linearizable_shadedCas : ∃ s : St wordAlign,
    s.history = [.inv 0 (.compareExchange (some samplePtr, 0#64) (none, 9#64)),
      .inv 1 (.shade .C1), .ret 1 .unit, .ret 0 (.ok (some samplePtr, 0#64))] ∧
    s.word.ptrMeta = .Unrooted .C1 ∧ s.word.asLocalTag wordAlign = (none, 1#64) ∧
    IsLinearizable Spec (WithTag.fit (some samplePtr, 0#64)) s.history := by
  have hrun : ∃ s, Lts.Reaches step (fun _ l => l.noTagAnd = true)
      (init ((Word.ofLocalTag (some samplePtr, 0#64)).withMeta (.Unrooted .C0))) s ∧
      s.history = [.inv 0 (.compareExchange (some samplePtr, 0#64) (none, 9#64)),
        .inv 1 (.shade .C1), .ret 1 .unit, .ret 0 (.ok (some samplePtr, 0#64))] ∧
      s.word.ptrMeta = .Unrooted .C1 ∧ s.word.asLocalTag wordAlign = (none, 1#64) :=
    Lts.exists_of_runs shadedCas (by decide +kernel)
  obtain ⟨s, hs, hh, hm, hv⟩ := hrun
  exact ⟨s, hh, hm, hv, (cell_linearizable _ _ hs).1⟩

end Cdpt.Cell
