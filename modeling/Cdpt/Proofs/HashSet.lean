import Cdpt.Model.HashSet

/-!
# The hash set is a linearizable insert-only set

A slot is written once, by the CAS that claims it, so everything a call has
seen stays true (`Keeps`). What a call carries along is that the first `d`
positions of its probe hold other keys (`Passed`). A stored key has the same
property up to its own position, which makes the positions of two equal keys
equal: the one that comes first in the probe order would have been passed by
the other. The cold path resumes at the null slot the first loop stopped at;
the positions before it were passed and remain so, and past `N` positions the
table is full, so that no claim can succeed there.

`exec_spec` says once what the next action of a call tells about the table, and
the invariant, the linearization points and the answers of later calls are read
off it. Every call takes effect in the step it returns in, so that a history of
the machine is one of the atomic set (`Spec`) with the same entries.

A call that comes after its key has been stored finds it, and in its first
loop: the positions before the key are passed for it as well. What can keep it
from getting there is the sum `hash + i`, in a build that checks it. The key
may have been stored behind the wrap by a call that had stopped at a null slot
before it, since the cold path goes on from an index. So the last clause of
`hashSet_insert_only` is about runs in which no step computes such a sum, and a
step that does ends its call in a panic; all the others hold in either build.
-/

namespace Cdpt.HashSet

open Linearizable (Event Status Exec IsLinearizable)

variable {T : Type} [BEq T] {P : Params T} {ck : Bool}

/-! ## Probe positions -/

theorem size_pos (P : Params T) : 0 < P.size := Nat.pow_pos (by decide)

/-- The mask absorbs the wrap of the sum. -/
theorem index_eq (P : Params T) (h i : Nat) : P.index h i = (h + i) % P.size := by
  have hdvd : P.size ∣ 2 ^ 64 := Nat.pow_dvd_pow 2 (Nat.le_of_lt P.fits)
  rw [Params.index, Params.size, Nat.and_two_pow_sub_one_eq_mod]
  exact Nat.mod_mod_of_dvd _ hdvd

theorem index_lt (P : Params T) (h i : Nat) : P.index h i < P.size := by
  rw [index_eq]
  exact Nat.mod_lt _ (size_pos P)

theorem index_succ (P : Params T) (h d : Nat) : P.index (P.index h d) 1 = P.index h (d + 1) := by
  rw [index_eq, index_eq, index_eq, Nat.mod_add_mod, Nat.add_assoc]

theorem index_sub_size (P : Params T) (h : Nat) {d : Nat} (hd : P.size ≤ d) :
    P.index h d = P.index h (d - P.size) := by
  rw [index_eq, index_eq, ← Nat.add_mod_right (h + (d - P.size)), Nat.add_assoc,
    Nat.sub_add_cancel hd]

theorem exists_index (P : Params T) (h : Nat) {idx : Nat} (hi : idx < P.size) :
    ∃ d < P.size, P.index h d = idx := by
  have hpos := size_pos P
  have hlt := Nat.mod_lt h hpos
  refine ⟨(idx + (P.size - h % P.size)) % P.size, Nat.mod_lt _ hpos, ?_⟩
  rw [index_eq, Nat.add_mod_mod, ← Nat.mod_add_mod]
  have : h % P.size + (idx + (P.size - h % P.size)) = idx + P.size := by omega
  rw [this, Nat.add_mod_right, Nat.mod_eq_of_lt hi]

/-! ## The invariant -/

/-- The key of the box in a slot. -/
def St.keyAt (s : St T) (idx box : Nat) (key : T) : Prop :=
  s.slots idx = some box ∧ s.boxes box = some key

/-- The first `d` positions of the probe for `key` hold other keys. -/
def Passed (P : Params T) (s : St T) (key : T) (d : Nat) : Prop :=
  ∀ e < d, ∃ box k, s.keyAt (P.index (P.hash key) e) box k ∧ (k == key) = false

/-- What call `c` knows in the state `x`. -/
def CallOk (P : Params T) (s : St T) (c : Nat) : Call T → Prop
  | .running op (.hot i) => i < P.size ∧ Passed P s op.key i
  | .running op (.load idx) | .running op (.cas idx) =>
      op = .getOrInsert op.key ∧ s.boxes c = some op.key ∧
      ∃ d, idx = P.index (P.hash op.key) d ∧ Passed P s op.key d
  | .returned (.getOrInsert key) r => ∃ box inserted, r = .entry box inserted ∧
      (inserted = true ↔ box = c) ∧ ∃ idx k, s.keyAt idx box k ∧ (k == key) = true
  | .returned (.contains key) r => ∃ b, r = .found b ∧
      (b = true → ∃ idx box k, s.keyAt idx box k ∧ (k == key) = true)
  | .fresh | .panicked _ _ => True

structure Inv (P : Params T) (s : St T) : Prop where
  slot : ∀ {idx box}, s.slots idx = some box → ∃ key, s.boxes box = some key ∧
    s.calls box = .returned (.getOrInsert key) (.entry box true) ∧
    ∃ d < P.size, idx = P.index (P.hash key) d ∧ Passed P s key d
  calls : ∀ c, CallOk P s c (s.calls c)

theorem Inv.init : Inv P (St.init : St T) where
  slot h := by cases h
  calls _ := trivial

theorem Inv.at {s : St T} (h : Inv P s) {c : Nat} {x : Call T} (hc : s.calls c = x) :
    CallOk P s c x := hc ▸ h.calls c

/-- What is stored stays. -/
def Keeps (s s' : St T) : Prop :=
  ∀ ⦃idx box key⦄, s.keyAt idx box key → s'.keyAt idx box key

theorem Passed.mono {s s' : St T} (hk : Keeps s s') {key : T} {d : Nat} (h : Passed P s key d) :
    Passed P s' key d := by
  intro e he
  obtain ⟨box, k, hat, hne⟩ := h e he
  exact ⟨box, k, hk hat, hne⟩

/-- Knowledge stays true as long as the call's own box is left alone. -/
theorem CallOk.mono {s s' : St T} (hk : Keeps s s') {c : Nat} {x : Call T}
    (hb : s'.boxes c = s.boxes c) (h : CallOk P s c x) : CallOk P s' c x := by
  cases x with
  | fresh | panicked => trivial
  | running op pc =>
      cases pc with
      | hot i => exact ⟨h.1, h.2.mono hk⟩
      | load idx | cas idx =>
          obtain ⟨hop, hbox, d, hi, hp⟩ := h
          exact ⟨hop, hb.trans hbox, d, hi, hp.mono hk⟩
  | returned op r =>
      cases op with
      | getOrInsert key =>
          obtain ⟨box, inserted, hr, hins, idx, k, hat, he⟩ := h
          exact ⟨box, inserted, hr, hins, idx, k, hk hat, he⟩
      | contains key =>
          obtain ⟨b, hr, hfound⟩ := h
          refine ⟨b, hr, fun ht => ?_⟩
          obtain ⟨idx, box, k, hat, he⟩ := hfound ht
          exact ⟨idx, box, k, hk hat, he⟩

theorem Passed.snoc {s : St T} {key k : T} {d box : Nat} (h : Passed P s key d)
    (hat : s.keyAt (P.index (P.hash key) d) box k) (hne : (k == key) = false) :
    Passed P s key (d + 1) := by
  intro e he
  rcases Nat.lt_succ_iff_lt_or_eq.1 he with he | rfl
  · exact h e he
  · exact ⟨box, k, hat, hne⟩

/-- A call that has passed `N` positions has seen the table full. -/
theorem Passed.full {s : St T} {key : T} (h : Passed P s key P.size) : s.full P := by
  intro idx hidx
  obtain ⟨d, hd, rfl⟩ := exists_index P (P.hash key) hidx
  obtain ⟨box, k, hat, -⟩ := h d hd
  rw [hat.1]
  rfl

theorem Passed.lt_size {s : St T} {key : T} {d : Nat} (h : Passed P s key d)
    (hnull : s.slots (P.index (P.hash key) d) = none) : d < P.size := by
  refine Nat.lt_of_not_le fun hle => ?_
  have hpos := size_pos P
  obtain ⟨box, k, hat, -⟩ := h (d - P.size) (by omega)
  rw [← index_sub_size P _ hle, St.keyAt, hnull] at hat
  cases hat.1

/-- Where equal keys are stored, and where they are not. -/
theorem Inv.offset {s : St T} (h : Inv P s) {idx box : Nat} {k key : T}
    (hat : s.keyAt idx box k) (he : (k == key) = true) :
    ∃ d < P.size, idx = P.index (P.hash key) d ∧ Passed P s k d := by
  obtain ⟨k', hb, -, d, hd, hi, hp⟩ := h.slot hat.1
  obtain rfl : k' = k := by
    rw [hat.2] at hb
    exact (Option.some.inj hb).symm
  exact ⟨d, hd, by rw [hi, P.respects he], hp⟩

/-- A null slot at the end of a passed stretch shows that the key is absent. -/
theorem Inv.absent {s : St T} (h : Inv P s) {key : T} {d : Nat} (hp : Passed P s key d)
    (hend : d = P.size ∨ s.slots (P.index (P.hash key) d) = none) {idx box : Nat} {k : T}
    (hat : s.keyAt idx box k) : (k == key) = false := by
  refine Bool.eq_false_iff.2 fun he => ?_
  obtain ⟨e, hlt, rfl, hpk⟩ := h.offset hat he
  rcases Nat.lt_trichotomy e d with hed | hed | hed
  · obtain ⟨box', k', hat', hne⟩ := hp e hed
    rw [St.keyAt, hat.1] at hat'
    cases hat'.1
    rw [hat.2] at hat'
    cases hat'.2
    rw [he] at hne
    cases hne
  · subst hed
    rcases hend with hend | hend
    · exact absurd hlt (by omega)
    · rw [St.keyAt, hend] at hat
      cases hat.1
  · rcases hend with hend | hend
    · omega
    · obtain ⟨box', k', hat', -⟩ := hpk d hed
      rw [St.keyAt, P.respects he, hend] at hat'
      cases hat'.1

/-- No key is stored twice. -/
theorem Inv.unique [EquivBEq T] {s : St T} (h : Inv P s) {idx idx' box box' : Nat} {k k' : T}
    (hat : s.keyAt idx box k) (hat' : s.keyAt idx' box' k') (he : (k == k') = true) :
    idx = idx' ∧ box = box' := by
  have hcontra : ∀ {i b : Nat} {x y : T} {d e : Nat}, s.keyAt i b x → (x == y) = true →
      i = P.index (P.hash y) d → Passed P s y e → ¬ d < e := by
    intro i b x y d e hx hxy hi hp hlt
    obtain ⟨b₁, k₁, hk₁, hne⟩ := hp d hlt
    rw [← hi, St.keyAt, hx.1] at hk₁
    cases hk₁.1
    rw [hx.2] at hk₁
    cases hk₁.2
    rw [hxy] at hne
    cases hne
  have hsymm : (k' == k) = true := BEq.symm he
  obtain ⟨d, -, hi, hp⟩ := h.offset hat he
  obtain ⟨e, -, hi', hp'⟩ := h.offset hat' (BEq.refl k')
  have hde : d = e := by
    have h₁ := hcontra hat he hi hp'
    have h₂ : ¬ e < d := by
      refine hcontra hat' hsymm ?_ hp
      rw [hi', P.respects hsymm]
    omega
  have hidx : idx = idx' := by rw [hi, hi', hde]
  refine ⟨hidx, ?_⟩
  have hs := hat.1
  rw [hidx, hat'.1] at hs
  exact (Option.some.inj hs).symm

/-! ## One access -/

/-- What the next action of a call tells about the table. -/
inductive Outcome (P : Params T) (s : St T) (c : Nat) (op : Op T) : Next → Prop
  | probe {i : Nat} (hi : i < P.size) (hp : Passed P s op.key i) :
      Outcome P s c op (.goto (.hot i))
  | alloc {idx d : Nat} (hop : op = .getOrInsert op.key) (hi : idx = P.index (P.hash op.key) d)
      (hp : Passed P s op.key d) : Outcome P s c op (.alloc (.load idx))
  | cold {pc : Pc} {idx d : Nat} (hpc : pc = .load idx ∨ pc = .cas idx)
      (hop : op = .getOrInsert op.key) (hb : s.boxes c = some op.key)
      (hi : idx = P.index (P.hash op.key) d) (hp : Passed P s op.key d) :
      Outcome P s c op (.goto pc)
  | claim {idx d : Nat} (hop : op = .getOrInsert op.key) (hb : s.boxes c = some op.key)
      (hd : d < P.size) (hi : idx = P.index (P.hash op.key) d) (hp : Passed P s op.key d)
      (hnull : s.slots idx = none) : Outcome P s c op (.claim idx)
  | entry {idx box : Nat} {k : T} {free : Bool} (hop : op = .getOrInsert op.key)
      (hat : s.keyAt idx box k) (he : (k == op.key) = true) :
      Outcome P s c op (.ret (.entry box false) free)
  | found {idx box : Nat} {k : T} (hop : op = .contains op.key) (hat : s.keyAt idx box k)
      (he : (k == op.key) = true) : Outcome P s c op (.ret (.found true) false)
  | absent (hop : op = .contains op.key)
      (hno : ∀ {idx box k}, s.keyAt idx box k → (k == op.key) = false) :
      Outcome P s c op (.ret (.found false) false)
  | full (hop : op = .getOrInsert op.key) (hfull : s.full P) : Outcome P s c op (.panic .full)
  | overflow : Outcome P s c op (.panic .overflow)

theorem coldProbe_spec {s : St T} {c idx d box : Nat} {op : Op T} {k : T}
    (hop : op = .getOrInsert op.key) (hb : s.boxes c = some op.key)
    (hi : idx = P.index (P.hash op.key) d) (hp : Passed P s op.key d)
    (hat : s.keyAt idx box k) : Outcome P s c op (coldProbe P idx box k op.key) := by
  rw [coldProbe]
  split
  · next he => exact .entry hop hat he
  · next hne =>
      subst hi
      have hp' := hp.snoc hat (Bool.eq_false_iff.2 hne)
      exact .cold (.inl rfl) hop hb (index_succ P _ d) hp'

theorem exec_spec {s : St T} (h : Inv P s) {c : Nat} {op : Op T} {pc : Pc} {n : Next}
    (hc : s.calls c = .running op pc) (hn : exec P ck s op pc = some n) : Outcome P s c op n := by
  cases pc with
  | hot i =>
      obtain ⟨hi, hp⟩ := h.at hc
      simp only [exec] at hn
      split at hn
      · cases hn
        exact .overflow
      · split at hn
        · next hnull =>
            cases op with
            | getOrInsert key =>
                cases hn
                exact .alloc rfl rfl hp
            | contains key =>
                cases hn
                exact .absent rfl fun hat => h.absent hp (.inr hnull) hat
        · next box hbox =>
            obtain ⟨k, hk, rfl⟩ := Option.map_eq_some_iff.1 hn
            have hat : s.keyAt (P.index (P.hash op.key) i) box k := ⟨hbox, hk⟩
            split
            · next he =>
                cases op with
                | getOrInsert key => exact .entry rfl hat he
                | contains key => exact .found rfl hat he
            · next hne =>
                have hp' := hp.snoc hat (Bool.eq_false_iff.2 hne)
                split
                · next hlt => exact .probe hlt hp'
                · next hge =>
                    obtain hsize : i + 1 = P.size := by omega
                    rw [hsize] at hp'
                    cases op with
                    | getOrInsert key => exact .full rfl hp'.full
                    | contains key => exact .absent rfl fun hat => h.absent hp' (.inl rfl) hat
  | load idx =>
      obtain ⟨hop, hb, d, hi, hp⟩ := h.at hc
      simp only [exec] at hn
      split at hn
      · cases hn
        exact .cold (.inr rfl) hop hb hi hp
      · next box hbox =>
          obtain ⟨k, hk, rfl⟩ := Option.map_eq_some_iff.1 hn
          exact coldProbe_spec hop hb hi hp ⟨hbox, hk⟩
  | cas idx =>
      obtain ⟨hop, hb, d, hi, hp⟩ := h.at hc
      simp only [exec] at hn
      split at hn
      · next hnull =>
          cases hn
          exact .claim hop hb (hp.lt_size (by rw [← hi]; exact hnull)) hi hp hnull
      · next box hbox =>
          obtain ⟨k, hk, rfl⟩ := Option.map_eq_some_iff.1 hn
          exact coldProbe_spec hop hb hi hp ⟨hbox, hk⟩

/-- The forms a step can take. -/
theorem step_cases {s s' : St T} {l : Label T} (hs : step P ck s l = some s') :
    (∃ c op, l = .call c op ∧ s.calls c = .fresh ∧
      s' = s.begin c op) ∨
    ∃ c op pc n, l = .run c ∧ s.calls c = .running op pc ∧ exec P ck s op pc = some n ∧
      s' = n.apply s c op := by
  cases l with
  | call c op =>
      simp only [step] at hs
      split at hs
      · next hc =>
          cases hs
          exact .inl ⟨c, op, rfl, hc, rfl⟩
      · cases hs
  | run c =>
      simp only [step] at hs
      split at hs
      · next op pc hc =>
          obtain ⟨n, hn, rfl⟩ := Option.map_eq_some_iff.1 hs
          exact .inr ⟨c, op, pc, n, rfl, hc, hn, rfl⟩
      · cases hs

section Frame

omit [BEq T]

theorem setCall_self (s : St T) (c : Nat) (x : Call T) : (s.setCall c x).calls c = x :=
  Function.update_self ..

theorem begin_self (s : St T) (c : Nat) (op : Op T) :
    (s.begin c op).calls c = .running op (.hot 0) :=
  Function.update_self ..

theorem begin_of_ne (s : St T) {c j : Nat} (op : Op T) (hj : j ≠ c) :
    (s.begin c op).calls j = s.calls j :=
  Function.update_of_ne hj _ _

theorem apply_calls (s : St T) (c : Nat) (op : Op T) (n : Next) {j : Nat} (hj : j ≠ c) :
    (n.apply s c op).calls j = s.calls j := by
  cases n <;> exact Function.update_of_ne hj _ _

theorem apply_boxes (s : St T) (c : Nat) (op : Op T) (n : Next) {j : Nat} (hj : j ≠ c) :
    (n.apply s c op).boxes j = s.boxes j := by
  cases n with
  | alloc => exact Function.update_of_ne hj _ _
  | ret r free =>
      cases free with
      | false => rfl
      | true => exact Function.update_of_ne hj _ _
  | _ => rfl

end Frame

/-- Only the box of a call that runs is written, and no slot holds that one. -/
theorem Inv.keeps_apply {s : St T} (h : Inv P s) {c : Nat} {op : Op T} {pc : Pc} {n : Next}
    (hc : s.calls c = .running op pc) (ho : Outcome P s c op n) : Keeps s (n.apply s c op) := by
  intro idx box key hat
  have hne : box ≠ c := by
    rintro rfl
    obtain ⟨k, -, hret, -⟩ := h.slot hat.1
    rw [hc] at hret
    cases hret
  cases ho with
  | alloc =>
      refine ⟨hat.1, ?_⟩
      exact (Function.update_of_ne hne _ _).trans hat.2
  | @claim idx' d hop hb hd hi hp hnull =>
      refine ⟨?_, hat.2⟩
      have hidx : idx ≠ idx' := by
        rintro rfl
        rw [St.keyAt, hnull] at hat
        cases hat.1
      exact (Function.update_of_ne hidx _ _).trans hat.1
  | @entry idx' box' k free hop hat' he =>
      refine ⟨hat.1, ?_⟩
      cases free with
      | false => exact hat.2
      | true => exact (Function.update_of_ne hne _ _).trans hat.2
  | _ => exact hat

theorem Inv.keeps {s s' : St T} (h : Inv P s) {l : Label T} (hs : step P ck s l = some s') :
    Keeps s s' := by
  rcases step_cases hs with ⟨c, op, -, -, rfl⟩ | ⟨c, op, pc, n, -, hc, hn, rfl⟩
  · exact fun _ _ _ hat => hat
  · exact h.keeps_apply hc (exec_spec h hc hn)

theorem returned_stays {s s' : St T} {l : Label T} (hs : step P ck s l = some s') {j : Nat}
    {op : Op T} {r : Res} (hj : s.calls j = .returned op r) : s'.calls j = .returned op r := by
  rcases step_cases hs with ⟨c, op', -, hc, rfl⟩ | ⟨c, op', pc, n, -, hc, -, rfl⟩
  · have hne : j ≠ c := by
      rintro rfl
      rw [hc] at hj
      cases hj
    exact (Function.update_of_ne hne _ _).trans hj
  · have hne : j ≠ c := by
      rintro rfl
      rw [hc] at hj
      cases hj
    rw [apply_calls s c op' n hne]
    exact hj

/-! ## The invariant over whole runs -/

/-- The call that moves knows what its outcome tells it. -/
theorem callOk_apply [EquivBEq T] {s : St T} (h : Inv P s) {c : Nat} {op : Op T} {pc : Pc}
    {n : Next} (hc : s.calls c = .running op pc) (ho : Outcome P s c op n) :
    CallOk P (n.apply s c op) c ((n.apply s c op).calls c) := by
  have hk := h.keeps_apply hc ho
  cases ho with
  | probe hi hp => exact setCall_self s c _ ▸ ⟨hi, hp.mono hk⟩
  | @alloc idx d hop hi hp =>
      refine setCall_self _ c _ ▸ ⟨hop, Function.update_self .., d, hi, hp.mono hk⟩
  | @cold pc idx d hpc hop hb hi hp =>
      refine setCall_self s c _ ▸ ?_
      rcases hpc with rfl | rfl <;> exact ⟨hop, hb, d, hi, hp.mono hk⟩
  | @claim idx d hop hb hd hi hp hnull =>
      refine setCall_self _ c _ ▸ ?_
      rw [hop]
      exact ⟨c, true, rfl, by simp, idx, op.key, ⟨Function.update_self .., hb⟩, BEq.rfl⟩
  | @entry idx box k free hop hat he =>
      refine setCall_self _ c _ ▸ ?_
      have hne : box ≠ c := by
        rintro rfl
        obtain ⟨k, -, hret, -⟩ := h.slot hat.1
        rw [hc] at hret
        cases hret
      rw [hop]
      exact ⟨box, false, rfl, by simp [hne], idx, k, hop ▸ hk hat, he⟩
  | @found idx box k hop hat he =>
      refine setCall_self _ c _ ▸ ?_
      rw [hop]
      exact ⟨true, rfl, fun _ => ⟨idx, box, k, hop ▸ hk hat, he⟩⟩
  | absent hop hno =>
      refine setCall_self _ c _ ▸ ?_
      rw [hop]
      exact ⟨false, rfl, by simp⟩
  | full | overflow => exact setCall_self s c _ ▸ trivial

theorem Inv.step [EquivBEq T] {s s' : St T} (h : Inv P s) {l : Label T}
    (hs : HashSet.step P ck s l = some s') : Inv P s' := by
  have hk := h.keeps hs
  have hslot : ∀ {idx box}, s.slots idx = some box → ∃ key, s'.boxes box = some key ∧
      s'.calls box = .returned (.getOrInsert key) (.entry box true) ∧
      ∃ d < P.size, idx = P.index (P.hash key) d ∧ Passed P s' key d := by
    intro idx box hi
    obtain ⟨key, hb, hret, d, hd, he, hp⟩ := h.slot hi
    exact ⟨key, (hk ⟨hi, hb⟩).2, returned_stays hs hret, d, hd, he, hp.mono hk⟩
  rcases step_cases hs with ⟨c, op, -, hc, rfl⟩ | ⟨c, op, pc, n, -, hc, hn, rfl⟩
  · refine ⟨hslot, fun j => ?_⟩
    by_cases hj : j = c
    · subst hj
      rw [begin_self]
      exact ⟨size_pos P, fun e he => absurd he (Nat.not_lt_zero e)⟩
    · rw [begin_of_ne s op hj]
      exact CallOk.mono hk rfl (h.calls j)
  · have ho := exec_spec h hc hn
    refine ⟨?_, fun j => ?_⟩
    · intro idx box hi
      cases ho with
      | @claim idx' d hop hb hd he hp hnull =>
          by_cases hii : idx = idx'
          · subst hii
            obtain rfl : box = c := by
              have : (Function.update s.slots idx (some c)) idx = some box := hi
              rw [Function.update_self] at this
              exact (Option.some.inj this).symm
            refine ⟨op.key, hb, ?_, d, hd, he, hp.mono hk⟩
            rw [← hop]
            exact Function.update_self ..
          · exact hslot ((Function.update_of_ne hii _ _).symm.trans hi)
      | _ => exact hslot hi
    · by_cases hj : j = c
      · subst hj
        exact callOk_apply h hc ho
      · rw [apply_calls s c op n hj]
        exact CallOk.mono hk (apply_boxes s c op n hj) (h.calls j)

/-- Every state a run leads to satisfies the invariant. -/
theorem Inv.of_reaches [EquivBEq T] {Q : St T → Label T → Prop} {s s' : St T} (h : Inv P s)
    (hr : Lts.Reaches (HashSet.step P ck) Q s s') : Inv P s' ∧ Keeps s s' := by
  refine hr.invariant (I := fun x => Inv P x ∧ Keeps s x) ⟨h, fun _ _ _ hat => hat⟩ ?_
  intro x y l hx _ hs
  exact ⟨hx.1.step hs, fun _ _ _ hat => hx.1.keeps hs (hx.2 hat)⟩

/-! ## Linearizability -/

/-- The insert-only set, as the boxes it holds with their keys. -/
inductive Spec : Set (Nat × T) → Op T → Res → Set (Nat × T) → Prop
  | entry {m : Set (Nat × T)} {box : Nat} {k key : T} (hm : (box, k) ∈ m)
      (he : (k == key) = true) : Spec m (.getOrInsert key) (.entry box false) m
  | inserted {m : Set (Nat × T)} {box : Nat} {key : T}
      (hno : ∀ e ∈ m, (e.2 == key) = false) :
      Spec m (.getOrInsert key) (.entry box true) (insert (box, key) m)
  | found {m : Set (Nat × T)} {box : Nat} {k key : T} (hm : (box, k) ∈ m)
      (he : (k == key) = true) : Spec m (.contains key) (.found true) m
  | absent {m : Set (Nat × T)} {key : T} (hno : ∀ e ∈ m, (e.2 == key) = false) :
      Spec m (.contains key) (.found false) m

def St.entries (s : St T) : Set (Nat × T) := {e | ∃ idx, s.keyAt idx e.1 e.2}

def Call.status : Call T → Status (Op T) Res
  | .fresh => .fresh
  | .running op _ | .panicked op _ => .called op
  | .returned _ _ => .returned

theorem entries_eq {s s' : St T} (h : Inv P s) (hk : Keeps s s') (hs : s'.slots = s.slots) :
    s'.entries = s.entries := by
  ext ⟨box, k⟩
  constructor
  · rintro ⟨idx, hi, hb⟩
    rw [hs] at hi
    obtain ⟨k', hk', -⟩ := h.slot hi
    refine ⟨idx, hi, ?_⟩
    rw [← (hk ⟨hi, hk'⟩).2.symm.trans hb]
    exact hk'
  · rintro ⟨idx, hat⟩
    exact ⟨idx, hk hat⟩

omit [BEq T] in
theorem entries_claim {s : St T} {c idx : Nat} {op : Op T} (hb : s.boxes c = some op.key)
    (hnull : s.slots idx = none) :
    ((Next.claim idx).apply s c op).entries = insert (c, op.key) s.entries := by
  have hslot : ∀ i, ((Next.claim idx).apply s c op).slots i =
      if i = idx then some c else s.slots i := fun i => Function.update_apply ..
  ext ⟨box, k⟩
  constructor
  · rintro ⟨i, hi, hbox⟩
    rw [hslot] at hi
    split at hi
    · cases hi
      refine .inl ?_
      have : some k = some op.key := hbox.symm.trans hb
      cases this
      rfl
    · exact .inr ⟨i, hi, hbox⟩
  · rintro (he | ⟨i, hi, hbox⟩)
    · cases he
      exact ⟨idx, (hslot idx).trans (if_pos rfl), hb⟩
    · refine ⟨i, (hslot i).trans ((if_neg ?_).trans hi), hbox⟩
      rintro rfl
      rw [hnull] at hi
      cases hi

/-- The history so far is one of the atomic set that holds the same entries. -/
def St.follows (s : St T) : Prop :=
  Exec Spec ∅ s.history (Call.status ∘ s.calls) s.entries

/-- A call that takes effect returns in the same step. -/
theorem exec_return {h : List (Event Nat (Op T) Res)} {st : Nat → Status (Op T) Res}
    {m m' : Set (Nat × T)} (he : Exec Spec ∅ h st m) {c : Nat} {op : Op T} {r : Res}
    (hc : st c = .called op) (hs : Spec m op r m') :
    Exec Spec ∅ (h ++ [.ret c r]) (Function.update st c .returned) m' := by
  have hret := Exec.ret (Exec.lin he hc hs) (Function.update_self ..)
  rwa [Function.update_idem] at hret

/-- A step of a call that has not taken effect changes nothing the set sees. -/
theorem follows_of_same {s s' : St T} (hf : s.follows) {c : Nat} {x : Call T}
    (hh : s'.history = s.history) (hc : s'.calls = Function.update s.calls c x)
    (hx : x.status = (s.calls c).status) (he : s'.entries = s.entries) : s'.follows := by
  rw [St.follows, hh, hc, he, Function.comp_update, hx]
  have : (s.calls c).status = (Call.status ∘ s.calls) c := rfl
  rw [this, Function.update_eq_self]
  exact hf

/-- A step in which a call takes effect and returns. -/
theorem follows_of_return {s s' : St T} (hf : s.follows) {c : Nat} {op : Op T} {pc : Pc} {r : Res}
    (hc : s.calls c = .running op pc) (hh : s'.history = s.history ++ [.ret c r])
    (hcalls : s'.calls = Function.update s.calls c (.returned op r))
    (hs : Spec s.entries op r s'.entries) : s'.follows := by
  have hst : (Call.status ∘ s.calls) c = .called op := by rw [Function.comp_apply, hc]; rfl
  rw [St.follows, hh, hcalls, Function.comp_update]
  exact exec_return hf hst hs

theorem follows_step {s s' : St T} (h : Inv P s) (hf : s.follows) {l : Label T}
    (hs : step P ck s l = some s') : s'.follows := by
  have hk := h.keeps hs
  rcases step_cases hs with ⟨c, op, -, hc, rfl⟩ | ⟨c, op, pc, n, -, hc, hn, rfl⟩
  · have hst : (Call.status ∘ s.calls) c = .fresh := by rw [Function.comp_apply, hc]; rfl
    have hinv := Exec.inv op hf hst
    rw [← entries_eq h hk rfl] at hinv
    have hcomp : Call.status ∘ Function.update s.calls c (.running op (.hot 0)) =
        Function.update (Call.status ∘ s.calls) c (.called op) := Function.comp_update ..
    rw [← hcomp] at hinv
    exact hinv
  · have hmem : ∀ {idx box k}, s.keyAt idx box k → (box, k) ∈ s.entries :=
      fun {idx _ _} hat => ⟨idx, hat⟩
    cases exec_spec h hc hn with
    | probe | alloc | cold | full | overflow =>
        refine follows_of_same hf rfl rfl ?_ (entries_eq h hk rfl)
        rw [hc]
        rfl
    | @claim idx d hop hb hd hi hp hnull =>
        refine follows_of_return hf hc rfl rfl ?_
        rw [entries_claim hb hnull, hop]
        refine .inserted fun e he => ?_
        obtain ⟨i, hat⟩ := he
        exact h.absent hp (.inr (hi ▸ hnull)) hat
    | @entry idx box k free hop hat he =>
        refine follows_of_return hf hc rfl rfl ?_
        rw [entries_eq h hk rfl, hop]
        exact .entry (hmem hat) he
    | @found idx box k hop hat he =>
        refine follows_of_return hf hc rfl rfl ?_
        rw [entries_eq h hk rfl, hop]
        exact .found (hmem hat) he
    | absent hop hno =>
        refine follows_of_return hf hc rfl rfl ?_
        rw [entries_eq h hk rfl, hop]
        refine .absent fun e he => ?_
        obtain ⟨i, hat⟩ := he
        exact hno hat

theorem follows_of_reaches [EquivBEq T] {Q : St T → Label T → Prop} {s : St T}
    (h : Lts.Reaches (step P ck) Q St.init s) : s.follows := by
  suffices hI : Inv P s ∧ s.follows from hI.2
  have h₀ : (St.init : St T).follows := by
    have he : (St.init : St T).entries = ∅ := by
      refine Set.eq_empty_of_forall_notMem fun e => ?_
      rintro ⟨idx, hi, -⟩
      cases hi
    rw [St.follows, he]
    exact .init
  refine h.invariant (I := fun x => Inv P x ∧ x.follows) ⟨Inv.init, h₀⟩ ?_
  intro x y l hx _ hs
  exact ⟨hx.1.step hs, follows_step hx.1 hx.2 hs⟩

/-! ## Calls made after a key is stored -/

/-- The answer of a call that finds its key in `box`. -/
def Op.finds (box : Nat) : Op T → Res
  | .getOrInsert _ => .entry box false
  | .contains _ => .found true

/-- A call for a key that is stored at offset `d` of its probe: it has not made
`d + 1` accesses yet, or it has found the key, or a sum has stopped it. -/
def Finds (d box : Nat) (key : T) : Call T → Prop
  | .fresh => True
  | .running op pc => (op.key == key) = true → ∃ i ≤ d, pc = .hot i
  | .returned op r => (op.key == key) = true → r = op.finds box
  | .panicked op why => (op.key == key) = true → why = .overflow

theorem exec_finds [EquivBEq T] {s : St T} {d box i : Nat} {k key : T} {op : Op T} {n : Next}
    (hat : s.keyAt (P.index (P.hash key) d) box k) (hk : (k == key) = true)
    (hp : Passed P s k d) (hd : d < P.size) (ho : (op.key == key) = true) (hi : i ≤ d)
    (hn : exec P ck s op (.hot i) = some n) :
    n = .ret (op.finds box) false ∨ (∃ j ≤ d, n = .goto (.hot j)) ∨ n = .panic .overflow := by
  have hhash : P.hash op.key = P.hash k := (P.respects ho).trans (P.respects hk).symm
  have hok : (op.key == k) = true := BEq.trans ho (BEq.symm hk)
  simp only [exec, hhash] at hn
  split at hn
  · exact .inr (.inr (Option.some.inj hn).symm)
  · rcases Nat.lt_or_eq_of_le hi with hlt | rfl
    · obtain ⟨box', k', ⟨hs, hb⟩, hne⟩ := hp i hlt
      have hne' : (k' == op.key) = false := by
        refine Bool.eq_false_iff.2 fun he => ?_
        rw [BEq.trans he hok] at hne
        cases hne
      rw [hs] at hn
      simp only [hb, Option.map_some, hne', Bool.false_eq_true, if_false, Option.some.injEq] at hn
      rw [if_pos (show i + 1 < P.size by omega)] at hn
      exact .inr (.inl ⟨i + 1, hlt, hn.symm⟩)
    · obtain ⟨hs, hb⟩ := hat
      rw [← P.respects hk] at hs
      rw [hs] at hn
      simp only [hb, Option.map_some, BEq.symm hok, if_true, Option.some.injEq] at hn
      cases op with
      | getOrInsert key' => exact .inl hn.symm
      | contains key' => exact .inl hn.symm

theorem finds_step [EquivBEq T] {s s' : St T} {d box : Nat} {k key : T}
    (hat : s.keyAt (P.index (P.hash key) d) box k) (hk : (k == key) = true)
    (hp : Passed P s k d) (hd : d < P.size) {j : Nat} (hj : Finds d box key (s.calls j))
    {l : Label T} (hs : step P ck s l = some s') : Finds d box key (s'.calls j) := by
  rcases step_cases hs with ⟨c, op, -, hc, rfl⟩ | ⟨c, op, pc, n, -, hc, hn, rfl⟩
  · by_cases hjc : j = c
    · subst hjc
      rw [begin_self]
      exact fun _ => ⟨0, Nat.zero_le d, rfl⟩
    · rw [begin_of_ne s op hjc]
      exact hj
  · by_cases hjc : j = c
    · subst hjc
      rw [hc] at hj
      by_cases ho : (op.key == key) = true
      · obtain ⟨i, hi, rfl⟩ := hj ho
        rcases exec_finds hat hk hp hd ho hi hn with rfl | ⟨e, he, rfl⟩ | rfl
        · exact setCall_self _ j _ ▸ fun _ => rfl
        · exact setCall_self s j _ ▸ fun _ => ⟨e, he, rfl⟩
        · exact setCall_self s j _ ▸ fun _ => rfl
      · cases n with
        | _ => exact setCall_self _ j _ ▸ fun h => absurd h ho
    · rw [apply_calls s c op n hjc]
      exact hj

/-- A call made when the key is stored finds it in its first loop. -/
theorem finds_of_reaches [EquivBEq T] {Q : St T → Label T → Prop} {s s' : St T} (h : Inv P s)
    (hr : Lts.Reaches (step P ck) Q s s') {idx box j : Nat} {k key : T} (hat : s.keyAt idx box k)
    (hk : (k == key) = true) (hj : s.calls j = .fresh) :
    ∃ d < P.size, Finds d box key (s'.calls j) := by
  obtain ⟨d, hd, rfl, hp⟩ := h.offset hat hk
  refine ⟨d, hd, ?_⟩
  suffices hI : (Inv P s' ∧ Keeps s s') ∧ Finds d box key (s'.calls j) from hI.2
  refine hr.invariant (I := fun x => (Inv P x ∧ Keeps s x) ∧ Finds d box key (x.calls j))
    ⟨⟨h, fun _ _ _ hat => hat⟩, by rw [hj]; trivial⟩ ?_
  intro x y l hx _ hs
  refine ⟨⟨hx.1.1.step hs, fun _ _ _ hat => hx.1.1.keeps hs (hx.1.2 hat)⟩, ?_⟩
  exact finds_step (hx.1.2 hat) hk (hp.mono hx.1.2) hd hx.2 hs

/-! ## Panics -/

/-- The cold path has no way to panic. -/
theorem coldProbe_ne_panic (P : Params T) (idx box : Nat) (k key : T) (why : Panic) :
    coldProbe P idx box k key ≠ .panic why := by
  rw [coldProbe]
  split <;> exact Next.noConfusion

/-- What a state that is about to see a call panic shows. -/
theorem exec_why [EquivBEq T] {s : St T} (h : Inv P s) {c : Nat} {op : Op T} {pc : Pc}
    {why : Panic} (hc : s.calls c = .running op pc) (hn : exec P ck s op pc = some (.panic why)) :
    (why = .full ∧ s.full P) ∨ (why = .overflow ∧ (s.calls c).overflows P ck) := by
  cases exec_spec h hc hn with
  | full hop hfull => exact .inl ⟨rfl, hfull⟩
  | overflow =>
      refine .inr ⟨rfl, ?_⟩
      rw [hc]
      cases pc with
      | hot i =>
          simp only [exec] at hn
          split at hn
          · next hover => exact hover
          · split at hn
            · cases op <;> cases hn
            · obtain ⟨k, -, hn⟩ := Option.map_eq_some_iff.1 hn
              repeat' split at hn
              all_goals cases hn
      | load idx | cas idx =>
          simp only [exec] at hn
          split at hn
          · cases hn
          · obtain ⟨k, -, hn⟩ := Option.map_eq_some_iff.1 hn
            exact absurd hn (coldProbe_ne_panic _ _ _ _ _ _)

/-- A step that computes a sum which does not fit ends its call. -/
theorem step_overflow {s s' : St T} {c : Nat} (ho : (s.calls c).overflows P ck)
    (hs : step P ck s (.run c) = some s') : ∃ op, s'.calls c = .panicked op .overflow := by
  rcases step_cases hs with ⟨j, op, hl, -⟩ | ⟨j, op, pc, n, hl, hc, hn, rfl⟩
  · cases hl
  · cases hl
    rw [hc] at ho
    cases pc with
    | hot i =>
        have hover : ck = true ∧ 2 ^ 64 ≤ P.hash op.key + i := ho
        simp only [exec, if_pos hover] at hn
        cases hn
        exact ⟨op, setCall_self s c _⟩
    | load idx | cas idx => exact ho.elim

omit [BEq T] in
theorem eq_run_of_runs {c : Nat} {l : Label T} (h : l.runs c = true) : l = .run c := by
  cases l with
  | call j op => cases h
  | run j => exact congrArg Label.run (beq_iff_eq.1 h)

/-- A call does not panic for a reason that its own steps never show. -/
theorem not_panicked [EquivBEq T] {Q : St T → Label T → Prop} {why : Panic} {c : Nat}
    (hQ : ∀ s l, Q s l → l.runs c = true →
      (why = .full → ¬ s.full P) ∧ (why = .overflow → ¬ (s.calls c).overflows P ck))
    {s : St T} (hr : Lts.Reaches (step P ck) Q St.init s) (op : Op T) :
    s.calls c ≠ .panicked op why := by
  suffices hI : Inv P s ∧ ∀ op, s.calls c ≠ .panicked op why from hI.2 op
  refine hr.invariant (I := fun x => Inv P x ∧ ∀ op, x.calls c ≠ .panicked op why)
    ⟨Inv.init, fun op hc => by cases hc⟩ ?_
  intro x y l hx hq hs
  refine ⟨hx.1.step hs, fun op' hc' => ?_⟩
  rcases step_cases hs with ⟨j, op, -, hj, rfl⟩ | ⟨j, op, pc, n, rfl, hj, hn, rfl⟩
  · by_cases hcj : c = j
    · subst hcj
      rw [begin_self] at hc'
      cases hc'
    · exact hx.2 op' ((begin_of_ne x op hcj).symm.trans hc')
  · by_cases hcj : c = j
    · subst hcj
      have hself : (Label.run c : Label T).runs c = true := beq_self_eq_true c
      cases n with
      | panic w =>
          cases (setCall_self x c _).symm.trans hc'
          rcases exec_why hx.1 hj hn with ⟨hw, hfull⟩ | ⟨hw, hover⟩
          · exact (hQ x _ hq hself).1 hw hfull
          · exact (hQ x _ hq hself).2 hw hover
      | _ => cases (setCall_self _ c _).symm.trans hc'
    · exact hx.2 op' ((apply_calls x j op n hcj).symm.trans hc')

/-- The hash set as its users see it, in every interleaving and either build: slots
are written once, no key is stored twice, one call per key inserts it, all calls
for a key get the same entry, and the history is one of an atomic insert-only set.
A call made after its key is stored finds it in at most `N` accesses unless a sum
`hash + i` stops it; no call panics unless the table is full or such a sum is
computed, and a step that computes one ends its call. -/
theorem hashSet_insert_only [EquivBEq T] (P : Params T) (ck : Bool) {Q : St T → Label T → Prop}
    {s : St T} (h : Lts.Reaches (step P ck) Q St.init s) :
    (∀ {s' : St T}, Lts.Reaches (step P ck) Q s s' →
      ∀ {idx box : Nat}, s.slots idx = some box → s'.slots idx = some box) ∧
    (∀ {idx idx' box box' : Nat} {k k' : T}, s.keyAt idx box k → s.keyAt idx' box' k' →
      (k == k') = true → idx = idx') ∧
    (∀ {c : Nat} {key : T} {r : Res}, s.calls c = .returned (.getOrInsert key) r →
      ∃! c', ∃ key' box, (key' == key) = true ∧
        s.calls c' = .returned (.getOrInsert key') (.entry box true)) ∧
    (∀ {c c' box box' : Nat} {key key' : T} {i i' : Bool},
      s.calls c = .returned (.getOrInsert key) (.entry box i) →
      s.calls c' = .returned (.getOrInsert key') (.entry box' i') →
      (key == key') = true → box = box') ∧
    (∀ {c box j : Nat} {key : T} {i : Bool} {s' : St T} {op : Op T},
      s.calls c = .returned (.getOrInsert key) (.entry box i) → s.calls j = .fresh →
      Lts.Reaches (step P ck) Q s s' → (op.key == key) = true →
      (∀ r, s'.calls j = .returned op r → r = op.finds box) ∧
      (∀ pc, s'.calls j = .running op pc → ∃ e < P.size, pc = .hot e) ∧
      (∀ why, s'.calls j = .panicked op why → why = .overflow) ∧
      ((∀ s l, Q s l → ¬ l.overflows P ck s) → ∀ why, s'.calls j ≠ .panicked op why)) ∧
    ((∀ s l, Q s l → ¬ s.full P) → ∀ c op, s.calls c ≠ .panicked op .full) ∧
    ((∀ s l, Q s l → ¬ l.overflows P ck s) → ∀ c op, s.calls c ≠ .panicked op .overflow) ∧
    (∀ {c : Nat} {s' : St T}, (s.calls c).overflows P ck → step P ck s (.run c) = some s' →
      ∃ op, s'.calls c = .panicked op .overflow) ∧
    IsLinearizable Spec ∅ s.history := by
  obtain ⟨hinv, -⟩ := Inv.of_reaches Inv.init h
  have hfull : (∀ s l, Q s l → ¬ s.full P) → ∀ c op, s.calls c ≠ .panicked op .full :=
    fun hQ c => not_panicked
      (fun s l hq _ => ⟨fun _ => hQ s l hq, fun hw => Panic.noConfusion hw⟩) h
  have hsum : ∀ {s' : St T}, Lts.Reaches (step P ck) Q St.init s' →
      (∀ s l, Q s l → ¬ l.overflows P ck s) → ∀ c op, s'.calls c ≠ .panicked op .overflow := by
    intro s' hr hQ c
    refine not_panicked (fun s l hq hl => ⟨fun hw => Panic.noConfusion hw, fun _ => ?_⟩) hr
    obtain rfl := eq_run_of_runs hl
    exact hQ s _ hq
  refine ⟨?_, fun hat hat' he => (hinv.unique hat hat' he).1, ?_, ?_, ?_, hfull, hsum h,
    fun ho hs => step_overflow ho hs, (follows_of_reaches h).isLinearizable⟩
  · intro s' hr idx box hi
    obtain ⟨key, hb, -⟩ := hinv.slot hi
    exact ((hinv.of_reaches hr).2 ⟨hi, hb⟩).1
  · intro c key r hc
    obtain ⟨box, ins, rfl, -, idx, k, hat, he⟩ := hinv.at hc
    obtain ⟨k', hb, hret, -⟩ := hinv.slot hat.1
    obtain rfl : k' = k := by
      rw [hat.2] at hb
      exact (Option.some.inj hb).symm
    refine ⟨box, ⟨k', box, he, hret⟩, ?_⟩
    rintro c' ⟨key', box', he', hc'⟩
    obtain ⟨box'', ins', hr, hins, idx', k'', hat', he''⟩ := hinv.at hc'
    cases hr
    have hself : box' = c' := hins.1 rfl
    have hkeys : (k'' == k') = true := BEq.trans he'' (BEq.trans he' (BEq.symm he))
    exact hself.symm.trans (hinv.unique hat' hat hkeys).2
  · intro c c' box box' key key' i i' hc hc' he
    obtain ⟨_, _, hr, -, idx, k, hat, hk⟩ := hinv.at hc
    obtain ⟨_, _, hr', -, idx', k', hat', hk'⟩ := hinv.at hc'
    cases hr
    cases hr'
    exact (hinv.unique hat hat' (BEq.trans hk (BEq.trans he (BEq.symm hk')))).2
  · intro c box j key i s' op hc hj hr ho
    obtain ⟨_, _, hres, -, idx, k, hat, hk⟩ := hinv.at hc
    cases hres
    obtain ⟨d, hd, hf⟩ := finds_of_reaches hinv hr hat hk hj
    have hpanic : ∀ why, s'.calls j = .panicked op why → why = .overflow := fun why hj' => by
      rw [hj'] at hf
      exact hf ho
    refine ⟨fun r hj' => ?_, fun pc hj' => ?_, hpanic, fun hQ why hj' => ?_⟩
    · rw [hj'] at hf
      exact hf ho
    · rw [hj'] at hf
      obtain ⟨e, he, rfl⟩ := hf ho
      exact ⟨e, Nat.lt_of_le_of_lt he hd, rfl⟩
    · obtain rfl := hpanic why hj'
      exact hsum (h.trans hr) hQ j op hj'

/-- Two slots and a hash function under which all keys collide. -/
def collide : Params Nat := ⟨1, by decide, fun _ => 1, fun _ => rfl⟩

/-- Three calls race for the same slot: the second loses its CAS to an equal
key, the third to a different one and wraps around. -/
def racingInserts : List (Label Nat) :=
  [.call 0 (.getOrInsert 7), .call 1 (.getOrInsert 7), .call 2 (.getOrInsert 9),
    .run 0, .run 1, .run 2, .run 0, .run 1, .run 2, .run 0, .run 1, .run 2, .run 2, .run 2]

theorem hashSet_insert_only_racingInserts : ∃ s : St Nat,
    s.calls 0 = .returned (.getOrInsert 7) (.entry 0 true) ∧
    s.calls 1 = .returned (.getOrInsert 7) (.entry 0 false) ∧
    s.calls 2 = .returned (.getOrInsert 9) (.entry 2 true) ∧
    s.slots 1 = some 0 ∧ s.slots 0 = some 2 ∧
    (∃! c', ∃ key' box, (key' == 7) = true ∧
      s.calls c' = .returned (.getOrInsert key') (.entry box true)) ∧
    (∀ c op why, s.calls c ≠ .panicked op why) ∧ IsLinearizable Spec ∅ s.history := by
  have hrun : ∃ s, Lts.Reaches (step collide true)
      (fun s l => ¬ s.full collide ∧ ¬ l.overflows collide true s) St.init s ∧
      s.calls 0 = .returned (.getOrInsert 7) (.entry 0 true) ∧
      s.calls 1 = .returned (.getOrInsert 7) (.entry 0 false) ∧
      s.calls 2 = .returned (.getOrInsert 9) (.entry 2 true) ∧
      s.slots 1 = some 0 ∧ s.slots 0 = some 2 :=
    Lts.exists_of_runs racingInserts (by decide +kernel)
  obtain ⟨s, hs, h0, h1, h2, h3, h4⟩ := hrun
  obtain ⟨-, -, hone, -, -, hfull, hsum, -, hlin⟩ := hashSet_insert_only collide true hs
  refine ⟨s, h0, h1, h2, h3, h4, hone h0, fun c op why => ?_, hlin⟩
  cases why with
  | full => exact hfull (fun _ _ hq => hq.1) c op
  | overflow => exact hsum (fun _ _ hq => hq.2) c op

/-- Two slots and the last hash value of the word for every key. -/
def lastHash : Params Nat := ⟨1, by decide, fun _ => 2 ^ 64 - 1, fun _ => rfl⟩

/-- The same with four slots. -/
def fourLast : Params Nat := { lastHash with log := 2, fits := by decide }

/-- Two calls stop at slot 3. One claims it, the other goes on to slot 0. -/
def wrapInserts : List (Label Nat) :=
  [.call 0 (.getOrInsert 7), .call 1 (.getOrInsert 9), .run 0, .run 1, .run 0, .run 0, .run 1,
    .run 1, .run 1]

/-- The key in slot 0 is looked up and inserted again. -/
def lookAgain : List (Label Nat) :=
  [.call 2 (.contains 9), .run 2, .run 2, .call 3 (.getOrInsert 9), .run 3, .run 3]

/-- Key 9 is stored and its call has returned, two of the four slots are free, and
every later call for it panics in a build that checks `hash + 1`. A build that does
not finds it. -/
theorem stored_key_overflows :
    (∃ s s' : St Nat,
      Lts.Reaches (step fourLast true) (fun s _ => ¬ s.full fourLast) St.init s ∧
      s.calls 1 = .returned (.getOrInsert 9) (.entry 1 true) ∧
      s.calls 2 = .fresh ∧ s.calls 3 = .fresh ∧
      Lts.Reaches (step fourLast true) (fun s _ => ¬ s.full fourLast) s s' ∧
      s'.calls 2 = .panicked (.contains 9) .overflow ∧
      s'.calls 3 = .panicked (.getOrInsert 9) .overflow ∧
      s'.slots 1 = none ∧ s'.slots 2 = none) ∧
    ∃ s : St Nat, Lts.Reaches (step fourLast false) (fun s _ => ¬ s.full fourLast) St.init s ∧
      s.calls 2 = .returned (.contains 9) (.found true) ∧
      s.calls 3 = .returned (.getOrInsert 9) (.entry 1 false) := by
  constructor
  · have hrun : (Lts.runs (step fourLast true) (fun s _ => ¬ s.full fourLast) St.init
        wrapInserts).any (fun s =>
          decide (s.calls 1 = .returned (.getOrInsert 9) (.entry 1 true) ∧ s.calls 2 = .fresh ∧
            s.calls 3 = .fresh) &&
          (Lts.runs (step fourLast true) (fun s _ => ¬ s.full fourLast) s lookAgain).any fun s' =>
            decide (s'.calls 2 = .panicked (.contains 9) .overflow ∧
              s'.calls 3 = .panicked (.getOrInsert 9) .overflow ∧
              s'.slots 1 = none ∧ s'.slots 2 = none)) = true := by decide +kernel
    obtain ⟨s, hr, h⟩ := Lts.exists_of_any hrun
    rw [Bool.and_eq_true] at h
    obtain ⟨h1, h2, h3⟩ := of_decide_eq_true h.1
    obtain ⟨s', hr', h'⟩ := Lts.exists_of_any h.2
    exact ⟨s, s', hr, h1, h2, h3, hr', of_decide_eq_true h'⟩
  · exact Lts.exists_of_runs (wrapInserts ++ lookAgain) (by decide +kernel)

end Cdpt.HashSet
