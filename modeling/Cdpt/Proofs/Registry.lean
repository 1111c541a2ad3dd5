import Cdpt.Model.Registry
import Cdpt.Proofs.HashSet

/-!
# The type registry is a consistent injection

The call that inserts a type into the set draws an id for it; nobody else does.
Ids are drawn in order, each by one call, and each of these calls has a slot of
its own, so there are never more ids than slots and the assertion behind the
draw holds. An entry whose id is set was published by its owner, after it had
stored the shade function, and no other call writes to that place of the table.

Three relations carry this. `St.drew` says that a call has inserted a type and
holds an id for it, at whatever position it is. `St.published` says that it has
finished: entry and table show the id and the shade function. `Keeps` is the
order between states in which what has been published stays so. The invariant
has the set's own invariant as a field and says of `drew` that it is a bijection
between the ids below `next_type_id` and the calls that inserted. A step of the
set cannot change what the registry's fields say (`Inv.setStep`), and each of
the four accesses behind the set has a lemma of its own. The bound on the ids
is where the two parts meet: a call that is about to draw has a slot too, which
none of the drawn ids can belong to (`Inv.next_lt`).

None of this depends on whether the build checks the sums of the set's probe,
since a call that panics there has drawn nothing.
-/

namespace Cdpt.Registry

open HashSet (Res)

variable {Ty : Type} [DecidableEq Ty] {hash : Ty → Nat} {ck : Bool}

/-- The id a call has drawn, while it works with it and after it has returned it. -/
def Pc.holds (newId : Nat) : Pc → Prop
  | .storeFn n | .publish n => n = newId
  | .returned i => newId < maxTypeId ∧ i = BitVec.ofNat 8 newId
  | _ => False

/-- Call `c` inserted `ty` and drew `newId` for it. -/
def St.drew (s : St Ty) (c newId : Nat) (ty : Ty) : Prop :=
  s.set.calls c = .returned (.getOrInsert ty) (.entry c true) ∧ (s.calls c).holds newId

/-- The owner of entry `c` has finished: the shade function is in the table, the
id in the entry. -/
structure St.published (s : St Ty) (c newId : Nat) (ty : Ty) : Prop where
  inserted : s.set.calls c = .returned (.getOrInsert ty) (.entry c true)
  lt : newId < maxTypeId
  returned : s.calls c = .returned (BitVec.ofNat 8 newId)
  id : s.ids c = BitVec.ofNat 32 newId
  shadeFn : s.shadeFnTable newId = some ty

omit [DecidableEq Ty] in
theorem St.published.drew {s : St Ty} {c newId : Nat} {ty : Ty} (h : s.published c newId ty) :
    s.drew c newId ty := ⟨h.inserted, by rw [h.returned]; exact ⟨h.lt, rfl⟩⟩

/-- What has been published stays so. -/
def Keeps (s s' : St Ty) : Prop :=
  ∀ ⦃c newId ty⦄, s.published c newId ty → s'.published c newId ty

/-- What a call knows at its position. -/
def CallOk (s : St Ty) (c : Nat) : Pc → Prop
  | .idle => s.set.calls c = .fresh
  | .inSet => s.set.calls c ≠ .fresh
  | .storeFn _ => ∃ ty, s.set.calls c = .returned (.getOrInsert ty) (.entry c true)
  | .publish newId => ∃ ty, s.set.calls c = .returned (.getOrInsert ty) (.entry c true) ∧
      s.shadeFnTable newId = some ty
  | .spin => ∃ ty box, s.set.calls c = .returned (.getOrInsert ty) (.entry box false)
  | .returned i => ∃ ty box inserted newId,
      s.set.calls c = .returned (.getOrInsert ty) (.entry box inserted) ∧
      i = BitVec.ofNat 8 newId ∧ s.published box newId ty
  | .panicked => False

structure Inv (hash : Ty → Nat) (s : St Ty) : Prop where
  set : HashSet.Inv (typeSet hash) s.set
  calls : ∀ c, CallOk s c (s.calls c)
  lt : ∀ {c newId ty}, s.drew c newId ty → newId < s.nextTypeId
  owner : ∀ {newId}, newId < s.nextTypeId → ∃ c ty, s.drew c newId ty
  unique : ∀ {c c' newId ty ty'}, s.drew c newId ty → s.drew c' newId ty' → c = c'
  ids : ∀ {c}, s.ids c ≠ idUnset → ∃ newId ty, s.published c newId ty
  le : s.nextTypeId ≤ maxTypeId

theorem Inv.init : Inv hash (St.init : St Ty) where
  set := HashSet.Inv.init
  calls _ := rfl
  lt h := by cases h.1
  owner h := absurd h (Nat.not_lt_zero _)
  unique h := by cases h.1
  ids h := absurd rfl h
  le := Nat.zero_le _

theorem Inv.at {s : St Ty} (h : Inv hash s) {c : Nat} {pc : Pc} (hc : s.calls c = pc) :
    CallOk s c pc := hc ▸ h.calls c

theorem ofNat_inj {n m : Nat} (hn : n < maxTypeId) (hm : m < maxTypeId)
    (h : BitVec.ofNat 8 n = BitVec.ofNat 8 m) : n = m := by
  have hn' : n < 2 ^ 8 := hn
  have hm' : m < 2 ^ 8 := hm
  have ht := congrArg BitVec.toNat h
  rwa [BitVec.toNat_ofNat, BitVec.toNat_ofNat, Nat.mod_eq_of_lt hn', Nat.mod_eq_of_lt hm'] at ht

omit [DecidableEq Ty] in
/-- A call draws one id, for one type. -/
theorem drew_functional {s : St Ty} {c n m : Nat} {ty ty' : Ty} (h : s.drew c n ty)
    (h' : s.drew c m ty') : n = m ∧ ty = ty' := by
  refine ⟨?_, ?_⟩
  · have hn := h.2
    have hm := h'.2
    cases hc : s.calls c with
    | storeFn k | publish k =>
        rw [hc] at hn hm
        exact hn.symm.trans hm
    | returned i =>
        rw [hc] at hn hm
        exact ofNat_inj hn.1 hm.1 (hn.2.symm.trans hm.2)
    | idle | inSet | spin | panicked =>
        rw [hc] at hn
        exact hn.elim
  · have hr := h.1.symm.trans h'.1
    cases hr
    rfl

/-- A call that inserted its type has a slot. -/
theorem Inv.slot {s : St Ty} (h : Inv hash s) {c : Nat} {ty : Ty}
    (hc : s.set.calls c = .returned (.getOrInsert ty) (.entry c true)) :
    ∃ idx < maxTypeId, s.set.slots idx = some c := by
  obtain ⟨box, inserted, hr, -, idx, k, hat, -⟩ := h.set.at hc
  cases hr
  obtain ⟨key, -, -, d, -, hi, -⟩ := h.set.slot hat.1
  exact ⟨idx, hi ▸ HashSet.index_lt (typeSet hash) _ d, hat.1⟩

/-- There are as many slots as ids: a call that has a slot and no id yet finds
one left. -/
theorem Inv.next_lt {s : St Ty} (h : Inv hash s) {c : Nat} {ty : Ty}
    (hc : s.set.calls c = .returned (.getOrInsert ty) (.entry c true))
    (hno : ∀ newId, ¬ (s.calls c).holds newId) : s.nextTypeId < maxTypeId := by
  refine Nat.lt_of_le_of_ne h.le fun hfull => ?_
  have hslot : ∀ i : Fin maxTypeId, ∃ j : Fin maxTypeId, ∃ c ty,
      s.drew c i ty ∧ s.set.slots j = some c := by
    intro i
    obtain ⟨c, ty, hd⟩ := h.owner (show i.val < s.nextTypeId by rw [hfull]; exact i.isLt)
    obtain ⟨idx, hidx, hs⟩ := h.slot hd.1
    exact ⟨⟨idx, hidx⟩, c, ty, hd, hs⟩
  choose f hf using hslot
  have hinj : Function.Injective f := by
    intro i j hij
    obtain ⟨c, ty, hd, hs⟩ := hf i
    obtain ⟨c', ty', hd', hs'⟩ := hf j
    rw [hij, hs'] at hs
    cases hs
    exact Fin.ext (drew_functional hd hd').1
  obtain ⟨idx, hidx, hs⟩ := h.slot hc
  obtain ⟨i, hi⟩ := Finite.surjective_of_injective hinj ⟨idx, hidx⟩
  obtain ⟨c', ty', hd, hs'⟩ := hf i
  rw [hi, hs] at hs'
  cases hs'
  exact hno i hd.2

/-! ## Steps -/

/-- The forms a step can take: one of the set, or one access of a call that has
come back from it. -/
theorem step_cases {s s' : St Ty} {l : Label Ty} (hs : step hash ck s l = some s') :
    (∃ c ty, HashSet.step (typeSet hash) ck s.set (.call c (.getOrInsert ty)) = some s'.set ∧
      s' = { s with set := s'.set, calls := Function.update s.calls c .inSet }) ∨
    (∃ c, HashSet.step (typeSet hash) ck s.set (.run c) = some s'.set ∧
      s' = { s with set := s'.set }) ∨
    ∃ c ty box inserted, s.set.calls c = .returned (.getOrInsert ty) (.entry box inserted) ∧
      exec s c ty box inserted = some s' := by
  cases l with
  | call c ty =>
      obtain ⟨set, hset, rfl⟩ := Option.map_eq_some_iff.1 hs
      exact .inl ⟨c, ty, hset, rfl⟩
  | set c =>
      obtain ⟨set, hset, rfl⟩ := Option.map_eq_some_iff.1 hs
      exact .inr (.inl ⟨c, hset, rfl⟩)
  | run c =>
      simp only [step] at hs
      split at hs
      · next ty box inserted hc => exact .inr (.inr ⟨c, ty, box, inserted, hc, hs⟩)
      · cases hs

/-- The positions behind `get_or_insert`. -/
theorem Inv.returned {s : St Ty} (h : Inv hash s) {c : Nat} (hi : s.calls c ≠ .idle)
    (hs : s.calls c ≠ .inSet) : ∃ op r, s.set.calls c = .returned op r := by
  have hc := h.calls c
  cases hpc : s.calls c with
  | idle => exact absurd hpc hi
  | inSet => exact absurd hpc hs
  | storeFn n =>
      rw [hpc] at hc
      obtain ⟨ty, hr⟩ := hc
      exact ⟨_, _, hr⟩
  | publish n =>
      rw [hpc] at hc
      obtain ⟨ty, hr, -⟩ := hc
      exact ⟨_, _, hr⟩
  | spin =>
      rw [hpc] at hc
      obtain ⟨ty, box, hr⟩ := hc
      exact ⟨_, _, hr⟩
  | returned i =>
      rw [hpc] at hc
      obtain ⟨ty, box, inserted, n, hr, -⟩ := hc
      exact ⟨_, _, hr⟩
  | panicked =>
      rw [hpc] at hc
      exact hc.elim

/-- Steps of the set leave the registry's own data alone. -/
theorem Inv.setStep {s s' : St Ty} (h : Inv hash s) {l : HashSet.Label Ty}
    (hs : HashSet.step (typeSet hash) ck s.set l = some s'.set)
    (hnext : s'.nextTypeId = s.nextTypeId) (hids : s'.ids = s.ids)
    (htable : s'.shadeFnTable = s.shadeFnTable)
    (hcalls : ∀ c, s'.calls c = s.calls c ∨ (s.calls c = .idle ∧ s'.calls c = .inSet))
    (hidle : ∀ c, s'.calls c = .idle → s'.set.calls c = .fresh)
    (hin : ∀ c, s'.calls c = .inSet → s'.set.calls c ≠ .fresh) : Inv hash s' ∧ Keeps s s' := by
  have hstay : ∀ {c op r}, s.set.calls c = .returned op r → s'.set.calls c = .returned op r :=
    fun hc => HashSet.returned_stays hs hc
  have hpub : Keeps s s' := by
    intro c n ty hp
    refine ⟨hstay hp.inserted, hp.lt, ?_, by rw [hids]; exact hp.id,
      by rw [htable]; exact hp.shadeFn⟩
    rcases hcalls c with he | ⟨he, -⟩
    · rw [he]
      exact hp.returned
    · rw [hp.returned] at he
      cases he
  have hdrew : ∀ {c n ty}, s'.drew c n ty ↔ s.drew c n ty := by
    intro c n ty
    constructor
    · rintro ⟨hr, hh⟩
      rcases hcalls c with he | ⟨-, he⟩
      · rw [he] at hh
        obtain ⟨op, r, hret⟩ := h.returned (c := c) (by intro hi; rw [hi] at hh; exact hh)
          (by intro hi; rw [hi] at hh; exact hh)
        rw [hstay hret] at hr
        cases hr
        exact ⟨hret, hh⟩
      · rw [he] at hh
        exact hh.elim
    · rintro ⟨hr, hh⟩
      refine ⟨hstay hr, ?_⟩
      rcases hcalls c with he | ⟨he, -⟩
      · rwa [he]
      · rw [he] at hh
        exact hh.elim
  refine ⟨⟨h.set.step hs, fun c => ?_, ?_, ?_, ?_, ?_, hnext ▸ h.le⟩, hpub⟩
  · rcases hcalls c with he | ⟨-, he⟩
    · have hok := h.calls c
      cases hpc : s.calls c with
      | idle =>
          rw [he, hpc]
          exact hidle c (he.trans hpc)
      | inSet =>
          rw [he, hpc]
          exact hin c (he.trans hpc)
      | storeFn n =>
          rw [hpc] at hok
          rw [he, hpc]
          obtain ⟨ty, hr⟩ := hok
          exact ⟨ty, hstay hr⟩
      | publish n =>
          rw [hpc] at hok
          rw [he, hpc]
          obtain ⟨ty, hr, ht⟩ := hok
          exact ⟨ty, hstay hr, by rw [htable]; exact ht⟩
      | spin =>
          rw [hpc] at hok
          rw [he, hpc]
          obtain ⟨ty, box, hr⟩ := hok
          exact ⟨ty, box, hstay hr⟩
      | returned i =>
          rw [hpc] at hok
          rw [he, hpc]
          obtain ⟨ty, box, inserted, n, hr, hi, hp⟩ := hok
          exact ⟨ty, box, inserted, n, hstay hr, hi, hpub hp⟩
      | panicked =>
          rw [hpc] at hok
          exact hok.elim
    · rw [he]
      exact hin c he
  · intro c n ty hd
    rw [hnext]
    exact h.lt (hdrew.1 hd)
  · intro n hn
    rw [hnext] at hn
    obtain ⟨c, ty, hd⟩ := h.owner hn
    exact ⟨c, ty, hdrew.2 hd⟩
  · intro c c' n ty ty' hd hd'
    exact h.unique (hdrew.1 hd) (hdrew.1 hd')
  · intro c hc
    rw [hids] at hc
    obtain ⟨n, ty, hp⟩ := h.ids hc
    exact ⟨n, ty, hpub hp⟩

/-- The other calls of an access by call `c`. -/
theorem Inv.callsOk {s s' : St Ty} (h : Inv hash s) {c : Nat} {pc : Pc} (hset : s'.set = s.set)
    (hcalls : s'.calls = Function.update s.calls c pc)
    (hpub : Keeps s s')
    (htable : ∀ {j n ty}, s.calls j = .publish n → s.shadeFnTable n = some ty →
      s'.shadeFnTable n = some ty)
    (hok : CallOk s' c pc) (j : Nat) : CallOk s' j (s'.calls j) := by
  rw [hcalls]
  by_cases hj : j = c
  · subst hj
    rwa [Function.update_self]
  · rw [Function.update_of_ne hj]
    have hold := h.calls j
    cases hpc : s.calls j with
    | idle | inSet | storeFn | spin =>
        rw [hpc] at hold
        simp only [CallOk, hset] at hold ⊢
        exact hold
    | publish n =>
        rw [hpc] at hold
        obtain ⟨ty, hr, ht⟩ := hold
        exact ⟨ty, hset ▸ hr, htable hpc ht⟩
    | returned i =>
        rw [hpc] at hold
        obtain ⟨ty, box, inserted, n, hr, hi, hp⟩ := hold
        exact ⟨ty, box, inserted, n, hset ▸ hr, hi, hpub hp⟩
    | panicked =>
        rw [hpc] at hold
        exact hold.elim

omit [DecidableEq Ty] in
theorem drew_of_ne {s s' : St Ty} {c j n : Nat} {pc : Pc} {ty : Ty} (hset : s'.set = s.set)
    (hcalls : s'.calls = Function.update s.calls c pc) (hj : j ≠ c) :
    s'.drew j n ty ↔ s.drew j n ty := by
  rw [St.drew, St.drew, hset, hcalls, Function.update_of_ne hj]

/-- An access that leaves the drawn ids as they are. -/
theorem Inv.exec_same {s s' : St Ty} (h : Inv hash s) {c : Nat} {pc : Pc} (hset : s'.set = s.set)
    (hnext : s'.nextTypeId = s.nextTypeId)
    (hcalls : s'.calls = Function.update s.calls c pc)
    (hdrew : ∀ {n ty}, s'.drew c n ty ↔ s.drew c n ty)
    (hpub : Keeps s s')
    (htable : ∀ {j n ty}, s.calls j = .publish n → s.shadeFnTable n = some ty →
      s'.shadeFnTable n = some ty)
    (hids : ∀ {j}, s'.ids j ≠ idUnset → s.ids j ≠ idUnset ∨ ∃ n ty, s'.published j n ty)
    (hok : CallOk s' c pc) : Inv hash s' := by
  have hiff : ∀ {j n ty}, s'.drew j n ty ↔ s.drew j n ty := by
    intro j n ty
    by_cases hj : j = c
    · subst hj
      exact hdrew
    · exact drew_of_ne hset hcalls hj
  refine ⟨hset ▸ h.set, h.callsOk hset hcalls hpub htable hok, ?_, ?_, ?_, ?_, hnext ▸ h.le⟩
  · intro j n ty hd
    rw [hnext]
    exact h.lt (hiff.1 hd)
  · intro n hn
    rw [hnext] at hn
    obtain ⟨j, ty, hd⟩ := h.owner hn
    exact ⟨j, ty, hiff.2 hd⟩
  · intro j j' n ty ty' hd hd'
    exact h.unique (hiff.1 hd) (hiff.1 hd')
  · intro j hj
    rcases hids hj with hj | hp
    · obtain ⟨n, ty, hp⟩ := h.ids hj
      exact ⟨n, ty, hpub hp⟩
    · exact hp

omit [DecidableEq Ty] in
/-- Nothing is published by a call that has not returned. -/
theorem keeps_of_calls {s s' : St Ty} {c : Nat} {pc : Pc} (hset : s'.set = s.set)
    (hcalls : s'.calls = Function.update s.calls c pc)
    (hc : ∀ i, s.calls c ≠ .returned i)
    (hids : ∀ j, j ≠ c → s'.ids j = s.ids j)
    (htable : ∀ {j n ty}, j ≠ c → s.published j n ty → s'.shadeFnTable n = some ty) :
    Keeps s s' := by
  intro j n ty h
  have hj : j ≠ c := by
    rintro rfl
    exact hc _ h.returned
  refine ⟨hset ▸ h.inserted, h.lt, ?_, (hids j hj).trans h.id, htable hj h⟩
  rw [hcalls, Function.update_of_ne hj]
  exact h.returned

/-- The entry a call got is that of the call that inserted its type. -/
theorem Inv.owner_of_entry {s : St Ty} (h : Inv hash s) {c box : Nat} {ty : Ty} {inserted : Bool}
    (hc : s.set.calls c = .returned (.getOrInsert ty) (.entry box inserted)) :
    s.set.calls box = .returned (.getOrInsert ty) (.entry box true) := by
  obtain ⟨_, _, hr, -, idx, k, hat, he⟩ := h.set.at hc
  cases hr
  obtain ⟨key, hb, hret, -⟩ := h.set.slot hat.1
  obtain rfl : key = k := by
    rw [hat.2] at hb
    exact (Option.some.inj hb).symm
  rw [eq_of_beq he] at hret
  exact hret

theorem Inv.entry_inserted {s : St Ty} (h : Inv hash s) {c box : Nat} {ty : Ty} {inserted : Bool}
    (hc : s.set.calls c = .returned (.getOrInsert ty) (.entry box inserted)) :
    inserted = true ↔ box = c := by
  obtain ⟨_, _, hr, hins, -⟩ := h.set.at hc
  cases hr
  exact hins

omit [DecidableEq Ty] in
theorem readId_cases (s : St Ty) (box : Nat) :
    readId s box = .spin ∨ ∃ i, readId s box = .returned i := by
  rw [readId]
  split
  · exact .inl rfl
  · exact .inr ⟨_, rfl⟩

/-- What a read of the id of an entry tells. -/
theorem Inv.readId_ok {s : St Ty} (h : Inv hash s) {c box : Nat} {ty : Ty}
    (hc : s.set.calls c = .returned (.getOrInsert ty) (.entry box false)) :
    CallOk s c (readId s box) := by
  rw [readId]
  split
  · exact ⟨ty, box, hc⟩
  · next hid =>
      obtain ⟨n, ty', hp⟩ := h.ids hid
      have hty := hp.inserted.symm.trans (h.owner_of_entry hc)
      cases hty
      refine ⟨ty, box, false, n, hc, ?_, hp⟩
      rw [hp.id]
      refine BitVec.eq_of_toNat_eq ?_
      rw [BitVec.toNat_setWidth, BitVec.toNat_ofNat, BitVec.toNat_ofNat]
      exact Nat.mod_mod_of_dvd n (by decide)

omit [DecidableEq Ty] in
/-- A call that did not insert its type draws nothing. -/
theorem not_drew {s : St Ty} {c box n : Nat} {ty ty' : Ty}
    (hc : s.set.calls c = .returned (.getOrInsert ty) (.entry box false)) : ¬ s.drew c n ty' := by
  rintro ⟨hr, -⟩
  rw [hc] at hr
  cases hr

theorem Inv.read {s s' : St Ty} (h : Inv hash s) {c box : Nat} {ty : Ty}
    (hc : s.set.calls c = .returned (.getOrInsert ty) (.entry box false))
    (hpc : ∀ i, s.calls c ≠ .returned i) (hset : s'.set = s.set)
    (hnext : s'.nextTypeId = s.nextTypeId) (hids : s'.ids = s.ids)
    (ht : s'.shadeFnTable = s.shadeFnTable)
    (hcalls : s'.calls = Function.update s.calls c (readId s box)) :
    Inv hash s' ∧ Keeps s s' := by
  have hpub : Keeps s s' :=
    keeps_of_calls hset hcalls hpc (fun _ _ => by rw [hids]) (fun _ hp => ht ▸ hp.shadeFn)
  refine ⟨h.exec_same hset hnext hcalls ?_ hpub (fun _ he => ht ▸ he)
    (fun hj => .inl (hids ▸ hj)) ?_, hpub⟩
  · intro n ty'
    exact ⟨fun hd => (not_drew (hset ▸ hc) hd).elim, fun hd => (not_drew hc hd).elim⟩
  · have hok := h.readId_ok hc
    rcases readId_cases s box with hr | ⟨i, hr⟩
    · rw [hr]
      exact ⟨ty, box, hset ▸ hc⟩
    · rw [hr] at hok ⊢
      obtain ⟨ty', box', ins, n, hc', hi, hp⟩ := hok
      exact ⟨ty', box', ins, n, hset ▸ hc', hi, hpub hp⟩

/-- The one access that draws an id. -/
theorem Inv.draw {s s' : St Ty} (h : Inv hash s) {c : Nat} {ty : Ty}
    (hc : s.set.calls c = .returned (.getOrInsert ty) (.entry c true))
    (hpc : s.calls c = .inSet) (hset : s'.set = s.set)
    (hnext : s'.nextTypeId = s.nextTypeId + 1) (hids : s'.ids = s.ids)
    (ht : s'.shadeFnTable = s.shadeFnTable)
    (hcalls : s'.calls = Function.update s.calls c (.storeFn s.nextTypeId)) :
    Inv hash s' ∧ Keeps s s' := by
  have hlt : s.nextTypeId < maxTypeId := h.next_lt hc (by rw [hpc]; exact fun _ hh => hh)
  have hpub : Keeps s s' :=
    keeps_of_calls hset hcalls (by rw [hpc]; exact fun _ he => by cases he)
      (fun _ _ => by rw [hids]) (fun _ hp => ht ▸ hp.shadeFn)
  have hnew : s'.drew c s.nextTypeId ty := by
    refine ⟨hset ▸ hc, ?_⟩
    rw [hcalls, Function.update_self]
    rfl
  have hother : ∀ {j n ty'}, s'.drew j n ty' → (j = c ∧ n = s.nextTypeId) ∨ s.drew j n ty' := by
    intro j n ty' hd
    by_cases hj : j = c
    · subst hj
      exact .inl ⟨rfl, (drew_functional hd hnew).1⟩
    · exact .inr ((drew_of_ne hset hcalls hj).1 hd)
  refine ⟨⟨hset ▸ h.set, h.callsOk hset hcalls hpub (fun _ he => ht ▸ he) ⟨ty, hset ▸ hc⟩,
    ?_, ?_, ?_, ?_, hnext ▸ hlt⟩, hpub⟩
  · intro j n ty' hd
    rw [hnext]
    rcases hother hd with ⟨-, rfl⟩ | hd
    · exact Nat.lt_succ_self _
    · exact Nat.lt_succ_of_lt (h.lt hd)
  · intro n hn
    rw [hnext] at hn
    rcases Nat.lt_succ_iff_lt_or_eq.1 hn with hn | rfl
    · obtain ⟨j, ty', hd⟩ := h.owner hn
      have hj : j ≠ c := by
        rintro rfl
        rw [St.drew, hpc] at hd
        exact hd.2
      exact ⟨j, ty', (drew_of_ne hset hcalls hj).2 hd⟩
    · exact ⟨c, ty, hnew⟩
  · intro j j' n ty₁ ty₂ hd hd'
    rcases hother hd with ⟨rfl, rfl⟩ | hd
    · rcases hother hd' with ⟨rfl, -⟩ | hd'
      · rfl
      · exact absurd (h.lt hd') (Nat.lt_irrefl _)
    · rcases hother hd' with ⟨rfl, rfl⟩ | hd'
      · exact absurd (h.lt hd) (Nat.lt_irrefl _)
      · exact h.unique hd hd'
  · intro j hj
    rw [hids] at hj
    obtain ⟨n, ty', hp⟩ := h.ids hj
    exact ⟨n, ty', hpub hp⟩

/-- The place of the table a call writes is its own. -/
theorem Inv.store {s s' : St Ty} (h : Inv hash s) {c n : Nat} {ty : Ty}
    (hc : s.set.calls c = .returned (.getOrInsert ty) (.entry c true))
    (hpc : s.calls c = .storeFn n) (hset : s'.set = s.set)
    (hnext : s'.nextTypeId = s.nextTypeId) (hids : s'.ids = s.ids)
    (ht : s'.shadeFnTable = Function.update s.shadeFnTable n (some ty))
    (hcalls : s'.calls = Function.update s.calls c (.publish n)) :
    Inv hash s' ∧ Keeps s s' := by
  have hmine : s.drew c n ty := ⟨hc, by rw [hpc]; rfl⟩
  have hself : s'.shadeFnTable n = some ty := by rw [ht, Function.update_self]
  have hother : ∀ {j m ty'}, j ≠ c → s.drew j m ty' → s'.shadeFnTable m = s.shadeFnTable m := by
    intro j m ty' hj hd
    have hm : m ≠ n := by
      rintro rfl
      exact hj (h.unique hd hmine)
    rw [ht, Function.update_of_ne hm]
  have hpub : Keeps s s' :=
    keeps_of_calls hset hcalls (by rw [hpc]; exact fun _ he => by cases he)
      (fun _ _ => by rw [hids]) (fun hj hp => (hother hj hp.drew).trans hp.shadeFn)
  refine ⟨h.exec_same hset hnext hcalls ?_ hpub ?_ (fun hj => .inl (hids ▸ hj))
    ⟨ty, hset ▸ hc, hself⟩, hpub⟩
  · intro m ty'
    rw [St.drew, St.drew, hset, hcalls, Function.update_self, hpc]
    exact Iff.rfl
  · intro j m ty' hj he
    have hjc : j ≠ c := by
      rintro rfl
      rw [hpc] at hj
      cases hj
    obtain ⟨ty₀, hr, -⟩ := h.at hj
    exact (hother hjc ⟨hr, by rw [hj]; rfl⟩).trans he

theorem Inv.publish {s s' : St Ty} (h : Inv hash s) {c n : Nat} {ty : Ty}
    (hc : s.set.calls c = .returned (.getOrInsert ty) (.entry c true))
    (hpc : s.calls c = .publish n) (hset : s'.set = s.set)
    (hnext : s'.nextTypeId = s.nextTypeId)
    (hids : s'.ids = Function.update s.ids c (BitVec.ofNat 32 n))
    (ht : s'.shadeFnTable = s.shadeFnTable)
    (hcalls : s'.calls = Function.update s.calls c (.returned (BitVec.ofNat 8 n))) :
    Inv hash s' ∧ Keeps s s' := by
  have hlt : n < maxTypeId := Nat.lt_of_lt_of_le (h.lt ⟨hc, by rw [hpc]; rfl⟩) h.le
  have hdone : s'.published c n ty := by
    obtain ⟨ty', hr, he⟩ := h.at hpc
    rw [hc] at hr
    cases hr
    exact ⟨hset ▸ hc, hlt, by rw [hcalls, Function.update_self], by rw [hids, Function.update_self],
      ht ▸ he⟩
  have hpub : Keeps s s' :=
    keeps_of_calls hset hcalls (by rw [hpc]; exact fun _ he => by cases he)
      (fun _ hj => by rw [hids, Function.update_of_ne hj]) (fun _ hp => ht ▸ hp.shadeFn)
  refine ⟨h.exec_same hset hnext hcalls ?_ hpub (fun _ he => ht ▸ he) ?_
    ⟨ty, c, true, n, hset ▸ hc, rfl, hdone⟩, hpub⟩
  · intro m ty'
    rw [St.drew, St.drew, hset, hcalls, Function.update_self, hpc]
    refine and_congr_right fun _ => ⟨?_, ?_⟩
    · rintro ⟨hm, he⟩
      exact ofNat_inj hlt hm he
    · rintro rfl
      exact ⟨hlt, rfl⟩
  · intro j hj
    by_cases hjc : j = c
    · subst hjc
      exact .inr ⟨n, ty, hdone⟩
    · rw [hids, Function.update_of_ne hjc] at hj
      exact .inl hj

theorem Inv.exec {s s' : St Ty} (h : Inv hash s) {c box : Nat} {ty : Ty} {inserted : Bool}
    (hc : s.set.calls c = .returned (.getOrInsert ty) (.entry box inserted))
    (hs : Registry.exec s c ty box inserted = some s') : Inv hash s' ∧ Keeps s s' := by
  have hins := h.entry_inserted hc
  have hmine : ∀ ty', s.set.calls c = .returned (.getOrInsert ty') (.entry c true) →
      box = c ∧ s.set.calls c = .returned (.getOrInsert ty) (.entry c true) := by
    intro ty' hr
    rw [hc] at hr
    cases hr
    exact ⟨rfl, hc⟩
  simp only [Registry.exec] at hs
  split at hs
  · next hpc =>
      split at hs
      · next ht =>
          subst ht
          obtain rfl := hins.1 rfl
          have hlt : s.nextTypeId < maxTypeId :=
            h.next_lt hc (by rw [hpc]; exact fun _ hh => hh)
          have hmax : maxTypeId = 256 := rfl
          rw [if_pos hlt, Nat.mod_eq_of_lt (show s.nextTypeId + 1 < 2 ^ 64 by omega)] at hs
          cases hs
          exact h.draw hc hpc rfl rfl rfl rfl rfl
      · next hf =>
          obtain rfl := Bool.eq_false_iff.2 hf
          cases hs
          exact h.read hc (by rw [hpc]; exact fun _ he => by cases he) rfl rfl rfl rfl rfl
  · next hpc =>
      cases hs
      obtain ⟨ty', box', hr⟩ := h.at hpc
      rw [hc] at hr
      cases hr
      exact h.read hc (by rw [hpc]; exact fun _ he => by cases he) rfl rfl rfl rfl rfl
  · next n hpc =>
      cases hs
      obtain ⟨ty', hr⟩ := h.at hpc
      exact h.store (hmine ty' hr).2 hpc rfl rfl rfl rfl rfl
  · next n hpc =>
      cases hs
      obtain ⟨ty', hr, -⟩ := h.at hpc
      obtain ⟨rfl, hc'⟩ := hmine ty' hr
      exact h.publish hc' hpc rfl rfl rfl rfl rfl
  · cases hs

theorem Inv.step {s s' : St Ty} (h : Inv hash s) {l : Label Ty}
    (hs : Registry.step hash ck s l = some s') : Inv hash s' ∧ Keeps s s' := by
  rcases step_cases hs with ⟨c, ty, hset, he⟩ | ⟨c, hset, he⟩ | ⟨c, ty, box, inserted, hc, he⟩
  · have hcalls : s'.calls = Function.update s.calls c .inSet := by rw [he]
    rcases HashSet.step_cases hset with ⟨c', op, hl, hfresh, hbegin⟩ | ⟨_, _, _, _, hl, -⟩
    · cases hl
      have hidle : s.calls c = .idle := by
        by_contra hne
        have hok := h.calls c
        cases hpc : s.calls c with
        | idle => exact hne hpc
        | inSet =>
            rw [hpc] at hok
            exact hok hfresh
        | _ =>
            obtain ⟨_, _, hr⟩ := h.returned hne (by rw [hpc]; exact fun he => by cases he)
            rw [hfresh] at hr
            cases hr
      have hmove : ∀ j, j ≠ c → s'.calls j = s.calls j ∧ s'.set.calls j = s.set.calls j := by
        intro j hj
        rw [hcalls, hbegin, Function.update_of_ne hj, HashSet.begin_of_ne _ _ hj]
        exact ⟨rfl, rfl⟩
      refine h.setStep hset (by rw [he]) (by rw [he]) (by rw [he]) ?_ ?_ ?_
      · intro j
        by_cases hj : j = c
        · subst hj
          exact .inr ⟨hidle, by rw [hcalls, Function.update_self]⟩
        · exact .inl (hmove j hj).1
      · intro j hj'
        by_cases hj : j = c
        · subst hj
          rw [hcalls, Function.update_self] at hj'
          cases hj'
        · rw [(hmove j hj).2]
          exact h.at ((hmove j hj).1.symm.trans hj')
      · intro j hj'
        by_cases hj : j = c
        · subst hj
          rw [hbegin, HashSet.begin_self]
          exact fun he => by cases he
        · rw [(hmove j hj).2]
          exact h.at ((hmove j hj).1.symm.trans hj')
    · cases hl
  · have hcalls : s'.calls = s.calls := by rw [he]
    have hfresh : ∀ j, s'.set.calls j = .fresh ↔ s.set.calls j = .fresh := by
      intro j
      rcases HashSet.step_cases hset with ⟨_, _, hl, -⟩ | ⟨c', op, pc, n, hl, hrun, -, happ⟩
      · cases hl
      · cases hl
        rw [happ]
        by_cases hj : j = c
        · subst hj
          rw [hrun]
          constructor
          · intro hf
            cases n <;> cases (HashSet.setCall_self _ j _).symm.trans hf
          · intro hf
            cases hf
        · rw [HashSet.apply_calls _ _ _ _ hj]
    refine h.setStep hset (by rw [he]) (by rw [he]) (by rw [he]) (fun j => .inl (by rw [hcalls]))
      ?_ ?_
    · intro j hj
      rw [hcalls] at hj
      exact (hfresh j).2 (h.at hj)
    · intro j hj hf
      rw [hcalls] at hj
      exact h.at hj ((hfresh j).1 hf)
  · exact h.exec hc he

theorem Inv.of_reaches {Q : St Ty → Label Ty → Prop} {s s' : St Ty} (h : Inv hash s)
    (hr : Lts.Reaches (Registry.step hash ck) Q s s') : Inv hash s' ∧ Keeps s s' := by
  refine hr.invariant (I := fun x => Inv hash x ∧ Keeps s x) ⟨h, fun _ _ _ hp => hp⟩ ?_
  intro x y l hx _ hs
  obtain ⟨hy, hk⟩ := hx.1.step hs
  exact ⟨hy, fun _ _ _ hp => hk (hx.2 hp)⟩

/-- `TypeReg` and the object headers: the words the header of an object takes
that was allocated with type id `i`, as long as its root count stays inside its
field. -/
inductive HeaderOf (i : BitVec 8) : Word → Prop
  | new (c : Color) (n : Word) : HeaderOf i (Header.newWithTypeId c n i)
  | mark {w : Word} (c : Color) (h : HeaderOf i w) : HeaderOf i (Header.withMarked w c)
  | increment {w : Word} (h : HeaderOf i w) (hn : (Header.rootCount w).toNat < 2 ^ 55 - 1) :
      HeaderOf i (Header.increment w)
  | decrement {w : Word} (h : HeaderOf i w) (hn : 0 < (Header.rootCount w).toNat) :
      HeaderOf i (Header.decrement w)

theorem HeaderOf.typeId {i : BitVec 8} {w : Word} (h : HeaderOf i w) : Header.typeId w = i := by
  induction h with
  | new c n => exact Header.typeId_newWithTypeId c n i
  | mark c _ ih => rw [Header.typeId_withMarked, ih]
  | increment _ hn ih => rw [Header.typeId_eq_of_upper (Header.increment_spec hn).1, ih]
  | decrement _ hn ih => rw [Header.typeId_eq_of_upper (Header.decrement_spec hn).1, ih]

/-- The registry in every interleaving: calls for one type agree on the id and
calls for two types do not, ids survive the casts, the shade function is in the
table when an id is returned and stays there, so that it is found from the
header of every object of the type, and the assertion of the draw holds. -/
theorem registry_injection (hash : Ty → Nat) (ck : Bool) {Q : St Ty → Label Ty → Prop} {s : St Ty}
    (h : Lts.Reaches (step hash ck) Q St.init s) :
    (∀ {c c' : Nat} {ty ty' : Ty} {r r' : Res} {i i' : BitVec 8},
      s.set.calls c = .returned (.getOrInsert ty) r → s.calls c = .returned i →
      s.set.calls c' = .returned (.getOrInsert ty') r' → s.calls c' = .returned i' →
      (ty = ty' ↔ i = i')) ∧
    (∀ {c newId : Nat}, s.calls c = .storeFn newId ∨ s.calls c = .publish newId →
      newId < maxTypeId ∧ (BitVec.ofNat 32 newId).toNat = newId ∧
      (BitVec.ofNat 8 newId).toNat = newId) ∧
    (∀ {c box : Nat} {ty : Ty} {inserted : Bool} {i : BitVec 8} {s' : St Ty},
      s.set.calls c = .returned (.getOrInsert ty) (.entry box inserted) →
      s.calls c = .returned i → Lts.Reaches (step hash ck) Q s s' →
      (s'.ids box).toNat = i.toNat ∧ i.toNat < maxTypeId ∧
      s'.shadeFnTable i.toNat = some ty ∧
      ∀ w, HeaderOf i w → getShadeFn s' (Header.typeId w) = some ty) ∧
    ∀ c, s.calls c ≠ .panicked := by
  obtain ⟨hinv, -⟩ := Inv.of_reaches Inv.init h
  have hcast : ∀ {n : Nat}, n < maxTypeId → (BitVec.ofNat 32 n).toNat = n ∧
      (BitVec.ofNat 8 n).toNat = n := by
    intro n hn
    have h8 : n < 2 ^ 8 := hn
    rw [BitVec.toNat_ofNat, BitVec.toNat_ofNat]
    exact ⟨Nat.mod_eq_of_lt (Nat.lt_trans h8 (by decide)), Nat.mod_eq_of_lt h8⟩
  refine ⟨?_, ?_, ?_, ?_⟩
  · intro c c' ty ty' r r' i i' hc hi hc' hi'
    obtain ⟨_, box, ins, n, hr, rfl, hp⟩ := hinv.at hi
    obtain ⟨_, box', ins', n', hr', rfl, hp'⟩ := hinv.at hi'
    rw [hc] at hr
    cases hr
    rw [hc'] at hr'
    cases hr'
    constructor
    · rintro rfl
      have hbox : box = box' := by
        obtain ⟨_, _, he, -, idx, k, hat, hk⟩ := hinv.set.at hc
        cases he
        obtain ⟨_, _, he', -, idx', k', hat', hk'⟩ := hinv.set.at hc'
        cases he'
        exact (hinv.set.unique hat hat' (BEq.trans hk (BEq.symm hk'))).2
      subst hbox
      rw [(drew_functional hp.drew hp'.drew).1]
    · intro he
      have hn := ofNat_inj hp.lt hp'.lt he
      subst hn
      have hbox := hinv.unique hp.drew hp'.drew
      subst hbox
      exact (drew_functional hp.drew hp'.drew).2
  · intro c newId hc
    have hd : ∃ ty, s.drew c newId ty := by
      rcases hc with hc | hc
      · obtain ⟨ty, hr⟩ := hinv.at hc
        exact ⟨ty, hr, by rw [hc]; rfl⟩
      · obtain ⟨ty, hr, -⟩ := hinv.at hc
        exact ⟨ty, hr, by rw [hc]; rfl⟩
    obtain ⟨ty, hd⟩ := hd
    have hlt := Nat.lt_of_lt_of_le (hinv.lt hd) hinv.le
    exact ⟨hlt, hcast hlt⟩
  · intro c box ty inserted i s' hc hi hr
    obtain ⟨_, _, _, n, he, rfl, hp⟩ := hinv.at hi
    rw [hc] at he
    cases he
    obtain ⟨-, hk⟩ := hinv.of_reaches hr
    have hp' := hk hp
    obtain ⟨h32, h8⟩ := hcast hp.lt
    refine ⟨by rw [hp'.id, h32, h8], h8.symm ▸ hp.lt, h8.symm ▸ hp'.shadeFn, fun w hw => ?_⟩
    rw [getShadeFn, hw.typeId, h8]
    exact hp'.shadeFn
  · intro c hc
    exact hinv.at hc

/-- Two calls register one type while a third registers another: the second
finds the entry of the first before its id is set. -/
def racingTypes : List (Label Nat) :=
  [.call 0 5, .set 0, .set 0, .set 0, .call 1 5, .set 1, .run 1, .run 0, .run 1,
    .call 2 6, .set 2, .set 2, .set 2, .set 2, .run 2, .run 0, .run 0, .run 1, .run 2, .run 2]

theorem registry_injection_racingTypes : ∃ s : St Nat,
    s.calls 0 = .returned 0#8 ∧ s.calls 1 = .returned 0#8 ∧ s.calls 2 = .returned 1#8 ∧
    getShadeFn s (Header.typeId (Header.newWithTypeId .C1 3#64 1#8)) = some 6 ∧
    ∀ c, s.calls c ≠ .panicked := by
  have hrun : ∃ s, Lts.Reaches (step (fun _ => 255) true) (fun _ _ => True) St.init s ∧
      s.calls 0 = .returned 0#8 ∧ s.calls 1 = .returned 0#8 ∧ s.calls 2 = .returned 1#8 ∧
      s.set.calls 2 = .returned (.getOrInsert 6) (.entry 2 true) :=
    Lts.exists_of_runs racingTypes (by decide +kernel)
  obtain ⟨s, hs, h0, h1, h2, hset⟩ := hrun
  obtain ⟨-, -, hfn, hno⟩ := registry_injection _ _ hs
  exact ⟨s, h0, h1, h2, (hfn hset h2 .refl).2.2.2 _ (.new .C1 3#64), hno⟩

end Cdpt.Registry
