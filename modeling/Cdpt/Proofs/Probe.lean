import Cdpt.Proofs.HashSet

/-!
# How long a call probes

The first loop of `get_or_insert` visits every slot once and panics when all of
them hold other keys. The loop of the cold path has no such end: it relies on
finding a null slot or its key again. Each of its positions costs at most two
accesses, and past `N` positions the table is full of other keys (a call knows
that the positions it has passed hold other keys, `Passed`, and the first `N`
are all slots). So a call that never meets a full table there has `2 N + 1`
accesses, which `Call.left` counts down. When the table does become full of
other keys behind the null slot the first loop saw, no position ends the loop,
and as slots are never emptied none will: the call runs for ever.

The other way a call ends without cause is the sum `hash + i`, which exceeds
the word for the last hash values and panics in a build that checks it. Whether
the first loop meets such a sum depends on the table: `covers_iff` says when it
does not, for the loop taken at once (`hotLoop`). Then the loop visits the slots
in an order that is a permutation, and it is the same in either build.
`reaches_hotLoop` connects the two accounts: a call that nobody interrupts ends
its first loop as `hotLoop` says, panics included.
-/

namespace Cdpt.HashSet

variable {T : Type} [BEq T] {P : Params T} {ck : Bool}

/-! ## A table full of other keys -/

omit [BEq T] in
theorem content_eq_some {s : St T} {idx : Nat} {k : T} :
    s.content idx = some k ↔ ∃ box, s.keyAt idx box k := by
  rw [St.content, Option.bind_eq_some_iff]
  exact Iff.rfl

theorem others_iff {s : St T} {key : T} :
    s.others P key ↔ ∀ idx < P.size, ∃ box k, s.keyAt idx box k ∧ (k == key) = false := by
  have hslot : ∀ idx, (s.content idx).any (fun k => !(k == key)) = true ↔
      ∃ box k, s.keyAt idx box k ∧ (k == key) = false := by
    intro idx
    rw [Option.any_eq_true]
    constructor
    · rintro ⟨k, hk, hne⟩
      obtain ⟨box, hat⟩ := content_eq_some.1 hk
      exact ⟨box, k, hat, by simpa using hne⟩
    · rintro ⟨box, k, hat, hne⟩
      exact ⟨k, content_eq_some.2 ⟨box, hat⟩, by simpa using hne⟩
  simp only [St.others, hslot]

/-- A probe that has passed `N` positions has seen the whole table. -/
theorem Passed.others {s : St T} {key : T} (h : Passed P s key P.size) : s.others P key := by
  refine others_iff.2 fun idx hidx => ?_
  obtain ⟨d, hd, rfl⟩ := exists_index P (P.hash key) hidx
  exact h d hd

theorem Passed.lt_of_not_others {s : St T} {key : T} {d : Nat} (h : Passed P s key d)
    (ho : ¬ s.others P key) : d < P.size := by
  refine Nat.lt_of_not_le fun hle => ho (Passed.others fun e he => ?_)
  exact h e (Nat.lt_of_lt_of_le he hle)

theorem others_mono {s s' : St T} (hk : Keeps s s') {key : T} (h : s.others P key) :
    s'.others P key := by
  refine others_iff.2 fun idx hidx => ?_
  obtain ⟨box, k, hat, hne⟩ := others_iff.1 h idx hidx
  exact ⟨box, k, hk hat, hne⟩

/-! ## The accesses that are left -/

/-- The position of a slot in the probe of a hash value. -/
def Params.offset (P : Params T) (hash idx : Nat) : Nat :=
  (idx + (P.size - hash % P.size)) % P.size

theorem offset_index (P : Params T) (hash : Nat) {d : Nat} (hd : d < P.size) :
    P.offset hash (P.index hash d) = d := by
  have hlt := Nat.mod_lt hash (size_pos P)
  rw [Params.offset, index_eq, Nat.mod_add_mod]
  have hsum : hash + d + (P.size - hash % P.size) = P.size * (hash / P.size) + P.size + d := by
    have := Nat.div_add_mod hash P.size
    omega
  rw [hsum, ← Nat.mul_succ, Nat.mul_add_mod, Nat.mod_eq_of_lt hd]

/-- An upper bound on the accesses of a call that never meets a full table. -/
def Call.left (P : Params T) : Call T → Nat
  | .fresh => 2 * P.size + 1
  | .running _ (.hot i) => 2 * P.size + 1 - i
  | .running op (.load idx) => 2 * (P.size - P.offset (P.hash op.key) idx)
  | .running op (.cas idx) => 2 * (P.size - P.offset (P.hash op.key) idx) - 1
  | .returned _ _ | .panicked _ _ => 0

theorem left_load (op : Op T) {d : Nat} (hd : d < P.size) :
    (Call.running op (.load (P.index (P.hash op.key) d))).left P = 2 * (P.size - d) := by
  rw [Call.left, offset_index P _ hd]

theorem left_cas (op : Op T) {d : Nat} (hd : d < P.size) :
    (Call.running op (.cas (P.index (P.hash op.key) d))).left P = 2 * (P.size - d) - 1 := by
  rw [Call.left, offset_index P _ hd]

omit [BEq T] in
theorem apply_self_ret (s : St T) (c : Nat) (op : Op T) (r : Res) (free : Bool) :
    ((Next.ret r free).apply s c op).calls c = .returned op r :=
  setCall_self _ c _

theorem left_coldProbe {s : St T} {c d box : Nat} {op : Op T} {k : T}
    (hp : Passed P s op.key d) (hat : s.keyAt (P.index (P.hash op.key) d) box k)
    (ho : ¬ s.others P op.key) :
    (((coldProbe P (P.index (P.hash op.key) d) box k op.key).apply s c op).calls c).left P ≤
      2 * (P.size - d) - 2 := by
  rw [coldProbe]
  split
  · exact (apply_self_ret s c op _ _).symm ▸ Nat.zero_le _
  · next hne =>
      have hd : d + 1 < P.size := (hp.snoc hat (Bool.eq_false_iff.2 hne)).lt_of_not_others ho
      rw [index_succ]
      show (((s.setCall c (.running op _)).calls c).left P) ≤ _
      rw [setCall_self, left_load op hd]
      omega

/-- Every access of a call that does not spin brings its end closer. -/
theorem left_exec {s : St T} (h : Inv P s) {c : Nat} {op : Op T} {pc : Pc} {n : Next}
    (hc : s.calls c = .running op pc) (hn : exec P ck s op pc = some n) (hs : ¬ s.spins P c) :
    ((n.apply s c op).calls c).left P < (Call.running op pc).left P := by
  cases pc with
  | hot i =>
      obtain ⟨hi, -⟩ := h.at hc
      have hpos : 0 < (Call.running op (.hot i)).left P := by
        show 0 < 2 * P.size + 1 - i
        omega
      simp only [exec] at hn
      split at hn
      · cases hn
        exact (setCall_self s c (.panicked op .overflow)).symm ▸ hpos
      · split at hn
        · cases op with
          | getOrInsert key =>
              cases hn
              show (((St.setCall _ c (.running (.getOrInsert key) _)).calls c).left P) < _
              rw [setCall_self, left_load _ hi]
              show _ < 2 * P.size + 1 - i
              omega
          | contains key =>
              cases hn
              exact (apply_self_ret s c _ _ _).symm ▸ hpos
        · obtain ⟨k, hk, rfl⟩ := Option.map_eq_some_iff.1 hn
          split
          · cases op with
            | getOrInsert key => exact (apply_self_ret s c _ _ _).symm ▸ hpos
            | contains key => exact (apply_self_ret s c _ _ _).symm ▸ hpos
          · split
            · show (((St.setCall _ c (.running op (.hot (i + 1)))).calls c).left P) < _
              rw [setCall_self]
              show 2 * P.size + 1 - (i + 1) < 2 * P.size + 1 - i
              omega
            · cases op with
              | getOrInsert key => exact (setCall_self s c _).symm ▸ hpos
              | contains key => exact (apply_self_ret s c _ _ _).symm ▸ hpos
  | load idx =>
      obtain ⟨hop, hb, d, rfl, hp⟩ := h.at hc
      have ho : ¬ s.others P op.key := fun ho => hs ⟨op.key, by rw [hc]; exact rfl, ho⟩
      have hd := hp.lt_of_not_others ho
      rw [left_load op hd]
      simp only [exec] at hn
      split at hn
      · cases hn
        show (((s.setCall c (.running op (.cas _))).calls c).left P) < _
        rw [setCall_self, left_cas op hd]
        omega
      · next box hbox =>
          obtain ⟨k, hk, rfl⟩ := Option.map_eq_some_iff.1 hn
          have hle := left_coldProbe (c := c) hp ⟨hbox, hk⟩ ho
          omega
  | cas idx =>
      obtain ⟨hop, hb, d, rfl, hp⟩ := h.at hc
      have ho : ¬ s.others P op.key := fun ho => hs ⟨op.key, by rw [hc]; exact rfl, ho⟩
      have hd := hp.lt_of_not_others ho
      rw [left_cas op hd]
      simp only [exec] at hn
      split at hn
      · cases hn
        show (((St.setCall _ c (.returned op _)).calls c).left P) < _
        rw [setCall_self]
        show 0 < _
        omega
      · next box hbox =>
          obtain ⟨k, hk, rfl⟩ := Option.map_eq_some_iff.1 hn
          have hle := left_coldProbe (c := c) hp ⟨hbox, hk⟩ ho
          omega

/-- The own accesses of a call count down, those of others do not touch it. -/
theorem left_step {s s' : St T} (h : Inv P s) {c : Nat} (hs : ¬ s.spins P c) {l : Label T}
    (hstep : step P ck s l = some s') :
    (if l.runs c then 1 else 0) + (s'.calls c).left P ≤ (s.calls c).left P := by
  rcases step_cases hstep with ⟨j, op, rfl, hj, rfl⟩ | ⟨j, op, pc, n, rfl, hj, hn, rfl⟩
  · by_cases hcj : c = j
    · subst hcj
      rw [begin_self, hj]
      exact Nat.le_of_eq (Nat.zero_add _)
    · rw [begin_of_ne s op hcj]
      exact Nat.le_of_eq (Nat.zero_add _)
  · by_cases hcj : c = j
    · subst hcj
      have hlt := left_exec h hj hn hs
      have hself : (Label.run c : Label T).runs c = true := beq_self_eq_true c
      rw [hself, if_pos rfl, hj]
      omega
    · have hother : ¬ (Label.run j : Label T).runs c = true := fun he => hcj (beq_iff_eq.1 he).symm
      rw [apply_calls s j op n hcj, if_neg hother]
      omega

/-! ## Whether a call can go on -/

/-- A call that has not ended finds the boxes it reads. -/
theorem exec_isSome {s : St T} (h : Inv P s) (op : Op T) (pc : Pc) :
    (exec P ck s op pc).isSome = true := by
  have hbox : ∀ {idx box}, s.slots idx = some box → ∃ k, s.boxes box = some k :=
    fun hi => (h.slot hi).imp fun _ hk => hk.1
  cases pc with
  | hot i =>
      simp only [exec]
      split
      · rfl
      · split
        · rfl
        · next box hi =>
            obtain ⟨k, hk⟩ := hbox hi
            rw [hk]
            rfl
  | load idx | cas idx =>
      simp only [exec]
      split
      · rfl
      · next box hi =>
          obtain ⟨k, hk⟩ := hbox hi
          rw [hk]
          rfl

theorem step_isSome {s : St T} (h : Inv P s) {c : Nat} {op : Op T} {pc : Pc}
    (hc : s.calls c = .running op pc) : (step P ck s (.run c)).isSome = true := by
  simp only [step, hc, Option.isSome_map]
  exact exec_isSome h op pc

/-- A call that spins runs and goes on to spin. -/
theorem spins_step {s s' : St T} (h : Inv P s) {c : Nat} (hs : s.spins P c) {l : Label T}
    (hstep : step P ck s l = some s') : s'.spins P c := by
  obtain ⟨key, hkey, ho⟩ := hs
  have ho' := others_mono (h.keeps hstep) ho
  rcases step_cases hstep with ⟨j, op, rfl, hj, rfl⟩ | ⟨j, op, pc, n, rfl, hj, hn, rfl⟩
  · have hcj : c ≠ j := by
      rintro rfl
      rw [hj] at hkey
      cases hkey
    exact ⟨key, by rw [begin_of_ne s op hcj]; exact hkey, ho'⟩
  · by_cases hcj : c = j
    · subst hcj
      rw [hj] at hkey
      -- Whatever slot the call looks at holds another key.
      have hcold : ∀ {idx : Nat}, idx < P.size → op.key = key → ∃ box k,
          s.slots idx = some box ∧ s.boxes box = some k ∧
          coldProbe P idx box k op.key = .goto (.load (P.index idx 1)) := by
        intro idx hidx he
        obtain ⟨box, k, hat, hne⟩ := others_iff.1 ho idx hidx
        refine ⟨box, k, hat.1, hat.2, ?_⟩
        rw [coldProbe, he, if_neg (by rw [hne]; exact Bool.false_ne_true)]
      cases pc with
      | hot i => cases hkey
      | load idx | cas idx =>
          have he : op.key = key := Option.some.inj hkey
          obtain ⟨-, -, d, rfl, -⟩ := h.at hj
          obtain ⟨box, k, hslot, hbox, hgo⟩ := hcold (index_lt P (P.hash op.key) d) he
          simp only [exec, hslot, hbox, Option.map_some, hgo, Option.some.injEq] at hn
          subst hn
          refine ⟨key, ?_, ho'⟩
          show key ∈ ((s.setCall c (.running op _)).calls c).coldKey
          rw [setCall_self]
          exact hkey
    · exact ⟨key, by rw [apply_calls s j op n hcj]; exact hkey, ho'⟩

theorem spins_of_reaches [EquivBEq T] {Q : St T → Label T → Prop} {s s' : St T} (h : Inv P s)
    {c : Nat} (hs : s.spins P c) (hr : Lts.Reaches (step P ck) Q s s') : s'.spins P c := by
  suffices hI : Inv P s' ∧ s'.spins P c from hI.2
  refine hr.invariant (I := fun x => Inv P x ∧ x.spins P c) ⟨h, hs⟩ ?_
  intro a b l hx _ hstep
  exact ⟨hx.1.step hstep, spins_step hx.1 hx.2 hstep⟩

omit [BEq T] in
theorem running_of_coldKey {x : Call T} {key : T} (h : key ∈ x.coldKey) :
    ∃ op pc, x = .running op pc := by
  cases x with
  | running op pc => exact ⟨op, pc, rfl⟩
  | fresh | returned | panicked => cases h

/-! ## How a call ends -/

/-- A call reports a table that is full of other keys. -/
theorem exec_full {s : St T} (h : Inv P s) {c : Nat} {op : Op T} {pc : Pc}
    (hc : s.calls c = .running op pc) (hn : exec P ck s op pc = some (.panic .full)) :
    s.others P op.key := by
  cases pc with
  | hot i =>
      obtain ⟨hi, hp⟩ := h.at hc
      simp only [exec] at hn
      split at hn
      · cases hn
      · split at hn
        · cases op with
          | getOrInsert key => cases hn
          | contains key => cases hn
        · next box hbox =>
            obtain ⟨k, hk, hn⟩ := Option.map_eq_some_iff.1 hn
            split at hn
            · cases op with
              | getOrInsert key => cases hn
              | contains key => cases hn
            · next hne =>
                split at hn
                · cases hn
                · obtain hsize : i + 1 = P.size := by omega
                  have hp' := hp.snoc ⟨hbox, hk⟩ (Bool.eq_false_iff.2 hne)
                  rw [hsize] at hp'
                  exact hp'.others
  | load idx | cas idx =>
      simp only [exec] at hn
      split at hn
      · cases hn
      · obtain ⟨k, -, hn⟩ := Option.map_eq_some_iff.1 hn
        exact absurd hn (coldProbe_ne_panic _ _ _ _ _ _)

/-- The calls that have reported a full table found what the documentation says. -/
def St.reports (P : Params T) (s : St T) : Prop :=
  ∀ c op, s.calls c = .panicked op .full → s.others P op.key

theorem reports_step {s s' : St T} (h : Inv P s) (hr : s.reports P) {l : Label T}
    (hstep : step P ck s l = some s') : s'.reports P := by
  have hk := h.keeps hstep
  intro j op' hj'
  rcases step_cases hstep with ⟨c, op, -, hc, rfl⟩ | ⟨c, op, pc, n, -, hc, hn, rfl⟩
  · by_cases hjc : j = c
    · subst hjc
      rw [begin_self] at hj'
      cases hj'
    · rw [begin_of_ne s op hjc] at hj'
      exact others_mono hk (hr j op' hj')
  · by_cases hjc : j = c
    · subst hjc
      cases n with
      | panic why =>
          have he := (setCall_self s j (.panicked op why)).symm.trans hj'
          cases he
          exact others_mono hk (exec_full h hc hn)
      | goto | alloc | claim | ret => cases (setCall_self _ j _).symm.trans hj'
    · rw [apply_calls s c op n hjc] at hj'
      exact others_mono hk (hr j op' hj')

theorem reports_of_reaches [EquivBEq T] {Q : St T → Label T → Prop} {s : St T}
    (h : Lts.Reaches (step P ck) Q St.init s) : s.reports P := by
  suffices hI : Inv P s ∧ s.reports P from hI.2
  refine h.invariant (I := fun x => Inv P x ∧ x.reports P) ⟨Inv.init, fun c op hc => by cases hc⟩ ?_
  intro a b l hx _ hstep
  exact ⟨hx.1.step hstep, reports_step hx.1 hx.2 hstep⟩

/-- Where a call has returned, its key is in the table. -/
theorem not_others_of_returned {s : St T} (h : Inv P s) {c : Nat} {key : T} {r : Res}
    (hc : s.calls c = .returned (.getOrInsert key) r) : ¬ s.others P key := by
  intro ho
  obtain ⟨box, inserted, -, -, idx, k, hat, he⟩ := h.at hc
  obtain ⟨k', -, -, d, -, hidx, -⟩ := h.slot hat.1
  obtain ⟨box', k'', hat', hne⟩ := others_iff.1 ho idx (hidx ▸ index_lt P _ d)
  have hbox : box = box' := Option.some.inj (hat.1.symm.trans hat'.1)
  subst hbox
  have hkey : k = k'' := Option.some.inj (hat.2.symm.trans hat'.2)
  rw [hkey, hne] at he
  cases he

/-- A run in which call `c` is never past its first loop with the table full of
other keys, and none of its steps computes a sum that the build refuses: the call
has at most `2 N + 1` accesses, each of which it can make; it panics only to report
a table full of other keys, and returns only if the table is not. A call that does
get past its first loop there goes on in every continuation and never ends, and a
step that computes such a sum ends its call, whatever the table holds. -/
theorem getOrInsert_ends [EquivBEq T] (P : Params T) (ck : Bool) (c : Nat) :
    (∀ {ls : List (Label T)} {s : St T},
      Lts.Trace (step P ck)
        (fun s l => ¬ s.spins P c ∧ (l.runs c = true → ¬ (s.calls c).overflows P ck))
        St.init ls s →
      ls.countP (Label.runs c) ≤ 2 * P.size + 1 ∧
      (∀ op pc, s.calls c = .running op pc → (step P ck s (.run c)).isSome = true) ∧
      (∀ key why, s.calls c = .panicked (.getOrInsert key) why →
        why = .full ∧ s.others P key) ∧
      (∀ key r, s.calls c = .returned (.getOrInsert key) r → ¬ s.others P key)) ∧
    (∀ {Q : St T → Label T → Prop} {s : St T}, Lts.Reaches (step P ck) Q St.init s →
      s.spins P c → ∀ {s' : St T}, Lts.Reaches (step P ck) Q s s' →
      (∃ op pc, s'.calls c = .running op pc) ∧ (step P ck s' (.run c)).isSome = true) ∧
    ∀ {s s' : St T}, (s.calls c).overflows P ck → step P ck s (.run c) = some s' →
      ∃ op, s'.calls c = .panicked op .overflow := by
  refine ⟨?_, ?_, fun ho hs => step_overflow ho hs⟩
  · intro ls s ht
    obtain ⟨hinv, -⟩ := Inv.of_reaches Inv.init ht.reaches
    refine ⟨?_, fun op pc hc => step_isSome hinv hc, fun key why hc => ?_,
      fun key r hc => not_others_of_returned hinv hc⟩
    · have hle := ht.countP_le (I := Inv P) (p := Label.runs c) (μ := fun x => (x.calls c).left P)
        Inv.init (fun hx _ hs => hx.step hs) fun hx hq hs => left_step hx hq.1 hs
      have hinit : ((St.init : St T).calls c).left P = 2 * P.size + 1 := rfl
      omega
    · cases why with
      | full => exact ⟨rfl, reports_of_reaches ht.reaches c _ hc⟩
      | overflow =>
          have hnever : ∀ op, s.calls c ≠ .panicked op .overflow :=
            not_panicked (fun s l hq hl => ⟨fun hw => Panic.noConfusion hw, fun _ => hq.2 hl⟩)
              ht.reaches
          exact absurd hc (hnever _)
  · intro Q s hr hs s' hr'
    obtain ⟨hinv, -⟩ := Inv.of_reaches Inv.init hr
    obtain ⟨hinv', -⟩ := hinv.of_reaches hr'
    obtain ⟨key, hkey, -⟩ := spins_of_reaches hinv hs hr'
    obtain ⟨op, pc, hc⟩ := running_of_coldKey hkey
    exact ⟨⟨op, pc, hc⟩, step_isSome hinv' hc⟩

/-- A table of one slot. -/
def oneSlot : Params Nat := ⟨0, by decide, fun _ => 0, fun _ => rfl⟩

/-- Call 1 fills the table while call 0 holds on to the null slot it saw. -/
def overtaken : List (Label Nat) :=
  [.call 0 (.getOrInsert 7), .run 0, .call 1 (.getOrInsert 9), .run 1, .run 1, .run 1]

/-- Call 0 comes when the table is full already. -/
def tooLate : List (Label Nat) :=
  [.call 1 (.getOrInsert 9), .run 1, .run 1, .run 1, .call 0 (.getOrInsert 7), .run 0]

theorem getOrInsert_ends_oneSlot :
    (∃ s : St Nat, s.calls 0 = .panicked (.getOrInsert 7) .full ∧ s.others oneSlot 7 ∧
      tooLate.countP (Label.runs 0) ≤ 3) ∧
    ∃ s : St Nat, s.spins oneSlot 0 ∧
      ∀ s', Lts.Reaches (step oneSlot true) (fun _ _ => True) s s' →
        (∃ op pc, s'.calls 0 = .running op pc) ∧
        (step oneSlot true s' (.run 0)).isSome = true := by
  constructor
  · have hrun : (Lts.runs (step oneSlot true) (fun s l => ¬ s.spins oneSlot 0 ∧
        (l.runs 0 = true → ¬ (s.calls 0).overflows oneSlot true)) St.init tooLate).any
        (fun s => s.calls 0 == .panicked (.getOrInsert 7) .full) = true := by decide +kernel
    obtain ⟨s, ht, hc⟩ := Lts.exists_trace_of_any hrun
    obtain ⟨hcount, -, hpanic, -⟩ := (getOrInsert_ends oneSlot true 0).1 ht
    exact ⟨s, eq_of_beq hc, (hpanic 7 .full (eq_of_beq hc)).2, hcount⟩
  · have hrun : (Lts.runs (step oneSlot true) (fun _ _ => True) St.init overtaken).any
        (fun s => s.spins oneSlot 0) = true := by decide +kernel
    obtain ⟨s, hr, hs⟩ := Lts.exists_of_any hrun
    refine ⟨s, of_decide_eq_true hs, fun s' hr' => ?_⟩
    exact (getOrInsert_ends oneSlot true 0).2.1 hr (of_decide_eq_true hs) hr'

/-- Call 0 claims slot 1, which call 1 has to pass. -/
def lastSum : List (Label Nat) :=
  [.call 0 (.getOrInsert 9), .run 0, .run 0, .run 0, .call 1 (.getOrInsert 7), .run 1, .run 1]

/-- Neither a result nor the panic: the table is full of other keys, and from
there on call 0 has not ended in any state. And a panic without cause: one of two
slots is free, and the sum that leads to it does not fit. -/
theorem getOrInsert_probes_forever :
    (∃ s : St Nat, Lts.Reaches (step oneSlot true) (fun _ _ => True) St.init s ∧
      s.others oneSlot 7 ∧ s.calls 0 = .running (.getOrInsert 7) (.load 0) ∧
      ∀ s', Lts.Reaches (step oneSlot true) (fun _ _ => True) s s' →
        ∃ op pc, s'.calls 0 = .running op pc) ∧
    ∃ s : St Nat, Lts.Reaches (step lastHash true)
      (fun s _ => ¬ s.spins lastHash 1 ∧ ¬ s.full lastHash) St.init s ∧
      s.calls 1 = .panicked (.getOrInsert 7) .overflow ∧ s.slots 0 = none := by
  constructor
  · have hrun : (Lts.runs (step oneSlot true) (fun _ _ => True) St.init overtaken).any
        (fun s => decide (s.others oneSlot 7 ∧
          s.calls 0 = .running (.getOrInsert 7) (.load 0))) = true := by decide +kernel
    obtain ⟨s, hr, hs⟩ := Lts.exists_of_any hrun
    obtain ⟨ho, hc⟩ := of_decide_eq_true hs
    refine ⟨s, hr, ho, hc, fun s' hr' => ?_⟩
    have hspin : s.spins oneSlot 0 := ⟨7, by rw [hc]; rfl, ho⟩
    obtain ⟨key, hkey, -⟩ := spins_of_reaches (Inv.of_reaches Inv.init hr).1 hspin hr'
    exact running_of_coldKey hkey
  · exact Lts.exists_of_runs lastSum (by decide +kernel)

/-! ## Which slots the first loop visits -/

/-- The first `N` positions of a probe are a permutation of the slots. -/
theorem index_perm (P : Params T) (hash : Nat) :
    ((List.range P.size).map (P.index hash)).Perm (List.range P.size) := by
  have hinj : ∀ d ∈ List.range P.size, ∀ e ∈ List.range P.size,
      P.index hash d = P.index hash e → d = e := by
    intro d hd e he heq
    rw [← offset_index P hash (List.mem_range.1 hd), heq,
      offset_index P hash (List.mem_range.1 he)]
  have hnodup : ((List.range P.size).map (P.index hash)).Nodup :=
    List.Nodup.map_on (fun d hd e he => hinj d hd e he) List.nodup_range
  refine (List.perm_ext_iff_of_nodup hnodup List.nodup_range).2 fun idx => ?_
  rw [List.mem_map, List.mem_range]
  constructor
  · rintro ⟨d, -, rfl⟩
    exact index_lt P hash d
  · intro hidx
    obtain ⟨d, hd, he⟩ := exists_index P hash hidx
    exact ⟨d, List.mem_range.2 hd, he⟩

/-- The loop goes past position `i`. -/
def Passes (P : Params T) (hash : Nat) (content : Nat → Option T) (key : T) (i : Nat) : Prop :=
  ∃ k, content (P.index hash i) = some k ∧ (k == key) = false

variable {hash : Nat} {content : Nat → Option T} {key : T}

theorem hotLoop_succ {n i : Nat} (hfit : ¬ (ck = true ∧ 2 ^ 64 ≤ hash + i))
    (hp : Passes P hash content key i) :
    hotLoop P ck hash content key (n + 1) i = hotLoop P ck hash content key n (i + 1) := by
  obtain ⟨k, hk, hne⟩ := hp
  rw [hotLoop, if_neg hfit]
  simp only [hk, hne, Bool.false_eq_true, if_false]

theorem hotLoop_pass {n i : Nat} (hp : Passes P hash content key i) :
    hotLoop P false hash content key (n + 1) i = hotLoop P false hash content key n (i + 1) :=
  hotLoop_succ (fun h => Bool.noConfusion h.1) hp

/-- Where the loop stops it does so in either build. -/
theorem hotLoop_stop (checked : Bool) (n : Nat) {i : Nat} (hfit : hash + i < 2 ^ 64)
    (hp : ¬ Passes P hash content key i) :
    hotLoop P checked hash content key (n + 1) i = hotLoop P false hash content key (n + 1) i ∧
      hotLoop P checked hash content key (n + 1) i ≠ .overflow ∧
      hotLoop P checked hash content key (n + 1) i ≠ .full := by
  have hover : ∀ b : Bool, ¬ (b = true ∧ 2 ^ 64 ≤ hash + i) := fun b h => by omega
  simp only [hotLoop, if_neg (hover _)]
  cases hk : content (P.index hash i) with
  | none => exact ⟨rfl, Probe.noConfusion, Probe.noConfusion⟩
  | some k =>
      have he : (k == key) = true := by
        by_contra hne
        exact hp ⟨k, hk, Bool.eq_false_iff.2 hne⟩
      simp only [he, if_true]
      exact ⟨trivial, Probe.noConfusion, Probe.noConfusion⟩

/-- The sums of the last `n` iterations fit, as far as the loop gets. -/
def Fits (P : Params T) (hash : Nat) (content : Nat → Option T) (key : T) (n i : Nat) : Prop :=
  ∀ j, i ≤ j → j < i + n → (∀ e, i ≤ e → e < j → Passes P hash content key e) → hash + j < 2 ^ 64

theorem hotLoop_checked (P : Params T) (hash : Nat) (content : Nat → Option T) (key : T) :
    ∀ (n i : Nat),
    (hotLoop P true hash content key n i ≠ .overflow ↔ Fits P hash content key n i) ∧
    (Fits P hash content key n i →
      hotLoop P true hash content key n i = hotLoop P false hash content key n i) ∧
    (hotLoop P true hash content key n i = .full → ∀ j, i ≤ j → j < i + n →
      Passes P hash content key j) := by
  intro n
  induction n with
  | zero =>
      intro i
      refine ⟨⟨fun _ j h₁ h₂ => by omega, fun _ => Probe.noConfusion⟩, fun _ => rfl, ?_⟩
      intro _ j h₁ h₂
      omega
  | succ n ih =>
      intro i
      by_cases hfit : hash + i < 2 ^ 64
      · by_cases hp : Passes P hash content key i
        · -- The loop goes on, and so do the sums that have to fit.
          obtain ⟨hov, heq, hfull⟩ := ih (i + 1)
          have hiff : Fits P hash content key (n + 1) i ↔ Fits P hash content key n (i + 1) := by
            constructor
            · intro h j h₁ h₂ hall
              refine h j (by omega) (by omega) fun e he₁ he₂ => ?_
              rcases Nat.eq_or_lt_of_le he₁ with rfl | hlt
              · exact hp
              · exact hall e hlt he₂
            · intro h j h₁ h₂ hall
              rcases Nat.eq_or_lt_of_le h₁ with rfl | hlt
              · exact hfit
              · exact h j hlt (by omega) fun e he₁ he₂ => hall e (by omega) he₂
          rw [hotLoop_succ (fun h => absurd hfit (Nat.not_lt.2 h.2)) hp, hotLoop_pass hp, hiff]
          refine ⟨hov, heq, fun hf j h₁ h₂ => ?_⟩
          rcases Nat.eq_or_lt_of_le h₁ with rfl | hlt
          · exact hp
          · exact hfull hf j hlt (by omega)
        · obtain ⟨heq, hov, hfull⟩ := hotLoop_stop true n hfit hp
          refine ⟨⟨fun _ j h₁ _ hall => ?_, fun _ => hov⟩, fun _ => heq, fun hf => absurd hf hfull⟩
          rcases Nat.eq_or_lt_of_le h₁ with rfl | hlt
          · exact hfit
          · exact absurd (hall i (Nat.le_refl i) hlt) hp
      · have hover : hotLoop P true hash content key (n + 1) i = .overflow := by
          rw [hotLoop, if_pos ⟨rfl, Nat.le_of_not_lt hfit⟩]
        have hno : ¬ Fits P hash content key (n + 1) i := by
          intro h
          exact hfit (h i (Nat.le_refl i) (by omega) fun e h₁ h₂ => by omega)
        rw [hover]
        refine ⟨⟨fun h => absurd rfl h, fun h => absurd h hno⟩, fun h => absurd h hno, ?_⟩
        exact fun h => Probe.noConfusion h

/-- The sums fit when all of them do, or when the loop stops before. -/
theorem fits_iff : Fits P hash content key P.size 0 ↔
    hash + P.size ≤ 2 ^ 64 ∨
      ∃ i < P.size, hash + i < 2 ^ 64 ∧ ¬ Passes P hash content key i := by
  constructor
  · intro h
    by_contra hno
    obtain ⟨hbig, hpass⟩ := not_or.1 hno
    have hall : ∀ e, 0 ≤ e → e < 2 ^ 64 - hash → Passes P hash content key e := by
      intro e _ he
      by_contra hp
      exact hpass ⟨e, by omega, by omega, hp⟩
    have := h (2 ^ 64 - hash) (Nat.zero_le _) (by have := size_pos P; omega) hall
    omega
  · rintro (hle | ⟨i, hi, hfit, hstop⟩) j - hj hall
    · omega
    · have hji : j ≤ i := by
        refine Nat.le_of_not_lt fun hlt => ?_
        exact hstop (hall i (Nat.zero_le i) hlt)
      omega

/-- What the first loop is to do for a key with this hash on this table: no sum
overflows, so that the build does not matter; its positions are the slots, each
once; and it reports a full table only if every slot holds another key. -/
def Covers (P : Params T) (hash : Nat) (content : Nat → Option T) (key : T) : Prop :=
  hotLoop P true hash content key P.size 0 ≠ .overflow ∧
  hotLoop P true hash content key P.size 0 = hotLoop P false hash content key P.size 0 ∧
  ((List.range P.size).map (P.index hash)).Perm (List.range P.size) ∧
  (hotLoop P true hash content key P.size 0 = .full →
    ∀ idx < P.size, ∃ k, content idx = some k ∧ (k == key) = false)

/-- The first loop does so if and only if the hash is not within `N` of the end
of the word, or the loop stops before the sum gets there. -/
theorem covers_iff (P : Params T) (hash : Nat) (content : Nat → Option T) (key : T) :
    Covers P hash content key ↔
      hash + P.size ≤ 2 ^ 64 ∨
        ∃ i < P.size, hash + i < 2 ^ 64 ∧ ¬ Passes P hash content key i := by
  obtain ⟨hov, heq, hfull⟩ := hotLoop_checked P hash content key P.size 0
  rw [← fits_iff]
  refine ⟨fun h => hov.1 h.1, fun h => ⟨hov.2 h, heq h, index_perm P hash, fun hf idx hidx => ?_⟩⟩
  obtain ⟨d, hd, rfl⟩ := exists_index P hash hidx
  exact hfull hf d (Nat.zero_le d) (by omega)

/-- The second sum overflows although the table has a free slot. -/
theorem not_covers_lastHash :
    ¬ Covers lastHash (lastHash.hash 7) (fun idx => if idx = 1 then some 9 else none) 7 ∧
      hotLoop lastHash false (lastHash.hash 7) (fun idx => if idx = 1 then some 9 else none) 7
        lastHash.size 0 = .null 0 := by
  have hover : hotLoop lastHash true (lastHash.hash 7)
      (fun idx => if idx = 1 then some 9 else none) 7 lastHash.size 0 = .overflow := by decide
  exact ⟨fun h => h.1 hover, by decide⟩

/-! ## The first loop inside a run -/

omit [BEq T] in
theorem probe_setCall (s : St T) (c : Nat) (x : Call T) (key : T) (r : Probe) :
    r.apply (s.setCall c x) c key = r.apply s c key := by
  cases r <;> simp only [Probe.apply, Next.apply, St.giveBack, St.setCall, Function.update_idem]

/-- The iteration whose sum the build refuses. -/
theorem step_hot_overflow {s : St T} {c i : Nat} {key : T} (n : Nat)
    (hc : s.calls c = .running (.getOrInsert key) (.hot i))
    (hover : ck = true ∧ 2 ^ 64 ≤ P.hash key + i) :
    step P ck s (.run c) =
      some ((hotLoop P ck (P.hash key) s.content key (n + 1) i).apply s c key) := by
  simp only [step, hc, exec, Op.key, hotLoop, if_pos hover, Option.map_some]
  rfl

/-- One iteration in which the loop stops. -/
theorem step_hot_stop {s : St T} {c i : Nat} {key : T} (n : Nat)
    (hbox : ∀ {idx box : Nat}, s.slots idx = some box → ∃ k, s.boxes box = some k)
    (hc : s.calls c = .running (.getOrInsert key) (.hot i))
    (hfit : ¬ (ck = true ∧ 2 ^ 64 ≤ P.hash key + i))
    (hp : ¬ Passes P (P.hash key) s.content key i) :
    step P ck s (.run c) =
      some ((hotLoop P ck (P.hash key) s.content key (n + 1) i).apply s c key) := by
  simp only [step, hc, exec, Op.key, hotLoop, if_neg hfit]
  cases hs : s.slots (P.index (P.hash key) i) with
  | none =>
      have hcont : s.content (P.index (P.hash key) i) = none := by rw [St.content, hs]; rfl
      simp only [hcont]
      rfl
  | some box =>
      obtain ⟨k, hk⟩ := hbox hs
      have hcont : s.content (P.index (P.hash key) i) = some k := by
        rw [St.content, hs]
        exact hk
      have he : (k == key) = true := by
        by_contra hne
        exact hp ⟨k, hcont, Bool.eq_false_iff.2 hne⟩
      simp only [hcont, hk, Option.map_some, he, if_true, Probe.apply, hs, Option.getD_some]
      rfl

/-- One iteration in which it does not. -/
theorem step_hot_pass {s : St T} {c i : Nat} {key : T}
    (hc : s.calls c = .running (.getOrInsert key) (.hot i))
    (hfit : ¬ (ck = true ∧ 2 ^ 64 ≤ P.hash key + i))
    (hp : Passes P (P.hash key) s.content key i) :
    step P ck s (.run c) = some (if i + 1 < P.size
      then s.setCall c (.running (.getOrInsert key) (.hot (i + 1)))
      else s.setCall c (.panicked (.getOrInsert key) .full)) := by
  obtain ⟨k, hcont, hne⟩ := hp
  obtain ⟨box, hs, hk⟩ := content_eq_some.1 hcont
  simp only [step, hc, exec, Op.key, if_neg hfit, hs, hk, Option.map_some, hne,
    Bool.false_eq_true, if_false]
  split <;> rfl

/-- A call that nobody interrupts ends its first loop as `hotLoop` says. -/
theorem reaches_hotLoop {c : Nat} {key : T} : ∀ {n i : Nat} {s : St T}, i + (n + 1) = P.size →
    (∀ {idx box : Nat}, s.slots idx = some box → ∃ k, s.boxes box = some k) →
    s.calls c = .running (.getOrInsert key) (.hot i) →
    Lts.Reaches (step P ck) (fun _ l => l = .run c) s
      ((hotLoop P ck (P.hash key) s.content key (n + 1) i).apply s c key) := by
  intro n
  induction n with
  | zero =>
      intro i s hi hbox hc
      by_cases hfit : ck = true ∧ 2 ^ 64 ≤ P.hash key + i
      · exact .tail .refl rfl (step_hot_overflow 0 hc hfit)
      · by_cases hp : Passes P (P.hash key) s.content key i
        · have hstep := step_hot_pass hc hfit hp
          rw [if_neg (show ¬ i + 1 < P.size by omega)] at hstep
          rw [hotLoop_succ hfit hp, hotLoop]
          exact .tail .refl rfl hstep
        · exact .tail .refl rfl (step_hot_stop 0 hbox hc hfit hp)
  | succ n ih =>
      intro i s hi hbox hc
      by_cases hfit : ck = true ∧ 2 ^ 64 ≤ P.hash key + i
      · exact .tail .refl rfl (step_hot_overflow (n + 1) hc hfit)
      · by_cases hp : Passes P (P.hash key) s.content key i
        · have hstep := step_hot_pass hc hfit hp
          rw [if_pos (show i + 1 < P.size by omega)] at hstep
          have hbox' : ∀ {idx box : Nat}, (s.setCall c (.running (.getOrInsert key)
              (.hot (i + 1)))).slots idx = some box → ∃ k, s.boxes box = some k := hbox
          have hrest := ih (by omega) hbox' (setCall_self s c _)
          rw [probe_setCall] at hrest
          rw [hotLoop_succ hfit hp]
          exact Lts.Reaches.trans (.tail .refl rfl hstep) hrest
        · exact .tail .refl rfl (step_hot_stop (n + 1) hbox hc hfit hp)

end Cdpt.HashSet
