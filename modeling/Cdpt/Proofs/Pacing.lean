import Cdpt.Model.Pacing

/-!
# Where the pacing arithmetic is defined

Every subtraction is of an earlier sample from a later one, or guarded; every
divisor but the elapsed milliseconds is bounded away from zero by `clamp` or by
the branch it stands in. What is left are the product of heap usage and
allocation rate, the megabyte per thread, the difference of the rates as signed
numbers, and the conversion of the minimum headroom to a double.

Between two calls little has to be remembered (`Inv`): the packed headroom is
what `pack` made of some setting, so that `unpack` gives back a divisor or a
number of megabytes between 1 and 1024, and the last heartbeat did not see more
than the counters have shown since. Nothing is said about the smoothed rates:
`smooth` is a float computation whose value may be anything that fits the word,
and the result has to hold for every pair of them. So each call is taken by
itself, from any state in which `Inv` holds, and `step_iff` says for each of the
four kinds exactly when it goes through (`paced`). A run keeps `Inv`.

The limit that `record_collection_stats` stores contains a square root, of which
only the size matters: the product is below the word, it has been divided by ten,
and its root is far below the headroom that may have to be represented. That is
why the sum with the heap usage always fits, and why the limit leaves the minimum
headroom unless that loses bits as a double.
-/

namespace Cdpt.Pacing

/-! ## Checked operations -/

theorem add_of_lt {a b : Nat} (h : a + b < 2 ^ 64) : add a b = some (a + b) := if_pos h

theorem sub_of_le {a b : Nat} (h : b ≤ a) : sub a b = some (a - b) := if_pos h

theorem mul_of_lt {a b : Nat} (h : a * b < 2 ^ 64) : mul a b = some (a * b) := if_pos h

theorem mul_of_not_lt {a b : Nat} (h : ¬ a * b < 2 ^ 64) : mul a b = none := if_neg h

theorem eq_of_mul {a b c : Nat} (h : mul a b = some c) : a * b = c := by
  obtain ⟨-, he⟩ := Option.ite_none_right_eq_some.1 h
  exact Option.some.inj he

theorem lt_of_add {a b c : Nat} (h : add a b = some c) : a + b < 2 ^ 64 :=
  (Option.ite_none_right_eq_some.1 h).1

theorem div_of_ne {a b : Nat} (h : b ≠ 0) : div a b = some (a / b) := if_neg h

/-! ## The packed headroom -/

theorem clamp_bounds (n : Nat) : 1 ≤ clamp n ∧ clamp n ≤ 1024 := by
  rw [clamp]
  omega

theorem pack_fixed (mib : Nat) :
    (HeapHeadroom.FixedMiB mib).pack = some (clamp mib * 1024 * 1024) := by
  obtain ⟨-, hle⟩ := clamp_bounds mib
  rw [HeapHeadroom.pack, mul_of_lt (by omega), Option.bind_some, mul_of_lt (by omega)]

/-- What `pack` stores, `unpack` gives back clamped. -/
theorem unpack_pack {h : HeapHeadroom} {bits : Nat} (hp : h.pack = some bits) :
    (∃ mib, 1 ≤ mib ∧ mib ≤ 1024 ∧ HeapHeadroom.unpack bits = .FixedMiB mib) ∨
    ∃ d, 1 ≤ d ∧ d ≤ 1024 ∧ HeapHeadroom.unpack bits = .Proportional d := by
  cases h with
  | FixedMiB n =>
      obtain ⟨h1, h2⟩ := clamp_bounds n
      rw [pack_fixed, Option.some.injEq] at hp
      subst hp
      refine .inl ⟨clamp n, h1, h2, ?_⟩
      have hand : clamp n * 1024 * 1024 &&& headroomProportionalBit = 0 := by
        rw [headroomProportionalBit, Nat.and_two_pow, Nat.testBit_lt_two_pow (by omega)]
        rfl
      rw [HeapHeadroom.unpack, if_neg (by rw [hand]; decide)]
      congr 1
      omega
  | Proportional n =>
      obtain ⟨h1, h2⟩ := clamp_bounds n
      rw [HeapHeadroom.pack, Option.some.injEq] at hp
      subst hp
      refine .inr ⟨clamp n, h1, h2, ?_⟩
      have hbit : (clamp n ||| headroomProportionalBit) &&& headroomProportionalBit ≠ 0 := by
        rw [headroomProportionalBit, Nat.and_two_pow, Nat.testBit_or, Nat.testBit_two_pow_self,
          Bool.or_true]
        decide
      have hlow : (clamp n ||| headroomProportionalBit) &&&
          (2 ^ 64 - 1 - headroomProportionalBit) = clamp n := by
        have hmask : 2 ^ 64 - 1 - headroomProportionalBit = 2 ^ 63 - 1 := by decide
        rw [hmask, Nat.and_two_pow_sub_one_eq_mod, headroomProportionalBit,
          Nat.or_two_pow_eq_add_of_lt (by omega), Nat.add_mod_right, Nat.mod_eq_of_lt (by omega)]
      rw [HeapHeadroom.unpack, if_pos hbit, hlow]

/-! ## The parts of a call -/

/-- The sample can be divided by the time that has passed. -/
def clockOk (ms : Nat) : Prop := ms = 0 ∨ ms % 2 ^ 64 ≠ 0

instance (ms : Nat) : Decidable (clockOk ms) := inferInstanceAs (Decidable (_ ∨ _))

/-- The smoothed allocation rate after a heartbeat. -/
def HeartbeatStats.newAllocRate (hb : HeartbeatStats) (ms alloc : Nat) : Nat :=
  if ms = 0 then hb.allocPerMsSmooth
  else smooth hb.allocPerMsSmooth ((alloc - hb.totalAlloc) / (ms % 2 ^ 64))

theorem heartbeat_eq_none {hb : HeartbeatStats} {ms alloc reclm : Nat}
    (ha : hb.totalAlloc ≤ alloc) (hc : ¬ clockOk ms) : heartbeat hb ms alloc reclm = none := by
  obtain ⟨hne, hzero⟩ := not_or.1 hc
  rw [heartbeat, if_neg hne, sub_of_le ha]
  simp only [Option.bind_eq_bind, Option.bind_some, div, if_pos (Decidable.not_not.1 hzero),
    Option.bind_none]

theorem heartbeat_eq_some {hb : HeartbeatStats} {ms alloc reclm : Nat}
    (ha : hb.totalAlloc ≤ alloc) (hr : reclm ≤ alloc) (hc : clockOk ms) :
    ∃ hb', heartbeat hb ms alloc reclm = some hb' ∧
      hb'.allocPerMsSmooth = hb.newAllocRate ms alloc ∧ hb'.totalAlloc ≤ alloc := by
  rcases Decidable.em (ms = 0) with hms | hms
  · refine ⟨hb, if_pos hms, ?_, ha⟩
    rw [HeartbeatStats.newAllocRate, if_pos hms]
  · have hne : ms % 2 ^ 64 ≠ 0 := hc.resolve_left hms
    refine ⟨⟨alloc - reclm, alloc, (alloc - hb.totalAlloc) / (ms % 2 ^ 64),
      smooth hb.allocPerMsSmooth ((alloc - hb.totalAlloc) / (ms % 2 ^ 64))⟩, ?_, ?_,
      Nat.le_refl alloc⟩
    · rw [heartbeat, if_neg hms, sub_of_le ha]
      simp only [Option.bind_eq_bind, Option.bind_some, div_of_ne hne, sub_of_le hr]
    · rw [HeartbeatStats.newAllocRate, if_neg hms]

/-- The headroom that is set can be evaluated, and stays small. -/
theorem headroomMin_eq_some {h : HeapHeadroom} {bits heapUsage : Nat} (hp : h.pack = some bits)
    (hu : heapUsage < 2 ^ 63) : ∃ m, headroomMin bits heapUsage = some m ∧ m ≤ 2 ^ 63 := by
  rcases unpack_pack hp with ⟨mib, h1, h2, hun⟩ | ⟨d, h1, h2, hun⟩
  · refine ⟨mib * 1024 * 1024, ?_, by omega⟩
    simp only [headroomMin, hun]
    rw [mul_of_lt (by omega), Option.bind_some, mul_of_lt (by omega)]
  · refine ⟨max (heapUsage / d) (16 * 1024), ?_, ?_⟩
    · simp only [headroomMin, hun]
      rw [div_of_ne (by omega), Option.map_some]
    · have := Nat.div_le_self heapUsage d
      omega

/-- The headroom that is added leaves room in the word. -/
theorem sqrtMax_le {x m : Nat} (hx : x < 2 ^ 61) (hm : m ≤ 2 ^ 63) : sqrtMax x m ≤ 2 ^ 63 := by
  have hround : F64.round x ≤ 2 ^ 61 := F64.round_le (Nat.le_of_lt hx)
  have hsqrt : F64.sqrt (F64.round x) ≤ 2 ^ 32 := F64.sqrt_le (by omega)
  have hmax : F64.round m ≤ 2 ^ 63 := F64.round_le hm
  rw [sqrtMax, F64.toU64]
  omega

/-- The headroom reaches the minimum unless the conversion of that rounds down. -/
theorem le_sqrtMax_iff {x m : Nat} (hx : x < 2 ^ 61) (hm : m ≤ 2 ^ 63) :
    m ≤ sqrtMax x m ↔ m ≤ F64.round m := by
  have hround : F64.round x ≤ 2 ^ 61 := F64.round_le (Nat.le_of_lt hx)
  have hsqrt : F64.sqrt (F64.round x) ≤ 2 ^ 32 := F64.sqrt_le (by omega)
  have hmax : F64.round m ≤ 2 ^ 63 := F64.round_le hm
  constructor
  · intro h
    rcases Nat.lt_or_ge m (2 ^ 53) with hlt | hge
    · exact Nat.le_of_eq (F64.round_of_lt hlt).symm
    · rw [sqrtMax, F64.toU64] at h
      omega
  · intro h
    rw [sqrtMax, F64.toU64]
    omega

/-! ## One call -/

/-- What the calls rely on; the smoothed rates can be anything. -/
structure Inv (s : St) : Prop where
  packed : ∃ h : HeapHeadroom, h.pack = some s.headroom
  seen : s.hb.totalAlloc ≤ s.lastAlloc

theorem Inv.init (alloc reclm : Nat) : Inv (St.init alloc reclm) where
  packed := ⟨.FixedMiB 1, pack_fixed 1⟩
  seen := Nat.le_refl alloc

def Collection.heapUsage (r : Collection) : Nat := r.allocAtEnd - r.reclAtEnd

/-- The condition of `record_collection_stats`. -/
def Collection.paced (s : St) (r : Collection) : Prop :=
  clockOk r.hbMs ∧
    if s.newReclmRate r = 0 then r.heapUsage + r.activeCount * 1024 * 1024 < 2 ^ 64
    else r.heapUsage * s.hb.newAllocRate r.hbMs r.hbAlloc < 2 ^ 64 ∧
      ∀ m ∈ headroomMin s.headroom r.heapUsage, m ≤ F64.round m

instance (s : St) (r : Collection) : Decidable (r.paced s) :=
  inferInstanceAs (Decidable (_ ∧ _))

/-- The difference of the rates, where it is taken, is an `isize`. -/
def ratesOk (s : St) (enabled requested : Bool) (alloc reclm : Nat) : Prop :=
  enabled = false ∨ requested = true ∨ s.desiredHeapLimit < alloc - reclm ∨
    -2 ^ 63 ≤ toIsize s.hb.allocPerMsSmooth - toIsize s.reclmPerMsSmooth ∧
      toIsize s.hb.allocPerMsSmooth - toIsize s.reclmPerMsSmooth < 2 ^ 63

def paced (s : St) : Label → Prop
  | .heartbeat ms _ _ => clockOk ms
  | .recordCollectionStats r => r.paced s
  | .isCollectionNecessary enabled requested alloc reclm =>
      ratesOk s enabled requested alloc reclm
  | .setHeapHeadroom _ => True

/-- The limit leaves the configured minimum, unless nothing was reclaimed. -/
def leavesRoom (s s' : St) : Label → Prop
  | .recordCollectionStats r => s.newReclmRate r ≠ 0 →
      ∀ m ∈ headroomMin s.headroom r.heapUsage, r.heapUsage + m ≤ s'.desiredHeapLimit
  | _ => True

theorem heapIsFull_isSome (s : St) (alloc reclm : Nat) :
    (heapIsFull s alloc reclm).isSome = true ↔ ratesOk s true false alloc reclm := by
  by_cases hlt : s.desiredHeapLimit < alloc - reclm
  · have hok : ratesOk s true false alloc reclm := .inr (.inr (.inl hlt))
    simp only [heapIsFull, if_pos hlt, Option.isSome_some, hok]
  · by_cases hr : -2 ^ 63 ≤ toIsize s.hb.allocPerMsSmooth - toIsize s.reclmPerMsSmooth ∧
        toIsize s.hb.allocPerMsSmooth - toIsize s.reclmPerMsSmooth < 2 ^ 63
    · have hok : ratesOk s true false alloc reclm := .inr (.inr (.inr hr))
      refine iff_of_true ?_ hok
      simp only [heapIsFull, if_neg hlt, isub, if_pos hr, Option.bind_eq_bind, Option.bind_some]
      split
      · rfl
      · split
        · rfl
        · next hneg hzero =>
            have hne : (toIsize s.hb.allocPerMsSmooth - toIsize s.reclmPerMsSmooth).toNat ≠ 0 := by
              omega
            rw [sub_of_le (Nat.le_of_not_lt hlt), Option.bind_some, div_of_ne hne]
            rfl
    · refine iff_of_false ?_ ?_
      · simp only [heapIsFull, if_neg hlt, isub, if_neg hr, Option.bind_eq_bind, Option.bind_none,
          Option.isSome_none]
        exact Bool.false_ne_true
      · rintro (h | h | h | h)
        · cases h
        · cases h
        · exact hlt h
        · exact hr h

theorem isCollectionNecessary_isSome (s : St) (enabled requested : Bool) (alloc reclm : Nat) :
    (isCollectionNecessary s enabled requested alloc reclm).isSome = true ↔
      ratesOk s enabled requested alloc reclm := by
  cases enabled with
  | false => exact iff_of_true rfl (.inl rfl)
  | true =>
      cases requested with
      | true => exact iff_of_true rfl (.inr (.inl rfl))
      | false =>
          rw [← heapIsFull_isSome]
          simp only [isCollectionNecessary, Bool.true_eq_false, Bool.false_eq_true, if_false,
            Option.isSome_map]

/-- What `record_collection_stats` adds to the heap usage. -/
def St.extra (s : St) (r : Collection) (allocRate : Nat) : Option Nat :=
  if s.newReclmRate r = 0 then (mul r.activeCount 1024).bind fun n => mul n 1024
  else (headroomMin s.headroom r.heapUsage).bind fun m =>
    (mul r.heapUsage allocRate).bind fun x => (div x (s.newReclmRate r)).bind fun x =>
      (div x 10).bind fun x => some (sqrtMax x m)

theorem recordCollectionStats_eq {s : St} {r : Collection} (h : Inv s) (hs : r.sampled s)
    (hc : clockOk r.hbMs) : ∃ hb, hb.totalAlloc ≤ r.hbAlloc ∧
      recordCollectionStats s r =
        (s.extra r (s.hb.newAllocRate r.hbMs r.hbAlloc)).bind fun extra =>
          (add r.heapUsage extra).bind fun limit => some { s with
            hb := hb
            reclmPerMsSmooth := s.newReclmRate r
            collTimeMsSmooth := smooth s.collTimeMsSmooth r.collTimeMs
            desiredHeapLimit := limit
            lastAlloc := r.hbAlloc
            lastReclm := r.hbReclm } := by
  obtain ⟨⟨halloc, -, hle, -⟩, hstart, hlater, -, hbr, -⟩ := hs
  have hseen := h.seen
  have hfirst : s.hb.totalAlloc ≤ r.hbAlloc := by omega
  obtain ⟨hb, he, hrate, htot⟩ := heartbeat_eq_some hfirst hbr hc
  refine ⟨hb, htot, ?_⟩
  rw [recordCollectionStats, sub_of_le hstart, he, sub_of_le hle, ← hrate]
  simp only [Option.bind_eq_bind, Option.bind_some, St.extra, Collection.heapUsage]
  split
  · rfl
  · simp only [Option.bind_assoc, Option.bind_some]

theorem extra_eq_some {s : St} {r : Collection} (h : Inv s) (hs : r.sampled s) {rate : Nat}
    (hne : s.newReclmRate r ≠ 0) (hlt : r.heapUsage * rate < 2 ^ 64) :
    ∃ m x, headroomMin s.headroom r.heapUsage = some m ∧ m ≤ 2 ^ 63 ∧ x < 2 ^ 61 ∧
      s.extra r rate = some (sqrtMax x m) := by
  obtain ⟨⟨-, -, -, -⟩, -, hlater, -, -, hbound⟩ := hs
  have husage : r.heapUsage < 2 ^ 63 := by
    rw [Collection.heapUsage]
    omega
  obtain ⟨b, hb⟩ := h.packed
  obtain ⟨m, hm, hle⟩ := headroomMin_eq_some hb husage
  refine ⟨m, r.heapUsage * rate / s.newReclmRate r / 10, hm, hle, ?_, ?_⟩
  · have hdiv := Nat.div_le_self (r.heapUsage * rate) (s.newReclmRate r)
    omega
  · rw [St.extra, if_neg hne, hm, Option.bind_some, mul_of_lt hlt, Option.bind_some,
      div_of_ne hne, Option.bind_some, div_of_ne (by decide), Option.bind_some]

theorem recordCollectionStats_iff {s : St} {r : Collection} (h : Inv s) (hs : r.sampled s) :
    (∃ s', recordCollectionStats s r = some s' ∧
      leavesRoom s s' (.recordCollectionStats r)) ↔ r.paced s := by
  have hlater := hs.2.2.1
  have husage : r.heapUsage < 2 ^ 63 := by
    have := hs.2.2.2.2.2
    rw [Collection.heapUsage]
    omega
  by_cases hc : clockOk r.hbMs
  · obtain ⟨hb, -, heq⟩ := recordCollectionStats_eq h hs hc
    rw [heq, Collection.paced]
    by_cases hz : s.newReclmRate r = 0
    · -- Nothing was reclaimed: a megabyte for each thread.
      rw [if_pos hz, St.extra, if_pos hz]
      constructor
      · rintro ⟨s', hs', -⟩
        obtain ⟨x, hx, hs'⟩ := Option.bind_eq_some_iff.1 hs'
        obtain ⟨y, hy, hx⟩ := Option.bind_eq_some_iff.1 hx
        obtain ⟨limit, hlimit, -⟩ := Option.bind_eq_some_iff.1 hs'
        have hsum := lt_of_add hlimit
        rw [← eq_of_mul hx, ← eq_of_mul hy] at hsum
        exact ⟨hc, hsum⟩
      · rintro ⟨-, hsum⟩
        rw [mul_of_lt (by omega), Option.bind_some, mul_of_lt (by omega), Option.bind_some,
          add_of_lt hsum]
        exact ⟨_, rfl, fun hne => absurd hz hne⟩
    · rw [if_neg hz]
      by_cases hlt : r.heapUsage * s.hb.newAllocRate r.hbMs r.hbAlloc < 2 ^ 64
      · obtain ⟨m, x, hm, hmle, hx, hextra⟩ := extra_eq_some h hs hz hlt
        have hle := sqrtMax_le hx hmle
        rw [hextra, Option.bind_some, add_of_lt (by omega), Option.bind_some]
        constructor
        · rintro ⟨s', hs', hroom⟩
          refine ⟨hc, hlt, fun m' hm' => ?_⟩
          rw [hm] at hm'
          cases hm'
          have := hroom hz m hm
          rw [← Option.some.inj hs'] at this
          exact (le_sqrtMax_iff hx hmle).1 (Nat.le_of_add_le_add_left this)
        · rintro ⟨-, -, hround⟩
          refine ⟨_, rfl, fun _ m' hm' => ?_⟩
          rw [hm] at hm'
          cases hm'
          exact Nat.add_le_add_left ((le_sqrtMax_iff hx hmle).2 (hround m hm)) _
      · refine iff_of_false ?_ fun hp => hlt hp.2.1
        rintro ⟨s', hs', -⟩
        rw [St.extra, if_neg hz, mul_of_not_lt hlt] at hs'
        obtain ⟨x, hx, -⟩ := Option.bind_eq_some_iff.1 hs'
        obtain ⟨m, -, hx⟩ := Option.bind_eq_some_iff.1 hx
        cases hx
  · refine iff_of_false ?_ fun hp => hc hp.1
    rintro ⟨s', hs', -⟩
    have hseen := h.seen
    have halloc := hs.1.1
    rw [recordCollectionStats, heartbeat_eq_none (by omega) hc, sub_of_le hs.2.1] at hs'
    cases hs'

/-- A call of either kind goes through, and leaves the configured minimum,
exactly when the condition for it holds. -/
theorem step_iff {s : St} (h : Inv s) {l : Label} (hs : sampled s l) :
    (∃ s', step s l = some s' ∧ leavesRoom s s' l) ↔ paced s l := by
  cases l with
  | heartbeat ms alloc reclm =>
      obtain ⟨halloc, -, hle, -⟩ := hs
      have ha := Nat.le_trans h.seen halloc
      by_cases hc : clockOk ms
      · obtain ⟨hb, he, -⟩ := heartbeat_eq_some ha hle hc
        exact iff_of_true ⟨_, by rw [step, he]; rfl, trivial⟩ hc
      · refine iff_of_false ?_ hc
        rintro ⟨s', hs', -⟩
        rw [step, heartbeat_eq_none ha hc] at hs'
        cases hs'
  | recordCollectionStats r => exact recordCollectionStats_iff h hs
  | isCollectionNecessary enabled requested alloc reclm =>
      rw [paced, ← isCollectionNecessary_isSome, Option.isSome_iff_exists]
      constructor
      · rintro ⟨s', hs', -⟩
        obtain ⟨x, hx, -⟩ := Option.map_eq_some_iff.1 hs'
        exact ⟨x, hx⟩
      · rintro ⟨x, hx⟩
        exact ⟨x.2, by rw [step, hx]; rfl, trivial⟩
  | setHeapHeadroom headroom =>
      refine iff_of_true ?_ trivial
      cases headroom with
      | FixedMiB mib => exact ⟨_, by rw [step, pack_fixed]; rfl, trivial⟩
      | Proportional d => exact ⟨_, rfl, trivial⟩

/-! ## Runs -/

theorem Inv.step {s s' : St} (h : Inv s) {l : Label} (hs : sampled s l)
    (hstep : Pacing.step s l = some s') : Inv s' := by
  have hseen := h.seen
  cases l with
  | heartbeat ms alloc reclm =>
      obtain ⟨halloc, -, hle, -⟩ := hs
      obtain ⟨hb, he, rfl⟩ := Option.map_eq_some_iff.1 hstep
      have hc : clockOk ms := by
        by_contra hc
        rw [heartbeat_eq_none (Nat.le_trans hseen halloc) hc] at he
        cases he
      obtain ⟨hb', he', -, htot⟩ := heartbeat_eq_some (Nat.le_trans hseen halloc) hle hc
      cases he.symm.trans he'
      exact ⟨h.packed, htot⟩
  | recordCollectionStats r =>
      have hc : clockOk r.hbMs := by
        by_contra hc
        have hlater := hs.2.2.1
        have halloc := hs.1.1
        rw [Pacing.step, recordCollectionStats, heartbeat_eq_none (by omega) hc,
          sub_of_le hs.2.1] at hstep
        cases hstep
      obtain ⟨hb, htot, heq⟩ := recordCollectionStats_eq h hs hc
      rw [Pacing.step, heq] at hstep
      obtain ⟨x, -, hstep⟩ := Option.bind_eq_some_iff.1 hstep
      obtain ⟨limit, -, hstep⟩ := Option.bind_eq_some_iff.1 hstep
      cases hstep
      exact ⟨h.packed, htot⟩
  | isCollectionNecessary enabled requested alloc reclm =>
      obtain ⟨x, hx, rfl⟩ := Option.map_eq_some_iff.1 hstep
      rw [isCollectionNecessary] at hx
      split at hx
      · cases hx
        exact ⟨h.packed, hseen⟩
      · split at hx
        · cases hx
          exact ⟨h.packed, hseen⟩
        · obtain ⟨b, -, rfl⟩ := Option.map_eq_some_iff.1 hx
          exact ⟨h.packed, Nat.le_trans hseen hs.1⟩
  | setHeapHeadroom headroom =>
      obtain ⟨bits, hbits, rfl⟩ := Option.map_eq_some_iff.1 hstep
      exact ⟨⟨headroom, hbits⟩, hseen⟩

/-- In every state that calls lead to from one whose headroom was set by a call
(`Inv`, as in the state `collector_loop` starts in, with any smoothed rates), a
call on further samples goes through without an integer failure, and a limit it
stores leaves the configured minimum, if and only if: the heap usage times the
smoothed allocation rate fits the word, or nothing was reclaimed and a megabyte
per thread fits; the minimum headroom does not round down as a double; the time
since the last heartbeat is not a multiple of `2 ^ 64` ms; and the difference of
the smoothed rates is an `isize` where it is taken. -/
theorem pacing_total {s₀ s : St} (h₀ : Inv s₀) (hr : Lts.Reaches step sampled s₀ s) {l : Label}
    (hs : sampled s l) : (∃ s', step s l = some s' ∧ leavesRoom s s' l) ↔ paced s l :=
  step_iff (hr.invariant h₀ fun hx hq hstep => hx.step hq hstep) hs

/-- A tebibyte that was allocated at 16 MiB a millisecond. -/
def steepHeap : List Label := [.heartbeat 65536 (2 ^ 40) 0]

/-- The first collection after that reclaims a mebibyte in a millisecond. -/
def steepCollection : Collection := ⟨1, 0, 2 ^ 40 + 2 ^ 20, 2 ^ 20, 0, 2 ^ 40 + 2 ^ 20, 2 ^ 20, 8⟩

/-- Rates of five bytes and of seven are measured already. -/
def measured : St := { St.init 0 0 with hb := ⟨0, 0, 3, 5⟩, reclmPerMsSmooth := 7 }

/-- A collection that leaves a gibibyte of the tebibyte. -/
def longCollection : Collection :=
  ⟨256, 0, 2 ^ 40 + 2 ^ 20, 2 ^ 40 - 2 ^ 30, 1, 2 ^ 40 + 2 ^ 21, 2 ^ 40 - 2 ^ 30, 8⟩

theorem pacing_total_steepHeap : ∃ s s', Lts.Reaches step sampled measured s ∧
    s.newReclmRate longCollection ≠ 0 ∧ 0 < s.hb.allocPerMsSmooth ∧
    step s (.recordCollectionStats longCollection) = some s' ∧
    2 ^ 30 + 2 ^ 20 + 2 ^ 20 ≤ s'.desiredHeapLimit := by
  have hrun : (Lts.runs step sampled measured steepHeap).any (fun s =>
      decide (s.newReclmRate longCollection ≠ 0 ∧ 0 < s.hb.allocPerMsSmooth ∧
        headroomMin s.headroom longCollection.heapUsage = some (2 ^ 20) ∧
        longCollection.sampled s ∧ longCollection.paced s)) = true := by decide +kernel
  obtain ⟨s, hr, hs⟩ := Lts.exists_of_any hrun
  obtain ⟨hne, halloc, hmin, hsampled, hpaced⟩ := of_decide_eq_true hs
  have hinv : Inv measured := ⟨⟨.FixedMiB 1, pack_fixed 1⟩, Nat.le_refl 0⟩
  obtain ⟨s', hstep, hroom⟩ := (pacing_total (l := .recordCollectionStats longCollection)
    hinv hr hsampled).2 hpaced
  exact ⟨s, s', hr, hne, halloc, hstep, hroom hne _ hmin⟩

/-- The product of heap usage and allocation rate is `2 ^ 64`. -/
theorem pacing_overflows : ∃ s, Lts.Reaches step sampled (St.init 0 0) s ∧
    steepCollection.sampled s ∧ step s (.recordCollectionStats steepCollection) = none := by
  have hrun : (Lts.runs step sampled (St.init 0 0) steepHeap).any
      (fun s => decide (steepCollection.sampled s ∧
        step s (.recordCollectionStats steepCollection) = none)) = true := by decide +kernel
  obtain ⟨s, hr, hs⟩ := Lts.exists_of_any hrun
  exact ⟨s, hr, of_decide_eq_true hs⟩

end Cdpt.Pacing
