import Cdpt.Lib.Sums
import Cdpt.Model.Unroot
import Cdpt.Proofs.Derive

/-!
# A cell gives up its root contribution once

`unroot` decrements the root count of the pointee without looking at the metadata of
the cell, so it is the program that has to see to it that a cell is moved into the
managed heap once: the value of an allocation is to name its cells once each, none
of them in the managed heap before and none owned outside afterwards. Then the cells
that say `Rooted` are those outside the managed heap, the root count of an object is
the number of them that point to it, and no decrement finds a zero.

The count equation (`Counts`) and the ownership of the cells (`Inv`) hold each other
up. An operation decrements for a cell only if the cell is rooted, and a rooted cell
that points to an object is one of those the count adds up, so there is something to
take. The traversal of an allocation decrements without asking. It comes to each
cell of the value once, because the value names it once and the type is one the
derive macro visits exactly (`Derive.genBody_of_clear`), and it finds it rooted,
because it was not in the managed heap. While a cell is on its way into being, its
contribution is `pending`.

Headers are words here, so the equation says of the digits of the word what one
expects of a number, and the type id and the colour are what they were given. It
takes that an increment does not overflow the field, for which a bound on the rooted
cells of one object is part of the step.

An `Arc` shared by two objects is enough to break this: the second traversal
decrements a count that the first one has taken away.
-/

namespace Cdpt.Unroot

open Finset

/-! ## Counts -/

/-- The headers agree with the cells, up to a contribution to `pending` whose
cell is not there yet. -/
structure Counts (s : St) (pending : Option Nat) : Prop where
  count : ∀ o, (Header.rootCount (s.header o)).toNat =
    s.rootedTo o + if pending = some o then 1 else 0
  typeId : ∀ o < s.nObjs, Header.typeId (s.header o) = s.typeIds o
  color : ∀ o < s.nObjs, Header.marked (s.header o) = s.colors o
  target : ∀ c o, (s.cells c).target = some o → o < s.nObjs
  fresh : ∀ c, s.nCells ≤ c → (s.cells c).target = none

/-- The header was changed by root count arithmetic that moved its count from
`n` to `n'` and stayed inside the field. -/
def Moved (w w' : Word) (n n' : Nat) : Prop :=
  Header.upper w' = Header.upper w ∧
    (Header.rootCount w').toNat + n = (Header.rootCount w).toNat + n'

theorem share_le_rootedTo {s : St} {c : Nat} (hc : c < s.nCells) (o : Nat) :
    (s.cells c).share o ≤ s.rootedTo o :=
  single_le_sum (f := fun c => (s.cells c).share o) (fun _ _ => Nat.zero_le _) (mem_range.2 hc)

/-- A step that replaces one cell and moves the counts accordingly. -/
theorem Counts.setCell {s s' : St} {p : Option Nat} (h : Counts s p) {c : Nat} {x : Cell}
    (hc : c < s.nCells) (hcells : s'.cells = Function.update s.cells c x)
    (hn : s'.nCells = s.nCells) (ho : s'.nObjs = s.nObjs) (hty : s'.typeIds = s.typeIds)
    (hcol : s'.colors = s.colors) (hx : ∀ o, x.target = some o → o < s.nObjs)
    (hmoved : ∀ o, Moved (s.header o) (s'.header o) ((s.cells c).share o) (x.share o)) :
    Counts s' p := by
  have hsum : ∀ o, s'.rootedTo o + (s.cells c).share o = s.rootedTo o + x.share o := by
    intro o
    have hex := Sums.sum_exchange (u := range s.nCells) (k := c)
      (f := fun d => (Function.update s.cells c x d).share o)
      (g := fun d => (s.cells d).share o) (mem_range.2 hc)
      fun d _ hd => by rw [Function.update_of_ne hd]
    rw [Function.update_self] at hex
    rw [St.rootedTo, St.rootedTo, hn, hcells]
    exact hex
  refine ⟨fun o => ?_, fun o hlt => ?_, fun o hlt => ?_, fun d o hd => ?_, fun d hd => ?_⟩
  · have hm := (hmoved o).2
    have hcount := h.count o
    have := hsum o
    omega
  · rw [Header.typeId_eq_of_upper (hmoved o).1, hty]
    exact h.typeId o (ho ▸ hlt)
  · rw [Header.marked_eq_of_upper (hmoved o).1, hcol]
    exact h.color o (ho ▸ hlt)
  · rw [ho]
    by_cases hdc : d = c
    · subst hdc
      rw [hcells, Function.update_self] at hd
      exact hx o hd
    · rw [hcells, Function.update_of_ne hdc] at hd
      exact h.target d o hd
  · rw [hn] at hd
    rw [hcells, Function.update_of_ne (show d ≠ c by omega)]
    exact h.fresh d hd

/-- A decrement of a count to which something contributes. -/
theorem moved_decrement {s : St} {t : Option Nat}
    (h : ∀ o, t = some o → 0 < (Header.rootCount (s.header o)).toNat) (o : Nat) :
    Moved (s.header o) ((s.decrement t).header o) (if t = some o then 1 else 0) 0 := by
  cases t with
  | none => exact ⟨rfl, rfl⟩
  | some o' =>
      by_cases ho : o' = o
      · subst ho
        have hpos := h o' rfl
        obtain ⟨hup, hdec⟩ := Header.decrement_spec hpos
        have hself : (s.decrement (some o')).header o' = Header.decrement (s.header o') :=
          Function.update_self ..
        rw [hself, if_pos rfl]
        exact ⟨hup, by omega⟩
      · have hne : (s.decrement (some o')).header o = s.header o :=
          Function.update_of_ne (Ne.symm ho) _ _
        rw [hne, if_neg fun he => ho (Option.some.inj he)]
        exact ⟨rfl, rfl⟩

theorem moved_increment {s : St} {t : Option Nat}
    (h : ∀ o, t = some o → (Header.rootCount (s.header o)).toNat < 2 ^ 55 - 1) (o : Nat) :
    Moved (s.header o) ((s.increment t).header o) 0 (if t = some o then 1 else 0) := by
  cases t with
  | none => exact ⟨rfl, rfl⟩
  | some o' =>
      by_cases ho : o' = o
      · subst ho
        obtain ⟨hup, hinc⟩ := Header.increment_spec (h o' rfl)
        have hself : (s.increment (some o')).header o' = Header.increment (s.header o') :=
          Function.update_self ..
        rw [hself, if_pos rfl]
        exact ⟨hup, by omega⟩
      · have hne : (s.increment (some o')).header o = s.header o :=
          Function.update_of_ne (Ne.symm ho) _ _
        rw [hne, if_neg fun he => ho (Option.some.inj he)]
        exact ⟨rfl, rfl⟩

theorem Moved.trans {w w' w'' : Word} {a b c d : Nat} (h : Moved w w' a b) (h' : Moved w' w'' c d) :
    Moved w w'' (a + c) (b + d) := by
  refine ⟨h'.1.trans h.1, ?_⟩
  have h1 := h.2
  have h2 := h'.2
  omega

/-- The pointee of a rooted cell has a positive count. -/
theorem Counts.pos {s : St} {p : Option Nat} (h : Counts s p) {c : Nat}
    (hr : (s.cells c).ptrMeta = .Rooted) {o : Nat} (ho : (s.cells c).target = some o) :
    0 < (Header.rootCount (s.header o)).toNat := by
  have hc : c < s.nCells := by
    by_contra hge
    rw [h.fresh c (by omega)] at ho
    cases ho
  have hle := share_le_rootedTo hc o
  have h1 : (s.cells c).share o = 1 := if_pos ⟨ho, hr⟩
  have hcount := h.count o
  omega

/-- Room among the cells is room in the header. -/
theorem Counts.lt_of_hasRoom {s : St} (h : Counts s none) {o : Nat} (ho : s.hasRoom o) :
    (Header.rootCount (s.header o)).toNat < 2 ^ 55 - 1 := by
  have hcount := h.count o
  rw [if_neg (by intro he; cases he)] at hcount
  rw [hcount]
  exact ho

theorem Cell.share_rooted {x : Cell} (h : x.ptrMeta = .Rooted) (o : Nat) :
    x.share o = if x.target = some o then 1 else 0 := by
  rw [Cell.share]
  simp [h]

theorem Cell.share_unrooted {x : Cell} (h : x.ptrMeta ≠ .Rooted) (o : Nat) : x.share o = 0 :=
  if_neg fun hx => h hx.2

/-! ## One cell -/

/-- Everything but the headers and the cells is as before. -/
structure SameRest (s s' : St) : Prop where
  nObjs : s'.nObjs = s.nObjs
  nCells : s'.nCells = s.nCells
  outside : s'.outside = s.outside
  managed : s'.managed = s.managed
  typeIds : s'.typeIds = s.typeIds
  colors : s'.colors = s.colors

theorem SameRest.trans {s s' s'' : St} (h : SameRest s s') (h' : SameRest s' s'') :
    SameRest s s'' :=
  ⟨h'.nObjs.trans h.nObjs, h'.nCells.trans h.nCells, h'.outside.trans h.outside,
    h'.managed.trans h.managed, h'.typeIds.trans h.typeIds, h'.colors.trans h.colors⟩

theorem decrement_rest (s : St) (t : Option Nat) :
    SameRest s (s.decrement t) ∧ (s.decrement t).cells = s.cells ∧
      (s.decrement t).unroots = s.unroots := by
  cases t <;> exact ⟨⟨rfl, rfl, rfl, rfl, rfl, rfl⟩, rfl, rfl⟩

theorem increment_rest (s : St) (t : Option Nat) :
    SameRest s (s.increment t) ∧ (s.increment t).cells = s.cells ∧
      (s.increment t).unroots = s.unroots := by
  cases t <;> exact ⟨⟨rfl, rfl, rfl, rfl, rfl, rfl⟩, rfl, rfl⟩

theorem unroot_rest (col : Color) (s : St) (c : Nat) :
    SameRest s (unroot col s c) ∧
      (unroot col s c).cells =
        Function.update s.cells c { s.cells c with ptrMeta := .Unrooted col } ∧
      (unroot col s c).unroots = Function.update s.unroots c
        (s.unroots c + if (s.cells c).target.isSome then 1 else 0) ∧
      (unroot col s c).header = (s.decrement (s.cells c).target).header := by
  obtain ⟨hrest, hcells, hun⟩ := decrement_rest s (s.cells c).target
  refine ⟨⟨hrest.nObjs, hrest.nCells, hrest.outside, hrest.managed, hrest.typeIds,
    hrest.colors⟩, ?_, ?_, rfl⟩
  · show Function.update (s.decrement (s.cells c).target).cells c _ = _
    rw [hcells]
  · show Function.update (s.decrement (s.cells c).target).unroots c _ = _
    rw [hun]

/-- A rooted cell gives up its contribution. -/
theorem Counts.unroot {s : St} {p : Option Nat} (h : Counts s p) {c : Nat} (hc : c < s.nCells)
    (hr : (s.cells c).ptrMeta = .Rooted) (col : Color) : Counts (Unroot.unroot col s c) p := by
  obtain ⟨hrest, hcells, -, hhdr⟩ := unroot_rest col s c
  refine h.setCell hc hcells hrest.nCells hrest.nObjs hrest.typeIds hrest.colors
    (fun o ho => h.target c o ho) fun o => ?_
  have hun : ({ s.cells c with ptrMeta := .Unrooted col } : Cell).share o = 0 :=
    Cell.share_unrooted (by intro hm; cases hm) o
  rw [hhdr, hun, Cell.share_rooted hr]
  exact moved_decrement (fun o ho => h.pos hr ho) o

/-- A traversal that comes to rooted cells, once to each. -/
theorem Counts.unrootAll {s : St} {p : Option Nat} (h : Counts s p) {cs : List Nat}
    (hnd : cs.Nodup) (hcs : ∀ c ∈ cs, c < s.nCells ∧ (s.cells c).ptrMeta = .Rooted)
    (col : Color) :
    Counts (cs.foldl (Unroot.unroot col) s) p ∧ SameRest s (cs.foldl (Unroot.unroot col) s) ∧
      (∀ c, c ∉ cs → (cs.foldl (Unroot.unroot col) s).cells c = s.cells c ∧
        (cs.foldl (Unroot.unroot col) s).unroots c = s.unroots c) ∧
      ∀ c ∈ cs, ((cs.foldl (Unroot.unroot col) s).cells c).ptrMeta ≠ .Rooted ∧
        (cs.foldl (Unroot.unroot col) s).unroots c ≤ s.unroots c + 1 := by
  induction cs generalizing s with
  | nil =>
      refine ⟨h, ⟨rfl, rfl, rfl, rfl, rfl, rfl⟩, fun _ _ => ⟨rfl, rfl⟩, fun c hc => ?_⟩
      cases hc
  | cons d cs ih =>
      obtain ⟨hd, hnd⟩ := List.nodup_cons.1 hnd
      obtain ⟨hrest, hcells, hun, -⟩ := unroot_rest col s d
      obtain ⟨hdlt, hdr⟩ := hcs d (by simp)
      have hold : ∀ c, c ≠ d → (Unroot.unroot col s d).cells c = s.cells c ∧
          (Unroot.unroot col s d).unroots c = s.unroots c := by
        intro c hc
        rw [hcells, hun, Function.update_of_ne hc, Function.update_of_ne hc]
        exact ⟨rfl, rfl⟩
      have hne : ∀ c ∈ cs, c ≠ d := by
        rintro c hc rfl
        exact hd hc
      have hcs' : ∀ c ∈ cs, c < (Unroot.unroot col s d).nCells ∧
          ((Unroot.unroot col s d).cells c).ptrMeta = .Rooted := by
        intro c hc
        rw [hrest.nCells, (hold c (hne c hc)).1]
        exact hcs c (by simp [hc])
      obtain ⟨hcount, hrest', hout, hin⟩ := ih (h.unroot hdlt hdr col) hnd hcs'
      rw [List.foldl_cons]
      refine ⟨hcount, hrest.trans hrest', fun c hc => ?_, fun c hc => ?_⟩
      · rw [List.mem_cons, not_or] at hc
        rw [(hout c hc.2).1, (hout c hc.2).2]
        exact hold c hc.1
      · rcases List.mem_cons.1 hc with rfl | hc
        · rw [(hout c hd).1, (hout c hd).2, hcells, hun, Function.update_self,
            Function.update_self]
          refine ⟨(fun hm => by cases hm), ?_⟩
          split <;> omega
        · refine ⟨(hin c hc).1, ?_⟩
          rw [← (hold c (hne c hc)).2]
          exact (hin c hc).2

/-- `store` on a rooted cell moves its contribution, on another one nothing. -/
theorem Counts.store {s : St} (h : Counts s none) {c : Nat} (hc : c < s.nCells)
    {new : Option Nat} (hnew : ∀ o, new = some o → o < s.nObjs)
    (hroom : (s.cells c).ptrMeta = .Rooted → ∀ o ∈ new, s.hasRoom o) :
    Counts (s.store c new) none := by
  obtain ⟨hrest, hcells, -⟩ := increment_rest s new
  obtain ⟨hrest', hcells', -⟩ := decrement_rest (s.increment new) (s.cells c).target
  by_cases hr : (s.cells c).ptrMeta = .Rooted
  · have hroom : ∀ o, new = some o → (Header.rootCount (s.header o)).toNat < 2 ^ 55 - 1 :=
      fun o ho => h.lt_of_hasRoom (hroom hr o ho)
    have hs : s.store c new = ((s.increment new).decrement (s.cells c).target).setCell c
        { s.cells c with target := new } := by rw [St.store, if_pos hr]
    rw [hs]
    have hsame := hrest.trans hrest'
    refine h.setCell (x := { s.cells c with target := new }) hc ?_ hsame.nCells hsame.nObjs
      hsame.typeIds hsame.colors hnew fun o => ?_
    · show Function.update ((s.increment new).decrement (s.cells c).target).cells c _ = _
      rw [hcells', hcells]
    · have hup := moved_increment hroom o
      have hpos : ∀ o, (s.cells c).target = some o →
          0 < (Header.rootCount ((s.increment new).header o)).toNat := by
        intro o ho
        have hp := h.pos hr ho
        have hm := (moved_increment hroom o).2
        omega
      have hdown := moved_decrement (s := s.increment new) hpos o
      rw [Cell.share_rooted hr, Cell.share_rooted (x := { s.cells c with target := new }) hr]
      have hboth := hup.trans hdown
      rwa [Nat.zero_add, Nat.add_zero] at hboth
  · have hs : s.store c new = s.setCell c { s.cells c with target := new } := by
      rw [St.store, if_neg hr]
    rw [hs]
    refine h.setCell (x := { s.cells c with target := new }) hc rfl rfl rfl rfl rfl hnew fun o => ?_
    rw [Cell.share_unrooted hr, Cell.share_unrooted (x := { s.cells c with target := new }) hr]
    exact ⟨rfl, rfl⟩

/-- `Drop` takes the contribution of a rooted cell with it. -/
theorem Counts.dropCell {s : St} (h : Counts s none) {c : Nat} (hc : c < s.nCells)
    (hr : (s.cells c).ptrMeta = .Rooted) : Counts (s.dropCell c) none := by
  obtain ⟨hrest, hcells, -⟩ := decrement_rest s (s.cells c).target
  have hs : s.dropCell c = (s.decrement (s.cells c).target).setCell c
      ⟨none, (s.cells c).ptrMeta⟩ := by rw [St.dropCell, if_pos hr]
  rw [hs]
  refine h.setCell (x := ⟨none, (s.cells c).ptrMeta⟩) hc ?_ hrest.nCells hrest.nObjs hrest.typeIds
    hrest.colors (fun o ho => by cases ho) fun o => ?_
  · show Function.update (s.decrement (s.cells c).target).cells c _ = _
    rw [hcells]
  · have hnone : (⟨none, (s.cells c).ptrMeta⟩ : Cell).share o = 0 :=
      if_neg fun hx => by cases hx.1
    rw [hnone, Cell.share_rooted hr]
    exact moved_decrement (fun o ho => h.pos hr ho) o

/-- The cell for a pending contribution. -/
theorem Counts.newCell {s : St} {p : Option Nat} (h : Counts s p)
    (hp : ∀ o, p = some o → o < s.nObjs) : Counts (s.newCell p) none := by
  have hne : ∀ {d}, d ≠ s.nCells → (s.newCell p).cells d = s.cells d :=
    fun hd => Function.update_of_ne hd _ _
  have hself : (s.newCell p).cells s.nCells = ⟨p, .Rooted⟩ := Function.update_self ..
  refine ⟨fun o => ?_, h.typeId, h.color, fun d o hd => ?_, fun d hd => ?_⟩
  · have hsum : (s.newCell p).rootedTo o = s.rootedTo o + if p = some o then 1 else 0 := by
      show ∑ c ∈ range (s.nCells + 1), ((s.newCell p).cells c).share o = _
      rw [sum_range_succ, hself, Cell.share_rooted rfl]
      congr 1
      exact sum_congr rfl fun c hc => by rw [hne (Nat.ne_of_lt (mem_range.1 hc))]
    rw [hsum, if_neg (show (none : Option Nat) ≠ some o by intro he; cases he)]
    exact h.count o
  · by_cases hdc : d = s.nCells
    · subst hdc
      rw [hself] at hd
      exact hp o hd
    · rw [hne hdc] at hd
      exact h.target d o hd
  · have hd' : s.nCells + 1 ≤ d := hd
    rw [hne (show d ≠ s.nCells by omega)]
    exact h.fresh d (by omega)

/-- A new object, with a pending contribution if it is allocated rooted. -/
theorem Counts.newObj {s : St} (h : Counts s none) (col : Color) (rooted : Bool)
    (ty : BitVec 8) :
    Counts (s.newObj col (if rooted then 1#64 else 0#64) ty)
      (if rooted then some s.nObjs else none) := by
  have hnone : s.rootedTo s.nObjs = 0 := by
    refine sum_eq_zero fun c _ => if_neg fun hx => ?_
    exact Nat.lt_irrefl _ (h.target c _ hx.1)
  have hcases : ∀ {P : Nat → Prop}, (∀ o < s.nObjs, P o) → P s.nObjs →
      ∀ o < s.nObjs + 1, P o := by
    intro P hlt hself o ho
    rcases Nat.lt_succ_iff_lt_or_eq.1 ho with ho | rfl
    · exact hlt o ho
    · exact hself
  refine ⟨fun o => ?_, hcases (fun o ho => ?_) ?_, hcases (fun o ho => ?_) ?_,
    fun c o hc => Nat.lt_succ_of_lt (h.target c o hc), h.fresh⟩
  · show (Header.rootCount (Function.update s.header s.nObjs _ o)).toNat = s.rootedTo o + _
    by_cases ho : o = s.nObjs
    · subst ho
      rw [Function.update_self, Header.rootCount_newWithTypeId, hnone]
      cases rooted with
      | true => simp [Header.rootCount, rootCountMask, typeIdShift, typeIdBits]
      | false => simp [Header.rootCount]
    · rw [Function.update_of_ne ho, h.count o]
      cases rooted with
      | true => simp [Ne.symm ho]
      | false => rfl
  · show Header.typeId (Function.update s.header s.nObjs _ o) =
      Function.update s.typeIds s.nObjs ty o
    rw [Function.update_of_ne (Nat.ne_of_lt ho), Function.update_of_ne (Nat.ne_of_lt ho)]
    exact h.typeId o ho
  · show Header.typeId (Function.update s.header s.nObjs _ s.nObjs) =
      Function.update s.typeIds s.nObjs ty s.nObjs
    rw [Function.update_self, Function.update_self, Header.typeId_newWithTypeId]
  · show Header.marked (Function.update s.header s.nObjs _ o) =
      Function.update s.colors s.nObjs col o
    rw [Function.update_of_ne (Nat.ne_of_lt ho), Function.update_of_ne (Nat.ne_of_lt ho)]
    exact h.color o ho
  · show Header.marked (Function.update s.header s.nObjs _ s.nObjs) =
      Function.update s.colors s.nObjs col s.nObjs
    rw [Function.update_self, Function.update_self, Header.marked_newWithTypeId]

/-! ## The invariant -/

/-- What an allocation relies on: the derive macro reaches every cell of the
value, it names each of them once, and afterwards they are in the managed heap
and nowhere else. -/
def Apart (s : St) : Label → Prop
  | .alloc _ x still _ _ => x.data.clear = true ∧ x.cells.Nodup ∧
      ∀ c ∈ x.cells, s.managed c = false ∧ c ∉ still
  | _ => True

structure Inv (s : St) (pending : Option Nat) : Prop where
  counts : Counts s pending
  rooted : ∀ c, (s.cells c).ptrMeta = .Rooted ↔ s.managed c = false
  apart : ∀ c, s.outside c = true → s.managed c = false
  once : ∀ c, s.unroots c ≤ 1
  before : ∀ c, s.managed c = false → s.unroots c = 0
  known : ∀ c, s.reachable c = true → c < s.nCells

theorem Inv.init : Inv St.init none where
  counts :=
    ⟨(fun o => by simp [St.init, St.rootedTo, Header.rootCount]),
      fun o ho => absurd ho (Nat.not_lt_zero o), fun o ho => absurd ho (Nat.not_lt_zero o),
      (fun c o hc => by cases hc), fun _ _ => rfl⟩
  rooted _ := ⟨fun _ => rfl, fun _ => rfl⟩
  apart _ _ := rfl
  once _ := Nat.zero_le 1
  before _ _ := rfl
  known c hc := by cases hc

theorem Inv.unmanaged {s : St} {p : Option Nat} (h : Inv s p) {c : Nat} (hc : s.nCells ≤ c) :
    s.managed c = false := by
  by_contra hm
  have hr : s.reachable c = true := by
    rw [St.reachable, Bool.eq_true_of_not_eq_false hm, Bool.or_true]
  have := h.known c hr
  omega

theorem Inv.newCell {s : St} {p : Option Nat} (h : Inv s p)
    (hp : ∀ o, p = some o → o < s.nObjs) : Inv (s.newCell p) none := by
  have hnew := h.unmanaged (Nat.le_refl s.nCells)
  have hcells : ∀ {d}, d ≠ s.nCells → (s.newCell p).cells d = s.cells d ∧
      (s.newCell p).outside d = s.outside d :=
    fun hd => ⟨Function.update_of_ne hd _ _, Function.update_of_ne hd _ _⟩
  have hself : (s.newCell p).cells s.nCells = ⟨p, .Rooted⟩ := Function.update_self ..
  refine ⟨h.counts.newCell hp, fun d => ?_, fun d hd => ?_, h.once, h.before, fun d hd => ?_⟩
  · by_cases hdc : d = s.nCells
    · subst hdc
      rw [hself]
      exact ⟨fun _ => hnew, fun _ => rfl⟩
    · rw [(hcells hdc).1]
      exact h.rooted d
  · by_cases hdc : d = s.nCells
    · subst hdc
      exact hnew
    · rw [(hcells hdc).2] at hd
      exact h.apart d hd
  · by_cases hdc : d = s.nCells
    · subst hdc
      exact Nat.lt_succ_self _
    · have hr : s.reachable d = true := by
        rw [St.reachable, (hcells hdc).2] at hd
        exact hd
      exact Nat.lt_succ_of_lt (h.known d hr)

/-- A step that is about one cell and the headers. -/
theorem Inv.setCell {s s' : St} (h : Inv s none) {c : Nat} {x : Cell} (hcounts : Counts s' none)
    (hcells : s'.cells = Function.update s.cells c x) (hx : x.ptrMeta = (s.cells c).ptrMeta)
    (hn : s'.nCells = s.nCells) (hman : s'.managed = s.managed) (hun : s'.unroots = s.unroots)
    (hout : ∀ d, s'.outside d = true → s.outside d = true) : Inv s' none where
  counts := hcounts
  rooted d := by
    rw [hcells, hman]
    by_cases hdc : d = c
    · subst hdc
      rw [Function.update_self, hx]
      exact h.rooted d
    · rw [Function.update_of_ne hdc]
      exact h.rooted d
  apart d hd := by
    rw [hman]
    exact h.apart d (hout d hd)
  once := hun ▸ h.once
  before := hun ▸ hman ▸ h.before
  known d hd := by
    rw [hn]
    refine h.known d ?_
    rw [St.reachable, hman, Bool.or_eq_true] at hd
    rw [St.reachable, Bool.or_eq_true]
    exact hd.imp (hout d) id

theorem unrootOutgoings_of_clear {x : Item} (hc : x.data.clear = true) (col : Color) (s : St) :
    unrootOutgoings col x s = x.cells.foldl (unroot col) s := by
  obtain ⟨b, hb, hrun⟩ := Derive.genBody_of_clear (α := Nat) .unroot hc
  rw [unrootOutgoings, hb]
  simp only [hrun x.val x.hasTy, List.foldl_map]
  rfl

/-- The cells of an admissible allocation are rooted when the traversal comes. -/
theorem Inv.alloc {s : St} {p : Option Nat} (h : Inv s p) {x : Item} (still : List Nat)
    (hc : x.data.clear = true) (hnd : x.cells.Nodup)
    (hcs : ∀ c ∈ x.cells, s.managed c = false ∧ c ∉ still)
    (hr : ∀ c ∈ x.cells, s.reachable c = true) (col : Color) :
    Inv ((unrootOutgoings col x s).moveIn x still) p ∧
      (unrootOutgoings col x s).nObjs = s.nObjs := by
  rw [unrootOutgoings_of_clear hc]
  obtain ⟨hcounts, hrest, hout, hin⟩ := h.counts.unrootAll hnd
    (fun c hc => ⟨h.known c (hr c hc), (h.rooted c).2 (hcs c hc).1⟩) col
  refine ⟨?_, hrest.nObjs⟩
  have hmem : ∀ {c}, c ∈ x.cells →
      ((x.cells.foldl (unroot col) s).moveIn x still).managed c = true := by
    intro c hc
    show ((x.cells.foldl (unroot col) s).managed c || decide (c ∈ x.cells)) = true
    rw [decide_eq_true hc, Bool.or_true]
  have hnot : ∀ {c}, c ∉ x.cells →
      ((x.cells.foldl (unroot col) s).moveIn x still).managed c = s.managed c := by
    intro c hc
    show ((x.cells.foldl (unroot col) s).managed c || decide (c ∈ x.cells)) = _
    rw [decide_eq_false hc, Bool.or_false, hrest.managed]
  have houtside : ∀ {c}, ((x.cells.foldl (unroot col) s).moveIn x still).outside c = true →
      s.outside c = true ∧ c ∉ x.cells := by
    intro c ho
    have ho' : ((x.cells.foldl (unroot col) s).outside c &&
        (decide (c ∉ x.cells) || decide (c ∈ still))) = true := ho
    rw [Bool.and_eq_true, Bool.or_eq_true, hrest.outside] at ho'
    refine ⟨ho'.1, fun hmem => ?_⟩
    rcases ho'.2 with hd | hd
    · exact of_decide_eq_true hd hmem
    · exact (hcs c hmem).2 (of_decide_eq_true hd)
  refine ⟨⟨hcounts.count, hcounts.typeId, hcounts.color, hcounts.target, hcounts.fresh⟩,
    fun c => ?_, fun c ho => ?_, fun c => ?_, fun c hm => ?_, fun c hc => ?_⟩
  · show ((x.cells.foldl (unroot col) s).cells c).ptrMeta = .Rooted ↔ _
    by_cases hm : c ∈ x.cells
    · rw [hmem hm]
      exact ⟨fun hroot => ((hin c hm).1 hroot).elim, fun hf => by cases hf⟩
    · rw [hnot hm, (hout c hm).1]
      exact h.rooted c
  · obtain ⟨ho, hm⟩ := houtside ho
    rw [hnot hm]
    exact h.apart c ho
  · show (x.cells.foldl (unroot col) s).unroots c ≤ 1
    by_cases hm : c ∈ x.cells
    · have hle := (hin c hm).2
      have hzero := h.before c (hcs c hm).1
      omega
    · rw [(hout c hm).2]
      exact h.once c
  · have hmem' : c ∉ x.cells := by
      intro hc
      rw [hmem hc] at hm
      cases hm
    show (x.cells.foldl (unroot col) s).unroots c = 0
    rw [(hout c hmem').2]
    exact h.before c (hnot hmem' ▸ hm)
  · show c < (x.cells.foldl (unroot col) s).nCells
    rw [hrest.nCells]
    by_cases hm : c ∈ x.cells
    · exact h.known c (hr c hm)
    · refine h.known c ?_
      rw [St.reachable, hnot hm, Bool.or_eq_true] at hc
      rw [St.reachable, Bool.or_eq_true]
      exact hc.imp (fun ho => (houtside ho).1) id

theorem Inv.newObj {s : St} (h : Inv s none) (col : Color) (rooted : Bool) (ty : BitVec 8) :
    Inv (s.newObj col (if rooted then 1#64 else 0#64) ty)
      (if rooted then some s.nObjs else none) :=
  ⟨h.counts.newObj col rooted ty, h.rooted, h.apart, h.once, h.before, h.known⟩

theorem Inv.mark {s : St} (h : Inv s none) (o : Nat) (c : Color) :
    Inv { s.setHeader o (Header.withMarked (s.header o) c) with
      colors := Function.update s.colors o c } none := by
  refine ⟨⟨fun o' => ?_, fun o' ho' => ?_, fun o' ho' => ?_, h.counts.target, h.counts.fresh⟩,
    h.rooted, h.apart, h.once, h.before, h.known⟩
  · show (Header.rootCount (Function.update s.header o _ o')).toNat = _
    by_cases ho : o' = o
    · subst ho
      rw [Function.update_self, Header.rootCount_withMarked]
      exact h.counts.count o'
    · rw [Function.update_of_ne ho]
      exact h.counts.count o'
  · show Header.typeId (Function.update s.header o _ o') = s.typeIds o'
    by_cases ho : o' = o
    · subst ho
      rw [Function.update_self, Header.typeId_withMarked]
      exact h.counts.typeId o' ho'
    · rw [Function.update_of_ne ho]
      exact h.counts.typeId o' ho'
  · show Header.marked (Function.update s.header o _ o') = Function.update s.colors o c o'
    by_cases ho : o' = o
    · subst ho
      rw [Function.update_self, Function.update_self, Header.marked_withMarked]
    · rw [Function.update_of_ne ho, Function.update_of_ne ho]
      exact h.counts.color o' ho'

theorem Inv.increment {s : St} (h : Inv s none) {o : Nat} (hroom : s.hasRoom o) :
    Inv (s.increment (some o)) (some o) := by
  have hm := moved_increment (s := s) (t := some o) fun o' ho' =>
    h.counts.lt_of_hasRoom (Option.some.inj ho' ▸ hroom)
  refine ⟨⟨fun o' => ?_, fun o' ho' => ?_, fun o' ho' => ?_, h.counts.target, h.counts.fresh⟩,
    h.rooted, h.apart, h.once, h.before, h.known⟩
  · have hcount := h.counts.count o'
    have hup := (hm o').2
    rw [if_neg (show (none : Option Nat) ≠ some o' by intro he; cases he)] at hcount
    show _ = s.rootedTo o' + _
    omega
  · rw [Header.typeId_eq_of_upper (hm o').1]
    exact h.counts.typeId o' ho'
  · rw [Header.marked_eq_of_upper (hm o').1]
    exact h.counts.color o' ho'

theorem Inv.step {s s' : St} (h : Inv s none) {lab : Label} (ha : Apart s lab)
    (hs : Unroot.step s lab = some s') : Inv s' none := by
  cases lab with
  | alloc rooted x still ty col =>
      simp only [Unroot.step] at hs
      split at hs
      · next hg =>
          obtain ⟨hinv, ho⟩ := (h.newObj col rooted ty).alloc still
            ha.1 ha.2.1 ha.2.2 hg col
          cases rooted with
          | false =>
              cases hs
              exact hinv
          | true =>
              cases hs
              refine hinv.newCell fun o he => ?_
              cases he
              show s.nObjs < (unrootOutgoings col x _).nObjs
              rw [ho]
              exact Nat.lt_succ_self _
      · cases hs
  | share o =>
      simp only [Unroot.step] at hs
      split at hs
      · next hg =>
          cases hs
          refine (h.increment hg.2).newCell fun o' he => ?_
          cases he
          exact hg.1
      · cases hs
  | none =>
      cases hs
      exact h.newCell fun o he => by cases he
  | store c new =>
      simp only [Unroot.step] at hs
      split at hs
      · next hg =>
          cases hs
          have hnew : ∀ o, new = some o → o < s.nObjs := by
            rintro o rfl
            exact of_decide_eq_true hg.2.1
          have hcells : (s.store c new).cells =
              Function.update s.cells c { s.cells c with target := new } ∧
              SameRest s (s.store c new) ∧ (s.store c new).unroots = s.unroots := by
            obtain ⟨hrest, hcs, hun⟩ := increment_rest s new
            obtain ⟨hrest', hcs', hun'⟩ := decrement_rest (s.increment new) (s.cells c).target
            have hsame := hrest.trans hrest'
            by_cases hr : (s.cells c).ptrMeta = .Rooted
            · rw [St.store, if_pos hr]
              refine ⟨?_, ⟨hsame.nObjs, hsame.nCells, hsame.outside, hsame.managed,
                hsame.typeIds, hsame.colors⟩, hun'.trans hun⟩
              show Function.update ((s.increment new).decrement (s.cells c).target).cells c _ = _
              rw [hcs', hcs]
            · rw [St.store, if_neg hr]
              exact ⟨rfl, ⟨rfl, rfl, rfl, rfl, rfl, rfl⟩, rfl⟩
          obtain ⟨hcells, hrest, hun⟩ := hcells
          exact h.setCell (h.counts.store (h.known c hg.1) hnew hg.2.2) hcells rfl hrest.nCells
            hrest.managed hun fun d hd => hrest.outside ▸ hd
      · cases hs
  | drop c =>
      simp only [Unroot.step] at hs
      split at hs
      · next hout =>
          cases hs
          have hman := h.apart c hout
          have hr := (h.rooted c).2 hman
          have hlt : c < s.nCells := h.known c (by rw [St.reachable, hout, Bool.true_or])
          obtain ⟨hrest, hcs, hun⟩ := decrement_rest s (s.cells c).target
          have hs' : (if s.managed c = true then s else s.dropCell c) =
              (s.decrement (s.cells c).target).setCell c ⟨none, (s.cells c).ptrMeta⟩ := by
            rw [hman, if_neg Bool.false_ne_true, St.dropCell, if_pos hr]
          have hcounts := h.counts.dropCell hlt hr
          rw [St.dropCell, if_pos hr] at hcounts
          rw [hs']
          refine h.setCell (c := c) (x := ⟨none, (s.cells c).ptrMeta⟩)
            ⟨hcounts.count, hcounts.typeId, hcounts.color, hcounts.target, hcounts.fresh⟩
            ?_ rfl hrest.nCells hrest.managed hun fun d hd => ?_
          · show Function.update (s.decrement (s.cells c).target).cells c _ = _
            rw [hcs]
          · have hd' : Function.update (s.decrement (s.cells c).target).outside c false d =
                true := hd
            rw [hrest.outside] at hd'
            by_cases hdc : d = c
            · subst hdc
              exact hout
            · rwa [Function.update_of_ne hdc] at hd'
      · cases hs
  | mark o c =>
      simp only [Unroot.step] at hs
      split at hs
      · cases hs
        exact h.mark o c
      · cases hs

/-- In a run whose allocations all move their cells into the managed heap for
the first time and for good, no cell is unrooted twice, a cell owned outside is
rooted, every root count is the number of rooted cells that point to the
object, and no arithmetic on it has reached the type id or the colour. -/
theorem unroot_at_most_once {s : St} (h : Lts.Reaches step Apart St.init s) :
    (∀ c, s.unroots c ≤ 1) ∧
    (∀ c, s.outside c = true → (s.cells c).ptrMeta = .Rooted ∧ s.unroots c = 0) ∧
    (∀ o, (Header.rootCount (s.header o)).toNat = s.rootedTo o) ∧
    ∀ o < s.nObjs, Header.typeId (s.header o) = s.typeIds o ∧
      Header.marked (s.header o) = s.colors o := by
  have hinv : Inv s none := by
    refine h.invariant (I := fun s => Inv s none) Inv.init ?_
    intro a b lab ha hp hs
    exact ha.step hp hs
  refine ⟨hinv.once, fun c hc => ?_, fun o => ?_, fun o ho => ?_⟩
  · have hm := hinv.apart c hc
    exact ⟨(hinv.rooted c).2 hm, hinv.before c hm⟩
  · have hcount := hinv.counts.count o
    rwa [if_neg (by intro he; cases he), Nat.add_zero] at hcount
  · exact ⟨hinv.counts.typeId o ho, hinv.counts.color o ho⟩

instance (s : St) : (lab : Label) → Decidable (Apart s lab)
  | .alloc _ x still _ _ => inferInstanceAs (Decidable (x.data.clear = true ∧ x.cells.Nodup ∧
      ∀ c ∈ x.cells, s.managed c = false ∧ c ∉ still))
  | .share _ | .none | .store _ _ | .drop _ | .mark _ _ => inferInstanceAs (Decidable True)

/-- `struct Leaf { value: usize }` -/
def leaf : Item := ⟨.struct (.unnamed [.other]), ⟨0, [.other]⟩, rfl, .cons .other .nil⟩

/-- `struct WithArcSlice { items: Arc<[Shared<Leaf>]> }` with the cells `cs`. -/
def withArcSlice (cs : List Nat) : Item where
  data := .struct (.unnamed [.smart .Arc (.slice (.ptr .Shared))])
  val := ⟨0, [.seq (cs.map .ptr)]⟩
  hasTy := by
    refine ⟨rfl, .cons (.smart (.slice fun v hv => ?_)) .nil⟩
    obtain ⟨c, -, rfl⟩ := List.mem_map.1 hv
    exact .ptr

theorem unroot_at_most_once_arcSlice : ∃ s : St, s.unroots 0 = 1 ∧ s.unroots 1 = 1 ∧
    (Header.rootCount (s.header 0)).toNat = s.rootedTo 0 := by
  have hrun : ∃ s, Lts.Reaches step Apart St.init s ∧ s.unroots 0 = 1 ∧ s.unroots 1 = 1 :=
    Lts.exists_of_runs [.alloc true leaf [] 7#8 .C0, .share 0,
      .alloc false (withArcSlice [0, 1]) [] 8#8 .C1] (by decide +kernel)
  obtain ⟨s, hs, h0, h1⟩ := hrun
  obtain ⟨-, -, hcount, -⟩ := unroot_at_most_once hs
  exact ⟨s, h0, h1, hcount 0⟩

/-- One slice in two objects, and a clone of the `Arc` outside: the leaf's
count is decremented twice, the cell that is still owned outside has lost its
contribution, and the second decrement has turned the type id 7 into 6. -/
theorem unroot_twice_sharedArc : ∃ s, Lts.Reaches step (fun _ _ => True) St.init s ∧
    s.unroots 0 = 2 ∧ s.outside 0 = true ∧ (s.cells 0).ptrMeta ≠ .Rooted ∧
    s.typeIds 0 = 7#8 ∧ Header.typeId (s.header 0) = 6#8 :=
  Lts.exists_of_runs [.alloc true leaf [] 7#8 .C0, .alloc false (withArcSlice [0]) [0] 8#8 .C0,
    .alloc false (withArcSlice [0]) [0] 8#8 .C0] (by decide +kernel)

end Cdpt.Unroot
