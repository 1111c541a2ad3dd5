import Cdpt.Model.Hazards

/-!
# Hazard slots are owned by one hazard pointer each

The indices of the live hazard pointers and the free list together are the indices
of the array. An operation on a live hazard pointer therefore writes a slot of its
own, and what it wrote stays there: growing copies the old slots and appends as many
null ones, whose indices go to the free list.

The invariant has a permutation for this, of the live indices and the free ones
against the range of the array, from which distinctness and bounds follow together.
Acquiring moves an index from one side to the other, after growing if the free list
is empty (and then it is not); dropping moves it back. The other clauses say what
the slots hold: that of a live hazard pointer what the pointer protects, a free one
null, and the marker array has the marker that goes with each. The code reads and
writes all of them with unchecked indices, so that every operation goes through is
part of the result (`Inv.step`).

The barrier reads the array and the markers side by side. Every slot that is not
null belongs to a live hazard pointer (`Inv.marked`), and has the marker of the type
that pointer protects, so the barrier marks each protected object with its own
function and nothing else.
-/

namespace Cdpt.Hazards

variable {T : Type}

/-- Slot `hid` holds `ptr`, with the marker `m`. -/
def Local.holds (l : Local T) (hid : Nat) (ptr : Word) (m : Option T) : Prop :=
  l.hazards[hid]? = some (some ptr) ∧ l.hazardsMarker[hid]? = some m

/-- The marker that goes with what a hazard pointer protects. -/
def Hp.marker (h : Hp T) : Option T := if h.ptr = 0#64 then none else h.ty

structure Inv (s : St T) : Prop where
  pos : 0 < s.loc.hazards.length
  markers : s.loc.hazardsMarker.length = s.loc.hazards.length
  hids : (s.live.map Hp.hid ++ s.loc.availableHids).Perm (List.range s.loc.hazards.length)
  live : ∀ h ∈ s.live, s.loc.holds h.hid h.ptr h.marker
  typed : ∀ h ∈ s.live, h.ptr ≠ 0#64 → h.ty.isSome = true
  free : ∀ hid ∈ s.loc.availableHids, s.loc.holds hid 0#64 none

theorem Inv.init : Inv (St.init : St T) where
  pos := by
    show 0 < (List.replicate 8 (some 0#64)).length
    rw [List.length_replicate]
    decide
  markers := rfl
  hids := .refl _
  live h hh := by cases hh
  typed h hh := by cases hh
  free hid hh := by
    have hlt : hid < 8 := List.mem_range.1 hh
    refine ⟨?_, ?_⟩
    · show (List.replicate 8 (some 0#64))[hid]? = _
      rw [List.getElem?_replicate, if_pos hlt]
    · show (List.replicate 8 none)[hid]? = _
      rw [List.getElem?_replicate, if_pos hlt]

/-! ## Growing -/

theorem grow_hazards {l : Local T} (hpos : 0 < l.hazards.length) :
    l.growHazards.hazards = l.hazards ++ List.replicate l.hazards.length (some 0#64) := by
  have hmax : max l.hazards.length 1 * 2 = l.hazards.length + l.hazards.length := by omega
  have hcopy : overwrite (List.replicate (max l.hazards.length 1 * 2) none) 0 l.hazards =
      l.hazards ++ List.replicate l.hazards.length none := by
    rw [overwrite, hmax]
    simp
  show overwrite (overwrite _ 0 l.hazards) _ _ = _
  rw [hcopy, overwrite]
  simp

theorem grow_markers {l : Local T} (hlen : l.hazardsMarker.length = l.hazards.length) :
    l.growHazards.hazardsMarker =
      l.hazardsMarker ++ List.replicate l.hazards.length none := by
  have htwo : l.hazards.length * 2 - l.hazards.length = l.hazards.length := by omega
  have htake : l.hazardsMarker.take (l.hazards.length * 2) = l.hazardsMarker :=
    List.take_of_length_le (by omega)
  show resize l.hazardsMarker (l.hazards.length * 2) none = _
  rw [resize, htake, hlen, htwo]

theorem Local.holds.lt {l : Local T} {hid : Nat} {ptr : Word} {m : Option T}
    (h : l.holds hid ptr m) : hid < l.hazards.length ∧ hid < l.hazardsMarker.length :=
  ⟨(List.getElem?_eq_some_iff.1 h.1).1, (List.getElem?_eq_some_iff.1 h.2).1⟩

theorem Local.holds.grow {l : Local T} (hpos : 0 < l.hazards.length)
    (hlen : l.hazardsMarker.length = l.hazards.length) {hid : Nat} {ptr : Word} {m : Option T}
    (h : l.holds hid ptr m) : l.growHazards.holds hid ptr m := by
  obtain ⟨hlt, hlt'⟩ := h.lt
  refine ⟨?_, ?_⟩
  · rw [grow_hazards hpos, List.getElem?_append_left hlt]
    exact h.1
  · rw [grow_markers hlen, List.getElem?_append_left hlt']
    exact h.2

theorem grow_fresh {l : Local T} (hpos : 0 < l.hazards.length)
    (hlen : l.hazardsMarker.length = l.hazards.length) {hid : Nat}
    (hle : l.hazards.length ≤ hid) (hlt : hid < l.hazards.length + l.hazards.length) :
    l.growHazards.holds hid 0#64 none := by
  have hsub : hid - l.hazards.length < l.hazards.length := by omega
  refine ⟨?_, ?_⟩
  · rw [grow_hazards hpos, List.getElem?_append_right hle, List.getElem?_replicate, if_pos hsub]
  · rw [grow_markers hlen, List.getElem?_append_right (by omega), List.getElem?_replicate,
      if_pos (by omega)]

theorem Inv.grow {s : St T} (h : Inv s) : Inv { s with loc := s.loc.growHazards } := by
  have hlength : s.loc.growHazards.hazards.length =
      s.loc.hazards.length + s.loc.hazards.length := by
    rw [grow_hazards h.pos, List.length_append, List.length_replicate]
  have hmarkers := h.markers
  refine ⟨?_, ?_, ?_, ?_, h.typed, ?_⟩
  · show 0 < s.loc.growHazards.hazards.length
    have := h.pos
    omega
  · show s.loc.growHazards.hazardsMarker.length = s.loc.growHazards.hazards.length
    rw [hlength, grow_markers hmarkers, List.length_append, List.length_replicate, hmarkers]
  · show (s.live.map Hp.hid ++ (s.loc.availableHids ++
      List.range' s.loc.hazards.length s.loc.hazards.length)).Perm _
    rw [hlength, ← List.append_assoc, List.range_add, ← List.range'_eq_map_range]
    exact h.hids.append_right _
  · exact fun x hx => (h.live x hx).grow h.pos hmarkers
  · intro hid hmem
    rcases List.mem_append.1 hmem with hmem | hmem
    · exact (h.free hid hmem).grow h.pos hmarkers
    · obtain ⟨hle, hlt⟩ := List.mem_range'_1.1 hmem
      exact grow_fresh h.pos hmarkers hle hlt

/-! ## Taking a slot and giving it back -/

theorem popHid_eq {l l' : Local T} {hid : Nat} (h : l.popHid = some (hid, l')) :
    l.availableHids = l'.availableHids ++ [hid] ∧ l'.hazards = l.hazards ∧
      l'.hazardsMarker = l.hazardsMarker := by
  obtain ⟨x, hx, he⟩ := Option.map_eq_some_iff.1 h
  cases he
  exact ⟨(List.dropLast_append_getLast? hid hx).symm, rfl, rfl⟩

theorem Inv.pop {s : St T} (h : Inv s) {hid : Nat} {l : Local T}
    (hp : s.loc.popHid = some (hid, l)) : Inv ⟨l, s.live ++ [⟨hid, 0#64, none⟩]⟩ := by
  obtain ⟨hav, hhaz, hmark⟩ := popHid_eq hp
  have hholds : ∀ {i ptr m}, s.loc.holds i ptr m → l.holds i ptr m := by
    intro i ptr m hi
    rw [Local.holds, hhaz, hmark]
    exact hi
  have hnew : s.loc.holds hid 0#64 none := h.free hid (by rw [hav]; simp)
  refine ⟨hhaz ▸ h.pos, by rw [hmark, hhaz]; exact h.markers, ?_, ?_, ?_, ?_⟩
  · have hperm := h.hids
    rw [hav] at hperm
    show ((s.live ++ [(⟨hid, 0#64, none⟩ : Hp T)]).map Hp.hid ++ l.availableHids).Perm _
    rw [hhaz, List.map_append, List.append_assoc]
    exact (List.Perm.append_left _ List.perm_append_comm).trans hperm
  · intro x hx
    rcases List.mem_append.1 hx with hx | hx
    · exact hholds (h.live x hx)
    · rw [List.mem_singleton.1 hx]
      exact hholds hnew
  · intro x hx
    rcases List.mem_append.1 hx with hx | hx
    · exact h.typed x hx
    · rw [List.mem_singleton.1 hx]
      exact fun hne => absurd rfl hne
  · exact fun i hi => hholds (h.free i (by rw [hav]; exact List.mem_append_left _ hi))

/-- There is always an index to pop after growing. -/
theorem Inv.acquire {s : St T} (h : Inv s) : ∃ hid l, s.loc.acquireHp = some (hid, l) ∧
    Inv ⟨l, s.live ++ [⟨hid, 0#64, none⟩]⟩ := by
  rw [Local.acquireHp]
  cases hp : s.loc.popHid with
  | some r => exact ⟨r.1, r.2, rfl, h.pop hp⟩
  | none =>
      have hgrow := h.grow
      have hne : s.loc.growHazards.availableHids ≠ [] := by
        show s.loc.availableHids ++ List.range' s.loc.hazards.length s.loc.hazards.length ≠ []
        intro he
        have hlen := congrArg List.length he
        rw [List.length_append, List.length_range', List.length_nil] at hlen
        have := h.pos
        omega
      have hpop : s.loc.growHazards.popHid = some
          (s.loc.growHazards.availableHids.getLast hne, { s.loc.growHazards with
            availableHids := s.loc.growHazards.availableHids.dropLast }) := by
        rw [Local.popHid, List.getLast?_eq_some_getLast hne]
        rfl
      exact ⟨_, _, hpop, hgrow.pop hpop⟩

/-! ## Writing a slot -/

theorem Inv.nodup {s : St T} (h : Inv s) :
    (s.live.map Hp.hid ++ s.loc.availableHids).Nodup :=
  h.hids.nodup_iff.2 List.nodup_range

theorem Inv.distinct {s : St T} (h : Inv s) {i j : Nat} {x y : Hp T} (hi : s.live[i]? = some x)
    (hj : s.live[j]? = some y) (hne : i ≠ j) : x.hid ≠ y.hid := by
  intro he
  have hnodup := (List.nodup_append.1 h.nodup).1
  have hi' : (s.live.map Hp.hid)[i]? = some x.hid := by rw [List.getElem?_map, hi]; rfl
  have hj' : (s.live.map Hp.hid)[j]? = some x.hid := by rw [List.getElem?_map, hj, he]; rfl
  obtain ⟨hlt, -⟩ := List.getElem?_eq_some_iff.1 hi'
  exact hne ((List.getElem?_inj hlt hnodup).1 (hi'.trans hj'.symm))

theorem Inv.not_free {s : St T} (h : Inv s) {x : Hp T} (hx : x ∈ s.live) :
    x.hid ∉ s.loc.availableHids := fun hmem =>
  (List.nodup_append.1 h.nodup).2.2 _ (List.mem_map_of_mem hx) _ hmem rfl

/-- A live hazard pointer writes its slot and nobody else's. -/
theorem Inv.set {s : St T} (h : Inv s) {i : Nat} {x : Hp T} (hi : s.live[i]? = some x)
    (ptr : Word) (ty : Option T) (hty : ptr ≠ 0#64 → ty.isSome = true) :
    ∃ l, s.loc.setSlot x.hid ptr (if ptr = 0#64 then none else ty) = some l ∧
      Inv ⟨l, s.live.set i ⟨x.hid, ptr, ty⟩⟩ := by
  have hx : x ∈ s.live := List.mem_of_getElem? hi
  obtain ⟨hlt, hlt'⟩ := (h.live x hx).lt
  refine ⟨_, if_pos ⟨hlt, hlt'⟩, ?_⟩
  have hother : ∀ {hid ptr' m}, hid ≠ x.hid → s.loc.holds hid ptr' m →
      Local.holds { s.loc with
        hazards := s.loc.hazards.set x.hid (some ptr)
        hazardsMarker := s.loc.hazardsMarker.set x.hid (if ptr = 0#64 then none else ty) }
        hid ptr' m := by
    intro hid ptr' m hne hh
    refine ⟨?_, ?_⟩
    · exact (List.getElem?_set_ne hne.symm).trans hh.1
    · exact (List.getElem?_set_ne hne.symm).trans hh.2
  have hself : Local.holds { s.loc with
        hazards := s.loc.hazards.set x.hid (some ptr)
        hazardsMarker := s.loc.hazardsMarker.set x.hid (if ptr = 0#64 then none else ty) }
        x.hid ptr (if ptr = 0#64 then none else ty) :=
    ⟨List.getElem?_set_self hlt, List.getElem?_set_self hlt'⟩
  have hcase : ∀ y ∈ s.live.set i ⟨x.hid, ptr, ty⟩, y = ⟨x.hid, ptr, ty⟩ ∨
      y ∈ s.live ∧ y.hid ≠ x.hid := by
    intro y hy
    obtain ⟨j, hj⟩ := List.mem_iff_getElem?.1 hy
    by_cases hij : i = j
    · subst hij
      rw [List.getElem?_set_self (List.getElem?_eq_some_iff.1 hi).1] at hj
      exact .inl (Option.some.inj hj).symm
    · rw [List.getElem?_set_ne hij] at hj
      exact .inr ⟨List.mem_of_getElem? hj, (h.distinct hi hj hij).symm⟩
  refine ⟨?_, ?_, ?_, fun y hy => ?_, fun y hy => ?_, fun hid hmem => ?_⟩
  · show 0 < (s.loc.hazards.set x.hid (some ptr)).length
    rw [List.length_set]
    exact h.pos
  · show (s.loc.hazardsMarker.set _ _).length = (s.loc.hazards.set _ _).length
    rw [List.length_set, List.length_set]
    exact h.markers
  · show ((s.live.set i (⟨x.hid, ptr, ty⟩ : Hp T)).map Hp.hid ++ s.loc.availableHids).Perm
      (List.range (s.loc.hazards.set _ _).length)
    have hmap : (s.live.set i (⟨x.hid, ptr, ty⟩ : Hp T)).map Hp.hid = s.live.map Hp.hid := by
      have hget : (s.live.map Hp.hid)[i]? = some x.hid := by rw [List.getElem?_map, hi]; rfl
      obtain ⟨hlen, hval⟩ := List.getElem?_eq_some_iff.1 hget
      rw [List.map_set, ← hval, List.set_getElem_self]
    rw [hmap, List.length_set]
    exact h.hids
  · rcases hcase y hy with rfl | ⟨hy, hne⟩
    · exact hself
    · exact hother hne (h.live y hy)
  · rcases hcase y hy with rfl | ⟨hy, -⟩
    · exact hty
    · exact h.typed y hy
  · refine hother ?_ (h.free hid hmem)
    rintro rfl
    exact h.not_free hx hmem

/-- A cleared slot can go back to the free list. -/
theorem Inv.release {l : Local T} {live : List (Hp T)} {i hid : Nat} (hi : i < live.length)
    (h : Inv ⟨l, live.set i ⟨hid, 0#64, none⟩⟩) : Inv ⟨l.releaseHp hid, live.eraseIdx i⟩ := by
  have hperm : (live.set i ⟨hid, 0#64, none⟩).Perm (⟨hid, 0#64, none⟩ :: live.eraseIdx i) :=
    List.set_perm_cons_eraseIdx hi _
  have hsub : ∀ y ∈ live.eraseIdx i, y ∈ live.set i ⟨hid, 0#64, none⟩ :=
    fun y hy => hperm.mem_iff.2 (List.mem_cons_of_mem _ hy)
  refine ⟨h.pos, h.markers, ?_, fun y hy => h.live y (hsub y hy),
    fun y hy => h.typed y (hsub y hy), fun x hx => ?_⟩
  · show ((live.eraseIdx i).map Hp.hid ++ (l.availableHids ++ [hid])).Perm _
    have hmap := (hperm.map Hp.hid).append_right l.availableHids
    refine List.Perm.trans ?_ (hmap.symm.trans h.hids)
    rw [List.map_cons, List.cons_append, ← List.append_assoc]
    exact List.perm_append_singleton hid _
  · rcases List.mem_append.1 hx with hx | hx
    · exact h.free x hx
    · rw [List.mem_singleton.1 hx]
      exact h.live ⟨hid, 0#64, none⟩ (hperm.mem_iff.2 List.mem_cons_self)

/-- Every operation on a live hazard pointer goes through. -/
theorem Inv.step (align : T → Align) {s : St T} (h : Inv s) {l : Label T} (he : enabled s l) :
    ∃ s', Hazards.step align s l = some s' ∧ Inv s' := by
  have hget : ∀ {i : Nat}, i < s.live.length → ∃ x, s.live[i]? = some x :=
    fun hi => ⟨_, List.getElem?_eq_getElem hi⟩
  cases l with
  | new =>
      obtain ⟨hid, l, hl, hinv⟩ := h.acquire
      exact ⟨_, by rw [Hazards.step, hl]; rfl, hinv⟩
  | protect i ty addr =>
      obtain ⟨x, hx⟩ := hget he
      obtain ⟨l, hl, hinv⟩ := h.set hx (Word.asPtr (align ty) addr) (some ty) fun _ => rfl
      have hp : s.loc.protect align x.hid ty addr = some l := by
        rw [Local.protect, ← hl]
        simp only [Word.isNull, beq_iff_eq]
      exact ⟨_, by rw [Hazards.step, hx, Option.bind_some, hp]; rfl, hinv⟩
  | clear i =>
      obtain ⟨x, hx⟩ := hget he
      obtain ⟨l, hl, hinv⟩ := h.set hx 0#64 none fun hne => absurd rfl hne
      have hc : s.loc.clear x.hid = some l := hl
      exact ⟨_, by rw [Hazards.step, hx, Option.bind_some, hc]; rfl, hinv⟩
  | drop i =>
      obtain ⟨x, hx⟩ := hget he
      obtain ⟨l, hl, hinv⟩ := h.set hx 0#64 none fun hne => absurd rfl hne
      have hc : s.loc.clear x.hid = some l := hl
      refine ⟨_, ?_, hinv.release he⟩
      rw [Hazards.step, hx, Option.bind_some, Local.drop, hc]
      rfl

theorem enabled_of_step {align : T → Align} {s s' : St T} {l : Label T}
    (hs : step align s l = some s') : enabled s l := by
  cases l with
  | new => trivial
  | protect i ty addr | clear i | drop i =>
      obtain ⟨x, hx, -⟩ := Option.bind_eq_some_iff.1 hs
      exact (List.getElem?_eq_some_iff.1 hx).1

theorem Inv.of_reaches {align : T → Align} {Q : St T → Label T → Prop} {s s' : St T} (h : Inv s)
    (hr : Lts.Reaches (Hazards.step align) Q s s') : Inv s' := by
  refine hr.invariant h fun {a b l} ha _ hs => ?_
  obtain ⟨b', hb, hinv⟩ := ha.step align (enabled_of_step hs)
  rw [hs] at hb
  exact Option.some.inj hb ▸ hinv

/-! ## The barrier -/

theorem barrierCalls_isSome : ∀ {ps : List (Option Word × Option T)},
    (∀ p ∈ ps, ∃ ptr, p.1 = some ptr ∧ (ptr ≠ 0#64 → p.2.isSome = true)) →
    (barrierCalls ps).isSome = true := by
  intro ps
  induction ps with
  | nil => exact fun _ => rfl
  | cons p ps ih =>
      intro h
      obtain ⟨ptr, hptr, hmark⟩ := h p List.mem_cons_self
      have hrest := ih fun q hq => h q (List.mem_cons_of_mem p hq)
      obtain ⟨slot, mark⟩ := p
      cases hptr
      rw [barrierCalls]
      split
      · exact hrest
      · next hne =>
          obtain ⟨m, rfl⟩ := Option.isSome_iff_exists.1 (hmark hne)
          obtain ⟨calls, hc⟩ := Option.isSome_iff_exists.1 hrest
          rw [hc]
          rfl

/-- Every slot is that of a live hazard pointer or free. -/
theorem Inv.owner {s : St T} (h : Inv s) {hid : Nat} (hlt : hid < s.loc.hazards.length) :
    (∃ x ∈ s.live, x.hid = hid) ∨ hid ∈ s.loc.availableHids := by
  have hmem := h.hids.mem_iff.2 (List.mem_range.2 hlt)
  exact (List.mem_append.1 hmem).imp List.mem_map.1 id

/-- A slot that is not null belongs to a live hazard pointer and has the marker
for what that one protects. -/
theorem Inv.marked {s : St T} (h : Inv s) {hid : Nat} {ptr : Word}
    (hslot : s.loc.hazards[hid]? = some (some ptr)) (hne : ptr ≠ 0#64) :
    ∃ x ∈ s.live, x.hid = hid ∧ x.ptr = ptr ∧
      ∃ ty, x.ty = some ty ∧ s.loc.hazardsMarker[hid]? = some (some ty) := by
  rcases h.owner (List.getElem?_eq_some_iff.1 hslot).1 with ⟨x, hx, rfl⟩ | hmem
  · obtain ⟨hptr, hmark⟩ := h.live x hx
    rw [hslot, Option.some.injEq, Option.some.injEq] at hptr
    subst hptr
    obtain ⟨ty, hty⟩ := Option.isSome_iff_exists.1 (h.typed x hx hne)
    refine ⟨x, hx, rfl, rfl, ty, hty, ?_⟩
    rw [hmark, Hp.marker, if_neg hne, hty]
  · obtain ⟨hptr, -⟩ := h.free hid hmem
    rw [hslot, Option.some.injEq, Option.some.injEq] at hptr
    exact absurd hptr hne

theorem Inv.barrier {s : St T} (h : Inv s) : s.loc.phaseBarrier.isSome = true := by
  refine barrierCalls_isSome fun p hp => ?_
  obtain ⟨hid, hget⟩ := List.mem_iff_getElem?.1 hp
  obtain ⟨hslot, hmark⟩ := List.getElem?_zip_eq_some.1 hget
  have hsome : ∃ ptr, p.1 = some ptr := by
    rcases h.owner (List.getElem?_eq_some_iff.1 hslot).1 with ⟨x, hx, rfl⟩ | hmem
    · exact ⟨_, Option.some.inj (hslot.symm.trans (h.live x hx).1)⟩
    · exact ⟨_, Option.some.inj (hslot.symm.trans (h.free hid hmem).1)⟩
  obtain ⟨ptr, hptr⟩ := hsome
  refine ⟨ptr, hptr, fun hne => ?_⟩
  rw [hptr] at hslot
  obtain ⟨x, -, -, -, ty, -, hty⟩ := h.marked hslot hne
  rw [Option.some.inj (hmark.symm.trans hty)]
  rfl

/-- After any sequence of operations, whatever the number of hazard pointers
and of growths: the indices of the live ones are distinct and make up the array
with the free ones; both arrays have one length; the slot of a live one holds
what it protected last and a free slot is null; a slot that is not null has the
marker of the type it was protected at, so that the barrier finds one; and
every operation on a live hazard pointer stays inside the arrays. -/
theorem hazard_slots (align : T → Align) {s : St T}
    (hr : Lts.Reaches (step align) (fun _ _ => True) St.init s) :
    (s.live.map Hp.hid).Nodup ∧
    (s.live.map Hp.hid ++ s.loc.availableHids).Perm (List.range s.loc.hazards.length) ∧
    s.loc.hazardsMarker.length = s.loc.hazards.length ∧
    (∀ x ∈ s.live, s.loc.hazards[x.hid]? = some (some x.ptr)) ∧
    (∀ hid ∈ s.loc.availableHids, s.loc.hazards[hid]? = some (some 0#64)) ∧
    (∀ hid ptr, s.loc.hazards[hid]? = some (some ptr) → ptr ≠ 0#64 →
      ∃ x ∈ s.live, x.hid = hid ∧ x.ptr = ptr ∧
        ∃ ty, x.ty = some ty ∧ s.loc.hazardsMarker[hid]? = some (some ty)) ∧
    s.loc.phaseBarrier.isSome = true ∧
    ∀ l, enabled s l → (step align s l).isSome = true := by
  have h := Inv.init.of_reaches hr
  refine ⟨(List.nodup_append.1 h.nodup).1, h.hids, h.markers, fun x hx => (h.live x hx).1,
    fun hid hmem => (h.free hid hmem).1, fun hid ptr hslot hne => h.marked hslot hne, h.barrier,
    fun l he => ?_⟩
  obtain ⟨s', hs, -⟩ := h.step align he
  rw [hs]
  rfl

theorem three_le_bits : 3 ≤ 61 := by decide

def wordAligned : Unit → Align := fun _ => ⟨3, three_le_bits⟩

/-- The ninth hazard pointer makes the arrays grow. -/
def nine : List (Label Unit) := .new :: .protect 0 () 64#64 :: List.replicate 8 .new

theorem hazard_slots_nine : ∃ s : St Unit, s.live.length = 9 ∧ s.loc.hazards.length = 16 ∧
    s.loc.hazards[7]? = some (some 64#64) ∧ (s.live.map Hp.hid).Nodup ∧
    s.loc.phaseBarrier.isSome = true := by
  have hrun : (Lts.runs (step wordAligned) (fun _ _ => True) St.init nine).any
      (fun s => decide (s.live.length = 9 ∧ s.loc.hazards.length = 16 ∧
        s.loc.hazards[7]? = some (some 64#64))) = true := by decide +kernel
  obtain ⟨s, hr, hp⟩ := Lts.exists_of_any hrun
  obtain ⟨hlive, hlen, hslot⟩ := of_decide_eq_true hp
  obtain ⟨hnodup, -, -, -, -, -, hbarrier, -⟩ := hazard_slots wordAligned hr
  exact ⟨s, hlive, hlen, hslot, hnodup, hbarrier⟩

end Cdpt.Hazards
