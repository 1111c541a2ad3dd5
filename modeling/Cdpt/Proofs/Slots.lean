import Cdpt.Lib.Chain
import Cdpt.Lib.Sums
import Cdpt.Model.Slots

/-!
# Slots are exclusive, permanent and visible

The nodes form one chain that is written at its end only, by the CAS that finds null
there; a call holds positions of that chain and nothing else, so what it holds stays
in it. A node has an owner from the CAS that takes it (or links it as new) to the
store that gives it back, and all that time its flag is set, which keeps others from
taking it. The counter lags behind: it counts the owners between their increment and
their decrement.

A traversal has passed a prefix of the chain. What it has handed out is part of that
prefix, and a node that was there when it started is in the prefix or ahead.

The invariant carries the chain as a list and says that following the pointers from
the head gives this list (`Lib.Chain`). A call that walks has a cursor on a cell of
it (`Inv.cursor`), so the list splits there into what is behind and what is ahead,
and a load moves the split by one. Only one step changes the list, the CAS that
appends; it finds null in the last cell, so the cursor was at the end, and the calls
that stand elsewhere are not disturbed (`CallOk.snoc`). The steps that leave the
chain alone are all instances of one lemma about a call that moves to another
position (`Inv.move`).

The counter is a sum over calls, each of which counts for one or for nothing, and it
equals the number of entries whenever no acquire and no drop is in flight. For the
traversals the run matters and not a single state: `Sees` says of a node that it was
handed out or lies ahead, each access of the traversal keeps it, and the end of the
chain leaves the first alternative.
-/

namespace Cdpt.Slots

open Chain (Seg)
open Finset

/-! ## The invariant -/

/-- The call owns node `n`. -/
def Call.holds (n : Nat) : Call → Prop
  | .count m | .live m | .uncount m | .release m => m = n
  | _ => False

/-- The call has acquired a node, and may have given it back. -/
def Call.acquired : Call → Bool
  | .count _ | .live _ | .uncount _ | .release _ | .dropped => true
  | _ => false

/-- The call's share of `active_count`. -/
def Call.counted : Call → Nat
  | .live _ | .uncount _ => 1
  | _ => 0

/-- What a call relies on when the chain is `l`. -/
def CallOk (l : List Nat) : Call → Prop
  | .load prev | .append prev => ∀ n, prev = some n → n ∈ l
  | .test n | .take n | .count n | .live n | .uncount n | .release n => n ∈ l
  | .dropped | .iterHead _ => True
  | .iter _ curr visited => ∃ l₁ l₂, l = l₁ ++ l₂ ∧ visited.Sublist l₁ ∧
      ∀ n, curr = some n → l₂.head? = some n
  | .iterTest n nx visited => ∃ l₁ l₂, l = l₁ ++ n :: l₂ ∧ visited.Sublist l₁ ∧
      ∀ m, nx = some m → l₂.head? = some m

structure Inv (s : St) (l : List Nat) : Prop where
  list : Seg s.next s.head l
  nodup : l.Nodup
  calls : ∀ c, CallOk l (s.calls c)
  node : ∀ n ∈ l, (s.calls n).acquired = true
  owner : ∀ {c c' n}, (s.calls c).holds n → (s.calls c').holds n → c = c'
  flag : ∀ {c n}, (s.calls c).holds n → s.isUsing n = true
  beyond : ∀ c, s.nCalls ≤ c → s.calls c = .dropped
  listed : ∀ n ∈ l, n < s.nCalls
  count : s.activeCount = (∑ c ∈ range s.nCalls, (s.calls c).counted : Nat)

theorem holds_mem {l : List Nat} {x : Call} {n : Nat} (h : CallOk l x) (hn : x.holds n) :
    n ∈ l := by
  cases x with
  | count m | live m | uncount m | release m =>
      obtain rfl : m = n := hn
      exact h
  | _ => exact hn.elim

theorem Inv.init : Inv St.init [] where
  list := rfl
  nodup := List.nodup_nil
  calls _ := trivial
  node n h := by cases h
  owner h := h.elim
  flag h := h.elim
  beyond _ _ := rfl
  listed n h := by cases h
  count := rfl

theorem head?_snoc {l : List Nat} {n c : Nat} (h : l.head? = some n) :
    (l ++ [c]).head? = some n := by
  cases l with
  | nil => cases h
  | cons m l => exact h

/-- A longer chain does not disturb a call. -/
theorem CallOk.snoc {l : List Nat} {x : Call} (c : Nat) (h : CallOk l x) :
    CallOk (l ++ [c]) x := by
  cases x with
  | load prev | append prev => exact fun n hn => List.mem_append_left _ (h n hn)
  | test n | take n | count n | live n | uncount n | release n => exact List.mem_append_left _ h
  | dropped | iterHead => trivial
  | iter all curr visited =>
      obtain ⟨l₁, l₂, rfl, hv, hc⟩ := h
      exact ⟨l₁, l₂ ++ [c], by simp, hv, fun n hn => head?_snoc (hc n hn)⟩
  | iterTest n nx visited =>
      obtain ⟨l₁, l₂, rfl, hv, hc⟩ := h
      exact ⟨l₁, l₂ ++ [c], by simp, hv, fun m hm => head?_snoc (hc m hm)⟩

/-! ## Steps that leave the chain alone -/

theorem counted_update (calls : Nat → Call) {n c : Nat} (x : Call) (hc : c < n) :
    ∑ i ∈ range n, (Function.update calls c x i).counted + (calls c).counted =
      ∑ i ∈ range n, (calls i).counted + x.counted := by
  have h := Sums.sum_exchange (u := range n) (k := c)
    (f := fun i => (Function.update calls c x i).counted) (g := fun i => (calls i).counted)
    (mem_range.2 hc) fun i _ hi => by rw [Function.update_of_ne hi]
  rwa [Function.update_self] at h

/-- A call moves to the position `x`, and the counter and the flags follow. -/
theorem Inv.move {s s' : St} {l : List Nat} (h : Inv s l) {c : Nat} {x : Call}
    (hlt : c < s.nCalls) (hhead : s'.head = s.head) (hnext : s'.next = s.next)
    (hn : s'.nCalls = s.nCalls) (hcalls : s'.calls = Function.update s.calls c x)
    (hok : CallOk l x) (hacq : (s.calls c).acquired = true → x.acquired = true)
    (hcount : s'.activeCount + (s.calls c).counted = s.activeCount + x.counted)
    (hhold : ∀ n, x.holds n → s'.isUsing n = true ∧
      ((s.calls c).holds n ∨ s.isUsing n = false))
    (hflag : ∀ d n, d ≠ c → (s.calls d).holds n → s'.isUsing n = true) : Inv s' l := by
  have hne : ∀ {d}, d ≠ c → s'.calls d = s.calls d := fun hd => by
    rw [hcalls, Function.update_of_ne hd]
  have hself : s'.calls c = x := by rw [hcalls, Function.update_self]
  refine ⟨hnext ▸ hhead ▸ h.list, h.nodup, ?_, ?_, ?_, ?_, ?_, hn ▸ h.listed, ?_⟩
  · intro d
    by_cases hd : d = c
    · subst hd
      rwa [hself]
    · rw [hne hd]
      exact h.calls d
  · intro n hm
    by_cases hd : n = c
    · subst hd
      rw [hself]
      exact hacq (h.node n hm)
    · rw [hne hd]
      exact h.node n hm
  · have hother : ∀ {d n}, d ≠ c → (s'.calls c).holds n → (s'.calls d).holds n → False := by
      intro d n hd hc hdn
      rw [hself] at hc
      rw [hne hd] at hdn
      rcases (hhold n hc).2 with hc | hfree
      · exact hd (h.owner hdn hc)
      · rw [h.flag hdn] at hfree
        cases hfree
    intro d d' n hd hd'
    by_cases hdc : d = c
    · by_cases hdc' : d' = c
      · rw [hdc, hdc']
      · exact (hother hdc' (hdc ▸ hd) hd').elim
    · by_cases hdc' : d' = c
      · exact (hother hdc (hdc' ▸ hd') hd).elim
      · rw [hne hdc] at hd
        rw [hne hdc'] at hd'
        exact h.owner hd hd'
  · intro d n hd
    by_cases hdc : d = c
    · subst hdc
      rw [hself] at hd
      exact (hhold n hd).1
    · rw [hne hdc] at hd
      exact hflag d n hdc hd
  · intro d hd
    rw [hn] at hd
    have hdc : d ≠ c := by omega
    rw [hne hdc]
    exact h.beyond d hd
  · have hsum := counted_update s.calls x hlt
    have hc := h.count
    rw [hn, hcalls]
    omega

/-! ## The step that grows the chain -/

theorem link_calls (s : St) (prev : Link) (c : Nat) :
    (s.link prev c).calls = s.calls ∧ (s.link prev c).nCalls = s.nCalls ∧
      (s.link prev c).activeCount = s.activeCount ∧
      (s.link prev c).isUsing = Function.update s.isUsing c true := by
  cases prev <;> exact ⟨rfl, rfl, rfl, rfl⟩

theorem Inv.seg_link {s : St} {l : List Nat} (h : Inv s l) {c : Nat} {prev : Link}
    (hc : s.calls c = .append prev) (hend : s.readLink prev = none) (hl : c ∉ l) :
    Seg (s.link prev c).next (s.link prev c).head (l ++ [c]) := by
  have hnull : Function.update s.next c none c = none := Function.update_self ..
  cases prev with
  | none =>
      have hempty : l = [] := by
        have hh := h.list.head
        have hs : s.head = none := hend
        rw [hs] at hh
        exact List.head?_eq_none_iff.1 hh.symm
      subst hempty
      exact ⟨rfl, hnull⟩
  | some n =>
      have hok := h.calls c
      rw [hc] at hok
      have hn : n ∈ l := hok n rfl
      have hne : n ≠ c := by
        rintro rfl
        exact hl hn
      have hseg : Seg (Function.update s.next c none) s.head l := by
        refine h.list.congr fun m hm => Function.update_of_ne ?_ _ _
        rintro rfl
        exact hl hm
      refine hseg.snoc hn ?_ hl hnull
      rw [Function.update_of_ne hne]
      exact hend

theorem Inv.append {s : St} {l : List Nat} (h : Inv s l) {c : Nat} {prev : Link}
    (hlt : c < s.nCalls) (hc : s.calls c = .append prev) (hend : s.readLink prev = none) :
    Inv ((s.link prev c).setCall c (.count c)) (l ++ [c]) := by
  have hl : c ∉ l := by
    intro hm
    have := h.node c hm
    rw [hc] at this
    cases this
  obtain ⟨hcalls, hn, hact, hus⟩ := link_calls s prev c
  have hne : ∀ {d}, d ≠ c → ((s.link prev c).setCall c (.count c)).calls d = s.calls d := by
    intro d hd
    exact (Function.update_of_ne hd _ _).trans (congrFun hcalls d)
  have hself : ((s.link prev c).setCall c (.count c)).calls c = .count c :=
    Function.update_self ..
  have hholds : ∀ {d n}, (s.calls d).holds n → n ≠ c := by
    rintro d n hd rfl
    exact hl (holds_mem (h.calls d) hd)
  refine ⟨h.seg_link hc hend hl, ?_, ?_, ?_, ?_, ?_, ?_, ?_, ?_⟩
  · exact h.nodup.append (List.nodup_singleton c) (List.disjoint_singleton.2 hl)
  · intro d
    by_cases hd : d = c
    · subst hd
      rw [hself]
      exact List.mem_append_right _ (List.mem_singleton_self d)
    · rw [hne hd]
      exact (h.calls d).snoc c
  · intro n hm
    by_cases hd : n = c
    · subst hd
      rw [hself]
      rfl
    · rw [hne hd]
      exact h.node n ((List.mem_append.1 hm).resolve_right fun hm => hd (List.mem_singleton.1 hm))
  · have hother : ∀ {d n}, d ≠ c → (Call.count c).holds n →
        ¬ (((s.link prev c).setCall c (.count c)).calls d).holds n := by
      intro d n hd hn' hdn
      obtain rfl : c = n := hn'
      rw [hne hd] at hdn
      exact hholds hdn rfl
    intro d d' n hd hd'
    by_cases hdc : d = c
    · subst hdc
      by_cases hdc' : d' = d
      · exact hdc'.symm
      · rw [hself] at hd
        exact (hother hdc' hd hd').elim
    · by_cases hdc' : d' = c
      · subst hdc'
        rw [hself] at hd'
        exact (hother hdc hd' hd).elim
      · rw [hne hdc] at hd
        rw [hne hdc'] at hd'
        exact h.owner hd hd'
  · intro d n hd
    show (s.link prev c).isUsing n = true
    rw [hus]
    by_cases hdc : d = c
    · subst hdc
      rw [hself] at hd
      obtain rfl : d = n := hd
      exact Function.update_self ..
    · rw [hne hdc] at hd
      rw [Function.update_of_ne (hholds hd)]
      exact h.flag hd
  · intro d hd
    have hd' : s.nCalls ≤ d := hn ▸ hd
    rw [hne (show d ≠ c by omega)]
    exact h.beyond d hd'
  · intro n hm
    show n < (s.link prev c).nCalls
    rw [hn]
    rcases List.mem_append.1 hm with hm | hm
    · exact h.listed n hm
    · exact List.mem_singleton.1 hm ▸ hlt
  · show (s.link prev c).activeCount = _
    rw [hact, h.count]
    have hsum := counted_update s.calls (.count c) hlt
    have h0 : (s.calls c).counted = 0 := by rw [hc]; rfl
    have h1 : (Call.count c).counted = 0 := rfl
    have hcalls' : ((s.link prev c).setCall c (.count c)).calls =
        Function.update s.calls c (.count c) := by rw [St.setCall, hcalls]
    have hn' : ((s.link prev c).setCall c (.count c)).nCalls = s.nCalls := hn
    rw [hcalls', hn']
    omega

/-! ## Every step -/

/-- The cell under the cursor and what is behind it. -/
theorem Inv.cursor {s : St} {l l₁ l₂ : List Nat} (h : Inv s l) {n : Nat} (hl : l = l₁ ++ l₂)
    (hn : l₂.head? = some n) : ∃ l₃, l = l₁ ++ n :: l₃ ∧ s.next n = l₃.head? := by
  cases l₂ with
  | nil => cases hn
  | cons m l₃ =>
      cases hn
      have hseg := h.list
      rw [hl] at hseg
      exact ⟨l₃, hl, hseg.drop.head⟩

/-- The positions of a call that does not own a node. -/
def Call.walks : Call → Bool
  | .load _ | .append _ | .test _ | .take _ | .iterHead _ | .iter _ _ _ | .iterTest _ _ _ => true
  | _ => false

theorem Inv.walk {s : St} {l : List Nat} (h : Inv s l) {c : Nat} {x : Call} (hlt : c < s.nCalls)
    (hc : (s.calls c).walks = true) (hx : x.walks = true) (hok : CallOk l x) :
    Inv (s.setCall c x) l := by
  have hnone : ∀ {y : Call}, y.walks = true →
      y.acquired = false ∧ y.counted = 0 ∧ ∀ n, ¬ y.holds n := by
    intro y hy
    cases y <;> first | exact ⟨rfl, rfl, fun _ hn => hn⟩ | cases hy
  obtain ⟨hca, hcc, -⟩ := hnone hc
  obtain ⟨-, hxc, hxn⟩ := hnone hx
  refine h.move (x := x) hlt rfl rfl rfl rfl hok (by simp [hca]) ?_ (fun n hn => (hxn n hn).elim)
    fun _ _ _ hd => h.flag hd
  show s.activeCount + _ = _
  rw [hcc, hxc]

theorem Inv.exec {s s' : St} {l : List Nat} (h : Inv s l) {c : Nat} (hlt : c < s.nCalls)
    (hs : Slots.exec s c (s.calls c) = some s') : ∃ l', Inv s' l' ∧ (l' = l ∨ l' = l ++ [c]) := by
  have hok := h.calls c
  have hflag : ∀ d n, d ≠ c → (s.calls d).holds n → s.isUsing n = true :=
    fun _ _ _ hd => h.flag hd
  cases hc : s.calls c with
  | load prev =>
      rw [hc] at hs hok
      simp only [Slots.exec, Option.some.injEq] at hs
      subst hs
      have hread : ∀ n, s.readLink prev = some n → n ∈ l := by
        intro n hn
        cases prev with
        | none =>
            have hh : l.head? = some n := h.list.head.symm.trans hn
            exact List.mem_of_mem_head? hh
        | some m =>
            obtain ⟨l₁, l₂, rfl⟩ := List.append_of_mem (hok m rfl)
            have hh : l₂.head? = some n := h.list.drop.head.symm.trans hn
            exact List.mem_append_right _ (List.mem_cons_of_mem _ (List.mem_of_mem_head? hh))
      refine ⟨l, ?_, .inl rfl⟩
      cases hr : s.readLink prev with
      | none =>
          exact h.walk hlt (by rw [hc]; rfl) rfl hok
      | some n =>
          exact h.walk hlt (by rw [hc]; rfl) rfl (hread n hr)
  | append prev =>
      rw [hc] at hs hok
      simp only [Slots.exec, Option.some.injEq] at hs
      cases hr : s.readLink prev with
      | none =>
          rw [hr] at hs
          subst hs
          exact ⟨l ++ [c], h.append hlt hc hr, .inr rfl⟩
      | some n =>
          rw [hr] at hs
          subst hs
          exact ⟨l, h.walk hlt (by rw [hc]; rfl) rfl hok, .inl rfl⟩
  | test n =>
      rw [hc] at hs hok
      simp only [Slots.exec, Option.some.injEq] at hs
      subst hs
      refine ⟨l, ?_, .inl rfl⟩
      cases hu : s.isUsing n with
      | true =>
          exact h.walk hlt (by rw [hc]; rfl) rfl fun m hm => Option.some.inj hm ▸ hok
      | false =>
          exact h.walk hlt (by rw [hc]; rfl) rfl hok
  | take n =>
      rw [hc] at hs hok
      simp only [Slots.exec, Option.some.injEq] at hs
      refine ⟨l, ?_, .inl rfl⟩
      cases hu : s.isUsing n with
      | true =>
          rw [hu, if_pos rfl] at hs
          subst hs
          exact h.walk hlt (by rw [hc]; rfl) rfl fun m hm => Option.some.inj hm ▸ hok
      | false =>
          rw [hu, if_neg Bool.false_ne_true] at hs
          subst hs
          refine h.move (x := .count n) hlt rfl rfl rfl rfl hok (by rw [hc]; exact fun _ => rfl)
            (by rw [hc]; rfl) ?_ ?_
          · intro m hm
            obtain rfl : n = m := hm
            exact ⟨Function.update_self .., .inr hu⟩
          · intro d m _ hd
            show Function.update s.isUsing n true m = true
            by_cases hm : m = n
            · subst hm
              exact Function.update_self ..
            · rw [Function.update_of_ne hm]
              exact h.flag hd
  | count n =>
      rw [hc] at hs hok
      simp only [Slots.exec, Option.some.injEq] at hs
      subst hs
      refine ⟨l, h.move (x := .live n) hlt rfl rfl rfl rfl hok (fun _ => rfl) ?_ ?_ hflag, .inl rfl⟩
      · rw [hc]
        show s.activeCount + 1 + ((0 : Nat) : Int) = s.activeCount + ((1 : Nat) : Int)
        omega
      · intro m hm
        rw [hc]
        exact ⟨h.flag (c := c) (by rw [hc]; exact hm), .inl hm⟩
  | live n =>
      rw [hc] at hs
      cases hs
  | uncount n =>
      rw [hc] at hs hok
      simp only [Slots.exec, Option.some.injEq] at hs
      subst hs
      refine ⟨l, h.move (x := .release n) hlt rfl rfl rfl rfl hok (fun _ => rfl) ?_ ?_ hflag,
        .inl rfl⟩
      · rw [hc]
        show s.activeCount - 1 + ((1 : Nat) : Int) = s.activeCount + ((0 : Nat) : Int)
        omega
      · intro m hm
        rw [hc]
        exact ⟨h.flag (c := c) (by rw [hc]; exact hm), .inl hm⟩
  | release n =>
      rw [hc] at hs
      simp only [Slots.exec, Option.some.injEq] at hs
      subst hs
      refine ⟨l, h.move (x := .dropped) hlt rfl rfl rfl rfl trivial (fun _ => rfl)
        (by rw [hc]; rfl) (fun m hm => hm.elim) ?_, .inl rfl⟩
      intro d m hd hdm
      show Function.update s.isUsing n false m = true
      have hm : m ≠ n := by
        rintro rfl
        exact hd (h.owner hdm (by rw [hc]; rfl))
      rw [Function.update_of_ne hm]
      exact h.flag hdm
  | dropped =>
      rw [hc] at hs
      cases hs
  | iterHead all =>
      rw [hc] at hs
      simp only [Slots.exec, Option.some.injEq] at hs
      subst hs
      refine ⟨l, h.walk hlt (by rw [hc]; rfl) rfl ?_, .inl rfl⟩
      exact ⟨[], l, rfl, List.Sublist.refl _, fun n hn => h.list.head.symm.trans hn⟩
  | iter all curr visited =>
      rw [hc] at hs hok
      cases curr with
      | none => cases hs
      | some n =>
          simp only [Slots.exec, Option.some.injEq] at hs
          subst hs
          obtain ⟨l₁, l₂, hl, hv, hn⟩ := hok
          obtain ⟨l₃, hl₃, hnext⟩ := h.cursor hl (hn n rfl)
          refine ⟨l, ?_, .inl rfl⟩
          cases all with
          | true =>
              refine h.walk hlt (by rw [hc]; rfl) rfl ?_
              exact ⟨l₁ ++ [n], l₃, by rw [hl₃, List.append_assoc]; rfl,
                hv.append (List.Sublist.refl [n]), fun m hm => hnext.symm.trans hm⟩
          | false =>
              refine h.walk hlt (by rw [hc]; rfl) rfl ?_
              exact ⟨l₁, l₃, hl₃, hv, fun m hm => hnext.symm.trans hm⟩
  | iterTest n nx visited =>
      rw [hc] at hs hok
      simp only [Slots.exec, Option.some.injEq] at hs
      subst hs
      obtain ⟨l₁, l₂, hl, hv, hn⟩ := hok
      refine ⟨l, h.walk hlt (by rw [hc]; rfl) rfl ?_, .inl rfl⟩
      refine ⟨l₁ ++ [n], l₂, by rw [hl, List.append_assoc]; rfl, ?_, hn⟩
      split
      · exact hv.append (List.Sublist.refl [n])
      · exact hv.trans (List.sublist_append_left _ _)

theorem Inv.begin {s : St} {l : List Nat} (h : Inv s l) {x : Call} (hx : x.walks = true)
    (hok : CallOk l x) : Inv (s.begin x) l := by
  -- The new call takes the place of one beyond the end, which owned nothing.
  have hgrown : Inv { s with nCalls := s.nCalls + 1, calls := Function.update s.calls s.nCalls x }
      l := by
    have hne : ∀ {d}, d ≠ s.nCalls → Function.update s.calls s.nCalls x d = s.calls d :=
      fun hd => Function.update_of_ne hd _ _
    have hno : ∀ n, ¬ (Function.update s.calls s.nCalls x s.nCalls).holds n := by
      intro n hn
      rw [Function.update_self] at hn
      cases x <;> first | exact hn | cases hx
    have hcalls : ∀ {d n}, (Function.update s.calls s.nCalls x d).holds n →
        (s.calls d).holds n := by
      intro d n hd
      by_cases hdc : d = s.nCalls
      · subst hdc
        exact (hno n hd).elim
      · rwa [hne hdc] at hd
    refine ⟨h.list, h.nodup, ?_, ?_, fun hd hd' => h.owner (hcalls hd) (hcalls hd'),
      fun hd => h.flag (hcalls hd), ?_, fun n hm => Nat.lt_succ_of_lt (h.listed n hm), ?_⟩
    · intro d
      by_cases hdc : d = s.nCalls
      · subst hdc
        show CallOk l (Function.update s.calls s.nCalls x s.nCalls)
        rwa [Function.update_self]
      · show CallOk l (Function.update s.calls s.nCalls x d)
        rw [hne hdc]
        exact h.calls d
    · intro n hm
      show (Function.update s.calls s.nCalls x n).acquired = true
      rw [hne (Nat.ne_of_lt (h.listed n hm))]
      exact h.node n hm
    · intro d hd
      have hd' : s.nCalls + 1 ≤ d := hd
      show Function.update s.calls s.nCalls x d = .dropped
      rw [hne (show d ≠ s.nCalls by omega)]
      exact h.beyond d (by omega)
    · have hx0 : x.counted = 0 := by cases x <;> first | rfl | cases hx
      show s.activeCount =
        (∑ d ∈ range (s.nCalls + 1), (Function.update s.calls s.nCalls x d).counted : Nat)
      rw [sum_range_succ, Function.update_self, hx0, h.count, Nat.add_zero]
      congr 1
      refine sum_congr rfl fun d hd => ?_
      rw [hne (Nat.ne_of_lt (mem_range.1 hd))]
  exact hgrown

/-- The chain is extended at its end, if at all. -/
theorem Inv.step {s s' : St} {l : List Nat} (h : Inv s l) {lab : Label}
    (hs : Slots.step s lab = some s') : ∃ l', Inv s' l' ∧ (l' = l ∨ ∃ c, l' = l ++ [c]) := by
  cases lab with
  | acquire =>
      cases hs
      exact ⟨l, h.begin rfl (fun n hn => by cases hn), .inl rfl⟩
  | iterate all =>
      cases hs
      exact ⟨l, h.begin rfl trivial, .inl rfl⟩
  | drop c =>
      simp only [Slots.step] at hs
      split at hs
      · next hlt =>
          split at hs
          · next n hc =>
              cases hs
              have hok := h.calls c
              rw [hc] at hok
              refine ⟨l, h.move (x := .uncount n) hlt rfl rfl rfl rfl hok (fun _ => rfl) ?_ ?_
                fun _ _ _ hd => h.flag hd, .inl rfl⟩
              · rw [hc]
                rfl
              · intro m hm
                rw [hc]
                exact ⟨h.flag (c := c) (by rw [hc]; exact hm), .inl hm⟩
          · cases hs
      · cases hs
  | run c =>
      simp only [Slots.step] at hs
      split at hs
      · next hlt =>
          obtain ⟨l', hl', he⟩ := h.exec hlt hs
          exact ⟨l', hl', he.imp id fun he => ⟨c, he⟩⟩
      · cases hs

/-! ## Whole runs -/

theorem Inv.of_reaches {Q : St → Label → Prop} {s s' : St} {l : List Nat} (h : Inv s l)
    (hr : Lts.Reaches Slots.step Q s s') : ∃ l', Inv s' l' ∧ l <+: l' := by
  refine hr.invariant (I := fun s' => ∃ l', Inv s' l' ∧ l <+: l') ⟨l, h, List.prefix_refl l⟩ ?_
  rintro a b lab ⟨l₁, h₁, hl₁⟩ - hs
  obtain ⟨l₂, h₂, he⟩ := h₁.step hs
  refine ⟨l₂, h₂, hl₁.trans ?_⟩
  rcases he with rfl | ⟨c, rfl⟩
  · exact List.prefix_refl l₂
  · exact List.prefix_append l₁ [c]

/-! ### What a traversal cannot miss -/

/-- Following the pointer `curr` leads to `n`. -/
def Ahead (l : List Nat) (n : Nat) (curr : Option Nat) : Prop :=
  ∃ m l₁ l₂, curr = some m ∧ l = l₁ ++ m :: l₂ ∧ n ∈ m :: l₂

/-- The traversal has handed out `n`, or it will come to it. -/
def Sees (all : Bool) (l : List Nat) (n : Nat) : Call → Prop
  | .iterHead a => a = all ∧ n ∈ l
  | .iter a curr visited => a = all ∧ (n ∈ visited ∨ Ahead l n curr)
  | .iterTest m nx visited => all = false ∧ (n ∈ visited ∨ n = m ∨ Ahead l n nx)
  | _ => False

theorem Ahead.snoc {l : List Nat} {n : Nat} {curr : Option Nat} (c : Nat) (h : Ahead l n curr) :
    Ahead (l ++ [c]) n curr := by
  obtain ⟨m, l₁, l₂, hm, rfl, hn⟩ := h
  refine ⟨m, l₁, l₂ ++ [c], hm, by simp, ?_⟩
  exact List.mem_append_left [c] hn

theorem Sees.snoc {all : Bool} {l : List Nat} {n : Nat} {x : Call} (c : Nat)
    (h : Sees all l n x) : Sees all (l ++ [c]) n x := by
  cases x with
  | iterHead a => exact ⟨h.1, List.mem_append_left _ h.2⟩
  | iter a curr visited => exact ⟨h.1, h.2.imp id (·.snoc c)⟩
  | iterTest m nx visited => exact ⟨h.1, h.2.imp id (·.imp id (·.snoc c))⟩
  | _ => exact h.elim

theorem ahead_head {l : List Nat} (l₁ : List Nat) {l₂ : List Nat} {n : Nat} (hl : l = l₁ ++ l₂)
    (hn : n ∈ l₂) : Ahead l n l₂.head? := by
  cases l₂ with
  | nil => cases hn
  | cons m l₂ => exact ⟨m, l₁, l₂, rfl, hl, hn⟩

/-- The node under the cursor is `n`, or `n` is ahead of the next one. -/
theorem Inv.ahead_next {s : St} {l : List Nat} (h : Inv s l) {n m : Nat}
    (ha : Ahead l n (some m)) : n = m ∨ Ahead l n (s.next m) := by
  obtain ⟨m', l₁, l₂, hm, hl, hn⟩ := ha
  cases hm
  refine (List.mem_cons.1 hn).imp id fun hn => ?_
  have hseg := h.list
  rw [hl] at hseg
  rw [hseg.drop.head]
  exact ahead_head (l₁ ++ [m]) (by rw [hl, List.append_assoc]; rfl) hn

/-- One access of the traversal itself. A test finds the flag of `n` set. -/
theorem Inv.sees_exec {s s' : St} {l : List Nat} (h : Inv s l) {c n : Nat} {all : Bool}
    (hn : Sees all l n (s.calls c)) (hu : all = false → s.isUsing n = true)
    (hs : Slots.exec s c (s.calls c) = some s') : Sees all l n (s'.calls c) := by
  cases hc : s.calls c with
  | iterHead a =>
      rw [hc] at hs hn
      simp only [Slots.exec, Option.some.injEq] at hs
      subst hs
      obtain ⟨rfl, hn⟩ := hn
      show Sees a l n (Function.update s.calls c _ c)
      rw [Function.update_self, h.list.head]
      exact ⟨rfl, .inr (ahead_head [] rfl hn)⟩
  | iter a curr visited =>
      rw [hc] at hs hn
      obtain ⟨rfl, hn⟩ := hn
      cases curr with
      | none => cases hs
      | some m =>
          simp only [Slots.exec, Option.some.injEq] at hs
          subst hs
          show Sees a l n (Function.update s.calls c _ c)
          rw [Function.update_self]
          cases a with
          | true =>
              refine ⟨rfl, ?_⟩
              rcases hn with hn | hn
              · exact .inl (List.mem_append_left _ hn)
              · rcases h.ahead_next hn with rfl | hn
                · exact .inl (List.mem_append_right _ (List.mem_singleton_self n))
                · exact .inr hn
          | false => exact ⟨rfl, hn.imp id h.ahead_next⟩
  | iterTest m nx visited =>
      rw [hc] at hs hn
      simp only [Slots.exec, Option.some.injEq] at hs
      subst hs
      obtain ⟨rfl, hn⟩ := hn
      show Sees false l n (Function.update s.calls c _ c)
      rw [Function.update_self]
      refine ⟨rfl, ?_⟩
      rcases hn with hn | rfl | hn
      · refine .inl ?_
        split
        · exact List.mem_append_left _ hn
        · exact hn
      · rw [hu rfl, if_pos rfl]
        exact .inl (List.mem_append_right _ (List.mem_singleton_self n))
      · exact .inr hn
  | _ =>
      rw [hc] at hn
      exact hn.elim

/-- A step of one call leaves the others where they are. -/
theorem exec_calls {s s' : St} {c d : Nat} {x : Call} (hs : exec s c x = some s') (hd : d ≠ c) :
    s'.calls d = s.calls d := by
  cases x with
  | append prev =>
      simp only [exec, Option.some.injEq] at hs
      subst hs
      split
      · exact (Function.update_of_ne hd _ _).trans (congrFun (link_calls s prev c).1 d)
      · exact Function.update_of_ne hd _ _
  | take n =>
      simp only [exec, Option.some.injEq] at hs
      subst hs
      split <;> exact Function.update_of_ne hd _ _
  | iter all curr visited =>
      cases curr with
      | none => cases hs
      | some n =>
          cases hs
          exact Function.update_of_ne hd _ _
  | live n => cases hs
  | dropped => cases hs
  | _ =>
      cases hs
      exact Function.update_of_ne hd _ _

theorem Inv.sees_step {s s' : St} {l l' : List Nat} (h : Inv s l) {lab : Label} {c n : Nat}
    {all : Bool} (hn : Sees all l n (s.calls c)) (hu : all = false → s.isUsing n = true)
    (hs : Slots.step s lab = some s') (hl' : l' = l ∨ ∃ d, l' = l ++ [d]) :
    Sees all l' n (s'.calls c) := by
  have hlt : c < s.nCalls := by
    by_contra hge
    rw [h.beyond c (by omega)] at hn
    exact hn
  have hgrow : ∀ {x}, Sees all l n x → Sees all l' n x := by
    intro x hx
    rcases hl' with rfl | ⟨d, rfl⟩
    · exact hx
    · exact hx.snoc d
  have hstay : s'.calls c = s.calls c → Sees all l' n (s'.calls c) := by
    intro he
    rw [he]
    exact hgrow hn
  cases lab with
  | acquire | iterate a =>
      cases hs
      exact hstay (Function.update_of_ne (Nat.ne_of_lt hlt) _ _)
  | drop d =>
      simp only [Slots.step] at hs
      split at hs
      · next hd =>
          split at hs
          · next m hm =>
              cases hs
              have hdc : c ≠ d := by
                rintro rfl
                rw [hm] at hn
                exact hn
              exact hstay (Function.update_of_ne hdc _ _)
          · cases hs
      · cases hs
  | run d =>
      simp only [Slots.step] at hs
      split at hs
      · next hd =>
          by_cases hdc : c = d
          · subst hdc
            exact hgrow (h.sees_exec hn hu hs)
          · exact hstay (exec_calls hs hdc)
      · cases hs

/-- A node in the chain when the traversal starts is handed out by `iter_all`,
and by `iter_using` if its flag is set until then. -/
theorem Inv.sees_run {Q : St → Label → Prop} {s s' : St} {l : List Nat} (h : Inv s l) {c n : Nat}
    {all : Bool} (hc : s.calls c = .iterHead all) (hn : n ∈ l)
    (hu : ∀ a lab, Q a lab → (∃ l, Inv a l) → all = false → a.isUsing n = true)
    (hr : Lts.Reaches Slots.step Q s s') : ∃ l', Inv s' l' ∧ Sees all l' n (s'.calls c) := by
  refine hr.invariant (I := fun s' => ∃ l', Inv s' l' ∧ Sees all l' n (s'.calls c)) ?_ ?_
  · refine ⟨l, h, ?_⟩
    rw [hc]
    exact ⟨rfl, hn⟩
  · rintro a b lab ⟨l₁, h₁, hn₁⟩ hq hs
    obtain ⟨l₂, h₂, he⟩ := h₁.step hs
    exact ⟨l₂, h₂, h₁.sees_step hn₁ (hu a lab hq ⟨l₁, h₁⟩) hs he⟩

/-! ### Live entries and the counter -/

def Call.isLive : Call → Bool
  | .live _ => true
  | _ => false

/-- An `acquire_or_default` or a drop that has not returned. -/
def Call.inFlight : Call → Bool
  | .load _ | .append _ | .test _ | .take _ | .count _ | .uncount _ | .release _ => true
  | _ => false

def St.liveEntries (s : St) : Nat := ((range s.nCalls).filter fun c => (s.calls c).isLive).card

theorem Inv.count_live {s : St} {l : List Nat} (h : Inv s l)
    (hq : ∀ c, (s.calls c).inFlight = false) : s.activeCount = s.liveEntries := by
  rw [h.count, St.liveEntries, card_filter]
  congr 1
  refine sum_congr rfl fun c _ => ?_
  have hc := hq c
  cases hx : s.calls c with
  | uncount n =>
      rw [hx] at hc
      cases hc
  | _ => rfl

theorem Inv.count_pos {s : St} {l : List Nat} (h : Inv s l) {c n : Nat}
    (hc : s.calls c = .uncount n) : 1 ≤ s.activeCount := by
  have hlt : c < s.nCalls := by
    by_contra hge
    rw [h.beyond c (by omega)] at hc
    cases hc
  have hle : (s.calls c).counted ≤ ∑ d ∈ range s.nCalls, (s.calls d).counted :=
    single_le_sum (f := fun d => (s.calls d).counted) (fun _ _ => Nat.zero_le _) (mem_range.2 hlt)
  rw [hc] at hle
  rw [h.count]
  exact_mod_cast hle

theorem Inv.visited {s : St} {l : List Nat} (h : Inv s l) {c : Nat} {all : Bool}
    {curr : Option Nat} {visited : List Nat} (hc : s.calls c = .iter all curr visited) :
    visited.Nodup := by
  have hok := h.calls c
  rw [hc] at hok
  obtain ⟨l₁, l₂, rfl, hv, -⟩ := hok
  exact (hv.trans (List.sublist_append_left l₁ l₂)).nodup h.nodup

/-- An `Entry` has its node for itself; the chain of nodes only grows at its
end and keeps every node that was handed out; the counter is exact whenever no
acquire or drop is under way and is positive before each decrement; and a
traversal hands out no node twice, and all those that are there for it from
start to end. -/
theorem reusableSlots_exclusive {Q : St → Label → Prop} {s : St}
    (h : Lts.Reaches step Q St.init s) :
    (∀ {c c' n : Nat}, s.calls c = .live n → s.calls c' = .live n → c = c') ∧
    (∃ l, Seg s.next s.head l ∧ l.Nodup ∧ (∀ c n, (s.calls c).holds n → n ∈ l) ∧
      ∀ {s' : St}, Lts.Reaches step Q s s' → ∃ l', Seg s'.next s'.head l' ∧ l <+: l') ∧
    0 ≤ s.activeCount ∧
    (∀ {c n : Nat}, s.calls c = .uncount n → 1 ≤ s.activeCount) ∧
    ((∀ c, (s.calls c).inFlight = false) → s.activeCount = s.liveEntries) ∧
    (∀ {c : Nat} {all : Bool} {curr : Option Nat} {visited : List Nat},
      s.calls c = .iter all curr visited → visited.Nodup) ∧
    ∀ {c : Nat} {all : Bool}, s.calls c = .iterHead all →
      ∀ {s' : St} {visited : List Nat}, s'.calls c = .iter all none visited →
        (all = true → Lts.Reaches step Q s s' →
          ∀ l n, Seg s.next s.head l → n ∈ l → n ∈ visited) ∧
        (all = false → ∀ n,
          Lts.Reaches step (fun a lab => Q a lab ∧ ∃ d, a.calls d = .live n) s s' →
          n ∈ visited) := by
  obtain ⟨l, hinv, -⟩ := Inv.init.of_reaches h
  refine ⟨?_, ⟨l, hinv.list, hinv.nodup, fun c n hn => holds_mem (hinv.calls c) hn, ?_⟩, ?_,
    fun hc => hinv.count_pos hc, hinv.count_live, fun hc => hinv.visited hc, ?_⟩
  · intro c c' n hc hc'
    exact hinv.owner (n := n) (by rw [hc]; rfl) (by rw [hc']; rfl)
  · intro s' hs'
    obtain ⟨l', hinv', hl'⟩ := hinv.of_reaches hs'
    exact ⟨l', hinv'.list, hl'⟩
  · rw [hinv.count]
    exact Int.natCast_nonneg _
  · intro c all hc s' visited hc'
    have hend : ∀ {l' n}, Sees all l' n (s'.calls c) → n ∈ visited := by
      intro l' n hn
      rw [hc'] at hn
      refine hn.2.resolve_right ?_
      rintro ⟨m, l₁, l₂, hm, -⟩
      cases hm
    refine ⟨?_, ?_⟩
    · rintro rfl hr l₀ n hl₀ hn
      rw [hl₀.unique hinv.list] at hn
      obtain ⟨l', -, hsees⟩ := hinv.sees_run hc hn (fun _ _ _ _ hall => by cases hall) hr
      exact hend hsees
    · rintro rfl n hr
      have hlive : ∀ {a l}, Inv a l → (∃ d, a.calls d = .live n) →
          a.isUsing n = true ∧ n ∈ l := by
        rintro a l ha ⟨d, hd⟩
        have hholds : (a.calls d).holds n := by rw [hd]; rfl
        exact ⟨ha.flag hholds, holds_mem (ha.calls d) hholds⟩
      rcases hr.first with rfl | ⟨lab, -, hfirst⟩
      · rw [hc] at hc'
        cases hc'
      · have hflag : ∀ a lab, (Q a lab ∧ ∃ d, a.calls d = .live n) → (∃ l, Inv a l) →
            false = false → a.isUsing n = true := by
          rintro a lab ⟨-, hd⟩ ⟨l, ha⟩ -
          exact (hlive ha hd).1
        obtain ⟨l', -, hsees⟩ := hinv.sees_run hc (hlive hinv hfirst).2 hflag hr
        exact hend hsees

/-- Two calls race to append the first node and the loser appends behind it. -/
def racingAppends : List Label :=
  [.acquire, .acquire, .run 0, .run 1, .run 0, .run 1, .run 1, .run 1, .run 1, .run 0, .run 1,
    .run 1, .iterate false]

/-- The first entry is dropped under a traversal that has already come to it. -/
def dropUnderTraversal : List Label :=
  [.run 2, .drop 0, .run 0, .run 2, .run 0, .run 2, .run 2, .run 2]

theorem reusableSlots_exclusive_racingAppends : ∃ s s' visited,
    s.calls 0 = .live 0 ∧ s.calls 1 = .live 1 ∧ s.activeCount = 2 ∧
    Lts.Reaches step (fun _ _ => True) s s' ∧ s'.calls 2 = .iter false none visited ∧
    1 ∈ visited := by
  have hrun : ∃ s, Lts.Reaches step (fun _ _ => True) St.init s ∧
      s.calls 0 = .live 0 ∧ s.calls 1 = .live 1 ∧ s.activeCount = 2 ∧
      s.calls 2 = .iterHead false ∧
      (Lts.runs step (fun a _ => a.calls 1 = .live 1) s dropUnderTraversal).any
        (fun s' => decide (s'.calls 2 = .iter false none [1])) = true :=
    Lts.exists_of_runs racingAppends (by decide +kernel)
  obtain ⟨s, hs, h0, h1, hcount, h2, hrun⟩ := hrun
  obtain ⟨s', hs', h2'⟩ := Lts.exists_of_runs dropUnderTraversal hrun
  obtain ⟨-, -, -, -, -, -, htrav⟩ := reusableSlots_exclusive hs
  refine ⟨s, s', [1], h0, h1, hcount, hs'.mono fun _ _ _ => trivial, h2', ?_⟩
  exact (htrav h2 h2').2 rfl 1 (hs'.mono fun _ _ h => ⟨trivial, 1, h⟩)

end Cdpt.Slots
