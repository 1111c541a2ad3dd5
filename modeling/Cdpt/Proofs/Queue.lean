import Cdpt.Model.Queue

/-!
# The queue of object batches is a linearizable FIFO

The nodes that were ever in the queue form one chain from the first sentinel, and
their order is the order of the link CASes. A call knows positions on it. The `i`-th
head CAS takes the head from position `i` to `i + 1`, and a link needs a node with a
null pointer that the tail has reached, so the tail is the last node or the one
before it. What a popper makes sure of is that the tail is past the node it hands
over.

The calls that have linked a node and those that have taken one are kept as lists,
the chain is the first of them behind the sentinel (`order`), and the content of the
queue is what lies between the two positions. `Shape` is about the queue alone:
where head and tail stand, that the pointer of each node leads to the next position,
and that the chain ends in null. What the calls know is kept apart (`PushOk`,
`PopOk`), because it is monotone: positions stay, nodes stay where they are in the
chain, head and tail only move forward. So a step needs its own call looked at and
`Grows` for the others (`Inv.move`).

The linearization points are the link CAS of a push, the head CAS of a pop, and for
a pop that answers `None` the load that found no node behind the head: at that
instant the node was the head and the last one (`Shape.empty`). The value of a pop
is the one its node was pushed with, which is read before the head CAS and still
right after it, as the node had not been taken.

Nodes are handed over for destruction by the popper that has taken them, and it is
the tail that may lag behind on such a node. The last part of the invariant says it
does not: before the node is deferred its popper has seen the tail past it.
-/

namespace Cdpt.Queue

open Linearizable (Event Status Exec IsLinearizable)

variable {T : Type}

/-! ## The invariant -/

/-- The tail is at position `i` or behind it. -/
def St.past (s : St T) (i : Nat) : Prop := ∃ q, s.order[q]? = some s.tail ∧ i ≤ q

/-- `next` comes right behind `n`, which is at position `i`. -/
def St.hop (s : St T) (i n next : Nat) : Prop :=
  s.order[i]? = some n ∧ s.order[i + 1]? = some next

/-- Call `c` made the head CAS that took `head` out. -/
def St.took (s : St T) (c head next : Nat) : Prop :=
  head ∉ s.retired ∧ ∃ i, s.pops[i]? = some c ∧ s.hop i head next

/-- What a call of `push` knows. -/
def PushOk (s : St T) (c : Nat) : Pc → Prop
  | .pushTail => c ∉ s.links
  | .pushNext onto | .pushLink onto =>
      c ∉ s.links ∧ ∃ i, s.order[i]? = some onto ∧ s.past i
  | .pushHelp onto next => c ∉ s.links ∧ ∃ i, s.hop i onto next
  | .pushSwing onto => c ∈ s.links ∧ ∃ i, s.hop i onto (node c)
  | _ => False

/-- What a call of `try_pop` knows. -/
def PopOk (s : St T) (c : Nat) : Pc → Prop
  | .popHead => c ∉ s.pops
  | .popNext head => c ∉ s.pops ∧ ∃ i ≤ s.pops.length, s.order[i]? = some head
  | .popCas head next => c ∉ s.pops ∧ ∃ i ≤ s.pops.length, s.hop i head next
  | .popTail head next | .popSwing head next => s.took c head next
  | .retire head next => s.took c head next ∧ ∃ i, s.order[i]? = some head ∧ s.past (i + 1)
  | _ => False

/-- The answers of `try_pop`. -/
def AnswerOk (s : St T) (c : Nat) : Option T → Prop
  | none => c ∉ s.pops
  | some v => ∃ i next, s.pops[i]? = some c ∧ s.order[i + 1]? = some next ∧
      s.data next = some v

def CallOk (s : St T) (c : Nat) : Call T → Prop
  | .fresh => c ∉ s.links ∧ c ∉ s.pops ∧ s.data (node c) = none
  | .running (.push t) pc => c ∉ s.pops ∧ s.data (node c) = some t ∧ PushOk s c pc
  | .running .tryPop pc => c ∉ s.links ∧ PopOk s c pc
  | .returned (.push t) r =>
      r = .pushed ∧ c ∈ s.links ∧ c ∉ s.pops ∧ s.data (node c) = some t
  | .returned .tryPop r => c ∉ s.links ∧ ∃ v, r = .popped v ∧ AnswerOk s c v

/-- The queue itself. -/
structure Shape (s : St T) : Prop where
  links : s.links.Nodup
  pops : s.pops.Nodup
  chain : Chain.Seg s.next (some 0) s.order
  unlinked : ∀ {c}, c ∉ s.links → s.next (node c) = none
  head : s.order[s.pops.length]? = some s.head
  tail : s.past (s.links.length - 1)
  retired : s.retired.Nodup
  left : ∀ {n}, n ∈ s.retired →
    ∃ i < s.pops.length, s.order[i]? = some n ∧ s.past (i + 1)

structure Inv (s : St T) : Prop where
  shape : Shape s
  calls : ∀ c, CallOk s c (s.calls c)

theorem Inv.init : Inv (St.init : St T) where
  shape :=
    { links := .nil
      pops := .nil
      chain := ⟨rfl, rfl⟩
      unlinked := fun _ => rfl
      head := rfl
      tail := ⟨0, rfl, Nat.le_refl 0⟩
      retired := .nil
      left := fun h => by cases h }
  calls _ := ⟨by simp [St.init], by simp [St.init], rfl⟩

theorem Inv.at {s : St T} (h : Inv s) {c : Nat} {x : Call T} (hc : s.calls c = x) :
    CallOk s c x := hc ▸ h.calls c

/-! ## Positions -/

theorem length_order (s : St T) : s.order.length = s.links.length + 1 := by
  rw [St.order, List.length_cons, List.length_map]

theorem node_mem_order {s : St T} {c : Nat} : node c ∈ s.order ↔ c ∈ s.links := by
  rw [St.order, List.mem_cons, List.mem_map]
  constructor
  · rintro (h | ⟨d, hd, he⟩)
    · cases h
    · obtain rfl : d = c := Nat.succ.inj he
      exact hd
  · intro h
    exact .inr ⟨c, h, rfl⟩

theorem order_succ (s : St T) (i : Nat) : s.order[i + 1]? = s.links[i]?.map node := by
  rw [St.order, List.getElem?_cons_succ, List.getElem?_map]

theorem Shape.nodup {s : St T} (h : Shape s) : s.order.Nodup := by
  refine List.nodup_cons.2 ⟨?_, h.links.map fun _ _ he => Nat.succ.inj he⟩
  rintro hm
  obtain ⟨c, -, hc⟩ := List.mem_map.1 hm
  cases hc

theorem index_unique {l : List Nat} (h : l.Nodup) {i j n : Nat} (hi : l[i]? = some n)
    (hj : l[j]? = some n) : i = j := by
  have hlt := (List.getElem?_eq_some_iff.1 hi).1
  exact (List.getElem?_inj hlt h).1 (hi.trans hj.symm)

theorem pos_lt {s : St T} {i n : Nat} (h : s.order[i]? = some n) : i < s.links.length + 1 :=
  length_order s ▸ (List.getElem?_eq_some_iff.1 h).1

/-- The tail cannot be in front of a node that has a successor. -/
theorem Shape.past_of_hop {s : St T} (h : Shape s) {i n next : Nat} (hop : s.hop i n next) :
    s.past i := by
  obtain ⟨q, hq, hle⟩ := h.tail
  have hlt := pos_lt hop.2
  exact ⟨q, hq, by omega⟩

theorem Shape.past_succ {s : St T} (h : Shape s) {i n next : Nat} (hop : s.hop i n next)
    (hne : s.tail ≠ n) : s.past (i + 1) := by
  obtain ⟨q, hq, hle⟩ := h.past_of_hop hop
  refine ⟨q, hq, Nat.lt_of_le_of_ne hle ?_⟩
  rintro rfl
  exact hne (Option.some.inj (hq.symm.trans hop.1))

/-- The pointer of a node at a position leads to the next position. -/
theorem Shape.next_eq {s : St T} (h : Shape s) {i n : Nat} (hi : s.order[i]? = some n) :
    s.next n = s.order[i + 1]? := h.chain.next_eq hi

theorem Shape.last {s : St T} (h : Shape s) {i n : Nat} (hi : s.order[i]? = some n)
    (hn : s.next n = none) : i = s.links.length := by
  have hlt := pos_lt hi
  rw [h.next_eq hi, List.getElem?_eq_none_iff, length_order] at hn
  omega

/-- A node in the queue holds the value that was pushed with it. -/
theorem Inv.pushed {s : St T} (h : Inv s) {c : Nat} (hc : c ∈ s.links) :
    ∃ t, s.pushes c = some t ∧ s.data (node c) = some t := by
  rw [St.pushes]
  cases hx : s.calls c with
  | fresh => exact absurd hc (h.at hx).1
  | running op pc =>
      cases op with
      | push t => exact ⟨t, rfl, (h.at hx).2.1⟩
      | tryPop => exact absurd hc (h.at hx).1
  | returned op r =>
      cases op with
      | push t => exact ⟨t, rfl, (h.at hx).2.2.2⟩
      | tryPop => exact absurd hc (h.at hx).1

theorem Inv.value {s : St T} (h : Inv s) {i next : Nat} (hn : s.order[i + 1]? = some next) :
    ∃ p t, s.links[i]? = some p ∧ s.pushes p = some t ∧ s.data next = some t := by
  rw [order_succ] at hn
  obtain ⟨p, hp, rfl⟩ := Option.map_eq_some_iff.1 hn
  obtain ⟨t, ht, hd⟩ := h.pushed (List.mem_of_getElem? hp)
  exact ⟨p, t, hp, ht, hd⟩

/-! ## What one access changes -/

/-- The step of call `c` keeps what other calls know. -/
structure Grows (s s' : St T) (c : Nat) : Prop where
  order : ∀ {i n : Nat}, s.order[i]? = some n → s'.order[i]? = some n
  pops : ∀ {i d : Nat}, s.pops[i]? = some d → s'.pops[i]? = some d
  tail : ∀ {i}, s.past i → s'.past i
  data : ∀ {j}, j ≠ c ∨ j ∈ s.links → s'.data (node j) = s.data (node j)
  links : ∀ {j}, j ≠ c → (j ∈ s'.links ↔ j ∈ s.links)
  popped : ∀ {j}, j ≠ c → (j ∈ s'.pops ↔ j ∈ s.pops)
  taken : ∀ {j head next}, j ≠ c → s.took j head next → head ∉ s'.retired
  calls : ∀ {j}, j ≠ c → s'.calls j = s.calls j

theorem Grows.length {s s' : St T} {c : Nat} (h : Grows s s' c) :
    s.pops.length ≤ s'.pops.length := by
  refine Nat.le_of_not_lt fun hlt => ?_
  have hs : s.pops[s'.pops.length]? = some s.pops[s'.pops.length] := List.getElem?_eq_getElem hlt
  have hlt' := (List.getElem?_eq_some_iff.1 (h.pops hs)).1
  omega

theorem Grows.hop {s s' : St T} {c i n next : Nat} (h : Grows s s' c) (hop : s.hop i n next) :
    s'.hop i n next := ⟨h.order hop.1, h.order hop.2⟩

theorem Grows.took {s s' : St T} {c j head next : Nat} (h : Grows s s' c) (hj : j ≠ c)
    (ht : s.took j head next) : s'.took j head next := by
  obtain ⟨-, i, hi, hop⟩ := id ht
  exact ⟨h.taken hj ht, i, h.pops hi, h.hop hop⟩

theorem PushOk.mono {s s' : St T} {c j : Nat} (h : Grows s s' c) (hj : j ≠ c) {pc : Pc}
    (hp : PushOk s j pc) : PushOk s' j pc := by
  have hlinks := h.links hj
  cases pc with
  | pushTail => exact fun hm => hp (hlinks.1 hm)
  | pushNext onto | pushLink onto =>
      obtain ⟨hn, i, hi, hpast⟩ := hp
      exact ⟨fun hm => hn (hlinks.1 hm), i, h.order hi, h.tail hpast⟩
  | pushHelp onto next =>
      obtain ⟨hn, i, hop⟩ := hp
      exact ⟨fun hm => hn (hlinks.1 hm), i, h.hop hop⟩
  | pushSwing onto =>
      obtain ⟨hm, i, hop⟩ := hp
      exact ⟨hlinks.2 hm, i, h.hop hop⟩
  | _ => exact hp

theorem PopOk.mono {s s' : St T} {c j : Nat} (h : Grows s s' c) (hj : j ≠ c) {pc : Pc}
    (hp : PopOk s j pc) : PopOk s' j pc := by
  have hpops := h.popped hj
  have hlen := h.length
  cases pc with
  | popHead => exact fun hm => hp (hpops.1 hm)
  | popNext head =>
      obtain ⟨hn, i, hle, hi⟩ := hp
      exact ⟨fun hm => hn (hpops.1 hm), i, by omega, h.order hi⟩
  | popCas head next =>
      obtain ⟨hn, i, hle, hop⟩ := hp
      exact ⟨fun hm => hn (hpops.1 hm), i, by omega, h.hop hop⟩
  | popTail head next | popSwing head next => exact h.took hj hp
  | retire head next =>
      obtain ⟨ht, i, hi, hpast⟩ := hp
      exact ⟨h.took hj ht, i, h.order hi, h.tail hpast⟩
  | _ => exact hp

theorem CallOk.mono {s s' : St T} {c j : Nat} (h : Grows s s' c) (hj : j ≠ c) {x : Call T}
    (hx : CallOk s j x) : CallOk s' j x := by
  have hlinks := h.links hj
  have hpops := h.popped hj
  have hdata := h.data (.inl hj)
  cases x with
  | fresh =>
      obtain ⟨hl, hp, hd⟩ := hx
      exact ⟨fun hm => hl (hlinks.1 hm), fun hm => hp (hpops.1 hm), hdata.trans hd⟩
  | running op pc =>
      cases op with
      | push t =>
          obtain ⟨hp, hd, hok⟩ := hx
          exact ⟨fun hm => hp (hpops.1 hm), hdata.trans hd, hok.mono h hj⟩
      | tryPop =>
          obtain ⟨hl, hok⟩ := hx
          exact ⟨fun hm => hl (hlinks.1 hm), hok.mono h hj⟩
  | returned op r =>
      cases op with
      | push t =>
          obtain ⟨hr, hl, hp, hd⟩ := hx
          exact ⟨hr, hlinks.2 hl, fun hm => hp (hpops.1 hm), hdata.trans hd⟩
      | tryPop =>
          obtain ⟨hl, v, hr, ha⟩ := hx
          refine ⟨fun hm => hl (hlinks.1 hm), v, hr, ?_⟩
          cases v with
          | none => exact fun hm => ha (hpops.1 hm)
          | some v =>
              obtain ⟨i, next, hi, hn, hv⟩ := ha
              refine ⟨i, next, h.pops hi, h.order hn, ?_⟩
              rw [order_succ] at hn
              obtain ⟨d, hd, rfl⟩ := Option.map_eq_some_iff.1 hn
              exact (h.data (.inr (List.mem_of_getElem? hd))).trans hv

/-- What calls know is about the queue only. -/
theorem callOk_congr {s : St T} {d : Nat} {x : Call T} (f : Nat → Call T)
    (e : List (Event Nat (Op T) (Res T))) (h : CallOk s d x) :
    CallOk { s with calls := f, history := e } d x := by
  cases x with
  | fresh => exact h
  | running op pc =>
      cases op with
      | push t => cases pc <;> exact h
      | tryPop => cases pc <;> exact h
  | returned op r =>
      cases op with
      | push t => exact h
      | tryPop =>
          obtain ⟨hl, v, hr, ha⟩ := h
          refine ⟨hl, v, hr, ?_⟩
          cases v <;> exact ha

/-- The step lemma: the queue keeps its shape, others keep what they know, and
the call that moves knows what its new state says. -/
theorem Inv.move {s s' : St T} (h : Inv s) {c : Nat} {x : Call T} (hsh : Shape s')
    (hg : Grows s s' c) (hx : CallOk s' c x) (e : List (Event Nat (Op T) (Res T))) :
    Inv { s'.setCall c x with history := e } where
  shape := { hsh with }
  calls j := by
    refine callOk_congr _ e ?_
    by_cases hj : j = c
    · subst hj
      show CallOk s' j (Function.update s'.calls j x j)
      rw [Function.update_self]
      exact hx
    · show CallOk s' j (Function.update s'.calls c x j)
      rw [Function.update_of_ne hj, hg.calls hj]
      exact (h.calls j).mono hg hj

theorem Inv.goto {s s' : St T} (h : Inv s) {c : Nat} {op : Op T} {pc : Pc} (hsh : Shape s')
    (hg : Grows s s' c) (hx : CallOk s' c (.running op pc)) : Inv (s'.goto c op pc) :=
  h.move hsh hg hx s'.history

theorem Inv.giveBack {s s' : St T} (h : Inv s) {c : Nat} {op : Op T} {r : Res T} (hsh : Shape s')
    (hg : Grows s s' c) (hx : CallOk s' c (.returned op r)) : Inv (s'.giveBack c op r) :=
  h.move hsh hg hx _

theorem Grows.refl (s : St T) (c : Nat) : Grows s s c where
  order h := h
  pops h := h
  tail h := h
  data _ := rfl
  links _ := Iff.rfl
  popped _ := Iff.rfl
  taken _ h := h.1
  calls _ := rfl

/-! ### Moving the tail -/

theorem Shape.past_swing {s : St T} (h : Shape s) {i j old new : Nat} (hop : s.hop i old new)
    (hp : s.past j) : (s.swing old new).past j := by
  obtain ⟨q, hq, hle⟩ := hp
  by_cases he : s.tail = old
  · have hqi : q = i := index_unique h.nodup hq (he ▸ hop.1)
    refine ⟨i + 1, ?_, by omega⟩
    show s.order[i + 1]? = some (if s.tail = old then new else s.tail)
    rw [if_pos he]
    exact hop.2
  · refine ⟨q, ?_, hle⟩
    show s.order[q]? = some (if s.tail = old then new else s.tail)
    rw [if_neg he]
    exact hq

/-- After the CAS the tail has left `old`, whether it succeeded or not. -/
theorem Shape.past_succ_swing {s : St T} (h : Shape s) {i old new : Nat} (hop : s.hop i old new) :
    (s.swing old new).past (i + 1) := by
  by_cases he : s.tail = old
  · refine ⟨i + 1, ?_, Nat.le_refl _⟩
    show s.order[i + 1]? = some (if s.tail = old then new else s.tail)
    rw [if_pos he]
    exact hop.2
  · exact h.past_swing hop (h.past_succ hop he)

theorem Shape.swing {s : St T} (h : Shape s) {i old new : Nat} (hop : s.hop i old new) :
    Shape (s.swing old new) :=
  { h with
    tail := h.past_swing hop h.tail
    left := fun hn => by
      obtain ⟨k, hk, hat, hp⟩ := h.left hn
      exact ⟨k, hk, hat, h.past_swing hop hp⟩ }

theorem Grows.swing {s : St T} (h : Shape s) {i old new : Nat} (hop : s.hop i old new) (c : Nat) :
    Grows s (s.swing old new) c :=
  { Grows.refl s c with tail := h.past_swing hop }

/-! ### Linking a node -/

theorem order_link (s : St T) (onto c : Nat) : (s.link onto c).order = s.order ++ [node c] := by
  show 0 :: (s.links ++ [c]).map node = 0 :: s.links.map node ++ [node c]
  rw [List.map_append]
  rfl

theorem getElem?_link {s : St T} {onto c i n : Nat} (h : s.order[i]? = some n) :
    (s.link onto c).order[i]? = some n := by
  rw [order_link, List.getElem?_append_left (List.getElem?_eq_some_iff.1 h).1]
  exact h

theorem past_link {s : St T} {onto c i : Nat} (h : s.past i) : (s.link onto c).past i := by
  obtain ⟨q, hq, hle⟩ := h
  exact ⟨q, getElem?_link hq, hle⟩

theorem Shape.link {s : St T} (h : Shape s) {onto c i : Nat} (hc : c ∉ s.links)
    (hi : s.order[i]? = some onto) (hp : s.past i) (hnull : s.next onto = none) :
    Shape (s.link onto c) where
  links := List.Nodup.append h.links (List.nodup_singleton c) (List.disjoint_singleton.2 hc)
  pops := h.pops
  chain := by
    rw [order_link]
    exact h.chain.snoc (List.mem_of_getElem? hi) hnull (fun hm => hc (node_mem_order.1 hm))
      (h.unlinked hc)
  unlinked := by
    intro d hd
    have hd' : d ∉ s.links := fun hm => hd (List.mem_append_left _ hm)
    have hne : node d ≠ onto := by
      rintro rfl
      exact hd' (node_mem_order.1 (List.mem_of_getElem? hi))
    exact (Function.update_of_ne hne _ _).trans (h.unlinked hd')
  head := getElem?_link h.head
  tail := by
    -- `onto` is the last node and the tail has reached it
    have hlast := h.last hi hnull
    have hlen : (s.link onto c).links.length - 1 = i := by
      show (s.links ++ [c]).length - 1 = i
      rw [List.length_append, List.length_singleton]
      omega
    rw [hlen]
    exact past_link hp
  retired := h.retired
  left := by
    intro n hn
    obtain ⟨k, hk, hat, hpast⟩ := h.left hn
    exact ⟨k, hk, getElem?_link hat, past_link hpast⟩

theorem mem_snoc_of_ne {l : List Nat} {c j : Nat} (hj : j ≠ c) : j ∈ l ++ [c] ↔ j ∈ l := by
  rw [List.mem_append, List.mem_singleton, or_iff_left hj]

theorem Grows.link (s : St T) (onto c : Nat) : Grows s (s.link onto c) c :=
  { Grows.refl s c with
    order := getElem?_link
    tail := past_link
    links := mem_snoc_of_ne }

theorem Shape.hop_link {s : St T} (h : Shape s) {onto c i : Nat}
    (hi : s.order[i]? = some onto) (hnull : s.next onto = none) :
    (s.link onto c).hop i onto (node c) := by
  refine ⟨getElem?_link hi, ?_⟩
  rw [order_link, h.last hi hnull, ← length_order, List.getElem?_concat_length]

/-! ### Moving the head -/

theorem Shape.advance {s : St T} (h : Shape s) {c next : Nat} (hc : c ∉ s.pops)
    (hn : s.order[s.pops.length + 1]? = some next) : Shape (s.advance next c) :=
  { h with
    pops := List.Nodup.append h.pops (List.nodup_singleton c) (List.disjoint_singleton.2 hc)
    head := by
      show s.order[(s.pops ++ [c]).length]? = some next
      rw [List.length_append, List.length_singleton]
      exact hn
    left := fun hm => by
      obtain ⟨k, hk, hat, hp⟩ := h.left hm
      refine ⟨k, ?_, hat, hp⟩
      show k < (s.pops ++ [c]).length
      rw [List.length_append]
      omega }

theorem Grows.advance (s : St T) (next c : Nat) : Grows s (s.advance next c) c :=
  { Grows.refl s c with
    pops := fun {i d} hi => by
      show (s.pops ++ [c])[i]? = some d
      rw [List.getElem?_append_left (List.getElem?_eq_some_iff.1 hi).1]
      exact hi
    popped := mem_snoc_of_ne }

theorem Shape.took_advance {s : St T} (h : Shape s) {c head next : Nat}
    (hop : s.hop s.pops.length head next) : (s.advance next c).took c head next := by
  refine ⟨fun hm => ?_, s.pops.length, List.getElem?_concat_length, hop⟩
  obtain ⟨k, hk, hat, -⟩ := h.left hm
  have := index_unique h.nodup hat hop.1
  omega

/-! ### Handing a node over -/

theorem Shape.retire {s : St T} (h : Shape s) {c head next i : Nat} (ht : s.took c head next)
    (hi : s.order[i]? = some head) (hp : s.past (i + 1)) : Shape (s.retire head) :=
  { h with
    retired := List.Nodup.append h.retired (List.nodup_singleton head)
      (List.disjoint_singleton.2 ht.1)
    left := fun {n} hn => by
      rcases List.mem_append.1 hn with hn | hn
      · exact h.left hn
      · obtain rfl := List.mem_singleton.1 hn
        obtain ⟨-, k, hk, hop⟩ := ht
        obtain rfl : k = i := index_unique h.nodup hop.1 hi
        exact ⟨k, (List.getElem?_eq_some_iff.1 hk).1, hi, hp⟩ }

theorem Grows.retire {s : St T} (h : Shape s) {c head next : Nat} (ht : s.took c head next) :
    Grows s (s.retire head) c :=
  { Grows.refl s c with
    taken := fun {j head' next'} hj ht' hm => by
      rcases List.mem_append.1 hm with hm | hm
      · exact ht'.1 hm
      · -- the same head would have been taken by one CAS
        obtain rfl := List.mem_singleton.1 hm
        obtain ⟨-, i, hi, hop⟩ := ht
        obtain ⟨-, k, hk, hop'⟩ := ht'
        obtain rfl : i = k := index_unique h.nodup hop.1 hop'.1
        exact hj (Option.some.inj (hk.symm.trans hi)) }

/-! ## The invariant over whole runs -/

theorem Inv.exec_push {s s' : St T} (h : Inv s) {c : Nat} {t : T} {pc : Pc}
    (hc : s.calls c = .running (.push t) pc) (he : exec s c (.push t) pc = some s') : Inv s' := by
  obtain ⟨hpop, hdata, hok⟩ := h.at hc
  have hsame := Grows.refl s c
  cases pc with
  | pushTail =>
      cases he
      obtain ⟨q, hq, -⟩ := h.shape.tail
      exact h.goto h.shape hsame ⟨hpop, hdata, hok, q, hq, q, hq, Nat.le_refl q⟩
  | pushNext onto =>
      obtain ⟨hl, i, hi, hp⟩ := hok
      simp only [exec, Option.some.injEq] at he
      split at he
      · next next hn =>
          subst he
          rw [h.shape.next_eq hi] at hn
          exact h.goto h.shape hsame ⟨hpop, hdata, hl, i, hi, hn⟩
      · next hn =>
          subst he
          exact h.goto h.shape hsame ⟨hpop, hdata, hl, i, hi, hp⟩
  | pushHelp onto next =>
      obtain ⟨hl, i, hop⟩ := hok
      cases he
      exact h.goto (h.shape.swing hop) (.swing h.shape hop c) ⟨hpop, hdata, hl⟩
  | pushLink onto =>
      obtain ⟨hl, i, hi, hp⟩ := hok
      simp only [exec, Option.some.injEq] at he
      split at he
      · next hn =>
          subst he
          have hmem : c ∈ (s.link onto c).links := List.mem_append_right _ (by simp)
          exact h.goto (h.shape.link hl hi hp hn) (.link s onto c)
            ⟨hpop, hdata, hmem, i, h.shape.hop_link hi hn⟩
      · next hn =>
          subst he
          exact h.goto h.shape hsame ⟨hpop, hdata, hl⟩
  | pushSwing onto =>
      obtain ⟨hl, i, hop⟩ := hok
      cases he
      exact h.giveBack (h.shape.swing hop) (.swing h.shape hop c) ⟨rfl, hl, hpop, hdata⟩
  | _ => cases hok

theorem Inv.exec_pop {s s' : St T} (h : Inv s) {c : Nat} {pc : Pc}
    (hc : s.calls c = .running .tryPop pc) (he : exec s c .tryPop pc = some s') : Inv s' := by
  obtain ⟨hl, hok⟩ := h.at hc
  have hsame := Grows.refl s c
  cases pc with
  | popHead =>
      cases he
      exact h.goto h.shape hsame ⟨hl, hok, s.pops.length, Nat.le_refl _, h.shape.head⟩
  | popNext head =>
      obtain ⟨hp, i, hle, hi⟩ := hok
      simp only [exec, Option.some.injEq] at he
      split at he
      · next next hn =>
          subst he
          rw [h.shape.next_eq hi] at hn
          exact h.goto h.shape hsame ⟨hl, hp, i, hle, hi, hn⟩
      · next hn =>
          subst he
          exact h.giveBack h.shape hsame ⟨hl, none, rfl, hp⟩
  | popCas head next =>
      obtain ⟨hp, i, hle, hop⟩ := hok
      simp only [exec, Option.some.injEq] at he
      split at he
      · next hhead =>
          subst he hhead
          obtain rfl : i = s.pops.length := index_unique h.shape.nodup hop.1 h.shape.head
          exact h.goto (h.shape.advance hp hop.2) (.advance s next c)
            ⟨hl, h.shape.took_advance hop⟩
      · next =>
          subst he
          exact h.goto h.shape hsame ⟨hl, hp⟩
  | popTail head next =>
      obtain ⟨-, i, -, hop⟩ := id hok
      simp only [exec, Option.some.injEq] at he
      split at he
      · next =>
          subst he
          exact h.goto h.shape hsame ⟨hl, hok⟩
      · next hne =>
          subst he
          exact h.goto h.shape hsame ⟨hl, hok, i, hop.1, h.shape.past_succ hop hne⟩
  | popSwing head next =>
      obtain ⟨-, i, -, hop⟩ := id hok
      cases he
      exact h.goto (h.shape.swing hop) (.swing h.shape hop c)
        ⟨hl, hok, i, hop.1, h.shape.past_succ_swing hop⟩
  | retire head next =>
      obtain ⟨ht, i, hi, hp⟩ := hok
      obtain ⟨v, hv, rfl⟩ := Option.map_eq_some_iff.1 he
      obtain ⟨-, k, hk, hop⟩ := id ht
      exact h.giveBack (h.shape.retire ht hi hp) (.retire h.shape ht)
        ⟨hl, some v, rfl, k, next, hk, hop.2, hv⟩
  | _ => cases hok

theorem Inv.exec {s s' : St T} (h : Inv s) {c : Nat} {op : Op T} {pc : Pc}
    (hc : s.calls c = .running op pc) (he : Queue.exec s c op pc = some s') : Inv s' := by
  cases op with
  | push t => exact h.exec_push hc he
  | tryPop => exact h.exec_pop hc he

/-- `push` writes its value into a node nobody knows. -/
theorem Inv.begin {s : St T} (h : Inv s) {c : Nat} (hc : s.calls c = .fresh) (op : Op T) :
    Inv (s.begin c op) := by
  obtain ⟨hl, hp, hd⟩ := h.at hc
  cases op with
  | tryPop =>
      have hx : CallOk s c (.running .tryPop .popHead) := ⟨hl, hp⟩
      exact h.move h.shape (.refl s c) hx _
  | push t =>
      have hsh : Shape { s with data := Function.update s.data (node c) (some t) } :=
        { h.shape with }
      have hg : Grows s { s with data := Function.update s.data (node c) (some t) } c :=
        { Grows.refl s c with
          data := fun {j} hj => by
            refine Function.update_of_ne (fun he => ?_) _ _
            obtain rfl : j = c := Nat.succ.inj he
            rcases hj with hj | hj
            · exact hj rfl
            · exact hl hj }
      have hx : CallOk { s with data := Function.update s.data (node c) (some t) } c
          (.running (.push t) .pushTail) := ⟨hp, Function.update_self .., hl⟩
      exact h.move hsh hg hx _

/-- The forms a step can take. -/
theorem step_cases {s s' : St T} {l : Label T} (hs : step s l = some s') :
    (∃ c op, l = .call c op ∧ s.calls c = .fresh ∧ s' = s.begin c op) ∨
    ∃ c op pc, l = .run c ∧ s.calls c = .running op pc ∧ exec s c op pc = some s' := by
  cases l with
  | call c op =>
      simp only [step] at hs
      split at hs
      · next hc =>
          cases hs
          exact .inl ⟨c, op, rfl, hc, rfl⟩
      · cases hs
  | run c =>
      simp only [step] at hs
      split at hs
      · next op pc hc => exact .inr ⟨c, op, pc, rfl, hc, hs⟩
      · cases hs

theorem Inv.step {s s' : St T} (h : Inv s) {l : Label T} (hs : Queue.step s l = some s') :
    Inv s' := by
  rcases step_cases hs with ⟨c, op, -, hc, rfl⟩ | ⟨c, op, pc, -, hc, he⟩
  · exact h.begin hc op
  · exact h.exec hc he

theorem inv_of_reaches {Q : St T → Label T → Prop} {s : St T}
    (h : Lts.Reaches step Q St.init s) : Inv s :=
  h.invariant Inv.init fun hx _ hs => hx.step hs

/-- No value is read from a node without one. -/
theorem Inv.progress {s : St T} (h : Inv s) {c : Nat} {op : Op T} {pc : Pc}
    (hc : s.calls c = .running op pc) : (Queue.step s (.run c)).isSome := by
  have hstep : Queue.step s (.run c) = Queue.exec s c op pc := by simp only [Queue.step, hc]
  rw [hstep]
  cases pc with
  | retire head next =>
      cases op with
      | push t => cases (h.at hc).2.2
      | tryPop =>
          obtain ⟨-, ⟨-, i, -, hop⟩, -⟩ := h.at hc
          obtain ⟨-, t, -, -, hd⟩ := h.value hop.2
          rw [Queue.exec, hd]
          rfl
  | _ => rfl

/-! ## The atomic queue

A push takes effect with its link CAS, a pop with its head CAS or with the load
that finds a null pointer.
-/

inductive Fifo : List T → Op T → Res T → List T → Prop
  | push (l : List T) (t : T) : Fifo l (.push t) .pushed (l ++ [t])
  | pop (v : T) (l : List T) : Fifo (v :: l) .tryPop (.popped (some v)) l
  | empty : Fifo [] .tryPop (.popped none) []

def Call.status (data : Nat → Option T) : Call T → Status (Op T) (Res T)
  | .fresh => .fresh
  | .running _ (.pushSwing _) => .done .pushed
  | .running _ (.popTail _ next) | .running _ (.popSwing _ next) | .running _ (.retire _ next) =>
      .done (.popped (data next))
  | .running op _ => .called op
  | .returned _ _ => .returned

/-- The history so far is one of the atomic queue that holds the same values. -/
def St.follows (s : St T) : Prop :=
  Exec Fifo [] s.history (Call.status s.data ∘ s.calls) s.contents

theorem follows_of_same {s s' : St T} (hf : s.follows) {c : Nat} {x : Call T}
    (hd : s'.data = s.data) (hh : s'.history = s.history)
    (hcalls : s'.calls = Function.update s.calls c x)
    (hx : x.status s.data = (s.calls c).status s.data) (he : s'.contents = s.contents) :
    s'.follows := by
  rw [St.follows, hd, hh, hcalls, he, Function.comp_update, hx]
  have : (s.calls c).status s.data = (Call.status s.data ∘ s.calls) c := rfl
  rw [this, Function.update_eq_self]
  exact hf

theorem follows_of_effect {s s' : St T} (hf : s.follows) {c : Nat} {op : Op T} {r : Res T}
    {x : Call T} (hc : (s.calls c).status s.data = .called op) (hd : s'.data = s.data)
    (hh : s'.history = s.history) (hcalls : s'.calls = Function.update s.calls c x)
    (hx : x.status s.data = .done r) (hs : Fifo s.contents op r s'.contents) : s'.follows := by
  rw [St.follows, hd, hh, hcalls, Function.comp_update, hx]
  exact .lin hf hc hs

theorem follows_of_return {s s' : St T} (hf : s.follows) {c : Nat} {op : Op T} {r : Res T}
    (hc : (s.calls c).status s.data = .done r) (hd : s'.data = s.data)
    (hh : s'.history = s.history ++ [.ret c r])
    (hcalls : s'.calls = Function.update s.calls c (.returned op r))
    (he : s'.contents = s.contents) : s'.follows := by
  rw [St.follows, hd, hh, hcalls, Function.comp_update, he]
  exact .ret hf hc

/-! ### The values in the queue -/

theorem contents_link {s : St T} (h : Shape s) (onto : Nat) {c : Nat} {t : T}
    (hd : s.data (node c) = some t) : (s.link onto c).contents = s.contents ++ [t] := by
  have hlt := pos_lt h.head
  have hle : s.pops.length + 1 ≤ s.order.length := by
    rw [length_order]
    exact hlt
  show ((s.link onto c).order.drop (s.pops.length + 1)).filterMap s.data = s.contents ++ [t]
  rw [order_link, List.drop_append_of_le_length hle, List.filterMap_append,
    List.filterMap_cons_some hd]
  rfl

theorem contents_advance {s : St T} {c next : Nat} {v : T}
    (hn : s.order[s.pops.length + 1]? = some next) (hd : s.data next = some v) :
    s.contents = v :: (s.advance next c).contents := by
  obtain ⟨hlt, hget⟩ := List.getElem?_eq_some_iff.1 hn
  have hlen : (s.advance next c).pops.length = s.pops.length + 1 := List.length_append
  show (s.order.drop (s.pops.length + 1)).filterMap s.data =
    v :: (s.order.drop ((s.advance next c).pops.length + 1)).filterMap s.data
  rw [List.drop_eq_getElem_cons hlt, hget, List.filterMap_cons_some hd, hlen]

/-- A null pointer behind a node that was the head shows that the queue is empty. -/
theorem Shape.empty {s : St T} (h : Shape s) {i head : Nat} (hle : i ≤ s.pops.length)
    (hi : s.order[i]? = some head) (hn : s.next head = none) : s.contents = [] := by
  have hlast := h.last hi hn
  have hdrop : s.order.drop (s.pops.length + 1) = [] := by
    rw [List.drop_eq_nil_iff, length_order]
    omega
  rw [St.contents, hdrop]
  rfl

theorem St.took.value_eq {s : St T} {c head next : Nat} (ht : s.took c head next)
    {data : Nat → Option T} (hdata : ∀ {n}, n ∈ s.order → data n = s.data n) :
    data next = s.data next := by
  obtain ⟨-, i, -, hop⟩ := ht
  exact hdata (List.mem_of_getElem? hop.2)

/-- The answer of a call depends on the nodes in the queue only. -/
theorem status_congr {s : St T} {c : Nat} {x : Call T} (hx : CallOk s c x)
    {data : Nat → Option T} (hdata : ∀ {n}, n ∈ s.order → data n = s.data n) :
    x.status data = x.status s.data := by
  cases x with
  | fresh | returned => rfl
  | running op pc =>
      cases op with
      | push t =>
          cases pc with
          | popTail | popSwing | retire => cases hx.2.2
          | _ => rfl
      | tryPop =>
          cases pc with
          | popTail head next | popSwing head next =>
              rw [Call.status, Call.status, St.took.value_eq hx.2 hdata]
          | retire head next => rw [Call.status, Call.status, St.took.value_eq hx.2.1 hdata]
          | _ => rfl

/-- A value is written into a node that is not in the queue. -/
theorem follows_begin {s : St T} (h : Inv s) (hf : s.follows) {c : Nat} (hc : s.calls c = .fresh)
    (op : Op T) : (s.begin c op).follows := by
  obtain ⟨hl, -, -⟩ := h.at hc
  have hst : (Call.status s.data ∘ s.calls) c = .fresh := by
    rw [Function.comp_apply, hc]
    rfl
  have hinv := Exec.inv op hf hst
  cases op with
  | tryPop =>
      have hcomp : Call.status s.data ∘ Function.update s.calls c (.running .tryPop .popHead) =
          Function.update (Call.status s.data ∘ s.calls) c (.called .tryPop) :=
        Function.comp_update ..
      rw [← hcomp] at hinv
      exact hinv
  | push t =>
      let data := Function.update s.data (node c) (some t)
      have hdata : ∀ {n}, n ∈ s.order → data n = s.data n := by
        intro n hn
        refine Function.update_of_ne (fun he => ?_) _ _
        exact hl (node_mem_order.1 (he ▸ hn))
      have hcontents : (s.begin c (.push t)).contents = s.contents := by
        refine List.filterMap_congr fun n hn => ?_
        exact hdata (List.mem_of_mem_drop hn)
      have hcomp : Call.status data ∘ Function.update s.calls c (.running (.push t) .pushTail) =
          Function.update (Call.status s.data ∘ s.calls) c (.called (.push t)) := by
        funext j
        by_cases hj : j = c
        · subst hj
          rw [Function.comp_apply, Function.update_self, Function.update_self]
          rfl
        · rw [Function.comp_apply, Function.update_of_ne hj, Function.update_of_ne hj]
          exact status_congr (h.calls j) hdata
      rw [← hcomp, ← hcontents] at hinv
      exact hinv

theorem follows_push {s s' : St T} (h : Inv s) (hf : s.follows) {c : Nat} {t : T} {pc : Pc}
    (hc : s.calls c = .running (.push t) pc) (he : exec s c (.push t) pc = some s') :
    s'.follows := by
  obtain ⟨-, hdata, hok⟩ := h.at hc
  cases pc with
  | pushTail | pushHelp =>
      cases he
      exact follows_of_same hf rfl rfl rfl (by rw [hc]; rfl) rfl
  | pushNext onto =>
      simp only [exec, Option.some.injEq] at he
      split at he <;>
        subst he <;>
        exact follows_of_same hf rfl rfl rfl (by rw [hc]; rfl) rfl
  | pushLink onto =>
      simp only [exec, Option.some.injEq] at he
      split at he
      · subst he
        have hst : (s.calls c).status s.data = .called (.push t) := by rw [hc]; rfl
        refine follows_of_effect hf hst rfl rfl rfl rfl ?_
        have hcont : ((s.link onto c).goto c (.push t) (.pushSwing onto)).contents =
            s.contents ++ [t] := contents_link h.shape onto hdata
        rw [hcont]
        exact .push s.contents t
      · subst he
        exact follows_of_same hf rfl rfl rfl (by rw [hc]; rfl) rfl
  | pushSwing onto =>
      cases he
      exact follows_of_return hf (by rw [hc]; rfl) rfl rfl rfl rfl
  | _ => cases hok

theorem follows_pop {s s' : St T} (h : Inv s) (hf : s.follows) {c : Nat} {pc : Pc}
    (hc : s.calls c = .running .tryPop pc) (he : exec s c .tryPop pc = some s') :
    s'.follows := by
  obtain ⟨-, hok⟩ := h.at hc
  cases pc with
  | popHead | popSwing =>
      cases he
      exact follows_of_same hf rfl rfl rfl (by rw [hc]; rfl) rfl
  | popNext head =>
      obtain ⟨-, i, hle, hi⟩ := hok
      simp only [exec, Option.some.injEq] at he
      split at he
      · subst he
        exact follows_of_same hf rfl rfl rfl (by rw [hc]; rfl) rfl
      · next hn =>
          subst he
          -- takes effect and returns in this step
          have hst : (Call.status s.data ∘ s.calls) c = .called .tryPop := by
            rw [Function.comp_apply, hc]
            rfl
          have hempty := h.shape.empty hle hi hn
          have hlin : Exec Fifo [] s.history (Function.update (Call.status s.data ∘ s.calls) c
              (.done (.popped none))) s.contents := by
            refine .lin hf hst ?_
            rw [hempty]
            exact .empty
          have hret := Exec.ret hlin (Function.update_self ..)
          rw [Function.update_idem] at hret
          have hcomp : Call.status s.data ∘
              Function.update s.calls c (.returned .tryPop (.popped none)) =
              Function.update (Call.status s.data ∘ s.calls) c .returned :=
            Function.comp_update ..
          rw [← hcomp] at hret
          exact hret
  | popCas head next =>
      obtain ⟨-, i, hle, hop⟩ := hok
      simp only [exec, Option.some.injEq] at he
      split at he
      · next hhead =>
          subst he hhead
          obtain rfl : i = s.pops.length := index_unique h.shape.nodup hop.1 h.shape.head
          obtain ⟨-, v, -, -, hv⟩ := h.value hop.2
          have hst : (s.calls c).status s.data = .called .tryPop := by rw [hc]; rfl
          refine follows_of_effect hf hst rfl rfl rfl rfl ?_
          rw [contents_advance hop.2 hv, hv]
          exact .pop v _
      · subst he
        exact follows_of_same hf rfl rfl rfl (by rw [hc]; rfl) rfl
  | popTail head next =>
      simp only [exec, Option.some.injEq] at he
      split at he <;>
        subst he <;>
        exact follows_of_same hf rfl rfl rfl (by rw [hc]; rfl) rfl
  | retire head next =>
      obtain ⟨v, hv, rfl⟩ := Option.map_eq_some_iff.1 he
      have hst : (s.calls c).status s.data = .done (.popped (some v)) := by
        rw [hc, ← hv]
        rfl
      exact follows_of_return hf hst rfl rfl rfl rfl
  | _ => cases hok

theorem follows_step {s s' : St T} (h : Inv s) (hf : s.follows) {l : Label T}
    (hs : step s l = some s') : s'.follows := by
  rcases step_cases hs with ⟨c, op, -, hc, rfl⟩ | ⟨c, op, pc, -, hc, he⟩
  · exact follows_begin h hf hc op
  · cases op with
    | push t => exact follows_push h hf hc he
    | tryPop => exact follows_pop h hf hc he

theorem follows_of_reaches {Q : St T → Label T → Prop} {s : St T}
    (h : Lts.Reaches step Q St.init s) : s.follows := by
  suffices hI : Inv s ∧ s.follows from hI.2
  refine h.invariant (I := fun x => Inv x ∧ x.follows) ⟨Inv.init, .init⟩ ?_
  intro x y l hx _ hs
  exact ⟨hx.1.step hs, follows_step hx.1 hx.2 hs⟩

/-! ## What is popped -/

/-- The `i`-th head CAS takes the value of the `i`-th link CAS. -/
theorem Inv.value_at {s : St T} (h : Inv s) {c i k next : Nat} (hi : s.pops[i]? = some c)
    (hk : s.pops[k]? = some c) (hn : s.order[k + 1]? = some next) :
    ∃ p t, s.links[i]? = some p ∧ s.pushes p = some t ∧ s.data next = some t := by
  obtain rfl : i = k := index_unique h.shape.pops hi hk
  exact h.value hn

theorem Inv.answer {s : St T} (h : Inv s) {i c : Nat} (hi : s.pops[i]? = some c) :
    ∃ p t, s.links[i]? = some p ∧ s.pushes p = some t ∧ s.answer c = some t := by
  have hc : c ∈ s.pops := List.mem_of_getElem? hi
  rw [St.answer]
  cases hx : s.calls c with
  | fresh => exact absurd hc (h.at hx).2.1
  | running op pc =>
      cases op with
      | push t => exact absurd hc (h.at hx).1
      | tryPop =>
          cases pc with
          | popTail head next | popSwing head next =>
              obtain ⟨-, -, k, hk, hop⟩ := h.at hx
              exact h.value_at hi hk hop.2
          | retire head next =>
              obtain ⟨-, ⟨-, k, hk, hop⟩, -⟩ := h.at hx
              exact h.value_at hi hk hop.2
          | popHead => exact absurd hc (h.at hx).2
          | popNext | popCas => exact absurd hc (h.at hx).2.1
          | _ => cases (h.at hx).2
  | returned op r =>
      cases op with
      | push t => exact absurd hc (h.at hx).2.2.1
      | tryPop =>
          obtain ⟨-, v, rfl, ha⟩ := h.at hx
          cases v with
          | none => exact absurd hc ha
          | some v =>
              obtain ⟨k, next, hk, hn, hv⟩ := ha
              obtain ⟨p, t, hp, ht, hd⟩ := h.value_at hi hk hn
              exact ⟨p, t, hp, ht, hv.symm.trans hd⟩

theorem Inv.answers_prefix {s : St T} (h : Inv s) :
    s.pops.map s.answer <+: s.links.map s.pushes := by
  refine List.prefix_iff_getElem?.2 fun i hi => ?_
  rw [List.length_map] at hi
  obtain ⟨p, t, hp, ht, ha⟩ := h.answer (List.getElem?_eq_getElem hi)
  rw [List.getElem?_map, hp, Option.map_some, List.getElem_map, ht, ha]

theorem goto_self (s : St T) (c : Nat) (op : Op T) (pc : Pc) :
    (s.goto c op pc).calls c = .running op pc := Function.update_self ..

theorem giveBack_self (s : St T) (c : Nat) (op : Op T) (r : Res T) :
    (s.giveBack c op r).calls c = .returned op r := Function.update_self ..

/-- An answer `None` comes from a load that found the queue empty. -/
theorem Inv.empty_of_none {s s' : St T} (h : Inv s) {c : Nat} {op : Op T} {pc : Pc}
    (hc : s.calls c = .running op pc) (he : Queue.exec s c op pc = some s')
    (hr : s'.calls c = .returned op (.popped none)) : s.contents = [] := by
  cases pc with
  | popNext head =>
      simp only [Queue.exec, Option.some.injEq] at he
      split at he
      · subst he
        cases (goto_self ..).symm.trans hr
      · next hn =>
          cases op with
          | push t => cases (h.at hc).2.2
          | tryPop =>
              obtain ⟨-, -, i, hle, hi⟩ := h.at hc
              exact h.shape.empty hle hi hn
  | pushNext | pushLink | popCas | popTail =>
      simp only [Queue.exec, Option.some.injEq] at he
      split at he <;>
        subst he <;>
        cases (goto_self ..).symm.trans hr
  | pushSwing onto =>
      cases he
      cases (giveBack_self ..).symm.trans hr
  | retire head next =>
      obtain ⟨v, -, rfl⟩ := Option.map_eq_some_iff.1 he
      cases (giveBack_self ..).symm.trans hr
  | _ =>
      cases he
      cases (goto_self ..).symm.trans hr

theorem Shape.ne_of_left {s : St T} (h : Shape s) {i n : Nat} (hi : s.order[i]? = some n)
    (hlt : i < s.pops.length) (hp : s.past (i + 1)) : s.head ≠ n ∧ s.tail ≠ n := by
  constructor
  · rintro rfl
    have := index_unique h.nodup hi h.head
    omega
  · rintro rfl
    obtain ⟨q, hq, hle⟩ := hp
    have := index_unique h.nodup hi hq
    omega

/-- Both ends of the queue reach the last node. -/
theorem Shape.reach_last {s : St T} (h : Shape s) :
    ∃ last, s.order.getLast? = some last ∧ s.next last = none ∧
      Relation.ReflTransGen (fun a b => s.next a = some b) s.head last ∧
      Relation.ReflTransGen (fun a b => s.next a = some b) s.tail last := by
  obtain ⟨last, hnull, hhead, hlast⟩ := h.chain.reaches h.head
  obtain ⟨q, hq, -⟩ := h.tail
  obtain ⟨last', -, htail, hlast'⟩ := h.chain.reaches hq
  obtain rfl : last' = last := Option.some.inj (hlast'.symm.trans hlast)
  exact ⟨last', hlast, hnull, hhead, htail⟩

/-- The queue in every interleaving of any number of calls. The pops answer, in
the order of their head CAS, with a prefix of what was pushed, in the order of
the link CAS, each call taking part once; a pop answers `None` when the queue is
empty; a node that is handed over is neither head nor tail, then and ever after,
is handed over once, and head and tail reach the last node; no slot is read that
holds no value; and the history is one of an atomic FIFO queue. -/
theorem queue_fifo {Q : St T → Label T → Prop} {s : St T}
    (h : Lts.Reaches step Q St.init s) :
    s.pops.map s.answer <+: s.links.map s.pushes ∧
    s.links.Nodup ∧ s.pops.Nodup ∧ (∀ c ∈ s.links, (s.pushes c).isSome) ∧
    (∀ {c t r}, s.calls c = .returned (.push t) r → c ∈ s.links) ∧
    (∀ {c op v}, s.calls c = .returned op (.popped (some v)) → c ∈ s.pops) ∧
    (∀ {c op pc s'}, s.calls c = .running op pc → step s (.run c) = some s' →
      s'.calls c = .returned op (.popped none) → s.contents = []) ∧
    (∀ {c op head next}, s.calls c = .running op (.retire head next) →
      s.head ≠ head ∧ s.tail ≠ head ∧
      ∃ last, s.order.getLast? = some last ∧ s.next last = none ∧
        Relation.ReflTransGen (fun a b => s.next a = some b) s.head last ∧
        Relation.ReflTransGen (fun a b => s.next a = some b) s.tail last) ∧
    s.retired.Nodup ∧ (∀ n ∈ s.retired, s.head ≠ n ∧ s.tail ≠ n) ∧
    (∀ {c op pc}, s.calls c = .running op pc → (step s (.run c)).isSome) ∧
    IsLinearizable Fifo [] s.history := by
  have hinv := inv_of_reaches h
  have hsh := hinv.shape
  refine ⟨hinv.answers_prefix, hsh.links, hsh.pops, ?_, ?_, ?_, ?_, ?_, hsh.retired, ?_,
    hinv.progress, (follows_of_reaches h).isLinearizable⟩
  · intro c hc
    obtain ⟨t, ht, -⟩ := hinv.pushed hc
    rw [ht]
    rfl
  · intro c t r hc
    exact (hinv.at hc).2.1
  · intro c op v hc
    cases op with
    | push t => cases (hinv.at hc).1
    | tryPop =>
        obtain ⟨-, v', he, ha⟩ := hinv.at hc
        cases he
        obtain ⟨i, next, hi, -⟩ := ha
        exact List.mem_of_getElem? hi
  · intro c op pc s' hc hs hr
    simp only [step, hc] at hs
    exact hinv.empty_of_none hc hs hr
  · intro c op head next hc
    cases op with
    | push t => cases (hinv.at hc).2.2
    | tryPop =>
        obtain ⟨-, ⟨-, k, hk, hop⟩, i, hi, hp⟩ := hinv.at hc
        obtain rfl : k = i := index_unique hsh.nodup hop.1 hi
        have hlt := (List.getElem?_eq_some_iff.1 hk).1
        obtain ⟨hhead, htail⟩ := hsh.ne_of_left hi hlt hp
        exact ⟨hhead, htail, hsh.reach_last⟩
  · intro n hn
    obtain ⟨i, hlt, hi, hp⟩ := hsh.left hn
    exact hsh.ne_of_left hi hlt hp

/-- A pop overtakes the tail of a push that has linked its node, moves the tail
for it and is about to hand the first sentinel over, while a second push waits
behind the old tail. -/
theorem queue_fifo_lagging : ∃ s : St Nat, Lts.Reaches step (fun _ _ => True) St.init s ∧
    s.calls 0 = .running (.push 7) (.pushSwing 0) ∧
    s.calls 1 = .running (.push 8) (.pushLink 0) ∧
    s.calls 2 = .running .tryPop (.retire 0 1) ∧ s.pops.map s.answer = [some 7] ∧
    s.head ≠ 0 ∧ s.tail ≠ 0 ∧ IsLinearizable Fifo [] s.history := by
  have hrun : (Lts.runs (ι := Label Nat) step (fun _ _ => True) St.init
      [.call 0 (.push 7), .call 1 (.push 8), .call 2 .tryPop, .run 0, .run 1, .run 0, .run 1,
        .run 0, .run 2, .run 2, .run 2, .run 2, .run 2]).any
      (fun s => s.calls 0 = .running (.push 7) (.pushSwing 0) ∧
        s.calls 1 = .running (.push 8) (.pushLink 0) ∧
        s.calls 2 = .running .tryPop (.retire 0 1) ∧ s.pops.map s.answer = [some 7]) = true := by
    decide +kernel
  obtain ⟨s, hr, hs⟩ := Lts.exists_of_any hrun
  obtain ⟨h₀, h₁, h₂, hpops⟩ := of_decide_eq_true hs
  obtain ⟨-, -, -, -, -, -, -, hretire, -, -, -, hlin⟩ := queue_fifo hr
  obtain ⟨hhead, htail, -⟩ := hretire h₂
  exact ⟨s, hr, h₀, h₁, h₂, hpops, hhead, htail, hlin⟩

end Cdpt.Queue
