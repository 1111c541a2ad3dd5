import Cdpt.Proofs.Safe

/-!
# The order of shading and writing

Where a mark stands among the links of its object, and what has been shaded by the
time a link is written: the target of a link that `shade` blackens, the new target
of a CAS on a black link, and the pointee of a field that `unroot` stores.

All three are about one and the same order in the source. `shade_pointee` comes
first, which leaves the target black or with a task, and the write of the link comes
second; in between there are only frames of the same thread. So the fact that the
target has been shaded is attached to the frame that will write (`St.shades`,
`ShadeRet.resume`), and the write finds it there. For `unroot` the first part may be
missing, when the pointee has other owners: then the count it still has stands in
for the shading.

A mark goes through the links of its object in order, and the position it has
reached (`Frame.marksAt`) moves past a link only when that link is black, by the CAS
that blackens it or because it was so already. A link that is rewritten behind the
position keeps its colour, since a CAS does. Hence when the position is past the
last link all of them are black, and the header may follow (`Frame.finishes`).
-/

namespace Cdpt

/-! ## Positions of a mark -/

/-- The link has the colour `b`. -/
def St.dark (s : St) (b : Color) (o : Oid) (i : Nat) : Prop :=
  ((s.objs o).link i).ptrMeta = .Unrooted b

def ShadeRet.marksAt (o : Oid) (i : Nat) : ShadeRet → Prop
  | .link p j _ => p = o ∧ j = i
  | _ => False

/-- `shade_outgoings` on `o` stands at field `i`. -/
def Frame.marksAt (o : Oid) (i : Nat) : Frame → Prop
  | .mark (.links p j) | .mark (.linkCas p j _) => p = o ∧ j = i
  | .ptr (.shade _ r) | .ptr (.record _ r) | .ptr (.push _ r) | .ptr (.rcPhase _ r) => r.marksAt o i
  | _ => False

/-- The links of `o` are done and its header is next. -/
def Frame.finishes (o : Oid) : Frame → Prop
  | .mark (.header p) | .mark (.headerCas p _) => p = o
  | _ => False

attribute [grind =] ShadeRet.marksAt Frame.marksAt Frame.finishes

theorem marks_of_marksAt {f : Frame} {o : Oid} {i : Nat} (h : f.marksAt o i) : f.marks o := by
  unfold Frame.marksAt at h
  split at h
  all_goals first
    | exact h.1
    | cases h
    | (next r => cases r <;> first | exact h.1 | cases h)

theorem marks_of_finishes {f : Frame} {o : Oid} (h : f.finishes o) : f.marks o := by
  unfold Frame.finishes at h
  split at h
  all_goals first
    | exact h
    | cases h

theorem marksAt_resume {r : ShadeRet} {g : Frame} {o : Oid} {i : Nat} (hg : g ∈ r.resume)
    (h : g.marksAt o i) : r.marksAt o i := by
  cases r <;> simp_all [ShadeRet.resume, Frame.marksAt, ShadeRet.marksAt]

theorem marksAt_shadeLink {s : St} {t : Lid} {p o : Oid} {j i : Nat} {q : ManPtr}
    (h : (shadeLink s t p j q).marksAt o i) :
    p = o ∧ (i = j ∨ (i = j + 1 ∧ q.ptrMeta = .Unrooted (s.black t))) := by
  unfold shadeLink at h
  split at h
  · next hq => exact ⟨h.1, .inr ⟨h.2.symm, hq⟩⟩
  · split at h
    · exact ⟨h.1, .inl h.2.symm⟩
    · exact ⟨h.1, .inl h.2.symm⟩

theorem marksAt_unrootedOnce {s : St} {t : Lid} {l : Loc} {old new : ManPtr} {k : CasKind}
    {o : Oid} {i : Nat} : ¬ Frame.marksAt o i (.ptr (unrootedOnce s t l old new k)) := by
  unfold unrootedOnce
  repeat' split
  all_goals exact id

theorem marksAt_dropTemp {p : ManPtr} {g : Frame} {o : Oid} {i : Nat} (hg : g ∈ dropTemp p) :
    ¬ g.marksAt o i := by
  unfold dropTemp at hg
  split at hg
  · simp only [dropFrames, List.mem_cons, List.not_mem_nil, or_false] at hg
    rcases hg with rfl | rfl | rfl | rfl <;> exact id
  · cases hg

/-- The position moves past a link that is black. -/
theorem exec_marksAt {s : St} {t : Lid} {ch : Nat} {f g : Frame} {o : Oid} {i : Nat}
    (hg : g ∈ (exec s t ch f).2) (h : g.marksAt o i) :
    i = 0 ∨ f.marksAt o i ∨ ∃ j, i = j + 1 ∧ f.marksAt o j ∧
      (((s.objs o).link j).ptrMeta = .Unrooted (s.black t) ∨
        ∃ q : ManPtr,
          (exec s t ch f).1 = .setLink (.field o j) (q.withMeta (.Unrooted (s.black t)))) := by
  cases f with
  | pin f =>
      cases f <;> simp only [exec, execPin] at hg <;> (repeat' split at hg) <;> grind
  | ptr f =>
      cases f with
      | rootedCas l old new k =>
          simp only [exec, execPtr, rootedFail] at hg
          repeat' split at hg
          all_goals grind [marksAt_unrootedOnce, marksAt_dropTemp]
      | unrootedCas l old new k =>
          simp only [exec, execPtr, unrootedFail] at hg
          repeat' split at hg
          all_goals grind [marksAt_unrootedOnce]
      | _ =>
          simp only [exec, execPtr, rootedOnce] at hg
          repeat' split at hg
          all_goals grind [marksAt_unrootedOnce, marksAt_resume]
  | mark f =>
      cases f with
      | links p j =>
          simp only [exec, execMark] at hg
          split at hg
          · rw [List.mem_singleton.1 hg] at h
            obtain ⟨rfl, rfl | ⟨rfl, hq⟩⟩ := marksAt_shadeLink h
            · exact .inr (.inl ⟨rfl, rfl⟩)
            · exact .inr (.inr ⟨j, rfl, ⟨rfl, rfl⟩, .inl hq⟩)
          · rw [List.mem_singleton.1 hg] at h
            cases h
      | linkCas p j q =>
          simp only [exec, execMark] at hg ⊢
          split at hg
          · next hq =>
              rw [List.mem_singleton.1 hg] at h
              obtain ⟨rfl, rfl⟩ := h
              rw [if_pos hq]
              exact .inr (.inr ⟨j, rfl, ⟨rfl, rfl⟩, .inr ⟨q, rfl⟩⟩)
          · rw [List.mem_singleton.1 hg] at h
            obtain ⟨rfl, rfl | ⟨rfl, hq⟩⟩ := marksAt_shadeLink h
            · exact .inr (.inl ⟨rfl, rfl⟩)
            · exact .inr (.inr ⟨j, rfl, ⟨rfl, rfl⟩, .inl hq⟩)
      | _ =>
          simp only [exec, execMark] at hg
          repeat' split at hg
          all_goals grind
  | help f =>
      cases f <;> simp only [exec, execHelp, scanObj, scanHazard, Scanner.next] at hg <;>
        (repeat' split at hg) <;> grind

theorem finishes_resume {r : ShadeRet} {g : Frame} {o : Oid} (hg : g ∈ r.resume) :
    ¬ g.finishes o := by
  cases r <;> simp_all [ShadeRet.resume, Frame.finishes]

theorem finishes_dropTemp {p : ManPtr} {g : Frame} {o : Oid} (hg : g ∈ dropTemp p) :
    ¬ g.finishes o := by
  unfold dropTemp at hg
  split at hg
  · simp only [dropFrames, List.mem_cons, List.not_mem_nil, or_false] at hg
    rcases hg with rfl | rfl | rfl | rfl <;> exact id
  · cases hg

theorem finishes_shadeLink {s : St} {t : Lid} {p o : Oid} {j : Nat} {q : ManPtr} :
    ¬ (shadeLink s t p j q).finishes o := by
  unfold shadeLink
  repeat' split
  all_goals exact id

theorem exec_finishes {s : St} {t : Lid} {ch : Nat} {f g : Frame} {o : Oid}
    (hg : g ∈ (exec s t ch f).2) (h : g.finishes o) :
    f.finishes o ∨ ∃ i, f = .mark (.links o i) ∧ (s.objs o).arity ≤ i := by
  cases f with
  | pin f =>
      cases f <;> simp only [exec, execPin] at hg <;> (repeat' split at hg) <;> grind
  | ptr f =>
      cases f <;> simp only [exec, execPtr, rootedFail, unrootedFail] at hg <;>
        (repeat' split at hg) <;> grind [finishes_resume, finishes_dropTemp]
  | mark f =>
      cases f <;> simp only [exec, execMark] at hg <;> (repeat' split at hg) <;>
        grind [finishes_shadeLink]
  | help f =>
      cases f <;> simp only [exec, execHelp, scanObj, scanHazard, Scanner.next] at hg <;>
        (repeat' split at hg) <;> grind

/-! ## What has been shaded -/

/-- The access has seen `p` black or has pushed a task for it. -/
def St.shades (s : St) (t : Lid) (ch : Nat) (f : Frame) (p : Oid) : Prop :=
  s.color p = s.black t ∨ (exec s t ch f).1 = .pushTask p

/-- The frames that follow a call of `shade_pointee`. -/
theorem exec_resume {s : St} {t : Lid} {ch : Nat} {r : ShadeRet} {p : Oid} {f g : Frame}
    (hf : f = .ptr (.shade p r) ∨ f = .ptr (.push p r)) (hg : g ∈ (exec s t ch f).2)
    (hne : ∀ q r, g ≠ .ptr (.record q r)) : g ∈ r.resume ∧ s.shades t ch f p := by
  rcases hf with rfl | rfl
  · simp only [exec, execPtr] at hg
    split at hg
    · next hc => exact ⟨hg, .inl hc⟩
    · exact absurd (List.mem_singleton.1 hg) (hne _ _)
  · exact ⟨hg, .inr rfl⟩

/-- The CAS that blackens a link comes after its target is shaded. -/
theorem exec_linkCas {s : St} {t : Lid} {ch : Nat} {f : Frame} {o p : Oid} {i : Nat} {q : ManPtr}
    (ha : f.argOk) (hN : s.epoch.phase ≠ .N) (hg : .mark (.linkCas o i q) ∈ (exec s t ch f).2)
    (hq : q.addr = some p) : s.shades t ch f p := by
  have hshade : ∀ {c r}, f = .ptr (.shade c r) ∨ f = .ptr (.push c r) → s.shades t ch f p := by
    intro c r hf
    obtain ⟨hr, hs⟩ := exec_resume hf hg nofun
    have hc : q.addr = some c := by
      cases r with
      | link o' i' q' =>
          cases List.mem_singleton.1 hr
          rcases hf with rfl | rfl <;> exact ha
      | _ => simp [ShadeRet.resume] at hr
    rw [hc] at hq
    cases hq
    exact hs
  have hlink : ∀ {o' j q'}, Frame.mark (.linkCas o i q) ≠ shadeLink s t o' j q' := by
    intro o' j q' he
    unfold shadeLink at he
    split at he
    · cases he
    · split at he
      · cases he
      · next hn =>
          cases he
          rw [hn] at hq
          cases hq
  cases f with
  | pin f => cases f <;> simp only [exec, execPin] at hg <;> (repeat' split at hg) <;> simp at hg
  | ptr f =>
      cases f with
      | shade c r => exact hshade (.inl rfl)
      | push c r => exact hshade (.inr rfl)
      | rcPhase c r =>
          simp only [exec, execPtr, if_neg hN, List.mem_singleton] at hg
          cases hg
      | _ =>
          simp only [exec, execPtr, rootedFail, unrootedFail, dropTemp, dropFrames] at hg
          repeat' split at hg
          all_goals simp at hg
  | mark f =>
      cases f <;> simp only [exec, execMark] at hg <;> (repeat' split at hg) <;>
        simp [hlink] at hg
  | help f =>
      cases f <;> simp only [exec, execHelp, scanObj, scanHazard, Scanner.next] at hg <;>
        (repeat' split at hg) <;> simp at hg

/-- `unroot` stores a link after its target has been shaded or still has a count. -/
theorem exec_unrootStore {s : St} {t : Lid} {ch : Nat} {f : Frame} {o p : Oid} {i : Nat}
    {q : ManPtr} (ha : f.argOk) (hN : s.epoch.phase ≠ .N)
    (hg : .ptr (.unrootStore o i q) ∈ (exec s t ch f).2) (hq : q.addr = some p) :
    s.shades t ch f p ∨
    (s.decrements p f ∧ (exec s t ch f).1 = .setCount p (s.rootCount p - 1) ∧
      s.rootCount p ≠ 1) := by
  have hshade : ∀ {c r}, f = .ptr (.shade c r) ∨ f = .ptr (.push c r) → s.shades t ch f p := by
    intro c r hf
    obtain ⟨hr, hs⟩ := exec_resume hf hg nofun
    have hc : q.addr = some c := by
      cases r with
      | unroot o' i' q' =>
          cases List.mem_singleton.1 hr
          rcases hf with rfl | rfl <;> exact ha
      | _ => simp [ShadeRet.resume] at hr
    rw [hc] at hq
    cases hq
    exact hs
  have howns := (exec_owns (o := o) hg rfl).1
  cases f with
  | ptr f =>
      cases f with
      | shade c r => exact .inl (hshade (.inl rfl))
      | push c r => exact .inl (hshade (.inr rfl))
      | rcPhase c r =>
          simp only [exec, execPtr, if_neg hN, List.mem_singleton] at hg
          cases hg
      | unroot o' j =>
          refine .inr ?_
          simp only [exec, execPtr] at hg ⊢
          split at hg
          · next hi =>
              split at hg
              · next c hc =>
                  rw [if_pos hi]
                  simp only
                  split at hg
                  · simp at hg
                  · next h1 =>
                      cases List.mem_singleton.1 hg
                      rw [hc] at hq
                      cases hq
                      exact ⟨⟨hi, hc⟩, rfl, h1⟩
              · next hn =>
                  cases List.mem_singleton.1 hg
                  rw [hn] at hq
                  cases hq
          · cases hg
      | _ =>
          simp only [exec, execPtr] at hg
          repeat' split at hg
          all_goals first
            | (simp at hg; done)
            | cases howns
  | _ => cases howns

theorem unrootedOnce_cas {s : St} {t : Lid} {l l' : Loc} {old new old' new' : ManPtr}
    {k k' : CasKind} (h : PtrFrame.unrootedCas l old new k = unrootedOnce s t l' old' new' k') :
    l = l' ∧ old = old' ∧ ∀ p, new.addr = some p → old.ptrMeta = .Unrooted (s.black t) →
      old.addr = some p := by
  unfold unrootedOnce at h
  split at h
  · split at h
    · cases h
    · next hn =>
        cases h
        exact ⟨rfl, rfl, fun p hp => by rw [hn] at hp; cases hp⟩
  · next hc =>
      cases h
      refine ⟨rfl, rfl, fun p hp hm => ?_⟩
      by_contra hne
      exact hc ⟨fun he => hne (he.trans hp), hm⟩

/-- The insertion barrier comes before the CAS on a black link. -/
theorem exec_unrootedCas {s : St} {t : Lid} {ch : Nat} {f : Frame} {l : Loc} {old new : ManPtr}
    {k : CasKind} {p : Oid} (ha : f.argOk) (hN : s.epoch.phase ≠ .N)
    (hg : .ptr (.unrootedCas l old new k) ∈ (exec s t ch f).2)
    (hm : old.ptrMeta = .Unrooted (s.black t)) (hp : new.addr = some p) (hne : old.addr ≠ some p) :
    s.shades t ch f p := by
  have hshade : ∀ {c r}, f = .ptr (.shade c r) ∨ f = .ptr (.push c r) → s.shades t ch f p := by
    intro c r hf
    obtain ⟨hr, hs⟩ := exec_resume hf hg nofun
    have hc : new.addr = some c := by
      cases r with
      | insertion l' old' new' k' =>
          cases List.mem_singleton.1 hr
          rcases hf with rfl | rfl <;> exact ha
      | _ => simp [ShadeRet.resume] at hr
    rw [hc] at hp
    cases hp
    exact hs
  have honce : ∀ {l' old' new' k'},
      PtrFrame.unrootedCas l old new k ≠ unrootedOnce s t l' old' new' k' := fun he =>
    hne ((unrootedOnce_cas he).2.2 p hp hm)
  cases f with
  | pin f => cases f <;> simp only [exec, execPin] at hg <;> (repeat' split at hg) <;> simp at hg
  | ptr f =>
      cases f with
      | shade c r => exact hshade (.inl rfl)
      | push c r => exact hshade (.inr rfl)
      | rcPhase c r =>
          simp only [exec, execPtr, if_neg hN, List.mem_singleton] at hg
          cases hg
      | _ =>
          simp only [exec, execPtr, rootedFail, unrootedFail, dropTemp, dropFrames,
            rootedOnce] at hg
          repeat' split at hg
          all_goals simp [honce] at hg
  | mark f =>
      cases f <;> simp only [exec, execMark, shadeLink] at hg <;> (repeat' split at hg) <;>
        simp at hg
  | help f =>
      cases f <;> simp only [exec, execHelp, scanObj, scanHazard, Scanner.next] at hg <;>
        (repeat' split at hg) <;> simp at hg

end Cdpt
