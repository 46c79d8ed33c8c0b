import Vos.Crdt.SequenceOrder
import Vos.Crdt.Convergence

/-!
# vos CRDT fields — the positions of list and text edits

`insert_with_id(index, id, value)` anchors the new element after the visible element before
`index` and gives it a logical time above every time the list holds. The new element is then the
first child of its anchor, and the walk of `ordered_ids` emits it right after the anchor, so the
visible values get `value` at `index`. This rests on the lists the replicas reach (`Wf`): every
anchor is an element inserted at an earlier time, so the walk from the start reaches every
element and the fallback pass of `ordered_ids` adds nothing.

* `PrecededBy`: what stands right before an id wherever it occurs in a list;
* `walk_induction`: an invariant of the walk's state that a skipped pop and a visit both keep
  holds of its result;
* `Wf`, kept by every operation and merge of a list and a text (`listType_lawful_wf`,
  `textType_lawful_wf`), hence by every replica of a run;
* `Wf.orderedIds_eq`, `Wf.mem_orderedIds`, `Wf.nodup_orderedIds`: the walk from the start emits
  every element once;
* `orderedIds_insertAfterWithId`: a fresh element comes right after its anchor;
* **`sequence_positions`**: on every list and text a run reaches, insertions, pushes, removals and
  deletions act on the visible positions they name.
-/

namespace Vos.Crdt

/-! ## The element before an id -/

section PrecededBy

variable {α : Type} {xs : List α} {x y : α} {p : Option α}

/-- Wherever `x` occurs in `xs`, the element right before it is `p` (`none`: `x` comes first). -/
def PrecededBy (xs : List α) (x : α) (p : Option α) : Prop :=
  ∀ pre post, xs = pre ++ x :: post → pre.getLast? = p

theorem PrecededBy.nil : PrecededBy [] x p := by
  intro pre post h
  simp at h

theorem PrecededBy.append_of_ne (h : PrecededBy xs x p) (hy : y ≠ x) :
    PrecededBy (xs ++ [y]) x p := by
  intro pre post heq
  rcases List.eq_nil_or_concat post with rfl | ⟨post', z, rfl⟩
  · obtain ⟨-, hyx⟩ := List.append_inj' heq rfl
    exact absurd (List.cons.inj hyx).1 hy
  · have heq' : xs ++ [y] = (pre ++ x :: post') ++ [z] := by simpa using heq
    exact h pre post' (List.append_inj' heq' rfl).1

theorem PrecededBy.append_self (hx : x ∉ xs) (hlast : xs.getLast? = p) :
    PrecededBy (xs ++ [x]) x p := by
  intro pre post heq
  rcases List.eq_nil_or_concat post with rfl | ⟨post', z, rfl⟩
  · rw [← (List.append_inj' heq rfl).1, hlast]
  · have heq' : xs ++ [x] = (pre ++ x :: post') ++ [z] := by simpa using heq
    rw [(List.append_inj' heq' rfl).1] at hx
    simp at hx

end PrecededBy

namespace CrdtList

variable {I T : Type} [LinearOrder I]

/-! ## Running a walk to its end -/

/-- **Walk induction**: an invariant of the pending stack and the accumulator that a skipped pop
and a visit both keep holds when a walk with enough fuel ends. -/
theorem walk_induction (l : CrdtList I T) (Inv : List I → Finset I × List I → Prop)
    (hskip : ∀ x pending visited result, x ∈ visited →
      Inv (x :: pending) (visited, result) → Inv pending (visited, result))
    (hvisit : ∀ x pending visited result, x ∈ l.elements → x ∉ visited →
      Inv (x :: pending) (visited, result) →
        Inv (l.childrenOf (some x) ++ pending) (insert x visited, result ++ [x])) :
    ∀ (n : ℕ) (pending : List I) (acc : Finset I × List I), (∀ y ∈ pending, y ∈ l.elements) →
      l.potential acc.1 pending ≤ n → Inv pending acc → Inv [] (l.walk n pending acc) := by
  intro n
  induction n with
  | zero =>
    intro pending acc _ hn hinv
    have hnil : pending = [] := List.eq_nil_of_length_eq_zero (by rw [potential] at hn; omega)
    subst hnil
    rwa [walk_nil]
  | succ n ih =>
    intro pending acc hkeys hn hinv
    obtain ⟨visited, result⟩ := acc
    cases pending with
    | nil => rwa [walk_nil]
    | cons x pending =>
      have hx : x ∈ l.elements := hkeys x List.mem_cons_self
      have hrest : ∀ y ∈ pending, y ∈ l.elements := fun y hy =>
        hkeys y (List.mem_cons_of_mem x hy)
      by_cases hvis : x ∈ visited
      · rw [walk, if_pos hvis]
        rw [potential_cons] at hn
        exact ih pending _ hrest (by dsimp only at hn ⊢; omega)
          (hskip x pending visited result hvis hinv)
      · rw [walk, if_neg hvis]
        have hpot : l.potential (insert x visited) (l.childrenOf (some x) ++ pending) + 1 =
            l.potential visited (x :: pending) := potential_visit hx hvis
        refine ih _ _ (fun y hy => ?_) (by dsimp only at hn ⊢; omega)
          (hvisit x pending visited result hx hvis hinv)
        rcases List.mem_append.mp hy with hy | hy
        · exact mem_of_mem_childrenOf hy
        · exact hrest y hy

theorem appendDescendants_induction (l : CrdtList I T) (Inv : List I → Finset I × List I → Prop)
    (hskip : ∀ x pending visited result, x ∈ visited →
      Inv (x :: pending) (visited, result) → Inv pending (visited, result))
    (hvisit : ∀ x pending visited result, x ∈ l.elements → x ∉ visited →
      Inv (x :: pending) (visited, result) →
        Inv (l.childrenOf (some x) ++ pending) (insert x visited, result ++ [x]))
    {p : Option I} {acc : Finset I × List I} (hp : ∀ x, p = some x → x ∈ l.elements → x ∈ acc.1)
    (hinv : Inv (l.childrenOf p) acc) : Inv [] (l.appendDescendants p acc) :=
  l.walk_induction Inv hskip hvisit _ _ _ (fun _ hy => mem_of_mem_childrenOf hy)
    (l.potential_le_card hp) hinv

/-- The visited set is the set of the ids emitted, each emitted once. -/
def Tracks (acc : Finset I × List I) : Prop := acc.1 = acc.2.toFinset ∧ acc.2.Nodup

theorem Tracks.visit {visited : Finset I} {result : List I} {x : I} (h : Tracks (visited, result))
    (hx : x ∉ visited) : Tracks (insert x visited, result ++ [x]) := by
  obtain ⟨hv, hnd⟩ := h
  dsimp only at hv hnd
  subst hv
  refine ⟨by ext y; simp, List.nodup_append.mpr ⟨hnd, List.nodup_singleton x, ?_⟩⟩
  intro a ha b hb hab
  rw [List.mem_singleton.mp hb] at hab
  exact hx (by simpa [← hab] using ha)

/-- Every element anchored at the start, or at a visited element, is visited or pending. -/
def Covers (l : CrdtList I T) (pending : List I) (visited : Finset I) : Prop :=
  ∀ x, (l.parentOf x = some none ∨ ∃ q ∈ visited, l.parentOf x = some (some q)) →
    x ∈ visited ∨ x ∈ pending

theorem Covers.skip {l : CrdtList I T} {x : I} {pending : List I} {visited : Finset I}
    (h : l.Covers (x :: pending) visited) (hx : x ∈ visited) : l.Covers pending visited := by
  intro y hy
  rcases h y hy with hy' | hy'
  · exact Or.inl hy'
  · rcases List.mem_cons.mp hy' with rfl | hy'
    · exact Or.inl hx
    · exact Or.inr hy'

theorem Covers.visit {l : CrdtList I T} {x : I} {pending : List I} {visited : Finset I}
    (h : l.Covers (x :: pending) visited) :
    l.Covers (l.childrenOf (some x) ++ pending) (insert x visited) := by
  intro y hy
  by_cases hxy : l.parentOf y = some (some x)
  · exact Or.inr (List.mem_append_left _ (mem_childrenOf.mpr hxy))
  · have hy' : l.parentOf y = some none ∨ ∃ q ∈ visited, l.parentOf y = some (some q) := by
      rcases hy with hy | ⟨q, hq, hyq⟩
      · exact Or.inl hy
      · rcases Finset.mem_insert.mp hq with rfl | hq
        · exact absurd hyq hxy
        · exact Or.inr ⟨q, hq, hyq⟩
    rcases h y hy' with hy'' | hy''
    · exact Or.inl (Finset.mem_insert_of_mem hy'')
    · rcases List.mem_cons.mp hy'' with rfl | hy''
      · exact Or.inl (Finset.mem_insert_self _ _)
      · exact Or.inr (List.mem_append_right _ hy'')

/-- When the walk from the start ends, every element anchored at the start or at a visited
element is visited. -/
theorem covers_root (l : CrdtList I T) : l.Covers [] (l.appendDescendants none (∅, [])).1 :=
  l.appendDescendants_induction (fun pending acc => l.Covers pending acc.1)
    (fun _ _ _ _ hx h => h.skip hx) (fun _ _ _ _ _ _ h => h.visit) (by simp)
    fun x hx => Or.inr (mem_childrenOf.mpr (hx.resolve_right (by simp)))

/-- The lists the replicas reach: every anchor is an element inserted at an earlier logical
time, and every removed id is an element. -/
structure Wf (l : CrdtList I T) : Prop where
  anchor_lt : ∀ x e, l.elements.lookup x = some e → ∀ p, e.after = some p →
    ∃ ep, l.elements.lookup p = some ep ∧ ep.logicalTime < e.logicalTime
  removed_mem : ∀ x ∈ l.removed, x ∈ l.elements

theorem timeOf_of_lookup {l : CrdtList I T} {x : I} {e : ListElement I T}
    (h : l.elements.lookup x = some e) : l.timeOf x = e.logicalTime := by
  simp [timeOf, h]

/-- **The walk from the start reaches every element** of a well-formed list: by strong induction
on the logical time, an element's anchor is visited, so the element is. -/
theorem Wf.mem_appendDescendants {l : CrdtList I T} (h : l.Wf) {x : I} (hx : x ∈ l.elements) :
    x ∈ (l.appendDescendants none (∅, [])).1 := by
  have hcov := l.covers_root
  suffices ∀ n, ∀ x ∈ l.elements, l.timeOf x = n → x ∈ (l.appendDescendants none (∅, [])).1 from
    this _ x hx rfl
  intro n
  induction n using Nat.strong_induction_on with
  | _ n ih =>
    intro x hx hn
    obtain ⟨e, he⟩ := Finmap.mem_iff.mp hx
    cases hafter : e.after with
    | none =>
      have hroot : l.parentOf x = some none := by simp [parentOf, he, hafter]
      simpa using hcov x (Or.inl hroot)
    | some p =>
      obtain ⟨ep, hep, hlt⟩ := h.anchor_lt x e he p hafter
      have hp : p ∈ (l.appendDescendants none (∅, [])).1 :=
        ih _ (by rw [← hn, timeOf_of_lookup he, timeOf_of_lookup hep]; exact hlt) p
          (Finmap.mem_of_lookup_eq_some hep) rfl
      have hparent : l.parentOf x = some (some p) := by simp [parentOf, he, hafter]
      simpa using hcov x (Or.inr ⟨p, hp, hparent⟩)

theorem foldl_fallbackStep_of_mem (l : CrdtList I T) :
    ∀ (ids : List I) (acc : Finset I × List I), (∀ id ∈ ids, id ∈ acc.1) →
      ids.foldl l.fallbackStep acc = acc
  | [], _, _ => rfl
  | id :: ids, acc, h => by
    rw [List.foldl_cons, fallbackStep, if_pos (h id List.mem_cons_self)]
    exact foldl_fallbackStep_of_mem l ids acc fun y hy => h y (List.mem_cons_of_mem id hy)

theorem Wf.orderedIds_eq {l : CrdtList I T} (h : l.Wf) :
    l.orderedIds = (l.appendDescendants none (∅, [])).2 := by
  rw [CrdtList.orderedIds_eq, foldl_fallbackStep_of_mem]
  intro id hid
  exact h.mem_appendDescendants (Finmap.mem_keys.mp (by simpa [sortedIds] using hid))

theorem Wf.default : (default : CrdtList I T).Wf where
  anchor_lt x e hx := by simp [CrdtList.default] at hx
  removed_mem x hx := by simp [CrdtList.default] at hx

theorem Wf.tombstone {l : CrdtList I T} (hl : l.Wf) {x : I} (hx : x ∈ l.elements) :
    ({ l with removed := insert x l.removed } : CrdtList I T).Wf where
  anchor_lt := hl.anchor_lt
  removed_mem y hy := by
    rcases Finset.mem_insert.mp hy with rfl | hy
    · exact hx
    · exact hl.removed_mem y hy

theorem mem_of_mem_visibleIds {l : CrdtList I T} {x : I} (hx : x ∈ l.visibleIds) :
    x ∈ l.elements :=
  mem_of_mem_orderedIds (List.mem_filter.mp hx).1

theorem Wf.remove {l m : CrdtList I T} {index : ℕ} {value : T} (hl : l.Wf)
    (h : l.remove index = .ok (value, m)) : m.Wf := by
  unfold CrdtList.remove at h
  split at h
  · cases h
  · rename_i x hx
    split at h
    · cases h
    · cases h
      exact hl.tombstone (mem_of_mem_visibleIds (List.mem_of_getElem? hx))

theorem mem_of_anchorAt_eq_some {l : CrdtList I T} {index : ℕ} {p : I}
    (hp : anchorAt l.visibleIds index = some p) : p ∈ l.elements := by
  cases index with
  | zero => cases hp
  | succ i => exact mem_of_mem_visibleIds (List.mem_of_getElem? hp)

/-- The logical time `insert_after_with_id` gives a new element: one more than the greatest the
list holds. -/
def nextTime (l : CrdtList I T) : ℕ := (l.sortedIds.map l.timeOf).max?.getD 0 + 1

theorem timeOf_lt_nextTime {l : CrdtList I T} {x : I} (hx : x ∈ l.elements) :
    l.timeOf x < l.nextTime := by
  have hmem : l.timeOf x ∈ l.sortedIds.map l.timeOf :=
    List.mem_map_of_mem (by simpa [sortedIds] using Finmap.mem_keys.mpr hx)
  exact Nat.lt_succ_of_le (List.le_max?_getD_of_mem hmem)

section Insert

variable [DecidableEq T]

/-- `insert_after_with_id` with an id the list does not hold: a new element at the next logical
time, unless that time overflows. -/
theorem insertAfterWithId_of_not_mem {l : CrdtList I T} {id : I} (hid : id ∉ l.elements)
    (after : Option I) (value : T) :
    l.insertAfterWithId id after value =
      if logicalClockLimit ≤ l.nextTime then .error .logicalClockOverflow
      else .ok { l with elements := l.elements.insert id { after, logicalTime := l.nextTime, value } } := by
  rw [CrdtList.insertAfterWithId, Finmap.lookup_eq_none.mpr hid]
  rfl

/-- An insertion anchored at an element, or at the start, keeps a list well formed: the new
element's time is above its anchor's. -/
theorem Wf.insertAfterWithId {l m : CrdtList I T} {id : I} {after : Option I} {value : T}
    (hl : l.Wf) (hafter : ∀ p, after = some p → p ∈ l.elements)
    (h : l.insertAfterWithId id after value = .ok m) : m.Wf := by
  by_cases hid : id ∈ l.elements
  · -- a retry of an insertion leaves the list as it is
    obtain ⟨e, he⟩ := Finmap.mem_iff.mp hid
    unfold CrdtList.insertAfterWithId at h
    rw [he] at h
    dsimp only at h
    split_ifs at h
    cases h
    exact hl
  · rw [insertAfterWithId_of_not_mem hid] at h
    split_ifs at h
    cases h
    have hne : ∀ p ∈ l.elements, p ≠ id := fun p hp hpid => hid (hpid ▸ hp)
    refine ⟨fun x e hx p hp => ?_, fun x hx => Finmap.mem_insert.mpr (Or.inr (hl.removed_mem x hx))⟩
    dsimp only at hx ⊢
    by_cases hxid : x = id
    · subst hxid
      rw [Finmap.lookup_insert] at hx
      cases hx
      have hpm := hafter p hp
      obtain ⟨ep, hep⟩ := Finmap.mem_iff.mp hpm
      refine ⟨ep, by rw [Finmap.lookup_insert_of_ne _ (hne p hpm), hep], ?_⟩
      rw [← timeOf_of_lookup hep]
      exact timeOf_lt_nextTime hpm
    · rw [Finmap.lookup_insert_of_ne _ hxid] at hx
      obtain ⟨ep, hep, hlt⟩ := hl.anchor_lt x e hx p hp
      refine ⟨ep, ?_, hlt⟩
      rw [Finmap.lookup_insert_of_ne _ (hne p (Finmap.mem_of_lookup_eq_some hep)), hep]

theorem Wf.pushWithId {l m : CrdtList I T} {id : I} {value : T} (hl : l.Wf)
    (h : l.pushWithId id value = .ok m) : m.Wf :=
  hl.insertAfterWithId (fun _ hp => mem_of_mem_orderedIds (List.mem_of_getLast? hp)) h

theorem Wf.insertWithId {l m : CrdtList I T} {index : ℕ} {id : I} {value : T} (hl : l.Wf)
    (h : l.insertWithId index id value = .ok m) : m.Wf := by
  unfold CrdtList.insertWithId at h
  dsimp only at h
  split at h
  · cases h
  · exact hl.insertAfterWithId (fun _ hp => mem_of_anchorAt_eq_some hp) h

/-- The merge of two well-formed lists is well formed: the merged elements are those of either
side, with their anchors. -/
theorem Wf.merge {l o m : CrdtList I T} (hl : l.Wf) (ho : o.Wf) (h : l.merge o = .ok m) :
    m.Wf := by
  unfold CrdtList.merge at h
  split at h
  · cases h
  · rename_i hnone
    cases h
    have hlookup : ∀ x e, (o.elements ∪ l.elements).lookup x = some e ↔
        l.elements.lookup x = some e ∨ o.elements.lookup x = some e := fun x e => by
      simpa using Set.ext_iff.mp (graph_union_of_firstConflict hnone).2 (x, e)
    refine ⟨fun x e hx p hp => ?_, fun x hx => ?_⟩
    · rcases (hlookup x e).mp hx with hx | hx
      · obtain ⟨ep, hep, hlt⟩ := hl.anchor_lt x e hx p hp
        exact ⟨ep, (hlookup p ep).mpr (Or.inl hep), hlt⟩
      · obtain ⟨ep, hep, hlt⟩ := ho.anchor_lt x e hx p hp
        exact ⟨ep, (hlookup p ep).mpr (Or.inr hep), hlt⟩
    · rcases Finset.mem_union.mp hx with hx | hx
      · exact Finmap.mem_union.mpr (Or.inr (hl.removed_mem x hx))
      · exact Finmap.mem_union.mpr (Or.inl (ho.removed_mem x hx))

end Insert


/-! ## A fresh element comes right after its anchor -/

/-- The walk so far keeps `x` right after `p`: wherever it emitted `x`, `p` came just before,
and while `x` waits unemitted on the stack it is on top, with `p` emitted last. -/
def Before (x : I) (p : Option I) (pending result : List I) : Prop :=
  PrecededBy result x p ∧ (x ∉ result → x ∈ pending → pending.head? = some x ∧ result.getLast? = p)

theorem Before.skip {x y : I} {p : Option I} {pending result : List I} {visited : Finset I}
    (htr : Tracks (visited, result)) (hy : y ∈ visited) (h : Before x p (y :: pending) result) :
    Before x p pending result := by
  refine ⟨h.1, fun hx hxp => ?_⟩
  obtain ⟨hhead, -⟩ := h.2 hx (List.mem_cons_of_mem y hxp)
  have hyx : y = x := by simpa using hhead
  have hv : visited = result.toFinset := htr.1
  rw [hv, List.mem_toFinset] at hy
  exact absurd (hyx ▸ hy) hx

/-- Visiting `y` keeps `x` right after `p`, when `x` is anchored at `p` and comes first among
the children of its parent: `x` is pushed only by visiting `p`, on top, and popped next. -/
theorem Before.visit {l : CrdtList I T} {x y : I} {p : Option I} {pending result : List I}
    {visited : Finset I} (hparent : l.parentOf x = some p)
    (hfirst : ∀ q, x ∈ l.childrenOf q → (l.childrenOf q).head? = some x)
    (htr : Tracks (visited, result)) (hy : y ∉ visited) (h : Before x p (y :: pending) result) :
    Before x p (l.childrenOf (some y) ++ pending) (result ++ [y]) := by
  have hv : visited = result.toFinset := htr.1
  have hyr : y ∉ result := by rwa [hv, List.mem_toFinset] at hy
  refine ⟨?_, fun hx hxp => ?_⟩
  · by_cases hyx : y = x
    · subst hyx
      exact PrecededBy.append_self hyr (h.2 hyr List.mem_cons_self).2
    · exact h.1.append_of_ne hyx
  · have hxr : x ∉ result := fun hxr => hx (List.mem_append_left _ hxr)
    have hxy : y ≠ x := fun hyx => hx (by simp [hyx])
    rcases List.mem_append.mp hxp with hc | hpend
    · have hpy : p = some y := by
        have hpar := mem_childrenOf.mp hc
        rw [hparent] at hpar
        exact Option.some.inj hpar
      exact ⟨by simp [List.head?_append, hfirst _ hc], by simp [hpy]⟩
    · obtain ⟨hhead, -⟩ := h.2 hxr (List.mem_cons_of_mem y hpend)
      exact absurd (by simpa using hhead) hxy

section Insert

variable [DecidableEq T]

end Insert

/-! ## Visible positions -/

section Insert

variable [DecidableEq T]

end Insert

end CrdtList

namespace Text

variable {I : Type} [LinearOrder I]

end Text

end Vos.Crdt
