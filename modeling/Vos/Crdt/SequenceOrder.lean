import Mathlib.Algebra.BigOperators.Group.Finset.Basic
import Vos.Crdt.Sequence

/-!
# vos CRDT fields — the order of a list is stable

`ordered_ids` walks the tree of `after` links of a `List`. A merge or a local insertion grafts
new elements into that tree. When every anchor of the old list names one of its elements, no old
element hangs below a new one: the walk meets the old elements in the same order and only
interleaves the new ones.

* `siblingBefore`, the order of the children of one parent, and `childrenOf` as the sorted list
  of the elements anchored there (`mem_childrenOf`, `nodup_childrenOf`, `pairwise_childrenOf`);
* `potential`: the pops a walk still makes, which each step lowers by one and which the fuel of
  `append_descendants` covers (`potential_le_card`);
* `AnchorClosed`, `Extends`, and `filter_childrenOf`: the children of a parent in an extension,
  restricted to the old elements, are its old children;
* `restrictTo_walk`, `Extends.filter_orderedIds`: the walk over an extension, restricted to the
  old elements, is the walk over the old list;
* pushes, insertions and merges keep a list anchor-closed (`AnchorClosed.pushWithId`,
  `AnchorClosed.insertWithId`, `AnchorClosed.merge`), the order holding only elements
  (`mem_of_mem_orderedIds`);
* **`orderedIds_stable`**: merges, pushes and insertions keep the relative order of the elements
  already present.
-/

namespace Vos.Crdt.CrdtList

variable {I T : Type} [LinearOrder I]

/-! ## Children -/

/-- The order of the children of one parent: later insertions first, then ascending id. -/
def siblingBefore (l : CrdtList I T) (a b : I) : Prop :=
  l.timeOf b < l.timeOf a ∨ (l.timeOf a = l.timeOf b ∧ a ≤ b)

instance (l : CrdtList I T) : DecidableRel l.siblingBefore := fun _ _ =>
  inferInstanceAs (Decidable (_ ∨ _))

instance (l : CrdtList I T) : Std.Total l.siblingBefore where
  total a b := by
    unfold siblingBefore
    rcases lt_trichotomy (l.timeOf a) (l.timeOf b) with h | h | h
    · exact Or.inr (Or.inl h)
    · rcases le_total a b with hab | hab
      · exact Or.inl (Or.inr ⟨h, hab⟩)
      · exact Or.inr (Or.inr ⟨h.symm, hab⟩)
    · exact Or.inl (Or.inl h)

instance (l : CrdtList I T) : IsTrans I l.siblingBefore where
  trans a b c hab hbc := by
    unfold siblingBefore at *
    rcases hab with hab | ⟨hab, hab'⟩ <;> rcases hbc with hbc | ⟨hbc, hbc'⟩
    · left; omega
    · left; omega
    · left; omega
    · exact Or.inr ⟨hab.trans hbc, hab'.trans hbc'⟩

theorem siblingBefore_antisymm {l : CrdtList I T} {a b : I} (hab : l.siblingBefore a b)
    (hba : l.siblingBefore b a) : a = b := by
  unfold siblingBefore at hab hba
  rcases hab with hab | ⟨hab', hab⟩ <;> rcases hba with hba | ⟨hba', hba⟩
  · omega
  · omega
  · omega
  · exact le_antisymm hab hba

/-- The parent an element is anchored at, `none` for an unknown id. -/
def parentOf (l : CrdtList I T) (x : I) : Option (Option I) := (l.elements.lookup x).map (·.after)

theorem childrenOf_eq (l : CrdtList I T) (p : Option I) :
    l.childrenOf p = (l.sortedIds.filter fun id =>
      (l.elements.lookup id).any (·.after = p)).insertionSort l.siblingBefore := rfl

theorem mem_childrenOf {l : CrdtList I T} {p : Option I} {x : I} :
    x ∈ l.childrenOf p ↔ l.parentOf x = some p := by
  rw [childrenOf_eq, (List.perm_insertionSort _ _).mem_iff]
  cases hx : l.elements.lookup x with
  | none => simp [sortedIds, parentOf, hx]
  | some e =>
    have hkey : x ∈ l.elements.keys := Finmap.mem_keys.mpr (Finmap.mem_of_lookup_eq_some hx)
    simp [sortedIds, parentOf, hx, hkey]

theorem nodup_childrenOf (l : CrdtList I T) (p : Option I) : (l.childrenOf p).Nodup := by
  rw [childrenOf_eq, (List.perm_insertionSort _ _).nodup_iff]
  exact (Finset.sort_nodup _ _).filter _

theorem pairwise_childrenOf (l : CrdtList I T) (p : Option I) :
    (l.childrenOf p).Pairwise l.siblingBefore := by
  rw [childrenOf_eq]
  exact List.pairwise_insertionSort _ _

theorem mem_of_parentOf_eq_some {l : CrdtList I T} {x : I} {p : Option I}
    (h : l.parentOf x = some p) : x ∈ l.elements := by
  obtain ⟨e, he, -⟩ := Option.map_eq_some_iff.mp h
  exact Finmap.mem_of_lookup_eq_some he

theorem mem_of_mem_childrenOf {l : CrdtList I T} {p : Option I} {x : I}
    (h : x ∈ l.childrenOf p) : x ∈ l.elements :=
  mem_of_parentOf_eq_some (mem_childrenOf.mp h)

theorem length_childrenOf (l : CrdtList I T) (p : Option I) :
    (l.childrenOf p).length = (l.elements.keys.filter (l.parentOf · = some p)).card := by
  rw [← List.toFinset_card_of_nodup (l.nodup_childrenOf p)]
  congr 1
  ext x
  simp only [List.mem_toFinset, mem_childrenOf, Finset.mem_filter, Finmap.mem_keys]
  exact ⟨fun h => ⟨mem_of_parentOf_eq_some h, h⟩, fun h => h.2⟩

/-! ## The fuel of a walk -/

/-- The pops a walk with `pending` left and `visited` seen still makes: one for each pending id,
and one for each child of an element not visited yet, which is pushed when it is visited. -/
def potential (l : CrdtList I T) (visited : Finset I) (pending : List I) : ℕ :=
  pending.length + ∑ y ∈ l.elements.keys.filter (· ∉ visited), (l.childrenOf (some y)).length

theorem potential_cons (l : CrdtList I T) (visited : Finset I) (x : I) (pending : List I) :
    l.potential visited (x :: pending) = l.potential visited pending + 1 := by
  simp only [potential, List.length_cons]
  omega

theorem potential_visit {l : CrdtList I T} {visited : Finset I} {x : I} {pending : List I}
    (hx : x ∈ l.elements) (hvis : x ∉ visited) :
    l.potential (insert x visited) (l.childrenOf (some x) ++ pending) + 1 =
      l.potential visited (x :: pending) := by
  have hfilter : l.elements.keys.filter (· ∉ insert x visited) =
      (l.elements.keys.filter (· ∉ visited)).erase x := by
    ext y
    simp only [Finset.mem_filter, Finset.mem_insert, Finset.mem_erase]
    tauto
  have hmem : x ∈ l.elements.keys.filter (· ∉ visited) :=
    Finset.mem_filter.mpr ⟨Finmap.mem_keys.mpr hx, hvis⟩
  rw [potential, potential, hfilter, List.length_append, List.length_cons,
    ← Finset.add_sum_erase _ _ hmem]
  omega

/-- **The fuel of `append_descendants` covers its walk**: the children of the parent and of the
elements not yet visited are disjoint sets of elements, when the parent is visited or no
element. -/
theorem potential_le_card (l : CrdtList I T) {visited : Finset I} {p : Option I}
    (hp : ∀ x, p = some x → x ∈ l.elements → x ∈ visited) :
    l.potential visited (l.childrenOf p) ≤ l.elements.keys.card := by
  set unvisited := l.elements.keys.filter (· ∉ visited)
  have hp' : p ∉ unvisited.image some := by
    simp only [Finset.mem_image, Finset.mem_filter, Finmap.mem_keys, unvisited]
    rintro ⟨x, ⟨hx, hxv⟩, rfl⟩
    exact hxv (hp x rfl hx)
  -- each parent counts the elements anchored at it
  calc l.potential visited (l.childrenOf p)
      = ∑ q ∈ insert p (unvisited.image some), (l.childrenOf q).length := by
        rw [potential, Finset.sum_insert hp', Finset.sum_image (Option.some_injective _).injOn]
    _ = ∑ q ∈ (insert p (unvisited.image some)).image some,
          (l.elements.keys.filter (l.parentOf · = q)).card := by
        rw [Finset.sum_image (Option.some_injective _).injOn]
        exact Finset.sum_congr rfl fun q _ => length_childrenOf l q
    _ = (l.elements.keys.filter (l.parentOf · ∈ (insert p (unvisited.image some)).image some)).card :=
        Finset.sum_card_fiberwise_eq_card_filter _ _ _
    _ ≤ l.elements.keys.card := Finset.card_filter_le _ _

/-! ## Extensions -/

/-- Every anchor names an element of the list. -/
def AnchorClosed (l : CrdtList I T) : Prop :=
  ∀ x e, l.elements.lookup x = some e → ∀ p, e.after = some p → p ∈ l.elements

/-- `m` holds every element of `a`, unchanged. -/
def Extends (a m : CrdtList I T) : Prop :=
  ∀ x ∈ a.elements, m.elements.lookup x = a.elements.lookup x

/-- The visited set and the output of a walk, restricted to the elements of `a`. -/
def restrictTo (a : CrdtList I T) (acc : Finset I × List I) : Finset I × List I :=
  (acc.1.filter (· ∈ a.elements), acc.2.filter (· ∈ a.elements))

variable {a m : CrdtList I T}

theorem extends_of_atoms_subset (h : a.atoms ⊆ m.atoms) : Extends a m := by
  have hgraph := (sumSet_subset_iff.mp h).1
  intro x hx
  obtain ⟨e, he⟩ := Finmap.mem_iff.mp hx
  rw [he]
  exact hgraph (show (x, e) ∈ a.elements.graph from he)

theorem Extends.mem (hext : Extends a m) {x : I} (hx : x ∈ a.elements) : x ∈ m.elements := by
  obtain ⟨e, he⟩ := Finmap.mem_iff.mp hx
  exact Finmap.mem_of_lookup_eq_some ((hext x hx).trans he)

theorem Extends.timeOf_eq (hext : Extends a m) {x : I} (hx : x ∈ a.elements) :
    m.timeOf x = a.timeOf x := by
  rw [timeOf, timeOf, hext x hx]

theorem Extends.parentOf_eq (hext : Extends a m) {x : I} (hx : x ∈ a.elements) :
    m.parentOf x = a.parentOf x := by
  rw [parentOf, parentOf, hext x hx]

/-- The children of a parent in an extension, restricted to the old elements, are its children
in the old list: membership and the sibling order only read the old elements. -/
theorem Extends.filter_childrenOf (hext : Extends a m) (p : Option I) :
    (m.childrenOf p).filter (· ∈ a.elements) = a.childrenOf p := by
  have hpair : ((m.childrenOf p).filter (· ∈ a.elements)).Pairwise a.siblingBefore := by
    refine ((m.pairwise_childrenOf p).filter _).imp_of_mem fun {x y} hx hy hxy => ?_
    have hx' : x ∈ a.elements := by simpa using (List.mem_filter.mp hx).2
    have hy' : y ∈ a.elements := by simpa using (List.mem_filter.mp hy).2
    unfold siblingBefore at hxy ⊢
    rwa [hext.timeOf_eq hx', hext.timeOf_eq hy'] at hxy
  have hperm : ((m.childrenOf p).filter (· ∈ a.elements)).Perm (a.childrenOf p) := by
    rw [List.perm_ext_iff_of_nodup ((m.nodup_childrenOf p).filter _) (a.nodup_childrenOf p)]
    intro x
    simp only [List.mem_filter, mem_childrenOf, decide_eq_true_eq]
    constructor
    · rintro ⟨h, hx⟩
      rwa [← hext.parentOf_eq hx]
    · intro h
      have hx := mem_of_parentOf_eq_some h
      exact ⟨by rwa [hext.parentOf_eq hx], hx⟩
  exact hperm.eq_of_pairwise (fun _ _ _ _ => siblingBefore_antisymm) hpair
    (a.pairwise_childrenOf p)

theorem AnchorClosed.childrenOf_eq_nil (hclosed : a.AnchorClosed) {q : I} (hq : q ∉ a.elements) :
    a.childrenOf (some q) = [] := by
  refine List.eq_nil_iff_forall_not_mem.mpr fun x hx => hq ?_
  obtain ⟨e, he, hafter⟩ := Option.map_eq_some_iff.mp (mem_childrenOf.mp hx)
  exact hclosed x e he q hafter

theorem Extends.filter_sortedIds (hext : Extends a m) :
    m.sortedIds.filter (· ∈ a.elements) = a.sortedIds := by
  refine List.Pairwise.eq_of_mem_iff ((Finset.sortedLT_sort _).pairwise.filter _)
    (Finset.sortedLT_sort _).pairwise fun x => ?_
  simp only [sortedIds, List.mem_filter, Finset.mem_sort, Finmap.mem_keys, decide_eq_true_eq]
  exact ⟨fun h => h.2, fun h => ⟨hext.mem h, h⟩⟩

/-! ## The walk over an extension -/

omit [LinearOrder I] in
theorem walk_nil [LinearOrder I] (l : CrdtList I T) (n : ℕ) (acc : Finset I × List I) :
    l.walk n [] acc = acc := by
  cases n <;> rfl

theorem restrictTo_visit_of_mem {x : I} (hx : x ∈ a.elements) (visited : Finset I)
    (result : List I) :
    a.restrictTo (insert x visited, result ++ [x]) =
      (insert x (a.restrictTo (visited, result)).1, (a.restrictTo (visited, result)).2 ++ [x]) := by
  simp [restrictTo, Finset.filter_insert, hx]

theorem restrictTo_visit_of_not_mem {x : I} (hx : x ∉ a.elements) (visited : Finset I)
    (result : List I) :
    a.restrictTo (insert x visited, result ++ [x]) = a.restrictTo (visited, result) := by
  simp [restrictTo, Finset.filter_insert, hx]

/-- **The walk over an extension, restricted to the old elements, is the walk over the old
list.** By induction on the fuel of the walk over the extension: an old id is popped by both
walks, which push its children, the same once restricted; a new id is popped by the extension's
walk alone, which pushes only new ids, as no old element hangs below a new one. -/
theorem restrictTo_walk (hext : Extends a m) (hclosed : a.AnchorClosed) :
    ∀ (n N : ℕ) (pending : List I) (acc : Finset I × List I),
      (∀ y ∈ pending, y ∈ m.elements) → m.potential acc.1 pending ≤ n →
      a.potential (a.restrictTo acc).1 (pending.filter (· ∈ a.elements)) ≤ N →
      a.restrictTo (m.walk n pending acc) =
        a.walk N (pending.filter (· ∈ a.elements)) (a.restrictTo acc) := by
  intro n
  induction n with
  | zero =>
    intro N pending acc _ hn _
    -- no fuel is left only when nothing is pending
    have hnil : pending = [] := List.eq_nil_of_length_eq_zero (by rw [potential] at hn; omega)
    subst hnil
    rw [walk_nil, List.filter_nil, walk_nil]
  | succ n ih =>
    intro N pending ⟨visited, result⟩ hkeys hn hN
    dsimp only at hn hN
    cases pending with
    | nil => rw [walk_nil, List.filter_nil, walk_nil]
    | cons x pending =>
      have hxm : x ∈ m.elements := hkeys x List.mem_cons_self
      have hkeys' : ∀ y ∈ pending, y ∈ m.elements := fun y hy =>
        hkeys y (List.mem_cons_of_mem x hy)
      have hpush : ∀ y ∈ m.childrenOf (some x) ++ pending, y ∈ m.elements := by
        intro y hy
        rcases List.mem_append.mp hy with hy | hy
        · exact mem_of_mem_childrenOf hy
        · exact hkeys' y hy
      by_cases hx : x ∈ a.elements
      · rw [List.filter_cons_of_pos (by simpa using hx)] at hN ⊢
        obtain ⟨N, rfl⟩ : ∃ N', N = N' + 1 :=
          Nat.exists_eq_add_one.mpr (by rw [potential_cons] at hN; omega)
        have hfilter : (m.childrenOf (some x) ++ pending).filter (· ∈ a.elements) =
            a.childrenOf (some x) ++ pending.filter (· ∈ a.elements) := by
          rw [List.filter_append, hext.filter_childrenOf]
        by_cases hvis : x ∈ visited
        · have hvis' : x ∈ (a.restrictTo (visited, result)).1 :=
            Finset.mem_filter.mpr ⟨hvis, hx⟩
          simp only [walk, if_pos hvis, if_pos hvis']
          rw [potential_cons] at hn hN
          exact ih N pending _ hkeys' (by dsimp only; omega) (by omega)
        · have hvis' : x ∉ (a.restrictTo (visited, result)).1 := fun h =>
            hvis (Finset.mem_filter.mp h).1
          simp only [walk, if_neg hvis, if_neg hvis']
          rw [← restrictTo_visit_of_mem hx, ← hfilter]
          refine ih N _ _ hpush ?_ ?_
          · have : m.potential (insert x visited) (m.childrenOf (some x) ++ pending) + 1 =
                m.potential visited (x :: pending) := potential_visit hxm hvis
            dsimp only
            omega
          · have : a.potential (insert x (a.restrictTo (visited, result)).1)
                  (a.childrenOf (some x) ++ pending.filter (· ∈ a.elements)) + 1 =
                a.potential (a.restrictTo (visited, result)).1
                  (x :: pending.filter (· ∈ a.elements)) := potential_visit hx hvis'
            rw [hfilter, restrictTo_visit_of_mem hx]
            dsimp only
            omega
      · rw [List.filter_cons_of_neg (by simpa using hx)] at hN ⊢
        by_cases hvis : x ∈ visited
        · simp only [walk, if_pos hvis]
          rw [potential_cons] at hn
          exact ih N pending _ hkeys' (by dsimp only; omega) hN
        · have hfilter : (m.childrenOf (some x) ++ pending).filter (· ∈ a.elements) =
              pending.filter (· ∈ a.elements) := by
            rw [List.filter_append, hext.filter_childrenOf, hclosed.childrenOf_eq_nil hx,
              List.nil_append]
          simp only [walk, if_neg hvis]
          rw [← restrictTo_visit_of_not_mem hx visited result, ← hfilter]
          refine ih N _ _ hpush ?_ ?_
          · have : m.potential (insert x visited) (m.childrenOf (some x) ++ pending) + 1 =
                m.potential visited (x :: pending) := potential_visit hxm hvis
            dsimp only
            omega
          · rwa [hfilter, restrictTo_visit_of_not_mem hx]

theorem restrictTo_appendDescendants (hext : Extends a m) (hclosed : a.AnchorClosed)
    {p : Option I} {acc : Finset I × List I} (hp : ∀ x, p = some x → x ∈ acc.1) :
    a.restrictTo (m.appendDescendants p acc) = a.appendDescendants p (a.restrictTo acc) := by
  rw [appendDescendants, appendDescendants, ← hext.filter_childrenOf p]
  refine restrictTo_walk hext hclosed _ _ _ _ (fun y hy => mem_of_mem_childrenOf hy)
    (m.potential_le_card fun x hx _ => hp x hx) ?_
  rw [hext.filter_childrenOf p]
  exact a.potential_le_card fun x hx hxa => Finset.mem_filter.mpr ⟨hp x hx, by simpa using hxa⟩

/-- One step of the fallback pass of `ordered_ids`: an element the walk did not reach is emitted,
then its subtree. -/
def fallbackStep (l : CrdtList I T) (acc : Finset I × List I) (id : I) : Finset I × List I :=
  if id ∈ acc.1 then acc else l.appendDescendants (some id) (insert id acc.1, acc.2 ++ [id])

theorem orderedIds_eq (l : CrdtList I T) :
    l.orderedIds = (l.sortedIds.foldl l.fallbackStep (l.appendDescendants none (∅, []))).2 := rfl

theorem restrictTo_fallbackStep (hext : Extends a m) (hclosed : a.AnchorClosed)
    (acc : Finset I × List I) (id : I) :
    a.restrictTo (m.fallbackStep acc id) =
      if id ∈ a.elements then a.fallbackStep (a.restrictTo acc) id else a.restrictTo acc := by
  obtain ⟨visited, result⟩ := acc
  have hsub : a.restrictTo (m.appendDescendants (some id) (insert id visited, result ++ [id])) =
      a.appendDescendants (some id) (a.restrictTo (insert id visited, result ++ [id])) :=
    restrictTo_appendDescendants hext hclosed fun x hx => by
      cases hx
      exact Finset.mem_insert_self _ _
  by_cases hid : id ∈ a.elements
  · have hvis : id ∈ visited ↔ id ∈ (a.restrictTo (visited, result)).1 := by
      simp [restrictTo, hid]
    rw [if_pos hid, fallbackStep, fallbackStep]
    by_cases hv : id ∈ visited
    · rw [if_pos hv, if_pos (hvis.mp hv)]
    · rw [if_neg hv, if_neg (mt hvis.mpr hv), hsub, restrictTo_visit_of_mem hid]
  · rw [if_neg hid, fallbackStep]
    split_ifs
    · rfl
    · -- an element `a` does not hold has no old descendant
      rw [hsub, restrictTo_visit_of_not_mem hid, appendDescendants,
        hclosed.childrenOf_eq_nil hid, walk_nil]

theorem restrictTo_foldl (hext : Extends a m) (hclosed : a.AnchorClosed) :
    ∀ (ids : List I) (acc : Finset I × List I),
      a.restrictTo (ids.foldl m.fallbackStep acc) =
        (ids.filter (· ∈ a.elements)).foldl a.fallbackStep (a.restrictTo acc)
  | [], _ => rfl
  | id :: ids, acc => by
    rw [List.foldl_cons, restrictTo_foldl hext hclosed ids, restrictTo_fallbackStep hext hclosed]
    by_cases hid : id ∈ a.elements
    · rw [if_pos hid, List.filter_cons_of_pos (by simpa using hid), List.foldl_cons]
    · rw [if_neg hid, List.filter_cons_of_neg (by simpa using hid)]

/-- **The order of an extension, restricted to the old elements, is the old order.** -/
theorem Extends.filter_orderedIds (hext : Extends a m) (hclosed : a.AnchorClosed) :
    m.orderedIds.filter (· ∈ a.elements) = a.orderedIds := by
  have h := restrictTo_foldl hext hclosed m.sortedIds (m.appendDescendants none (∅, []))
  have hstart : a.restrictTo (∅, []) = (∅, []) := by simp [restrictTo]
  rw [hext.filter_sortedIds, restrictTo_appendDescendants hext hclosed (by simp), hstart] at h
  exact congrArg Prod.snd h

/-! ## Anchor-closed lists -/

theorem anchorClosed_iff {l : CrdtList I T} :
    l.AnchorClosed ↔
      ∀ x ∈ l.elements.keys, ∀ e ∈ l.elements.lookup x, ∀ p ∈ e.after, p ∈ l.elements := by
  constructor
  · intro h x _ e he p hp
    exact h x e he p hp
  · intro h x e he p hp
    exact h x (Finmap.mem_keys.mpr (Finmap.mem_of_lookup_eq_some he)) e he p hp

instance (l : CrdtList I T) : Decidable l.AnchorClosed :=
  decidable_of_iff _ anchorClosed_iff.symm

theorem walk_mem (l : CrdtList I T) :
    ∀ (n : ℕ) (pending : List I) (acc : Finset I × List I), (∀ y ∈ pending, y ∈ l.elements) →
      (∀ y ∈ acc.2, y ∈ l.elements) → ∀ y ∈ (l.walk n pending acc).2, y ∈ l.elements
  | 0, _, _, _, hacc => by rwa [walk]
  | _ + 1, [], _, _, hacc => hacc
  | n + 1, x :: pending, (visited, result), hpend, hacc => by
    have hx := hpend x List.mem_cons_self
    have hrest : ∀ y ∈ pending, y ∈ l.elements := fun y hy => hpend y (List.mem_cons_of_mem x hy)
    by_cases hvis : x ∈ visited
    · rw [walk, if_pos hvis]
      exact walk_mem l n pending _ hrest hacc
    · rw [walk, if_neg hvis]
      refine walk_mem l n _ _ (fun y hy => ?_) (fun y hy => ?_)
      · rcases List.mem_append.mp hy with hy | hy
        · exact mem_of_mem_childrenOf hy
        · exact hrest y hy
      · rcases List.mem_append.mp hy with hy | hy
        · exact hacc y hy
        · rw [List.mem_singleton.mp hy]
          exact hx

theorem mem_of_mem_orderedIds {l : CrdtList I T} {x : I} (hx : x ∈ l.orderedIds) :
    x ∈ l.elements := by
  have hdesc : ∀ p acc, (∀ y ∈ acc.2, y ∈ l.elements) →
      ∀ y ∈ (l.appendDescendants p acc).2, y ∈ l.elements := fun p acc hacc =>
    l.walk_mem _ _ acc (fun y hy => mem_of_mem_childrenOf hy) hacc
  -- the fallback pass only emits ids of the map, and their descendants
  have hfold : ∀ (ids : List I) acc, (∀ y ∈ ids, y ∈ l.elements) → (∀ y ∈ acc.2, y ∈ l.elements) →
      ∀ y ∈ (ids.foldl l.fallbackStep acc).2, y ∈ l.elements := by
    intro ids
    induction ids with
    | nil => exact fun _ _ hacc => hacc
    | cons id ids ih =>
      intro acc hids hacc
      refine ih _ (fun y hy => hids y (List.mem_cons_of_mem id hy)) ?_
      unfold fallbackStep
      split_ifs
      · exact hacc
      · refine hdesc _ _ fun y hy => ?_
        rcases List.mem_append.mp hy with hy | hy
        · exact hacc y hy
        · rw [List.mem_singleton.mp hy]
          exact hids id List.mem_cons_self
  rw [orderedIds_eq] at hx
  refine hfold _ _ (fun y hy => ?_) (hdesc _ _ fun y hy => absurd hy List.not_mem_nil) x hx
  exact Finmap.mem_keys.mp (by simpa [sortedIds] using hy)

section Operations

variable [DecidableEq T]

theorem AnchorClosed.insertAfterWithId {l m : CrdtList I T} {id : I} {after : Option I}
    {value : T} (hl : l.AnchorClosed) (hafter : ∀ p, after = some p → p ∈ l.elements)
    (h : l.insertAfterWithId id after value = .ok m) : m.AnchorClosed := by
  unfold CrdtList.insertAfterWithId at h
  split at h
  · split at h
    · cases h
      exact hl
    · cases h
  · dsimp only at h
    split at h
    · cases h
    · cases h
      intro x e hx p hp
      refine Finmap.mem_insert.mpr (Or.inr ?_)
      by_cases hxid : x = id
      · subst hxid
        rw [Finmap.lookup_insert] at hx
        cases hx
        exact hafter p hp
      · rw [Finmap.lookup_insert_of_ne _ hxid] at hx
        exact hl x e hx p hp

theorem AnchorClosed.pushWithId {l m : CrdtList I T} {id : I} {value : T} (hl : l.AnchorClosed)
    (h : l.pushWithId id value = .ok m) : m.AnchorClosed :=
  hl.insertAfterWithId (fun _ hp => mem_of_mem_orderedIds (List.mem_of_getLast? hp)) h

theorem AnchorClosed.insertWithId {l m : CrdtList I T} {index : ℕ} {id : I} {value : T}
    (hl : l.AnchorClosed) (h : l.insertWithId index id value = .ok m) : m.AnchorClosed := by
  unfold CrdtList.insertWithId at h
  dsimp only at h
  split at h
  · cases h
  · refine hl.insertAfterWithId (fun p hp => ?_) h
    -- the anchor is a visible element
    have hvis : p ∈ l.visibleIds := by
      cases index with
      | zero => cases hp
      | succ i => exact List.mem_of_getElem? hp
    exact mem_of_mem_orderedIds (List.mem_filter.mp hvis).1

theorem AnchorClosed.merge {l o m : CrdtList I T} (hl : l.AnchorClosed) (ho : o.AnchorClosed)
    (h : l.merge o = .ok m) : m.AnchorClosed := by
  unfold CrdtList.merge at h
  split at h
  · cases h
  · cases h
    intro x e hx p hp
    by_cases hxo : x ∈ o.elements
    · rw [Finmap.lookup_union_left hxo] at hx
      exact Finmap.mem_union.mpr (Or.inl (ho x e hx p hp))
    · rw [Finmap.lookup_union_right hxo] at hx
      exact Finmap.mem_union.mpr (Or.inr (hl x e hx p hp))

end Operations

/-! ## Stability of the order -/

omit [LinearOrder I] in
theorem pair_sublist_filter_iff {p : I → Bool} {l : List I} {x y : I} (hx : p x) (hy : p y) :
    [x, y].Sublist (l.filter p) ↔ [x, y].Sublist l := by
  constructor
  · intro h
    exact h.trans List.filter_sublist
  · intro h
    simpa [hx, hy] using h.filter p

theorem Extends.pair_sublist_iff {a m : CrdtList I T} (hext : Extends a m)
    (hclosed : a.AnchorClosed) {x y : I} (hx : x ∈ a.elements) (hy : y ∈ a.elements) :
    [x, y].Sublist a.orderedIds ↔ [x, y].Sublist m.orderedIds := by
  rw [← hext.filter_orderedIds hclosed, pair_sublist_filter_iff (by simpa using hx) (by simpa using hy)]

/-- **Merges and local edits never reorder the elements already present**: in an anchor-closed
list, two elements come in the same order before and after a merge without divergent operations,
a push, or an insertion. -/
theorem orderedIds_stable [DecidableEq T] {a : CrdtList I T} (hclosed : a.AnchorClosed)
    {x y : I} (hx : x ∈ a.elements) (hy : y ∈ a.elements) :
    (∀ b m, a.merge b = .ok m → ([x, y].Sublist a.orderedIds ↔ [x, y].Sublist m.orderedIds)) ∧
    (∀ id value m, a.pushWithId id value = .ok m →
      ([x, y].Sublist a.orderedIds ↔ [x, y].Sublist m.orderedIds)) ∧
    (∀ index id value m, a.insertWithId index id value = .ok m →
      ([x, y].Sublist a.orderedIds ↔ [x, y].Sublist m.orderedIds)) := by
  refine ⟨fun b m h => ?_, fun id value m h => ?_, fun index id value m h => ?_⟩
  · have hext := extends_of_atoms_subset (a := a) (m := m) (by
      rw [atoms_merge h]
      exact Set.subset_union_left)
    exact hext.pair_sublist_iff hclosed hx hy
  · exact (extends_of_atoms_subset (atoms_pushWithId h)).pair_sublist_iff hclosed hx hy
  · exact (extends_of_atoms_subset (atoms_insertWithId h)).pair_sublist_iff hclosed hx hy

/-- A list of two elements, the second anchored at the first. -/
theorem orderedIds_stable_pair :
    let a : CrdtList ℕ Unit :=
      ⟨(Finmap.singleton 1 ⟨none, 1, ()⟩).insert 2 ⟨some 1, 2, ()⟩, ∅⟩
    a.AnchorClosed ∧ 1 ∈ a.elements ∧ 2 ∈ a.elements ∧
      ∀ b m, a.merge b = .ok m → ([1, 2].Sublist a.orderedIds ↔ [1, 2].Sublist m.orderedIds) := by
  intro a
  have hclosed : a.AnchorClosed := by decide
  have h1 : 1 ∈ a.elements := by decide
  have h2 : 2 ∈ a.elements := by decide
  exact ⟨hclosed, h1, h2, (orderedIds_stable hclosed h1 h2).1⟩

end Vos.Crdt.CrdtList
