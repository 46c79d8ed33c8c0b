import Vos.Crdt.Convergence

/-!
# vos CRDT fields — merge is a join

`merge` on `Counter`, `Value<T>`, `Set<T>`, `Map<K, V>`, `List<T>` and `Text` refuses a pair of
states exactly when some operation id is bound to different contents on the two sides, and names
such an id in `DivergentOperation`; on the pairs it accepts it is a join (commutative, associative,
idempotent), and every successful local mutation is an inflation of its state.

A refused merge returns the error alone, and the field keeps its state: the source checks every
id before it touches `self` (`Counter`, `Value`, `Set`, `List`), or merges the registers into a
staged clone that replaces `self` only once every key merged (`Map`).

The merges of `Counter`, `Value`, `Set` and `List` (and `Text`, through its list) have one shape,
`Checked`: look in one operation map for a conflicting id, else combine the two sides. Their laws
follow once from `Replicated.JoinOn.of_atoms`. `Map` checks `operation_keys` and then merges the
registers key by key; its atoms do not see a key bound to a register with no version, so its join
is proved over `keyedAtoms`, which add the keys.

* `Agree`, `MergeRefuses`, `Checked`, and `Diverges` for each type;
* `refuses_of_checked`, `joinOn_of_checked`, `inflationary_of_checked`;
* `Map.merge_refuses`, `Map.keyedAtoms`, `Map.merge_join`;
* **`fields_merge_refuses`**, **`fields_merge_join`**.
-/

namespace Vos.Crdt

open Replicated

variable {I : Type} [LinearOrder I]

/-- No operation id is bound to different contents in the two states. -/
def Agree {σ : Type} (diverges : σ → σ → I → Prop) (a b : σ) : Prop := ∀ id, ¬ diverges a b id

/-- `merge` refuses exactly the pairs on which some operation id diverges, naming such an id. -/
def MergeRefuses {σ : Type} (merge : σ → σ → Except (Error I) σ) (diverges : σ → σ → I → Prop) :
    Prop :=
  ∀ a b, (∀ e, merge a b = .error e → ∃ id, e = .divergentOperation id ∧ diverges a b id) ∧
    ((∃ id, diverges a b id) → ∃ e, merge a b = .error e)

/-! ## Merges that check one operation map -/

section Checked

variable {σ X A : Type} [DecidableEq X]

/-- A merge that looks for the first id of the other side bound differently in one operation map,
and otherwise combines the two sides. -/
def Checked (merge : σ → σ → Except (Error I) σ) (ops : σ → BTreeMap I X) (combine : σ → σ → σ) :
    Prop :=
  ∀ a b, merge a b = match Finmap.firstConflict (ops a) (ops b) with
    | some id => .error (.divergentOperation id)
    | none => .ok (combine a b)

variable {merge : σ → σ → Except (Error I) σ} {ops : σ → BTreeMap I X} {combine : σ → σ → σ}
  {diverges : σ → σ → I → Prop} {atoms : σ → Set A}
  (hm : Checked merge ops combine)
  (hdiv : ∀ a b id, diverges a b id ↔ Finmap.Diverges (ops a) (ops b) id)

omit [DecidableEq X] in
include hdiv in
theorem agree_iff_compatible {a b : σ} :
    Agree diverges a b ↔ Finmap.Compatible (ops a) (ops b) := by
  rw [Finmap.compatible_iff_not_diverges]
  exact forall_congr' fun id => not_congr (hdiv a b id)

include hm hdiv in
theorem refuses_of_checked : MergeRefuses merge diverges := by
  intro a b
  constructor
  · intro e he
    rw [hm] at he
    cases hc : Finmap.firstConflict (ops a) (ops b) with
    | none => rw [hc] at he; cases he
    | some id =>
      rw [hc] at he
      cases he
      exact ⟨id, rfl, (hdiv a b id).mpr (Finmap.diverges_of_firstConflict_eq_some hc)⟩
  · rintro ⟨id, hid⟩
    cases hc : Finmap.firstConflict (ops a) (ops b) with
    | none =>
      exact absurd hid ((agree_iff_compatible hdiv).mpr (Finmap.firstConflict_eq_none.mp hc) id)
    | some id' => exact ⟨_, by rw [hm, hc]⟩

include hm hdiv in
theorem merge_ok_of_checked {a b : σ} (h : Agree diverges a b) : ∃ u, merge a b = .ok u :=
  ⟨combine a b, by rw [hm, Finmap.firstConflict_eq_none.mpr ((agree_iff_compatible hdiv).mp h)]⟩

include hm hdiv in
/-- A checked merge that takes the union of atoms, and of the operation maps' pairs, is a join on
the pairs of states that agree. -/
theorem joinOn_of_checked (hinj : Function.Injective atoms)
    (hatoms : ∀ {s t u}, merge s t = .ok u → atoms u = atoms s ∪ atoms t)
    (hgraph : ∀ {s t u}, merge s t = .ok u → (ops u).graph = (ops s).graph ∪ (ops t).graph) :
    JoinOn merge (Agree diverges) := by
  refine JoinOn.of_atoms hinj hatoms (merge_ok_of_checked hm hdiv) ?_ ?_ ?_
  · intro s t h
    exact (agree_iff_compatible hdiv).mpr ((agree_iff_compatible hdiv).mp h).symm
  · intro s
    exact (agree_iff_compatible hdiv).mpr (Finmap.compatible_of_graph_subset le_rfl)
  · intro s t u w hs ht hu
    exact (agree_iff_compatible hdiv).mpr
      (((agree_iff_compatible hdiv).mp hs).of_graph_union ((agree_iff_compatible hdiv).mp ht)
        (hgraph hu))

include hm hdiv in
/-- Under a checked merge that takes the union of atoms, every operation that only adds atoms is an
inflation. -/
theorem inflationary_of_checked {Op : Type} {apply : σ → Op → Except (Error I) σ}
    (hinj : Function.Injective atoms)
    (hatoms : ∀ {s t u}, merge s t = .ok u → atoms u = atoms s ∪ atoms t)
    (happly : ∀ {s o s'}, apply s o = .ok s' → atoms s ⊆ atoms s')
    (hsub : ∀ {s t}, atoms s ⊆ atoms t → (ops s).graph ⊆ (ops t).graph) :
    Inflationary merge apply :=
  Inflationary.of_atoms hinj hatoms (merge_ok_of_checked hm hdiv) happly
    fun h => (agree_iff_compatible hdiv).mpr (Finmap.compatible_of_graph_subset (hsub h))

end Checked

/-- The pairs of an operation map kept beside other atoms are the union of both sides' when the
atoms are. -/
theorem graph_union_of_sumSet {σ X B : Type} (ops : σ → BTreeMap I X) (rest : σ → Set B)
    {s t u : σ}
    (h : sumSet (ops u).graph (rest u) = sumSet (ops s).graph (rest s) ∪ sumSet (ops t).graph (rest t)) :
    (ops u).graph = (ops s).graph ∪ (ops t).graph := by
  rw [← sumSet_union] at h
  exact (sumSet_injective h).1

/-! ## `Counter`, `Value`, `Set`, `List`, `Text` -/

namespace Counter

/-- Both counters hold `id`, with different amounts. -/
def Diverges (c d : Counter I) (id : I) : Prop := Finmap.Diverges c.operations d.operations id

theorem merge_checked :
    Checked (merge (I := I)) operations
      fun c o => { operations := o.operations ∪ c.operations } :=
  fun _ _ => rfl

theorem merge_refuses : MergeRefuses (merge (I := I)) Diverges :=
  refuses_of_checked merge_checked fun _ _ _ => Iff.rfl

theorem merge_join :
    JoinOn (merge (I := I)) (Agree Diverges) ∧
      Inflationary (merge (I := I)) CounterOp.apply :=
  ⟨joinOn_of_checked merge_checked (fun _ _ _ => Iff.rfl) (fun _ _ => atoms_injective) atoms_merge
      atoms_merge,
   inflationary_of_checked merge_checked (fun _ _ _ => Iff.rfl) (fun _ _ => atoms_injective)
      atoms_merge CounterOp.atoms_apply id⟩

end Counter

namespace Value

variable {T : Type} [DecidableEq T]

/-- Both registers hold `id`, with different values. -/
def Diverges (v w : Value I T) (id : I) : Prop := Finmap.Diverges v.values w.values id

theorem merge_checked :
    Checked (merge (I := I) (T := T)) values
      fun v o => { values := v.values ∪ o.values, removed := v.removed ∪ o.removed } :=
  fun _ _ => rfl

theorem merge_refuses : MergeRefuses (merge (I := I) (T := T)) Diverges :=
  refuses_of_checked merge_checked fun _ _ _ => Iff.rfl

theorem merge_join :
    JoinOn (merge (I := I) (T := T)) (Agree Diverges) ∧
      Inflationary (merge (I := I) (T := T)) ValueOp.apply :=
  ⟨joinOn_of_checked merge_checked (fun _ _ _ => Iff.rfl) (fun _ _ => atoms_injective) atoms_merge
      fun h => graph_union_of_sumSet values (fun v : Value I T => (v.removed : Set I)) (atoms_merge h),
   inflationary_of_checked merge_checked (fun _ _ _ => Iff.rfl) (fun _ _ => atoms_injective)
      atoms_merge ValueOp.atoms_apply fun h => (sumSet_subset_iff.mp h).1⟩

end Value

namespace CrdtSet

variable {T : Type} [DecidableEq T]

/-- Both sets hold the insertion `id`, of different values. -/
def Diverges (s t : CrdtSet I T) (id : I) : Prop := Finmap.Diverges s.operations t.operations id

theorem merge_checked :
    Checked (merge (I := I) (T := T)) operations
      fun s o => { operations := o.operations ∪ s.operations, removed := s.removed ∪ o.removed } :=
  fun _ _ => rfl

theorem merge_refuses : MergeRefuses (merge (I := I) (T := T)) Diverges :=
  refuses_of_checked merge_checked fun _ _ _ => Iff.rfl

theorem merge_join :
    JoinOn (merge (I := I) (T := T)) (Agree Diverges) ∧
      Inflationary (merge (I := I) (T := T)) SetOp.apply :=
  ⟨joinOn_of_checked merge_checked (fun _ _ _ => Iff.rfl) (fun _ _ => atoms_injective) atoms_merge
      fun h => graph_union_of_sumSet operations (fun s : CrdtSet I T => (s.removed : Set I)) (atoms_merge h),
   inflationary_of_checked merge_checked (fun _ _ _ => Iff.rfl) (fun _ _ => atoms_injective)
      atoms_merge SetOp.atoms_apply fun h => (sumSet_subset_iff.mp h).1⟩

end CrdtSet

namespace CrdtList

variable {T : Type} [DecidableEq T]

/-- Both lists hold the element `id`, with a different anchor, time or value. -/
def Diverges (l m : CrdtList I T) (id : I) : Prop := Finmap.Diverges l.elements m.elements id

theorem merge_checked :
    Checked (merge (I := I) (T := T)) elements
      fun l o => { elements := o.elements ∪ l.elements, removed := l.removed ∪ o.removed } :=
  fun _ _ => rfl

theorem merge_refuses : MergeRefuses (merge (I := I) (T := T)) Diverges :=
  refuses_of_checked merge_checked fun _ _ _ => Iff.rfl

theorem merge_join :
    JoinOn (merge (I := I) (T := T)) (Agree Diverges) ∧
      Inflationary (merge (I := I) (T := T)) ListOp.apply :=
  ⟨joinOn_of_checked merge_checked (fun _ _ _ => Iff.rfl) (fun _ _ => atoms_injective) atoms_merge
      fun h => graph_union_of_sumSet elements (fun l : CrdtList I T => (l.removed : Set I)) (atoms_merge h),
   inflationary_of_checked merge_checked (fun _ _ _ => Iff.rfl) (fun _ _ => atoms_injective)
      atoms_merge ListOp.atoms_apply fun h => (sumSet_subset_iff.mp h).1⟩

end CrdtList

namespace Text

/-- Both texts hold the character `id`, with a different anchor, time or scalar. -/
def Diverges (t u : Text I) (id : I) : Prop := t.chars.Diverges u.chars id

theorem merge_checked :
    Checked (merge (I := I)) (fun t => t.chars.elements)
      fun t o => { chars := { elements := o.chars.elements ∪ t.chars.elements,
                              removed := t.chars.removed ∪ o.chars.removed } } := by
  intro t o
  unfold merge CrdtList.merge
  cases Finmap.firstConflict t.chars.elements o.chars.elements <;> rfl

theorem merge_refuses : MergeRefuses (merge (I := I)) Diverges :=
  refuses_of_checked merge_checked fun _ _ _ => Iff.rfl

theorem merge_join :
    JoinOn (merge (I := I)) (Agree Diverges) ∧ Inflationary (merge (I := I)) TextOp.apply :=
  ⟨joinOn_of_checked merge_checked (fun _ _ _ => Iff.rfl) (fun _ _ => atoms_injective) atoms_merge
      fun h => graph_union_of_sumSet (fun t : Text I => t.chars.elements) (fun t : Text I => (t.chars.removed : Set I))
        (atoms_merge h),
   inflationary_of_checked merge_checked (fun _ _ _ => Iff.rfl) (fun _ _ => atoms_injective)
      atoms_merge TextOp.atoms_apply fun h => (sumSet_subset_iff.mp h).1⟩

end Text

/-! ## `Map` -/

namespace Map

variable {K V : Type} [LinearOrder K] [DecidableEq V]

/-- `id` is bound to different keys in `operation_keys`, or to different values in the registers of
one key. -/
def Diverges (m n : Map I K V) (id : I) : Prop :=
  Finmap.Diverges m.operationKeys n.operationKeys id ∨
    ∃ k e e', m.entries.lookup k = some e ∧ n.entries.lookup k = some e' ∧ e.Diverges e' id

section mergeEntry

variable {o staged staged' : BTreeMap K (Value I V)} {key : K}

theorem mergeEntry_lookup_of_ne (h : mergeEntry o staged key = .ok staged') {k : K}
    (hk : k ≠ key) : staged'.lookup k = staged.lookup k := by
  unfold mergeEntry at h
  cases ho : o.lookup key with
  | none => simp only [ho] at h; cases h; rfl
  | some value =>
    simp only [ho] at h
    cases hs : staged.lookup key with
    | some entry =>
      cases hme : entry.merge value with
      | error err => simp [hs, hme] at h
      | ok e => simp only [hs, hme] at h; cases h; exact Finmap.lookup_insert_of_ne _ hk
    | none => simp only [hs] at h; cases h; exact Finmap.lookup_insert_of_ne _ hk

theorem mergeEntry_error {e : Error I} (h : mergeEntry o staged key = .error e) :
    ∃ es eo, staged.lookup key = some es ∧ o.lookup key = some eo ∧ es.merge eo = .error e := by
  unfold mergeEntry at h
  cases ho : o.lookup key with
  | none => simp only [ho] at h; cases h
  | some value =>
    simp only [ho] at h
    cases hs : staged.lookup key with
    | some entry =>
      cases hme : entry.merge value with
      | error err => simp only [hs, hme] at h; cases h; exact ⟨entry, value, rfl, rfl, hme⟩
      | ok e' => simp [hs, hme] at h
    | none => simp only [hs] at h; cases h

theorem mergeEntry_of_error {es eo : Value I V} {e : Error I} (hs : staged.lookup key = some es)
    (ho : o.lookup key = some eo) (he : es.merge eo = .error e) :
    mergeEntry o staged key = .error e := by
  simp [mergeEntry, hs, ho, he]

theorem mem_mergeEntry (h : mergeEntry o staged key = .ok staged') (k : K) :
    k ∈ staged' ↔ k ∈ staged ∨ (k = key ∧ k ∈ o) := by
  by_cases hk : k = key
  · subst hk
    unfold mergeEntry at h
    cases ho : o.lookup k with
    | none =>
      simp only [ho] at h; cases h
      simp [Finmap.mem_iff, ho]
    | some value =>
      simp only [ho] at h
      cases hs : staged.lookup k with
      | some entry =>
        cases hme : entry.merge value with
        | error err => simp [hs, hme] at h
        | ok e => simp only [hs, hme] at h; cases h; simp [Finmap.mem_of_lookup_eq_some ho]
      | none => simp only [hs] at h; cases h; simp [Finmap.mem_of_lookup_eq_some ho]
  · simp only [Finmap.mem_iff, mergeEntry_lookup_of_ne h hk, hk, false_and, or_false]

end mergeEntry

/-- The merge of the registers, key by key: keys not yet merged still hold this side's registers,
so a failure comes from one key whose two registers do not merge. -/
theorem foldlM_mergeEntry_error {a o : BTreeMap K (Value I V)} :
    ∀ (ks : List K) (staged : BTreeMap K (Value I V)), ks.Nodup →
      (∀ k ∈ ks, staged.lookup k = a.lookup k) → ∀ e, ks.foldlM (mergeEntry o) staged = .error e →
        ∃ k ea eo, a.lookup k = some ea ∧ o.lookup k = some eo ∧ ea.merge eo = .error e
  | [], _, _, _, e, h => by cases h
  | key :: ks, staged, hnd, hstaged, e, h => by
    obtain ⟨hkey, hnd⟩ := List.nodup_cons.mp hnd
    rw [List.foldlM_cons] at h
    cases hs : mergeEntry o staged key with
    | error e' =>
      rw [hs] at h
      cases h
      obtain ⟨es, eo, hes, heo, hme⟩ := mergeEntry_error hs
      exact ⟨key, es, eo, (hstaged key List.mem_cons_self) ▸ hes, heo, hme⟩
    | ok staged' =>
      rw [hs] at h
      refine foldlM_mergeEntry_error ks staged' hnd (fun k hk => ?_) e h
      have hne : k ≠ key := fun hk' => hkey (hk' ▸ hk)
      rw [mergeEntry_lookup_of_ne hs hne, hstaged k (List.mem_cons_of_mem _ hk)]

theorem foldlM_mergeEntry_error_of_mem {a o : BTreeMap K (Value I V)} {k : K} {ea eo : Value I V}
    {e : Error I} (ha : a.lookup k = some ea) (ho : o.lookup k = some eo)
    (he : ea.merge eo = .error e) :
    ∀ (ks : List K) (staged : BTreeMap K (Value I V)), ks.Nodup →
      (∀ k ∈ ks, staged.lookup k = a.lookup k) → k ∈ ks →
        ∃ e', ks.foldlM (mergeEntry o) staged = .error e'
  | [], _, _, _, hk => absurd hk List.not_mem_nil
  | key :: ks, staged, hnd, hstaged, hk => by
    obtain ⟨hkey, hnd⟩ := List.nodup_cons.mp hnd
    rw [List.foldlM_cons]
    by_cases hkk : k = key
    · subst hkk
      rw [mergeEntry_of_error ((hstaged k List.mem_cons_self).trans ha) ho he]
      exact ⟨e, rfl⟩
    · cases hs : mergeEntry o staged key with
      | error e' => exact ⟨e', rfl⟩
      | ok staged' =>
        refine foldlM_mergeEntry_error_of_mem ha ho he ks staged' hnd (fun k' hk' => ?_)
          ((List.mem_cons.mp hk).resolve_left hkk)
        have hne : k' ≠ key := fun h' => hkey (h' ▸ hk')
        rw [mergeEntry_lookup_of_ne hs hne, hstaged k' (List.mem_cons_of_mem _ hk')]

theorem mem_foldlM_mergeEntry {o : BTreeMap K (Value I V)} :
    ∀ (ks : List K) (staged staged' : BTreeMap K (Value I V)),
      ks.foldlM (mergeEntry o) staged = .ok staged' →
        ∀ k, k ∈ staged' ↔ k ∈ staged ∨ (k ∈ ks ∧ k ∈ o)
  | [], staged, staged', h, k => by cases h; simp
  | key :: ks, staged, staged', h, k => by
    rw [List.foldlM_cons] at h
    cases hs : mergeEntry o staged key with
    | error e => rw [hs] at h; cases h
    | ok mid =>
      rw [hs] at h
      rw [mem_foldlM_mergeEntry ks mid staged' h k, mem_mergeEntry hs k, List.mem_cons]
      constructor
      · rintro ((h' | ⟨rfl, h'⟩) | ⟨hk, h'⟩)
        · exact Or.inl h'
        · exact Or.inr ⟨Or.inl rfl, h'⟩
        · exact Or.inr ⟨Or.inr hk, h'⟩
      · rintro (h' | ⟨rfl | hk, h'⟩)
        · exact Or.inl (Or.inl h')
        · exact Or.inl (Or.inr ⟨rfl, h'⟩)
        · exact Or.inr ⟨hk, h'⟩

/-- `Map::merge` refuses exactly the pairs with an id bound to two keys, or to two values under
one key, and names such an id. -/
theorem merge_refuses : MergeRefuses (merge (I := I) (K := K) (V := V)) Diverges := by
  intro m n
  have hnd : (n.entries.keys.sort (· ≤ ·)).Nodup := Finset.sort_nodup _ _
  constructor
  · intro e he
    unfold merge at he
    cases hc : Finmap.firstConflict m.operationKeys n.operationKeys with
    | some id =>
      rw [hc] at he
      cases he
      exact ⟨id, rfl, .inl (Finmap.diverges_of_firstConflict_eq_some hc)⟩
    | none =>
      rw [hc] at he
      cases hf : (n.entries.keys.sort (· ≤ ·)).foldlM (mergeEntry n.entries) m.entries with
      | ok entries => rw [hf] at he; cases he
      | error e' =>
        rw [hf] at he
        cases he
        obtain ⟨k, ea, eo, ha, ho, hme⟩ :=
          foldlM_mergeEntry_error _ _ hnd (fun _ _ => rfl) e hf
        obtain ⟨id, rfl, hid⟩ := (Value.merge_refuses ea eo).1 _ hme
        exact ⟨id, rfl, .inr ⟨k, ea, eo, ha, ho, hid⟩⟩
  · rintro ⟨id, hid⟩
    unfold merge
    cases hc : Finmap.firstConflict m.operationKeys n.operationKeys with
    | some id' => exact ⟨_, rfl⟩
    | none =>
      rcases hid with hid | ⟨k, ea, eo, ha, ho, hid⟩
      · exact absurd hid
          (Finmap.compatible_iff_not_diverges.mp (Finmap.firstConflict_eq_none.mp hc) id)
      · obtain ⟨e, he⟩ := (Value.merge_refuses ea eo).2 ⟨id, hid⟩
        have hk : k ∈ n.entries.keys.sort (· ≤ ·) :=
          (Finset.mem_sort _).mpr (Finmap.mem_keys.mpr (Finmap.mem_of_lookup_eq_some ho))
        obtain ⟨e', hf⟩ := foldlM_mergeEntry_error_of_mem ha ho he _ _ hnd (fun _ _ => rfl) hk
        exact ⟨e', by rw [hf]; rfl⟩

/-! ### Keyed atoms -/

/-- The keys beside the atoms. Unlike `atoms`, they see a key bound to a register with no version,
and so determine every map. -/
def keyedAtoms (m : Map I K V) : Set (K ⊕ ((K × ((I × V) ⊕ I)) ⊕ (I × K))) :=
  sumSet (↑m.entries.keys) m.atoms

omit [DecidableEq V] in
theorem keyedAtoms_injective : Function.Injective (keyedAtoms (I := I) (K := K) (V := V)) := by
  intro m n h
  obtain ⟨hkeys, hatoms⟩ := sumSet_injective h
  obtain ⟨he, ho⟩ := sumSet_injective hatoms
  have hmem : ∀ k, k ∈ m.entries ↔ k ∈ n.entries := fun k => by
    rw [← Finmap.mem_keys, ← Finmap.mem_keys, ← Finset.mem_coe, hkeys, Finset.mem_coe]
  cases m; cases n
  congr
  · apply Finmap.ext_lookup
    intro k
    cases hmk : Finmap.lookup k _ with
    | none =>
      have hk : k ∉ _ := Finmap.lookup_eq_none.mp hmk
      rw [Finmap.lookup_eq_none.mpr ((not_congr (hmem k)).mp hk)]
    | some e =>
      obtain ⟨e', he'⟩ := Finmap.mem_iff.mp ((hmem k).mp (Finmap.mem_of_lookup_eq_some hmk))
      rw [he']
      congr 1
      apply Value.atoms_injective
      ext a
      have := congrArg ((k, a) ∈ ·) he
      simp only [mem_entryAtoms, hmk, he', Option.some.injEq, exists_eq_left', eq_iff_iff] at this
      exact this
  · exact Finmap.graph_injective ho

theorem keyedAtoms_merge {m o n : Map I K V} (h : m.merge o = .ok n) :
    n.keyedAtoms = m.keyedAtoms ∪ o.keyedAtoms := by
  obtain ⟨-, hfold, -⟩ := merge_spec h
  have hkeys : (↑n.entries.keys : Set K) = ↑m.entries.keys ∪ ↑o.entries.keys := by
    ext k
    simp only [Set.mem_union, Finset.mem_coe, Finmap.mem_keys]
    rw [mem_foldlM_mergeEntry _ _ _ hfold k, Finset.mem_sort, Finmap.mem_keys, and_self]
  rw [keyedAtoms, keyedAtoms, keyedAtoms, hkeys, atoms_merge h, sumSet_union]

omit [DecidableEq V] in
theorem keys_remove (m : Map I K V) (key : K) : m.entries.keys ⊆ (m.remove key).2.entries.keys := by
  intro k hk
  unfold remove
  split
  · exact hk
  · rename_i value hv
    split
    · exact hk
    · exact Finmap.mem_keys.mpr (Finmap.mem_insert.mpr (Or.inr (Finmap.mem_keys.mp hk)))

theorem keyedAtoms_apply {m n : Map I K V} {op : MapOp I K V} (h : MapOp.apply m op = .ok n) :
    m.keyedAtoms ⊆ n.keyedAtoms := by
  refine sumSet_subset ?_ (MapOp.atoms_apply h)
  cases op with
  | insert id key value =>
    obtain ⟨-, hat⟩ := insertWithId_spec h
    obtain ⟨-, -, hother, e', hkey, -⟩ := insertAt_spec hat
    intro k hk
    simp only [Finset.mem_coe, Finmap.mem_keys] at hk ⊢
    by_cases hkk : k = key
    · subst hkk; exact Finmap.mem_of_lookup_eq_some hkey
    · exact Finmap.mem_iff.mpr (by rw [hother k hkk]; exact Finmap.mem_iff.mp hk)
  | remove key =>
    cases h
    exact Finset.coe_subset.mpr (keys_remove m key)

/-! ### Agreement in terms of atoms -/

omit [DecidableEq V] in
theorem entryAtoms_inl_iff {es : BTreeMap K (Value I V)} {k : K} {id : I} {x : V} :
    (k, .inl (id, x)) ∈ entryAtoms es ↔ ∃ e, es.lookup k = some e ∧ e.values.lookup id = some x :=
  Iff.rfl

omit [DecidableEq V] in
theorem entryAtoms_functional {es : BTreeMap K (Value I V)} {k : K} {id : I} {x y : V}
    (hx : (k, .inl (id, x)) ∈ entryAtoms es) (hy : (k, .inl (id, y)) ∈ entryAtoms es) : x = y := by
  obtain ⟨e, he, hx⟩ := entryAtoms_inl_iff.mp hx
  obtain ⟨e', he', hy⟩ := entryAtoms_inl_iff.mp hy
  rw [he] at he'
  cases he'
  exact Option.some.inj (hx.symm.trans hy)

theorem agree_iff {m n : Map I K V} :
    Agree Diverges m n ↔ Finmap.Compatible m.operationKeys n.operationKeys ∧
      ∀ k id x y, (k, .inl (id, x)) ∈ entryAtoms m.entries →
        (k, .inl (id, y)) ∈ entryAtoms n.entries → x = y := by
  rw [Finmap.compatible_iff_not_diverges]
  constructor
  · intro h
    refine ⟨fun id hid => h id (.inl hid), fun k id x y hx hy => ?_⟩
    obtain ⟨e, he, hx⟩ := entryAtoms_inl_iff.mp hx
    obtain ⟨e', he', hy⟩ := entryAtoms_inl_iff.mp hy
    by_contra hxy
    exact h id (.inr ⟨k, e, e', he, he', x, y, hx, hy, hxy⟩)
  · rintro ⟨hops, hent⟩ id (hid | ⟨k, e, e', he, he', x, y, hx, hy, hxy⟩)
    · exact hops id hid
    · exact hxy (hent k id x y ⟨e, he, hx⟩ ⟨e', he', hy⟩)

/-- `Map::merge` is a join on the maps that agree, whatever registers they hold, and every
successful `insert` or `remove` is an inflation. -/
theorem merge_join :
    JoinOn (merge (I := I) (K := K) (V := V)) (Agree Diverges) ∧
      Inflationary (merge (I := I) (K := K) (V := V)) MapOp.apply := by
  have hok : ∀ {s t : Map I K V}, Agree Diverges s t → ∃ u, s.merge t = .ok u := by
    intro s t h
    cases hst : s.merge t with
    | ok u => exact ⟨u, rfl⟩
    | error e =>
      obtain ⟨id, -, hid⟩ := (merge_refuses s t).1 e hst
      exact absurd hid (h id)
  -- the operation keys' pairs of a merge are the union of both sides'
  have hops : ∀ {s t u : Map I K V}, s.merge t = .ok u →
      u.operationKeys.graph = s.operationKeys.graph ∪ t.operationKeys.graph := by
    intro s t u h
    have := atoms_merge h
    rw [atoms, atoms, atoms, ← sumSet_union] at this
    exact (sumSet_injective this).2
  have hent : ∀ {s t u : Map I K V}, s.merge t = .ok u →
      entryAtoms u.entries = entryAtoms s.entries ∪ entryAtoms t.entries := by
    intro s t u h
    have := atoms_merge h
    rw [atoms, atoms, atoms, ← sumSet_union] at this
    exact (sumSet_injective this).1
  refine ⟨JoinOn.of_atoms keyedAtoms_injective keyedAtoms_merge hok ?_ ?_ ?_,
    Inflationary.of_atoms keyedAtoms_injective keyedAtoms_merge hok keyedAtoms_apply ?_⟩
  · intro s t h
    obtain ⟨h1, h2⟩ := agree_iff.mp h
    exact agree_iff.mpr ⟨h1.symm, fun k id x y hx hy => (h2 k id y x hy hx).symm⟩
  · intro s
    exact agree_iff.mpr ⟨Finmap.compatible_of_graph_subset le_rfl,
      fun k id x y => entryAtoms_functional⟩
  · intro s t u w hs ht hu
    obtain ⟨hs1, hs2⟩ := agree_iff.mp hs
    obtain ⟨ht1, ht2⟩ := agree_iff.mp ht
    refine agree_iff.mpr ⟨hs1.of_graph_union ht1 (hops hu), fun k id x y hx hy => ?_⟩
    rcases (hent hu ▸ hx : (k, Sum.inl (id, x)) ∈ entryAtoms s.entries ∪ entryAtoms t.entries)
      with hx | hx
    · exact hs2 k id x y hx hy
    · exact ht2 k id x y hx hy
  · intro s t h
    obtain ⟨hkeys, hat⟩ := sumSet_subset_iff.mp h
    obtain ⟨hent', hops'⟩ := sumSet_subset_iff.mp hat
    exact agree_iff.mpr ⟨Finmap.compatible_of_graph_subset hops',
      fun k id x y hx hy => entryAtoms_functional (hent' hx) hy⟩

end Map

/-! ## All six fields -/

/-- **Merges refuse exactly the divergent pairs**: for `Counter`, `Value<T>`, `Set<T>`, `Map<K, V>`,
`List<T>` and `Text`, `merge` fails exactly when some operation id is bound to different contents
on the two sides (for `Map`: to different keys in `operation_keys`, or to different values under
one key), and its error is `DivergentOperation` of such an id. -/
theorem fields_merge_refuses (K V T : Type) [LinearOrder K] [DecidableEq V] [DecidableEq T] :
    MergeRefuses (Counter.merge (I := I)) Counter.Diverges ∧
      MergeRefuses (Value.merge (I := I) (T := T)) Value.Diverges ∧
      MergeRefuses (CrdtSet.merge (I := I) (T := T)) CrdtSet.Diverges ∧
      MergeRefuses (Map.merge (I := I) (K := K) (V := V)) Map.Diverges ∧
      MergeRefuses (CrdtList.merge (I := I) (T := T)) CrdtList.Diverges ∧
      MergeRefuses (Text.merge (I := I)) Text.Diverges :=
  ⟨Counter.merge_refuses, Value.merge_refuses, CrdtSet.merge_refuses, Map.merge_refuses,
    CrdtList.merge_refuses, Text.merge_refuses⟩

/-- **Merge is a join**: for `Counter`, `Value<T>`, `Set<T>`, `Map<K, V>`, `List<T>` and `Text`,
`merge` succeeds on states whose shared operation ids are bound to the same contents, and is there
commutative, associative and idempotent; every successful mutation `s ↦ s'` has
`s.merge s' = s'`. -/
theorem fields_merge_join (K V T : Type) [LinearOrder K] [DecidableEq V] [DecidableEq T] :
    (JoinOn (Counter.merge (I := I)) (Agree Counter.Diverges) ∧
      Inflationary (Counter.merge (I := I)) CounterOp.apply) ∧
    (JoinOn (Value.merge (I := I) (T := T)) (Agree Value.Diverges) ∧
      Inflationary (Value.merge (I := I) (T := T)) ValueOp.apply) ∧
    (JoinOn (CrdtSet.merge (I := I) (T := T)) (Agree CrdtSet.Diverges) ∧
      Inflationary (CrdtSet.merge (I := I) (T := T)) SetOp.apply) ∧
    (JoinOn (Map.merge (I := I) (K := K) (V := V)) (Agree Map.Diverges) ∧
      Inflationary (Map.merge (I := I) (K := K) (V := V)) MapOp.apply) ∧
    (JoinOn (CrdtList.merge (I := I) (T := T)) (Agree CrdtList.Diverges) ∧
      Inflationary (CrdtList.merge (I := I) (T := T)) ListOp.apply) ∧
    (JoinOn (Text.merge (I := I)) (Agree Text.Diverges) ∧
      Inflationary (Text.merge (I := I)) TextOp.apply) :=
  ⟨Counter.merge_join, Value.merge_join, CrdtSet.merge_join, Map.merge_join, CrdtList.merge_join,
    Text.merge_join⟩

end Vos.Crdt
