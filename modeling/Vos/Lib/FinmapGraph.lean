import Mathlib.Data.Finmap
import Mathlib.Data.Finset.Sort
import Mathlib.Data.Set.Basic

/-!
# Finite maps as sets of pairs

A finite map with non-dependent values is determined by its graph, the set of its key-value
pairs. Two maps that agree wherever both are defined are *compatible*; the graph of their union
(either bias) is then the union of their graphs. `firstConflict` finds, in ascending key order,
the first key on which two maps disagree; it finds none exactly when they are compatible.

`sumSet` puts two sets of atoms side by side in a sum type; it is how a record of several maps
and sets becomes one set of atoms.

* `Finmap.graph`, `Finmap.graph_injective`, `Finmap.graph_insert`, `Finmap.graph_union`;
* `Finmap.Compatible`, `Finmap.Diverges`, `Finmap.firstConflict`, `Finmap.firstConflict_eq_none`;
* `Finmap.sortedEntries`: the entries in ascending key order;
* `sumSet`, `sumSet_union`, `sumSet_subset`, `sumSet_injective`.
-/

section SortLe

variable {α : Type*} [LinearOrder α]

/-- `≤` of a linear order as named instances of the relation classes `Finset.sort` asks for, so
that a list sorted by `≤` refers to them by name. -/
instance isTrans_le_of_linearOrder : IsTrans α (· ≤ ·) := inferInstance

instance antisymm_le_of_linearOrder : Std.Antisymm fun a b : α => a ≤ b := inferInstance

end SortLe

namespace Finmap

variable {α β : Type*} [DecidableEq α]

/-- The key-value pairs of a finite map. -/
def graph (m : Finmap fun _ : α => β) : Set (α × β) := {p | m.lookup p.1 = some p.2}

@[simp] theorem mem_graph {m : Finmap fun _ : α => β} {k : α} {v : β} :
    (k, v) ∈ m.graph ↔ m.lookup k = some v := Iff.rfl

theorem graph_injective : Function.Injective (graph : (Finmap fun _ : α => β) → Set (α × β)) := by
  intro m n h
  apply Finmap.ext_lookup
  intro k
  cases hm : m.lookup k with
  | none =>
    cases hn : n.lookup k with
    | none => rfl
    | some v =>
      have : (k, v) ∈ m.graph := h ▸ (mem_graph.mpr hn)
      simp [hm] at this
  | some v =>
    have : (k, v) ∈ n.graph := h ▸ (mem_graph.mpr hm)
    exact (mem_graph.mp this).symm

@[simp] theorem graph_empty : graph (∅ : Finmap fun _ : α => β) = ∅ := by
  ext ⟨k, v⟩; simp [Finmap.lookup_empty]

theorem graph_insert {m : Finmap fun _ : α => β} {k : α} {v : β} (h : m.lookup k = none) :
    graph (m.insert k v) = Insert.insert (k, v) m.graph := by
  ext ⟨k', v'⟩
  by_cases hk : k' = k
  · subst hk; simp [Finmap.lookup_insert, h, eq_comm]
  · simp [Finmap.lookup_insert_of_ne _ hk, hk]

theorem keys_insert (m : Finmap fun _ : α => β) (k : α) (v : β) :
    (m.insert k v).keys = Insert.insert k m.keys := by
  ext x
  simp [Finmap.mem_keys]

theorem erase_insert_of_ne {m : Finmap fun _ : α => β} {x k : α} {v : β} (h : x ≠ k) :
    (m.insert k v).erase x = (m.erase x).insert k v := by
  refine Finmap.ext_lookup fun y => ?_
  by_cases hyx : y = x
  · subst hyx
    rw [Finmap.lookup_erase, Finmap.lookup_insert_of_ne _ h, Finmap.lookup_erase]
  · by_cases hyk : y = k
    · subst hyk
      rw [Finmap.lookup_erase_ne hyx, Finmap.lookup_insert, Finmap.lookup_insert]
    · rw [Finmap.lookup_erase_ne hyx, Finmap.lookup_insert_of_ne _ hyk,
        Finmap.lookup_insert_of_ne _ hyk, Finmap.lookup_erase_ne hyx]

theorem insert_eq_of_lookup {m : Finmap fun _ : α => β} {k : α} {v : β} (h : m.lookup k = some v) :
    m.insert k v = m := by
  refine Finmap.ext_lookup fun x => ?_
  by_cases hx : x = k
  · subst hx
    rw [Finmap.lookup_insert, h]
  · rw [Finmap.lookup_insert_of_ne _ hx]

/-- Two maps agree wherever both are defined. -/
def Compatible (m n : Finmap fun _ : α => β) : Prop :=
  ∀ k a b, m.lookup k = some a → n.lookup k = some b → a = b

theorem Compatible.symm {m n : Finmap fun _ : α => β} (h : Compatible m n) : Compatible n m :=
  fun k a b ha hb => (h k b a hb ha).symm

/-- Both maps hold `k`, with different values. -/
def Diverges (m n : Finmap fun _ : α => β) (k : α) : Prop :=
  ∃ a b, m.lookup k = some a ∧ n.lookup k = some b ∧ a ≠ b

theorem compatible_iff_not_diverges {m n : Finmap fun _ : α => β} :
    Compatible m n ↔ ∀ k, ¬ Diverges m n k := by
  constructor
  · rintro h k ⟨a, b, ha, hb, hab⟩
    exact hab (h k a b ha hb)
  · intro h k a b ha hb
    by_contra hab
    exact h k ⟨a, b, ha, hb, hab⟩

theorem compatible_of_graph_subset {m n : Finmap fun _ : α => β} (h : m.graph ⊆ n.graph) :
    Compatible m n :=
  fun _ _ _ ha hb => Option.some.inj ((h (mem_graph.mpr ha)).symm.trans hb)

theorem Compatible.of_graph_union {m n u p : Finmap fun _ : α => β} (hm : Compatible m p)
    (hn : Compatible n p) (hu : u.graph = m.graph ∪ n.graph) : Compatible u p := by
  intro k a b ha hb
  have hmem : (k, a) ∈ m.graph ∪ n.graph := hu ▸ mem_graph.mpr ha
  rcases hmem with hmem | hmem
  · exact hm k a b hmem hb
  · exact hn k a b hmem hb

theorem graph_union {m n : Finmap fun _ : α => β} (h : Compatible m n) :
    graph (m ∪ n) = m.graph ∪ n.graph := by
  ext ⟨k, v⟩
  simp only [mem_graph, Set.mem_union]
  by_cases hk : k ∈ m
  · rw [Finmap.lookup_union_left hk]
    obtain ⟨a, ha⟩ := Finmap.mem_iff.mp hk
    constructor
    · exact Or.inl
    · rintro (h' | h')
      · exact h'
      · rw [ha, h k a v ha h']
  · rw [Finmap.lookup_union_right hk, Finmap.lookup_eq_none.mpr hk]
    simp

section firstConflict

variable [LinearOrder α] [DecidableEq β]

/-- Whether both maps hold `k`, with different values. -/
def conflictsAt (m n : Finmap fun _ : α => β) (k : α) : Bool :=
  match m.lookup k, n.lookup k with
  | some a, some b => decide (a ≠ b)
  | _, _ => false

/-- The first key of `n`, in ascending order, that `m` holds with another value. -/
def firstConflict (m n : Finmap fun _ : α => β) : Option α :=
  (n.keys.sort (· ≤ ·)).find? (conflictsAt m n)

omit [LinearOrder α] in
theorem conflictsAt_eq_false {m n : Finmap fun _ : α => β} {k : α} :
    conflictsAt m n k = false ↔ ∀ a b, m.lookup k = some a → n.lookup k = some b → a = b := by
  unfold conflictsAt
  cases m.lookup k <;> cases n.lookup k <;> simp

theorem firstConflict_eq_none {m n : Finmap fun _ : α => β} :
    firstConflict m n = none ↔ Compatible m n := by
  rw [firstConflict, List.find?_eq_none]
  constructor
  · intro h k a b ha hb
    have hk : k ∈ n.keys.sort (· ≤ ·) :=
      Finset.mem_sort _ |>.mpr (Finmap.mem_keys.mpr (Finmap.mem_of_lookup_eq_some hb))
    exact conflictsAt_eq_false.mp (by simpa using h k hk) a b ha hb
  · intro h k _
    simpa using conflictsAt_eq_false.mpr (h k)

theorem diverges_of_firstConflict_eq_some {m n : Finmap fun _ : α => β} {k : α}
    (h : firstConflict m n = some k) : Diverges m n k := by
  have hk : conflictsAt m n k = true := List.find?_some h
  unfold conflictsAt at hk
  cases ha : m.lookup k <;> cases hb : n.lookup k <;> simp_all [Diverges]

end firstConflict

section sortedEntries

variable [LinearOrder α]

/-- The entries in ascending key order, as a `BTreeMap` iterates them. -/
def sortedEntries (m : Finmap fun _ : α => β) : List (α × β) :=
  (m.keys.sort (· ≤ ·)).filterMap fun k => (m.lookup k).map (k, ·)

@[simp] theorem mem_sortedEntries {m : Finmap fun _ : α => β} {k : α} {v : β} :
    (k, v) ∈ m.sortedEntries ↔ m.lookup k = some v := by
  simp only [sortedEntries, List.mem_filterMap, Finset.mem_sort, Finmap.mem_keys, Option.map_eq_some_iff,
    Prod.mk.injEq]
  constructor
  · rintro ⟨k', -, v', hv', rfl, rfl⟩
    exact hv'
  · intro h
    exact ⟨k, Finmap.mem_of_lookup_eq_some h, v, h, rfl, rfl⟩

theorem map_fst_sortedEntries (m : Finmap fun _ : α => β) :
    m.sortedEntries.map Prod.fst = m.keys.sort (· ≤ ·) := by
  have hkey : ∀ k ∈ m.keys.sort (· ≤ ·),
      Option.map Prod.fst ((m.lookup k).map (k, ·)) = some k := by
    intro k hk
    obtain ⟨v, hv⟩ := Finmap.mem_iff.mp (Finmap.mem_keys.mp ((Finset.mem_sort _).mp hk))
    simp [hv]
  rw [sortedEntries, List.map_filterMap, List.filterMap_congr hkey, List.filterMap_some]

theorem nodup_map_fst_sortedEntries (m : Finmap fun _ : α => β) :
    (m.sortedEntries.map Prod.fst).Nodup := by
  rw [map_fst_sortedEntries]
  exact Finset.sort_nodup _ _

theorem pairwise_sortedEntries (m : Finmap fun _ : α => β) :
    m.sortedEntries.Pairwise fun a b => a.1 < b.1 := by
  rw [sortedEntries, List.pairwise_filterMap]
  refine (Finset.sortedLT_sort m.keys).pairwise.imp ?_
  intro a b hab x hx y hy
  obtain ⟨_, -, rfl⟩ := Option.map_eq_some_iff.mp hx
  obtain ⟨_, -, rfl⟩ := Option.map_eq_some_iff.mp hy
  exact hab

omit [LinearOrder α] in
theorem lookup_of_mem_of_nodup :
    ∀ {l : List (α × β)} {a : α} {b : β}, (l.map Prod.fst).Nodup → (a, b) ∈ l → l.lookup a = some b
  | [], _, _, _, h => absurd h List.not_mem_nil
  | (c, d) :: l, a, b, hnd, h => by
    rw [List.map_cons, List.nodup_cons] at hnd
    rcases List.mem_cons.mp h with h | h
    · obtain ⟨rfl, rfl⟩ := Prod.mk.inj h
      simp
    · have hac : a ≠ c := fun hac => hnd.1 (List.mem_map.mpr ⟨(a, b), h, hac⟩)
      rw [List.lookup_cons, beq_false_of_ne hac]
      exact lookup_of_mem_of_nodup hnd.2 h

theorem lookup_sortedEntries (m : Finmap fun _ : α => β) (k : α) :
    m.sortedEntries.lookup k = m.lookup k := by
  cases hk : m.lookup k with
  | some v => exact lookup_of_mem_of_nodup (nodup_map_fst_sortedEntries m) (mem_sortedEntries.mpr hk)
  | none =>
    cases hl : m.sortedEntries.lookup k with
    | none => rfl
    | some v =>
      obtain ⟨l₁, l₂, hsplit, -⟩ := List.lookup_eq_some_iff.mp hl
      have hmem : (k, v) ∈ m.sortedEntries := by
        rw [hsplit]
        simp
      rw [mem_sortedEntries, hk] at hmem
      cases hmem

end sortedEntries

omit [DecidableEq α] in
theorem eq_of_pairwise_fst_lt [LinearOrder α] :
    ∀ {l₁ l₂ : List (α × β)}, l₁.Pairwise (fun a b => a.1 < b.1) →
      l₂.Pairwise (fun a b => a.1 < b.1) → (∀ e, e ∈ l₁ ↔ e ∈ l₂) → l₁ = l₂
  | [], [], _, _, _ => rfl
  | [], b :: _, _, _, h => absurd ((h b).mpr List.mem_cons_self) List.not_mem_nil
  | a :: _, [], _, _, h => absurd ((h a).mp List.mem_cons_self) List.not_mem_nil
  | a :: t₁, b :: t₂, h₁, h₂, h => by
    obtain ⟨ha, ht₁⟩ := List.pairwise_cons.mp h₁
    obtain ⟨hb, ht₂⟩ := List.pairwise_cons.mp h₂
    -- the least keys agree: each head lies in the other list, above its head unless equal
    have hab : a = b := by
      rcases List.mem_cons.mp ((h a).mp List.mem_cons_self) with hab | hat
      · exact hab
      · rcases List.mem_cons.mp ((h b).mpr List.mem_cons_self) with hba | hbt
        · exact hba.symm
        · exact absurd ((ha b hbt).trans (hb a hat)) (lt_irrefl _)
    subst hab
    refine congrArg _ (eq_of_pairwise_fst_lt ht₁ ht₂ fun e => ?_)
    constructor
    · intro he
      have hne : e ≠ a := fun h' => lt_irrefl a.1 (h' ▸ ha e he)
      exact (List.mem_cons.mp ((h e).mp (List.mem_cons_of_mem _ he))).resolve_left hne
    · intro he
      have hne : e ≠ a := fun h' => lt_irrefl a.1 (h' ▸ hb e he)
      exact (List.mem_cons.mp ((h e).mpr (List.mem_cons_of_mem _ he))).resolve_left hne

theorem sortedEntries_of_lookup [LinearOrder α] {γ : Type*} {m : Finmap fun _ : α => β}
    {m' : Finmap fun _ : α => γ} {f : β → γ} (h : ∀ k, m'.lookup k = (m.lookup k).map f) :
    m'.sortedEntries = m.sortedEntries.map fun e => (e.1, f e.2) := by
  refine eq_of_pairwise_fst_lt (pairwise_sortedEntries m')
    (List.pairwise_map.mpr ((pairwise_sortedEntries m).imp id)) fun ⟨k, c⟩ => ?_
  simp only [mem_sortedEntries, List.mem_map, h, Option.map_eq_some_iff, Prod.mk.injEq]
  constructor
  · rintro ⟨b, hb, rfl⟩
    exact ⟨(k, b), mem_sortedEntries.mpr hb, rfl, rfl⟩
  · rintro ⟨⟨k', b⟩, hb, rfl, rfl⟩
    exact ⟨b, mem_sortedEntries.mp hb, rfl⟩

end Finmap

section sumSet

variable {α β : Type*}

/-- Two sets of atoms side by side. -/
def sumSet (s : Set α) (t : Set β) : Set (α ⊕ β) := {x | x.elim (· ∈ s) (· ∈ t)}

@[simp] theorem mem_sumSet_inl {s : Set α} {t : Set β} {a : α} :
    Sum.inl a ∈ sumSet s t ↔ a ∈ s := Iff.rfl

@[simp] theorem mem_sumSet_inr {s : Set α} {t : Set β} {b : β} :
    Sum.inr b ∈ sumSet s t ↔ b ∈ t := Iff.rfl

theorem sumSet_union (s s' : Set α) (t t' : Set β) :
    sumSet (s ∪ s') (t ∪ t') = sumSet s t ∪ sumSet s' t' := by
  ext (a | b) <;> simp

theorem sumSet_subset {s s' : Set α} {t t' : Set β} (hs : s ⊆ s') (ht : t ⊆ t') :
    sumSet s t ⊆ sumSet s' t' := by
  rintro (a | b) h
  · exact hs h
  · exact ht h

theorem sumSet_subset_iff {s s' : Set α} {t t' : Set β} :
    sumSet s t ⊆ sumSet s' t' ↔ s ⊆ s' ∧ t ⊆ t' :=
  ⟨fun h => ⟨fun _ ha => h (mem_sumSet_inl.mpr ha), fun _ hb => h (mem_sumSet_inr.mpr hb)⟩,
   fun h => sumSet_subset h.1 h.2⟩

theorem sumSet_injective {s s' : Set α} {t t' : Set β} (h : sumSet s t = sumSet s' t') :
    s = s' ∧ t = t' := by
  constructor
  · ext a; simpa using congrArg (Sum.inl a ∈ ·) h
  · ext b; simpa using congrArg (Sum.inr b ∈ ·) h

end sumSet
