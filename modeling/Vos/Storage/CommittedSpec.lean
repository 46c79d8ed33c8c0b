import Vos.Storage.CommittedMap
import Vos.Lib.FinmapGraph

/-!
# vos storage — a committed map is a sorted map

At the key widths whose levels fit the `u16` field (`width ≤ 8192`), the rows of a committed map
are the canonical rows of its entries (`Vos.Storage.CommittedMap`). Read through them, the map is
the sorted map of its entries, with the root that `zk::state::root_of_sorted` recomputes from
scratch:

* `cellEntries`: the entries whose keys lie in one cell, in ascending key order;
  `cellEntries_succ`: a cell's entries are its left child's, then its right child's;
* `iterate_canonRef`: the walk of `iter` from the canonical ref of a cell emits the cell's
  entries, spending two units of fuel per key;
* `iter_eq`: `iter` lists the value rows in ascending key order; `root_eq`: `root` is
  `root_of_sorted` of the leaf hashes;
* **`committedMap_sorted_map`**: along every history of calls that fit, from a map never
  written, each call returns whether it changed the key set, and at the end `get`, `len`,
  `root` and `iter` are those of the sorted map of the entries left.
-/

namespace Vos.Storage

open Vos.Zk CompleteTree

/-! ## The entries of a cell -/

/-- The entries of `V` whose keys lie in the cell of height `k` at `i`, in ascending key order. -/
def cellEntries (V : Finmap fun _ : ℕ => List UInt8) (k i : ℕ) : List (ℕ × List UInt8) :=
  V.sortedEntries.filter fun e => e.1 / 2 ^ k = i

section Cells

variable {V : Finmap fun _ : ℕ => List UInt8}

theorem mem_cellEntries {k i a : ℕ} {b : List UInt8} :
    (a, b) ∈ cellEntries V k i ↔ V.lookup a = some b ∧ a / 2 ^ k = i := by
  simp [cellEntries]

theorem pairwise_cellEntries (k i : ℕ) : (cellEntries V k i).Pairwise fun a b => a.1 < b.1 :=
  (Finmap.pairwise_sortedEntries V).filter _

theorem cellEntries_succ (k i : ℕ) :
    cellEntries V (k + 1) i = cellEntries V k (2 * i) ++ cellEntries V k (2 * i + 1) := by
  refine Finmap.eq_of_pairwise_fst_lt (pairwise_cellEntries _ _)
    (List.pairwise_append.mpr ⟨pairwise_cellEntries _ _, pairwise_cellEntries _ _, ?_⟩) ?_
  · rintro ⟨a, b⟩ ha ⟨c, d⟩ hc
    rw [mem_cellEntries] at ha hc
    show a < c
    by_contra hac
    have := Nat.div_le_div_right (c := 2 ^ k) (not_lt.mp hac)
    omega
  · rintro ⟨a, b⟩
    rw [List.mem_append, mem_cellEntries, mem_cellEntries, mem_cellEntries, mem_child_iff]
    tauto

theorem cellEntries_eq_nil {H : Type} {T : Finmap fun _ : ℕ => H} (hkeys : ∀ k, k ∈ V ↔ k ∈ T)
    {k i : ℕ} (h : cellOf T.keys k i = ∅) : cellEntries V k i = [] := by
  refine List.eq_nil_iff_forall_not_mem.mpr fun ⟨a, b⟩ hab => ?_
  rw [mem_cellEntries] at hab
  have ha : a ∈ cellOf T.keys k i :=
    mem_cellOf.mpr ⟨Finmap.mem_keys.mpr ((hkeys a).mp (Finmap.mem_of_lookup_eq_some hab.1)), hab.2⟩
  rw [h] at ha
  exact Finset.notMem_empty a ha

theorem cellEntries_zero {i : ℕ} {v : List UInt8} (hv : V.lookup i = some v) :
    cellEntries V 0 i = [(i, v)] := by
  refine Finmap.eq_of_pairwise_fst_lt (pairwise_cellEntries 0 i) (List.pairwise_singleton _ _)
    fun ⟨a, b⟩ => ?_
  rw [mem_cellEntries, List.mem_singleton, pow_zero, Nat.div_one, Prod.mk.injEq]
  constructor
  · rintro ⟨hab, rfl⟩
    rw [hv] at hab
    exact ⟨rfl, (Option.some.inj hab).symm⟩
  · rintro ⟨rfl, rfl⟩
    exact ⟨hv, rfl⟩

end Cells

/-! ## The walk of `iter` -/

section Walk

variable {H : Type} {node : H → H → H} {emptyLeaf : H} {p : SmtParams} {rows : Rows H}
  {V : Finmap fun _ : ℕ => List UInt8} {T : Finmap fun _ : ℕ => H}

theorem two_pow_depth_sub_succ {k : ℕ} (hk : k + 1 ≤ p.depth) :
    2 ^ (p.depth - k) = 2 * 2 ^ (p.depth - (k + 1)) := by
  rw [← pow_succ']
  congr 1
  omega

/-- **The walk of a cell.** From the canonical ref of a cell holding `n ≥ 1` keys, `iterate` emits
the cell's entries in ascending key order and goes on with the rest of the stack, `2 n - 1` units
of fuel later. -/
theorem iterate_canonRef (hw : p.depth ≤ 2 ^ 16) (hc : Canonical node emptyLeaf p rows V T) :
    ∀ {k i : ℕ}, k ≤ p.depth → i < 2 ^ (p.depth - k) → (cellOf T.keys k i).Nonempty →
      ∀ fuel stack, iterate rows (fuel + 2 * (cellOf T.keys k i).card)
          (canonRef node emptyLeaf p T k i :: stack) =
        (iterate rows (fuel + 1) stack).map (cellEntries V k i ++ ·)
  | 0, i, _, _, hne, fuel, stack => by
    obtain ⟨q, hq⟩ := hne
    rw [mem_cellOf, Finmap.mem_keys, pow_zero, Nat.div_one] at hq
    obtain ⟨hqT, rfl⟩ := hq
    obtain ⟨h, hh⟩ := Finmap.mem_iff.mp hqT
    obtain ⟨v, hv⟩ := Finmap.mem_iff.mp ((hc.keys q).mpr hqT)
    have hcard : (cellOf T.keys 0 q).card = 1 := by
      rw [Finset.card_eq_one]
      refine ⟨q, Finset.ext fun a => ?_⟩
      rw [mem_cellOf, Finmap.mem_keys, pow_zero, Nat.div_one, Finset.mem_singleton]
      exact ⟨fun ha => ha.2, fun ha => ⟨ha ▸ hqT, ha⟩⟩
    rw [hcard, canonRef_zero, hh, show fuel + 2 * 1 = fuel + 1 + 1 by omega, iterate, hc.values, hv,
      cellEntries_zero hv]
    rfl
  | k + 1, i, hk, hi, hne, fuel, stack => by
    have hpow := two_pow_depth_sub_succ hk
    have hi2 : 2 * i + 1 < 2 ^ (p.depth - k) := by omega
    rcases (cellOf T.keys k (2 * i)).eq_empty_or_nonempty with hl | hl
    · -- the keys all lie right: the cell's ref is its right child's
      have hcell : cellOf T.keys (k + 1) i = cellOf T.keys k (2 * i + 1) := by
        rw [cellOf_succ, hl, Finset.empty_union]
      rw [canonRef_succ_of_left T ((canonRef_eq_empty_iff T).mpr hl), hcell, cellEntries_succ,
        cellEntries_eq_nil hc.keys hl, List.nil_append]
      exact iterate_canonRef hw hc (by omega) hi2 (hcell ▸ hne) fuel stack
    rcases (cellOf T.keys k (2 * i + 1)).eq_empty_or_nonempty with hr | hr
    · have hcell : cellOf T.keys (k + 1) i = cellOf T.keys k (2 * i) := by
        rw [cellOf_succ, hr, Finset.union_empty]
      rw [canonRef_succ_of_right T ((canonRef_eq_empty_iff T).mpr hr), hcell, cellEntries_succ,
        cellEntries_eq_nil hc.keys hr, List.append_nil]
      exact iterate_canonRef hw hc (by omega) (by omega) (hcell ▸ hne) fuel stack
    -- a branching cell: its node row holds the refs of both children, walked left first
    have hcard : (cellOf T.keys (k + 1) i).card =
        (cellOf T.keys k (2 * i)).card + (cellOf T.keys k (2 * i + 1)).card := by
      rw [cellOf_succ, Finset.card_union_of_disjoint (disjoint_cellOf_children k i)]
    have hrow : rows.nodes.lookup (cellKey p (k + 1) i) =
        some (canonRef node emptyLeaf p T k (2 * i), canonRef node emptyLeaf p T k (2 * i + 1)) := by
      rw [hc.nodes, canonNodeAt_cellKey hw T (by omega) hk hi, if_pos ⟨hl, hr⟩]
      rfl
    have hpos : 1 ≤ (cellOf T.keys k (2 * i + 1)).card := Finset.card_pos.mpr hr
    rw [canonRef_succ_of_branching T ⟨hl, hr⟩, hcard,
      show fuel + 2 * ((cellOf T.keys k (2 * i)).card + (cellOf T.keys k (2 * i + 1)).card) =
        fuel + 2 * (cellOf T.keys k (2 * i + 1)).card - 1 + 2 * (cellOf T.keys k (2 * i)).card + 1
        by omega,
      iterate, show ((p.depth - (k + 1)).toUInt16, i * 2 ^ (k + 1)) = cellKey p (k + 1) i from rfl,
      hrow]
    dsimp only
    rw [iterate_canonRef hw hc (by omega) (by omega) hl,
      show fuel + 2 * (cellOf T.keys k (2 * i + 1)).card - 1 + 1 =
        fuel + 2 * (cellOf T.keys k (2 * i + 1)).card by omega,
      iterate_canonRef hw hc (by omega) hi2 hr, Option.map_map, cellEntries_succ]
    congr 1
    funext rest
    simp

/-- **`iter` lists the entries in ascending key order**: the walk from the top ref, with the fuel
`iter` gives it, emits every value row. -/
theorem iter_eq (hw : p.depth ≤ 2 ^ 16) (hc : Canonical node emptyLeaf p rows V T) :
    iter rows = some V.sortedEntries := by
  have hall : cellEntries V p.depth 0 = V.sortedEntries := List.filter_eq_self.mpr fun e he => by
    have ha := hc.bound e.1
      ((hc.keys e.1).mp (Finmap.mem_of_lookup_eq_some (Finmap.mem_sortedEntries.mp he)))
    simpa using Nat.div_eq_of_lt ha
  rcases T.keys.eq_empty_or_nonempty with hT | hT
  · have hcell : cellOf T.keys p.depth 0 = ∅ := by rw [cellOf_top hc.bound, hT]
    have htop : (readRoot rows).2.2 = .empty := by
      rcases hc.root with h | ⟨h, -⟩
      · rw [readRoot, h]
        exact (canonRef_eq_empty_iff T).mpr hcell
      · rw [readRoot, h]
    rw [iter, htop, card_nodes_keys hw hc, hT, ← hall, cellEntries_eq_nil hc.keys hcell]
    rfl
  · have hroot := hc.root.resolve_right fun h => by simp [h.2] at hT
    have hwalk := iterate_canonRef (k := p.depth) (i := 0) hw hc le_rfl (Nat.two_pow_pos _)
      (by rwa [cellOf_top hc.bound]) 0 []
    rw [cellOf_top hc.bound, hall] at hwalk
    rw [iter, readRoot, hroot, card_nodes_keys hw hc,
      show 2 * (T.keys.card - 1) + 2 = 0 + 2 * T.keys.card by have := Finset.card_pos.mpr hT; omega]
    dsimp only
    rw [hwalk]
    simp [iterate]

/-- **`root` is the full recompute** of `root_of_sorted` over the leaf hashes in key order. -/
theorem root_eq (hc : Canonical node emptyLeaf p rows V T) :
    root node emptyLeaf p rows = rootOfSorted node emptyLeaf p T.sortedEntries := by
  have hkeys : ∀ e ∈ T.sortedEntries, e.1 < 2 ^ p.depth := fun ⟨a, _⟩ he =>
    hc.bound a (Finmap.mem_of_lookup_eq_some (Finmap.mem_sortedEntries.mp he))
  have hleaf : leafOf emptyLeaf T.sortedEntries = leafFn emptyLeaf T := by
    funext k
    rw [leafOf, leafFn, Finmap.lookup_sortedEntries]
  rw [rootOfSorted_eq node emptyLeaf p (Finmap.pairwise_sortedEntries T) hkeys, hleaf]
  rcases hc.root with h | ⟨h, rfl⟩
  · simp [root, readRoot, h]
  · simp only [root, readRoot, h, Option.getD_none]
    exact (root_eq_emptyRoot node fun q _ => by simp [leafFn]).symm

end Walk

/-! ## Histories of calls -/

section Histories

variable {H : Type} {node : H → H → H} {emptyLeaf : H} {p : SmtParams}
  {leafHash : List UInt8 → H}

theorem Models.reads (hw : p.depth ≤ 2 ^ 16) {rows : Rows H}
    {E : Finmap fun _ : ℕ => List UInt8 × List UInt8} (hm : Models node emptyLeaf p leafHash rows E) :
    (∀ k, get rows k = (E.lookup k).map Prod.fst) ∧ len rows = E.keys.card ∧
      root node emptyLeaf p rows =
        rootOfSorted node emptyLeaf p (E.sortedEntries.map fun e => (e.1, leafHash e.2.2)) ∧
      iter rows = some (E.sortedEntries.map fun e => (e.1, e.2.1)) := by
  obtain ⟨T, hc, hT⟩ := hm.tree
  have hkeys : T.keys = E.keys := Finset.ext fun k => by
    rw [Finmap.mem_keys, Finmap.mem_keys, mem_of_leaves hT]
  refine ⟨hm.values, by rw [len_eq hc, hkeys], ?_, ?_⟩
  · rw [root_eq hc, Finmap.sortedEntries_of_lookup hT]
  · rw [iter_eq hw hc, Finmap.sortedEntries_of_lookup hm.values]

/-- **A committed map is a sorted map.** At every key width up to `8192` bytes, along every
history of `insert`, `insert_with_leaf` and `remove` calls that fit, from a map never written:
each call returns whether it added (insert) or dropped (remove) a key of the entries it found,
and at the end `get` returns each present key's last value, `len` counts the present keys,
`root` is `root_of_sorted` over their leaf hashes in ascending key order, and `iter` lists the
present `(key, value)` pairs in ascending key order. -/
theorem committedMap_sorted_map (hw : p.depth ≤ 2 ^ 16) (ops : List Op)
    (hfit : ∀ op ∈ ops, op.Fits p) :
    (∀ n (hn : n < ops.length), ∃ rows rows',
      runOps node emptyLeaf p leafHash Rows.empty (ops.take n) = some rows ∧
        ops[n].apply node emptyLeaf p leafHash rows =
          some (rows', ops[n].changesEntries (entriesOf (ops.take n)))) ∧
    ∃ rows, runOps node emptyLeaf p leafHash Rows.empty ops = some rows ∧
      (∀ k, get rows k = ((entriesOf ops).lookup k).map Prod.fst) ∧
      len rows = (entriesOf ops).keys.card ∧
      root node emptyLeaf p rows =
        rootOfSorted node emptyLeaf p ((entriesOf ops).sortedEntries.map fun e => (e.1, leafHash e.2.2)) ∧
      iter rows = some ((entriesOf ops).sortedEntries.map fun e => (e.1, e.2.1)) := by
  refine ⟨fun n hn => ?_, ?_⟩
  · obtain ⟨rows, hrun, hm⟩ := runOps_models hw (ops.take n) models_empty
      fun op hop => hfit op (List.mem_of_mem_take hop)
    obtain ⟨rows', happ, -⟩ := apply_models hw hm (hfit _ (List.getElem_mem hn))
    exact ⟨rows, rows', hrun, happ⟩
  · obtain ⟨rows, hrun, hm⟩ := runOps_models hw ops models_empty hfit
    exact ⟨rows, hrun, hm.reads hw⟩

theorem committedMap_sorted_map_width_one :
    (⟨1⟩ : SmtParams).depth ≤ 2 ^ 16 ∧
      (∀ op ∈ ([.insert 1 [2], .insert 0 [3], .remove 1] : List Op), op.Fits ⟨1⟩) ∧
      ∃ rows, runOps (fun a b : ℕ => a + b) 0 ⟨1⟩ (fun _ => 1) Rows.empty
          [.insert 1 [2], .insert 0 [3], .remove 1] = some rows ∧
        len rows = (entriesOf [.insert 1 [2], .insert 0 [3], .remove 1]).keys.card := by
  have hw : (⟨1⟩ : SmtParams).depth ≤ 2 ^ 16 := by decide
  have hfit : ∀ op ∈ ([.insert 1 [2], .insert 0 [3], .remove 1] : List Op), op.Fits ⟨1⟩ := by
    decide
  obtain ⟨-, rows, hrun, -, hlen, -⟩ :=
    @committedMap_sorted_map ℕ (fun a b => a + b) 0 ⟨1⟩ (fun _ => 1) hw _ hfit
  exact ⟨hw, hfit, rows, hrun, hlen⟩

end Histories

end Vos.Storage
