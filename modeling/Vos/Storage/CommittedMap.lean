import Vos.Storage.CommittedUpdate

/-!
# vos storage — histories of a committed map

A `CommittedMap` is driven by `insert`, `insert_with_leaf` and `remove`. This module runs histories
of these calls from a map never written and relates the rows to the entries the history leaves,
`(key, value, leaf content)`:

* `Models`: the value rows are the entries' values and the node and root rows are the canonical
  rows of the entries' leaf hashes (`Vos.Storage.CommittedTree`);
* `apply_models`, **`runOps_models`**: every call keeps `Models`, so every history of calls that
  fit does;
* `card_nodes_keys`, `nodes_children_ne_empty`: the node rows are one per branching point, so
  there are `len - 1` of them, each with two non-empty children;
* **`insert_again_wide_key`**: past `8192`-byte keys a level no longer fits the `u16` field, and a
  second insert of a present key reports a new key and leaves a node row that is its own child.
-/

namespace Vos.Storage

open Vos.Zk CompleteTree

/-! ## Calls and entries -/

/-- A call on a committed map. -/
inductive Op
  | insert (kb : ℕ) (value : List UInt8)
  | insertWithLeaf (kb : ℕ) (value leafContent : List UInt8)
  | remove (kb : ℕ)
  deriving DecidableEq, Repr

/-- The key a call names. -/
def Op.key : Op → ℕ
  | .insert kb _ => kb
  | .insertWithLeaf kb _ _ => kb
  | .remove kb => kb

/-- The value a call stores, empty for a removal. -/
def Op.value : Op → List UInt8
  | .insert _ value => value
  | .insertWithLeaf _ value _ => value
  | .remove _ => []

/-- A call within the source's types and row cap: a key of the map's width, and a value row of
at most `MAX_VALUE_BYTES`. -/
def Op.Fits (p : SmtParams) (op : Op) : Prop :=
  op.key < 2 ^ p.depth ∧ op.value.length ≤ maxValueBytes

instance (p : SmtParams) (op : Op) : Decidable (op.Fits p) :=
  inferInstanceAs (Decidable (_ ∧ _))

/-- The entries `key ↦ (value, leaf content)` after a call. -/
def Op.applyEntries (E : Finmap fun _ : ℕ => List UInt8 × List UInt8) :
    Op → Finmap fun _ : ℕ => List UInt8 × List UInt8
  | .insert kb value => E.insert kb (value, value)
  | .insertWithLeaf kb value leafContent => E.insert kb (value, leafContent)
  | .remove kb => E.erase kb

/-- The flag a call returns on the entries: an insert reports a new key, a removal a key that had
an entry. -/
def Op.changesEntries (E : Finmap fun _ : ℕ => List UInt8 × List UInt8) : Op → Bool
  | .insert kb _ => decide (kb ∉ E)
  | .insertWithLeaf kb _ _ => decide (kb ∉ E)
  | .remove kb => decide (kb ∈ E)

/-- The entries a history leaves. -/
def entriesOf (ops : List Op) : Finmap fun _ : ℕ => List UInt8 × List UInt8 :=
  ops.foldl Op.applyEntries ∅

section Calls

variable {H : Type} (node : H → H → H) (emptyLeaf : H) (p : SmtParams)
  (leafHash : List UInt8 → H)

/-- One call on the rows, with the flag it returns; `none` where the source panics. -/
def Op.apply (rows : Rows H) : Op → Option (Rows H × Bool)
  | .insert kb value => Storage.insert node emptyLeaf p leafHash rows kb value
  | .insertWithLeaf kb value leafContent =>
    Storage.insertWithLeaf node emptyLeaf p leafHash rows kb value leafContent
  | .remove kb => Storage.remove node emptyLeaf p rows kb

/-- A history of calls, in order; `none` if one of them panics. -/
def runOps (rows : Rows H) : List Op → Option (Rows H)
  | [] => some rows
  | op :: ops => (op.apply node emptyLeaf p leafHash rows).bind fun r => runOps r.1 ops

/-- **The rows of the entries.** The value rows hold the entries' values, and the node and root
rows are canonical for the entries' leaf hashes. -/
structure Models (rows : Rows H) (E : Finmap fun _ : ℕ => List UInt8 × List UInt8) : Prop where
  values : ∀ k, rows.values.lookup k = (E.lookup k).map Prod.fst
  tree : ∃ T : Finmap (fun _ : ℕ => H), Canonical node emptyLeaf p rows rows.values T ∧
    ∀ k, T.lookup k = (E.lookup k).map fun e => leafHash e.2

variable {node emptyLeaf p leafHash}

theorem mem_of_leaves {T : Finmap fun _ : ℕ => H} {E : Finmap fun _ : ℕ => List UInt8 × List UInt8}
    (hT : ∀ k, T.lookup k = (E.lookup k).map fun e => leafHash e.2) (k : ℕ) : k ∈ T ↔ k ∈ E := by
  rw [← Finmap.lookup_isSome, ← Finmap.lookup_isSome, hT, Option.isSome_map]

theorem canonNodeAt_empty (c : UInt16 × ℕ) :
    canonNodeAt node emptyLeaf p (∅ : Finmap fun _ : ℕ => H) c = none := by
  unfold canonNodeAt
  rw [if_neg]
  rintro ⟨-, -, -, ⟨q, hq⟩, -⟩
  simp at hq

theorem models_empty : Models node emptyLeaf p leafHash Rows.empty ∅ :=
  ⟨fun k => by simp [Rows.empty], ⟨∅, ⟨fun k => iff_of_false Finmap.notMem_empty Finmap.notMem_empty,
    fun k hk => absurd hk Finmap.notMem_empty, rfl, fun c => by simp [Rows.empty, canonNodeAt_empty],
    .inr ⟨rfl, rfl⟩⟩, fun k => by simp⟩⟩

/-- **An insert keeps the model.** A call that fits stores the value row, sets the leaf of its
key, and returns whether the key was new. -/
theorem insertEncoded_models (hw : p.depth ≤ 2 ^ 16) {rows : Rows H}
    {E : Finmap fun _ : ℕ => List UInt8 × List UInt8} (hm : Models node emptyLeaf p leafHash rows E)
    {kb : ℕ} (hkb : kb < 2 ^ p.depth) {valueBytes leafContent : List UInt8}
    (hlen : valueBytes.length ≤ maxValueBytes) :
    ∃ rows', insertEncoded node emptyLeaf p leafHash rows kb valueBytes leafContent =
        some (rows', decide (kb ∉ E)) ∧
      Models node emptyLeaf p leafHash rows' (E.insert kb (valueBytes, leafContent)) := by
  obtain ⟨T, hc, hT⟩ := hm.tree
  have hn0 : ∀ c, ({ rows with values := rows.values.insert kb valueBytes } : Rows H).nodes.lookup c =
      canonNodeAt node emptyLeaf p T c := hc.nodes
  obtain ⟨nodes', hupd, hn⟩ := updateTree_canonical hw hc.bound hn0 hc.root hkb
    (some (leafHash leafContent)) (fun h => absurd h (by simp))
  have hflag : (decide (kb ∈ T) != (some (leafHash leafContent)).isSome) = decide (kb ∉ E) := by
    simp [mem_of_leaves hT]
  refine ⟨_, by rw [insertEncoded, if_pos hlen, hupd, hflag], fun k => ?_,
    ⟨_, ⟨fun k => ?_, fun k hk => ?_, rfl, hn, .inl rfl⟩, fun k => ?_⟩⟩
  · by_cases hk : k = kb
    · subst hk
      simp [Finmap.lookup_insert]
    · simp [Finmap.lookup_insert_of_ne _ hk, hm.values]
  · simp only [setLeaf, Finmap.mem_insert, hc.keys]
  · simp only [setLeaf, Finmap.mem_insert] at hk
    rcases hk with rfl | hk
    · exact hkb
    · exact hc.bound k hk
  · by_cases hk : k = kb
    · subst hk
      simp [setLeaf, Finmap.lookup_insert]
    · simp [setLeaf, Finmap.lookup_insert_of_ne _ hk, hT]

/-- **A removal keeps the model.** It clears the key's rows and leaf if it had an entry, and
returns whether it had one. -/
theorem remove_models (hw : p.depth ≤ 2 ^ 16) {rows : Rows H}
    {E : Finmap fun _ : ℕ => List UInt8 × List UInt8} (hm : Models node emptyLeaf p leafHash rows E)
    (kb : ℕ) :
    ∃ rows', remove node emptyLeaf p rows kb = some (rows', decide (kb ∈ E)) ∧
      Models node emptyLeaf p leafHash rows' (E.erase kb) := by
  obtain ⟨T, hc, hT⟩ := hm.tree
  have hmem := mem_of_leaves hT
  by_cases hkE : kb ∈ E
  · have hkT : kb ∈ T := (hmem kb).mpr hkE
    have hn0 : ∀ c, ({ rows with values := rows.values.erase kb } : Rows H).nodes.lookup c =
        canonNodeAt node emptyLeaf p T c := hc.nodes
    obtain ⟨nodes', hupd, hn⟩ := updateTree_canonical hw hc.bound hn0 hc.root (hc.bound kb hkT)
      none fun _ => hkT
    have hflag : (decide (kb ∈ T) != (none : Option H).isSome) = decide (kb ∈ E) := by
      simp [hkT, hkE]
    refine ⟨_, by rw [remove, if_pos ((hc.keys kb).mpr hkT), hupd, hflag], fun k => ?_,
      ⟨_, ⟨fun k => ?_, fun k hk => ?_, rfl, hn, .inl rfl⟩, fun k => ?_⟩⟩
    · by_cases hk : k = kb
      · subst hk
        simp [Finmap.lookup_erase]
      · simp [Finmap.lookup_erase_ne hk, hm.values]
    · simp only [setLeaf, Finmap.mem_erase, hc.keys]
    · simp only [setLeaf, Finmap.mem_erase] at hk
      exact hc.bound k hk.2
    · by_cases hk : k = kb
      · subst hk
        simp [setLeaf, Finmap.lookup_erase]
      · simp [setLeaf, Finmap.lookup_erase_ne hk, hT]
  · -- a key without an entry: the rows stay, and so do the entries
    have hkV : kb ∉ rows.values := fun h => hkE ((hmem kb).mp ((hc.keys kb).mp h))
    have hE : E.erase kb = E := Finmap.ext_lookup fun k => by
      by_cases hk : k = kb
      · subst hk
        rw [Finmap.lookup_erase, Finmap.lookup_eq_none.mpr hkE]
      · rw [Finmap.lookup_erase_ne hk]
    rw [hE]
    exact ⟨rows, by rw [remove, if_neg hkV, decide_eq_false hkE], hm⟩

/-- **A call keeps the model**, and returns the flag of the entries. -/
theorem apply_models (hw : p.depth ≤ 2 ^ 16) {rows : Rows H}
    {E : Finmap fun _ : ℕ => List UInt8 × List UInt8} (hm : Models node emptyLeaf p leafHash rows E)
    {op : Op} (hfit : op.Fits p) :
    ∃ rows', op.apply node emptyLeaf p leafHash rows = some (rows', op.changesEntries E) ∧
      Models node emptyLeaf p leafHash rows' (Op.applyEntries E op) := by
  cases op with
  | insert kb value => exact insertEncoded_models hw hm hfit.1 hfit.2
  | insertWithLeaf kb value leafContent => exact insertEncoded_models hw hm hfit.1 hfit.2
  | remove kb => exact remove_models hw hm kb

/-- **Every history of calls that fit keeps the model.** By induction on the history, one call
at a time. -/
theorem runOps_models (hw : p.depth ≤ 2 ^ 16) :
    ∀ (ops : List Op) {rows : Rows H} {E : Finmap fun _ : ℕ => List UInt8 × List UInt8},
      Models node emptyLeaf p leafHash rows E → (∀ op ∈ ops, op.Fits p) →
      ∃ rows', runOps node emptyLeaf p leafHash rows ops = some rows' ∧
        Models node emptyLeaf p leafHash rows' (ops.foldl Op.applyEntries E)
  | [], rows, _, hm, _ => ⟨rows, rfl, hm⟩
  | op :: ops, _, _, hm, hfit => by
    obtain ⟨rows₁, happ, hm₁⟩ := apply_models hw hm (hfit op List.mem_cons_self)
    obtain ⟨rows₂, hrun, hm₂⟩ :=
      runOps_models hw ops hm₁ fun op' hop' => hfit op' (List.mem_cons_of_mem op hop')
    exact ⟨rows₂, by rw [runOps, happ, Option.bind_some, hrun], hm₂⟩

end Calls

/-! ## The node rows -/

section NodeRows

variable {H : Type} {node : H → H → H} {emptyLeaf : H} {p : SmtParams}

theorem cellOf_top {T : Finmap fun _ : ℕ => H} (hbound : ∀ k ∈ T, k < 2 ^ p.depth) :
    cellOf T.keys p.depth 0 = T.keys := by
  ext q
  simp only [mem_cellOf, Finmap.mem_keys, and_iff_left_iff_imp]
  exact fun hq => Nat.div_eq_of_lt (hbound q hq)

/-- **One node row per branching point.** -/
theorem nodes_keys_eq (hw : p.depth ≤ 2 ^ 16) {rows : Rows H} {V : Finmap fun _ : ℕ => List UInt8}
    {T : Finmap fun _ : ℕ => H} (hc : Canonical node emptyLeaf p rows V T) :
    rows.nodes.keys = (branchCells T.keys p.depth 0).image fun c => cellKey p c.1 c.2 := by
  ext c
  rw [Finmap.mem_keys, ← Finmap.lookup_isSome, hc.nodes c, Finset.mem_image]
  constructor
  · intro hsome
    obtain ⟨h, j, h1, hh, hj, rfl⟩ := canonNodeAt_ne_none hw (Option.isSome_iff_ne_none.mp hsome)
    rw [canonNodeAt_cellKey hw T h1 hh hj] at hsome
    split_ifs at hsome with hbr
    · exact ⟨(h, j), mem_branchCells.mpr ⟨h1, hh, (Nat.div_eq_zero_iff_lt (Nat.two_pow_pos _)).mpr hj,
        hbr.1, hbr.2⟩, rfl⟩
    · simp at hsome
  · rintro ⟨⟨h, j⟩, hmem, rfl⟩
    obtain ⟨h1, hh, hj, hl, hr⟩ := mem_branchCells.mp hmem
    rw [canonNodeAt_cellKey hw T h1 hh ((Nat.div_eq_zero_iff_lt (Nat.two_pow_pos _)).mp hj),
      if_pos ⟨hl, hr⟩]
    rfl

/-- **There are `len - 1` node rows**: a binary tree with `n` leaves has `n - 1` branching
points. -/
theorem card_nodes_keys (hw : p.depth ≤ 2 ^ 16) {rows : Rows H} {V : Finmap fun _ : ℕ => List UInt8}
    {T : Finmap fun _ : ℕ => H} (hc : Canonical node emptyLeaf p rows V T) :
    rows.nodes.keys.card = T.keys.card - 1 := by
  rw [nodes_keys_eq hw hc, Finset.card_image_of_injOn]
  · rcases T.keys.eq_empty_or_nonempty with hT | hT
    · rw [branchCells_eq_empty (by rw [cellOf_top hc.bound, hT]), hT]
      rfl
    · have hcount := card_branchCells (S := T.keys) (k := p.depth) (i := 0)
        (by rwa [cellOf_top hc.bound])
      rw [cellOf_top hc.bound] at hcount
      omega
  · rintro ⟨h, j⟩ hm ⟨h', j'⟩ hm' heq
    obtain ⟨h1, hh, -⟩ := mem_branchCells.mp hm
    obtain ⟨h1', hh', -⟩ := mem_branchCells.mp hm'
    obtain ⟨rfl, rfl⟩ := cellKey_inj hw h1 h1' hh hh' heq
    rfl

/-- **Every node row has two non-empty children.** -/
theorem nodes_children_ne_empty (hw : p.depth ≤ 2 ^ 16) {rows : Rows H}
    {V : Finmap fun _ : ℕ => List UInt8} {T : Finmap fun _ : ℕ => H}
    (hc : Canonical node emptyLeaf p rows V T) {c : UInt16 × ℕ} {l r : Ref H}
    (hlr : rows.nodes.lookup c = some (l, r)) : l ≠ .empty ∧ r ≠ .empty := by
  rw [hc.nodes] at hlr
  obtain ⟨h, j, h1, hh, hj, rfl⟩ := canonNodeAt_ne_none hw (by rw [hlr]; simp)
  rw [canonNodeAt_cellKey hw T h1 hh hj] at hlr
  -- a row exists only at a branching cell, whose children hold keys
  split_ifs at hlr with hbr
  obtain ⟨rfl, rfl⟩ := Prod.mk.inj (Option.some.inj hlr)
  exact ⟨(canonRef_ne_empty_iff T).mpr hbr.1, (canonRef_ne_empty_iff T).mpr hbr.2⟩

theorem len_eq {rows : Rows H} {V : Finmap fun _ : ℕ => List UInt8} {T : Finmap fun _ : ℕ => H}
    (hc : Canonical node emptyLeaf p rows V T) : len rows = T.keys.card := by
  rcases hc.root with h | ⟨h, rfl⟩ <;> simp [len, readRoot, h]

end NodeRows

/-! ## Rows as a function of the entries -/

section Entries

variable {H : Type} {node : H → H → H} {emptyLeaf : H} {p : SmtParams}
  {leafHash : List UInt8 → H}

/-- Two row sets modelling the same entries agree on their value rows and node rows, and on their
root row once the entries are not empty. -/
theorem Models.rows_eq {rows₁ rows₂ : Rows H}
    {E : Finmap fun _ : ℕ => List UInt8 × List UInt8}
    (hm₁ : Models node emptyLeaf p leafHash rows₁ E) (hm₂ : Models node emptyLeaf p leafHash rows₂ E) :
    rows₁.values = rows₂.values ∧ rows₁.nodes = rows₂.nodes ∧ (E ≠ ∅ → rows₁.root = rows₂.root) := by
  obtain ⟨T₁, hc₁, hT₁⟩ := hm₁.tree
  obtain ⟨T₂, hc₂, hT₂⟩ := hm₂.tree
  -- the leaf hashes are those of the entries, on both sides
  have hT : T₁ = T₂ := Finmap.ext_lookup fun k => by rw [hT₁, hT₂]
  subst hT
  refine ⟨Finmap.ext_lookup fun k => by rw [hm₁.values, hm₂.values],
    Finmap.ext_lookup fun c => by rw [hc₁.nodes, hc₂.nodes], fun hE => ?_⟩
  have hne : T₁ ≠ ∅ := fun h => hE (Finmap.ext_lookup fun k => by
    rw [Finmap.lookup_empty, ← Option.map_eq_none_iff, ← hT₁ k, h, Finmap.lookup_empty])
  rcases hc₁.root with h₁ | h₁
  · rcases hc₂.root with h₂ | h₂
    · rw [h₁, h₂]
    · exact absurd h₂.2 hne
  · exact absurd h₁.2 hne

/-- **Committed rows are a function of the entries.** Two histories of calls that fit, from a map
never written and ending with the same entries, leave the same value rows and node rows, and the
same root row unless no entry is left; every node row has two non-empty children, and there are
`len - 1` node rows. -/
theorem rows_eq_of_entriesOf_eq (hw : p.depth ≤ 2 ^ 16) {ops₁ ops₂ : List Op}
    (h₁ : ∀ op ∈ ops₁, op.Fits p) (h₂ : ∀ op ∈ ops₂, op.Fits p)
    (heq : entriesOf ops₁ = entriesOf ops₂) :
    ∃ rows₁ rows₂, runOps node emptyLeaf p leafHash Rows.empty ops₁ = some rows₁ ∧
      runOps node emptyLeaf p leafHash Rows.empty ops₂ = some rows₂ ∧
      rows₁.values = rows₂.values ∧ rows₁.nodes = rows₂.nodes ∧
      (entriesOf ops₁ ≠ ∅ → rows₁.root = rows₂.root) ∧
      (∀ c l r, rows₁.nodes.lookup c = some (l, r) → l ≠ .empty ∧ r ≠ .empty) ∧
      rows₁.nodes.keys.card = len rows₁ - 1 := by
  obtain ⟨rows₁, hrun₁, hm₁⟩ := runOps_models hw ops₁ models_empty h₁
  obtain ⟨rows₂, hrun₂, hm₂⟩ := runOps_models hw ops₂ models_empty h₂
  rw [← entriesOf, heq] at hm₁
  rw [← entriesOf] at hm₂
  obtain ⟨hv, hn, hr⟩ := hm₁.rows_eq hm₂
  obtain ⟨T, hc, -⟩ := hm₁.tree
  exact ⟨rows₁, rows₂, hrun₁, hrun₂, hv, hn, heq ▸ hr,
    fun c l r hlr => nodes_children_ne_empty hw hc hlr, by rw [card_nodes_keys hw hc, len_eq hc]⟩

end Entries

/-- Two histories over two keys, the second writing a third key it then removes, end with the
same entries and leave the same rows. -/
theorem rows_eq_of_entriesOf_eq_two_keys :
    entriesOf [.insert 0 [2], .insert 1 [5]] =
      entriesOf [.insert 1 [5], .insert 3 [7], .insert 0 [2], .remove 3] ∧
    ∃ rows₁ rows₂,
      runOps (fun a b : ℕ => a + b) 0 ⟨2⟩ (fun _ => 1) Rows.empty [.insert 0 [2], .insert 1 [5]] =
        some rows₁ ∧
      runOps (fun a b : ℕ => a + b) 0 ⟨2⟩ (fun _ => 1) Rows.empty
        [.insert 1 [5], .insert 3 [7], .insert 0 [2], .remove 3] = some rows₂ ∧
      rows₁.values = rows₂.values ∧ rows₁.nodes = rows₂.nodes ∧
      (entriesOf [.insert 0 [2], .insert 1 [5]] ≠ ∅ → rows₁.root = rows₂.root) ∧
      (∀ c l r, rows₁.nodes.lookup c = some (l, r) → l ≠ .empty ∧ r ≠ .empty) ∧
      rows₁.nodes.keys.card = len rows₁ - 1 := by
  have heq : entriesOf [.insert 0 [2], .insert 1 [5]] =
      entriesOf [.insert 1 [5], .insert 3 [7], .insert 0 [2], .remove 3] := by
    decide
  exact ⟨heq, rows_eq_of_entriesOf_eq (by decide) (by decide) (by decide) heq⟩

/-- A map emptied by its removals keeps a root row, which a map never written lacks: the same
(empty) entries, two row sets. -/
theorem rows_ne_after_emptying :
    entriesOf [] = entriesOf [.insert 0 [0], .remove 0] ∧
      runOps (fun a b : ℕ => a + b) 0 ⟨1⟩ (fun _ => 1) Rows.empty [] ≠
        runOps (fun a b : ℕ => a + b) 0 ⟨1⟩ (fun _ => 1) Rows.empty [.insert 0 [0], .remove 0] := by
  refine ⟨Finmap.ext_lookup fun k => ?_, fun h => ?_⟩
  · by_cases hk : k = 0
    · subst hk
      simp [entriesOf, Op.applyEntries]
    · simp [entriesOf, Op.applyEntries, Finmap.lookup_erase_ne hk, Finmap.lookup_insert_of_ne _ hk]
  · have hroot := congrArg (Option.map fun rows : Rows ℕ => rows.root.isSome) h
    revert hroot
    decide

/-! ## Keys wider than 8192 bytes

`update_tree` writes the level of a new node as `d as u16`. With keys of `N > 8192` bytes the
levels run to `8 N - 1 ≥ 2^16`, and a level past `u16` is stored modulo `2^16`. -/

theorem firstDiffLevel_wide : firstDiffLevel ⟨8193⟩ 128 0 = some 65536 := by
  rw [firstDiffLevel, List.find?_range_eq_some]
  refine ⟨by decide, by simp [SmtParams.depth], fun j hj => ?_⟩
  have hlt : 128 < 2 ^ (65543 - j) :=
    Nat.lt_of_lt_of_le (by decide : 128 < 2 ^ 8) (Nat.pow_le_pow_right (by decide) (by omega))
  have h128 : levelBit ⟨8193⟩ 128 j = false := by
    rw [levelBit, show (⟨8193⟩ : SmtParams).depth - 1 - j = 65543 - j by simp [SmtParams.depth]]
    exact Nat.testBit_eq_false_of_lt hlt
  rw [h128]
  simp [levelBit]

section Wrap

variable {H : Type} (node : H → H → H) (emptyLeaf : H) (leafHash : List UInt8 → H)

/-- Wherever the level at which `0` and `128` split is stored as `0`, the second insert of `128`
finds the node row `(0, 0)` it wrote, descends to the leaf of `0`, splits it again at the same
stored cell, and bubbles the new node up into that cell as its own left child. -/
theorem insert_again_of_wrap {p : SmtParams} {d n : ℕ}
    (hfuel : p.depth + 1 = n + 2) (hdiff : firstDiffLevel p 128 0 = some d)
    (hwrap : d.toUInt16 = 0) (hpre : prefixOf p 128 d = 0)
    (hbit : levelBit p 128 d = true) (hbit0 : levelBit p 128 0 = false) :
    ∃ rows₂ rows₃, runOps node emptyLeaf p leafHash Rows.empty [.insert 0 [], .insert 128 []] =
        some rows₂ ∧
      (Op.insert 128 []).apply node emptyLeaf p leafHash rows₂ = some (rows₃, true) ∧
      len rows₃ = 3 ∧ ∀ fuel, iterate rows₃ fuel [(readRoot rows₃).2.2] = none := by
  simp [hfuel, hdiff, hwrap, hpre, hbit, hbit0, runOps, Op.apply, Storage.insert, insertEncoded,
    updateTree, readRoot, Rows.empty, descend, collapse, bubble, maxValueBytes, splitNode,
    divergeBefore, len]
  exact fun fuel => iterate_of_self_loop (Finmap.lookup_insert _) fuel _ []

end Wrap

/-- **Inserting a present key at a width of `8193` bytes.** After `insert(0, [])` and
`insert(128, [])`, the entries hold keys `0` and `128`, so a second `insert(128, [])` must return
`false` and leave `len` at `2`. It returns `true`, `len` is `3`, and the node row `(0, 0)` becomes
its own left child: the leaf of `0` is unreachable and `iter` never ends. -/
theorem insert_again_wide_key {H : Type} (node : H → H → H) (emptyLeaf : H)
    (leafHash : List UInt8 → H) :
    (Op.insert 128 []).changesEntries (entriesOf [.insert 0 [], .insert 128 []]) = false ∧
      (entriesOf [.insert 0 [], .insert 128 []]).keys.card = 2 ∧
      ∃ rows₂ rows₃,
        runOps node emptyLeaf ⟨8193⟩ leafHash Rows.empty [.insert 0 [], .insert 128 []] =
          some rows₂ ∧
        (Op.insert 128 []).apply node emptyLeaf ⟨8193⟩ leafHash rows₂ = some (rows₃, true) ∧
        len rows₃ = 3 ∧ ∀ fuel, iterate rows₃ fuel [(readRoot rows₃).2.2] = none := by
  refine ⟨by simp [entriesOf, Op.applyEntries, Op.changesEntries], ?_, ?_⟩
  · have hkeys : (entriesOf [.insert 0 [], .insert 128 []]).keys = {0, 128} := by
      ext k
      simp [entriesOf, Op.applyEntries, Finmap.mem_keys, Finmap.notMem_empty, or_comm]
    rw [hkeys]
    rfl
  · exact insert_again_of_wrap node emptyLeaf leafHash (n := 65543) rfl firstDiffLevel_wide
      (by decide) (by decide) (by decide) (by decide)

end Vos.Storage
