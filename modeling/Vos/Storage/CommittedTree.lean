import Vos.Storage.Committed

/-!
# vos storage — the canonical rows of a committed map

The rows of a committed map are meant to be a function of its content. This module states that
function and proves that every mutation keeps the rows equal to it. Over the complete tree of
the keys, a cell is *branching* when both its children hold keys; the canonical ref of a cell is
empty, the leaf of its one key, or the branch node at the lowest branching cell holding all its
keys, with that cell's root as memoized hash. The canonical rows are then:

* a node row at every branching cell, holding the canonical refs of its two children;
* the root row with the count, the tree's root and the canonical ref of the whole tree.

* `leafFn`, `canonRef` (with `canonRef_succ`, `canonRef_eq_empty_iff`, `canonRef_congr`, the
  spine `canonRef_spine`, and what a leaf or branch ref says: `canonRef_eq_leaf`,
  `canonRef_eq_branch`), `refSubtreeHash_canonRef`: a canonical ref's lifted hash is its cell's
  root;
* `canonNodeAt`, `cellKey` and the invariant `Canonical`; key bits: `divergeBefore_eq_none`,
  `divergeBefore_eq_some`, `exists_firstDiffLevel`.

Branch levels are `u16`: every result here assumes the tree's levels fit, `width ≤ 8192`.
-/

namespace Vos.Storage

open Vos.Zk CompleteTree

section Canon

variable {H : Type} (node : H → H → H) (emptyLeaf : H) (p : SmtParams)

/-- The leaf function of the content: a key's leaf hash, `EMPTY_LEAF` elsewhere. -/
def leafFn (T : Finmap fun _ : ℕ => H) (k : ℕ) : H := (T.lookup k).getD emptyLeaf

/-- The canonical ref of the cell of height `k` at `i`. -/
def canonRef (T : Finmap fun _ : ℕ => H) : ℕ → ℕ → Ref H
  | 0, i =>
    match T.lookup i with
    | some h => .leaf i h
    | none => .empty
  | k + 1, i =>
    match canonRef T k (2 * i), canonRef T k (2 * i + 1) with
    | .empty, r => r
    | l, .empty => l
    | _, _ => .branch (p.depth - (k + 1)).toUInt16 (i * 2 ^ (k + 1))
      (CompleteTree.root node (leafFn emptyLeaf T) (k + 1) i)

/-- A cell of height `k + 1` at `i` is branching when both its children hold keys. -/
def Branching (T : Finmap fun _ : ℕ => H) (k i : ℕ) : Prop :=
  (cellOf T.keys k (2 * i)).Nonempty ∧ (cellOf T.keys k (2 * i + 1)).Nonempty

instance (T : Finmap fun _ : ℕ => H) (k i : ℕ) : Decidable (Branching T k i) :=
  inferInstanceAs (Decidable (_ ∧ _))

/-- The canonical node row at `(level, prefix)`: the children of a branching cell whose prefix it
is. -/
def canonNodeAt (T : Finmap fun _ : ℕ => H) (c : UInt16 × ℕ) : Option (Ref H × Ref H) :=
  let k := p.depth - c.1.toNat
  if c.1.toNat < p.depth ∧ c.2 % 2 ^ k = 0 ∧ c.2 < 2 ^ p.depth ∧ Branching T (k - 1) (c.2 / 2 ^ k)
  then some (canonRef node emptyLeaf p T (k - 1) (2 * (c.2 / 2 ^ k)),
    canonRef node emptyLeaf p T (k - 1) (2 * (c.2 / 2 ^ k) + 1))
  else none

/-- **The canonical rows.** The value rows are the values, every node row is the canonical one,
and the root row holds the count, the root and the canonical top ref; a map never written has no
root row. -/
structure Canonical (rows : Rows H) (V : Finmap fun _ : ℕ => List UInt8)
    (T : Finmap fun _ : ℕ => H) : Prop where
  keys : ∀ k, k ∈ V ↔ k ∈ T
  bound : ∀ k ∈ T, k < 2 ^ p.depth
  values : rows.values = V
  nodes : ∀ c, rows.nodes.lookup c = canonNodeAt node emptyLeaf p T c
  root : rows.root = some (T.keys.card, CompleteTree.root node (leafFn emptyLeaf T) p.depth 0,
      canonRef node emptyLeaf p T p.depth 0) ∨ rows.root = none ∧ T = ∅

variable {node emptyLeaf p}

theorem canonRef_succ (T : Finmap fun _ : ℕ => H) (k i : ℕ) :
    canonRef node emptyLeaf p T (k + 1) i =
      if (canonRef node emptyLeaf p T k (2 * i)).isEmpty then canonRef node emptyLeaf p T k (2 * i + 1)
      else if (canonRef node emptyLeaf p T k (2 * i + 1)).isEmpty then
        canonRef node emptyLeaf p T k (2 * i)
      else .branch (p.depth - (k + 1)).toUInt16 (i * 2 ^ (k + 1))
        (CompleteTree.root node (leafFn emptyLeaf T) (k + 1) i) := by
  rw [canonRef]
  split <;> simp_all [Ref.isEmpty]

theorem canonRef_zero (T : Finmap fun _ : ℕ => H) (i : ℕ) :
    canonRef node emptyLeaf p T 0 i = match T.lookup i with
      | some h => .leaf i h
      | none => .empty := rfl

theorem canonRef_eq_empty_iff (T : Finmap fun _ : ℕ => H) :
    ∀ {k i : ℕ}, canonRef node emptyLeaf p T k i = .empty ↔ cellOf T.keys k i = ∅
  | 0, i => by
    rw [canonRef_zero, Finset.eq_empty_iff_forall_notMem]
    constructor
    · intro h q hq
      rw [mem_cellOf, Finmap.mem_keys] at hq
      have hqi : q = i := by simpa using hq.2
      subst hqi
      obtain ⟨v, hv⟩ := Finmap.mem_iff.mp hq.1
      rw [hv] at h
      cases h
    · intro h
      cases hl : T.lookup i with
      | none => rfl
      | some v =>
        exact absurd (mem_cellOf.mpr ⟨Finmap.mem_keys.mpr (Finmap.mem_of_lookup_eq_some hl),
          by simp⟩) (h i)
  | k + 1, i => by
    rw [canonRef_succ, cellOf_succ, Finset.union_eq_empty, ← canonRef_eq_empty_iff,
      ← canonRef_eq_empty_iff]
    split_ifs with hl hr <;> simp_all

theorem canonRef_ne_empty_iff (T : Finmap fun _ : ℕ => H) {k i : ℕ} :
    canonRef node emptyLeaf p T k i ≠ .empty ↔ (cellOf T.keys k i).Nonempty := by
  rw [ne_eq, canonRef_eq_empty_iff, ← ne_eq, Finset.nonempty_iff_ne_empty]

theorem canonRef_succ_of_left (T : Finmap fun _ : ℕ => H) {k i : ℕ}
    (h : canonRef node emptyLeaf p T k (2 * i) = .empty) :
    canonRef node emptyLeaf p T (k + 1) i = canonRef node emptyLeaf p T k (2 * i + 1) := by
  rw [canonRef_succ, if_pos (Ref.isEmpty_iff.mpr h)]

theorem canonRef_succ_of_right (T : Finmap fun _ : ℕ => H) {k i : ℕ}
    (h : canonRef node emptyLeaf p T k (2 * i + 1) = .empty) :
    canonRef node emptyLeaf p T (k + 1) i = canonRef node emptyLeaf p T k (2 * i) := by
  rw [canonRef_succ]
  split_ifs with hl hr
  · rw [h, (Ref.isEmpty_iff.mp hl)]
  · rfl
  · exact absurd (Ref.isEmpty_iff.mpr h) hr

theorem canonRef_succ_of_branching (T : Finmap fun _ : ℕ => H) {k i : ℕ}
    (h : Branching T k i) :
    canonRef node emptyLeaf p T (k + 1) i = .branch (p.depth - (k + 1)).toUInt16 (i * 2 ^ (k + 1))
      (CompleteTree.root node (leafFn emptyLeaf T) (k + 1) i) := by
  have hl : canonRef node emptyLeaf p T k (2 * i) ≠ .empty := (canonRef_ne_empty_iff T).mpr h.1
  have hr : canonRef node emptyLeaf p T k (2 * i + 1) ≠ .empty :=
    (canonRef_ne_empty_iff T).mpr h.2
  rw [canonRef_succ, if_neg (by simpa using hl), if_neg (by simpa using hr)]

theorem canonRef_congr {T T' : Finmap fun _ : ℕ => H} :
    ∀ {k i : ℕ}, (∀ q, q / 2 ^ k = i → T.lookup q = T'.lookup q) →
      canonRef node emptyLeaf p T k i = canonRef node emptyLeaf p T' k i
  | 0, i, h => by rw [canonRef_zero, canonRef_zero, h i (by simp)]
  | k + 1, i, h => by
    have hl : canonRef node emptyLeaf p T k (2 * i) = canonRef node emptyLeaf p T' k (2 * i) :=
      canonRef_congr fun q hq => h q (mem_child_iff.mpr (.inl hq))
    have hr : canonRef node emptyLeaf p T k (2 * i + 1) =
        canonRef node emptyLeaf p T' k (2 * i + 1) :=
      canonRef_congr fun q hq => h q (mem_child_iff.mpr (.inr hq))
    have hroot : CompleteTree.root node (leafFn emptyLeaf T) (k + 1) i =
        CompleteTree.root node (leafFn emptyLeaf T') (k + 1) i :=
      root_congr node fun q hq => by simp only [leafFn, h q hq]
    rw [canonRef_succ, canonRef_succ, hl, hr, hroot]

theorem canonRef_off_path (T : Finmap fun _ : ℕ => H) {kb g j : ℕ}
    (h : ∀ q ∈ T, q / 2 ^ (g + 1) = kb / 2 ^ (g + 1) → q / 2 ^ g = kb / 2 ^ g)
    (hj : j / 2 = kb / 2 ^ (g + 1)) (hne : j ≠ kb / 2 ^ g) :
    canonRef node emptyLeaf p T g j = .empty := by
  refine (canonRef_eq_empty_iff T).mpr (Finset.eq_empty_of_forall_notMem fun q hq => ?_)
  rw [mem_cellOf, Finmap.mem_keys] at hq
  have hq' := h q hq.1 (by rw [div_two_pow_succ, hq.2, hj])
  exact hne (hq.2 ▸ hq')

/-- **The spine.** A cell whose keys all lie in its sub-cell on `kb`'s path, `m` levels down, has
that sub-cell's canonical ref. -/
theorem canonRef_spine (T : Finmap fun _ : ℕ => H) {kb g : ℕ} :
    ∀ {m : ℕ}, (∀ q ∈ T, q / 2 ^ (g + m) = kb / 2 ^ (g + m) → q / 2 ^ g = kb / 2 ^ g) →
      canonRef node emptyLeaf p T (g + m) (kb / 2 ^ (g + m)) =
        canonRef node emptyLeaf p T g (kb / 2 ^ g)
  | 0, _ => rfl
  | m + 1, h => by
    have hstep : ∀ q ∈ T, q / 2 ^ (g + m + 1) = kb / 2 ^ (g + m + 1) →
        q / 2 ^ (g + m) = kb / 2 ^ (g + m) := fun q hq hqm => by
      rw [div_two_pow_add, h q hq (by rwa [← Nat.add_assoc]), ← div_two_pow_add]
    have ih : canonRef node emptyLeaf p T (g + m) (kb / 2 ^ (g + m)) =
        canonRef node emptyLeaf p T g (kb / 2 ^ g) :=
      canonRef_spine T fun q hq hqm => h q hq (by
        rw [← Nat.add_assoc, div_two_pow_succ, hqm, ← div_two_pow_succ])
    have hj := div_two_pow_eq_two_mul_add kb (g + m)
    rw [← Nat.add_assoc, ← ih]
    split_ifs at hj with hbit
    · -- `kb` goes right: the left child is off the path
      rw [canonRef_succ_of_left T (canonRef_off_path T hstep (by omega) (by omega)), hj]
    · rw [canonRef_succ_of_right T (canonRef_off_path T hstep (by omega) (by omega)),
        show kb / 2 ^ (g + m) = 2 * (kb / 2 ^ (g + m + 1)) by omega]

theorem canonRef_spine_le (T : Finmap fun _ : ℕ => H) {kb g x : ℕ} (hgx : g ≤ x)
    (h : ∀ q ∈ T, q / 2 ^ x = kb / 2 ^ x → q / 2 ^ g = kb / 2 ^ g) :
    canonRef node emptyLeaf p T x (kb / 2 ^ x) = canonRef node emptyLeaf p T g (kb / 2 ^ g) := by
  obtain ⟨m, rfl⟩ := Nat.exists_eq_add_of_le hgx
  exact canonRef_spine T h

theorem canonRef_of_unique (T : Finmap fun _ : ℕ => H) {kb g : ℕ}
    (hT : ∀ q ∈ T, q / 2 ^ g = kb / 2 ^ g → q = kb) :
    canonRef node emptyLeaf p T g (kb / 2 ^ g) = canonRef node emptyLeaf p T 0 kb := by
  have hspine : canonRef node emptyLeaf p T g (kb / 2 ^ g) =
      canonRef node emptyLeaf p T 0 (kb / 2 ^ 0) :=
    canonRef_spine_le T (Nat.zero_le g) fun q hq hqg => by rw [hT q hq hqg]
  rwa [pow_zero, Nat.div_one] at hspine

theorem canonRef_eq_leaf (T : Finmap fun _ : ℕ => H) :
    ∀ {k i key : ℕ} {h : H}, canonRef node emptyLeaf p T k i = .leaf key h →
      T.lookup key = some h ∧ key / 2 ^ k = i ∧ ∀ q ∈ T, q / 2 ^ k = i → q = key
  | 0, i, key, h, hr => by
    rw [canonRef_zero] at hr
    cases hl : T.lookup i with
    | none => rw [hl] at hr; cases hr
    | some v =>
      rw [hl] at hr
      cases hr
      exact ⟨hl, by simp, fun q _ hq => by simpa using hq⟩
  | k + 1, i, key, h, hr => by
    rw [canonRef_succ] at hr
    split_ifs at hr with hl hrt
    · obtain ⟨hlk, hki, huniq⟩ := canonRef_eq_leaf T hr
      refine ⟨hlk, by rw [div_two_pow_succ, hki]; omega, fun q hq hqi => ?_⟩
      rcases mem_child_iff.mp hqi with hq2 | hq2
      · have hempty := (canonRef_eq_empty_iff T).mp (Ref.isEmpty_iff.mp hl)
        exact absurd (mem_cellOf.mpr ⟨Finmap.mem_keys.mpr hq, hq2⟩) (hempty ▸ Finset.notMem_empty q)
      · exact huniq q hq hq2
    · obtain ⟨hlk, hki, huniq⟩ := canonRef_eq_leaf T hr
      refine ⟨hlk, by rw [div_two_pow_succ, hki]; omega, fun q hq hqi => ?_⟩
      rcases mem_child_iff.mp hqi with hq2 | hq2
      · exact huniq q hq hq2
      · have hempty := (canonRef_eq_empty_iff T).mp (Ref.isEmpty_iff.mp hrt)
        exact absurd (mem_cellOf.mpr ⟨Finmap.mem_keys.mpr hq, hq2⟩) (hempty ▸ Finset.notMem_empty q)

/-- A canonical branch ref names the lowest branching cell holding the keys of its cell, with
that cell's root. -/
theorem canonRef_eq_branch (T : Finmap fun _ : ℕ => H) :
    ∀ {k i : ℕ} {lv : UInt16} {pre : ℕ} {h : H}, canonRef node emptyLeaf p T k i = .branch lv pre h →
      ∃ h' j', 1 ≤ h' ∧ h' ≤ k ∧ j' / 2 ^ (k - h') = i ∧ lv = (p.depth - h').toUInt16 ∧
        pre = j' * 2 ^ h' ∧ h = CompleteTree.root node (leafFn emptyLeaf T) h' j' ∧
        Branching T (h' - 1) j' ∧ ∀ q ∈ T, q / 2 ^ k = i → q / 2 ^ h' = j'
  | 0, i, lv, pre, h, hr => by
    rw [canonRef_zero] at hr
    cases hl : T.lookup i <;> rw [hl] at hr <;> cases hr
  | k + 1, i, lv, pre, h, hr => by
    rw [canonRef_succ] at hr
    split_ifs at hr with hl hrt
    · obtain ⟨h', j', h1, hk, hj, hlv, hpre, hh, hbr, hkeys⟩ := canonRef_eq_branch T hr
      refine ⟨h', j', h1, by omega, ?_, hlv, hpre, hh, hbr, fun q hq hqi => ?_⟩
      · rw [show k + 1 - h' = k - h' + 1 by omega, div_two_pow_succ, hj]
        omega
      · rcases mem_child_iff.mp hqi with hq2 | hq2
        · have hempty := (canonRef_eq_empty_iff T).mp (Ref.isEmpty_iff.mp hl)
          exact absurd (mem_cellOf.mpr ⟨Finmap.mem_keys.mpr hq, hq2⟩)
            (hempty ▸ Finset.notMem_empty q)
        · exact hkeys q hq hq2
    · obtain ⟨h', j', h1, hk, hj, hlv, hpre, hh, hbr, hkeys⟩ := canonRef_eq_branch T hr
      refine ⟨h', j', h1, by omega, ?_, hlv, hpre, hh, hbr, fun q hq hqi => ?_⟩
      · rw [show k + 1 - h' = k - h' + 1 by omega, div_two_pow_succ, hj]
        omega
      · rcases mem_child_iff.mp hqi with hq2 | hq2
        · exact hkeys q hq hq2
        · have hempty := (canonRef_eq_empty_iff T).mp (Ref.isEmpty_iff.mp hrt)
          exact absurd (mem_cellOf.mpr ⟨Finmap.mem_keys.mpr hq, hq2⟩)
            (hempty ▸ Finset.notMem_empty q)
    · cases hr
      refine ⟨k + 1, i, by omega, le_rfl, by simp, rfl, rfl, rfl, ?_, fun q _ hq => hq⟩
      exact ⟨(canonRef_ne_empty_iff T).mp (by simpa using hl),
        (canonRef_ne_empty_iff T).mp (by simpa using hrt)⟩

theorem canonRef_eq_leaf_of_unique (T : Finmap fun _ : ℕ => H) {g i k : ℕ} {h : H}
    (hk : T.lookup k = some h) (hki : k / 2 ^ g = i) (huniq : ∀ q ∈ T, q / 2 ^ g = i → q = k) :
    canonRef node emptyLeaf p T g i = .leaf k h := by
  rw [← hki, canonRef_of_unique T fun q hq hqg => huniq q hq (hqg.trans hki), canonRef_zero, hk]

theorem toNat_level (hw : p.depth ≤ 2 ^ 16) {h' : ℕ} (h1 : 1 ≤ h') :
    ((p.depth - h').toUInt16).toNat = p.depth - h' := by
  have : p.depth - h' < 2 ^ 16 := by omega
  simpa using this

/-- **Memoized hashes.** The hash of a cell's canonical ref, lifted to the cell, is the cell's root
in the complete tree of the content. -/
theorem refSubtreeHash_canonRef (hw : p.depth ≤ 2 ^ 16) (T : Finmap fun _ : ℕ => H) {k i : ℕ}
    (hk : k ≤ p.depth) :
    refSubtreeHash node emptyLeaf p (canonRef node emptyLeaf p T k i) (p.depth - k) =
      CompleteTree.root node (leafFn emptyLeaf T) k i := by
  cases hr : canonRef node emptyLeaf p T k i with
  | empty =>
    have hcell := (canonRef_eq_empty_iff T).mp hr
    rw [refSubtreeHash, show p.depth - (p.depth - k) = k by omega]
    refine (root_eq_emptyRoot node fun q hq => ?_).symm
    have hq : q ∉ T := fun hmem =>
      Finset.notMem_empty q (hcell ▸ mem_cellOf.mpr ⟨Finmap.mem_keys.mpr hmem, hq⟩)
    simp [leafFn, Finmap.lookup_eq_none.mpr hq]
  | leaf key h =>
    obtain ⟨hlk, hki, huniq⟩ := canonRef_eq_leaf T hr
    have hspine : spineHash node emptyLeaf key
        (CompleteTree.root node (leafFn emptyLeaf T) 0 (key / 2 ^ 0)) 0 (0 + k) =
        CompleteTree.root node (leafFn emptyLeaf T) (0 + k) (key / 2 ^ (0 + k)) :=
      spineHash_eq node emptyLeaf fun q hq hne => by
        have hq' : q ∉ T := fun hmem => hne (by rw [huniq q hmem (by simpa [hki] using hq)])
        simp [leafFn, Finmap.lookup_eq_none.mpr hq']
    rw [refSubtreeHash, show p.depth - (p.depth - k) = k by omega]
    have hleaf : CompleteTree.root node (leafFn emptyLeaf T) 0 (key / 2 ^ 0) = h := by
      rw [pow_zero, Nat.div_one, CompleteTree.root, leafFn, hlk, Option.getD_some]
    rw [hleaf, Nat.zero_add, hki] at hspine
    exact hspine
  | branch lv pre h =>
    obtain ⟨h', j', h1, hk', hj, hlv, hpre, hh, -, hkeys⟩ := canonRef_eq_branch T hr
    have hpj : pre / 2 ^ h' = j' := by rw [hpre, Nat.mul_div_cancel _ (Nat.two_pow_pos h')]
    have hspine : spineHash node emptyLeaf pre
        (CompleteTree.root node (leafFn emptyLeaf T) h' (pre / 2 ^ h')) h' (h' + (k - h')) =
        CompleteTree.root node (leafFn emptyLeaf T) (h' + (k - h')) (pre / 2 ^ (h' + (k - h'))) :=
      spineHash_eq node emptyLeaf fun q hq hne => by
        have hqi : q / 2 ^ k = i := by
          rw [show k = h' + (k - h') by omega, hq, div_two_pow_add, hpj, hj]
        have hq' : q ∉ T := fun hmem => hne (by rw [hkeys q hmem hqi, hpj])
        simp [leafFn, Finmap.lookup_eq_none.mpr hq']
    rw [refSubtreeHash, hlv, toNat_level hw h1, show p.depth - (p.depth - h') = h' by omega,
      show p.depth - (p.depth - k) = h' + (k - h') by omega, hh, ← hpj, hspine, div_two_pow_add,
      hpj, hj, show h' + (k - h') = k by omega]

end Canon

/-! ## Key bits -/

section Bits

variable {p : SmtParams}

theorem testBit_eq_false_of_depth_le {a i : ℕ} (ha : a < 2 ^ p.depth) (hi : p.depth ≤ i) :
    a.testBit i = false :=
  Nat.testBit_lt_two_pow (lt_of_lt_of_le ha (Nat.pow_le_pow_right Nat.zero_lt_two hi))

/-- Two keys of the tree share their cell of height `depth - limit` when their first `limit`
MSB-first bits agree. -/
theorem div_eq_iff_levelBit {a b limit : ℕ} (ha : a < 2 ^ p.depth) (hb : b < 2 ^ p.depth)
    (hlim : limit ≤ p.depth) :
    a / 2 ^ (p.depth - limit) = b / 2 ^ (p.depth - limit) ↔
      ∀ l < limit, levelBit p a l = levelBit p b l := by
  rw [div_two_pow_eq_iff_testBit]
  constructor
  · intro h l hl
    exact h _ (by omega)
  · intro h i hi
    by_cases hid : i < p.depth
    · have hl := h (p.depth - 1 - i) (by omega)
      rwa [levelBit, levelBit, show p.depth - 1 - (p.depth - 1 - i) = i by omega] at hl
    · rw [testBit_eq_false_of_depth_le ha (by omega), testBit_eq_false_of_depth_le hb (by omega)]

theorem divergeBefore_eq_none {key pre limit : ℕ} (h : divergeBefore p key pre limit = none)
    (hkey : key < 2 ^ p.depth) (hpre : pre < 2 ^ p.depth) (hlim : limit ≤ p.depth) :
    key / 2 ^ (p.depth - limit) = pre / 2 ^ (p.depth - limit) := by
  rw [divergeBefore, List.find?_range_eq_none] at h
  exact (div_eq_iff_levelBit hkey hpre hlim).mpr fun l hl => by simpa using h l hl

theorem divergeBefore_eq_some {key pre limit d : ℕ} (h : divergeBefore p key pre limit = some d)
    (hkey : key < 2 ^ p.depth) (hpre : pre < 2 ^ p.depth) (hlim : limit ≤ p.depth) :
    d < limit ∧ key / 2 ^ (p.depth - d) = pre / 2 ^ (p.depth - d) ∧
      key / 2 ^ (p.depth - (d + 1)) ≠ pre / 2 ^ (p.depth - (d + 1)) := by
  rw [divergeBefore, List.find?_range_eq_some] at h
  obtain ⟨hne, hd, hbefore⟩ := h
  have hd : d < limit := List.mem_range.mp hd
  refine ⟨hd, (div_eq_iff_levelBit hkey hpre (by omega)).mpr fun l hl => by
    simpa using hbefore l hl, fun heq => ?_⟩
  have := (div_eq_iff_levelBit hkey hpre (by omega)).mp heq d (by omega)
  simp [this] at hne

theorem firstDiffLevel_eq (a b : ℕ) : firstDiffLevel p a b = divergeBefore p a b p.depth := rfl

theorem exists_firstDiffLevel {a b : ℕ} (hab : a ≠ b) (ha : a < 2 ^ p.depth)
    (hb : b < 2 ^ p.depth) : ∃ d, firstDiffLevel p a b = some d := by
  rw [firstDiffLevel_eq, Option.ne_none_iff_exists'.symm]
  intro h
  have := divergeBefore_eq_none h ha hb le_rfl
  simp at this
  exact hab this

end Bits

/-! ## Node rows at cells -/

section Cells

variable {H : Type} {node : H → H → H} {emptyLeaf : H} {p : SmtParams}

/-- The node row key of the cell of height `h` at `j`: its level and its prefix. -/
def cellKey (p : SmtParams) (h j : ℕ) : UInt16 × ℕ := ((p.depth - h).toUInt16, j * 2 ^ h)

theorem canonNodeAt_cellKey (hw : p.depth ≤ 2 ^ 16) (T : Finmap fun _ : ℕ => H) {h j : ℕ}
    (h1 : 1 ≤ h) (hh : h ≤ p.depth) (hj : j < 2 ^ (p.depth - h)) :
    canonNodeAt node emptyLeaf p T (cellKey p h j) =
      if Branching T (h - 1) j then
        some (canonRef node emptyLeaf p T (h - 1) (2 * j), canonRef node emptyLeaf p T (h - 1) (2 * j + 1))
      else none := by
  have hlv : ((p.depth - h).toUInt16).toNat = p.depth - h := toNat_level hw h1
  have hbound : j * 2 ^ h < 2 ^ p.depth := by
    calc j * 2 ^ h < 2 ^ (p.depth - h) * 2 ^ h := Nat.mul_lt_mul_of_pos_right hj (Nat.two_pow_pos h)
      _ = 2 ^ p.depth := by rw [← Nat.pow_add, Nat.sub_add_cancel hh]
  have hmod : j * 2 ^ h % 2 ^ h = 0 := Nat.mul_mod_left _ _
  have hdiv : j * 2 ^ h / 2 ^ h = j := Nat.mul_div_cancel _ (Nat.two_pow_pos h)
  unfold canonNodeAt cellKey
  dsimp only
  rw [hlv, show p.depth - (p.depth - h) = h by omega, hdiv]
  by_cases hb : Branching T (h - 1) j
  · rw [if_pos ⟨by omega, hmod, hbound, hb⟩, if_pos hb]
  · rw [if_neg fun hc => hb hc.2.2.2, if_neg hb]

theorem canonNodeAt_ne_none (hw : p.depth ≤ 2 ^ 16) {T : Finmap fun _ : ℕ => H} {c : UInt16 × ℕ}
    (hc : canonNodeAt node emptyLeaf p T c ≠ none) :
    ∃ h j, 1 ≤ h ∧ h ≤ p.depth ∧ j < 2 ^ (p.depth - h) ∧ c = cellKey p h j := by
  unfold canonNodeAt at hc
  dsimp only at hc
  split_ifs at hc with hcond
  · obtain ⟨hlt, hmod, hlt2, -⟩ := hcond
    set k := p.depth - c.1.toNat
    refine ⟨k, c.2 / 2 ^ k, by omega, by omega, ?_, ?_⟩
    · rw [Nat.div_lt_iff_lt_mul (Nat.two_pow_pos k), ← Nat.pow_add,
        show p.depth - k + k = p.depth by omega]
      exact hlt2
    · have h1 : (p.depth - k).toUInt16 = c.1 := by
        rw [show p.depth - k = c.1.toNat by omega]
        simp
      rw [cellKey, h1, Nat.div_mul_cancel (Nat.dvd_of_mod_eq_zero hmod)]
  · exact absurd rfl hc

theorem cellKey_inj (hw : p.depth ≤ 2 ^ 16) {h j h' j' : ℕ} (h1 : 1 ≤ h) (h1' : 1 ≤ h')
    (hh : h ≤ p.depth) (hh' : h' ≤ p.depth) (heq : cellKey p h j = cellKey p h' j') :
    h = h' ∧ j = j' := by
  obtain ⟨hlv, hpre⟩ := Prod.mk.inj heq
  have hl := congrArg UInt16.toNat hlv
  rw [toNat_level hw h1, toNat_level hw h1'] at hl
  obtain rfl : h = h' := by omega
  exact ⟨rfl, Nat.eq_of_mul_eq_mul_right (Nat.two_pow_pos h) hpre⟩

theorem canonNodeAt_congr (hw : p.depth ≤ 2 ^ 16) {T T' : Finmap fun _ : ℕ => H}
    {c : UInt16 × ℕ}
    (hagree : ∀ h j, 1 ≤ h → h ≤ p.depth → j < 2 ^ (p.depth - h) → c = cellKey p h j →
      ∀ q, q / 2 ^ h = j → T.lookup q = T'.lookup q) :
    canonNodeAt node emptyLeaf p T c = canonNodeAt node emptyLeaf p T' c := by
  by_cases hc : canonNodeAt node emptyLeaf p T c = none ∧ canonNodeAt node emptyLeaf p T' c = none
  · rw [hc.1, hc.2]
  · have hcell : ∃ h j, 1 ≤ h ∧ h ≤ p.depth ∧ j < 2 ^ (p.depth - h) ∧ c = cellKey p h j := by
      by_cases h0 : canonNodeAt node emptyLeaf p T c = none
      · exact canonNodeAt_ne_none hw fun h0' => hc ⟨h0, h0'⟩
      · exact canonNodeAt_ne_none hw h0
    obtain ⟨h, j, h1, hh, hj, rfl⟩ := hcell
    have hcells : ∀ x, x / 2 ^ (h - 1) = 2 * j ∨ x / 2 ^ (h - 1) = 2 * j + 1 →
        T.lookup x = T'.lookup x := fun x hx =>
      hagree h j h1 hh hj rfl x (by
        rw [show h = h - 1 + 1 by omega, mem_child_iff]
        exact hx)
    have hkeys : ∀ i, i / 2 = j → cellOf T.keys (h - 1) i = cellOf T'.keys (h - 1) i := by
      intro i hi
      ext x
      simp only [mem_cellOf, Finmap.mem_keys]
      constructor
      · rintro ⟨hx, rfl⟩
        exact ⟨Finmap.mem_iff.mpr (by
          rw [← hcells x (by omega)]
          exact Finmap.mem_iff.mp hx), rfl⟩
      · rintro ⟨hx, rfl⟩
        exact ⟨Finmap.mem_iff.mpr (by
          rw [hcells x (by omega)]
          exact Finmap.mem_iff.mp hx), rfl⟩
    have hbr : Branching T (h - 1) j ↔ Branching T' (h - 1) j := by
      rw [Branching, Branching, hkeys (2 * j) (by omega), hkeys (2 * j + 1) (by omega)]
    rw [canonNodeAt_cellKey hw T h1 hh hj, canonNodeAt_cellKey hw T' h1 hh hj,
      canonRef_congr fun x hx => hcells x (.inl hx),
      canonRef_congr fun x hx => hcells x (.inr hx)]
    simp only [hbr]

theorem div_two_pow_lt {kb x : ℕ} (hkb : kb < 2 ^ p.depth) (hx : x ≤ p.depth) :
    kb / 2 ^ x < 2 ^ (p.depth - x) := by
  rw [Nat.div_lt_iff_lt_mul (Nat.two_pow_pos x), ← Nat.pow_add, Nat.sub_add_cancel hx]
  exact hkb

theorem canonNodeAt_path_none (hw : p.depth ≤ 2 ^ 16) {T : Finmap fun _ : ℕ => H} {kb x : ℕ}
    (hkb : kb < 2 ^ p.depth) (h1 : 1 ≤ x) (hx : x ≤ p.depth)
    (hnb : ¬ Branching T (x - 1) (kb / 2 ^ x)) :
    canonNodeAt node emptyLeaf p T (cellKey p x (kb / 2 ^ x)) = none := by
  rw [canonNodeAt_cellKey hw T h1 hx (div_two_pow_lt hkb hx), if_neg hnb]

end Cells

end Vos.Storage
