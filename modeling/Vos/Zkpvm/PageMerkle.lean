import Mathlib.Data.Finmap
import Mathlib.Data.Finset.Sort
import Vos.Lib.FinmapGraph

/-!
# zkpvm — the page Merkle tree and its boundary multiproof

`zkpvm/src/page_merkle.rs`: the RAM of the zkVM is committed as a complete binary tree of depth
`DEPTH = 20` over page indices. A leaf is the hash of a page, an absent page holds the empty leaf,
and an inner node hashes its two children. A segment proves a boundary multiproof: the roots
before and after are recomputed bottom-up from the touched pages, the untouched subtrees entering
as witnesses shared by both passes.

* `defaultHash` (`default_hashes`), `subtreeRoot` (which short-circuits subtrees without a stored
  leaf), `sparseRoot`;
* `MergeNode`, `MerkleMultiproof`, `mergeLevel` (one level of the schedule, pairing adjacent
  siblings and taking a lone item's sibling from `subtree_root`), `mergeLevels`,
  `buildMultiproofFromLeaves`;
* the complete tree `treeRoot` and the ancestors of the touched pages `ancestorsAt`,
  `ancestorSchedule`, which say what the builder computes;
* `subtreeRoot_eq`: the short-circuit is the complete tree, by the default-hash lemma
  `treeRoot_eq_defaultHash`;
* `LevelSpec`, `levelSpec_mergeLevel`: a level turns the items of the ancestors at one height into
  those one height up;
* **`buildMultiproofFromLeaves_spec`**: the roots are the complete trees' roots, the merges are
  the strict ancestors of the touched pages in schedule order, each hashing its children, and
  every witness is the untouched subtree's root in both passes.

Page indices (`u32`) and node indices (`u64`) are natural numbers: below `2 ^ DEPTH` none of the
source's casts and shifts loses a bit. `idx & 1`, `idx >> 1` and `idx ^ 1` are written with `% 2`,
`/ 2` and `sibling`. The hash functions are parameters; `emptyLeaf` is the hash of the zero page.
-/

namespace Vos.Zkpvm

/-- `ADDR_BITS`. -/
def addrBits : ℕ := 32

/-- `PAGE_BITS`. -/
def pageBits : ℕ := 12

/-- `DEPTH`: one leaf per page of the `u32` address space. -/
def depth : ℕ := addrBits - pageBits

variable {H : Type} (node : H → H → H) (emptyLeaf : H)

/-! ## Roots -/

/-- The root of an all-absent subtree of height `k`: `default_hashes()[DEPTH - k]`. -/
def defaultHash : ℕ → H
  | 0 => emptyLeaf
  | k + 1 => node (defaultHash k) (defaultHash k)

/-- `subtree_root` at height `k`, level `DEPTH - k`: a subtree without a stored leaf is the
default subtree, another is hashed from its halves. -/
def subtreeRootAt (leaves : Finmap fun _ : ℕ => H) : ℕ → ℕ → H
  | 0, idx => (leaves.lookup idx).getD emptyLeaf
  | k + 1, idx =>
    if ∃ p ∈ leaves.keys, idx * 2 ^ (k + 1) ≤ p ∧ p < (idx + 1) * 2 ^ (k + 1) then
      node (subtreeRootAt leaves k (2 * idx)) (subtreeRootAt leaves k (2 * idx + 1))
    else defaultHash node emptyLeaf (k + 1)

/-- `subtree_root(level, node_idx, leaves)`. -/
def subtreeRoot (leaves : Finmap fun _ : ℕ => H) (level idx : ℕ) : H :=
  subtreeRootAt node emptyLeaf leaves (depth - level) idx

/-- `sparse_root`. -/
def sparseRoot (leaves : Finmap fun _ : ℕ => H) : H := subtreeRoot node emptyLeaf leaves 0 0

/-! ## The multiproof -/

/-- `Child`: a child computed by a lower row, or an untouched subtree given as a witness. -/
inductive Child (H : Type) where
  | computed
  | witness (w : H)
  deriving DecidableEq, Repr

/-- `MergeNode`. -/
structure MergeNode (H : Type) where
  level : ℕ
  index : ℕ
  left : Child H
  right : Child H
  childBefore : H × H
  childAfter : H × H
  hashBefore : H
  hashAfter : H
  deriving DecidableEq, Repr

/-- `MerkleMultiproof`. -/
structure MerkleMultiproof (H : Type) where
  leaves : List (ℕ × H × H)
  merges : List (MergeNode H)
  rootBefore : H
  rootAfter : H

/-- `idx ^ 1`, the other child of the same parent. -/
def sibling (idx : ℕ) : ℕ := if idx % 2 = 0 then idx + 1 else idx - 1

/-- A lone item at `level`: its sibling subtree is a witness, read from the entering leaves. -/
def witnessMerge (entering : Finmap fun _ : ℕ => H) (level : ℕ) (item : ℕ × H × H) :
    MergeNode H × (ℕ × H × H) :=
  let (idx, hb, ha) := item
  let w := subtreeRoot node emptyLeaf entering level (sibling idx)
  if idx % 2 = 0 then
    (⟨level - 1, idx / 2, .computed, .witness w, (hb, w), (ha, w), node hb w, node ha w⟩,
      (idx / 2, node hb w, node ha w))
  else
    (⟨level - 1, idx / 2, .witness w, .computed, (w, hb), (w, ha), node w hb, node w ha⟩,
      (idx / 2, node w hb, node w ha))

/-- One pass of the `while` loop at `level`: two adjacent siblings are merged, a lone item takes
its sibling as a witness. -/
def mergeLevel (entering : Finmap fun _ : ℕ => H) (level : ℕ) :
    List (ℕ × H × H) → List (MergeNode H) × List (ℕ × H × H)
  | [] => ([], [])
  | [item] =>
    let (m, parent) := witnessMerge node emptyLeaf entering level item
    ([m], [parent])
  | (idx, hb, ha) :: (idx₂, hb₂, ha₂) :: rest =>
    if idx % 2 = 0 ∧ idx₂ = idx + 1 then
      let pb := node hb hb₂
      let pa := node ha ha₂
      let (ms, next) := mergeLevel entering level rest
      (⟨level - 1, idx / 2, .computed, .computed, (hb, hb₂), (ha, ha₂), pb, pa⟩ :: ms,
        (idx / 2, pb, pa) :: next)
    else
      let (m, parent) := witnessMerge node emptyLeaf entering level (idx, hb, ha)
      let (ms, next) := mergeLevel entering level ((idx₂, hb₂, ha₂) :: rest)
      (m :: ms, parent :: next)

/-- `for level in (1..=levels).rev()`: the merges of every level, bottom-up, and the items left. -/
def mergeLevels (entering : Finmap fun _ : ℕ => H) :
    ℕ → List (ℕ × H × H) → List (MergeNode H) × List (ℕ × H × H)
  | 0, items => ([], items)
  | level + 1, items =>
    let (ms, next) := mergeLevel node emptyLeaf entering (level + 1) items
    let (ms', top) := mergeLevels entering level next
    (ms ++ ms', top)

/-- `build_multiproof_from_leaves`; `none` where the source's `level_items[0]` would panic. -/
def buildMultiproofFromLeaves (before after : Finmap fun _ : ℕ => H) (touched : Finset ℕ) :
    Option (MerkleMultiproof H) :=
  let leaves := (touched.sort (· ≤ ·)).map fun p =>
    (p, (before.lookup p).getD emptyLeaf, (after.lookup p).getD emptyLeaf)
  if leaves = [] then
    some ⟨leaves, [], sparseRoot node emptyLeaf before, sparseRoot node emptyLeaf after⟩
  else
    let (merges, top) := mergeLevels node emptyLeaf before depth leaves
    match top with
    | (_, rootBefore, rootAfter) :: _ => some ⟨leaves, merges, rootBefore, rootAfter⟩
    | [] => none

/-! ## What the builder computes -/

/-- The root of the complete subtree of height `k` at index `idx` over the leaves `leaf`. -/
def treeRoot (leaf : ℕ → H) : ℕ → ℕ → H
  | 0, idx => leaf idx
  | k + 1, idx => node (treeRoot leaf k (2 * idx)) (treeRoot leaf k (2 * idx + 1))

/-- The leaf of a page: its stored hash, or the empty leaf. -/
def leafOf (leaves : Finmap fun _ : ℕ => H) (p : ℕ) : H := (leaves.lookup p).getD emptyLeaf

/-- The ancestors at height `k` of the touched pages, ascending. -/
def ancestorsAt (touched : Finset ℕ) (k : ℕ) : List ℕ :=
  (touched.image (· / 2 ^ k)).sort (· ≤ ·)

/-- Every strict ancestor `(level, index)` of the touched pages, level descending, index
ascending. -/
def ancestorSchedule (touched : Finset ℕ) : List (ℕ × ℕ) :=
  (List.range depth).reverse.flatMap fun level =>
    (ancestorsAt touched (depth - level)).map (level, ·)

/-! ## The complete tree and its short-circuit -/

theorem div_eq_iff_mem_subtree {idx k p : ℕ} :
    p / 2 ^ k = idx ↔ idx * 2 ^ k ≤ p ∧ p < (idx + 1) * 2 ^ k := by
  have hpos := Nat.two_pow_pos k
  rw [Nat.div_eq_iff hpos, Nat.add_mul, Nat.one_mul]
  omega

theorem div_two_pow_succ (p k : ℕ) : p / 2 ^ (k + 1) = p / 2 ^ k / 2 := by
  rw [pow_succ, Nat.div_div_eq_div_mul]

theorem treeRoot_congr {leaf leaf' : ℕ → H} :
    ∀ {k idx : ℕ}, (∀ p, p / 2 ^ k = idx → leaf p = leaf' p) →
      treeRoot node leaf k idx = treeRoot node leaf' k idx
  | 0, idx, h => h idx (by simp)
  | k + 1, idx, h => by
    have hleft : ∀ p, p / 2 ^ k = 2 * idx → leaf p = leaf' p := fun p hp =>
      h p (by rw [div_two_pow_succ, hp]; omega)
    have hright : ∀ p, p / 2 ^ k = 2 * idx + 1 → leaf p = leaf' p := fun p hp =>
      h p (by rw [div_two_pow_succ, hp]; omega)
    rw [treeRoot, treeRoot, treeRoot_congr hleft, treeRoot_congr hright]

theorem treeRoot_const (k idx : ℕ) :
    treeRoot node (fun _ => emptyLeaf) k idx = defaultHash node emptyLeaf k := by
  induction k generalizing idx with
  | zero => rfl
  | succ k ih => rw [treeRoot, defaultHash, ih, ih]

/-- **The default-hash lemma**: a subtree holding only empty leaves is the default subtree. -/
theorem treeRoot_eq_defaultHash {leaf : ℕ → H} {k idx : ℕ}
    (h : ∀ p, p / 2 ^ k = idx → leaf p = emptyLeaf) :
    treeRoot node leaf k idx = defaultHash node emptyLeaf k :=
  (treeRoot_congr node h).trans (treeRoot_const node emptyLeaf k idx)

/-- **`subtree_root` is the root of the complete tree**: its short-circuit only skips subtrees
without a stored leaf. -/
theorem subtreeRootAt_eq (leaves : Finmap fun _ : ℕ => H) :
    ∀ k idx, subtreeRootAt node emptyLeaf leaves k idx = treeRoot node (leafOf emptyLeaf leaves) k idx
  | 0, _ => rfl
  | k + 1, idx => by
    rw [subtreeRootAt]
    split_ifs with hstored
    · rw [subtreeRootAt_eq leaves k, subtreeRootAt_eq leaves k, treeRoot]
    · -- no stored leaf below `idx`: every leaf there is empty
      refine (treeRoot_eq_defaultHash node emptyLeaf fun p hp => ?_).symm
      have hp' : p ∉ leaves := fun hmem =>
        hstored ⟨p, Finmap.mem_keys.mpr hmem, div_eq_iff_mem_subtree.mp hp⟩
      simp [leafOf, Finmap.lookup_eq_none.mpr hp']

theorem subtreeRoot_eq (leaves : Finmap fun _ : ℕ => H) (level idx : ℕ) :
    subtreeRoot node emptyLeaf leaves level idx =
      treeRoot node (leafOf emptyLeaf leaves) (depth - level) idx :=
  subtreeRootAt_eq node emptyLeaf leaves _ idx

theorem sparseRoot_eq (leaves : Finmap fun _ : ℕ => H) :
    sparseRoot node emptyLeaf leaves = treeRoot node (leafOf emptyLeaf leaves) depth 0 :=
  subtreeRoot_eq node emptyLeaf leaves 0 0

/-! ## One level of the schedule -/

theorem sibling_two_mul (j : ℕ) : sibling (2 * j) = 2 * j + 1 := by
  simp [sibling]

theorem sibling_two_mul_add_one (j : ℕ) : sibling (2 * j + 1) = 2 * j := by
  simp [sibling, Nat.add_mod]

theorem le_sibling {m i : ℕ} (h : 2 * m ≤ i) : 2 * m ≤ sibling i := by
  unfold sibling
  split <;> omega

theorem mergeLevel_pair {entering : Finmap fun _ : ℕ => H} {level idx idx₂ : ℕ} {hb ha hb₂ ha₂ : H}
    {rest : List (ℕ × H × H)} (h : idx % 2 = 0 ∧ idx₂ = idx + 1) :
    mergeLevel node emptyLeaf entering level ((idx, hb, ha) :: (idx₂, hb₂, ha₂) :: rest) =
      (⟨level - 1, idx / 2, .computed, .computed, (hb, hb₂), (ha, ha₂), node hb hb₂, node ha ha₂⟩ ::
          (mergeLevel node emptyLeaf entering level rest).1,
        (idx / 2, node hb hb₂, node ha ha₂) :: (mergeLevel node emptyLeaf entering level rest).2) := by
  rw [mergeLevel, if_pos h]

theorem mergeLevel_lone {entering : Finmap fun _ : ℕ => H} {level idx idx₂ : ℕ} {hb ha hb₂ ha₂ : H}
    {rest : List (ℕ × H × H)} (h : ¬(idx % 2 = 0 ∧ idx₂ = idx + 1)) :
    mergeLevel node emptyLeaf entering level ((idx, hb, ha) :: (idx₂, hb₂, ha₂) :: rest) =
      ((witnessMerge node emptyLeaf entering level (idx, hb, ha)).1 ::
          (mergeLevel node emptyLeaf entering level ((idx₂, hb₂, ha₂) :: rest)).1,
        (witnessMerge node emptyLeaf entering level (idx, hb, ha)).2 ::
          (mergeLevel node emptyLeaf entering level ((idx₂, hb₂, ha₂) :: rest)).2) := by
  rw [mergeLevel, if_neg h]

section Schedule

variable (before after : Finmap fun _ : ℕ => H)

/-- The item of the subtree `idx` at height `k`: its index and its roots before and after. -/
def item (k idx : ℕ) : ℕ × H × H :=
  (idx, treeRoot node (leafOf emptyLeaf before) k idx, treeRoot node (leafOf emptyLeaf after) k idx)

@[simp] theorem item_fst (k idx : ℕ) : (item node emptyLeaf before after k idx).1 = idx := rfl

/-- A merge hashes its children in both passes. -/
def HashesOk (m : MergeNode H) : Prop :=
  node m.childBefore.1 m.childBefore.2 = m.hashBefore ∧
    node m.childAfter.1 m.childAfter.2 = m.hashAfter

/-- A witness child carries one value in both passes: the root of its subtree, at height `k`,
before and after. -/
def WitnessOk (k : ℕ) (m : MergeNode H) : Prop :=
  (∀ w, m.left = .witness w → m.childBefore.1 = w ∧ m.childAfter.1 = w ∧
      w = treeRoot node (leafOf emptyLeaf before) k (2 * m.index) ∧
      w = treeRoot node (leafOf emptyLeaf after) k (2 * m.index)) ∧
  (∀ w, m.right = .witness w → m.childBefore.2 = w ∧ m.childAfter.2 = w ∧
      w = treeRoot node (leafOf emptyLeaf before) k (2 * m.index + 1) ∧
      w = treeRoot node (leafOf emptyLeaf after) k (2 * m.index + 1))

/-- What one level makes of the items of the indices `S` at height `k`: the items of their
parents, ascending, one merge each at the parent's position, hashing its children, with sound
witnesses. -/
structure LevelSpec (k : ℕ) (S : List ℕ) (merges : List (MergeNode H))
    (next : List (ℕ × H × H)) : Prop where
  items : next = (next.map Prod.fst).map (item node emptyLeaf before after (k + 1))
  sorted : (next.map Prod.fst).Pairwise (· < ·)
  mem : ∀ j, j ∈ next.map Prod.fst ↔ ∃ i ∈ S, i / 2 = j
  positions : merges.map (fun m => (m.level, m.index)) = (next.map Prod.fst).map (depth - (k + 1), ·)
  hashes : ∀ m ∈ merges, HashesOk node m
  witnesses : ∀ m ∈ merges, WitnessOk node emptyLeaf before after k m

theorem levelSpec_nil (k : ℕ) : LevelSpec node emptyLeaf before after k [] [] [] where
  items := rfl
  sorted := List.Pairwise.nil
  mem j := by simp
  positions := rfl
  hashes m hm := absurd hm List.not_mem_nil
  witnesses m hm := absurd hm List.not_mem_nil

theorem LevelSpec.cons {k j : ℕ} {S S' : List ℕ} {ms : List (MergeNode H)}
    {next : List (ℕ × H × H)} {m : MergeNode H} (h : LevelSpec node emptyLeaf before after k S ms next)
    (hbound : ∀ i ∈ S, 2 * (j + 1) ≤ i)
    (hparents : ∀ j', (∃ i ∈ S', i / 2 = j') ↔ j = j' ∨ ∃ i ∈ S, i / 2 = j')
    (hpos : (m.level, m.index) = (depth - (k + 1), j))
    (hhash : HashesOk node m) (hwit : WitnessOk node emptyLeaf before after k m) :
    LevelSpec node emptyLeaf before after k S' (m :: ms)
      (item node emptyLeaf before after (k + 1) j :: next) where
  items := by
    rw [List.map_cons, List.map_cons, ← h.items]
    rfl
  sorted := by
    rw [List.map_cons, item_fst]
    refine List.Pairwise.cons (fun j' hj' => ?_) h.sorted
    obtain ⟨i, hi, rfl⟩ := (h.mem j').mp hj'
    have := hbound i hi
    omega
  mem j' := by
    rw [List.map_cons, item_fst, List.mem_cons, h.mem, hparents, eq_comm]
  positions := by
    rw [List.map_cons, List.map_cons, List.map_cons, h.positions, hpos]
    rfl
  hashes m' hm' := by
    rcases List.mem_cons.mp hm' with rfl | hm'
    · exact hhash
    · exact h.hashes m' hm'
  witnesses m' hm' := by
    rcases List.mem_cons.mp hm' with rfl | hm'
    · exact hwit
    · exact h.witnesses m' hm'

/-- **A lone item's merge**: when its sibling subtree is untouched, the witness read from the
entering leaves completes the parent's roots in both passes. -/
theorem witnessMerge_spec {k x : ℕ} (hk : k < depth)
    (huntouched : treeRoot node (leafOf emptyLeaf before) k (sibling x) =
      treeRoot node (leafOf emptyLeaf after) k (sibling x)) :
    let r := witnessMerge node emptyLeaf before (depth - k) (item node emptyLeaf before after k x)
    r.2 = item node emptyLeaf before after (k + 1) (x / 2) ∧
      (r.1.level, r.1.index) = (depth - (k + 1), x / 2) ∧ HashesOk node r.1 ∧
      WitnessOk node emptyLeaf before after k r.1 := by
  intro r
  have hw : subtreeRoot node emptyLeaf before (depth - k) (sibling x) =
      treeRoot node (leafOf emptyLeaf before) k (sibling x) := by
    rw [subtreeRoot_eq, Nat.sub_sub_self hk.le]
  have hlevel : depth - k - 1 = depth - (k + 1) := by omega
  obtain ⟨j, rfl | rfl⟩ : ∃ j, x = 2 * j ∨ x = 2 * j + 1 := ⟨x / 2, by omega⟩
  · -- a left child: the witness is the right subtree
    have hj : 2 * j / 2 = j := by omega
    rw [sibling_two_mul] at hw huntouched
    simp only [r, witnessMerge, item, sibling_two_mul, hw, Nat.mul_mod_right, if_true, hj, hlevel]
    refine ⟨?_, trivial, ⟨rfl, rfl⟩, fun w hw' => ?_, fun w hw' => ?_⟩
    · rw [treeRoot, treeRoot, ← huntouched]
    · cases hw'
    · cases hw'
      exact ⟨rfl, rfl, rfl, huntouched⟩
  · -- a right child: the witness is the left subtree
    have hj : (2 * j + 1) / 2 = j := by omega
    have hodd : (2 * j + 1) % 2 = 1 := by omega
    rw [sibling_two_mul_add_one] at hw huntouched
    simp only [r, witnessMerge, item, sibling_two_mul_add_one, hw, hodd, one_ne_zero, if_false, hj,
      hlevel]
    refine ⟨?_, trivial, ⟨rfl, rfl⟩, fun w hw' => ?_, fun w hw' => ?_⟩
    · rw [treeRoot, treeRoot, ← huntouched]
    · cases hw'
      exact ⟨rfl, rfl, rfl, huntouched⟩
    · cases hw'

theorem sibling_ne (i : ℕ) : sibling i ≠ i := by
  unfold sibling
  split <;> omega

theorem lone_bound {x y : ℕ} (hxy : x < y) (hpair : ¬(x % 2 = 0 ∧ y = x + 1)) :
    2 * (x / 2 + 1) ≤ y := by
  omega

/-- **One level of the schedule**: from the items of an ascending list of indices at height `k`
whose lone members have untouched siblings, `mergeLevel` makes the items of their parents. By
recursion on the list, as `mergeLevel` consumes it: a pair, or a lone item. -/
theorem levelSpec_mergeLevel {k : ℕ} (hk : k < depth) :
    ∀ S : List ℕ, S.Pairwise (· < ·) →
      (∀ i ∈ S, sibling i ∉ S → treeRoot node (leafOf emptyLeaf before) k (sibling i) =
        treeRoot node (leafOf emptyLeaf after) k (sibling i)) →
      LevelSpec node emptyLeaf before after k S
        (mergeLevel node emptyLeaf before (depth - k) (S.map (item node emptyLeaf before after k))).1
        (mergeLevel node emptyLeaf before (depth - k) (S.map (item node emptyLeaf before after k))).2
  | [], _, _ => levelSpec_nil node emptyLeaf before after k
  | [x], _, hsib => by
    obtain ⟨hnext, hpos, hhash, hwit⟩ := witnessMerge_spec node emptyLeaf before after hk
      (hsib x List.mem_cons_self (by simpa using sibling_ne x))
    have heq : mergeLevel node emptyLeaf before (depth - k) ([x].map (item node emptyLeaf before after k)) =
        ([(witnessMerge node emptyLeaf before (depth - k) (item node emptyLeaf before after k x)).1],
          [(witnessMerge node emptyLeaf before (depth - k) (item node emptyLeaf before after k x)).2]) :=
      rfl
    rw [heq, hnext]
    exact (levelSpec_nil node emptyLeaf before after k).cons node emptyLeaf before after
      (fun i hi => absurd hi List.not_mem_nil) (fun j' => by simp) hpos hhash hwit
  | x :: y :: rest, hs, hsib => by
    obtain ⟨hx, hs'⟩ := List.pairwise_cons.mp hs
    have hxy : x < y := hx y List.mem_cons_self
    have hlevel : depth - k - 1 = depth - (k + 1) := by omega
    by_cases hpair : x % 2 = 0 ∧ y = x + 1
    · -- two siblings: merged, both computed
      obtain ⟨hxeven, rfl⟩ := hpair
      obtain ⟨j, rfl⟩ : ∃ j, x = 2 * j := ⟨x / 2, by omega⟩
      have hj : 2 * j / 2 = j := by omega
      have hbound : ∀ i ∈ rest, 2 * (j + 1) ≤ i := fun i hi => by
        have := (List.pairwise_cons.mp hs').1 i hi
        omega
      have ih := levelSpec_mergeLevel hk rest (List.pairwise_cons.mp hs').2 fun i hi hni => by
        refine hsib i (List.mem_cons_of_mem _ (List.mem_cons_of_mem _ hi)) fun hmem => ?_
        have := le_sibling (hbound i hi)
        rcases List.mem_cons.mp hmem with h | hmem
        · omega
        rcases List.mem_cons.mp hmem with h | hmem
        · omega
        · exact hni hmem
      simp only [List.map_cons, item]
      rw [mergeLevel_pair node emptyLeaf ⟨by omega, rfl⟩, hj, hlevel]
      refine ih.cons node emptyLeaf before after hbound (fun j' => ?_) rfl ⟨rfl, rfl⟩ ?_
      · simp only [List.mem_cons, exists_eq_or_imp, hj, show (2 * j + 1) / 2 = j by omega]
        tauto
      · -- both children are computed: no witness
        constructor
        · intro w hw
          cases hw
        · intro w hw
          cases hw
    · -- a lone item: merged with its sibling's subtree as a witness
      have hbound : ∀ i ∈ y :: rest, 2 * (x / 2 + 1) ≤ i := by
        intro i hi
        have := lone_bound hxy hpair
        rcases List.mem_cons.mp hi with rfl | hi
        · exact this
        · have := (List.pairwise_cons.mp hs').1 i hi
          omega
      have hnotsib : sibling x ∉ x :: y :: rest := by
        intro hmem
        rcases List.mem_cons.mp hmem with h | hmem
        · exact sibling_ne x h
        · have := hbound _ hmem
          unfold sibling at this
          split at this <;> omega
      have ih := levelSpec_mergeLevel hk (y :: rest) hs' fun i hi hni => by
        refine hsib i (List.mem_cons_of_mem _ hi) fun hmem => ?_
        rcases List.mem_cons.mp hmem with h | hmem
        · have := le_sibling (hbound i hi)
          omega
        · exact hni hmem
      obtain ⟨hnext, hpos, hhash, hwit⟩ :=
        witnessMerge_spec node emptyLeaf before after hk (hsib x List.mem_cons_self hnotsib)
      have heq : mergeLevel node emptyLeaf before (depth - k)
            ((x :: y :: rest).map (item node emptyLeaf before after k)) =
          ((witnessMerge node emptyLeaf before (depth - k) (item node emptyLeaf before after k x)).1 ::
              (mergeLevel node emptyLeaf before (depth - k)
                ((y :: rest).map (item node emptyLeaf before after k))).1,
            (witnessMerge node emptyLeaf before (depth - k) (item node emptyLeaf before after k x)).2 ::
              (mergeLevel node emptyLeaf before (depth - k)
                ((y :: rest).map (item node emptyLeaf before after k))).2) :=
        mergeLevel_lone node emptyLeaf hpair
      rw [heq, hnext]
      exact ih.cons node emptyLeaf before after hbound
        (fun j' => by simp only [List.mem_cons, exists_eq_or_imp]) hpos hhash hwit

end Schedule

/-! ## The ancestors of the touched pages -/

section Ancestors

variable (touched : Finset ℕ)

theorem mem_ancestorsAt {k i : ℕ} : i ∈ ancestorsAt touched k ↔ ∃ p ∈ touched, p / 2 ^ k = i := by
  simp [ancestorsAt]

theorem pairwise_ancestorsAt (k : ℕ) : (ancestorsAt touched k).Pairwise (· < ·) :=
  (Finset.sortedLT_sort _).pairwise

theorem exists_parent_iff {k j : ℕ} :
    (∃ i ∈ ancestorsAt touched k, i / 2 = j) ↔ j ∈ ancestorsAt touched (k + 1) := by
  simp only [mem_ancestorsAt, div_two_pow_succ]
  constructor
  · rintro ⟨i, ⟨p, hp, rfl⟩, rfl⟩
    exact ⟨p, hp, rfl⟩
  · rintro ⟨p, hp, rfl⟩
    exact ⟨_, ⟨p, hp, rfl⟩, rfl⟩

theorem ancestorsAt_zero : ancestorsAt touched 0 = touched.sort (· ≤ ·) := by
  simp [ancestorsAt]

theorem ancestorsAt_depth (hne : touched.Nonempty) (hrange : ∀ p ∈ touched, p < 2 ^ depth) :
    ancestorsAt touched depth = [0] := by
  have himage : touched.image (· / 2 ^ depth) = {0} := by
    refine Finset.eq_singleton_iff_unique_mem.mpr ⟨?_, fun i hi => ?_⟩
    · obtain ⟨p, hp⟩ := hne
      exact Finset.mem_image.mpr ⟨p, hp, Nat.div_eq_of_lt (hrange p hp)⟩
    · obtain ⟨p, hp, rfl⟩ := Finset.mem_image.mp hi
      exact Nat.div_eq_of_lt (hrange p hp)
  rw [ancestorsAt, himage, Finset.sort_singleton]

theorem treeRoot_eq_of_not_mem_ancestorsAt {before after : Finmap fun _ : ℕ => H}
    (hagree : ∀ p ∉ touched, leafOf emptyLeaf before p = leafOf emptyLeaf after p) {k i : ℕ}
    (hi : i ∉ ancestorsAt touched k) :
    treeRoot node (leafOf emptyLeaf before) k i = treeRoot node (leafOf emptyLeaf after) k i :=
  treeRoot_congr node fun p hp => by
    have hp' : p ∉ touched := fun hmem => hi ((mem_ancestorsAt touched).mpr ⟨p, hmem, hp⟩)
    exact hagree p hp'

theorem mem_ancestorSchedule {l i : ℕ} :
    (l, i) ∈ ancestorSchedule touched ↔ l < depth ∧ ∃ p ∈ touched, p / 2 ^ (depth - l) = i := by
  simp only [ancestorSchedule, List.mem_flatMap, List.mem_reverse, List.mem_range, List.mem_map,
    Prod.mk.injEq, mem_ancestorsAt]
  constructor
  · rintro ⟨l, hl, i, hi, rfl, rfl⟩
    exact ⟨hl, hi⟩
  · rintro ⟨hl, hi⟩
    exact ⟨l, hl, i, hi, rfl, rfl⟩

theorem pairwise_ancestorSchedule :
    (ancestorSchedule touched).Pairwise fun a b => b.1 < a.1 ∨ a.1 = b.1 ∧ a.2 < b.2 := by
  rw [ancestorSchedule, List.pairwise_flatMap]
  refine ⟨fun level _ => ?_, ?_⟩
  · rw [List.pairwise_map]
    exact (pairwise_ancestorsAt touched _).imp fun h => Or.inr ⟨rfl, h⟩
  · rw [List.pairwise_reverse]
    refine List.pairwise_lt_range.imp fun hll' a ha b hb => ?_
    obtain ⟨i, -, rfl⟩ := List.mem_map.mp ha
    obtain ⟨j, -, rfl⟩ := List.mem_map.mp hb
    exact Or.inl hll'

end Ancestors

/-! ## The whole schedule -/

section Build

variable (before after : Finmap fun _ : ℕ => H) (touched : Finset ℕ)

/-- **The level loop**: run from the items of the ancestors at height `DEPTH - L`, the last `L`
levels end at the items of the top ancestors, after the merges of every ancestor above, level by
level. By induction on `L`, each level by `levelSpec_mergeLevel`. -/
theorem mergeLevels_spec (hagree : ∀ p ∉ touched, leafOf emptyLeaf before p = leafOf emptyLeaf after p) :
    ∀ L, L ≤ depth →
      let r := mergeLevels node emptyLeaf before L
        ((ancestorsAt touched (depth - L)).map (item node emptyLeaf before after (depth - L)))
      r.2 = (ancestorsAt touched depth).map (item node emptyLeaf before after depth) ∧
        r.1.map (fun m => (m.level, m.index)) = (List.range L).reverse.flatMap
          (fun level => (ancestorsAt touched (depth - level)).map (level, ·)) ∧
        (∀ m ∈ r.1, HashesOk node m) ∧
        (∀ m ∈ r.1, WitnessOk node emptyLeaf before after (depth - (m.level + 1)) m)
  | 0, _ => by
    refine ⟨rfl, rfl, fun m hm => absurd hm List.not_mem_nil, fun m hm => absurd hm List.not_mem_nil⟩
  | L + 1, hL => by
    intro r
    set k := depth - (L + 1) with hk
    have hkd : k < depth := by omega
    have hlevel : depth - k = L + 1 := by omega
    have hspec := levelSpec_mergeLevel node emptyLeaf before after hkd (ancestorsAt touched k)
      (pairwise_ancestorsAt touched k) fun i _ hni =>
        treeRoot_eq_of_not_mem_ancestorsAt node emptyLeaf touched hagree hni
    rw [hlevel] at hspec
    set step := mergeLevel node emptyLeaf before (L + 1)
      ((ancestorsAt touched k).map (item node emptyLeaf before after k))
    -- the parents are exactly the ancestors one height up
    have hparents : step.2.map Prod.fst = ancestorsAt touched (depth - L) := by
      refine hspec.sorted.eq_of_mem_iff (pairwise_ancestorsAt touched _) fun j => ?_
      rw [hspec.mem, exists_parent_iff, show k + 1 = depth - L by omega]
    have hnext : step.2 = (ancestorsAt touched (depth - L)).map
        (item node emptyLeaf before after (depth - L)) := by
      rw [hspec.items, hparents, show k + 1 = depth - L by omega]
    obtain ⟨htop, hpos, hhash, hwit⟩ := mergeLevels_spec hagree L (by omega)
    have hr : r = (step.1 ++ (mergeLevels node emptyLeaf before L step.2).1,
        (mergeLevels node emptyLeaf before L step.2).2) := rfl
    rw [hr, hnext]
    refine ⟨htop, ?_, fun m hm => ?_, fun m hm => ?_⟩
    · rw [List.map_append, hpos, hspec.positions, hparents, List.range_succ, List.reverse_append,
        List.reverse_singleton, List.singleton_append, List.flatMap_cons, show depth - (k + 1) = L by omega]
    · rcases List.mem_append.mp hm with hm | hm
      · exact hspec.hashes m hm
      · exact hhash m hm
    · rcases List.mem_append.mp hm with hm | hm
      · -- a merge of this level sits at level `DEPTH - (k + 1)`
        have hmpos : (m.level, m.index) ∈ step.1.map fun m => (m.level, m.index) :=
          List.mem_map_of_mem hm
        rw [hspec.positions] at hmpos
        obtain ⟨j, -, hj⟩ := List.mem_map.mp hmpos
        have hml : m.level = depth - (k + 1) := (Prod.mk.inj hj).1.symm
        rw [hml, show depth - (depth - (k + 1) + 1) = k by omega]
        exact hspec.witnesses m hm
      · exact hwit m hm

/-- **The boundary multiproof.** For a non-empty set of touched pages of the tree, with the
before and after leaves agreeing outside it, the builder returns the roots of the two complete
trees (which are the sparse roots); its merges are the strict ancestors of the touched pages,
each once, level descending and index ascending; each merge hashes its children, and each witness
is the root of the untouched sibling subtree, the same before and after. -/
theorem buildMultiproofFromLeaves_spec (hne : touched.Nonempty)
    (hrange : ∀ p ∈ touched, p < 2 ^ depth)
    (hagree : ∀ p ∉ touched, leafOf emptyLeaf before p = leafOf emptyLeaf after p) :
    ∃ mp, buildMultiproofFromLeaves node emptyLeaf before after touched = some mp ∧
      mp.rootBefore = treeRoot node (leafOf emptyLeaf before) depth 0 ∧
      mp.rootAfter = treeRoot node (leafOf emptyLeaf after) depth 0 ∧
      mp.rootBefore = sparseRoot node emptyLeaf before ∧
      mp.rootAfter = sparseRoot node emptyLeaf after ∧
      (∀ l i, (l, i) ∈ mp.merges.map (fun m => (m.level, m.index)) ↔
        l < depth ∧ ∃ p ∈ touched, p / 2 ^ (depth - l) = i) ∧
      (mp.merges.map fun m => (m.level, m.index)).Pairwise
        (fun a b => b.1 < a.1 ∨ a.1 = b.1 ∧ a.2 < b.2) ∧
      (∀ m ∈ mp.merges, HashesOk node m) ∧
      (∀ m ∈ mp.merges, WitnessOk node emptyLeaf before after (depth - (m.level + 1)) m) := by
  obtain ⟨htop, hpos, hhash, hwit⟩ :=
    mergeLevels_spec node emptyLeaf before after touched hagree depth le_rfl
  rw [Nat.sub_self] at htop hpos hhash hwit
  rw [ancestorsAt_depth touched hne hrange, List.map_singleton] at htop
  -- the builder's leaves are the items of the touched pages
  have hleaves : (touched.sort (· ≤ ·)).map (fun p =>
      (p, (before.lookup p).getD emptyLeaf, (after.lookup p).getD emptyLeaf)) =
      (ancestorsAt touched 0).map (item node emptyLeaf before after 0) := by
    rw [ancestorsAt_zero]
    rfl
  have hne' : (ancestorsAt touched 0).map (item node emptyLeaf before after 0) ≠ [] := by
    obtain ⟨p, hp⟩ := hne
    have hmem : p ∈ ancestorsAt touched 0 := (mem_ancestorsAt touched).mpr ⟨p, hp, by simp⟩
    exact List.ne_nil_of_mem (List.mem_map_of_mem hmem)
  -- opaque names for the run, so that no step unfolds its twenty levels
  generalize (ancestorsAt touched 0).map (item node emptyLeaf before after 0) = leaves
    at hleaves hne' htop hpos hhash hwit
  generalize hms : (mergeLevels node emptyLeaf before depth leaves).1 = ms at hpos hhash hwit
  have hrun : mergeLevels node emptyLeaf before depth leaves =
      (ms, [item node emptyLeaf before after depth 0]) := by
    rw [← htop, ← hms]
  have hsched : ms.map (fun m => (m.level, m.index)) = ancestorSchedule touched := hpos
  refine ⟨⟨leaves, ms, treeRoot node (leafOf emptyLeaf before) depth 0,
    treeRoot node (leafOf emptyLeaf after) depth 0⟩, ?_, rfl, rfl,
    (sparseRoot_eq node emptyLeaf before).symm, (sparseRoot_eq node emptyLeaf after).symm,
    fun l i => ?_, ?_, hhash, hwit⟩
  · simp only [buildMultiproofFromLeaves]
    rw [hleaves, if_neg hne', hrun]
    rfl
  · rw [hsched]
    exact mem_ancestorSchedule touched
  · rw [hsched]
    exact pairwise_ancestorSchedule touched

/-- Page 0 rewritten and page 3 cleared, in a memory holding both: the builder returns a proof
whose roots are the sparse roots before and after. -/
theorem buildMultiproofFromLeaves_spec_two_pages :
    ({0, 3} : Finset ℕ).Nonempty ∧ (∀ p ∈ ({0, 3} : Finset ℕ), p < 2 ^ depth) ∧
      ∃ mp, buildMultiproofFromLeaves (fun a b : ℕ => a + 2 * b) 0
          ((Finmap.singleton 0 5).insert 3 8) (Finmap.singleton 0 6) {0, 3} = some mp ∧
        mp.rootBefore = sparseRoot (fun a b : ℕ => a + 2 * b) 0 ((Finmap.singleton 0 5).insert 3 8) ∧
        mp.rootAfter = sparseRoot (fun a b : ℕ => a + 2 * b) 0 (Finmap.singleton 0 6) := by
  have hne : ({0, 3} : Finset ℕ).Nonempty := Finset.insert_nonempty 0 {3}
  have hrange : ∀ p ∈ ({0, 3} : Finset ℕ), p < 2 ^ depth := by
    intro p hp
    have hdepth : 2 ≤ depth := by decide
    have h4 : 2 ^ 2 ≤ 2 ^ depth := Nat.pow_le_pow_right (by omega) hdepth
    rcases Finset.mem_insert.mp hp with rfl | hp
    · omega
    · rw [Finset.mem_singleton.mp hp]
      omega
  -- page 0 is rewritten and page 3 cleared; every other page is empty on both sides
  have hagree : ∀ p ∉ ({0, 3} : Finset ℕ),
      leafOf 0 ((Finmap.singleton 0 5).insert 3 8 : Finmap fun _ : ℕ => ℕ) p =
        leafOf 0 (Finmap.singleton 0 6) p := by
    intro p hp
    have h0 : p ≠ 0 := fun h => hp (by simp [h])
    have h3 : p ≠ 3 := fun h => hp (by simp [h])
    have hnone : ∀ v : ℕ, (Finmap.singleton 0 v : Finmap fun _ : ℕ => ℕ).lookup p = none :=
      fun v => Finmap.lookup_eq_none.mpr fun hmem => h0 ((Finmap.mem_singleton p 0 v).mp hmem)
    simp [leafOf, Finmap.lookup_insert_of_ne _ h3, hnone]
  obtain ⟨mp, hbuild, -, -, hbefore, hafter, -⟩ := buildMultiproofFromLeaves_spec
    (fun a b : ℕ => a + 2 * b) 0 ((Finmap.singleton 0 5).insert 3 8) (Finmap.singleton 0 6)
    {0, 3} hne hrange hagree
  exact ⟨hne, hrange, mp, hbuild, hbefore, hafter⟩

end Build

end Vos.Zkpvm
