import Mathlib.Data.Finmap
import Mathlib.Data.List.Sort
import Vos.Lib.CompleteTree
import Vos.Lib.Patricia

/-!
# vos — sparse-Merkle state commitments

`zk/state.rs`: a fixed-depth binary sparse Merkle tree over fixed-width keys. The tree has depth
`8 × width`, every key is a leaf position, and an absent key hashes as `EMPTY_LEAF`. Roots are
recomputed from sorted leaf slices by splitting them on one key bit per level; a `BatchProof`
carries the roots of the untouched non-empty subtrees, so that the root over a set of touched
leaves can be recomputed without the others.

* `levelBit` (`level_bit`), `partitionPoint`, `spineHash`, `sparseRootSorted`, `rootOfSorted`;
* `FrontierNode`, `BatchProof`, `buildFrontierRec`, `BatchProof.build`, `BatchProof.fromFrontier`,
  `BatchProof.frontierGet`, `rootRec`, `BatchProof.root`;
* what they compute, in terms of the complete tree `CompleteTree.root` over the leaf function
  `leafOf L` of a leaf list: `spineHash_eq` (a subtree with empty siblings rises to its enclosing
  cell) and **`sparseRootSorted_eq`**, **`rootOfSorted_eq`**.

A key, and a prefix, is its big-endian value: a natural below `2 ^ depth`. The MSB-first bit
`level` of a key is then `testBit (depth - 1 - level)`, the bit `bit_at(p, key, depth)` counted
from the leaves is `testBit depth`, and comparing keys byte by byte is comparing the numbers. The
hash functions `node_hash` and `leaf_hash` (with the parameters' domains) and `EMPTY_LEAF` are
parameters; `empty_chain(p)[d]` is `CompleteTree.emptyRoot node emptyLeaf d`.
-/

namespace Vos.Zk

open CompleteTree

/-- `SmtParams`: the key width in bytes. The hash domains are folded into the hash functions. -/
structure SmtParams where
  width : ℕ
  deriving DecidableEq, Repr

/-- `SmtParams::depth`. -/
def SmtParams.depth (p : SmtParams) : ℕ := p.width * 8

/-- `level_bit`: the MSB-first bit `level` of `key`, the one a node at `level` splits on. -/
def levelBit (p : SmtParams) (key level : ℕ) : Bool := key.testBit (p.depth - 1 - level)

/-- `prefix_r[byte_idx] |= 1 << bit_idx`: the prefix of the right child of a cell at `level`. -/
def setLevelBit (p : SmtParams) (pre level : ℕ) : ℕ := pre ||| 2 ^ (p.depth - 1 - level)

/-- `partition_point`: the number of leading elements satisfying `pred`. The source's binary
search returns it on every slice partitioned by `pred`, which is how it is called. -/
def partitionPoint {α : Type} (pred : α → Bool) (l : List α) : ℕ := (l.takeWhile pred).length

section Hashes

variable {H : Type} (node : H → H → H) (emptyLeaf : H)

/-- `spine_hash`: lift the root `h` of a subtree at `fromDepth` levels above the leaves through
empty siblings to `toDepth` levels above the leaves, along `key`'s path. -/
def spineHash (key : ℕ) (h : H) (fromDepth toDepth : ℕ) : H :=
  (List.range' fromDepth (toDepth - fromDepth)).foldl
    (fun h depth =>
      if key.testBit depth then node (emptyRoot node emptyLeaf depth) h
      else node h (emptyRoot node emptyLeaf depth)) h

/-- `sparse_root_sorted`: the root over sorted `(key, leaf_hash)` pairs of the cell at MSB-first
`level`, with `dfl` levels below it. -/
def sparseRootSorted (p : SmtParams) : List (ℕ × H) → ℕ → ℕ → H
  | [], _, dfl => emptyRoot node emptyLeaf dfl
  | e :: _, _, 0 => e.2
  | e :: es, level, dfl + 1 =>
    let split := partitionPoint (fun x => !levelBit p x.1 level) (e :: es)
    node (sparseRootSorted p ((e :: es).take split) (level + 1) dfl)
      (sparseRootSorted p ((e :: es).drop split) (level + 1) dfl)

/-- `root_of_sorted`. -/
def rootOfSorted (p : SmtParams) (sortedLeaves : List (ℕ × H)) : H :=
  sparseRootSorted node emptyLeaf p sortedLeaves 0 p.depth

end Hashes

/-! ## Multiproofs -/

/-- `FrontierNode`: the root of an untouched non-empty subtree, at its cell `(level, prefix)`. -/
structure FrontierNode (H : Type) where
  level : UInt16
  prefixBits : ℕ
  hash : H
  deriving DecidableEq, Repr

/-- `BatchProof`. -/
structure BatchProof (H : Type) where
  frontier : List (FrontierNode H)
  deriving DecidableEq, Repr

section Multiproof

variable {H : Type} (node : H → H → H) (emptyLeaf : H)

/-- The order of `sort_unstable_by` on `(level, prefix)`. -/
def frontierLe (a b : FrontierNode H) : Bool :=
  decide (a.level.toNat < b.level.toNat ∨ a.level = b.level ∧ a.prefixBits ≤ b.prefixBits)

/-- `BatchProof::from_frontier`. -/
def BatchProof.fromFrontier (frontier : List (FrontierNode H)) : BatchProof H :=
  ⟨frontier.mergeSort frontierLe⟩

/-- `build_frontier_rec`: walk the sorted touched keys and the sorted full leaves of the cell at
`(level, pre)` in lockstep; every cell without a touched key records its root if it is not
empty. -/
def buildFrontierRec (p : SmtParams) :
    List ℕ → List (ℕ × H) → ℕ → ℕ → ℕ → List (FrontierNode H)
  | [], full, pre, level, dfl =>
    if full.isEmpty then []
    else [⟨level.toUInt16, pre, sparseRootSorted node emptyLeaf p full level dfl⟩]
  | _ :: _, _, _, _, 0 => []
  | t :: ts, full, pre, level, dfl + 1 =>
    let tSplit := partitionPoint (fun k => !levelBit p k level) (t :: ts)
    let fSplit := partitionPoint (fun x => !levelBit p x.1 level) full
    buildFrontierRec p ((t :: ts).take tSplit) (full.take fSplit) pre (level + 1) dfl ++
      buildFrontierRec p ((t :: ts).drop tSplit) (full.drop fSplit) (setLevelBit p pre level)
        (level + 1) dfl

/-- `BatchProof::build`: the touched keys sorted and deduplicated, the frontier of the full
sorted leaves, sorted by cell. -/
def BatchProof.build (p : SmtParams) (sortedLeaves : List (ℕ × H)) (touchedKeys : List ℕ) :
    BatchProof H :=
  let keys := (touchedKeys.mergeSort fun a b => decide (a ≤ b)).dedup
  ⟨(buildFrontierRec node emptyLeaf p keys sortedLeaves 0 0 p.depth).mergeSort frontierLe⟩

/-- `BatchProof::frontier_get`: the frontier hash at a cell. The source searches the sorted
frontier by `(level, prefix)`. -/
def BatchProof.frontierGet (π : BatchProof H) (level pre : ℕ) : Option H :=
  (π.frontier.find? fun n => n.level.toNat = level ∧ n.prefixBits = pre).map (·.hash)

/-- `BatchProof::root_rec`, over the frontier lookup `get`: recompute the root of the cell at
`(level, pre)` from the sorted touched leaves in it. -/
def rootRec (p : SmtParams) (get : ℕ → ℕ → Option H) :
    List (ℕ × H) → ℕ → ℕ → ℕ → H
  | [], pre, level, dfl => (get level pre).getD (emptyRoot node emptyLeaf dfl)
  | e :: _, _, _, 0 => e.2
  | e :: es, pre, level, dfl + 1 =>
    let split := partitionPoint (fun x => !levelBit p x.1 level) (e :: es)
    node (rootRec p get ((e :: es).take split) pre (level + 1) dfl)
      (rootRec p get ((e :: es).drop split) (setLevelBit p pre level) (level + 1) dfl)

/-- `BatchProof::root`. -/
def BatchProof.root (π : BatchProof H) (p : SmtParams) (touched : List (ℕ × H)) : H :=
  rootRec node emptyLeaf p π.frontierGet touched 0 0 p.depth

end Multiproof

/-! ## Sorted lists split on a bit -/

section Split

variable {α : Type}

theorem take_partitionPoint (pred : α → Bool) :
    ∀ l : List α, l.take (partitionPoint pred l) = l.takeWhile pred
  | [] => rfl
  | a :: l => by
    unfold partitionPoint
    by_cases ha : pred a
    · rw [List.takeWhile_cons_of_pos ha, List.length_cons, List.take_succ_cons]
      exact congrArg (a :: ·) (take_partitionPoint pred l)
    · rw [List.takeWhile_cons_of_neg ha, List.length_nil, List.take_zero]

/-- In a list where `pred` holds of everything before an element that satisfies it, the longest
prefix satisfying `pred` is its filter. -/
theorem takeWhile_eq_filter {pred : α → Bool} :
    ∀ {l : List α}, l.Pairwise (fun a b => pred b → pred a) → l.takeWhile pred = l.filter pred
  | [], _ => rfl
  | a :: l, h => by
    rw [List.pairwise_cons] at h
    by_cases ha : pred a
    · rw [List.takeWhile_cons_of_pos ha, List.filter_cons_of_pos ha, takeWhile_eq_filter h.2]
    · rw [List.takeWhile_cons_of_neg ha, List.filter_cons_of_neg ha, eq_comm,
        List.filter_eq_nil_iff]
      exact fun b hb hpb => ha (h.1 b hb hpb)

theorem drop_partitionPoint {pred : α → Bool} :
    ∀ {l : List α}, l.Pairwise (fun a b => pred b → pred a) →
      l.drop (partitionPoint pred l) = l.filter (fun a => !pred a)
  | [], _ => rfl
  | a :: l, h => by
    rw [List.pairwise_cons] at h
    unfold partitionPoint
    by_cases ha : pred a
    · rw [List.takeWhile_cons_of_pos ha, List.length_cons, List.drop_succ_cons,
        List.filter_cons_of_neg (by simpa using ha)]
      exact drop_partitionPoint h.2
    · rw [List.takeWhile_cons_of_neg ha, List.length_nil, List.drop_zero,
        List.filter_cons_of_pos (by simpa using ha)]
      congr 1
      rw [eq_comm, List.filter_eq_self]
      exact fun b hb => by simpa using fun hpb => ha (h.1 b hb hpb)

end Split

/-! ## What the roots are -/

section Spec

variable {H : Type} (node : H → H → H) (emptyLeaf : H)

/-- The leaf function of a leaf list: a listed key's hash, `EMPTY_LEAF` elsewhere. -/
def leafOf (L : List (ℕ × H)) (k : ℕ) : H := (L.lookup k).getD emptyLeaf

theorem spineHash_succ (key : ℕ) (h : H) {fromDepth toDepth : ℕ} (hle : fromDepth ≤ toDepth) :
    spineHash node emptyLeaf key h fromDepth (toDepth + 1) =
      if key.testBit toDepth then
        node (emptyRoot node emptyLeaf toDepth) (spineHash node emptyLeaf key h fromDepth toDepth)
      else node (spineHash node emptyLeaf key h fromDepth toDepth) (emptyRoot node emptyLeaf toDepth) := by
  unfold spineHash
  rw [show toDepth + 1 - fromDepth = toDepth - fromDepth + 1 by omega, List.range'_concat,
    List.foldl_append, Nat.one_mul, show fromDepth + (toDepth - fromDepth) = toDepth by omega]
  rfl

/-- **The spine.** A cell whose leaves outside the subtree of `key` at height `k` are all empty
has, `m` levels up, the root that `spine_hash` lifts the subtree's root to. -/
theorem spineHash_eq {leaf : ℕ → H} {key k : ℕ} :
    ∀ {m : ℕ}, (∀ q, q / 2 ^ (k + m) = key / 2 ^ (k + m) → q / 2 ^ k ≠ key / 2 ^ k →
        leaf q = emptyLeaf) →
      spineHash node emptyLeaf key (root node leaf k (key / 2 ^ k)) k (k + m) =
        root node leaf (k + m) (key / 2 ^ (k + m))
  | 0, _ => by simp [spineHash]
  | m + 1, hempty => by
    have ih := spineHash_eq fun q hq hne => hempty q (by
        rw [← Nat.add_assoc, div_two_pow_succ, hq, ← div_two_pow_succ]) hne
    rw [← Nat.add_assoc, spineHash_succ node emptyLeaf key _ (by omega), ih, root]
    -- the child off `key`'s path is empty
    have hj := div_two_pow_eq_two_mul_add key (k + m)
    have hsib : ∀ j, j / 2 = key / 2 ^ (k + m + 1) → j ≠ key / 2 ^ (k + m) →
        root node leaf (k + m) j = emptyRoot node emptyLeaf (k + m) := fun j hjp hjne =>
      root_eq_emptyRoot node fun q hq => hempty q (by rw [← Nat.add_assoc, div_two_pow_succ, hq, hjp])
        fun hqk => hjne (by rw [← hq, div_two_pow_add, hqk, ← div_two_pow_add])
    split_ifs at hj ⊢ with hbit
    · rw [hsib (2 * (key / 2 ^ (k + m + 1))) (by omega) (by omega), ← hj]
    · rw [hsib (2 * (key / 2 ^ (k + m + 1)) + 1) (by omega) (by omega), show key / 2 ^ (k + m) =
        2 * (key / 2 ^ (k + m + 1)) by omega]

theorem div_two_pow_of_testBit {q d idx : ℕ} (hq : q / 2 ^ (d + 1) = idx) :
    q / 2 ^ d = 2 * idx + if q.testBit d then 1 else 0 := by
  rw [← hq]
  exact div_two_pow_eq_two_mul_add q d

theorem pairwise_bit_of_sorted {α : Type} (key : α → ℕ) {L : List α} {d idx : ℕ}
    (hsorted : L.Pairwise fun a b => key a < key b) (hcell : ∀ a ∈ L, key a / 2 ^ (d + 1) = idx) :
    L.Pairwise fun a b => (!(key b).testBit d) → !(key a).testBit d := by
  refine hsorted.imp_of_mem fun {a b} ha hb hab => ?_
  have hpos := div_two_pow_of_testBit (hcell a ha)
  have hposb := div_two_pow_of_testBit (hcell b hb)
  have hle : key a / 2 ^ d ≤ key b / 2 ^ d := Nat.div_le_div_right hab.le
  cases hta : (key a).testBit d
  · exact fun _ => rfl
  · -- `a` is in the right child, and so is `b` after it
    cases htb : (key b).testBit d
    · rw [hta, if_pos rfl] at hpos
      rw [htb, if_neg Bool.false_ne_true] at hposb
      omega
    · exact fun h => absurd h (by decide)

theorem leafOf_filter (L : List (ℕ × H)) (f : ℕ → Bool) {q : ℕ} (hq : f q) :
    leafOf emptyLeaf (L.filter fun x => f x.1) q = leafOf emptyLeaf L q := by
  simp only [leafOf, Patricia.lookup_filter, hq, if_true]

/-- **The sorted-slice root.** Over keys sorted and distinct inside the cell `(dfl, idx)`,
`sparse_root_sorted` computes the cell's root in the complete tree of their leaves. -/
theorem sparseRootSorted_eq (p : SmtParams) :
    ∀ {dfl level idx : ℕ} {L : List (ℕ × H)}, level + dfl = p.depth →
      L.Pairwise (fun a b => a.1 < b.1) → (∀ e ∈ L, e.1 / 2 ^ dfl = idx) →
      sparseRootSorted node emptyLeaf p L level dfl = root node (leafOf emptyLeaf L) dfl idx
  | dfl, level, idx, [], _, _, _ => by
    rw [sparseRootSorted]
    exact (root_eq_emptyRoot node fun q _ => rfl).symm
  | 0, level, idx, e :: es, _, hsorted, hcell => by
    -- a cell of height zero holds one key
    have he : e.1 = idx := by simpa using hcell e List.mem_cons_self
    have hes : es = [] := by
      rcases es with _ | ⟨e', es⟩
      · rfl
      · have h1 := List.rel_of_pairwise_cons hsorted List.mem_cons_self
        have h2 : e'.1 = idx := by simpa using hcell e' (by simp)
        omega
    subst hes
    simp [sparseRootSorted, root, leafOf, Patricia.lookup_cons_self, ← he]
  | d + 1, level, idx, e :: es, hlevel, hsorted, hcell => by
    have hbit : ∀ q, levelBit p q level = q.testBit d := fun q => by
      rw [levelBit, show p.depth - 1 - level = d by omega]
    have hpart := pairwise_bit_of_sorted Prod.fst hsorted hcell
    have htake : (e :: es).take (partitionPoint (fun x => !levelBit p x.1 level) (e :: es)) =
        (e :: es).filter fun x => !x.1.testBit d := by
      simp only [hbit]
      rw [take_partitionPoint, takeWhile_eq_filter hpart]
    have hdrop : (e :: es).drop (partitionPoint (fun x => !levelBit p x.1 level) (e :: es)) =
        (e :: es).filter fun x => x.1.testBit d := by
      simp only [hbit]
      rw [drop_partitionPoint hpart]
      simp only [Bool.not_not]
    -- each half is sorted inside its child cell
    have hl : sparseRootSorted node emptyLeaf p ((e :: es).filter fun x => !x.1.testBit d)
        (level + 1) d = root node (leafOf emptyLeaf ((e :: es).filter fun x => !x.1.testBit d))
          d (2 * idx) :=
      sparseRootSorted_eq p (by omega) (hsorted.filter _) fun x hx => by
        obtain ⟨hx, hb⟩ := List.mem_filter.mp hx
        have := div_two_pow_of_testBit (hcell x hx)
        simp only [Bool.not_eq_true'] at hb
        simpa [hb] using this
    have hr : sparseRootSorted node emptyLeaf p ((e :: es).filter fun x => x.1.testBit d)
        (level + 1) d = root node (leafOf emptyLeaf ((e :: es).filter fun x => x.1.testBit d))
          d (2 * idx + 1) :=
      sparseRootSorted_eq p (by omega) (hsorted.filter _) fun x hx => by
        obtain ⟨hx, hb⟩ := List.mem_filter.mp hx
        have := div_two_pow_of_testBit (hcell x hx)
        simpa [hb] using this
    rw [sparseRootSorted, htake, hdrop, hl, hr, root]
    congr 1
    · refine root_congr node fun q hq => leafOf_filter emptyLeaf _ (fun k => !k.testBit d) ?_
      rw [Nat.testBit_eq_decide_div_mod_eq, hq]
      simp
    · refine root_congr node fun q hq => leafOf_filter emptyLeaf _ (fun k => k.testBit d) ?_
      rw [Nat.testBit_eq_decide_div_mod_eq, hq]
      simp

/-- **`root_of_sorted`** over keys of the tree, sorted and distinct, is the root of the complete
tree of their leaves. -/
theorem rootOfSorted_eq (p : SmtParams) {L : List (ℕ × H)}
    (hsorted : L.Pairwise fun a b => a.1 < b.1) (hkeys : ∀ e ∈ L, e.1 < 2 ^ p.depth) :
    rootOfSorted node emptyLeaf p L = root node (leafOf emptyLeaf L) p.depth 0 :=
  sparseRootSorted_eq node emptyLeaf p (Nat.zero_add _) hsorted fun e he =>
    Nat.div_eq_of_lt (hkeys e he)

end Spec

end Vos.Zk
