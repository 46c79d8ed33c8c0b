import Vos.Lib.ByteCodec
import Vos.Zk.State

/-!
# vos — single-key sparse-Merkle proofs

`SmtProof` (`zk/state.rs`): a key, the hash at its leaf and the `depth` siblings of its path,
lowest first. `verify` refuses a proof of the wrong shape, folds the leaf up through the
siblings, the side at each depth chosen by `bit_at`, and compares with the expected root. A leaf
of `EMPTY_LEAF` proves that the key is absent.

The proof carries its key as bytes, and `bit_at` reads them as the source does; `keyValue` is the
big-endian number the rest of the model takes keys as (`bitAt_eq_testBit`). The fold is then
`CompleteTree.pathRoot` of that number, and what a proof proves follows from the path lemmas of
`Vos.Lib.CompleteTree`.

* `bitAt`, `keyValue`, `SmtProof`, `SmtProof.verify`, `SmtProof.isInclusion`;
* `verify_eq`: on a proof of the right shape, `verify` compares `pathRoot` with the root;
* `verify_root_iff`: against the root of a complete tree, under a pair-injective node hash, the
  proofs `verify` accepts are exactly the key's leaf and path;
* **`SmtProof.verify_rootOfSorted_iff`**: the same against `root_of_sorted` of a sorted leaf list.
-/

namespace Vos.Zk

open CompleteTree

/-- `bit_at`: bit `depth` of `key` counted from the leaves, bit `0` being the low bit of the
last byte. -/
def bitAt (p : SmtParams) (key : List UInt8) (depth : ℕ) : Bool :=
  let bitFromMsb := p.depth - 1 - depth
  let byteIdx := bitFromMsb / 8
  let bitIdx := 7 - bitFromMsb % 8
  (key.getD byteIdx 0 >>> bitIdx.toUInt8) &&& 1 == 1

/-- The number the bytes of a key spell, most significant first. -/
def keyValue (key : List UInt8) : ℕ := ByteCodec.ofLe key.reverse

/-- `SmtProof`. -/
structure SmtProof (H : Type) where
  key : List UInt8
  leaf : H
  siblings : List H

section Verify

variable {H : Type} [DecidableEq H] (node : H → H → H)

/-- `SmtProof::verify`. -/
def SmtProof.verify (π : SmtProof H) (p : SmtParams) (expectedRoot : H) : Bool :=
  if π.siblings.length ≠ p.depth ∨ π.key.length ≠ p.width then false
  else
    let hash := π.siblings.zipIdx.foldl (fun hash (sibling, depth) =>
      if bitAt p π.key depth then node sibling hash else node hash sibling) π.leaf
    decide (hash = expectedRoot)

/-- `SmtProof::is_inclusion`. -/
def SmtProof.isInclusion (π : SmtProof H) (emptyLeaf : H) : Bool := decide (π.leaf ≠ emptyLeaf)

/-! ## Bits of a key -/

theorem shiftRight_and_one_eq_testBit (b : UInt8) {n : ℕ} (hn : n < 8) :
    ((b >>> n.toUInt8) &&& 1 == 1) = b.toNat.testBit n := by
  have hmod : (n.toUInt8).toNat % 8 = n := by
    rw [Nat.toUInt8, UInt8.toNat_ofNat']
    norm_num
    omega
  rw [Nat.testBit_eq_decide_div_mod_eq, ← Nat.shiftRight_eq_div_pow]
  have h1 : ((b >>> n.toUInt8) &&& 1).toNat = (b.toNat >>> n) % 2 := by
    rw [UInt8.toNat_and, UInt8.toNat_shiftRight, hmod]
    simp
  rcases Nat.mod_two_eq_zero_or_one (b.toNat >>> n) with h | h
  · have : ((b >>> n.toUInt8) &&& 1) ≠ 1 := fun he => by
      rw [he] at h1
      simp [h] at h1
    simp [this, h]
  · have : ((b >>> n.toUInt8) &&& 1) = 1 := UInt8.toNat_inj.mp (by rw [h1, h]; rfl)
    simp [this, h]

theorem bitAt_eq_testBit {p : SmtParams} {key : List UInt8} (hw : key.length = p.width) {d : ℕ}
    (hd : d < p.depth) : bitAt p key d = (keyValue key).testBit d := by
  have hdepth : p.depth = p.width * 8 := rfl
  have hidx : (p.depth - 1 - d) / 8 = key.length - 1 - d / 8 := by omega
  have hbit : 7 - (p.depth - 1 - d) % 8 = d % 8 := by omega
  have hlt : d / 8 < key.length := by omega
  have hget : key.reverse.getD (d / 8) 0 = key.getD (key.length - 1 - d / 8) 0 := by
    rw [List.getD_eq_getElem?_getD, List.getElem?_reverse hlt, ← List.getD_eq_getElem?_getD]
  rw [bitAt, keyValue, ByteCodec.testBit_ofLe, hget]
  rw [hidx, hbit, shiftRight_and_one_eq_testBit _ (Nat.mod_lt _ (by norm_num))]

theorem keyValue_lt {p : SmtParams} {key : List UInt8} (hw : key.length = p.width) :
    keyValue key < 2 ^ p.depth := by
  have h := ByteCodec.ofLe_lt key.reverse
  rw [List.length_reverse, hw] at h
  calc keyValue key < 256 ^ p.width := h
    _ = 2 ^ p.depth := by rw [SmtParams.depth, pow_mul', show (2 : ℕ) ^ 8 = 256 by norm_num]

/-! ## What `verify` computes -/

omit [DecidableEq H] in
/-- The fold of `verify` from depth `k` is `pathRoot` of the key's value, while `bit_at` reads
its bits. -/
theorem foldl_zipIdx_eq_pathRoot (p : SmtParams) (key : List UInt8) :
    ∀ (ss : List H) (k : ℕ) (h : H),
      (∀ d, k ≤ d → d < k + ss.length → bitAt p key d = (keyValue key).testBit d) →
      (ss.zipIdx k).foldl (fun hash (sibling, depth) =>
          if bitAt p key depth then node sibling hash else node hash sibling) h =
        pathRoot node (keyValue key) k h ss
  | [], _, _, _ => rfl
  | s :: ss, k, h, hbits => by
    rw [List.zipIdx_cons, List.foldl_cons, pathRoot]
    dsimp only
    rw [hbits k le_rfl (by simp)]
    exact foldl_zipIdx_eq_pathRoot p key ss (k + 1) _ fun d h1 h2 =>
      hbits d (by omega) (by simp only [List.length_cons] at ⊢; omega)

/-- On a proof of the right shape, `verify` compares the root of the key's path with the
expected one. -/
theorem verify_eq (p : SmtParams) (π : SmtProof H) (hs : π.siblings.length = p.depth)
    (hw : π.key.length = p.width) (r : H) :
    π.verify node p r = decide (pathRoot node (keyValue π.key) 0 π.leaf π.siblings = r) := by
  rw [SmtProof.verify, if_neg (by omega)]
  dsimp only
  rw [foldl_zipIdx_eq_pathRoot node p π.key π.siblings 0 π.leaf fun d _ hd =>
    bitAt_eq_testBit hw (by omega)]

/-- **The proofs of a complete tree.** Against the root of the complete tree over `leaf`, with a
pair-injective node hash, `verify` accepts exactly the proofs whose key has the width, whose leaf
is the key's and whose siblings are the roots beside the key's path. -/
theorem verify_root_iff (hnode : ∀ a b c e, node a b = node c e → a = c ∧ b = e) (p : SmtParams)
    (leaf : ℕ → H) (π : SmtProof H) :
    π.verify node p (root node leaf p.depth 0) = true ↔
      π.key.length = p.width ∧ π.leaf = leaf (keyValue π.key) ∧
        π.siblings = pathSiblings node leaf (keyValue π.key) 0 p.depth := by
  constructor
  · intro hv
    -- the shape checks passed
    have hshape : π.siblings.length = p.depth ∧ π.key.length = p.width := by
      by_contra hne
      rw [SmtProof.verify, if_pos (by omega)] at hv
      cases hv
    obtain ⟨hs, hw⟩ := hshape
    have htop : root node leaf p.depth 0 =
        root node leaf (0 + π.siblings.length) (keyValue π.key / 2 ^ (0 + π.siblings.length)) := by
      rw [Nat.zero_add, hs, Nat.div_eq_of_lt (keyValue_lt hw)]
    rw [verify_eq node p π hs hw, decide_eq_true_iff, htop] at hv
    obtain ⟨hleaf, hsib⟩ := eq_of_pathRoot node hnode leaf (keyValue π.key) π.siblings 0 π.leaf hv
    refine ⟨hw, by rw [hleaf, pow_zero, Nat.div_one]; rfl, by rw [hsib, hs]⟩
  · rintro ⟨hw, hleaf, hsib⟩
    have hs : π.siblings.length = p.depth := by simp [hsib, pathSiblings]
    rw [verify_eq node p π hs hw, decide_eq_true_iff, hleaf, hsib]
    have hpath := pathRoot_pathSiblings node leaf (keyValue π.key) p.depth 0
    rw [Nat.zero_add, pow_zero, Nat.div_one, Nat.div_eq_of_lt (keyValue_lt hw)] at hpath
    exact hpath

/-- **`SmtProof::verify` against `root_of_sorted`.** For a leaf list sorted by distinct keys of the
tree and a pair-injective node hash, the proofs that `verify` accepts against `root_of_sorted` of
the list are exactly those whose key has the width, whose leaf is the key's hash in the list
(`EMPTY_LEAF` when the key is absent) and whose siblings are the roots beside the key's path: a
proof can neither claim a leaf the list does not hold nor deny one it does. -/
theorem SmtProof.verify_rootOfSorted_iff (hnode : ∀ a b c e, node a b = node c e → a = c ∧ b = e)
    (emptyLeaf : H) (p : SmtParams) {L : List (ℕ × H)} (hsorted : L.Pairwise fun a b => a.1 < b.1)
    (hkeys : ∀ e ∈ L, e.1 < 2 ^ p.depth) (π : SmtProof H) :
    π.verify node p (rootOfSorted node emptyLeaf p L) = true ↔
      π.key.length = p.width ∧ π.leaf = leafOf emptyLeaf L (keyValue π.key) ∧
        π.siblings = pathSiblings node (leafOf emptyLeaf L) (keyValue π.key) 0 p.depth := by
  rw [rootOfSorted_eq node emptyLeaf p hsorted hkeys]
  exact verify_root_iff node hnode p (leafOf emptyLeaf L) π

end Verify

/-- Over one-byte keys with `Nat.pair` as the node hash and a list holding keys `3` and `9`, the
proof of key `9` with its leaf is accepted, and so is the proof that key `5` is absent, whose leaf
is `EMPTY_LEAF`; a proof that claims a leaf for key `5` is rejected. -/
theorem SmtProof.verify_rootOfSorted_iff_two_keys :
    (∀ a b c e : ℕ, Nat.pair a b = Nat.pair c e → a = c ∧ b = e) ∧
      [((3 : ℕ), (7 : ℕ)), (9, 4)].Pairwise (fun a b => a.1 < b.1) ∧
      (∀ e ∈ [((3 : ℕ), (7 : ℕ)), (9, 4)], e.1 < 2 ^ (SmtParams.mk 1).depth) ∧
      (SmtProof.mk [9] 4 (pathSiblings Nat.pair (leafOf 0 [(3, 7), (9, 4)]) 9 0 8)).verify Nat.pair
          ⟨1⟩ (rootOfSorted Nat.pair 0 ⟨1⟩ [(3, 7), (9, 4)]) = true ∧
      (SmtProof.mk [5] 0 (pathSiblings Nat.pair (leafOf 0 [(3, 7), (9, 4)]) 5 0 8)).verify Nat.pair
          ⟨1⟩ (rootOfSorted Nat.pair 0 ⟨1⟩ [(3, 7), (9, 4)]) = true ∧
      (SmtProof.mk [5] 4 (pathSiblings Nat.pair (leafOf 0 [(3, 7), (9, 4)]) 5 0 8)).verify Nat.pair
          ⟨1⟩ (rootOfSorted Nat.pair 0 ⟨1⟩ [(3, 7), (9, 4)]) = false := by
  have hnode : ∀ a b c e : ℕ, Nat.pair a b = Nat.pair c e → a = c ∧ b = e :=
    fun _ _ _ _ h => Nat.pair_eq_pair.mp h
  have hsorted : [((3 : ℕ), (7 : ℕ)), (9, 4)].Pairwise (fun a b => a.1 < b.1) := by decide
  have hkeys : ∀ e ∈ [((3 : ℕ), (7 : ℕ)), (9, 4)], e.1 < 2 ^ (SmtParams.mk 1).depth := by
    decide
  have hverify := SmtProof.verify_rootOfSorted_iff Nat.pair hnode 0 ⟨1⟩ hsorted hkeys
  have h9 : keyValue [9] = 9 := by decide
  have h5 : keyValue [5] = 5 := by decide
  refine ⟨hnode, hsorted, hkeys, (hverify _).mpr ⟨rfl, by rw [h9]; rfl, by rw [h9]; rfl⟩,
    (hverify _).mpr ⟨rfl, by rw [h5]; rfl, by rw [h5]; rfl⟩, ?_⟩
  -- the absent key's leaf is `EMPTY_LEAF`, not the claimed one
  rw [Bool.eq_false_iff]
  intro h
  have hleaf := ((hverify _).mp h).2.1
  rw [h5] at hleaf
  exact absurd hleaf (by decide)

end Vos.Zk
