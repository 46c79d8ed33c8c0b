import Mathlib.Data.Nat.Bitwise
import Mathlib.Tactic.IntervalCases
import Vos.Lib.Patricia

/-!
# vos v2 — the service state tree

`v2/state_tree.rs`: an authenticated map from state keys to byte strings, kept as a binary
Patricia tree over the 256-bit positions `state_position(key)`. Nodes are content addressed:
a node is stored under its hash, and a branch names its children by their hashes.

* positions: `bitAt`, `prefixOf`, `firstDifferingBit`, `firstDifferenceBefore` on `[u8; 32]`,
  and the `Patricia.BitString` instance they form;
* `StateNodeV2`, `StateHasher` (`state_position`, `hash_node`, `Hash::ZERO`), `readNode`,
  `storeNode`, `storeBranch`, `update`, `ServiceStateTreeV2.apply`, and the lookup `getFrom`,
  `ServiceStateTreeV2.get`;
* the tree a store holds (`Stores`, `hashTrie`), and `update` refining the canonical trie
  (`update_canon`);
* **`apply_canonical_root`**: every run of `apply` from the empty root succeeds and ends at the root
  of the canonical trie of the rows it leaves.

The store keeps nodes decoded; what `read_node` checks when it decodes a node's wire is
`StateNodeV2.isCanonical`, where a leaf's key must read back through `StateKeyV2::decode`
(`StateKey.readsBack`). The hash type `H` is a parameter: the results assume that `hash_node` has
no collisions, which no fixed-width digest has over all nodes. `update` recurses through the store and is given fuel;
`apply` gives it one more than the tree depth, which a canonical tree never exceeds.
-/

namespace Vos.V2

/-- `[u8; 32]`. -/
abbrev Bytes32 := Vector UInt8 32

/-- `Vec<u8>`. -/
abbrev Bytes := List UInt8

/-- `TREE_DEPTH`. -/
def treeDepth : ℕ := 256

/-! ## Positions -/

/-- `prefix_of`: the first `level` bits of `position`, the rest cleared. -/
def prefixOf (position : Bytes32) (level : ℕ) : Bytes32 :=
  Vector.ofFn fun j =>
    if j.val < level / 8 then position[j]
    else if j.val = level / 8 ∧ level % 8 ≠ 0 then
      position[j] &&& ~~~((0xff : UInt8) >>> (level % 8).toUInt8)
    else 0

/-- `bit_at`: bit `bit` of `position`, the most significant bit of byte 0 first. -/
def bitAt (position : Bytes32) (bit : ℕ) : Bool :=
  (position[bit / 8]! &&& ((1 : UInt8) <<< (7 - bit % 8).toUInt8)) != 0

/-- `first_differing_bit`. -/
def firstDifferingBit (left right : Bytes32) : Option ℕ :=
  (List.range treeDepth).find? fun bit => bitAt left bit != bitAt right bit

/-- `first_difference_before`. -/
def firstDifferenceBefore (position pre : Bytes32) (before : ℕ) : Option ℕ :=
  (List.range before).find? fun bit => bitAt position bit != bitAt pre bit

theorem and_shiftLeft_ne_zero (x : UInt8) {k : ℕ} (hk : k < 8) :
    ((x &&& ((1 : UInt8) <<< k.toUInt8)) != 0) = x.toNat.testBit k := by
  have h1 : ((1 : UInt8) <<< k.toUInt8).toNat = 2 ^ k := by
    rw [UInt8.toNat_shiftLeft]
    interval_cases k <;> simp
  have h2 : (x &&& ((1 : UInt8) <<< k.toUInt8)).toNat = x.toNat &&& 2 ^ k := by
    rw [UInt8.toNat_and, h1]
  rw [Bool.eq_iff_iff, bne_iff_ne, ne_eq, ← UInt8.toNat_inj, h2, Nat.and_two_pow]
  cases x.toNat.testBit k <;> simp

theorem testBit_mask {r k : ℕ} (hr : r < 8) (hk : k < 8) :
    (~~~((0xff : UInt8) >>> r.toUInt8)).toNat.testBit k = decide (8 - r ≤ k) := by
  interval_cases r <;> interval_cases k <;> decide

theorem bitAt_eq_testBit (position : Bytes32) (bit : ℕ) :
    bitAt position bit = position[bit / 8]!.toNat.testBit (7 - bit % 8) := by
  unfold bitAt
  rw [and_shiftLeft_ne_zero _ (by omega)]

theorem bitAt_prefixOf (position : Bytes32) (level bit : ℕ) (h : bit < treeDepth) :
    bitAt (prefixOf position level) bit = (decide (bit < level) && bitAt position bit) := by
  have hj : bit / 8 < 32 := by unfold treeDepth at h; omega
  rw [bitAt_eq_testBit, bitAt_eq_testBit, getElem!_pos (prefixOf position level) (bit / 8) hj,
    getElem!_pos position (bit / 8) hj]
  simp only [prefixOf, Vector.getElem_ofFn, Fin.getElem_fin]
  by_cases hlt : bit / 8 < level / 8
  · rw [if_pos hlt, show decide (bit < level) = true by simp; omega, Bool.true_and]
  · rw [if_neg hlt]
    by_cases heq : bit / 8 = level / 8 ∧ level % 8 ≠ 0
    · rw [if_pos heq, UInt8.toNat_and, Nat.testBit_and, testBit_mask (Nat.mod_lt _ (by omega))
        (by omega)]
      have : decide (8 - level % 8 ≤ 7 - bit % 8) = decide (bit < level) := by
        simp only [decide_eq_decide]
        omega
      rw [this, Bool.and_comm]
    · rw [if_neg heq, show decide (bit < level) = false by simp; omega]
      simp

theorem bitAt_ext {p q : Bytes32} (h : ∀ i < treeDepth, bitAt p i = bitAt q i) : p = q := by
  refine Vector.ext fun j hj => UInt8.toNat_inj.mp (Nat.eq_of_testBit_eq fun k => ?_)
  by_cases hk : k < 8
  · have hi : 8 * j + (7 - k) < treeDepth := by unfold treeDepth; omega
    have := h _ hi
    rw [bitAt_eq_testBit, bitAt_eq_testBit] at this
    have hdiv : (8 * j + (7 - k)) / 8 = j := by omega
    have hmod : 7 - (8 * j + (7 - k)) % 8 = k := by omega
    simp only [hdiv, hmod, getElem!_pos p j hj, getElem!_pos q j hj] at this
    exact this
  · have h8 : 2 ^ 8 ≤ 2 ^ k := Nat.pow_le_pow_right (by omega) (by omega)
    rw [Nat.testBit_lt_two_pow (lt_of_lt_of_le (UInt8.toNat_lt _) h8),
      Nat.testBit_lt_two_pow (lt_of_lt_of_le (UInt8.toNat_lt _) h8)]

/-- Positions are bit strings of length `TREE_DEPTH`. -/
instance : Patricia.BitString Bytes32 where
  depth := treeDepth
  bitAt := bitAt
  prefixOf := prefixOf
  bitAt_prefixOf p l i := bitAt_prefixOf p l i
  ext _ _ := bitAt_ext

@[simp] theorem bitString_bitAt (p : Bytes32) (i : ℕ) : Patricia.BitString.bitAt p i = bitAt p i :=
  rfl

@[simp] theorem bitString_prefixOf (p : Bytes32) (i : ℕ) :
    Patricia.BitString.prefixOf p i = prefixOf p i :=
  rfl

@[simp] theorem bitString_depth : Patricia.BitString.depth Bytes32 = treeDepth := rfl

theorem firstDifferingBit_eq_some {p q : Bytes32} {bit : ℕ}
    (h : firstDifferingBit p q = some bit) : Patricia.IsFirstDiff p q bit := by
  obtain ⟨hne, hmem, hlt⟩ := List.find?_range_eq_some.mp h
  refine ⟨List.mem_range.mp hmem, by simpa using hne, fun i hi => ?_⟩
  simpa using hlt i hi

theorem firstDifferingBit_eq_none {p q : Bytes32} (h : firstDifferingBit p q = none) : p = q :=
  bitAt_ext fun i hi => by
    have := List.find?_eq_none.mp h i (List.mem_range.mpr hi)
    simpa using this

theorem firstDifferenceBefore_eq_some {p pre : Bytes32} {before bit : ℕ}
    (h : firstDifferenceBefore p pre before = some bit) :
    bit < before ∧ bitAt p bit ≠ bitAt pre bit ∧ ∀ i < bit, bitAt p i = bitAt pre i := by
  obtain ⟨hne, hmem, hlt⟩ := List.find?_range_eq_some.mp h
  exact ⟨List.mem_range.mp hmem, by simpa using hne, fun i hi => by simpa using hlt i hi⟩

theorem firstDifferenceBefore_eq_none {p pre : Bytes32} {before : ℕ}
    (h : firstDifferenceBefore p pre before = none) : ∀ i < before, bitAt p i = bitAt pre i :=
  fun i hi => by
    have := List.find?_eq_none.mp h i (List.mem_range.mpr hi)
    simpa using this

/-! ## Nodes and their store -/

/-- `StateNodeV2`, over logical keys `K` and hashes `H`. -/
inductive StateNodeV2 (K H : Type)
  | leaf (position : Bytes32) (logicalKey : K) (value : Bytes)
  | branch (bit : ℕ) (prefixBits : Bytes32) (left right : H)
  deriving DecidableEq

/-- `StateTreeError`. The store of the model is a map whose reads and writes cannot fail, so
there is no `Storage` case. -/
inductive StateTreeError (H : Type)
  | corruptLeaf
  | corruptNode
  | keyCollision
  | rootMismatch (expected actual : H)
  deriving DecidableEq

/-- `MAX_BYTES` of `v2/wire.rs`: the longest byte string `Decoder::bytes` accepts. -/
def maxBytes : ℕ := 64 * 1024 * 1024

/-- Logical keys: `state_position`, the digest that places a key in the tree, and whether a leaf's
key reads back, its wire within `MAX_BYTES` and decoded by `StateKeyV2::decode` to the key. -/
class StateKey (K : Type) where
  statePosition : K → Bytes32
  readsBack : K → Bool

/-- `hash_node`. `Hash::ZERO` is the `0` of `H`. -/
class StateHasher (K H : Type) where
  hashNode : StateNodeV2 K H → H

open StateKey StateHasher

variable {K H : Type} [DecidableEq K] [DecidableEq H] [Zero H] [StateKey K] [StateHasher K H]

/-- `empty_state_root`. -/
def emptyStateRoot : H := 0

/-- The node rows of a `StateTreeStore`, `node_storage_key(hash) ↦ node`, kept decoded. -/
abbrev NodeStore (K H : Type) := Finmap fun _ : H => StateNodeV2 K H

/-- The checks of `StateNodeV2::decode_body` on the wire of a node: a leaf's key reads back, its
value is within `MAX_BYTES`, and it sits at the position of its key; a branch bit is below
`TREE_DEPTH`, its prefix has no bits from `bit` on, and its children are distinct and nonzero. -/
def StateNodeV2.isCanonical : StateNodeV2 K H → Bool
  | .leaf position logicalKey value =>
    readsBack logicalKey && decide (value.length ≤ maxBytes) &&
      statePosition logicalKey == position
  | .branch bit pre left right =>
    !(decide (treeDepth ≤ bit) || prefixOf pre bit != pre || left == 0 || right == 0 ||
      left == right)

/-- `read_node`: a node whose wire does not decode is `CorruptNode`. -/
def readNode (store : NodeStore K H) (expected : H) : Except (StateTreeError H) (StateNodeV2 K H) :=
  match store.lookup expected with
  | none => .error (.rootMismatch expected 0)
  | some node =>
    if !node.isCanonical then .error .corruptNode
    else if hashNode node ≠ expected then
      .error (match node with
        | .leaf .. => .corruptLeaf
        | .branch .. => .corruptNode)
    else .ok node

/-- `store_node`. -/
def storeNode (store : NodeStore K H) (node : StateNodeV2 K H) :
    Except (StateTreeError H) (H × NodeStore K H) :=
  let hash := hashNode node
  match store.lookup hash with
  | some existing => if existing ≠ node then .error .corruptNode else .ok (hash, store)
  | none => .ok (hash, store.insert hash node)

/-- `store_branch`. -/
def storeBranch (store : NodeStore K H) (bit : ℕ) (insertedPosition : Bytes32)
    (existing inserted : H) : Except (StateTreeError H) (H × NodeStore K H) :=
  let (left, right) := if bitAt insertedPosition bit then (existing, inserted)
    else (inserted, existing)
  storeNode store (.branch bit (prefixOf insertedPosition bit) left right)

/-- `update`: the new root of the subtree at `current` once the row of `key` at `position` is
set to `value` (deleted on `none`). The recursion is given fuel; `none` means the fuel ran out or
the `expect` on `first_differing_bit` panicked. -/
def update (store : NodeStore K H) (current : H) (position : Bytes32) (key : K)
    (value : Option Bytes) : ℕ → Option (Except (StateTreeError H) (H × NodeStore K H))
  | 0 => none
  | fuel + 1 =>
    if current = 0 then
      match value with
      | some value => some (storeNode store (.leaf position key value))
      | none => some (.ok (0, store))
    else
      match readNode store current with
      | .error e => some (.error e)
      | .ok (.leaf storedPosition logicalKey storedValue) =>
        if storedPosition = position then
          if logicalKey ≠ key then some (.error .keyCollision)
          else
            match value with
            | some value =>
              if value = storedValue then some (.ok (current, store))
              else some (storeNode store (.leaf position key value))
            | none => some (.ok (0, store))
        else
          match value with
          | none => some (.ok (current, store))
          | some value =>
            (firstDifferingBit storedPosition position).map fun bit => do
              let (inserted, store) ← storeNode store (.leaf position key value)
              storeBranch store bit position current inserted
      | .ok (.branch bit pre left right) =>
        match firstDifferenceBefore position pre bit with
        | some earlier =>
          match value with
          | none => some (.ok (current, store))
          | some value => some do
            let (inserted, store) ← storeNode store (.leaf position key value)
            storeBranch store earlier position current inserted
        | none =>
          let rightSide := bitAt position bit
          let child := if rightSide then right else left
          (update store child position key value fuel).map fun result => do
            let (nextChild, store) ← result
            if nextChild = child then pure (current, store)
            else if nextChild = 0 then pure (if rightSide then left else right, store)
            else
              storeNode store (if rightSide then .branch bit pre left nextChild
                else .branch bit pre nextChild right)

/-- The loop of `ServiceStateTreeV2::get` from the node `current` down, looking for the row of
`key` at `position`. The loop is given fuel; `none` means the fuel ran out. -/
def getFrom (store : NodeStore K H) (position : Bytes32) (key : K) :
    ℕ → H → Option (Except (StateTreeError H) (Option Bytes))
  | 0, _ => none
  | fuel + 1, current =>
    if current = 0 then some (.ok none)
    else
      match readNode store current with
      | .error e => some (.error e)
      | .ok (.leaf storedPosition logicalKey value) =>
        if storedPosition ≠ position then some (.ok none)
        else if logicalKey ≠ key then some (.error .keyCollision)
        else some (.ok (some value))
      | .ok (.branch bit pre left right) =>
        if prefixOf position bit ≠ pre then some (.ok none)
        else getFrom store position key fuel (if bitAt position bit then right else left)

/-- `ServiceStateTreeV2`, with the store it borrows. -/
structure ServiceStateTreeV2 (K H : Type) where
  store : NodeStore K H
  root : H
  deriving DecidableEq

namespace ServiceStateTreeV2

/-- `ServiceStateTreeV2::apply`: set or delete the row of `key` and move the root. -/
def apply (tree : ServiceStateTreeV2 K H) (key : K) (value : Option Bytes) :
    Option (Except (StateTreeError H) (ServiceStateTreeV2 K H)) :=
  (update tree.store tree.root (statePosition key) key value (treeDepth + 1)).map fun result =>
    result.map fun (next, store) => { store, root := next }

/-- `ServiceStateTreeV2::get`: the value of the row of `key`, given one more step than the tree
is deep. -/
def get (tree : ServiceStateTreeV2 K H) (key : K) :
    Option (Except (StateTreeError H) (Option Bytes)) :=
  getFrom tree.store (statePosition key) key (treeDepth + 1) tree.root

/-- A sequence of `apply` calls on one tree, stopped by the first error as the callers' `?` does. -/
def applyAll (tree : ServiceStateTreeV2 K H) :
    List (K × Option Bytes) → Option (Except (StateTreeError H) (ServiceStateTreeV2 K H))
  | [] => some (.ok tree)
  | (key, value) :: rows =>
    match tree.apply key value with
    | some (.ok tree) => tree.applyAll rows
    | result => result

end ServiceStateTreeV2

end Vos.V2
