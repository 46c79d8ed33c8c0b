import Vos.Zk.State

/-!
# vos storage — the committed map

`actors/storage/committed.rs`: a key-ordered map whose content is bound by a sparse-Merkle root
kept current as ordinary storage rows. Rows exist only where the key set branches:

* a value row per key, the entry's encoded value;
* a node row per branching point `(level, prefix)`: its two child refs;
* the root row: the entry count, the root hash and the top ref.

A ref is empty, a leaf (key and leaf hash) or a deeper branch node (level, prefix and memoized
subtree hash); the levels in between are empty spines, recomputed by `spine_hash`.

* `Ref`, `Rows`, `refSubtreeHash`, `firstDiffLevel`, `divergeBefore`, `prefixOf`;
* `update_tree` as the descent `descend` (the `loop`, collecting the branch nodes passed in
  `Frame`s), the collapse `collapse` and the bubble-up `bubble`: `updateTree`;
* `insertEncoded`, `insert`, `insertWithLeaf`, `remove`, `get`, `len`, `root`, and the in-order
  walk `iterate`.

Keys and prefixes are the big-endian values of their `K::WIDTH` bytes (see `Vos.Zk.State`). A
branch level is a `u16`, and every `as u16` of the source is kept. The row store is the dispatch
overlay after commit: a stored `None` removes the row. A value is represented by its encoding.
The descent and the walk are loops of the source; the model gives them fuel.
-/

namespace Vos.Storage

open Vos.Zk CompleteTree

/-- `Ref`: a child slot of a branch node, or the tree's top slot. -/
inductive Ref (H : Type) where
  | empty
  | leaf (key : ℕ) (hash : H)
  | branch (level : UInt16) (prefixBits : ℕ) (hash : H)
  deriving DecidableEq, Repr

/-- `matches!(r, Ref::Empty)`. -/
def Ref.isEmpty {H : Type} : Ref H → Bool
  | .empty => true
  | _ => false

@[simp] theorem Ref.isEmpty_iff {H : Type} {r : Ref H} : r.isEmpty = true ↔ r = .empty := by
  cases r <;> simp [Ref.isEmpty]

/-- The rows of one committed map: value rows by key, node rows by `(level, prefix)`, and the root
row `(count, root hash, top ref)`. -/
structure Rows (H : Type) where
  values : Finmap fun _ : ℕ => List UInt8
  nodes : Finmap fun _ : UInt16 × ℕ => Ref H × Ref H
  root : Option (ℕ × H × Ref H)

/-- The rows of a map that was never written. -/
def Rows.empty {H : Type} : Rows H := ⟨∅, ∅, none⟩

/-- A branch node passed on the way down: its cell, its two children, and the side the key
takes. -/
structure Frame (H : Type) where
  level : UInt16
  prefixBits : ℕ
  left : Ref H
  right : Ref H
  side : Bool

/-- Where the descent stops: the count, whether the key set changed, the ref replacing the slot
(`none` removes it), the node rows written on the way, and the branch nodes passed. -/
structure Descent (H : Type) where
  count : ℕ
  changed : Bool
  replacement : Option (Ref H)
  nodes : Finmap fun _ : UInt16 × ℕ => Ref H × Ref H
  stack : List (Frame H)

/-- `MAX_VALUE_BYTES`: a stored row holds at most this many bytes. -/
def maxValueBytes : ℕ := 64 * 1024

section Map

variable {H : Type} (node : H → H → H) (emptyLeaf : H) (p : SmtParams)

/-- `first_diff_level`: the first MSB-first bit where two distinct keys differ (the source finds
the first differing byte and counts the leading zeros of their xor). -/
def firstDiffLevel (a b : ℕ) : Option ℕ :=
  (List.range p.depth).find? fun l => levelBit p a l != levelBit p b l

/-- `diverge_before`: the first bit below `limit` where `key` leaves `pre`. -/
def divergeBefore (key pre limit : ℕ) : Option ℕ :=
  (List.range limit).find? fun l => levelBit p key l != levelBit p pre l

/-- `prefix_of`: the first `level` bits of `key`, the others cleared. -/
def prefixOf (key level : ℕ) : ℕ := key / 2 ^ (p.depth - level) * 2 ^ (p.depth - level)

/-- `ref_subtree_hash`: the hash of the subtree holding `r`'s content, lifted to `atLevel`. -/
def refSubtreeHash : Ref H → ℕ → H
  | .empty, atLevel => emptyRoot node emptyLeaf (p.depth - atLevel)
  | .leaf key hash, atLevel => spineHash node emptyLeaf key hash 0 (p.depth - atLevel)
  | .branch level pre hash, atLevel =>
    spineHash node emptyLeaf pre hash (p.depth - level.toNat) (p.depth - atLevel)

/-- The branch node over two refs split at bit `d`: its children, ours on the side of `kb`'s
bit, and the ref naming it. -/
def splitNode (kb d : ℕ) (ours theirs : Ref H) : (Ref H × Ref H) × Ref H :=
  let (l, r) := if levelBit p kb d then (theirs, ours) else (ours, theirs)
  let h := node (refSubtreeHash node emptyLeaf p l (d + 1)) (refSubtreeHash node emptyLeaf p r (d + 1))
  ((l, r), .branch d.toUInt16 (prefixOf p kb d) h)

/-- The `loop` of `update_tree`: walk down from `cur` to the slot `kb` occupies or diverges
from. `leaf` is the new leaf hash, `none` for a removal; `none` is returned where the source
panics (a removal reaching a foreign key, a missing node row) or the fuel runs out. -/
def descend (kb : ℕ) (leaf : Option H) (count : ℕ) :
    ℕ → Finmap (fun _ : UInt16 × ℕ => Ref H × Ref H) → List (Frame H) → Ref H →
      Option (Descent H)
  | 0, _, _, _ => none
  | _ + 1, nodes, stack, .empty =>
    match leaf with
    | some hash => some ⟨count + 1, true, some (.leaf kb hash), nodes, stack⟩
    | none => some ⟨count, false, some .empty, nodes, stack⟩
  | _ + 1, nodes, stack, .leaf k2 h2 =>
    if k2 = kb then
      match leaf with
      | some hash => some ⟨count, false, some (.leaf k2 hash), nodes, stack⟩
      | none => some ⟨count - 1, true, none, nodes, stack⟩
    else
      match leaf, firstDiffLevel p kb k2 with
      | some hash, some d =>
        let (children, parent) := splitNode node emptyLeaf p kb d (.leaf kb hash) (.leaf k2 h2)
        some ⟨count + 1, true, some parent, nodes.insert (d.toUInt16, prefixOf p kb d) children,
          stack⟩
      | _, _ => none
  | fuel + 1, nodes, stack, .branch level pre hash =>
    match divergeBefore p kb pre level.toNat with
    | some d =>
      match leaf with
      | some lhash =>
        let (children, parent) :=
          splitNode node emptyLeaf p kb d (.leaf kb lhash) (.branch level pre hash)
        some ⟨count + 1, true, some parent, nodes.insert (d.toUInt16, prefixOf p kb d) children,
          stack⟩
      | none => none
    | none =>
      match nodes.lookup (level, pre) with
      | some (left, right) =>
        let side := levelBit p kb level.toNat
        descend kb leaf count fuel nodes (⟨level, pre, left, right, side⟩ :: stack)
          (if side then right else left)
      | none => none

/-- The collapse: a removed leaf takes its parent node with it, and the sibling rises into the
parent's slot. -/
def collapse (d : Descent H) : Finmap (fun _ : UInt16 × ℕ => Ref H × Ref H) × Ref H × List (Frame H) :=
  match d.replacement with
  | some r => (d.nodes, r, d.stack)
  | none =>
    match d.stack with
    | [] => (d.nodes, .empty, [])
    | f :: rest => (d.nodes.erase (f.level, f.prefixBits), if f.side then f.left else f.right, rest)

/-- The bubble-up: rewrite each branch node passed with its updated child, and re-memoize its
hash. -/
def bubble : Finmap (fun _ : UInt16 × ℕ => Ref H × Ref H) → Ref H → List (Frame H) →
    Finmap (fun _ : UInt16 × ℕ => Ref H × Ref H) × Ref H
  | nodes, child, [] => (nodes, child)
  | nodes, child, f :: stack =>
    let (left, right) := if f.side then (f.left, child) else (child, f.right)
    let h := node (refSubtreeHash node emptyLeaf p left (f.level.toNat + 1))
      (refSubtreeHash node emptyLeaf p right (f.level.toNat + 1))
    bubble (nodes.insert (f.level, f.prefixBits) (left, right)) (.branch f.level f.prefixBits h)
      stack

/-- `read_root`. -/
def readRoot (rows : Rows H) : ℕ × Option H × Ref H :=
  match rows.root with
  | some (count, hash, top) => (count, some hash, top)
  | none => (0, none, .empty)

/-- `update_tree`: set (`some`) or clear (`none`) the leaf of `kb`, rewrite the branch path and
the root row; also whether the key set changed. -/
def updateTree (rows : Rows H) (kb : ℕ) (leaf : Option H) : Option (Rows H × Bool) := do
  let (count, _, top) := readRoot rows
  let d ← descend node emptyLeaf p kb leaf count (p.depth + 1) rows.nodes [] top
  let (nodes, child, stack) := collapse d
  let (nodes', child') := bubble node emptyLeaf p nodes child stack
  some (⟨rows.values, nodes', some (d.count, refSubtreeHash node emptyLeaf p child' 0, child')⟩,
    d.changed)

variable (leafHash : List UInt8 → H)

/-- `insert_encoded`: store the value row, then set the leaf. `none` where `overlay_store`
refuses a value over `MAX_VALUE_BYTES`. -/
def insertEncoded (rows : Rows H) (kb : ℕ) (valueBytes leafContent : List UInt8) :
    Option (Rows H × Bool) :=
  if valueBytes.length ≤ maxValueBytes then
    updateTree node emptyLeaf p { rows with values := rows.values.insert kb valueBytes } kb
      (some (leafHash leafContent))
  else none

/-- `insert`: the leaf commits the value's own encoding. -/
def insert (rows : Rows H) (kb : ℕ) (value : List UInt8) : Option (Rows H × Bool) :=
  insertEncoded node emptyLeaf p leafHash rows kb value value

/-- `insert_with_leaf`: the leaf commits the caller's content. -/
def insertWithLeaf (rows : Rows H) (kb : ℕ) (value leafContent : List UInt8) :
    Option (Rows H × Bool) :=
  insertEncoded node emptyLeaf p leafHash rows kb value leafContent

/-- `remove`: a key without a value row is left alone. -/
def remove (rows : Rows H) (kb : ℕ) : Option (Rows H × Bool) :=
  if kb ∈ rows.values then
    updateTree node emptyLeaf p { rows with values := rows.values.erase kb } kb none
  else some (rows, false)

end Map

section Reads

variable {H : Type} (node : H → H → H) (emptyLeaf : H) (p : SmtParams)

/-- `len`: the root row's count. -/
def len (rows : Rows H) : ℕ := (readRoot rows).1

/-- `root`: the root row's hash, or the empty tree's root. -/
def root (rows : Rows H) : H := ((readRoot rows).2.1).getD (emptyRoot node emptyLeaf p.depth)

/-- `get`: one value row. -/
def get (rows : Rows H) (kb : ℕ) : Option (List UInt8) := rows.values.lookup kb

/-- The in-order walk of `iter`, collected: pop a ref; a leaf yields its key and value row, a
branch pushes its right and then its left child. `none` where the source panics (a missing
row) or the fuel runs out. -/
def iterate (rows : Rows H) : ℕ → List (Ref H) → Option (List (ℕ × List UInt8))
  | _, [] => some []
  | 0, _ :: _ => none
  | fuel + 1, .empty :: stack => iterate rows fuel stack
  | fuel + 1, .leaf key _ :: stack =>
    match rows.values.lookup key with
    | some value => (iterate rows fuel stack).map ((key, value) :: ·)
    | none => none
  | fuel + 1, .branch level pre _ :: stack =>
    match rows.nodes.lookup (level, pre) with
    | some (left, right) => iterate rows fuel (left :: right :: stack)
    | none => none

/-- `iter().collect()`: the walk from the top ref, with fuel for every ref of the tree. -/
def iter (rows : Rows H) : Option (List (ℕ × List UInt8)) :=
  iterate rows (2 * rows.nodes.keys.card + 2) [(readRoot rows).2.2]

/-- A node row whose left child names the row itself: the walk that reaches it never ends, so no
fuel is enough. -/
theorem iterate_of_self_loop {rows : Rows H} {level : UInt16} {pre : ℕ} {h : H} {right : Ref H}
    (hloop : rows.nodes.lookup (level, pre) = some (.branch level pre h, right)) :
    ∀ fuel hash stack, iterate rows fuel (.branch level pre hash :: stack) = none
  | 0, _, _ => rfl
  | fuel + 1, _, stack => by
    rw [iterate, hloop]
    exact iterate_of_self_loop hloop fuel h (right :: stack)

end Reads

end Vos.Storage
