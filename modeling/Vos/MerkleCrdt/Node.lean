import Vos.Lib.FinmapGraph
import Vos.Lib.Dag

/-!
# merkle-crdt — DAG nodes, stores and the Merkle-Clock

The crate `merkle-crdt` keeps each replica's history as a Merkle-DAG: a node carries a payload and
the CIDs of its children, and is stored under its own CID, the hash of its encoding. A CID is any
linearly ordered type `C` (the hasher's digest, ordered as bytes); `NodeHasher.hash` is
`Cid(H::hash(&node.to_bytes()))`, the encoding and the hash together.

The local store is a `MemStore`, a finite map from CIDs to nodes whose `put` never fails;
`putBatch` is the trait's default `put_batch`, with an optional position at which a backend's
`put` fails, the nodes before it staying stored.

* `DagNode`, `NodeHasher`, `DagNode.cid`, `Payload`;
* `Error`, `SyncError`, `mapLocalError`;
* `Store`, `Store.Valid` (every node stored under its own CID), `putBatch`;
* `MerkleClock`, `MerkleClock.record`, `MerkleClock.addRoots`.
-/

namespace Vos.MerkleCrdt

/-- `DagNode<H, P>`: a payload and the CIDs of its children. -/
structure DagNode (C P : Type) where
  payload : P
  children : Finset C
  deriving DecidableEq

/-- The hasher applied to a node's encoding: `DagNode::cid`. -/
class NodeHasher (C P : Type) where
  hash : DagNode C P → C

/-- `Payload`: the materialized state, its default, and how a payload applies to it. -/
class Payload (P : Type) (State : outParam Type) where
  apply : State → P → State
  default : State

/-- `Error<S::Error>` of the local store; the store's own error is kept only as `store`. -/
inductive Error
  | store
  | missingNode
  | invalidCid
  | invalidAuthor
  deriving DecidableEq, Repr

/-- `SyncError<L, R>`. -/
inductive SyncError
  | localError
  | remoteError
  | missingNode
  | invalidCid
  | invalidAuthor
  deriving DecidableEq, Repr

/-- `map_local_error`. -/
def mapLocalError : Error → SyncError
  | .store => .localError
  | .missingNode => .missingNode
  | .invalidCid => .invalidCid
  | .invalidAuthor => .invalidAuthor

/-- `MemStore<H, P>`: nodes by CID. -/
abbrev Store (C P : Type) := Finmap fun _ : C => DagNode C P

section

variable {C P : Type} [DecidableEq C] [NodeHasher C P]

/-- `DagNode::cid`. -/
def DagNode.cid (n : DagNode C P) : C := NodeHasher.hash n

/-- Every node is stored under its own CID. -/
def Store.Valid (store : Store C P) : Prop := ∀ x n, store.lookup x = some n → n.cid = x

/-- The edges of the DAG: from a stored node to each of its children. -/
abbrev Store.Edge (store : Store C P) : C → C → Prop := Dag.Edge DagNode.children store

/-- The CIDs reachable from `roots`. -/
abbrev Store.Reach (store : Store C P) (roots : Finset C) : C → Prop :=
  Dag.Reach DagNode.children store roots

/-- `Store::put_batch`'s default: put the nodes in order. `failAt = some k` is a backend whose
`put` fails on the node at position `k`; the nodes before it are stored, and the error is returned
with the store as it then is. -/
def putBatch (store : Store C P) (nodes : List (C × DagNode C P)) (failAt : Option ℕ) :
    Except Error Unit × Store C P :=
  match failAt with
  | some k => if k < nodes.length then (.error .store, Dag.insertAll store (nodes.take k))
              else (.ok (), Dag.insertAll store nodes)
  | none => (.ok (), Dag.insertAll store nodes)

omit [NodeHasher C P] in
theorem putBatch_store (store : Store C P) (nodes : List (C × DagNode C P)) (failAt : Option ℕ) :
    ∃ k, (putBatch store nodes failAt).2 = Dag.insertAll store (nodes.take k) := by
  unfold putBatch
  split
  · split
    · exact ⟨_, rfl⟩
    · exact ⟨nodes.length, by rw [List.take_length]⟩
  · exact ⟨nodes.length, by rw [List.take_length]⟩

omit [NodeHasher C P] in
theorem putBatch_ok {store : Store C P} {nodes : List (C × DagNode C P)} {failAt : Option ℕ}
    (h : (putBatch store nodes failAt).1 = .ok ()) :
    (putBatch store nodes failAt).2 = Dag.insertAll store nodes := by
  unfold putBatch at h ⊢
  rcases failAt with _ | k
  · rfl
  · by_cases hk : k < nodes.length
    · simp [hk] at h
    · simp [hk]

end

/-- `MerkleClock<H>`: the root CIDs, the heads of the DAG. -/
structure MerkleClock (C : Type) where
  roots : Finset C
  deriving DecidableEq

namespace MerkleClock

variable {C P : Type} [DecidableEq C] [NodeHasher C P]

/-- `MerkleClock::new`. -/
def new : MerkleClock C := { roots := ∅ }

/-- `record`: store a node whose children are all current roots, and make it the sole root.
A `MemStore` put never fails. -/
def record (clock : MerkleClock C) (payload : P) (store : Store C P) :
    C × MerkleClock C × Store C P :=
  let node : DagNode C P := { payload, children := clock.roots }
  let cid := node.cid
  (cid, { roots := {cid} }, store.insert cid node)

/-- `add_roots`. -/
def addRoots (clock : MerkleClock C) (roots : Finset C) : MerkleClock C :=
  { roots := clock.roots ∪ roots }

end MerkleClock

end Vos.MerkleCrdt
