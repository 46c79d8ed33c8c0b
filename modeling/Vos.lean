import Vos.Raft.Types
import Vos.Raft.Storage
import Vos.Raft.ActiveConfig
import Vos.Raft.Worker.State
import Vos.Raft.Worker.Leader
import Vos.Raft.Worker.Inbound
import Vos.Raft.Worker.Election
import Vos.Raft.Worker.Loop
import Vos.Lib.ExceptState
import Vos.Lib.ByteCodec
import Vos.Raft.MetaOrder
import Vos.Raft.Worker.Monotone
import Vos.Raft.Cluster
import Vos.Lib.Replicated
import Vos.Lib.FinmapGraph
import Vos.Crdt.Basic
import Vos.Crdt.Sequence
import Vos.Crdt.SequenceOrder
import Vos.Crdt.Map
import Vos.Crdt.Convergence
import Vos.Crdt.Join
import Vos.Crdt.CounterValue
import Vos.Crdt.SequencePosition
import Vos.Crdt.ChangeScope
import Vos.Crdt.Mutation
import Vos.Lib.Dag
import Vos.Lib.Patricia
import Vos.MerkleCrdt.Node
import Vos.MerkleCrdt.TopologicalSort
import Vos.MerkleCrdt.Walk
import Vos.MerkleCrdt.Replica
import Vos.MerkleCrdt.Convergence
import Vos.MerkleCrdt.Sync
import Vos.MerkleCrdt.Retry
import Vos.MerkleCrdt.ClockWalk
import Vos.MerkleCrdt.NodeCodec
import Vos.MerkleCrdt.Merge
import Vos.Commit.Replay
import Vos.V2.StateTree
import Vos.V2.StateKey
import Vos.V2.CanonicalTree
import Vos.V2.Causal
import Vos.V2.CausalSelect
import Vos.EffectLog
import Vos.Network.Wire
import Vos.Zkpvm.PageMerkle
import Vos.Lib.CompleteTree
import Vos.Zk.State
import Vos.Zk.Proof
import Vos.Storage.Committed
import Vos.Storage.CommittedTree
import Vos.Storage.CommittedUpdate
import Vos.Storage.CommittedMap
import Vos.Storage.CommittedSpec
