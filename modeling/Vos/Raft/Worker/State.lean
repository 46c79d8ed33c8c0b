import Vos.Raft.Storage
import Vos.Raft.ActiveConfig

/-!
# vos-raft — the worker state

`WorkerState` is the worker's record (`WorkerState` in `worker.rs`) less its transport, apply
sink, atomics and timers, over any `Storage`. Three pieces of the source's environment become
fields: `now`, the reading of the worker clock; `outbox`, what the worker hands to the outside
world during one step (the RPC futures pushed to `pending`, and the replies sent on read-index
channels); and nothing else, since election deadlines are left to the environment, which
decides when a timer fires.

A handler runs in `WorkerM`: storage errors abort it with `E` while every in-place mutation made
before the error stays, as with `&mut WorkerState` in the source.

* `LeaderState`, `SnapshotSendState`, `IncomingSnapshot`, `PendingReadIndex`, `Outbound`;
* `WorkerState`, `WorkerM`, `storageCall`;
* small helpers: `setRole`, `emit`, `drainPendingReadsOnStepDown`, `stepDown`,
  `persistTermBump`, `memberMatchScore`, `matchIndexMajorityFloor`, `isSoloCluster`,
  `rebuildLeaderTracking`.
-/

namespace Vos.Raft

/-- `BTreeMap<K, V>` over a key type with decidable equality, as an association list; only
lookups, inserts and `retain` are used, so the order of the pairs is not observable. -/
abbrev KeyMap (K V : Type) := List (K × V)

namespace KeyMap

variable {K V : Type} [DecidableEq K]

def get? (m : KeyMap K V) (k : K) : Option V := (m.find? (·.1 = k)).map Prod.snd

def insert (m : KeyMap K V) (k : K) (v : V) : KeyMap K V := (k, v) :: m.filter (·.1 ≠ k)

def erase (m : KeyMap K V) (k : K) : KeyMap K V := m.filter (·.1 ≠ k)

/-- `entry(k).or_insert(v)`. -/
def orInsert (m : KeyMap K V) (k : K) (v : V) : KeyMap K V :=
  if (m.get? k).isSome then m else m.insert k v

def retain (m : KeyMap K V) (p : K → Bool) : KeyMap K V := m.filter (p ·.1)

end KeyMap

/-- The leader's cursor into one peer's chunked snapshot stream. -/
structure SnapshotSendState where
  lastIncludedIndex : Nat
  lastIncludedTerm : Nat
  offset : Nat
  deriving DecidableEq, Repr

/-- Per-follower replication bookkeeping (`LeaderState`). -/
structure LeaderState (N : Type) where
  nextIndex : KeyMap N Nat
  matchIndex : KeyMap N Nat
  snapshotSend : KeyMap N SnapshotSendState
  deriving DecidableEq, Repr

/-- `LeaderState::fresh`: every peer but `me` at `last + 1`, matched at `0`. -/
def LeaderState.fresh {N : Type} [DecidableEq N] (members : List N) (me : N)
    (lastLogIndex : Nat) : LeaderState N :=
  { nextIndex := (members.filter (· ≠ me)).map fun p => (p, lastLogIndex + 1),
    matchIndex := (members.filter (· ≠ me)).map fun p => (p, 0),
    snapshotSend := [] }

/-- The follower-side accumulator of a chunked `InstallSnapshot`. -/
structure IncomingSnapshot (N : Type) where
  leader : N
  term : Nat
  lastIncludedIndex : Nat
  lastIncludedTerm : Nat
  buffer : List UInt8
  deriving DecidableEq, Repr

/-- A queued `read_index` request; `reply` names its oneshot channel. -/
structure PendingReadIndex where
  requiredIndex : Nat
  deadline : Option Nat
  reply : Nat
  deriving DecidableEq, Repr

/-- What one step hands to the outside world: an outbound RPC (with the context its future
captured), or a reply on a read-index channel. -/
inductive Outbound (N : Type)
  | append (peer : N) (req : AppendEntriesReq N)
  | vote (peer : N) (req : RequestVoteReq N)
  | preVote (peer : N) (req : PreVoteReq N)
  | install (peer : N) (req : InstallSnapshotReq N) (chunkEndOffset : Nat) (wasFinal : Bool)
  | readReply (reply : Nat) (result : Except ReadIndexError Nat)
  deriving DecidableEq

/-- The worker's state. -/
structure WorkerState (N S : Type) where
  storage : S
  cfg : Config N
  role : Role
  meta' : Meta N
  lastHeartbeatReceived : Option Nat
  votesReceived : List N
  leader : Option (LeaderState N)
  pendingReadIndex : List PendingReadIndex
  incomingSnapshot : Option (IncomingSnapshot N)
  effectiveCfg : ActiveConfig N
  pendingJointEntry : Option Nat
  activeConfigIndex : Option Nat
  currentTermFirstIndex : Option Nat
  seenLeader : Option N
  preCandidateMisses : Nat
  /-- The worker clock's current reading. -/
  now : Nat
  /-- RPCs started and replies sent during the current step. -/
  outbox : List (Outbound N)

/-- A worker step: storage errors abort with `E`, keeping the mutations made so far. -/
abbrev WorkerM (N S E : Type) := ExceptT E (StateM (WorkerState N S))

variable {N S E : Type} [DecidableEq N] [Storage N S E]

/-- A storage access: its error aborts the step (the `?` of the source). -/
def storageCall {α : Type} (r : Except E α) : WorkerM N S E α :=
  match r with
  | .ok a => pure a
  | .error e => throw e

def setRole (role : Role) : WorkerM N S E Unit := modify fun s => { s with role }

def emit (o : Outbound N) : WorkerM N S E Unit :=
  modify fun s => { s with outbox := s.outbox ++ [o] }

/-- `drain_pending_reads_on_step_down`: every queued read fails with `LeaderStepped`. -/
def drainPendingReadsOnStepDown : WorkerM N S E Unit :=
  modify fun s =>
    { s with outbox := s.outbox ++ s.pendingReadIndex.map fun p => .readReply p.reply (.error .leaderStepped),
             pendingReadIndex := [] }

/-- `step_down`: back to Follower, dropping every piece of candidate or leader state. -/
def stepDown : WorkerM N S E Unit := do
  modify fun s =>
    { s with role := .follower, votesReceived := [], leader := none,
             currentTermFirstIndex := none, preCandidateMisses := 0, incomingSnapshot := none }
  drainPendingReadsOnStepDown

/-- `persist_term_bump`: the in-memory meta moves only after the durable write succeeds. -/
def persistTermBump (newTerm : Nat) : WorkerM N S E Unit := do
  let s ← get
  let next := { s.meta' with currentTerm := newTerm, votedFor := none }
  let st ← storageCall (Storage.commitBatch s.storage { meta' := some next })
  modify fun s => { s with storage := st, meta' := next }

/-- `member_match_score`: the leader scores itself by its last index, peers by `match_index`. -/
def memberMatchScore (s : WorkerState N S) (m : N) : Nat :=
  if m = s.cfg.me then Storage.lastIndex s.storage
  else ((s.leader.bind fun l => l.matchIndex.get? m)).getD 0

/-- `match_index_majority_floor`; `none` off the leader. -/
def matchIndexMajorityFloor (s : WorkerState N S) : Option Nat :=
  if s.leader.isNone then none else s.effectiveCfg.majorityFloor (memberMatchScore s)

/-- `quorum_holds` on the effective configuration. -/
def WorkerState.quorumHolds (s : WorkerState N S) (pred : N → Bool) : Bool :=
  s.effectiveCfg.quorumHolds pred

/-- `is_solo_cluster`: every voter of the active view is this replica. -/
def isSoloCluster (s : WorkerState N S) : Bool :=
  s.effectiveCfg.current.all (· = s.cfg.me) &&
    (s.effectiveCfg.jointOld.map fun old => old.all (· = s.cfg.me)).getD true

/-- `rebuild_leader_tracking`: track every member of the active view, drop the others. -/
def rebuildLeaderTracking : WorkerM N S E Unit :=
  modify fun s =>
    match s.leader with
    | none => s
    | some l =>
      let last := Storage.lastIndex s.storage
      let members := s.effectiveCfg.allMembers
      let l := members.foldl (fun (l : LeaderState N) m =>
        if m = s.cfg.me then l
        else { l with nextIndex := l.nextIndex.orInsert m (last + 1),
                      matchIndex := l.matchIndex.orInsert m 0 }) l
      let keep := fun m => members.contains m
      { s with leader := some { nextIndex := l.nextIndex.retain keep,
                                matchIndex := l.matchIndex.retain keep,
                                snapshotSend := l.snapshotSend.retain keep } }

end Vos.Raft
