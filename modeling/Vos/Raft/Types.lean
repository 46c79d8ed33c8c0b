import Mathlib.Data.List.Basic
import Mathlib.Algebra.Group.Nat.Defs

/-!
# vos-raft — the data model

The pure data of `support/vos-raft`: roles, the durable `Meta` scalars, log entries, the RPC
request and response records, the per-replica `Config`, and the persisted
`ActiveConfigRecord`. Node identities are any type with decidable equality (the crate's
`NodeId` bound). The `u64` counters are natural numbers below `2^64`; the one sum of the worker
that can leave that range from a reachable state, the term bump `current_term + 1`, wraps as a
release build computes it (`u64Succ`). The entry indices `prev_log_index + 1 + i` of
`handle_append_entries` are kept unbounded.

* `u64Succ`, the `u64` successor;
* `Role`, `Meta`, `EntryKind`, `LogEntry`;
* `AppendEntriesReq`/`Resp`, `RequestVoteReq`/`Resp`, `PreVoteReq`/`Resp`,
  `InstallSnapshotReq`/`Resp`;
* `Config` (with the defaults of `Config::new`), `Config.quorum`;
* the client-facing errors `ProposeError`, `ReadIndexError`, `ChangeMembershipError`.
-/

namespace Vos.Raft

/-- `x + 1` on a `u64` as a release build computes it, without overflow checks: `u64::MAX + 1`
is `0`. -/
def u64Succ (x : Nat) : Nat := (x + 1) % 2 ^ 64

theorem u64Succ_of_lt {x : Nat} (h : x + 1 < 2 ^ 64) : u64Succ x = x + 1 :=
  Nat.mod_eq_of_lt h

/-- Where a replica sits in the Raft lifecycle (`role.rs`). -/
inductive Role
  | follower
  | preCandidate
  | candidate
  | leader
  deriving DecidableEq, Repr

/-- The durable per-replica scalars (`meta.rs`). -/
structure Meta (N : Type) where
  currentTerm : Nat
  votedFor : Option N
  commitIndex : Nat
  snapLastIndex : Nat
  snapLastTerm : Nat
  deriving DecidableEq, Repr

/-- `Meta::default`: a fresh log. -/
def Meta.default {N : Type} : Meta N :=
  { currentTerm := 0, votedFor := none, commitIndex := 0, snapLastIndex := 0, snapLastTerm := 0 }

/-- What sits in the log at one index (`log_entry.rs`). -/
inductive EntryKind (N : Type)
  | data (payload : List UInt8)
  | configChange (jointOld : Option (List N)) (members : List N)
  deriving DecidableEq, Repr

/-- One log entry; `index` is 1-based. -/
structure LogEntry (N : Type) where
  index : Nat
  term : Nat
  kind : EntryKind N
  deriving DecidableEq, Repr

/-- `LogEntry::data`. -/
def LogEntry.data {N : Type} (index term : Nat) (payload : List UInt8) : LogEntry N :=
  { index, term, kind := .data payload }

/-- `EntryKind::ConfigChange` test used by the membership scans. -/
def EntryKind.isConfigChange {N : Type} : EntryKind N → Bool
  | .configChange _ _ => true
  | .data _ => false

/-! ## RPC records (`rpc.rs`) -/

structure AppendEntriesReq (N : Type) where
  leader : N
  term : Nat
  prevLogIndex : Nat
  prevLogTerm : Nat
  leaderCommit : Nat
  entries : List (LogEntry N)
  deriving DecidableEq, Repr

structure AppendEntriesResp where
  term : Nat
  success : Bool
  matchIndex : Nat
  deriving DecidableEq, Repr

structure RequestVoteReq (N : Type) where
  candidate : N
  term : Nat
  lastLogIndex : Nat
  lastLogTerm : Nat
  deriving DecidableEq, Repr

structure RequestVoteResp where
  term : Nat
  voteGranted : Bool
  deriving DecidableEq, Repr

structure PreVoteReq (N : Type) where
  candidate : N
  nextTerm : Nat
  lastLogIndex : Nat
  lastLogTerm : Nat
  deriving DecidableEq, Repr

structure PreVoteResp where
  term : Nat
  voteGranted : Bool
  deriving DecidableEq, Repr

structure InstallSnapshotReq (N : Type) where
  leader : N
  term : Nat
  lastIncludedIndex : Nat
  lastIncludedTerm : Nat
  offset : Nat
  done : Bool
  data : List UInt8
  members : List N
  jointOld : Option (List N)
  activeConfigIndex : Option Nat
  deriving DecidableEq, Repr

structure InstallSnapshotResp where
  term : Nat
  bytesReceived : Nat
  deriving DecidableEq, Repr

/-! ## Configuration (`config.rs`, `storage.rs`) -/

/-- The per-replica configuration, with the fields the worker reads. Timer lengths other than
the pre-vote leader check's lower bound are not modelled: timer firings are scheduled by the
environment. -/
structure Config (N : Type) where
  me : N
  members : List N
  /-- `election_timeout_ms.0`, the pre-vote leader-check window. -/
  electionTimeoutLow : Nat
  compactHysteresis : Nat
  preVote : Bool
  installSnapshotChunkBytes : Nat
  maxPendingReads : Nat
  maxSnapshotBytes : Nat
  preCandidateMissesBeforeRevert : Nat
  deriving DecidableEq, Repr

/-- `Config::new`: the defaults for everything but identity and membership. -/
def Config.new {N : Type} (me : N) (members : List N) : Config N :=
  { me, members, electionTimeoutLow := 150, compactHysteresis := 16, preVote := true,
    installSnapshotChunkBytes := 32 * 1024, maxPendingReads := 1024,
    maxSnapshotBytes := 512 * 1024 * 1024, preCandidateMissesBeforeRevert := 3 }

/-- `Config::quorum`: a strict majority of `members`. -/
def Config.quorum {N : Type} (c : Config N) : Nat := c.members.length / 2 + 1

/-- The durable active-membership view (`ActiveConfigRecord`). -/
structure ActiveConfigRecord (N : Type) where
  logIndex : Option Nat
  current : List N
  jointOld : Option (List N)
  deriving DecidableEq, Repr

/-! ## Client-facing errors (`worker.rs`) -/

inductive ProposeError
  | notLeader
  | storage
  deriving DecidableEq, Repr

inductive ReadIndexError
  | notLeader
  | leaderStepped
  | backpressure
  | timedOut
  deriving DecidableEq, Repr

inductive ChangeMembershipError
  | notLeader
  | inProgress
  | emptyConfig
  | storage
  deriving DecidableEq, Repr

end Vos.Raft
