import Vos.Raft.Worker.Election

/-!
# vos-raft — the worker loop

What `run_worker` does around the handlers: boot from storage (`load_meta`, then
`recover_active_config`), answer an inbound RPC (`handle_msg`, which replies only when the handler
did not fail), and route a resolved outbound future to its reply handler (`handle_rpc_outcome`).

* `ConfigRecovery`, `recoverActiveConfig`, `workerInit`;
* `Request`, `RpcOutcome`, `handleRequest`, `handleRpcOutcome`;
* `WorkerInput`, `WorkerInput.handle`, `workerRun`: one worker driven by arbitrary inputs.
-/

namespace Vos.Raft

variable {N S E : Type} [DecidableEq N] [Storage N S E]

/-- The membership view a worker boots with. -/
structure ConfigRecovery (N : Type) where
  active : ActiveConfig N
  pendingJoint : Option Nat
  activeConfigIndex : Option Nat
  deriving DecidableEq, Repr

/-- `recover_active_config`: the latest `ConfigChange` of the live log, else (when asked) the
persisted `active_config` row, else the static `cfg.members` at index `0`. -/
def recoverActiveConfig (st : S) (cfg : Config N) (consultPersisted : Bool) :
    Except E (ConfigRecovery N) := do
  let last := Storage.lastIndex st
  let snap := Storage.snapLastIndex st
  let found ← if snap < last then latestConfigChange <$> Storage.entries st (snap + 1) last
    else pure none
  match found with
  | some (idx, jointOld, members) =>
    let active : ActiveConfig N := { current := members, jointOld }
    return { active, pendingJoint := if active.isJoint then some idx else none,
             activeConfigIndex := some idx }
  | none =>
    let persisted ← if consultPersisted then Storage.activeConfig st else pure none
    match persisted with
    | some record =>
      return { active := { current := record.current, jointOld := record.jointOld },
               pendingJoint := none, activeConfigIndex := record.logIndex }
    | none =>
      return { active := ActiveConfig.steady cfg.members, pendingJoint := none,
               activeConfigIndex := some 0 }

/-- The worker record `run_worker_with_status` builds at boot, at clock reading `now`: the
persisted meta and recovered view, as a Follower with nothing in flight. -/
def workerInit (st : S) (cfg : Config N) (now : Nat) : Except E (WorkerState N S) := do
  let meta' ← Storage.loadMeta st
  let recovery ← recoverActiveConfig st cfg true
  return { storage := st, cfg, role := .follower, meta', lastHeartbeatReceived := none,
           votesReceived := [], leader := none, pendingReadIndex := [], incomingSnapshot := none,
           effectiveCfg := recovery.active, pendingJointEntry := recovery.pendingJoint,
           activeConfigIndex := recovery.activeConfigIndex, currentTermFirstIndex := none,
           seenLeader := none, preCandidateMisses := 0, now, outbox := [] }

/-- An RPC on the wire to a peer; an `InstallSnapshot` keeps the context its future captured. -/
inductive Request (N : Type)
  | append (req : AppendEntriesReq N)
  | vote (req : RequestVoteReq N)
  | preVote (req : PreVoteReq N)
  | install (req : InstallSnapshotReq N) (chunkEndOffset : Nat) (wasFinal : Bool)
  deriving DecidableEq, Repr

/-- `RpcOutcome` with a reply (`result: Some(_)`): what a resolved outbound future hands back. A
future whose transport failed resolves with no reply and is ignored; here it is a reply that is
never delivered. -/
inductive RpcOutcome (N : Type)
  | append (sender : N) (resp : AppendEntriesResp)
  | vote (sender : N) (resp : RequestVoteResp)
  | preVote (sender : N) (nextTerm : Nat) (resp : PreVoteResp)
  | install (sender : N) (resp : InstallSnapshotResp)
      (lastIncludedIndex lastIncludedTerm chunkEndOffset : Nat) (wasFinal : Bool)
  deriving DecidableEq, Repr

/-- The inbound arms of `handle_msg`: run the handler for a request that `sender` addressed to
`peer` (this worker), and return the outcome the requester's future resolves with, or `none` when
the handler failed and the reply channel was dropped. A pre-vote never changes the state. -/
def handleRequest (sender peer : N) : Request N → WorkerM N S E (Option (RpcOutcome N))
  | .append req =>
    tryCatch ((fun r => some (.append peer r)) <$> handleAppendEntries req) fun _ => pure none
  | .vote req =>
    tryCatch ((fun r => some (.vote peer r)) <$> handleRequestVote req) fun _ => pure none
  | .preVote req => do
    return some (.preVote peer req.nextTerm (handleRequestPrevote (← get) req))
  | .install req chunkEndOffset wasFinal =>
    tryCatch ((fun r => some (.install peer r req.lastIncludedIndex req.lastIncludedTerm
      chunkEndOffset wasFinal)) <$> handleInstallSnapshot sender req) fun _ => pure none

/-- `handle_rpc_outcome`: every reply handler's error is dropped. -/
def handleRpcOutcome : RpcOutcome N → WorkerM N S E Unit
  | .append sender resp => ignoreErrors (handleAppendResponse sender resp)
  | .vote sender resp => ignoreErrors (handleVoteResponse sender resp)
  | .preVote sender nextTerm resp => ignoreErrors (handlePrevoteResponse sender nextTerm resp)
  | .install sender resp lastIncludedIndex lastIncludedTerm chunkEndOffset wasFinal =>
    ignoreErrors (handleInstallSnapshotResponse sender resp lastIncludedIndex lastIncludedTerm
      chunkEndOffset wasFinal)

/-! ## One worker in its environment -/

/-- What reaches one worker from outside: a request from a peer, the resolution of one of its own
RPC futures, a wake-up of its timer, a client call, or the passing of time. The values are
arbitrary: nothing ties a reply to a request the worker sent. -/
inductive WorkerInput (N : Type)
  | request (sender : N) (rpc : Request N)
  | outcome (o : RpcOutcome N)
  | timer (electionDue : Bool)
  | propose (payload : List UInt8)
  | changeMembership (members : List N)
  | readIndex (timeout : Option Nat) (reply : Nat)
  | tick (d : Nat)
  deriving DecidableEq

/-- The worker's handling of one input; answers go to the outbox or are dropped. -/
def WorkerInput.handle : WorkerInput N → WorkerM N S E Unit
  | .request sender rpc => do
    let s ← get
    let _ ← handleRequest sender s.cfg.me rpc
  | .outcome o => handleRpcOutcome o
  | .timer electionDue => onWorkerTimer electionDue
  | .propose payload => do let _ ← handlePropose payload
  | .changeMembership members => do let _ ← handleChangeMembership members
  | .readIndex timeout reply => handleReadIndex timeout reply
  | .tick d => modify fun s => { s with now := s.now + d }

/-- The worker after a sequence of inputs; a step that fails keeps the mutations it made. -/
def workerRun (s : WorkerState N S) (inputs : List (WorkerInput N)) : WorkerState N S :=
  inputs.foldl (fun s i => ((WorkerInput.handle i).run.run s).2) s

theorem workerRun_append (s : WorkerState N S) (is is' : List (WorkerInput N)) :
    workerRun s (is ++ is') = workerRun (workerRun s is) is' := by
  simp [workerRun, List.foldl_append]

end Vos.Raft
