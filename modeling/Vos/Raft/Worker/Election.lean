import Vos.Raft.Worker.Inbound

/-!
# vos-raft — elections and timers

The candidate side of the protocol (`worker.rs`): the pre-vote round, the real election, the
tally of both kinds of grant, and the timer that drives them. Timer deadlines are the
environment's: `onWorkerTimer electionDue` is one wake-up of the worker, with `electionDue` saying
whether the election (or heartbeat) deadline had passed.

Both tallies go to `votes_received`, a `BTreeSet` here kept as a duplicate-free list.

* `startPreElection`, `startElection`;
* `handleVoteResponse`, `handlePrevoteResponse`;
* `onTimer`, `onWorkerTimer`.
-/

namespace Vos.Raft

variable {N S E : Type} [DecidableEq N] [Storage N S E]

/-- `start_election`: become Candidate, bump the term (`u64` wrapping) and vote for itself
durably, ask every other member of the active view, and win at once when the self-vote is
already a quorum. A failed write leaves the meta as it was and the replica a Follower. -/
def startElection : WorkerM N S E Unit := do
  let s ← get
  if !s.effectiveCfg.allMembers.contains s.cfg.me then return
  setRole .candidate
  let next := { s.meta' with currentTerm := u64Succ s.meta'.currentTerm, votedFor := some s.cfg.me }
  match Storage.commitBatch s.storage { meta' := some next } with
  | .error e =>
    setRole .follower
    throw e
  | .ok st =>
    modify fun s => { s with storage := st, meta' := next, votesReceived := [s.cfg.me] }
    let s ← get
    let req : RequestVoteReq N :=
      { candidate := s.cfg.me, term := next.currentTerm, lastLogIndex := Storage.lastIndex s.storage,
        lastLogTerm := Storage.lastTerm s.storage }
    (s.effectiveCfg.allMembers.filter (· ≠ s.cfg.me)).forM fun peer => emit (.vote peer req)
    if s.quorumHolds (s.votesReceived.contains ·) then becomeLeaderNoHeartbeat

/-- `start_pre_election`: become PreCandidate and ask every other member whether it would grant a
vote at `current_term + 1`, without bumping the term; a solo cluster goes straight to the
election. -/
def startPreElection : WorkerM N S E Unit := do
  let s ← get
  if !s.effectiveCfg.allMembers.contains s.cfg.me then return
  if isSoloCluster s then
    startElection
  else
    modify fun s => { s with role := .preCandidate, votesReceived := [s.cfg.me] }
    let req : PreVoteReq N :=
      { candidate := s.cfg.me, nextTerm := u64Succ s.meta'.currentTerm,
        lastLogIndex := Storage.lastIndex s.storage, lastLogTerm := Storage.lastTerm s.storage }
    (s.effectiveCfg.allMembers.filter (· ≠ s.cfg.me)).forM fun peer => emit (.preVote peer req)

/-- Count a grant from `sender` when it is a member of the active view; the result says whether the
grants now make a quorum. -/
def tallyGrant (sender : N) : WorkerM N S E Bool := do
  let s ← get
  if !s.effectiveCfg.allMembers.contains sender then return false
  let votes := s.votesReceived.insert sender
  modify fun s => { s with votesReceived := votes }
  return s.quorumHolds (votes.contains ·)

/-- `handle_vote_response`: a current-term grant to a Candidate is tallied, and a quorum of grants
makes it leader. -/
def handleVoteResponse (sender : N) (resp : RequestVoteResp) : WorkerM N S E Unit := do
  if ← stepDownIfStale resp.term then return
  let s ← get
  if s.role ≠ .candidate ∨ resp.term ≠ s.meta'.currentTerm then return
  if resp.voteGranted then
    if ← tallyGrant sender then becomeLeaderNoHeartbeat

/-- `handle_prevote_response`: a grant for the round at `current_term + 1` is tallied, and a quorum
of grants promotes the PreCandidate to Candidate, still at its current term. -/
def handlePrevoteResponse (sender : N) (nextTerm : Nat) (resp : PreVoteResp) :
    WorkerM N S E Unit := do
  if ← stepDownIfStale resp.term then return
  let s ← get
  if s.role ≠ .preCandidate ∨ nextTerm ≠ u64Succ s.meta'.currentTerm then return
  if resp.voteGranted then
    if ← tallyGrant sender then
      modify fun s => { s with role := .candidate, preCandidateMisses := 0 }

/-- `on_timer`: the election or heartbeat deadline passed. A PreCandidate that missed
`pre_candidate_misses_before_revert` rounds in a row goes back to Follower. -/
def onTimer : WorkerM N S E Unit := do
  let s ← get
  match s.role with
  | .follower => ignoreErrors (if s.cfg.preVote then startPreElection else startElection)
  | .preCandidate =>
    let misses := s.preCandidateMisses + 1
    modify fun s => { s with preCandidateMisses := misses }
    let cap := s.cfg.preCandidateMissesBeforeRevert
    if 0 < cap ∧ cap ≤ misses then
      modify fun s => { s with role := .follower, votesReceived := [], preCandidateMisses := 0 }
    else ignoreErrors startPreElection
  | .candidate => ignoreErrors startElection
  | .leader => ignoreErrors sendHeartbeats

/-- `on_worker_timer`: a wake-up expires the read barriers whose deadline passed, and runs
`on_timer` only when the election deadline itself is due. -/
def onWorkerTimer (electionDue : Bool) : WorkerM N S E Unit := do
  let s ← get
  expirePendingReads s.now
  if electionDue then onTimer

end Vos.Raft
