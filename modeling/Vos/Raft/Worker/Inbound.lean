import Vos.Raft.Worker.Leader

/-!
# vos-raft — inbound RPC handlers

The handlers a worker runs on a request from a peer (`worker.rs`): `handle_append_entries`,
`handle_request_vote`, `handle_request_prevote` and `handle_install_snapshot`. Each returns the
reply; the caller sends it only when the handler did not fail.

`handle_append_entries` and `handle_request_vote` clone `meta` on entry and put the clone back when
a storage call fails, while the role changes made before the failure stay; `storageCallRollback`
is that pattern.

* `storageCallRollback`, `reindex`, `scanEntries`, `latestConfigChange`, `viewOfConfig`;
* `handleAppendEntries`, `handleRequestVote`, `handleRequestPrevote`, `handleInstallSnapshot`.
-/

namespace Vos.Raft

variable {N S E : Type} [DecidableEq N] [Storage N S E]

/-- A storage call after `let meta_snapshot = state.meta.clone()`: on error the in-memory meta is
restored before the error propagates. -/
def storageCallRollback {α : Type} (metaSnapshot : Meta N) (r : Except E α) : WorkerM N S E α :=
  match r with
  | .ok a => pure a
  | .error e => do
    modify fun s => { s with meta' := metaSnapshot }
    throw e

/-- The entries of a request numbered from `k` on: index `prev_log_index + 1 + i` for the `i`-th. -/
def reindex : Nat → List (LogEntry N) → List (LogEntry N)
  | _, [] => []
  | k, e :: es => { e with index := k } :: reindex (k + 1) es

/-- The `term_at` scan of `handle_append_entries`, from index `idx` on: the number of entries
already present with their term, and the first index holding another term, if the scan stopped
there; it stops without a conflict at the first index the log does not hold. -/
def scanEntries (st : S) : Nat → List (LogEntry N) → Except E (Nat × Option Nat)
  | _, [] => .ok (0, none)
  | idx, e :: es => do
    match ← Storage.termAt st idx with
    | some t =>
      if t = e.term then
        let (n, conflict) ← scanEntries st (idx + 1) es
        pure (n + 1, conflict)
      else pure (0, some idx)
    | none => pure (0, none)

omit [DecidableEq N] in
/-- Below the snapshot of a `MemStorage` the scan stops at once: `term_at` knows no compacted index
but `0`, so nothing counts as present and nothing as conflicting, whatever the entries. -/
theorem scanEntries_below_snapshot (st : MemStorage N) {idx : Nat} (h0 : idx ≠ 0)
    (hidx : idx < st.meta'.snapLastIndex) (es : List (LogEntry N)) :
    scanEntries st idx es = (.ok (0, none) : Except Empty _) := by
  cases es with
  | nil => rfl
  | cons e es =>
    have hterm : st.termAt idx = none := by simp [MemStorage.termAt, h0, hidx]
    simp only [scanEntries, memStorage_termAt, hterm]
    rfl

/-- The last `ConfigChange` of a run of entries, with its index. -/
def latestConfigChange (es : List (LogEntry N)) : Option (Nat × Option (List N) × List N) :=
  es.reverse.findSome? fun e =>
    match e.kind with
    | .configChange jointOld members => some (e.index, jointOld, members)
    | .data _ => none

/-- The view a `ConfigChange` at `idx` yields: its persisted record, and the new `effective_cfg`,
`active_config_index` and `pending_joint_entry` (set exactly when the view is joint). -/
def viewOfConfig (idx : Nat) (jointOld : Option (List N)) (members : List N) :
    ActiveConfigRecord N × ActiveConfig N × Option Nat × Option Nat :=
  let active : ActiveConfig N := { current := members, jointOld }
  ({ logIndex := some idx, current := members, jointOld },
   active, some idx, if active.isJoint then some idx else none)

/-- The view after a truncation that dropped the entry behind `active_config_index`: the latest
`ConfigChange` of the surviving live log `[snap + 1, scanEnd]`, else the static `cfg.members`
recorded at index `0`. -/
def rescanConfig (metaSnapshot : Meta N) (scanEnd : Nat) :
    WorkerM N S E (ActiveConfigRecord N × ActiveConfig N × Option Nat × Option Nat) := do
  let s ← get
  let snap := Storage.snapLastIndex s.storage
  let found ← if snap < scanEnd then
      latestConfigChange <$>
        storageCallRollback metaSnapshot (Storage.entries s.storage (snap + 1) scanEnd)
    else pure none
  match found with
  | some (idx, jointOld, members) => pure (viewOfConfig idx jointOld members)
  | none =>
    pure ({ logIndex := some 0, current := s.cfg.members, jointOld := none },
          ActiveConfig.steady s.cfg.members, some 0, none)

/-- Raft §5.4.1: a log whose last entry has the higher term, or the same term and at least the
same index, is at least as up to date. -/
def logUpToDate (lastLogTerm lastLogIndex ourLastTerm ourLastIndex : Nat) : Bool :=
  decide (ourLastTerm < lastLogTerm) || (decide (lastLogTerm = ourLastTerm) && decide (ourLastIndex ≤ lastLogIndex))

/-- `handle_append_entries`. -/
def handleAppendEntries (req : AppendEntriesReq N) : WorkerM N S E AppendEntriesResp := do
  let s ← get
  if req.term < s.meta'.currentTerm then
    return { term := s.meta'.currentTerm, success := false, matchIndex := 0 }
  let metaSnapshot := s.meta'
  if s.meta'.currentTerm < req.term then
    modify fun s => { s with meta' := { s.meta' with currentTerm := req.term, votedFor := none },
                             seenLeader := none }
  -- a current-term leader spoke: whatever this replica was, it follows now
  modify fun s => { s with role := .follower, votesReceived := [], leader := none,
                           currentTermFirstIndex := none, lastHeartbeatReceived := some s.now,
                           seenLeader := some req.leader }
  if s.role = .leader then drainPendingReadsOnStepDown
  let s ← get
  let ourPrevTerm ← storageCallRollback metaSnapshot (Storage.termAt s.storage req.prevLogIndex)
  if ourPrevTerm ≠ some req.prevLogTerm then
    let st ← storageCallRollback metaSnapshot (Storage.commitBatch s.storage { meta' := some s.meta' })
    modify fun s => { s with storage := st }
    return { term := s.meta'.currentTerm, success := false, matchIndex := 0 }
  let (alreadyPresent, conflictAt) ←
    storageCallRollback metaSnapshot (scanEntries s.storage (req.prevLogIndex + 1) req.entries)
  let truncateAfter := conflictAt.map (· - 1)
  let numbered := reindex (req.prevLogIndex + 1) req.entries
  let appends := numbered.drop alreadyPresent
  let lastNewIndex := req.prevLogIndex + req.entries.length
  let newCommit := min req.leaderCommit lastNewIndex
  if s.meta'.commitIndex < req.leaderCommit ∧ s.meta'.commitIndex < newCommit then
    modify fun s => { s with meta' := { s.meta' with commitIndex := newCommit } }
  -- the membership view after the write: adopt the last appended `ConfigChange`, or rescan when
  -- the truncation dropped the entry the cached view came from
  let post ←
    if appends.any (·.kind.isConfigChange) then
      pure ((latestConfigChange numbered).map fun (idx, jointOld, members) =>
        viewOfConfig idx jointOld members)
    else match truncateAfter, s.activeConfigIndex with
      | some scanEnd, some idx =>
        if scanEnd < idx then some <$> rescanConfig metaSnapshot scanEnd else pure none
      | _, _ => pure none
  let s ← get
  let st ← storageCallRollback metaSnapshot (Storage.commitBatch s.storage
    { truncateAfter, appends, meta' := some s.meta', activeConfig := post.map (·.1) })
  modify fun s => { s with storage := st }
  if let some (_, active, idx, pending) := post then
    modify fun s => { s with effectiveCfg := active, activeConfigIndex := idx,
                             pendingJointEntry := pending }
    rebuildLeaderTracking
  return { term := s.meta'.currentTerm, success := true, matchIndex := lastNewIndex }

/-- `handle_request_vote`: grant when this replica has not voted for another candidate in the
term and the candidate's log is at least as up to date; the vote is durable before the reply. -/
def handleRequestVote (req : RequestVoteReq N) : WorkerM N S E RequestVoteResp := do
  let s ← get
  if req.term < s.meta'.currentTerm then
    return { term := s.meta'.currentTerm, voteGranted := false }
  let metaSnapshot := s.meta'
  let bumped := decide (s.meta'.currentTerm < req.term)
  if bumped then
    modify fun s => { s with meta' := { s.meta' with currentTerm := req.term, votedFor := none },
                             seenLeader := none }
    stepDown
  let s ← get
  let alreadyVotedOtherwise := s.meta'.votedFor.any (· ≠ req.candidate)
  let granted := !alreadyVotedOtherwise &&
    logUpToDate req.lastLogTerm req.lastLogIndex (Storage.lastTerm s.storage) (Storage.lastIndex s.storage)
  if granted then
    modify fun s => { s with meta' := { s.meta' with votedFor := some req.candidate } }
  if bumped || granted then
    let s ← get
    let st ← storageCallRollback metaSnapshot (Storage.commitBatch s.storage { meta' := some s.meta' })
    modify fun s => { s with storage := st }
  let s ← get
  return { term := s.meta'.currentTerm, voteGranted := granted }

/-- `handle_request_prevote`: answers "would you vote for me at `next_term`?" without touching the
state; refused while a current-term leader was heard within `election_timeout_ms.0`. -/
def handleRequestPrevote (s : WorkerState N S) (req : PreVoteReq N) : PreVoteResp :=
  if req.nextTerm ≤ s.meta'.currentTerm then
    { term := s.meta'.currentTerm, voteGranted := false }
  else if s.lastHeartbeatReceived.any (s.now < · + s.cfg.electionTimeoutLow) then
    { term := s.meta'.currentTerm, voteGranted := false }
  else
    { term := s.meta'.currentTerm,
      voteGranted := logUpToDate req.lastLogTerm req.lastLogIndex (Storage.lastTerm s.storage)
        (Storage.lastIndex s.storage) }

/-- The provenance check of a final snapshot chunk: `some i` accepts the install with
configuration index `i` (`none` when the membership was omitted); `none` refuses it. -/
def suppliedConfigIndex (req : InstallSnapshotReq N) : Option (Option Nat) :=
  match req.members.isEmpty, req.activeConfigIndex with
  | false, some index => if index ≤ req.lastIncludedIndex then some (some index) else none
  | true, none => if req.jointOld.isNone then some none else none
  | _, _ => none

/-- The snapshot buffer after a chunk: kept when it belongs to the same stream (sender, term and
snapshot identity), otherwise a fresh empty one. -/
def incomingFor (sender : N) (req : InstallSnapshotReq N) :
    Option (IncomingSnapshot N) → IncomingSnapshot N
  | some b =>
    if b.leader = sender ∧ b.term = req.term ∧ b.lastIncludedIndex = req.lastIncludedIndex ∧
        b.lastIncludedTerm = req.lastIncludedTerm then b
    else { leader := sender, term := req.term, lastIncludedIndex := req.lastIncludedIndex,
           lastIncludedTerm := req.lastIncludedTerm, buffer := [] }
  | none => { leader := sender, term := req.term, lastIncludedIndex := req.lastIncludedIndex,
              lastIncludedTerm := req.lastIncludedTerm, buffer := [] }

/-- `handle_install_snapshot`: assemble the chunks of one stream in order and, on the final chunk,
compact to the snapshot, install its bytes and adopt the membership it carries, in one batch. -/
def handleInstallSnapshot (sender : N) (req : InstallSnapshotReq N) :
    WorkerM N S E InstallSnapshotResp := do
  let s ← get
  if req.term < s.meta'.currentTerm then
    return { term := s.meta'.currentTerm, bytesReceived := 0 }
  if s.meta'.currentTerm < req.term then
    persistTermBump req.term
    modify fun s => { s with seenLeader := none, incomingSnapshot := none }
  let s ← get
  let metaSnapshot := s.meta'
  let term := s.meta'.currentTerm
  modify fun s => { s with role := .follower, votesReceived := [], leader := none,
                           currentTermFirstIndex := none, lastHeartbeatReceived := some s.now,
                           seenLeader := some req.leader }
  if s.role = .leader then drainPendingReadsOnStepDown
  if req.lastIncludedIndex ≤ Storage.snapLastIndex s.storage then
    modify fun s => { s with incomingSnapshot := none }
    return { term, bytesReceived := req.offset + req.data.length }
  let buf := incomingFor sender req s.incomingSnapshot
  let currentLen := buf.buffer.length
  modify fun s => { s with incomingSnapshot := some buf }
  -- a gap: ask the leader to resume from what is buffered
  if currentLen < req.offset then return { term, bytesReceived := currentLen }
  -- an in-order chunk that would pass `max_snapshot_bytes` drops the whole stream
  if req.offset = currentLen ∧ s.cfg.maxSnapshotBytes < currentLen + req.data.length then
    modify fun s => { s with incomingSnapshot := none }
    return { term, bytesReceived := 0 }
  -- an in-order chunk is appended; an overlapping one is ignored
  let buf := if req.offset = currentLen then { buf with buffer := buf.buffer ++ req.data } else buf
  modify fun s => { s with incomingSnapshot := some buf }
  let newLen := buf.buffer.length
  if !req.done then return { term, bytesReceived := newLen }
  modify fun s => { s with incomingSnapshot := none }
  let some supplied := suppliedConfigIndex req | return { term, bytesReceived := 0 }
  let next := { s.meta' with snapLastIndex := req.lastIncludedIndex,
                             snapLastTerm := req.lastIncludedTerm,
                             commitIndex := max s.meta'.commitIndex req.lastIncludedIndex }
  modify fun s => { s with meta' := next }
  -- an omitted membership keeps the current view, with only provenance committed before the
  -- install
  let committedEvidence := s.activeConfigIndex.filter (· ≤ metaSnapshot.commitIndex)
  let record : ActiveConfigRecord N :=
    if req.members.isEmpty then
      { logIndex := committedEvidence, current := s.effectiveCfg.current,
        jointOld := s.effectiveCfg.jointOld }
    else { logIndex := supplied, current := req.members, jointOld := req.jointOld }
  let st ← storageCallRollback metaSnapshot (Storage.commitBatch s.storage
    { compactTo := some (req.lastIncludedIndex, req.lastIncludedTerm), state := some buf.buffer,
      meta' := some next, activeConfig := some record })
  modify fun s => { s with storage := st }
  if req.members.isEmpty then
    modify fun s => { s with activeConfigIndex := committedEvidence,
                             pendingJointEntry := s.pendingJointEntry.filter (req.lastIncludedIndex < ·) }
  else
    modify fun s => { s with effectiveCfg := { current := req.members, jointOld := req.jointOld },
                             activeConfigIndex := supplied, pendingJointEntry := none }
    rebuildLeaderTracking
  return { term, bytesReceived := newLen }

end Vos.Raft
