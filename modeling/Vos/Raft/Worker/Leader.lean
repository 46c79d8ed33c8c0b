import Vos.Raft.Worker.State

/-!
# vos-raft — leader-side transitions

The worker code that runs on a leader or makes one: commit advancement, joint-consensus
finalization, promotion, the read-index queue, compaction, the heartbeat round and the client
requests `propose`, `change_membership` and `read_index`.

A `let _ = f(state).await;` of the source, which drops `f`'s storage error, is `ignoreErrors f`.

* `tryAdvanceCommitIndex`, `autoFinalizeJointConfig`, `becomeLeaderNoHeartbeat`;
* `tryResolvePendingReads`, `expirePendingReads`;
* `tryCompact`, `sendHeartbeats`;
* `handlePropose`, `handleChangeMembership`, `handleReadIndex`;
* `handleAppendResponse`, `handleInstallSnapshotResponse`: the leader's bookkeeping of replies.
-/

namespace Vos.Raft

variable {N S E : Type} [DecidableEq N] [Storage N S E]

/-- `let _ = m.await;`: run `m` and drop its error, keeping its mutations. -/
def ignoreErrors (m : WorkerM N S E Unit) : WorkerM N S E Unit :=
  tryCatch m fun _ => pure ()

/-- `auto_finalize_joint_config`: once the pending joint entry has committed, append the final
non-joint `ConfigChange`; a leader that the new set excludes steps down. -/
def autoFinalizeJointConfig : WorkerM N S E Unit := do
  let s ← get
  if s.role ≠ .leader ∨ !s.effectiveCfg.isJoint then return
  let some jointIdx := s.pendingJointEntry | return
  if s.meta'.commitIndex < jointIdx then return
  let term := s.meta'.currentTerm
  let newIndex := Storage.lastIndex s.storage + 1
  let finalMembers := s.effectiveCfg.current
  let entry : LogEntry N := { index := newIndex, term, kind := .configChange none finalMembers }
  let st ← storageCall (Storage.commitBatch s.storage
    { appends := [entry],
      activeConfig := some { logIndex := some newIndex, current := finalMembers, jointOld := none } })
  let meWasVoter := finalMembers.contains s.cfg.me
  modify fun s => { s with storage := st, effectiveCfg := ActiveConfig.steady finalMembers,
                           pendingJointEntry := none, activeConfigIndex := some newIndex }
  rebuildLeaderTracking
  if !meWasVoter then stepDown

/-- `try_advance_commit_index`: commit the majority-replicated index when it holds an entry of
the current term, then finalize a committed joint phase. -/
def tryAdvanceCommitIndex : WorkerM N S E Unit := do
  let s ← get
  let some majorityFloor := matchIndexMajorityFloor s | return
  if majorityFloor ≤ s.meta'.commitIndex then return
  let entryTerm ← storageCall (Storage.termAt s.storage majorityFloor)
  if entryTerm ≠ some s.meta'.currentTerm then return
  -- the source advances `commit_index` in place and rolls it back when the write fails, so
  -- the in-memory meta moves exactly when the durable one does
  let next := { s.meta' with commitIndex := majorityFloor }
  let st ← storageCall (Storage.commitBatch s.storage { meta' := some next })
  modify fun s => { s with storage := st, meta' := next }
  autoFinalizeJointConfig

/-- `become_leader_no_heartbeat`: persist the current-term no-op first, and promote only once it
is durable. -/
def becomeLeaderNoHeartbeat : WorkerM N S E Unit := do
  let s ← get
  let last := Storage.lastIndex s.storage
  let term := s.meta'.currentTerm
  let newIndex := last + 1
  let st ← storageCall (Storage.commitBatch s.storage { appends := [LogEntry.data newIndex term []] })
  modify fun s => { s with storage := st }
  setRole .leader
  modify fun s =>
    { s with votesReceived := [],
             leader := some (LeaderState.fresh s.effectiveCfg.allMembers s.cfg.me last),
             seenLeader := some s.cfg.me,
             currentTermFirstIndex := some newIndex }
  ignoreErrors tryAdvanceCommitIndex

/-- Split the read queue at `now`: expired requests time out, requests at or below `floor` (when
given) resolve, the rest keep waiting. -/
def partitionReads (now : Nat) (floor : Option Nat) :
    List PendingReadIndex → List (Outbound N) × List PendingReadIndex
  | [] => ([], [])
  | p :: ps =>
    let (out, rest) := partitionReads now floor ps
    if p.deadline.any (· ≤ now) then (.readReply p.reply (.error .timedOut) :: out, rest)
    else if floor.any (p.requiredIndex ≤ ·) then (.readReply p.reply (.ok p.requiredIndex) :: out, rest)
    else (out, p :: rest)

/-- `try_resolve_pending_reads`. -/
def tryResolvePendingReads : WorkerM N S E Unit := do
  let s ← get
  if s.pendingReadIndex.isEmpty then return
  let some mf := matchIndexMajorityFloor s | return
  let (out, rest) := partitionReads s.now (some mf) s.pendingReadIndex
  modify fun s => { s with outbox := s.outbox ++ out, pendingReadIndex := rest }

/-- `expire_pending_reads`. -/
def expirePendingReads (now : Nat) : WorkerM N S E Unit := do
  let s ← get
  let (out, rest) := partitionReads now none s.pendingReadIndex
  modify fun s => { s with outbox := s.outbox ++ out, pendingReadIndex := rest }

/-- `try_compact`: compact to the majority-replicated, committed and applied floor, with
hysteresis. -/
def tryCompact : WorkerM N S E Unit := do
  let s ← get
  if s.leader.isNone then return
  let some majorityFloor := matchIndexMajorityFloor s | return
  let committedFloor := min majorityFloor s.meta'.commitIndex
  let applied ← storageCall (Storage.appliedIndex s.storage)
  let floor := min committedFloor (applied.getD committedFloor)
  let snap := Storage.snapLastIndex s.storage
  if floor ≤ snap ∨ floor - snap < s.cfg.compactHysteresis then return
  let some termAtFloor ← storageCall (Storage.termAt s.storage floor) | return
  -- as in `try_advance_commit_index`, a failed write leaves the snapshot pointer where it was
  let next := { s.meta' with snapLastIndex := floor, snapLastTerm := termAtFloor }
  let st ← storageCall (Storage.commitBatch s.storage
    { compactTo := some (floor, termAtFloor), meta' := some next })
  modify fun s => { s with storage := st, meta' := next }

/-- The `InstallSnapshot` chunk for `peer`: resume from the peer's cursor when it still names the
current snapshot, send at most `install_snapshot_chunk_bytes` (at least one) bytes, and attach the
membership only to the final chunk, when it is covered by the snapshot. -/
def snapshotChunkTo (peer : N) : WorkerM N S E Unit := do
  let s ← get
  let snapIdx := Storage.snapLastIndex s.storage
  let snapTerm := Storage.snapLastTerm s.storage
  let resumeOffset :=
    (((s.leader.bind fun l => l.snapshotSend.get? peer).filter fun c =>
      c.lastIncludedIndex = snapIdx ∧ c.lastIncludedTerm = snapTerm).map (·.offset)).getD 0
  -- `read_state().await.unwrap_or_default()`: a failed read sends an empty snapshot
  let snapshot := match Storage.readState s.storage with
    | .ok b => b
    | .error _ => []
  let totalLen := snapshot.length
  let chunkMax := max s.cfg.installSnapshotChunkBytes 1
  let start := min resumeOffset totalLen
  let stop := min (start + chunkMax) totalLen
  let wasFinal := decide (totalLen ≤ stop)
  let cursor : SnapshotSendState :=
    { lastIncludedIndex := snapIdx, lastIncludedTerm := snapTerm, offset := resumeOffset }
  modify fun s => { s with leader := s.leader.map fun l =>
    { l with snapshotSend := l.snapshotSend.insert peer cursor } }
  let withMembers := wasFinal && s.activeConfigIndex.any (· ≤ snapIdx)
  emit (.install peer
    { leader := s.cfg.me, term := s.meta'.currentTerm, lastIncludedIndex := snapIdx,
      lastIncludedTerm := snapTerm, offset := resumeOffset, done := wasFinal,
      data := (snapshot.drop start).take (stop - start),
      members := if withMembers then s.effectiveCfg.current else [],
      jointOld := if withMembers then s.effectiveCfg.jointOld else none,
      activeConfigIndex := if withMembers then s.activeConfigIndex else none }
    stop wasFinal)

/-- The `AppendEntries` for a peer whose `next_index` is live: everything from `next_index` to the
end of the leader's log. -/
def appendEntriesTo (peer : N) (nextIdx : Nat) : WorkerM N S E Unit := do
  let s ← get
  let leaderLastIndex := Storage.lastIndex s.storage
  let prevLogIndex := nextIdx - 1
  let prevLogTerm := (← storageCall (Storage.termAt s.storage prevLogIndex)).getD 0
  let entries ← if nextIdx ≤ leaderLastIndex then
      storageCall (Storage.entries s.storage nextIdx leaderLastIndex)
    else pure []
  emit (.append peer
    { leader := s.cfg.me, term := s.meta'.currentTerm, prevLogIndex, prevLogTerm,
      leaderCommit := s.meta'.commitIndex, entries })

/-- One peer's share of `send_heartbeats`; `l` is the leader state cloned before the loop. -/
def heartbeatTo (l : LeaderState N) (peer : N) : WorkerM N S E Unit := do
  let s ← get
  let nextIdx := (l.nextIndex.get? peer).getD 1
  let snapIdx := Storage.snapLastIndex s.storage
  if nextIdx ≤ snapIdx ∧ 0 < snapIdx then snapshotChunkTo peer
  else appendEntriesTo peer nextIdx

/-- `send_heartbeats`: one request to every other member of the active view, then a compaction
attempt. A storage error on one peer's `AppendEntries` aborts the round. -/
def sendHeartbeats : WorkerM N S E Unit := do
  let s ← get
  let some l := s.leader | return
  (s.effectiveCfg.allMembers.filter (· ≠ s.cfg.me)).forM (heartbeatTo l)
  ignoreErrors tryCompact

/-- `handle_propose`: append a `Data` entry at the end of the leader's log. -/
def handlePropose (payload : List UInt8) : WorkerM N S E (Except ProposeError Nat) := do
  let s ← get
  if s.role ≠ .leader then return .error .notLeader
  let newIndex := Storage.lastIndex s.storage + 1
  match Storage.commitBatch s.storage
      { appends := [LogEntry.data newIndex s.meta'.currentTerm payload] } with
  | .error _ => return .error .storage
  | .ok st =>
    modify fun s => { s with storage := st }
    ignoreErrors tryAdvanceCommitIndex
    return .ok newIndex

/-- `handle_change_membership`: append the joint `ConfigChange` and adopt the joint view at once,
before it commits. -/
def handleChangeMembership (newMembers : List N) :
    WorkerM N S E (Except ChangeMembershipError Nat) := do
  let s ← get
  if s.role ≠ .leader then return .error .notLeader
  if s.effectiveCfg.isJoint then return .error .inProgress
  if newMembers.isEmpty then return .error .emptyConfig
  let newIndex := Storage.lastIndex s.storage + 1
  let oldMembers := s.effectiveCfg.current
  let entry : LogEntry N :=
    { index := newIndex, term := s.meta'.currentTerm, kind := .configChange (some oldMembers) newMembers }
  match Storage.commitBatch s.storage
      { appends := [entry],
        activeConfig := some { logIndex := some newIndex, current := newMembers, jointOld := some oldMembers } } with
  | .error _ => return .error .storage
  | .ok st =>
    modify fun s => { s with storage := st,
                             effectiveCfg := { current := newMembers, jointOld := some oldMembers },
                             pendingJointEntry := some newIndex, activeConfigIndex := some newIndex }
    rebuildLeaderTracking
    ignoreErrors tryAdvanceCommitIndex
    return .ok newIndex

/-- `handle_read_index`: refuse off the leader and when the queue is full, answer at once in a solo
cluster, otherwise queue `max commit_index current_term_first_index` and start a heartbeat round. -/
def handleReadIndex (timeout : Option Nat) (reply : Nat) : WorkerM N S E Unit := do
  let s ← get
  if s.role ≠ .leader then emit (.readReply reply (.error .notLeader)); return
  if isSoloCluster s then emit (.readReply reply (.ok s.meta'.commitIndex)); return
  if s.cfg.maxPendingReads ≤ s.pendingReadIndex.length then
    emit (.readReply reply (.error .backpressure)); return
  let r := match s.currentTermFirstIndex with
    | some noopIdx => if s.meta'.commitIndex < noopIdx then noopIdx else s.meta'.commitIndex
    | none => s.meta'.commitIndex
  modify fun s => { s with pendingReadIndex := s.pendingReadIndex ++
    [{ requiredIndex := r, deadline := timeout.map (s.now + ·), reply }] }
  ignoreErrors sendHeartbeats

/-- The opening of every reply handler: a reply from a higher term makes this replica a follower
of that term, and the handler stops. `true` when it stepped down. -/
def stepDownIfStale (replyTerm : Nat) : WorkerM N S E Bool := do
  let s ← get
  if s.meta'.currentTerm < replyTerm then
    persistTermBump replyTerm
    stepDown
    return true
  return false

/-- `handle_append_response`: on success raise the peer's `match_index` (never lower it: replies
arrive out of order) and try to commit; on failure back `next_index` off by one. -/
def handleAppendResponse (sender : N) (resp : AppendEntriesResp) : WorkerM N S E Unit := do
  if ← stepDownIfStale resp.term then return
  let s ← get
  if s.role ≠ .leader ∨ resp.term ≠ s.meta'.currentTerm then return
  let some l := s.leader | return
  if resp.success then
    let newMatch := max resp.matchIndex ((l.matchIndex.get? sender).getD 0)
    modify fun s => { s with leader := some { l with matchIndex := l.matchIndex.insert sender newMatch,
                                                     nextIndex := l.nextIndex.insert sender (newMatch + 1) } }
    tryAdvanceCommitIndex
    tryResolvePendingReads
  else
    let cur := (l.nextIndex.get? sender).getD 1
    modify fun s => { s with leader := some { l with nextIndex := l.nextIndex.insert sender (max (cur - 1) 1) } }

/-- `handle_install_snapshot_response`: move the peer's chunk cursor to what it acknowledged, and
on the acknowledged final chunk resume log replication after the snapshot. -/
def handleInstallSnapshotResponse (sender : N) (resp : InstallSnapshotResp)
    (lastIncludedIndex lastIncludedTerm chunkEndOffset : Nat) (wasFinal : Bool) :
    WorkerM N S E Unit := do
  if ← stepDownIfStale resp.term then return
  let s ← get
  if s.role ≠ .leader ∨ resp.term ≠ s.meta'.currentTerm then return
  let some l := s.leader | return
  let cursor := min resp.bytesReceived chunkEndOffset
  let entry := (l.snapshotSend.get? sender).getD { lastIncludedIndex, lastIncludedTerm, offset := 0 }
  -- a cursor for another snapshot means the leader compacted past it: forget the stream
  let l := if entry.lastIncludedIndex = lastIncludedIndex ∧ entry.lastIncludedTerm = lastIncludedTerm
    then { l with snapshotSend := l.snapshotSend.insert sender { entry with offset := cursor } }
    else { l with snapshotSend := l.snapshotSend.erase sender }
  let l := if wasFinal ∧ chunkEndOffset ≤ resp.bytesReceived then
      { l with matchIndex := if (l.matchIndex.get? sender).getD 0 < lastIncludedIndex
                 then l.matchIndex.insert sender lastIncludedIndex else l.matchIndex,
               nextIndex := l.nextIndex.insert sender (lastIncludedIndex + 1),
               snapshotSend := l.snapshotSend.erase sender }
    else l
  modify fun s => { s with leader := some l }

end Vos.Raft
