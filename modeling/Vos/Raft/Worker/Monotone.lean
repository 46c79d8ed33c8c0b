import Mathlib
import Vos.Lib.ExceptState
import Vos.Raft.MetaOrder
import Vos.Raft.Worker.Loop

/-!
# vos-raft — the scalars of one worker only move forward

A worker on `MemStorage`, driven by any inputs at all (requests and replies with arbitrary
fields, timer wake-ups, client calls), never lowers its term, commit index or snapshot pointer,
never changes its vote within a term except from none, and keeps its snapshot committed. Between
steps its in-memory meta is the durable one.

Every function of the worker gets one specification: from a state that is settled (durable meta
equal to the in-memory one, snapshot committed) and above a fixed `m₀`, it ends settled and above
`m₀`. `mvcgen` composes them; what is left are the writes of the scalars, closed by the moves of
`Vos.Raft.MetaOrder`. Inside `handle_append_entries`, `handle_request_vote` and
`handle_install_snapshot` the meta runs ahead of the store until the batch lands, so there the
helpers are unfolded rather than specified.

* `MetaAbove`, `Above`: the invariant, relative to an earlier meta `m₀`;
* one `Keeps (Above m₀)` specification per worker function, up to `WorkerInput.handle_above`;
* `TermRoom`, `KeepsWithRoom`: the election bump and its callers, below `u64::MAX`;
* `workerInit_above`: a worker booted from a store whose snapshot is committed is settled;
* **`memWorker_meta_monotone`**: along every run whose term stays below `u64::MAX` the meta is
  monotone and the snapshot committed;
* **`memWorker_term_wraps`**: a vote at term `u64::MAX` and an election timer take the term to
  `0`.
-/

set_option mvcgen.warning false

open Std.Do ExceptState

namespace Vos.Raft

variable {N : Type} [DecidableEq N]

/-! ## The invariant -/

/-- The invariant on the in-memory meta `m` and the durable meta `d` of a settled worker, relative
to the meta `m₀` of an earlier state. -/
@[mk_iff] structure MetaAbove (m₀ m d : Meta N) : Prop where
  durable : d = m
  snap_le_commit : m.snapLastIndex ≤ m.commitIndex
  above : m₀ ≤ m

omit [DecidableEq N] in
theorem MetaAbove.write {m₀ m d m' : Meta N} (h : MetaAbove m₀ m d) (hle : m ≤ m')
    (hsc : m'.snapLastIndex ≤ m'.commitIndex) : MetaAbove m₀ m' m' :=
  ⟨rfl, hsc, le_trans h.above hle⟩

/-- The invariant on a worker state, read through its two metas only, so that an update of any
other field keeps it by definition. -/
def Above (m₀ : Meta N) (s : WorkerState N (MemStorage N)) : Prop :=
  MetaAbove m₀ s.meta' s.storage.meta'

/-- A worker on the in-memory store. -/
abbrev MemM (N : Type) := WorkerM N (MemStorage N) Empty

/-! ## State and leader-side helpers

Apart from the term bump, the commit advance and the compaction, no helper writes a meta: each
condition `mvcgen` leaves is the precondition, on a state that differs from it only outside the
two metas `Above` reads, or after a batch that carries no meta. -/

omit [DecidableEq N] in
@[spec] theorem persistTermBump_above (m₀ : Meta N) (t : Nat) :
    ⦃fun s => ⌜Above m₀ s ∧ s.meta'.currentTerm < t⌝⦄ (persistTermBump t : MemM N Unit)
    ⦃post⟨fun _ s => ⌜Above m₀ s⌝, fun _ s => ⌜Above m₀ s⌝⟩⦄ := by
  mvcgen [persistTermBump, storageCall, memStorage_commitBatch]
  obtain ⟨h, ht⟩ := ‹Above m₀ _ ∧ _›
  simp +zetaDelta only [Above, MemStorage.commitBatch_meta, WriteBatch.metaAfter] at h ⊢
  exact h.write (Meta.le_bump _ ht) h.snap_le_commit

omit [DecidableEq N] in
@[spec] theorem setRole_above (m₀ : Meta N) (r : Role) : Keeps (Above m₀) (setRole r : MemM N Unit) := by
  mvcgen -trivial [setRole]
  all_goals exact ‹Above m₀ _›

omit [DecidableEq N] in
@[spec] theorem emit_above (m₀ : Meta N) (o : Outbound N) : Keeps (Above m₀) (emit o : MemM N Unit) := by
  mvcgen -trivial [emit]
  all_goals exact ‹Above m₀ _›

omit [DecidableEq N] in
@[spec] theorem drainPendingReadsOnStepDown_above (m₀ : Meta N) :
    Keeps (Above m₀) (drainPendingReadsOnStepDown : MemM N Unit) := by
  mvcgen -trivial [drainPendingReadsOnStepDown]
  all_goals exact ‹Above m₀ _›

@[spec] theorem rebuildLeaderTracking_above (m₀ : Meta N) :
    Keeps (Above m₀) (rebuildLeaderTracking : MemM N Unit) := by
  mvcgen [rebuildLeaderTracking]
  simp +zetaDelta only [Above] at *
  split <;> assumption

omit [DecidableEq N] in
@[spec] theorem stepDown_above (m₀ : Meta N) : Keeps (Above m₀) (stepDown : MemM N Unit) := by
  mvcgen -trivial [stepDown]
  all_goals exact ‹Above m₀ _›

@[spec] theorem tallyGrant_above (m₀ : Meta N) (n : N) : Keeps (Above m₀) (tallyGrant n : MemM N Bool) := by
  mvcgen -trivial [tallyGrant]
  all_goals exact ‹Above m₀ _›

@[spec] theorem autoFinalizeJointConfig_above (m₀ : Meta N) :
    Keeps (Above m₀) (autoFinalizeJointConfig : MemM N Unit) := by
  mvcgen -trivial [autoFinalizeJointConfig, storageCall, memStorage_commitBatch]
  all_goals exact ‹Above m₀ _›

@[spec] theorem tryAdvanceCommitIndex_above (m₀ : Meta N) :
    Keeps (Above m₀) (tryAdvanceCommitIndex : MemM N Unit) := by
  mvcgen [tryAdvanceCommitIndex, storageCall, memStorage_commitBatch, memStorage_termAt]
  have h := ‹Above m₀ _›
  have hlt : _ < _ := Nat.lt_of_not_le ‹¬_ ≤ _›
  simp +zetaDelta only [Above, MemStorage.commitBatch_meta, WriteBatch.metaAfter] at h ⊢
  exact h.write (Meta.le_commit _ hlt.le) (h.snap_le_commit.trans hlt.le)

@[spec] theorem becomeLeaderNoHeartbeat_above (m₀ : Meta N) :
    Keeps (Above m₀) (becomeLeaderNoHeartbeat : MemM N Unit) := by
  mvcgen -trivial [becomeLeaderNoHeartbeat, storageCall, ignoreErrors, memStorage_commitBatch]
  all_goals exact ‹Above m₀ _›

@[spec] theorem tryResolvePendingReads_above (m₀ : Meta N) :
    Keeps (Above m₀) (tryResolvePendingReads : MemM N Unit) := by
  mvcgen -trivial [tryResolvePendingReads]
  all_goals exact ‹Above m₀ _›

omit [DecidableEq N] in
@[spec] theorem expirePendingReads_above (m₀ : Meta N) (t : Nat) :
    Keeps (Above m₀) (expirePendingReads t : MemM N Unit) := by
  mvcgen -trivial [expirePendingReads]
  all_goals exact ‹Above m₀ _›

/-- Compaction moves the snapshot pointer up to a floor that is above the durable pointer and
below the commit index. -/
@[spec] theorem tryCompact_above (m₀ : Meta N) : Keeps (Above m₀) (tryCompact : MemM N Unit) := by
  mvcgen [tryCompact, storageCall, memStorage_commitBatch, memStorage_termAt,
    memStorage_appliedIndex, memStorage_snapLastIndex]
  have h := ‹Above m₀ _›
  have hfloor := ‹¬(_ ∨ _)›
  simp +zetaDelta only [Above, MemStorage.commitBatch_meta, WriteBatch.metaAfter, not_or,
    not_le] at h hfloor ⊢
  rw [h.durable] at hfloor
  refine h.write (Meta.le_compact _ hfloor.1.le) ?_
  dsimp only
  omega

@[spec] theorem snapshotChunkTo_above (m₀ : Meta N) (p : N) :
    Keeps (Above m₀) (snapshotChunkTo p : MemM N Unit) := by
  mvcgen -trivial [snapshotChunkTo]
  all_goals exact ‹Above m₀ _›

omit [DecidableEq N] in
@[spec] theorem appendEntriesTo_above (m₀ : Meta N) (p : N) (i : Nat) :
    Keeps (Above m₀) (appendEntriesTo p i : MemM N Unit) := by
  mvcgen -trivial [appendEntriesTo, storageCall, memStorage_termAt, memStorage_entries]
  all_goals exact ‹Above m₀ _›

@[spec] theorem heartbeatTo_above (m₀ : Meta N) (l : LeaderState N) (p : N) :
    Keeps (Above m₀) (heartbeatTo l p : MemM N Unit) := by
  mvcgen -trivial [heartbeatTo]
  all_goals exact ‹Above m₀ _›

@[spec] theorem forM_heartbeatTo_above (m₀ : Meta N) (l : LeaderState N) (ps : List N) :
    Keeps (Above m₀) (ps.forM (heartbeatTo l) : MemM N Unit) :=
  forM_keeps _ _ _ fun p _ => heartbeatTo_above m₀ l p

omit [DecidableEq N] in
@[spec] theorem forM_emit_above (m₀ : Meta N) (ps : List N) (f : N → Outbound N) :
    Keeps (Above m₀) (ps.forM fun p => emit (f p) : MemM N Unit) :=
  forM_keeps _ _ _ fun p _ => emit_above m₀ (f p)

@[spec] theorem sendHeartbeats_above (m₀ : Meta N) :
    Keeps (Above m₀) (sendHeartbeats : MemM N Unit) := by
  mvcgen -trivial [sendHeartbeats, ignoreErrors]
  all_goals exact ‹Above m₀ _›

@[spec] theorem handlePropose_above (m₀ : Meta N) (p : List UInt8) :
    Keeps (Above m₀) (handlePropose p : MemM N _) := by
  mvcgen -trivial [handlePropose, ignoreErrors, memStorage_commitBatch]
  all_goals exact ‹Above m₀ _›

@[spec] theorem handleChangeMembership_above (m₀ : Meta N) (ms : List N) :
    Keeps (Above m₀) (handleChangeMembership ms : MemM N _) := by
  mvcgen -trivial [handleChangeMembership, ignoreErrors, memStorage_commitBatch]
  all_goals exact ‹Above m₀ _›

@[spec] theorem handleReadIndex_above (m₀ : Meta N) (t : Option Nat) (r : Nat) :
    Keeps (Above m₀) (handleReadIndex t r : MemM N Unit) := by
  mvcgen -trivial [handleReadIndex, ignoreErrors]
  all_goals exact ‹Above m₀ _›

omit [DecidableEq N] in
@[spec] theorem stepDownIfStale_above (m₀ : Meta N) (t : Nat) :
    Keeps (Above m₀) (stepDownIfStale t : MemM N Bool) := by
  mvcgen -trivial [stepDownIfStale]
  -- a newer term in a reply: the precondition of `persist_term_bump`
  case vc1.isTrue.pre => exact ⟨‹Above m₀ _›, ‹_ < t›⟩
  all_goals exact ‹Above m₀ _›

@[spec] theorem handleAppendResponse_above (m₀ : Meta N) (n : N) (r : AppendEntriesResp) :
    Keeps (Above m₀) (handleAppendResponse n r : MemM N Unit) := by
  mvcgen -trivial [handleAppendResponse]
  all_goals exact ‹Above m₀ _›

@[spec] theorem handleInstallSnapshotResponse_above (m₀ : Meta N) (n : N) (r : InstallSnapshotResp)
    (i t c : Nat) (w : Bool) :
    Keeps (Above m₀) (handleInstallSnapshotResponse n r i t c w : MemM N Unit) := by
  mvcgen -trivial [handleInstallSnapshotResponse]
  all_goals exact ‹Above m₀ _›

/-! ## Inbound handlers

Each one moves the meta ahead of the store and lands it with one batch; the helpers that run in
between are unfolded. What remains on every path is a write of one of the moves of
`Vos.Raft.MetaOrder`, which `grind` checks field by field. -/

@[spec] theorem handleRequestVote_above (m₀ : Meta N) (req : RequestVoteReq N) :
    Keeps (Above m₀) (handleRequestVote req : MemM N _) := by
  mvcgen [handleRequestVote, storageCallRollback, memStorage_commitBatch, stepDown,
    drainPendingReadsOnStepDown]
  all_goals simp +zetaDelta only [Above, MemStorage.commitBatch_meta, WriteBatch.metaAfter] at *
  -- the cases are split on `bumped`, then `granted`, then the write
  case vc2.isFalse.isTrue.isTrue.isTrue =>
    -- a newer term, and a vote in it
    have h := ‹MetaAbove m₀ _ _›
    have hbump := of_decide_eq_true ‹decide (_ < req.term) = true›
    exact h.write (le_trans (Meta.le_bump _ hbump) (Meta.le_vote _ (.inl rfl))) h.snap_le_commit
  case vc4.isFalse.isTrue.isFalse.isTrue =>
    -- a newer term, no vote
    have h := ‹MetaAbove m₀ _ _›
    have hbump := of_decide_eq_true ‹decide (_ < req.term) = true›
    exact h.write (Meta.le_bump _ hbump) h.snap_le_commit
  case vc6.isFalse.isFalse.isTrue.isTrue =>
    -- the same term, and a vote that was free for the candidate
    have h := ‹MetaAbove m₀ _ _›
    have hfree := ((Bool.and_eq_true _ _).mp ‹(!_ && _) = true›).1
    rw [Bool.not_eq_true'] at hfree
    exact h.write (Meta.le_vote _ (vote_free_iff.mp hfree)) h.snap_le_commit
  -- the other paths keep the meta, write it as it was, or cannot be taken
  all_goals first
    | assumption
    | exact ‹MetaAbove m₀ _ _›.write le_rfl ‹MetaAbove m₀ _ _›.snap_le_commit
    | simp_all

/-- `handle_append_entries` writes the meta once or twice on every path: the term raised to the
leader's with the vote cleared (`Meta.le_bump`), then the commit index raised towards
`leader_commit` (`Meta.le_commit`); the paths multiply with the membership rescan, so `grind`
checks the two moves field by field on each. -/
@[spec] theorem handleAppendEntries_above (m₀ : Meta N) (req : AppendEntriesReq N) :
    Keeps (Above m₀) (handleAppendEntries req : MemM N _) := by
  mvcgen [handleAppendEntries, storageCallRollback, memStorage_commitBatch, memStorage_termAt,
    drainPendingReadsOnStepDown, rescanConfig, memStorage_entries]
  all_goals simp +zetaDelta only [Above, MemStorage.commitBatch_meta, WriteBatch.metaAfter] at *
  -- a rollback restores the meta the handler started from
  all_goals first
    | assumption
    | exact ‹MetaAbove m₀ _ _›.write le_rfl ‹MetaAbove m₀ _ _›.snap_le_commit
    | grind [metaAbove_iff, Meta.le_def, Meta.le_iff]

/-- `handle_install_snapshot` raises the term as `handle_append_entries` does, and a final chunk
above the snapshot pointer moves the pointer and the commit index up to the snapshot's last
index (`Meta.le_compact`, `Meta.le_commit`), checked by `grind` on each path. -/
@[spec] theorem handleInstallSnapshot_above (m₀ : Meta N) (n : N) (req : InstallSnapshotReq N) :
    Keeps (Above m₀) (handleInstallSnapshot n req : MemM N _) := by
  mvcgen [handleInstallSnapshot, storageCallRollback, memStorage_commitBatch,
    memStorage_snapLastIndex, drainPendingReadsOnStepDown]
  all_goals simp +zetaDelta only [Above, MemStorage.commitBatch_meta, WriteBatch.metaAfter] at *
  all_goals first
    | assumption
    | exact ‹MetaAbove m₀ _ _›.write le_rfl ‹MetaAbove m₀ _ _›.snap_le_commit
    | grind [metaAbove_iff, Meta.le_def, Meta.le_iff]

/-! ## Elections, timers and the loop

`start_election` bumps the term with a `u64` `+ 1`, a move up only while the term is below
`u64::MAX` (`Meta.le_elect`). Its specification and those of its callers take that room as a
precondition (`TermRoom`); on every other path the metas are untouched. -/

/-- The term has room below `2^64` for the `+ 1` of an election. -/
def TermRoom (s : WorkerState N (MemStorage N)) : Prop := s.meta'.currentTerm + 1 < 2 ^ 64

/-- From a settled state above `m₀` whose term has room, `x` ends settled above `m₀`. -/
abbrev KeepsWithRoom {α : Type} (m₀ : Meta N) (x : MemM N α) : Prop :=
  Hoare (fun s => Above m₀ s ∧ TermRoom s) x (fun _ => Above m₀) (fun _ => Above m₀)

@[spec] theorem startElection_above (m₀ : Meta N) :
    KeepsWithRoom m₀ (startElection : MemM N Unit) := by
  mvcgen [startElection, memStorage_commitBatch]
  case vc3.isFalse.post.success.pre =>
    -- the durable write of the bumped term and the self-vote
    obtain ⟨h, hroom⟩ := ‹Above m₀ _ ∧ TermRoom _›
    simp +zetaDelta only [Above, MemStorage.commitBatch_meta, WriteBatch.metaAfter] at h ⊢
    exact h.write (Meta.le_elect _ _ hroom) h.snap_le_commit
  all_goals exact ‹Above m₀ _ ∧ TermRoom _›.1

@[spec] theorem startPreElection_above (m₀ : Meta N) :
    KeepsWithRoom m₀ (startPreElection : MemM N Unit) := by
  mvcgen [startPreElection]
  -- a solo cluster goes to the election from the same state; the round itself sends requests
  all_goals first
    | exact ‹Above m₀ _ ∧ TermRoom _›
    | exact ‹Above m₀ _ ∧ TermRoom _›.1

@[spec] theorem handleVoteResponse_above (m₀ : Meta N) (n : N) (r : RequestVoteResp) :
    Keeps (Above m₀) (handleVoteResponse n r : MemM N Unit) := by
  mvcgen -trivial [handleVoteResponse]
  all_goals exact ‹Above m₀ _›

@[spec] theorem handlePrevoteResponse_above (m₀ : Meta N) (n : N) (t : Nat) (r : PreVoteResp) :
    Keeps (Above m₀) (handlePrevoteResponse n t r : MemM N Unit) := by
  mvcgen -trivial [handlePrevoteResponse]
  all_goals exact ‹Above m₀ _›

@[spec] theorem onTimer_above (m₀ : Meta N) : KeepsWithRoom m₀ (onTimer : MemM N Unit) := by
  mvcgen [onTimer, ignoreErrors]
  -- the miss counter and the role are not the metas: the room is still there
  all_goals first
    | exact ‹Above m₀ _ ∧ TermRoom _›
    | exact ‹Above m₀ _ ∧ TermRoom _›.1

@[spec] theorem onWorkerTimer_above (m₀ : Meta N) (d : Bool) :
    KeepsWithRoom m₀ (onWorkerTimer d : MemM N Unit) := by
  mvcgen [onWorkerTimer, expirePendingReads]
  all_goals first
    | exact ‹Above m₀ _ ∧ TermRoom _›
    | exact ‹Above m₀ _ ∧ TermRoom _›.1

@[spec] theorem handleRequest_above (m₀ : Meta N) (n p : N) (r : Request N) :
    Keeps (Above m₀) (handleRequest n p r : MemM N _) := by
  mvcgen -trivial [handleRequest]
  all_goals exact ‹Above m₀ _›

@[spec] theorem handleRpcOutcome_above (m₀ : Meta N) (o : RpcOutcome N) :
    Keeps (Above m₀) (handleRpcOutcome o : MemM N Unit) := by
  mvcgen -trivial [handleRpcOutcome, ignoreErrors]
  all_goals exact ‹Above m₀ _›

@[spec] theorem WorkerInput.handle_above (m₀ : Meta N) (i : WorkerInput N) :
    KeepsWithRoom m₀ (i.handle : MemM N Unit) := by
  cases i <;> mvcgen [WorkerInput.handle]
  all_goals exact ‹Above m₀ _ ∧ TermRoom _›.1

/-! ## Runs -/

theorem workerRun_take_succ (s : WorkerState N (MemStorage N)) {inputs : List (WorkerInput N)}
    {k : Nat} (hk : k < inputs.length) :
    workerRun s (inputs.take (k + 1)) =
      ((inputs[k].handle : MemM N Unit).run.run (workerRun s (inputs.take k))).2 := by
  rw [List.take_add_one, List.getElem?_eq_getElem hk, Option.toList_some, workerRun_append]
  rfl

theorem handle_run_above {m₀ : Meta N} {s : WorkerState N (MemStorage N)} (h : Above m₀ s)
    (hroom : TermRoom s) (i : WorkerInput N) : Above m₀ ((i.handle : MemM N Unit).run.run s).2 := by
  have hrun := run_of_hoare (WorkerInput.handle_above m₀ i) s ⟨h, hroom⟩
  generalize (i.handle : MemM N Unit).run.run s = r at hrun ⊢
  rcases r with ⟨_ | _, s'⟩ <;> exact hrun

omit [DecidableEq N] in
/-- A worker booted from a store whose snapshot is committed starts settled: it reads its meta
from the store. -/
theorem workerInit_above (st : MemStorage N) (cfg : Config N) (now : Nat)
    (s₀ : WorkerState N (MemStorage N)) (hboot : workerInit st cfg now = .ok s₀)
    (hst : st.meta'.snapLastIndex ≤ st.meta'.commitIndex) : Above s₀.meta' s₀ := by
  simp only [workerInit, memStorage_loadMeta] at hboot
  rcases hrec : recoverActiveConfig st cfg true with e | rec
  · exact e.elim
  · rw [hrec] at hboot
    cases hboot
    exact ⟨rfl, hst, le_rfl⟩

/-- **Monotone scalars, up to the wrap.** Along any run of a worker booted on `MemStorage` in
which the term stays below `u64::MAX` before each input, the meta after `k` inputs is below the
meta after any later count (`Meta.Le`: term, commit index and snapshot pointer never decrease,
and within a term the vote only goes from none to a candidate), and after every step the
snapshot is committed. -/
theorem memWorker_meta_monotone (st : MemStorage N) (cfg : Config N) (now : Nat)
    (s₀ : WorkerState N (MemStorage N)) (hboot : workerInit st cfg now = .ok s₀)
    (hst : st.meta'.snapLastIndex ≤ st.meta'.commitIndex) (inputs : List (WorkerInput N))
    (hroom : ∀ k < inputs.length, (workerRun s₀ (inputs.take k)).meta'.currentTerm + 1 < 2 ^ 64) :
    Monotone (fun k => (workerRun s₀ (inputs.take k)).meta') ∧
      ∀ k, (workerRun s₀ (inputs.take k)).meta'.snapLastIndex ≤
        (workerRun s₀ (inputs.take k)).meta'.commitIndex := by
  -- past the last input the run stands still
  have hend : ∀ {k}, ¬ k < inputs.length → workerRun s₀ (inputs.take (k + 1)) =
      workerRun s₀ (inputs.take k) := fun hk => by
    rw [List.take_of_length_le (by omega), List.take_of_length_le (by omega)]
  -- every state of the run is settled, by induction on the number of inputs
  have hsettled : ∀ k, Above (workerRun s₀ (inputs.take k)).meta' (workerRun s₀ (inputs.take k)) := by
    intro k
    induction k with
    | zero => exact workerInit_above st cfg now s₀ hboot hst
    | succ k ih =>
      by_cases hk : k < inputs.length
      · rw [workerRun_take_succ s₀ hk]
        have h := handle_run_above ih (hroom k hk) inputs[k]
        exact ⟨h.durable, h.snap_le_commit, le_rfl⟩
      · rw [hend hk]
        exact ih
  refine ⟨monotone_nat_of_le_succ fun k => ?_, fun k => (hsettled k).snap_le_commit⟩
  by_cases hk : k < inputs.length
  · show _ ≤ (workerRun s₀ (inputs.take (k + 1))).meta'
    rw [workerRun_take_succ s₀ hk]
    exact (handle_run_above (hsettled k) (hroom k hk) inputs[k]).above
  · show _ ≤ (workerRun s₀ (inputs.take (k + 1))).meta'
    rw [hend hk]

/-- A fresh solo worker whose timer fires twice and which is then sent a vote request of term 5. -/
example :
    ∃ s₀, workerInit (MemStorage.new : MemStorage Nat) (Config.new 0 [0]) 0 = .ok s₀ ∧
      Monotone (fun k => (workerRun s₀ (([.timer true, .timer true,
        .request 1 (.vote { candidate := 1, term := 5, lastLogIndex := 9, lastLogTerm := 5 })] :
          List (WorkerInput Nat)).take k)).meta') :=
  ⟨_, rfl, (memWorker_meta_monotone MemStorage.new (Config.new 0 [0]) 0 _ rfl (by decide) _
    (by decide +kernel)).1⟩

/-- Two members, pre-vote off: node `0` is asked by node `1` for a vote at term `u64::MAX`. -/
def voteAtMax : WorkerInput Nat :=
  .request 1 (.vote { candidate := 1, term := 2 ^ 64 - 1, lastLogIndex := 0, lastLogTerm := 0 })

/-- **The term wraps.** A fresh worker of two members with pre-vote off grants a vote at term
`u64::MAX`; when its election timer then fires, `start_election` bumps the term to `0`, and the
meta goes down. -/
theorem memWorker_term_wraps :
    ∃ s₀, workerInit (MemStorage.new : MemStorage Nat) { Config.new 0 [0, 1] with preVote := false } 0 =
        .ok s₀ ∧
      (workerRun s₀ [voteAtMax]).meta'.currentTerm = 2 ^ 64 - 1 ∧
      (workerRun s₀ [voteAtMax, .timer true]).meta'.currentTerm = 0 ∧
      ¬ Monotone (fun k => (workerRun s₀ ([voteAtMax, .timer true].take k)).meta') := by
  refine ⟨_, rfl, by decide +kernel, by decide +kernel, fun hmono => ?_⟩
  -- the term after the vote is `u64::MAX`, after the timer `0`
  have hle := (hmono (show 1 ≤ 2 by omega)).term
  revert hle
  decide +kernel

end Vos.Raft
