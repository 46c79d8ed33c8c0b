import Vos.Raft.Worker.Loop

/-!
# vos-raft — a cluster of workers

A closed system of workers that talk only through the network, under any schedule. The network
is the list of packets ever sent: delivering a packet does not remove it, so any packet may be
delivered late, out of order, more than once, or never. A reply carries the incarnation of the
worker that sent the request; after a restart the old futures are gone and their replies are
dropped. A restart keeps the node's storage (its persisted `Meta` and log) and rebuilds the
worker with `workerInit`.

Two pieces of ghost state record what leaves the workers: `elected`, every promotion of a node to
Leader with its term, and `replies`, every answer handed to a client on its oneshot channel.

* `Packet`, `ClientReply`, `Event`, `World`;
* `World.runOn`: one handler run on one node, its outbox flushed to the network;
* `World.step`, `World.run`, `Reachable`;
* the safety properties of the cluster: `ElectionSafe`, `CommittedAgree`,
  `ReadIndexLinearizable`, and `LogContiguous` for one store;
* the schedules that break them: **`electionRace_two_leaders`**,
  **`proposeRace_committed_divergence`**, **`membershipRace_unsafe`**,
  **`staleRead_not_linearizable`**, **`appendEntries_across_snapshot`**.
-/

namespace Vos.Raft

/-- A packet on the wire: a request from `src` to `dst` sent by incarnation `inc` of `src`, or the
outcome that resolves a future of incarnation `inc` of `dst`. -/
inductive Packet (N : Type)
  | request (src dst : N) (inc : Nat) (rpc : Request N)
  | reply (dst : N) (inc : Nat) (outcome : RpcOutcome N)
  deriving DecidableEq, Repr

/-- What a client is answered (the oneshot replies of `propose`, `change_membership` and
`read_index`). -/
inductive ClientReply
  | propose (r : Except ProposeError Nat)
  | changeMembership (r : Except ChangeMembershipError Nat)
  | readIndex (reply : Nat) (r : Except ReadIndexError Nat)
  deriving DecidableEq

/-- One step of the environment. -/
inductive Event (N : Type)
  /-- The worker of `n` wakes up; `electionDue` when its election or heartbeat deadline passed. -/
  | timer (n : N) (electionDue : Bool)
  /-- The `i`-th packet ever sent arrives. -/
  | deliver (i : Nat)
  | propose (n : N) (payload : List UInt8)
  | changeMembership (n : N) (members : List N)
  | readIndex (n : N) (timeout : Option Nat) (reply : Nat)
  /-- The node crashes and boots again from its storage. -/
  | restart (n : N)
  /-- Time passes. -/
  | tick (d : Nat)
  deriving DecidableEq

/-- The whole system: the workers, the network and the ghost records. -/
structure World (N S : Type) where
  nodes : N → WorkerState N S
  incarnation : N → Nat
  net : List (Packet N)
  now : Nat
  elected : List (N × Nat)
  replies : List (N × ClientReply)

variable {N S E : Type} [DecidableEq N] [Storage N S E]

/-- The packet an outbound RPC of `src`'s incarnation `inc` becomes. -/
def Outbound.toPacket (src : N) (inc : Nat) : Outbound N → Option (Packet N)
  | .append peer req => some (.request src peer inc (.append req))
  | .vote peer req => some (.request src peer inc (.vote req))
  | .preVote peer req => some (.request src peer inc (.preVote req))
  | .install peer req chunkEndOffset wasFinal =>
    some (.request src peer inc (.install req chunkEndOffset wasFinal))
  | .readReply _ _ => none

/-- The client answer an outbound item is, if it is one. -/
def Outbound.toReply : Outbound N → Option ClientReply
  | .readReply reply r => some (.readIndex reply r)
  | _ => none

/-- The election record of one handler run on `n`: the node became Leader, or is Leader of
another term than before. -/
def electedOf (n : N) (pre post : WorkerState N S) : List (N × Nat) :=
  if post.role = .leader ∧ (pre.role ≠ .leader ∨ pre.meta'.currentTerm ≠ post.meta'.currentTerm)
  then [(n, post.meta'.currentTerm)] else []

namespace World

/-- Run a handler on node `n` at the world's clock; its outbox goes to the network and to the
clients, and a promotion to Leader is recorded. -/
def runOn {α : Type} (w : World N S) (n : N) (m : WorkerM N S E α) : Except E α × World N S :=
  let pre := w.nodes n
  let (r, post) := (m.run).run { pre with now := w.now, outbox := [] }
  (r, { w with nodes := Function.update w.nodes n { post with outbox := [] },
               net := w.net ++ post.outbox.filterMap (Outbound.toPacket n (w.incarnation n)),
               replies := w.replies ++ (post.outbox.filterMap Outbound.toReply).map (n, ·),
               elected := w.elected ++ electedOf n pre post })

/-- Record a client answer from `n`. -/
def answer (w : World N S) (n : N) (c : ClientReply) : World N S :=
  { w with replies := w.replies ++ [(n, c)] }

/-- Deliver one packet. A request runs its handler at `dst` and, when the handler succeeds, puts
the reply for `src`'s incarnation on the wire; a reply resolves its future only if that
incarnation of `dst` is still running. -/
def deliver (w : World N S) : Packet N → World N S
  | .request src dst inc rpc =>
    match w.runOn dst (handleRequest src dst rpc) with
    | (.ok (some outcome), w') => { w' with net := w'.net ++ [.reply src inc outcome] }
    | (_, w') => w'
  | .reply dst inc outcome =>
    if inc = w.incarnation dst then (w.runOn dst (handleRpcOutcome outcome)).2 else w

/-- One step of the environment. -/
def step (w : World N S) : Event N → World N S
  | .timer n electionDue => (w.runOn n (onWorkerTimer electionDue)).2
  | .deliver i =>
    match w.net[i]? with
    | some p => w.deliver p
    | none => w
  | .propose n payload =>
    match w.runOn n (handlePropose payload) with
    | (.ok r, w') => w'.answer n (.propose r)
    | (.error _, w') => w'
  | .changeMembership n members =>
    match w.runOn n (handleChangeMembership members) with
    | (.ok r, w') => w'.answer n (.changeMembership r)
    | (.error _, w') => w'
  | .readIndex n timeout reply => (w.runOn n (handleReadIndex timeout reply)).2
  | .restart n =>
    -- a boot whose `load_meta` fails leaves the node as it was
    match workerInit (w.nodes n).storage (w.nodes n).cfg w.now with
    | .ok ws => { w with nodes := Function.update w.nodes n ws,
                         incarnation := Function.update w.incarnation n (w.incarnation n + 1) }
    | .error _ => w
  | .tick d => { w with now := w.now + d }

/-- The world after a schedule of events. -/
def run (w : World N S) (evs : List (Event N)) : World N S := evs.foldl step w

end World

/-- A worker booted from an empty `MemStorage` with `Config::new`, at time `0`; the boot cannot
fail, the store's error type being empty. -/
def freshWorker (me : N) (members : List N) : WorkerState N (MemStorage N) :=
  match workerInit (MemStorage.new : MemStorage N) (Config.new me members) 0 with
  | .ok ws => ws
  | .error e => nomatch e

/-- A fresh cluster of `members` over `MemStorage`. -/
def World.fresh (members : List N) : World N (MemStorage N) :=
  { nodes := fun n => freshWorker n members, incarnation := fun _ => 0, net := [], now := 0,
    elected := [], replies := [] }

/-- The worlds a schedule reaches from `w₀`. -/
def Reachable (w₀ w : World N S) : Prop := ∃ evs, w = w₀.run evs

/-- Election safety: no two nodes are ever elected in the same term. -/
def ElectionSafe (w : World N S) : Prop :=
  ∀ a b t, (a, t) ∈ w.elected → (b, t) ∈ w.elected → a = b

/-- The live entry a store holds at index `i` (`entries(i, i)`). -/
def liveEntry (st : S) (i : Nat) : Option (LogEntry N) :=
  match Storage.entries st i i with
  | .ok (e :: _) => some e
  | _ => none

/-- The first part of state-machine safety: two nodes that have both committed index `i` and both
still hold it hold the same entry there. -/
def CommittedAgree (w : World N S) : Prop :=
  ∀ a b i ea eb, i ≤ (w.nodes a).meta'.commitIndex → i ≤ (w.nodes b).meta'.commitIndex →
    liveEntry (w.nodes a).storage i = some ea → liveEntry (w.nodes b).storage i = some eb → ea = eb

/-! ## Two leaders in one term

`handle_prevote_response` tallies pre-vote grants in `votes_received`, the set
`handle_vote_response` tallies real votes in, and promotes a PreCandidate that reaches a pre-vote
quorum to Candidate *without* bumping its term. A Candidate created that way accepts any
`RequestVoteResp` of its current term, so a real vote it won earlier in that term, delivered late,
is counted together with the pre-vote grants for the *next* term, and the pair reaches a quorum.
Voters that gave their real vote of the term to someone else are then counted for this node too.

The schedule below drives five fresh workers (`Config::new`, pre-vote on, static membership
`[0, 1, 2, 3, 4]`) to exactly that:

1. node 1 wins a pre-vote round (grants of 3 and 4) and starts the election of term 1;
2. node 0 wins a pre-vote round (grants of 2 and 3) and also starts the election of term 1;
3. 3 and 4 vote for node 1 in term 1, and node 2 votes for node 0; node 2's reply stays in
   flight;
4. node 1 is elected in term 1 and its heartbeat makes node 0 a follower of term 1;
5. node 0's timer fires: a new pre-vote round for term 2, granted by 3 and 4, which have not heard
   from node 1 yet; node 0 becomes Candidate, still in term 1, holding the grants `{0, 3, 4}`;
6. node 2's reply from step 3 arrives: a current-term grant to a Candidate, so node 0 counts it,
   sees a quorum, and becomes the second leader of term 1.

Both leaders then replicate and commit: node 1 a proposal (or a membership change), node 0 its own
no-op, at the same index 2 and with the same term, through the same followers, whose
"already present" check cannot tell the two entries apart.

* `electionRace`, `commitOnBoth`, `proposeRace`, `membershipRace`;
* the three runs evaluated: `electionRace_elected`, `proposeRace_commits`,
  `membershipRace_commits`.
-/


/-- Five fresh workers `0, …, 4` over `MemStorage`. -/
def fiveNodes : World Nat (MemStorage Nat) := World.fresh [0, 1, 2, 3, 4]

/-- Steps 1–6: packets are numbered in the order they were sent (`deliver i`). -/
def electionRace : List (Event Nat) :=
  [ -- node 1: pre-vote round, granted by 3 and 4, then the election of term 1
    .timer 1 true, .deliver 2, .deliver 3, .deliver 4, .deliver 5, .timer 1 true,
    -- node 0: pre-vote round, granted by 2 and 3, then the election of term 1
    .timer 0 true, .deliver 11, .deliver 12, .deliver 14, .deliver 15, .timer 0 true,
    -- 3 and 4 vote for node 1, node 2 votes for node 0 (reply 22 stays in flight)
    .deliver 8, .deliver 9, .deliver 17,
    -- node 1 is elected and its heartbeat reaches node 0
    .deliver 20, .deliver 21, .timer 1 true, .deliver 23,
    -- node 0: pre-vote round for term 2, granted by 3 and 4: Candidate in term 1
    .timer 0 true, .deliver 30, .deliver 31, .deliver 32, .deliver 33,
    -- the late vote of node 2
    .deliver 22 ]

theorem electionRace_elected : (fiveNodes.run electionRace).elected = [(1, 1), (0, 1)] := by
  decide +kernel

/-- After the race: node 1 replicates its log to 3 and 4 and commits index 2, then node 0 does
the same with its own log. -/
def commitOnBoth : List (Event Nat) :=
  [.timer 1 true, .deliver 36, .deliver 37, .deliver 38, .deliver 39,
   .timer 0 true, .deliver 42, .deliver 43, .deliver 44, .deliver 45]

/-- The race, then a proposal of `[1]` to node 1, committed on both leaders. -/
def proposeRace : List (Event Nat) := electionRace ++ [.propose 1 [1]] ++ commitOnBoth

/-- The race, then a `change_membership` to node 1 (to the same member set), committed on both
leaders. -/
def membershipRace : List (Event Nat) :=
  electionRace ++ [.changeMembership 1 [0, 1, 2, 3, 4]] ++ commitOnBoth

/-- In the run of `proposeRace`, nodes 0 and 1 have both committed index 2, node 0 with its
no-op there and node 1 with the proposal. -/
theorem proposeRace_commits :
    let w := fiveNodes.run proposeRace
    (w.nodes 0).meta'.commitIndex = 2 ∧ (w.nodes 1).meta'.commitIndex = 2 ∧
    liveEntry (w.nodes 0).storage 2 = some (LogEntry.data 2 1 []) ∧
    liveEntry (w.nodes 1).storage 2 = some (LogEntry.data 2 1 [1]) := by
  decide +kernel

/-- In the run of `membershipRace`, the membership change is accepted at index 2 and both nodes
commit index 2, node 0 with its no-op there and node 1 with the joint `ConfigChange`; both were
elected in term 1. -/
theorem membershipRace_commits :
    let w := fiveNodes.run membershipRace
    (1, .changeMembership (.ok 2)) ∈ w.replies ∧ w.elected = [(1, 1), (0, 1)] ∧
    (w.nodes 0).meta'.commitIndex = 2 ∧ (w.nodes 1).meta'.commitIndex = 2 ∧
    liveEntry (w.nodes 0).storage 2 = some (LogEntry.data 2 1 []) ∧
    liveEntry (w.nodes 1).storage 2 =
      some { index := 2, term := 1, kind := .configChange (some [0, 1, 2, 3, 4]) [0, 1, 2, 3, 4] } := by
  decide +kernel

theorem not_electionSafe_of_two {N S : Type} {w : World N S} {a b : N} {t : Nat}
    (ha : (a, t) ∈ w.elected) (hb : (b, t) ∈ w.elected) (hab : a ≠ b) : ¬ ElectionSafe w :=
  fun h => hab (h a b t ha hb)

/-- Two nodes that committed index `i` with different live entries there break the agreement on
committed entries. -/
theorem not_committedAgree_of_diverge {N S E : Type} [Storage N S E] {w : World N S} {a b : N}
    {i : Nat} {ea eb : LogEntry N} (hca : i ≤ (w.nodes a).meta'.commitIndex)
    (hcb : i ≤ (w.nodes b).meta'.commitIndex) (hea : liveEntry (w.nodes a).storage i = some ea)
    (heb : liveEntry (w.nodes b).storage i = some eb) (hne : ea ≠ eb) : ¬ CommittedAgree w :=
  fun h => hne (h a b i ea eb hca hcb hea heb)

/-- **Election safety fails**: in the run of `electionRace` from five fresh workers with pre-vote
on and a static member list, nodes 0 and 1 are both elected in term 1. -/
theorem electionRace_two_leaders : ¬ ElectionSafe (fiveNodes.run electionRace) := by
  have hel := electionRace_elected
  exact not_electionSafe_of_two (a := 1) (b := 0) (t := 1) (by simp [hel]) (by simp [hel])
    (by decide)

/-- **State-machine safety fails**: in the run of `proposeRace`, nodes 0 and 1 have both
committed index 2, which both still hold, with different entries there. -/
theorem proposeRace_committed_divergence : ¬ CommittedAgree (fiveNodes.run proposeRace) := by
  obtain ⟨h0, h1, he0, he1⟩ := proposeRace_commits
  exact not_committedAgree_of_diverge h0.ge h1.ge he0 he1 (by decide)

/-- **Joint consensus keeps neither guarantee**: the run of `membershipRace`, in which
`change_membership` succeeds, has two leaders in term 1 and two different entries committed at
index 2. -/
theorem membershipRace_unsafe :
    ¬ ElectionSafe (fiveNodes.run membershipRace) ∧ ¬ CommittedAgree (fiveNodes.run membershipRace) := by
  obtain ⟨_, hel, h0, h1, he0, he1⟩ := membershipRace_commits
  refine ⟨?_, ?_⟩
  · exact not_electionSafe_of_two (a := 1) (b := 0) (t := 1) (by simp [hel]) (by simp [hel])
      (by decide)
  · exact not_committedAgree_of_diverge h0.ge h1.ge he0 he1 (by decide)

/-! ## A stale leader answers `read_index`

`handle_read_index` captures `max(commit_index, current_term_first_index)` and queues the read;
`try_resolve_pending_reads` answers it as soon as the majority floor of `match_index` reaches that
index. Nothing ties the acknowledgements behind that floor to the read: the floor may already
stand there when the read arrives, and any success response, even one sent long before the
request, runs the check. A leader that has been superseded without hearing of it therefore
answers reads from acknowledgements of its old term.

The schedule below, on three fresh workers, drives exactly that:

1. node 0 wins the election of term 1 and replicates its no-op at index 1 to nodes 1 and 2; node
   1's acknowledgement of a later heartbeat stays in flight;
2. node 1 wins the pre-vote and the election of term 2 with node 2's grants, and commits its own
   no-op at index 2 through node 2; node 0 hears of none of it;
3. a client calls `read_index` on node 0, which queues the read at index 1 and sends heartbeats
   that are never delivered;
4. node 1's old acknowledgement arrives: node 0 answers the read with `Ok 1`.

* `ReadIndexLinearizable`: every answered read covers every index committed anywhere before it
  was requested;
* `supersededLeader`, `staleRead`, the run evaluated in `staleRead_answers`;
* **`staleRead_not_linearizable`**.
-/



/-- The reply channel a `read_index` call is answered on. -/
def Event.readReply : Event N → Option Nat
  | .readIndex _ _ reply => some reply
  | _ => none

/-- Linearizable `read_index` from `w₀`: when a read requested after the schedule `pre` is
answered `Ok r` on its own channel, then no node had committed an index above `r` when the read
was requested. -/
def ReadIndexLinearizable {E : Type} [Storage N S E] (w₀ : World N S) : Prop :=
  ∀ (pre post : List (Event N)) (n : N) (timeout : Option Nat) (reply r : Nat),
    (∀ e ∈ pre ++ post, e.readReply ≠ some reply) →
    (n, .readIndex reply (.ok r)) ∈ (w₀.run (pre ++ .readIndex n timeout reply :: post)).replies →
    ∀ m, ((w₀.run pre).nodes m).meta'.commitIndex ≤ r

/-- Three fresh workers `0, 1, 2` over `MemStorage`. -/
def threeNodes : World Nat (MemStorage Nat) := World.fresh [0, 1, 2]

/-- Steps 1–2: packets are numbered in the order they were sent (`deliver i`). -/
def supersededLeader : List (Event Nat) :=
  [ -- node 0: pre-vote and election of term 1, its no-op replicated to 1 and 2
    .timer 0 true, .deliver 0, .deliver 2, .timer 0 true, .deliver 3, .deliver 5,
    .timer 0 true, .deliver 6, .deliver 7, .deliver 8,
    -- a heartbeat whose acknowledgement by node 1 (packet 12) stays in flight
    .timer 0 true, .deliver 10,
    -- node 1: pre-vote and election of term 2 through node 2, then its no-op committed
    .tick 200, .timer 1 true, .deliver 14, .deliver 15, .timer 1 true, .deliver 17, .deliver 18,
    .timer 1 true, .deliver 20, .deliver 21 ]

/-- Steps 3–4: the read on node 0, then the late acknowledgement. -/
def staleRead : List (Event Nat) := [.readIndex 0 none 7, .deliver 12]

/-- When the read is requested, node 1 leads term 2 and has committed its no-op at index 2;
afterwards node 0, still leader of term 1, has answered it with `Ok 1`. -/
theorem staleRead_answers :
    let w := threeNodes.run supersededLeader
    (w.nodes 1).meta'.commitIndex = 2 ∧ liveEntry (w.nodes 1).storage 2 = some (LogEntry.data 2 2 []) ∧
    (w.nodes 0).role = .leader ∧ (w.nodes 0).meta'.currentTerm = 1 ∧
    (0, .readIndex 7 (.ok 1)) ∈ (threeNodes.run (supersededLeader ++ staleRead)).replies := by
  decide +kernel

/-- **Linearizable reads fail**: from three fresh workers, node 0 answers a read with index `1`
although node 1 had committed index `2` before the read was requested. -/
theorem staleRead_not_linearizable : ¬ ReadIndexLinearizable threeNodes := by
  intro h
  obtain ⟨h1, -, -, -, hr⟩ := staleRead_answers
  have hfresh : ∀ e ∈ supersededLeader ++ [.deliver 12], e.readReply ≠ some 7 := by decide
  have hle := h supersededLeader [.deliver 12] 0 none 7 1 hfresh hr 1
  rw [h1] at hle
  omega

/-! ## An AppendEntries across the snapshot boundary

`handle_append_entries` scans the sent entries with `term_at` and stops, without a conflict, at
the first index whose term it does not know. `MemStorage::term_at` answers `None` for every
compacted index below `snap_last_index` but `Some 0` at index `0`, so a request with
`prev_log_index = 0` to a follower with a snapshot passes the consistency check and its scan stops
at index `1` (`scanEntries_below_snapshot`): nothing is found present and nothing conflicting,
every sent entry is appended, and no truncation happens. The log then holds entries at or below the snapshot again, and the local
entries past the request survive even when a sent entry replaced a conflicting one.

The follower below is node 1 of `[0, 1, 2]`: it installs a snapshot of indices `1..=2` (term 1)
from node 0 and then appends indices 3 and 4 of term 1. A leader of term 2 whose log is
`1, 2` of term 1 and `3` of term 2 sends it everything from index 1.

* `LogContiguous`: the log holds exactly `snap_last_index + 1 ..= last_index`;
* `compactedFollower`, `repairFromStart`, `repairOutcome`;
* **`appendEntries_across_snapshot`**.
-/



/-- The log of a `MemStorage` holds exactly the indices `snap_last_index + 1 ..= last_index`, in
order. -/
def LogContiguous (st : MemStorage N) : Prop :=
  st.log.map LogEntry.index =
    List.range' (st.meta'.snapLastIndex + 1) (st.lastIndex - st.meta'.snapLastIndex)

instance (st : MemStorage N) : Decidable (LogContiguous st) :=
  inferInstanceAs (Decidable (_ = _))

/-- The final (and only) chunk of a snapshot of indices `1..=2`, term 1, from node 0, with the
membership omitted. -/
def snapshotToTwo : InstallSnapshotReq Nat :=
  { leader := 0, term := 1, lastIncludedIndex := 2, lastIncludedTerm := 1, offset := 0,
    done := true, data := [], members := [], jointOld := none, activeConfigIndex := none }

/-- Node 0's entries 3 and 4 of term 1 after the snapshot. -/
def tailAfterSnapshot : AppendEntriesReq Nat :=
  { leader := 0, term := 1, prevLogIndex := 2, prevLogTerm := 1, leaderCommit := 2,
    entries := [.data 3 1 [], .data 4 1 []] }

/-- Node 1 after `snapshotToTwo` and `tailAfterSnapshot`. -/
def compactedFollower : WorkerState Nat (MemStorage Nat) :=
  let s := ((handleInstallSnapshot 0 snapshotToTwo).run.run (freshWorker 1 [0, 1, 2])).2
  ((handleAppendEntries tailAfterSnapshot).run.run s).2

/-- A leader of term 2 replicates its whole log `1, 2` (term 1), `3` (term 2) from index 1. -/
def repairFromStart : AppendEntriesReq Nat :=
  { leader := 2, term := 2, prevLogIndex := 0, prevLogTerm := 0, leaderCommit := 0,
    entries := [.data 1 1 [], .data 2 1 [], .data 3 2 []] }

/-- The follower's answer to `repairFromStart`, and its state afterwards. -/
def repairOutcome : Except Empty AppendEntriesResp × WorkerState Nat (MemStorage Nat) :=
  (handleAppendEntries repairFromStart).run.run compactedFollower

/-- **The repair breaks the log shape**: the follower's log holds exactly `3, 4` above its
snapshot at `2`; the request succeeds, writes indices `1` and `2` below the snapshot again, and
keeps entry `4` of term 1 after replacing the conflicting entry `3` of term 1 by the sent one of
term 2. -/
theorem appendEntries_across_snapshot :
    compactedFollower.storage.meta'.snapLastIndex = 2 ∧ LogContiguous compactedFollower.storage ∧
    compactedFollower.storage.termAt 3 = some 1 ∧ compactedFollower.storage.termAt 4 = some 1 ∧
    repairOutcome.1 = .ok { term := 2, success := true, matchIndex := 3 } ∧
    repairOutcome.2.storage.meta'.snapLastIndex = 2 ∧ ¬ LogContiguous repairOutcome.2.storage ∧
    repairOutcome.2.storage.log = [.data 1 1 [], .data 2 1 [], .data 3 2 [], .data 4 1 []] := by
  decide +kernel

end Vos.Raft
