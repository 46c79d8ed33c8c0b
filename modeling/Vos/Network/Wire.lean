import Vos.Lib.ByteCodec

/-!
# vos network — Raft entries on the peer wire

`network/wire.rs` carries Raft's AppendEntries in a `RaftAppendReq` frame, capped at
`MAX_FRAME_BYTES`. The leader's transport (`VosTransport::send_append`) truncates the entries it
was asked to send to `raft_append_prefix_len(entries)`, which sizes each entry with
`raft_entry_encoded_len` instead of encoding it, and fails the send on `None`.

* `RaftEntry`, its wire `RaftEntry.encode`, and the `RaftAppendReq` arm of `Frame::encode`;
* `raftEntryEncodedLen_eq`: the size model is the length of the wire, for every entry whose member
  lists pass the `MAX_RAFT_MEMBERS` cap, and `None` for the others;
* `length_encodeRaftAppendReq`: a frame is 71 bytes and its entries;
* `raftAppendPrefixLen_eq_some`: a count it returns is the longest prefix of at most
  `MAX_RAFT_ENTRIES` entries whose frame fits;
* `raftAppendPrefixLen_eq_none_of_reached`: an entry over the member cap that the scan reaches
  fails the whole call, even when the entries before it fit.

Lengths are natural numbers: the `checked_add` and `checked_mul` of the source cannot overflow on
the lengths of real vectors.
-/

namespace Vos.Network

open ByteCodec

/-- `MAX_FRAME_BYTES`, 8 MiB. -/
def maxFrameBytes : ℕ := 8 * 1024 * 1024

/-- `MAX_RAFT_ENTRIES`. -/
def maxRaftEntries : ℕ := 1024

/-- `MAX_RAFT_MEMBERS`. -/
def maxRaftMembers : ℕ := 256

/-- `RAFT_APPEND_FRAME_BASE_BYTES`. -/
def raftAppendFrameBaseBytes : ℕ := 71

/-- `TAG_RAFT_APPEND_REQ`. -/
def tagRaftAppendReq : UInt8 := 0x30

/-- `RaftEntryKind`. -/
inductive RaftEntryKind
  | data (payload : List UInt8)
  | configChange (jointOld : Option (List UInt16)) (members : List UInt16)
  deriving DecidableEq

/-- `RaftEntry`. -/
structure RaftEntry where
  term : UInt64
  kind : RaftEntryKind
  deriving DecidableEq

/-! ## The wire -/

/-- A `u16` member list without its length: each id in two bytes. -/
def encodeIds (ids : List UInt16) : List UInt8 := ids.flatMap fun n => le 2 n.toNat

/-- One entry, as the `RaftAppendReq` arm of `Frame::encode` writes it. -/
def RaftEntry.encode (e : RaftEntry) : List UInt8 :=
  le 8 e.term.toNat ++
    match e.kind with
    | .data payload => 0 :: (le 4 payload.length ++ payload)
    | .configChange jointOld members =>
      1 :: ((match jointOld with
        | some prev => 1 :: (le 2 prev.length ++ encodeIds prev)
        | none => [0]) ++
        le 2 members.length ++ encodeIds members)

/-- The `RaftAppendReq` arm of `Frame::encode`. -/
def encodeRaftAppendReq (replicationId : Vector UInt8 32) (term : UInt64) (leaderPrefix : UInt16)
    (prevLogIndex prevLogTerm leaderCommit : UInt64) (entries : List RaftEntry) : List UInt8 :=
  tagRaftAppendReq :: (replicationId.toList ++ le 8 term.toNat ++ le 2 leaderPrefix.toNat ++
    le 8 prevLogIndex.toNat ++ le 8 prevLogTerm.toNat ++ le 8 leaderCommit.toNat ++
    le 4 entries.length ++ entries.flatMap RaftEntry.encode)

/-! ## The size model -/

/-- `raft_entry_encoded_len`. -/
def raftEntryEncodedLen (entry : RaftEntry) : Option ℕ := do
  let body ← match entry.kind with
    | .data payload => some (1 + 4 + payload.length)
    | .configChange jointOld members =>
      if members.length > maxRaftMembers ∨ jointOld.any (fun old => old.length > maxRaftMembers)
      then none
      else
        let old := jointOld.elim 1 fun old => 1 + 2 + old.length * 2
        some (1 + old + 2 + members.length * 2)
  return 8 + body

/-- The loop of `raft_append_prefix_len` from `encoded` bytes and `count` entries; the `?` on an
entry's size leaves the whole function. -/
def prefixScan (encoded count : ℕ) : List RaftEntry → Option ℕ
  | [] => some count
  | entry :: rest => do
    let next := encoded + (← raftEntryEncodedLen entry)
    if next > maxFrameBytes then some count else prefixScan next (count + 1) rest

/-- `raft_append_prefix_len`. -/
def raftAppendPrefixLen (entries : List RaftEntry) : Option ℕ := do
  let count ← prefixScan raftAppendFrameBaseBytes 0 (entries.take maxRaftEntries)
  if entries.isEmpty || count != 0 then some count else none

/-! ## The size model is the wire -/

/-- Every member list of the entry is within `MAX_RAFT_MEMBERS`, the cap the decoder enforces. -/
def RaftEntry.membersFit (e : RaftEntry) : Bool :=
  match e.kind with
  | .data _ => true
  | .configChange jointOld members =>
    decide (members.length ≤ maxRaftMembers) && jointOld.all fun old => decide (old.length ≤ maxRaftMembers)

@[simp] theorem length_encodeIds (ids : List UInt16) : (encodeIds ids).length = ids.length * 2 := by
  simp [encodeIds, List.length_flatMap]

/-- **`raft_entry_encoded_len` is the length of the entry's wire**, for every entry within the
member cap, and `None` for the others. -/
theorem raftEntryEncodedLen_eq (e : RaftEntry) :
    raftEntryEncodedLen e = if e.membersFit then some e.encode.length else none := by
  obtain ⟨term, kind⟩ := e
  cases kind with
  | data payload =>
    simp [raftEntryEncodedLen, RaftEntry.membersFit, RaftEntry.encode]
    omega
  | configChange jointOld members =>
    cases jointOld with
    | none =>
      by_cases hm : members.length ≤ maxRaftMembers
      · simp [raftEntryEncodedLen, RaftEntry.membersFit, RaftEntry.encode, hm]
        omega
      · simp [raftEntryEncodedLen, RaftEntry.membersFit, hm]
    | some old =>
      by_cases hm : members.length ≤ maxRaftMembers <;> by_cases ho : old.length ≤ maxRaftMembers
      · simp [raftEntryEncodedLen, RaftEntry.membersFit, RaftEntry.encode, hm, ho]
        omega
      all_goals simp [raftEntryEncodedLen, RaftEntry.membersFit, hm, ho]

/-- The length of a `RaftAppendReq` frame carrying `entries`, whatever its header. -/
def frameBytes (entries : List RaftEntry) : ℕ :=
  raftAppendFrameBaseBytes + (entries.map fun e => e.encode.length).sum

theorem length_encodeRaftAppendReq (replicationId : Vector UInt8 32) (term : UInt64)
    (leaderPrefix : UInt16) (prevLogIndex prevLogTerm leaderCommit : UInt64)
    (entries : List RaftEntry) :
    (encodeRaftAppendReq replicationId term leaderPrefix prevLogIndex prevLogTerm leaderCommit
      entries).length = frameBytes entries := by
  simp [encodeRaftAppendReq, frameBytes, raftAppendFrameBaseBytes, List.length_flatMap]
  omega

theorem frameBytes_take_mono (entries : List RaftEntry) {a b : ℕ} (h : a ≤ b) :
    frameBytes (entries.take a) ≤ frameBytes (entries.take b) := by
  have hsplit := List.take_append_drop a (entries.take b)
  rw [List.take_take, min_eq_left h] at hsplit
  have hsum : ((entries.take b).map fun e => e.encode.length).sum =
      ((entries.take a).map fun e => e.encode.length).sum +
        (((entries.take b).drop a).map fun e => e.encode.length).sum := by
    rw [← List.sum_append, ← List.map_append, hsplit]
  simp only [frameBytes, hsum]
  omega

theorem frameBytes_take_succ {entries : List RaftEntry} {j : ℕ} {e : RaftEntry}
    (he : entries[j]? = some e) :
    frameBytes (entries.take (j + 1)) = frameBytes (entries.take j) + e.encode.length := by
  simp [frameBytes, List.take_add_one, he, Nat.add_assoc]

/-! ## The scan -/

/-- What the scan returns, from `encoded` bytes and `count` entries: `j` more entries, all within
the member cap and fitting the frame, and the next entry, if any, within the cap but over the
frame. -/
theorem prefixScan_eq_some {encoded count k : ℕ} {es : List RaftEntry}
    (henc : encoded ≤ maxFrameBytes) (h : prefixScan encoded count es = some k) :
    ∃ j, k = count + j ∧ j ≤ es.length ∧ (∀ e ∈ es.take j, e.membersFit) ∧
      encoded + ((es.take j).map fun e => e.encode.length).sum ≤ maxFrameBytes ∧
      ∀ e, es[j]? = some e → e.membersFit ∧
        maxFrameBytes < encoded + ((es.take j).map fun e => e.encode.length).sum + e.encode.length := by
  induction es generalizing encoded count with
  | nil =>
    simp only [prefixScan, Option.some.injEq] at h
    exact ⟨0, by omega, by simp, by simp, by simpa using henc, by simp⟩
  | cons e rest ih =>
    simp only [prefixScan, raftEntryEncodedLen_eq] at h
    cases hfit : e.membersFit
    · simp [hfit] at h
    · simp only [hfit, if_true, Option.bind_eq_bind, Option.bind_some] at h
      split at h
      · -- the entry overflows the frame: the scan stops before it
        obtain rfl := Option.some.inj h
        exact ⟨0, by omega, by simp, by simp, by simpa using henc,
          fun e' he' => by simp at he'; subst he'; exact ⟨hfit, by simpa using ‹_›⟩⟩
      · -- the entry fits: the scan goes on from it
        obtain ⟨j, rfl, hlen, hfits, hsum, hnext⟩ := ih (by omega) h
        refine ⟨j + 1, by omega, by simpa using hlen, ?_, ?_, ?_⟩
        · intro e' he'
          rw [List.take_succ_cons, List.mem_cons] at he'
          rcases he' with rfl | he'
          · exact hfit
          · exact hfits e' he'
        · simp only [List.take_succ_cons, List.map_cons, List.sum_cons]
          omega
        · intro e' he'
          obtain ⟨hfit', hover⟩ := hnext e' (by simpa using he')
          refine ⟨hfit', ?_⟩
          simp only [List.take_succ_cons, List.map_cons, List.sum_cons]
          omega

/-- The scan fails as soon as it reaches an entry over the member cap, when the entries before
it fit the frame. -/
theorem prefixScan_eq_none {encoded count j : ℕ} {es : List RaftEntry} {e : RaftEntry}
    (hfit : ∀ e ∈ es.take j, e.membersFit)
    (hsum : encoded + ((es.take j).map fun e => e.encode.length).sum ≤ maxFrameBytes)
    (he : es[j]? = some e) (hwide : e.membersFit = false) : prefixScan encoded count es = none := by
  induction es generalizing encoded count j with
  | nil => simp at he
  | cons x rest ih =>
    cases j with
    | zero =>
      obtain rfl : x = e := by simpa using he
      simp [prefixScan, raftEntryEncodedLen_eq, hwide]
    | succ j =>
      -- `x` fits the cap and the frame, so the scan goes on past it
      have hx : x.membersFit := hfit x (by simp)
      simp only [List.take_succ_cons, List.map_cons, List.sum_cons] at hsum
      simp only [prefixScan, raftEntryEncodedLen_eq, hx, if_true, Option.bind_eq_bind,
        Option.bind_some]
      rw [if_neg (by omega)]
      refine ih (j := j) (fun e' he' => hfit e' ?_) (by omega) (by simpa using he)
      rw [List.take_succ_cons]
      exact List.mem_cons_of_mem _ he'

/-- **A count `raft_append_prefix_len` returns is the longest transportable prefix**: at most
`MAX_RAFT_ENTRIES` entries, none of them over the member cap, in a frame within
`MAX_FRAME_BYTES`, and no longer such prefix exists. -/
theorem raftAppendPrefixLen_eq_some {entries : List RaftEntry} {k : ℕ}
    (h : raftAppendPrefixLen entries = some k) :
    k ≤ min entries.length maxRaftEntries ∧ (entries = [] ∨ 0 < k) ∧
      (∀ e ∈ entries.take k, e.membersFit) ∧ frameBytes (entries.take k) ≤ maxFrameBytes ∧
      ∀ j ≤ min entries.length maxRaftEntries, (∀ e ∈ entries.take j, e.membersFit) →
        frameBytes (entries.take j) ≤ maxFrameBytes → j ≤ k := by
  obtain ⟨count, hscan, hk⟩ := Option.bind_eq_some_iff.mp h
  have hnonempty : entries = [] ∨ 0 < count := by
    by_cases he : entries = []
    · exact .inl he
    · refine .inr (Nat.pos_of_ne_zero fun h0 => ?_)
      simp [he, h0] at hk
  obtain rfl : count = k := by
    by_cases he : entries = [] <;> simp_all
  obtain ⟨j, hkj, hlen, hfits, hsum, hnext⟩ :=
    prefixScan_eq_some (by decide : raftAppendFrameBaseBytes ≤ maxFrameBytes) hscan
  obtain rfl : j = count := by omega
  rw [List.length_take] at hlen
  have htake : (entries.take maxRaftEntries).take j = entries.take j := by
    rw [List.take_take, min_eq_left (le_trans hlen (min_le_left _ _))]
  rw [htake] at hfits hsum hnext
  refine ⟨by simpa [Nat.min_comm] using hlen, by simpa using hnonempty, hfits, hsum, ?_⟩
  intro j' hj' _ hframe'
  by_contra hlt
  -- the entry after the prefix exists and overflows the frame
  obtain ⟨e, he⟩ : ∃ e, (entries.take maxRaftEntries)[j]? = some e :=
    Option.ne_none_iff_exists'.mp (by rw [ne_eq, List.getElem?_eq_none_iff, List.length_take]; omega)
  have he' : entries[j]? = some e := by
    rw [List.getElem?_take, if_pos (by omega)] at he
    exact he
  have hover : maxFrameBytes < frameBytes (entries.take (j + 1)) := by
    rw [frameBytes_take_succ he', frameBytes]
    exact (hnext e he).2
  have := frameBytes_take_mono entries (show j + 1 ≤ j' by omega)
  omega

/-- **An entry over the member cap fails the whole call when the scan reaches it**, even when the
entries before it fit. -/
theorem raftAppendPrefixLen_eq_none_of_reached {entries : List RaftEntry} {j : ℕ} {e : RaftEntry}
    (hj : j < maxRaftEntries) (hfit : ∀ e ∈ entries.take j, e.membersFit)
    (hframe : frameBytes (entries.take j) ≤ maxFrameBytes) (he : entries[j]? = some e)
    (hwide : e.membersFit = false) : raftAppendPrefixLen entries = none := by
  have htake : (entries.take maxRaftEntries).take j = entries.take j := by
    rw [List.take_take, min_eq_left hj.le]
  have hscan : prefixScan raftAppendFrameBaseBytes 0 (entries.take maxRaftEntries) = none := by
    refine prefixScan_eq_none (j := j) (by rwa [htake]) (by rw [htake]; exact hframe) ?_ hwide
    rw [List.getElem?_take, if_pos hj, he]
  simp [raftAppendPrefixLen, hscan]

/-- A no-op entry fits a frame alone, but a configuration change over the member cap after it
fails the call instead of being left for the next one. -/
theorem raftAppendPrefixLen_wide_second_entry :
    let noop : RaftEntry := ⟨0, .data []⟩
    let wide : RaftEntry := ⟨0, .configChange none ((List.range 257).map Nat.toUInt16)⟩
    raftAppendPrefixLen [noop] = some 1 ∧ raftAppendPrefixLen [noop, wide] = none := by
  intro noop wide
  have hwide : wide.membersFit = false := by simp [wide, RaftEntry.membersFit, maxRaftMembers]
  refine ⟨by decide, raftAppendPrefixLen_eq_none_of_reached (j := 1) (by decide) ?_ (by decide) rfl hwide⟩
  simp [noop, RaftEntry.membersFit]

end Vos.Network
