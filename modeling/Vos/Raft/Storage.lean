import Vos.Raft.Types

/-!
# vos-raft — storage

The `Storage` trait as a class over a storage type `S` with error type `E`, the atomic
`WriteBatch`, and the in-memory backend `MemStorage`, whose error type is empty.

`MemStorage` keeps its `BTreeMap<u64, LogEntry>` as a list of entries in ascending index
order: `insertEntry` is the map's `insert` (replacing an entry at the same index), and the
`retain` calls of `commit_batch` are filters, so the order is kept by every write.

* `Storage`, `WriteBatch`;
* `MemStorage`, `insertEntry`, `MemStorage.commitBatch`, `MemStorage.termAt`,
  `MemStorage.entries`;
* `WriteBatch.metaAfter`: the durable meta a successful batch leaves, which
  `MemStorage.commitBatch_meta` shows the in-memory backend keeps to.
-/

namespace Vos.Raft

/-- An atomic write (`WriteBatch`): truncate, then compact, then append, then state, then meta,
then the active configuration. -/
structure WriteBatch (N : Type) where
  truncateAfter : Option Nat := none
  compactTo : Option (Nat × Nat) := none
  appends : List (LogEntry N) := []
  state : Option (List UInt8) := none
  meta' : Option (Meta N) := none
  activeConfig : Option (ActiveConfigRecord N) := none

/-- The `Storage` trait. The cached scalars are total; every other access may fail with `E`. -/
class Storage (N : outParam Type) (S : Type) (E : outParam Type) where
  lastIndex : S → Nat
  lastTerm : S → Nat
  snapLastIndex : S → Nat
  snapLastTerm : S → Nat
  termAt : S → Nat → Except E (Option Nat)
  entries : S → Nat → Nat → Except E (List (LogEntry N))
  readState : S → Except E (List UInt8)
  appliedIndex : S → Except E (Option Nat)
  loadMeta : S → Except E (Meta N)
  activeConfig : S → Except E (Option (ActiveConfigRecord N))
  commitBatch : S → WriteBatch N → Except E S

/-! ## The in-memory backend -/

/-- `MemStorage`: the log, the snapshot row, the durable meta, the application cursor and the
persisted membership view. -/
structure MemStorage (N : Type) where
  log : List (LogEntry N)
  state : List UInt8
  meta' : Meta N
  appliedIndex : Option Nat
  activeConfig : Option (ActiveConfigRecord N)
  deriving DecidableEq, Repr

/-- `MemStorage::new`. -/
def MemStorage.new {N : Type} : MemStorage N :=
  { log := [], state := [], meta' := Meta.default, appliedIndex := none, activeConfig := none }

variable {N : Type}

/-- `BTreeMap::insert` on an index-ordered log. -/
def insertEntry (e : LogEntry N) : List (LogEntry N) → List (LogEntry N)
  | [] => [e]
  | x :: xs =>
    if e.index < x.index then e :: x :: xs
    else if e.index = x.index then e :: xs
    else x :: insertEntry e xs

namespace MemStorage

def lastIndex (s : MemStorage N) : Nat :=
  (s.log.getLast?.map LogEntry.index).getD s.meta'.snapLastIndex

def lastTerm (s : MemStorage N) : Nat :=
  (s.log.getLast?.map LogEntry.term).getD s.meta'.snapLastTerm

/-- `term_at`: index `0` has term `0`, compacted indices have none, the snapshot boundary has the
snapshot term. -/
def termAt (s : MemStorage N) (index : Nat) : Option Nat :=
  if index = 0 then some 0
  else if index < s.meta'.snapLastIndex then none
  else if index = s.meta'.snapLastIndex ∧ 0 < s.meta'.snapLastIndex then some s.meta'.snapLastTerm
  else (s.log.find? (·.index = index)).map LogEntry.term

/-- `entries(start, end)`: the live entries in `[max start (snap + 1), end]`, in index order. -/
def entries (s : MemStorage N) (start stop : Nat) : List (LogEntry N) :=
  if start > stop then []
  else s.log.filter fun e => max start (s.meta'.snapLastIndex + 1) ≤ e.index ∧ e.index ≤ stop

/-- `commit_batch`, in the order the trait prescribes. The caller's `meta`, when present,
overrides the snapshot pointer that `compact_to` set. -/
def commitBatch (s : MemStorage N) (b : WriteBatch N) : MemStorage N :=
  let s := match b.truncateAfter with
    | some after => { s with log := s.log.filter (·.index ≤ after) }
    | none => s
  let s := match b.compactTo with
    | some (idx, term) =>
      { s with log := s.log.filter (idx < ·.index),
               meta' := { s.meta' with snapLastIndex := idx, snapLastTerm := term } }
    | none => s
  let s := { s with log := b.appends.foldl (fun log e => insertEntry e log) s.log }
  let s := match b.state with
    | some st =>
      { s with state := st,
               appliedIndex := match b.compactTo with
                 | some (idx, _) => some idx
                 | none => s.appliedIndex }
    | none => s
  let s := match b.meta' with
    | some m => { s with meta' := m }
    | none => s
  match b.activeConfig with
  | some cfg => { s with activeConfig := some cfg }
  | none => s

end MemStorage

instance : Storage N (MemStorage N) Empty where
  lastIndex := MemStorage.lastIndex
  lastTerm := MemStorage.lastTerm
  snapLastIndex s := s.meta'.snapLastIndex
  snapLastTerm s := s.meta'.snapLastTerm
  termAt s i := .ok (s.termAt i)
  entries s a b := .ok (s.entries a b)
  readState s := .ok s.state
  appliedIndex s := .ok s.appliedIndex
  loadMeta s := .ok s.meta'
  activeConfig s := .ok s.activeConfig
  commitBatch s b := .ok (s.commitBatch b)

/-! ## The durable scalars a batch leaves -/

/-- The meta a successful batch leaves on a store that held `m`: the caller's `meta` when the batch
carries one, else `m` with the snapshot pointer moved by `compact_to` (the contract of
`WriteBatch`). -/
def WriteBatch.metaAfter (b : WriteBatch N) (m : Meta N) : Meta N :=
  match b.meta' with
  | some m' => m'
  | none =>
    match b.compactTo with
    | some (idx, term) => { m with snapLastIndex := idx, snapLastTerm := term }
    | none => m

@[simp] theorem MemStorage.commitBatch_meta (st : MemStorage N) (b : WriteBatch N) :
    (st.commitBatch b).meta' = b.metaAfter st.meta' := by
  rcases b with ⟨ta, ct, ap, stt, m, ac⟩
  rcases ct with _ | ⟨i, t⟩ <;> rcases m with _ | m <;> rcases stt with _ | x <;>
    rcases ac with _ | c <;> rcases ta with _ | a <;> rfl

section memStorage

variable (st : MemStorage N)

@[simp] theorem memStorage_commitBatch (b : WriteBatch N) :
    Storage.commitBatch st b = (.ok (st.commitBatch b) : Except Empty _) := rfl

@[simp] theorem memStorage_termAt (i : Nat) :
    Storage.termAt st i = (.ok (st.termAt i) : Except Empty _) := rfl

@[simp] theorem memStorage_entries (a b : Nat) :
    Storage.entries st a b = (.ok (st.entries a b) : Except Empty _) := rfl

@[simp] theorem memStorage_appliedIndex :
    Storage.appliedIndex st = (.ok st.appliedIndex : Except Empty _) := rfl

@[simp] theorem memStorage_loadMeta : Storage.loadMeta st = (.ok st.meta' : Except Empty _) := rfl

@[simp] theorem memStorage_snapLastIndex : Storage.snapLastIndex st = st.meta'.snapLastIndex := rfl

end memStorage

end Vos.Raft
