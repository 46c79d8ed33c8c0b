import Vos.MerkleCrdt.Walk
import Mathlib.Logic.Equiv.Finset

/-!
# merkle-crdt — the replica

`MerkleCrdt` (`crdt.rs`): a Merkle-Clock, its store and the materialized state.

* `MerkleCrdt.apply`, `MerkleCrdt.syncValidated`, `MerkleCrdt.sync`, `MerkleCrdt.rebuildState`;
* `syncValidated_outcome`: whatever `sync_validated` returns, it has stored a prefix of a fresh,
  causally ordered batch, and it either left the clock and state as they were or activated a
  compaction of the roots and the remote root together with its materialized state;
* `MerkleCrdt.Inv`: the store is closed, valid and acyclic, the roots are an antichain, and the
  state is what `materialize` computes; `Inv.apply`, `Inv.sync`, **`Inv.run`**;
* `Reach`: the CIDs reachable from the roots; a successful sync reaches the remote root, and no
  call loses a reachable CID (`reach_step`);
* **`replica_invariant`**: every replica reached from `new` satisfies the invariant.

Every result that compares nodes by their CIDs assumes that `DagNode.cid` is injective: the
hasher is collision-free on node encodings and `Payload::encode` is injective.
-/

set_option linter.dupNamespace false

namespace Vos.MerkleCrdt

/-- `MerkleCrdt<H, P, S>`. -/
structure MerkleCrdt (C P σ : Type) where
  clock : MerkleClock C
  store : Store C P
  state : σ

variable {C P σ : Type} [LinearOrder C] [NodeHasher C P] [Payload P σ]

namespace MerkleCrdt

/-- `MerkleCrdt::new` over an empty store. -/
def new : MerkleCrdt C P σ := { clock := MerkleClock.new, store := ∅, state := Payload.default P }

/-- `MerkleCrdt::apply`: apply the operation to a copy of the state, record it, and keep the
copy. Returns the new node's CID. -/
def apply (r : MerkleCrdt C P σ) (op : P) : C × MerkleCrdt C P σ :=
  let stagedState := Payload.apply r.state op
  let (cid, clock, store) := r.clock.record op r.store
  (cid, { clock, store, state := stagedState })

/-- `MerkleCrdt::sync_validated`: fetch the missing nodes (the reads of `faults` fail), reject the
batch if the validator rejects a node, store it (a failed `put` at `failAt` is `localError`), then
compact the roots together with the remote root, check the ancestry and materialize; the clock and
the state change only when every step succeeds. -/
def syncValidated (r : MerkleCrdt C P σ) (remoteRoot : C) (remote : Store C P)
    (validate : C → DagNode C P → Bool) (faults : ReadFaults C) (failAt : Option ℕ) :
    Except SyncError Unit × MerkleCrdt C P σ :=
  match fetchMissing remoteRoot r.store remote faults with
  | .error e => (.error e, r)
  | .ok missing =>
    if missing.any (fun e => !validate e.1 e.2) then (.error .invalidAuthor, r)
    else
      let (res, store) := putBatch r.store missing failAt
      let r := { r with store }
      match res with
      | .error _ => (.error .localError, r)
      | .ok () =>
        match (r.clock.addRoots {remoteRoot}).compactRoots store with
        | .error e => (.error (mapLocalError e), r)
        | .ok stagedClock =>
          match ancestryIsValid stagedClock store validate with
          | .error e => (.error (mapLocalError e), r)
          | .ok false => (.error .invalidAuthor, r)
          | .ok true =>
            match materialize stagedClock store with
            | .error e => (.error (mapLocalError e), r)
            | .ok stagedState => (.ok (), { r with clock := stagedClock, state := stagedState })

/-- `MerkleCrdt::sync`: `sync_validated` with `AcceptAll`, between `MemStore`s, whose reads and
`put_batch` never fail. -/
def sync (r : MerkleCrdt C P σ) (remoteRoot : C) (remote : Store C P) :
    Except SyncError Unit × MerkleCrdt C P σ :=
  r.syncValidated remoteRoot remote (fun _ _ => true) .never none

/-- `MerkleCrdt::rebuild_state`. -/
def rebuildState (r : MerkleCrdt C P σ) : Except Error Unit × MerkleCrdt C P σ :=
  match materialize r.clock r.store with
  | .error e => (.error e, r)
  | .ok state => (.ok (), { r with state })

/-- A call on a replica: `apply`, or `sync_validated` from a remote store (`sync` is the case of
the validator accepting everything), with the reads of the fetch that fail and the position at
which the local `put_batch` fails, if it does. -/
inductive Event (C P : Type)
  | apply (op : P)
  | sync (remoteRoot : C) (remote : Store C P) (validate : C → DagNode C P → Bool)
      (faults : ReadFaults C) (failAt : Option ℕ)

/-- The replica after a call, whether the call returned `Ok` or `Err`. -/
def step (r : MerkleCrdt C P σ) : Event C P → MerkleCrdt C P σ
  | .apply op => (r.apply op).2
  | .sync remoteRoot remote validate faults failAt =>
    (r.syncValidated remoteRoot remote validate faults failAt).2

/-- The replica after a sequence of calls. -/
def run (r : MerkleCrdt C P σ) (evs : List (Event C P)) : MerkleCrdt C P σ :=
  evs.foldl step r

/-- The CIDs reachable from the roots. -/
abbrev Reach (r : MerkleCrdt C P σ) : C → Prop := r.store.Reach r.clock.roots

/-! ## What a sync does -/

/-- The result of `sync_validated` on `r` from the root `root`: a batch `l` of fresh, valid nodes
in causal order, of which a prefix is stored; then either an error with the clock and the state
unchanged, or success with a compaction of the roots and `root`, and its materialized state. -/
inductive SyncOutcome (r : MerkleCrdt C P σ) (root : C) :
    Except SyncError Unit × MerkleCrdt C P σ → Prop
  | unchanged (l : List (C × DagNode C P)) (hl : Dag.FreshOrdered DagNode.children r.store l)
      (hv : ∀ e ∈ l, e.2.cid = e.1) (e : SyncError) :
      SyncOutcome r root (.error e, { r with store := Dag.insertAll r.store l })
  | synced (l : List (C × DagNode C P)) (hl : Dag.FreshOrdered DagNode.children r.store l)
      (hv : ∀ e ∈ l, e.2.cid = e.1) (clock : MerkleClock C) (state : σ)
      (hc : Compacts (Dag.insertAll r.store l) (r.clock.roots ∪ {root}) clock.roots)
      (hm : materialize clock (Dag.insertAll r.store l) = .ok state) :
      SyncOutcome r root (.ok (), { clock, store := Dag.insertAll r.store l, state })

theorem SyncOutcome.of_eq (r : MerkleCrdt C P σ) (root : C) (e : SyncError) :
    SyncOutcome r root (.error e, r) :=
  SyncOutcome.unchanged [] trivial (fun _ h => absurd h List.not_mem_nil) e

/-- **`sync_validated` stores a prefix of a fresh causal batch and changes the clock and the state
only on success, to a compaction of the roots and the remote root and its materialization.** -/
theorem syncValidated_outcome (r : MerkleCrdt C P σ) (root : C) (remote : Store C P)
    (validate : C → DagNode C P → Bool) (faults : ReadFaults C) (failAt : Option ℕ) :
    SyncOutcome r root (r.syncValidated root remote validate faults failAt) := by
  unfold syncValidated
  rcases hf : fetchMissing root r.store remote faults with e | batch
  · exact SyncOutcome.of_eq r root e
  obtain ⟨hfresh, hvalid⟩ := fetchMissing_ok hf
  by_cases hany : batch.any (fun e => !validate e.1 e.2)
  · simp only [hany, ↓reduceIte]
    exact SyncOutcome.of_eq r root _
  simp only [hany, Bool.false_eq_true, ↓reduceIte]
  obtain ⟨k, hk⟩ := putBatch_store r.store batch failAt
  have hprefix : ∀ e, SyncOutcome r root
      (.error e, { r with store := Dag.insertAll r.store (batch.take k) }) :=
    SyncOutcome.unchanged _ (hfresh.take k) fun e he => hvalid e (List.mem_of_mem_take he)
  rcases hput : putBatch r.store batch failAt with ⟨_ | ⟨⟩, store⟩
  · rw [hput] at hk
    simp only at hk
    subst hk
    exact hprefix _
  have hall : store = Dag.insertAll r.store batch := by
    have := putBatch_ok (by rw [hput])
    rwa [hput] at this
  subst hall
  have hbatch : ∀ e, SyncOutcome r root (.error e, { r with store := Dag.insertAll r.store batch }) :=
    SyncOutcome.unchanged _ hfresh hvalid
  simp only
  rcases hc : (r.clock.addRoots {root}).compactRoots (Dag.insertAll r.store batch) with e | staged
  · exact hbatch _
  dsimp only
  rcases ancestryIsValid staged (Dag.insertAll r.store batch) validate with e | _ | _
  · exact hbatch _
  · exact hbatch _
  dsimp only
  rcases hm : materialize staged (Dag.insertAll r.store batch) with e | state
  · exact hbatch _
  exact SyncOutcome.synced batch hfresh hvalid staged state (compactRoots_ok hc) hm

/-! ## The invariant -/

/-- The replica invariant: the store is closed under children, holds every node under its own CID
and has no cycle; the roots are an antichain; and the state is the materialization of the
roots. -/
structure Inv (r : MerkleCrdt C P σ) : Prop where
  closed : Dag.Closed DagNode.children r.store
  valid : r.store.Valid
  acyclic : Dag.Acyclic DagNode.children r.store
  antichain : Dag.Antichain DagNode.children r.store r.clock.roots
  materialize_eq : materialize r.clock r.store = .ok r.state

variable {r : MerkleCrdt C P σ}

theorem Inv.roots_mem (h : Inv r) : ∀ x ∈ r.clock.roots, x ∈ r.store := by
  obtain ⟨_, _, hmem, _⟩ := materialize_ok h.materialize_eq
  exact fun x hx => hmem x (Dag.Reach.root hx)

theorem Inv.reach_mem (h : Inv r) {x : C} (hx : r.Reach x) : x ∈ r.store :=
  h.closed.mem_of_reach h.roots_mem hx

omit [Payload P σ] in
theorem lookup_eq_of_valid (hinj : Function.Injective (DagNode.cid : DagNode C P → C))
    {store store' : Store C P} (hvalid : store.Valid) (hvalid' : store'.Valid) {x : C}
    (hx : x ∈ store) (hx' : x ∈ store') : store.lookup x = store'.lookup x := by
  obtain ⟨n, hn⟩ := Finmap.mem_iff.mp hx
  obtain ⟨n', hn'⟩ := Finmap.mem_iff.mp hx'
  rw [hn, hn', hinj ((hvalid x n hn).trans (hvalid' x n' hn').symm)]

omit [NodeHasher C P] [Payload P σ] in
theorem topologicalSort_empty : topologicalSort (∅ : Store C P) = [] :=
  List.eq_nil_iff_forall_not_mem.mpr fun e he => by
    simpa using lookup_of_mem_topologicalSort he

theorem inv_new : Inv (new : MerkleCrdt C P σ) where
  closed a _ hab := absurd hab.mem Finmap.notMem_empty
  valid x n h := by simp [new] at h
  acyclic := ⟨fun _ => 0, fun a _ hab => absurd hab.mem Finmap.notMem_empty⟩
  antichain := Dag.antichain_of_card_le_one (by simp [new, MerkleClock.new])
  materialize_eq := by
    simp [materialize, new, MerkleClock.new, collectLoop, topologicalSort_empty, foldPayloads]

/-! ### Storing fresh nodes -/

omit [Payload P σ] in
theorem valid_insertAll {store : Store C P} (hvalid : store.Valid) {l : List (C × DagNode C P)}
    (hl : ∀ e ∈ l, e.2.cid = e.1) : Store.Valid (Dag.insertAll store l) := by
  induction l generalizing store with
  | nil => exact hvalid
  | cons e l ih =>
    refine ih (fun x n hx => ?_) fun e' he' => hl e' (List.mem_cons_of_mem e he')
    by_cases hxe : x = e.1
    · subst hxe
      simp only [Finmap.lookup_insert, Option.some.injEq] at hx
      exact hx ▸ hl e List.mem_cons_self
    · rw [Finmap.lookup_insert_of_ne _ hxe] at hx
      exact hvalid x n hx

theorem Inv.reach_insertAll (h : Inv r) {l : List (C × DagNode C P)}
    (hl : Dag.FreshOrdered DagNode.children r.store l) {x : C} :
    Store.Reach (Dag.insertAll r.store l) r.clock.roots x ↔ r.Reach x := by
  constructor
  · rintro ⟨c, hc, hcx⟩
    exact ⟨c, hc, (Dag.reflTransGen_insertAll h.closed hl (h.roots_mem c hc)).mp hcx⟩
  · rintro ⟨c, hc, hcx⟩
    exact ⟨c, hc, (Dag.reflTransGen_insertAll h.closed hl (h.roots_mem c hc)).mpr hcx⟩

/-- Storing fresh valid nodes in causal order, as a sync does before it fails, keeps the
invariant. -/
theorem Inv.insertAll (h : Inv r) {l : List (C × DagNode C P)}
    (hl : Dag.FreshOrdered DagNode.children r.store l) (hv : ∀ e ∈ l, e.2.cid = e.1) :
    Inv { r with store := Dag.insertAll r.store l } where
  closed := Dag.closed_insertAll h.closed hl
  valid := valid_insertAll h.valid hv
  acyclic := Dag.acyclic_insertAll h.closed h.acyclic hl
  antichain a ha b hb hne hab :=
    h.antichain a ha b hb hne ((Dag.reflTransGen_insertAll h.closed hl (h.roots_mem a ha)).mp hab)
  materialize_eq := by
    refine materialize_eq_of_reach h.materialize_eq (Dag.closed_insertAll h.closed hl)
      (valid_insertAll h.valid hv) (fun x hx => Dag.mem_insertAll_of_mem (h.roots_mem x hx))
      (fun x => h.reach_insertAll hl) fun x hx => ?_
    exact Dag.lookup_insertAll_of_mem hl (h.reach_mem hx)

/-! ### Applying an operation -/

/-- The node that `apply` records. -/
abbrev recorded (r : MerkleCrdt C P σ) (op : P) : DagNode C P :=
  { payload := op, children := r.clock.roots }

theorem apply_snd (r : MerkleCrdt C P σ) (op : P) :
    (r.apply op).2 =
      { clock := { roots := {(r.recorded op).cid} }
        store := r.store.insert (r.recorded op).cid (r.recorded op)
        state := Payload.apply r.state op } := rfl

theorem Inv.not_reach_recorded (hinj : Function.Injective (DagNode.cid : DagNode C P → C))
    (h : Inv r) (op : P) : ¬ r.Reach (r.recorded op).cid := by
  rintro ⟨c, hc, hck⟩
  obtain ⟨n, hn⟩ := Finmap.mem_iff.mp (h.reach_mem ⟨c, hc, hck⟩)
  have hnN : n = r.recorded op := hinj (h.valid _ n hn)
  have hedge : r.store.Edge (r.recorded op).cid c := ⟨n, hn, hnN ▸ hc⟩
  exact h.acyclic.not_transGen_self _ (.head' hedge hck)

theorem Inv.reach_apply (hinj : Function.Injective (DagNode.cid : DagNode C P → C)) (h : Inv r)
    (op : P) {x : C} : (r.apply op).2.Reach x ↔ x = (r.recorded op).cid ∨ r.Reach x := by
  have hk : ∀ c ∈ (r.recorded op).children,
      ¬ Relation.ReflTransGen r.store.Edge c (r.recorded op).cid :=
    fun c hc hck => h.not_reach_recorded hinj op ⟨c, hc, hck⟩
  rw [apply_snd]
  exact Dag.reach_insert_singleton hk

/-- Recording the node keeps the store closed and acyclic: either the node is new, or it is
already stored under its CID. -/
theorem Inv.closed_acyclic_insert (hinj : Function.Injective (DagNode.cid : DagNode C P → C))
    (h : Inv r) (op : P) :
    Dag.Closed DagNode.children (r.store.insert (r.recorded op).cid (r.recorded op)) ∧
      Dag.Acyclic DagNode.children (r.store.insert (r.recorded op).cid (r.recorded op)) := by
  by_cases hk : (r.recorded op).cid ∈ r.store
  · obtain ⟨n, hn⟩ := Finmap.mem_iff.mp hk
    have hnN : n = r.recorded op := hinj (h.valid _ n hn)
    rw [Finmap.insert_eq_of_lookup (hnN ▸ hn)]
    exact ⟨h.closed, h.acyclic⟩
  · exact ⟨Dag.closed_insert h.closed h.roots_mem,
      Dag.acyclic_insert h.closed h.acyclic hk h.roots_mem⟩

/-- **`apply` keeps the invariant: the new node is the last one `topologicalSort` emits, so
applying its payload to the old state is the new materialization.** -/
theorem Inv.apply (hinj : Function.Injective (DagNode.cid : DagNode C P → C)) (h : Inv r)
    (op : P) : Inv (r.apply op).2 := by
  set N := r.recorded op with hN
  obtain ⟨hclosed, hacyc⟩ := h.closed_acyclic_insert hinj op
  have hvalid : Store.Valid (r.store.insert N.cid N) := by
    intro x n hx
    by_cases hxk : x = N.cid
    · subst hxk
      simp only [Finmap.lookup_insert, Option.some.injEq] at hx
      exact hx ▸ rfl
    · rw [Finmap.lookup_insert_of_ne _ hxk] at hx
      exact h.valid x n hx
  have hnot := h.not_reach_recorded hinj op
  obtain ⟨M, hM, -, hstate⟩ := materialize_ok h.materialize_eq
  have hroots : ∀ c ∈ N.children, c ∈ M := by
    intro c hc
    obtain ⟨n, hn⟩ := Finmap.mem_iff.mp (h.roots_mem c hc)
    exact Finmap.mem_of_lookup_eq_some (((hM c).1 (Dag.Reach.root hc)).trans hn)
  have hnopar : ∀ c ∈ N.children, ∀ y n, M.lookup y = some n → c ∉ n.children := by
    intro c hc y n hy hcn
    obtain ⟨hyr, hyn⟩ := hM.lookup_eq_some hy
    exact ((Dag.Antichain.mem_iff h.acyclic h.antichain).mp hc).2 y hyr ⟨n, hyn, hcn⟩
  have hcover : ∀ x ∈ M, ∃ c ∈ N.children,
      Relation.ReflTransGen (Dag.Edge DagNode.children M) c x := by
    intro x hx
    obtain ⟨n, hn⟩ := Finmap.mem_iff.mp hx
    obtain ⟨c, hc, hcx⟩ := (hM.lookup_eq_some hn).1
    exact ⟨c, hc, hM.reflTransGen (fun _ _ ha hab => ha.tail hab) (Dag.Reach.root hc) hcx⟩
  have hsort : topologicalSort (M.insert N.cid N) = topologicalSort M ++ [(N.cid, N)] :=
    topologicalSort_insert_top (hM.closed h.closed) (hM.acyclic h.acyclic)
      (Finmap.lookup_eq_none.mp ((hM _).2 hnot)) hroots hnopar hcover
  have hk : ∀ x ∈ ({ roots := {N.cid} } : MerkleClock C).roots, x ∈ r.store.insert N.cid N :=
    fun x hx => Finmap.mem_insert.mpr (Or.inl (Finset.mem_singleton.mp hx))
  obtain ⟨M', hM', heq⟩ := materialize_isOk (σ := σ) hclosed hvalid hk
  have hM'eq : M' = M.insert N.cid N :=
    hM'.eq (hM.insert N.cid N) (fun x => h.reach_apply hinj op) fun _ _ => rfl
  rw [apply_snd]
  refine ⟨hclosed, hvalid, hacyc, Dag.antichain_of_card_le_one (Finset.card_singleton _).le, ?_⟩
  rw [heq, hM'eq, hsort, foldPayloads_append_singleton, ← hstate]

/-! ### Syncing -/

/-- A successful sync keeps the invariant: the new roots are a compaction, and the state their
materialization. -/
theorem Inv.synced (h : Inv r) {l : List (C × DagNode C P)}
    (hl : Dag.FreshOrdered DagNode.children r.store l) (hv : ∀ e ∈ l, e.2.cid = e.1)
    {root : C} {clock : MerkleClock C} {state : σ}
    (hc : Compacts (Dag.insertAll r.store l) (r.clock.roots ∪ {root}) clock.roots)
    (hm : materialize clock (Dag.insertAll r.store l) = .ok state) :
    Inv { clock, store := Dag.insertAll r.store l, state } :=
  have h' := h.insertAll hl hv
  ⟨h'.closed, h'.valid, h'.acyclic, hc.antichain, hm⟩

/-- **`sync_validated` keeps the invariant, whatever it returns.** -/
theorem Inv.syncValidated (h : Inv r) (root : C) (remote : Store C P)
    (validate : C → DagNode C P → Bool) (faults : ReadFaults C) (failAt : Option ℕ) :
    Inv (r.syncValidated root remote validate faults failAt).2 := by
  have hout := syncValidated_outcome r root remote validate faults failAt
  generalize r.syncValidated root remote validate faults failAt = out at hout ⊢
  cases hout with
  | unchanged l hl hv e => exact h.insertAll hl hv
  | synced l hl hv clock state hc hm => exact h.synced hl hv hc hm

/-- **After a successful sync the remote root is reachable.** -/
theorem Inv.reach_root_of_syncValidated (h : Inv r) {root : C} {remote : Store C P}
    {validate : C → DagNode C P → Bool} {faults : ReadFaults C} {failAt : Option ℕ}
    (hok : (r.syncValidated root remote validate faults failAt).1 = .ok ()) :
    (r.syncValidated root remote validate faults failAt).2.Reach root := by
  have hout := syncValidated_outcome r root remote validate faults failAt
  generalize r.syncValidated root remote validate faults failAt = out at hout hok ⊢
  cases hout with
  | unchanged l hl hv e => cases hok
  | synced l hl hv clock state hc hm =>
    exact (hc.reach_iff (h.insertAll hl hv).acyclic).mpr
      (Dag.Reach.root (Finset.mem_union_right _ (Finset.mem_singleton_self root)))

theorem Inv.reach_syncValidated (h : Inv r) (root : C) (remote : Store C P)
    (validate : C → DagNode C P → Bool) (faults : ReadFaults C) (failAt : Option ℕ) {x : C}
    (hx : r.Reach x) :
    (r.syncValidated root remote validate faults failAt).2.Reach x := by
  have hout := syncValidated_outcome r root remote validate faults failAt
  generalize r.syncValidated root remote validate faults failAt = out at hout ⊢
  cases hout with
  | unchanged l hl hv e => exact (h.reach_insertAll hl).mpr hx
  | synced l hl hv clock state hc hm =>
    obtain ⟨c, hc', hcx⟩ := (h.reach_insertAll hl).mpr hx
    exact (hc.reach_iff (h.insertAll hl hv).acyclic).mpr ⟨c, Finset.mem_union_left _ hc', hcx⟩

/-! ### Runs -/

theorem Inv.step (hinj : Function.Injective (DagNode.cid : DagNode C P → C)) (h : Inv r) :
    ∀ e, Inv (r.step e)
  | .apply op => h.apply hinj op
  | .sync root remote validate faults failAt => h.syncValidated root remote validate faults failAt

/-- **Every call keeps the invariant.** -/
theorem Inv.run (hinj : Function.Injective (DagNode.cid : DagNode C P → C)) (h : Inv r)
    (evs : List (Event C P)) : Inv (r.run evs) := by
  induction evs generalizing r with
  | nil => exact h
  | cons e evs ih => exact ih (h.step hinj e)

theorem Inv.reach_step (hinj : Function.Injective (DagNode.cid : DagNode C P → C)) (h : Inv r)
    (e : Event C P) {x : C} (hx : r.Reach x) : (r.step e).Reach x := by
  cases e with
  | apply op => exact (h.reach_apply hinj op).mpr (Or.inr hx)
  | sync root remote validate faults failAt =>
    exact h.reach_syncValidated root remote validate faults failAt hx

/-- **Every replica reached from `new` by `apply`, `sync` and `sync_validated` calls, whether they
returned `Ok` or `Err`, has an antichain of roots, a store closed under children with every node
under its own CID, and as its state the materialization of its roots: the fold of the payloads of
the reachable nodes in `topologicalSort` order.** -/
theorem replica_invariant (hinj : Function.Injective (DagNode.cid : DagNode C P → C))
    (evs : List (Event C P)) :
    let r : MerkleCrdt C P σ := new.run evs
    Dag.Antichain DagNode.children r.store r.clock.roots ∧ Dag.Closed DagNode.children r.store ∧
      r.store.Valid ∧ materialize r.clock r.store = .ok r.state ∧
      ∃ nodes, Dag.Restricts r.store nodes r.Reach ∧ r.state = foldPayloads (topologicalSort nodes) := by
  intro r
  have h : Inv r := inv_new.run hinj evs
  obtain ⟨nodes, hnodes, -, hstate⟩ := materialize_ok h.materialize_eq
  exact ⟨h.antichain, h.closed, h.valid, h.materialize_eq, nodes, hnodes, hstate⟩

/-- CIDs as the `Encodable` code of a node's payload and children: an injective `DagNode.cid`. -/
instance encodeHasher : NodeHasher ℕ ℕ where
  hash n := Encodable.encode (n.payload, n.children)

/-- A counter: each payload is added to the state. -/
instance counterPayload : Payload ℕ ℕ where
  apply := (· + ·)
  default := 0

theorem encodeHasher_injective : Function.Injective (DagNode.cid : DagNode ℕ ℕ → ℕ) := by
  intro a b h
  have hpair : (a.payload, a.children) = (b.payload, b.children) := Encodable.encode_injective h
  cases a
  cases b
  simp only [Prod.mk.injEq] at hpair
  rw [hpair.1, hpair.2]

theorem replica_invariant_counter :
    Function.Injective (DagNode.cid : DagNode ℕ ℕ → ℕ) ∧
      let r : MerkleCrdt ℕ ℕ ℕ := new.run [.apply 1, .sync 0 ∅ (fun _ _ => true) .never none, .apply 2]
      Dag.Antichain DagNode.children r.store r.clock.roots ∧ Dag.Closed DagNode.children r.store ∧
        r.store.Valid ∧ materialize r.clock r.store = .ok r.state ∧
        ∃ nodes, Dag.Restricts r.store nodes r.Reach ∧
          r.state = foldPayloads (topologicalSort nodes) :=
  ⟨encodeHasher_injective, replica_invariant encodeHasher_injective _⟩

end MerkleCrdt

/-! ## A store of two nodes

`topNode` has `leafNode` as its only child; the store holds both under their CIDs, by the
injective `encodeHasher`. -/

section TwoNodes

open MerkleCrdt

/-- A leaf node. -/
def leafNode : DagNode ℕ ℕ := ⟨1, ∅⟩

/-- A node whose only child is `leafNode`. -/
def topNode : DagNode ℕ ℕ := ⟨2, {leafNode.cid}⟩

/-- `leafNode` and `topNode`, each under its CID. -/
def twoNodeStore : Store ℕ ℕ := Dag.insertAll ∅ [(leafNode.cid, leafNode), (topNode.cid, topNode)]

theorem topNode_cid_ne : topNode.cid ≠ leafNode.cid :=
  fun h => absurd (congrArg DagNode.payload (encodeHasher_injective h)) (by decide)

theorem twoNodeStore_lookup {x : ℕ} {n : DagNode ℕ ℕ} :
    twoNodeStore.lookup x = some n ↔ (x = topNode.cid ∧ n = topNode) ∨
      (x = leafNode.cid ∧ n = leafNode) := by
  by_cases hx : x = topNode.cid
  · subst hx
    simp [twoNodeStore, Finmap.lookup_insert, eq_comm, topNode_cid_ne.symm]
  · simp only [twoNodeStore, Dag.insertAll_cons, Dag.insertAll_nil,
      Finmap.lookup_insert_of_ne _ hx, hx, false_and, false_or]
    by_cases hl : x = leafNode.cid
    · subst hl
      simp [Finmap.lookup_insert, eq_comm]
    · simp [Finmap.lookup_insert_of_ne _ hl, hl, Finmap.lookup_empty]

theorem twoNodeStore_mem : leafNode.cid ∈ twoNodeStore ∧ topNode.cid ∈ twoNodeStore :=
  ⟨Finmap.mem_of_lookup_eq_some (twoNodeStore_lookup.mpr (Or.inr ⟨rfl, rfl⟩)),
    Finmap.mem_of_lookup_eq_some (twoNodeStore_lookup.mpr (Or.inl ⟨rfl, rfl⟩))⟩

theorem twoNodeStore_wf : twoNodeStore.Valid ∧ Dag.Closed DagNode.children twoNodeStore ∧
    Dag.Acyclic DagNode.children twoNodeStore := by
  have hfresh : Dag.FreshOrdered DagNode.children ∅
      [(leafNode.cid, leafNode), (topNode.cid, topNode)] := by
    refine ⟨Finmap.notMem_empty, fun b hb => absurd hb (by simp [leafNode]), ?_, ?_, trivial⟩
    · intro h
      rcases Finmap.mem_insert.mp h with h | h
      · exact topNode_cid_ne h
      · exact Finmap.notMem_empty h
    · intro b hb
      rw [show b = leafNode.cid by simpa [topNode] using hb]
      exact Finmap.mem_insert.mpr (Or.inl rfl)
  have hclosed0 : Dag.Closed DagNode.children (∅ : Store ℕ ℕ) :=
    fun a _ ⟨n, hn, _⟩ => by simp [Finmap.lookup_empty] at hn
  refine ⟨valid_insertAll (fun x n h => by simp [Finmap.lookup_empty] at h) (by simp),
    Dag.closed_insertAll hclosed0 hfresh, Dag.acyclic_insertAll hclosed0 ⟨fun _ => 0, ?_⟩ hfresh⟩
  intro a _ ⟨n, hn, _⟩
  simp [Finmap.lookup_empty] at hn

theorem twoNodeStore_reach_top {x : ℕ} :
    Relation.ReflTransGen twoNodeStore.Edge topNode.cid x ↔ x = topNode.cid ∨ x = leafNode.cid := by
  constructor
  · intro h
    induction h with
    | refl => exact .inl rfl
    | tail _ hbc _ =>
      obtain ⟨n, hn, hc⟩ := hbc
      rcases twoNodeStore_lookup.mp hn with ⟨-, rfl⟩ | ⟨-, rfl⟩
      · exact .inr (by simpa [topNode] using hc)
      · simp [leafNode] at hc
  · rintro (rfl | rfl)
    · exact .refl
    · exact .single ⟨topNode, twoNodeStore_lookup.mpr (.inl ⟨rfl, rfl⟩), by simp [topNode]⟩

theorem twoNodeStore_not_edge_top (c : ℕ) : ¬ twoNodeStore.Edge c topNode.cid := by
  rintro ⟨n, hn, hb⟩
  rcases twoNodeStore_lookup.mp hn with ⟨-, rfl⟩ | ⟨-, rfl⟩
  · exact topNode_cid_ne (by simpa [topNode] using hb)
  · simp [leafNode] at hb

end TwoNodes

end Vos.MerkleCrdt
