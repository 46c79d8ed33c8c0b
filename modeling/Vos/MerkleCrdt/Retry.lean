import Vos.MerkleCrdt.Sync

/-!
# merkle-crdt — failed calls and their retries

`MerkleCrdt::apply` stages the state and lets `record` store the node before the roots change, so
a failed `put` returns with nothing changed. `sync_validated` stores the fetched batch before it
stages the clock: a failed call, whichever read, check or write failed, keeps the roots and the
state, and has at most stored a prefix of the batch, each node under its own CID with all of its
children stored.

A retry from the same remote then walks only to what the prefix did not store: the prefix is
closed under children, so the fetch walk reaches the same CIDs less the stored ones, and the
grounded part of what it reaches is the rest of the first batch. The retry ends in the store a
clean sync would have reached, and from there runs the same compaction, ancestry check and
materialization.

* `MerkleClock.recordFallible`, `MerkleCrdt.applyFallible`: `record` and `apply` over a backend
  whose `put` may fail;
* `MerkleCrdt.activate`, `syncValidated_eq`: the part of `sync_validated` after `put_batch`;
* `syncValidated_error`: what a failed sync leaves;
* `fetchable_insertAll`, `grounded_pending_iff`, `fetchMissing_after_stored`;
* **`failed_calls_atomic_and_retry_safe`**.
-/

set_option linter.dupNamespace false

namespace Vos.MerkleCrdt

open Relation

variable {C P σ : Type} [LinearOrder C] [NodeHasher C P] [Payload P σ]

/-- `MerkleClock::record` over a backend whose `put` fails when `putFails`: the store's error
comes back before the roots are touched, and nothing is stored. -/
def MerkleClock.recordFallible (clock : MerkleClock C) (payload : P) (store : Store C P)
    (putFails : Bool) : Except Error (C × MerkleClock C × Store C P) :=
  if putFails then .error .store else .ok (clock.record payload store)

namespace MerkleCrdt

/-- `MerkleCrdt::apply` over a backend whose `put` may fail: the staged state is kept only once
`record` succeeds. -/
def applyFallible (r : MerkleCrdt C P σ) (op : P) (putFails : Bool) :
    Except Error C × MerkleCrdt C P σ :=
  let stagedState := Payload.apply r.state op
  match r.clock.recordFallible op r.store putFails with
  | .error e => (.error e, r)
  | .ok (cid, clock, store) => (.ok cid, { clock, store, state := stagedState })

/-- The part of `sync_validated` after `put_batch`: compact the roots together with `root`, check
the ancestry and materialize, and only then activate the staged clock and state. -/
def activate (r : MerkleCrdt C P σ) (root : C) (validate : C → DagNode C P → Bool) :
    Except SyncError Unit × MerkleCrdt C P σ :=
  match (r.clock.addRoots {root}).compactRoots r.store with
  | .error e => (.error (mapLocalError e), r)
  | .ok stagedClock =>
    match ancestryIsValid stagedClock r.store validate with
    | .error e => (.error (mapLocalError e), r)
    | .ok false => (.error .invalidAuthor, r)
    | .ok true =>
      match materialize stagedClock r.store with
      | .error e => (.error (mapLocalError e), r)
      | .ok stagedState => (.ok (), { r with clock := stagedClock, state := stagedState })

theorem syncValidated_eq (r : MerkleCrdt C P σ) (root : C) (remote : Store C P)
    (validate : C → DagNode C P → Bool) (faults : ReadFaults C) (failAt : Option ℕ) :
    r.syncValidated root remote validate faults failAt =
      match fetchMissing root r.store remote faults with
      | .error e => (.error e, r)
      | .ok missing =>
        if missing.any (fun e => !validate e.1 e.2) then (.error .invalidAuthor, r)
        else match putBatch r.store missing failAt with
          | (.error _, store) => (.error .localError, { r with store })
          | (.ok (), store) => activate { r with store } root validate := by
  unfold syncValidated activate
  rcases fetchMissing root r.store remote faults with e | missing
  · rfl
  · dsimp only
    split
    · rfl
    · rcases putBatch r.store missing failAt with ⟨_ | ⟨⟩, store⟩ <;> rfl

theorem activate_error {r r' : MerkleCrdt C P σ} {root : C} {validate : C → DagNode C P → Bool}
    {e : SyncError} (h : r.activate root validate = (.error e, r')) : r' = r := by
  unfold activate at h
  split at h
  · exact (Prod.mk.inj h).2.symm
  · split at h
    · exact (Prod.mk.inj h).2.symm
    · exact (Prod.mk.inj h).2.symm
    · split at h
      · exact (Prod.mk.inj h).2.symm
      · cases h

/-! ## What a failed sync leaves -/

/-- **A failed `sync_validated` leaves the replica as it was, or the replica with a prefix of the
batch it fetched and accepted stored.** -/
theorem syncValidated_error {r r1 : MerkleCrdt C P σ} {root : C} {remote : Store C P}
    {validate : C → DagNode C P → Bool} {faults : ReadFaults C} {failAt : Option ℕ} {e : SyncError}
    (h : r.syncValidated root remote validate faults failAt = (.error e, r1)) :
    r1 = r ∨ ∃ batch k, fetchMissing root r.store remote faults = .ok batch ∧
      batch.any (fun e => !validate e.1 e.2) = false ∧
      r1 = { r with store := Dag.insertAll r.store (batch.take k) } := by
  rw [syncValidated_eq] at h
  rcases hf : fetchMissing root r.store remote faults with e' | batch
  · simp only [hf] at h
    exact Or.inl (Prod.mk.inj h).2.symm
  simp only [hf] at h
  by_cases hany : batch.any (fun e => !validate e.1 e.2) = true
  · simp only [hany, ↓reduceIte] at h
    exact Or.inl (Prod.mk.inj h).2.symm
  simp only [hany, Bool.false_eq_true, ↓reduceIte] at h
  obtain ⟨k, hk⟩ := putBatch_store r.store batch failAt
  rcases hput : putBatch r.store batch failAt with ⟨_ | ⟨⟩, store⟩
  · simp only [hput] at h hk
    refine Or.inr ⟨batch, k, rfl, Bool.eq_false_iff.mpr hany, ?_⟩
    rw [← (Prod.mk.inj h).2, hk]
  · have hall : store = Dag.insertAll r.store batch := by
      have := putBatch_ok (by rw [hput])
      rwa [hput] at this
    simp only [hput] at h
    refine Or.inr ⟨batch, batch.length, rfl, Bool.eq_false_iff.mpr hany, ?_⟩
    rw [activate_error h, List.take_length, hall]

/-! ## The fetch walk after a stored prefix -/

section stored

variable {S remote : Store C P} {root : C} {pre : List (C × DagNode C P)} {f0 f1 : ReadFaults C}

omit [NodeHasher C P] in
/-- **Storing a prefix of a fetched batch removes exactly its CIDs from what the fetch walk
reaches**: the prefix names only CIDs stored before it or in it, so a walk through it cannot
leave it. -/
theorem fetchable_insertAll (hl : Dag.FreshOrdered DagNode.children S pre)
    (hpre : ∀ e ∈ pre, remote.lookup e.1 = some e.2) {x : C} :
    Fetchable (Dag.insertAll S pre) remote root x ↔
      Fetchable S remote root x ∧ x ∉ pre.map Prod.fst := by
  have hmem : ∀ y, y ∉ Dag.insertAll S pre ↔ y ∉ S ∧ y ∉ pre.map Prod.fst := fun y => by
    rw [Dag.mem_insertAll, not_or]
  constructor
  · rintro ⟨hx, hpath⟩
    refine ⟨⟨((hmem x).mp hx).1, ?_⟩, ((hmem x).mp hx).2⟩
    exact ReflTransGen.mono (fun a b (hab : FetchEdge (Dag.insertAll S pre) remote a b) =>
      (⟨((hmem a).mp hab.1).1, hab.2⟩ : FetchEdge S remote a b)) _ _ hpath
  · rintro ⟨⟨hx, hpath⟩, hxp⟩
    refine ⟨(hmem x).mpr ⟨hx, hxp⟩, ?_⟩
    -- every CID on the walk lies outside the prefix: a child of a prefix node is stored
    suffices ∀ y, ReflTransGen (FetchEdge S remote) root y → y ∉ Dag.insertAll S pre →
        ReflTransGen (FetchEdge (Dag.insertAll S pre) remote) root y from
      this x hpath ((hmem x).mpr ⟨hx, hxp⟩)
    intro y hy
    induction hy with
    | refl => exact fun _ => .refl
    | @tail a b _ hab ih =>
      intro hb
      obtain ⟨haS, n, hn, hbn⟩ := hab
      have ha : a ∉ Dag.insertAll S pre := by
        refine (hmem a).mpr ⟨haS, fun hap => hb ?_⟩
        obtain ⟨e, he, rfl⟩ := List.mem_map.mp hap
        rw [hpre e he] at hn
        cases hn
        exact hl.succ_mem_insertAll he b hbn
      exact (ih ha).tail ⟨ha, n, hn, hbn⟩

omit [NodeHasher C P] in
theorem edge_pendingChildren_erase {M0 M1 : Store C P} {K : List C}
    (h1 : ∀ x, M1.lookup x = if x ∈ K then none else M0.lookup x) {a b : C} :
    Dag.Edge (pendingChildren M1) M1 a b ↔
      Dag.Edge (pendingChildren M0) M0 a b ∧ a ∉ K ∧ b ∉ K := by
  have hmem : ∀ y, y ∈ M1 ↔ y ∈ M0 ∧ y ∉ K := fun y => by
    rw [Finmap.mem_iff, Finmap.mem_iff, h1 y]
    by_cases hy : y ∈ K <;> simp [hy]
  have hedge : Dag.Edge DagNode.children M1 a b ↔ Dag.Edge DagNode.children M0 a b ∧ a ∉ K := by
    unfold Dag.Edge
    rw [h1 a]
    by_cases haK : a ∈ K <;> simp [haK]
  rw [edge_pendingChildren, edge_pendingChildren, hmem b, hedge]
  tauto

section erase

variable {M0 M1 : Store C P} {K : List C}
  (h1 : ∀ x, M1.lookup x = if x ∈ K then none else M0.lookup x)
include h1

omit [NodeHasher C P] in
theorem reflTransGen_erase_or {a y : C} (ha : a ∉ K)
    (hay : ReflTransGen (Dag.Edge (pendingChildren M0) M0) a y) :
    ReflTransGen (Dag.Edge (pendingChildren M1) M1) a y ∨
      ∃ p ∈ K, ReflTransGen (Dag.Edge (pendingChildren M0) M0) p y := by
  induction hay with
  | refl => exact Or.inl .refl
  | @tail c y _ hcy ih =>
    rcases ih with hac | ⟨p, hp, hpc⟩
    · by_cases hyK : y ∈ K
      · exact Or.inr ⟨y, hyK, .refl⟩
      · have hcK : c ∉ K := by
          rcases hac.cases_tail with rfl | ⟨d, -, hdc⟩
          · exact ha
          · exact ((edge_pendingChildren_erase h1).mp hdc).2.2
        exact Or.inl (hac.tail ((edge_pendingChildren_erase h1).mpr ⟨hcy, hcK, hyK⟩))
    · exact Or.inr ⟨p, hp, hpc.tail hcy⟩

omit [NodeHasher C P] in
theorem transGen_erase_or {a y : C} (ha : a ∉ K)
    (hay : TransGen (Dag.Edge (pendingChildren M0) M0) a y) :
    TransGen (Dag.Edge (pendingChildren M1) M1) a y ∨
      ∃ p ∈ K, ReflTransGen (Dag.Edge (pendingChildren M0) M0) p y := by
  obtain ⟨c, hac, hcy⟩ := TransGen.tail'_iff.mp hay
  rcases reflTransGen_erase_or h1 ha hac with hac | ⟨p, hp, hpc⟩
  · by_cases hyK : y ∈ K
    · exact Or.inr ⟨y, hyK, .refl⟩
    · have hcK : c ∉ K := by
        rcases hac.cases_tail with rfl | ⟨d, -, hdc⟩
        · exact ha
        · exact ((edge_pendingChildren_erase h1).mp hdc).2.2
      exact Or.inl (TransGen.tail' hac ((edge_pendingChildren_erase h1).mpr ⟨hcy, hcK, hyK⟩))
  · exact Or.inr ⟨p, hp, hpc.tail hcy⟩

omit [NodeHasher C P] in
/-- **Taking grounded keys out of a map keeps every other key's groundedness.** -/
theorem grounded_pending_iff (hK : ∀ p ∈ K, Dag.Grounded (pendingChildren M0) M0 p) {x : C}
    (hx : x ∉ K) :
    Dag.Grounded (pendingChildren M1) M1 x ↔ Dag.Grounded (pendingChildren M0) M0 x := by
  have hedge := fun {a b : C} => edge_pendingChildren_erase (a := a) (b := b) h1
  have hmem : ∀ y, y ∈ M1 ↔ y ∈ M0 ∧ y ∉ K := fun y => by
    rw [Finmap.mem_iff, Finmap.mem_iff, h1 y]
    by_cases hy : y ∈ K <;> simp [hy]
  -- an `M1` edge is an `M0` edge
  have hmono : ∀ a b, Dag.Edge (pendingChildren M1) M1 a b → Dag.Edge (pendingChildren M0) M0 a b :=
    fun a b hab => (hedge.mp hab).1
  constructor
  · intro hg y hy
    rcases reflTransGen_erase_or h1 hx hy with hxy | ⟨p, hp, hpy⟩
    · obtain ⟨hyM, hycyc⟩ := hg y hxy
      refine ⟨((hmem y).mp hyM).1, fun hyy => ?_⟩
      rcases transGen_erase_or h1 ((hmem y).mp hyM).2 hyy with hyy | ⟨p, hp, hpy⟩
      · exact hycyc hyy
      · exact (hK p hp y hpy).2 hyy
    · exact hK p hp y hpy
  · intro hg y hy
    have hyM : y ∈ M1 := by
      rcases hy.cases_tail with rfl | ⟨d, -, hdy⟩
      · exact (hmem y).mpr ⟨hg.mem, hx⟩
      · exact (hmem y).mpr ⟨(hg y (ReflTransGen.mono hmono _ _ hy)).1, (hedge.mp hdy).2.2⟩
    exact ⟨hyM, fun hyy => (hg y (ReflTransGen.mono hmono _ _ hy)).2 (TransGen.mono hmono _ _ hyy)⟩

end erase

/-- **After a prefix of its batch is stored, `fetch_missing` from the same remote returns the
rest of that batch, as a set of entries.** -/
theorem fetchMissing_after_stored {batch batch' : List (C × DagNode C P)} {k : ℕ}
    (h0 : fetchMissing root S remote f0 = .ok batch)
    (h1 : fetchMissing root (Dag.insertAll S (batch.take k)) remote f1 = .ok batch') {x : C} :
    x ∈ batch.map Prod.fst ↔ x ∈ (batch.take k).map Prod.fst ∨ x ∈ batch'.map Prod.fst := by
  obtain ⟨M0, hM0, -, hmem0⟩ := fetchMissing_spec h0
  obtain ⟨M1, hM1, -, hmem1⟩ := fetchMissing_spec h1
  obtain ⟨hfresh, -⟩ := fetchMissing_ok h0
  have hpre : ∀ e ∈ batch.take k, remote.lookup e.1 = some e.2 := by
    intro e he
    obtain ⟨M, hM, hlook, -⟩ := fetchMissing_spec h0
    exact (hM.lookup_eq_some (hlook e (List.mem_of_mem_take he))).2
  -- `M1` is `M0` less the prefix
  have hM : ∀ y, M1.lookup y = if y ∈ (batch.take k).map Prod.fst then none else M0.lookup y := by
    intro y
    by_cases hy : Fetchable S remote root y ∧ y ∉ (batch.take k).map Prod.fst
    · rw [(hM1 y).1 ((fetchable_insertAll (hfresh.take k) hpre).mpr hy), if_neg hy.2,
        (hM0 y).1 hy.1]
    · rw [(hM1 y).2 (mt (fetchable_insertAll (hfresh.take k) hpre).mp hy)]
      by_cases hyp : y ∈ (batch.take k).map Prod.fst
      · rw [if_pos hyp]
      · rw [if_neg hyp, (hM0 y).2 fun hf => hy ⟨hf, hyp⟩]
  have hK : ∀ p ∈ (batch.take k).map Prod.fst, Dag.Grounded (pendingChildren M0) M0 p :=
    fun p hp => (hmem0 p).mp (List.map_subset _ (List.take_subset k batch) hp)
  by_cases hxp : x ∈ (batch.take k).map Prod.fst
  · exact ⟨fun _ => Or.inl hxp, fun _ => List.map_subset _ (List.take_subset k batch) hxp⟩
  · rw [hmem0, hmem1, grounded_pending_iff hM hK hxp]
    exact ⟨Or.inr, fun h => h.resolve_left hxp⟩

theorem remote_lookup_of_fetchMissing {batch : List (C × DagNode C P)}
    (h : fetchMissing root S remote f0 = .ok batch) : ∀ e ∈ batch, remote.lookup e.1 = some e.2 := by
  obtain ⟨M, hM, hlook, -⟩ := fetchMissing_spec h
  exact fun e he => (hM.lookup_eq_some (hlook e he)).2

/-- **A retry after a stored part of the batch ends in the store of a clean sync.** -/
theorem insertAll_after_stored {batch batch' : List (C × DagNode C P)} {k : ℕ}
    (h0 : fetchMissing root S remote f0 = .ok batch)
    (h1 : fetchMissing root (Dag.insertAll S (batch.take k)) remote f1 = .ok batch') :
    Dag.insertAll (Dag.insertAll S (batch.take k)) batch' = Dag.insertAll S batch := by
  have hr0 := remote_lookup_of_fetchMissing h0
  have hr1 := remote_lookup_of_fetchMissing h1
  refine Finmap.ext_lookup fun x => ?_
  rw [Dag.lookup_insertAll (f := fun c => remote.lookup c) hr1,
    Dag.lookup_insertAll (f := fun c => remote.lookup c)
      (fun e he => hr0 e (List.mem_of_mem_take he)),
    Dag.lookup_insertAll (f := fun c => remote.lookup c) hr0]
  have hiff := fetchMissing_after_stored (x := x) h0 h1
  by_cases hx' : x ∈ batch'.map Prod.fst
  · rw [if_pos hx', if_pos (hiff.mpr (Or.inr hx'))]
  · rw [if_neg hx']
    by_cases hxk : x ∈ (batch.take k).map Prod.fst
    · rw [if_pos hxk, if_pos (hiff.mpr (Or.inl hxk))]
    · rw [if_neg hxk, if_neg fun hx => (hiff.mp hx).elim hxk hx']

end stored

/-! ## Retrying -/

section retry

variable {r r2 : MerkleCrdt C P σ} {root : C} {remote : Store C P}
  {validate : C → DagNode C P → Bool}

/-- A sync that succeeds over failing stores succeeds, the same way, over stores that do not fail:
its fetch read everything and its `put_batch` stored everything. -/
theorem syncValidated_none_of_ok {faults : ReadFaults C} {failAt : Option ℕ}
    (h : r.syncValidated root remote validate faults failAt = (.ok (), r2)) :
    r.syncValidated root remote validate .never none = (.ok (), r2) := by
  rw [syncValidated_eq] at h ⊢
  rcases hf : fetchMissing root r.store remote faults with e | batch
  · simp only [hf] at h
    cases h
  simp only [hf] at h
  simp only [fetchMissing_never_of_ok hf]
  by_cases hany : batch.any (fun e => !validate e.1 e.2) = true
  · simp only [hany, ↓reduceIte] at h
    cases h
  simp only [hany, Bool.false_eq_true, ↓reduceIte] at h ⊢
  rcases hput : putBatch r.store batch failAt with ⟨_ | ⟨⟩, store⟩
  · simp only [hput] at h
    cases h
  · have hall : store = Dag.insertAll r.store batch := by
      have := putBatch_ok (by rw [hput])
      rwa [hput] at this
    simp only [hput, hall] at h
    exact h

/-- **Retrying after a sync that stored part of its batch gives what a clean sync from before the
failure gives.** -/
theorem syncValidated_retry {batch : List (C × DagNode C P)} {k : ℕ}
    (h0 : fetchMissing root r.store remote .never = .ok batch)
    (hvalid : batch.any (fun e => !validate e.1 e.2) = false) {faults : ReadFaults C}
    {failAt : Option ℕ}
    (h : ({ r with store := Dag.insertAll r.store (batch.take k) } : MerkleCrdt C P σ).syncValidated
      root remote validate faults failAt = (.ok (), r2)) :
    r.syncValidated root remote validate .never none = (.ok (), r2) := by
  have h' := syncValidated_none_of_ok h
  rw [syncValidated_eq] at h' ⊢
  rcases h1 : fetchMissing root (Dag.insertAll r.store (batch.take k)) remote .never with
    e | batch'
  · simp only [h1] at h'
    cases h'
  simp only [h1] at h'
  by_cases hany : batch'.any (fun e => !validate e.1 e.2) = true
  · simp only [hany, ↓reduceIte] at h'
    cases h'
  simp only [hany, Bool.false_eq_true, ↓reduceIte, putBatch] at h'
  simp only [h0, hvalid, Bool.false_eq_true, ↓reduceIte, putBatch]
  rw [← insertAll_after_stored h0 h1]
  exact h'

end retry

/-- **Failed calls are atomic and retry-safe.** A failed `apply` leaves the replica as it was. A
failed `sync_validated`, whichever step failed, keeps the roots and the state and every stored node,
and has only stored nodes under their own CIDs whose children are all stored; and if a retry of the
same root from the same remote with the same validator then succeeds, a sync from before the
failure, over stores whose reads and writes succeed, succeeds and ends in the same replica. -/
theorem failed_calls_atomic_and_retry_safe (r : MerkleCrdt C P σ) :
    (∀ (op : P) (putFails : Bool) (e : Error) (r1 : MerkleCrdt C P σ),
      r.applyFallible op putFails = (.error e, r1) → r1 = r) ∧
    ∀ (root : C) (remote : Store C P) (validate : C → DagNode C P → Bool) (faults : ReadFaults C)
      (failAt : Option ℕ) (e : SyncError) (r1 : MerkleCrdt C P σ),
      r.syncValidated root remote validate faults failAt = (.error e, r1) →
      r1.clock = r.clock ∧ r1.state = r.state ∧
      (∀ x n, r.store.lookup x = some n → r1.store.lookup x = some n) ∧
      (∀ x n, r1.store.lookup x = some n → x ∉ r.store →
        n.cid = x ∧ ∀ c ∈ n.children, c ∈ r1.store) ∧
      ∀ (faults' : ReadFaults C) (failAt' : Option ℕ) (r2 : MerkleCrdt C P σ),
        r1.syncValidated root remote validate faults' failAt' = (.ok (), r2) →
        r.syncValidated root remote validate .never none = (.ok (), r2) := by
  refine ⟨fun op putFails e r1 h => ?_, fun root remote validate faults failAt e r1 h => ?_⟩
  · cases putFails with
    | false => cases h
    | true => exact (Prod.mk.inj h).2.symm
  rcases syncValidated_error h with rfl | ⟨batch, k, h0, hvalid, rfl⟩
  · refine ⟨rfl, rfl, fun x n hx => hx, fun x n hx hxr => absurd (Finmap.mem_of_lookup_eq_some hx) hxr,
      fun faults' failAt' r2 h2 => syncValidated_none_of_ok h2⟩
  obtain ⟨hfresh, hcid⟩ := fetchMissing_ok h0
  have hr0 := remote_lookup_of_fetchMissing h0
  refine ⟨rfl, rfl, fun x n hx => ?_, fun x n hx hxr => ?_,
    fun faults' failAt' r2 h2 => syncValidated_retry (fetchMissing_never_of_ok h0) hvalid h2⟩
  · rw [← hx]
    exact Dag.lookup_insertAll_of_mem (hfresh.take k) (Finmap.mem_of_lookup_eq_some hx)
  · -- a node the failed call stored is one of the batch's, stored with its children
    have hlook := Dag.lookup_insertAll (f := fun c => remote.lookup c)
      (fun e (he : e ∈ batch.take k) => hr0 e (List.mem_of_mem_take he)) r.store x
    dsimp only at hx
    rw [hx] at hlook
    have hxk : x ∈ (batch.take k).map Prod.fst := by
      by_contra hxk
      rw [if_neg hxk] at hlook
      exact hxr (Finmap.mem_of_lookup_eq_some hlook.symm)
    rw [if_pos hxk] at hlook
    obtain ⟨e, he, rfl⟩ := List.mem_map.mp hxk
    have hen : e.2 = n := Option.some.inj ((hr0 e (List.mem_of_mem_take he)).symm.trans hlook.symm)
    subst hen
    exact ⟨hcid e (List.mem_of_mem_take he), (hfresh.take k).succ_mem_insertAll he⟩

end MerkleCrdt

end Vos.MerkleCrdt
