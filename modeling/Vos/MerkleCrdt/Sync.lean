import Vos.MerkleCrdt.Replica

/-!
# merkle-crdt — the contract of `fetch_missing`

`sync::fetch_missing` walks the remote DAG from a root, pruned at the CIDs the local store holds.
Over stores whose reads never fail, as `MemStore`'s, it succeeds exactly when every CID of that
walk is held by the remote store under its own CID, and fails otherwise with `MissingNode` or
`InvalidCid`; a failed read only cuts the same walk short with the store's error. When the remote
DAG below the root has no cycle, every fetched node is grounded, so the final `topologicalSort`
drops none of them: the batch lists each fetchable node once, children first.

* `fetchLoop_isOk`, `fetchLoop_error`: the walk fails only at a fetchable CID the remote store
  lacks or holds under another CID;
* `fetchLoop_faults`, `fetchMissing_faults`, `fetchMissing_never_of_ok`: failed reads;
* `fetchMissing_eq`: `fetch_missing` is the walk followed by the sort;
* `fetchMissing_isOk_iff`, `fetchMissing_error`, `fetchMissing_batch`;
* **`fetchMissing_exact`**.
-/

namespace Vos.MerkleCrdt

variable {C P : Type} [LinearOrder C] [NodeHasher C P]

section Fetch

variable {localStore remote : Store C P} {root : C} {faults : ReadFaults C}

/-- Every CID the fetch walk reaches is held by the remote store under its own CID. -/
def FetchValid (localStore remote : Store C P) (root : C) : Prop :=
  ∀ x, Fetchable localStore remote root x → ∃ n, remote.lookup x = some n ∧ n.cid = x

/-! ## When the walk fails -/

omit [NodeHasher C P] in
theorem FetchTrace.fetchable_head {visited : Finset C} {missing : Store C P} {cid : C}
    {queue : List C} (h : FetchTrace localStore remote root visited missing (cid :: queue))
    (hl : cid ∉ localStore) : Fetchable localStore remote root cid :=
  ⟨hl, h.queue_path cid List.mem_cons_self⟩

theorem fetchLoop_isOk {visited : Finset C} {missing : Store C P} {queue : List C}
    (h : FetchTrace localStore remote root visited missing queue)
    (hvalid : FetchValid localStore remote root) :
    ∃ out, fetchLoop localStore remote .never visited missing queue = .ok out := by
  fun_induction fetchLoop localStore remote .never visited missing queue with
  | case1 _ missing => exact ⟨missing, rfl⟩
  | case2 _ _ _ _ hv ih => exact ih (h.skip hv)
  | case3 _ _ _ _ _ hf | case5 _ _ _ _ _ _ _ hf => exact absurd hf (Finset.notMem_empty _)
  | case4 _ _ _ _ _ _ hl ih => exact ih h.local
  | case6 _ _ cid _ _ _ hl _ hr =>
    -- the popped CID is fetchable, so the remote store holds it
    obtain ⟨n, hn, -⟩ := hvalid cid (h.fetchable_head hl)
    rw [hr] at hn
    cases hn
  | case7 _ _ cid _ _ _ hl _ node hr hcid =>
    obtain ⟨n, hn, hncid⟩ := hvalid cid (h.fetchable_head hl)
    rw [hr] at hn
    cases hn
    exact absurd hncid hcid
  | case8 _ _ _ _ _ _ hl _ _ hr _ ih => exact ih (h.fetch hl hr)

theorem fetchLoop_error {visited : Finset C} {missing : Store C P} {queue : List C} {e : SyncError}
    (h : fetchLoop localStore remote .never visited missing queue = .error e) :
    e = .missingNode ∨ e = .invalidCid := by
  fun_induction fetchLoop localStore remote .never visited missing queue with
  | case1 => cases h
  | case2 _ _ _ _ _ ih => exact ih h
  | case3 _ _ _ _ _ hf | case5 _ _ _ _ _ _ _ hf => exact absurd hf (Finset.notMem_empty _)
  | case4 _ _ _ _ _ _ _ ih => exact ih h
  | case6 =>
    cases h
    exact Or.inl rfl
  | case7 =>
    cases h
    exact Or.inr rfl
  | case8 _ _ _ _ _ _ _ _ _ _ _ ih => exact ih h

/-! ## Failed reads -/

/-- **Failed reads only cut the walk short**: with them, `fetchLoop` returns what it returns over
reads that never fail, or the local or the remote store's error. -/
theorem fetchLoop_faults {visited : Finset C} {missing : Store C P} {queue : List C} :
    fetchLoop localStore remote faults visited missing queue =
        fetchLoop localStore remote .never visited missing queue ∨
      fetchLoop localStore remote faults visited missing queue = .error .localError ∨
      fetchLoop localStore remote faults visited missing queue = .error .remoteError := by
  -- the two walks take the same branch at every CID that neither store fails on
  have hnever : ∀ c, c ∉ (ReadFaults.never : ReadFaults C).localFails ∧
      c ∉ (ReadFaults.never : ReadFaults C).remoteFails := fun c =>
    ⟨Finset.notMem_empty c, Finset.notMem_empty c⟩
  fun_induction fetchLoop localStore remote faults visited missing queue with
  | case1 => exact .inl (by rw [fetchLoop])
  | case2 _ _ _ _ hv ih => rwa [fetchLoop, dif_pos hv]
  | case3 => exact .inr (.inl rfl)
  | case4 _ _ cid _ hv _ hl ih => rwa [fetchLoop, dif_neg hv, if_neg (hnever cid).1, dif_pos hl]
  | case5 => exact .inr (.inr rfl)
  | case6 _ _ cid _ hv _ hl | case7 _ _ cid _ hv _ hl =>
    refine .inl ?_
    rw [fetchLoop, dif_neg hv, if_neg (hnever cid).1, dif_neg hl, if_neg (hnever cid).2]
    split <;> simp_all
  | case8 _ _ cid _ hv _ hl _ node hr hcid ih =>
    rw [fetchLoop, dif_neg hv, if_neg (hnever cid).1, dif_neg hl, if_neg (hnever cid).2]
    split
    · simp_all
    · rename_i node' hr'
      obtain rfl : node' = node := Option.some.inj (hr'.symm.trans hr)
      rwa [if_neg hcid]

/-! ## What `fetch_missing` returns -/

/-- `fetch_missing` is the walk followed by the sort; its early return on an empty map is the sort
of the empty map. -/
theorem fetchMissing_eq (root : C) (localStore remote : Store C P) (faults : ReadFaults C) :
    fetchMissing root localStore remote faults =
      (fetchLoop localStore remote faults ∅ ∅ [root]).map topologicalSort := by
  unfold fetchMissing
  rcases fetchLoop localStore remote faults ∅ ∅ [root] with e | missing
  · rfl
  · by_cases hempty : missing.keys = ∅
    · -- an emitted entry is an entry of the map, and the map has none
      have hnil : topologicalSort missing = [] := List.eq_nil_iff_forall_not_mem.mpr fun e he => by
        have hmem := Finmap.mem_keys.mpr (Finmap.mem_of_lookup_eq_some
          (lookup_of_mem_topologicalSort he))
        rw [hempty] at hmem
        exact Finset.notMem_empty _ hmem
      simp only [bind, Except.bind, hempty, ↓reduceIte, pure, Except.pure, Except.map, hnil]
    · simp only [bind, Except.bind, hempty, ↓reduceIte, pure, Except.pure, Except.map]

/-- With failed reads, `fetch_missing` returns what it returns over reads that never fail, or the
local or the remote store's error. -/
theorem fetchMissing_faults (root : C) (localStore remote : Store C P) (faults : ReadFaults C) :
    fetchMissing root localStore remote faults = fetchMissing root localStore remote .never ∨
      fetchMissing root localStore remote faults = .error .localError ∨
      fetchMissing root localStore remote faults = .error .remoteError := by
  rw [fetchMissing_eq, fetchMissing_eq]
  rcases (fetchLoop_faults : fetchLoop localStore remote faults ∅ ∅ [root] = _ ∨ _ ∨ _)
    with h | h | h <;> rw [h]
  · exact .inl rfl
  · exact .inr (.inl rfl)
  · exact .inr (.inr rfl)

/-- A fetch that succeeds despite failed reads succeeds, the same way, over reads that never
fail. -/
theorem fetchMissing_never_of_ok {batch : List (C × DagNode C P)}
    (h : fetchMissing root localStore remote faults = .ok batch) :
    fetchMissing root localStore remote .never = .ok batch := by
  rcases fetchMissing_faults root localStore remote faults with h' | h' | h' <;> rw [h'] at h
  · exact h
  · cases h
  · cases h

/-- **Over reads that never fail, `fetch_missing` succeeds exactly when every CID of its walk is
held by the remote store under its own CID.** -/
theorem fetchMissing_isOk_iff :
    (∃ batch, fetchMissing root localStore remote .never = .ok batch) ↔
      FetchValid localStore remote root := by
  rw [fetchMissing_eq]
  constructor
  · rintro ⟨batch, hb⟩ x hx
    rcases hf : fetchLoop localStore remote .never ∅ ∅ [root] with e | missing
    · rw [hf] at hb
      cases hb
    -- the last state of the walk holds every fetchable CID, as the remote store does
    obtain ⟨visited, hi, h⟩ := fetchLoop_final (fetchInv_start localStore root)
      (fetchTrace_start localStore remote root) hf
    obtain ⟨n, hn⟩ := Finmap.mem_iff.mp (h.complete hi hx)
    exact ⟨n, h.missing_remote x n hn, (hi.lookup_missing x n hn).1⟩
  · intro hvalid
    obtain ⟨out, hout⟩ := fetchLoop_isOk (fetchTrace_start localStore remote root) hvalid
    exact ⟨topologicalSort out, by rw [hout]; rfl⟩

theorem fetchMissing_error {e : SyncError}
    (h : fetchMissing root localStore remote .never = .error e) :
    e = .missingNode ∨ e = .invalidCid := by
  rw [fetchMissing_eq] at h
  rcases hf : fetchLoop localStore remote .never ∅ ∅ [root] with e' | missing
  · rw [hf] at h
    cases h
    exact fetchLoop_error hf
  · rw [hf] at h
    cases h

omit [NodeHasher C P] in
theorem not_transGen_of_restricts {missing : Store C P}
    (hacyc : ∀ x, Relation.ReflTransGen remote.Edge root x → ¬ Relation.TransGen remote.Edge x x)
    (hres : Dag.Restricts remote missing (Fetchable localStore remote root)) :
    ∀ y ∈ missing, ¬ Relation.TransGen missing.Edge y y := by
  intro y hy hyy
  obtain ⟨n, hn⟩ := Finmap.mem_iff.mp hy
  -- a fetched CID is reached from `root`, and a path in the fetched map is a path of the remote one
  have hpath : Relation.ReflTransGen remote.Edge root y :=
    Relation.ReflTransGen.mono (fun a b (hab : FetchEdge localStore remote a b) => hab.2) root y
      (hres.lookup_eq_some hn).1.2
  exact hacyc y hpath (Relation.TransGen.mono (fun _ _ hab => (hres.edge_iff.mp hab).2) y y hyy)

/-- **On success, the batch lists each fetchable node once, as the remote store holds it, and each
after its children in the batch.** -/
theorem fetchMissing_batch {batch : List (C × DagNode C P)}
    (hacyc : ∀ x, Relation.ReflTransGen remote.Edge root x → ¬ Relation.TransGen remote.Edge x x)
    (h : fetchMissing root localStore remote faults = .ok batch) :
    (batch.map Prod.fst).Nodup ∧
      (∀ x, x ∈ batch.map Prod.fst ↔ Fetchable localStore remote root x) ∧
      (∀ e ∈ batch, remote.lookup e.1 = some e.2) ∧
      ∀ i (hi : i < batch.length), ∀ b ∈ batch[i].2.children, b ∈ batch.map Prod.fst →
        b ∈ (batch.take i).map Prod.fst := by
  rw [fetchMissing_eq] at h
  rcases hf : fetchLoop localStore remote faults ∅ ∅ [root] with e | missing
  · rw [hf] at h
    cases h
  rw [hf] at h
  cases h
  obtain ⟨visited, hi, htr⟩ := fetchLoop_final (fetchInv_start localStore root)
    (fetchTrace_start localStore remote root) hf
  have hres := fetchLoop_restricts (fetchInv_start localStore root)
    (fetchTrace_start localStore remote root) hf
  have hcyc := not_transGen_of_restricts hacyc hres
  -- the batch's CIDs are the keys of the fetched map, which are the fetchable CIDs
  have hkeys : ∀ x, x ∈ (topologicalSort missing).map Prod.fst ↔ x ∈ missing := fun x =>
    mem_topologicalSort_iff.trans ⟨Dag.Grounded.mem, grounded_of_not_transGen hcyc⟩
  refine ⟨nodup_topologicalSort missing, fun x => ?_, fun e he => ?_, fun i hi b hb hbm => ?_⟩
  · rw [hkeys]
    refine ⟨fun hx => ?_, htr.complete hi⟩
    obtain ⟨n, hn⟩ := Finmap.mem_iff.mp hx
    exact (hres.lookup_eq_some hn).1
  · exact (hres.lookup_eq_some (lookup_of_mem_topologicalSort he)).2
  · exact topoOrdered_topologicalSort missing i hi b hb ((hkeys b).mp hbm)

end Fetch

/-- **`fetch_missing` returns exactly the missing ancestry, children first.** For a root below
which the remote DAG has no cycle, and stores whose reads never fail, `fetch_missing` succeeds iff
every CID reached from the root through CIDs the local store lacks is held by the remote store
under its own CID; it fails otherwise with `MissingNode` or `InvalidCid`; on success its batch
lists each such node once and nothing else, each after its children in the batch. On any map
without cycles, `topologicalSort` emits every entry once, each after its children in the map. -/
theorem fetchMissing_exact (root : C) (localStore remote : Store C P)
    (hacyc : ∀ x, Relation.ReflTransGen remote.Edge root x → ¬ Relation.TransGen remote.Edge x x) :
    ((∃ batch, fetchMissing root localStore remote .never = .ok batch) ↔
        ∀ x, Fetchable localStore remote root x → ∃ n, remote.lookup x = some n ∧ n.cid = x) ∧
      (∀ e, fetchMissing root localStore remote .never = .error e →
        e = .missingNode ∨ e = .invalidCid) ∧
      (∀ batch, fetchMissing root localStore remote .never = .ok batch →
        (batch.map Prod.fst).Nodup ∧
        (∀ x, x ∈ batch.map Prod.fst ↔ Fetchable localStore remote root x) ∧
        (∀ e ∈ batch, remote.lookup e.1 = some e.2) ∧
        ∀ i (hi : i < batch.length), ∀ b ∈ batch[i].2.children, b ∈ batch.map Prod.fst →
          b ∈ (batch.take i).map Prod.fst) ∧
      ∀ nodes : Store C P, (∀ x, ¬ Relation.TransGen nodes.Edge x x) →
        (∀ e, e ∈ topologicalSort nodes ↔ nodes.lookup e.1 = some e.2) ∧
        ((topologicalSort nodes).map Prod.fst).Nodup ∧
        Dag.TopoOrdered DagNode.children nodes (topologicalSort nodes) :=
  ⟨fetchMissing_isOk_iff, fun _ => fetchMissing_error, fun _ => fetchMissing_batch hacyc,
    fun nodes hcyc => ⟨fun _ => mem_topologicalSort_iff_lookup fun y _ => hcyc y,
      nodup_topologicalSort nodes, topoOrdered_topologicalSort nodes⟩⟩

/-- A local store that already holds `leafNode` fetches only `topNode` from the two-node store:
the walk stops at the CID it has. -/
theorem fetchMissing_exact_two_nodes :
    (∀ x, Relation.ReflTransGen twoNodeStore.Edge topNode.cid x →
      ¬ Relation.TransGen twoNodeStore.Edge x x) ∧
    ∃ batch, fetchMissing topNode.cid (Finmap.singleton leafNode.cid leafNode) twoNodeStore
        .never = .ok batch ∧ ∀ x, x ∈ batch.map Prod.fst ↔ x = topNode.cid := by
  obtain ⟨-, -, hacyc⟩ := twoNodeStore_wf
  have hacyc' : ∀ x, Relation.ReflTransGen twoNodeStore.Edge topNode.cid x →
      ¬ Relation.TransGen twoNodeStore.Edge x x := fun x _ => hacyc.not_transGen_self x
  have hfetch := fetchMissing_exact topNode.cid (Finmap.singleton leafNode.cid leafNode)
    twoNodeStore hacyc'
  -- the fetch walk is part of the remote reach, and `leafNode` is held locally
  have hfetchable : ∀ x, Fetchable (Finmap.singleton leafNode.cid leafNode) twoNodeStore
      topNode.cid x ↔ x = topNode.cid := by
    intro x
    constructor
    · rintro ⟨hx, hreach⟩
      have hmono := Relation.ReflTransGen.mono (fun a b (hab : FetchEdge _ _ a b) => hab.2) _ _ hreach
      rcases twoNodeStore_reach_top.mp hmono with rfl | rfl
      · rfl
      · exact absurd ((Finmap.mem_singleton _ _ _).mpr rfl) hx
    · rintro rfl
      exact ⟨fun h => topNode_cid_ne ((Finmap.mem_singleton _ _ _).mp h), .refl⟩
  have hok : ∃ batch, fetchMissing topNode.cid (Finmap.singleton leafNode.cid leafNode)
      twoNodeStore .never = .ok batch := hfetch.1.mpr fun x hx => by
    rw [(hfetchable x).mp hx]
    exact ⟨topNode, twoNodeStore_lookup.mpr (.inl ⟨rfl, rfl⟩), rfl⟩
  obtain ⟨batch, hbatch⟩ := hok
  exact ⟨hacyc', batch, hbatch, fun x => ((hfetch.2.2.1 batch hbatch).2.1 x).trans (hfetchable x)⟩

end Vos.MerkleCrdt
