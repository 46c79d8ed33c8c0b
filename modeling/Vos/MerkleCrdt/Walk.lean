import Vos.MerkleCrdt.TopologicalSort

/-!
# merkle-crdt — the walks over the DAG

The four loops that walk a replica's DAG from a set of CIDs:

* `ReadFaults`, `fetchLoop`, `fetchMissing` (`sync::fetch_missing`): breadth first from a remote
  root, fetching every node the local store lacks, checking each against its CID, and sorting
  them; a failed read of either store returns that store's error;
* `collectLoop`, `materialize`: depth first from the roots, collecting the reachable nodes, then
  applying their payloads in `topologicalSort` order;
* `ancestryLoop`, `ancestryIsValid`: depth first from the roots, running the node validator;
* `compactChildren`, `compactLoop`, `MerkleClock.compactRoots`: depth first from the roots,
  dropping every root that another root reaches, and stopping early once a single root is left.

A stack is a list whose head is the top of the source's `Vec`; pushing a node's children in
ascending order leaves the greatest on top. Each loop ends: either a visited CID is popped, or a
CID of the store joins the visited set.
-/

namespace Vos.MerkleCrdt

variable {C P : Type} [LinearOrder C] [NodeHasher C P]

theorem card_sdiff_insert_lt {U visited : Finset C} {a : C} (ha : a ∈ U) (hv : a ∉ visited) :
    (U \ insert a visited).card < (U \ visited).card := by
  refine Finset.card_lt_card ⟨Finset.sdiff_subset_sdiff le_rfl (Finset.subset_insert _ _), ?_⟩
  intro h
  have := h (Finset.mem_sdiff.mpr ⟨ha, hv⟩)
  exact (Finset.mem_sdiff.mp this).2 (Finset.mem_insert_self _ _)

/-- The reads of one `fetch_missing` call that return a store's own error: `local.contains` on
the CIDs of `localFails`, `remote.get` on those of `remoteFails`. The walk reads each CID at most
once, so two sets of CIDs describe every way the reads of one call can fail. -/
structure ReadFaults (C : Type) where
  localFails : Finset C
  remoteFails : Finset C

/-- The reads of `MemStore`, which never fail. -/
def ReadFaults.never : ReadFaults C := ⟨∅, ∅⟩

/-- The breadth-first loop of `fetch_missing`: pop the front; skip a visited CID or one the local
store holds; fetch the node from the remote store, check it against its CID, queue its children,
and keep it. A failed read returns the store's error (`SyncError::Local`, `SyncError::Remote`). -/
def fetchLoop (localStore remote : Store C P) (faults : ReadFaults C) (visited : Finset C)
    (missing : Store C P) : List C → Except SyncError (Store C P)
  | [] => .ok missing
  | cid :: queue =>
    if _hv : cid ∈ visited then fetchLoop localStore remote faults visited missing queue
    else if cid ∈ faults.localFails then .error .localError
    else if _hl : cid ∈ localStore then
      fetchLoop localStore remote faults (insert cid visited) missing queue
    else if cid ∈ faults.remoteFails then .error .remoteError
    else match _hr : remote.lookup cid with
      | none => .error .missingNode
      | some node =>
        if node.cid ≠ cid then .error .invalidCid
        else fetchLoop localStore remote faults (insert cid visited) (missing.insert cid node)
          (queue ++ node.children.sort (· ≤ ·))
termination_by queue => (((localStore.keys ∪ remote.keys) \ visited).card, queue.length)
decreasing_by
  · exact Prod.Lex.right _ (by simp)
  · exact Prod.Lex.left _ _ (card_sdiff_insert_lt
      (Finset.mem_union_left _ (Finmap.mem_keys.mpr _hl)) _hv)
  · exact Prod.Lex.left _ _ (card_sdiff_insert_lt
      (Finset.mem_union_right _ (Finmap.mem_keys.mpr (Finmap.mem_of_lookup_eq_some _hr))) _hv)

/-- `sync::fetch_missing`: the nodes reachable from `root` through nodes the local store lacks,
children first. -/
def fetchMissing (root : C) (localStore remote : Store C P) (faults : ReadFaults C) :
    Except SyncError (List (C × DagNode C P)) := do
  let missing ← fetchLoop localStore remote faults ∅ ∅ [root]
  if missing.keys = ∅ then pure [] else pure (topologicalSort missing)

/-! ## Fetching the missing nodes -/

section Fetch

variable {localStore remote : Store C P} {faults : ReadFaults C}

/-- The invariant of `fetchLoop`: every fetched node is valid and missing locally, every visited
CID is held locally or fetched, and every child of a fetched node is visited or queued. -/
structure FetchInv (localStore : Store C P) (visited : Finset C) (missing : Store C P)
    (queue : List C) : Prop where
  lookup_missing : ∀ x n, missing.lookup x = some n → n.cid = x ∧ x ∉ localStore
  visited_mem : ∀ x ∈ visited, x ∈ localStore ∨ x ∈ missing
  children_mem : ∀ x n, missing.lookup x = some n → ∀ c ∈ n.children, c ∈ visited ∨ c ∈ queue

theorem fetchInv_start (localStore : Store C P) (root : C) : FetchInv localStore ∅ ∅ [root] where
  lookup_missing x n h := by simp at h
  visited_mem x hx := absurd hx (Finset.notMem_empty x)
  children_mem x n h := by simp at h

theorem FetchInv.skip {visited : Finset C} {missing : Store C P} {cid : C} {queue : List C}
    (h : FetchInv localStore visited missing (cid :: queue)) (hv : cid ∈ visited) :
    FetchInv localStore visited missing queue :=
  ⟨h.lookup_missing, h.visited_mem,
    fun x n hx c hc => Dag.or_mem_of_or_mem_cons hv (h.children_mem x n hx c hc)⟩

theorem FetchInv.local {visited : Finset C} {missing : Store C P} {cid : C} {queue : List C}
    (h : FetchInv localStore visited missing (cid :: queue)) (hl : cid ∈ localStore) :
    FetchInv localStore (insert cid visited) missing queue := by
  refine ⟨h.lookup_missing, fun x hx => ?_, fun x n hx c hc => ?_⟩
  · rcases Finset.mem_insert.mp hx with rfl | hx
    · exact Or.inl hl
    · exact h.visited_mem x hx
  · exact Dag.or_mem_of_or_mem_cons (Finset.mem_insert_self cid visited)
      ((h.children_mem x n hx c hc).imp_left (Finset.mem_insert_of_mem))

theorem FetchInv.fetch {visited : Finset C} {missing : Store C P} {cid : C} {queue : List C}
    {node : DagNode C P} (h : FetchInv localStore visited missing (cid :: queue))
    (hl : cid ∉ localStore) (hcid : node.cid = cid) :
    FetchInv localStore (insert cid visited) (missing.insert cid node)
      (queue ++ node.children.sort (· ≤ ·)) := by
  refine ⟨fun x n hx => ?_, fun x hx => ?_, fun x n hx c hc => ?_⟩
  · by_cases hxc : x = cid
    · subst hxc
      simp only [Finmap.lookup_insert, Option.some.injEq] at hx
      exact hx ▸ ⟨hcid, hl⟩
    · rw [Finmap.lookup_insert_of_ne _ hxc] at hx
      exact h.lookup_missing x n hx
  · rcases Finset.mem_insert.mp hx with rfl | hx
    · exact Or.inr (Finmap.mem_insert.mpr (Or.inl rfl))
    · exact (h.visited_mem x hx).imp_right fun hm => Finmap.mem_insert.mpr (Or.inr hm)
  · by_cases hxc : x = cid
    · subst hxc
      simp only [Finmap.lookup_insert, Option.some.injEq] at hx
      subst hx
      by_cases hcv : c ∈ insert x visited
      · exact Or.inl hcv
      · exact Or.inr (List.mem_append_right _ ((Finset.mem_sort _).mpr hc))
    · rw [Finmap.lookup_insert_of_ne _ hxc] at hx
      have hseen := Dag.or_mem_of_or_mem_cons (Finset.mem_insert_self cid visited)
        ((h.children_mem x n hx c hc).imp_left (Finset.mem_insert_of_mem))
      exact hseen.imp_right (List.mem_append_left _)

/-- What `fetchLoop` returns holds valid nodes missing locally, each child of which is held
locally or fetched. -/
theorem fetchLoop_ok {visited : Finset C} {missing out : Store C P} {queue : List C}
    (h : FetchInv localStore visited missing queue)
    (hout : fetchLoop localStore remote faults visited missing queue = .ok out) :
    ∀ x n, out.lookup x = some n →
      n.cid = x ∧ x ∉ localStore ∧ ∀ c ∈ n.children, c ∈ localStore ∨ c ∈ out := by
  fun_induction fetchLoop localStore remote faults visited missing queue with
  | case1 =>
    cases hout
    intro x n hx
    refine ⟨(h.lookup_missing x n hx).1, (h.lookup_missing x n hx).2, fun c hc => ?_⟩
    exact h.visited_mem c ((h.children_mem x n hx c hc).resolve_right List.not_mem_nil)
  | case2 _ _ _ _ hv ih => exact ih (h.skip hv) hout
  | case4 _ _ _ _ _ _ hl ih => exact ih (h.local hl) hout
  | case3 | case5 | case6 | case7 => cases hout
  | case8 _ _ _ _ _ _ hl _ _ _ hcid ih => exact ih (h.fetch hl (not_not.mp hcid)) hout

/-- **`fetch_missing` returns valid nodes under fresh CIDs, ordered so that each names only
CIDs held locally or fetched before it: the batch can be stored in order.** -/
theorem fetchMissing_ok {root : C} {batch : List (C × DagNode C P)}
    (h : fetchMissing root localStore remote faults = .ok batch) :
    Dag.FreshOrdered DagNode.children localStore batch ∧ ∀ e ∈ batch, e.2.cid = e.1 := by
  unfold fetchMissing at h
  rcases hf : fetchLoop localStore remote faults ∅ ∅ [root] with _ | missing
  · rw [hf] at h
    cases h
  · rw [hf] at h
    have hspec := fetchLoop_ok (fetchInv_start localStore root) hf
    by_cases hempty : missing.keys = ∅
    · simp only [bind, Except.bind, hempty, ↓reduceIte, pure, Except.pure, Except.ok.injEq] at h
      subst h
      exact ⟨trivial, fun e he => absurd he List.not_mem_nil⟩
    · simp only [bind, Except.bind, hempty, ↓reduceIte, pure, Except.pure, Except.ok.injEq] at h
      subst h
      have hentry : ∀ e ∈ topologicalSort missing,
          e.2.cid = e.1 ∧ e.1 ∉ localStore ∧ ∀ c ∈ e.2.children, c ∈ localStore ∨ c ∈ missing :=
        fun e he => hspec e.1 e.2 (lookup_of_mem_topologicalSort he)
      refine ⟨Dag.freshOrdered_of_succ_mem (nodup_topologicalSort missing)
        (fun e he => (hentry e he).2.1) fun i hi b hb => ?_, fun e he => (hentry e he).1⟩
      exact ((hentry _ (List.getElem_mem hi)).2.2 b hb).imp_right
        (topoOrdered_topologicalSort missing i hi b hb)

/-! ### Which CIDs are fetched -/

/-- A step of the fetch walk: from a CID the local store lacks to a child of its remote node. -/
def FetchEdge (localStore remote : Store C P) (a b : C) : Prop := a ∉ localStore ∧ remote.Edge a b

/-- The CIDs `fetch_missing` walks to from `root`: missing locally, and reached from `root` through
remote nodes that are missing locally. -/
def Fetchable (localStore remote : Store C P) (root x : C) : Prop :=
  x ∉ localStore ∧ Relation.ReflTransGen (FetchEdge localStore remote) root x

/-- What `fetchLoop` keeps about the remote store: every fetched node is the remote one and is
reached from `root` by the fetch walk, every queued CID is reached so, and `root` has been seen. -/
structure FetchTrace (localStore remote : Store C P) (root : C) (visited : Finset C)
    (missing : Store C P) (queue : List C) : Prop where
  missing_remote : ∀ x n, missing.lookup x = some n → remote.lookup x = some n
  missing_path : ∀ x ∈ missing, Relation.ReflTransGen (FetchEdge localStore remote) root x
  queue_path : ∀ q ∈ queue, Relation.ReflTransGen (FetchEdge localStore remote) root q
  root_seen : root ∈ visited ∨ root ∈ queue

omit [NodeHasher C P] in
theorem fetchTrace_start (localStore remote : Store C P) (root : C) :
    FetchTrace localStore remote root ∅ ∅ [root] where
  missing_remote x n h := by
    rw [Finmap.lookup_empty] at h
    cases h
  missing_path x h := absurd h Finmap.notMem_empty
  queue_path q hq := by
    rw [List.mem_singleton.mp hq]
  root_seen := Or.inr List.mem_cons_self

variable {root : C}

omit [NodeHasher C P] in
theorem FetchTrace.skip {visited : Finset C} {missing : Store C P} {cid : C} {queue : List C}
    (h : FetchTrace localStore remote root visited missing (cid :: queue)) (hv : cid ∈ visited) :
    FetchTrace localStore remote root visited missing queue :=
  ⟨h.missing_remote, h.missing_path, fun q hq => h.queue_path q (List.mem_cons_of_mem cid hq),
    Dag.or_mem_of_or_mem_cons hv h.root_seen⟩

omit [NodeHasher C P] in
theorem FetchTrace.local {visited : Finset C} {missing : Store C P} {cid : C} {queue : List C}
    (h : FetchTrace localStore remote root visited missing (cid :: queue)) :
    FetchTrace localStore remote root (insert cid visited) missing queue :=
  ⟨h.missing_remote, h.missing_path, fun q hq => h.queue_path q (List.mem_cons_of_mem cid hq),
    Dag.or_mem_of_or_mem_cons (Finset.mem_insert_self cid visited)
      (h.root_seen.imp_left Finset.mem_insert_of_mem)⟩

omit [NodeHasher C P] in
theorem FetchTrace.fetch {visited : Finset C} {missing : Store C P} {cid : C} {queue : List C}
    {node : DagNode C P} (h : FetchTrace localStore remote root visited missing (cid :: queue))
    (hl : cid ∉ localStore) (hr : remote.lookup cid = some node) :
    FetchTrace localStore remote root (insert cid visited) (missing.insert cid node)
      (queue ++ node.children.sort (· ≤ ·)) := by
  have hcid := h.queue_path cid List.mem_cons_self
  refine ⟨fun x n hx => ?_, fun x hx => ?_, fun q hq => ?_, ?_⟩
  · by_cases hxc : x = cid
    · subst hxc
      simp only [Finmap.lookup_insert, Option.some.injEq] at hx
      exact hx ▸ hr
    · rw [Finmap.lookup_insert_of_ne _ hxc] at hx
      exact h.missing_remote x n hx
  · rcases Finmap.mem_insert.mp hx with rfl | hx
    · exact hcid
    · exact h.missing_path x hx
  · rcases List.mem_append.mp hq with hq | hq
    · exact h.queue_path q (List.mem_cons_of_mem cid hq)
    · exact hcid.tail ⟨hl, node, hr, (Finset.mem_sort _).mp hq⟩
  · rcases h.root_seen with hr' | hr'
    · exact Or.inl (Finset.mem_insert_of_mem hr')
    · rcases List.mem_cons.mp hr' with rfl | hr'
      · exact Or.inl (Finset.mem_insert_self _ visited)
      · exact Or.inr (List.mem_append_left _ hr')

theorem FetchTrace.complete {visited : Finset C} {missing : Store C P}
    (hi : FetchInv localStore visited missing []) (h : FetchTrace localStore remote root visited missing [])
    {x : C} (hx : Fetchable localStore remote root x) : x ∈ missing := by
  obtain ⟨hxl, hpath⟩ := hx
  have hseen : ∀ y ∈ visited, y ∉ localStore → y ∈ missing :=
    fun y hy hyl => (hi.visited_mem y hy).resolve_left hyl
  induction hpath with
  | refl => exact hseen root (h.root_seen.resolve_right List.not_mem_nil) hxl
  | @tail a b _ hab ih =>
    obtain ⟨hal, n', hn', hb⟩ := hab
    obtain ⟨n, hn⟩ := Finmap.mem_iff.mp (ih hal)
    have hnn : n' = n := Option.some.inj (hn'.symm.trans (h.missing_remote a n hn))
    subst hnn
    exact hseen b ((hi.children_mem a n' hn b hb).resolve_right List.not_mem_nil) hxl

/-- The run of `fetchLoop`: when it returns, both invariants hold of its last state, with the queue
empty. -/
theorem fetchLoop_final {visited : Finset C} {missing out : Store C P} {queue : List C}
    (hi : FetchInv localStore visited missing queue)
    (h : FetchTrace localStore remote root visited missing queue)
    (hout : fetchLoop localStore remote faults visited missing queue = .ok out) :
    ∃ visited', FetchInv localStore visited' out [] ∧
      FetchTrace localStore remote root visited' out [] := by
  fun_induction fetchLoop localStore remote faults visited missing queue with
  | case1 visited missing =>
    cases hout
    exact ⟨visited, hi, h⟩
  | case2 _ _ _ _ hv ih => exact ih (hi.skip hv) (h.skip hv) hout
  | case4 _ _ _ _ _ _ hl ih => exact ih (hi.local hl) h.local hout
  | case3 | case5 | case6 | case7 => cases hout
  | case8 _ _ _ _ _ _ hl _ _ hr hcid ih =>
    exact ih (hi.fetch hl (not_not.mp hcid)) (h.fetch hl hr) hout

/-- **`fetchLoop` fetches exactly the CIDs the fetch walk reaches from `root`, each as the remote
store holds it.** -/
theorem fetchLoop_restricts {visited : Finset C} {missing out : Store C P} {queue : List C}
    (hi : FetchInv localStore visited missing queue)
    (h : FetchTrace localStore remote root visited missing queue)
    (hout : fetchLoop localStore remote faults visited missing queue = .ok out) :
    Dag.Restricts remote out (Fetchable localStore remote root) := by
  obtain ⟨visited', hi', h'⟩ := fetchLoop_final hi h hout
  intro x
  refine ⟨fun hx => ?_, fun hx => ?_⟩
  · obtain ⟨n, hn⟩ := Finmap.mem_iff.mp (h'.complete hi' hx)
    rw [hn, h'.missing_remote x n hn]
  · by_contra hne
    obtain ⟨n, hn⟩ := Option.ne_none_iff_exists'.mp hne
    exact hx ⟨(hi'.lookup_missing x n hn).2, h'.missing_path x (Finmap.mem_of_lookup_eq_some hn)⟩

/-- **`fetch_missing` returns the grounded part of the map of CIDs its walk reaches**: the nodes of
that map from which no cycle inside it is reachable. -/
theorem fetchMissing_spec {batch : List (C × DagNode C P)}
    (h : fetchMissing root localStore remote faults = .ok batch) :
    ∃ missing, Dag.Restricts remote missing (Fetchable localStore remote root) ∧
      (∀ e ∈ batch, missing.lookup e.1 = some e.2) ∧
      ∀ x, x ∈ batch.map Prod.fst ↔ Dag.Grounded (pendingChildren missing) missing x := by
  unfold fetchMissing at h
  rcases hf : fetchLoop localStore remote faults ∅ ∅ [root] with _ | missing
  · rw [hf] at h
    cases h
  rw [hf] at h
  refine ⟨missing, fetchLoop_restricts (fetchInv_start localStore root)
    (fetchTrace_start localStore remote root) hf, ?_⟩
  by_cases hempty : missing.keys = ∅
  · simp only [bind, Except.bind, hempty, ↓reduceIte, pure, Except.pure, Except.ok.injEq] at h
    subst h
    refine ⟨fun e he => absurd he List.not_mem_nil, fun x => ⟨fun hx => absurd hx (by simp), ?_⟩⟩
    intro hx
    have := Finmap.mem_keys.mpr hx.mem
    rw [hempty] at this
    exact absurd this (Finset.notMem_empty x)
  · simp only [bind, Except.bind, hempty, ↓reduceIte, pure, Except.pure, Except.ok.injEq] at h
    subst h
    exact ⟨fun e he => lookup_of_mem_topologicalSort he, fun x => mem_topologicalSort_iff⟩

end Fetch

/-- The collection loop of `materialize`: pop a CID; skip a visited one; fetch and check the node;
push its unvisited children; keep it. -/
def collectLoop (store : Store C P) (visited : Finset C) (nodes : Store C P) :
    List C → Except Error (Store C P)
  | [] => .ok nodes
  | cid :: stack =>
    if _hv : cid ∈ visited then collectLoop store visited nodes stack
    else match _hs : store.lookup cid with
      | none => .error .missingNode
      | some node =>
        if node.cid ≠ cid then .error .invalidCid
        else collectLoop store (insert cid visited) (nodes.insert cid node)
          (((node.children.filter (· ∉ insert cid visited)).sort (· ≤ ·)).reverse ++ stack)
termination_by stack => ((store.keys \ visited).card, stack.length)
decreasing_by
  · exact Prod.Lex.right _ (by simp)
  · exact Prod.Lex.left _ _ (card_sdiff_insert_lt
      (Finmap.mem_keys.mpr (Finmap.mem_of_lookup_eq_some _hs)) _hv)

/-- The last loop of `materialize`: apply the payloads in order to the default state. -/
def foldPayloads {σ : Type} [Payload P σ] (nodes : List (C × DagNode C P)) : σ :=
  nodes.foldl (fun state e => Payload.apply state e.2.payload) (Payload.default P)

/-- `materialize`: fold `Payload::apply` over the nodes reachable from the roots, in
`topological_sort` order, from the default state. -/
def materialize {σ : Type} [Payload P σ] (clock : MerkleClock C) (store : Store C P) :
    Except Error σ := do
  let nodes ← collectLoop store ∅ ∅ (clock.roots.sort (· ≤ ·)).reverse
  pure (foldPayloads (topologicalSort nodes))

/-! ## Collecting the reachable nodes -/

section Collect

variable {store : Store C P} {roots : Finset C}

/-- The invariant of `collectLoop`: a search from the roots whose visited CIDs are stored, with
`nodes` holding their nodes. -/
structure CollectInv (store : Store C P) (roots visited : Finset C) (nodes : Store C P)
    (stack : List C) : Prop where
  frontier : Dag.Frontier DagNode.children store roots visited stack
  visited_mem : ∀ x ∈ visited, x ∈ store
  lookup_nodes : ∀ x, nodes.lookup x = if x ∈ visited then store.lookup x else none

theorem mem_sorted_reverse {s : Finset C} {x : C} : x ∈ (s.sort (· ≤ ·)).reverse ↔ x ∈ s := by
  simp

omit [NodeHasher C P] in
theorem collectInv_start (store : Store C P) (roots : Finset C) :
    CollectInv store roots ∅ ∅ (roots.sort (· ≤ ·)).reverse where
  frontier := Dag.frontier_start fun _ => mem_sorted_reverse
  visited_mem x hx := absurd hx (Finset.notMem_empty x)
  lookup_nodes x := by simp

omit [NodeHasher C P] in
theorem CollectInv.skip {visited : Finset C} {nodes : Store C P} {cid : C} {stack : List C}
    (h : CollectInv store roots visited nodes (cid :: stack)) (hv : cid ∈ visited) :
    CollectInv store roots visited nodes stack :=
  ⟨h.frontier.skip hv, h.visited_mem, h.lookup_nodes⟩

omit [NodeHasher C P] in
theorem CollectInv.visit {visited : Finset C} {nodes : Store C P} {cid : C} {stack : List C}
    {node : DagNode C P} (h : CollectInv store roots visited nodes (cid :: stack))
    (hs : store.lookup cid = some node) :
    CollectInv store roots (insert cid visited) (nodes.insert cid node)
      (((node.children.filter (· ∉ insert cid visited)).sort (· ≤ ·)).reverse ++ stack) := by
  have hpushed : ∀ x, x ∈ ((node.children.filter (· ∉ insert cid visited)).sort (· ≤ ·)).reverse ↔
      x ∈ node.children ∧ x ∉ insert cid visited := by
    intro x
    rw [mem_sorted_reverse, Finset.mem_filter]
  refine ⟨h.frontier.visit hs ?_ ?_ ?_, ?_, fun x => ?_⟩
  · intro x hx
    rcases List.mem_append.mp hx with hx | hx
    · exact Or.inl ((hpushed x).mp hx).1
    · exact Or.inr hx
  · exact fun x hx => List.mem_append_right _ hx
  · intro b hb
    by_cases hbv : b ∈ insert cid visited
    · exact Or.inl hbv
    · exact Or.inr (List.mem_append_left _ ((hpushed b).mpr ⟨hb, hbv⟩))
  · intro x hx
    rcases Finset.mem_insert.mp hx with rfl | hx
    · exact Finmap.mem_of_lookup_eq_some hs
    · exact h.visited_mem x hx
  · by_cases hx : x = cid
    · subst hx
      simp [hs]
    · simp only [Finmap.lookup_insert_of_ne _ hx, Finset.mem_insert, hx, false_or]
      exact h.lookup_nodes x

/-- **What `collectLoop` returns holds exactly the stored nodes reachable from the roots, all of
which are stored.** -/
theorem collectLoop_ok {visited : Finset C} {nodes out : Store C P} {stack : List C}
    (h : CollectInv store roots visited nodes stack)
    (hout : collectLoop store visited nodes stack = .ok out) :
    Dag.Restricts store out (store.Reach roots) ∧ ∀ x, store.Reach roots x → x ∈ store := by
  fun_induction collectLoop store visited nodes stack with
  | case1 visited nodes =>
    cases hout
    refine ⟨fun x => ⟨fun hx => ?_, fun hx => ?_⟩, fun x hx => ?_⟩
    · rw [h.lookup_nodes, if_pos (h.frontier.reach_iff.mp hx)]
    · rw [h.lookup_nodes, if_neg (mt h.frontier.reach_iff.mpr hx)]
    · exact h.visited_mem x (h.frontier.reach_iff.mp hx)
  | case2 _ _ _ _ hv ih => exact ih (h.skip hv) hout
  | case3 => cases hout
  | case4 => cases hout
  | case5 _ _ _ _ _ _ hs _ ih => exact ih (h.visit hs) hout

theorem collectLoop_isOk (hclosed : Dag.Closed DagNode.children store) (hvalid : store.Valid)
    (hroots : ∀ r ∈ roots, r ∈ store) {visited : Finset C} {nodes : Store C P} {stack : List C}
    (h : CollectInv store roots visited nodes stack) :
    ∃ out, collectLoop store visited nodes stack = .ok out := by
  fun_induction collectLoop store visited nodes stack with
  | case1 => exact ⟨_, rfl⟩
  | case2 _ _ _ _ hv ih => exact ih (h.skip hv)
  | case3 _ _ cid _ _ hs =>
    have hmem : cid ∈ store :=
      hclosed.mem_of_reach hroots (h.frontier.reach cid (Or.inr List.mem_cons_self))
    exact absurd (Finmap.lookup_eq_none.mp hs) (not_not.mpr hmem)
  | case4 _ _ cid _ _ node hs hcid => exact absurd (hvalid cid node hs) hcid
  | case5 _ _ _ _ _ _ hs _ ih => exact ih (h.visit hs)

variable {σ : Type} [Payload P σ]

omit [LinearOrder C] [NodeHasher C P] in
theorem foldPayloads_append_singleton (l : List (C × DagNode C P)) (e : C × DagNode C P) :
    (foldPayloads (l ++ [e]) : σ) = Payload.apply (foldPayloads l : σ) e.2.payload := by
  simp [foldPayloads, List.foldl_append]

/-- **`materialize` folds the payloads of the nodes reachable from the roots in
`topologicalSort` order, and succeeds only when every root is stored.** -/
theorem materialize_ok {clock : MerkleClock C} {st : σ} (h : materialize clock store = .ok st) :
    ∃ nodes, Dag.Restricts store nodes (store.Reach clock.roots) ∧
      (∀ x, store.Reach clock.roots x → x ∈ store) ∧ st = foldPayloads (topologicalSort nodes) := by
  unfold materialize at h
  rcases hc : collectLoop store ∅ ∅ (clock.roots.sort (· ≤ ·)).reverse with _ | nodes
  · rw [hc] at h
    cases h
  · rw [hc] at h
    cases h
    obtain ⟨hres, hmem⟩ := collectLoop_ok (collectInv_start store clock.roots) hc
    exact ⟨nodes, hres, hmem, rfl⟩

theorem materialize_isOk {clock : MerkleClock C} (hclosed : Dag.Closed DagNode.children store)
    (hvalid : store.Valid) (hroots : ∀ r ∈ clock.roots, r ∈ store) :
    ∃ nodes, Dag.Restricts store nodes (store.Reach clock.roots) ∧
      materialize clock store = .ok (foldPayloads (topologicalSort nodes) : σ) := by
  obtain ⟨nodes, hc⟩ := collectLoop_isOk hclosed hvalid hroots (collectInv_start store clock.roots)
  refine ⟨nodes, (collectLoop_ok (collectInv_start store clock.roots) hc).1, ?_⟩
  unfold materialize
  rw [hc]
  rfl

/-- **`materialize` depends only on the reachable CIDs and the nodes stored under them.** -/
theorem materialize_eq_of_reach {clock clock' : MerkleClock C} {store' : Store C P} {st : σ}
    (h : materialize clock store = .ok st) (hclosed : Dag.Closed DagNode.children store')
    (hvalid : store'.Valid) (hroots : ∀ r ∈ clock'.roots, r ∈ store')
    (hreach : ∀ x, store'.Reach clock'.roots x ↔ store.Reach clock.roots x)
    (hlookup : ∀ x, store.Reach clock.roots x → store'.lookup x = store.lookup x) :
    materialize clock' store' = .ok st := by
  obtain ⟨nodes, hnodes, -, rfl⟩ := materialize_ok h
  obtain ⟨nodes', hnodes', heq⟩ := materialize_isOk (σ := σ) hclosed hvalid hroots
  rw [heq, hnodes'.eq hnodes hreach fun x hx => hlookup x ((hreach x).mp hx)]

end Collect

/-- The loop of `ancestry_is_valid`: as `collectLoop`, running the validator on each node. -/
def ancestryLoop (store : Store C P) (validate : C → DagNode C P → Bool) (visited : Finset C) :
    List C → Except Error Bool
  | [] => .ok true
  | cid :: stack =>
    if _hv : cid ∈ visited then ancestryLoop store validate visited stack
    else match _hs : store.lookup cid with
      | none => .error .missingNode
      | some node =>
        if node.cid ≠ cid then .error .invalidCid
        else if !validate cid node then .ok false
        else ancestryLoop store validate (insert cid visited)
          ((node.children.sort (· ≤ ·)).reverse ++ stack)
termination_by stack => ((store.keys \ visited).card, stack.length)
decreasing_by
  · exact Prod.Lex.right _ (by simp)
  · exact Prod.Lex.left _ _ (card_sdiff_insert_lt
      (Finmap.mem_keys.mpr (Finmap.mem_of_lookup_eq_some _hs)) _hv)

/-- `ancestry_is_valid`. -/
def ancestryIsValid (clock : MerkleClock C) (store : Store C P)
    (validate : C → DagNode C P → Bool) : Except Error Bool :=
  ancestryLoop store validate ∅ (clock.roots.sort (· ≤ ·)).reverse

/-- The loop over a node's children in `compact_roots`: a candidate child is subsumed, and once
all candidates but one are subsumed the compaction returns the rest (`inr`); an unvisited child is
pushed. -/
def compactChildren (candidates : Finset C) (targetCount : ℕ) (visited : Finset C) :
    List C → Finset C → List C → (Finset C × List C) ⊕ Finset C
  | [], subsumed, stack => .inl (subsumed, stack)
  | child :: children, subsumed, stack =>
    if child ∈ candidates ∧ child ∉ subsumed ∧ targetCount - 1 ≤ (insert child subsumed).card then
      .inr (candidates \ insert child subsumed)
    else
      compactChildren candidates targetCount visited children
        (if child ∈ candidates then insert child subsumed else subsumed)
        (if child ∈ visited then stack else child :: stack)

/-- The main loop of `compact_roots`. -/
def compactLoop (store : Store C P) (candidates : Finset C) (targetCount : ℕ)
    (subsumed visited : Finset C) : List C → Except Error (Finset C)
  | [] => .ok (candidates \ subsumed)
  | cid :: stack =>
    if _hv : cid ∈ visited then compactLoop store candidates targetCount subsumed visited stack
    else match _hs : store.lookup cid with
      | none => .error .missingNode
      | some node =>
        if node.cid ≠ cid then .error .invalidCid
        else match compactChildren candidates targetCount (insert cid visited)
            (node.children.sort (· ≤ ·)) subsumed stack with
          | .inr roots => .ok roots
          | .inl (subsumed, stack) =>
            compactLoop store candidates targetCount subsumed (insert cid visited) stack
termination_by stack => ((store.keys \ visited).card, stack.length)
decreasing_by
  · exact Prod.Lex.right _ (by simp)
  · exact Prod.Lex.left _ _ (card_sdiff_insert_lt
      (Finmap.mem_keys.mpr (Finmap.mem_of_lookup_eq_some _hs)) _hv)

/-- `MerkleClock::compact_roots`: remove the roots that another root reaches. -/
def MerkleClock.compactRoots (clock : MerkleClock C) (store : Store C P) :
    Except Error (MerkleClock C) :=
  if clock.roots.card ≤ 1 then .ok clock
  else (fun roots => { roots }) <$>
    compactLoop store clock.roots clock.roots.card ∅ ∅ (clock.roots.sort (· ≤ ·)).reverse

/-! ## Compacting the roots -/

section Compact

variable {store : Store C P} {candidates : Finset C} {targetCount : ℕ}

omit [NodeHasher C P] in
/-- A pass over the children that does not return: every candidate child is subsumed, and every
unvisited child is pushed. -/
theorem compactChildren_inl {visited : Finset C} {cs : List C} {subsumed subsumed' : Finset C}
    {stack stack' : List C}
    (h : compactChildren candidates targetCount visited cs subsumed stack = .inl (subsumed', stack')) :
    (∀ x, x ∈ subsumed' ↔ x ∈ subsumed ∨ x ∈ cs ∧ x ∈ candidates) ∧
      ∀ x, x ∈ stack' ↔ x ∈ stack ∨ x ∈ cs ∧ x ∉ visited := by
  induction cs generalizing subsumed stack with
  | nil =>
    cases h
    simp
  | cons child cs ih =>
    by_cases hc : child ∈ candidates ∧ child ∉ subsumed ∧
        targetCount - 1 ≤ (insert child subsumed).card
    · rw [compactChildren, if_pos hc] at h
      cases h
    · rw [compactChildren, if_neg hc] at h
      obtain ⟨hsub, hstack⟩ := ih h
      refine ⟨fun x => ?_, fun x => ?_⟩
      · rw [hsub]
        by_cases hcand : child ∈ candidates <;> by_cases hx : x = child <;> simp [hcand, hx]
      · rw [hstack]
        by_cases hvis : child ∈ visited <;> by_cases hx : x = child <;> simp [hvis, hx]

omit [NodeHasher C P] in
/-- A pass over the children that returns leaves at most one candidate outside the subsumed
ones. -/
theorem compactChildren_inr {visited : Finset C} {cs : List C} {subsumed roots : Finset C}
    {stack : List C} (h : compactChildren candidates targetCount visited cs subsumed stack = .inr roots) :
    ∃ S, roots = candidates \ S ∧ targetCount - 1 ≤ S.card ∧
      ∀ x ∈ S, x ∈ subsumed ∨ x ∈ cs ∧ x ∈ candidates := by
  induction cs generalizing subsumed stack with
  | nil => cases h
  | cons child cs ih =>
    by_cases hc : child ∈ candidates ∧ child ∉ subsumed ∧
        targetCount - 1 ≤ (insert child subsumed).card
    · rw [compactChildren, if_pos hc] at h
      cases h
      refine ⟨_, rfl, hc.2.2, fun x hx => ?_⟩
      rcases Finset.mem_insert.mp hx with rfl | hx
      · exact Or.inr ⟨List.mem_cons_self, hc.1⟩
      · exact Or.inl hx
    · rw [compactChildren, if_neg hc] at h
      obtain ⟨S, hroots, hcard, hS⟩ := ih h
      refine ⟨S, hroots, hcard, fun x hx => ?_⟩
      rcases hS x hx with hx | ⟨hx, hxc⟩
      · by_cases hcand : child ∈ candidates
        · rw [if_pos hcand] at hx
          rcases Finset.mem_insert.mp hx with rfl | hx
          · exact Or.inr ⟨List.mem_cons_self, hcand⟩
          · exact Or.inl hx
        · rw [if_neg hcand] at hx
          exact Or.inl hx
      · exact Or.inr ⟨List.mem_cons_of_mem _ hx, hxc⟩

/-- The invariant of `compactLoop`: a search from the candidates in which every subsumed CID is a
candidate reached from a candidate by at least one edge, and every candidate child of a visited
node is subsumed. -/
structure CompactInv (store : Store C P) (candidates subsumed visited : Finset C)
    (stack : List C) : Prop where
  frontier : Dag.Frontier DagNode.children store candidates visited stack
  subsumed_mem : ∀ c ∈ subsumed, c ∈ candidates ∧
    ∃ c' ∈ candidates, Relation.TransGen store.Edge c' c
  edge_subsumed : ∀ v ∈ visited, ∀ b, store.Edge v b → b ∈ candidates → b ∈ subsumed

omit [NodeHasher C P] in
theorem compactInv_start (store : Store C P) (candidates : Finset C) :
    CompactInv store candidates ∅ ∅ (candidates.sort (· ≤ ·)).reverse where
  frontier := Dag.frontier_start fun _ => mem_sorted_reverse
  subsumed_mem c hc := absurd hc (Finset.notMem_empty c)
  edge_subsumed v hv := absurd hv (Finset.notMem_empty v)

omit [NodeHasher C P] in
theorem CompactInv.skip {subsumed visited : Finset C} {cid : C} {stack : List C}
    (h : CompactInv store candidates subsumed visited (cid :: stack)) (hv : cid ∈ visited) :
    CompactInv store candidates subsumed visited stack :=
  ⟨h.frontier.skip hv, h.subsumed_mem, h.edge_subsumed⟩

omit [NodeHasher C P] in
theorem CompactInv.transGen_child {subsumed visited : Finset C} {cid : C} {stack : List C}
    {node : DagNode C P} (h : CompactInv store candidates subsumed visited (cid :: stack))
    (hs : store.lookup cid = some node) {x : C} (hx : x ∈ node.children) :
    ∃ c' ∈ candidates, Relation.TransGen store.Edge c' x :=
  let ⟨c', hc', hpath⟩ := h.frontier.reach cid (Or.inr List.mem_cons_self)
  ⟨c', hc', .tail' hpath ⟨node, hs, hx⟩⟩

omit [NodeHasher C P] in
theorem CompactInv.visit {subsumed subsumed' visited : Finset C} {cid : C} {stack stack' : List C}
    {node : DagNode C P} (h : CompactInv store candidates subsumed visited (cid :: stack))
    (hs : store.lookup cid = some node)
    (hres : compactChildren candidates targetCount (insert cid visited)
      (node.children.sort (· ≤ ·)) subsumed stack = .inl (subsumed', stack')) :
    CompactInv store candidates subsumed' (insert cid visited) stack' := by
  obtain ⟨hsub, hstack⟩ := compactChildren_inl hres
  simp only [Finset.mem_sort] at hsub hstack
  refine ⟨h.frontier.visit hs ?_ ?_ ?_, fun c hc => ?_, fun v hv b hb hbc => ?_⟩
  · intro x hx
    rcases (hstack x).mp hx with hx | ⟨hx, -⟩
    · exact Or.inr hx
    · exact Or.inl hx
  · exact fun x hx => (hstack x).mpr (Or.inl hx)
  · intro b hb
    by_cases hbv : b ∈ insert cid visited
    · exact Or.inl hbv
    · exact Or.inr ((hstack b).mpr (Or.inr ⟨hb, hbv⟩))
  · rcases (hsub c).mp hc with hc | ⟨hc, hcc⟩
    · exact h.subsumed_mem c hc
    · exact ⟨hcc, h.transGen_child hs hc⟩
  · rcases Finset.mem_insert.mp hv with rfl | hv
    · obtain ⟨n, hn, hb⟩ := hb
      rw [hs] at hn
      cases hn
      exact (hsub b).mpr (Or.inr ⟨hb, hbc⟩)
    · exact (hsub b).mpr (Or.inl (h.edge_subsumed v hv b hb hbc))

/-- `roots` is a compaction of `candidates`: a subset of them that is an antichain, every dropped
candidate being reached from a candidate by at least one edge. -/
structure Compacts (store : Store C P) (candidates roots : Finset C) : Prop where
  subset : roots ⊆ candidates
  antichain : Dag.Antichain DagNode.children store roots
  subsumed : ∀ c ∈ candidates, c ∉ roots → ∃ c' ∈ candidates, Relation.TransGen store.Edge c' c

omit [NodeHasher C P] in
theorem compacts_of_early {subsumed visited : Finset C} {stack : List C} {cid : C}
    {node : DagNode C P} (h : CompactInv store candidates subsumed visited (cid :: stack))
    (hs : store.lookup cid = some node) (htarget : targetCount = candidates.card) {S : Finset C}
    (hcard : targetCount - 1 ≤ S.card)
    (hS : ∀ x ∈ S, x ∈ subsumed ∨ x ∈ node.children.sort (· ≤ ·) ∧ x ∈ candidates) :
    Compacts store candidates (candidates \ S) := by
  have hSmem : ∀ x ∈ S, x ∈ candidates ∧ ∃ c' ∈ candidates, Relation.TransGen store.Edge c' x := by
    intro x hx
    rcases hS x hx with hx | ⟨hx, hxc⟩
    · exact h.subsumed_mem x hx
    · exact ⟨hxc, h.transGen_child hs ((Finset.mem_sort _).mp hx)⟩
  have hsubset : S ⊆ candidates := fun x hx => (hSmem x hx).1
  have hle : (candidates \ S).card ≤ 1 := by
    rw [Finset.card_sdiff_of_subset hsubset]
    omega
  refine ⟨Finset.sdiff_subset, Dag.antichain_of_card_le_one hle, fun c hc hcr => ?_⟩
  have hcS : c ∈ S := by
    by_contra hcS
    exact hcr (Finset.mem_sdiff.mpr ⟨hc, hcS⟩)
  exact (hSmem c hcS).2

omit [NodeHasher C P] in
/-- The end of the search: every candidate reached from a visited node is subsumed, so no two
unsubsumed candidates reach one another. -/
theorem CompactInv.compacts {subsumed visited : Finset C}
    (h : CompactInv store candidates subsumed visited []) :
    Compacts store candidates (candidates \ subsumed) := by
  refine ⟨Finset.sdiff_subset, fun r hr r' hr' hne hrr' => ?_, fun c hc hcr => ?_⟩
  · rcases hrr'.cases_tail with heq | ⟨v, hrv, hvr'⟩
    · exact hne heq.symm
    · have hv : v ∈ visited :=
        h.frontier.reach_iff.mp ⟨r, (Finset.mem_sdiff.mp hr).1, hrv⟩
      exact (Finset.mem_sdiff.mp hr').2
        (h.edge_subsumed v hv r' hvr' (Finset.mem_sdiff.mp hr').1)
  · have hcs : c ∈ subsumed := by
      by_contra hcs
      exact hcr (Finset.mem_sdiff.mpr ⟨hc, hcs⟩)
    exact (h.subsumed_mem c hcs).2

theorem compactLoop_ok {subsumed visited roots : Finset C} {stack : List C}
    (htarget : targetCount = candidates.card) (h : CompactInv store candidates subsumed visited stack)
    (hout : compactLoop store candidates targetCount subsumed visited stack = .ok roots) :
    Compacts store candidates roots := by
  fun_induction compactLoop store candidates targetCount subsumed visited stack with
  | case1 => cases hout; exact h.compacts
  | case2 _ _ _ _ hv ih => exact ih (h.skip hv) hout
  | case3 => cases hout
  | case4 => cases hout
  | case5 _ _ _ _ _ _ hs _ _ hres =>
    cases hout
    obtain ⟨S, rfl, hcard, hS⟩ := compactChildren_inr hres
    exact compacts_of_early h hs htarget hcard hS
  | case6 _ _ _ _ _ _ hs _ _ _ hres ih => exact ih (h.visit hs hres) hout

/-- **What `compact_roots` returns is a compaction of the roots.** -/
theorem compactRoots_ok {clock clock' : MerkleClock C}
    (h : clock.compactRoots store = .ok clock') : Compacts store clock.roots clock'.roots := by
  unfold MerkleClock.compactRoots at h
  by_cases hcard : clock.roots.card ≤ 1
  · rw [if_pos hcard] at h
    cases h
    exact ⟨subset_rfl, Dag.antichain_of_card_le_one hcard, fun c hc hcr => absurd hc hcr⟩
  · rw [if_neg hcard] at h
    rcases hc : compactLoop store clock.roots clock.roots.card ∅ ∅
      (clock.roots.sort (· ≤ ·)).reverse with _ | roots
    · rw [hc] at h
      cases h
    · rw [hc] at h
      cases h
      exact compactLoop_ok rfl (compactInv_start store clock.roots) hc

omit [NodeHasher C P] in
/-- **In an acyclic store, a compaction reaches what the candidates reach.** -/
theorem Compacts.reach_iff {roots : Finset C} (h : Compacts store candidates roots)
    (hacyc : Dag.Acyclic DagNode.children store) {x : C} :
    store.Reach roots x ↔ store.Reach candidates x := by
  constructor
  · rintro ⟨r, hr, hrx⟩
    exact ⟨r, h.subset hr, hrx⟩
  · rintro ⟨c, hc, hcx⟩
    obtain ⟨r, hr, -, hrc⟩ := Dag.exists_unsubsumed_reach hacyc h.subsumed c hc
    exact ⟨r, hr, hrc.trans hcx⟩

end Compact

end Vos.MerkleCrdt
