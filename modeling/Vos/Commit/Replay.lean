import Vos.MerkleCrdt.Walk

/-!
# vos commit log — `CrdtCommit::replay_logs`

On a cold start the commit log hands the runtime the effect logs of its DAG again. `replay_logs`
walks the `DAG_TABLE` depth first from the clock's roots, skipping a CID without a row and a row
that does not decode, and collects the nodes it reaches; `topological_order` then runs Kahn's
algorithm over them, counting every child a node names. A node that names a CID the walk did not
collect, or that lies on a cycle, never has its count drop to zero: it is held back together with
every node above it.

The table is a map from CIDs to bytes and `decode` stands for `DagNode::from_bytes`; a missing
table replays as the empty one. The graph the results speak of is `decodedRows`, the rows that
decode.

* `replayWalk`, `indegreesAndReverse`, `orderLoop`, `topologicalOrder`, `replayLogs`;
* `WalkInv`, `replayWalk_restricts`: the walk collects exactly the decoded nodes reachable from the
  roots;
* `OrderInv`, `orderInv_next`, `orderLoop_spec`: the main loop emits, once each and each after its
  children, the nodes all of whose children it has emitted, and stops only when no other node is
  left with all of its children emitted;
* **`replayLogs_grounded`**: the replayed logs are those of the reachable grounded nodes, each
  once, every one after its children.
-/

namespace Vos.Commit

open Vos.MerkleCrdt Relation

/-- `CrdtEvent` with the one field replay reads, the effect log; the origin and the sequence number
stay on disk. -/
structure CrdtEvent (L : Type) where
  log : L

variable {C L : Type} [LinearOrder C]

/-- The rows of the table that `decode` accepts, under their CIDs. -/
def decodedRows (table : Finmap fun _ : C => List UInt8)
    (decode : List UInt8 → Option (DagNode C (CrdtEvent L))) : Store C (CrdtEvent L) :=
  table.sortedEntries.foldl (fun rows e =>
    match decode e.2 with
    | some node => rows.insert e.1 node
    | none => rows) ∅

/-- The walk of `replay_logs`: pop a CID; skip one already collected, one without a row and one
whose row does not decode; otherwise push its children not yet collected and collect it. -/
def replayWalk (table : Finmap fun _ : C => List UInt8)
    (decode : List UInt8 → Option (DagNode C (CrdtEvent L))) (nodes : Store C (CrdtEvent L)) :
    List C → Store C (CrdtEvent L)
  | [] => nodes
  | cid :: stack =>
    if _hn : cid ∈ nodes then replayWalk table decode nodes stack
    else match _ht : table.lookup cid with
      | none => replayWalk table decode nodes stack
      | some bytes =>
        match decode bytes with
        | none => replayWalk table decode nodes stack
        | some node =>
          replayWalk table decode (nodes.insert cid node)
            (((node.children.filter (· ∉ nodes)).sort (· ≤ ·)).reverse ++ stack)
termination_by stack => ((table.keys \ nodes.keys).card, stack.length)
decreasing_by
  · exact Prod.Lex.right _ (by simp)
  · exact Prod.Lex.right _ (by simp)
  · exact Prod.Lex.right _ (by simp)
  · rw [Finmap.keys_insert]
    exact Prod.Lex.left _ _ (card_sdiff_insert_lt
      (Finmap.mem_keys.mpr (Finmap.mem_of_lookup_eq_some _ht)) fun h => _hn (Finmap.mem_keys.mp h))

/-- `reverse.entry(child).or_default().push(cid)`. -/
def pushSuccessor (cid : C) (reverse : Finmap fun _ : C => List C) (child : C) :
    Finmap fun _ : C => List C :=
  reverse.insert child (((reverse.lookup child).getD []) ++ [cid])

/-- The first loop of `topological_order`: each node's number of children, every child counted,
and for each CID the nodes that name it as a child, in ascending order. -/
def indegreesAndReverse (nodes : Store C (CrdtEvent L)) :
    (Finmap fun _ : C => ℕ) × (Finmap fun _ : C => List C) :=
  nodes.sortedEntries.foldl (fun acc e =>
    (acc.1.insert e.1 e.2.children.card,
     (e.2.children.sort (· ≤ ·)).foldl (pushSuccessor e.1) acc.2)) (∅, ∅)

/-- The loop state of `topological_order`. -/
structure OrderState (C L : Type) where
  queue : List C
  indegree : Finmap fun _ : C => ℕ
  nodes : Store C (CrdtEvent L)
  sorted : List L

/-- The state after one round of the main loop, with `cid` popped and `queue` left: emit the log
of `cid` if its node is still there, remove it, and release its successors (`release` is the
`saturating_sub` round of `sync::topological_sort`). -/
def orderNext (reverse : Finmap fun _ : C => List C) (s : OrderState C L) (cid : C)
    (queue : List C) : OrderState C L :=
  let released := ((reverse.lookup cid).getD []).foldl release (queue, s.indegree)
  { queue := released.1, indegree := released.2, nodes := s.nodes.erase cid,
    sorted := match s.nodes.lookup cid with
      | some node => s.sorted ++ [node.payload.log]
      | none => s.sorted }

/-- The main loop of `topological_order`, which runs until the queue is empty. The model bounds
the rounds by `fuel`; `orderLoop_spec` shows that the number of nodes is enough. -/
def orderLoop (reverse : Finmap fun _ : C => List C) : ℕ → OrderState C L → List L
  | 0, s => s.sorted
  | fuel + 1, s =>
    match s.queue with
    | [] => s.sorted
    | cid :: queue => orderLoop reverse fuel (orderNext reverse s cid queue)

/-- The state the main loop starts from: the nodes of count zero queued in ascending order. -/
def orderStart (nodes : Store C (CrdtEvent L)) : OrderState C L :=
  { queue := ((indegreesAndReverse nodes).1.sortedEntries.filter fun e => e.2 = 0).map Prod.fst,
    indegree := (indegreesAndReverse nodes).1, nodes, sorted := [] }

/-- `topological_order`. -/
def topologicalOrder (nodes : Store C (CrdtEvent L)) : List L :=
  orderLoop (indegreesAndReverse nodes).2 nodes.keys.card (orderStart nodes)

/-- `CrdtCommit::replay_logs` over the table and the clock's roots. -/
def replayLogs (table : Finmap fun _ : C => List UInt8)
    (decode : List UInt8 → Option (DagNode C (CrdtEvent L))) (roots : Finset C) : List L :=
  topologicalOrder (replayWalk table decode ∅ (roots.sort (· ≤ ·)).reverse)

/-! ## The decoded rows -/

section rows

variable {decode : List UInt8 → Option (DagNode C (CrdtEvent L))}

theorem lookup_decodeRow_of_ne {rows : Store C (CrdtEvent L)} {e : C × List UInt8} {c : C}
    (hc : c ≠ e.1) :
    (match decode e.2 with
      | some node => rows.insert e.1 node
      | none => rows).lookup c = rows.lookup c := by
  cases decode e.2 with
  | none => rfl
  | some node => exact Finmap.lookup_insert_of_ne _ hc

theorem lookup_foldl_decodeRow_of_not_mem {c : C} :
    ∀ {l : List (C × List UInt8)} {rows : Store C (CrdtEvent L)}, c ∉ l.map Prod.fst →
      (l.foldl (fun rows e =>
        match decode e.2 with
        | some node => rows.insert e.1 node
        | none => rows) rows).lookup c = rows.lookup c
  | [], _, _ => rfl
  | e :: l, rows, hc => by
    have hce : c ≠ e.1 := fun h => hc (h ▸ List.mem_cons_self)
    rw [List.foldl_cons, lookup_foldl_decodeRow_of_not_mem fun h => hc (List.mem_cons_of_mem _ h),
      lookup_decodeRow_of_ne hce]

theorem lookup_foldl_decodeRow_of_mem {c : C} {bytes : List UInt8} :
    ∀ {l : List (C × List UInt8)} {rows : Store C (CrdtEvent L)}, (l.map Prod.fst).Nodup →
      (c, bytes) ∈ l →
      (l.foldl (fun rows e =>
        match decode e.2 with
        | some node => rows.insert e.1 node
        | none => rows) rows).lookup c = (decode bytes).or (rows.lookup c)
  | e :: l, rows, hnd, hc => by
    obtain ⟨he, hnd⟩ := List.nodup_cons.mp hnd
    rw [List.foldl_cons]
    rcases List.mem_cons.mp hc with rfl | hc
    · rw [lookup_foldl_decodeRow_of_not_mem he]
      cases decode bytes with
      | none => rfl
      | some node => exact Finmap.lookup_insert _
    · have hce : c ≠ e.1 := fun h => he (h ▸ List.mem_map_of_mem hc)
      rw [lookup_foldl_decodeRow_of_mem hnd hc, lookup_decodeRow_of_ne hce]

@[simp] theorem lookup_decodedRows (table : Finmap fun _ : C => List UInt8) (c : C) :
    (decodedRows table decode).lookup c = (table.lookup c).bind decode := by
  cases hc : table.lookup c with
  | none =>
    rw [decodedRows, lookup_foldl_decodeRow_of_not_mem, Finmap.lookup_empty]
    · rfl
    rw [Finmap.map_fst_sortedEntries, Finset.mem_sort, Finmap.mem_keys]
    exact Finmap.lookup_eq_none.mp hc
  | some bytes =>
    rw [decodedRows, lookup_foldl_decodeRow_of_mem (Finmap.nodup_map_fst_sortedEntries table)
      (Finmap.mem_sortedEntries.mpr hc), Finmap.lookup_empty, Option.or_none]
    rfl

end rows

/-! ## The walk -/

section walk

variable {g : Store C (CrdtEvent L)} {roots : Finset C}

/-- The invariant of `replayWalk`: a search from the roots over the decoded rows `g`, with `nodes`
holding the nodes of the visited CIDs. A visited CID without a decoded row holds nothing. -/
structure WalkInv (g : Store C (CrdtEvent L)) (roots visited : Finset C)
    (nodes : Store C (CrdtEvent L)) (stack : List C) : Prop where
  frontier : Dag.Frontier DagNode.children g roots visited stack
  lookup_nodes : ∀ x, nodes.lookup x = if x ∈ visited then g.lookup x else none

theorem walkInv_start (g : Store C (CrdtEvent L)) (roots : Finset C) :
    WalkInv g roots ∅ ∅ (roots.sort (· ≤ ·)).reverse where
  frontier := Dag.frontier_start fun _ => mem_sorted_reverse
  lookup_nodes x := by simp

theorem WalkInv.mem_visited {visited : Finset C} {nodes : Store C (CrdtEvent L)} {stack : List C}
    (h : WalkInv g roots visited nodes stack) {x : C} (hx : x ∈ nodes) : x ∈ visited := by
  obtain ⟨n, hn⟩ := Finmap.mem_iff.mp hx
  by_contra hv
  rw [h.lookup_nodes, if_neg hv] at hn
  cases hn

theorem WalkInv.skip {visited : Finset C} {nodes : Store C (CrdtEvent L)} {cid : C}
    {stack : List C} (h : WalkInv g roots visited nodes (cid :: stack)) (hn : cid ∈ nodes) :
    WalkInv g roots visited nodes stack :=
  ⟨h.frontier.skip (h.mem_visited hn), h.lookup_nodes⟩

theorem WalkInv.drop {visited : Finset C} {nodes : Store C (CrdtEvent L)} {cid : C}
    {stack : List C} (h : WalkInv g roots visited nodes (cid :: stack)) (hg : g.lookup cid = none) :
    WalkInv g roots (insert cid visited) nodes stack := by
  refine ⟨h.frontier.drop (Finmap.lookup_eq_none.mp hg), fun x => ?_⟩
  rw [h.lookup_nodes]
  by_cases hx : x = cid
  · subst hx
    simp [hg]
  · simp [hx]

theorem WalkInv.visit {visited : Finset C} {nodes : Store C (CrdtEvent L)} {cid : C}
    {stack : List C} {node : DagNode C (CrdtEvent L)}
    (h : WalkInv g roots visited nodes (cid :: stack)) (hg : g.lookup cid = some node) :
    WalkInv g roots (insert cid visited) (nodes.insert cid node)
      (((node.children.filter (· ∉ nodes)).sort (· ≤ ·)).reverse ++ stack) := by
  have hpushed : ∀ x, x ∈ ((node.children.filter (· ∉ nodes)).sort (· ≤ ·)).reverse ↔
      x ∈ node.children ∧ x ∉ nodes := by
    intro x
    rw [mem_sorted_reverse, Finset.mem_filter]
  refine ⟨h.frontier.visit hg ?_ ?_ ?_, fun x => ?_⟩
  · intro x hx
    rcases List.mem_append.mp hx with hx | hx
    · exact Or.inl ((hpushed x).mp hx).1
    · exact Or.inr hx
  · exact fun x hx => List.mem_append_right _ hx
  · intro b hb
    by_cases hbn : b ∈ nodes
    · exact Or.inl (Finset.mem_insert_of_mem (h.mem_visited hbn))
    · exact Or.inr (List.mem_append_left _ ((hpushed b).mpr ⟨hb, hbn⟩))
  · by_cases hx : x = cid
    · subst hx
      simp [hg]
    · simp only [Finmap.lookup_insert_of_ne _ hx, Finset.mem_insert, hx, false_or]
      exact h.lookup_nodes x

/-- **`replayWalk` collects exactly the decoded nodes reachable from the roots.** -/
theorem replayWalk_restricts {table : Finmap fun _ : C => List UInt8}
    {decode : List UInt8 → Option (DagNode C (CrdtEvent L))} {visited : Finset C}
    {nodes : Store C (CrdtEvent L)} {stack : List C}
    (h : WalkInv (decodedRows table decode) roots visited nodes stack) :
    Dag.Restricts (decodedRows table decode) (replayWalk table decode nodes stack)
      (Dag.Reach DagNode.children (decodedRows table decode) roots) := by
  fun_induction replayWalk table decode nodes stack generalizing visited with
  | case1 nodes =>
    refine fun x => ⟨fun hx => ?_, fun hx => ?_⟩
    · rw [h.lookup_nodes, if_pos (h.frontier.reach_iff.mp hx)]
    · rw [h.lookup_nodes, if_neg (mt h.frontier.reach_iff.mpr hx)]
  | case2 _ _ _ hn ih => exact ih (h.skip hn)
  | case3 _ _ _ _ ht ih => exact ih (h.drop (by simp [ht]))
  | case4 _ _ _ _ _ ht hd ih => exact ih (h.drop (by simp [ht, hd]))
  | case5 _ _ _ _ _ ht _ hd ih => exact ih (h.visit (by simp [ht, hd]))

end walk

/-! ## The first loop of `topological_order` -/

section first

/-- The nodes of `nodes` that name `c` as a child, in ascending order. -/
def successorList (nodes : Store C (CrdtEvent L)) (c : C) : List C :=
  (nodes.sortedEntries.filter fun e => c ∈ e.2.children).map Prod.fst

theorem indegreesAndReverse_eq (nodes : Store C (CrdtEvent L)) :
    indegreesAndReverse nodes =
      (nodes.sortedEntries.foldl (fun m e => m.insert e.1 e.2.children.card) ∅,
       nodes.sortedEntries.foldl
        (fun r e => (e.2.children.sort (· ≤ ·)).foldl (pushSuccessor e.1) r) ∅) := by
  unfold indegreesAndReverse
  exact foldl_pair
    (fun (m : Finmap fun _ : C => ℕ) (e : C × DagNode C (CrdtEvent L)) =>
      m.insert e.1 e.2.children.card)
    (fun (r : Finmap fun _ : C => List C) (e : C × DagNode C (CrdtEvent L)) =>
      (e.2.children.sort (· ≤ ·)).foldl (pushSuccessor e.1) r) _ _ _

theorem lookup_indegree (nodes : Store C (CrdtEvent L)) (x : C) :
    (indegreesAndReverse nodes).1.lookup x = (nodes.lookup x).map fun n => n.children.card := by
  rw [indegreesAndReverse_eq]
  cases hx : nodes.lookup x with
  | none =>
    rw [lookup_foldl_insert_of_not_mem, Finmap.lookup_empty]
    · rfl
    rw [Finmap.map_fst_sortedEntries, Finset.mem_sort, Finmap.mem_keys]
    exact Finmap.lookup_eq_none.mp hx
  | some n =>
    exact lookup_foldl_insert_of_mem (fun e => e.2.children.card)
      (Finmap.nodup_map_fst_sortedEntries nodes) (Finmap.mem_sortedEntries.mpr hx)

theorem getD_foldl_pushSuccessor (cid : C) {children : List C} (hnd : children.Nodup)
    (reverse : Finmap fun _ : C => List C) (c : C) :
    ((children.foldl (pushSuccessor cid) reverse).lookup c).getD [] =
      if c ∈ children then (reverse.lookup c).getD [] ++ [cid] else (reverse.lookup c).getD [] := by
  induction children generalizing reverse with
  | nil => simp
  | cons child children ih =>
    obtain ⟨hchild, hnd⟩ := List.nodup_cons.mp hnd
    rw [List.foldl_cons, ih hnd]
    by_cases hc : c = child
    · subst hc
      simp [pushSuccessor, hchild, Finmap.lookup_insert]
    · simp [pushSuccessor, hc, Finmap.lookup_insert_of_ne _ hc]

theorem getD_foldl_successors (c : C) :
    ∀ (l : List (C × DagNode C (CrdtEvent L))) (reverse : Finmap fun _ : C => List C),
      ((l.foldl (fun r e => (e.2.children.sort (· ≤ ·)).foldl (pushSuccessor e.1) r)
        reverse).lookup c).getD [] =
        (reverse.lookup c).getD [] ++ (l.filter fun e => c ∈ e.2.children).map Prod.fst
  | [], _ => by simp
  | e :: l, reverse => by
    rw [List.foldl_cons, getD_foldl_successors c l,
      getD_foldl_pushSuccessor _ (Finset.sort_nodup _ _), List.filter_cons]
    by_cases hc : c ∈ e.2.children
    · simp [hc]
    · simp only [Finset.mem_sort, hc, if_false, decide_false, Bool.false_eq_true]

theorem getD_reverse (nodes : Store C (CrdtEvent L)) (c : C) :
    (((indegreesAndReverse nodes).2.lookup c).getD []) = successorList nodes c := by
  rw [indegreesAndReverse_eq, getD_foldl_successors]
  simp [successorList]

theorem mem_successorList {nodes : Store C (CrdtEvent L)} {c p : C} :
    p ∈ successorList nodes c ↔ ∃ n, nodes.lookup p = some n ∧ c ∈ n.children := by
  simp [successorList]

theorem nodup_successorList (nodes : Store C (CrdtEvent L)) (c : C) :
    (successorList nodes c).Nodup :=
  List.Nodup.sublist (List.Sublist.map _ List.filter_sublist)
    (Finmap.nodup_map_fst_sortedEntries nodes)

end first

/-! ## The main loop -/

/-- What the main loop keeps, against the map `orig` it orders and the entries `emitted` it has
popped so far, in order: the popped CIDs have left the map, each remaining node's count is its
number of children not popped, the queue holds exactly the remaining nodes whose count is zero,
the sorted logs are those of the popped entries, and each popped entry comes after all of its
children. -/
structure OrderInv (orig : Store C (CrdtEvent L)) (emitted : List (C × DagNode C (CrdtEvent L)))
    (s : OrderState C L) : Prop where
  nodes : ∀ x, s.nodes.lookup x = if x ∈ emitted.map Prod.fst then none else orig.lookup x
  emitted_sub : ∀ e ∈ emitted, orig.lookup e.1 = some e.2
  nodup : (emitted.map Prod.fst).Nodup
  degree : ∀ x n, s.nodes.lookup x = some n →
    s.indegree.lookup x = some (n.children.filter (· ∉ emitted.map Prod.fst)).card
  queue_nodup : s.queue.Nodup
  mem_queue : ∀ x, x ∈ s.queue ↔ x ∈ s.nodes ∧ s.indegree.lookup x = some 0
  sorted : s.sorted = emitted.map fun e => e.2.payload.log
  ordered : ∀ i (hi : i < emitted.length), ∀ b ∈ emitted[i].2.children,
    b ∈ (emitted.take i).map Prod.fst

theorem orderInv_start (nodes : Store C (CrdtEvent L)) : OrderInv nodes [] (orderStart nodes) where
  nodes x := by simp [orderStart]
  emitted_sub _ h := absurd h List.not_mem_nil
  nodup := List.nodup_nil
  degree x n h := by
    rw [orderStart, lookup_indegree] at *
    simp [h]
  queue_nodup := List.Nodup.sublist (List.Sublist.map _ List.filter_sublist)
    (Finmap.nodup_map_fst_sortedEntries _)
  mem_queue x := by
    simp only [orderStart, List.mem_map, List.mem_filter, decide_eq_true_eq, lookup_indegree]
    constructor
    · rintro ⟨⟨y, d⟩, ⟨hmem, rfl⟩, rfl⟩
      have hlookup := Finmap.mem_sortedEntries.mp hmem
      rw [lookup_indegree] at hlookup
      obtain ⟨n, hn, -⟩ := Option.map_eq_some_iff.mp hlookup
      exact ⟨Finmap.mem_of_lookup_eq_some hn, hlookup⟩
    · rintro ⟨-, hx⟩
      refine ⟨(x, 0), ⟨Finmap.mem_sortedEntries.mpr ?_, rfl⟩, rfl⟩
      rw [lookup_indegree]
      exact hx
  sorted := rfl
  ordered _ hi := absurd hi (Nat.not_lt_zero _)

section step

variable {orig : Store C (CrdtEvent L)} {emitted : List (C × DagNode C (CrdtEvent L))}
  {s : OrderState C L}

theorem OrderInv.lookup_nodes_eq_some (hs : OrderInv orig emitted s) {x : C}
    {n : DagNode C (CrdtEvent L)} :
    s.nodes.lookup x = some n ↔ x ∉ emitted.map Prod.fst ∧ orig.lookup x = some n := by
  rw [hs.nodes x]
  by_cases hx : x ∈ emitted.map Prod.fst <;> simp [hx]

theorem OrderInv.lookup_of_mem_queue (hs : OrderInv orig emitted s) {x : C} (hx : x ∈ s.queue) :
    ∃ n, s.nodes.lookup x = some n :=
  Finmap.mem_iff.mp ((hs.mem_queue x).mp hx).1

theorem OrderInv.mem_of_child (hs : OrderInv orig emitted s) {e : C × DagNode C (CrdtEvent L)}
    (he : e ∈ emitted) {c : C} (hc : c ∈ e.2.children) : c ∈ emitted.map Prod.fst := by
  obtain ⟨i, hi, rfl⟩ := List.getElem_of_mem he
  exact List.map_subset _ (List.take_subset i emitted) (hs.ordered i hi c hc)

theorem OrderInv.children_emitted (hs : OrderInv orig emitted s) {x : C}
    {n : DagNode C (CrdtEvent L)} (hq : x ∈ s.queue) (hx : s.nodes.lookup x = some n) :
    ∀ c ∈ n.children, c ∈ emitted.map Prod.fst := by
  have h0 := ((hs.mem_queue x).mp hq).2
  rw [hs.degree x n hx] at h0
  have hcard : (n.children.filter (· ∉ emitted.map Prod.fst)).card = 0 :=
    Option.some_injective _ h0
  intro c hc
  by_contra hce
  exact Finset.card_ne_zero_of_mem (Finset.mem_filter.mpr ⟨hc, hce⟩) hcard

theorem OrderInv.successor_pending (hs : OrderInv orig emitted s) {c p : C}
    (hc : c ∉ emitted.map Prod.fst) (hp : p ∈ successorList orig c) :
    ∃ n, s.nodes.lookup p = some n ∧ c ∈ n.children ∧
      s.indegree.lookup p = some (n.children.filter (· ∉ emitted.map Prod.fst)).card ∧
      0 < (n.children.filter (· ∉ emitted.map Prod.fst)).card := by
  obtain ⟨n, hn, hcn⟩ := mem_successorList.mp hp
  have hpe : p ∉ emitted.map Prod.fst := by
    rintro hpe
    obtain ⟨e, he, rfl⟩ := List.mem_map.mp hpe
    have hen : e.2 = n := Option.some_injective _ ((hs.emitted_sub e he).symm.trans hn)
    exact hc (hs.mem_of_child he (hen ▸ hcn))
  have hpn : s.nodes.lookup p = some n := hs.lookup_nodes_eq_some.mpr ⟨hpe, hn⟩
  exact ⟨n, hpn, hcn, hs.degree p n hpn,
    Finset.card_pos.mpr ⟨c, Finset.mem_filter.mpr ⟨hcn, hc⟩⟩⟩

omit [LinearOrder C] in
theorem filter_not_mem_append_singleton [DecidableEq C] (t : Finset C) (l : List C) (c : C) :
    t.filter (· ∉ l ++ [c]) = (t.filter (· ∉ l)).erase c := by
  ext x
  simp only [Finset.mem_filter, Finset.mem_erase, List.mem_append, List.mem_singleton, not_or]
  tauto

/-- **One round of the main loop keeps `OrderInv`, with the popped entry appended.** -/
theorem orderInv_next {reverse : Finmap fun _ : C => List C}
    (hR : ∀ c, (reverse.lookup c).getD [] = successorList orig c) (hs : OrderInv orig emitted s)
    {cid : C} {q : List C} {node : DagNode C (CrdtEvent L)} (hq : s.queue = cid :: q)
    (hx : s.nodes.lookup cid = some node) :
    OrderInv orig (emitted ++ [(cid, node)]) (orderNext reverse s cid q) := by
  have hcq : cid ∈ s.queue := hq ▸ List.mem_cons_self
  obtain ⟨hce, hco⟩ := hs.lookup_nodes_eq_some.mp hx
  have hqnd : cid ∉ q ∧ q.Nodup := List.nodup_cons.mp (hq ▸ hs.queue_nodup)
  have hnd := nodup_successorList orig cid
  have hqueue : (orderNext reverse s cid q).queue =
      q ++ (successorList orig cid).filter fun p => (s.indegree.lookup p).map (· - 1) = some 0 := by
    simp only [orderNext, hR]
    exact foldl_release_fst hnd
  have hdeg : ∀ y, (orderNext reverse s cid q).indegree.lookup y =
      if y ∈ successorList orig cid then (s.indegree.lookup y).map (· - 1)
      else s.indegree.lookup y := by
    intro y
    simp only [orderNext, hR]
    exact lookup_foldl_release_snd hnd y
  -- a queued node names no CID left to pop, so it is no successor of `cid`
  have hqs : ∀ y ∈ s.queue, y ∉ successorList orig cid := fun y hy hys => by
    obtain ⟨n, -, -, hdy, hpos⟩ := hs.successor_pending hce hys
    have h0 := ((hs.mem_queue y).mp hy).2
    rw [hdy] at h0
    have := Option.some_injective _ h0
    omega
  have hemitted : (emitted ++ [(cid, node)]).map Prod.fst = emitted.map Prod.fst ++ [cid] := by
    simp
  constructor
  · intro y
    simp only [orderNext, hemitted, List.mem_append, List.mem_singleton]
    by_cases hyx : y = cid
    · subst hyx
      simp [Finmap.lookup_erase]
    · rw [Finmap.lookup_erase_ne hyx, hs.nodes y]
      exact if_congr (or_iff_left hyx).symm rfl rfl
  · intro e he
    rcases List.mem_append.mp he with he | he
    · exact hs.emitted_sub e he
    · rw [List.mem_singleton] at he
      subst he
      exact hco
  · rw [hemitted]
    exact hs.nodup.append (List.nodup_singleton cid) (List.disjoint_singleton.mpr hce)
  · intro y n hy
    have hyx : y ≠ cid := by
      rintro rfl
      simp [orderNext, Finmap.lookup_erase] at hy
    have hy' : s.nodes.lookup y = some n := by
      rwa [orderNext, Finmap.lookup_erase_ne hyx] at hy
    rw [hdeg y, hemitted, filter_not_mem_append_singleton]
    by_cases hys : y ∈ successorList orig cid
    · obtain ⟨n', hn', hcn, hdy, -⟩ := hs.successor_pending hce hys
      rw [hy'] at hn'
      cases hn'
      rw [if_pos hys, hdy, Finset.card_erase_of_mem (Finset.mem_filter.mpr ⟨hcn, hce⟩)]
      rfl
    · have hcn : cid ∉ n.children := fun h =>
        hys (mem_successorList.mpr ⟨n, (hs.lookup_nodes_eq_some.mp hy').2, h⟩)
      rw [if_neg hys, hs.degree y n hy',
        Finset.erase_eq_of_notMem fun h => hcn (Finset.mem_filter.mp h).1]
  · rw [hqueue]
    refine hqnd.2.append (hnd.filter _) fun p hpq hpf => ?_
    exact hqs p (hq ▸ List.mem_cons_of_mem _ hpq) (List.mem_filter.mp hpf).1
  · intro y
    rw [hqueue, hdeg y, List.mem_append, List.mem_filter, decide_eq_true_eq]
    simp only [orderNext, Finmap.mem_erase]
    constructor
    · rintro (hyq | ⟨hys, hy0⟩)
      · have hyq' : y ∈ s.queue := hq ▸ List.mem_cons_of_mem _ hyq
        have hyx : y ≠ cid := fun h => hqnd.1 (h ▸ hyq)
        rw [if_neg (hqs y hyq')]
        exact ⟨⟨hyx, ((hs.mem_queue y).mp hyq').1⟩, ((hs.mem_queue y).mp hyq').2⟩
      · obtain ⟨n, hn, -⟩ := hs.successor_pending hce hys
        have hyx : y ≠ cid := fun h => hqs cid hcq (h ▸ hys)
        rw [if_pos hys]
        exact ⟨⟨hyx, Finmap.mem_of_lookup_eq_some hn⟩, hy0⟩
    · rintro ⟨⟨hyx, hyn⟩, hy0⟩
      by_cases hys : y ∈ successorList orig cid
      · rw [if_pos hys] at hy0
        exact Or.inr ⟨hys, hy0⟩
      · rw [if_neg hys] at hy0
        have hyq := (hs.mem_queue y).mpr ⟨hyn, hy0⟩
        rw [hq] at hyq
        exact Or.inl ((List.mem_cons.mp hyq).resolve_left hyx)
  · simp [orderNext, hx, hs.sorted]
  · intro i hi b hb
    rcases Nat.lt_or_ge i emitted.length with hil | hil
    · rw [List.getElem_append_left hil] at hb
      rw [List.take_append_of_le_length hil.le]
      exact hs.ordered i hil b hb
    · have hil' : i = emitted.length := by simp at hi; omega
      subst hil'
      rw [List.getElem_append_right (le_refl _)] at hb
      simp only [Nat.sub_self, List.getElem_cons_zero] at hb
      simpa using hs.children_emitted hcq hx b hb

end step

/-! ## The whole loop -/

section run

variable {orig : Store C (CrdtEvent L)} {reverse : Finmap fun _ : C => List C}

theorem orderLoop_nil {fuel : ℕ} {s : OrderState C L} (hq : s.queue = []) :
    orderLoop reverse fuel s = s.sorted := by
  cases fuel with
  | zero => rfl
  | succ fuel => simp [orderLoop, hq]

theorem orderLoop_cons {fuel : ℕ} {s : OrderState C L} {cid : C} {q : List C}
    (hq : s.queue = cid :: q) :
    orderLoop reverse (fuel + 1) s = orderLoop reverse fuel (orderNext reverse s cid q) := by
  simp [orderLoop, hq]

/-- **Given as many rounds as there are nodes left, the main loop ends in a state that keeps
`OrderInv` with an empty queue, and returns its sorted logs.** -/
theorem orderLoop_spec (hR : ∀ c, (reverse.lookup c).getD [] = successorList orig c) (fuel : ℕ) :
    ∀ (emitted : List (C × DagNode C (CrdtEvent L))) (s : OrderState C L),
      OrderInv orig emitted s → s.nodes.keys.card ≤ fuel →
      ∃ emitted' s', OrderInv orig emitted' s' ∧ s'.queue = [] ∧
        orderLoop reverse fuel s = s'.sorted := by
  -- each round removes the popped node from the map
  induction fuel with
  | zero =>
    intro emitted s hs hfuel
    have hq : s.queue = [] := by
      rw [List.eq_nil_iff_forall_not_mem]
      intro x hx
      have hpos := Finset.card_pos.mpr ⟨x, Finmap.mem_keys.mpr ((hs.mem_queue x).mp hx).1⟩
      omega
    exact ⟨emitted, s, hs, hq, orderLoop_nil hq⟩
  | succ fuel ih =>
    intro emitted s hs hfuel
    cases hq : s.queue with
    | nil => exact ⟨emitted, s, hs, hq, orderLoop_nil hq⟩
    | cons cid q =>
      obtain ⟨node, hx⟩ := hs.lookup_of_mem_queue (hq ▸ List.mem_cons_self)
      rw [orderLoop_cons hq]
      refine ih _ _ (orderInv_next hR hs hq hx) ?_
      have hlt := Finset.card_erase_lt_of_mem
        (Finmap.mem_keys.mpr (Finmap.mem_of_lookup_eq_some hx))
      simp only [orderNext, Finmap.keys_erase]
      omega

theorem OrderInv.exists_pending_child {emitted : List (C × DagNode C (CrdtEvent L))}
    {s : OrderState C L} (hs : OrderInv orig emitted s) (hq : s.queue = []) {x : C}
    {n : DagNode C (CrdtEvent L)} (hx : orig.lookup x = some n)
    (hxe : x ∉ emitted.map Prod.fst) : ∃ c ∈ n.children, c ∉ emitted.map Prod.fst := by
  have hxn : s.nodes.lookup x = some n := hs.lookup_nodes_eq_some.mpr ⟨hxe, hx⟩
  by_contra hall
  have h0 : (n.children.filter (· ∉ emitted.map Prod.fst)).card = 0 := by
    rw [Finset.card_eq_zero, Finset.filter_eq_empty_iff]
    exact fun c hc hce => hall ⟨c, hc, hce⟩
  have hxq := (hs.mem_queue x).mpr
    ⟨Finmap.mem_of_lookup_eq_some hxn, by rw [hs.degree x n hxn, h0]⟩
  rw [hq] at hxq
  exact List.not_mem_nil hxq

end run

theorem topologicalOrder_spec (nodes : Store C (CrdtEvent L)) :
    ∃ emitted s, OrderInv nodes emitted s ∧ s.queue = [] ∧ topologicalOrder nodes = s.sorted :=
  orderLoop_spec (getD_reverse nodes) _ _ _ (orderInv_start nodes) le_rfl

/-! ## Replay -/

section replay

variable {table : Finmap fun _ : C => List UInt8}
  {decode : List UInt8 → Option (DagNode C (CrdtEvent L))}

/-- The keys of the popped entries, listed without repetition after their children, are
grounded in the decoded rows. -/
theorem OrderInv.grounded {roots : Finset C} {orig : Store C (CrdtEvent L)}
    (hN : Dag.Restricts (decodedRows table decode) orig
      (Dag.Reach DagNode.children (decodedRows table decode) roots))
    {emitted : List (C × DagNode C (CrdtEvent L))} {s : OrderState C L}
    (hs : OrderInv orig emitted s) {x : C} (hx : x ∈ emitted.map Prod.fst) :
    Dag.Grounded DagNode.children (decodedRows table decode) x := by
  have hG : ∀ e ∈ emitted, (decodedRows table decode).lookup e.1 = some e.2 :=
    fun e he => (hN.lookup_eq_some (hs.emitted_sub e he)).2
  refine Dag.grounded_of_ordered hs.nodup (fun y hy => ?_) (fun i hi b hb => ?_) hx
  · obtain ⟨e, he, rfl⟩ := List.mem_map.mp hy
    exact Finmap.mem_of_lookup_eq_some (hG e he)
  · rw [List.length_map] at hi
    obtain ⟨n, hn, hbn⟩ := hb
    rw [List.getElem_map, hG _ (List.getElem_mem hi)] at hn
    cases hn
    rw [← List.map_take]
    exact hs.ordered i hi b hbn

/-- **Replay applies exactly the grounded events, each after its children**: for every table and
every set of roots, `replayLogs` returns the logs of a list of decoded rows, without repetition,
whose CIDs are exactly those reachable from the roots all of whose descendants are decoded rows on
no cycle, and in which every node comes after all of its children. -/
theorem replayLogs_grounded (table : Finmap fun _ : C => List UInt8)
    (decode : List UInt8 → Option (DagNode C (CrdtEvent L))) (roots : Finset C) :
    ∃ order : List (C × DagNode C (CrdtEvent L)), (order.map Prod.fst).Nodup ∧
      (∀ x, x ∈ order.map Prod.fst ↔
        Dag.Reach DagNode.children (decodedRows table decode) roots x ∧
          Dag.Grounded DagNode.children (decodedRows table decode) x) ∧
      (∀ e ∈ order, (decodedRows table decode).lookup e.1 = some e.2) ∧
      (∀ i (hi : i < order.length), ∀ b ∈ order[i].2.children, b ∈ (order.take i).map Prod.fst) ∧
      replayLogs table decode roots = order.map fun e => e.2.payload.log := by
  have hN := replayWalk_restricts (walkInv_start (decodedRows table decode) roots)
  obtain ⟨emitted, s, hs, hq, heq⟩ :=
    topologicalOrder_spec (replayWalk table decode ∅ (roots.sort (· ≤ ·)).reverse)
  refine ⟨emitted, hs.nodup, fun x => ⟨fun hx => ?_, fun ⟨hreach, hground⟩ => ?_⟩,
    fun e he => (hN.lookup_eq_some (hs.emitted_sub e he)).2, hs.ordered, heq.trans hs.sorted⟩
  · obtain ⟨e, he, rfl⟩ := List.mem_map.mp hx
    exact ⟨(hN.lookup_eq_some (hs.emitted_sub e he)).1, hs.grounded hN hx⟩
  · -- a grounded node left unpopped would name a grounded child left unpopped
    refine Dag.Grounded.induction
      (P := fun y => Dag.Reach DagNode.children (decodedRows table decode) roots y →
        y ∈ emitted.map Prod.fst) (fun y hy ih hyr => ?_) hground hreach
    by_contra hye
    obtain ⟨n, hn⟩ := Finmap.mem_iff.mp hy.mem
    obtain ⟨c, hc, hce⟩ := hs.exists_pending_child hq (((hN y).1 hyr).trans hn) hye
    exact hce (ih c ⟨n, hn, hc⟩ (hyr.tail ⟨n, hn, hc⟩))

end replay

end Vos.Commit
