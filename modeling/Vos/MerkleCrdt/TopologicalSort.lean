import Vos.MerkleCrdt.Node

/-!
# merkle-crdt — `topological_sort`

Kahn's algorithm over a map of nodes, as `sync::topological_sort` runs it: count each node's
children inside the map, list each node's parents inside the map (in ascending order of parent),
queue the nodes with no such child in ascending order, then repeatedly pop the front of the queue,
emit it, and queue each parent whose count drops to zero.

The loop keeps `KahnInv`: the pending nodes and the emitted ones split the map, each pending
node's count is its number of pending children, the queue is exactly the pending nodes with count
zero, and the emitted list is topologically ordered. Hence the output is a duplicate-free,
topologically ordered list of the map's entries, and all of them when the map is acyclic.

* `degreesAndParents`, `release`, `kahnLoop`, `topologicalSort`;
* `KahnInv`, `kahnInv_init`, `kahnInv_step`;
* `topologicalSort_mem`, `topologicalSort_nodup`, `topologicalSort_topoOrdered`,
  `topologicalSort_complete`;
* **`topologicalSort_insert_top`**: a node above all the maximal nodes of an acyclic map is
  emitted last, after the map's own order.
-/

namespace Vos.MerkleCrdt

open Relation

/-- The loop state of `topological_sort`. -/
structure KahnState (C P : Type) where
  queue : List C
  outDegree : Finmap fun _ : C => ℕ
  nodes : Store C P
  result : List (C × DagNode C P)

variable {C P : Type} [LinearOrder C]

/-- Append `cid` to the parent list of `child` when `child` is in the map. -/
def addParent (cidSet : Finset C) (cid : C) (parentsOf : Finmap fun _ : C => List C) (child : C) :
    Finmap fun _ : C => List C :=
  if child ∈ cidSet then parentsOf.insert child (((parentsOf.lookup child).getD []) ++ [cid])
  else parentsOf

/-- The first loop of `topological_sort`: each node's number of children inside the map, and each
node's parents inside the map. -/
def degreesAndParents (nodes : Store C P) :
    (Finmap fun _ : C => ℕ) × (Finmap fun _ : C => List C) :=
  nodes.sortedEntries.foldl (fun acc e =>
    (acc.1.insert e.1 (e.2.children.filter (· ∈ nodes.keys)).card,
     (e.2.children.sort (· ≤ ·)).foldl (addParent nodes.keys e.1) acc.2)) (∅, ∅)

/-- One parent of an emitted node: `*deg -= 1`, queued when it reaches zero. -/
def release (acc : List C × Finmap fun _ : C => ℕ) (parent : C) :
    List C × Finmap fun _ : C => ℕ :=
  match acc.2.lookup parent with
  | none => acc
  | some deg => (if deg - 1 = 0 then acc.1 ++ [parent] else acc.1, acc.2.insert parent (deg - 1))

/-- The main loop: pop the front of the queue, release its parents, and emit it. The `unwrap` of
`nodes.remove` panics on a CID already emitted; the model stops there, and `KahnInv` shows that
this never happens. -/
def kahnLoop (parentsOf : Finmap fun _ : C => List C) (s : KahnState C P) :
    List (C × DagNode C P) :=
  match s.queue with
  | [] => s.result
  | cid :: queue =>
    let released := ((parentsOf.lookup cid).getD []).foldl release (queue, s.outDegree)
    match _hlookup : s.nodes.lookup cid with
    | none => s.result
    | some node =>
      kahnLoop parentsOf { queue := released.1, outDegree := released.2,
                           nodes := s.nodes.erase cid, result := s.result ++ [(cid, node)] }
termination_by s.nodes.keys.card
decreasing_by
  simp only [Finmap.keys_erase]
  exact Finset.card_erase_lt_of_mem (Finmap.mem_keys.mpr (Finmap.mem_of_lookup_eq_some _hlookup))

/-- `sync::topological_sort`. -/
def topologicalSort (nodes : Store C P) : List (C × DagNode C P) :=
  let (outDegree, parentsOf) := degreesAndParents nodes
  let queue := (outDegree.sortedEntries.filter fun e => e.2 = 0).map Prod.fst
  kahnLoop parentsOf { queue, outDegree, nodes, result := [] }

/-! ## The first loop -/

theorem foldl_pair {α β γ : Type} (f : α → γ → α) (g : β → γ → β) (l : List γ) (a : α) (b : β) :
    l.foldl (fun acc e => (f acc.1 e, g acc.2 e)) (a, b) = (l.foldl f a, l.foldl g b) := by
  induction l generalizing a b with
  | nil => rfl
  | cons e l ih => exact ih _ _

/-- A node's children, taken once each, add the node to the parent list of every child inside the
map. -/
theorem getD_foldl_addParent (cidSet : Finset C) (cid : C) {children : List C}
    (hnd : children.Nodup) (parentsOf : Finmap fun _ : C => List C) (c : C) :
    ((children.foldl (addParent cidSet cid) parentsOf).lookup c).getD [] =
      if c ∈ children ∧ c ∈ cidSet then (parentsOf.lookup c).getD [] ++ [cid]
      else (parentsOf.lookup c).getD [] := by
  induction children generalizing parentsOf with
  | nil => simp
  | cons child children ih =>
    obtain ⟨hchild, hnd⟩ := List.nodup_cons.mp hnd
    rw [List.foldl_cons, ih hnd]
    by_cases hc : c = child
    · subst hc
      by_cases hS : c ∈ cidSet <;> simp [addParent, hS, hchild, Finmap.lookup_insert]
    · by_cases hS : child ∈ cidSet <;>
        simp [addParent, hS, hc, Finmap.lookup_insert_of_ne _ hc]

theorem lookup_foldl_insert_of_not_mem {β : Type} (f : C × DagNode C P → β) {x : C} :
    ∀ {l : List (C × DagNode C P)} {m : Finmap fun _ : C => β}, x ∉ l.map Prod.fst →
      (l.foldl (fun m e => m.insert e.1 (f e)) m).lookup x = m.lookup x
  | [], _, _ => rfl
  | e :: l, m, hx => by
    have hxe : x ≠ e.1 := fun h => hx (h ▸ List.mem_cons_self)
    rw [List.foldl_cons, lookup_foldl_insert_of_not_mem f (fun h => hx (List.mem_cons_of_mem _ h)),
      Finmap.lookup_insert_of_ne _ hxe]

theorem lookup_foldl_insert_of_mem {β : Type} (f : C × DagNode C P → β) {x : C}
    {n : DagNode C P} : ∀ {l : List (C × DagNode C P)} {m : Finmap fun _ : C => β},
      (l.map Prod.fst).Nodup → (x, n) ∈ l →
      (l.foldl (fun m e => m.insert e.1 (f e)) m).lookup x = some (f (x, n))
  | e :: l, m, hnd, hx => by
    obtain ⟨he, hnd⟩ := List.nodup_cons.mp hnd
    rw [List.foldl_cons]
    rcases List.mem_cons.mp hx with rfl | hx
    · rw [lookup_foldl_insert_of_not_mem f he, Finmap.lookup_insert]
    · exact lookup_foldl_insert_of_mem f hnd hx

theorem degreesAndParents_eq (nodes : Store C P) :
    degreesAndParents nodes =
      (nodes.sortedEntries.foldl
        (fun m e => m.insert e.1 (e.2.children.filter (· ∈ nodes.keys)).card) ∅,
       nodes.sortedEntries.foldl
        (fun p e => (e.2.children.sort (· ≤ ·)).foldl (addParent nodes.keys e.1) p) ∅) := by
  unfold degreesAndParents
  exact foldl_pair
    (fun (m : Finmap fun _ : C => ℕ) (e : C × DagNode C P) =>
      m.insert e.1 (e.2.children.filter (· ∈ nodes.keys)).card)
    (fun (p : Finmap fun _ : C => List C) (e : C × DagNode C P) =>
      (e.2.children.sort (· ≤ ·)).foldl (addParent nodes.keys e.1) p) _ _ _

theorem lookup_outDegree {nodes : Store C P} {x : C} {n : DagNode C P}
    (h : nodes.lookup x = some n) :
    (degreesAndParents nodes).1.lookup x = some (n.children.filter (· ∈ nodes.keys)).card := by
  rw [degreesAndParents_eq]
  exact lookup_foldl_insert_of_mem (fun e => (e.2.children.filter (· ∈ nodes.keys)).card)
    (Finmap.nodup_map_fst_sortedEntries nodes) (Finmap.mem_sortedEntries.mpr h)

theorem lookup_outDegree_of_not_mem {nodes : Store C P} {x : C} (h : x ∉ nodes) :
    (degreesAndParents nodes).1.lookup x = none := by
  rw [degreesAndParents_eq, lookup_foldl_insert_of_not_mem, Finmap.lookup_empty]
  rw [Finmap.map_fst_sortedEntries, Finset.mem_sort, Finmap.mem_keys]
  exact h

/-- The parent list of `c`: the entries that name `c`, in ascending order, when `c` is in the map. -/
def parentList (orig : Store C P) (c : C) : List C :=
  (orig.sortedEntries.filter fun e => c ∈ e.2.children ∧ c ∈ orig.keys).map Prod.fst

theorem getD_foldl_parents (nodes : Store C P) (c : C) :
    ∀ (l : List (C × DagNode C P)) (p : Finmap fun _ : C => List C),
      ((l.foldl (fun p e => (e.2.children.sort (· ≤ ·)).foldl (addParent nodes.keys e.1) p)
        p).lookup c).getD [] =
        (p.lookup c).getD [] ++ (l.filter fun e => c ∈ e.2.children ∧ c ∈ nodes.keys).map Prod.fst
  | [], p => by simp
  | e :: l, p => by
    rw [List.foldl_cons, getD_foldl_parents nodes c l,
      getD_foldl_addParent _ _ (Finset.sort_nodup _ _), List.filter_cons]
    by_cases hc : c ∈ e.2.children ∧ c ∈ nodes.keys
    · simp [hc]
    · simp only [Finset.mem_sort, hc, if_false, decide_false, Bool.false_eq_true]

theorem getD_parentsOf (nodes : Store C P) (c : C) :
    ((degreesAndParents nodes).2.lookup c).getD [] = parentList nodes c := by
  rw [degreesAndParents_eq, getD_foldl_parents]
  simp [parentList]

theorem mem_parentList {orig : Store C P} {c p : C} :
    p ∈ parentList orig c ↔ ∃ n, orig.lookup p = some n ∧ c ∈ n.children ∧ c ∈ orig := by
  simp [parentList, Finmap.mem_keys]

theorem nodup_parentList (orig : Store C P) (c : C) : (parentList orig c).Nodup :=
  List.Nodup.sublist (List.Sublist.map _ List.filter_sublist)
    (Finmap.nodup_map_fst_sortedEntries orig)

/-! ## Releasing the parents of an emitted node -/

theorem release_of_none {q : List C} {deg : Finmap fun _ : C => ℕ} {p : C}
    (h : deg.lookup p = none) : release (q, deg) p = (q, deg) := by
  simp [release, h]

theorem release_of_some {q : List C} {deg : Finmap fun _ : C => ℕ} {p : C} {k : ℕ}
    (h : deg.lookup p = some k) :
    release (q, deg) p = (if k - 1 = 0 then q ++ [p] else q, deg.insert p (k - 1)) := by
  simp [release, h]

theorem foldl_release_fst : ∀ {parents : List C} {q : List C} {deg : Finmap fun _ : C => ℕ},
    parents.Nodup →
      (parents.foldl release (q, deg)).1 =
        q ++ parents.filter fun p => (deg.lookup p).map (· - 1) = some 0
  | [], _, _, _ => by simp
  | p :: ps, q, deg, hnd => by
    obtain ⟨hp, hnd⟩ := List.nodup_cons.mp hnd
    rw [List.foldl_cons, List.filter_cons]
    cases hd : deg.lookup p with
    | none =>
      rw [release_of_none hd, foldl_release_fst hnd]
      simp
    | some k =>
      rw [release_of_some hd, foldl_release_fst hnd]
      -- the other parents read the degrees as they were
      have hcongr : (ps.filter fun p' => ((deg.insert p (k - 1)).lookup p').map (· - 1) = some 0) =
          ps.filter fun p' => (deg.lookup p').map (· - 1) = some 0 := by
        apply List.filter_congr
        intro p' hp'
        have hne : p' ≠ p := fun h => hp (h ▸ hp')
        rw [Finmap.lookup_insert_of_ne _ hne]
      rw [hcongr]
      by_cases hk : k - 1 = 0 <;> simp [hk]

theorem lookup_foldl_release_snd : ∀ {parents : List C} {q : List C}
    {deg : Finmap fun _ : C => ℕ}, parents.Nodup → ∀ y,
      (parents.foldl release (q, deg)).2.lookup y =
        if y ∈ parents then (deg.lookup y).map (· - 1) else deg.lookup y
  | [], _, _, _, y => by simp
  | p :: ps, q, deg, hnd, y => by
    obtain ⟨hp, hnd⟩ := List.nodup_cons.mp hnd
    rw [List.foldl_cons]
    cases hd : deg.lookup p with
    | none =>
      rw [release_of_none hd, lookup_foldl_release_snd hnd]
      by_cases hy : y = p
      · subst hy; simp [hp, hd]
      · simp [hy]
    | some k =>
      rw [release_of_some hd, lookup_foldl_release_snd hnd]
      by_cases hy : y = p
      · subst hy; simp [hp, hd, Finmap.lookup_insert]
      · simp [hy, Finmap.lookup_insert_of_ne _ hy]

/-! ## The loop invariant -/

/-- The children of `n` still pending in `nodes`. -/
def pendingChildren (nodes : Store C P) (n : DagNode C P) : Finset C :=
  n.children.filter (· ∈ nodes.keys)

/-- What the main loop keeps, against the map `orig` being sorted: the pending nodes and the
emitted ones split `orig`, each pending node's count is its number of pending children, the queue
holds exactly the pending nodes whose count is zero, and the emitted list is topologically
ordered. -/
structure KahnInv (orig : Store C P) (s : KahnState C P) : Prop where
  nodes_sub : ∀ x n, s.nodes.lookup x = some n → orig.lookup x = some n
  result_sub : ∀ e ∈ s.result, orig.lookup e.1 = some e.2
  covers : ∀ x ∈ orig, x ∈ s.nodes ∨ x ∈ s.result.map Prod.fst
  disjoint : ∀ x ∈ s.result.map Prod.fst, x ∉ s.nodes
  nodup : (s.result.map Prod.fst).Nodup
  degree : ∀ x n, s.nodes.lookup x = some n →
    s.outDegree.lookup x = some (pendingChildren s.nodes n).card
  queue_nodup : s.queue.Nodup
  mem_queue : ∀ x, x ∈ s.queue ↔ x ∈ s.nodes ∧ s.outDegree.lookup x = some 0
  ordered : Dag.TopoOrdered DagNode.children orig s.result

/-- The state the main loop starts from. -/
def kahnStart (nodes : Store C P) : KahnState C P :=
  { queue := ((degreesAndParents nodes).1.sortedEntries.filter fun e => e.2 = 0).map Prod.fst,
    outDegree := (degreesAndParents nodes).1, nodes, result := [] }

theorem topologicalSort_eq (nodes : Store C P) :
    topologicalSort nodes = kahnLoop (degreesAndParents nodes).2 (kahnStart nodes) := rfl

theorem kahnInv_start (nodes : Store C P) : KahnInv nodes (kahnStart nodes) where
  nodes_sub _ _ h := h
  result_sub _ h := absurd h List.not_mem_nil
  covers _ h := Or.inl h
  disjoint _ h := absurd h List.not_mem_nil
  nodup := List.nodup_nil
  degree _ _ h := lookup_outDegree h
  queue_nodup := List.Nodup.sublist (List.Sublist.map _ List.filter_sublist)
    (Finmap.nodup_map_fst_sortedEntries _)
  mem_queue x := by
    simp only [kahnStart, List.mem_map, List.mem_filter, decide_eq_true_eq]
    constructor
    · rintro ⟨⟨y, d⟩, ⟨hmem, rfl⟩, rfl⟩
      have hlookup := Finmap.mem_sortedEntries.mp hmem
      refine ⟨?_, hlookup⟩
      by_contra hx
      rw [lookup_outDegree_of_not_mem hx] at hlookup
      cases hlookup
    · rintro ⟨-, hx⟩
      exact ⟨(x, 0), ⟨Finmap.mem_sortedEntries.mpr hx, rfl⟩, rfl⟩
  ordered := Dag.topoOrdered_nil _

section step

variable {orig : Store C P} {s : KahnState C P}

theorem KahnInv.lookup_of_mem_queue (hs : KahnInv orig s) {x : C} (hx : x ∈ s.queue) :
    ∃ n, s.nodes.lookup x = some n :=
  Finmap.mem_iff.mp ((hs.mem_queue x).mp hx).1

theorem KahnInv.pendingChildren_eq_zero (hs : KahnInv orig s) {x : C} {n : DagNode C P}
    (hq : x ∈ s.queue) (hx : s.nodes.lookup x = some n) : (pendingChildren s.nodes n).card = 0 := by
  have h0 := ((hs.mem_queue x).mp hq).2
  rw [hs.degree x n hx] at h0
  exact Option.some_injective _ h0

theorem KahnInv.parent_pending (hs : KahnInv orig s) {x p : C} (hx : x ∈ s.nodes)
    (hp : p ∈ parentList orig x) : ∃ n, s.nodes.lookup p = some n ∧ x ∈ n.children := by
  obtain ⟨n, hn, hxn, -⟩ := mem_parentList.mp hp
  rcases hs.covers p (Finmap.mem_of_lookup_eq_some hn) with hpn | hpr
  · obtain ⟨n', hn'⟩ := Finmap.mem_iff.mp hpn
    have : n' = n := Option.some_injective _ ((hs.nodes_sub p n' hn').symm.trans hn)
    exact ⟨n', hn', this ▸ hxn⟩
  · -- an emitted parent would have emitted `x` before it
    obtain ⟨⟨p', n'⟩, hmem, rfl⟩ := List.mem_map.mp hpr
    have hn' : n' = n := Option.some_injective _ ((hs.result_sub _ hmem).symm.trans hn)
    have hxr := hs.ordered.mem_of_mem hmem (hn' ▸ hxn)
      (Finmap.mem_of_lookup_eq_some (hs.nodes_sub _ _ (Finmap.mem_iff.mp hx).choose_spec))
    exact absurd hx (hs.disjoint x hxr)

theorem KahnInv.degree_parent (hs : KahnInv orig s) {x p : C} (hx : x ∈ s.nodes)
    (hp : p ∈ parentList orig x) :
    ∃ n, s.nodes.lookup p = some n ∧ x ∈ n.children ∧
      s.outDegree.lookup p = some (pendingChildren s.nodes n).card ∧
      0 < (pendingChildren s.nodes n).card := by
  obtain ⟨n, hn, hxn⟩ := hs.parent_pending hx hp
  refine ⟨n, hn, hxn, hs.degree p n hn, Finset.card_pos.mpr ⟨x, ?_⟩⟩
  exact Finset.mem_filter.mpr ⟨hxn, Finmap.mem_keys.mpr hx⟩

theorem pendingChildren_erase {nodes : Store C P} {n : DagNode C P} {x : C} :
    pendingChildren (nodes.erase x) n = (pendingChildren nodes n).erase x := by
  ext c
  simp [pendingChildren, Finmap.keys_erase, and_left_comm]

/-- The state after one round of the main loop. -/
def kahnNext (parentsOf : Finmap fun _ : C => List C) (s : KahnState C P) (x : C) (q : List C)
    (node : DagNode C P) : KahnState C P :=
  let released := ((parentsOf.lookup x).getD []).foldl release (q, s.outDegree)
  { queue := released.1, outDegree := released.2, nodes := s.nodes.erase x,
    result := s.result ++ [(x, node)] }

theorem kahnLoop_cons {parentsOf : Finmap fun _ : C => List C} {x : C} {q : List C}
    {node : DagNode C P} (hq : s.queue = x :: q) (hx : s.nodes.lookup x = some node) :
    kahnLoop parentsOf s = kahnLoop parentsOf (kahnNext parentsOf s x q node) := by
  rw [kahnLoop]
  split
  · rename_i h; rw [hq] at h; cases h
  · rename_i x' q' h
    rw [hq] at h
    obtain ⟨rfl, rfl⟩ := List.cons.inj h
    split
    · rename_i h'; rw [hx] at h'; cases h'
    · rename_i node' h'
      rw [hx] at h'
      cases h'
      rfl

theorem kahnLoop_nil {parentsOf : Finmap fun _ : C => List C} (hq : s.queue = []) :
    kahnLoop parentsOf s = s.result := by
  rw [kahnLoop]
  split
  · rfl
  · rename_i h; rw [hq] at h; cases h

/-- **One round of the main loop keeps `KahnInv`.** -/
theorem kahnInv_next {parentsOf : Finmap fun _ : C => List C}
    (hP : ∀ c, (parentsOf.lookup c).getD [] = parentList orig c) (hs : KahnInv orig s) {x : C}
    {q : List C} {node : DagNode C P} (hq : s.queue = x :: q) (hx : s.nodes.lookup x = some node) :
    KahnInv orig (kahnNext parentsOf s x q node) := by
  have hxq : x ∈ s.queue := hq ▸ List.mem_cons_self
  have hxn : x ∈ s.nodes := Finmap.mem_of_lookup_eq_some hx
  have hqnd : x ∉ q ∧ q.Nodup := List.nodup_cons.mp (hq ▸ hs.queue_nodup)
  have hnd := nodup_parentList orig x
  have hqueue : (kahnNext parentsOf s x q node).queue =
      q ++ (parentList orig x).filter fun p => (s.outDegree.lookup p).map (· - 1) = some 0 := by
    simp only [kahnNext, hP]
    exact foldl_release_fst hnd
  have hdeg : ∀ y, (kahnNext parentsOf s x q node).outDegree.lookup y =
      if y ∈ parentList orig x then (s.outDegree.lookup y).map (· - 1) else s.outDegree.lookup y := by
    intro y
    simp only [kahnNext, hP]
    exact lookup_foldl_release_snd hnd y
  have hzero := hs.pendingChildren_eq_zero hxq hx
  -- a node with no pending child is not its own parent
  have hxps : x ∉ parentList orig x := fun h => by
    obtain ⟨n, hn, -, -, hpos⟩ := hs.degree_parent hxn h
    rw [hx] at hn; cases hn; omega
  -- a queued node is no parent of a pending node
  have hqps : ∀ y ∈ s.queue, y ∉ parentList orig x := fun y hy hyp => by
    obtain ⟨n, hn, -, hdy, hpos⟩ := hs.degree_parent hxn hyp
    have h0 := ((hs.mem_queue y).mp hy).2
    rw [hdy] at h0
    have := Option.some_injective _ h0
    omega
  constructor
  · intro y n hy
    have hyx : y ≠ x := by
      rintro rfl
      simp [kahnNext, Finmap.lookup_erase] at hy
    rw [kahnNext, Finmap.lookup_erase_ne hyx] at hy
    exact hs.nodes_sub y n hy
  · intro e he
    rcases List.mem_append.mp he with he | he
    · exact hs.result_sub e he
    · rw [List.mem_singleton] at he
      subst he
      exact hs.nodes_sub x node hx
  · intro y hy
    rcases hs.covers y hy with h | h
    · by_cases hyx : y = x
      · right; simp [kahnNext, hyx]
      · left; exact Finmap.mem_erase.mpr ⟨hyx, h⟩
    · right; simp [kahnNext, h]
  · intro y hy hyn
    obtain ⟨hyx, hyn⟩ := Finmap.mem_erase.mp hyn
    simp only [kahnNext, List.map_append, List.map_singleton, List.mem_append,
      List.mem_singleton] at hy
    rcases hy with hy | rfl
    · exact hs.disjoint y hy hyn
    · exact hyx rfl
  · simp only [kahnNext, List.map_append, List.map_singleton]
    exact hs.nodup.append (List.nodup_singleton x)
      (List.disjoint_singleton.mpr fun h => hs.disjoint x h hxn)
  · intro y n hy
    have hyx : y ≠ x := by
      rintro rfl
      simp [kahnNext, Finmap.lookup_erase] at hy
    have hy' : s.nodes.lookup y = some n := by rwa [kahnNext, Finmap.lookup_erase_ne hyx] at hy
    rw [hdeg y]
    simp only [kahnNext, pendingChildren_erase]
    by_cases hyp : y ∈ parentList orig x
    · obtain ⟨n', hn', hxn', hdy, hpos⟩ := hs.degree_parent hxn hyp
      rw [hy'] at hn'; cases hn'
      have hxp : x ∈ pendingChildren s.nodes n :=
        Finset.mem_filter.mpr ⟨hxn', Finmap.mem_keys.mpr hxn⟩
      rw [if_pos hyp, hdy, Finset.card_erase_of_mem hxp]
      rfl
    · have hxc : x ∉ n.children := fun h => hyp (mem_parentList.mpr
        ⟨n, hs.nodes_sub y n hy', h, Finmap.mem_of_lookup_eq_some (hs.nodes_sub x node hx)⟩)
      have hxp : x ∉ pendingChildren s.nodes n := fun h => hxc (Finset.mem_filter.mp h).1
      rw [if_neg hyp, hs.degree y n hy', Finset.erase_eq_of_notMem hxp]
  · rw [hqueue]
    refine hqnd.2.append (hnd.filter _) fun p hpq hpf => ?_
    exact hqps p (hq ▸ List.mem_cons_of_mem _ hpq) (List.mem_filter.mp hpf).1
  · intro y
    rw [hqueue, hdeg y, List.mem_append, List.mem_filter, decide_eq_true_eq]
    simp only [kahnNext, Finmap.mem_erase]
    constructor
    · rintro (hyq | ⟨hyps, hy0⟩)
      · have hyq' : y ∈ s.queue := hq ▸ List.mem_cons_of_mem _ hyq
        have hyx : y ≠ x := fun h => hqnd.1 (h ▸ hyq)
        rw [if_neg (hqps y hyq')]
        exact ⟨⟨hyx, ((hs.mem_queue y).mp hyq').1⟩, ((hs.mem_queue y).mp hyq').2⟩
      · obtain ⟨n, hn, -⟩ := hs.parent_pending hxn hyps
        have hyx : y ≠ x := fun h => hxps (h ▸ hyps)
        rw [if_pos hyps]
        exact ⟨⟨hyx, Finmap.mem_of_lookup_eq_some hn⟩, hy0⟩
    · rintro ⟨⟨hyx, hyn⟩, hy0⟩
      by_cases hyps : y ∈ parentList orig x
      · rw [if_pos hyps] at hy0
        exact Or.inr ⟨hyps, hy0⟩
      · rw [if_neg hyps] at hy0
        have hyq := (hs.mem_queue y).mpr ⟨hyn, hy0⟩
        rw [hq] at hyq
        exact Or.inl ((List.mem_cons.mp hyq).resolve_left hyx)
  · refine hs.ordered.append_singleton fun b hb hbo => ?_
    have hbp : b ∉ pendingChildren s.nodes node := by
      rw [Finset.card_eq_zero.mp hzero]
      exact Finset.notMem_empty b
    rcases hs.covers b hbo with hbn | hbr
    · exact absurd (Finset.mem_filter.mpr ⟨hb, Finmap.mem_keys.mpr hbn⟩) hbp
    · exact hbr

end step

/-! ## The whole loop -/

section run

variable {orig : Store C P} {s : KahnState C P} {parentsOf : Finmap fun _ : C => List C}

/-- **The main loop ends in a state that keeps `KahnInv` with an empty queue, and returns its
emitted list.** -/
theorem kahnLoop_spec (hP : ∀ c, (parentsOf.lookup c).getD [] = parentList orig c)
    (s : KahnState C P) (hs : KahnInv orig s) :
    ∃ s', KahnInv orig s' ∧ s'.queue = [] ∧ kahnLoop parentsOf s = s'.result := by
  -- induction on the number of pending nodes, which each round lowers by one
  induction hcard : s.nodes.keys.card using Nat.strong_induction_on generalizing s with
  | _ m ih =>
    cases hq : s.queue with
    | nil => exact ⟨s, hs, hq, kahnLoop_nil hq⟩
    | cons x q =>
      obtain ⟨node, hx⟩ := hs.lookup_of_mem_queue (hq ▸ List.mem_cons_self)
      rw [kahnLoop_cons hq hx]
      refine ih _ ?_ _ (kahnInv_next hP hs hq hx) rfl
      rw [← hcard]
      simp only [kahnNext, Finmap.keys_erase]
      exact Finset.card_erase_lt_of_mem (Finmap.mem_keys.mpr (Finmap.mem_of_lookup_eq_some hx))

/-- In an acyclic map the loop stops only once every node is emitted: a pending node of least
rank has no pending child, so it is queued. -/
theorem KahnInv.not_mem_nodes (hs : KahnInv orig s) (hacyc : Dag.Acyclic DagNode.children orig)
    (hq : s.queue = []) (x : C) : x ∉ s.nodes := by
  intro hx
  obtain ⟨rank, hrank⟩ := hacyc
  obtain ⟨y, hy, hmin⟩ := s.nodes.keys.exists_min_image rank ⟨x, Finmap.mem_keys.mpr hx⟩
  obtain ⟨n, hn⟩ := Finmap.mem_iff.mp (Finmap.mem_keys.mp hy)
  have hzero : pendingChildren s.nodes n = ∅ := by
    refine Finset.eq_empty_of_forall_notMem fun c hc => ?_
    obtain ⟨hcn, hck⟩ := Finset.mem_filter.mp hc
    have hlt := hrank y c ⟨n, hs.nodes_sub y n hn, hcn⟩
    exact absurd (hmin c hck) (not_le.mpr hlt)
  have hyq := (hs.mem_queue y).mpr ⟨Finmap.mem_keys.mp hy, by rw [hs.degree y n hn, hzero]; rfl⟩
  rw [hq] at hyq
  exact List.not_mem_nil hyq

theorem KahnInv.emitted_of_reach (hs : KahnInv orig s) (hclosed : Dag.Closed DagNode.children orig)
    {c x : C} (hc : c ∈ s.result.map Prod.fst)
    (hcx : ReflTransGen (Dag.Edge DagNode.children orig) c x) : x ∈ s.result.map Prod.fst := by
  induction hcx with
  | refl => exact hc
  | tail _ hyz ih =>
    obtain ⟨⟨y, n⟩, hmem, rfl⟩ := List.mem_map.mp ih
    obtain ⟨n', hn', hz⟩ := hyz
    have hnn : n = n' := Option.some_injective _ ((hs.result_sub _ hmem).symm.trans hn')
    exact hs.ordered.mem_of_mem hmem (hnn ▸ hz) (hclosed _ _ ⟨n', hn', hz⟩)

end run

theorem topologicalSort_spec (nodes : Store C P) :
    ∃ s, KahnInv nodes s ∧ s.queue = [] ∧ topologicalSort nodes = s.result := by
  rw [topologicalSort_eq]
  exact kahnLoop_spec (getD_parentsOf nodes) _ (kahnInv_start nodes)

theorem lookup_of_mem_topologicalSort {nodes : Store C P} {e : C × DagNode C P}
    (he : e ∈ topologicalSort nodes) : nodes.lookup e.1 = some e.2 := by
  obtain ⟨s, hs, -, heq⟩ := topologicalSort_spec nodes
  rw [heq] at he
  exact hs.result_sub e he

theorem nodup_topologicalSort (nodes : Store C P) : ((topologicalSort nodes).map Prod.fst).Nodup := by
  obtain ⟨s, hs, -, heq⟩ := topologicalSort_spec nodes
  rw [heq]
  exact hs.nodup

theorem topoOrdered_topologicalSort (nodes : Store C P) :
    Dag.TopoOrdered DagNode.children nodes (topologicalSort nodes) := by
  obtain ⟨s, hs, -, heq⟩ := topologicalSort_spec nodes
  rw [heq]
  exact hs.ordered

theorem edge_pendingChildren {nodes : Store C P} {a b : C} :
    Dag.Edge (pendingChildren nodes) nodes a b ↔ Dag.Edge DagNode.children nodes a b ∧ b ∈ nodes := by
  simp only [Dag.Edge, pendingChildren, Finset.mem_filter, Finmap.mem_keys]
  constructor
  · rintro ⟨n, hn, hb, hbm⟩
    exact ⟨⟨n, hn, hb⟩, hbm⟩
  · rintro ⟨⟨n, hn, hb⟩, hbm⟩
    exact ⟨n, hn, hb, hbm⟩

/-- **`topologicalSort` emits exactly the grounded nodes of the map**: those from which no cycle
inside the map is reachable. -/
theorem mem_topologicalSort_iff {nodes : Store C P} {x : C} :
    x ∈ (topologicalSort nodes).map Prod.fst ↔ Dag.Grounded (pendingChildren nodes) nodes x := by
  obtain ⟨s, hs, hq, heq⟩ := topologicalSort_spec nodes
  rw [heq]
  constructor
  · intro hx
    refine Dag.grounded_of_ordered hs.nodup (fun y hy => ?_) (fun i hi b hb => ?_) hx
    · obtain ⟨e, he, rfl⟩ := List.mem_map.mp hy
      exact Finmap.mem_of_lookup_eq_some (hs.result_sub e he)
    · rw [List.length_map] at hi
      obtain ⟨⟨n, hn, hbn⟩, hbm⟩ := edge_pendingChildren.mp hb
      rw [List.getElem_map, hs.result_sub _ (List.getElem_mem hi)] at hn
      cases hn
      rw [← List.map_take]
      exact hs.ordered i hi b hbn hbm
  · -- a grounded node left pending would have a pending child, grounded too
    intro hx
    refine Dag.Grounded.induction (P := fun y => y ∈ s.result.map Prod.fst)
      (fun y hy ih => ?_) hx
    rcases hs.covers y hy.mem with hyn | hyr
    · obtain ⟨n, hn⟩ := Finmap.mem_iff.mp hyn
      have hpos : (pendingChildren s.nodes n).Nonempty := by
        rw [← Finset.card_pos, Nat.pos_iff_ne_zero]
        intro h0
        have hyq := (hs.mem_queue y).mpr ⟨hyn, by rw [hs.degree y n hn, h0]⟩
        rw [hq] at hyq
        exact List.not_mem_nil hyq
      obtain ⟨c, hc⟩ := hpos
      obtain ⟨hcn, hcs⟩ := Finset.mem_filter.mp hc
      have hcs' : c ∈ s.nodes := Finmap.mem_keys.mp hcs
      have hcm : c ∈ nodes := Finmap.mem_of_lookup_eq_some
        (hs.nodes_sub c _ (Finmap.mem_iff.mp hcs').choose_spec)
      have hcr := ih c (edge_pendingChildren.mpr ⟨⟨n, hs.nodes_sub y n hn, hcn⟩, hcm⟩)
      exact absurd hcs' (hs.disjoint c hcr)
    · exact hyr

theorem grounded_of_not_transGen {nodes : Store C P}
    (hcyc : ∀ y ∈ nodes, ¬ Relation.TransGen nodes.Edge y y) {x : C} (hx : x ∈ nodes) :
    Dag.Grounded (pendingChildren nodes) nodes x := by
  intro y hy
  -- `y` is `x` or the end of a counted edge, which stays inside the map
  have hym : y ∈ nodes := by
    rcases Relation.reflTransGen_iff_eq_or_transGen.mp hy with rfl | hy
    · exact hx
    · obtain ⟨b, -, hb⟩ := Relation.TransGen.tail'_iff.mp hy
      exact (edge_pendingChildren.mp hb).2
  refine ⟨hym, fun hyy => hcyc y hym ?_⟩
  exact Relation.TransGen.mono (fun a b hab => (edge_pendingChildren.mp hab).1) y y hyy

/-- **On a map without cycles, `topologicalSort` emits exactly the entries of the map.** -/
theorem mem_topologicalSort_iff_lookup {nodes : Store C P}
    (hcyc : ∀ y ∈ nodes, ¬ Relation.TransGen nodes.Edge y y) {e : C × DagNode C P} :
    e ∈ topologicalSort nodes ↔ nodes.lookup e.1 = some e.2 := by
  refine ⟨lookup_of_mem_topologicalSort, fun he => ?_⟩
  have hx : e.1 ∈ (topologicalSort nodes).map Prod.fst :=
    mem_topologicalSort_iff.mpr (grounded_of_not_transGen hcyc (Finmap.mem_of_lookup_eq_some he))
  obtain ⟨e', he', hfst⟩ := List.mem_map.mp hx
  have hlookup := lookup_of_mem_topologicalSort he'
  rw [hfst, he] at hlookup
  have hsnd : e'.2 = e.2 := (Option.some.inj hlookup).symm
  rwa [← Prod.ext hfst hsnd]

/-! ## A node above the maximal nodes

`MerkleCrdt::apply` stores a node whose children are the current roots. Sorting the reachable
nodes together with it runs the loop over the old nodes unchanged, with the new node waiting on
its children, the roots; once the last root is emitted everything older is emitted, and the new
node comes last. -/

section top

variable {M : Store C P} {k : C} {N : DagNode C P}

/-- How the run over `M.insert k N` tracks the run over `M` while `N` waits for its children. -/
structure KahnSim (k : C) (N : DagNode C P) (s s' : KahnState C P) : Prop where
  nodes_eq : s'.nodes = s.nodes.insert k N
  result_eq : s'.result = s.result
  degree_eq : ∀ y, y ≠ k → s'.outDegree.lookup y = s.outDegree.lookup y
  degree_top : s'.outDegree.lookup k = some (pendingChildren s.nodes N).card
  queue_eq : s'.queue = if (pendingChildren s.nodes N).card = 0 then s.queue ++ [k] else s.queue

theorem mem_parentEntries {orig : Store C P} {c : C} {e : C × DagNode C P} :
    e ∈ orig.sortedEntries.filter (fun e => c ∈ e.2.children ∧ c ∈ orig.keys) ↔
      orig.lookup e.1 = some e.2 ∧ c ∈ e.2.children ∧ c ∈ orig := by
  rw [List.mem_filter, Finmap.mem_sortedEntries, decide_eq_true_eq, Finmap.mem_keys]

theorem pairwise_parentEntries (orig : Store C P) (c : C) :
    (orig.sortedEntries.filter fun e => c ∈ e.2.children ∧ c ∈ orig.keys).Pairwise
      fun a b => a.1 < b.1 :=
  (Finmap.pairwise_sortedEntries orig).sublist List.filter_sublist

theorem parentList_insert_of_mem (hroots : ∀ c ∈ N.children, c ∈ M)
    (hnopar : ∀ c ∈ N.children, ∀ y n, M.lookup y = some n → c ∉ n.children) {c : C}
    (hc : c ∈ N.children) : parentList (M.insert k N) c = [k] := by
  have hentries : (M.insert k N).sortedEntries.filter
      (fun e => c ∈ e.2.children ∧ c ∈ (M.insert k N).keys) = [(k, N)] := by
    refine Finmap.eq_of_pairwise_fst_lt (pairwise_parentEntries _ c) (List.pairwise_singleton _ _)
      fun e => ?_
    rw [mem_parentEntries, List.mem_singleton]
    constructor
    · rintro ⟨he, hce, -⟩
      by_cases hek : e.1 = k
      · rw [hek, Finmap.lookup_insert] at he
        exact Prod.ext hek (Option.some_injective _ he).symm
      · rw [Finmap.lookup_insert_of_ne _ hek] at he
        exact absurd hce (hnopar c hc e.1 e.2 he)
    · rintro rfl
      exact ⟨Finmap.lookup_insert _, hc, Finmap.mem_insert.mpr (Or.inr (hroots c hc))⟩
  rw [parentList, hentries]
  rfl

theorem parentList_insert_of_not_mem (hclosed : Dag.Closed DagNode.children M) (hk : k ∉ M)
    {c : C} (hc : c ∉ N.children) : parentList (M.insert k N) c = parentList M c := by
  unfold parentList
  congr 1
  refine Finmap.eq_of_pairwise_fst_lt (pairwise_parentEntries _ c) (pairwise_parentEntries _ c)
    fun e => ?_
  rw [mem_parentEntries, mem_parentEntries]
  by_cases hek : e.1 = k
  · rw [hek, Finmap.lookup_insert, Finmap.lookup_eq_none.mpr hk]
    constructor
    · rintro ⟨he, hce, -⟩
      exact absurd (Option.some_injective _ he ▸ hce) hc
    · rintro ⟨he, -⟩
      cases he
  · rw [Finmap.lookup_insert_of_ne _ hek]
    constructor
    · rintro ⟨he, hce, -⟩
      exact ⟨he, hce, hclosed _ _ ⟨_, he, hce⟩⟩
    · rintro ⟨he, hce, hcm⟩
      exact ⟨he, hce, Finmap.mem_insert.mpr (Or.inr hcm)⟩

theorem outDegree_count {orig : Store C P} (hcl : Dag.Closed DagNode.children orig) {y : C}
    {n : DagNode C P} (hy : orig.lookup y = some n) {keys : Finset C} (hsub : orig.keys ⊆ keys) :
    (n.children.filter (· ∈ keys)).card = n.children.card := by
  rw [Finset.filter_true_of_mem fun c hc => hsub (Finmap.mem_keys.mpr (hcl y c ⟨n, hy, hc⟩))]

theorem kahnSim_start (hclosed : Dag.Closed DagNode.children M) (hk : k ∉ M)
    (hroots : ∀ c ∈ N.children, c ∈ M)
    (hcover : ∀ x ∈ M, ∃ c ∈ N.children, ReflTransGen (Dag.Edge DagNode.children M) c x) :
    KahnSim k N (kahnStart M) (kahnStart (M.insert k N)) := by
  have hsub : M.keys ⊆ (M.insert k N).keys := fun x hx =>
    Finmap.mem_keys.mpr (Finmap.mem_insert.mpr (Or.inr (Finmap.mem_keys.mp hx)))
  have hclosed' : Dag.Closed DagNode.children (M.insert k N) := Dag.closed_insert hclosed hroots
  have hcount : (pendingChildren M N).card = N.children.card := by
    rw [pendingChildren, Finset.filter_true_of_mem fun c hc => Finmap.mem_keys.mpr (hroots c hc)]
  -- the counts of `M.insert k N` agree with those of `M` away from `k`
  have hdeg : ∀ y, y ≠ k →
      (degreesAndParents (M.insert k N)).1.lookup y = (degreesAndParents M).1.lookup y := by
    intro y hyk
    cases hy : M.lookup y with
    | none =>
      have hyM : y ∉ M := Finmap.lookup_eq_none.mp hy
      have hyM' : y ∉ M.insert k N := fun h =>
        ((Finmap.mem_insert.mp h).resolve_left hyk) |> hyM
      rw [lookup_outDegree_of_not_mem hyM, lookup_outDegree_of_not_mem hyM']
    | some n =>
      have hy' : (M.insert k N).lookup y = some n := by rw [Finmap.lookup_insert_of_ne _ hyk, hy]
      rw [lookup_outDegree hy, lookup_outDegree hy', outDegree_count hclosed hy le_rfl,
        outDegree_count hclosed' hy' le_rfl]
  have htop : (degreesAndParents (M.insert k N)).1.lookup k = some (pendingChildren M N).card := by
    rw [lookup_outDegree (Finmap.lookup_insert M), outDegree_count hclosed'
      (Finmap.lookup_insert M) le_rfl, hcount]
  refine ⟨rfl, rfl, hdeg, htop, ?_⟩
  -- the queues: the zero counts, the top node's among them exactly when it has no child
  show ((degreesAndParents (M.insert k N)).1.sortedEntries.filter fun e => e.2 = 0).map Prod.fst =
    if (pendingChildren M N).card = 0 then
      ((degreesAndParents M).1.sortedEntries.filter fun e => e.2 = 0).map Prod.fst ++ [k]
    else ((degreesAndParents M).1.sortedEntries.filter fun e => e.2 = 0).map Prod.fst
  by_cases h0 : (pendingChildren M N).card = 0
  · rw [if_pos h0]
    have hM : ∀ x, x ∉ M := fun x hx => by
      obtain ⟨c, hc, -⟩ := hcover x hx
      rw [hcount, Finset.card_eq_zero] at h0
      simp [h0] at hc
    have hnil : ((degreesAndParents M).1.sortedEntries.filter fun e => e.2 = 0) = [] :=
      List.eq_nil_iff_forall_not_mem.mpr fun e he => by
        have := Finmap.mem_sortedEntries.mp (List.mem_filter.mp he).1
        rw [lookup_outDegree_of_not_mem (hM e.1)] at this
        cases this
    have hone : ((degreesAndParents (M.insert k N)).1.sortedEntries.filter fun e => e.2 = 0) =
        [(k, 0)] := by
      refine Finmap.eq_of_pairwise_fst_lt ((Finmap.pairwise_sortedEntries _).sublist
        List.filter_sublist) (List.pairwise_singleton _ _) fun e => ?_
      rw [List.mem_filter, Finmap.mem_sortedEntries, List.mem_singleton, decide_eq_true_eq]
      constructor
      · rintro ⟨he, he0⟩
        by_cases hek : e.1 = k
        · exact Prod.ext hek he0
        · rw [hdeg _ hek, lookup_outDegree_of_not_mem (hM e.1)] at he
          cases he
      · rintro rfl
        exact ⟨by rw [htop, h0], rfl⟩
    rw [hnil, hone]
    rfl
  · rw [if_neg h0]
    congr 1
    refine Finmap.eq_of_pairwise_fst_lt ((Finmap.pairwise_sortedEntries _).sublist
      List.filter_sublist) ((Finmap.pairwise_sortedEntries _).sublist List.filter_sublist)
      fun e => ?_
    rw [List.mem_filter, List.mem_filter, Finmap.mem_sortedEntries, Finmap.mem_sortedEntries,
      decide_eq_true_eq]
    by_cases hek : e.1 = k
    · rw [hek, htop, lookup_outDegree_of_not_mem hk]
      constructor
      · rintro ⟨he, he0⟩
        exact absurd ((Option.some_injective _ he).trans he0) h0
      · rintro ⟨he, -⟩
        cases he
    · rw [hdeg _ hek]

theorem parentList_eq_nil {orig : Store C P} {c : C}
    (h : ∀ y n, orig.lookup y = some n → c ∈ n.children → c ∉ orig) : parentList orig c = [] := by
  rw [parentList, List.map_eq_nil_iff, List.filter_eq_nil_iff]
  intro e he hpred
  rw [decide_eq_true_eq, Finmap.mem_keys] at hpred
  exact h e.1 e.2 (Finmap.mem_sortedEntries.mp he) hpred.1 hpred.2

theorem KahnInv.pending_top_pos {s : KahnState C P} (hs : KahnInv M s)
    (hclosed : Dag.Closed DagNode.children M) (hroots : ∀ c ∈ N.children, c ∈ M)
    (hcover : ∀ x ∈ M, ∃ c ∈ N.children, ReflTransGen (Dag.Edge DagNode.children M) c x)
    {x : C} (hx : x ∈ s.nodes) : 0 < (pendingChildren s.nodes N).card := by
  obtain ⟨n, hn⟩ := Finmap.mem_iff.mp hx
  obtain ⟨c, hc, hcx⟩ := hcover x (Finmap.mem_of_lookup_eq_some (hs.nodes_sub x n hn))
  rcases hs.covers c (hroots c hc) with hcn | hcr
  · exact Finset.card_pos.mpr ⟨c, Finset.mem_filter.mpr ⟨hc, Finmap.mem_keys.mpr hcn⟩⟩
  · exact absurd hx (hs.disjoint x (hs.emitted_of_reach hclosed hcr hcx))

theorem kahnSim_next {s s' : KahnState C P} {parentsOf parentsOf' : Finmap fun _ : C => List C}
    (hP : ∀ c, (parentsOf.lookup c).getD [] = parentList M c)
    (hP' : ∀ c, (parentsOf'.lookup c).getD [] = parentList (M.insert k N) c)
    (hclosed : Dag.Closed DagNode.children M) (hk : k ∉ M) (hroots : ∀ c ∈ N.children, c ∈ M)
    (hnopar : ∀ c ∈ N.children, ∀ y n, M.lookup y = some n → c ∉ n.children)
    (hcover : ∀ x ∈ M, ∃ c ∈ N.children, ReflTransGen (Dag.Edge DagNode.children M) c x)
    (hs : KahnInv M s) (hsim : KahnSim k N s s') {x : C} {q : List C} {nx : DagNode C P}
    (hq : s.queue = x :: q) (hx : s.nodes.lookup x = some nx) :
    s'.queue = x :: q ∧ s'.nodes.lookup x = some nx ∧
      KahnSim k N (kahnNext parentsOf s x q nx) (kahnNext parentsOf' s' x q nx) := by
  have hxn : x ∈ s.nodes := Finmap.mem_of_lookup_eq_some hx
  have hxk : x ≠ k := fun h => hk (h ▸ Finmap.mem_of_lookup_eq_some (hs.nodes_sub x nx hx))
  have hpos := hs.pending_top_pos hclosed hroots hcover hxn
  refine ⟨by rw [hsim.queue_eq, if_neg (Nat.pos_iff_ne_zero.mp hpos), hq],
    by rw [hsim.nodes_eq, Finmap.lookup_insert_of_ne _ hxk, hx], ?_⟩
  have hnodes : (kahnNext parentsOf' s' x q nx).nodes = (kahnNext parentsOf s x q nx).nodes.insert k N := by
    simp only [kahnNext, hsim.nodes_eq]
    exact Finmap.erase_insert_of_ne hxk
  have hresult : (kahnNext parentsOf' s' x q nx).result = (kahnNext parentsOf s x q nx).result := by
    simp only [kahnNext, hsim.result_eq]
  have hpend : pendingChildren (s.nodes.erase x) N = (pendingChildren s.nodes N).erase x :=
    pendingChildren_erase
  have h0 : (pendingChildren s.nodes N).card ≠ 0 := Nat.pos_iff_ne_zero.mp hpos
  by_cases hxN : x ∈ N.children
  · -- `x` is a root: its only parent is the new node, which it releases
    have hps : parentList M x = [] :=
      parentList_eq_nil fun y n hy hxy => absurd hxy (hnopar x hxN y n hy)
    have hps' := parentList_insert_of_mem (k := k) hroots hnopar hxN
    have hxp : x ∈ pendingChildren s.nodes N := Finset.mem_filter.mpr ⟨hxN, Finmap.mem_keys.mpr hxn⟩
    have hcard : (pendingChildren (s.nodes.erase x) N).card =
        (pendingChildren s.nodes N).card - 1 := by
      rw [hpend, Finset.card_erase_of_mem hxp]
    have hnew : ((parentsOf'.lookup x).getD []).foldl release (q, s'.outDegree) =
        (if (pendingChildren s.nodes N).card - 1 = 0 then q ++ [k] else q,
          s'.outDegree.insert k ((pendingChildren s.nodes N).card - 1)) := by
      rw [hP', hps', List.foldl_cons, List.foldl_nil, release_of_some hsim.degree_top]
    have hold : ((parentsOf.lookup x).getD []).foldl release (q, s.outDegree) = (q, s.outDegree) := by
      rw [hP, hps, List.foldl_nil]
    refine ⟨hnodes, hresult, fun y hyk => ?_, ?_, ?_⟩
    · simp only [kahnNext, hnew, hold]
      rw [Finmap.lookup_insert_of_ne _ hyk, hsim.degree_eq y hyk]
    · simp only [kahnNext, hnew]
      rw [Finmap.lookup_insert, hcard]
    · simp only [kahnNext, hnew, hold, hcard]
  · -- `x` is older: the new node is none of its parents
    have hps' := parentList_insert_of_not_mem hclosed hk hxN
    have hkps : k ∉ parentList M x := fun h => by
      obtain ⟨n, hn, -⟩ := mem_parentList.mp h
      exact hk (Finmap.mem_of_lookup_eq_some hn)
    have hxp : x ∉ pendingChildren s.nodes N := fun h => hxN (Finset.mem_filter.mp h).1
    have hcard : (pendingChildren (s.nodes.erase x) N).card =
        (pendingChildren s.nodes N).card := by
      rw [hpend, Finset.erase_eq_of_notMem hxp]
    have hnd := nodup_parentList M x
    have hfst : (((parentsOf'.lookup x).getD []).foldl release (q, s'.outDegree)).1 =
        (((parentsOf.lookup x).getD []).foldl release (q, s.outDegree)).1 := by
      rw [hP', hps', hP, foldl_release_fst hnd, foldl_release_fst hnd]
      congr 1
      refine List.filter_congr fun p hp => ?_
      rw [hsim.degree_eq p fun h => hkps (h ▸ hp)]
    have hsnd : ∀ y, (((parentsOf'.lookup x).getD []).foldl release (q, s'.outDegree)).2.lookup y =
        if y ∈ parentList M x then (s'.outDegree.lookup y).map (· - 1) else s'.outDegree.lookup y := by
      intro y
      rw [hP', hps']
      exact lookup_foldl_release_snd hnd y
    have hsnd₀ : ∀ y, (((parentsOf.lookup x).getD []).foldl release (q, s.outDegree)).2.lookup y =
        if y ∈ parentList M x then (s.outDegree.lookup y).map (· - 1) else s.outDegree.lookup y := by
      intro y
      rw [hP]
      exact lookup_foldl_release_snd hnd y
    refine ⟨hnodes, hresult, fun y hyk => ?_, ?_, ?_⟩
    · simp only [kahnNext]
      rw [hsnd, hsnd₀, hsim.degree_eq y hyk]
    · simp only [kahnNext]
      rw [hsnd, if_neg hkps, hsim.degree_top, hcard]
    · simp only [kahnNext, hcard, h0, ↓reduceIte, hfst]

theorem kahnLoop_insert_top {parentsOf parentsOf' : Finmap fun _ : C => List C}
    (hP : ∀ c, (parentsOf.lookup c).getD [] = parentList M c)
    (hP' : ∀ c, (parentsOf'.lookup c).getD [] = parentList (M.insert k N) c)
    (hclosed : Dag.Closed DagNode.children M) (hacyc : Dag.Acyclic DagNode.children M)
    (hk : k ∉ M) (hroots : ∀ c ∈ N.children, c ∈ M)
    (hnopar : ∀ c ∈ N.children, ∀ y n, M.lookup y = some n → c ∉ n.children)
    (hcover : ∀ x ∈ M, ∃ c ∈ N.children, ReflTransGen (Dag.Edge DagNode.children M) c x)
    (s s' : KahnState C P) (hs : KahnInv M s) (hsim : KahnSim k N s s') :
    kahnLoop parentsOf' s' = kahnLoop parentsOf s ++ [(k, N)] := by
  induction hcard : s.nodes.keys.card using Nat.strong_induction_on generalizing s s' with
  | _ m ih =>
    cases hq : s.queue with
    | nil =>
      -- everything older is emitted: the new node alone is queued, and emitted last
      have hempty : pendingChildren s.nodes N = ∅ :=
        Finset.eq_empty_of_forall_notMem fun c hc =>
          hs.not_mem_nodes hacyc hq c (Finmap.mem_keys.mp (Finset.mem_filter.mp hc).2)
      have hq' : s'.queue = [k] := by simp [hsim.queue_eq, hempty, hq]
      have hk' : s'.nodes.lookup k = some N := by rw [hsim.nodes_eq, Finmap.lookup_insert]
      have hkN : k ∉ N.children := fun h => hk (hroots k h)
      have hpk : (parentsOf'.lookup k).getD [] = [] := by
        rw [hP', parentList_insert_of_not_mem hclosed hk hkN]
        exact parentList_eq_nil fun _ _ _ _ => hk
      rw [kahnLoop_cons hq' hk', kahnLoop_nil (by simp only [kahnNext, hpk, List.foldl_nil]),
        kahnLoop_nil hq]
      simp only [kahnNext, hsim.result_eq]
    | cons x q =>
      obtain ⟨nx, hx⟩ := hs.lookup_of_mem_queue (hq ▸ List.mem_cons_self)
      obtain ⟨hq', hx', hsim'⟩ :=
        kahnSim_next hP hP' hclosed hk hroots hnopar hcover hs hsim hq hx
      rw [kahnLoop_cons hq hx, kahnLoop_cons hq' hx']
      refine ih _ ?_ _ _ (kahnInv_next hP hs hq hx) hsim' rfl
      rw [← hcard]
      simp only [kahnNext, Finmap.keys_erase]
      exact Finset.card_erase_lt_of_mem (Finmap.mem_keys.mpr (Finmap.mem_of_lookup_eq_some hx))

/-- **A node whose children are the maximal nodes of an acyclic, closed map, and that no node of
the map names, is sorted last, after the map's own order.** -/
theorem topologicalSort_insert_top (hclosed : Dag.Closed DagNode.children M)
    (hacyc : Dag.Acyclic DagNode.children M) (hk : k ∉ M) (hroots : ∀ c ∈ N.children, c ∈ M)
    (hnopar : ∀ c ∈ N.children, ∀ y n, M.lookup y = some n → c ∉ n.children)
    (hcover : ∀ x ∈ M, ∃ c ∈ N.children, ReflTransGen (Dag.Edge DagNode.children M) c x) :
    topologicalSort (M.insert k N) = topologicalSort M ++ [(k, N)] := by
  rw [topologicalSort_eq, topologicalSort_eq]
  exact kahnLoop_insert_top (getD_parentsOf M) (getD_parentsOf _) hclosed hacyc hk hroots hnopar
    hcover _ _ (kahnInv_start M) (kahnSim_start hclosed hk hroots hcover)

end top

end Vos.MerkleCrdt
