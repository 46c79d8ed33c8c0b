import Mathlib.Data.List.Sort
import Mathlib.Data.Prod.Lex
import Vos.Lib.Dag
import Vos.Lib.FinmapGraph
import Vos.V2.StateTree

/-!
# vos v2 — loading and validating a causal frontier

`v2/causal.rs`: before a change is applied, the complete ancestry of the advertised heads is
fetched node by node, each node checked against the hash it is fetched under, and the causal
heights recomputed over the whole ancestry. The result, a `CausalFrontierV2`, lists its nodes in
causal order and reduces its heads to the canonical frontier.

* `CrdtChangeV2` (the fields the frontier reads), `CausalFrontierError`, `CausalFrontierV2`;
* `loadNodes`, the ancestry walk of `load_causal_frontier_changes`, `heightsValid`, its height
  check, `loadCausalFrontierChanges`, and `loadCausalFrontier`, which reads and decodes bytes;
* `nodesInCausalOrder`, `dependencies`, `canonicalHeads`;
* `Loaded`, what the walk keeps: it is a search frontier (`Dag.Frontier`) of the graph loaded so
  far, every loaded node having been read under its cid; `Loaded.run`, its run lemma;
* the loaded graph is closed and is the ancestry of the heads (`Loaded.mem_iff_ancestry`), the
  heights rank it (`acyclic_of_heightsValid`), the causal order is topological
  (`topoOrdered_nodesInCausalOrder`), and a head is a dependency exactly when another head
  reaches it (`Loaded.mem_dependencies_iff`);
* **`loadCausalFrontier_ok`**: what a successful load guarantees.

The walk of the source runs until its stack is empty; here it is given fuel, and a run out of
fuel returns `none`. The content id `cid()` and `CrdtChangeV2::decode` are parameters.
-/

namespace Vos.V2

open Relation

/-- `CausalFrontierError<E>`. -/
inductive CausalFrontierError (H E : Type) where
  | storage (e : E)
  | missing (cid : H)
  | corrupt
  deriving DecidableEq, Repr

/-- `CrdtChangeV2`, with the fields the frontier reads; `body` stands for the others (`id`,
`work_hash`, `operations`, `workflow`, `materializations`, ...), which only `cid()` reads.
`causal_height` is a `u64`, kept as a natural number below `2 ^ 64`. -/
structure CrdtChangeV2 (H P : Type) where
  causalDependencies : List H
  causalHeight : ℕ
  body : P
  deriving DecidableEq, Repr

variable {H P E : Type} [DecidableEq H]

/-- The causal dependencies of a change, as the successors of a node of `Dag`. -/
def dependencySet (c : CrdtChangeV2 H P) : Finset H := c.causalDependencies.toFinset

/-- `CausalFrontierV2`. -/
structure CausalFrontierV2 (H P : Type) [DecidableEq H] where
  heads : List H
  nodes : Finmap fun _ : H => CrdtChangeV2 H P
  maxHeadHeight : ℕ

/-! ## Loading -/

/-- The ancestry walk of `load_causal_frontier_changes`: pop a cid, skip it when loaded, or read
it, check that it hashes to its cid, push its dependencies and store it. The stack `Vec` is the
list reversed, its last element (the one `pop` takes) first. -/
def loadNodes (cid : CrdtChangeV2 H P → H)
    (readNode : H → Except (CausalFrontierError H E) (CrdtChangeV2 H P)) :
    ℕ → (Finmap fun _ : H => CrdtChangeV2 H P) → List H →
      Option (Except (CausalFrontierError H E) (Finmap fun _ : H => CrdtChangeV2 H P))
  | 0, _, _ => none
  | _ + 1, nodes, [] => some (.ok nodes)
  | fuel + 1, nodes, c :: pending =>
    if c ∈ nodes then loadNodes cid readNode fuel nodes pending
    else
      match readNode c with
      | .error e => some (.error e)
      | .ok change =>
        if cid change ≠ c then some (.error .corrupt)
        else loadNodes cid readNode fuel (nodes.insert c change)
          (change.causalDependencies.reverse ++ pending)

/-- The largest height among the loaded dependencies of `change`, `0` when there is none. -/
def parentHeight (nodes : Finmap fun _ : H => CrdtChangeV2 H P) (change : CrdtChangeV2 H P) : ℕ :=
  ((change.causalDependencies.filterMap nodes.lookup).map CrdtChangeV2.causalHeight).max?.getD 0

/-- The height check over every loaded node: `parent.checked_add(1)` stays within `u64` and is the
node's height. -/
def heightsValid (nodes : Finmap fun _ : H => CrdtChangeV2 H P) : Prop :=
  ∀ x ∈ nodes.keys, ∀ c ∈ nodes.lookup x,
    parentHeight nodes c + 1 < 2 ^ 64 ∧ c.causalHeight = parentHeight nodes c + 1

instance (nodes : Finmap fun _ : H => CrdtChangeV2 H P) : Decidable (heightsValid nodes) :=
  inferInstanceAs (Decidable (∀ x ∈ nodes.keys, ∀ c ∈ nodes.lookup x, _))

/-- The largest height of a loaded head, `0` when there is none. -/
def maxHeight (nodes : Finmap fun _ : H => CrdtChangeV2 H P) (heads : List H) : ℕ :=
  ((heads.filterMap nodes.lookup).map CrdtChangeV2.causalHeight).max?.getD 0

/-- `load_causal_frontier_changes`. -/
def loadCausalFrontierChanges (cid : CrdtChangeV2 H P → H) (heads : List H)
    (readNode : H → Except (CausalFrontierError H E) (CrdtChangeV2 H P)) (fuel : ℕ) :
    Option (Except (CausalFrontierError H E) (CausalFrontierV2 H P)) :=
  (loadNodes cid readNode fuel ∅ heads.reverse).map fun loaded => loaded.bind fun nodes =>
    if heightsValid nodes then .ok ⟨heads, nodes, maxHeight nodes heads⟩ else .error .corrupt

/-- The node reader of `load_causal_frontier`: a storage error, a missing node and bytes that do
not decode are each an error. -/
def readChange (readNode : H → Except E (Option Bytes)) (decode : Bytes → Option (CrdtChangeV2 H P))
    (c : H) : Except (CausalFrontierError H E) (CrdtChangeV2 H P) :=
  match readNode c with
  | .error e => .error (.storage e)
  | .ok none => .error (.missing c)
  | .ok (some bytes) =>
    match decode bytes with
    | none => .error .corrupt
    | some change => .ok change

/-- `load_causal_frontier`. -/
def loadCausalFrontier (cid : CrdtChangeV2 H P → H) (decode : Bytes → Option (CrdtChangeV2 H P))
    (heads : List H) (readNode : H → Except E (Option Bytes)) (fuel : ℕ) :
    Option (Except (CausalFrontierError H E) (CausalFrontierV2 H P)) :=
  loadCausalFrontierChanges cid heads (readChange readNode decode) fuel

/-! ## The frontier's views -/

section Views

variable [LinearOrder H]

/-- `nodes_in_causal_order`: the nodes in key order, then stably sorted by `(height, cid)`. -/
def CausalFrontierV2.nodesInCausalOrder (f : CausalFrontierV2 H P) :
    List (H × CrdtChangeV2 H P) :=
  f.nodes.sortedEntries.mergeSort fun a b =>
    decide (toLex (a.2.causalHeight, a.1) ≤ toLex (b.2.causalHeight, b.1))

/-- Every dependency of every node; the source sorts and deduplicates it to search it. -/
def CausalFrontierV2.dependencies (f : CausalFrontierV2 H P) : List H :=
  f.nodes.sortedEntries.flatMap fun e => e.2.causalDependencies

/-- `canonical_heads`: the heads that are no node's dependency. -/
def CausalFrontierV2.canonicalHeads (f : CausalFrontierV2 H P) : List H :=
  f.heads.filter fun head => decide (head ∉ f.dependencies)

end Views

/-! ## Reading a node -/

/-- `b` is a causal dependency of the change `readNode` returns for `a`. -/
def ReadsDependency (readNode : H → Except (CausalFrontierError H E) (CrdtChangeV2 H P))
    (a b : H) : Prop :=
  ∃ c, readNode a = .ok c ∧ b ∈ c.causalDependencies

omit [DecidableEq H] in
/-- The node reader of `load_causal_frontier` returns a change exactly when the store holds bytes
that decode to it. -/
theorem readChange_eq_ok {readNode : H → Except E (Option Bytes)}
    {decode : Bytes → Option (CrdtChangeV2 H P)} {c : H} {change : CrdtChangeV2 H P} :
    readChange readNode decode c = .ok change ↔
      ∃ bytes, readNode c = .ok (some bytes) ∧ decode bytes = some change := by
  unfold readChange
  cases readNode c with
  | error e => simp
  | ok o =>
    cases o with
    | none => simp
    | some bytes => cases hd : decode bytes <;> simp [hd]

/-! ## The ancestry walk -/

section Walk

variable (cid : CrdtChangeV2 H P → H)
  (readNode : H → Except (CausalFrontierError H E) (CrdtChangeV2 H P))

/-- What the walk from the heads `roots` keeps: every loaded node was read under its key and
hashes to it, and the loaded keys with the stack form a search frontier of the loaded graph. -/
structure Loaded (roots : Finset H) (nodes : Finmap fun _ : H => CrdtChangeV2 H P)
    (pending : List H) : Prop where
  read : ∀ x c, nodes.lookup x = some c → readNode x = .ok c ∧ cid c = x
  frontier : Dag.Frontier dependencySet nodes roots nodes.keys pending

variable {cid readNode}

theorem loaded_start (heads : List H) : Loaded cid readNode heads.toFinset ∅ heads.reverse where
  read x c hx := by simp at hx
  frontier := by
    rw [Finmap.keys_empty]
    exact Dag.frontier_start fun x => by simp

theorem Loaded.skip {roots : Finset H} {nodes : Finmap fun _ : H => CrdtChangeV2 H P}
    {c : H} {pending : List H} (h : Loaded cid readNode roots nodes (c :: pending))
    (hc : c ∈ nodes) : Loaded cid readNode roots nodes pending :=
  ⟨h.read, h.frontier.skip (Finmap.mem_keys.mpr hc)⟩

theorem Loaded.store {roots : Finset H} {nodes : Finmap fun _ : H => CrdtChangeV2 H P}
    {c : H} {pending : List H} {change : CrdtChangeV2 H P}
    (h : Loaded cid readNode roots nodes (c :: pending)) (hc : c ∉ nodes)
    (hread : readNode c = .ok change) (hcid : cid change = c) :
    Loaded cid readNode roots (nodes.insert c change)
      (change.causalDependencies.reverse ++ pending) where
  read x c' hx := by
    by_cases hxc : x = c
    · subst hxc
      rw [Finmap.lookup_insert] at hx
      cases hx
      exact ⟨hread, hcid⟩
    · rw [Finmap.lookup_insert_of_ne _ hxc] at hx
      exact h.read x c' hx
  frontier := by
    refine h.frontier.store hc (fun x hx => ?_) (fun x hx => List.mem_append_right _ hx)
      (fun b hb => List.mem_append_left _ ?_)
    · simpa [dependencySet] using List.mem_append.mp hx
    · simpa [dependencySet] using hb

/-- **The run lemma of the walk**: a walk that ends has loaded a frontier with nothing pending. -/
theorem Loaded.run {roots : Finset H} {fuel : ℕ} :
    ∀ {nodes nodes' : Finmap fun _ : H => CrdtChangeV2 H P} {pending : List H},
      Loaded cid readNode roots nodes pending →
      loadNodes cid readNode fuel nodes pending = some (.ok nodes') →
      Loaded cid readNode roots nodes' [] := by
  induction fuel with
  | zero => intro _ _ _ _ hrun; cases hrun
  | succ fuel ih =>
    intro nodes nodes' pending h hrun
    cases pending with
    | nil =>
      cases hrun
      exact h
    | cons c pending =>
      rw [loadNodes] at hrun
      by_cases hc : c ∈ nodes
      · rw [if_pos hc] at hrun
        exact ih (h.skip hc) hrun
      · rw [if_neg hc] at hrun
        -- the three outcomes of reading `c`: an error, a node under another cid, or a node
        cases hread : readNode c with
        | error e => simp [hread] at hrun
        | ok change =>
          by_cases hcid : cid change = c
          · simp only [hread, hcid, ne_eq, not_true_eq_false, if_false] at hrun
            exact ih (h.store hc hread hcid) hrun
          · simp [hread, hcid] at hrun

end Walk

/-- What a successful load consists of: a walk from the reversed heads that ends, and heights
that pass the check. -/
theorem loadCausalFrontierChanges_eq_ok {cid : CrdtChangeV2 H P → H} {heads : List H}
    {readNode : H → Except (CausalFrontierError H E) (CrdtChangeV2 H P)} {fuel : ℕ}
    {f : CausalFrontierV2 H P}
    (h : loadCausalFrontierChanges cid heads readNode fuel = some (.ok f)) :
    loadNodes cid readNode fuel ∅ heads.reverse = some (.ok f.nodes) ∧ heightsValid f.nodes ∧
      f.heads = heads := by
  unfold loadCausalFrontierChanges at h
  cases hrun : loadNodes cid readNode fuel ∅ heads.reverse with
  | none => simp [hrun] at h
  | some loaded =>
    cases loaded with
    | error e => simp [hrun, Except.bind] at h
    | ok nodes =>
      by_cases hv : heightsValid nodes
      · simp only [hrun, Option.map_some, Except.bind, if_pos hv, Option.some.injEq,
          Except.ok.injEq] at h
        subst h
        exact ⟨rfl, hv, rfl⟩
      · simp [hrun, Except.bind, hv] at h

/-! ## A loaded graph -/

section LoadedGraph

variable {cid : CrdtChangeV2 H P → H}
  {readNode : H → Except (CausalFrontierError H E) (CrdtChangeV2 H P)}
  {heads : List H} {nodes : Finmap fun _ : H => CrdtChangeV2 H P}

theorem Loaded.closed (h : Loaded cid readNode heads.toFinset nodes []) :
    Dag.Closed dependencySet nodes := fun a b hab =>
  Finmap.mem_keys.mp
    ((h.frontier.edge_mem a (Finmap.mem_keys.mpr hab.mem) b hab).resolve_right List.not_mem_nil)

theorem Loaded.head_mem (h : Loaded cid readNode heads.toFinset nodes []) {r : H}
    (hr : r ∈ heads) : r ∈ nodes :=
  Finmap.mem_keys.mp
    ((h.frontier.roots_mem r (List.mem_toFinset.mpr hr)).resolve_right List.not_mem_nil)

/-- **The loaded keys are the ancestry of the heads** through the dependencies of what
`readNode` returns. -/
theorem Loaded.mem_iff_ancestry (h : Loaded cid readNode heads.toFinset nodes []) {x : H} :
    x ∈ nodes ↔ ∃ r ∈ heads, ReflTransGen (ReadsDependency readNode) r x := by
  constructor
  · intro hx
    obtain ⟨r, hr, hrx⟩ := h.frontier.reach_iff.mpr (Finmap.mem_keys.mpr hx)
    refine ⟨r, List.mem_toFinset.mp hr, hrx.lift id fun a b hab => ?_⟩
    obtain ⟨c, hc, hb⟩ := hab
    exact ⟨c, (h.read a c hc).1, List.mem_toFinset.mp hb⟩
  · rintro ⟨r, hr, hrx⟩
    induction hrx with
    | refl => exact h.head_mem hr
    | tail _ hbc ih =>
      obtain ⟨c, hread, hdep⟩ := hbc
      obtain ⟨c', hc'⟩ := Finmap.mem_iff.mp ih
      -- the node loaded under the key is the one `readNode` returns for it
      have hcc : c' = c := by
        have := (h.read _ c' hc').1
        rw [hread] at this
        exact (Except.ok.inj this).symm
      subst hcc
      exact h.closed _ _ ⟨c', hc', List.mem_toFinset.mpr hdep⟩

theorem height_lt_of_dependency (hv : heightsValid nodes) {x d : H} {c c' : CrdtChangeV2 H P}
    (hc : nodes.lookup x = some c) (hd : d ∈ c.causalDependencies) (hc' : nodes.lookup d = some c') :
    c'.causalHeight < c.causalHeight := by
  have hle : c'.causalHeight ≤ parentHeight nodes c :=
    List.le_max?_getD_of_mem (List.mem_map.mpr ⟨c', List.mem_filterMap.mpr ⟨d, hd, hc'⟩, rfl⟩)
  have heq := (hv x (Finmap.mem_keys.mpr (Finmap.mem_of_lookup_eq_some hc)) c hc).2
  omega

/-- **Heights that pass the check rank the graph**, so it has no cycle. -/
theorem acyclic_of_heightsValid (hclosed : Dag.Closed dependencySet nodes)
    (hv : heightsValid nodes) : Dag.Acyclic dependencySet nodes := by
  refine ⟨fun x => ((nodes.lookup x).map CrdtChangeV2.causalHeight).getD 0, ?_⟩
  rintro a b ⟨c, hc, hb⟩
  obtain ⟨c', hc'⟩ := Finmap.mem_iff.mp (hclosed a b ⟨c, hc, hb⟩)
  simpa [hc, hc'] using height_lt_of_dependency hv hc (List.mem_toFinset.mp hb) hc'

end LoadedGraph

/-! ## The frontier's views over a loaded graph -/

section LoadedViews

variable [LinearOrder H] {f : CausalFrontierV2 H P}

@[simp] theorem CausalFrontierV2.mem_nodesInCausalOrder {x : H} {c : CrdtChangeV2 H P} :
    (x, c) ∈ f.nodesInCausalOrder ↔ f.nodes.lookup x = some c := by
  simp [CausalFrontierV2.nodesInCausalOrder]

theorem CausalFrontierV2.pairwise_nodesInCausalOrder :
    f.nodesInCausalOrder.Pairwise fun a b =>
      toLex (a.2.causalHeight, a.1) ≤ toLex (b.2.causalHeight, b.1) := by
  have hsorted : (f.nodes.sortedEntries.mergeSort fun a b =>
      decide (toLex (a.2.causalHeight, a.1) ≤ toLex (b.2.causalHeight, b.1))).Pairwise
      fun a b => decide (toLex (a.2.causalHeight, a.1) ≤ toLex (b.2.causalHeight, b.1)) = true :=
    List.pairwise_mergeSort
      (fun a b c hab hbc => by simp only [decide_eq_true_eq] at *; exact le_trans hab hbc)
      (fun a b => by simpa using le_total _ _) _
  simpa [CausalFrontierV2.nodesInCausalOrder] using hsorted

/-- **Sorting by height lists every node after its loaded dependencies.** -/
theorem topoOrdered_nodesInCausalOrder (hv : heightsValid f.nodes) :
    Dag.TopoOrdered dependencySet f.nodes f.nodesInCausalOrder := by
  set l := f.nodesInCausalOrder with hl
  intro i hi b hb hbg
  obtain ⟨c', hc'⟩ := Finmap.mem_iff.mp hbg
  have hi' : f.nodes.lookup l[i].1 = some l[i].2 :=
    CausalFrontierV2.mem_nodesInCausalOrder.mp (List.getElem_mem hi)
  have hlt : c'.causalHeight < l[i].2.causalHeight :=
    height_lt_of_dependency hv hi' (List.mem_toFinset.mp hb) hc'
  obtain ⟨j, hj, hjb⟩ := List.getElem_of_mem (CausalFrontierV2.mem_nodesInCausalOrder.mpr hc')
  -- the dependency sits before the node: at or after it, its height would not be smaller
  have hji : j < i := by
    by_contra hij
    rcases (Nat.le_of_not_lt hij).lt_or_eq with hij | rfl
    · have hle := List.pairwise_iff_getElem.mp CausalFrontierV2.pairwise_nodesInCausalOrder
        i j hi hj hij
      rw [hjb, Prod.Lex.toLex_le_toLex] at hle
      have hle' : l[i].2.causalHeight ≤ c'.causalHeight := by
        rcases hle with hle | ⟨hle, -⟩
        · exact hle.le
        · exact hle.le
      omega
    · rw [hjb] at hlt
      exact lt_irrefl _ hlt
  have hjt : j < (l.take i).length := by simp; omega
  have hmem : (l.take i)[j] ∈ l.take i := List.getElem_mem hjt
  rw [List.getElem_take, hjb] at hmem
  exact List.mem_map.mpr ⟨_, hmem, rfl⟩

theorem CausalFrontierV2.mem_dependencies {x : H} :
    x ∈ f.dependencies ↔ ∃ a, Dag.Edge dependencySet f.nodes a x := by
  simp [CausalFrontierV2.dependencies, Dag.Edge, dependencySet]

variable {cid : CrdtChangeV2 H P → H}
  {readNode : H → Except (CausalFrontierError H E) (CrdtChangeV2 H P)} {heads : List H}

/-- **A key is a dependency of a loaded node exactly when a head reaches it by at least one
edge**: `canonical_heads` only searches the dependency lists because the nodes are exactly the
ancestry of the heads. -/
theorem Loaded.mem_dependencies_iff (h : Loaded cid readNode heads.toFinset f.nodes []) {x : H} :
    x ∈ f.dependencies ↔ ∃ r ∈ heads, TransGen (Dag.Edge dependencySet f.nodes) r x := by
  rw [CausalFrontierV2.mem_dependencies]
  constructor
  · rintro ⟨a, hax⟩
    obtain ⟨r, hr, hra⟩ := h.frontier.reach_iff.mpr (Finmap.mem_keys.mpr hax.mem)
    exact ⟨r, List.mem_toFinset.mp hr, .tail' hra hax⟩
  · rintro ⟨r, -, hrx⟩
    obtain ⟨a, -, hax⟩ := TransGen.tail'_iff.mp hrx
    exact ⟨a, hax⟩

open scoped Classical in
theorem Loaded.canonicalHeads_eq (h : Loaded cid readNode heads.toFinset f.nodes [])
    (hheads : f.heads = heads) :
    f.canonicalHeads =
      heads.filter fun r => ¬ ∃ r' ∈ heads, TransGen (Dag.Edge dependencySet f.nodes) r' r := by
  rw [CausalFrontierV2.canonicalHeads, hheads]
  refine List.filter_congr fun x _ => ?_
  rw [decide_eq_decide, h.mem_dependencies_iff]

/-- **No head is lost**: in an acyclic loaded graph, every head is reached from a canonical one. -/
theorem Loaded.exists_canonical_reach (h : Loaded cid readNode heads.toFinset f.nodes [])
    (hheads : f.heads = heads) (hacyc : Dag.Acyclic dependencySet f.nodes) {r : H}
    (hr : r ∈ heads) :
    ∃ k ∈ f.canonicalHeads, ReflTransGen (Dag.Edge dependencySet f.nodes) k r := by
  have hsub : ∀ c ∈ heads.toFinset, c ∉ f.canonicalHeads.toFinset →
      ∃ c' ∈ heads.toFinset, TransGen (Dag.Edge dependencySet f.nodes) c' c := by
    intro c hc hk
    have hdep : c ∈ f.dependencies := by
      by_contra hnot
      exact hk (List.mem_toFinset.mpr (List.mem_filter.mpr
        ⟨hheads ▸ List.mem_toFinset.mp hc, decide_eq_true hnot⟩))
    obtain ⟨c', hc', hc'c⟩ := h.mem_dependencies_iff.mp hdep
    exact ⟨c', List.mem_toFinset.mpr hc', hc'c⟩
  obtain ⟨k, hk, -, hkr⟩ :=
    Dag.exists_unsubsumed_reach hacyc hsub r (List.mem_toFinset.mpr hr)
  exact ⟨k, List.mem_toFinset.mp hk, hkr⟩

end LoadedViews

/-! ## Loading a frontier -/

open scoped Classical in
/-- **A successful load validates the complete ancestry.** Every node was read under its key,
decodes, hashes to its key and has height one above its highest dependency without overflow; the
nodes are exactly the ancestry of the heads, closed and acyclic; the causal order lists each node
after its dependencies; and the canonical heads are the heads that no other head reaches, every
head being reached from one of them. -/
theorem loadCausalFrontier_ok [LinearOrder H] (cid : CrdtChangeV2 H P → H)
    (decode : Bytes → Option (CrdtChangeV2 H P)) (heads : List H)
    (readNode : H → Except E (Option Bytes)) (fuel : ℕ) (f : CausalFrontierV2 H P)
    (hload : loadCausalFrontier cid decode heads readNode fuel = some (.ok f)) :
    (∀ x c, f.nodes.lookup x = some c →
      (∃ bytes, readNode x = .ok (some bytes) ∧ decode bytes = some c) ∧ cid c = x ∧
        parentHeight f.nodes c + 1 < 2 ^ 64 ∧ c.causalHeight = parentHeight f.nodes c + 1) ∧
    (∀ x, x ∈ f.nodes ↔
      ∃ r ∈ heads, ReflTransGen (ReadsDependency (readChange readNode decode)) r x) ∧
    Dag.Closed dependencySet f.nodes ∧ Dag.Acyclic dependencySet f.nodes ∧
    (∀ x c, (x, c) ∈ f.nodesInCausalOrder ↔ f.nodes.lookup x = some c) ∧
    Dag.TopoOrdered dependencySet f.nodes f.nodesInCausalOrder ∧
    f.canonicalHeads =
      heads.filter (fun r => ¬ ∃ r' ∈ heads, TransGen (Dag.Edge dependencySet f.nodes) r' r) ∧
    (∀ r ∈ heads, ∃ k ∈ f.canonicalHeads, ReflTransGen (Dag.Edge dependencySet f.nodes) k r) := by
  obtain ⟨hrun, hv, hheads⟩ := loadCausalFrontierChanges_eq_ok hload
  have hl := (loaded_start heads).run hrun
  have hclosed := hl.closed
  have hacyc := acyclic_of_heightsValid hclosed hv
  refine ⟨fun x c hc => ⟨?_, (hl.read x c hc).2, hv x ?_ c hc⟩, fun x => hl.mem_iff_ancestry,
    hclosed, hacyc, fun x c => CausalFrontierV2.mem_nodesInCausalOrder,
    topoOrdered_nodesInCausalOrder hv, hl.canonicalHeads_eq hheads,
    fun r hr => hl.exists_canonical_reach hheads hacyc hr⟩
  · exact readChange_eq_ok.mp (hl.read x c hc).1
  · exact Finmap.mem_keys.mpr (Finmap.mem_of_lookup_eq_some hc)

/-- A chain of two changes, each stored under its height, loaded from the head `2`. -/
theorem loadCausalFrontier_ok_chain :
    let cid := fun c : CrdtChangeV2 ℕ Unit => c.causalHeight
    let decode := fun bs : Bytes => bs.head?.map fun b =>
      (⟨if b.toNat ≤ 1 then [] else [b.toNat - 1], b.toNat, ()⟩ : CrdtChangeV2 ℕ Unit)
    let readNode := fun x : ℕ => (.ok (some [x.toUInt8]) : Except Unit (Option Bytes))
    ∃ f, loadCausalFrontier cid decode [2] readNode 4 = some (.ok f) ∧
      Dag.Acyclic dependencySet f.nodes ∧ Dag.TopoOrdered dependencySet f.nodes f.nodesInCausalOrder := by
  intro cid decode readNode
  obtain ⟨f, hload⟩ : ∃ f, loadCausalFrontier cid decode [2] readNode 4 = some (.ok f) := ⟨_, rfl⟩
  obtain ⟨-, -, -, hacyc, -, htopo, -, -⟩ := loadCausalFrontier_ok cid decode [2] readNode 4 f hload
  exact ⟨f, hload, hacyc, htopo⟩

end Vos.V2
