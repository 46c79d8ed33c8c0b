import Mathlib.Data.List.Destutter
import Vos.V2.Causal

/-!
# vos v2 — searching and growing a validated causal frontier

`v2/causal.rs`, the rest of `CausalFrontierV2`: what the accumulate path asks of a frontier once
it is loaded, and how the frontier grows.

* `containsAncestor` (`contains_ancestor`): a depth-first search down the dependencies;
* `atHeads` (`at_heads`): the frontier cut down to the ancestry of some heads;
* `withChange` (`with_change`), through `dependencyHeight` and `stageChange`: an accepted change
  stored, its height checked, the heads sorted, deduplicated and reduced to the canonical ones;
* `actorMaterializations` (`actor_materializations`), with `BlobRefV2`, `CrdtMaterializationV2`,
  `ActorGenesisV2` and `CausalSelectionError`: the states of an actor held by the nearest
  materialization on every concurrent branch.

Each loop of the source runs until its stack is empty; here it takes fuel, and `Dag.budget` of the
frontier bounds the fuel it needs. Each search keeps a `Dag.Frontier` of the graph it walks (for
`actor_materializations`, the graph cut below every change that materializes the actor,
`branchDependencies`), so at its end the keys it visited are the reachable ones. A change's
`materializations` field lives in its body, and is read through a parameter.

* `DependenciesStored`, the decidable form of `Dag.Closed`; `CausalFrontierV2.Validated`, what a
  load returns (`validated_of_load`);
* **`CausalFrontierV2.containsAncestor_iff`**: on a closed frontier `contains_ancestor` runs to its
  end and answers whether the ancestor is reached;
* **`CausalFrontierV2.atHeads_spec`**: `at_heads` fails exactly on a missing head, and otherwise
  cuts the frontier to the ancestry of the heads, validated when the frontier was;
* **`CausalFrontierV2.withChange_spec`**: what `with_change` checks, and that it keeps a frontier
  validated with canonical, sorted heads;
* **`CausalFrontierV2.actorMaterializations_spec`**: the states selected are exactly the
  contributions of the changes reached without passing a materialization, in hash order.
-/

namespace Vos.V2

open Relation

variable {H P : Type} [DecidableEq H]

/-! ## Closed frontiers -/

/-- Every dependency of a stored change is stored. -/
def DependenciesStored (nodes : Finmap fun _ : H => CrdtChangeV2 H P) : Prop :=
  ∀ x ∈ nodes.keys, ∀ c ∈ nodes.lookup x, ∀ d ∈ c.causalDependencies, d ∈ nodes

instance (nodes : Finmap fun _ : H => CrdtChangeV2 H P) : Decidable (DependenciesStored nodes) :=
  inferInstanceAs (Decidable (∀ x ∈ nodes.keys, ∀ c ∈ nodes.lookup x, _))

@[simp] theorem mem_dependencySet {c : CrdtChangeV2 H P} {x : H} :
    x ∈ dependencySet c ↔ x ∈ c.causalDependencies :=
  List.mem_toFinset

theorem dependenciesStored_iff {nodes : Finmap fun _ : H => CrdtChangeV2 H P} :
    DependenciesStored nodes ↔ Dag.Closed dependencySet nodes := by
  constructor
  · rintro h a b ⟨c, hc, hb⟩
    exact h a (Finmap.mem_keys.mpr (Finmap.mem_of_lookup_eq_some hc)) c hc b
      (mem_dependencySet.mp hb)
  · intro h x _ c hc d hd
    exact h x d ⟨c, hc, mem_dependencySet.mpr hd⟩

/-- A validated frontier: every dependency of a change is stored, and every height is one above
the largest of its dependencies', within `u64`. A successful load returns one
(`validated_of_load`); `at_heads` and `with_change` keep it. -/
structure CausalFrontierV2.Validated (f : CausalFrontierV2 H P) : Prop where
  closed : Dag.Closed dependencySet f.nodes
  heights : heightsValid f.nodes

instance (f : CausalFrontierV2 H P) : Decidable f.Validated :=
  decidable_of_iff (DependenciesStored f.nodes ∧ heightsValid f.nodes)
    ⟨fun h => ⟨dependenciesStored_iff.mp h.1, h.2⟩,
     fun h => ⟨dependenciesStored_iff.mpr h.closed, h.heights⟩⟩

/-- **A loaded frontier is validated.** -/
theorem CausalFrontierV2.validated_of_load {E : Type} {cid : CrdtChangeV2 H P → H}
    {decode : Bytes → Option (CrdtChangeV2 H P)} {heads : List H}
    {readNode : H → Except E (Option Bytes)} {fuel : ℕ} {f : CausalFrontierV2 H P}
    (hload : loadCausalFrontier cid decode heads readNode fuel = some (.ok f)) : f.Validated := by
  obtain ⟨hrun, hv, -⟩ := loadCausalFrontierChanges_eq_ok hload
  exact ⟨((loaded_start heads).run hrun).closed, hv⟩

theorem parentHeight_congr {g g' : Finmap fun _ : H => CrdtChangeV2 H P} {c : CrdtChangeV2 H P}
    (h : ∀ d ∈ c.causalDependencies, g'.lookup d = g.lookup d) :
    parentHeight g' c = parentHeight g c := by
  rw [parentHeight, parentHeight, List.filterMap_congr h]

/-- Heights stay checked in a graph that agrees with a checked one at each of its changes and at
their dependencies. -/
theorem heightsValid_of_agree {g g' : Finmap fun _ : H => CrdtChangeV2 H P} (hv : heightsValid g)
    (hnode : ∀ x c, g'.lookup x = some c →
      g.lookup x = some c ∧ ∀ d ∈ c.causalDependencies, g'.lookup d = g.lookup d) :
    heightsValid g' := by
  intro x _ c hc
  obtain ⟨hgx, hdeps⟩ := hnode x c hc
  rw [parentHeight_congr hdeps]
  exact hv x (Finmap.mem_keys.mpr (Finmap.mem_of_lookup_eq_some hgx)) c hgx

/-! ## The step of a search -/

section Step

variable {g : Finmap fun _ : H => CrdtChangeV2 H P} {succ : CrdtChangeV2 H P → Finset H}

/-- Visiting a change whose successors are its dependencies: the source pushes them with
`extend`, so the last one is popped first. -/
theorem frontier_push {roots visited : Finset H} {stack : List H} {a : H}
    {c : CrdtChangeV2 H P} (h : Dag.Frontier succ g roots visited (a :: stack))
    (hc : g.lookup a = some c) (hsucc : succ c = dependencySet c) :
    Dag.Frontier succ g roots (insert a visited) (c.causalDependencies.reverse ++ stack) := by
  refine h.visit hc (fun x hx => ?_) (fun x hx => List.mem_append_right _ hx) fun b hb => ?_
  · rw [hsucc, mem_dependencySet]
    simpa using hx
  · rw [hsucc, mem_dependencySet] at hb
    exact Or.inr (List.mem_append_left _ (List.mem_reverse.mpr hb))

theorem budget_push {visited : Finset H} {stack : List H} {a : H} {c : CrdtChangeV2 H P}
    (ha : a ∉ visited) (hc : g.lookup a = some c) :
    Dag.budget (fun c => c.causalDependencies.length) g (insert a visited)
        (c.causalDependencies.reverse ++ stack) <
      Dag.budget (fun c => c.causalDependencies.length) g visited (a :: stack) :=
  Dag.budget_visit ha hc (by simp)

theorem budget_leaf {visited : Finset H} {stack : List H} {a : H} {c : CrdtChangeV2 H P}
    (ha : a ∉ visited) (hc : g.lookup a = some c) :
    Dag.budget (fun c => c.causalDependencies.length) g (insert a visited) stack <
      Dag.budget (fun c => c.causalDependencies.length) g visited (a :: stack) :=
  (Dag.budget_visit ha hc (Nat.zero_le _) :
    Dag.budget (fun c : CrdtChangeV2 H P => c.causalDependencies.length) g (insert a visited)
      ([] ++ stack) < _)

end Step

/-! ## `contains_ancestor` -/

/-- The search of `contains_ancestor` once `descendant ≠ ancestor`: pop a cid, skip it when
visited, answer `false` when the frontier holds no change for it and `true` when its change
depends on `ancestor`, else push the change's dependencies. -/
def containsAncestorSearch (nodes : Finmap fun _ : H => CrdtChangeV2 H P) (ancestor : H) :
    ℕ → Finset H → List H → Option Bool
  | 0, _, _ => none
  | _ + 1, _, [] => some false
  | fuel + 1, visited, cid :: pending =>
    if cid ∈ visited then containsAncestorSearch nodes ancestor fuel visited pending
    else
      match nodes.lookup cid with
      | none => some false
      | some change =>
        if ancestor ∈ change.causalDependencies then some true
        else containsAncestorSearch nodes ancestor fuel (insert cid visited)
          (change.causalDependencies.reverse ++ pending)

/-- `contains_ancestor`; `none` when the fuel runs out. -/
def CausalFrontierV2.containsAncestor (f : CausalFrontierV2 H P) (fuel : ℕ)
    (descendant ancestor : H) : Option Bool :=
  if descendant = ancestor then some true
  else containsAncestorSearch f.nodes ancestor fuel ∅ [descendant]

section ContainsAncestor

variable {g : Finmap fun _ : H => CrdtChangeV2 H P}

/-- The search from `d`: while no visited change depends on `ancestor`, it ends within its budget,
with `true` exactly when `d` reaches `ancestor`. -/
theorem containsAncestorSearch_spec (hclosed : Dag.Closed dependencySet g) {d ancestor : H}
    (hne : d ≠ ancestor) :
    ∀ fuel visited stack, Dag.Frontier dependencySet g {d} visited stack →
      (∀ v ∈ visited, ∀ c, g.lookup v = some c → ancestor ∉ c.causalDependencies) →
      Dag.budget (fun c => c.causalDependencies.length) g visited stack < fuel →
      ∃ b, containsAncestorSearch g ancestor fuel visited stack = some b ∧
        (b = true ↔ ReflTransGen (Dag.Edge dependencySet g) d ancestor)
  | 0, _, _, _, _, hfuel => absurd hfuel (Nat.not_lt_zero _)
  | fuel + 1, visited, [], hf, hnot, _ => by
    refine ⟨false, rfl, ?_⟩
    -- the search is over: a path to `ancestor` would end with an edge out of a visited change
    simp only [Bool.false_eq_true, false_iff]
    intro hreach
    rcases hreach.cases_tail with heq | ⟨v, hv, c, hc, hac⟩
    · exact hne heq.symm
    · exact hnot v (hf.reach_iff.mp (Dag.reach_singleton.mpr hv)) c hc (mem_dependencySet.mp hac)
  | fuel + 1, visited, a :: stack, hf, hnot, hfuel => by
    have hreach : Dag.Reach dependencySet g {d} a := hf.reach a (Or.inr List.mem_cons_self)
    by_cases ha : a ∈ visited
    · rw [containsAncestorSearch, if_pos ha]
      rw [Dag.budget_skip] at hfuel
      exact containsAncestorSearch_spec hclosed hne fuel visited stack (hf.skip ha) hnot
        (by omega)
    rw [containsAncestorSearch, if_neg ha]
    cases hc : g.lookup a with
    | none =>
      -- only the descendant can hold no change, and then it reaches nothing but itself
      have had : a = d := Finset.mem_singleton.mp
        (hclosed.mem_roots_of_reach hreach (Finmap.lookup_eq_none.mp hc))
      subst had
      refine ⟨false, rfl, ?_⟩
      simp only [Bool.false_eq_true, false_iff]
      intro h
      rcases h.cases_head with heq | ⟨v, ⟨c, hc', -⟩, -⟩
      · exact hne heq
      · rw [hc] at hc'
        cases hc'
    | some c =>
      dsimp only
      by_cases hdep : ancestor ∈ c.causalDependencies
      · rw [if_pos hdep]
        exact ⟨true, rfl, iff_of_true rfl
          ((Dag.reach_singleton.mp hreach).tail ⟨c, hc, mem_dependencySet.mpr hdep⟩)⟩
      rw [if_neg hdep]
      refine containsAncestorSearch_spec hclosed hne fuel _ _ (frontier_push hf hc rfl) ?_
        (lt_of_lt_of_le (budget_push ha hc) (by omega))
      intro v hv c' hc'
      rcases Finset.mem_insert.mp hv with rfl | hv
      · rw [hc] at hc'
        cases hc'
        exact hdep
      · exact hnot v hv c' hc'

/-- **`contains_ancestor` decides reachability.** On a frontier whose changes have all their
dependencies stored (every validated frontier), given the budget of its search, the search runs to
its end and answers `true` exactly when `ancestor` is `descendant` or is reached from it through
causal dependencies. -/
theorem CausalFrontierV2.containsAncestor_iff (f : CausalFrontierV2 H P)
    (hclosed : Dag.Closed dependencySet f.nodes) (descendant ancestor : H) {fuel : ℕ}
    (hfuel : Dag.budget (fun c => c.causalDependencies.length) f.nodes ∅ [descendant] < fuel) :
    ∃ b, f.containsAncestor fuel descendant ancestor = some b ∧
      (b = true ↔ ReflTransGen (Dag.Edge dependencySet f.nodes) descendant ancestor) := by
  rw [CausalFrontierV2.containsAncestor]
  split_ifs with h
  · exact ⟨true, rfl, iff_of_true rfl (h ▸ .refl)⟩
  · exact containsAncestorSearch_spec hclosed h fuel ∅ [descendant]
      (Dag.frontier_start fun x => by simp) (by simp) hfuel

end ContainsAncestor

/-- The chain `2 → 1` as a frontier with head `2`. -/
def chainFrontier : CausalFrontierV2 ℕ Unit :=
  ⟨[2], ((∅ : Finmap fun _ : ℕ => CrdtChangeV2 ℕ Unit).insert 1 ⟨[], 1, ()⟩).insert 2 ⟨[1], 2, ()⟩, 2⟩

/-- In the chain `2 → 1`, the search from `2` finds `1`, so `2` reaches `1`. -/
theorem CausalFrontierV2.containsAncestor_iff_chain :
    Dag.Closed dependencySet chainFrontier.nodes ∧
      Dag.budget (fun c => c.causalDependencies.length) chainFrontier.nodes ∅ [2] < 10 ∧
      ReflTransGen (Dag.Edge dependencySet chainFrontier.nodes) 2 1 := by
  have hclosed : Dag.Closed dependencySet chainFrontier.nodes :=
    dependenciesStored_iff.mp (by decide)
  have hfuel : Dag.budget (fun c => c.causalDependencies.length) chainFrontier.nodes ∅ [2] < 10 := by
    decide
  obtain ⟨b, hb, hiff⟩ := CausalFrontierV2.containsAncestor_iff chainFrontier hclosed 2 1 hfuel
  have htrue : chainFrontier.containsAncestor 10 2 1 = some true := by decide
  rw [htrue, Option.some_inj] at hb
  exact ⟨hclosed, hfuel, hiff.mp hb.symm⟩

/-! ## `at_heads` -/

/-- The walk of `at_heads`: pop a cid, skip it when collected, else take its change from the
frontier (`some none` when there is none, the `?` of the source), push the change's dependencies
and collect it. -/
def atHeadsWalk (source : Finmap fun _ : H => CrdtChangeV2 H P) :
    ℕ → (Finmap fun _ : H => CrdtChangeV2 H P) → List H →
      Option (Option (Finmap fun _ : H => CrdtChangeV2 H P))
  | 0, _, _ => none
  | _ + 1, nodes, [] => some (some nodes)
  | fuel + 1, nodes, cid :: pending =>
    if cid ∈ nodes then atHeadsWalk source fuel nodes pending
    else
      match source.lookup cid with
      | none => some none
      | some change =>
        atHeadsWalk source fuel (nodes.insert cid change)
          (change.causalDependencies.reverse ++ pending)

/-- `at_heads`: the outer `none` when the fuel runs out, the inner one when a key reached holds
no change. -/
def CausalFrontierV2.atHeads (f : CausalFrontierV2 H P) (fuel : ℕ) (heads : List H) :
    Option (Option (CausalFrontierV2 H P)) :=
  (atHeadsWalk f.nodes fuel ∅ heads.reverse).map fun walked =>
    walked.map fun nodes => ⟨heads, nodes, maxHeight nodes heads⟩

section AtHeads

variable {g : Finmap fun _ : H => CrdtChangeV2 H P}

/-- The walk from `roots`, its collected changes taken from `g`: within its budget it ends, with
`none` exactly when a root holds no change, and otherwise with `g` cut down to what the roots
reach. -/
theorem atHeadsWalk_spec (hclosed : Dag.Closed dependencySet g) {roots : Finset H} :
    ∀ fuel (nodes : Finmap fun _ : H => CrdtChangeV2 H P) stack,
      Dag.Frontier dependencySet g roots nodes.keys stack →
      (∀ x c, nodes.lookup x = some c → g.lookup x = some c) →
      Dag.budget (fun c => c.causalDependencies.length) g nodes.keys stack < fuel →
      ∃ r, atHeadsWalk g fuel nodes stack = some r ∧ (r = none ↔ ∃ x ∈ roots, x ∉ g) ∧
        ∀ out, r = some out → Dag.Restricts g out (Dag.Reach dependencySet g roots)
  | 0, _, _, _, _, hfuel => absurd hfuel (Nat.not_lt_zero _)
  | fuel + 1, nodes, [], hf, hsub, _ => by
    refine ⟨some nodes, rfl, ?_, ?_⟩
    · -- every root was collected, and what is collected is stored
      simp only [reduceCtorEq, false_iff, not_exists, not_and, not_not]
      intro x hx
      obtain ⟨c, hc⟩ := Finmap.mem_iff.mp (Finmap.mem_keys.mp
        ((hf.roots_mem x hx).resolve_right List.not_mem_nil))
      exact Finmap.mem_of_lookup_eq_some (hsub x c hc)
    · rintro out ⟨⟩ x
      constructor
      · intro hx
        obtain ⟨c, hc⟩ := Finmap.mem_iff.mp (Finmap.mem_keys.mp (hf.reach_iff.mp hx))
        rw [hc, hsub x c hc]
      · intro hx
        exact Finmap.lookup_eq_none.mpr fun hmem =>
          hx (hf.reach_iff.mpr (Finmap.mem_keys.mpr hmem))
  | fuel + 1, nodes, a :: stack, hf, hsub, hfuel => by
    by_cases ha : a ∈ nodes
    · rw [atHeadsWalk, if_pos ha]
      rw [Dag.budget_skip] at hfuel
      exact atHeadsWalk_spec hclosed fuel nodes stack (hf.skip (Finmap.mem_keys.mpr ha)) hsub
        (by omega)
    have ha' : a ∉ nodes.keys := fun h => ha (Finmap.mem_keys.mp h)
    rw [atHeadsWalk, if_neg ha]
    cases hc : g.lookup a with
    | none =>
      -- a key reached that holds no change: only a root can be one
      refine ⟨none, rfl, iff_of_true rfl ⟨a, ?_, Finmap.lookup_eq_none.mp hc⟩, fun _ h => nomatch h⟩
      exact hclosed.mem_roots_of_reach (hf.reach a (Or.inr List.mem_cons_self))
        (Finmap.lookup_eq_none.mp hc)
    | some c =>
      dsimp only
      refine atHeadsWalk_spec hclosed fuel _ _ ?_ ?_ ?_
      · rw [Finmap.keys_insert]
        exact frontier_push hf hc rfl
      · intro x c' hx
        by_cases hxa : x = a
        · subst hxa
          rw [Finmap.lookup_insert] at hx
          rw [hc, hx]
        · rw [Finmap.lookup_insert_of_ne _ hxa] at hx
          exact hsub x c' hx
      · rw [Finmap.keys_insert]
        exact lt_of_lt_of_le (budget_push ha' hc) (by omega)

theorem validated_of_restricts {f : CausalFrontierV2 H P} (hv : f.Validated)
    {sub : Finmap fun _ : H => CrdtChangeV2 H P} {roots : Finset H}
    (hsub : Dag.Restricts f.nodes sub (Dag.Reach dependencySet f.nodes roots))
    (heads : List H) (m : ℕ) : (⟨heads, sub, m⟩ : CausalFrontierV2 H P).Validated := by
  refine ⟨hsub.closed hv.closed, heightsValid_of_agree hv.heights fun x c hx => ?_⟩
  obtain ⟨hreach, hgx⟩ := hsub.lookup_eq_some hx
  refine ⟨hgx, fun d hd => (hsub d).1 (hreach.tail ⟨c, hgx, mem_dependencySet.mpr hd⟩)⟩

/-- **`at_heads` is the snapshot of the ancestry of the heads.** On a frontier closed under
dependencies, given the budget of its walk, `at_heads` runs to its end; it fails exactly when a
requested head holds no change, and otherwise returns the requested heads over exactly the
frontier's changes that they reach, with the largest head height; the snapshot of a validated
frontier is validated. -/
theorem CausalFrontierV2.atHeads_spec (f : CausalFrontierV2 H P)
    (hclosed : Dag.Closed dependencySet f.nodes) (heads : List H) {fuel : ℕ}
    (hfuel : Dag.budget (fun c => c.causalDependencies.length) f.nodes ∅ heads.reverse < fuel) :
    ∃ r, f.atHeads fuel heads = some r ∧ (r = none ↔ ∃ h ∈ heads, h ∉ f.nodes) ∧
      ∀ f', r = some f' → f'.heads = heads ∧
        Dag.Restricts f.nodes f'.nodes (Dag.Reach dependencySet f.nodes heads.toFinset) ∧
        f'.maxHeadHeight = maxHeight f'.nodes heads ∧ (f.Validated → f'.Validated) := by
  have hstart : Dag.Frontier dependencySet f.nodes heads.toFinset
      (∅ : Finmap fun _ : H => CrdtChangeV2 H P).keys heads.reverse := by
    rw [Finmap.keys_empty]
    exact Dag.frontier_start fun x => by simp
  obtain ⟨r, hr, hnone, hsome⟩ := atHeadsWalk_spec hclosed fuel ∅ heads.reverse hstart (by simp)
    (by simpa using hfuel)
  refine ⟨r.map fun nodes => ⟨heads, nodes, maxHeight nodes heads⟩,
    by rw [CausalFrontierV2.atHeads, hr, Option.map_some], ?_, ?_⟩
  · simpa using hnone
  · rintro f' hf'
    obtain ⟨out, rfl, rfl⟩ := Option.map_eq_some_iff.mp hf'
    exact ⟨rfl, hsome out rfl, rfl, fun hv => validated_of_restricts hv (hsome out rfl) _ _⟩

end AtHeads

/-- The snapshot at head `1` of the chain `2 → 1` is a validated frontier. -/
theorem CausalFrontierV2.atHeads_spec_chain :
    Dag.Closed dependencySet chainFrontier.nodes ∧
      Dag.budget (fun c => c.causalDependencies.length) chainFrontier.nodes ∅ [1] < 10 ∧
      ∃ f', chainFrontier.atHeads 10 [1] = some (some f') ∧ f'.Validated := by
  have hclosed : Dag.Closed dependencySet chainFrontier.nodes :=
    dependenciesStored_iff.mp (by decide)
  have hfuel : Dag.budget (fun c => c.causalDependencies.length) chainFrontier.nodes ∅ [1] < 10 := by
    decide
  obtain ⟨r, hr, hnone, hsome⟩ := CausalFrontierV2.atHeads_spec chainFrontier hclosed [1] hfuel
  cases r with
  | none => exact absurd (hnone.mp rfl) (by decide)
  | some f' => exact ⟨hclosed, hfuel, f', hr, (hsome f' rfl).2.2.2 (by decide)⟩

/-! ## `with_change` -/

/-- The loop of `with_change` over the dependencies of a change: the largest of their heights,
`none` when one of them is not stored (the `?` of the source). -/
def dependencyHeight (nodes : Finmap fun _ : H => CrdtChangeV2 H P) (change : CrdtChangeV2 H P) :
    Option ℕ :=
  change.causalDependencies.foldlM (fun parentHeight dependency =>
    (nodes.lookup dependency).map fun d => max parentHeight d.causalHeight) 0

section WithChange

variable [LinearOrder H]

/-- What `with_change` builds once its checks pass: the change stored under `cid`, and as heads
the canonical ones among the current heads and `cid`, sorted and deduplicated. -/
def CausalFrontierV2.stageChange (f : CausalFrontierV2 H P) (currentHeads : List H) (cid : H)
    (change : CrdtChangeV2 H P) : CausalFrontierV2 H P :=
  let nodes := f.nodes.insert cid change
  -- `sort` then `dedup`, which drops a repeat next to its twin
  let heads := ((currentHeads ++ [cid]).mergeSort fun a b => decide (a ≤ b)).destutter (· ≠ ·)
  let heads := (⟨heads, nodes, f.maxHeadHeight⟩ : CausalFrontierV2 H P).canonicalHeads
  ⟨heads, nodes, maxHeight nodes heads⟩

@[simp] theorem CausalFrontierV2.stageChange_nodes (f : CausalFrontierV2 H P)
    (currentHeads : List H) (cid : H) (change : CrdtChangeV2 H P) :
    (f.stageChange currentHeads cid change).nodes = f.nodes.insert cid change := rfl

/-- `with_change`. -/
def CausalFrontierV2.withChange [DecidableEq P] (f : CausalFrontierV2 H P) (currentHeads : List H) (cid : H)
    (change : CrdtChangeV2 H P) : Option (CausalFrontierV2 H P) := do
  let parentHeight ← dependencyHeight f.nodes change
  -- `checked_add(1)` on a `u64`
  let expectedHeight ← if parentHeight + 1 < 2 ^ 64 then some (parentHeight + 1) else none
  if change.causalHeight ≠ expectedHeight then none
  else if (f.nodes.lookup cid).any fun existing => decide (existing ≠ change) then none
  else some (f.stageChange currentHeads cid change)

theorem max?_getD_cons (x : ℕ) (xs : List ℕ) : (x :: xs).max?.getD 0 = max x (xs.max?.getD 0) := by
  cases h : xs.max? <;> simp [List.max?_cons, h]

omit [LinearOrder H] in
theorem foldlM_height_eq_some {g : Finmap fun _ : H => CrdtChangeV2 H P} :
    ∀ (l : List H) (acc h : ℕ),
      l.foldlM (fun m d => (g.lookup d).map fun c => max m c.causalHeight) acc = some h ↔
        (∀ d ∈ l, d ∈ g) ∧
          h = max acc (((l.filterMap g.lookup).map CrdtChangeV2.causalHeight).max?.getD 0)
  | [], acc, h => by simp [eq_comm]
  | d :: l, acc, h => by
    cases hd : g.lookup d with
    | none =>
      simp only [List.foldlM_cons, hd, Option.map_none, Option.bind_eq_bind, Option.bind_none,
        reduceCtorEq, false_iff, not_and, List.forall_mem_cons]
      exact fun hmem => absurd hmem.1 (Finmap.lookup_eq_none.mp hd)
    | some c =>
      have hfm : (d :: l).filterMap g.lookup = c :: l.filterMap g.lookup :=
        List.filterMap_cons_some hd
      rw [List.foldlM_cons, hd, Option.map_some, Option.bind_eq_bind, Option.bind_some,
        foldlM_height_eq_some l, hfm, List.map_cons, max?_getD_cons, ← max_assoc,
        List.forall_mem_cons]
      simp [Finmap.mem_of_lookup_eq_some hd]

omit [LinearOrder H] in
theorem dependencyHeight_eq_some {g : Finmap fun _ : H => CrdtChangeV2 H P}
    {c : CrdtChangeV2 H P} {h : ℕ} :
    dependencyHeight g c = some h ↔ (∀ d ∈ c.causalDependencies, d ∈ g) ∧ h = parentHeight g c := by
  rw [dependencyHeight, foldlM_height_eq_some, parentHeight, Nat.zero_max]

theorem withChange_eq_some [DecidableEq P] {f f' : CausalFrontierV2 H P} {currentHeads : List H} {cid : H}
    {change : CrdtChangeV2 H P} :
    f.withChange currentHeads cid change = some f' ↔
      ((∀ d ∈ change.causalDependencies, d ∈ f.nodes) ∧ parentHeight f.nodes change + 1 < 2 ^ 64 ∧
        change.causalHeight = parentHeight f.nodes change + 1 ∧
        ∀ c ∈ f.nodes.lookup cid, c = change) ∧ f' = f.stageChange currentHeads cid change := by
  rw [CausalFrontierV2.withChange]
  cases hd : dependencyHeight f.nodes change with
  | none =>
    -- some dependency is missing
    simp only [Option.bind_eq_bind, Option.bind_none, reduceCtorEq, false_iff, not_and]
    intro hchecks
    have := dependencyHeight_eq_some.mpr ⟨hchecks.1, rfl⟩
    rw [hd] at this
    cases this
  | some ph =>
    obtain ⟨hall, rfl⟩ := dependencyHeight_eq_some.mp hd
    simp only [Option.bind_eq_bind, Option.bind_some]
    by_cases hof : parentHeight f.nodes change + 1 < 2 ^ 64
    swap
    · rw [if_neg hof]
      simp only [Option.bind_none, reduceCtorEq, false_iff, not_and]
      exact fun hchecks => absurd hchecks.2.1 hof
    rw [if_pos hof]
    by_cases hh : change.causalHeight = parentHeight f.nodes change + 1
    swap
    · rw [if_pos hh]
      simp only [reduceCtorEq, false_iff, not_and]
      exact fun hchecks => absurd hchecks.2.2.1 hh
    rw [if_neg (not_not.mpr hh)]
    cases hcid : f.nodes.lookup cid with
    | none =>
      simp only [Option.any_none, Bool.false_eq_true, if_false, Option.some.injEq]
      exact ⟨fun h => ⟨⟨hall, hof, hh, by simp⟩, h.symm⟩, fun h => h.2.symm⟩
    | some existing =>
      by_cases he : existing = change
      · subst he
        simp only [Option.any_some, ne_eq, not_true_eq_false, decide_false, Bool.false_eq_true,
          if_false, Option.some.injEq]
        exact ⟨fun h => ⟨⟨hall, hof, hh, by simp⟩, h.symm⟩, fun h => h.2.symm⟩
      · simp only [Option.any_some, ne_eq, he, not_false_eq_true, decide_true, if_true,
          reduceCtorEq, false_iff, not_and]
        exact fun hchecks => absurd (hchecks.2.2.2 existing rfl) he

omit [LinearOrder H] in
theorem lookup_insert_of_mem {g : Finmap fun _ : H => CrdtChangeV2 H P} {cid d : H}
    {change : CrdtChangeV2 H P} (hcid : ∀ c ∈ g.lookup cid, c = change) (hd : d ∈ g) :
    (g.insert cid change).lookup d = g.lookup d := by
  by_cases hdc : d = cid
  · subst hdc
    obtain ⟨c, hc⟩ := Finmap.mem_iff.mp hd
    rw [Finmap.lookup_insert, hc, hcid c hc]
  · exact Finmap.lookup_insert_of_ne _ hdc

theorem sort_destutter_spec (l : List H) :
    ((l.mergeSort fun a b => decide (a ≤ b)).destutter (· ≠ ·)).Pairwise (· < ·) ∧
      ∀ x, x ∈ (l.mergeSort fun a b => decide (a ≤ b)).destutter (· ≠ ·) ↔ x ∈ l := by
  have hle : (l.mergeSort fun a b => decide (a ≤ b)).Pairwise (· ≤ ·) :=
    (List.pairwise_mergeSort (fun a b c hab hbc => by simp only [decide_eq_true_eq] at *; exact le_trans hab hbc)
      (fun a b => by simpa using le_total a b) l).imp fun h => of_decide_eq_true h
  rw [hle.destutter_eq_dedup]
  refine ⟨?_, fun x => by simp⟩
  exact ((hle.sublist (List.dedup_sublist _)).and (List.nodup_dedup _)).imp
    fun h => lt_of_le_of_ne h.1 h.2

theorem validated_stageChange {f : CausalFrontierV2 H P} (hv : f.Validated)
    {currentHeads : List H} {cid : H} {change : CrdtChangeV2 H P}
    (hall : ∀ d ∈ change.causalDependencies, d ∈ f.nodes)
    (hof : parentHeight f.nodes change + 1 < 2 ^ 64)
    (hheight : change.causalHeight = parentHeight f.nodes change + 1)
    (hcid : ∀ c ∈ f.nodes.lookup cid, c = change) :
    (f.stageChange currentHeads cid change).Validated := by
  have hsame : ∀ {d}, d ∈ f.nodes → (f.nodes.insert cid change).lookup d = f.nodes.lookup d :=
    lookup_insert_of_mem hcid
  refine ⟨?_, fun x _ c hc => ?_⟩
  · -- a dependency of the new change is stored already
    rw [CausalFrontierV2.stageChange_nodes]
    exact Dag.closed_insert hv.closed fun b hb => hall b (mem_dependencySet.mp hb)
  · -- every height reads only stored dependencies, whose lookups did not change
    by_cases hxc : x = cid
    · subst hxc
      rw [CausalFrontierV2.stageChange_nodes, Finmap.lookup_insert] at hc
      cases hc
      rw [CausalFrontierV2.stageChange_nodes, parentHeight_congr fun d hd => hsame (hall d hd)]
      exact ⟨hof, hheight⟩
    · rw [CausalFrontierV2.stageChange_nodes, Finmap.lookup_insert_of_ne _ hxc] at hc
      rw [CausalFrontierV2.stageChange_nodes, parentHeight_congr fun d hd => hsame (hv.closed x d ⟨c, hc, mem_dependencySet.mpr hd⟩)]
      exact hv.heights x (Finmap.mem_keys.mpr (Finmap.mem_of_lookup_eq_some hc)) c hc

/-- The heads of the staged frontier: in ascending order, exactly the current heads and `cid`
that no stored change depends on. -/
theorem stageChange_heads (f : CausalFrontierV2 H P) (currentHeads : List H) (cid : H)
    (change : CrdtChangeV2 H P) :
    (f.stageChange currentHeads cid change).heads.Pairwise (· < ·) ∧
      ∀ x, x ∈ (f.stageChange currentHeads cid change).heads ↔ (x ∈ currentHeads ∨ x = cid) ∧
        ¬ ∃ a, Dag.Edge dependencySet (f.stageChange currentHeads cid change).nodes a x := by
  obtain ⟨hsorted, hmem⟩ := sort_destutter_spec (currentHeads ++ [cid])
  refine ⟨hsorted.filter _, fun x => ?_⟩
  rw [CausalFrontierV2.stageChange]
  simp only [CausalFrontierV2.canonicalHeads, List.mem_filter, hmem, List.mem_append,
    List.mem_singleton, decide_eq_true_eq]
  rw [CausalFrontierV2.mem_dependencies]

theorem cid_mem_stageChange_heads {f : CausalFrontierV2 H P} (hv : f.Validated)
    {currentHeads : List H} {cid : H} {change : CrdtChangeV2 H P}
    (hall : ∀ d ∈ change.causalDependencies, d ∈ f.nodes) (hnew : cid ∉ f.nodes) :
    cid ∈ (f.stageChange currentHeads cid change).heads := by
  refine ((stageChange_heads f currentHeads cid change).2 cid).mpr ⟨Or.inr rfl, ?_⟩
  rintro ⟨a, hedge⟩
  rw [CausalFrontierV2.stageChange_nodes] at hedge
  rcases Dag.edge_insert.mp hedge with ⟨-, hb⟩ | ⟨-, hedge⟩
  · exact hnew (hall cid (mem_dependencySet.mp hb))
  · exact hnew (hv.closed a cid hedge)

/-- **`with_change` keeps a frontier validated.** On a validated frontier, `with_change` accepts a
change exactly when all its dependencies are stored, its height is one above the largest of
theirs within `u64`, and `cid` holds no other change. The frontier it returns stores the change
and is validated; its heads are ascending without repeats, exactly the current heads and `cid`
that no stored change depends on, `cid` among them when it is new. -/
theorem CausalFrontierV2.withChange_spec [DecidableEq P] (f : CausalFrontierV2 H P) (hv : f.Validated)
    (currentHeads : List H) (cid : H) (change : CrdtChangeV2 H P) :
    ((f.withChange currentHeads cid change).isSome ↔
      (∀ d ∈ change.causalDependencies, d ∈ f.nodes) ∧ parentHeight f.nodes change + 1 < 2 ^ 64 ∧
        change.causalHeight = parentHeight f.nodes change + 1 ∧
        ∀ c ∈ f.nodes.lookup cid, c = change) ∧
    ∀ f', f.withChange currentHeads cid change = some f' →
      f'.Validated ∧ f'.nodes = f.nodes.insert cid change ∧ f'.heads.Pairwise (· < ·) ∧
      (∀ x, x ∈ f'.heads ↔
        (x ∈ currentHeads ∨ x = cid) ∧ ¬ ∃ a, Dag.Edge dependencySet f'.nodes a x) ∧
      (cid ∉ f.nodes → cid ∈ f'.heads) := by
  refine ⟨?_, fun f' hf' => ?_⟩
  · rw [Option.isSome_iff_exists]
    simp only [withChange_eq_some, exists_and_left, exists_eq, and_true]
  obtain ⟨⟨hall, hof, hheight, hcid⟩, rfl⟩ := withChange_eq_some.mp hf'
  obtain ⟨hsorted, hmem⟩ := stageChange_heads f currentHeads cid change
  exact ⟨validated_stageChange hv hall hof hheight hcid, rfl, hsorted, hmem,
    cid_mem_stageChange_heads hv hall⟩

/-- Accepting the change `3 → 2` on top of the chain `2 → 1` keeps it validated, with the new
change as a head. -/
theorem CausalFrontierV2.withChange_spec_chain :
    chainFrontier.Validated ∧ ∃ f', chainFrontier.withChange [2] 3 ⟨[2], 3, ()⟩ = some f' ∧
      f'.Validated ∧ 3 ∈ f'.heads := by
  have hv : chainFrontier.Validated := by decide
  obtain ⟨hsome, hres⟩ := CausalFrontierV2.withChange_spec chainFrontier hv [2] 3 ⟨[2], 3, ()⟩
  obtain ⟨f', hf'⟩ := Option.isSome_iff_exists.mp (hsome.mpr (by decide))
  obtain ⟨hv', -, -, -, hnew⟩ := hres f' hf'
  exact ⟨hv, f', hf', hv', hnew (by decide)⟩

end WithChange

/-! ## `actor_materializations` -/

/-- `BlobRefV2`: a content hash and a length (a `u64`). -/
structure BlobRefV2 (H : Type) where
  hash : H
  len : ℕ
  deriving DecidableEq, Repr

/-- `CrdtMaterializationV2`. -/
structure CrdtMaterializationV2 (A H : Type) where
  actor : A
  state : BlobRefV2 H
  deriving DecidableEq, Repr

/-- `ActorGenesisV2`, with the fields `actor_materializations` reads. -/
structure ActorGenesisV2 (A H : Type) where
  actor : A
  initialState : BlobRefV2 H
  deriving DecidableEq, Repr

/-- `CausalSelectionError`. -/
inductive CausalSelectionError where
  | corrupt
  deriving DecidableEq, Repr

section Materializations

variable {A : Type} [DecidableEq A] (materializations : P → List (CrdtMaterializationV2 A H))

/-- The materialization of `actor` a change carries, the first as `find` takes it; the change's
`materializations` field is read from its body. -/
def materializationOf (actor : A) (change : CrdtChangeV2 H P) :
    Option (CrdtMaterializationV2 A H) :=
  (materializations change.body).find? fun m => decide (m.actor = actor)

/-- The walk of `actor_materializations`: pop a cid, skip it when visited, fail when the frontier
holds no change for it. A change that materializes the actor adds its state, failing when another
state has its hash; a change without one and without dependencies adds the initial state; any
other change pushes its dependencies. -/
def materializationsWalk (nodes : Finmap fun _ : H => CrdtChangeV2 H P)
    (descriptor : ActorGenesisV2 A H) :
    ℕ → Finset H → (Finmap fun _ : H => BlobRefV2 H) → List H →
      Option (Except CausalSelectionError (Finmap fun _ : H => BlobRefV2 H))
  | 0, _, _, _ => none
  | _ + 1, _, frontier, [] => some (.ok frontier)
  | fuel + 1, visited, frontier, cid :: pending =>
    if cid ∈ visited then materializationsWalk nodes descriptor fuel visited frontier pending
    else
      match nodes.lookup cid with
      | none => some (.error .corrupt)
      | some change =>
        match materializationOf materializations descriptor.actor change with
        | some materialization =>
          if (frontier.lookup materialization.state.hash).any
              fun existing => decide (existing ≠ materialization.state) then
            some (.error .corrupt)
          else
            materializationsWalk nodes descriptor fuel (insert cid visited)
              (frontier.insert materialization.state.hash materialization.state) pending
        | none =>
          if change.causalDependencies.isEmpty then
            materializationsWalk nodes descriptor fuel (insert cid visited)
              (frontier.insert descriptor.initialState.hash descriptor.initialState) pending
          else
            materializationsWalk nodes descriptor fuel (insert cid visited) frontier
              (change.causalDependencies.reverse ++ pending)

/-- `actor_materializations`; `none` when the fuel runs out. -/
def CausalFrontierV2.actorMaterializations [LinearOrder H] (f : CausalFrontierV2 H P) (fuel : ℕ)
    (descriptor : ActorGenesisV2 A H) :
    Option (Except CausalSelectionError (List (BlobRefV2 H))) :=
  if f.heads.isEmpty then some (.ok [descriptor.initialState])
  else
    (materializationsWalk materializations f.nodes descriptor fuel ∅ ∅ f.heads.reverse).map
      fun walked => walked.bind fun frontier =>
        -- `frontier.into_values()`: the states in ascending hash order
        let states := frontier.sortedEntries.map Prod.snd
        if states.isEmpty then .error .corrupt else .ok states

/-- The successors of a change in the walk of `actor_materializations`: none when the change
materializes the actor, its dependencies otherwise. -/
def branchDependencies (actor : A) (change : CrdtChangeV2 H P) : Finset H :=
  if (materializationOf materializations actor change).isSome then ∅ else dependencySet change

/-- The state a change adds when the walk reaches it: its materialization of the actor, or the
initial state when it is a root of the history without one. -/
def contribution (descriptor : ActorGenesisV2 A H) (change : CrdtChangeV2 H P) :
    Option (BlobRefV2 H) :=
  match materializationOf materializations descriptor.actor change with
  | some m => some m.state
  | none => if change.causalDependencies.isEmpty then some descriptor.initialState else none

/-- The states the walk from `roots` selects: the contributions of the changes it reaches without
passing a materialization of the actor. -/
def Selected (nodes : Finmap fun _ : H => CrdtChangeV2 H P) (roots : Finset H)
    (descriptor : ActorGenesisV2 A H) (b : BlobRefV2 H) : Prop :=
  ∃ x c, Dag.Reach (branchDependencies materializations descriptor.actor) nodes roots x ∧
    nodes.lookup x = some c ∧ contribution materializations descriptor c = some b

/-- What the walk has collected: the states its visited changes contribute, each under its
hash. -/
def Collected (g : Finmap fun _ : H => CrdtChangeV2 H P) (descriptor : ActorGenesisV2 A H)
    (visited : Finset H) (frontier : Finmap fun _ : H => BlobRefV2 H) : Prop :=
  ∀ h b, frontier.lookup h = some b ↔
    b.hash = h ∧ ∃ x ∈ visited, ∃ c, g.lookup x = some c ∧
      contribution materializations descriptor c = some b

variable {materializations}

theorem branchDependencies_subset (actor : A) (change : CrdtChangeV2 H P) :
    branchDependencies materializations actor change ⊆ dependencySet change := by
  unfold branchDependencies
  split_ifs
  · exact Finset.empty_subset _
  · exact subset_rfl

theorem branchDependencies_eq_empty {descriptor : ActorGenesisV2 A H} {change : CrdtChangeV2 H P}
    {b : BlobRefV2 H} (hb : contribution materializations descriptor change = some b) :
    branchDependencies materializations descriptor.actor change = ∅ := by
  unfold contribution at hb
  unfold branchDependencies
  cases hm : materializationOf materializations descriptor.actor change with
  | some m => rfl
  | none =>
    -- no materialization: only a root contributes, and a root has no dependencies
    rw [hm] at hb
    have hroot : change.causalDependencies.isEmpty := by
      by_contra hroot
      rw [if_neg hroot] at hb
      cases hb
    simp [dependencySet, List.isEmpty_iff.mp hroot]

section Walk

variable {g : Finmap fun _ : H => CrdtChangeV2 H P} {roots : Finset H}
  {descriptor : ActorGenesisV2 A H}

theorem contributes_insert {visited : Finset H} {a : H} {c : CrdtChangeV2 H P}
    (hc : g.lookup a = some c) {b : BlobRefV2 H} :
    (∃ x ∈ insert a visited, ∃ c', g.lookup x = some c' ∧
        contribution materializations descriptor c' = some b) ↔
      contribution materializations descriptor c = some b ∨
        ∃ x ∈ visited, ∃ c', g.lookup x = some c' ∧
          contribution materializations descriptor c' = some b := by
  simp only [Finset.mem_insert, exists_eq_or_imp, hc, Option.some.injEq, exists_eq_left']

theorem Collected.visit_none {visited : Finset H} {frontier : Finmap fun _ : H => BlobRefV2 H}
    (hcol : Collected materializations g descriptor visited frontier)
    {a : H} {c : CrdtChangeV2 H P} (hc : g.lookup a = some c)
    (hnone : contribution materializations descriptor c = none) :
    Collected materializations g descriptor (insert a visited) frontier := by
  intro h b
  rw [hcol h b, contributes_insert hc, hnone]
  simp

theorem Collected.visit_some {visited : Finset H} {frontier : Finmap fun _ : H => BlobRefV2 H}
    (hcol : Collected materializations g descriptor visited frontier)
    {a : H} {c : CrdtChangeV2 H P} (hc : g.lookup a = some c) {b : BlobRefV2 H}
    (hb : contribution materializations descriptor c = some b)
    (hinj : ∀ b', b'.hash = b.hash → (∃ x ∈ visited, ∃ c', g.lookup x = some c' ∧
      contribution materializations descriptor c' = some b') → b' = b) :
    Collected materializations g descriptor (insert a visited)
      (frontier.insert b.hash b) := by
  intro h b'
  rw [contributes_insert hc, hb]
  by_cases hh : h = b.hash
  · -- under `b`'s hash the walk now holds `b`, which every state of that hash equals
    subst hh
    rw [Finmap.lookup_insert, Option.some.injEq]
    constructor
    · rintro rfl
      exact ⟨rfl, Or.inl rfl⟩
    · rintro ⟨hhash, hb' | hvis⟩
      · exact hb'
      · exact (hinj b' hhash hvis).symm
  · rw [Finmap.lookup_insert_of_ne _ hh, hcol h b']
    refine and_congr_right fun hhash => ⟨Or.inr, ?_⟩
    rintro (hb' | hvis)
    · cases Option.some.inj hb'
      exact absurd hhash.symm hh
    · exact hvis

theorem frontier_visit_leaf {succ : CrdtChangeV2 H P → Finset H} {visited : Finset H}
    {stack : List H} {a : H} {c : CrdtChangeV2 H P}
    (h : Dag.Frontier succ g roots visited (a :: stack)) (hc : g.lookup a = some c)
    (hsucc : succ c = ∅) : Dag.Frontier succ g roots (insert a visited) stack :=
  h.visit hc (fun _ hx => Or.inr hx) (fun _ hx => hx) fun b hb => by
    rw [hsucc] at hb
    exact absurd hb (Finset.notMem_empty b)

/-- The walk from stored roots over a closed graph, states of one hash among those selected being
equal: within its budget it ends without an error, having collected every selected state under
its hash. -/
theorem materializationsWalk_spec (hclosed : Dag.Closed dependencySet g)
    (hroots : ∀ r ∈ roots, r ∈ g)
    (hinj : ∀ b b', Selected materializations g roots descriptor b →
      Selected materializations g roots descriptor b' → b.hash = b'.hash → b = b') :
    ∀ fuel visited frontier stack,
      Dag.Frontier (branchDependencies materializations descriptor.actor) g roots visited stack →
      Collected materializations g descriptor visited frontier →
      Dag.budget (fun c => c.causalDependencies.length) g visited stack < fuel →
      ∃ frontier', materializationsWalk materializations g descriptor fuel visited frontier stack =
          some (.ok frontier') ∧
        ∀ h b, frontier'.lookup h = some b ↔
          b.hash = h ∧ Selected materializations g roots descriptor b
  | 0, _, _, _, _, _, hfuel => absurd hfuel (Nat.not_lt_zero _)
  | fuel + 1, visited, frontier, [], hf, hcol, _ => by
    -- the walk is over: it visited exactly the changes it reaches
    refine ⟨frontier, rfl, fun h b => ?_⟩
    rw [hcol h b]
    refine and_congr_right fun _ => ⟨fun ⟨x, hx, c, hc, hb⟩ => ?_, fun ⟨x, c, hx, hc, hb⟩ => ?_⟩
    · exact ⟨x, c, hf.reach x (Or.inl hx), hc, hb⟩
    · exact ⟨x, hf.reach_iff.mp hx, c, hc, hb⟩
  | fuel + 1, visited, frontier, a :: stack, hf, hcol, hfuel => by
    have hreach : Dag.Reach (branchDependencies materializations descriptor.actor) g roots a :=
      hf.reach a (Or.inr List.mem_cons_self)
    by_cases ha : a ∈ visited
    · rw [materializationsWalk, if_pos ha]
      rw [Dag.budget_skip] at hfuel
      exact materializationsWalk_spec hclosed hroots hinj fuel visited frontier stack
        (hf.skip ha) hcol (by omega)
    rw [materializationsWalk, if_neg ha]
    -- every key the walk reaches is stored: it follows dependencies from stored roots
    obtain ⟨c, hc⟩ := Finmap.mem_iff.mp (hclosed.mem_of_reach hroots
      (hreach.mono (branchDependencies_subset descriptor.actor)))
    rw [hc]
    dsimp only
    -- a state collected so far under the hash of a selected one is that state
    have hsel : ∀ {b}, contribution materializations descriptor c = some b →
        ∀ b', b'.hash = b.hash → (∃ x ∈ visited, ∃ c', g.lookup x = some c' ∧
          contribution materializations descriptor c' = some b') → b' = b :=
      fun {b} hb b' hhash ⟨x, hx, c', hc', hb'⟩ =>
        hinj b' b ⟨x, c', hf.reach x (Or.inl hx), hc', hb'⟩ ⟨a, c, hreach, hc, hb⟩ hhash
    have hleaf : Dag.budget (fun c => c.causalDependencies.length) g (insert a visited) stack <
        fuel :=
      lt_of_lt_of_le (budget_leaf ha hc) (by omega)
    cases hm : materializationOf materializations descriptor.actor c with
    | some m =>
      dsimp only
      have hb : contribution materializations descriptor c = some m.state := by
        rw [contribution, hm]
      -- the hash check passes: a state collected under this hash is this one
      have hcheck : ((frontier.lookup m.state.hash).any
          fun existing => decide (existing ≠ m.state)) = false := by
        cases hex : frontier.lookup m.state.hash with
        | none => rfl
        | some existing =>
          obtain ⟨hhash, hvis⟩ := (hcol _ existing).mp hex
          simp [hsel hb existing hhash hvis]
      rw [hcheck, if_neg Bool.false_ne_true]
      exact materializationsWalk_spec hclosed hroots hinj fuel _ _ stack
        (frontier_visit_leaf hf hc (branchDependencies_eq_empty hb))
        (hcol.visit_some hc hb (hsel hb)) hleaf
    | none =>
      dsimp only
      by_cases hroot : c.causalDependencies.isEmpty
      · have hb : contribution materializations descriptor c = some descriptor.initialState := by
          rw [contribution, hm, if_pos hroot]
        rw [if_pos hroot]
        exact materializationsWalk_spec hclosed hroots hinj fuel _ _ stack
          (frontier_visit_leaf hf hc (branchDependencies_eq_empty hb))
          (hcol.visit_some hc hb (hsel hb)) hleaf
      · have hnone : contribution materializations descriptor c = none := by
          rw [contribution, hm, if_neg hroot]
        rw [if_neg hroot]
        refine materializationsWalk_spec hclosed hroots hinj fuel _ _ _
          (frontier_push hf hc (by simp [branchDependencies, hm])) (hcol.visit_none hc hnone)
          (lt_of_lt_of_le (budget_push ha hc) (by omega))

/-- In an acyclic closed graph, the walk from a stored key selects some state: below any change
that neither materializes the actor nor is a root lies a dependency it goes on to. -/
theorem exists_selected (hclosed : Dag.Closed dependencySet g)
    (hacyc : Dag.Acyclic dependencySet g) :
    ∀ x, x ∈ g → Dag.Reach (branchDependencies materializations descriptor.actor) g roots x →
      ∃ b, Selected materializations g roots descriptor b := by
  refine hacyc.induction fun x ih hx hreach => ?_
  obtain ⟨c, hc⟩ := Finmap.mem_iff.mp hx
  cases hm : materializationOf materializations descriptor.actor c with
  | some m => exact ⟨m.state, x, c, hreach, hc, by rw [contribution, hm]⟩
  | none =>
    by_cases hroot : c.causalDependencies.isEmpty
    · exact ⟨descriptor.initialState, x, c, hreach, hc, by rw [contribution, hm, if_pos hroot]⟩
    · obtain ⟨d, hd⟩ := List.exists_mem_of_ne_nil _ (fun h => hroot (List.isEmpty_iff.mpr h))
      have hedge : Dag.Edge dependencySet g x d := ⟨c, hc, mem_dependencySet.mpr hd⟩
      have hbranch : Dag.Edge (branchDependencies materializations descriptor.actor) g x d :=
        ⟨c, hc, by simpa [branchDependencies, hm] using hd⟩
      exact ih d hedge (hclosed x d hedge) (hreach.tail hbranch)

end Walk

/-- **`actor_materializations` selects the nearest materialization on every branch.** On a
validated frontier with heads, all of them stored, and given the budget of its walk, when states
of one hash among those it selects are equal, `actor_materializations` returns without an error:
in ascending hash order, each once, exactly the states of the actor that the changes reached from
the heads without passing a materialization of the actor contribute (their materialization, or
the initial state at a root of the history). -/
theorem CausalFrontierV2.actorMaterializations_spec [LinearOrder H] (f : CausalFrontierV2 H P)
    (hv : f.Validated) (hne : f.heads ≠ []) (hheads : ∀ r ∈ f.heads, r ∈ f.nodes)
    (descriptor : ActorGenesisV2 A H)
    (hinj : ∀ b b', Selected materializations f.nodes f.heads.toFinset descriptor b →
      Selected materializations f.nodes f.heads.toFinset descriptor b' → b.hash = b'.hash → b = b')
    {fuel : ℕ}
    (hfuel : Dag.budget (fun c => c.causalDependencies.length) f.nodes ∅ f.heads.reverse < fuel) :
    ∃ states, f.actorMaterializations materializations fuel descriptor = some (.ok states) ∧
      states.Pairwise (fun a b => a.hash < b.hash) ∧
      ∀ b, b ∈ states ↔ Selected materializations f.nodes f.heads.toFinset descriptor b := by
  obtain ⟨frontier, hwalk, hfrontier⟩ := materializationsWalk_spec hv.closed
    (fun r hr => hheads r (List.mem_toFinset.mp hr)) hinj fuel ∅ ∅ f.heads.reverse
    (Dag.frontier_start fun x => by simp) (fun h b => by simp [Finmap.lookup_empty]) hfuel
  -- the states listed are the collected ones
  have hmem : ∀ b, b ∈ frontier.sortedEntries.map Prod.snd ↔
      Selected materializations f.nodes f.heads.toFinset descriptor b := by
    intro b
    simp only [List.mem_map, Prod.exists, Finmap.mem_sortedEntries, exists_eq_right]
    constructor
    · rintro ⟨h, hb⟩
      exact ((hfrontier h b).mp hb).2
    · exact fun hb => ⟨b.hash, (hfrontier _ b).mpr ⟨rfl, hb⟩⟩
  -- a head is stored, so some state is selected
  obtain ⟨r, hr⟩ := List.exists_mem_of_ne_nil _ hne
  have hsel : ∃ b, Selected materializations f.nodes f.heads.toFinset descriptor b :=
    exists_selected hv.closed (acyclic_of_heightsValid hv.closed hv.heights) r (hheads r hr)
      (Dag.Reach.root (List.mem_toFinset.mpr hr))
  obtain ⟨b₀, hb₀⟩ := hsel
  have hnonempty : (frontier.sortedEntries.map Prod.snd).isEmpty = false :=
    List.isEmpty_eq_false_iff_exists_mem.mpr ⟨b₀, (hmem b₀).mpr hb₀⟩
  refine ⟨frontier.sortedEntries.map Prod.snd, ?_, ?_, hmem⟩
  · rw [CausalFrontierV2.actorMaterializations, if_neg (by simpa using hne), hwalk]
    simp only [Option.map_some, Except.bind, hnonempty, Bool.false_eq_true, if_false]
  · -- each state sits under its own hash, and the entries ascend by key
    rw [List.pairwise_map]
    refine (Finmap.pairwise_sortedEntries frontier).imp_of_mem fun {x y} hx hy hxy => ?_
    have hx' := ((hfrontier x.1 x.2).mp (Finmap.mem_sortedEntries.mp hx)).1
    have hy' := ((hfrontier y.1 y.2).mp (Finmap.mem_sortedEntries.mp hy)).1
    rw [hx', hy']
    exact hxy

/-- Two heads of one history: `2` materializes actor `0`, `3` does not and goes down to the root
`1`, which holds no materialization. -/
def branchingFrontier : CausalFrontierV2 ℕ (List (CrdtMaterializationV2 ℕ ℕ)) :=
  ⟨[2, 3], (((∅ : Finmap fun _ : ℕ => CrdtChangeV2 ℕ (List (CrdtMaterializationV2 ℕ ℕ))).insert
    1 ⟨[], 1, []⟩).insert 2 ⟨[1], 2, [⟨0, ⟨7, 1⟩⟩]⟩).insert 3 ⟨[1], 2, []⟩, 2⟩

/-- On the two branches, `actor_materializations` returns the states it selects: the
materialization at `2`, and the initial state reached from `3` at the root `1`. -/
theorem CausalFrontierV2.actorMaterializations_spec_branching :
    branchingFrontier.Validated ∧ branchingFrontier.heads ≠ [] ∧
      (∀ r ∈ branchingFrontier.heads, r ∈ branchingFrontier.nodes) ∧
      Dag.budget (fun c => c.causalDependencies.length) branchingFrontier.nodes ∅
        branchingFrontier.heads.reverse < 20 ∧
      ∃ states, branchingFrontier.actorMaterializations id 20 ⟨0, ⟨4, 0⟩⟩ = some (.ok states) ∧
        states.Pairwise (fun a b => a.hash < b.hash) ∧
        ∀ b, b ∈ states ↔
          Selected id branchingFrontier.nodes branchingFrontier.heads.toFinset ⟨0, ⟨4, 0⟩⟩ b := by
  have hv : branchingFrontier.Validated := by decide
  have hne : branchingFrontier.heads ≠ [] := by decide
  have hheads : ∀ r ∈ branchingFrontier.heads, r ∈ branchingFrontier.nodes := by decide
  have hfuel : Dag.budget (fun c => c.causalDependencies.length) branchingFrontier.nodes ∅
      branchingFrontier.heads.reverse < 20 := by decide
  -- the states of the whole frontier already have distinct hashes
  have hall : ∀ x ∈ branchingFrontier.nodes.keys, ∀ c ∈ branchingFrontier.nodes.lookup x,
      ∀ x' ∈ branchingFrontier.nodes.keys, ∀ c' ∈ branchingFrontier.nodes.lookup x',
      ∀ b ∈ contribution id ⟨0, ⟨4, 0⟩⟩ c, ∀ b' ∈ contribution id ⟨0, ⟨4, 0⟩⟩ c',
        b.hash = b'.hash → b = b' := by decide
  have hinj : ∀ b b',
      Selected id branchingFrontier.nodes branchingFrontier.heads.toFinset ⟨0, ⟨4, 0⟩⟩ b →
      Selected id branchingFrontier.nodes branchingFrontier.heads.toFinset ⟨0, ⟨4, 0⟩⟩ b' →
      b.hash = b'.hash → b = b' :=
    fun b b' ⟨x, c, _, hx, hb⟩ ⟨x', c', _, hx', hb'⟩ =>
      hall x (Finmap.mem_keys.mpr (Finmap.mem_of_lookup_eq_some hx)) c hx
        x' (Finmap.mem_keys.mpr (Finmap.mem_of_lookup_eq_some hx')) c' hx' b hb b' hb'
  exact ⟨hv, hne, hheads, hfuel, CausalFrontierV2.actorMaterializations_spec branchingFrontier hv
    hne hheads ⟨0, ⟨4, 0⟩⟩ hinj hfuel⟩

end Materializations

end Vos.V2
