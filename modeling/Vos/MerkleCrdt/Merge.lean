import Vos.MerkleCrdt.Replica

/-!
# merkle-crdt — merging clocks

`MerkleClock::merge` (`clock.rs`) is the join `M ⊔ N = M ∪ N` of the Merkle-CRDT paper: the union
of the two root sets, compacted by `compact_roots` on a staged copy that replaces the clock only
when the compaction succeeds.

* `compactLoop_succeeds`, `MerkleClock.compactRoots_succeeds`: on a store that holds every node
  under its own CID and is closed under children, compacting stored roots never fails;
* `MerkleClock.compactRoots_heads`: in an acyclic store, the roots kept are the heads of the roots
  (`Dag.Heads`), the roots that no other root reaches;
* **`MerkleClock.merge_eq_heads`**: merging stored roots succeeds, keeps the heads of the union and
  reaches exactly what either side reaches;
* **`MerkleClock.mergeAll_heads`**: merging root sets one after the other, in any order, ends at
  the heads of everything merged.
-/

namespace Vos.MerkleCrdt

open Relation

variable {C P : Type} [LinearOrder C] [NodeHasher C P]

/-- `MerkleClock::merge`: the roots of both sides, compacted. On an error the caller's clock is
left as it was. -/
def MerkleClock.merge (clock : MerkleClock C) (remoteRoots : Finset C) (store : Store C P) :
    Except Error (MerkleClock C) :=
  (clock.addRoots remoteRoots).compactRoots store

/-- A run of `merge` calls, each committed before the next, stopping at the first error. -/
def MerkleClock.mergeAll (clock : MerkleClock C) (store : Store C P) :
    List (Finset C) → Except Error (MerkleClock C)
  | [] => .ok clock
  | remoteRoots :: rest => do
    let merged ← clock.merge remoteRoots store
    merged.mergeAll store rest

section Compact

variable {store : Store C P}

/-- On a valid store closed under children, the search of `compact_roots` from stored candidates
meets neither a missing node nor a node under a foreign CID. -/
theorem compactLoop_succeeds (hvalid : store.Valid) (hclosed : Dag.Closed DagNode.children store)
    {candidates : Finset C} (hcands : ∀ c ∈ candidates, c ∈ store) {targetCount : ℕ}
    {subsumed visited : Finset C} {stack : List C}
    (h : CompactInv store candidates subsumed visited stack) :
    ∃ roots, compactLoop store candidates targetCount subsumed visited stack = .ok roots := by
  fun_induction compactLoop store candidates targetCount subsumed visited stack with
  | case1 => exact ⟨_, rfl⟩
  | case2 _ _ _ _ hv ih => exact ih (h.skip hv)
  | case3 _ _ cid _ _ hs =>
    -- a popped CID is reached from a stored candidate, so it is stored
    have hmem := hclosed.mem_of_reach hcands (h.frontier.reach cid (Or.inr List.mem_cons_self))
    exact absurd hmem (Finmap.lookup_eq_none.mp hs)
  | case4 _ _ cid _ _ node hs hcid => exact absurd (hvalid cid node hs) hcid
  | case5 => exact ⟨_, rfl⟩
  | case6 _ _ _ _ _ _ hs _ _ _ hres ih => exact ih (h.visit hs hres)

theorem MerkleClock.compactRoots_succeeds (hvalid : store.Valid)
    (hclosed : Dag.Closed DagNode.children store) (clock : MerkleClock C)
    (hroots : ∀ c ∈ clock.roots, c ∈ store) : ∃ clock', clock.compactRoots store = .ok clock' := by
  unfold MerkleClock.compactRoots
  split_ifs
  · exact ⟨clock, rfl⟩
  · obtain ⟨roots, hr⟩ := (compactLoop_succeeds hvalid hclosed hroots
      (compactInv_start store clock.roots) :
        ∃ roots, compactLoop store clock.roots clock.roots.card ∅ ∅
          (clock.roots.sort (· ≤ ·)).reverse = .ok roots)
    rw [hr]
    exact ⟨{ roots }, rfl⟩

theorem MerkleClock.compactRoots_heads (hacyc : Dag.Acyclic DagNode.children store)
    {clock clock' : MerkleClock C} (h : clock.compactRoots store = .ok clock') (x : C) :
    x ∈ clock'.roots ↔ Dag.Heads DagNode.children store clock.roots x :=
  have hc := compactRoots_ok h
  hc.antichain.mem_iff_heads hacyc hc.subset hc.subsumed

end Compact

section Merge

variable {store : Store C P} (hvalid : store.Valid) (hclosed : Dag.Closed DagNode.children store)
  (hacyc : Dag.Acyclic DagNode.children store)

include hvalid hclosed hacyc

theorem MerkleClock.merge_heads (clock : MerkleClock C) (remoteRoots : Finset C)
    (hroots : ∀ c ∈ clock.roots ∪ remoteRoots, c ∈ store) :
    ∃ clock', clock.merge remoteRoots store = .ok clock' ∧
      ∀ x, x ∈ clock'.roots ↔ Dag.Heads DagNode.children store (clock.roots ∪ remoteRoots) x := by
  obtain ⟨clock', hc⟩ := MerkleClock.compactRoots_succeeds hvalid hclosed
    (clock.addRoots remoteRoots) hroots
  exact ⟨clock', hc, MerkleClock.compactRoots_heads hacyc hc⟩

/-- **`merge` is the join of the paper.** On a store that holds every node under its own CID, is
closed under children and acyclic, merging stored roots into a clock with stored roots succeeds;
the merged roots are the heads of the union, the roots of either side that no root of either side
reaches, and they reach exactly what either side reaches. -/
theorem MerkleClock.merge_eq_heads (clock : MerkleClock C) (remoteRoots : Finset C)
    (hroots : ∀ c ∈ clock.roots ∪ remoteRoots, c ∈ store) :
    ∃ clock', clock.merge remoteRoots store = .ok clock' ∧
      (∀ x, x ∈ clock'.roots ↔ Dag.Heads DagNode.children store (clock.roots ∪ remoteRoots) x) ∧
      ∀ x, store.Reach clock'.roots x ↔ store.Reach clock.roots x ∨ store.Reach remoteRoots x := by
  obtain ⟨clock', hc, hheads⟩ := MerkleClock.merge_heads hvalid hclosed hacyc clock remoteRoots
    hroots
  refine ⟨clock', hc, hheads, fun x => ?_⟩
  rw [(compactRoots_ok hc).reach_iff hacyc]
  exact Dag.reach_union

/-- The run of merges from a clock whose roots are the heads of `S`: it succeeds, and ends at
the heads of `S` together with every root set merged. -/
theorem MerkleClock.mergeAll_heads_of :
    ∀ (remotes : List (Finset C)) (clock : MerkleClock C) (S : Finset C),
      (∀ x, x ∈ clock.roots ↔ Dag.Heads DagNode.children store S x) → (∀ c ∈ S, c ∈ store) →
      (∀ R ∈ remotes, ∀ c ∈ R, c ∈ store) →
      ∃ clock', clock.mergeAll store remotes = .ok clock' ∧
        ∀ x, x ∈ clock'.roots ↔ Dag.Heads DagNode.children store (remotes.foldl (· ∪ ·) S) x
  | [], clock, _, hclock, _, _ => ⟨clock, rfl, hclock⟩
  | R :: rest, clock, S, hclock, hS, hremotes => by
    have hSR : ∀ c ∈ S ∪ R, c ∈ store := by
      intro c hc
      rcases Finset.mem_union.mp hc with hc | hc
      · exact hS c hc
      · exact hremotes R List.mem_cons_self c hc
    -- the clock's roots are heads of `S`, so they lie in `S`
    have hroots : ∀ c ∈ clock.roots ∪ R, c ∈ store := fun c hc =>
      hSR c (Finset.union_subset_union (fun x hx => ((hclock x).mp hx).1) subset_rfl hc)
    obtain ⟨merged, hmerge, hmerged⟩ := MerkleClock.merge_heads hvalid hclosed hacyc clock R hroots
    -- the heads of the heads of `S` with `R` are the heads of `S ∪ R`
    have hmerged' : ∀ x, x ∈ merged.roots ↔ Dag.Heads DagNode.children store (S ∪ R) x :=
      fun x => (hmerged x).trans (Dag.heads_union_heads hacyc hclock)
    obtain ⟨clock', hrun, hheads⟩ := MerkleClock.mergeAll_heads_of rest merged (S ∪ R) hmerged' hSR
      fun R' hR' => hremotes R' (List.mem_cons_of_mem R hR')
    refine ⟨clock', ?_, hheads⟩
    rw [MerkleClock.mergeAll, hmerge]
    exact hrun

/-- **Merging in any order reaches the same clock.** On a store that holds every node under its
own CID, is closed under children and acyclic, merging stored root sets one after the other into
a clock whose stored roots form an antichain succeeds and ends at the heads of the clock's roots
together with every root set merged; merging the same root sets in any other order ends at the
same clock. -/
theorem MerkleClock.mergeAll_heads (clock : MerkleClock C) (remotes : List (Finset C))
    (hanti : Dag.Antichain DagNode.children store clock.roots)
    (hroots : ∀ c ∈ clock.roots, c ∈ store) (hremotes : ∀ R ∈ remotes, ∀ c ∈ R, c ∈ store) :
    ∃ clock', clock.mergeAll store remotes = .ok clock' ∧
      (∀ x, x ∈ clock'.roots ↔
        Dag.Heads DagNode.children store (remotes.foldl (· ∪ ·) clock.roots) x) ∧
      ∀ remotes', remotes'.Perm remotes → clock.mergeAll store remotes' = .ok clock' := by
  -- an antichain is the set of its own heads
  have hclock : ∀ x, x ∈ clock.roots ↔ Dag.Heads DagNode.children store clock.roots x :=
    fun x => hanti.mem_iff_heads hacyc subset_rfl fun c hc hnc => absurd hc hnc
  obtain ⟨clock', hrun, hheads⟩ := MerkleClock.mergeAll_heads_of hvalid hclosed hacyc remotes
    clock clock.roots hclock hroots hremotes
  refine ⟨clock', hrun, hheads, fun remotes' hperm => ?_⟩
  obtain ⟨clock'', hrun', hheads'⟩ := MerkleClock.mergeAll_heads_of hvalid hclosed hacyc remotes'
    clock clock.roots hclock hroots fun R hR => hremotes R (hperm.mem_iff.mp hR)
  -- the union does not depend on the order of the root sets
  have hunion : remotes'.foldl (· ∪ ·) clock.roots = remotes.foldl (· ∪ ·) clock.roots :=
    haveI : RightCommutative fun a b : Finset C => a ∪ b := ⟨Finset.union_right_comm⟩
    hperm.foldl_eq _
  have hsame : clock''.roots = clock'.roots :=
    Finset.ext fun x => by rw [hheads' x, hunion, hheads x]
  rw [hrun']
  cases clock''
  cases clock'
  cases hsame
  rfl

end Merge

section TwoNodes

open MerkleCrdt

/-- Merging `topNode` into a clock at `leafNode` keeps `topNode` alone: it reaches `leafNode`. -/
theorem MerkleClock.merge_eq_heads_two_nodes :
    twoNodeStore.Valid ∧ Dag.Closed DagNode.children twoNodeStore ∧
      Dag.Acyclic DagNode.children twoNodeStore ∧
      (∀ c ∈ ({leafNode.cid} : Finset ℕ) ∪ {topNode.cid}, c ∈ twoNodeStore) ∧
      ∃ clock', (⟨{leafNode.cid}⟩ : MerkleClock ℕ).merge {topNode.cid} twoNodeStore = .ok clock' ∧
        clock'.roots = {topNode.cid} := by
  obtain ⟨hvalid, hclosed, hacyc⟩ := twoNodeStore_wf
  obtain ⟨hleaf, htop⟩ := twoNodeStore_mem
  have hroots : ∀ c ∈ ({leafNode.cid} : Finset ℕ) ∪ {topNode.cid}, c ∈ twoNodeStore := by
    simp [hleaf, htop]
  obtain ⟨clock', hmerge, hheads, -⟩ := MerkleClock.merge_eq_heads hvalid hclosed hacyc
    (⟨{leafNode.cid}⟩ : MerkleClock ℕ) {topNode.cid} hroots
  refine ⟨hvalid, hclosed, hacyc, hroots, clock', hmerge, Finset.ext fun x => ?_⟩
  rw [hheads x, Finset.mem_singleton]
  have hedge : twoNodeStore.Edge topNode.cid leafNode.cid :=
    ⟨topNode, twoNodeStore_lookup.mpr (Or.inl ⟨rfl, rfl⟩), by simp [topNode]⟩
  constructor
  · -- `leafNode` is reached from `topNode`, so only `topNode` is a head
    rintro ⟨hx, hnot⟩
    rcases Finset.mem_union.mp hx with hx | hx
    · rw [Finset.mem_singleton.mp hx] at hnot
      exact absurd ⟨topNode.cid, by simp, .single hedge⟩ hnot
    · exact Finset.mem_singleton.mp hx
  · rintro rfl
    refine ⟨by simp, fun hreach => ?_⟩
    obtain ⟨c, -, hc⟩ := hreach
    obtain ⟨b, -, hb⟩ := TransGen.tail'_iff.mp hc
    exact twoNodeStore_not_edge_top b hb

/-- Merging `topNode` and then `leafNode` into a clock at `leafNode`, in either order. -/
theorem MerkleClock.mergeAll_heads_two_nodes :
    twoNodeStore.Valid ∧ Dag.Closed DagNode.children twoNodeStore ∧
      Dag.Acyclic DagNode.children twoNodeStore ∧
      Dag.Antichain DagNode.children twoNodeStore {leafNode.cid} ∧
      (∀ c ∈ ({leafNode.cid} : Finset ℕ), c ∈ twoNodeStore) ∧
      (∀ R ∈ ([{topNode.cid}, {leafNode.cid}] : List (Finset ℕ)), ∀ c ∈ R, c ∈ twoNodeStore) ∧
      ∃ clock', (⟨{leafNode.cid}⟩ : MerkleClock ℕ).mergeAll twoNodeStore
          [{topNode.cid}, {leafNode.cid}] = .ok clock' ∧
        (⟨{leafNode.cid}⟩ : MerkleClock ℕ).mergeAll twoNodeStore
          [{leafNode.cid}, {topNode.cid}] = .ok clock' := by
  obtain ⟨hvalid, hclosed, hacyc⟩ := twoNodeStore_wf
  obtain ⟨hleaf, htop⟩ := twoNodeStore_mem
  have hanti : Dag.Antichain DagNode.children twoNodeStore {leafNode.cid} :=
    Dag.antichain_of_card_le_one (by simp)
  have hroots : ∀ c ∈ ({leafNode.cid} : Finset ℕ), c ∈ twoNodeStore := by simpa using hleaf
  have hremotes : ∀ R ∈ ([{topNode.cid}, {leafNode.cid}] : List (Finset ℕ)), ∀ c ∈ R,
      c ∈ twoNodeStore := by
    simp [hleaf, htop]
  obtain ⟨clock', hrun, -, hperm⟩ := MerkleClock.mergeAll_heads hvalid hclosed hacyc
    (⟨{leafNode.cid}⟩ : MerkleClock ℕ) [{topNode.cid}, {leafNode.cid}] hanti hroots hremotes
  exact ⟨hvalid, hclosed, hacyc, hanti, hroots, hremotes, clock', hrun,
    hperm _ (List.Perm.swap _ _ [])⟩

end TwoNodes

end Vos.MerkleCrdt
