import Vos.MerkleCrdt.Replica

/-!
# merkle-crdt — `MerkleClock::walk`, a post-order walk

`walk` keeps one explicit stack of frames: an *enter* frame fetches a CID, checks it against its
CID, marks it visited and pushes its *exit* frame under the enter frames of its unvisited
children; an exit frame calls the visitor. The model returns the visitor calls, in order, with
the result.

A CID is marked visited on entry, so a child already visited when its parent is entered might only
have been entered. The stack invariant `WalkOrder` rules that out below an acyclic DAG: every frame
above an exit frame is reached from that frame's CID by at least one edge (`ancestor`), so a
visited child still open would close a cycle, and every child of an open node is visited or has a
frame above it (`pending`).

* `walkLoop`, `MerkleClock.walk`;
* `WalkSearch`: the search frontier, and every visited CID valid; `walkLoop_isOk`;
* `WalkOrder` and its step lemmas; `walkLoop_final`;
* **`walk_post_order`**.
-/

namespace Vos.MerkleCrdt

variable {C P : Type} [LinearOrder C] [NodeHasher C P]

/-- A frame of `walk`'s stack: `none` enters the CID, `some node` exits it. -/
abbrev Frame (C P : Type) := C × Option (DagNode C P)

/-- The enter frames `walk` pushes for a node: one per child not yet visited, in ascending order
from the top, as pushing `children.iter().rev()` leaves them. -/
def childFrames (visited : Finset C) (node : DagNode C P) : List (Frame C P) :=
  ((node.children.sort (· ≤ ·)).filter (· ∉ visited)).map fun c => (c, none)

/-- The loop of `MerkleClock::walk`, the head of the list being the top of the stack: an exit
frame calls the visitor; an enter frame of a visited CID is dropped; otherwise the CID is marked
visited, fetched and checked, and its exit frame is pushed, then the enter frames of its unvisited
children in descending order, which leaves the least on top. -/
def walkLoop (store : Store C P) (visited : Finset C) (visits : List (C × DagNode C P)) :
    List (Frame C P) → List (C × DagNode C P) × Except Error Unit
  | [] => (visits, .ok ())
  | (cid, some node) :: stack => walkLoop store visited (visits ++ [(cid, node)]) stack
  | (cid, none) :: stack =>
    if _hv : cid ∈ visited then walkLoop store visited visits stack
    else match _hr : store.lookup cid with
      | none => (visits, .error .missingNode)
      | some node =>
        if node.cid ≠ cid then (visits, .error .invalidCid)
        else walkLoop store (insert cid visited) visits
          (childFrames (insert cid visited) node ++ (cid, some node) :: stack)
termination_by stack => ((store.keys \ visited).card, stack.length)
decreasing_by
  · exact Prod.Lex.right _ (by simp)
  · exact Prod.Lex.right _ (by simp)
  · exact Prod.Lex.left _ _ (card_sdiff_insert_lt
      (Finmap.mem_keys.mpr (Finmap.mem_of_lookup_eq_some _hr)) _hv)

/-- `MerkleClock::walk`: the visitor calls, in order, and the result. -/
def MerkleClock.walk (_clock : MerkleClock C) (root : C) (store : Store C P) :
    List (C × DagNode C P) × Except Error Unit :=
  walkLoop store ∅ [] [(root, none)]

/-! ## Frames -/

/-- The CIDs of the enter frames. -/
def enterKeys (stack : List (Frame C P)) : List C :=
  stack.filterMap fun f => if f.2.isNone then some f.1 else none

/-- The CIDs of the exit frames: the nodes entered and not yet visited. -/
def exitKeys (stack : List (Frame C P)) : List C :=
  stack.filterMap fun f => f.2.map fun _ => f.1

omit [LinearOrder C] [NodeHasher C P] in
@[simp] theorem enterKeys_nil : enterKeys ([] : List (Frame C P)) = [] := rfl

omit [LinearOrder C] [NodeHasher C P] in
@[simp] theorem enterKeys_cons_none (c : C) (stack : List (Frame C P)) :
    enterKeys ((c, none) :: stack) = c :: enterKeys stack := rfl

omit [LinearOrder C] [NodeHasher C P] in
@[simp] theorem enterKeys_cons_some (c : C) (n : DagNode C P) (stack : List (Frame C P)) :
    enterKeys ((c, some n) :: stack) = enterKeys stack := rfl

omit [LinearOrder C] [NodeHasher C P] in
@[simp] theorem exitKeys_nil : exitKeys ([] : List (Frame C P)) = [] := rfl

omit [LinearOrder C] [NodeHasher C P] in
@[simp] theorem exitKeys_cons_none (c : C) (stack : List (Frame C P)) :
    exitKeys ((c, none) :: stack) = exitKeys stack := rfl

omit [LinearOrder C] [NodeHasher C P] in
@[simp] theorem exitKeys_cons_some (c : C) (n : DagNode C P) (stack : List (Frame C P)) :
    exitKeys ((c, some n) :: stack) = c :: exitKeys stack := rfl

omit [LinearOrder C] [NodeHasher C P] in
@[simp] theorem enterKeys_append (s t : List (Frame C P)) :
    enterKeys (s ++ t) = enterKeys s ++ enterKeys t :=
  List.filterMap_append

omit [LinearOrder C] [NodeHasher C P] in
@[simp] theorem exitKeys_append (s t : List (Frame C P)) :
    exitKeys (s ++ t) = exitKeys s ++ exitKeys t :=
  List.filterMap_append

omit [LinearOrder C] [NodeHasher C P] in
@[simp] theorem enterKeys_map_none (l : List C) :
    enterKeys (l.map fun c => ((c, none) : Frame C P)) = l := by
  induction l with
  | nil => rfl
  | cons c l ih => simp [ih]

omit [LinearOrder C] [NodeHasher C P] in
@[simp] theorem exitKeys_map_none (l : List C) :
    exitKeys (l.map fun c => ((c, none) : Frame C P)) = [] := by
  induction l with
  | nil => rfl
  | cons c l ih => simp [ih]

omit [LinearOrder C] [NodeHasher C P] in
theorem exists_of_mem_exitKeys {stack : List (Frame C P)} {c : C} (hc : c ∈ exitKeys stack) :
    ∃ above below n, stack = above ++ (c, some n) :: below := by
  obtain ⟨⟨c', o⟩, hf, hfc⟩ := List.mem_filterMap.mp hc
  cases o with
  | none => simp at hfc
  | some n =>
    simp only [Option.map_some, Option.some.injEq] at hfc
    subst hfc
    obtain ⟨above, below, h⟩ := List.append_of_mem hf
    exact ⟨above, below, n, h⟩

omit [LinearOrder C] [NodeHasher C P] in
theorem mem_exitKeys_of_eq {stack above below : List (Frame C P)} {c : C} {n : DagNode C P}
    (h : stack = above ++ (c, some n) :: below) : c ∈ exitKeys stack := by
  simp [h]

omit [NodeHasher C P] in
theorem mem_childFrames {visited : Finset C} {node : DagNode C P} {x : C} :
    x ∈ (childFrames visited node).map Prod.fst ↔ x ∈ node.children ∧ x ∉ visited := by
  simp [childFrames]

omit [NodeHasher C P] in
@[simp] theorem exitKeys_childFrames (visited : Finset C) (node : DagNode C P) :
    exitKeys (childFrames visited node) = [] :=
  exitKeys_map_none _

omit [NodeHasher C P] in
@[simp] theorem enterKeys_childFrames (visited : Finset C) (node : DagNode C P) :
    enterKeys (childFrames visited node) = (childFrames visited node).map Prod.fst := by
  simp [childFrames, Function.comp_def]

omit [NodeHasher C P] in
theorem not_mem_childFrames {visited : Finset C} {node n : DagNode C P} {c : C} :
    (c, some n) ∉ childFrames visited node := by
  simp [childFrames]

/-- Two ways of cutting one list at an element: the second cut lies after, at, or before the
first. -/
theorem append_cons_eq_append_cons {γ : Type*} {l₁ l₂ r₁ r₂ : List γ} {x y : γ}
    (h : l₁ ++ x :: l₂ = r₁ ++ y :: r₂) :
    (∃ m, r₁ = l₁ ++ x :: m ∧ l₂ = m ++ y :: r₂) ∨ (r₁ = l₁ ∧ y = x ∧ r₂ = l₂) ∨
      ∃ m, l₁ = r₁ ++ y :: m ∧ r₂ = m ++ x :: l₂ := by
  induction l₁ generalizing r₁ with
  | nil =>
    cases r₁ with
    | nil =>
      simp only [List.nil_append, List.cons.injEq] at h
      exact Or.inr (Or.inl ⟨rfl, h.1.symm, h.2.symm⟩)
    | cons z r₁ =>
      simp only [List.nil_append, List.cons_append, List.cons.injEq] at h
      obtain ⟨rfl, rfl⟩ := h
      exact Or.inl ⟨r₁, rfl, rfl⟩
  | cons z l₁ ih =>
    cases r₁ with
    | nil =>
      simp only [List.nil_append, List.cons_append, List.cons.injEq] at h
      obtain ⟨rfl, rfl⟩ := h
      exact Or.inr (Or.inr ⟨l₁, rfl, rfl⟩)
    | cons w r₁ =>
      simp only [List.cons_append, List.cons.injEq] at h
      obtain ⟨rfl, h⟩ := h
      rcases ih h with ⟨m, rfl, rfl⟩ | ⟨rfl, rfl, rfl⟩ | ⟨m, rfl, rfl⟩
      · exact Or.inl ⟨m, rfl, rfl⟩
      · exact Or.inr (Or.inl ⟨rfl, rfl, rfl⟩)
      · exact Or.inr (Or.inr ⟨m, rfl, rfl⟩)

/-! ## The search -/

section Search

variable {store : Store C P} {root : C} {visited : Finset C} {stack : List (Frame C P)}
  {cid : C} {node : DagNode C P}

/-- What `walk` keeps of its search: its enter frames are the frontier of a search from `root`,
and every visited CID is held under its own CID. -/
structure WalkSearch (store : Store C P) (root : C) (visited : Finset C)
    (stack : List (Frame C P)) : Prop where
  frontier : Dag.Frontier DagNode.children store {root} visited (enterKeys stack)
  visited_valid : ∀ x ∈ visited, ∃ n, store.lookup x = some n ∧ n.cid = x

theorem walkSearch_start (store : Store C P) (root : C) : WalkSearch store root ∅ [(root, none)] where
  frontier := Dag.frontier_start fun x => by simp
  visited_valid x hx := absurd hx (Finset.notMem_empty x)

theorem WalkSearch.exit (h : WalkSearch store root visited ((cid, some node) :: stack)) :
    WalkSearch store root visited stack :=
  ⟨h.frontier, h.visited_valid⟩

theorem WalkSearch.skip (h : WalkSearch store root visited ((cid, none) :: stack))
    (hv : cid ∈ visited) : WalkSearch store root visited stack :=
  ⟨h.frontier.skip hv, h.visited_valid⟩

theorem WalkSearch.enter (h : WalkSearch store root visited ((cid, none) :: stack))
    (hr : store.lookup cid = some node) (hcid : node.cid = cid) :
    WalkSearch store root (insert cid visited)
      (childFrames (insert cid visited) node ++ (cid, some node) :: stack) where
  frontier := by
    rw [enterKeys_append, enterKeys_cons_some, enterKeys_childFrames]
    refine h.frontier.visit hr (fun x hx => ?_) (fun x hx => List.mem_append_right _ hx)
      fun b hb => ?_
    · rcases List.mem_append.mp hx with hx | hx
      · exact Or.inl (mem_childFrames.mp hx).1
      · exact Or.inr hx
    · by_cases hbv : b ∈ insert cid visited
      · exact Or.inl hbv
      · exact Or.inr (List.mem_append_left _ (mem_childFrames.mpr ⟨hb, hbv⟩))
  visited_valid x hx := by
    rcases Finset.mem_insert.mp hx with rfl | hx
    · exact ⟨node, hr, hcid⟩
    · exact h.visited_valid x hx

theorem WalkSearch.reach_head (h : WalkSearch store root visited ((cid, none) :: stack)) :
    Dag.Reach DagNode.children store {root} cid :=
  h.frontier.reach cid (Or.inr List.mem_cons_self)

theorem walkLoop_isOk {visits : List (C × DagNode C P)} (h : WalkSearch store root visited stack)
    (hvalid : ∀ x, Dag.Reach DagNode.children store {root} x →
      ∃ n, store.lookup x = some n ∧ n.cid = x) :
    (walkLoop store visited visits stack).2 = .ok () := by
  fun_induction walkLoop store visited visits stack with
  | case1 => rfl
  | case2 _ _ _ _ _ ih => exact ih h.exit
  | case3 _ _ _ _ hv ih => exact ih (h.skip hv)
  | case4 _ _ cid _ _ hr =>
    -- the popped CID is reached, so the store holds it
    obtain ⟨n, hn, -⟩ := hvalid cid h.reach_head
    rw [hr] at hn
    cases hn
  | case5 _ _ cid _ _ node hr hcid =>
    obtain ⟨n, hn, hncid⟩ := hvalid cid h.reach_head
    rw [hr] at hn
    cases hn
    exact absurd hncid hcid
  | case6 _ _ _ _ _ _ hr hcid ih => exact ih (h.enter hr (not_not.mp hcid))

end Search

/-! ## The order of the visits -/

section Order

variable {store : Store C P} {visited : Finset C} {visits : List (C × DagNode C P)}
  {stack : List (Frame C P)} {cid : C} {node : DagNode C P}

/-- The stack invariant of `walk`. The visits are entries of the store, distinct from each other
and from the open CIDs (those with an exit frame), each after its children; every child of an
open node is visited or has a frame above the node's exit frame; every frame above an exit frame
is reached from its CID by at least one edge. -/
structure WalkOrder (store : Store C P) (visited : Finset C) (visits : List (C × DagNode C P))
    (stack : List (Frame C P)) : Prop where
  visits_lookup : ∀ e ∈ visits, store.lookup e.1 = some e.2
  exit_lookup : ∀ c n, (c, some n) ∈ stack → store.lookup c = some n
  nodup : (visits.map Prod.fst ++ exitKeys stack).Nodup
  visited_iff : ∀ x, x ∈ visited ↔ x ∈ visits.map Prod.fst ∨ x ∈ exitKeys stack
  ordered : ∀ pre e post, visits = pre ++ e :: post → ∀ b ∈ e.2.children, b ∈ pre.map Prod.fst
  pending : ∀ above below a n, stack = above ++ (a, some n) :: below →
    ∀ b ∈ n.children, b ∈ visits.map Prod.fst ∨ b ∈ above.map Prod.fst
  ancestor : ∀ above below a n, stack = above ++ (a, some n) :: below →
    ∀ x ∈ above.map Prod.fst, Relation.TransGen store.Edge a x

omit [NodeHasher C P] in
theorem walkOrder_start (store : Store C P) (root : C) : WalkOrder store ∅ [] [(root, none)] where
  visits_lookup e he := absurd he List.not_mem_nil
  exit_lookup c n h := by simp at h
  nodup := List.nodup_nil
  visited_iff x := by simp
  ordered pre e post h := by simp at h
  pending above below a n h := absurd (mem_exitKeys_of_eq h) (by simp)
  ancestor above below a n h := absurd (mem_exitKeys_of_eq h) (by simp)

omit [NodeHasher C P] in
theorem WalkOrder.exit (h : WalkOrder store visited visits ((cid, some node) :: stack)) :
    WalkOrder store visited (visits ++ [(cid, node)]) stack where
  visits_lookup e he := by
    rcases List.mem_append.mp he with he | he
    · exact h.visits_lookup e he
    · rw [List.mem_singleton.mp he]
      exact h.exit_lookup cid node List.mem_cons_self
  exit_lookup c n hc := h.exit_lookup c n (List.mem_cons_of_mem _ hc)
  nodup := by simpa using h.nodup
  visited_iff x := by simpa [or_assoc] using h.visited_iff x
  ordered pre e post hv := by
    rcases append_cons_eq_append_cons hv with ⟨m, -, hm⟩ | ⟨rfl, rfl, -⟩ | ⟨m, rfl, -⟩
    · simp at hm
    · -- the node visited now: each child is visited, as nothing lies above its exit frame
      intro b hb
      simpa using h.pending [] stack cid node rfl b hb
    · exact h.ordered pre e m rfl
  pending above below a n hs b hb := by
    rcases h.pending ((cid, some node) :: above) below a n (by rw [hs]; rfl) b hb with hb | hb
    · exact Or.inl (by simp [hb])
    · rcases List.mem_cons.mp hb with rfl | hb
      · exact Or.inl (by simp)
      · exact Or.inr hb
  ancestor above below a n hs x hx :=
    h.ancestor ((cid, some node) :: above) below a n (by rw [hs]; rfl) x (List.mem_cons_of_mem _ hx)

variable {root : C}
  (hacyc : ∀ x, Dag.Reach DagNode.children store {root} x → ¬ Relation.TransGen store.Edge x x)

omit [NodeHasher C P] in
include hacyc in
/-- A CID above an open CID's exit frame has no edge back to it: with the edges from the open CID
up to it, that edge would close a cycle. -/
theorem WalkOrder.no_back_edge (h : WalkOrder store visited visits stack)
    (hreach : ∀ x ∈ visited, Dag.Reach DagNode.children store {root} x)
    {r₁ r₂ : List (Frame C P)} {a b : C} {nb : DagNode C P} (hst : stack = r₁ ++ (b, some nb) :: r₂)
    (ha : a ∈ r₁.map Prod.fst) (hab : store.Edge a b) : False :=
  hacyc b (hreach b ((h.visited_iff b).mpr (Or.inr (mem_exitKeys_of_eq hst))))
    ((h.ancestor r₁ r₂ b nb hst a ha).tail hab)

include hacyc in
theorem WalkOrder.skip (h : WalkOrder store visited visits ((cid, none) :: stack))
    (hs : WalkSearch store root visited ((cid, none) :: stack)) (hv : cid ∈ visited) :
    WalkOrder store visited visits stack where
  visits_lookup := h.visits_lookup
  exit_lookup c n hc := h.exit_lookup c n (List.mem_cons_of_mem _ hc)
  nodup := h.nodup
  visited_iff := h.visited_iff
  ordered := h.ordered
  pending above below a n hst b hb := by
    have hreach : ∀ x ∈ visited, Dag.Reach DagNode.children store {root} x :=
      fun x hx => hs.frontier.reach x (Or.inl hx)
    rcases h.pending ((cid, none) :: above) below a n (by rw [hst]; rfl) b hb with hb' | hb'
    · exact Or.inl hb'
    rcases List.mem_cons.mp hb' with rfl | hb'
    · -- the child is the dropped CID: visited, or open with its exit frame above `a`'s
      rcases (h.visited_iff b).mp hv with hbv | hbo
      · exact Or.inl hbv
      obtain ⟨r₁, r₂, nb, hsb⟩ := exists_of_mem_exitKeys (by simpa using hbo)
      have hedge : store.Edge a b := ⟨n, h.exit_lookup a n (by simp [hst]), hb⟩
      rcases append_cons_eq_append_cons (hsb.symm.trans hst) with
        ⟨m, rfl, -⟩ | ⟨rfl, hab, -⟩ | ⟨m, rfl, -⟩
      · exact Or.inr (by simp)
      · -- `b` is `a` itself: a loop
        have hba : a = b := congrArg Prod.fst hab
        subst hba
        exact absurd (Relation.TransGen.single hedge) (hacyc a (hreach a hv))
      · -- `b`'s exit frame lies below `a`'s: the edge from `a` back to `b` closes a cycle
        have hst' : (b, none) :: stack =
            ((b, none) :: (above ++ (a, some n) :: m)) ++ (b, some nb) :: r₂ := by
          rw [hsb]
          rfl
        exact (h.no_back_edge hacyc hreach hst' (by simp) hedge).elim
    · exact Or.inr hb'
  ancestor above below a n hst x hx :=
    h.ancestor ((cid, none) :: above) below a n (by rw [hst]; rfl) x (List.mem_cons_of_mem _ hx)

include hacyc in
/-- Entering a CID: its exit frame goes under the enter frames of its unvisited children; a
visited child cannot be open, as that would close a cycle. -/
theorem WalkOrder.enter (h : WalkOrder store visited visits ((cid, none) :: stack))
    (hs : WalkSearch store root visited ((cid, none) :: stack)) (hv : cid ∉ visited)
    (hr : store.lookup cid = some node) :
    WalkOrder store (insert cid visited) visits
      (childFrames (insert cid visited) node ++ (cid, some node) :: stack) where
  visits_lookup := h.visits_lookup
  exit_lookup c n hc := by
    rcases List.mem_append.mp hc with hc | hc
    · exact absurd hc not_mem_childFrames
    rcases List.mem_cons.mp hc with hc | hc
    · cases hc
      exact hr
    · exact h.exit_lookup c n (List.mem_cons_of_mem _ hc)
  nodup := by
    have hcid : cid ∉ visits.map Prod.fst ++ exitKeys stack := fun hc =>
      hv ((h.visited_iff cid).mpr (List.mem_append.mp hc))
    simp only [exitKeys_append, exitKeys_childFrames, exitKeys_cons_some, List.nil_append]
    exact List.nodup_middle.mpr (List.nodup_cons.mpr ⟨hcid, h.nodup⟩)
  visited_iff x := by
    rw [Finset.mem_insert, h.visited_iff x]
    simp only [exitKeys_append, exitKeys_childFrames, List.nil_append, exitKeys_cons_some,
      exitKeys_cons_none, List.mem_cons]
    tauto
  ordered := h.ordered
  pending above below a n hst b hb := by
    have hreach : ∀ x ∈ visited, Dag.Reach DagNode.children store {root} x :=
      fun x hx => hs.frontier.reach x (Or.inl hx)
    rcases append_cons_eq_append_cons hst with ⟨m, rfl, hm⟩ | ⟨rfl, hy, -⟩ | ⟨m, hm, -⟩
    · -- an exit frame of the old stack: its pending children are still visited or above it
      rcases h.pending ((cid, none) :: m) below a n (by rw [hm]; rfl) b hb with hb' | hb'
      · exact Or.inl hb'
      · exact Or.inr (by simp only [List.map_cons, List.mem_cons, List.map_append,
          List.mem_append] at hb' ⊢; tauto)
    · -- the new exit frame: each child is visited, or has just been pushed
      cases hy
      by_cases hbv : b ∈ insert cid visited
      · rcases Finset.mem_insert.mp hbv with rfl | hbv
        · exact absurd (Relation.TransGen.single ⟨node, hr, hb⟩) (hacyc b hs.reach_head)
        rcases (h.visited_iff b).mp hbv with hbv' | hbo
        · exact Or.inl hbv'
        obtain ⟨r₁, r₂, nb, hsb⟩ := exists_of_mem_exitKeys (by simpa using hbo)
        have hst' : (cid, none) :: stack = ((cid, none) :: r₁) ++ (b, some nb) :: r₂ := by
          rw [hsb]
          rfl
        exact (h.no_back_edge hacyc hreach hst' (by simp) ⟨node, hr, hb⟩).elim
      · exact Or.inr (mem_childFrames.mpr ⟨hb, hbv⟩)
    · exact absurd (hm ▸ List.mem_append_right _ List.mem_cons_self) not_mem_childFrames
  ancestor above below a n hst x hx := by
    rcases append_cons_eq_append_cons hst with ⟨m, rfl, hm⟩ | ⟨rfl, hy, -⟩ | ⟨m, hm, -⟩
    · have hac : Relation.TransGen store.Edge a cid :=
        h.ancestor ((cid, none) :: m) below a n (by rw [hm]; rfl) cid (by simp)
      simp only [List.map_append, List.map_cons, List.mem_append, List.mem_cons] at hx
      rcases hx with hx | rfl | hx
      · exact hac.tail ⟨node, hr, (mem_childFrames.mp hx).1⟩
      · exact hac
      · exact h.ancestor ((cid, none) :: m) below a n (by rw [hm]; rfl) x (by simp [hx])
    · cases hy
      exact Relation.TransGen.single ⟨node, hr, (mem_childFrames.mp hx).1⟩
    · exact absurd (hm ▸ List.mem_append_right _ List.mem_cons_self) not_mem_childFrames

include hacyc in
theorem walkLoop_final (hs : WalkSearch store root visited stack)
    (ho : WalkOrder store visited visits stack) (hout : (walkLoop store visited visits stack).2 = .ok ()) :
    ∃ visited', WalkSearch store root visited' [] ∧
      WalkOrder store visited' (walkLoop store visited visits stack).1 [] := by
  fun_induction walkLoop store visited visits stack with
  | case1 visited visits => exact ⟨visited, hs, ho⟩
  | case2 _ _ _ _ _ ih => exact ih hs.exit ho.exit hout
  | case3 _ _ _ _ hv ih => exact ih (hs.skip hv) (ho.skip hacyc hs hv) hout
  | case4 => cases hout
  | case5 => cases hout
  | case6 _ _ _ _ hv _ hr hcid ih =>
    exact ih (hs.enter hr (not_not.mp hcid)) (ho.enter hacyc hs hv hr) hout

end Order

/-- **`MerkleClock::walk` is a post-order traversal.** Below a root from which no cycle is
reachable, `walk` returns `Ok` iff every CID reachable from the root is held by the store under
its own CID; it then calls the visitor once on each reachable node and on nothing else, each time
with the stored node, and on each node only after all of its children. -/
theorem walk_post_order (clock : MerkleClock C) (root : C) (store : Store C P)
    (hacyc : ∀ x, Relation.ReflTransGen store.Edge root x → ¬ Relation.TransGen store.Edge x x) :
    ((clock.walk root store).2 = .ok () ↔
        ∀ x, Relation.ReflTransGen store.Edge root x → ∃ n, store.lookup x = some n ∧ n.cid = x) ∧
      ((clock.walk root store).2 = .ok () →
        ((clock.walk root store).1.map Prod.fst).Nodup ∧
        (∀ x, x ∈ (clock.walk root store).1.map Prod.fst ↔ Relation.ReflTransGen store.Edge root x) ∧
        (∀ e ∈ (clock.walk root store).1, store.lookup e.1 = some e.2) ∧
        ∀ pre e post, (clock.walk root store).1 = pre ++ e :: post →
          ∀ b ∈ e.2.children, b ∈ pre.map Prod.fst) := by
  unfold MerkleClock.walk
  have hacyc' : ∀ x, Dag.Reach DagNode.children store {root} x →
      ¬ Relation.TransGen store.Edge x x := fun x hx => hacyc x (Dag.reach_singleton.mp hx)
  have hfinal := fun hok : (walkLoop store ∅ [] [(root, none)]).2 = .ok () =>
    walkLoop_final hacyc' (walkSearch_start store root) (walkOrder_start store root) hok
  refine ⟨⟨fun hok x hx => ?_, fun hvalid => ?_⟩, fun hok => ?_⟩
  · -- at the end every reachable CID has been visited, and only valid CIDs are
    obtain ⟨visited, hs, -⟩ := hfinal hok
    exact hs.visited_valid x (hs.frontier.reach_iff.mp (Dag.reach_singleton.mpr hx))
  · exact walkLoop_isOk (walkSearch_start store root) fun x hx => hvalid x (Dag.reach_singleton.mp hx)
  · obtain ⟨visited, hs, ho⟩ := hfinal hok
    have hvisits : ∀ x, x ∈ (walkLoop store ∅ [] [(root, none)]).1.map Prod.fst ↔ x ∈ visited :=
        fun x => by
      simpa using (ho.visited_iff x).symm
    refine ⟨by simpa using ho.nodup, fun x => ?_, ho.visits_lookup, ho.ordered⟩
    rw [hvisits, ← hs.frontier.reach_iff, Dag.reach_singleton]

/-- The walk from `topNode` over the two-node store succeeds and visits both nodes. -/
theorem walk_post_order_two_nodes :
    (∀ x, Relation.ReflTransGen twoNodeStore.Edge topNode.cid x →
      ¬ Relation.TransGen twoNodeStore.Edge x x) ∧
    (MerkleClock.new.walk topNode.cid twoNodeStore).2 = .ok () ∧
    ∀ x, x ∈ (MerkleClock.new.walk topNode.cid twoNodeStore).1.map Prod.fst ↔
      x = topNode.cid ∨ x = leafNode.cid := by
  obtain ⟨-, -, hacyc⟩ := twoNodeStore_wf
  have hacyc' : ∀ x, Relation.ReflTransGen twoNodeStore.Edge topNode.cid x →
      ¬ Relation.TransGen twoNodeStore.Edge x x := fun x _ => hacyc.not_transGen_self x
  have hwalk := walk_post_order MerkleClock.new topNode.cid twoNodeStore hacyc'
  -- both reachable nodes are stored under their CIDs
  have hok : (MerkleClock.new.walk topNode.cid twoNodeStore).2 = .ok () := hwalk.1.mpr fun x hx => by
    rcases twoNodeStore_reach_top.mp hx with rfl | rfl
    · exact ⟨topNode, twoNodeStore_lookup.mpr (.inl ⟨rfl, rfl⟩), rfl⟩
    · exact ⟨leafNode, twoNodeStore_lookup.mpr (.inr ⟨rfl, rfl⟩), rfl⟩
  exact ⟨hacyc', hok, fun x => ((hwalk.2 hok).2.1 x).trans twoNodeStore_reach_top⟩

end Vos.MerkleCrdt
