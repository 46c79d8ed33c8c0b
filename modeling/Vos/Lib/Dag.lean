import Mathlib.Algebra.BigOperators.Group.Finset.Basic
import Mathlib.Data.Finmap
import Mathlib.Logic.Relation
import Mathlib.Order.Preorder.Finite

/-!
# Content-addressed graphs stored in finite maps

A graph is a finite map from keys to nodes, each node naming its successor keys (`succ`); an edge
runs from a stored key to each successor of its node. A key a node names need not be stored.

* `Dag.Edge`, `Dag.Reach`: edges and reachability from a set of roots;
* `Dag.Closed`: every successor of a stored node is stored;
* `Dag.Ranked`, `Dag.Acyclic`: a rank that every edge decreases, so no key reaches itself;
* `Dag.Antichain`: no root reaches another root;
* `Dag.insertAll`: storing a list of nodes in order; storing nodes under fresh keys whose
  successors are already stored keeps the graph closed and acyclic and changes no path from an
  old key (`closed_insertAll`, `acyclic_insertAll`, `reflTransGen_insertAll`);
* `Dag.FreshOrdered`, `Dag.TopoOrdered`: a batch of nodes that can be stored in order, and a list
  in which every node comes after the nodes it names;
* `Dag.Frontier`: the invariant of a depth-first search with a visited set, kept by skipping,
  visiting and dropping a key (`Frontier.skip`, `Frontier.visit`, `Frontier.drop`), and at the end
  the visited keys are the reachable ones (`Frontier.reach_iff`); `Dag.budget` bounds how many
  steps such a search takes (`budget_skip`, `budget_visit`);
* `Dag.Grounded`: every key reached from a key is stored and lies on no cycle; induction over
  grounded keys (`Grounded.induction`), and the keys of a list that names every successor before
  the key are grounded (`grounded_of_ordered`);
* **`Dag.exists_unsubsumed_reach`**: in an acyclic graph, if every candidate outside a kept set
  is reached from another candidate, every candidate is reached from a kept one;
* `Dag.Heads`: the keys of a set that no key of the set reaches; an antichain that reaches every
  dropped candidate is the set of heads (`Antichain.mem_iff_heads`), and heads absorb a union
  (`heads_union_heads`).
-/

namespace Dag

open Relation

variable {α β : Type*} [DecidableEq α] (succ : β → Finset α)

/-- An edge from a stored key to each successor of its node. -/
def Edge (g : Finmap fun _ : α => β) (a b : α) : Prop := ∃ n, g.lookup a = some n ∧ b ∈ succ n

/-- The keys reachable from `roots` by zero or more edges. -/
def Reach (g : Finmap fun _ : α => β) (roots : Finset α) (x : α) : Prop :=
  ∃ r ∈ roots, ReflTransGen (Edge succ g) r x

/-- Every successor of a stored node is stored. -/
def Closed (g : Finmap fun _ : α => β) : Prop := ∀ a b, Edge succ g a b → b ∈ g

/-- Every edge decreases `rank`. -/
def Ranked (g : Finmap fun _ : α => β) (rank : α → ℕ) : Prop :=
  ∀ a b, Edge succ g a b → rank b < rank a

/-- Some rank is decreased by every edge: no key reaches itself. -/
def Acyclic (g : Finmap fun _ : α => β) : Prop := ∃ rank, Ranked succ g rank

/-- No root reaches another root. -/
def Antichain (g : Finmap fun _ : α => β) (roots : Finset α) : Prop :=
  ∀ r ∈ roots, ∀ r' ∈ roots, r ≠ r' → ¬ ReflTransGen (Edge succ g) r r'

variable {succ}

theorem Edge.mem {g : Finmap fun _ : α => β} {a b : α} (h : Edge succ g a b) : a ∈ g :=
  let ⟨_, hn, _⟩ := h; Finmap.mem_of_lookup_eq_some hn

theorem Ranked.lt_of_transGen {g : Finmap fun _ : α => β} {rank : α → ℕ} (h : Ranked succ g rank)
    {a b : α} (hab : TransGen (Edge succ g) a b) : rank b < rank a := by
  induction hab with
  | single hab => exact h _ _ hab
  | tail _ hbc ih => exact (h _ _ hbc).trans ih

theorem Acyclic.not_transGen_self {g : Finmap fun _ : α => β} (h : Acyclic succ g) (a : α) :
    ¬ TransGen (Edge succ g) a a := fun ha =>
  let ⟨_, hr⟩ := h; lt_irrefl _ (hr.lt_of_transGen ha)

theorem Acyclic.induction {g : Finmap fun _ : α => β} (h : Acyclic succ g) {P : α → Prop}
    (step : ∀ x, (∀ b, Edge succ g x b → P b) → P x) (x : α) : P x := by
  obtain ⟨rank, hr⟩ := h
  induction hk : rank x using Nat.strong_induction_on generalizing x with
  | _ k ih => exact step x fun b hb => ih (rank b) (hk ▸ hr x b hb) b rfl

theorem Closed.mem_of_reflTransGen {g : Finmap fun _ : α => β} (h : Closed succ g) {a b : α}
    (ha : a ∈ g) (hab : ReflTransGen (Edge succ g) a b) : b ∈ g := by
  induction hab with
  | refl => exact ha
  | tail _ hbc _ => exact h _ _ hbc

theorem reach_subset {g : Finmap fun _ : α => β} {roots : Finset α} {s : Set α}
    (hroots : ∀ r ∈ roots, r ∈ s) (hclosed : ∀ a ∈ s, ∀ b, Edge succ g a b → b ∈ s) {x : α}
    (hx : Reach succ g roots x) : x ∈ s := by
  obtain ⟨r, hr, hrx⟩ := hx
  induction hrx with
  | refl => exact hroots r hr
  | tail _ hbc ih => exact hclosed _ ih _ hbc

theorem Closed.mem_of_reach {g : Finmap fun _ : α => β} (h : Closed succ g) {roots : Finset α}
    (hroots : ∀ r ∈ roots, r ∈ g) {x : α} (hx : Reach succ g roots x) : x ∈ g :=
  let ⟨r, hr, hrx⟩ := hx; h.mem_of_reflTransGen (hroots r hr) hrx

theorem Reach.root {g : Finmap fun _ : α => β} {roots : Finset α} {r : α} (hr : r ∈ roots) :
    Reach succ g roots r := ⟨r, hr, .refl⟩

theorem Reach.tail {g : Finmap fun _ : α => β} {roots : Finset α} {a b : α}
    (ha : Reach succ g roots a) (hab : Edge succ g a b) : Reach succ g roots b :=
  let ⟨r, hr, hra⟩ := ha; ⟨r, hr, hra.tail hab⟩

theorem reach_union {g : Finmap fun _ : α => β} {roots roots' : Finset α} {x : α} :
    Reach succ g (roots ∪ roots') x ↔ Reach succ g roots x ∨ Reach succ g roots' x := by
  simp only [Reach, Finset.mem_union, or_and_right, exists_or]

theorem reach_singleton {g : Finmap fun _ : α => β} {r x : α} :
    Reach succ g {r} x ↔ ReflTransGen (Edge succ g) r x := by
  simp only [Reach, Finset.mem_singleton, exists_eq_left]

/-! ## Inserting nodes -/

theorem edge_insert {g : Finmap fun _ : α => β} {k : α} {n : β} {a b : α} :
    Edge succ (g.insert k n) a b ↔ (a = k ∧ b ∈ succ n) ∨ (a ≠ k ∧ Edge succ g a b) := by
  by_cases hak : a = k
  · subst hak; simp [Edge, Finmap.lookup_insert]
  · simp [Edge, Finmap.lookup_insert_of_ne _ hak, hak]

theorem reflTransGen_insert_of_not_reach {g : Finmap fun _ : α => β} {k : α} {n : β} {a b : α}
    (hk : ¬ ReflTransGen (Edge succ g) a k) :
    ReflTransGen (Edge succ (g.insert k n)) a b ↔ ReflTransGen (Edge succ g) a b := by
  constructor
  · intro hab
    induction hab with
    | refl => exact .refl
    | tail _ hcd ih =>
      have hne : _ ≠ k := fun h => hk (h ▸ ih)
      exact ih.tail ((edge_insert.mp hcd).resolve_left fun h => hne h.1).2
  · intro hab
    induction hab with
    | refl => exact .refl
    | @tail c d hac hcd ih =>
      have hne : c ≠ k := fun h => hk (h ▸ hac)
      exact ih.tail (edge_insert.mpr (Or.inr ⟨hne, hcd⟩))

theorem Closed.not_reach_of_not_mem {g : Finmap fun _ : α => β} (h : Closed succ g) {a k : α}
    (ha : a ∈ g) (hk : k ∉ g) : ¬ ReflTransGen (Edge succ g) a k :=
  fun hak => hk (h.mem_of_reflTransGen ha hak)

theorem closed_insert {g : Finmap fun _ : α => β} {k : α} {n : β} (hg : Closed succ g)
    (hn : ∀ b ∈ succ n, b ∈ g) : Closed succ (g.insert k n) := by
  intro a b hab
  rcases edge_insert.mp hab with ⟨-, hb⟩ | ⟨-, hab⟩
  · exact Finmap.mem_insert.mpr (Or.inr (hn b hb))
  · exact Finmap.mem_insert.mpr (Or.inr (hg a b hab))

theorem acyclic_insert {g : Finmap fun _ : α => β} {k : α} {n : β} (hg : Closed succ g)
    (hacyc : Acyclic succ g) (hk : k ∉ g) (hn : ∀ b ∈ succ n, b ∈ g) :
    Acyclic succ (g.insert k n) := by
  obtain ⟨rank, hr⟩ := hacyc
  refine ⟨Function.update rank k ((succ n).sup rank + 1), fun a b hab => ?_⟩
  rcases edge_insert.mp hab with ⟨rfl, hb⟩ | ⟨hak, hab⟩
  · have hbk : b ≠ a := fun h => hk (h ▸ hn b hb)
    rw [Function.update_self, Function.update_of_ne hbk]
    exact Nat.lt_succ_of_le (Finset.le_sup hb)
  · have hbk : b ≠ k := fun h => hk (h ▸ hg a b hab)
    rw [Function.update_of_ne hak, Function.update_of_ne hbk]
    exact hr a b hab

/-- Store a list of nodes in order, a later node under a key overwriting an earlier one. -/
def insertAll (g : Finmap fun _ : α => β) (l : List (α × β)) : Finmap fun _ : α => β :=
  l.foldl (fun g e => g.insert e.1 e.2) g

variable (succ) in
/-- Each node of the list goes under a key neither stored nor used earlier in the list, and names
only stored keys or keys of earlier nodes. -/
def FreshOrdered (g : Finmap fun _ : α => β) : List (α × β) → Prop
  | [] => True
  | e :: l => e.1 ∉ g ∧ (∀ b ∈ succ e.2, b ∈ g) ∧ FreshOrdered (g.insert e.1 e.2) l

@[simp] theorem insertAll_nil (g : Finmap fun _ : α => β) : insertAll g [] = g := rfl

@[simp] theorem insertAll_cons (g : Finmap fun _ : α => β) (k : α) (n : β) (l : List (α × β)) :
    insertAll g ((k, n) :: l) = insertAll (g.insert k n) l := rfl

theorem mem_insertAll_of_mem {x : α} {g : Finmap fun _ : α => β} {l : List (α × β)}
    (hx : x ∈ g) : x ∈ insertAll g l := by
  induction l generalizing g with
  | nil => exact hx
  | cons e l ih => exact ih (Finmap.mem_insert.mpr (Or.inr hx))

theorem closed_insertAll {g : Finmap fun _ : α => β} {l : List (α × β)} (hg : Closed succ g)
    (hl : FreshOrdered succ g l) : Closed succ (insertAll g l) := by
  induction l generalizing g with
  | nil => exact hg
  | cons e l ih =>
    obtain ⟨_, hn, hl⟩ := hl
    exact ih (closed_insert hg hn) hl

theorem acyclic_insertAll {g : Finmap fun _ : α => β} {l : List (α × β)} (hg : Closed succ g)
    (hacyc : Acyclic succ g) (hl : FreshOrdered succ g l) : Acyclic succ (insertAll g l) := by
  induction l generalizing g with
  | nil => exact hacyc
  | cons e l ih =>
    obtain ⟨hk, hn, hl⟩ := hl
    exact ih (closed_insert hg hn) (acyclic_insert hg hacyc hk hn) hl

theorem lookup_insertAll_of_mem {x : α} {g : Finmap fun _ : α => β} {l : List (α × β)}
    (hl : FreshOrdered succ g l) (hx : x ∈ g) : (insertAll g l).lookup x = g.lookup x := by
  induction l generalizing g with
  | nil => rfl
  | cons e l ih =>
    obtain ⟨hk, _, hl⟩ := hl
    have hxk : x ≠ e.1 := fun h => hk (h ▸ hx)
    rw [insertAll, List.foldl_cons, ← insertAll, ih hl (Finmap.mem_insert.mpr (Or.inr hx)),
      Finmap.lookup_insert_of_ne _ hxk]

theorem mem_insertAll {x : α} {g : Finmap fun _ : α => β} {l : List (α × β)} :
    x ∈ insertAll g l ↔ x ∈ g ∨ x ∈ l.map Prod.fst := by
  induction l generalizing g with
  | nil => simp
  | cons e l ih =>
    rw [insertAll, List.foldl_cons, ← insertAll, ih, Finmap.mem_insert]
    simp only [List.map_cons, List.mem_cons]
    tauto

/-- Nodes all read off one lookup `f` leave `f`'s node under each key they store, whatever
their order. -/
theorem lookup_insertAll {f : α → Option β} {l : List (α × β)} (hl : ∀ e ∈ l, f e.1 = some e.2)
    (g : Finmap fun _ : α => β) (x : α) :
    (insertAll g l).lookup x = if x ∈ l.map Prod.fst then f x else g.lookup x := by
  induction l generalizing g with
  | nil => simp
  | cons e l ih =>
    rw [insertAll, List.foldl_cons, ← insertAll,
      ih (fun e' he' => hl e' (List.mem_cons_of_mem e he'))]
    by_cases hxl : x ∈ l.map Prod.fst
    · simp [hxl]
    · by_cases hxe : x = e.1
      · subst hxe
        simp [hl e List.mem_cons_self]
      · simp [hxl, hxe, Finmap.lookup_insert_of_ne _ hxe]

theorem FreshOrdered.succ_mem_insertAll {g : Finmap fun _ : α => β} {l : List (α × β)}
    (hl : FreshOrdered succ g l) {e : α × β} (he : e ∈ l) : ∀ b ∈ succ e.2, b ∈ insertAll g l := by
  induction l generalizing g with
  | nil => exact absurd he List.not_mem_nil
  | cons e' l ih =>
    obtain ⟨-, hn, hl⟩ := hl
    rw [insertAll, List.foldl_cons, ← insertAll]
    rcases List.mem_cons.mp he with rfl | he
    · exact fun b hb => mem_insertAll_of_mem (Finmap.mem_insert.mpr (Or.inr (hn b hb)))
    · exact ih hl he

theorem reflTransGen_insertAll {a b : α} {g : Finmap fun _ : α => β} {l : List (α × β)}
    (hg : Closed succ g) (hl : FreshOrdered succ g l) (ha : a ∈ g) :
    ReflTransGen (Edge succ (insertAll g l)) a b ↔ ReflTransGen (Edge succ g) a b := by
  induction l generalizing g with
  | nil => exact Iff.rfl
  | cons e l ih =>
    obtain ⟨hk, hn, hl⟩ := hl
    rw [insertAll, List.foldl_cons, ← insertAll,
      ih (closed_insert hg hn) hl (Finmap.mem_insert.mpr (Or.inr ha))]
    exact reflTransGen_insert_of_not_reach (hg.not_reach_of_not_mem ha hk)

theorem FreshOrdered.take {g : Finmap fun _ : α => β} {l : List (α × β)}
    (hl : FreshOrdered succ g l) (k : ℕ) : FreshOrdered succ g (l.take k) := by
  induction l generalizing g k with
  | nil => simp [FreshOrdered]
  | cons e l ih =>
    cases k with
    | zero => simp [FreshOrdered]
    | succ k =>
      obtain ⟨hk, hn, hl⟩ := hl
      exact ⟨hk, hn, ih hl k⟩

/-- A list of nodes under distinct fresh keys, each naming only stored keys or keys of earlier
nodes, can be stored in order. -/
theorem freshOrdered_of_succ_mem {g : Finmap fun _ : α => β} {l : List (α × β)}
    (hnd : (l.map Prod.fst).Nodup) (hfresh : ∀ e ∈ l, e.1 ∉ g)
    (hsucc : ∀ i (hi : i < l.length), ∀ b ∈ succ l[i].2, b ∈ g ∨ b ∈ (l.take i).map Prod.fst) :
    FreshOrdered succ g l := by
  induction l generalizing g with
  | nil => trivial
  | cons e l ih =>
    refine ⟨hfresh e List.mem_cons_self, fun b hb => ?_, ih (List.nodup_cons.mp hnd).2 ?_ ?_⟩
    · simpa using hsucc 0 (by simp) b hb
    · intro e' he' hg
      rcases Finmap.mem_insert.mp hg with h | h
      · exact (List.nodup_cons.mp hnd).1 (h ▸ List.mem_map_of_mem he')
      · exact hfresh e' (List.mem_cons_of_mem _ he') h
    · intro i hi b hb
      rcases hsucc (i + 1) (by simpa using hi) b (by simpa using hb) with h | h
      · exact Or.inl (Finmap.mem_insert.mpr (Or.inr h))
      · simp only [List.take_succ_cons, List.map_cons, List.mem_cons] at h
        rcases h with rfl | h
        · exact Or.inl (Finmap.mem_insert.mpr (Or.inl rfl))
        · exact Or.inr h

variable (succ) in
/-- Every node of the list names, among the keys stored in `g`, only keys of earlier nodes. -/
def TopoOrdered (g : Finmap fun _ : α => β) (l : List (α × β)) : Prop :=
  ∀ i (hi : i < l.length), ∀ b ∈ succ l[i].2, b ∈ g → b ∈ (l.take i).map Prod.fst

omit [DecidableEq α] in
theorem topoOrdered_nil (g : Finmap fun _ : α => β) : TopoOrdered succ g [] :=
  fun _ hi => absurd hi (Nat.not_lt_zero _)

omit [DecidableEq α] in
theorem TopoOrdered.append_singleton {g : Finmap fun _ : α => β} {l : List (α × β)} {e : α × β}
    (hl : TopoOrdered succ g l) (he : ∀ b ∈ succ e.2, b ∈ g → b ∈ l.map Prod.fst) :
    TopoOrdered succ g (l ++ [e]) := by
  intro i hi b hb hbg
  rcases Nat.lt_or_ge i l.length with hil | hil
  · rw [List.getElem_append_left hil] at hb
    rw [List.take_append_of_le_length hil.le]
    exact hl i hil b hb hbg
  · have hil' : i = l.length := by simp at hi; omega
    subst hil'
    rw [List.getElem_append_right (le_refl _)] at hb
    simp only [Nat.sub_self, List.getElem_cons_zero] at hb
    simpa using he b hb hbg

omit [DecidableEq α] in
theorem TopoOrdered.mem_of_mem {g : Finmap fun _ : α => β} {l : List (α × β)}
    (hl : TopoOrdered succ g l) {e : α × β} (he : e ∈ l) {b : α} (hb : b ∈ succ e.2) (hbg : b ∈ g) :
    b ∈ l.map Prod.fst := by
  obtain ⟨i, hi, rfl⟩ := List.getElem_of_mem he
  exact List.map_subset _ (List.take_subset i l) (hl i hi b hb hbg)

/-! ## Searching a graph -/

variable (succ) in
/-- The invariant of a search from `roots` that has visited `visited` and has `stack` left: every
key seen is reachable, and every root and every successor of a visited key has been seen. -/
structure Frontier (g : Finmap fun _ : α => β) (roots visited : Finset α) (stack : List α) :
    Prop where
  reach : ∀ x, x ∈ visited ∨ x ∈ stack → Reach succ g roots x
  roots_mem : ∀ r ∈ roots, r ∈ visited ∨ r ∈ stack
  edge_mem : ∀ v ∈ visited, ∀ b, Edge succ g v b → b ∈ visited ∨ b ∈ stack

theorem frontier_start {g : Finmap fun _ : α => β} {roots : Finset α} {stack : List α}
    (h : ∀ x, x ∈ stack ↔ x ∈ roots) : Frontier succ g roots ∅ stack where
  reach x hx := Reach.root ((h x).mp (hx.resolve_left (Finset.notMem_empty x)))
  roots_mem r hr := Or.inr ((h r).mpr hr)
  edge_mem v hv := absurd hv (Finset.notMem_empty v)

omit [DecidableEq α] in
theorem or_mem_of_or_mem_cons {visited : Finset α} {stack : List α} {a x : α} (ha : a ∈ visited)
    (hx : x ∈ visited ∨ x ∈ a :: stack) : x ∈ visited ∨ x ∈ stack := by
  rcases hx with hx | hx
  · exact Or.inl hx
  · rcases List.mem_cons.mp hx with rfl | hx
    · exact Or.inl ha
    · exact Or.inr hx

theorem Frontier.skip {g : Finmap fun _ : α => β} {roots visited : Finset α} {stack : List α}
    {a : α} (h : Frontier succ g roots visited (a :: stack)) (ha : a ∈ visited) :
    Frontier succ g roots visited stack where
  reach x hx := h.reach x (hx.imp_right (List.mem_cons_of_mem a))
  roots_mem r hr := or_mem_of_or_mem_cons ha (h.roots_mem r hr)
  edge_mem v hv b hb := or_mem_of_or_mem_cons ha (h.edge_mem v hv b hb)

/-- Visiting the popped key `a`: its successors are visited or pushed, and the rest of the stack
stays. -/
theorem Frontier.visit {g : Finmap fun _ : α => β} {roots visited : Finset α} {stack : List α}
    {a : α} {n : β} (h : Frontier succ g roots visited (a :: stack)) (hn : g.lookup a = some n)
    {stack' : List α} (hpush : ∀ x ∈ stack', x ∈ succ n ∨ x ∈ stack)
    (hkeep : ∀ x ∈ stack, x ∈ stack') (hsucc : ∀ b ∈ succ n, b ∈ insert a visited ∨ b ∈ stack') :
    Frontier succ g roots (insert a visited) stack' := by
  have hseen : ∀ x, x ∈ visited ∨ x ∈ a :: stack → x ∈ insert a visited ∨ x ∈ stack' := by
    intro x hx
    rcases hx with hx | hx
    · exact Or.inl (Finset.mem_insert_of_mem hx)
    · rcases List.mem_cons.mp hx with rfl | hx
      · exact Or.inl (Finset.mem_insert_self x visited)
      · exact Or.inr (hkeep x hx)
  have ha : Reach succ g roots a := h.reach a (Or.inr List.mem_cons_self)
  refine ⟨fun x hx => ?_, fun r hr => hseen r (h.roots_mem r hr), fun v hv b hb => ?_⟩
  · rcases hx with hx | hx
    · rcases Finset.mem_insert.mp hx with rfl | hx
      · exact ha
      · exact h.reach x (Or.inl hx)
    · rcases hpush x hx with hx | hx
      · exact ha.tail ⟨n, hn, hx⟩
      · exact h.reach x (Or.inr (List.mem_cons_of_mem a hx))
  · rcases Finset.mem_insert.mp hv with rfl | hv
    · obtain ⟨n', hn', hb⟩ := hb
      rw [hn] at hn'
      cases hn'
      exact hsucc b hb
    · exact hseen b (h.edge_mem v hv b hb)

theorem Frontier.drop {g : Finmap fun _ : α => β} {roots visited : Finset α} {stack : List α}
    {a : α} (h : Frontier succ g roots visited (a :: stack)) (ha : a ∉ g) :
    Frontier succ g roots (insert a visited) stack where
  reach x hx := by
    rcases hx with hx | hx
    · rcases Finset.mem_insert.mp hx with rfl | hx
      · exact h.reach x (Or.inr List.mem_cons_self)
      · exact h.reach x (Or.inl hx)
    · exact h.reach x (Or.inr (List.mem_cons_of_mem a hx))
  roots_mem r hr :=
    or_mem_of_or_mem_cons (Finset.mem_insert_self a visited)
      ((h.roots_mem r hr).imp_left Finset.mem_insert_of_mem)
  edge_mem v hv b hb := by
    rcases Finset.mem_insert.mp hv with rfl | hv
    · exact absurd hb.mem ha
    · exact or_mem_of_or_mem_cons (Finset.mem_insert_self a visited)
        ((h.edge_mem v hv b hb).imp_left Finset.mem_insert_of_mem)

/-- A search that builds the graph it walks, its stored keys being the visited ones: storing the
node `n` of the popped fresh key `a` and pushing the successors of `n`. -/
theorem Frontier.store {g : Finmap fun _ : α => β} {roots : Finset α} {stack stack' : List α}
    {a : α} {n : β} (h : Frontier succ g roots g.keys (a :: stack)) (ha : a ∉ g)
    (hpush : ∀ x ∈ stack', x ∈ succ n ∨ x ∈ stack) (hkeep : ∀ x ∈ stack, x ∈ stack')
    (hsucc : ∀ b ∈ succ n, b ∈ stack') :
    Frontier succ (g.insert a n) roots (g.insert a n).keys stack' := by
  have hmono : ∀ {x y}, Edge succ g x y → Edge succ (g.insert a n) x y := fun hxy =>
    edge_insert.mpr (Or.inr ⟨fun hxa => ha (hxa ▸ hxy.mem), hxy⟩)
  have hreach : ∀ {x}, Reach succ g roots x → Reach succ (g.insert a n) roots x := by
    rintro x ⟨r, hr, hrx⟩
    exact ⟨r, hr, hrx.lift id fun _ _ hxy => hmono hxy⟩
  have hseen : ∀ x, x ∈ g.keys ∨ x ∈ a :: stack → x ∈ (g.insert a n).keys ∨ x ∈ stack' := by
    intro x hx
    rcases hx with hx | hx
    · exact Or.inl (Finmap.mem_keys.mpr (Finmap.mem_insert.mpr (Or.inr (Finmap.mem_keys.mp hx))))
    · rcases List.mem_cons.mp hx with rfl | hx
      · exact Or.inl (Finmap.mem_keys.mpr (Finmap.mem_insert.mpr (Or.inl rfl)))
      · exact Or.inr (hkeep x hx)
  refine ⟨fun x hx => ?_, fun r hr => hseen r (h.roots_mem r hr), fun v hv b hb => ?_⟩
  · rcases hx with hx | hx
    · rcases Finmap.mem_insert.mp (Finmap.mem_keys.mp hx) with rfl | hx
      · exact hreach (h.reach x (Or.inr List.mem_cons_self))
      · exact hreach (h.reach x (Or.inl (Finmap.mem_keys.mpr hx)))
    · rcases hpush x hx with hx | hx
      · exact (hreach (h.reach a (Or.inr List.mem_cons_self))).tail
          ⟨n, Finmap.lookup_insert _, hx⟩
      · exact hreach (h.reach x (Or.inr (List.mem_cons_of_mem a hx)))
  · rcases edge_insert.mp hb with ⟨-, hb⟩ | ⟨-, hb⟩
    · exact Or.inr (hsucc b hb)
    · exact hseen b (h.edge_mem v (Finmap.mem_keys.mpr hb.mem) b hb)

theorem Frontier.reach_iff {g : Finmap fun _ : α => β} {roots visited : Finset α}
    (h : Frontier succ g roots visited []) {x : α} : Reach succ g roots x ↔ x ∈ visited :=
  ⟨reach_subset (s := ↑visited) (fun r hr => (h.roots_mem r hr).resolve_right List.not_mem_nil)
    (fun a ha b hab => (h.edge_mem a ha b hab).resolve_right List.not_mem_nil),
   fun hx => h.reach x (Or.inl hx)⟩

theorem Reach.mono {succ' : β → Finset α} (hsub : ∀ n, succ' n ⊆ succ n)
    {g : Finmap fun _ : α => β} {roots : Finset α} {x : α} (hx : Reach succ' g roots x) :
    Reach succ g roots x :=
  let ⟨r, hr, hrx⟩ := hx
  ⟨r, hr, hrx.lift id fun _ _ ⟨n, hn, hb⟩ => ⟨n, hn, hsub n hb⟩⟩

theorem Closed.mem_roots_of_reach {g : Finmap fun _ : α => β} (h : Closed succ g)
    {roots : Finset α} {x : α} (hx : Reach succ g roots x) (hxg : x ∉ g) : x ∈ roots := by
  obtain ⟨r, hr, hrx⟩ := hx
  rcases hrx.cases_tail with rfl | ⟨v, -, hvx⟩
  · exact hr
  · exact absurd (h v x hvx) hxg

/-! ## How long a search runs -/

variable (w : β → ℕ) in
/-- A bound on the steps a search has left: one per key on its stack, and for each stored key not
visited yet, one for its visit and `w` of its node for the keys that visit may push. Every step
lowers it (`budget_skip`, `budget_visit`), so a search given more fuel never runs out. -/
def budget (g : Finmap fun _ : α => β) (visited : Finset α) (stack : List α) : ℕ :=
  stack.length + ∑ x ∈ g.keys \ visited, (((g.lookup x).map w).getD 0 + 1)

variable {w : β → ℕ}

theorem budget_skip (g : Finmap fun _ : α => β) (visited : Finset α) (a : α) (stack : List α) :
    budget w g visited (a :: stack) = budget w g visited stack + 1 := by
  simp only [budget, List.length_cons]
  omega

theorem budget_visit {g : Finmap fun _ : α => β} {visited : Finset α} {stack : List α} {a : α}
    {n : β} (ha : a ∉ visited) (hn : g.lookup a = some n) {push : List α}
    (hpush : push.length ≤ w n) :
    budget w g (insert a visited) (push ++ stack) < budget w g visited (a :: stack) := by
  have hmem : a ∈ g.keys \ visited :=
    Finset.mem_sdiff.mpr ⟨Finmap.mem_keys.mpr (Finmap.mem_of_lookup_eq_some hn), ha⟩
  have hsum := Finset.add_sum_erase _ (fun x => ((g.lookup x).map w).getD 0 + 1) hmem
  rw [← Finset.sdiff_insert] at hsum
  simp only [budget, List.length_append, List.length_cons]
  rw [← hsum, hn, Option.map_some, Option.getD_some]
  omega

/-! ## Restricting a graph to a set of keys -/

/-- `sub` holds the nodes of `g` at the keys of `s`, and nothing else. -/
def Restricts (g sub : Finmap fun _ : α => β) (s : α → Prop) : Prop :=
  ∀ x, (s x → sub.lookup x = g.lookup x) ∧ (¬ s x → sub.lookup x = none)

theorem Restricts.eq {g g' sub sub' : Finmap fun _ : α => β} {s s' : α → Prop}
    (h : Restricts g sub s) (h' : Restricts g' sub' s') (hs : ∀ x, s x ↔ s' x)
    (hg : ∀ x, s x → g.lookup x = g'.lookup x) : sub = sub' := by
  refine Finmap.ext_lookup fun x => ?_
  by_cases hx : s x
  · rw [(h x).1 hx, (h' x).1 ((hs x).mp hx), hg x hx]
  · rw [(h x).2 hx, (h' x).2 (mt (hs x).mpr hx)]

theorem Restricts.lookup_eq_some {g sub : Finmap fun _ : α => β} {s : α → Prop}
    (h : Restricts g sub s) {x : α} {n : β} (hx : sub.lookup x = some n) :
    s x ∧ g.lookup x = some n := by
  by_cases hs : s x
  · exact ⟨hs, ((h x).1 hs).symm.trans hx⟩
  · rw [(h x).2 hs] at hx
    cases hx

theorem Restricts.insert {g sub : Finmap fun _ : α => β} {s : α → Prop} (h : Restricts g sub s)
    (k : α) (n : β) : Restricts (g.insert k n) (sub.insert k n) fun x => x = k ∨ s x := by
  intro x
  by_cases hxk : x = k
  · subst hxk
    simp
  · simp only [Finmap.lookup_insert_of_ne _ hxk, hxk, false_or]
    exact h x

theorem Restricts.edge_iff {g sub : Finmap fun _ : α => β} {s : α → Prop} (h : Restricts g sub s)
    {a b : α} : Edge succ sub a b ↔ s a ∧ Edge succ g a b := by
  by_cases ha : s a
  · simp only [Edge, (h a).1 ha, ha, true_and]
  · simp [Edge, (h a).2 ha, ha]

theorem Restricts.reflTransGen {g sub : Finmap fun _ : α => β} {s : α → Prop}
    (h : Restricts g sub s) (hs : ∀ a b, s a → Edge succ g a b → s b) {a b : α} (ha : s a)
    (hab : ReflTransGen (Edge succ g) a b) : ReflTransGen (Edge succ sub) a b := by
  induction hab with
  | refl => exact .refl
  | @tail c d hac hcd ih =>
    have hc : s c := by
      clear ih hcd
      induction hac with
      | refl => exact ha
      | tail _ he ih' => exact hs _ _ ih' he
    exact ih.tail (h.edge_iff.mpr ⟨hc, hcd⟩)

theorem Restricts.closed {g sub : Finmap fun _ : α => β} {roots : Finset α} (hg : Closed succ g)
    (h : Restricts g sub (Reach succ g roots)) : Closed succ sub := by
  intro a b hab
  obtain ⟨ha, hab⟩ := h.edge_iff.mp hab
  have hb : Reach succ g roots b := ha.tail hab
  rw [Finmap.mem_iff]
  rw [(h b).1 hb]
  exact Finmap.mem_iff.mp (hg a b hab)

theorem Restricts.acyclic {g sub : Finmap fun _ : α => β} {s : α → Prop} (hacyc : Acyclic succ g)
    (h : Restricts g sub s) : Acyclic succ sub := by
  obtain ⟨rank, hr⟩ := hacyc
  exact ⟨rank, fun a b hab => hr a b (h.edge_iff.mp hab).2⟩

/-! ## Antichains of roots -/

theorem antichain_of_card_le_one {g : Finmap fun _ : α => β} {roots : Finset α}
    (h : roots.card ≤ 1) : Antichain succ g roots :=
  fun r hr r' hr' hne => absurd (Finset.card_le_one.mp h r hr r' hr') hne

/-- **In an acyclic graph, an antichain of roots is the set of reachable keys that no reachable
key has an edge to.** -/
theorem Antichain.mem_iff {g : Finmap fun _ : α => β} {roots : Finset α} (hacyc : Acyclic succ g)
    (hanti : Antichain succ g roots) {r : α} :
    r ∈ roots ↔ Reach succ g roots r ∧ ∀ y, Reach succ g roots y → ¬ Edge succ g y r := by
  constructor
  · intro hr
    refine ⟨Reach.root hr, fun y ⟨r', hr', hr'y⟩ hyr => ?_⟩
    have hpath : TransGen (Edge succ g) r' r := .tail' hr'y hyr
    by_cases heq : r' = r
    · exact hacyc.not_transGen_self r (heq ▸ hpath)
    · exact hanti r' hr' r hr heq hpath.to_reflTransGen
  · rintro ⟨⟨r', hr', hr'r⟩, hpar⟩
    rcases hr'r.cases_tail with rfl | ⟨y, hr'y, hyr⟩
    · exact hr'
    · exact absurd hyr (hpar y ⟨r', hr', hr'y⟩)

/-- Storing a node whose successors do not reach its key: what the key reaches is the key and
what the successors reach. -/
theorem reach_insert_singleton {g : Finmap fun _ : α => β} {k : α} {n : β}
    (hk : ∀ r ∈ succ n, ¬ ReflTransGen (Edge succ g) r k) {x : α} :
    Reach succ (g.insert k n) {k} x ↔ x = k ∨ Reach succ g (succ n) x := by
  have hsucc : ∀ c, Edge succ (g.insert k n) k c ↔ c ∈ succ n := by
    intro c
    simp [Edge, Finmap.lookup_insert]
  simp only [Reach, Finset.mem_singleton, exists_eq_left]
  constructor
  · intro hkx
    rcases hkx.cases_head with rfl | ⟨c, hkc, hcx⟩
    · exact Or.inl rfl
    · have hc := (hsucc c).mp hkc
      exact Or.inr ⟨c, hc, (reflTransGen_insert_of_not_reach (hk c hc)).mp hcx⟩
  · rintro (rfl | ⟨c, hc, hcx⟩)
    · exact .refl
    · exact .head ((hsucc c).mpr hc) ((reflTransGen_insert_of_not_reach (hk c hc)).mpr hcx)

/-! ## Grounded keys -/

variable (succ) in
/-- Every key reachable from `x`, `x` included, is stored and lies on no cycle. -/
def Grounded (g : Finmap fun _ : α => β) (x : α) : Prop :=
  ∀ y, ReflTransGen (Edge succ g) x y → y ∈ g ∧ ¬ TransGen (Edge succ g) y y

theorem Grounded.mem {g : Finmap fun _ : α => β} {x : α} (h : Grounded succ g x) : x ∈ g :=
  (h x .refl).1

theorem Grounded.of_edge {g : Finmap fun _ : α => β} {a b : α} (h : Grounded succ g a)
    (hab : Edge succ g a b) : Grounded succ g b :=
  fun y hy => h y (.head hab hy)

/-- **Induction over grounded keys**: a property that holds of a grounded key as soon as it holds
of the key's successors holds of every grounded key. -/
theorem Grounded.induction {g : Finmap fun _ : α => β} {P : α → Prop}
    (step : ∀ x, Grounded succ g x → (∀ b, Edge succ g x b → P b) → P x) {x : α}
    (hx : Grounded succ g x) : P x := by
  classical
  -- induction on the number of stored keys reachable from `x`, which every edge decreases
  suffices ∀ k x, (g.keys.filter (ReflTransGen (Edge succ g) x)).card = k → Grounded succ g x →
      P x from this _ x rfl hx
  intro k
  induction k using Nat.strong_induction_on with
  | _ k ih =>
    intro x hk hx
    refine step x hx fun b hb => ih _ ?_ b rfl (hx.of_edge hb)
    rw [← hk]
    refine Finset.card_lt_card ⟨fun y hy => ?_, fun hsub => ?_⟩
    · rw [Finset.mem_filter] at hy ⊢
      exact ⟨hy.1, .head hb hy.2⟩
    · have hx' : x ∈ g.keys.filter (ReflTransGen (Edge succ g) x) :=
        Finset.mem_filter.mpr ⟨Finmap.mem_keys.mpr hx.mem, .refl⟩
      have hbx : ReflTransGen (Edge succ g) b x := (Finset.mem_filter.mp (hsub hx')).2
      exact (hx x .refl).2 (.head' hb hbx)

/-- A key listed without repetition before which every successor of a listed key is listed is
reached from that key only through earlier keys. -/
theorem exists_earlier_of_transGen {g : Finmap fun _ : α => β} {l : List α}
    (hord : ∀ i (hi : i < l.length), ∀ b, Edge succ g l[i] b → b ∈ l.take i) {i : ℕ}
    (hi : i < l.length) {y : α} (hy : TransGen (Edge succ g) l[i] y) :
    ∃ j, ∃ hj : j < l.length, j < i ∧ l[j] = y := by
  have hearlier : ∀ i (hi : i < l.length) b, Edge succ g l[i] b →
      ∃ j, ∃ hj : j < l.length, j < i ∧ l[j] = b := by
    intro i hi b hb
    obtain ⟨j, hj, hjb⟩ := List.getElem_of_mem (hord i hi b hb)
    rw [List.length_take] at hj
    exact ⟨j, by omega, by omega, by rw [← hjb, List.getElem_take]⟩
  induction hy with
  | single hb => exact hearlier i hi _ hb
  | tail _ hbc ih =>
    obtain ⟨j, hj, hji, rfl⟩ := ih
    obtain ⟨j', hj', hj'j, rfl⟩ := hearlier j hj _ hbc
    exact ⟨j', hj', by omega, rfl⟩

/-- Every key of a list without repetition, stored, and in which every successor of a listed key
is listed before it, is grounded. -/
theorem grounded_of_ordered {g : Finmap fun _ : α => β} {l : List α} (hnodup : l.Nodup)
    (hmem : ∀ x ∈ l, x ∈ g)
    (hord : ∀ i (hi : i < l.length), ∀ b, Edge succ g l[i] b → b ∈ l.take i) {x : α}
    (hx : x ∈ l) : Grounded succ g x := by
  obtain ⟨i, hi, rfl⟩ := List.getElem_of_mem hx
  intro y hy
  rcases reflTransGen_iff_eq_or_transGen.mp hy with rfl | hy
  · refine ⟨hmem _ hx, fun hyy => ?_⟩
    obtain ⟨j, hj, hji, hjy⟩ := exists_earlier_of_transGen hord hi hyy
    exact absurd ((hnodup.getElem_inj_iff).mp hjy) (by omega)
  · obtain ⟨j, hj, -, rfl⟩ := exists_earlier_of_transGen hord hi hy
    refine ⟨hmem _ (List.getElem_mem hj), fun hyy => ?_⟩
    obtain ⟨j', hj', hj'j, hj'y⟩ := exists_earlier_of_transGen hord hj hyy
    exact absurd ((hnodup.getElem_inj_iff).mp hj'y) (by omega)

/-! ## Compaction of a set of roots -/

/-- **In an acyclic graph, if every candidate outside `kept` is reached, by at least one edge,
from a candidate, then every candidate is reached from a kept candidate.** -/
theorem exists_unsubsumed_reach {g : Finmap fun _ : α => β} (hacyc : Acyclic succ g)
    {cands kept : Finset α}
    (hsub : ∀ c ∈ cands, c ∉ kept → ∃ c' ∈ cands, TransGen (Edge succ g) c' c) :
    ∀ c ∈ cands, ∃ r ∈ kept, r ∈ cands ∧ ReflTransGen (Edge succ g) r c := by
  obtain ⟨rank, hr⟩ := hacyc
  -- induction on how far the rank of `c` is below the largest rank of a candidate
  suffices ∀ m c, cands.sup rank - rank c = m → c ∈ cands →
      ∃ r ∈ kept, r ∈ cands ∧ ReflTransGen (Edge succ g) r c from
    fun c hc => this _ c rfl hc
  intro m
  induction m using Nat.strong_induction_on with
  | _ m ih =>
    intro c hm hc
    by_cases hk : c ∈ kept
    · exact ⟨c, hk, hc, .refl⟩
    · obtain ⟨c', hc', hc'c⟩ := hsub c hc hk
      have hlt : rank c < rank c' := hr.lt_of_transGen hc'c
      have hle : rank c' ≤ cands.sup rank := Finset.le_sup hc'
      obtain ⟨r, hrk, hrc, hrc'⟩ := ih _ (by omega) c' rfl hc'
      exact ⟨r, hrk, hrc, hrc'.trans hc'c.to_reflTransGen⟩

/-! ## Heads of a set of keys -/

variable (succ) in
/-- The heads of `cands`: its keys that no key of `cands` reaches by at least one edge. -/
def Heads (g : Finmap fun _ : α => β) (cands : Finset α) (x : α) : Prop :=
  x ∈ cands ∧ ¬ ∃ c ∈ cands, TransGen (Edge succ g) c x

/-- **In an acyclic graph, an antichain of candidates that reaches every dropped candidate is the
set of heads of the candidates.** -/
theorem Antichain.mem_iff_heads {g : Finmap fun _ : α => β} (hacyc : Acyclic succ g)
    {cands kept : Finset α} (hanti : Antichain succ g kept) (hsubset : kept ⊆ cands)
    (hsub : ∀ c ∈ cands, c ∉ kept → ∃ c' ∈ cands, TransGen (Edge succ g) c' c) {x : α} :
    x ∈ kept ↔ Heads succ g cands x := by
  constructor
  · intro hx
    refine ⟨hsubset hx, fun ⟨c, hc, hcx⟩ => ?_⟩
    -- the candidate reaching `x` is itself reached from a kept one, which then reaches `x`
    obtain ⟨r, hr, -, hrc⟩ := exists_unsubsumed_reach hacyc hsub c hc
    have hrx : TransGen (Edge succ g) r x := TransGen.trans_right hrc hcx
    by_cases hrxe : r = x
    · exact hacyc.not_transGen_self x (hrxe ▸ hrx)
    · exact hanti r hr x hx hrxe hrx.to_reflTransGen
  · rintro ⟨hx, hnot⟩
    by_contra hk
    exact hnot (hsub x hx hk)

/-- **Heads absorb a union.** In an acyclic graph, the heads of the heads of `S` together with `T`
are the heads of `S ∪ T`. -/
theorem heads_union_heads {g : Finmap fun _ : α => β} (hacyc : Acyclic succ g)
    {S T kept : Finset α} (hkept : ∀ x, x ∈ kept ↔ Heads succ g S x) {x : α} :
    Heads succ g (kept ∪ T) x ↔ Heads succ g (S ∪ T) x := by
  have hsub : ∀ c ∈ S, c ∉ kept → ∃ c' ∈ S, TransGen (Edge succ g) c' c := by
    intro c hc hck
    by_contra hnot
    exact hck ((hkept c).mpr ⟨hc, hnot⟩)
  constructor
  · rintro ⟨hx, hnot⟩
    refine ⟨Finset.mem_union.mpr ((Finset.mem_union.mp hx).imp_left fun h => ((hkept x).mp h).1),
      fun ⟨c, hc, hcx⟩ => ?_⟩
    rcases Finset.mem_union.mp hc with hc | hc
    · -- a key of `S` reaching `x` is reached from a head of `S`
      obtain ⟨r, hr, -, hrc⟩ := exists_unsubsumed_reach hacyc hsub c hc
      exact hnot ⟨r, Finset.mem_union_left _ hr, TransGen.trans_right hrc hcx⟩
    · exact hnot ⟨c, Finset.mem_union_right _ hc, hcx⟩
  · rintro ⟨hx, hnot⟩
    refine ⟨?_, fun ⟨c, hc, hcx⟩ => hnot ⟨c, ?_, hcx⟩⟩
    · rcases Finset.mem_union.mp hx with hxS | hxT
      · exact Finset.mem_union_left _ ((hkept x).mpr
          ⟨hxS, fun ⟨c, hc, hcx⟩ => hnot ⟨c, Finset.mem_union_left _ hc, hcx⟩⟩)
      · exact Finset.mem_union_right _ hxT
    · exact Finset.mem_union.mpr ((Finset.mem_union.mp hc).imp_left fun h => ((hkept c).mp h).1)

end Dag
