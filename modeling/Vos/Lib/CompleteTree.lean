import Mathlib.Data.Finset.Card
import Mathlib.Data.Nat.Bitwise

/-!
# Complete binary trees over natural positions

A complete binary tree of height `h` has its leaves at the positions below `2 ^ h`; the cell of
height `k` at index `i` is the subtree over the positions `p` with `p / 2 ^ k = i`, and its two
children are the cells `2 * i` and `2 * i + 1` one height down. The root of a cell over a leaf
function is hashed bottom-up; over a constant leaf it is the chain of empty roots.

* `root`, `emptyRoot`, with `root_congr` (a root reads only its own cell) and
  `root_eq_emptyRoot`;
* cell arithmetic: `div_two_pow_succ`, `div_two_pow_add`, `div_two_pow_eq_two_mul_add`,
  `div_two_pow_eq_iff_testBit`;
* `pathRoot`, a leaf folded up a path of siblings, and `pathSiblings`, the roots beside a
  position's path: **`pathRoot_pathSiblings`** (the path of a leaf reaches the root) and
  **`eq_of_pathRoot`** (under a pair-injective node hash, a path that reaches the root is that
  one);
* `cellOf S k i`, the positions of a set in a cell, and `branchCells S k i`, the cells below
  whose two children are both occupied, with `mem_branchCells` and **`card_branchCells`**: a
  non-empty cell has one branching cell fewer than it has positions.
-/

namespace CompleteTree

variable {H : Type} (node : H → H → H)

/-- The root of the cell of height `k` at index `i`, over the leaves `leaf`. -/
def root (leaf : ℕ → H) : ℕ → ℕ → H
  | 0, i => leaf i
  | k + 1, i => node (root leaf k (2 * i)) (root leaf k (2 * i + 1))

/-- The root of an empty cell of height `k`, over the empty leaf `e`. -/
def emptyRoot (e : H) : ℕ → H
  | 0 => e
  | k + 1 => node (emptyRoot e k) (emptyRoot e k)

/-! ## Cells -/

theorem div_two_pow_succ (p k : ℕ) : p / 2 ^ (k + 1) = p / 2 ^ k / 2 := by
  rw [Nat.pow_succ, Nat.div_div_eq_div_mul]

theorem div_two_pow_add (p k m : ℕ) : p / 2 ^ (k + m) = p / 2 ^ k / 2 ^ m := by
  rw [Nat.pow_add, Nat.div_div_eq_div_mul]

theorem div_two_pow_eq_two_mul_add (p k : ℕ) :
    p / 2 ^ k = 2 * (p / 2 ^ (k + 1)) + if p.testBit k then 1 else 0 := by
  rw [div_two_pow_succ, Nat.testBit_eq_decide_div_mod_eq]
  have := Nat.mod_two_eq_zero_or_one (p / 2 ^ k)
  rcases this with h | h <;> simp [h] <;> omega

theorem div_two_pow_eq_iff_testBit {a b m : ℕ} :
    a / 2 ^ m = b / 2 ^ m ↔ ∀ i, m ≤ i → a.testBit i = b.testBit i := by
  constructor
  · intro h i hi
    rw [show i = (i - m) + m by omega, ← Nat.testBit_div_two_pow, h, Nat.testBit_div_two_pow]
  · intro h
    exact Nat.eq_of_testBit_eq fun i => by
      rw [Nat.testBit_div_two_pow, Nat.testBit_div_two_pow, h (i + m) (by omega)]

theorem div_two_pow_eq_of_le {a b x g : ℕ} (hxg : x ≤ g) (h : a / 2 ^ x = b / 2 ^ x) :
    a / 2 ^ g = b / 2 ^ g := by
  rw [show g = x + (g - x) by omega, div_two_pow_add, h, ← div_two_pow_add]

theorem mem_child_iff {p k i : ℕ} :
    p / 2 ^ (k + 1) = i ↔ p / 2 ^ k = 2 * i ∨ p / 2 ^ k = 2 * i + 1 := by
  rw [div_two_pow_succ]
  omega

/-! ## Roots -/

theorem root_congr {leaf leaf' : ℕ → H} :
    ∀ {k i : ℕ}, (∀ p, p / 2 ^ k = i → leaf p = leaf' p) →
      root node leaf k i = root node leaf' k i
  | 0, i, h => by simpa [root] using h i
  | k + 1, i, h => by
    have hl : root node leaf k (2 * i) = root node leaf' k (2 * i) :=
      root_congr fun p hp => h p (mem_child_iff.mpr (.inl hp))
    have hr : root node leaf k (2 * i + 1) = root node leaf' k (2 * i + 1) :=
      root_congr fun p hp => h p (mem_child_iff.mpr (.inr hp))
    rw [root, root, hl, hr]

theorem root_eq_emptyRoot {leaf : ℕ → H} {e : H} :
    ∀ {k i : ℕ}, (∀ p, p / 2 ^ k = i → leaf p = e) → root node leaf k i = emptyRoot node e k
  | 0, i, h => by simpa [root, emptyRoot] using h i
  | k + 1, i, h => by
    rw [root, emptyRoot, root_eq_emptyRoot fun p hp => h p (mem_child_iff.mpr (.inl hp)),
      root_eq_emptyRoot fun p hp => h p (mem_child_iff.mpr (.inr hp))]

/-! ## Paths -/

/-- Fold the hash `h` of the cell of height `d` on `key`'s path up through `siblings`, lowest
first: at height `j` the sibling is on the left when bit `j` of `key` is set. -/
def pathRoot (key : ℕ) : ℕ → H → List H → H
  | _, h, [] => h
  | d, h, s :: ss => pathRoot key (d + 1) (if key.testBit d then node s h else node h s) ss

/-- The index of the cell of height `j` beside `key`'s path. -/
def siblingIndex (key j : ℕ) : ℕ :=
  if key.testBit j then 2 * (key / 2 ^ (j + 1)) else 2 * (key / 2 ^ (j + 1)) + 1

/-- The roots of the `n` cells beside `key`'s path from height `d` up. -/
def pathSiblings (leaf : ℕ → H) (key d n : ℕ) : List H :=
  (List.range' d n).map fun j => root node leaf j (siblingIndex key j)

theorem pathSiblings_succ (leaf : ℕ → H) (key d n : ℕ) :
    pathSiblings node leaf key d (n + 1) =
      root node leaf d (siblingIndex key d) :: pathSiblings node leaf key (d + 1) n := by
  simp [pathSiblings, List.range'_succ]

/-- One level of `key`'s path: its cell of height `j + 1` joins its cell of height `j` with the
sibling, on the side bit `j` names. -/
theorem root_succ_path (leaf : ℕ → H) (key j : ℕ) :
    root node leaf (j + 1) (key / 2 ^ (j + 1)) =
      if key.testBit j then node (root node leaf j (siblingIndex key j)) (root node leaf j (key / 2 ^ j))
      else node (root node leaf j (key / 2 ^ j)) (root node leaf j (siblingIndex key j)) := by
  have hj := div_two_pow_eq_two_mul_add key j
  rw [root, siblingIndex]
  split_ifs at hj ⊢ <;> simp only [hj, Nat.add_zero]

/-- **A leaf's path reaches the root.** Folding the root of `key`'s cell of height `d` up through
the `n` cells beside its path gives its cell of height `d + n`. -/
theorem pathRoot_pathSiblings (leaf : ℕ → H) (key : ℕ) :
    ∀ (n d : ℕ), pathRoot node key d (root node leaf d (key / 2 ^ d))
      (pathSiblings node leaf key d n) = root node leaf (d + n) (key / 2 ^ (d + n))
  | 0, d => rfl
  | n + 1, d => by
    rw [pathSiblings_succ, pathRoot, ← root_succ_path, pathRoot_pathSiblings leaf key n (d + 1),
      Nat.add_right_comm, Nat.add_assoc]

/-- **A path that reaches the root is the leaf's own.** Under a pair-injective node hash, a hash
at height `d` folded up through any siblings to `key`'s cell of height `d + n` is the root of its
cell at height `d`, and the siblings are the roots beside the path. -/
theorem eq_of_pathRoot (hnode : ∀ a b c e, node a b = node c e → a = c ∧ b = e)
    (leaf : ℕ → H) (key : ℕ) :
    ∀ (ss : List H) (d : ℕ) (h : H),
      pathRoot node key d h ss = root node leaf (d + ss.length) (key / 2 ^ (d + ss.length)) →
        h = root node leaf d (key / 2 ^ d) ∧ ss = pathSiblings node leaf key d ss.length
  | [], d, h, hroot => ⟨hroot, rfl⟩
  | s :: ss, d, h, hroot => by
    rw [pathRoot, List.length_cons, ← Nat.add_assoc, Nat.add_right_comm] at hroot
    -- the rest of the path reaches the root from the cell of height `d + 1`
    obtain ⟨hup, hss⟩ := eq_of_pathRoot hnode leaf key ss (d + 1) _ hroot
    rw [root_succ_path] at hup
    rw [List.length_cons, pathSiblings_succ, ← hss]
    -- peel the top join: the hash and the sibling are the two children
    split_ifs at hup
    · obtain ⟨hs, hh⟩ := hnode _ _ _ _ hup
      exact ⟨hh, by rw [hs]⟩
    · obtain ⟨hh, hs⟩ := hnode _ _ _ _ hup
      exact ⟨hh, by rw [hs]⟩

/-! ## Branching cells -/

section Branching

variable (S : Finset ℕ)

/-- The positions of `S` in the cell of height `k` at `i`. -/
def cellOf (k i : ℕ) : Finset ℕ := S.filter (· / 2 ^ k = i)

/-- The cells at or below the cell `(k, i)` whose two children both hold positions of `S`. -/
def branchCells : ℕ → ℕ → Finset (ℕ × ℕ)
  | 0, _ => ∅
  | k + 1, i =>
    ((if (cellOf S k (2 * i)).Nonempty ∧ (cellOf S k (2 * i + 1)).Nonempty then {(k + 1, i)}
      else ∅) ∪ branchCells k (2 * i)) ∪ branchCells k (2 * i + 1)

variable {S}

@[simp] theorem mem_cellOf {k i p : ℕ} : p ∈ cellOf S k i ↔ p ∈ S ∧ p / 2 ^ k = i :=
  Finset.mem_filter

theorem cellOf_succ (k i : ℕ) : cellOf S (k + 1) i = cellOf S k (2 * i) ∪ cellOf S k (2 * i + 1) := by
  ext p
  simp only [mem_cellOf, Finset.mem_union, mem_child_iff]
  tauto

theorem disjoint_cellOf_children (k i : ℕ) :
    Disjoint (cellOf S k (2 * i)) (cellOf S k (2 * i + 1)) :=
  Finset.disjoint_left.mpr fun p hl hr => by
    rw [mem_cellOf] at hl hr
    omega

theorem cellOf_nonempty_of_child {k i j : ℕ} (hj : j / 2 = i) (h : (cellOf S k j).Nonempty) :
    (cellOf S (k + 1) i).Nonempty := by
  obtain ⟨p, hp⟩ := h
  rw [mem_cellOf] at hp
  exact ⟨p, mem_cellOf.mpr ⟨hp.1, by rw [div_two_pow_succ, hp.2, hj]⟩⟩

/-- The branching cells below `(k, i)`: those at a height `1 ≤ h ≤ k` inside the cell whose two
children are occupied. -/
theorem mem_branchCells :
    ∀ {k i h j : ℕ}, (h, j) ∈ branchCells S k i ↔
      1 ≤ h ∧ h ≤ k ∧ j / 2 ^ (k - h) = i ∧
        (cellOf S (h - 1) (2 * j)).Nonempty ∧ (cellOf S (h - 1) (2 * j + 1)).Nonempty
  | 0, i, h, j => by simp [branchCells]; omega
  | k + 1, i, h, j => by
    simp only [branchCells, Finset.mem_union, mem_branchCells]
    constructor
    · rintro ((hhere | ⟨h1, hk, hj, hl, hr⟩) | ⟨h1, hk, hj, hl, hr⟩)
      · split_ifs at hhere with hsplit
        · obtain ⟨rfl, rfl⟩ := Prod.mk.inj (Finset.mem_singleton.mp hhere)
          simpa using hsplit
        · simp at hhere
      · refine ⟨h1, by omega, ?_, hl, hr⟩
        rw [show k + 1 - h = k - h + 1 by omega, div_two_pow_succ, hj]
        omega
      · refine ⟨h1, by omega, ?_, hl, hr⟩
        rw [show k + 1 - h = k - h + 1 by omega, div_two_pow_succ, hj]
        omega
    · rintro ⟨h1, hk, hj, hl, hr⟩
      rcases Nat.lt_or_ge h (k + 1) with hlt | hge
      · -- a cell strictly below: inside one of the two children
        have hparent : j / 2 ^ (k - h) / 2 = i := by
          rw [← div_two_pow_succ, show k - h + 1 = k + 1 - h by omega, hj]
        have hchild : j / 2 ^ (k - h) = 2 * i ∨ j / 2 ^ (k - h) = 2 * i + 1 := by omega
        rcases hchild with hc | hc
        · exact .inl (.inr ⟨h1, by omega, hc, hl, hr⟩)
        · exact .inr ⟨h1, by omega, hc, hl, hr⟩
      · -- the cell itself
        obtain rfl : h = k + 1 := by omega
        have hji : j = i := by simpa using hj
        subst hji
        refine .inl (.inl ?_)
        rw [if_pos (by simpa using And.intro hl hr)]
        exact Finset.mem_singleton_self _

theorem branchCells_eq_empty {k i : ℕ} (h : cellOf S k i = ∅) : branchCells S k i = ∅ := by
  refine Finset.eq_empty_of_forall_notMem fun ⟨h', j⟩ hmem => ?_
  obtain ⟨h1, hk, hj, ⟨p, hp⟩, -⟩ := mem_branchCells.mp hmem
  rw [mem_cellOf] at hp
  have hpk : p / 2 ^ k = i := by
    rw [show k = h' - 1 + 1 + (k - h') by omega, div_two_pow_add, div_two_pow_succ, hp.2, ← hj]
    congr 1
    omega
  exact Finset.notMem_empty p (h ▸ mem_cellOf.mpr ⟨hp.1, hpk⟩)

theorem disjoint_branchCells_children (k i : ℕ) :
    Disjoint (branchCells S k (2 * i)) (branchCells S k (2 * i + 1)) :=
  Finset.disjoint_left.mpr fun ⟨h, j⟩ hl hr => by
    rw [mem_branchCells] at hl hr
    omega

/-- **Counting branching cells.** In a non-empty cell there is one branching cell fewer than
there are positions, as in every binary tree with that many leaves. -/
theorem card_branchCells :
    ∀ {k i : ℕ}, (cellOf S k i).Nonempty → (branchCells S k i).card + 1 = (cellOf S k i).card
  | 0, i, hne => by
    -- a cell of height zero holds the position `i` alone
    have hsub : cellOf S 0 i ⊆ {i} := fun p hp => by
      rw [mem_cellOf] at hp
      simpa using hp.2
    have hcard : (cellOf S 0 i).card = 1 :=
      le_antisymm ((Finset.card_le_card hsub).trans (by simp)) (Finset.card_pos.mpr hne)
    simp [branchCells, hcard]
  | k + 1, i, hne => by
    rw [cellOf_succ, Finset.card_union_of_disjoint (disjoint_cellOf_children k i)] at *
    have hbelow : Disjoint ((if (cellOf S k (2 * i)).Nonempty ∧ (cellOf S k (2 * i + 1)).Nonempty
        then {(k + 1, i)} else ∅) ∪ branchCells S k (2 * i)) (branchCells S k (2 * i + 1)) := by
      refine Finset.disjoint_union_left.mpr ⟨?_, disjoint_branchCells_children k i⟩
      split_ifs
      · refine Finset.disjoint_singleton_left.mpr fun hmem => ?_
        have := (mem_branchCells.mp hmem).2.1
        omega
      · exact Finset.disjoint_empty_left _
    have htop : Disjoint (if (cellOf S k (2 * i)).Nonempty ∧ (cellOf S k (2 * i + 1)).Nonempty
        then {(k + 1, i)} else ∅) (branchCells S k (2 * i)) := by
      split_ifs
      · refine Finset.disjoint_singleton_left.mpr fun hmem => ?_
        have := (mem_branchCells.mp hmem).2.1
        omega
      · exact Finset.disjoint_empty_left _
    rw [branchCells, Finset.card_union_of_disjoint hbelow, Finset.card_union_of_disjoint htop]
    -- split on which children are occupied
    rcases (cellOf S k (2 * i)).eq_empty_or_nonempty with hl | hl <;>
      rcases (cellOf S k (2 * i + 1)).eq_empty_or_nonempty with hr | hr
    · simp [hl, hr] at hne
    · have := card_branchCells hr
      simp [hl, branchCells_eq_empty hl]
      omega
    · have := card_branchCells hl
      simp [hr, branchCells_eq_empty hr]
      omega
    · have h1 := card_branchCells hl
      have h2 := card_branchCells hr
      simp only [hl, hr, and_self, if_true, Finset.card_singleton]
      omega

end Branching

end CompleteTree
