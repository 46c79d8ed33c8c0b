import Vos.Storage.CommittedTree

/-!
# vos storage — `update_tree` keeps the rows canonical

`update_tree` walks down `kb`'s path through the stored branch nodes, stops at the slot the key
occupies or leaves, rewrites that slot, and bubbles the new refs back up. This module follows the
walk over the canonical rows of `Vos.Storage.CommittedTree`:

* `PathFrames`: the stack of the descent, one frame per branching cell on the path, with the
  cells in between keeping their keys on the path (`OnPathAt`);
* `bubble_settled`: the bubble-up rewrites every frame with its new canonical row;
* the descent `DescentAt`, its stops and its step, and what it leaves for the bubble-up,
  `Settled`;
* **`updateTree_canonical`**: setting or clearing a leaf turns the canonical rows of the content
  into the canonical rows of the new content.
-/

namespace Vos.Storage

open Vos.Zk CompleteTree

/-! ## The path of a key -/

section Path

variable {H : Type} (node : H → H → H) (emptyLeaf : H) (p : SmtParams)

/-- On `kb`'s path, the cell of height `g + 1` keeps its keys in its child on the path. -/
def OnPathAt (T : Finmap fun _ : ℕ => H) (kb g : ℕ) : Prop :=
  ∀ q ∈ T, q / 2 ^ (g + 1) = kb / 2 ^ (g + 1) → q / 2 ^ g = kb / 2 ^ g

/-- The frame the descent pushes at `kb`'s path cell of height `h`. -/
def pathFrame (T : Finmap fun _ : ℕ => H) (kb h : ℕ) : Frame H :=
  ⟨(cellKey p h (kb / 2 ^ h)).1, (cellKey p h (kb / 2 ^ h)).2,
    canonRef node emptyLeaf p T (h - 1) (2 * (kb / 2 ^ h)),
    canonRef node emptyLeaf p T (h - 1) (2 * (kb / 2 ^ h) + 1), levelBit p kb (p.depth - h)⟩

/-- The stack of the descent above height `g`: deepest first, one frame at each branching cell
on `kb`'s path, and every other cell on the path keeping its keys on the path. -/
inductive PathFrames (T : Finmap fun _ : ℕ => H) (kb : ℕ) : ℕ → List (Frame H) → Prop
  | top {g : ℕ} : g ≤ p.depth → (∀ g', g ≤ g' → g' < p.depth → OnPathAt T kb g') →
      PathFrames T kb g []
  | frame {g h : ℕ} {stack : List (Frame H)} : g < h →
      (∀ g', g ≤ g' → g' + 1 < h → OnPathAt T kb g') → Branching T (h - 1) (kb / 2 ^ h) →
      PathFrames T kb h stack → PathFrames T kb g (pathFrame node emptyLeaf p T kb h :: stack)

/-- The node row keys of a stack. -/
def frameKeys (stack : List (Frame H)) : List (UInt16 × ℕ) :=
  stack.map fun f => (f.level, f.prefixBits)

variable {node emptyLeaf p}

/-- Cells on the path that keep their keys on the path, from `g` up `m` levels, hold only keys
of the cell at `g`. -/
theorem onPath_chain {T : Finmap fun _ : ℕ => H} {kb g : ℕ} :
    ∀ {m : ℕ}, (∀ g', g ≤ g' → g' < g + m → OnPathAt T kb g') →
      ∀ q ∈ T, q / 2 ^ (g + m) = kb / 2 ^ (g + m) → q / 2 ^ g = kb / 2 ^ g
  | 0, _, _, _, hq => hq
  | m + 1, hon, q, hqT, hq =>
    onPath_chain (fun g' h1 h2 => hon g' h1 (by omega)) q hqT
      (hon (g + m) (by omega) (by omega) q hqT (by rwa [← Nat.add_assoc] at hq))

theorem onPath_chain_le {T : Finmap fun _ : ℕ => H} {kb g x : ℕ} (hgx : g ≤ x)
    (hon : ∀ g', g ≤ g' → g' < x → OnPathAt T kb g') :
    ∀ q ∈ T, q / 2 ^ x = kb / 2 ^ x → q / 2 ^ g = kb / 2 ^ g := by
  obtain ⟨m, rfl⟩ := Nat.exists_eq_add_of_le hgx
  exact onPath_chain hon

theorem OnPathAt.of_agree {T T' : Finmap fun _ : ℕ => H} {kb g g' : ℕ}
    (hon : OnPathAt T kb g') (hle : g ≤ g')
    (hagree : ∀ q, q / 2 ^ g ≠ kb / 2 ^ g → T'.lookup q = T.lookup q) : OnPathAt T' kb g' := by
  intro q hq hqc
  by_cases hqg : q / 2 ^ g = kb / 2 ^ g
  · rw [show g' = g + (g' - g) by omega, div_two_pow_add, hqg, ← div_two_pow_add]
  · exact hon q (Finmap.mem_iff.mpr (by rw [← hagree q hqg]; exact Finmap.mem_iff.mp hq)) hqc

theorem PathFrames.le_depth {T : Finmap fun _ : ℕ => H} {kb g : ℕ} {stack : List (Frame H)}
    (hf : PathFrames node emptyLeaf p T kb g stack) : g ≤ p.depth := by
  induction hf with
  | top hg _ => exact hg
  | frame hgh _ _ _ ih => omega

theorem PathFrames.nonempty {T : Finmap fun _ : ℕ => H} {kb g : ℕ} {f : Frame H}
    {stack : List (Frame H)} (hf : PathFrames node emptyLeaf p T kb g (f :: stack)) :
    (cellOf T.keys g (kb / 2 ^ g)).Nonempty := by
  cases hf with
  | @frame _ h _ hgh hgap hbr _ =>
    -- the frame's child on the path holds keys, and they lie in the cell at `g`
    have hchild : (cellOf T.keys (h - 1) (kb / 2 ^ (h - 1))).Nonempty := by
      have hj := div_two_pow_eq_two_mul_add kb (h - 1)
      rw [show h - 1 + 1 = h by omega] at hj
      split_ifs at hj
      · rw [hj]
        exact hbr.2
      · rw [hj, Nat.add_zero]
        exact hbr.1
    obtain ⟨q, hq⟩ := hchild
    rw [mem_cellOf, Finmap.mem_keys] at hq
    refine ⟨q, mem_cellOf.mpr ⟨Finmap.mem_keys.mpr hq.1, ?_⟩⟩
    have := onPath_chain (m := h - 1 - g) (fun g' h1 h2 => hgap g' h1 (by omega)) q hq.1
    rw [show g + (h - 1 - g) = h - 1 by omega] at this
    exact this hq.2

theorem not_branching_of_unique {T : Finmap fun _ : ℕ => H} {x j k : ℕ} (hx : 1 ≤ x)
    (h : ∀ q ∈ T, q / 2 ^ x = j → q = k) : ¬ Branching T (x - 1) j := by
  rintro ⟨⟨a, ha⟩, ⟨b, hb⟩⟩
  rw [mem_cellOf, Finmap.mem_keys] at ha hb
  have hax : a / 2 ^ x = j := by
    rw [show x = x - 1 + 1 by omega, div_two_pow_succ, ha.2]
    omega
  have hbx : b / 2 ^ x = j := by
    rw [show x = x - 1 + 1 by omega, div_two_pow_succ, hb.2]
    omega
  have hab : a = b := (h a ha.1 hax).trans (h b hb.1 hbx).symm
  rw [hab] at ha
  omega

theorem not_branching_of_onPath {T : Finmap fun _ : ℕ => H} {kb x : ℕ} (hx : 1 ≤ x)
    (hon : OnPathAt T kb (x - 1)) : ¬ Branching T (x - 1) (kb / 2 ^ x) := by
  rintro ⟨⟨a, ha⟩, ⟨b, hb⟩⟩
  rw [mem_cellOf, Finmap.mem_keys] at ha hb
  have hbit := div_two_pow_eq_two_mul_add kb (x - 1)
  rw [show x - 1 + 1 = x by omega] at hbit
  have hax := hon a ha.1 (by
    rw [div_two_pow_succ, div_two_pow_succ, ha.2, hbit]
    split_ifs <;> omega)
  have hbx := hon b hb.1 (by
    rw [div_two_pow_succ, div_two_pow_succ, hb.2, hbit]
    split_ifs <;> omega)
  omega

theorem PathFrames.gap {T : Finmap fun _ : ℕ => H} {kb g : ℕ} {stack : List (Frame H)}
    (hf : PathFrames node emptyLeaf p T kb g stack) {x : ℕ} (hgx : g < x) (hx : x ≤ p.depth)
    (hnot : cellKey p x (kb / 2 ^ x) ∉ frameKeys stack) : OnPathAt T kb (x - 1) := by
  induction hf with
  | top _ hon => exact hon (x - 1) (by omega) (by omega)
  | @frame g h stack hgh hgap _ _ ih =>
    rcases Nat.lt_trichotomy x h with hlt | rfl | hgt
    · exact hgap (x - 1) (by omega) (by omega)
    · exact absurd (by simp [frameKeys, pathFrame]) hnot
    · refine ih hgt fun hmem => hnot ?_
      simp only [frameKeys, List.map_cons, List.mem_cons]
      exact .inr hmem

end Path

/-! ## The bubble-up -/

section Bubble

variable {H : Type} {node : H → H → H} {emptyLeaf : H} {p : SmtParams}

theorem levelBit_depth_sub {kb h : ℕ} (h1 : 1 ≤ h) (hh : h ≤ p.depth) :
    levelBit p kb (p.depth - h) = kb.testBit (h - 1) := by
  rw [levelBit, show p.depth - 1 - (p.depth - h) = h - 1 by omega]

theorem bubble_cons (nodes : Finmap fun _ : UInt16 × ℕ => Ref H × Ref H) (child : Ref H)
    (f : Frame H) (stack : List (Frame H)) {l r : Ref H}
    (hlr : (if f.side then (f.left, child) else (child, f.right)) = (l, r)) :
    bubble node emptyLeaf p nodes child (f :: stack) =
      bubble node emptyLeaf p (nodes.insert (f.level, f.prefixBits) (l, r))
        (.branch f.level f.prefixBits (node (refSubtreeHash node emptyLeaf p l (f.level.toNat + 1))
          (refSubtreeHash node emptyLeaf p r (f.level.toNat + 1)))) stack := by
  rw [bubble, hlr]

/-- **The bubble-up.** Above a change confined to the cell at `g`, rewriting the frames with the
new canonical ref of that cell gives every branching cell on the path its new canonical row, and
ends with the new canonical top ref. -/
theorem bubble_settled (hw : p.depth ≤ 2 ^ 16) {T T' : Finmap fun _ : ℕ => H} {kb : ℕ}
    (hkb : kb < 2 ^ p.depth) :
    ∀ {g : ℕ} {stack : List (Frame H)}, PathFrames node emptyLeaf p T kb g stack →
      (∀ q, q / 2 ^ g ≠ kb / 2 ^ g → T'.lookup q = T.lookup q) →
      (stack ≠ [] → (cellOf T'.keys g (kb / 2 ^ g)).Nonempty) →
      ∀ nodes : Finmap (fun _ : UInt16 × ℕ => Ref H × Ref H),
        (∀ c ∉ frameKeys stack, nodes.lookup c = canonNodeAt node emptyLeaf p T' c) →
        (∀ c, (bubble node emptyLeaf p nodes (canonRef node emptyLeaf p T' g (kb / 2 ^ g))
          stack).1.lookup c = canonNodeAt node emptyLeaf p T' c) ∧
        (bubble node emptyLeaf p nodes (canonRef node emptyLeaf p T' g (kb / 2 ^ g)) stack).2 =
          canonRef node emptyLeaf p T' p.depth 0 := by
  intro g stack hf
  induction hf with
  | @top g hg hon =>
    intro hagree _ nodes hnodes
    refine ⟨fun c => hnodes c (by simp [frameKeys]), ?_⟩
    -- the cells above `g` keep their keys on the path: the top ref is the ref at `g`
    have hspine : canonRef node emptyLeaf p T' p.depth (kb / 2 ^ p.depth) =
        canonRef node emptyLeaf p T' g (kb / 2 ^ g) :=
      canonRef_spine_le T' hg (onPath_chain_le hg fun g' h1 h2 => (hon g' h1 h2).of_agree h1 hagree)
    rw [Nat.div_eq_of_lt hkb] at hspine
    exact hspine.symm
  | @frame g h stack hgh hgap hbr hrest ih =>
    intro hagree hne nodes hnodes
    have hh := hrest.le_depth
    set j := kb / 2 ^ h with hj
    have hjb : j < 2 ^ (p.depth - h) := by
      rw [hj, Nat.div_lt_iff_lt_mul (Nat.two_pow_pos h), ← Nat.pow_add,
        show p.depth - h + h = p.depth by omega]
      exact hkb
    -- outside the cell at `g`, nothing changed
    have hagree_h : ∀ q, q / 2 ^ h ≠ kb / 2 ^ h → T'.lookup q = T.lookup q := fun q hq =>
      hagree q fun hqg => hq (by
        rw [show h = g + (h - g) by omega, div_two_pow_add, hqg, ← div_two_pow_add])
    have hgap' : ∀ g', g ≤ g' → g' < h - 1 → OnPathAt T' kb g' := fun g' h1 h2 =>
      (hgap g' h1 (by omega)).of_agree h1 hagree
    -- the child on the path now holds the new ref at `g`
    have hpath : canonRef node emptyLeaf p T' (h - 1) (kb / 2 ^ (h - 1)) =
        canonRef node emptyLeaf p T' g (kb / 2 ^ g) := by
      exact canonRef_spine_le T' (by omega) (onPath_chain_le (by omega) hgap')
    -- the child off the path is unchanged
    have hoff : ∀ o, o / 2 = j → o ≠ kb / 2 ^ (h - 1) → ∀ q, q / 2 ^ (h - 1) = o →
        T.lookup q = T'.lookup q := fun o _ hne' q hq => (hagree q fun hqg => hne' (by
          rw [← hq, show h - 1 = g + (h - 1 - g) by omega, div_two_pow_add, hqg,
            ← div_two_pow_add])).symm
    have hpathne : (cellOf T'.keys (h - 1) (kb / 2 ^ (h - 1))).Nonempty := by
      obtain ⟨q, hq⟩ := hne (List.cons_ne_nil _ _)
      rw [mem_cellOf] at hq
      exact ⟨q, mem_cellOf.mpr ⟨hq.1, by
        rw [show h - 1 = g + (h - 1 - g) by omega, div_two_pow_add, hq.2, ← div_two_pow_add]⟩⟩
    have hbit := div_two_pow_eq_two_mul_add kb (h - 1)
    rw [show h - 1 + 1 = h by omega] at hbit
    -- the frame's cell stays branching, and its rewritten children are its new canonical ones
    have hbr' : Branching T' (h - 1) j := by
      have hsame : ∀ o, o / 2 = j → o ≠ kb / 2 ^ (h - 1) →
          cellOf T'.keys (h - 1) o = cellOf T.keys (h - 1) o := fun o ho hne' => by
        ext q
        simp only [mem_cellOf, Finmap.mem_keys, Finmap.mem_iff]
        constructor
        · rintro ⟨hq, rfl⟩
          exact ⟨by rwa [hoff _ ho hne' q rfl], rfl⟩
        · rintro ⟨hq, rfl⟩
          exact ⟨by rwa [← hoff _ ho hne' q rfl], rfl⟩
      split_ifs at hbit
      · rw [hbit] at hpathne
        exact ⟨hsame (2 * j) (by omega) (by omega) ▸ hbr.1, hpathne⟩
      · rw [hbit, Nat.add_zero] at hpathne
        exact ⟨hpathne, hsame (2 * j + 1) (by omega) (by omega) ▸ hbr.2⟩
    have hpair : (if (pathFrame node emptyLeaf p T kb h).side then
        ((pathFrame node emptyLeaf p T kb h).left, canonRef node emptyLeaf p T' g (kb / 2 ^ g))
        else (canonRef node emptyLeaf p T' g (kb / 2 ^ g), (pathFrame node emptyLeaf p T kb h).right)) =
        (canonRef node emptyLeaf p T' (h - 1) (2 * j),
          canonRef node emptyLeaf p T' (h - 1) (2 * j + 1)) := by
      simp only [pathFrame, levelBit_depth_sub (by omega) hh]
      split_ifs at hbit ⊢
      · rw [← hpath, hbit, canonRef_congr (hoff (2 * j) (by omega) (by omega))]
      · rw [← hpath, hbit, Nat.add_zero, canonRef_congr (hoff (2 * j + 1) (by omega) (by omega))]
    have hlv : ((pathFrame node emptyLeaf p T kb h).level).toNat + 1 = p.depth - (h - 1) := by
      simp only [pathFrame, cellKey, toNat_level hw (show 1 ≤ h by omega)]
      omega
    have hnew : Ref.branch (pathFrame node emptyLeaf p T kb h).level
        (pathFrame node emptyLeaf p T kb h).prefixBits
        (node (refSubtreeHash node emptyLeaf p (canonRef node emptyLeaf p T' (h - 1) (2 * j))
            ((pathFrame node emptyLeaf p T kb h).level.toNat + 1))
          (refSubtreeHash node emptyLeaf p (canonRef node emptyLeaf p T' (h - 1) (2 * j + 1))
            ((pathFrame node emptyLeaf p T kb h).level.toNat + 1))) =
        canonRef node emptyLeaf p T' h j := by
      rw [hlv, refSubtreeHash_canonRef hw T' (by omega), refSubtreeHash_canonRef hw T' (by omega),
        show h = h - 1 + 1 by omega, canonRef_succ_of_branching T' hbr']
      simp only [pathFrame, cellKey, CompleteTree.root]
      rw [show h - 1 + 1 = h by omega]
    rw [bubble_cons nodes _ _ stack hpair, hnew]
    refine ih hagree_h (fun _ => ?_) _ fun c hc => ?_
    · -- the frame's cell holds the keys of the cell at `g`
      obtain ⟨q, hq⟩ := hne (List.cons_ne_nil _ _)
      rw [mem_cellOf] at hq
      exact ⟨q, mem_cellOf.mpr ⟨hq.1, by
        rw [hj, show h = g + (h - g) by omega, div_two_pow_add, hq.2, ← div_two_pow_add]⟩⟩
    · by_cases hck : c = ((pathFrame node emptyLeaf p T kb h).level,
          (pathFrame node emptyLeaf p T kb h).prefixBits)
      · rw [hck, Finmap.lookup_insert]
        simp only [pathFrame]
        rw [canonNodeAt_cellKey hw T' (by omega) hh hjb, if_pos hbr']
      · rw [Finmap.lookup_insert_of_ne _ hck]
        exact hnodes c fun hmem => by
          simp only [frameKeys, List.map_cons, List.mem_cons] at hmem
          rcases hmem with hmem | hmem
          · exact hck hmem
          · exact hc hmem

end Bubble

/-! ## The descent -/

section Descent

variable {H : Type} (node : H → H → H) (emptyLeaf : H) (p : SmtParams)

/-- The content after setting (`some`) or clearing (`none`) the leaf of `kb`. -/
def setLeaf (T : Finmap fun _ : ℕ => H) (kb : ℕ) : Option H → Finmap fun _ : ℕ => H
  | some h => T.insert kb h
  | none => T.erase kb

/-- Where the descent stands: at `kb`'s path cell of height `g`, below the frames of the
branching cells above it, with the cell's canonical ref in hand and the node rows canonical. -/
structure DescentAt (T : Finmap fun _ : ℕ => H) (kb g : ℕ)
    (nodes : Finmap fun _ : UInt16 × ℕ => Ref H × Ref H) (stack : List (Frame H)) (cur : Ref H) :
    Prop where
  frames : PathFrames node emptyLeaf p T kb g stack
  cur : cur = canonRef node emptyLeaf p T g (kb / 2 ^ g)
  nodes : ∀ c, nodes.lookup c = canonNodeAt node emptyLeaf p T c

/-- What the descent and the collapse leave to the bubble-up: a height `g` with the frames above
it and the new canonical ref of its cell, a change confined to that cell, and node rows canonical
for the new content away from the frames. -/
structure Settled (T T' : Finmap fun _ : ℕ => H) (kb : ℕ)
    (nodes : Finmap fun _ : UInt16 × ℕ => Ref H × Ref H) (child : Ref H)
    (stack : List (Frame H)) : Prop where
  height : ∃ g, PathFrames node emptyLeaf p T kb g stack ∧
    child = canonRef node emptyLeaf p T' g (kb / 2 ^ g) ∧
    (∀ q, q / 2 ^ g ≠ kb / 2 ^ g → T'.lookup q = T.lookup q) ∧
    (stack ≠ [] → (cellOf T'.keys g (kb / 2 ^ g)).Nonempty)
  nodes : ∀ c ∉ frameKeys stack, nodes.lookup c = canonNodeAt node emptyLeaf p T' c

/-- What a finished descent owes: the new count, whether the key set changed, and, after the
collapse, a settled state for the bubble-up. -/
structure DescentOk (T : Finmap fun _ : ℕ => H) (kb : ℕ) (leaf : Option H) (d : Descent H) :
    Prop where
  count : d.count = (setLeaf T kb leaf).keys.card
  changed : d.changed = (decide (kb ∈ T) != leaf.isSome)
  settled : Settled node emptyLeaf p T (setLeaf T kb leaf) kb (collapse d).1 (collapse d).2.1
    (collapse d).2.2

variable {node emptyLeaf p}

theorem lookup_setLeaf_of_ne {T : Finmap fun _ : ℕ => H} {kb q : ℕ} (leaf : Option H)
    (hq : q ≠ kb) : (setLeaf T kb leaf).lookup q = T.lookup q := by
  cases leaf with
  | some h => exact Finmap.lookup_insert_of_ne _ hq
  | none => exact Finmap.lookup_erase_ne hq

theorem lookup_setLeaf_self (T : Finmap fun _ : ℕ => H) (kb : ℕ) (leaf : Option H) :
    (setLeaf T kb leaf).lookup kb = leaf := by
  cases leaf with
  | some h => exact Finmap.lookup_insert _
  | none => exact Finmap.lookup_erase _ _

theorem mem_setLeaf_of_ne {T : Finmap fun _ : ℕ => H} {kb q : ℕ} (leaf : Option H)
    (hq : q ≠ kb) : q ∈ setLeaf T kb leaf ↔ q ∈ T := by
  rw [Finmap.mem_iff, Finmap.mem_iff, lookup_setLeaf_of_ne leaf hq]

theorem keys_setLeaf (T : Finmap fun _ : ℕ => H) (kb : ℕ) (leaf : Option H) :
    (setLeaf T kb leaf).keys =
      if leaf.isSome then Insert.insert kb T.keys else T.keys.erase kb := by
  cases leaf with
  | some h =>
    ext q
    simp [setLeaf, Finmap.mem_keys, Finmap.mem_insert]
  | none => exact Finmap.keys_erase kb T

theorem card_keys_setLeaf (T : Finmap fun _ : ℕ => H) (kb : ℕ) (leaf : Option H) :
    (setLeaf T kb leaf).keys.card =
      if leaf.isSome then (if kb ∈ T then T.keys.card else T.keys.card + 1)
      else (if kb ∈ T then T.keys.card - 1 else T.keys.card) := by
  rw [keys_setLeaf]
  by_cases hk : kb ∈ T <;> cases leaf <;>
    simp [hk, Finset.card_insert_of_notMem, Finset.card_erase_of_mem, Finmap.mem_keys]

theorem unique_setLeaf {T : Finmap fun _ : ℕ => H} {kb x : ℕ} (leaf : Option H)
    (hT : ∀ q ∈ T, q / 2 ^ x = kb / 2 ^ x → q = kb) :
    ∀ q ∈ setLeaf T kb leaf, q / 2 ^ x = kb / 2 ^ x → q = kb := fun q hq hqx => by
  by_contra hqk
  exact hqk (hT q ((mem_setLeaf_of_ne leaf hqk).mp hq) hqx)

theorem canonRef_setLeaf_self (T : Finmap fun _ : ℕ => H) (kb : ℕ) (leaf : Option H) :
    canonRef node emptyLeaf p (setLeaf T kb leaf) 0 kb = match leaf with
      | some h => .leaf kb h
      | none => .empty := by
  cases leaf <;> rw [canonRef_zero, lookup_setLeaf_self]

theorem Settled.bubble (hw : p.depth ≤ 2 ^ 16) {T T' : Finmap fun _ : ℕ => H} {kb : ℕ}
    (hkb : kb < 2 ^ p.depth) {nodes : Finmap fun _ : UInt16 × ℕ => Ref H × Ref H}
    {child : Ref H} {stack : List (Frame H)} (h : Settled node emptyLeaf p T T' kb nodes child stack) :
    (∀ c, (bubble node emptyLeaf p nodes child stack).1.lookup c =
      canonNodeAt node emptyLeaf p T' c) ∧
    (bubble node emptyLeaf p nodes child stack).2 = canonRef node emptyLeaf p T' p.depth 0 := by
  obtain ⟨g, hf, rfl, hagree, hne⟩ := h.height
  exact bubble_settled hw hkb hf hagree hne nodes h.nodes

/-- Away from the frames and from the path below `g`, a change of one key keeps every canonical
row. -/
theorem canonNodeAt_eq_or_low (hw : p.depth ≤ 2 ^ 16) {T T' : Finmap fun _ : ℕ => H} {kb : ℕ}
    (hdiff : ∀ q, q ≠ kb → T'.lookup q = T.lookup q) {g : ℕ} {stack : List (Frame H)}
    (hf : PathFrames node emptyLeaf p T kb g stack) {c : UInt16 × ℕ} (hc : c ∉ frameKeys stack) :
    canonNodeAt node emptyLeaf p T c = canonNodeAt node emptyLeaf p T' c ∨
      ∃ x, 1 ≤ x ∧ x ≤ g ∧ c = cellKey p x (kb / 2 ^ x) := by
  by_cases hcell : ∃ h j, 1 ≤ h ∧ h ≤ p.depth ∧ j < 2 ^ (p.depth - h) ∧ c = cellKey p h j
  · obtain ⟨h, j, h1, hh, hj, rfl⟩ := hcell
    by_cases hjk : j = kb / 2 ^ h
    · subst hjk
      by_cases hhg : h ≤ g
      · exact .inr ⟨h, h1, hhg, rfl⟩
      · -- a path cell above `g` that is no frame keeps its keys on the path, before and after
        left
        have hon := hf.gap (by omega) hh hc
        have hag : ∀ q, q / 2 ^ g ≠ kb / 2 ^ g → T'.lookup q = T.lookup q := fun q hq =>
          hdiff q fun hqk => hq (by rw [hqk])
        have hon' : OnPathAt T' kb (h - 1) := hon.of_agree (by omega) hag
        rw [canonNodeAt_cellKey hw T h1 hh hj, canonNodeAt_cellKey hw T' h1 hh hj,
          if_neg (not_branching_of_onPath h1 hon), if_neg (not_branching_of_onPath h1 hon')]
    · -- a cell off the path does not hold `kb`
      left
      refine canonNodeAt_congr hw fun h' j' h1' hh' _ heq q hq => ?_
      obtain ⟨rfl, rfl⟩ := cellKey_inj hw h1 h1' hh hh' heq
      exact (hdiff q fun hqk => hjk (by rw [← hq, hqk])).symm
  · left
    have hnone : ∀ T : Finmap fun _ : ℕ => H, canonNodeAt node emptyLeaf p T c = none :=
      fun T => by
        by_contra hne
        exact hcell (canonNodeAt_ne_none hw hne)
    rw [hnone T, hnone T']

end Descent

/-! ## Where the descent stops -/

section Stops

variable {H : Type} {node : H → H → H} {emptyLeaf : H} {p : SmtParams}

/-- Frames above `g` are frames above a lower `h`, when the cells in between keep their keys on
the path. -/
theorem PathFrames.lift {T : Finmap fun _ : ℕ => H} {kb g h : ℕ} {stack : List (Frame H)}
    (hf : PathFrames node emptyLeaf p T kb g stack) (hhg : h ≤ g)
    (hon : ∀ g', h ≤ g' → g' < g → OnPathAt T kb g') : PathFrames node emptyLeaf p T kb h stack := by
  cases hf with
  | top hg hon' =>
    exact .top (by omega) fun g' h1 h2 => if hlt : g' < g then hon g' h1 hlt else hon' g' (by omega) h2
  | frame hgh hgap hbr hrest =>
    exact .frame (by omega) (fun g' h1 h2 => if hlt : g' < g then hon g' h1 hlt
      else hgap g' (by omega) h2) hbr hrest

/-- The keys of the content in a path cell at `g`, below the frames, and the change of the leaf
of `kb` leave the path cells above `g` out of the change. -/
theorem setLeaf_agree {T : Finmap fun _ : ℕ => H} {kb g : ℕ} (leaf : Option H) :
    ∀ q, q / 2 ^ g ≠ kb / 2 ^ g → (setLeaf T kb leaf).lookup q = T.lookup q :=
  fun q hq => lookup_setLeaf_of_ne leaf fun hqk => hq (by rw [hqk])

theorem not_branching_below {T : Finmap fun _ : ℕ => H} {kb g x : ℕ}
    (hT : ∀ q ∈ T, q / 2 ^ g = kb / 2 ^ g → q = kb) (h1 : 1 ≤ x) (hxg : x ≤ g) :
    ¬ Branching T (x - 1) (kb / 2 ^ x) :=
  not_branching_of_unique h1 fun q hq hqx => hT q hq (div_two_pow_eq_of_le hxg hqx)

theorem canonNodeAt_path_none_both (hw : p.depth ≤ 2 ^ 16) {T T' : Finmap fun _ : ℕ => H}
    {kb x : ℕ} (hkb : kb < 2 ^ p.depth) (h1 : 1 ≤ x) (hx : x ≤ p.depth)
    (hnb : ¬ Branching T (x - 1) (kb / 2 ^ x)) (hnb' : ¬ Branching T' (x - 1) (kb / 2 ^ x)) :
    canonNodeAt node emptyLeaf p T (cellKey p x (kb / 2 ^ x)) =
      canonNodeAt node emptyLeaf p T' (cellKey p x (kb / 2 ^ x)) := by
  rw [canonNodeAt_path_none hw hkb h1 hx hnb, canonNodeAt_path_none hw hkb h1 hx hnb']

/-- **Stop at `kb`'s own slot.** Where the cell in hand holds no key but `kb`, the new ref of
`kb`'s slot settles the descent, with the node rows untouched. -/
theorem settled_of_unique (hw : p.depth ≤ 2 ^ 16) {T : Finmap fun _ : ℕ => H} {kb g : ℕ}
    (hkb : kb < 2 ^ p.depth) {nodes : Finmap fun _ : UInt16 × ℕ => Ref H × Ref H}
    {stack : List (Frame H)} {cur : Ref H}
    (hd : DescentAt node emptyLeaf p T kb g nodes stack cur) (leaf : Option H)
    (hT : ∀ q ∈ T, q / 2 ^ g = kb / 2 ^ g → q = kb)
    (hne : stack ≠ [] → (cellOf (setLeaf T kb leaf).keys g (kb / 2 ^ g)).Nonempty) :
    Settled node emptyLeaf p T (setLeaf T kb leaf) kb nodes
      (canonRef node emptyLeaf p (setLeaf T kb leaf) 0 kb) stack := by
  have hT' := unique_setLeaf leaf hT
  have hg := hd.frames.le_depth
  refine ⟨⟨g, hd.frames, (canonRef_of_unique _ hT').symm, setLeaf_agree leaf, hne⟩, fun c hc => ?_⟩
  rw [hd.nodes c]
  rcases canonNodeAt_eq_or_low hw (fun q hq => lookup_setLeaf_of_ne leaf hq) hd.frames hc with
    heq | ⟨x, h1, hxg, rfl⟩
  · exact heq
  · exact canonNodeAt_path_none_both hw hkb h1 (by omega) (not_branching_below hT h1 hxg)
      (not_branching_below hT' h1 hxg)

/-- **Stop at an empty slot.** A new leaf fills it; a removal changes nothing. -/
theorem descend_empty (hw : p.depth ≤ 2 ^ 16) {T : Finmap fun _ : ℕ => H} {kb g : ℕ}
    (hkb : kb < 2 ^ p.depth) {nodes : Finmap fun _ : UInt16 × ℕ => Ref H × Ref H}
    {stack : List (Frame H)} (hd : DescentAt node emptyLeaf p T kb g nodes stack .empty)
    (leaf : Option H) (fuel : ℕ) :
    ∃ d, descend node emptyLeaf p kb leaf T.keys.card (fuel + 1) nodes stack .empty = some d ∧
      DescentOk node emptyLeaf p T kb leaf d := by
  have hcell := (canonRef_eq_empty_iff T).mp hd.cur.symm
  have hnot : ∀ q ∈ T, q / 2 ^ g ≠ kb / 2 ^ g := fun q hq hqg =>
    Finset.notMem_empty q (hcell ▸ mem_cellOf.mpr ⟨Finmap.mem_keys.mpr hq, hqg⟩)
  have hkT : kb ∉ T := fun hk => hnot kb hk rfl
  -- an empty cell sits below no frame
  have hstack : stack = [] := by
    cases stack with
    | nil => rfl
    | cons f rest =>
      obtain ⟨q, hq⟩ := hd.frames.nonempty
      rw [hcell] at hq
      exact absurd hq (Finset.notMem_empty q)
  have hs := settled_of_unique hw hkb hd leaf (fun q hq hqg => absurd hqg (hnot q hq))
    fun h => absurd hstack h
  rw [canonRef_setLeaf_self] at hs
  cases leaf with
  | some h => exact ⟨_, rfl, by rw [card_keys_setLeaf]; simp [hkT], by simp [hkT], hs⟩
  | none => exact ⟨_, rfl, by rw [card_keys_setLeaf]; simp [hkT], by simp [hkT], hs⟩

/-- **The collapse.** Removing the one key of the cell in hand empties it, and the frame above
loses its node row: its other child rises into its slot. -/
theorem settled_collapse (hw : p.depth ≤ 2 ^ 16) {T : Finmap fun _ : ℕ => H} {kb g : ℕ}
    (hkb : kb < 2 ^ p.depth) {nodes : Finmap fun _ : UInt16 × ℕ => Ref H × Ref H}
    {f : Frame H} {rest : List (Frame H)} {cur : Ref H}
    (hd : DescentAt node emptyLeaf p T kb g nodes (f :: rest) cur)
    (hT : ∀ q ∈ T, q / 2 ^ g = kb / 2 ^ g → q = kb) :
    Settled node emptyLeaf p T (setLeaf T kb none) kb (nodes.erase (f.level, f.prefixBits))
      (if f.side then f.left else f.right) rest := by
  have hf := hd.frames
  cases hf with
  | @frame _ h _ hgh hgap hbr hrest =>
  have hh := hrest.le_depth
  -- the frame's child on the path held only `kb`, and is empty now
  have hchild : ∀ q ∈ T, q / 2 ^ (h - 1) = kb / 2 ^ (h - 1) → q = kb := fun q hq hqh =>
    hT q hq (onPath_chain_le (by omega) (fun g' h1 h2 => hgap g' h1 (by omega)) q hq hqh)
  have hempty : canonRef node emptyLeaf p (setLeaf T kb none) (h - 1) (kb / 2 ^ (h - 1)) = .empty := by
    rw [canonRef_of_unique _ (unique_setLeaf none hchild), canonRef_setLeaf_self]
  -- its other child is unchanged
  have hoff : ∀ o, o ≠ kb / 2 ^ (h - 1) → canonRef node emptyLeaf p (setLeaf T kb none) (h - 1) o =
      canonRef node emptyLeaf p T (h - 1) o := fun o hne' =>
    canonRef_congr fun q hq => lookup_setLeaf_of_ne none fun hqk => hne' (by rw [← hq, hqk])
  have hsucc : canonRef node emptyLeaf p (setLeaf T kb none) h (kb / 2 ^ h) =
      canonRef node emptyLeaf p (setLeaf T kb none) (h - 1 + 1) (kb / 2 ^ h) := by
    rw [show h - 1 + 1 = h by omega]
  have hbit := div_two_pow_eq_two_mul_add kb (h - 1)
  rw [show h - 1 + 1 = h by omega] at hbit
  have hnb : ¬ Branching (setLeaf T kb none) (h - 1) (kb / 2 ^ h) := fun hbr' => by
    have hcell := (canonRef_eq_empty_iff _).mp hempty
    split_ifs at hbit
    · rw [hbit] at hcell
      exact Finset.nonempty_iff_ne_empty.mp hbr'.2 hcell
    · rw [hbit, Nat.add_zero] at hcell
      exact Finset.nonempty_iff_ne_empty.mp hbr'.1 hcell
  refine ⟨⟨h, hrest, ?_, setLeaf_agree none, fun _ => ?_⟩, fun c hc => ?_⟩
  · -- the other child is the new ref of the frame's cell
    have hside : levelBit p kb (p.depth - h) = kb.testBit (h - 1) := levelBit_depth_sub (by omega) hh
    simp only [pathFrame, hside]
    rw [hsucc]
    split_ifs at hbit ⊢ with hb
    · rw [hbit] at hempty
      rw [canonRef_succ_of_right _ hempty, hoff _ (by omega)]
    · rw [hbit, Nat.add_zero] at hempty
      rw [canonRef_succ_of_left _ hempty, hoff _ (by omega)]
  · -- the frame's cell keeps the keys of its other child
    have hsib : ∀ o, o / 2 = kb / 2 ^ h → o ≠ kb / 2 ^ (h - 1) →
        (cellOf (setLeaf T kb none).keys (h - 1) o).Nonempty → 
          (cellOf (setLeaf T kb none).keys h (kb / 2 ^ h)).Nonempty := fun o ho _ hne' => by
      have := cellOf_nonempty_of_child ho hne'
      rwa [show h - 1 + 1 = h by omega] at this
    have hne_of : ∀ o, o ≠ kb / 2 ^ (h - 1) → (cellOf T.keys (h - 1) o).Nonempty →
        (cellOf (setLeaf T kb none).keys (h - 1) o).Nonempty := fun o hne' ho => by
      rw [← canonRef_ne_empty_iff, hoff o hne']
      exact (canonRef_ne_empty_iff T).mpr ho
    split_ifs at hbit
    · exact hsib _ (by omega) (by omega) (hne_of _ (by omega) hbr.1)
    · exact hsib _ (by omega) (by omega) (hne_of _ (by omega) hbr.2)
  · have hkey : ((pathFrame node emptyLeaf p T kb h).level,
        (pathFrame node emptyLeaf p T kb h).prefixBits) = cellKey p h (kb / 2 ^ h) := rfl
    rw [hkey]
    by_cases hcf : c = cellKey p h (kb / 2 ^ h)
    · -- the frame's own row is gone, as the cell no longer branches
      subst hcf
      rw [Finmap.lookup_erase, canonNodeAt_path_none hw hkb (by omega) hh hnb]
    · have hc' : c ∉ frameKeys (pathFrame node emptyLeaf p T kb h :: rest) := by
        simp only [frameKeys, List.map_cons, List.mem_cons, not_or]
        exact ⟨hcf, hc⟩
      rw [Finmap.lookup_erase_ne hcf, hd.nodes c]
      rcases canonNodeAt_eq_or_low hw (fun q hq => lookup_setLeaf_of_ne none hq) hd.frames hc' with
        heq | ⟨x, h1, hxg, rfl⟩
      · exact heq
      · exact canonNodeAt_path_none_both hw hkb h1 (by omega) (not_branching_below hT h1 hxg)
          (not_branching_below (unique_setLeaf none hT) h1 hxg)

/-- **Stop at `kb`'s leaf.** An insert overwrites it; a removal takes it out, and with it the
node above when there is one. -/
theorem descend_leaf_self (hw : p.depth ≤ 2 ^ 16) {T : Finmap fun _ : ℕ => H} {kb g : ℕ}
    (hkb : kb < 2 ^ p.depth) {nodes : Finmap fun _ : UInt16 × ℕ => Ref H × Ref H}
    {stack : List (Frame H)} {h2 : H}
    (hd : DescentAt node emptyLeaf p T kb g nodes stack (.leaf kb h2)) (leaf : Option H)
    (fuel : ℕ) :
    ∃ d, descend node emptyLeaf p kb leaf T.keys.card (fuel + 1) nodes stack (.leaf kb h2) =
      some d ∧ DescentOk node emptyLeaf p T kb leaf d := by
  obtain ⟨hlk, -, hT⟩ := canonRef_eq_leaf T hd.cur.symm
  have hkT : kb ∈ T := Finmap.mem_of_lookup_eq_some hlk
  cases leaf with
  | some h =>
    have hs := settled_of_unique hw hkb hd (some h) hT fun _ =>
      ⟨kb, mem_cellOf.mpr ⟨Finmap.mem_keys.mpr
        (Finmap.mem_of_lookup_eq_some (lookup_setLeaf_self T kb (some h))), rfl⟩⟩
    rw [canonRef_setLeaf_self] at hs
    exact ⟨⟨T.keys.card, false, some (.leaf kb h), nodes, stack⟩, by simp [descend],
      by rw [card_keys_setLeaf]; simp [hkT], by simp [hkT], hs⟩
  | none =>
    refine ⟨⟨T.keys.card - 1, true, none, nodes, stack⟩, by simp [descend],
      by rw [card_keys_setLeaf]; simp [hkT], by simp [hkT], ?_⟩
    cases stack with
    | nil =>
      have hs := settled_of_unique hw hkb hd none hT fun h => absurd rfl h
      rw [canonRef_setLeaf_self] at hs
      exact hs
    | cons f rest => exact settled_collapse hw hkb hd hT

/-! ### Splits

A new key reaching a slot that holds other keys (a foreign leaf, or a branch it leaves) splits it:
the old keys of the cell in hand all lie in its sub-cell of height `k + 1` on `kb`'s path, on the
other side of `kb` at height `k`. -/

section Split

variable {T : Finmap fun _ : ℕ => H} {kb g k : ℕ} (leafh : H)
  (hkg : k + 1 ≤ g)
  (hup : ∀ q ∈ T, q / 2 ^ g = kb / 2 ^ g → q / 2 ^ (k + 1) = kb / 2 ^ (k + 1))
  (hside : ∀ q ∈ T, q / 2 ^ g = kb / 2 ^ g → q / 2 ^ k ≠ kb / 2 ^ k)

include hup in
theorem split_up :
    ∀ q ∈ setLeaf T kb (some leafh), q / 2 ^ g = kb / 2 ^ g → q / 2 ^ (k + 1) = kb / 2 ^ (k + 1) :=
  fun q hq hqg => by
    by_cases hqk : q = kb
    · rw [hqk]
    · exact hup q ((mem_setLeaf_of_ne _ hqk).mp hq) hqg

include hkg hside in
theorem split_low : ∀ q ∈ setLeaf T kb (some leafh), q / 2 ^ k = kb / 2 ^ k → q = kb :=
  fun q hq hqk => by
    by_contra hne
    exact hside q ((mem_setLeaf_of_ne _ hne).mp hq) (div_two_pow_eq_of_le (by omega) hqk) hqk

include hside in
theorem not_mem_of_split : kb ∉ T := fun hk => hside kb hk rfl rfl

include hup hside in
/-- The sub-cell of height `k + 1` branches once `kb` joins: `kb` on one side, the old keys on
the other. -/
theorem branching_split (hsome : (cellOf T.keys g (kb / 2 ^ g)).Nonempty) :
    Branching (setLeaf T kb (some leafh)) k (kb / 2 ^ (k + 1)) := by
  obtain ⟨q, hq⟩ := hsome
  rw [mem_cellOf, Finmap.mem_keys] at hq
  have hqT : q ∈ setLeaf T kb (some leafh) := by
    rw [mem_setLeaf_of_ne _ fun hqk => hside q hq.1 hq.2 (by rw [hqk])]
    exact hq.1
  have hkbT : kb ∈ setLeaf T kb (some leafh) :=
    Finmap.mem_of_lookup_eq_some (lookup_setLeaf_self T kb (some leafh))
  have hkbc := mem_child_iff.mp (rfl : kb / 2 ^ (k + 1) = kb / 2 ^ (k + 1))
  have hqc := mem_child_iff.mp (hup q hq.1 hq.2)
  have hne := hside q hq.1 hq.2
  rcases hkbc with h1 | h1 <;> rcases hqc with h2 | h2
  · omega
  · exact ⟨⟨kb, mem_cellOf.mpr ⟨Finmap.mem_keys.mpr hkbT, h1⟩⟩,
      ⟨q, mem_cellOf.mpr ⟨Finmap.mem_keys.mpr hqT, h2⟩⟩⟩
  · exact ⟨⟨q, mem_cellOf.mpr ⟨Finmap.mem_keys.mpr hqT, h2⟩⟩,
      ⟨kb, mem_cellOf.mpr ⟨Finmap.mem_keys.mpr hkbT, h1⟩⟩⟩
  · omega

include hkg hup hside in
/-- The rows a split leaves settle the descent: the new row of the sub-cell at `k + 1`, and its
ref in place of the cell in hand. -/
theorem settled_split (hw : p.depth ≤ 2 ^ 16) (hkb : kb < 2 ^ p.depth)
    {nodes : Finmap fun _ : UInt16 × ℕ => Ref H × Ref H} {stack : List (Frame H)} {cur : Ref H}
    (hd : DescentAt node emptyLeaf p T kb g nodes stack cur)
    (hsome : (cellOf T.keys g (kb / 2 ^ g)).Nonempty) :
    Settled node emptyLeaf p T (setLeaf T kb (some leafh)) kb
      (nodes.insert (cellKey p (k + 1) (kb / 2 ^ (k + 1)))
        (canonRef node emptyLeaf p (setLeaf T kb (some leafh)) k (2 * (kb / 2 ^ (k + 1))),
          canonRef node emptyLeaf p (setLeaf T kb (some leafh)) k (2 * (kb / 2 ^ (k + 1)) + 1)))
      (canonRef node emptyLeaf p (setLeaf T kb (some leafh)) (k + 1) (kb / 2 ^ (k + 1))) stack := by
  have hg := hd.frames.le_depth
  have hbr' := branching_split leafh hup hside hsome
  have hup' := split_up leafh hup
  have hlow' := split_low leafh hkg hside
  have hkbT : kb ∈ setLeaf T kb (some leafh) :=
    Finmap.mem_of_lookup_eq_some (lookup_setLeaf_self T kb (some leafh))
  refine ⟨⟨g, hd.frames, (canonRef_spine_le _ hkg hup').symm, setLeaf_agree _,
    fun _ => ⟨kb, mem_cellOf.mpr ⟨Finmap.mem_keys.mpr hkbT, rfl⟩⟩⟩, fun c hc => ?_⟩
  by_cases hcs : c = cellKey p (k + 1) (kb / 2 ^ (k + 1))
  · subst hcs
    rw [Finmap.lookup_insert, canonNodeAt_cellKey hw _ (by omega) (by omega)
      (div_two_pow_lt hkb (by omega)), Nat.add_sub_cancel, if_pos hbr']
  · rw [Finmap.lookup_insert_of_ne _ hcs, hd.nodes c]
    rcases canonNodeAt_eq_or_low hw (fun q hq => lookup_setLeaf_of_ne _ hq) hd.frames hc with
      heq | ⟨x, h1, hxg, rfl⟩
    · exact heq
    · have hx : x ≠ k + 1 := fun hx => hcs (by rw [hx])
      rcases Nat.lt_or_gt_of_ne hx with hlt | hgt
      · -- below the split, the path holds `kb` alone
        exact canonNodeAt_path_none_both hw hkb h1 (by omega)
          (not_branching_of_unique (k := kb) h1 fun q hq hqx =>
            absurd (div_two_pow_eq_of_le (by omega) hqx) (hside q hq (div_two_pow_eq_of_le hxg hqx)))
          (not_branching_of_unique h1 fun q hq hqx => hlow' q hq (div_two_pow_eq_of_le (by omega) hqx))
      · -- above it, every key of the cell lies in the sub-cell at `k + 1`
        have hon : ∀ T₀ : Finmap (fun _ : ℕ => H),
            (∀ q ∈ T₀, q / 2 ^ g = kb / 2 ^ g → q / 2 ^ (k + 1) = kb / 2 ^ (k + 1)) →
              OnPathAt T₀ kb (x - 1) := fun T₀ hT₀ q hq hqx => by
          rw [show x - 1 + 1 = x by omega] at hqx
          exact div_two_pow_eq_of_le (by omega) (hT₀ q hq (div_two_pow_eq_of_le hxg hqx))
        exact canonNodeAt_path_none_both hw hkb h1 (by omega) (not_branching_of_onPath h1 (hon T hup))
          (not_branching_of_onPath h1 (hon _ hup'))

include hkg hup hside in
theorem descentOk_split (hw : p.depth ≤ 2 ^ 16) (hkb : kb < 2 ^ p.depth)
    {nodes : Finmap fun _ : UInt16 × ℕ => Ref H × Ref H} {stack : List (Frame H)} {cur : Ref H}
    (hd : DescentAt node emptyLeaf p T kb g nodes stack cur)
    (hsome : (cellOf T.keys g (kb / 2 ^ g)).Nonempty) :
    DescentOk node emptyLeaf p T kb (some leafh)
      ⟨T.keys.card + 1, true,
        some (canonRef node emptyLeaf p (setLeaf T kb (some leafh)) (k + 1) (kb / 2 ^ (k + 1))),
        nodes.insert (cellKey p (k + 1) (kb / 2 ^ (k + 1)))
          (canonRef node emptyLeaf p (setLeaf T kb (some leafh)) k (2 * (kb / 2 ^ (k + 1))),
            canonRef node emptyLeaf p (setLeaf T kb (some leafh)) k (2 * (kb / 2 ^ (k + 1)) + 1)),
        stack⟩ := by
  have hkT := not_mem_of_split hside
  exact ⟨by rw [card_keys_setLeaf]; simp [hkT], by simp [hkT],
    settled_split leafh hkg hup hside hw hkb hd hsome⟩

/-- **`split_node`.** Split at the level of a cell that now branches, with `kb`'s side and the
other side holding their canonical refs, it builds the cell's canonical row and ref. -/
theorem splitNode_canonical (hw : p.depth ≤ 2 ^ 16) {T' : Finmap fun _ : ℕ => H}
    (hk : k + 1 ≤ p.depth) (hbr : Branching T' k (kb / 2 ^ (k + 1))) {ours theirs : Ref H}
    (hours : ours = canonRef node emptyLeaf p T' k (kb / 2 ^ k))
    (htheirs : ∀ o, o / 2 = kb / 2 ^ (k + 1) → o ≠ kb / 2 ^ k →
      theirs = canonRef node emptyLeaf p T' k o) :
    splitNode node emptyLeaf p kb (p.depth - (k + 1)) ours theirs =
      ((canonRef node emptyLeaf p T' k (2 * (kb / 2 ^ (k + 1))),
        canonRef node emptyLeaf p T' k (2 * (kb / 2 ^ (k + 1)) + 1)),
        canonRef node emptyLeaf p T' (k + 1) (kb / 2 ^ (k + 1))) := by
  have hbit := div_two_pow_eq_two_mul_add kb k
  have hside : levelBit p kb (p.depth - (k + 1)) = kb.testBit k := by
    rw [levelBit_depth_sub (by omega) hk, Nat.add_sub_cancel]
  have hlift : ∀ o, refSubtreeHash node emptyLeaf p (canonRef node emptyLeaf p T' k o)
      (p.depth - (k + 1) + 1) = CompleteTree.root node (leafFn emptyLeaf T') k o := fun o => by
    rw [show p.depth - (k + 1) + 1 = p.depth - k by omega]
    exact refSubtreeHash_canonRef hw T' (by omega)
  rw [canonRef_succ_of_branching T' hbr]
  simp only [splitNode, prefixOf, hside, show p.depth - (p.depth - (k + 1)) = k + 1 by omega]
  split_ifs at hbit ⊢
  · -- `kb` goes right: ours is the right child
    rw [htheirs (2 * (kb / 2 ^ (k + 1))) (by omega) (by omega), hours, hbit, hlift, hlift]
    rfl
  · rw [htheirs (2 * (kb / 2 ^ (k + 1)) + 1) (by omega) (by omega), hours, hbit, Nat.add_zero,
      hlift, hlift]
    rfl

end Split

theorem cellKey_split {kb k : ℕ} (hk : k + 1 ≤ p.depth) :
    ((p.depth - (k + 1)).toUInt16, prefixOf p kb (p.depth - (k + 1))) =
      cellKey p (k + 1) (kb / 2 ^ (k + 1)) := by
  rw [prefixOf, cellKey, show p.depth - (p.depth - (k + 1)) = k + 1 by omega]

theorem canonRef_split_self {T : Finmap fun _ : ℕ => H} {kb g k : ℕ} (leafh : H)
    (hkg : k + 1 ≤ g) (hside : ∀ q ∈ T, q / 2 ^ g = kb / 2 ^ g → q / 2 ^ k ≠ kb / 2 ^ k) :
    Ref.leaf kb leafh = canonRef node emptyLeaf p (setLeaf T kb (some leafh)) k (kb / 2 ^ k) :=
  (canonRef_eq_leaf_of_unique _ (lookup_setLeaf_self T kb _) rfl
    (split_low leafh hkg hside)).symm

/-- **Split at a foreign leaf.** A new key reaching the leaf of another key pairs the two under a
node at their first differing level. -/
theorem descend_leaf_split (hw : p.depth ≤ 2 ^ 16) {T : Finmap fun _ : ℕ => H} {kb g : ℕ}
    (hkb : kb < 2 ^ p.depth) (hbound : ∀ q ∈ T, q < 2 ^ p.depth)
    {nodes : Finmap fun _ : UInt16 × ℕ => Ref H × Ref H} {stack : List (Frame H)} {k2 : ℕ}
    {h2 : H} (hd : DescentAt node emptyLeaf p T kb g nodes stack (.leaf k2 h2)) (hne : k2 ≠ kb)
    (leafh : H) (fuel : ℕ) :
    ∃ d, descend node emptyLeaf p kb (some leafh) T.keys.card (fuel + 1) nodes stack
      (.leaf k2 h2) = some d ∧ DescentOk node emptyLeaf p T kb (some leafh) d := by
  obtain ⟨hlk, hk2g, hT⟩ := canonRef_eq_leaf T hd.cur.symm
  have hk2T : k2 ∈ T := Finmap.mem_of_lookup_eq_some hlk
  have hg := hd.frames.le_depth
  obtain ⟨d, hdiff⟩ := exists_firstDiffLevel (Ne.symm hne) hkb (hbound k2 hk2T)
  obtain ⟨hdlt, hsame, hsplit⟩ := divergeBefore_eq_some ((firstDiffLevel_eq kb k2).symm.trans hdiff)
    hkb (hbound k2 hk2T) le_rfl
  -- the two keys part below the cell of height `k + 1`
  obtain ⟨k, rfl, hk⟩ : ∃ k, d = p.depth - (k + 1) ∧ k + 1 ≤ p.depth :=
    ⟨p.depth - (d + 1), by omega, by omega⟩
  rw [show p.depth - (p.depth - (k + 1)) = k + 1 by omega] at hsame
  rw [show p.depth - (p.depth - (k + 1) + 1) = k by omega] at hsplit
  have hkg : k + 1 ≤ g := by
    by_contra hlt
    exact hsplit (div_two_pow_eq_of_le (by omega) hk2g.symm)
  have hup : ∀ q ∈ T, q / 2 ^ g = kb / 2 ^ g → q / 2 ^ (k + 1) = kb / 2 ^ (k + 1) :=
    fun q hq hqg => by rw [hT q hq hqg, hsame]
  have hside : ∀ q ∈ T, q / 2 ^ g = kb / 2 ^ g → q / 2 ^ k ≠ kb / 2 ^ k := fun q hq hqg => by
    rw [hT q hq hqg]
    exact fun h => hsplit h.symm
  have hsome : (cellOf T.keys g (kb / 2 ^ g)).Nonempty :=
    ⟨k2, mem_cellOf.mpr ⟨Finmap.mem_keys.mpr hk2T, hk2g⟩⟩
  -- the other side holds `k2` alone
  have htheirs : ∀ o, o / 2 = kb / 2 ^ (k + 1) → o ≠ kb / 2 ^ k →
      Ref.leaf k2 h2 = canonRef node emptyLeaf p (setLeaf T kb (some leafh)) k o := by
    intro o ho hok
    have hkbc := mem_child_iff.mp (rfl : kb / 2 ^ (k + 1) = kb / 2 ^ (k + 1))
    have hk2c := mem_child_iff.mp hsame.symm
    have hk2o : k2 / 2 ^ k = o := by omega
    refine (canonRef_eq_leaf_of_unique _ ?_ hk2o fun q hq hqo => ?_).symm
    · rw [lookup_setLeaf_of_ne _ hne]
      exact hlk
    · have hqk : q ≠ kb := fun h => hok (by rw [← hqo, h])
      exact hT q ((mem_setLeaf_of_ne _ hqk).mp hq)
        (by rw [div_two_pow_eq_of_le (by omega) (hqo.trans hk2o.symm), hk2g])
  have hsp := splitNode_canonical hw hk (branching_split leafh hup hside hsome)
    (canonRef_split_self leafh hkg hside) htheirs
  refine ⟨_, ?_, descentOk_split leafh hkg hup hside hw hkb hd hsome⟩
  simp only [descend, if_neg hne, hdiff, hsp, cellKey_split hk]

/-- A stored branch ref in hand names the lowest branching cell below the cell, of height `h'`:
its row key, its prefix, and that every key of the cell lies in it. -/
theorem branch_cell (hw : p.depth ≤ 2 ^ 16) {T : Finmap fun _ : ℕ => H} {kb g : ℕ}
    (hbound : ∀ q ∈ T, q < 2 ^ p.depth) {nodes : Finmap fun _ : UInt16 × ℕ => Ref H × Ref H}
    {stack : List (Frame H)} {lv : UInt16} {pre : ℕ} {hash : H}
    (hd : DescentAt node emptyLeaf p T kb g nodes stack (.branch lv pre hash)) :
    ∃ h', 1 ≤ h' ∧ h' ≤ g ∧ (lv, pre) = cellKey p h' (pre / 2 ^ h') ∧
      lv.toNat = p.depth - h' ∧ pre < 2 ^ p.depth ∧ pre / 2 ^ g = kb / 2 ^ g ∧
      Branching T (h' - 1) (pre / 2 ^ h') ∧ ∀ q ∈ T, q / 2 ^ g = kb / 2 ^ g → q / 2 ^ h' = pre / 2 ^ h' := by
  obtain ⟨h', j', h1, hh'g, hj, hlv, hpre, -, hbr, hkeys⟩ := canonRef_eq_branch T hd.cur.symm
  have hg := hd.frames.le_depth
  have hpj : pre / 2 ^ h' = j' := by rw [hpre, Nat.mul_div_cancel _ (Nat.two_pow_pos h')]
  -- a key of the branching cell bounds its index
  obtain ⟨q, hq⟩ := hbr.1
  rw [mem_cellOf, Finmap.mem_keys] at hq
  have hqj : q / 2 ^ h' = j' := by
    rw [show h' = h' - 1 + 1 by omega, div_two_pow_succ, hq.2]
    omega
  have hj' : j' < 2 ^ (p.depth - h') := hqj ▸ div_two_pow_lt (hbound q hq.1) (by omega)
  have hpre_lt : pre < 2 ^ p.depth := by
    rw [hpre]
    calc j' * 2 ^ h' < 2 ^ (p.depth - h') * 2 ^ h' := Nat.mul_lt_mul_of_pos_right hj' (Nat.two_pow_pos h')
      _ = 2 ^ p.depth := by rw [← Nat.pow_add, Nat.sub_add_cancel (by omega)]
  refine ⟨h', h1, hh'g, by rw [hpj, hlv, hpre]; rfl, by rw [hlv, toNat_level hw h1], hpre_lt, ?_,
    hpj ▸ hbr, fun q hq hqg => (hkeys q hq hqg).trans hpj.symm⟩
  rw [← hj, ← hpj, ← div_two_pow_add, Nat.add_sub_cancel' hh'g]

/-- **Split above a branch.** A new key leaving a stored branch's prefix pairs the branch with its
leaf under a node at the level where they part. -/
theorem descend_branch_split (hw : p.depth ≤ 2 ^ 16) {T : Finmap fun _ : ℕ => H} {kb g : ℕ}
    (hkb : kb < 2 ^ p.depth) (hbound : ∀ q ∈ T, q < 2 ^ p.depth)
    {nodes : Finmap fun _ : UInt16 × ℕ => Ref H × Ref H} {stack : List (Frame H)} {lv : UInt16}
    {pre : ℕ} {hash : H} (hd : DescentAt node emptyLeaf p T kb g nodes stack (.branch lv pre hash))
    {d : ℕ} (hdiv : divergeBefore p kb pre lv.toNat = some d) (leafh : H) (fuel : ℕ) :
    ∃ r, descend node emptyLeaf p kb (some leafh) T.keys.card (fuel + 1) nodes stack
      (.branch lv pre hash) = some r ∧ DescentOk node emptyLeaf p T kb (some leafh) r := by
  obtain ⟨h', h1, hh'g, -, hlvn, hpre, hpg, -, hkeys⟩ := branch_cell hw hbound hd
  have hg := hd.frames.le_depth
  obtain ⟨hdlt, hsame, hsplit⟩ := divergeBefore_eq_some hdiv hkb hpre (by omega)
  obtain ⟨k, rfl, hk⟩ : ∃ k, d = p.depth - (k + 1) ∧ k + 1 ≤ p.depth :=
    ⟨p.depth - (d + 1), by omega, by omega⟩
  rw [show p.depth - (p.depth - (k + 1)) = k + 1 by omega] at hsame
  rw [show p.depth - (p.depth - (k + 1) + 1) = k by omega] at hsplit
  have hhk : h' ≤ k := by omega
  have hkg : k + 1 ≤ g := by
    by_contra hlt
    exact hsplit (div_two_pow_eq_of_le (by omega) hpg.symm)
  -- the old keys of the cell lie in the branch's cell, on `pre`'s side of the split
  have hpath : ∀ q ∈ T, q / 2 ^ g = kb / 2 ^ g → ∀ x, h' ≤ x → q / 2 ^ x = pre / 2 ^ x :=
    fun q hq hqg x hx => div_two_pow_eq_of_le hx (hkeys q hq hqg)
  have hup : ∀ q ∈ T, q / 2 ^ g = kb / 2 ^ g → q / 2 ^ (k + 1) = kb / 2 ^ (k + 1) :=
    fun q hq hqg => (hpath q hq hqg (k + 1) (by omega)).trans hsame.symm
  have hside : ∀ q ∈ T, q / 2 ^ g = kb / 2 ^ g → q / 2 ^ k ≠ kb / 2 ^ k := fun q hq hqg => by
    rw [hpath q hq hqg k hhk]
    exact fun h => hsplit h.symm
  have hsome : (cellOf T.keys g (kb / 2 ^ g)).Nonempty := by
    have hne : canonRef node emptyLeaf p T g (kb / 2 ^ g) ≠ .empty := by
      rw [← hd.cur]
      simp
    exact (canonRef_ne_empty_iff T).mp hne
  -- the other side holds the branch, unchanged
  have htheirs : ∀ o, o / 2 = kb / 2 ^ (k + 1) → o ≠ kb / 2 ^ k →
      Ref.branch lv pre hash = canonRef node emptyLeaf p (setLeaf T kb (some leafh)) k o := by
    intro o ho hok
    have hkbc := mem_child_iff.mp (rfl : kb / 2 ^ (k + 1) = kb / 2 ^ (k + 1))
    have hprec := mem_child_iff.mp hsame.symm
    obtain rfl : pre / 2 ^ k = o := by omega
    rw [canonRef_congr fun q hq => lookup_setLeaf_of_ne _ fun hqk => hok (by rw [← hq, hqk]), hd.cur,
      ← hpg]
    have hcell : ∀ q ∈ T, q / 2 ^ g = pre / 2 ^ g → q / 2 ^ h' = pre / 2 ^ h' :=
      fun q hq hqg => hkeys q hq (hqg.trans hpg)
    have hsub : ∀ q ∈ T, q / 2 ^ k = pre / 2 ^ k → q / 2 ^ h' = pre / 2 ^ h' :=
      fun q hq hqk => hcell q hq (div_two_pow_eq_of_le (by omega) hqk)
    exact (canonRef_spine_le T hh'g hcell).trans (canonRef_spine_le T hhk hsub).symm
  have hsp := splitNode_canonical hw hk (branching_split leafh hup hside hsome)
    (canonRef_split_self leafh hkg hside) htheirs
  refine ⟨_, ?_, descentOk_split leafh hkg hup hside hw hkb hd hsome⟩
  simp only [descend, hdiv, hsp, cellKey_split hk]

/-- **A step down.** Inside a stored branch's prefix the descent reads the branch's node row,
pushes its frame and moves on to the child on `kb`'s side. -/
theorem descend_branch_step (hw : p.depth ≤ 2 ^ 16) {T : Finmap fun _ : ℕ => H} {kb g : ℕ}
    (hkb : kb < 2 ^ p.depth) (hbound : ∀ q ∈ T, q < 2 ^ p.depth)
    {nodes : Finmap fun _ : UInt16 × ℕ => Ref H × Ref H} {stack : List (Frame H)} {lv : UInt16}
    {pre : ℕ} {hash : H} (hd : DescentAt node emptyLeaf p T kb g nodes stack (.branch lv pre hash))
    (hdiv : divergeBefore p kb pre lv.toNat = none) (leaf : Option H) (count fuel : ℕ) :
    ∃ h', 1 ≤ h' ∧ h' ≤ g ∧
      descend node emptyLeaf p kb leaf count (fuel + 1) nodes stack (.branch lv pre hash) =
        descend node emptyLeaf p kb leaf count fuel nodes (pathFrame node emptyLeaf p T kb h' :: stack)
          (canonRef node emptyLeaf p T (h' - 1) (kb / 2 ^ (h' - 1))) ∧
      DescentAt node emptyLeaf p T kb (h' - 1) nodes (pathFrame node emptyLeaf p T kb h' :: stack)
        (canonRef node emptyLeaf p T (h' - 1) (kb / 2 ^ (h' - 1))) := by
  obtain ⟨h', h1, hh'g, hkey, hlvn, hpre, -, hbr, hkeys⟩ := branch_cell hw hbound hd
  have hg := hd.frames.le_depth
  have hin := divergeBefore_eq_none hdiv hkb hpre (by omega)
  rw [hlvn, show p.depth - (p.depth - h') = h' by omega] at hin
  rw [← hin] at hkey hbr
  -- the branch's row holds its canonical children
  have hrow : nodes.lookup (lv, pre) = some (canonRef node emptyLeaf p T (h' - 1) (2 * (kb / 2 ^ h')),
      canonRef node emptyLeaf p T (h' - 1) (2 * (kb / 2 ^ h') + 1)) := by
    rw [hkey, hd.nodes, canonNodeAt_cellKey hw T h1 (by omega) (div_two_pow_lt hkb (by omega)),
      if_pos hbr]
  -- the child on `kb`'s side
  have hcur : (if levelBit p kb lv.toNat then canonRef node emptyLeaf p T (h' - 1) (2 * (kb / 2 ^ h') + 1)
      else canonRef node emptyLeaf p T (h' - 1) (2 * (kb / 2 ^ h'))) =
        canonRef node emptyLeaf p T (h' - 1) (kb / 2 ^ (h' - 1)) := by
    have hbit := div_two_pow_eq_two_mul_add kb (h' - 1)
    rw [show h' - 1 + 1 = h' by omega] at hbit
    rw [hlvn, levelBit_depth_sub h1 (by omega)]
    split_ifs at hbit ⊢
    · rw [hbit]
    · rw [hbit, Nat.add_zero]
  have hframe : (⟨lv, pre, canonRef node emptyLeaf p T (h' - 1) (2 * (kb / 2 ^ h')),
      canonRef node emptyLeaf p T (h' - 1) (2 * (kb / 2 ^ h') + 1), levelBit p kb lv.toNat⟩ : Frame H) =
        pathFrame node emptyLeaf p T kb h' := by
    simp only [pathFrame, ← hkey, hlvn]
  -- the cells between the branch and the cell in hand keep their keys on the path
  have hon : ∀ g', h' ≤ g' → g' < g → OnPathAt T kb g' := fun g' h1' h2' q hq hqg' =>
    div_two_pow_eq_of_le h1' ((hkeys q hq (div_two_pow_eq_of_le (by omega) hqg')).trans hin.symm)
  refine ⟨h', h1, hh'g, ?_, ⟨.frame (by omega) (fun g' _ h2' => absurd h2' (by omega)) hbr
    (hd.frames.lift hh'g hon), rfl, hd.nodes⟩⟩
  simp only [descend, hdiv, hrow]
  rw [hframe, hcur]

theorem divergeBefore_ne_some_of_mem (hw : p.depth ≤ 2 ^ 16) {T : Finmap fun _ : ℕ => H}
    {kb g : ℕ} (hkb : kb < 2 ^ p.depth) (hbound : ∀ q ∈ T, q < 2 ^ p.depth) (hkT : kb ∈ T)
    {nodes : Finmap fun _ : UInt16 × ℕ => Ref H × Ref H} {stack : List (Frame H)} {lv : UInt16}
    {pre : ℕ} {hash : H} (hd : DescentAt node emptyLeaf p T kb g nodes stack (.branch lv pre hash))
    (d : ℕ) : divergeBefore p kb pre lv.toNat ≠ some d := fun hdiv => by
  obtain ⟨h', -, hh'g, -, hlvn, hpre, -, -, hkeys⟩ := branch_cell hw hbound hd
  have hg := hd.frames.le_depth
  obtain ⟨hdlt, -, hsplit⟩ := divergeBefore_eq_some hdiv hkb hpre (by omega)
  exact hsplit (div_two_pow_eq_of_le (by omega) (hkeys kb hkT rfl))

end Stops

/-! ## The whole descent and `update_tree` -/

section Run

variable {H : Type} {node : H → H → H} {emptyLeaf : H} {p : SmtParams}

/-- **The descent.** From any point of the descent with more fuel than height, `descend` finishes
and owes what `DescentOk` says. The induction is on the fuel; each step down lowers the height. -/
theorem descend_settled (hw : p.depth ≤ 2 ^ 16) {T : Finmap fun _ : ℕ => H} {kb : ℕ}
    (hkb : kb < 2 ^ p.depth) (hbound : ∀ q ∈ T, q < 2 ^ p.depth) (leaf : Option H)
    (hrem : leaf = none → kb ∈ T) :
    ∀ (fuel g : ℕ) (nodes : Finmap fun _ : UInt16 × ℕ => Ref H × Ref H) (stack : List (Frame H))
      (cur : Ref H), g < fuel → DescentAt node emptyLeaf p T kb g nodes stack cur →
      ∃ d, descend node emptyLeaf p kb leaf T.keys.card fuel nodes stack cur = some d ∧
        DescentOk node emptyLeaf p T kb leaf d
  | 0, g, _, _, _, hg, _ => absurd hg (Nat.not_lt_zero g)
  | fuel + 1, g, nodes, stack, cur, hg, hd => by
    cases cur with
    | empty => exact descend_empty hw hkb hd leaf fuel
    | leaf k2 h2 =>
      by_cases hk : k2 = kb
      · subst hk
        exact descend_leaf_self hw hkb hd leaf fuel
      · cases leaf with
        | some leafh => exact descend_leaf_split hw hkb hbound hd hk leafh fuel
        | none =>
          -- a removal only reaches the leaf of its own key
          obtain ⟨-, -, hT⟩ := canonRef_eq_leaf T hd.cur.symm
          exact absurd (hT kb (hrem rfl) rfl).symm hk
    | branch lv pre hash =>
      cases hdiv : divergeBefore p kb pre lv.toNat with
      | some d =>
        cases leaf with
        | some leafh => exact descend_branch_split hw hkb hbound hd hdiv leafh fuel
        | none => exact absurd hdiv (divergeBefore_ne_some_of_mem hw hkb hbound (hrem rfl) hd d)
      | none =>
        obtain ⟨h', h1, hh'g, heq, hd'⟩ :=
          descend_branch_step hw hkb hbound hd hdiv leaf T.keys.card fuel
        rw [heq]
        exact descend_settled hw hkb hbound leaf hrem fuel (h' - 1) nodes _ _ (by omega) hd'

/-- **`update_tree` keeps the rows canonical.** On the canonical node rows and root row of the
content `T`, setting (`some`) or clearing (`none`, for a key of `T`) the leaf of `kb` writes the
canonical node rows and root row of the new content, and reports whether the key set changed. -/
theorem updateTree_canonical (hw : p.depth ≤ 2 ^ 16) {rows : Rows H} {T : Finmap fun _ : ℕ => H}
    (hbound : ∀ q ∈ T, q < 2 ^ p.depth)
    (hnodes : ∀ c, rows.nodes.lookup c = canonNodeAt node emptyLeaf p T c)
    (hroot : rows.root = some (T.keys.card, CompleteTree.root node (leafFn emptyLeaf T) p.depth 0,
      canonRef node emptyLeaf p T p.depth 0) ∨ rows.root = none ∧ T = ∅)
    {kb : ℕ} (hkb : kb < 2 ^ p.depth) (leaf : Option H) (hrem : leaf = none → kb ∈ T) :
    ∃ nodes', updateTree node emptyLeaf p rows kb leaf =
        some (⟨rows.values, nodes', some ((setLeaf T kb leaf).keys.card,
          CompleteTree.root node (leafFn emptyLeaf (setLeaf T kb leaf)) p.depth 0,
          canonRef node emptyLeaf p (setLeaf T kb leaf) p.depth 0)⟩,
          decide (kb ∈ T) != leaf.isSome) ∧
      ∀ c, nodes'.lookup c = canonNodeAt node emptyLeaf p (setLeaf T kb leaf) c := by
  -- the root row names the count and the canonical top ref; a missing one, the empty tree
  obtain ⟨oh, hread⟩ : ∃ oh, readRoot rows =
      (T.keys.card, oh, canonRef node emptyLeaf p T p.depth 0) := by
    rcases hroot with hr | ⟨hr, rfl⟩
    · exact ⟨_, by rw [readRoot, hr]⟩
    · have hempty : canonRef node emptyLeaf p (∅ : Finmap fun _ : ℕ => H) p.depth 0 = .empty :=
        (canonRef_eq_empty_iff _).mpr (by simp [cellOf])
      exact ⟨none, by rw [readRoot, hr, hempty]; simp⟩
  have hstart : DescentAt node emptyLeaf p T kb p.depth rows.nodes []
      (canonRef node emptyLeaf p T p.depth 0) :=
    ⟨.top le_rfl fun _ _ h2 => absurd h2 (by omega), by rw [Nat.div_eq_of_lt hkb], hnodes⟩
  obtain ⟨d, hdesc, hok⟩ := descend_settled hw hkb hbound leaf hrem (p.depth + 1) p.depth
    rows.nodes [] _ (by omega) hstart
  obtain ⟨hbn, hbtop⟩ := hok.settled.bubble hw hkb
  have hhash : refSubtreeHash node emptyLeaf p (canonRef node emptyLeaf p (setLeaf T kb leaf) p.depth 0) 0 =
      CompleteTree.root node (leafFn emptyLeaf (setLeaf T kb leaf)) p.depth 0 := by
    simpa using refSubtreeHash_canonRef hw (setLeaf T kb leaf) (le_refl p.depth) (i := 0)
  refine ⟨_, ?_, hbn⟩
  simp only [updateTree, hread, hdesc, Option.bind_eq_bind, Option.bind_some]
  rw [hbtop, hhash, hok.count, hok.changed]

end Run


end Vos.Storage
