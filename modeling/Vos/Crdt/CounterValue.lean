import Vos.Crdt.Convergence
import Mathlib.Algebra.BigOperators.Ring.Finset
import Mathlib.Algebra.Order.BigOperators.Group.Finset
import Mathlib.Algebra.Group.Action.Defs

/-!
# The counter's value is the clamped sum of its contributions

`Counter::value` adds the positive and the negative contributions into two `u128` accumulators
that saturate at `u128::MAX`, and clamps their difference to `i64`. While neither accumulator
saturates the three branches of the clamp compute `max i64::MIN (min S i64::MAX)` of the exact
sum `S`, and fewer than `2^64` contributions of magnitude at most `u64::MAX` (what `increment`,
`decrement` and `add` record) stay below the cap.

* `Bounded`: every contribution has magnitude at most `u64::MAX`; `natAbs_amount_le`,
  `Bounded.apply`, `Bounded.applyOp` and `Bounded.merge` show that the mutations and merges keep
  it, so `counterType_lawful_bounded` makes it the well-formedness of the replicated counter;
* `foldl_splitStep`: below the cap, the saturating fold is the pair of plain sums.
* `sum_map_amounts`, `sum_eq_sub_halves`: the contributions in id order sum to the sum over the ids.
* **`value_eq_clamp`**, and `value_eq_clamp_run` on every replica of every run.
-/

namespace Vos.Crdt.Counter

variable {I : Type} [LinearOrder I]

/-- `u64::MAX`. -/
def u64Max : Nat := 2 ^ 64 - 1

/-- Every recorded contribution has magnitude at most `u64::MAX`. -/
def Bounded (c : Counter I) : Prop :=
  ∀ id a, c.operations.lookup id = some a → a.natAbs ≤ u64Max

theorem natAbs_amount_le (x : UInt64) (y : Int64) :
    (x.toNat : Int).natAbs ≤ u64Max ∧ (-(x.toNat : Int)).natAbs ≤ u64Max ∧
      y.toInt.natAbs ≤ u64Max := by
  have hx := UInt64.toNat_lt x
  have hlo := Int64.le_toInt y
  have hhi := Int64.toInt_lt y
  unfold u64Max
  refine ⟨?_, ?_, ?_⟩ <;> omega

theorem Bounded.apply {c d : Counter I} {id : I} {amount : Int} (hc : c.Bounded)
    (hamount : amount.natAbs ≤ u64Max) (h : c.apply id amount = .ok d) : d.Bounded := by
  unfold Counter.apply at h
  split at h
  · split at h
    · cases h; exact hc
    · cases h
  · cases h
    intro id' a ha
    by_cases hid : id' = id
    · subst hid
      rw [Finmap.lookup_insert] at ha
      cases ha; exact hamount
    · rw [Finmap.lookup_insert_of_ne _ hid] at ha
      exact hc id' a ha

theorem Bounded.merge {c o d : Counter I} (hc : c.Bounded) (ho : o.Bounded)
    (h : c.merge o = .ok d) : d.Bounded := by
  unfold Counter.merge at h
  split at h
  · cases h
  · cases h
    intro id a ha
    rcases Finmap.mem_lookup_union.mp ha with ha | ⟨-, ha⟩
    · exact ho id a ha
    · exact hc id a ha

theorem Bounded.applyOp {c d : Counter I} {o : CounterOp I} (hc : c.Bounded)
    (h : CounterOp.apply c o = .ok d) : d.Bounded := by
  cases o with
  | increment id amount => exact hc.apply (natAbs_amount_le amount 0).1 h
  | decrement id amount => exact hc.apply (natAbs_amount_le amount 0).2.1 h
  | add id delta => exact hc.apply (natAbs_amount_le 0 delta).2.2 h

/-- The counter's laws hold over the bounded counters: the bound is the well-formedness every
replica keeps. -/
theorem counterType_lawful_bounded : (counterType I).Lawful Bounded :=
  { counterType_lawful with
    wf_init := fun id a h => by simp [counterType, Counter.default] at h
    wf_apply := fun hc h => hc.applyOp h
    wf_merge := fun hc ho h => hc.merge ho h
    atoms_inj := fun _ _ h => Counter.atoms_injective h }

/-! ## The saturating fold -/

/-- The contributions in ascending id order, the list `value` folds over. -/
def amounts (c : Counter I) : List Int :=
  (c.operations.keys.sort (· ≤ ·)).filterMap c.operations.lookup

/-- One step of `value`'s fold: a contribution joins the saturating positive or negative half. -/
def splitStep (acc : Nat × Nat) (amount : Int) : Nat × Nat :=
  if 0 ≤ amount then (min (acc.1 + amount.toNat) u128Max, acc.2)
  else (acc.1, min (acc.2 + amount.natAbs) u128Max)

theorem splitStep_of_le (p n : Nat) (a : Int) (hp : p + a.toNat ≤ u128Max)
    (hn : n + (-a).toNat ≤ u128Max) : splitStep (p, n) a = (p + a.toNat, n + (-a).toNat) := by
  unfold splitStep
  split_ifs with ha
  · have : (-a).toNat = 0 := by omega
    rw [this, min_eq_left hp]
    rfl
  · have : a.toNat = 0 := by omega
    rw [this, min_eq_left (by omega)]
    simp only [Nat.add_zero, Prod.mk.injEq, true_and]
    omega

/-- Below the cap the fold never saturates: it returns the sums of the positive parts and of the
magnitudes of the negative parts. -/
theorem foldl_splitStep (L : List Int) (p n : Nat)
    (hp : p + (L.map Int.toNat).sum ≤ u128Max) (hn : n + (L.map fun a => (-a).toNat).sum ≤ u128Max) :
    L.foldl splitStep (p, n) = (p + (L.map Int.toNat).sum, n + (L.map fun a => (-a).toNat).sum) := by
  -- induction on the contributions, the accumulator generalized
  induction L generalizing p n with
  | nil => simp
  | cons a L ih =>
    simp only [List.map_cons, List.sum_cons] at hp hn ⊢
    rw [List.foldl_cons, splitStep_of_le p n a (by omega) (by omega),
      ih (p + a.toNat) (n + (-a).toNat) (by omega) (by omega), Nat.add_assoc, Nat.add_assoc]

/-! ## Sums over the contributions -/

theorem sum_map_amounts {M : Type} [AddCommMonoid M] (c : Counter I) (f : Int → M) :
    (c.amounts.map f).sum = ∑ id ∈ c.operations.keys, f ((c.operations.lookup id).getD 0) := by
  have hmap : c.amounts =
      (c.operations.keys.sort (· ≤ ·)).map fun id => (c.operations.lookup id).getD 0 := by
    refine List.filterMap_eq_map_iff_forall_eq_some.mpr fun id hid => ?_
    have hmem : id ∈ c.operations := Finmap.mem_keys.mp ((Finset.mem_sort _).mp hid)
    obtain ⟨a, ha⟩ := Option.isSome_iff_exists.mp (Finmap.lookup_isSome.mpr hmem)
    rw [ha]; rfl
  rw [hmap, List.map_map, ((Finset.sort_perm_toList _ _).map _).sum_eq, Finset.sum_map_toList]
  rfl

theorem sum_map_amounts_le {c : Counter I} (hc : c.Bounded) {f : Int → Nat}
    (hf : ∀ a, f a ≤ a.natAbs) : (c.amounts.map f).sum ≤ c.operations.keys.card * u64Max := by
  rw [sum_map_amounts, ← smul_eq_mul]
  refine Finset.sum_le_card_nsmul _ _ _ fun id _ => (hf _).trans ?_
  cases hl : c.operations.lookup id with
  | none => simp
  | some a => exact hc id a hl

theorem card_mul_u64Max_le {n : Nat} (hn : n < 2 ^ 64) : n * u64Max ≤ u128Max := by
  have hmul : n * u64Max ≤ u64Max * u64Max := Nat.mul_le_mul_right _ (by unfold u64Max; omega)
  exact hmul.trans (by unfold u64Max u128Max; decide)

theorem sum_eq_sub_halves (c : Counter I) :
    ∑ id ∈ c.operations.keys, (c.operations.lookup id).getD 0 =
      ((c.amounts.map Int.toNat).sum : Int) - (c.amounts.map fun a => (-a).toNat).sum := by
  rw [sum_map_amounts, sum_map_amounts, Nat.cast_sum, Nat.cast_sum, ← Finset.sum_sub_distrib]
  exact Finset.sum_congr rfl fun id _ => (Int.toNat_sub_toNat_neg _).symm

/-! ## The value -/

/-- **The value is the clamped exact sum.** For a counter of fewer than `2^64` contributions of
magnitude at most `u64::MAX`, `value` is the sum of all contributions clamped to
`[i64::MIN, i64::MAX]`; the `i64::MIN` branch is the only one reached by a sum below `-i64::MAX`. -/
theorem value_eq_clamp (c : Counter I) (hcount : c.operations.keys.card < 2 ^ 64)
    (hamounts : ∀ id a, c.operations.lookup id = some a → a.natAbs ≤ u64Max) :
    c.value = max (-2 ^ 63) (min (∑ id ∈ c.operations.keys, (c.operations.lookup id).getD 0)
      (2 ^ 63 - 1)) := by
  have hP := (sum_map_amounts_le hamounts (f := Int.toNat) fun a => by omega).trans
    (card_mul_u64Max_le hcount)
  have hN := (sum_map_amounts_le hamounts (f := fun a => (-a).toNat) fun a => by omega).trans
    (card_mul_u64Max_le hcount)
  have hfold : c.amounts.foldl splitStep (0, 0) =
      ((c.amounts.map Int.toNat).sum, (c.amounts.map fun a => (-a).toNat).sum) := by
    simpa using foldl_splitStep c.amounts 0 0 (by omega) (by omega)
  -- `value` folds `splitStep` over `amounts`, then takes one of the three branches of the clamp
  have hvalue : c.value =
      if (c.amounts.foldl splitStep (0, 0)).2 ≤ (c.amounts.foldl splitStep (0, 0)).1 then
        min (((c.amounts.foldl splitStep (0, 0)).1 : Int) - (c.amounts.foldl splitStep (0, 0)).2) i64Max
      else if i64Max + 1 ≤ (c.amounts.foldl splitStep (0, 0)).2 - (c.amounts.foldl splitStep (0, 0)).1
        then -((i64Max : Int) + 1)
      else -(((c.amounts.foldl splitStep (0, 0)).2 - (c.amounts.foldl splitStep (0, 0)).1 : Nat) : Int) :=
    rfl
  rw [hvalue, hfold, sum_eq_sub_halves]
  dsimp only
  generalize (c.amounts.map Int.toNat).sum = P at hP ⊢
  generalize (c.amounts.map fun a => (-a).toNat).sum = N at hN ⊢
  unfold i64Max
  by_cases hpos : N ≤ P
  · rw [if_pos hpos]
    omega
  · rw [if_neg hpos]
    by_cases hmin : 2 ^ 63 - 1 + 1 ≤ N - P
    · rw [if_pos hmin]
      omega
    · rw [if_neg hmin]
      omega

/-- **On every replica of every run**, a counter that holds fewer than `2^64` contributions has
as its value the exact sum of its contributions, clamped to `i64`: `increment`, `decrement` and
`add` record at most `u64::MAX` each, and merges keep that. -/
theorem value_eq_clamp_run {R : Type} [DecidableEq R] (evs : List (Replicated.Event R (CounterOp I)))
    (r : R) (hcount : (((counterType I).run evs).state r).operations.keys.card < 2 ^ 64) :
    (((counterType I).run evs).state r).value =
      max (-2 ^ 63) (min (∑ id ∈ (((counterType I).run evs).state r).operations.keys,
        ((((counterType I).run evs).state r).operations.lookup id).getD 0) (2 ^ 63 - 1)) := by
  obtain ⟨eff, h⟩ := Replicated.ReplicatedType.explained_run counterType_lawful_bounded evs
  exact value_eq_clamp _ hcount (h.wf r)

/-- Two increments of `2^63` sum past `i64::MAX` and the value clamps to it. -/
theorem value_eq_clamp_two_increments :
    (⟨(Finmap.singleton 0 (2 ^ 63)).insert 1 (2 ^ 63)⟩ : Counter ℕ).operations.keys.card < 2 ^ 64 ∧
    (∀ id a, (⟨(Finmap.singleton 0 (2 ^ 63)).insert 1 (2 ^ 63)⟩ : Counter ℕ).operations.lookup id =
      some a → a.natAbs ≤ u64Max) ∧
    (⟨(Finmap.singleton 0 (2 ^ 63)).insert 1 (2 ^ 63)⟩ : Counter ℕ).value = max (-2 ^ 63)
      (min (∑ id ∈ (⟨(Finmap.singleton 0 (2 ^ 63)).insert 1 (2 ^ 63)⟩ : Counter ℕ).operations.keys,
        ((⟨(Finmap.singleton 0 (2 ^ 63)).insert 1 (2 ^ 63)⟩ : Counter ℕ).operations.lookup id).getD 0)
        (2 ^ 63 - 1)) := by
  have hcard : (⟨(Finmap.singleton 0 (2 ^ 63)).insert 1 (2 ^ 63)⟩ : Counter ℕ).operations.keys.card <
      2 ^ 64 := by decide
  have hb : ∀ id a, (⟨(Finmap.singleton 0 (2 ^ 63)).insert 1 (2 ^ 63)⟩ : Counter ℕ).operations.lookup
      id = some a → a.natAbs ≤ u64Max := by
    intro id a h
    by_cases h1 : id = 1
    · subst h1
      rw [Finmap.lookup_insert] at h
      cases h; decide
    · rw [Finmap.lookup_insert_of_ne _ h1] at h
      by_cases h0 : id = 0
      · subst h0
        rw [Finmap.lookup_singleton_eq] at h
        cases h; decide
      · rw [Finmap.lookup_eq_none.mpr fun hm => h0 ((Finmap.mem_singleton _ _ _).mp hm)] at h
        cases h
  exact ⟨hcard, hb, value_eq_clamp _ hcard hb⟩

end Vos.Crdt.Counter
