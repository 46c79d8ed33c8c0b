import Vos.Raft.Types
import Mathlib.Data.List.Sort
import Mathlib.Data.List.GetD

/-!
# vos-raft — the active configuration

The membership view a worker decides quorums with (`ActiveConfig` in `worker.rs`): the member
set `current` and, during a joint-consensus phase, the old set `joint_old`. Member lists are the
`Vec`s of the source, duplicates included: a quorum is counted over list positions.

* `ActiveConfig.steady`, `isJoint`, `quorumCurrent`, `quorumOld`, `allMembers`;
* `ActiveConfig.quorumHolds`: a majority of `current` and, when joint, of `joint_old`;
* `ActiveConfig.majorityFloor`: the score a majority of each set reaches;
* `le_length_filter_iff`: in a list sorted in descending order, `q` entries reach `v` exactly when
  the entry at `q - 1` does;
* **`majorityFloor_spec`**: `majority_floor` is the greatest threshold for which `quorum_holds`,
  and is `none` exactly when a member list it counts is empty.
-/

namespace Vos.Raft

/-- The membership view (`ActiveConfig`). -/
structure ActiveConfig (N : Type) where
  current : List N
  jointOld : Option (List N)
  deriving DecidableEq, Repr

variable {N : Type} [DecidableEq N]

namespace ActiveConfig

/-- `ActiveConfig::steady`: a non-joint view. -/
def steady (members : List N) : ActiveConfig N := { current := members, jointOld := none }

def isJoint (c : ActiveConfig N) : Bool := c.jointOld.isSome

def quorumCurrent (c : ActiveConfig N) : Nat := c.current.length / 2 + 1

/-- `0` when the view is not joint. -/
def quorumOld (c : ActiveConfig N) : Nat := (c.jointOld.map fun m => m.length / 2 + 1).getD 0

/-- `all_members`: `current`, then every member of `joint_old` not seen yet. -/
def allMembers (c : ActiveConfig N) : List N :=
  match c.jointOld with
  | some old => old.foldl (fun seen m => if seen.contains m then seen else seen ++ [m]) c.current
  | none => c.current

/-- `quorum_holds`: `pred` holds at a majority of `current` and, when joint, of `joint_old`. -/
def quorumHolds (c : ActiveConfig N) (pred : N → Bool) : Bool :=
  if (c.current.filter pred).length < c.quorumCurrent then false
  else match c.jointOld with
    | some old => !decide ((old.filter pred).length < c.quorumOld)
    | none => true

/-- The scores of a member list in descending order (`sort_unstable_by(|a, b| b.cmp(a))`).
Sorting numbers in descending order has one result, so the algorithm is free: an insertion sort,
which evaluates structurally. -/
def sortedScores (members : List N) (score : N → Nat) : List Nat :=
  (members.map score).insertionSort fun a b => b ≤ a

/-- `majority_floor`: the score reached by a majority of `current` and, when joint, of
`joint_old`; `none` when a set is empty. -/
def majorityFloor (c : ActiveConfig N) (score : N → Nat) : Option Nat :=
  let cur := sortedScores c.current score
  let qCur := c.quorumCurrent
  if qCur = 0 ∨ qCur > cur.length then none
  else
    let floor := cur.getD (qCur - 1) 0
    match c.jointOld with
    | some old =>
      let olds := sortedScores old score
      let qOld := c.quorumOld
      if qOld = 0 ∨ qOld > olds.length then none
      else some (min floor (olds.getD (qOld - 1) 0))
    | none => some floor

/-! ## The floor and the predicate -/

/-- In a list sorted in descending order, at least `q ≥ 1` entries reach `v` exactly when its
entry at `q - 1` does. -/
theorem le_length_filter_iff :
    ∀ {l : List Nat} {q : Nat} (v : Nat), l.Pairwise (fun a b => b ≤ a) → 1 ≤ q → q ≤ l.length →
      (q ≤ (l.filter fun x => decide (v ≤ x)).length ↔ v ≤ l.getD (q - 1) 0)
  | [], _, _, _, hq1, hq => absurd hq (by simp; omega)
  | a :: t, q, v, hs, hq1, hq => by
    obtain ⟨hmax, ht⟩ := List.pairwise_cons.mp hs
    by_cases hva : v ≤ a
    · rcases q with _ | _ | q
      · omega
      · -- the head is the greatest entry, and it reaches `v`
        simp [hva]
      · have ih := le_length_filter_iff v ht (Nat.le_add_left 1 q) (by simp at hq; omega)
        simp only [List.filter_cons, hva, decide_true, if_true, List.length_cons,
          Nat.add_le_add_iff_right] at ih ⊢
        exact ih
    · -- no entry reaches `v`, as none exceeds the head
      have hnone : (t.filter fun x => decide (v ≤ x)) = [] :=
        List.filter_eq_nil_iff.mpr fun x hx => by
          simpa using fun h : v ≤ x => hva (h.trans (hmax x hx))
      rcases q with _ | q
      · omega
      · simp only [List.filter_cons, hva, decide_false, Bool.false_eq_true, if_false, hnone,
          List.length_nil, Nat.add_one_sub_one]
        constructor
        · intro h
          omega
        · intro h
          rcases q with _ | q
          · exact absurd h (by simpa using hva)
          · have hlt : q < t.length := by simp at hq; omega
            rw [List.getD_cons_succ, List.getD_eq_getElem _ _ hlt] at h
            exact absurd (h.trans (hmax _ (List.getElem_mem hlt))) hva

omit [DecidableEq N] in
theorem length_filter_score (members : List N) (score : N → Nat) (v : Nat) :
    (members.filter fun m => decide (v ≤ score m)).length =
      ((sortedScores members score).filter fun x => decide (v ≤ x)).length := by
  rw [sortedScores, ((List.perm_insertionSort _ _).filter _).length_eq, List.filter_map,
    List.length_map]
  rfl

omit [DecidableEq N] in
theorem pairwise_sortedScores (members : List N) (score : N → Nat) :
    (sortedScores members score).Pairwise fun a b => b ≤ a := by
  have : Std.Total fun a b : Nat => b ≤ a := ⟨fun a b => le_total b a⟩
  have : IsTrans Nat fun a b => b ≤ a := ⟨fun _ _ _ h₁ h₂ => h₂.trans h₁⟩
  exact List.pairwise_insertionSort _ _

omit [DecidableEq N] in
@[simp] theorem length_sortedScores (members : List N) (score : N → Nat) :
    (sortedScores members score).length = members.length := by
  rw [sortedScores, List.length_insertionSort, List.length_map]

omit [DecidableEq N] in
/-- **A majority of a non-empty list reaches `v`** exactly when the score at the majority's
position in descending order does. -/
theorem majority_iff_le_floor {members : List N} (hne : members ≠ []) (score : N → Nat) (v : Nat) :
    members.length / 2 + 1 ≤ (members.filter fun m => decide (v ≤ score m)).length ↔
      v ≤ (sortedScores members score).getD (members.length / 2) 0 := by
  have hpos : 0 < members.length := List.length_pos_iff.mpr hne
  rw [length_filter_score, le_length_filter_iff v (pairwise_sortedScores members score)
    (Nat.le_add_left 1 _) (by rw [length_sortedScores]; omega), Nat.add_sub_cancel]

omit [DecidableEq N] in
theorem quorumHolds_iff (c : ActiveConfig N) (pred : N → Bool) :
    c.quorumHolds pred = true ↔ c.quorumCurrent ≤ (c.current.filter pred).length ∧
      ∀ old, c.jointOld = some old → c.quorumOld ≤ (old.filter pred).length := by
  unfold quorumHolds
  split_ifs with hcur
  · simp only [false_iff, not_and]
    omega
  · rcases hj : c.jointOld with _ | old
    · simp
      omega
    · simp
      omega

omit [DecidableEq N] in
/-- **`majority_floor` is the greatest threshold a quorum reaches.** It returns `none` exactly
when `current`, or `joint_old` in a joint view, is empty; otherwise its result `f` is reached by a
quorum (`quorum_holds(|m| score(m) ≥ f)`), and every threshold a quorum reaches is at most `f`. -/
theorem majorityFloor_spec (c : ActiveConfig N) (score : N → Nat) :
    (c.majorityFloor score = none ↔ c.current = [] ∨ c.jointOld = some []) ∧
      ∀ f, c.majorityFloor score = some f →
        c.quorumHolds (fun m => decide (f ≤ score m)) = true ∧
        ∀ v, c.quorumHolds (fun m => decide (v ≤ score m)) = true → v ≤ f := by
  obtain ⟨cur, jo⟩ := c
  by_cases hcur : cur = []
  · -- an empty `current` has no majority
    subst hcur
    have hnone : majorityFloor ⟨[], jo⟩ score = none := by
      simp [majorityFloor, quorumCurrent, sortedScores]
    simp [hnone]
  · have hcur' : ∀ v, quorumCurrent ⟨cur, jo⟩ ≤ (cur.filter fun m => decide (v ≤ score m)).length ↔
        v ≤ (sortedScores cur score).getD (cur.length / 2) 0 :=
      fun v => majority_iff_le_floor hcur score v
    have hlen := List.length_pos_iff.mpr hcur
    rcases jo with _ | old
    · have hsome : majorityFloor ⟨cur, none⟩ score =
          some ((sortedScores cur score).getD (cur.length / 2) 0) := by
        simp only [majorityFloor, quorumCurrent, length_sortedScores]
        rw [if_neg (by omega), Nat.add_sub_cancel]
      refine ⟨by simp [hsome, hcur], fun f hf => ?_⟩
      rw [hsome, Option.some.injEq] at hf
      subst hf
      simp only [quorumHolds_iff, reduceCtorEq, false_implies, implies_true, and_true, hcur']
      exact ⟨le_rfl, fun v hv => hv⟩
    · by_cases hold : old = []
      · -- an empty `joint_old` has no majority either
        subst hold
        have hnone : majorityFloor ⟨cur, some []⟩ score = none := by
          simp only [majorityFloor, quorumCurrent, quorumOld, length_sortedScores]
          rw [if_neg (by omega)]
          simp
        simp [hnone]
      · have hold' : ∀ v, quorumOld ⟨cur, some old⟩ ≤ (old.filter fun m => decide (v ≤ score m)).length ↔
            v ≤ (sortedScores old score).getD (old.length / 2) 0 :=
          fun v => majority_iff_le_floor hold score v
        have holdlen := List.length_pos_iff.mpr hold
        have hsome : majorityFloor ⟨cur, some old⟩ score =
            some (min ((sortedScores cur score).getD (cur.length / 2) 0)
              ((sortedScores old score).getD (old.length / 2) 0)) := by
          simp only [majorityFloor, quorumCurrent, quorumOld, length_sortedScores, Option.map_some,
            Option.getD_some]
          rw [if_neg (by omega), if_neg (by omega), Nat.add_sub_cancel, Nat.add_sub_cancel]
        refine ⟨by simp [hsome, hcur, hold], fun f hf => ?_⟩
        rw [hsome, Option.some.injEq] at hf
        subst hf
        -- a quorum of the joint view is a majority of each list
        have hq : ∀ v, quorumHolds ⟨cur, some old⟩ (fun m => decide (v ≤ score m)) = true ↔
            v ≤ (sortedScores cur score).getD (cur.length / 2) 0 ∧
              v ≤ (sortedScores old score).getD (old.length / 2) 0 := fun v => by
          simp only [quorumHolds_iff, Option.some.injEq, forall_eq', hcur', hold']
        refine ⟨(hq _).mpr ⟨min_le_left _ _, min_le_right _ _⟩, fun v hv => ?_⟩
        obtain ⟨h1, h2⟩ := (hq v).mp hv
        exact le_min h1 h2

end ActiveConfig

end Vos.Raft
