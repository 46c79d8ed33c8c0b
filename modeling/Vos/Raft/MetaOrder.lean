import Mathlib.Order.Nat
import Vos.Raft.Types

/-!
# vos-raft — the order of the durable scalars

How a replica's `Meta` may move over time, as a preorder: the term, the commit index and the
snapshot pointer never go down, and within one term the vote only goes from none to a candidate.
The snapshot term is free: it follows the pointer.

* `Meta.Le`, with the `Preorder` it makes;
* the moves the worker makes, each shown to go up: `Meta.le_bump` (a newer term clears the vote),
  `Meta.le_vote`, `Meta.le_elect` (below `u64::MAX`), `Meta.le_commit`, `Meta.le_compact`;
* `Meta.not_le_elect_max`: at `u64::MAX` the election bump goes down;
* `vote_free_iff`: the vote check of `handle_request_vote`.
-/

namespace Vos.Raft

variable {N : Type}

/-- `m'` is a later state of the scalars `m`. -/
@[mk_iff] structure Meta.Le (m m' : Meta N) : Prop where
  term : m.currentTerm ≤ m'.currentTerm
  commit : m.commitIndex ≤ m'.commitIndex
  snap : m.snapLastIndex ≤ m'.snapLastIndex
  vote : m'.currentTerm = m.currentTerm → m.votedFor = none ∨ m'.votedFor = m.votedFor

theorem Meta.Le.refl (m : Meta N) : m.Le m := ⟨le_rfl, le_rfl, le_rfl, fun _ => .inr rfl⟩

theorem Meta.Le.trans {m₁ m₂ m₃ : Meta N} (h₁ : m₁.Le m₂) (h₂ : m₂.Le m₃) : m₁.Le m₃ := by
  refine ⟨h₁.term.trans h₂.term, h₁.commit.trans h₂.commit, h₁.snap.trans h₂.snap, fun h => ?_⟩
  have h₂₁ : m₂.currentTerm = m₁.currentTerm := le_antisymm (h ▸ h₂.term) h₁.term
  rcases h₁.vote h₂₁ with hv | hv
  · exact .inl hv
  · rcases h₂.vote (h.trans h₂₁.symm) with hv' | hv'
    · exact .inl (hv ▸ hv')
    · exact .inr (hv'.trans hv)

instance : Preorder (Meta N) where
  le := Meta.Le
  le_refl := Meta.Le.refl
  le_trans _ _ _ := Meta.Le.trans

theorem Meta.le_def {m m' : Meta N} : m ≤ m' ↔ m.Le m' := Iff.rfl

/-! ## The moves of the worker -/

theorem Meta.le_bump (m : Meta N) {t : Nat} (ht : m.currentTerm < t) :
    m ≤ { m with currentTerm := t, votedFor := none } :=
  ⟨ht.le, le_rfl, le_rfl, fun h => absurd h ht.ne'⟩

theorem Meta.le_vote (m : Meta N) {c : N} (hc : m.votedFor = none ∨ m.votedFor = some c) :
    m ≤ { m with votedFor := some c } :=
  ⟨le_rfl, le_rfl, le_rfl, fun _ => hc.imp id Eq.symm⟩

/-- `start_election`: the next term, with a vote for oneself, while the term is below
`u64::MAX`. -/
theorem Meta.le_elect (m : Meta N) (c : N) (h : m.currentTerm + 1 < 2 ^ 64) :
    m ≤ { m with currentTerm := u64Succ m.currentTerm, votedFor := some c } := by
  rw [u64Succ_of_lt h]
  exact ⟨by simp, le_rfl, le_rfl, fun h => absurd h (by simp)⟩

theorem Meta.not_le_elect_max (m : Meta N) (c : N) (h : m.currentTerm = 2 ^ 64 - 1) :
    ¬ m ≤ { m with currentTerm := u64Succ m.currentTerm, votedFor := some c } := by
  intro hle
  have hterm := hle.term
  simp only [h, u64Succ] at hterm
  omega

theorem Meta.le_commit (m : Meta N) {c : Nat} (hc : m.commitIndex ≤ c) :
    m ≤ { m with commitIndex := c } :=
  ⟨le_rfl, hc, le_rfl, fun _ => .inr rfl⟩

theorem Meta.le_compact (m : Meta N) {i t : Nat} (hi : m.snapLastIndex ≤ i) :
    m ≤ { m with snapLastIndex := i, snapLastTerm := t } :=
  ⟨le_rfl, le_rfl, hi, fun _ => .inr rfl⟩

/-- `voted_for.is_some_and(|v| v != candidate)` is false exactly when the vote is free for the
candidate. -/
theorem vote_free_iff [DecidableEq N] {o : Option N} {c : N} :
    (o.any fun x => decide (x ≠ c)) = false ↔ o = none ∨ o = some c := by
  cases o with
  | none => simp
  | some v => by_cases h : v = c <;> simp [h]

end Vos.Raft
