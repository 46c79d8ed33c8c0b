import Mathlib

/-!
# Invariants of state-and-exception computations

A computation in `ExceptT ε (StateM σ)` keeps a state predicate `P` when every run from a state
satisfying `P` ends in one satisfying `P`, whether it returns or throws. `Keeps` is the `Std.Do`
triple `⦃P⦄ x ⦃post⟨P, P⟩⦄`, so that `mvcgen` composes such specifications; the lemmas here are
the rules `mvcgen` lacks and the way back from a triple to the runs it describes.

* `Keeps`;
* `forM_keeps`: a predicate every iteration keeps is kept by `List.forM`;
* `Hoare`, with an exit condition of each kind, its rules `Hoare.of_pure` and `Hoare.of_throw`,
  and `run_of_hoare`;
* the runs of `get`, `set`, `modify`, `pure`, `throw`, `>>=` and `tryCatch`, for computing a run
  step by step.
-/

set_option mvcgen.warning false

open Std.Do

namespace ExceptState

variable {σ ε : Type}

/-- `x` keeps `P` on both exits. -/
abbrev Keeps {α : Type} (P : σ → Prop) (x : ExceptT ε (StateM σ) α) : Prop :=
  ⦃fun s => ⌜P s⌝⦄ x ⦃post⟨fun _ s => ⌜P s⌝, fun _ s => ⌜P s⌝⟩⦄

theorem forM_keeps {α : Type} (P : σ → Prop) (xs : List α) (f : α → ExceptT ε (StateM σ) Unit)
    (hf : ∀ x ∈ xs, Keeps P (f x)) : Keeps P (xs.forM f) := by
  induction xs with
  | nil => mvcgen
  | cons x xs ih =>
    have hx := hf x (by simp)
    have hxs := ih fun y hy => hf y (by simp [hy])
    mvcgen [List.forM, hx, hxs]

/-! ## Different conditions on the two exits -/

/-- From a state in `P`, `x` ends in `Q` when it returns and in `R` when it throws. -/
abbrev Hoare {α : Type} (P : σ → Prop) (x : ExceptT ε (StateM σ) α) (Q : α → σ → Prop)
    (R : ε → σ → Prop) : Prop :=
  ⦃fun s => ⌜P s⌝⦄ x ⦃post⟨fun a s => ⌜Q a s⌝, fun e s => ⌜R e s⌝⟩⦄

theorem Hoare.of_pure {α : Type} {P : σ → Prop} {Q : α → σ → Prop} {R : ε → σ → Prop} {a : α}
    (h : ∀ s, P s → Q a s) : Hoare P (pure a) Q R := by
  mvcgen
  exact h _ ‹_›

theorem Hoare.of_throw {α : Type} {P : σ → Prop} {Q : α → σ → Prop} {R : ε → σ → Prop} {e : ε}
    (h : ∀ s, P s → R e s) : Hoare P (throw e : ExceptT ε (StateM σ) α) Q R := by
  mvcgen
  exact h _ ‹_›

theorem run_of_hoare {α : Type} {P : σ → Prop} {x : ExceptT ε (StateM σ) α}
    {Q : α → σ → Prop} {R : ε → σ → Prop} (h : Hoare P x Q R) (s : σ) (hs : P s) :
    match x.run.run s with
    | (.ok a, s') => Q a s'
    | (.error e, s') => R e s' := by
  have hrun := h s hs
  simp [wp, ExceptT.run] at hrun
  change match (StateT.run x s).run with
    | (.ok a, s') => Q a s'
    | (.error e, s') => R e s'
  generalize (StateT.run x s).run = r at hrun ⊢
  rcases r with ⟨_ | _, s'⟩ <;> exact hrun

/-! ## Runs -/

section Run

variable {α β : Type}

@[simp] theorem run_get (s : σ) : (get : ExceptT ε (StateM σ) σ).run.run s = (.ok s, s) := rfl

@[simp] theorem run_set (s t : σ) : (set t : ExceptT ε (StateM σ) PUnit).run.run s = (.ok ⟨⟩, t) :=
  rfl

@[simp] theorem run_modify (f : σ → σ) (s : σ) :
    (modify f : ExceptT ε (StateM σ) PUnit).run.run s = (.ok ⟨⟩, f s) := rfl

@[simp] theorem run_pure (a : α) (s : σ) : (pure a : ExceptT ε (StateM σ) α).run.run s = (.ok a, s) :=
  rfl

@[simp] theorem run_throw (e : ε) (s : σ) :
    (throw e : ExceptT ε (StateM σ) α).run.run s = (.error e, s) := rfl

theorem run_bind (x : ExceptT ε (StateM σ) α) (f : α → ExceptT ε (StateM σ) β) (s : σ) :
    (x >>= f).run.run s =
      match x.run.run s with
      | (.ok a, s') => (f a).run.run s'
      | (.error e, s') => (.error e, s') := by
  simp only [ExceptT.run_bind, StateT.run_bind]
  rcases x.run.run s with ⟨_ | a, s'⟩ <;> rfl

theorem run_tryCatch (x : ExceptT ε (StateM σ) α) (h : ε → ExceptT ε (StateM σ) α) (s : σ) :
    (tryCatch x h).run.run s =
      match x.run.run s with
      | (.ok a, s') => (.ok a, s')
      | (.error e, s') => (h e).run.run s' := by
  simp only [ExceptT.run_tryCatch, StateT.run_bind]
  rcases x.run.run s with ⟨_ | a, s'⟩ <;> rfl

end Run

end ExceptState
