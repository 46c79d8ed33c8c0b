import Mathlib.Data.Set.Lattice
import Mathlib.Order.CompleteLattice.Finset
import Mathlib.Logic.Function.Basic

/-!
# Replicated state whose merge is a union

A state-based replicated data type converges when each state is determined by a set of atoms,
a local operation only adds atoms, and a merge takes the union of the atoms of both sides. Then
the atoms a replica holds are exactly the atoms its incorporated operations added at their
origins, whatever the order of the operations and of the merges, so two replicas that
incorporated the same operations are in the same state (strong eventual consistency).

The run is over any set of replicas: an operation is performed at one replica, a merge pulls one
replica's state into another, and a failed operation or merge changes nothing. Operations are
numbered in the order they are performed; a replica's ghost `inc` is the set of numbers it has
incorporated, directly or through merges.

* `ReplicatedType`, `ReplicatedType.Lawful`, `ReplicatedType.Lawful.of_injective`;
* `Event`, `Config`, `ReplicatedType.step`, `ReplicatedType.run`;
* `ReplicatedType.Explained`: the atoms of every replica are those its operations added;
* **`ReplicatedType.state_eq_of_inc_eq`**: convergence;
* `foldlM_except_rel`: an operation made of steps that each keep a reflexive, transitive relation
  keeps it, the rule that shows a multi-step operation only adds atoms;
* `JoinOn`, `Inflationary`, `JoinOn.of_atoms`, `Inflationary.of_atoms`: a union-of-atoms merge is
  a join on the pairs it accepts, and operations that add atoms are inflations.
-/

namespace Replicated

/-- A replicated data type: an initial state, fallible local operations and merge, and the atoms
a state is made of. -/
structure ReplicatedType (σ Op ε A : Type*) where
  init : σ
  apply : σ → Op → Except ε σ
  merge : σ → σ → Except ε σ
  atoms : σ → Set A

variable {σ Op ε A R : Type*}

/-- The laws of a converging replicated type, over the well-formed states `Wf`. -/
structure ReplicatedType.Lawful (T : ReplicatedType σ Op ε A) (Wf : σ → Prop) : Prop where
  wf_init : Wf T.init
  wf_apply : ∀ {s s' o}, Wf s → T.apply s o = .ok s' → Wf s'
  wf_merge : ∀ {s t s'}, Wf s → Wf t → T.merge s t = .ok s' → Wf s'
  atoms_init : T.atoms T.init = ∅
  atoms_apply : ∀ {s s' o}, T.apply s o = .ok s' → T.atoms s ⊆ T.atoms s'
  atoms_merge : ∀ {s t s'}, T.merge s t = .ok s' → T.atoms s' = T.atoms s ∪ T.atoms t
  atoms_inj : ∀ {s t}, Wf s → Wf t → T.atoms s = T.atoms t → s = t

/-- A type whose every state is well formed is lawful once its atoms determine its states, its
operations only add atoms and its merges take their union. -/
theorem ReplicatedType.Lawful.of_injective {T : ReplicatedType σ Op ε A} (init : T.atoms T.init = ∅)
    (apply : ∀ {s s' o}, T.apply s o = .ok s' → T.atoms s ⊆ T.atoms s')
    (merge : ∀ {s t s'}, T.merge s t = .ok s' → T.atoms s' = T.atoms s ∪ T.atoms t)
    (inj : Function.Injective T.atoms) : T.Lawful fun _ => True where
  wf_init := trivial
  wf_apply _ _ := trivial
  wf_merge _ _ _ := trivial
  atoms_init := init
  atoms_apply := apply
  atoms_merge := merge
  atoms_inj _ _ h := inj h

/-- One step of a run: an operation at a replica, or a merge of `src`'s state into `r`'s. -/
inductive Event (R Op : Type*)
  | apply (r : R) (o : Op)
  | merge (r src : R)

/-- Every replica's state, the numbers of the operations it has incorporated, and the number the
next operation gets. -/
structure Config (R σ : Type*) where
  state : R → σ
  inc : R → Finset ℕ
  next : ℕ

namespace ReplicatedType

variable (T : ReplicatedType σ Op ε A) [DecidableEq R]

/-- Every replica starts in `init` with nothing incorporated. -/
def start : Config R σ := { state := fun _ => T.init, inc := fun _ => ∅, next := 0 }

/-- One step; a failed operation or merge leaves the configuration as it was. -/
def step (c : Config R σ) : Event R Op → Config R σ
  | .apply r o =>
    match T.apply (c.state r) o with
    | .ok s => { state := Function.update c.state r s,
                 inc := Function.update c.inc r (insert c.next (c.inc r)), next := c.next + 1 }
    | .error _ => c
  | .merge r src =>
    match T.merge (c.state r) (c.state src) with
    | .ok s => { c with state := Function.update c.state r s,
                        inc := Function.update c.inc r (c.inc r ∪ c.inc src) }
    | .error _ => c

/-- The configuration after a schedule of events. -/
def run (evs : List (Event R Op)) : Config R σ := evs.foldl T.step T.start

/-- The atoms of every replica are those added by the operations it has incorporated, `eff m`
being what operation `m` added at its origin; every state is well formed, and every incorporated
operation has already been numbered. -/
structure Explained (Wf : σ → Prop) (c : Config R σ) (eff : ℕ → Set A) : Prop where
  atoms_eq : ∀ r, T.atoms (c.state r) = ⋃ m ∈ c.inc r, eff m
  wf : ∀ r, Wf (c.state r)
  inc_lt : ∀ r, ∀ m ∈ c.inc r, m < c.next

variable {T} {Wf : σ → Prop}

omit [DecidableEq R] in
theorem explained_start (hT : T.Lawful Wf) :
    T.Explained Wf (T.start : Config R σ) fun _ => ∅ where
  atoms_eq r := by simp [start, hT.atoms_init]
  wf _ := hT.wf_init
  inc_lt r m hm := by simp [start] at hm

/-- An operation that succeeds at `r` adds the atoms `T.atoms s \ T.atoms (c.state r)`, recorded
under its number; no replica has incorporated that number yet, so the others are unaffected. -/
theorem explained_apply (hT : T.Lawful Wf) {c : Config R σ} {eff : ℕ → Set A}
    (h : T.Explained Wf c eff) {r : R} {o : Op} {s : σ} (hs : T.apply (c.state r) o = .ok s) :
    T.Explained Wf (T.step c (.apply r o))
      (Function.update eff c.next (T.atoms s \ T.atoms (c.state r))) := by
  have hsub := hT.atoms_apply hs
  have hfresh : c.next ∉ c.inc r := fun hm => (h.inc_lt r c.next hm).ne rfl
  -- the recorded effects agree with the old ones on every number below `c.next`
  have hold : ∀ q, ∀ m ∈ c.inc q, Function.update eff c.next (T.atoms s \ T.atoms (c.state r)) m
      = eff m := fun q m hm => Function.update_of_ne (h.inc_lt q m hm).ne _ _
  simp only [step, hs]
  refine ⟨fun q => ?_, fun q => ?_, fun q m hm => ?_⟩ <;> dsimp only at *
  · by_cases hq : q = r
    · subst hq
      rw [Function.update_self, Function.update_self, Finset.set_biUnion_insert_update _ hfresh,
        ← h.atoms_eq q, Set.union_comm]
      exact (Set.union_sdiff_cancel hsub).symm
    · rw [Function.update_of_ne hq, Function.update_of_ne hq, Set.iUnion₂_congr (hold q),
        h.atoms_eq q]
  · by_cases hq : q = r
    · subst hq; simpa using hT.wf_apply (h.wf q) hs
    · simpa [Function.update_of_ne hq] using h.wf q
  · by_cases hq : q = r
    · subst hq
      rw [Function.update_self, Finset.mem_insert] at hm
      rcases hm with rfl | hm
      · omega
      · have := h.inc_lt q m hm; omega
    · rw [Function.update_of_ne hq] at hm
      have := h.inc_lt q m hm; omega

/-- A merge that succeeds at `r` makes its atoms the union of both sides', which the union of
both sides' operations explains. -/
theorem explained_merge (hT : T.Lawful Wf) {c : Config R σ} {eff : ℕ → Set A}
    (h : T.Explained Wf c eff) {r src : R} {s : σ} (hs : T.merge (c.state r) (c.state src) = .ok s) :
    T.Explained Wf (T.step c (.merge r src)) eff := by
  simp only [step, hs]
  refine ⟨fun q => ?_, fun q => ?_, fun q m hm => ?_⟩ <;> dsimp only at *
  · by_cases hq : q = r
    · subst hq
      rw [Function.update_self, Function.update_self, Finset.set_biUnion_union, hT.atoms_merge hs,
        h.atoms_eq q, h.atoms_eq src]
    · simpa [Function.update_of_ne hq] using h.atoms_eq q
  · by_cases hq : q = r
    · subst hq; simpa using hT.wf_merge (h.wf q) (h.wf src) hs
    · simpa [Function.update_of_ne hq] using h.wf q
  · by_cases hq : q = r
    · subst hq
      rw [Function.update_self, Finset.mem_union] at hm
      rcases hm with hm | hm
      · exact h.inc_lt q m hm
      · exact h.inc_lt src m hm
    · rw [Function.update_of_ne hq] at hm
      exact h.inc_lt q m hm

theorem explained_step (hT : T.Lawful Wf) {c : Config R σ} (h : ∃ eff, T.Explained Wf c eff)
    (e : Event R Op) : ∃ eff, T.Explained Wf (T.step c e) eff := by
  obtain ⟨eff, h⟩ := h
  cases e with
  | apply r o =>
    cases hs : T.apply (c.state r) o with
    | ok s => exact ⟨_, explained_apply hT h hs⟩
    | error _ => exact ⟨eff, by simpa [step, hs] using h⟩
  | merge r src =>
    cases hs : T.merge (c.state r) (c.state src) with
    | ok s => exact ⟨eff, explained_merge hT h hs⟩
    | error _ => exact ⟨eff, by simpa [step, hs] using h⟩

theorem explained_run (hT : T.Lawful Wf) (evs : List (Event R Op)) :
    ∃ eff, T.Explained Wf (T.run evs) eff := by
  unfold run
  -- induction on the schedule, from any explained configuration
  suffices ∀ (c : Config R σ), (∃ eff, T.Explained Wf c eff) →
      ∃ eff, T.Explained Wf (evs.foldl T.step c) eff from
    this _ ⟨_, explained_start hT⟩
  induction evs with
  | nil => exact fun c h => h
  | cons e evs ih => exact fun c h => ih _ (explained_step hT h e)

/-- **Strong eventual consistency**: after any schedule, two replicas that have incorporated the
same operations are in the same state. -/
theorem state_eq_of_inc_eq (hT : T.Lawful Wf) (evs : List (Event R Op)) {r₁ r₂ : R}
    (hinc : (T.run evs).inc r₁ = (T.run evs).inc r₂) :
    (T.run evs).state r₁ = (T.run evs).state r₂ := by
  obtain ⟨eff, h⟩ := explained_run hT evs
  apply hT.atoms_inj (h.wf r₁) (h.wf r₂)
  rw [h.atoms_eq, h.atoms_eq, hinc]

end ReplicatedType

/-- A fallible fold whose every successful step relates its input to its output by a reflexive,
transitive relation relates its start to its result. -/
theorem foldlM_except_rel {ε α β : Type*} {rel : α → α → Prop} (hrefl : ∀ a, rel a a)
    (htrans : ∀ a b c, rel a b → rel b c → rel a c) {f : α → β → Except ε α}
    (hf : ∀ a x a', f a x = .ok a' → rel a a') :
    ∀ (xs : List β) (a a' : α), xs.foldlM f a = .ok a' → rel a a'
  | [], a, a', h => by
    cases h
    exact hrefl a
  | x :: xs, a, a', h => by
    rw [List.foldlM_cons] at h
    cases hx : f a x with
    | error e => rw [hx] at h; cases h
    | ok b =>
      rw [hx] at h
      exact htrans a b a' (hf a x b hx) (foldlM_except_rel hrefl htrans hf xs b a' h)

/-! ## Merge as a join

A merge that may refuse is a join on the pairs of states it accepts: there it succeeds, and it is
commutative, associative and idempotent. When states are determined by their atoms and a merge
takes the union of both sides' atoms, the laws follow from those of set union, given that the
pairs accepted are closed under merging. -/

section join

variable {merge : σ → σ → Except ε σ} {atoms : σ → Set A} {compat : σ → σ → Prop}

variable (merge) in
/-- `merge` is a join on the pairs related by `compat`. -/
structure JoinOn (compat : σ → σ → Prop) : Prop where
  merge_ok : ∀ a b, compat a b → ∃ u, merge a b = .ok u
  comm : ∀ a b, compat a b → merge a b = merge b a
  assoc : ∀ a b c, compat a b → compat b c → compat a c →
    (merge a b).bind (fun ab => merge ab c) = (merge b c).bind (fun bc => merge a bc)
  idem : ∀ a, merge a a = .ok a

variable (merge) in
/-- Merging the result of a successful operation into the state it was applied to gives that
result. -/
def Inflationary {Op : Type*} (apply : σ → Op → Except ε σ) : Prop :=
  ∀ s o s', apply s o = .ok s' → merge s s' = .ok s'

section

variable (hinj : Function.Injective atoms)
  (hmerge : ∀ {s t u}, merge s t = .ok u → atoms u = atoms s ∪ atoms t)
  (hok : ∀ {s t}, compat s t → ∃ u, merge s t = .ok u)
include hinj hmerge hok

theorem merge_comm_of_atoms (hsymm : ∀ {s t}, compat s t → compat t s) {a b : σ}
    (hab : compat a b) : merge a b = merge b a := by
  obtain ⟨u, hu⟩ := hok hab
  obtain ⟨v, hv⟩ := hok (hsymm hab)
  rw [hu, hv, hinj ((hmerge hu).trans ((Set.union_comm _ _).trans (hmerge hv).symm))]

/-- A join on the pairs `compat` relates, when these are symmetric, reflexive and closed under
merging. -/
theorem JoinOn.of_atoms (hsymm : ∀ {s t}, compat s t → compat t s) (hrefl : ∀ s, compat s s)
    (hunion : ∀ {s t u w}, compat s w → compat t w → merge s t = .ok u → compat u w) :
    JoinOn merge compat where
  merge_ok _ _ h := hok h
  comm _ _ h := merge_comm_of_atoms hinj hmerge hok hsymm h
  assoc a b c hab hbc hac := by
    obtain ⟨ab, hab'⟩ := hok hab
    obtain ⟨bc, hbc'⟩ := hok hbc
    have habc : compat ab c := hunion hac hbc hab'
    have habc' : compat a bc := hsymm (hunion (hsymm hab) (hsymm hac) hbc')
    obtain ⟨r, hr⟩ := hok habc
    obtain ⟨r', hr'⟩ := hok habc'
    have hatoms : atoms r = atoms r' := by
      rw [hmerge hr, hmerge hr', hmerge hab', hmerge hbc', Set.union_assoc]
    simp only [hab', hbc', Except.bind, hr, hr', hinj hatoms]
  idem a := by
    obtain ⟨u, hu⟩ := hok (hrefl a)
    rw [hu, hinj ((hmerge hu).trans (Set.union_self _))]

/-- Every operation that only adds atoms is an inflation, when a state is accepted with any state
holding all its atoms. -/
theorem Inflationary.of_atoms {Op : Type*} {apply : σ → Op → Except ε σ}
    (happly : ∀ {s o s'}, apply s o = .ok s' → atoms s ⊆ atoms s')
    (hsub : ∀ {s t}, atoms s ⊆ atoms t → compat s t) : Inflationary merge apply := by
  intro s o s' h
  have hsub' := happly h
  obtain ⟨u, hu⟩ := hok (hsub hsub')
  rw [hu, hinj ((hmerge hu).trans (Set.union_eq_right.mpr hsub'))]

end

end join

end Replicated
