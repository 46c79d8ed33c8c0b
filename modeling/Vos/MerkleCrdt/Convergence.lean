import Vos.MerkleCrdt.Replica

/-!
# merkle-crdt — convergence of replicas

A system of replicas indexed by `R`, each a `MerkleCrdt` over a `MemStore`, changed one call at a
time: a replica applies an operation, or syncs from another replica's store at some root. Every
replica keeps `MerkleCrdt.Inv`, and under it:

* `lookup_eq_of_reach`, `roots_eq_of_reach`, `state_eq_of_reach`: a replica's roots and state
  depend only on its reachable CIDs, which determine the reachable nodes;
* `reach_of_reach_roots`: a replica that reaches every root of another reaches all it reaches;
* `reach_of_syncedIn`: a root that a replica once synced successfully stays reachable;
* **`merkleCrdt_converges`**.

As in `Replica`, `DagNode.cid` is assumed injective.
-/

set_option linter.dupNamespace false

namespace Vos.MerkleCrdt

/-- A call in a system of replicas: replica `i` applies `op`, or syncs from the store of replica
`j` at `root`. -/
inductive SysEvent (R C P : Type)
  | apply (i : R) (op : P)
  | sync (i j : R) (root : C)

variable {R C P σ : Type} [DecidableEq R] [LinearOrder C] [NodeHasher C P] [Payload P σ]

/-- The system after a call. -/
def sysStep (sys : R → MerkleCrdt C P σ) : SysEvent R C P → R → MerkleCrdt C P σ
  | .apply i op => Function.update sys i ((sys i).apply op).2
  | .sync i j root => Function.update sys i ((sys i).sync root (sys j).store).2

/-- The system after a sequence of calls. -/
def sysRun (sys : R → MerkleCrdt C P σ) (evs : List (SysEvent R C P)) : R → MerkleCrdt C P σ :=
  evs.foldl sysStep sys

/-- Replica `i` synced `root` successfully at some call of the run `evs` from `sys`. -/
def SyncedIn : (R → MerkleCrdt C P σ) → List (SysEvent R C P) → R → C → Prop
  | _, [], _, _ => False
  | sys, e :: evs, i, root =>
    (∃ j, e = .sync i j root ∧ ((sys i).sync root (sys j).store).1 = .ok ()) ∨
      SyncedIn (sysStep sys e) evs i root

namespace MerkleCrdt

section Compare

variable {r r' : MerkleCrdt C P σ}

theorem lookup_eq_of_reach (hinj : Function.Injective (DagNode.cid : DagNode C P → C))
    (h : Inv r) (h' : Inv r') {x : C} (hx : r.Reach x) (hx' : r'.Reach x) :
    r.store.lookup x = r'.store.lookup x :=
  lookup_eq_of_valid hinj h.valid h'.valid (h.reach_mem hx) (h'.reach_mem hx')

theorem reach_of_reach_roots (hinj : Function.Injective (DagNode.cid : DagNode C P → C))
    (h : Inv r) (h' : Inv r') (hroots : ∀ c ∈ r.clock.roots, r'.Reach c) {x : C}
    (hx : r.Reach x) : r'.Reach x := by
  obtain ⟨c, hc, hcx⟩ := hx
  induction hcx with
  | refl => exact hroots c hc
  | @tail a b hca hab ih =>
    obtain ⟨n, hn, hb⟩ := hab
    have hlookup : r'.store.lookup a = r.store.lookup a :=
      lookup_eq_of_valid hinj h'.valid h.valid (h'.reach_mem ih) (Finmap.mem_of_lookup_eq_some hn)
    exact ih.tail ⟨n, hlookup.trans hn, hb⟩

/-- **The roots are determined by the reachable CIDs**: they are the reachable CIDs that no
reachable node names. -/
theorem roots_eq_of_reach (hinj : Function.Injective (DagNode.cid : DagNode C P → C))
    (h : Inv r) (h' : Inv r') (hreach : ∀ x, r.Reach x ↔ r'.Reach x) :
    r.clock.roots = r'.clock.roots := by
  have hedge : ∀ y c, r.Reach y → (r.store.Edge y c ↔ r'.store.Edge y c) := by
    intro y c hy
    simp only [Dag.Edge, lookup_eq_of_reach hinj h h' hy ((hreach y).mp hy)]
  ext c
  rw [Dag.Antichain.mem_iff h.acyclic h.antichain, Dag.Antichain.mem_iff h'.acyclic h'.antichain]
  constructor
  · rintro ⟨hc, hpar⟩
    refine ⟨(hreach c).mp hc, fun y hy hyc => ?_⟩
    have hy' : r.Reach y := (hreach y).mpr hy
    exact hpar y hy' ((hedge y c hy').mpr hyc)
  · rintro ⟨hc, hpar⟩
    refine ⟨(hreach c).mpr hc, fun y hy hyc => ?_⟩
    exact hpar y ((hreach y).mp hy) ((hedge y c hy).mp hyc)

/-- **The state is determined by the reachable CIDs.** -/
theorem state_eq_of_reach (hinj : Function.Injective (DagNode.cid : DagNode C P → C))
    (h : Inv r) (h' : Inv r') (hreach : ∀ x, r.Reach x ↔ r'.Reach x) : r.state = r'.state := by
  have hmat : materialize r'.clock r'.store = .ok r.state :=
    materialize_eq_of_reach h.materialize_eq h'.closed h'.valid h'.roots_mem
      (fun x => (hreach x).symm)
      fun x hx => (lookup_eq_of_reach hinj h h' hx ((hreach x).mp hx)).symm
  rw [h'.materialize_eq] at hmat
  exact (Except.ok.inj hmat).symm

end Compare

end MerkleCrdt

open MerkleCrdt

section System

variable {sys : R → MerkleCrdt C P σ}

theorem sysStep_inv (hinj : Function.Injective (DagNode.cid : DagNode C P → C))
    (hsys : ∀ i, Inv (sys i)) (e : SysEvent R C P) (i : R) : Inv (sysStep sys e i) := by
  cases e with
  | apply k op =>
    by_cases hik : i = k
    · subst hik
      rw [sysStep, Function.update_self]
      exact (hsys i).apply hinj op
    · rw [sysStep, Function.update_of_ne hik]
      exact hsys i
  | sync k j root =>
    by_cases hik : i = k
    · subst hik
      rw [sysStep, Function.update_self]
      exact (hsys i).syncValidated root _ _ .never none
    · rw [sysStep, Function.update_of_ne hik]
      exact hsys i

/-- **Every replica of a system keeps the invariant along any run.** -/
theorem sysRun_inv (hinj : Function.Injective (DagNode.cid : DagNode C P → C))
    (hsys : ∀ i, Inv (sys i)) (evs : List (SysEvent R C P)) (i : R) :
    Inv (sysRun sys evs i) := by
  induction evs generalizing sys with
  | nil => exact hsys i
  | cons e evs ih => exact ih (sysStep_inv hinj hsys e)

theorem reach_sysStep (hinj : Function.Injective (DagNode.cid : DagNode C P → C))
    (hsys : ∀ i, Inv (sys i)) (e : SysEvent R C P) {i : R} {x : C} (hx : (sys i).Reach x) :
    (sysStep sys e i).Reach x := by
  cases e with
  | apply k op =>
    by_cases hik : i = k
    · subst hik
      rw [sysStep, Function.update_self]
      exact (hsys i).reach_step hinj (.apply op) hx
    · rw [sysStep, Function.update_of_ne hik]
      exact hx
  | sync k j root =>
    by_cases hik : i = k
    · subst hik
      rw [sysStep, Function.update_self]
      exact (hsys i).reach_step hinj (.sync root _ _ .never none) hx
    · rw [sysStep, Function.update_of_ne hik]
      exact hx

theorem reach_sysRun (hinj : Function.Injective (DagNode.cid : DagNode C P → C))
    (hsys : ∀ i, Inv (sys i)) (evs : List (SysEvent R C P)) {i : R} {x : C}
    (hx : (sys i).Reach x) : (sysRun sys evs i).Reach x := by
  induction evs generalizing sys with
  | nil => exact hx
  | cons e evs ih => exact ih (sysStep_inv hinj hsys e) (reach_sysStep hinj hsys e hx)

theorem reach_of_syncedIn (hinj : Function.Injective (DagNode.cid : DagNode C P → C))
    (hsys : ∀ i, Inv (sys i)) {evs : List (SysEvent R C P)} {i : R} {root : C}
    (hsynced : SyncedIn sys evs i root) : (sysRun sys evs i).Reach root := by
  induction evs generalizing sys with
  | nil => exact hsynced.elim
  | cons e evs ih =>
    rcases hsynced with ⟨j, rfl, hok⟩ | hsynced
    · have hstep : (sysStep sys (.sync i j root) i).Reach root := by
        rw [sysStep, Function.update_self]
        exact (hsys i).reach_root_of_syncValidated hok
      exact reach_sysRun hinj (sysStep_inv hinj hsys _) evs hstep
    · exact ih (sysStep_inv hinj hsys e) hsynced

end System

/-- **Merkle-CRDT convergence.** Along any run of `apply` and `sync` calls from fresh replicas,
two replicas that reach the same CIDs (and so the same nodes) have the same roots and the same
state; and once every replica has successfully synced every root that every other replica ends
with, all replicas have the same roots and the same state. -/
theorem merkleCrdt_converges (hinj : Function.Injective (DagNode.cid : DagNode C P → C))
    (evs : List (SysEvent R C P)) :
    let sys : R → MerkleCrdt C P σ := sysRun (fun _ => MerkleCrdt.new) evs
    (∀ i j, (∀ x, (sys i).Reach x ↔ (sys j).Reach x) →
      (sys i).clock.roots = (sys j).clock.roots ∧ (sys i).state = (sys j).state) ∧
    ((∀ i j, i ≠ j → ∀ x ∈ (sys j).clock.roots, SyncedIn (fun _ => MerkleCrdt.new) evs i x) →
      ∀ i j, (sys i).clock.roots = (sys j).clock.roots ∧ (sys i).state = (sys j).state) := by
  intro sys
  have hinv : ∀ i, Inv (sys i) := sysRun_inv hinj (fun _ => inv_new) evs
  have hsame : ∀ i j, (∀ x, (sys i).Reach x ↔ (sys j).Reach x) →
      (sys i).clock.roots = (sys j).clock.roots ∧ (sys i).state = (sys j).state :=
    fun i j hreach => ⟨roots_eq_of_reach hinj (hinv i) (hinv j) hreach,
      state_eq_of_reach hinj (hinv i) (hinv j) hreach⟩
  refine ⟨hsame, fun hsynced i j => hsame i j fun x => ?_⟩
  -- each replica reaches every root of the other, hence all the other reaches
  have hroots : ∀ i j, ∀ c ∈ (sys j).clock.roots, (sys i).Reach c := by
    intro i j c hc
    by_cases hij : i = j
    · subst hij
      exact Dag.Reach.root hc
    · exact reach_of_syncedIn hinj (fun _ => inv_new) (hsynced i j hij c hc)
  exact ⟨reach_of_reach_roots hinj (hinv i) (hinv j) (hroots j i),
    reach_of_reach_roots hinj (hinv j) (hinv i) (hroots i j)⟩

theorem merkleCrdt_converges_counter :
    Function.Injective (DagNode.cid : DagNode ℕ ℕ → ℕ) ∧
      let sys : Bool → MerkleCrdt ℕ ℕ ℕ := sysRun (fun _ => MerkleCrdt.new)
        [.apply false 1, .apply true 2, .sync false true 0]
      (∀ i j, (∀ x, (sys i).Reach x ↔ (sys j).Reach x) →
        (sys i).clock.roots = (sys j).clock.roots ∧ (sys i).state = (sys j).state) ∧
      ((∀ i j, i ≠ j → ∀ x ∈ (sys j).clock.roots, SyncedIn (fun _ => MerkleCrdt.new)
          [.apply false 1, .apply true 2, .sync false true 0] i x) →
        ∀ i j, (sys i).clock.roots = (sys j).clock.roots ∧ (sys i).state = (sys j).state) :=
  ⟨encodeHasher_injective, merkleCrdt_converges encodeHasher_injective _⟩

end Vos.MerkleCrdt
