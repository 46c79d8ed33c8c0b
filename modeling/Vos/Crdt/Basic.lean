import Vos.Lib.FinmapGraph

/-!
# vos CRDT fields — registers, sets and counters

The replicated field types of `vos::crdt` whose state is a map of operations keyed by operation id
and a set of removed ids: `Value<T>` (a multi-value register), `Set<T>` (an add-wins
observed-remove set, `CrdtSet` here) and `Counter`.

Operation ids (`OpId`, a change id and an ordinal, ordered lexicographically) are any linearly
ordered type `I`; `BTreeMap` and `BTreeSet` are Mathlib's `Finmap` and `Finset`, iterated in
ascending key order where the source iterates. A mutation takes the operation id it would draw
from `next_operation()` as an argument (the `*_with_id` form); recording the operation's payload in
the change scope does not touch the field and is not modelled.

Each type's *atoms* are the pairs of its operation map and the ids of its removed set
(`sumSet`); a state is determined by its atoms (`atoms_injective`), every mutation only adds atoms,
and a merge that succeeds takes the union of both sides' atoms.

* `Error`, `BTreeMap`, `BTreeSet`;
* `Value`: `setWithId`, `merge`, `get`, `visibleId`, `conflicts`, `versions`;
* `CrdtSet`: `insertWithId`, `removeObserved`, `remove`, `merge`, `contains`, `iter`;
* `Counter`: `incrementWithId`, `decrementWithId`, `addWithId`, `merge`, `value`.
-/

namespace Vos.Crdt

/-- `crdt::Error`, over the operation-id type. -/
inductive Error (I : Type)
  | divergentOperation (id : I)
  | logicalClockOverflow
  | constMismatch
  | indexOutOfBounds
  | noChangeScope
  | nestedChangeScope
  | operationOverflow
  | noCompletedChange
  | changeMismatch
  deriving DecidableEq, Repr

/-- `BTreeMap<K, V>`. -/
abbrev BTreeMap (K V : Type) := Finmap fun _ : K => V

/-- `BTreeSet<K>`. -/
abbrev BTreeSet (K : Type) := Finset K

section

variable {I X : Type} [LinearOrder I] [DecidableEq X]

/-- When the merge check finds no conflicting id, the union of the two operation maps, with either
side's entries written last, holds exactly the pairs of both. -/
theorem graph_union_of_firstConflict {m n : BTreeMap I X} (h : Finmap.firstConflict m n = none) :
    (m ∪ n).graph = m.graph ∪ n.graph ∧ (n ∪ m).graph = m.graph ∪ n.graph := by
  have hc := Finmap.firstConflict_eq_none.mp h
  exact ⟨Finmap.graph_union hc, (Finmap.graph_union hc.symm).trans (Set.union_comm _ _)⟩

end

/-! ## `Value<T>` -/

/-- `Value<T>`: every version ever set, keyed by operation id, and the ids superseded. -/
structure Value (I T : Type) where
  values : BTreeMap I T
  removed : BTreeSet I

namespace Value

variable {I T : Type} [LinearOrder I] [DecidableEq T]

/-- `Value::default`. -/
def default : Value I T := { values := ∅, removed := ∅ }

/-- `Value::new_with_id`. -/
def newWithId (id : I) (value : T) : Value I T :=
  { values := (∅ : BTreeMap I T).insert id value, removed := ∅ }

/-- The ids of the versions not superseded, ascending. -/
def versionIds (v : Value I T) : List I := (v.values.keys.filter (· ∉ v.removed)).sort (· ≤ ·)

/-- `versions`: the live versions with their ids. -/
def versions (v : Value I T) : List (I × T) :=
  v.versionIds.filterMap fun id => (v.values.lookup id).map (id, ·)

/-- `visible_id`: the greatest live id. -/
def visibleId (v : Value I T) : Option I := v.versionIds.getLast?

/-- `get`: the value of the greatest live id. -/
def get (v : Value I T) : Option T := v.visibleId.bind v.values.lookup

/-- `conflicts`: the live values other than the visible one. -/
def conflicts (v : Value I T) : List T :=
  (v.versionIds.filter fun id => some id ≠ v.visibleId).filterMap v.values.lookup

def isEmpty (v : Value I T) : Bool := v.visibleId.isNone

/-- `remove_observed`: supersede every version held. -/
def removeObserved (v : Value I T) : Value I T := { v with removed := v.removed ∪ v.values.keys }

/-- `set_with_id`: a retry with the same contents is a no-op and other contents are refused;
otherwise the version is added and supersedes every live version this replica has observed. -/
def setWithId (v : Value I T) (id : I) (value : T) : Except (Error I) (Value I T) :=
  match v.values.lookup id with
  | some existing => if existing = value then .ok v else .error (.divergentOperation id)
  | none =>
    let removed := if id ∈ v.removed then v.removed
      else v.removed ∪ v.values.keys.filter (· ∉ v.removed)
    .ok { values := v.values.insert id value, removed }

/-- `merge`: refuse an id the two sides hold with different values; otherwise keep this side's
versions, add the other side's (`or_insert_with`) and union the superseded ids. -/
def merge (v other : Value I T) : Except (Error I) (Value I T) :=
  match Finmap.firstConflict v.values other.values with
  | some id => .error (.divergentOperation id)
  | none => .ok { values := v.values ∪ other.values, removed := v.removed ∪ other.removed }

/-- The versions and the superseded ids. -/
def atoms (v : Value I T) : Set ((I × T) ⊕ I) := sumSet v.values.graph ↑v.removed

omit [DecidableEq T] in
theorem atoms_injective {v w : Value I T} (h : v.atoms = w.atoms) : v = w := by
  obtain ⟨hv, hr⟩ := sumSet_injective h
  cases v; cases w
  congr
  · exact Finmap.graph_injective hv
  · exact Finset.coe_injective hr

omit [DecidableEq T] in
@[simp] theorem atoms_default : (default : Value I T).atoms = ∅ := by
  ext (p | i) <;> simp [atoms, default]

omit [DecidableEq T] in
theorem atoms_removeObserved (v : Value I T) : v.atoms ⊆ v.removeObserved.atoms :=
  sumSet_subset le_rfl (by simp [removeObserved])

theorem atoms_setWithId {v w : Value I T} {id : I} {value : T} (h : v.setWithId id value = .ok w) :
    v.atoms ⊆ w.atoms := by
  unfold setWithId at h
  split at h
  · split at h
    · cases h; exact le_rfl
    · cases h
  · rename_i hnone
    cases h
    refine sumSet_subset ?_ ?_
    · rw [Finmap.graph_insert hnone]; exact Set.subset_insert _ _
    · split <;> simp

theorem atoms_merge {v o w : Value I T} (h : v.merge o = .ok w) : w.atoms = v.atoms ∪ o.atoms := by
  unfold merge at h
  split at h
  · cases h
  · rename_i hnone
    cases h
    simp only [atoms, (graph_union_of_firstConflict hnone).1, Finset.coe_union, sumSet_union]

theorem lookup_setWithId {v w : Value I T} {id : I} {value : T} (h : v.setWithId id value = .ok w) :
    w.values.lookup id = some value := by
  unfold setWithId at h
  split at h
  · rename_i existing hsome
    split at h
    · rename_i heq
      cases h
      rw [hsome, heq]
    · cases h
  · cases h
    exact Finmap.lookup_insert _

omit [DecidableEq T] in
theorem lookup_newWithId (id : I) (value : T) : (newWithId id value).values.lookup id = some value :=
  Finmap.lookup_insert _

end Value

/-! ## `Set<T>` -/

/-- `Set<T>`, the add-wins observed-remove set: every insertion keyed by operation id, and the ids
removed. -/
structure CrdtSet (I T : Type) where
  operations : BTreeMap I T
  removed : BTreeSet I

namespace CrdtSet

variable {I T : Type} [LinearOrder I] [DecidableEq T]

def default : CrdtSet I T := { operations := ∅, removed := ∅ }

/-- `insert_with_id`: `true` when the insertion is new; a retry is a no-op, a conflicting reuse of
the id is refused. -/
def insertWithId (s : CrdtSet I T) (id : I) (value : T) : Except (Error I) (Bool × CrdtSet I T) :=
  match s.operations.lookup id with
  | some existing => if existing = value then .ok (false, s) else .error (.divergentOperation id)
  | none => .ok (true, { s with operations := s.operations.insert id value })

/-- The live insertions of `value`, ascending. -/
def observedOf (s : CrdtSet I T) (value : T) : List I :=
  (s.operations.keys.sort (· ≤ ·)).filter fun id =>
    id ∉ s.removed ∧ s.operations.lookup id = some value

/-- `remove_observed`: remove every live insertion of `value`; `true` when there was one. -/
def removeObserved (s : CrdtSet I T) (value : T) : Bool × CrdtSet I T :=
  let observed := s.observedOf value
  (!observed.isEmpty, { s with removed := s.removed ∪ observed.toFinset })

/-- `remove`: `remove_observed`, recorded as an operation when something was removed. -/
def remove (s : CrdtSet I T) (value : T) : Bool × CrdtSet I T :=
  if (s.observedOf value).isEmpty then (false, s) else s.removeObserved value

/-- `contains`: some live insertion of `value`. -/
def contains (s : CrdtSet I T) (value : T) : Bool := !(s.observedOf value).isEmpty

/-- `iter`: the distinct live values, ascending. -/
def iter [LinearOrder T] (s : CrdtSet I T) : List T :=
  ((((s.operations.keys.filter (· ∉ s.removed)).sort (· ≤ ·)).filterMap
    s.operations.lookup).toFinset).sort (· ≤ ·)

/-- `merge`: refuse an id the two sides hold with different values, otherwise union both
(`extend`, the other side's entries written last). -/
def merge (s other : CrdtSet I T) : Except (Error I) (CrdtSet I T) :=
  match Finmap.firstConflict s.operations other.operations with
  | some id => .error (.divergentOperation id)
  | none => .ok { operations := other.operations ∪ s.operations, removed := s.removed ∪ other.removed }

def atoms (s : CrdtSet I T) : Set ((I × T) ⊕ I) := sumSet s.operations.graph ↑s.removed

omit [DecidableEq T] in
theorem atoms_injective {s t : CrdtSet I T} (h : s.atoms = t.atoms) : s = t := by
  obtain ⟨ho, hr⟩ := sumSet_injective h
  cases s; cases t
  congr
  · exact Finmap.graph_injective ho
  · exact Finset.coe_injective hr

omit [DecidableEq T] in
@[simp] theorem atoms_default : (default : CrdtSet I T).atoms = ∅ := by
  ext (p | i) <;> simp [atoms, default]

theorem atoms_insertWithId {s t : CrdtSet I T} {id : I} {value : T} {b : Bool}
    (h : s.insertWithId id value = .ok (b, t)) : s.atoms ⊆ t.atoms := by
  unfold insertWithId at h
  split at h
  · split at h
    · cases h; exact le_rfl
    · cases h
  · rename_i hnone
    cases h
    refine sumSet_subset ?_ le_rfl
    rw [Finmap.graph_insert hnone]; exact Set.subset_insert _ _

theorem atoms_removeObserved (s : CrdtSet I T) (value : T) :
    s.atoms ⊆ (s.removeObserved value).2.atoms :=
  sumSet_subset le_rfl (by simp [removeObserved])

theorem atoms_remove (s : CrdtSet I T) (value : T) : s.atoms ⊆ (s.remove value).2.atoms := by
  unfold remove
  split
  · exact le_rfl
  · exact atoms_removeObserved s value

theorem atoms_merge {s o t : CrdtSet I T} (h : s.merge o = .ok t) : t.atoms = s.atoms ∪ o.atoms := by
  unfold merge at h
  split at h
  · cases h
  · rename_i hnone
    cases h
    simp only [atoms, (graph_union_of_firstConflict hnone).2, Finset.coe_union, sumSet_union]

end CrdtSet

/-! ## `Counter` -/

/-- `Counter`: every contribution, keyed by operation id. -/
structure Counter (I : Type) where
  operations : BTreeMap I Int

namespace Counter

variable {I : Type} [LinearOrder I]

def default : Counter I := { operations := ∅ }

/-- `apply`: a retry with the same amount is a no-op, another amount under the id is refused. -/
def apply (c : Counter I) (id : I) (amount : Int) : Except (Error I) (Counter I) :=
  match c.operations.lookup id with
  | some existing => if existing = amount then .ok c else .error (.divergentOperation id)
  | none => .ok { operations := c.operations.insert id amount }

def incrementWithId (c : Counter I) (id : I) (amount : UInt64) : Except (Error I) (Counter I) :=
  c.apply id amount.toNat

def decrementWithId (c : Counter I) (id : I) (amount : UInt64) : Except (Error I) (Counter I) :=
  c.apply id (-amount.toNat)

def addWithId (c : Counter I) (id : I) (delta : Int64) : Except (Error I) (Counter I) :=
  c.apply id delta.toInt

/-- `u128::MAX`, the cap of the saturating sums of `value`. -/
def u128Max : Nat := 2 ^ 128 - 1

/-- `i64::MAX`. -/
def i64Max : Nat := 2 ^ 63 - 1

/-- `value`: the saturating sums of the positive and of the negative contributions, in id order,
and their difference clamped to `i64`. -/
def value (c : Counter I) : Int :=
  let amounts := (c.operations.keys.sort (· ≤ ·)).filterMap c.operations.lookup
  let (positive, negative) := amounts.foldl (fun (acc : Nat × Nat) amount =>
    if 0 ≤ amount then (min (acc.1 + amount.toNat) u128Max, acc.2)
    else (acc.1, min (acc.2 + amount.natAbs) u128Max)) (0, 0)
  if negative ≤ positive then min (positive - negative) i64Max
  else if i64Max + 1 ≤ negative - positive then -((i64Max : Int) + 1)
  else -((negative - positive : Nat) : Int)

/-- `merge`: refuse an id the two sides hold with different amounts, otherwise union both. -/
def merge (c other : Counter I) : Except (Error I) (Counter I) :=
  match Finmap.firstConflict c.operations other.operations with
  | some id => .error (.divergentOperation id)
  | none => .ok { operations := other.operations ∪ c.operations }

def atoms (c : Counter I) : Set (I × Int) := c.operations.graph

theorem atoms_injective {c d : Counter I} (h : c.atoms = d.atoms) : c = d := by
  cases c; cases d
  congr
  exact Finmap.graph_injective h

@[simp] theorem atoms_default : (default : Counter I).atoms = ∅ := by
  simp [atoms, default]

theorem atoms_apply {c d : Counter I} {id : I} {amount : Int} (h : c.apply id amount = .ok d) :
    c.atoms ⊆ d.atoms := by
  unfold apply at h
  split at h
  · split at h
    · cases h; exact le_rfl
    · cases h
  · rename_i hnone
    cases h
    simp only [atoms]
    rw [Finmap.graph_insert hnone]; exact Set.subset_insert _ _

theorem atoms_merge {c o d : Counter I} (h : c.merge o = .ok d) : d.atoms = c.atoms ∪ o.atoms := by
  unfold merge at h
  split at h
  · cases h
  · rename_i hnone
    cases h
    exact (graph_union_of_firstConflict hnone).2

end Counter

end Vos.Crdt
