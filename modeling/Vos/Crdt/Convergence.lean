import Vos.Crdt.Map
import Vos.Crdt.Sequence
import Vos.Lib.Replicated

/-!
# Strong eventual consistency of the vos CRDT fields

Each field type of `vos::crdt`, with its public mutations and its `merge`, is a
`Replicated.ReplicatedType`: a mutation is the `*_with_id` form with the operation id the change
scope would hand out, and the value a mutation returns (`Set::insert`'s flag, `List::remove`'s
element) is dropped. Each is lawful over its atoms, so by `ReplicatedType.state_eq_of_inc_eq`
any two replicas that incorporated the same mutations, in whatever order of operations and merges,
hold equal fields, and hence equal views. The proof needs no assumption that operation ids are
distinct: a reused id is either a no-op retry or refused.

* `CounterOp`, `ValueOp`, `SetOp`, `MapOp`, `ListOp`, `TextOp`, each with its `apply`;
* `counterType`, `valueType`, `setType`, `mapType`, `listType`, `textType` and their laws;
* **`fields_converge`**: strong eventual consistency of all six.
-/

namespace Vos.Crdt

open Replicated

/-- A mutation whose result pairs a returned value with the new state succeeded with that
state. -/
theorem exists_of_map_snd_eq_ok {ε α β : Type} {x : Except ε (α × β)} {b : β}
    (h : Prod.snd <$> x = .ok b) : ∃ a, x = .ok (a, b) := by
  cases x with
  | error e => cases h
  | ok p =>
    cases h
    exact ⟨p.1, rfl⟩

/-! ## Counter -/

/-- A mutation of a `Counter`. -/
inductive CounterOp (I : Type)
  | increment (id : I) (amount : UInt64)
  | decrement (id : I) (amount : UInt64)
  | add (id : I) (delta : Int64)

namespace CounterOp

variable {I : Type} [LinearOrder I]

def apply (c : Counter I) : CounterOp I → Except (Error I) (Counter I)
  | increment id amount => c.incrementWithId id amount
  | decrement id amount => c.decrementWithId id amount
  | add id delta => c.addWithId id delta

theorem atoms_apply {c d : Counter I} {o : CounterOp I} (h : apply c o = .ok d) :
    c.atoms ⊆ d.atoms := by
  cases o <;> exact Counter.atoms_apply h

end CounterOp

def counterType (I : Type) [LinearOrder I] :
    ReplicatedType (Counter I) (CounterOp I) (Error I) (I × Int) where
  init := Counter.default
  apply := CounterOp.apply
  merge := Counter.merge
  atoms := Counter.atoms

theorem counterType_lawful {I : Type} [LinearOrder I] : (counterType I).Lawful fun _ => True :=
  .of_injective Counter.atoms_default CounterOp.atoms_apply Counter.atoms_merge
    fun _ _ => Counter.atoms_injective

/-! ## Value -/

/-- A mutation of a `Value<T>`: `set`. -/
inductive ValueOp (I T : Type)
  | set (id : I) (value : T)

namespace ValueOp

variable {I T : Type} [LinearOrder I] [DecidableEq T]

def apply (v : Value I T) : ValueOp I T → Except (Error I) (Value I T)
  | set id value => v.setWithId id value

theorem atoms_apply {v w : Value I T} {o : ValueOp I T} (h : apply v o = .ok w) :
    v.atoms ⊆ w.atoms := by
  cases o
  exact Value.atoms_setWithId h

end ValueOp

def valueType (I T : Type) [LinearOrder I] [DecidableEq T] :
    ReplicatedType (Value I T) (ValueOp I T) (Error I) ((I × T) ⊕ I) where
  init := Value.default
  apply := ValueOp.apply
  merge := Value.merge
  atoms := Value.atoms

theorem valueType_lawful {I T : Type} [LinearOrder I] [DecidableEq T] :
    (valueType I T).Lawful fun _ => True :=
  .of_injective Value.atoms_default ValueOp.atoms_apply Value.atoms_merge
    fun _ _ => Value.atoms_injective

/-! ## Set -/

/-- A mutation of a `Set<T>`. -/
inductive SetOp (I T : Type)
  | insert (id : I) (value : T)
  | remove (value : T)
  | removeObserved (value : T)

namespace SetOp

variable {I T : Type} [LinearOrder I] [DecidableEq T]

def apply (s : CrdtSet I T) : SetOp I T → Except (Error I) (CrdtSet I T)
  | insert id value => Prod.snd <$> s.insertWithId id value
  | remove value => .ok (s.remove value).2
  | removeObserved value => .ok (s.removeObserved value).2

theorem atoms_apply {s t : CrdtSet I T} {o : SetOp I T} (h : apply s o = .ok t) :
    s.atoms ⊆ t.atoms := by
  cases o with
  | insert id value =>
    obtain ⟨_, h⟩ := exists_of_map_snd_eq_ok h
    exact CrdtSet.atoms_insertWithId h
  | remove value =>
    cases h
    exact CrdtSet.atoms_remove s value
  | removeObserved value =>
    cases h
    exact CrdtSet.atoms_removeObserved s value

end SetOp

def setType (I T : Type) [LinearOrder I] [DecidableEq T] :
    ReplicatedType (CrdtSet I T) (SetOp I T) (Error I) ((I × T) ⊕ I) where
  init := CrdtSet.default
  apply := SetOp.apply
  merge := CrdtSet.merge
  atoms := CrdtSet.atoms

theorem setType_lawful {I T : Type} [LinearOrder I] [DecidableEq T] :
    (setType I T).Lawful fun _ => True :=
  .of_injective CrdtSet.atoms_default SetOp.atoms_apply CrdtSet.atoms_merge
    fun _ _ => CrdtSet.atoms_injective

/-! ## Map -/

/-- A mutation of a `Map<K, V>`. -/
inductive MapOp (I K V : Type)
  | insert (id : I) (key : K) (value : V)
  | remove (key : K)

namespace MapOp

variable {I K V : Type} [LinearOrder I] [LinearOrder K] [DecidableEq V]

def apply (m : Map I K V) : MapOp I K V → Except (Error I) (Map I K V)
  | insert id key value => m.insertWithId id key value
  | remove key => .ok (m.remove key).2

theorem atoms_apply {m n : Map I K V} {o : MapOp I K V} (h : apply m o = .ok n) :
    m.atoms ⊆ n.atoms := by
  cases o with
  | insert id key value => exact Map.atoms_insertWithId h
  | remove key =>
    cases h
    exact Map.atoms_remove m key

theorem wf_apply {m n : Map I K V} {o : MapOp I K V} (hm : m.Wf) (h : apply m o = .ok n) :
    n.Wf := by
  cases o with
  | insert id key value => exact Map.wf_insertWithId hm h
  | remove key =>
    cases h
    exact Map.wf_remove hm key

end MapOp

def mapType (I K V : Type) [LinearOrder I] [LinearOrder K] [DecidableEq V] :
    ReplicatedType (Map I K V) (MapOp I K V) (Error I) ((K × ((I × V) ⊕ I)) ⊕ (I × K)) where
  init := Map.default
  apply := MapOp.apply
  merge := Map.merge
  atoms := Map.atoms

/-- A map is lawful over the maps whose every register holds a version; an empty register would
have no atom to tell it from an absent key. -/
theorem mapType_lawful {I K V : Type} [LinearOrder I] [LinearOrder K] [DecidableEq V] :
    (mapType I K V).Lawful Map.Wf where
  wf_init := Map.wf_default
  wf_apply := MapOp.wf_apply
  wf_merge := Map.wf_merge
  atoms_init := Map.atoms_default
  atoms_apply := MapOp.atoms_apply
  atoms_merge := Map.atoms_merge
  atoms_inj := Map.atoms_injective

/-! ## List and Text -/

/-- A mutation of a `List<T>`. -/
inductive ListOp (I T : Type)
  | push (id : I) (value : T)
  | insert (index : Nat) (id : I) (value : T)
  | remove (index : Nat)

namespace ListOp

variable {I T : Type} [LinearOrder I] [DecidableEq T]

def apply (l : CrdtList I T) : ListOp I T → Except (Error I) (CrdtList I T)
  | push id value => l.pushWithId id value
  | insert index id value => l.insertWithId index id value
  | remove index => Prod.snd <$> l.remove index

theorem atoms_apply {l m : CrdtList I T} {o : ListOp I T} (h : apply l o = .ok m) :
    l.atoms ⊆ m.atoms := by
  cases o with
  | push id value => exact CrdtList.atoms_pushWithId h
  | insert index id value => exact CrdtList.atoms_insertWithId h
  | remove index =>
    obtain ⟨_, h⟩ := exists_of_map_snd_eq_ok h
    exact CrdtList.atoms_remove h

end ListOp

def listType (I T : Type) [LinearOrder I] [DecidableEq T] :
    ReplicatedType (CrdtList I T) (ListOp I T) (Error I) ((I × ListElement I T) ⊕ I) where
  init := CrdtList.default
  apply := ListOp.apply
  merge := CrdtList.merge
  atoms := CrdtList.atoms

theorem listType_lawful {I T : Type} [LinearOrder I] [DecidableEq T] :
    (listType I T).Lawful fun _ => True :=
  .of_injective CrdtList.atoms_default ListOp.atoms_apply CrdtList.atoms_merge
    fun _ _ => CrdtList.atoms_injective

/-- A mutation of a `Text`: `insert` with the ids its characters draw, `insert_with_change`,
`delete`. -/
inductive TextOp (I : Type)
  | insert (index : Nat) (text : List (I × Char))
  | insertWithChange (index : Nat) (operation : Nat → I) (text : List Char)
  | delete (index count : Nat)

namespace TextOp

variable {I : Type} [LinearOrder I]

def apply (t : Text I) : TextOp I → Except (Error I) (Text I)
  | insert index text => t.insert index text
  | insertWithChange index operation text => t.insertWithChange index operation text
  | delete index count => t.delete index count

theorem atoms_apply {t u : Text I} {o : TextOp I} (h : apply t o = .ok u) : t.atoms ⊆ u.atoms := by
  cases o with
  | insert index text => exact Text.atoms_insert h
  | insertWithChange index operation text => exact Text.atoms_insertWithChange h
  | delete index count => exact Text.atoms_delete h

end TextOp

def textType (I : Type) [LinearOrder I] :
    ReplicatedType (Text I) (TextOp I) (Error I) ((I × ListElement I Char) ⊕ I) where
  init := Text.default
  apply := TextOp.apply
  merge := Text.merge
  atoms := Text.atoms

theorem textType_lawful {I : Type} [LinearOrder I] : (textType I).Lawful fun _ => True :=
  .of_injective Text.atoms_default TextOp.atoms_apply Text.atoms_merge
    fun _ _ => Text.atoms_injective

/-! ## Convergence -/

section

variable {R : Type} [DecidableEq R]

/-- Two replicas of `T` that incorporated the same operations in a run hold the same state. -/
def Converges {σ Op ε A : Type} (T : ReplicatedType σ Op ε A) : Prop :=
  ∀ (evs : List (Event R Op)) (r₁ r₂ : R),
    (T.run evs).inc r₁ = (T.run evs).inc r₂ → (T.run evs).state r₁ = (T.run evs).state r₂

/-- **Strong eventual consistency** of `Counter`, `Value<T>`, `Set<T>`, `Map<K, V>`, `List<T>`
and `Text`: over any set of replicas and any schedule of mutations and merges, two replicas that
incorporated the same mutations hold equal fields. -/
theorem fields_converge (I K V T : Type) [LinearOrder I] [LinearOrder K] [DecidableEq V]
    [DecidableEq T] :
    Converges (R := R) (counterType I) ∧ Converges (R := R) (valueType I T) ∧
      Converges (R := R) (setType I T) ∧ Converges (R := R) (mapType I K V) ∧
      Converges (R := R) (listType I T) ∧ Converges (R := R) (textType I) :=
  ⟨fun evs _ _ => ReplicatedType.state_eq_of_inc_eq counterType_lawful evs,
    fun evs _ _ => ReplicatedType.state_eq_of_inc_eq valueType_lawful evs,
    fun evs _ _ => ReplicatedType.state_eq_of_inc_eq setType_lawful evs,
    fun evs _ _ => ReplicatedType.state_eq_of_inc_eq mapType_lawful evs,
    fun evs _ _ => ReplicatedType.state_eq_of_inc_eq listType_lawful evs,
    fun evs _ _ => ReplicatedType.state_eq_of_inc_eq textType_lawful evs⟩

end

end Vos.Crdt
