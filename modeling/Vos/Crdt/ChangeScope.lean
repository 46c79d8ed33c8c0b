import Mathlib
import Vos.Lib.ByteCodec
import Vos.Lib.ExceptState
import Vos.Crdt.Basic

/-!
# vos CRDT — the change scope of an actor slice

A CRDT mutation draws its operation id from the change scope of the actor slice it runs in: the
change id of the slice and the next ordinal, `0, 1, …`, with `checked_add` refusing the ordinal
past `u32::MAX`. The scope records each mutation's operation (field tag, id, payload) in emission
order. `with_change` opens the scope, runs the slice and, when it succeeds, moves the scope into
the completed slot; `take_operations` takes that change once, checks it against the dispatch it is
reported for, and numbers the operations for the v2 batch, refusing a change whose ordinals are
not their positions. `rebind_change` restarts the scope under a new change when a suspended slice
resumes.

The execution-local state (`GuestChangeState`, or the two `thread_local` cells under `std`) is
threaded through `ExceptT Error (StateM ChangeState)`: a failed call keeps what it changed before
it failed, as the source does. Change ids are any linearly ordered type `C`, with their 32 bytes
given by `bytes`; the field tags, the v2 change and actor ids and the v2 operation ids are types
of their own, and the two hashes of the dispatch boundary (`ChangeId::for_dispatch`,
`v2::ChangeId::operation`) are arguments.

* `OpId`, `ChangeScope`, `CompletedChange`, `ChangeState`, `SliceM`;
* `beginChange`, `completeChange`, `endChange`, `withChange`, `rebindChange`,
  `resetActorSlice`, `nextOperation`, `recordOperation`, `takeOperations`;
* `operationPayload`, `encodeOpIds`, `encodeOptionalOpId`, and `emit`, the shape every public
  mutation shares;
* `Open`: the scope is open under a change, nothing is completed, and the operations recorded
  are one per ordinal drawn; `emit_open` and `rebindChange_open` keep it;
* `withChange_run`, `takeOperations_run`: the slice boundary in one step each.
-/

set_option mvcgen.warning false
set_option linter.unusedSectionVars false

open Std.Do ExceptState

namespace Vos.Crdt

/-! ## Operation ids and the slice state -/

/-- `OpId`: the change an operation belongs to and its ordinal in it; `ChangeId::operation` is
`OpId.mk`. The `u32` ordinal is a natural number: the scope never draws one past `u32Max`. -/
structure OpId (C : Type) where
  change : C
  ordinal : ℕ
  deriving Repr

namespace OpId

variable {C : Type} [LinearOrder C]

theorem toLex_injective :
    Function.Injective fun id : OpId C => toLex (id.change, id.ordinal) := by
  rintro ⟨c, n⟩ ⟨c', n'⟩ h
  simp only [toLex_inj, Prod.mk.injEq] at h
  rw [h.1, h.2]

/-- The derived `Ord`: by change, then by ordinal. -/
instance : LinearOrder (OpId C) := LinearOrder.lift' _ toLex_injective

end OpId

/-- `u32::MAX`. -/
def u32Max : ℕ := 2 ^ 32 - 1

/-- `PendingOperation`: one operation recorded in a scope. -/
structure PendingOperation (C F : Type) where
  field : F
  id : OpId C
  payload : List UInt8

/-- `ChangeScope`: the change of the slice, the next ordinal and the operations recorded. -/
structure ChangeScope (C F : Type) where
  change : C
  nextOrdinal : ℕ
  operations : List (PendingOperation C F)

/-- `CompletedChange`: the scope of a slice that succeeded. -/
structure CompletedChange (C F : Type) where
  change : C
  operations : List (PendingOperation C F)

/-- `GuestChangeState`: the active scope and the completed change. -/
structure ChangeState (C F : Type) where
  active : Option (ChangeScope C F)
  completed : Option (CompletedChange C F)

/-- A computation of the slice: it reads and writes the change state and may fail with a
`crdt::Error`. -/
abbrev SliceM (C F : Type) := ExceptT (Error (OpId C)) (StateM (ChangeState C F))

variable {C F : Type} [LinearOrder C]

/-! ## The scope -/

/-- `reset_actor_slice`: a fresh nested call starts from an empty boundary. -/
def resetActorSlice : SliceM C F Unit :=
  set ({ active := none, completed := none } : ChangeState C F)

/-- `begin_change`: refuse to nest, otherwise open an empty scope and drop the completed
change. -/
def beginChange (change : C) : SliceM C F Unit := do
  let s ← get
  if s.active.isSome then throw .nestedChangeScope
  set ({ active := some ⟨change, 0, []⟩, completed := none } : ChangeState C F)

/-- The state `complete_change` leaves: the scope, if any, moved into the completed slot. -/
def ChangeState.complete (s : ChangeState C F) : ChangeState C F :=
  match s.active with
  | none => s
  | some scope => { active := none, completed := some ⟨scope.change, scope.operations⟩ }

/-- `complete_change`. -/
def completeChange : SliceM C F Unit := modify ChangeState.complete

/-- `end_change`: close the scope. -/
def endChange : SliceM C F Unit :=
  modify fun s : ChangeState C F => { s with active := none }

/-- `with_change`: open the scope; when the slice `f` succeeds complete it; close it on either
exit (the `Reset` guard, armed only once `begin_change` succeeded). -/
def withChange {α : Type} (change : C) (f : SliceM C F α) : SliceM C F α := do
  beginChange change
  let result ← tryCatch f fun e => do
    endChange
    throw e
  completeChange
  endChange
  pure result

/-- `rebind_change_in`. -/
def rebindChangeIn (scope : Option (ChangeScope C F)) (change : C) :
    Except (Error (OpId C)) (ChangeScope C F) :=
  match scope with
  | none => .error .noChangeScope
  | some scope => .ok { scope with change, nextOrdinal := 0, operations := [] }

/-- `rebind_change`: restart the scope of a resumed slice under its new change, dropping the
operations recorded before the suspension, and drop the completed change. -/
def rebindChange (change : C) : SliceM C F Unit := do
  let s ← get
  match rebindChangeIn s.active change with
  | .error e => throw e
  | .ok scope => set ({ active := some scope, completed := none } : ChangeState C F)

/-- `next_operation_from`: the id of the next ordinal, refused when the ordinal after it would
pass `u32::MAX`. -/
def nextOperationFrom (scope : Option (ChangeScope C F)) :
    Except (Error (OpId C)) (OpId C × ChangeScope C F) :=
  match scope with
  | none => .error .noChangeScope
  | some scope =>
    let ordinal := scope.nextOrdinal
    if ordinal + 1 ≤ u32Max then .ok (⟨scope.change, ordinal⟩, { scope with nextOrdinal := ordinal + 1 })
    else .error .operationOverflow

/-- `next_operation`. -/
def nextOperation : SliceM C F (OpId C) := do
  let s ← get
  match nextOperationFrom s.active with
  | .error e => throw e
  | .ok (id, scope) =>
    set { s with active := some scope }
    pure id

/-- `record_operation_in`: refuse an id of another change, otherwise append the operation. -/
def recordOperationIn (scope : Option (ChangeScope C F)) (field : F) (id : OpId C)
    (payload : List UInt8) : Except (Error (OpId C)) (ChangeScope C F) :=
  match scope with
  | none => .error .noChangeScope
  | some scope =>
    if id.change ≠ scope.change then .error .changeMismatch
    else .ok { scope with operations := scope.operations ++ [⟨field, id, payload⟩] }

/-- `record_operation`. -/
def recordOperation (field : F) (id : OpId C) (payload : List UInt8) : SliceM C F Unit := do
  let s ← get
  match recordOperationIn s.active field id payload with
  | .error e => throw e
  | .ok scope => set { s with active := some scope }

/-! ## The v2 boundary -/

/-- `CrdtDispatchV2`: the v2 change of the batch and the actor's dispatch ordinal in it. -/
structure CrdtDispatchV2 (D : Type) where
  change : D
  ordinal : ℕ

/-- `CrdtOperationV2`: one operation as the batch reports it. -/
structure CrdtOperationV2 (A F O : Type) where
  actor : A
  dispatchOrdinal : ℕ
  field : F
  ordinal : ℕ
  id : O
  payload : List UInt8

section Take

variable {D A O : Type} (forDispatch : D → A → ℕ → C) (operation : D → A → ℕ → F → ℕ → O)

/-- The report of one recorded operation for `dispatch`. -/
def toV2 (actor : A) (dispatch : CrdtDispatchV2 D) (op : PendingOperation C F) :
    CrdtOperationV2 A F O :=
  { actor, dispatchOrdinal := dispatch.ordinal, field := op.field, ordinal := op.id.ordinal,
    id := operation dispatch.change actor dispatch.ordinal op.field op.id.ordinal,
    payload := op.payload }

/-- `take_operations`: take the completed change (it is gone whatever follows), check that it is
the scoped change of `dispatch`, and report its operations in emission order, each numbered by
its ordinal, refusing the change unless every ordinal is its position. -/
def takeOperations (actor : A) (dispatch : CrdtDispatchV2 D) :
    SliceM C F (List (CrdtOperationV2 A F O)) := do
  let s ← get
  set { s with completed := none }
  let some completed := s.completed | throw .noCompletedChange
  if completed.change ≠ forDispatch dispatch.change actor dispatch.ordinal then
    throw .changeMismatch
  let operations := completed.operations.map (toV2 operation actor dispatch)
  if operations.zipIdx.any fun (op, ordinal) => op.ordinal ≠ ordinal then throw .changeMismatch
  pure operations

end Take

/-! ## Payloads -/

/-- `operation_payload`: the tag, the number of parts as a `u32`, then each part after its
length as a `u64`. -/
def operationPayload (tag : UInt8) (parts : List (List UInt8)) : List UInt8 :=
  tag :: (ByteCodec.le 4 parts.length ++ parts.flatMap fun part => ByteCodec.le 8 part.length ++ part)

section Encode

variable (bytes : C → List UInt8)

/-- `encode_op_ids`: the count as a `u32`, then each id's change bytes and `u32` ordinal. -/
def encodeOpIds (ids : List (OpId C)) : List UInt8 :=
  ByteCodec.le 4 ids.length ++ ids.flatMap fun id => bytes id.change ++ ByteCodec.le 4 id.ordinal

/-- `encode_optional_op_id`. -/
def encodeOptionalOpId : Option (OpId C) → List UInt8
  | some id => 1 :: (bytes id.change ++ ByteCodec.le 4 id.ordinal)
  | none => [0]

end Encode

/-- The shape every public mutation shares: draw the next id, apply the mutation under it (its
`*_with_id` form, which also gives the payload), and record the operation. -/
def emit {α : Type} (field : F) (apply : OpId C → Except (Error (OpId C)) (α × List UInt8)) :
    SliceM C F α := do
  let id ← nextOperation
  match apply id with
  | .error e => throw e
  | .ok (a, payload) =>
    recordOperation field id payload
    pure a

/-! ## The scope invariant -/

/-- The ids a scope of `change` has drawn once its next ordinal is `n`. -/
def drawn (change : C) (n : ℕ) : List (OpId C) := (List.range n).map (OpId.mk change)

theorem drawn_succ (change : C) (n : ℕ) :
    drawn change (n + 1) = drawn change n ++ [⟨change, n⟩] := by
  simp [drawn, List.range_succ]

/-- The operations recorded are one for each id drawn, in the order drawn. -/
def ChangeScope.Dense (scope : ChangeScope C F) : Prop :=
  scope.operations.map (·.id) = drawn scope.change scope.nextOrdinal

/-- The slice is open under `c`: its scope is dense and no change is completed. -/
structure Open (c : C) (s : ChangeState C F) : Prop where
  completed : s.completed = none
  active : ∃ scope, s.active = some scope ∧ scope.change = c ∧ scope.Dense

/-- No change is completed. -/
def Uncompleted (s : ChangeState C F) : Prop := s.completed = none

theorem Open.fresh (c : C) : Open c (⟨some ⟨c, 0, []⟩, none⟩ : ChangeState C F) :=
  ⟨rfl, _, rfl, rfl, rfl⟩

theorem Open.uncompleted {c : C} {s : ChangeState C F} (h : Open c s) : Uncompleted s :=
  h.completed

theorem ChangeScope.Dense.length {scope : ChangeScope C F} (h : scope.Dense) :
    scope.operations.length = scope.nextOrdinal := by
  simpa [drawn] using congrArg List.length h

theorem ChangeScope.Dense.ordinals {scope : ChangeScope C F} (h : scope.Dense) :
    scope.operations.map (·.id.ordinal) = List.range scope.operations.length := by
  have hmap := congrArg (List.map OpId.ordinal) h
  simpa [drawn, h.length, Function.comp_def] using hmap

theorem ChangeScope.Dense.record {scope : ChangeScope C F} (h : scope.Dense) (field : F)
    (payload : List UInt8) :
    ChangeScope.Dense { scope with
      nextOrdinal := scope.nextOrdinal + 1,
      operations := scope.operations ++ [⟨field, ⟨scope.change, scope.nextOrdinal⟩, payload⟩] } := by
  simp only [ChangeScope.Dense, List.map_append, List.map_cons, List.map_nil] at h ⊢
  rw [h, drawn_succ]

theorem nextOperationFrom_eq_ok {scope : Option (ChangeScope C F)} {id : OpId C}
    {scope' : ChangeScope C F} (h : nextOperationFrom scope = .ok (id, scope')) :
    ∃ sc, scope = some sc ∧ id = ⟨sc.change, sc.nextOrdinal⟩ ∧
      scope' = { sc with nextOrdinal := sc.nextOrdinal + 1 } := by
  unfold nextOperationFrom at h
  split at h
  · cases h
  · rename_i sc
    dsimp only at h
    split at h
    · cases h
      exact ⟨sc, rfl, rfl, rfl⟩
    · cases h

theorem recordOperationIn_eq_ok {scope : Option (ChangeScope C F)} {field : F} {id : OpId C}
    {payload : List UInt8} {scope' : ChangeScope C F}
    (h : recordOperationIn scope field id payload = .ok scope') :
    ∃ sc, scope = some sc ∧ id.change = sc.change ∧
      scope' = { sc with operations := sc.operations ++ [⟨field, id, payload⟩] } := by
  unfold recordOperationIn at h
  split at h
  · cases h
  · rename_i sc
    split at h
    · cases h
    · cases h
      exact ⟨sc, rfl, of_not_not ‹_›, rfl⟩

theorem nextOperation_run {s : ChangeState C F} {scope : ChangeScope C F}
    (hs : s.active = some scope) (hroom : scope.nextOrdinal + 1 ≤ u32Max) :
    (nextOperation : SliceM C F (OpId C)).run.run s =
      (.ok ⟨scope.change, scope.nextOrdinal⟩,
        { s with active := some { scope with nextOrdinal := scope.nextOrdinal + 1 } }) := by
  rw [nextOperation, run_bind, run_get]
  simp [nextOperationFrom, hs, hroom]
  rfl

theorem recordOperation_run {s : ChangeState C F} {scope : ChangeScope C F} (field : F)
    {id : OpId C} (payload : List UInt8) (hs : s.active = some scope)
    (hc : id.change = scope.change) :
    (recordOperation field id payload).run.run s =
      (.ok (), { s with
        active := some { scope with operations := scope.operations ++ [⟨field, id, payload⟩] } }) := by
  rw [recordOperation, run_bind, run_get]
  simp [recordOperationIn, hs, hc]

/-- `emit` from a scope with room for one more ordinal: the id drawn is the next ordinal, and the
operation is recorded when the mutation succeeds under it. -/
theorem emit_run {α : Type} (field : F) (apply : OpId C → Except (Error (OpId C)) (α × List UInt8))
    {s : ChangeState C F} {scope : ChangeScope C F} (hs : s.active = some scope)
    (hroom : scope.nextOrdinal + 1 ≤ u32Max) :
    (emit field apply).run.run s =
      match apply ⟨scope.change, scope.nextOrdinal⟩ with
      | .ok (a, payload) => (.ok a, { s with active := some { scope with
          nextOrdinal := scope.nextOrdinal + 1,
          operations := scope.operations ++ [⟨field, ⟨scope.change, scope.nextOrdinal⟩, payload⟩] } })
      | .error e => (.error e,
          { s with active := some { scope with nextOrdinal := scope.nextOrdinal + 1 } }) := by
  rw [emit, run_bind, nextOperation_run hs hroom]
  dsimp only
  rcases apply ⟨scope.change, scope.nextOrdinal⟩ with e | ⟨a, payload⟩
  · rfl
  · dsimp only
    rw [run_bind, recordOperation_run field payload rfl rfl]
    rfl

/-- **Every public mutation keeps the slice open**: when it succeeds it has recorded exactly the
one id it drew; when it fails nothing is completed. -/
@[spec] theorem emit_open {α : Type} (c : C) (field : F)
    (apply : OpId C → Except (Error (OpId C)) (α × List UInt8)) :
    Hoare (Open c) (emit field apply) (fun _ => Open c) (fun _ => Uncompleted) := by
  mvcgen [emit, nextOperation, recordOperation]
  case vc1.h_1 | vc2.h_2.h_1 | vc3.h_2.h_2.h_1 =>
    simp only [Uncompleted]
    exact ‹Open c _›.completed
  case vc4.h_2.h_2.h_2 s hs id sc₁ hnext _ payload _ sc₂ hrec =>
    obtain ⟨sc, hsc, rfl, rfl⟩ := nextOperationFrom_eq_ok hnext
    obtain ⟨_, hsome, -, rfl⟩ := recordOperationIn_eq_ok hrec
    cases hsome
    obtain ⟨scope, hact, hchange, hdense⟩ := hs.active
    rw [hsc] at hact
    cases hact
    exact ⟨hs.completed, _, rfl, hchange, hdense.record _ _⟩

/-! ## The slice boundary -/

theorem beginChange_run (c : C) (s : ChangeState C F) :
    (beginChange c : SliceM C F Unit).run.run s =
      if s.active.isSome then (.error .nestedChangeScope, s)
      else (.ok (), ⟨some ⟨c, 0, []⟩, none⟩) := by
  rw [beginChange, run_bind]
  by_cases h : s.active.isSome <;> simp [h]
  rfl

/-- `with_change` in one step: a nested call fails and changes nothing; otherwise the slice runs
from an empty scope, and on either exit the scope is closed, completed first when the slice
succeeded. -/
theorem withChange_run {α : Type} (c : C) (f : SliceM C F α) (s : ChangeState C F) :
    (withChange c f).run.run s =
      if s.active.isSome then (.error .nestedChangeScope, s)
      else
        match f.run.run ⟨some ⟨c, 0, []⟩, none⟩ with
        | (.ok r, s') => (.ok r, { s'.complete with active := none })
        | (.error e, s') => (.error e, { s' with active := none }) := by
  rw [withChange, run_bind, beginChange_run]
  by_cases h : s.active.isSome
  · simp only [h, if_true]
  · simp only [h, Bool.false_eq_true, if_false, run_bind, run_tryCatch]
    rcases f.run.run ⟨some ⟨c, 0, []⟩, none⟩ with ⟨e | r, s'⟩ <;> rfl

/-- A list whose `i`-th element has ordinal `i` passes the positional check of
`take_operations`. -/
theorem zipIdx_any_ne_eq_false {β : Type} {l : List β} {f : β → ℕ}
    (h : l.map f = List.range l.length) : (l.zipIdx.any fun p => f p.1 ≠ p.2) = false := by
  rw [List.any_eq_false]
  rintro ⟨x, i⟩ hx
  have hi : l[i]? = some x := List.mem_zipIdx_iff_getElem?.mp hx
  have hlt : i < l.length := (List.getElem?_eq_some_iff.mp hi).1
  have hfi := congrArg (·[i]?) h
  simp only [List.getElem?_map, hi, List.getElem?_range hlt, Option.map_some, Option.some.injEq]
    at hfi
  simp [hfi]

section Report

variable {D A O : Type} (forDispatch : D → A → ℕ → C) (operation : D → A → ℕ → F → ℕ → O)

theorem takeOperations_run_of_none (actor : A) (dispatch : CrdtDispatchV2 D) {s : ChangeState C F}
    (hs : s.completed = none) :
    (takeOperations forDispatch operation actor dispatch).run.run s =
      (.error .noCompletedChange, { s with completed := none }) := by
  simp [takeOperations, -ExceptT.run_bind, run_bind, hs]
  rfl

theorem takeOperations_run_of_dense (actor : A) (dispatch : CrdtDispatchV2 D)
    {s : ChangeState C F} {completed : CompletedChange C F} (hs : s.completed = some completed)
    (hc : completed.change = forDispatch dispatch.change actor dispatch.ordinal)
    (hd : completed.operations.map (·.id.ordinal) = List.range completed.operations.length) :
    (takeOperations forDispatch operation actor dispatch).run.run s =
      (.ok (completed.operations.map (toV2 operation actor dispatch)), { s with completed := none }) := by
  have hcheck := zipIdx_any_ne_eq_false (l := completed.operations.map (toV2 operation actor dispatch))
    (f := (·.ordinal)) (by simpa [toV2, Function.comp_def] using hd)
  simp only [takeOperations, run_bind, run_get, run_set, hs, hc, ne_eq, not_true_eq_false,
    if_false]
  rw [if_neg (by simpa using hcheck)]
  rfl

/-- **A slice reports exactly the operations it recorded.** Take any slice that keeps the scope
open (as every public mutation does, `emit_open`) and ends under the scoped change of `dispatch`.
When it succeeds, `with_change` returns its result with its scope completed, and
`take_operations` reports the operations it recorded, in emission order, the `i`-th under id
`(change, i)`, and leaves the slot empty; when it fails, `with_change` returns its error with
nothing completed, and `take_operations` finds no change. -/
theorem withChange_takeOperations {α : Type} (actor : A) (dispatch : CrdtDispatchV2 D) (c : C)
    (f : SliceM C F α)
    (hf : Hoare (Open c) f (fun _ => Open (forDispatch dispatch.change actor dispatch.ordinal))
      (fun _ => Uncompleted))
    (s : ChangeState C F) (hs : s.active = none) :
    match f.run.run ⟨some ⟨c, 0, []⟩, none⟩ with
    | (.ok r, s') => ∃ scope, s'.active = some scope ∧
        scope.operations.map (·.id) =
          drawn (forDispatch dispatch.change actor dispatch.ordinal) scope.operations.length ∧
        (withChange c f).run.run s = (.ok r, ⟨none, some ⟨scope.change, scope.operations⟩⟩) ∧
        (takeOperations forDispatch operation actor dispatch).run.run
            ⟨none, some ⟨scope.change, scope.operations⟩⟩ =
          (.ok (scope.operations.map (toV2 operation actor dispatch)), ⟨none, none⟩)
    | (.error e, _) => (withChange c f).run.run s = (.error e, ⟨none, none⟩) ∧
        (takeOperations forDispatch operation actor dispatch).run.run ⟨none, none⟩ =
          (.error .noCompletedChange, ⟨none, none⟩) := by
  have hrun := run_of_hoare hf _ (Open.fresh c)
  have hnone : (takeOperations forDispatch operation actor dispatch).run.run
      (⟨none, none⟩ : ChangeState C F) = (.error .noCompletedChange, ⟨none, none⟩) :=
    takeOperations_run_of_none forDispatch operation actor dispatch rfl
  rw [withChange_run, if_neg (by simp [hs])]
  rcases hfr : f.run.run ⟨some ⟨c, 0, []⟩, none⟩ with ⟨e | r, s'⟩ <;> rw [hfr] at hrun
  · -- the slice failed: it completed nothing, and the scope is closed
    have hs' : s'.completed = none := hrun
    simp [hs', hnone]
  · -- the slice succeeded open: its dense scope is completed under the dispatch's change
    obtain ⟨hcomp, scope, hscope, hchange, hdense⟩ := hrun
    have hlen := hdense.length
    refine ⟨scope, hscope, ?_, ?_, ?_⟩
    · rw [hlen, ← hchange]
      exact hdense
    · simp [ChangeState.complete, hscope]
    · exact takeOperations_run_of_dense forDispatch operation actor dispatch
        (s := ⟨none, some ⟨scope.change, scope.operations⟩⟩) rfl hchange hdense.ordinals

end Report

/-- A slice of two operations on two fields: a write under the first id, and the removal of what
it wrote under the second. -/
def writeThenRemove : SliceM ℕ ℕ (Finmap fun _ : ℕ => ℕ) := do
  let m ← emit 0 fun _ => .ok ((∅ : Finmap fun _ : ℕ => ℕ).insert 1 5, [1, 5])
  emit 1 fun _ => .ok (m.erase 1, [2, 1])

theorem withChange_takeOperations_two_ops :
    Hoare (Open 3) writeThenRemove (fun _ => Open 3) (fun _ => Uncompleted) ∧
      (⟨none, none⟩ : ChangeState ℕ ℕ).active = none ∧
      match writeThenRemove.run.run ⟨some ⟨3, 0, []⟩, none⟩ with
      | (.ok r, s') => ∃ scope, s'.active = some scope ∧
          scope.operations.map (·.id) = drawn 3 scope.operations.length ∧
          (withChange 3 writeThenRemove).run.run ⟨none, none⟩ =
            (.ok r, ⟨none, some ⟨scope.change, scope.operations⟩⟩) ∧
          (takeOperations (fun d _ _ => d) (fun _ _ _ _ i => i) (0 : ℕ)
              (⟨3, 0⟩ : CrdtDispatchV2 ℕ)).run.run ⟨none, some ⟨scope.change, scope.operations⟩⟩ =
            (.ok (scope.operations.map (toV2 (fun _ _ _ _ i => i) (0 : ℕ) ⟨3, 0⟩)), ⟨none, none⟩)
      | (.error e, _) =>
          (withChange 3 writeThenRemove).run.run ⟨none, none⟩ = (.error e, ⟨none, none⟩) ∧
          (takeOperations (fun d _ _ => d) (fun _ _ _ _ i => i) (0 : ℕ)
              (⟨3, 0⟩ : CrdtDispatchV2 ℕ)).run.run (⟨none, none⟩ : ChangeState ℕ ℕ) =
            (.error .noCompletedChange, ⟨none, none⟩) := by
  -- each operation is one `emit`
  have hslice : Hoare (Open 3) writeThenRemove (fun _ => Open 3) (fun _ => Uncompleted) := by
    mvcgen [writeThenRemove]
  exact ⟨hslice, rfl, withChange_takeOperations (fun d _ _ => d) (fun _ _ _ _ i => i) 0 ⟨3, 0⟩ 3
    writeThenRemove hslice ⟨none, none⟩ rfl⟩

end Vos.Crdt
