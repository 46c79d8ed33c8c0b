import Mathlib
import Vos.Crdt.ChangeScope
import Vos.Crdt.Map
import Vos.Crdt.Sequence

/-!
# vos CRDT — the public mutations, inside an actor slice

The public mutations of the field types (`Value::set`, `Map::insert`, `Set::remove`,
`Text::insert`, `Counter::add`, …) draw their operation ids from the change scope and record
one operation per id drawn; the effect on the field is the `*_with_id` form (`Vos.Crdt.Basic`,
`Vos.Crdt.Map`, `Vos.Crdt.Sequence`) under the id drawn. Each is `emit` applied to its own
mutation and payload, after the checks it makes before drawing. The field's runtime tag and the
encoding of keys and values (`crate::Encode`) are arguments; the mutations live in the namespace
`Slice`, beside the id-taking models of the same name.

* `Slice.Value.set`, `Slice.Map.insert`, `Slice.Map.remove`, `Slice.CrdtSet.insert`,
  `Slice.CrdtSet.remove`, `Slice.CrdtList.push`, `Slice.CrdtList.insert`,
  `Slice.CrdtList.remove`, `Slice.Text.insert`, `Slice.Text.delete`, `Slice.Counter.increment`,
  `Slice.Counter.decrement`, `Slice.Counter.add`;
* one `Open` specification for each: a mutation that succeeds has recorded one operation for each
  id it drew;
* **`Slice.Text.insert_refines`**: `Text::insert` in a slice inserts the characters exactly as the
  id-taking model does with the ids drawn for them, one after another.
-/

set_option mvcgen.warning false

open Std.Do ExceptState

namespace Vos.Crdt

namespace Slice

variable {C F : Type} [LinearOrder C] (bytes : C → List UInt8) (field : F)

/-- `(x as i128).to_le_bytes()`: the 16 bytes of `x` in two's complement. -/
def i128Bytes (x : ℤ) : List UInt8 := ByteCodec.le 16 (x % 2 ^ 128).toNat

/-- `Value::set`: the live versions it supersedes and the value. -/
def Value.set {T : Type} [DecidableEq T] (encode : T → List UInt8) (v : Value (OpId C) T)
    (value : T) : SliceM C F (Value (OpId C) T) :=
  emit field fun id =>
    (·, operationPayload 0 [encodeOpIds bytes v.versionIds, encode value]) <$> v.setWithId id value

/-- `Map::insert`: the versions of the key it supersedes, the key and the value. -/
def Map.insert {K V : Type} [LinearOrder K] [DecidableEq V] (encodeKey : K → List UInt8)
    (encodeValue : V → List UInt8) (m : Map (OpId C) K V) (key : K) (value : V) :
    SliceM C F (Map (OpId C) K V) :=
  emit field fun id =>
    let observed := ((m.entries.lookup key).map fun v => v.versions.map Prod.fst).getD []
    (·, operationPayload 1 [encodeOpIds bytes observed, encodeKey key, encodeValue value]) <$>
      m.insertWithId id key value

/-- `Map::remove`: nothing is drawn when the key has no live version; otherwise the versions
removed and the key. -/
def Map.remove {K V : Type} [LinearOrder K] [DecidableEq V] (encodeKey : K → List UInt8)
    (m : Map (OpId C) K V) (key : K) : SliceM C F (Bool × Map (OpId C) K V) :=
  match m.entries.lookup key with
  | none => pure (false, m)
  | some value =>
    let observed := value.versions.map Prod.fst
    if observed.isEmpty then pure (false, m)
    else emit field fun _ =>
      .ok (m.remove key, operationPayload 2 [encodeOpIds bytes observed, encodeKey key])

/-- `Set::insert`: the value. -/
def CrdtSet.insert {T : Type} [DecidableEq T] (encode : T → List UInt8)
    (s : CrdtSet (OpId C) T) (value : T) : SliceM C F (Bool × CrdtSet (OpId C) T) :=
  emit field fun id => (·, operationPayload 3 [encode value]) <$> s.insertWithId id value

/-- `Set::remove`: nothing is drawn when no live insertion holds the value; otherwise the
insertions removed and the value. -/
def CrdtSet.remove {T : Type} [DecidableEq T] (encode : T → List UInt8)
    (s : CrdtSet (OpId C) T) (value : T) : SliceM C F (Bool × CrdtSet (OpId C) T) :=
  let observed := s.observedOf value
  if observed.isEmpty then pure (false, s)
  else emit field fun _ =>
    .ok (s.remove value, operationPayload 4 [encodeOpIds bytes observed, encode value])

/-- `List::push`: the anchor (the last element of the order) and the value. -/
def CrdtList.push {T : Type} [DecidableEq T] (encode : T → List UInt8)
    (l : CrdtList (OpId C) T) (value : T) : SliceM C F (CrdtList (OpId C) T) :=
  let after := l.orderedIds.getLast?
  emit field fun id =>
    (·, operationPayload 5 [encodeOptionalOpId bytes after, encode value]) <$>
      l.insertAfterWithId id after value

/-- `List::insert`: refused past the end before anything is drawn; the anchor and the value. -/
def CrdtList.insert {T : Type} [DecidableEq T] (encode : T → List UInt8)
    (l : CrdtList (OpId C) T) (index : ℕ) (value : T) : SliceM C F (CrdtList (OpId C) T) :=
  let visible := l.visibleIds
  if visible.length < index then throw .indexOutOfBounds
  else
    let after := CrdtList.anchorAt visible index
    emit field fun id =>
      (·, operationPayload 5 [encodeOptionalOpId bytes after, encode value]) <$>
        l.insertAfterWithId id after value

/-- `List::remove`: refused past the end before anything is drawn; the element removed. Its value
is looked up after the id is drawn. -/
def CrdtList.remove {T : Type} [DecidableEq T] (l : CrdtList (OpId C) T) (index : ℕ) :
    SliceM C F (T × CrdtList (OpId C) T) :=
  match l.visibleIds[index]? with
  | none => throw .indexOutOfBounds
  | some id =>
    emit field fun _ =>
      match l.elements.lookup id with
      | none => .error .indexOutOfBounds
      | some element =>
        .ok ((element.value, { l with removed := Insert.insert id l.removed }),
          operationPayload 6 [encodeOpIds bytes [id]])

/-- One character of `Text::insert`, at offset `offset` from the insertion point: anchored after
the visible character before its position in the staged copy; the anchor and the character's
UTF-8 bytes. -/
def Text.insertChar (index : ℕ) (staged : CrdtList (OpId C) Char) (c : Char × ℕ) :
    SliceM C F (CrdtList (OpId C) Char) :=
  let after := CrdtList.anchorAt staged.visibleIds (index + c.2)
  emit field fun id =>
    (·, operationPayload 7 [encodeOptionalOpId bytes after, String.utf8EncodeChar c.1]) <$>
      staged.insertAfterWithId id after c.1

/-- `Text::insert`: refused past the end; the characters go into a staged copy, which replaces
the text only when every character went in. -/
def Text.insert (t : Text (OpId C)) (index : ℕ) (text : List Char) :
    SliceM C F (Text (OpId C)) := do
  if t.len < index then throw .indexOutOfBounds
  let chars ← text.zipIdx.foldlM (Text.insertChar bytes field index) t.chars
  pure { chars }

/-- One character of `Text::delete`: remove the visible character at `index` of the staged
copy. -/
def Text.deleteAt (index : ℕ) (staged : CrdtList (OpId C) Char) (_ : ℕ) :
    SliceM C F (CrdtList (OpId C) Char) :=
  match staged.visibleIds[index]? with
  | none => throw .indexOutOfBounds
  | some target =>
    emit field fun _ =>
      .ok ({ staged with removed := Insert.insert target staged.removed },
        operationPayload 8 [encodeOpIds bytes [target]])

/-- `Text::delete`: refused past the end; `count` removals at `index` on a staged copy. -/
def Text.delete (t : Text (OpId C)) (index count : ℕ) : SliceM C F (Text (OpId C)) := do
  if t.len < index + count then throw .indexOutOfBounds
  let chars ← (List.range count).foldlM (Text.deleteAt bytes field index) t.chars
  pure { chars }

/-- `Counter::increment`. -/
def Counter.increment (c : Counter (OpId C)) (amount : UInt64) : SliceM C F (Counter (OpId C)) :=
  emit field fun id => (·, operationPayload 9 [i128Bytes amount.toNat]) <$> c.incrementWithId id amount

/-- `Counter::decrement`. -/
def Counter.decrement (c : Counter (OpId C)) (amount : UInt64) : SliceM C F (Counter (OpId C)) :=
  emit field fun id =>
    (·, operationPayload 9 [i128Bytes (-(amount.toNat : ℤ))]) <$> c.decrementWithId id amount

/-- `Counter::add`. -/
def Counter.add (c : Counter (OpId C)) (delta : Int64) : SliceM C F (Counter (OpId C)) :=
  emit field fun id => (·, operationPayload 9 [i128Bytes delta.toInt]) <$> c.addWithId id delta

/-! ## Every mutation keeps the slice open

A mutation draws at most one id per `emit`, so each specification is `emit_open` once the steps
taken before the `emit` are named: a refusal past the end throws before anything is drawn, and a
removal with nothing to remove returns at once. -/

section Specs

variable (c : C)

@[spec] theorem Value.set_open {T : Type} [DecidableEq T] (encode : T → List UInt8)
    (v : Value (OpId C) T) (value : T) :
    Hoare (Open c) (Value.set bytes field encode v value) (fun _ => Open c) (fun _ => Uncompleted) :=
  emit_open c field _

@[spec] theorem Map.insert_open {K V : Type} [LinearOrder K] [DecidableEq V]
    (encodeKey : K → List UInt8) (encodeValue : V → List UInt8) (m : Map (OpId C) K V) (key : K)
    (value : V) :
    Hoare (Open c) (Map.insert bytes field encodeKey encodeValue m key value) (fun _ => Open c)
      (fun _ => Uncompleted) :=
  emit_open c field _

@[spec] theorem Map.remove_open {K V : Type} [LinearOrder K] [DecidableEq V]
    (encodeKey : K → List UInt8) (m : Map (OpId C) K V) (key : K) :
    Hoare (Open c) (Map.remove bytes field encodeKey m key) (fun _ => Open c)
      (fun _ => Uncompleted) := by
  unfold Map.remove
  split
  · exact Hoare.of_pure fun _ h => h
  · dsimp only
    split
    · exact Hoare.of_pure fun _ h => h
    · exact emit_open c field _

@[spec] theorem CrdtSet.insert_open {T : Type} [DecidableEq T] (encode : T → List UInt8)
    (s : CrdtSet (OpId C) T) (value : T) :
    Hoare (Open c) (CrdtSet.insert field encode s value) (fun _ => Open c)
      (fun _ => Uncompleted) :=
  emit_open c field _

@[spec] theorem CrdtSet.remove_open {T : Type} [DecidableEq T] (encode : T → List UInt8)
    (s : CrdtSet (OpId C) T) (value : T) :
    Hoare (Open c) (CrdtSet.remove bytes field encode s value) (fun _ => Open c)
      (fun _ => Uncompleted) := by
  unfold CrdtSet.remove
  dsimp only
  split
  · exact Hoare.of_pure fun _ h => h
  · exact emit_open c field _

@[spec] theorem CrdtList.push_open {T : Type} [DecidableEq T] (encode : T → List UInt8)
    (l : CrdtList (OpId C) T) (value : T) :
    Hoare (Open c) (CrdtList.push bytes field encode l value) (fun _ => Open c)
      (fun _ => Uncompleted) :=
  emit_open c field _

@[spec] theorem CrdtList.remove_open {T : Type} [DecidableEq T] (l : CrdtList (OpId C) T)
    (index : ℕ) :
    Hoare (Open c) (CrdtList.remove bytes field l index) (fun _ => Open c)
      (fun _ => Uncompleted) := by
  unfold CrdtList.remove
  split
  · exact Hoare.of_throw fun _ h => h.uncompleted
  · exact emit_open c field _

@[spec] theorem Counter.increment_open (k : Counter (OpId C)) (amount : UInt64) :
    Hoare (Open c) (Counter.increment field k amount) (fun _ => Open c) (fun _ => Uncompleted) :=
  emit_open c field _

@[spec] theorem Counter.decrement_open (k : Counter (OpId C)) (amount : UInt64) :
    Hoare (Open c) (Counter.decrement field k amount) (fun _ => Open c) (fun _ => Uncompleted) :=
  emit_open c field _

@[spec] theorem Counter.add_open (k : Counter (OpId C)) (delta : Int64) :
    Hoare (Open c) (Counter.add field k delta) (fun _ => Open c) (fun _ => Uncompleted) :=
  emit_open c field _

@[spec] theorem CrdtList.insert_open {T : Type} [DecidableEq T] (encode : T → List UInt8)
    (l : CrdtList (OpId C) T) (index : ℕ) (value : T) :
    Hoare (Open c) (CrdtList.insert bytes field encode l index value) (fun _ => Open c)
      (fun _ => Uncompleted) := by
  unfold CrdtList.insert
  dsimp only
  split
  · exact Hoare.of_throw fun _ h => h.uncompleted
  · exact emit_open c field _

@[spec] theorem Text.insert_open (t : Text (OpId C)) (index : ℕ) (text : List Char) :
    Hoare (Open c) (Text.insert bytes field t index text) (fun _ => Open c)
      (fun _ => Uncompleted) := by
  -- the fold makes one `emit` per character on the staged copy; the slice stays open after each
  mvcgen [Text.insert, Text.insertChar] invariants
  | inv1 => post⟨fun _ s => ⌜Open c s⌝, fun _ s => ⌜Uncompleted s⌝⟩
  case vc1.isTrue => exact ‹Open c _›.uncompleted

@[spec] theorem Text.delete_open (t : Text (OpId C)) (index count : ℕ) :
    Hoare (Open c) (Text.delete bytes field t index count) (fun _ => Open c)
      (fun _ => Uncompleted) := by
  -- one removal per position, each refused past the end or one `emit`
  mvcgen [Text.delete, Text.deleteAt] invariants
  | inv1 => post⟨fun _ s => ⌜Open c s⌝, fun _ s => ⌜Uncompleted s⌝⟩
  case vc1.isTrue => exact ‹Open c _›.uncompleted
  all_goals exact ‹Open c _›.uncompleted

end Specs

/-! ## `Text::insert` draws one id per character -/

/-- The ids `(change, n), (change, n + 1), …` of the next `k` ordinals. -/
def nextIds (change : C) (n k : ℕ) : List (OpId C) := (List.range' n k).map (OpId.mk change)

omit [LinearOrder C] in
theorem nextIds_succ (change : C) (n k : ℕ) :
    nextIds change n (k + 1) = ⟨change, n⟩ :: nextIds change (n + 1) k := by
  simp [nextIds, List.range'_succ]

/-- One character of `Text::insert` from a scope with room: the id-taking step under the id
drawn, its operation recorded when the character goes in. -/
theorem Text.insertChar_run (index : ℕ) (staged : CrdtList (OpId C) Char) (ch : Char) (k : ℕ)
    {s : ChangeState C F} {scope : ChangeScope C F} (hs : s.active = some scope)
    (hroom : scope.nextOrdinal + 1 ≤ u32Max) :
    (Text.insertChar bytes field index staged (ch, k)).run.run s =
      match Vos.Crdt.Text.insertChar index staged ((⟨scope.change, scope.nextOrdinal⟩, ch), k) with
      | .ok staged₁ => (.ok staged₁, { s with active := some { scope with
          nextOrdinal := scope.nextOrdinal + 1,
          operations := scope.operations ++ [⟨field, ⟨scope.change, scope.nextOrdinal⟩,
            operationPayload 7 [encodeOptionalOpId bytes
              (CrdtList.anchorAt staged.visibleIds (index + k)), String.utf8EncodeChar ch]⟩] } })
      | .error e => (.error e,
          { s with active := some { scope with nextOrdinal := scope.nextOrdinal + 1 } }) := by
  rw [Text.insertChar, emit_run field _ hs hroom]
  simp only [Vos.Crdt.Text.insertChar]
  rcases staged.insertAfterWithId ⟨scope.change, scope.nextOrdinal⟩
    (CrdtList.anchorAt staged.visibleIds (index + k)) ch with e | staged₁ <;> rfl

/-- The loop of `Text::insert`, character after character: from a scope at ordinal `n` with room,
it fails where the id-taking loop fails, and otherwise ends where it ends, having drawn the next
ids and recorded one operation under each. -/
theorem foldlM_insertChar_refines (index : ℕ) :
    ∀ (text : List Char) (k : ℕ) (staged : CrdtList (OpId C) Char) {s : ChangeState C F}
      {scope : ChangeScope C F}, s.active = some scope →
      scope.nextOrdinal + text.length ≤ u32Max →
      match ((nextIds scope.change scope.nextOrdinal text.length).zip text |>.zipIdx k).foldlM
          (Vos.Crdt.Text.insertChar index) staged with
      | .ok staged' => ∃ pending,
          ((text.zipIdx k).foldlM (Text.insertChar bytes field index) staged).run.run s =
            (.ok staged', { s with active := some { scope with
              nextOrdinal := scope.nextOrdinal + text.length,
              operations := scope.operations ++ pending } }) ∧
          pending.map (·.id) = nextIds scope.change scope.nextOrdinal text.length ∧
          ∀ op ∈ pending, op.field = field
      | .error e => (((text.zipIdx k).foldlM (Text.insertChar bytes field index) staged).run.run s).1 =
          .error e
  | [], k, staged, ⟨active, completed⟩, scope, hs, _ => by
    cases hs
    exact ⟨[], by simp; rfl, rfl, by simp⟩
  | ch :: text, k, staged, s, scope, hs, hroom => by
    simp only [List.length_cons] at hroom
    rw [List.length_cons, nextIds_succ, List.zip_cons_cons, List.zipIdx_cons, List.foldlM_cons,
      List.zipIdx_cons, List.foldlM_cons, run_bind, Text.insertChar_run bytes field index staged ch k
        hs (by omega)]
    rcases hins : Vos.Crdt.Text.insertChar index staged ((⟨scope.change, scope.nextOrdinal⟩, ch), k)
      with e | staged₁
    · -- the character is refused: both loops stop with its error
      rfl
    · -- the character goes in: the rest of the text runs from the scope one ordinal on
      have ih := foldlM_insertChar_refines index text (k + 1) staged₁
        (s := { s with active := some { scope with
          nextOrdinal := scope.nextOrdinal + 1,
          operations := scope.operations ++ [⟨field, ⟨scope.change, scope.nextOrdinal⟩,
            operationPayload 7 [encodeOptionalOpId bytes
              (CrdtList.anchorAt staged.visibleIds (index + k)), String.utf8EncodeChar ch]⟩] } })
        rfl (by simp only; omega)
      dsimp only [bind, Except.bind] at ih ⊢
      split
      · rename_i staged' hfold
        rw [hfold] at ih
        obtain ⟨pending, hrun, hids, hfield⟩ := ih
        refine ⟨⟨field, ⟨scope.change, scope.nextOrdinal⟩, operationPayload 7 [encodeOptionalOpId bytes
          (CrdtList.anchorAt staged.visibleIds (index + k)), String.utf8EncodeChar ch]⟩ :: pending,
          ?_, ?_, ?_⟩
        · rw [hrun, Nat.add_assoc, Nat.add_comm 1, List.append_assoc, List.singleton_append]
        · simp [hids]
        · simpa using hfield
      · rename_i e hfold
        rw [hfold] at ih
        exact ih

/-- **`Text::insert` in a slice is the id-taking insert under the ids it draws.** From a scope at
ordinal `n` with room for the characters, `Text::insert` returns the text the model's
`Text.insert` returns with the ids `(change, n), (change, n + 1), …` given to the characters, and
then the scope has drawn exactly those ids and recorded one operation of the field under each, in
order; it fails exactly when the model fails, and with the same error. -/
theorem Text.insert_refines (t : Text (OpId C)) (index : ℕ) (text : List Char)
    {s : ChangeState C F} {scope : ChangeScope C F} (hs : s.active = some scope)
    (hroom : scope.nextOrdinal + text.length ≤ u32Max) :
    (∀ t', Vos.Crdt.Text.insert t index
        ((nextIds scope.change scope.nextOrdinal text.length).zip text) = .ok t' →
      ∃ pending,
        (Text.insert bytes field t index text).run.run s =
          (.ok t', { s with active := some { scope with
            nextOrdinal := scope.nextOrdinal + text.length,
            operations := scope.operations ++ pending } }) ∧
        pending.map (·.id) = nextIds scope.change scope.nextOrdinal text.length ∧
        ∀ op ∈ pending, op.field = field) ∧
    (∀ e, Vos.Crdt.Text.insert t index
        ((nextIds scope.change scope.nextOrdinal text.length).zip text) = .error e →
      ((Text.insert bytes field t index text).run.run s).1 = .error e) := by
  by_cases hlen : t.len < index
  · -- past the end: both refuse before drawing anything
    have hrun : ((Text.insert bytes field t index text).run.run s).1 = .error .indexOutOfBounds := by
      rw [Text.insert, if_pos hlen, run_bind, run_throw]
    rw [Vos.Crdt.Text.insert, if_pos hlen]
    refine ⟨fun t' h => (by cases h), fun e h => ?_⟩
    cases h
    exact hrun
  · have hloop := foldlM_insertChar_refines bytes field index text 0 t.chars hs hroom
    have hslice : (Text.insert bytes field t index text).run.run s =
        match ((text.zipIdx).foldlM (Text.insertChar bytes field index) t.chars).run.run s with
        | (.ok chars, s') => (.ok { chars }, s')
        | (.error e, s') => (.error e, s') := by
      rw [Text.insert, if_neg hlen]
      dsimp only
      rw [run_bind]
      rcases ((text.zipIdx).foldlM (Text.insertChar bytes field index) t.chars).run.run s
        with ⟨_ | chars, s'⟩ <;> rfl
    rw [Vos.Crdt.Text.insert, if_neg hlen, hslice]
    rcases hfold : ((nextIds scope.change scope.nextOrdinal text.length).zip text |>.zipIdx).foldlM
      (Vos.Crdt.Text.insertChar index) t.chars with e | chars <;> rw [hfold] at hloop
    · -- a character is refused: the slice stops with its error
      refine ⟨fun t' h => (by cases h), fun e' h => ?_⟩
      cases h
      rcases hrun : ((text.zipIdx).foldlM (Text.insertChar bytes field index) t.chars).run.run s
        with ⟨r, s'⟩
      rw [hrun] at hloop
      cases hloop
      rfl
    · obtain ⟨pending, hrun, hids, hfield⟩ := hloop
      refine ⟨fun t' h => ?_, fun e h => by cases h⟩
      cases h
      exact ⟨pending, by rw [hrun], hids, hfield⟩

/-- The text `"xy"` inserted under the ids `(0, 0)` and `(0, 1)`, with its `x` deleted. -/
def textY : Vos.Crdt.Text (OpId ℕ) :=
  { chars := { elements := (Finmap.singleton ⟨0, 0⟩ ⟨none, 1, 'x'⟩).insert ⟨0, 1⟩ ⟨some ⟨0, 0⟩, 2, 'y'⟩,
               removed := {⟨0, 0⟩} } }

/-- Two characters inserted after the visible `y` of `textY`, from a scope that has drawn two
ids. -/
theorem Text.insert_refines_two_chars :
    (⟨some ⟨0, 2, []⟩, none⟩ : ChangeState ℕ ℕ).active = some ⟨0, 2, []⟩ ∧
      (⟨0, 2, []⟩ : ChangeScope ℕ ℕ).nextOrdinal + ['a', 'b'].length ≤ u32Max ∧
      (∀ t', Vos.Crdt.Text.insert textY 1 ((nextIds 0 2 ['a', 'b'].length).zip ['a', 'b']) = .ok t' →
        ∃ pending,
          (Text.insert (fun _ => []) 0 textY 1 ['a', 'b']).run.run
              (⟨some ⟨0, 2, []⟩, none⟩ : ChangeState ℕ ℕ) =
            (.ok t', ⟨some ⟨0, 2 + ['a', 'b'].length, [] ++ pending⟩, none⟩) ∧
          pending.map (·.id) = nextIds 0 2 ['a', 'b'].length ∧ ∀ op ∈ pending, op.field = 0) ∧
      (∀ e, Vos.Crdt.Text.insert textY 1 ((nextIds 0 2 ['a', 'b'].length).zip ['a', 'b']) =
          .error e →
        ((Text.insert (fun _ => []) 0 textY 1 ['a', 'b']).run.run
          (⟨some ⟨0, 2, []⟩, none⟩ : ChangeState ℕ ℕ)).1 = .error e) :=
  ⟨rfl, by simp [u32Max],
    Text.insert_refines (fun _ => []) 0 textY 1 ['a', 'b'] (s := ⟨some ⟨0, 2, []⟩, none⟩) rfl
      (by simp [u32Max])⟩

end Slice

end Vos.Crdt
