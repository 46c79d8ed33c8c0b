import Vos.Crdt.Basic
import Vos.Lib.Replicated

/-!
# vos CRDT fields — sequences

`List<T>` (`CrdtList` here), the RGA-style list, and `Text`, a list of Unicode scalars.

An element records the element it was inserted after and a Lamport-style `logical_time`, one more
than the greatest time this replica held when the element was inserted. The order of the list
(`ordered_ids`) is a depth-first walk of the tree of `after` links from the start, children in
descending time and then ascending id, followed by every element the walk did not reach (dangling
ancestry, kept visible for diagnostics).

The walk of `append_descendants` keeps an explicit stack and a visited set; here it runs on fuel
equal to the number of elements. Each children list is pushed at most once over the whole of
`ordered_ids` (when its parent is first visited, or at the start for the root), and every element
is in one children list, so no call pops more than that many times.

* `ListElement`, `CrdtList`: `insertAfterWithId`, `orderedIds`, `visibleIds`, `pushWithId`,
  `insertWithId`, `remove`, `get`, `iter`, `merge`;
* `Text`: `insert`, `insertWithChange`, `delete`, `merge`, `asString`;
* the atoms lemmas: every mutation only adds atoms, a merge unions them.
-/

namespace Vos.Crdt

/-- One element of a `List`: its anchor, its insertion time and its value. -/
structure ListElement (I T : Type) where
  after : Option I
  logicalTime : Nat
  value : T
  deriving DecidableEq, Repr

/-- `List<T>`: every element ever inserted, keyed by operation id, and the ids removed. -/
structure CrdtList (I T : Type) where
  elements : BTreeMap I (ListElement I T)
  removed : BTreeSet I

namespace CrdtList

variable {I T : Type} [LinearOrder I] [DecidableEq T]

def default : CrdtList I T := { elements := ∅, removed := ∅ }

/-- The element ids, ascending (the map's iteration order). -/
def sortedIds (l : CrdtList I T) : List I := l.elements.keys.sort (· ≤ ·)

/-- The insertion time of an element (`0` for an unknown id). -/
def timeOf (l : CrdtList I T) (id : I) : Nat := ((l.elements.lookup id).map (·.logicalTime)).getD 0

/-- `u64::MAX + 1`, where `checked_add` fails. -/
def logicalClockLimit : Nat := 2 ^ 64

/-- `insert_after_with_id`: a retry with the same anchor and value is a no-op, anything else under
the id is refused; a new element gets one more than the greatest time held. -/
def insertAfterWithId (l : CrdtList I T) (id : I) (after : Option I) (value : T) :
    Except (Error I) (CrdtList I T) :=
  match l.elements.lookup id with
  | some existing =>
    if existing.after = after ∧ existing.value = value then .ok l
    else .error (.divergentOperation id)
  | none =>
    let logicalTime := ((l.sortedIds.map l.timeOf).max?.getD 0) + 1
    if logicalClockLimit ≤ logicalTime then .error .logicalClockOverflow
    else .ok { l with elements := l.elements.insert id { after, logicalTime, value } }

/-- The children of `parent`: later insertions first, concurrent ones (same time) by ascending
id. -/
def childrenOf (l : CrdtList I T) (parent : Option I) : List I :=
  (l.sortedIds.filter fun id => (l.elements.lookup id).any (·.after = parent)).insertionSort
    fun a b => l.timeOf b < l.timeOf a ∨ (l.timeOf a = l.timeOf b ∧ a ≤ b)

/-- The loop of `append_descendants`: pop an id and, when it is new, emit it and push its
children. -/
def walk (l : CrdtList I T) : Nat → List I → Finset I × List I → Finset I × List I
  | 0, _, acc => acc
  | _, [], acc => acc
  | fuel + 1, id :: pending, (visited, result) =>
    if id ∈ visited then l.walk fuel pending (visited, result)
    else l.walk fuel (l.childrenOf (some id) ++ pending) (insert id visited, result ++ [id])

/-- `append_descendants`: walk the subtree below `parent`. -/
def appendDescendants (l : CrdtList I T) (parent : Option I) (acc : Finset I × List I) :
    Finset I × List I :=
  l.walk l.elements.keys.card (l.childrenOf parent) acc

/-- `ordered_ids`: the walk from the start, then every element it did not reach with its
subtree, in ascending id order. -/
def orderedIds (l : CrdtList I T) : List I :=
  (l.sortedIds.foldl (fun acc id =>
    if id ∈ acc.1 then acc
    else l.appendDescendants (some id) (insert id acc.1, acc.2 ++ [id]))
    (l.appendDescendants none (∅, []))).2

/-- `visible_ids`: the order without the removed elements. -/
def visibleIds (l : CrdtList I T) : List I := l.orderedIds.filter (· ∉ l.removed)

def len (l : CrdtList I T) : Nat := l.visibleIds.length

/-- `get`: the value at a visible position. -/
def get (l : CrdtList I T) (index : Nat) : Option T :=
  (l.visibleIds[index]?).bind fun id => (l.elements.lookup id).map (·.value)

/-- `iter`: the visible values in order. -/
def iter (l : CrdtList I T) : List T :=
  l.visibleIds.filterMap fun id => (l.elements.lookup id).map (·.value)

/-- `push_with_id`: insert after the last element of the order. -/
def pushWithId (l : CrdtList I T) (id : I) (value : T) : Except (Error I) (CrdtList I T) :=
  l.insertAfterWithId id l.orderedIds.getLast? value

/-- The anchor for an insertion at visible position `index`: the visible element before it. -/
def anchorAt (visible : List I) (index : Nat) : Option I :=
  match index with
  | 0 => none
  | i + 1 => visible[i]?

/-- `insert_with_id`: insert at a visible position, at most the length. -/
def insertWithId (l : CrdtList I T) (index : Nat) (id : I) (value : T) :
    Except (Error I) (CrdtList I T) :=
  let visible := l.visibleIds
  if visible.length < index then .error .indexOutOfBounds
  else l.insertAfterWithId id (anchorAt visible index) value

/-- `remove`: remove the element at a visible position, returning its value. -/
def remove (l : CrdtList I T) (index : Nat) : Except (Error I) (T × CrdtList I T) :=
  match l.visibleIds[index]? with
  | none => .error .indexOutOfBounds
  | some id =>
    match l.elements.lookup id with
    | none => .error .indexOutOfBounds
    | some element => .ok (element.value, { l with removed := insert id l.removed })

/-- `merge`: refuse an id the two sides hold with different elements, otherwise union both. -/
def merge (l other : CrdtList I T) : Except (Error I) (CrdtList I T) :=
  match Finmap.firstConflict l.elements other.elements with
  | some id => .error (.divergentOperation id)
  | none => .ok { elements := other.elements ∪ l.elements, removed := l.removed ∪ other.removed }

/-- The elements and the removed ids. -/
def atoms (l : CrdtList I T) : Set ((I × ListElement I T) ⊕ I) :=
  sumSet l.elements.graph ↑l.removed

omit [DecidableEq T] in
theorem atoms_injective {l m : CrdtList I T} (h : l.atoms = m.atoms) : l = m := by
  obtain ⟨he, hr⟩ := sumSet_injective h
  cases l; cases m
  congr
  · exact Finmap.graph_injective he
  · exact Finset.coe_injective hr

omit [DecidableEq T] in
@[simp] theorem atoms_default : (default : CrdtList I T).atoms = ∅ := by
  ext (p | i) <;> simp [atoms, default]

theorem atoms_insertAfterWithId {l m : CrdtList I T} {id : I} {after : Option I} {value : T}
    (h : l.insertAfterWithId id after value = .ok m) : l.atoms ⊆ m.atoms := by
  unfold insertAfterWithId at h
  split at h
  · split at h
    · cases h; exact le_rfl
    · cases h
  · rename_i hnone
    dsimp only at h
    split at h
    · cases h
    · cases h
      refine sumSet_subset ?_ le_rfl
      rw [Finmap.graph_insert hnone]; exact Set.subset_insert _ _

theorem atoms_pushWithId {l m : CrdtList I T} {id : I} {value : T}
    (h : l.pushWithId id value = .ok m) : l.atoms ⊆ m.atoms :=
  atoms_insertAfterWithId h

theorem atoms_insertWithId {l m : CrdtList I T} {index : Nat} {id : I} {value : T}
    (h : l.insertWithId index id value = .ok m) : l.atoms ⊆ m.atoms := by
  unfold insertWithId at h
  dsimp only at h
  split at h
  · cases h
  · exact atoms_insertAfterWithId h

omit [DecidableEq T] in
theorem atoms_markRemoved (l : CrdtList I T) (id : I) :
    l.atoms ⊆ ({ l with removed := insert id l.removed } : CrdtList I T).atoms :=
  sumSet_subset le_rfl (by simp)

omit [DecidableEq T] in
theorem atoms_remove {l m : CrdtList I T} {index : Nat} {x : T}
    (h : l.remove index = .ok (x, m)) : l.atoms ⊆ m.atoms := by
  unfold remove at h
  split at h
  · cases h
  · split at h
    · cases h
    · cases h
      exact atoms_markRemoved l _

theorem atoms_merge {l o m : CrdtList I T} (h : l.merge o = .ok m) : m.atoms = l.atoms ∪ o.atoms := by
  unfold merge at h
  split at h
  · cases h
  · rename_i hnone
    cases h
    simp only [atoms, (graph_union_of_firstConflict hnone).2, Finset.coe_union, sumSet_union]

end CrdtList

/-! ## `Text` -/

/-- `Text`: a list of Unicode scalars. -/
structure Text (I : Type) where
  chars : CrdtList I Char

namespace Text

variable {I : Type} [LinearOrder I]

def default : Text I := { chars := CrdtList.default }

def len (t : Text I) : Nat := t.chars.len

/-- One character of `insert`, at offset `offset` from the insertion point `index`: anchored
after the visible character before its position, with the id drawn for it. -/
def insertChar (index : Nat) (staged : CrdtList I Char) (c : (I × Char) × Nat) :
    Except (Error I) (CrdtList I Char) :=
  let ((id, ch), offset) := c
  staged.insertAfterWithId id (CrdtList.anchorAt staged.visibleIds (index + offset)) ch

/-- `insert`: insert the characters of `text`, each with the id drawn for it, at a visible
position, on a staged copy that replaces the text only when every character went in. -/
def insert (t : Text I) (index : Nat) (text : List (I × Char)) : Except (Error I) (Text I) :=
  if t.len < index then .error .indexOutOfBounds
  else (fun chars => { chars }) <$> text.zipIdx.foldlM (insertChar index) t.chars

/-- `insert_with_change`: as `insert`, the `offset`-th character taking the id
`operation offset` of the change (`ChangeId::operation`) and its position checked anew. -/
def insertWithChange (t : Text I) (index : Nat) (operation : Nat → I) (text : List Char) :
    Except (Error I) (Text I) :=
  if t.len < index then .error .indexOutOfBounds
  else (fun chars => { chars }) <$> text.zipIdx.foldlM (fun staged (ch, offset) =>
    staged.insertWithId (index + offset) (operation offset) ch) t.chars

/-- One character of `delete`: remove the visible character at `index`. -/
def deleteAt (index : Nat) (staged : CrdtList I Char) (_ : Nat) : Except (Error I) (CrdtList I Char) :=
  match staged.visibleIds[index]? with
  | none => .error .indexOutOfBounds
  | some target => .ok { staged with removed := Insert.insert target staged.removed }

/-- `delete`: remove `count` characters at `index`, on a staged copy. -/
def delete (t : Text I) (index count : Nat) : Except (Error I) (Text I) :=
  if t.len < index + count then .error .indexOutOfBounds
  else (fun chars => { chars }) <$> (List.range count).foldlM (deleteAt index) t.chars

/-- `merge`: the merge of the character lists. -/
def merge (t other : Text I) : Except (Error I) (Text I) :=
  (fun chars => { chars }) <$> t.chars.merge other.chars

def atoms (t : Text I) : Set ((I × ListElement I Char) ⊕ I) := t.chars.atoms

theorem atoms_injective {t u : Text I} (h : t.atoms = u.atoms) : t = u := by
  cases t; cases u
  congr
  exact CrdtList.atoms_injective h

@[simp] theorem atoms_default : (default : Text I).atoms = ∅ := CrdtList.atoms_default

theorem atoms_staged {α : Type} {f : CrdtList I Char → α → Except (Error I) (CrdtList I Char)}
    (hf : ∀ l x l', f l x = .ok l' → l.atoms ⊆ l'.atoms) {xs : List α} {t u : Text I}
    (h : (fun chars => ({ chars } : Text I)) <$> xs.foldlM f t.chars = .ok u) : t.atoms ⊆ u.atoms := by
  cases hfold : xs.foldlM f t.chars with
  | error e => rw [hfold] at h; cases h
  | ok l =>
    rw [hfold] at h
    cases h
    exact @Replicated.foldlM_except_rel _ _ _ (fun a b : CrdtList I Char => a.atoms ⊆ b.atoms)
      (fun _ => le_rfl) (fun _ _ _ => subset_trans) _ hf xs _ _ hfold

theorem atoms_insert {t u : Text I} {index : Nat} {text : List (I × Char)}
    (h : t.insert index text = .ok u) : t.atoms ⊆ u.atoms := by
  unfold insert at h
  split at h
  · cases h
  · exact atoms_staged (fun _ _ _ hs => CrdtList.atoms_insertAfterWithId hs) h

theorem atoms_insertWithChange {t u : Text I} {index : Nat} {operation : Nat → I}
    {text : List Char} (h : t.insertWithChange index operation text = .ok u) : t.atoms ⊆ u.atoms := by
  unfold insertWithChange at h
  split at h
  · cases h
  · exact atoms_staged (fun _ _ _ hs => CrdtList.atoms_insertWithId hs) h

theorem atoms_deleteAt {index n : Nat} {l l' : CrdtList I Char} (h : deleteAt index l n = .ok l') :
    l.atoms ⊆ l'.atoms := by
  unfold deleteAt at h
  split at h
  · cases h
  · cases h
    exact CrdtList.atoms_markRemoved l _

theorem atoms_delete {t u : Text I} {index count : Nat} (h : t.delete index count = .ok u) :
    t.atoms ⊆ u.atoms := by
  unfold delete at h
  split at h
  · cases h
  · exact atoms_staged (fun _ _ _ hs => atoms_deleteAt hs) h

theorem atoms_merge {t o u : Text I} (h : t.merge o = .ok u) : u.atoms = t.atoms ∪ o.atoms := by
  unfold merge at h
  cases hm : t.chars.merge o.chars with
  | error e => rw [hm] at h; cases h
  | ok l =>
    rw [hm] at h
    cases h
    exact CrdtList.atoms_merge hm

end Text

end Vos.Crdt
