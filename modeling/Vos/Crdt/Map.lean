import Vos.Crdt.Basic
import Vos.Lib.Replicated

/-!
# vos CRDT fields — the observed-remove map

`Map<K, V>`: a multi-value register (`Value<V>`) per key, and the key every insertion went to,
keyed by operation id. A removal supersedes the versions of the key observed by the replica; the
key's register stays, possibly with no live version.

A map's atoms are its registers' atoms tagged with their key, and the pairs of `operation_keys`.
A key always holds a register with at least one version (`Map.Wf`), since a register is only ever
created by an insertion; with that, a map is determined by its atoms.

* `Map`: `insertWithId`, `remove`, `merge` (with `mergeEntry`, one key of the other side), `get`,
  `conflicts`, `iter`, `len`;
* `Map.entryAtoms`, `Map.atoms`, `Map.Wf`, and the atoms lemmas.
-/

namespace Vos.Crdt

/-- `Map<K, V>`. -/
structure Map (I K V : Type) where
  entries : BTreeMap K (Value I V)
  operationKeys : BTreeMap I K

namespace Map

variable {I K V : Type} [LinearOrder I] [LinearOrder K] [DecidableEq V]

def default : Map I K V := { entries := ∅, operationKeys := ∅ }

/-- `insert_with_id`: an id already used for another key is refused; otherwise the key's register
takes the version (`set_with_id`), or a new register is created with it. -/
def insertWithId (m : Map I K V) (id : I) (key : K) (value : V) : Except (Error I) (Map I K V) :=
  match m.operationKeys.lookup id with
  | some existingKey =>
    if existingKey ≠ key then .error (.divergentOperation id) else insertAt m id key value
  | none => insertAt m id key value
where
  /-- The part of `insert_with_id` after the key check. -/
  insertAt (m : Map I K V) (id : I) (key : K) (value : V) : Except (Error I) (Map I K V) := do
    let entries ← match m.entries.lookup key with
      | some entry => (fun e => m.entries.insert key e) <$> entry.setWithId id value
      | none => pure (m.entries.insert key (Value.newWithId id value))
    pure { entries, operationKeys := m.operationKeys.insert id key }

/-- `get`: the visible value of the key's register. -/
def get (m : Map I K V) (key : K) : Option V := (m.entries.lookup key).bind Value.get

/-- `conflicts`: the key's concurrent values. -/
def conflicts (m : Map I K V) (key : K) : List V := ((m.entries.lookup key).map Value.conflicts).getD []

/-- `remove`: supersede the key's observed versions; `true` when one was live. -/
def remove (m : Map I K V) (key : K) : Bool × Map I K V :=
  match m.entries.lookup key with
  | none => (false, m)
  | some value =>
    if value.versions.isEmpty then (false, m)
    else (true, { m with entries := m.entries.insert key value.removeObserved })

/-- `iter`: the keys with a visible value, ascending, with that value. -/
def iter (m : Map I K V) : List (K × V) :=
  (m.entries.keys.sort (· ≤ ·)).filterMap fun key => (m.get key).map (key, ·)

def len (m : Map I K V) : Nat := m.iter.length

/-- One key of `merge`: merge the other side's register for `key` into the staged one, or copy
it when the staged map has none. -/
def mergeEntry (other staged : BTreeMap K (Value I V)) (key : K) :
    Except (Error I) (BTreeMap K (Value I V)) :=
  match other.lookup key with
  | none => pure staged
  | some value =>
    match staged.lookup key with
    | some entry => (fun e => staged.insert key e) <$> entry.merge value
    | none => pure (staged.insert key value)

/-- `merge`: refuse an id the two sides sent to different keys, then merge the other side's
registers key by key into a staged copy, which replaces this map only when every key merged. -/
def merge (m other : Map I K V) : Except (Error I) (Map I K V) :=
  match Finmap.firstConflict m.operationKeys other.operationKeys with
  | some id => .error (.divergentOperation id)
  | none => do
    let entries ← (other.entries.keys.sort (· ≤ ·)).foldlM (mergeEntry other.entries) m.entries
    pure { entries, operationKeys := other.operationKeys ∪ m.operationKeys }

/-! ## Atoms -/

/-- The registers' atoms, tagged with their key. -/
def entryAtoms (entries : BTreeMap K (Value I V)) : Set (K × ((I × V) ⊕ I)) :=
  {p | ∃ e, entries.lookup p.1 = some e ∧ p.2 ∈ e.atoms}

def atoms (m : Map I K V) : Set ((K × ((I × V) ⊕ I)) ⊕ (I × K)) :=
  sumSet (entryAtoms m.entries) m.operationKeys.graph

/-- Every register holds a version. -/
def Wf (m : Map I K V) : Prop := ∀ k e, m.entries.lookup k = some e → ∃ id x, e.values.lookup id = some x

omit [DecidableEq V] in
theorem mem_entryAtoms {entries : BTreeMap K (Value I V)} {k : K} {a : (I × V) ⊕ I} :
    (k, a) ∈ entryAtoms entries ↔ ∃ e, entries.lookup k = some e ∧ a ∈ e.atoms := Iff.rfl

omit [DecidableEq V] in
theorem mem_entryAtoms_insert {entries : BTreeMap K (Value I V)} {k k' : K} {e' : Value I V}
    {a : (I × V) ⊕ I} :
    (k', a) ∈ entryAtoms (entries.insert k e') ↔
      (k' ≠ k ∧ (k', a) ∈ entryAtoms entries) ∨ (k' = k ∧ a ∈ e'.atoms) := by
  by_cases hk : k' = k
  · subst hk; simp [mem_entryAtoms, Finmap.lookup_insert]
  · simp [mem_entryAtoms, Finmap.lookup_insert_of_ne _ hk, hk]

omit [DecidableEq V] in
theorem entryAtoms_insert_mono {entries : BTreeMap K (Value I V)} {k : K} {e' : Value I V}
    (h : ∀ e, entries.lookup k = some e → e.atoms ⊆ e'.atoms) :
    entryAtoms entries ⊆ entryAtoms (entries.insert k e') := by
  rintro ⟨k', a⟩ ⟨e, he, ha⟩
  rw [mem_entryAtoms_insert]
  by_cases hk : k' = k
  · subst hk; exact Or.inr ⟨rfl, h e he ha⟩
  · exact Or.inl ⟨hk, e, he, ha⟩

omit [DecidableEq V] in
theorem atoms_injective {m n : Map I K V} (hm : m.Wf) (hn : n.Wf) (h : m.atoms = n.atoms) :
    m = n := by
  obtain ⟨he, ho⟩ := sumSet_injective h
  have hkey : ∀ k a, (k, a) ∈ entryAtoms m.entries ↔ (k, a) ∈ entryAtoms n.entries := by
    intro k a; rw [he]
  -- a register with a version has an atom, so a key held on one side is held on the other
  have hheld : ∀ {m n : Map I K V}, m.Wf → (∀ k a, (k, a) ∈ entryAtoms m.entries →
      (k, a) ∈ entryAtoms n.entries) → ∀ k e, m.entries.lookup k = some e →
      ∃ e', n.entries.lookup k = some e' := by
    intro m n hm hsub k e hle
    obtain ⟨id, x, hx⟩ := hm k e hle
    obtain ⟨e', he', _⟩ := hsub k (.inl (id, x)) ⟨e, hle, by simpa [Value.atoms] using hx⟩
    exact ⟨e', he'⟩
  cases m; cases n
  congr
  · apply Finmap.ext_lookup
    intro k
    cases hmk : Finmap.lookup k _ with
    | none =>
      cases hnk : Finmap.lookup k _ with
      | none => rfl
      | some e' =>
        obtain ⟨e, he⟩ := hheld hn (fun k a => (hkey k a).mpr) k e' hnk
        simp_all
    | some e =>
      obtain ⟨e', he'⟩ := hheld hm (fun k a => (hkey k a).mp) k e hmk
      rw [he']
      congr 1
      apply Value.atoms_injective
      ext a
      have := hkey k a
      simp only [mem_entryAtoms, hmk, he', Option.some.injEq, exists_eq_left'] at this
      exact this
  · exact Finmap.graph_injective ho

omit [DecidableEq V] in
@[simp] theorem atoms_default : (default : Map I K V).atoms = ∅ := by
  ext (⟨k, a⟩ | p) <;> simp [atoms, default, mem_entryAtoms, Finmap.lookup_empty]

omit [DecidableEq V] in
theorem wf_default : (default : Map I K V).Wf := by
  intro k e h; simp [default, Finmap.lookup_empty] at h

omit [LinearOrder K] in
/-- Re-binding an operation id to the key it is already bound to, or binding a fresh id, only
adds pairs. -/
theorem graph_operationKeys_insert {ops : BTreeMap I K} {id : I} {key : K}
    (h : ∀ k, ops.lookup id = some k → k = key) : ops.graph ⊆ (ops.insert id key).graph := by
  rintro ⟨id', k'⟩ hp
  by_cases hid : id' = id
  · subst hid
    have := h k' hp
    subst this
    simp [Finmap.lookup_insert]
  · simpa [Finmap.lookup_insert_of_ne _ hid] using hp

theorem insertAt_spec {m n : Map I K V} {id : I} {key : K} {value : V}
    (h : insertWithId.insertAt m id key value = .ok n) :
    entryAtoms m.entries ⊆ entryAtoms n.entries ∧ n.operationKeys = m.operationKeys.insert id key ∧
      (∀ k, k ≠ key → n.entries.lookup k = m.entries.lookup k) ∧
      ∃ e', n.entries.lookup key = some e' ∧ e'.values.lookup id = some value := by
  unfold insertWithId.insertAt at h
  cases hk : m.entries.lookup key with
  | some entry =>
    cases hs : entry.setWithId id value with
    | error err => simp [hk, hs] at h
    | ok e' =>
      simp only [hk, hs] at h
      cases h
      refine ⟨entryAtoms_insert_mono ?_, rfl, fun k hne => Finmap.lookup_insert_of_ne _ hne,
        e', Finmap.lookup_insert _, Value.lookup_setWithId hs⟩
      intro e he
      rw [hk] at he; cases he
      exact Value.atoms_setWithId hs
  | none =>
    simp only [hk] at h
    cases h
    refine ⟨entryAtoms_insert_mono ?_, rfl, fun k hne => Finmap.lookup_insert_of_ne _ hne,
      _, Finmap.lookup_insert _, Value.lookup_newWithId id value⟩
    intro e he; rw [hk] at he; cases he

/-- A successful `insert_with_id` found the operation id unbound or bound to the same key, and did
the rest of the insertion. -/
theorem insertWithId_spec {m n : Map I K V} {id : I} {key : K} {value : V}
    (h : m.insertWithId id key value = .ok n) :
    (∀ k, m.operationKeys.lookup id = some k → k = key) ∧
      insertWithId.insertAt m id key value = .ok n := by
  unfold insertWithId at h
  split at h
  · rename_i k' hk'
    split at h
    · cases h
    · rename_i heq
      refine ⟨fun k hk => ?_, h⟩
      rw [hk'] at hk; cases hk
      exact not_not.mp heq
  · rename_i hnone
    refine ⟨fun k hk => ?_, h⟩
    rw [hnone] at hk; cases hk

theorem atoms_insertWithId {m n : Map I K V} {id : I} {key : K} {value : V}
    (h : m.insertWithId id key value = .ok n) : m.atoms ⊆ n.atoms := by
  obtain ⟨hkey, hat⟩ := insertWithId_spec h
  obtain ⟨hent, hops, -, -⟩ := insertAt_spec hat
  refine sumSet_subset hent ?_
  rw [hops]
  exact graph_operationKeys_insert hkey

theorem wf_insertWithId {m n : Map I K V} {id : I} {key : K} {value : V} (hm : m.Wf)
    (h : m.insertWithId id key value = .ok n) : n.Wf := by
  obtain ⟨-, hat⟩ := insertWithId_spec h
  obtain ⟨-, -, hother, e', hkey, hval⟩ := insertAt_spec hat
  intro k e he
  by_cases hk : k = key
  · subst hk
    rw [hkey] at he; cases he
    exact ⟨id, value, hval⟩
  · rw [hother k hk] at he
    exact hm k e he

omit [DecidableEq V] in
theorem atoms_remove (m : Map I K V) (key : K) : m.atoms ⊆ (m.remove key).2.atoms := by
  unfold remove
  split
  · exact le_rfl
  · rename_i value hv
    split
    · exact le_rfl
    · refine sumSet_subset (entryAtoms_insert_mono ?_) le_rfl
      intro e he
      rw [hv] at he; cases he
      exact Value.atoms_removeObserved _

omit [DecidableEq V] in
theorem wf_remove {m : Map I K V} (hm : m.Wf) (key : K) : (m.remove key).2.Wf := by
  unfold remove
  split
  · exact hm
  · rename_i value hv
    split
    · exact hm
    · intro k e he
      by_cases hk : k = key
      · subst hk
        simp only [Finmap.lookup_insert, Option.some.injEq] at he
        subst he
        exact hm k value hv
      · rw [Finmap.lookup_insert_of_ne _ hk] at he
        exact hm k e he

/-! ## Merge -/

/-- Every register of a map of registers holds a version. -/
def EntriesWf (entries : BTreeMap K (Value I V)) : Prop :=
  ∀ k e, entries.lookup k = some e → ∃ id x, e.values.lookup id = some x

theorem entryAtoms_mergeEntry {other staged staged' : BTreeMap K (Value I V)} {key : K}
    (h : mergeEntry other staged key = .ok staged') :
    entryAtoms staged' = entryAtoms staged ∪ {p | p.1 = key ∧ p ∈ entryAtoms other} := by
  unfold mergeEntry at h
  cases ho : other.lookup key with
  | none =>
    simp only [ho] at h
    cases h
    ext ⟨k, a⟩
    simp only [Set.mem_union, Set.mem_ofPred_eq, mem_entryAtoms]
    constructor
    · exact Or.inl
    · rintro (h' | ⟨rfl, e, he, _⟩)
      · exact h'
      · rw [ho] at he; cases he
  | some value =>
    simp only [ho] at h
    cases hs : staged.lookup key with
    | some entry =>
      cases hm : entry.merge value with
      | error err => simp [hs, hm] at h
      | ok e =>
        simp only [hs, hm] at h
        cases h
        ext ⟨k, a⟩
        rw [mem_entryAtoms_insert, Value.atoms_merge hm]
        by_cases hk : k = key
        · subst hk; simp [mem_entryAtoms, hs, ho]
        · simp [hk]
    | none =>
      simp only [hs] at h
      cases h
      ext ⟨k, a⟩
      rw [mem_entryAtoms_insert]
      by_cases hk : k = key
      · subst hk; simp [mem_entryAtoms, hs, ho]
      · simp [hk]

theorem entriesWf_mergeEntry {other staged staged' : BTreeMap K (Value I V)} {key : K}
    (ho : EntriesWf other) (hs : EntriesWf staged) (h : mergeEntry other staged key = .ok staged') :
    EntriesWf staged' := by
  intro k e he
  by_cases hk : k = key
  · subst hk
    -- the merged register contains the staged or the other side's versions
    have hmem : ∀ a, (k, a) ∈ entryAtoms staged' ↔ a ∈ e.atoms := fun a => by
      simp [mem_entryAtoms, he]
    rw [entryAtoms_mergeEntry h] at hmem
    have hsome : ∃ e₀, (staged.lookup k = some e₀ ∨ other.lookup k = some e₀) := by
      unfold mergeEntry at h
      cases hol : other.lookup k with
      | none =>
        simp only [hol] at h; cases h
        exact ⟨e, Or.inl he⟩
      | some value => exact ⟨value, Or.inr rfl⟩
    obtain ⟨e₀, he₀⟩ := hsome
    obtain ⟨id, x, hx⟩ := he₀.elim (hs k e₀) (ho k e₀)
    have hat : Sum.inl (id, x) ∈ e₀.atoms := by simpa [Value.atoms] using hx
    have := (hmem (.inl (id, x))).mp (by
      rcases he₀ with he₀ | he₀
      · exact Or.inl ⟨e₀, he₀, hat⟩
      · exact Or.inr ⟨rfl, e₀, he₀, hat⟩)
    exact ⟨id, x, by simpa [Value.atoms] using this⟩
  · unfold mergeEntry at h
    cases hol : other.lookup key with
    | none =>
      simp only [hol] at h; cases h
      exact hs k e he
    | some value =>
      simp only [hol] at h
      cases hsl : staged.lookup key with
      | some entry =>
        cases hm : entry.merge value with
        | error err => simp [hsl, hm] at h
        | ok e' =>
          simp only [hsl, hm] at h; cases h
          rw [Finmap.lookup_insert_of_ne _ hk] at he
          exact hs k e he
      | none =>
        simp only [hsl] at h; cases h
        rw [Finmap.lookup_insert_of_ne _ hk] at he
        exact hs k e he

theorem entryAtoms_foldlM_mergeEntry {other : BTreeMap K (Value I V)} :
    ∀ (keys : List K) (staged staged' : BTreeMap K (Value I V)),
      keys.foldlM (mergeEntry other) staged = .ok staged' →
      entryAtoms staged' = entryAtoms staged ∪ {p | p.1 ∈ keys ∧ p ∈ entryAtoms other}
  | [], staged, staged', h => by
    cases h
    ext p; simp
  | key :: keys, staged, staged', h => by
    rw [List.foldlM_cons] at h
    cases hs : mergeEntry other staged key with
    | error err => rw [hs] at h; cases h
    | ok mid =>
      rw [hs] at h
      rw [entryAtoms_foldlM_mergeEntry keys mid staged' h, entryAtoms_mergeEntry hs]
      ext p
      simp only [Set.mem_union, Set.mem_ofPred_eq, List.mem_cons]
      tauto

omit [DecidableEq V] in
theorem entryAtoms_of_sorted_keys (other : BTreeMap K (Value I V)) :
    {p | p.1 ∈ other.keys.sort (· ≤ ·) ∧ p ∈ entryAtoms other} = entryAtoms other := by
  ext ⟨k, a⟩
  simp only [Set.mem_ofPred_eq, Finset.mem_sort, Finmap.mem_keys, and_iff_right_iff_imp]
  rintro ⟨e, he, -⟩
  exact Finmap.mem_of_lookup_eq_some he

theorem merge_spec {m o n : Map I K V} (h : m.merge o = .ok n) :
    Finmap.firstConflict m.operationKeys o.operationKeys = none ∧
      (o.entries.keys.sort (· ≤ ·)).foldlM (mergeEntry o.entries) m.entries = .ok n.entries ∧
      n.operationKeys = o.operationKeys ∪ m.operationKeys := by
  unfold merge at h
  split at h
  · cases h
  · rename_i hnone
    cases hf : (o.entries.keys.sort (· ≤ ·)).foldlM (mergeEntry o.entries) m.entries with
    | error err => simp [hf] at h
    | ok entries =>
      simp only [hf] at h
      cases h
      exact ⟨hnone, rfl, rfl⟩

theorem atoms_merge {m o n : Map I K V} (h : m.merge o = .ok n) : n.atoms = m.atoms ∪ o.atoms := by
  obtain ⟨hnone, hfold, hops⟩ := merge_spec h
  simp only [atoms, hops, (graph_union_of_firstConflict hnone).2,
    entryAtoms_foldlM_mergeEntry _ _ _ hfold, entryAtoms_of_sorted_keys, sumSet_union]

theorem wf_merge {m o n : Map I K V} (hm : m.Wf) (ho : o.Wf) (h : m.merge o = .ok n) : n.Wf := by
  obtain ⟨-, hfold, -⟩ := merge_spec h
  exact @Replicated.foldlM_except_rel _ _ _ (fun a b => EntriesWf a → EntriesWf b) (fun _ => id)
    (fun _ _ _ hab hbc => hbc ∘ hab) _ (fun _ _ _ hs hw => entriesWf_mergeEntry ho hw hs) _ _ _
    hfold hm

end Map

end Vos.Crdt
