import Vos.V2.StateKey

/-!
# vos v2 — the state tree refines the canonical Patricia trie

A store holds a trie when it has each node of the trie under the node's hash (`Stores`). From a
store holding the canonical trie of a set of rows, `update` succeeds and leaves a store holding the
canonical trie of the rows with one row changed, under the root it returns. Each structural case
of `update` meets the matching lemma of `Patricia`:

* a new row beside a leaf, or off a branch's prefix — `canon_split`;
* a row below a branch — `canon_descend`, or `canon_collapse` when its side empties;
* `update_canon`, then `TreeInv.apply` and `TreeInv.applyAll` over a run of calls;
* `getFrom_hashTrie`: the loop of `get` reads the trie, as `Trie.find`;
* **`apply_canonical_root`**: every run of `apply` from `empty_state_root()` whose written rows
  read back from their leaves succeeds and ends at `canonicalRoot M`, for `M` the rows the calls
  leave, whatever their order and whichever rows were deleted on the way;
* **`get_applyAll`**: after such a run, `get` answers every key with the value its last call left;
* `applyAll_emptyActorRow_corrupt`, `get_emptyActorRow_corrupt`: a row under an empty `ActorRow`
  key is written, but its leaf fails `StateNodeV2::decode`, so the next read of it is
  `CorruptNode`.

`hash_node` is assumed to be collision free and never `Hash::ZERO` (`CollisionFree`). A row reads
back from its leaf when `StateKeyV2::decode` gives its key back and its value fits `MAX_BYTES`
(`readsBack`, `Positioned`); the invariant carries that, as `read_node` checks it on every node
it reads.
-/

namespace Vos.V2

open StateKey StateHasher Patricia

/-! ## The rows a run leaves -/

section Rows

variable {K : Type} [DecidableEq K]

/-- The value the last call for `k` leaves, if any: its value, or none when it deletes the row
or there is no call for `k`. -/
def netEffect (rows : List (K × Option Bytes)) (k : K) : Option Bytes :=
  rows.foldl (fun acc row => if row.1 = k then row.2 else acc) none

theorem netEffect_append_singleton (rows : List (K × Option Bytes)) (row : K × Option Bytes)
    (k : K) : netEffect (rows ++ [row]) k = if row.1 = k then row.2 else netEffect rows k := by
  simp [netEffect, List.foldl_append]

theorem mem_of_netEffect_eq_some {rows : List (K × Option Bytes)} {k : K} {v : Bytes}
    (h : netEffect rows k = some v) : ∃ v', (k, v') ∈ rows := by
  induction rows using List.reverseRecOn with
  | nil => simp [netEffect] at h
  | append_singleton rows row ih =>
    rw [netEffect_append_singleton] at h
    by_cases hk : row.1 = k
    · exact ⟨row.2, by simp [← hk]⟩
    · rw [if_neg hk] at h
      obtain ⟨v', hv'⟩ := ih h
      exact ⟨v', List.mem_append_left _ hv'⟩

variable [StateKey K]

/-- The rows a sequence of calls leaves, from the rows `m`, each at the position of its key. -/
def rowsAfter (m : Bytes32 → Option (K × Bytes)) (rows : List (K × Option Bytes)) :
    Bytes32 → Option (K × Bytes) :=
  rows.foldl (fun m row => Function.update m (statePosition row.1) (row.2.map (row.1, ·))) m

omit [DecidableEq K] in
theorem rowsAfter_append_singleton (m : Bytes32 → Option (K × Bytes))
    (rows : List (K × Option Bytes)) (row : K × Option Bytes) :
    rowsAfter m (rows ++ [row]) =
      Function.update (rowsAfter m rows) (statePosition row.1) (row.2.map (row.1, ·)) := by
  simp [rowsAfter, List.foldl_append]

/-- With keys at distinct positions, the rows a run leaves from none are its net effect, each at
the position of its key. -/
theorem rowsAfter_eq_some {rows : List (K × Option Bytes)}
    (hS : Set.InjOn statePosition {k | ∃ v, (k, v) ∈ rows}) (p : Bytes32) (a : K × Bytes) :
    rowsAfter (fun _ => none) rows p = some a ↔
      statePosition a.1 = p ∧ netEffect rows a.1 = some a.2 := by
  induction rows using List.reverseRecOn with
  | nil => simp [rowsAfter, netEffect]
  | append_singleton rows row ih =>
    have hS' : Set.InjOn statePosition {k | ∃ v, (k, v) ∈ rows} :=
      hS.mono fun k hk => by
        obtain ⟨v, hv⟩ := hk
        exact ⟨v, List.mem_append_left _ hv⟩
    rw [rowsAfter_append_singleton, netEffect_append_singleton]
    by_cases hp : p = statePosition row.1
    · -- the position of the last call's key: that call decides
      subst hp
      rw [Function.update_self]
      constructor
      · intro ha
        obtain ⟨v, hv, rfl⟩ := Option.map_eq_some_iff.mp ha
        exact ⟨rfl, by simp [hv]⟩
      · rintro ⟨hpos, hv⟩
        have hk : row.1 = a.1 := by
          by_contra hk
          rw [if_neg hk] at hv
          obtain ⟨v', hv'⟩ := mem_of_netEffect_eq_some hv
          exact hk (hS ⟨row.2, by simp⟩ ⟨v', List.mem_append_left _ hv'⟩ hpos.symm)
        rw [if_pos hk] at hv
        rw [hv, Option.map_some, hk]
    · -- another position: the last call leaves it as it was
      rw [Function.update_of_ne hp, ih hS']
      constructor
      · rintro ⟨hpos, hv⟩
        refine ⟨hpos, ?_⟩
        rw [if_neg fun hk => hp (by rw [← hpos, hk])]
        exact hv
      · rintro ⟨hpos, hv⟩
        rw [if_neg fun hk => hp (by rw [← hpos, hk])] at hv
        exact ⟨hpos, hv⟩

end Rows

variable {K H : Type} [DecidableEq H]

/-- `hash_node` has no collisions and never yields `Hash::ZERO`. -/
class CollisionFree (K H : Type) [Zero H] [StateHasher K H] : Prop where
  injective : Function.Injective (hashNode : StateNodeV2 K H → H)
  ne_zero : ∀ n : StateNodeV2 K H, hashNode n ≠ 0

/-! ## The trie a store holds -/

/-- `store'` keeps every node of `store`. -/
def Extends (store store' : NodeStore K H) : Prop :=
  ∀ h n, store.lookup h = some n → store'.lookup h = some n

variable {store store' store'' : NodeStore K H}

theorem Extends.refl (store : NodeStore K H) : Extends store store := fun _ _ h => h

theorem Extends.trans (h : Extends store store') (h' : Extends store' store'') :
    Extends store store'' :=
  fun a n hn => h' a n (h a n hn)

variable [StateHasher K H]

/-- A Patricia trie of rows: a leaf holds a logical key and its value. -/
abbrev RowTrie (K : Type) := Trie Bytes32 (K × Bytes)

/-- The hash a trie is stored under. -/
def hashTrie : RowTrie K → H
  | .leaf p a => hashNode (.leaf p a.1 a.2 : StateNodeV2 K H)
  | .branch b pre l r => hashNode (.branch b pre (hashTrie l) (hashTrie r) : StateNodeV2 K H)

/-- The node a trie's root is stored as. -/
def nodeOf : RowTrie K → StateNodeV2 K H
  | .leaf p a => .leaf p a.1 a.2
  | .branch b pre l r => .branch b pre (hashTrie l) (hashTrie r)

omit [DecidableEq H] in
@[simp] theorem hashNode_nodeOf (t : RowTrie K) :
    hashNode (nodeOf t : StateNodeV2 K H) = hashTrie t := by
  cases t <;> rfl

/-- Every node of the store sits under its own hash, as `read_node` checks. -/
def Valid (store : NodeStore K H) : Prop :=
  ∀ h n, store.lookup h = some n → hashNode n = h

theorem Valid.empty : Valid (∅ : NodeStore K H) := fun _ _ h => by simp at h

/-- `store` holds every node of a trie under its hash. -/
inductive Stores (store : NodeStore K H) : RowTrie K → Prop
  | leaf (p : Bytes32) (a : K × Bytes) :
      store.lookup (hashTrie (.leaf p a)) = some (nodeOf (.leaf p a)) → Stores store (.leaf p a)
  | branch (b : ℕ) (pre : Bytes32) {l r : RowTrie K} :
      store.lookup (hashTrie (.branch b pre l r)) = some (nodeOf (.branch b pre l r)) →
      Stores store l → Stores store r → Stores store (.branch b pre l r)

/-- `store` holds a possibly empty trie. -/
def StoresOpt (store : NodeStore K H) : Option (RowTrie K) → Prop
  | none => True
  | some t => Stores store t

/-- `store` holds every node of `t` below its root. -/
def ChildrenStored (store : NodeStore K H) : RowTrie K → Prop
  | .leaf .. => True
  | .branch _ _ l r => Stores store l ∧ Stores store r

variable {t : RowTrie K} {o : Option (RowTrie K)}

theorem Stores.root (hs : Stores store t) : store.lookup (hashTrie t) = some (nodeOf t) := by
  cases hs <;> assumption

theorem Stores.mono (hs : Stores store t) (he : Extends store store') : Stores store' t := by
  induction hs with
  | leaf p a h => exact .leaf p a (he _ _ h)
  | branch b pre h _ _ ihl ihr => exact .branch b pre (he _ _ h) ihl ihr

theorem Stores.of_children (hroot : store.lookup (hashTrie t) = some (nodeOf t))
    (hc : ChildrenStored store t) : Stores store t := by
  cases t with
  | leaf p a => exact .leaf p a hroot
  | branch b pre l r => exact .branch b pre hroot hc.1 hc.2

theorem ChildrenStored.mono (hc : ChildrenStored store t) (he : Extends store store') :
    ChildrenStored store' t := by
  cases t with
  | leaf => trivial
  | branch => exact ⟨hc.1.mono he, hc.2.mono he⟩

theorem StoresOpt.mono (hs : StoresOpt store o) (he : Extends store store') :
    StoresOpt store' o := by
  cases o with
  | none => trivial
  | some t => exact Stores.mono hs he

variable [Zero H]

/-- The root of a possibly empty trie: `Hash::ZERO` for no rows. -/
def rootOf : Option (RowTrie K) → H
  | none => 0
  | some t => hashTrie t

/-- `store` holds `o`, the canonical trie of the rows `m`. -/
structure Holds (store : NodeStore K H) (o : Option (RowTrie K))
    (m : Bytes32 → Option (K × Bytes)) : Prop where
  canon : CanonOpt o m
  stores : StoresOpt store o
  valid : Valid store

variable {m m' : Bytes32 → Option (K × Bytes)}

theorem Canon.bitAt_eq {b : ℕ} {pre p : Bytes32} {l r : RowTrie K}
    (h : Canon (.branch b pre l r) m) (hp : m p ≠ none) {i : ℕ} (hi : i < b) :
    bitAt p i = bitAt pre i := by
  simpa using h.agree hp hi

/-! ## Collision-free hashing -/

section CollisionFree

variable [CollisionFree K H]

omit [DecidableEq H] in
theorem hashTrie_ne_zero (t : RowTrie K) : (hashTrie t : H) ≠ 0 := by
  rw [← hashNode_nodeOf]
  exact CollisionFree.ne_zero _

omit [DecidableEq H] in
theorem rootOf_eq_zero : (rootOf o : H) = 0 ↔ o = none := by
  cases o with
  | none => simp [rootOf]
  | some t => simp [rootOf, hashTrie_ne_zero]

omit [DecidableEq H] in
theorem nodeOf_eq_of_hashTrie_eq {t' : RowTrie K} (h : (hashTrie t : H) = hashTrie t') :
    (nodeOf t : StateNodeV2 K H) = nodeOf t' := by
  rw [← hashNode_nodeOf, ← hashNode_nodeOf] at h
  exact CollisionFree.injective h

omit [DecidableEq H] in
theorem hashTrie_injective : Function.Injective (hashTrie : RowTrie K → H) := by
  intro t
  induction t with
  | leaf p a =>
    intro t' h
    have hn := nodeOf_eq_of_hashTrie_eq h
    cases t' with
    | leaf p' a' =>
      simp only [nodeOf, StateNodeV2.leaf.injEq] at hn
      obtain ⟨rfl, h1, h2⟩ := hn
      rw [Prod.ext h1 h2]
    | branch => simp [nodeOf] at hn
  | branch b pre l r ihl ihr =>
    intro t' h
    have hn := nodeOf_eq_of_hashTrie_eq h
    cases t' with
    | leaf => simp [nodeOf] at hn
    | branch b' pre' l' r' =>
      simp only [nodeOf, StateNodeV2.branch.injEq] at hn
      obtain ⟨rfl, rfl, hl, hr⟩ := hn
      rw [ihl hl, ihr hr]

variable [DecidableEq K]

/-- `store'` is `store` with the node `n` under its hash. -/
structure Stored (store store' : NodeStore K H) (n : StateNodeV2 K H) : Prop where
  ext : Extends store store'
  lookup : store'.lookup (hashNode n) = some n
  valid : Valid store'

theorem storeNode_ok (hv : Valid store) (n : StateNodeV2 K H) :
    ∃ store', storeNode store n = .ok (hashNode n, store') ∧ Stored store store' n := by
  cases hl : store.lookup (hashNode n) with
  | none =>
    refine ⟨store.insert (hashNode n) n, by simp [storeNode, hl], ⟨?_, by simp, ?_⟩⟩
    · intro h n' hn'
      have hne : h ≠ hashNode n := by
        rintro rfl
        rw [hl] at hn'
        exact absurd hn' (Option.some_ne_none n').symm
      rw [Finmap.lookup_insert_of_ne _ hne]
      exact hn'
    · intro h n' hn'
      by_cases hh : h = hashNode n
      · subst hh
        rw [Finmap.lookup_insert, Option.some_inj] at hn'
        rw [hn']
      · rw [Finmap.lookup_insert_of_ne _ hh] at hn'
        exact hv h n' hn'
  | some e =>
    have he : e = n := CollisionFree.injective (hv _ _ hl)
    subst he
    exact ⟨store, by simp [storeNode, hl], ⟨Extends.refl _, hl, hv⟩⟩

/-! ## One update -/

/-- The result of an update from `store`: success, in a store that extends `store` and holds the
canonical trie of the rows `m'` under the returned root. -/
def UpdatesTo (result : Option (Except (StateTreeError H) (H × NodeStore K H)))
    (store : NodeStore K H) (m' : Bytes32 → Option (K × Bytes)) : Prop :=
  ∃ o store', result = some (.ok (rootOf o, store')) ∧ Holds store' o m' ∧ Extends store store'

omit [CollisionFree K H] [DecidableEq K] in
theorem updatesTo_same (h : Holds store' (some t) m') (hext : Extends store store') :
    UpdatesTo (some (.ok (hashTrie t, store'))) store m' :=
  ⟨some t, store', rfl, h, hext⟩

omit [CollisionFree K H] [DecidableEq K] in
theorem updatesTo_empty (hv : Valid store) (hm : ∀ p, m' p = none) :
    UpdatesTo (some (.ok (0, store))) store m' :=
  ⟨none, store, rfl, ⟨hm, trivial, hv⟩, Extends.refl _⟩

theorem updatesTo_storeNode {s : NodeStore K H} {t' : RowTrie K} {n : StateNodeV2 K H}
    (hv : Valid s) (hcanon : Canon t' m') (hc : ChildrenStored s t') (hext : Extends store s)
    (hn : nodeOf t' = n) : UpdatesTo (some (storeNode s n)) store m' := by
  subst hn
  obtain ⟨s', h, hs⟩ := storeNode_ok hv (nodeOf t')
  refine ⟨some t', s', by rw [h, hashNode_nodeOf]; rfl, ⟨hcanon, ?_, hs.valid⟩, hext.trans hs.ext⟩
  exact Stores.of_children (by rw [← hashNode_nodeOf]; exact hs.lookup) (hc.mono hs.ext)

theorem updatesTo_leaf {position : Bytes32} {key : K} {value : Bytes} (hv : Valid store)
    (hm : m' = single position (key, value)) :
    UpdatesTo (some (storeNode store (.leaf position key value))) store m' := by
  subst hm
  exact updatesTo_storeNode hv (.leaf position (key, value)) trivial (Extends.refl _) rfl

omit [Zero H] [CollisionFree K H] in
theorem storeBranch_eq (s : NodeStore K H) (bit : ℕ) (q : Bytes32) (existing inserted : H) :
    storeBranch s bit q existing inserted =
      storeNode s (if bitAt q bit then .branch bit (prefixOf q bit) existing inserted
        else .branch bit (prefixOf q bit) inserted existing) := by
  unfold storeBranch
  cases bitAt q bit <;> rfl

/-- A new leaf at `position`, whose first difference from every row of `t` is at bit `e`: a
branch on `e` over `t` and the leaf (`canon_split`). -/
theorem updatesTo_split (h : Holds store (some t) m) {position : Bytes32} {e : ℕ}
    (he : e < treeDepth)
    (hdiff : ∀ p, m p ≠ none → (∀ i < e, bitAt p i = bitAt position i) ∧ bitAt p e ≠ bitAt position e)
    (key : K) (value : Bytes) :
    UpdatesTo (some do
        let inserted ← storeNode store (.leaf position key value)
        storeBranch inserted.2 e position (hashTrie t) inserted.1)
      store (Function.update m position (some (key, value))) := by
  obtain ⟨s1, h1, hs1⟩ := storeNode_ok h.valid (.leaf position key value)
  have hcanon := canon_split h.canon (q := position) he (by simpa using hdiff) (key, value)
  have hleaf : Stores s1 (.leaf position (key, value)) := .leaf _ _ hs1.lookup
  have ht : Stores s1 t := Stores.mono h.stores hs1.ext
  rw [h1]
  simp only [bind, Except.bind, storeBranch_eq]
  simp only [bitString_bitAt, bitString_prefixOf] at hcanon
  refine updatesTo_storeNode hs1.valid hcanon ?_ hs1.ext ?_
  · cases bitAt position e
    · exact ⟨hleaf, ht⟩
    · exact ⟨ht, hleaf⟩
  · cases bitAt position e <;> rfl

/-- The update of the child on the side of `position` came back: the branch is kept when the
child is unchanged, gives way to the sibling when the child emptied, and is stored again over the
new child otherwise (`canon_descend`, `canon_collapse`). -/
theorem updatesTo_descend {b : ℕ} {pre position : Bytes32} {l r : RowTrie K}
    (ht : Canon (.branch b pre l r) m) (hs : Stores store (.branch b pre l r))
    (hq : prefixOf position b = pre) {x : Option (K × Bytes)} {o : Option (RowTrie K)}
    (h : Holds store' o (Function.update (half m b (bitAt position b)) position x))
    (hext : Extends store store') :
    UpdatesTo (some
        (if (rootOf o : H) = (if bitAt position b then hashTrie r else hashTrie l) then
          pure (hashTrie (.branch b pre l r), store')
        else if (rootOf o : H) = 0 then pure (if bitAt position b then hashTrie l else hashTrie r, store')
        else
          storeNode store' (if bitAt position b then .branch b pre (hashTrie l) (rootOf o)
            else .branch b pre (rootOf o) (hashTrie r))))
      store (Function.update m position x) := by
  have hsl : Stores store' l := by cases hs with | branch _ _ _ hl _ => exact hl.mono hext
  have hsr : Stores store' r := by cases hs with | branch _ _ _ _ hr => exact hr.mono hext
  by_cases hsame : (rootOf o : H) = if bitAt position b then hashTrie r else hashTrie l
  · -- the child is unchanged, and so is the branch
    rw [if_pos hsame]
    obtain ⟨t', rfl⟩ := Option.ne_none_iff_exists'.mp fun hnone : o = none => by
      rw [hnone, rootOf] at hsame
      split at hsame <;> exact hashTrie_ne_zero _ hsame.symm
    obtain rfl : t' = if bitAt position b then r else l :=
      hashTrie_injective (hsame.trans (apply_ite hashTrie _ _ _).symm)
    have hcanon := canon_descend ht (by simpa using hq) h.canon
    simp only [bitString_bitAt] at hcanon
    refine updatesTo_same ⟨?_, hs.mono hext, h.valid⟩ hext
    by_cases hc : bitAt position b = true <;> simpa [hc] using hcanon
  rw [if_neg hsame]
  by_cases hzero : (rootOf o : H) = 0
  · -- the child emptied: only the sibling is left
    rw [if_pos hzero]
    obtain rfl := rootOf_eq_zero.mp hzero
    have hempty : ∀ p, Function.update (half m b (bitAt position b)) position x p = none := h.canon
    obtain rfl : x = none := by simpa using hempty position
    have hcanon := canon_collapse ht (q := position) hempty
    simp only [bitString_bitAt] at hcanon
    refine ⟨some (if bitAt position b then l else r), store', ?_, ⟨hcanon, ?_, h.valid⟩, hext⟩
    · split <;> rfl
    · split
      · exact hsl
      · exact hsr
  · -- a new child under the same branch
    rw [if_neg hzero]
    obtain ⟨t', rfl⟩ := Option.ne_none_iff_exists'.mp fun hnone : o = none =>
      hzero (by rw [hnone]; rfl)
    have hcanon := canon_descend ht (by simpa using hq) h.canon
    simp only [bitString_bitAt] at hcanon
    refine updatesTo_storeNode h.valid hcanon ?_ hext ?_
    · split
      · exact ⟨hsl, h.stores⟩
      · exact ⟨h.stores, hsr⟩
    · split <;> rfl

/-! ## Rows at their positions -/

variable [StateKey K]

/-- The rows sit at the positions of their keys, and each reads back from its leaf: the key's
wire decodes to the key and the value fits `MAX_BYTES`. -/
def Positioned (m : Bytes32 → Option (K × Bytes)) : Prop :=
  ∀ p a, m p = some a → statePosition a.1 = p ∧ readsBack a.1 = true ∧ a.2.length ≤ maxBytes

omit [DecidableEq K] in
theorem Positioned.half (hpos : Positioned m) (b : ℕ) (s : Bool) : Positioned (half m b s) :=
  fun p a hp => hpos p a (half_eq_some hp)

omit [DecidableEq K] in
theorem Positioned.update (hpos : Positioned m) {key : K} {value : Option Bytes}
    (hvalue : ∀ v ∈ value, readsBack key = true ∧ v.length ≤ maxBytes) :
    Positioned (Function.update m (statePosition key) (value.map (key, ·))) := by
  intro p a hp
  by_cases hpk : p = statePosition key
  · subst hpk
    rw [Function.update_self] at hp
    obtain ⟨v, hv, rfl⟩ := Option.map_eq_some_iff.mp hp
    exact ⟨rfl, hvalue v hv⟩
  · rw [Function.update_of_ne hpk] at hp
    exact hpos p a hp

omit [DecidableEq K] in
theorem Canon.isCanonical (h : Canon t m) (hpos : Positioned m) :
    (nodeOf t : StateNodeV2 K H).isCanonical = true := by
  cases h with
  | leaf p a =>
    obtain ⟨hp, hkey, hvalue⟩ := hpos p a (single_self p a)
    simp [nodeOf, StateNodeV2.isCanonical, hp, hkey, hvalue]
  | @branch b pre l r _ hb hpre hl hr =>
    have hbr : Canon (.branch b pre l r) m := .branch hb hpre hl hr
    have hne : (hashTrie l : H) ≠ hashTrie r := fun heq =>
      hbr.left_ne_right (hashTrie_injective heq)
    have hlt : ¬ treeDepth ≤ b := Nat.not_le.mpr hb
    have hpre' : prefixOf pre b = pre := hbr.prefixOf_pre
    simp [nodeOf, StateNodeV2.isCanonical, hlt, hpre', hashTrie_ne_zero, hne]

omit [CollisionFree K H] [DecidableEq K] in
theorem readNode_hashTrie (hs : Stores store t)
    (hc : (nodeOf t : StateNodeV2 K H).isCanonical = true) :
    readNode store (hashTrie t) = .ok (nodeOf t) := by
  simp [readNode, hs.root, hc]

omit [DecidableEq K] in
theorem Holds.readNode (h : Holds store (some t) m) (hpos : Positioned m) :
    V2.readNode store (hashTrie t) = .ok (nodeOf t) :=
  readNode_hashTrie h.stores (Canon.isCanonical h.canon hpos)

/-- **`update` refines the canonical trie.** From a store holding the canonical trie `t` of the
rows `m`, setting the row of `key` at `position` (where no other key has a row) to `value`
succeeds, given more fuel than the trie is high. -/
theorem update_canon_trie {position : Bytes32} {key : K} {value : Option Bytes} {fuel : ℕ}
    (ht : Canon t m) (hs : Stores store t) (hv : Valid store) (hpos : Positioned m)
    (hcoll : ∀ a, m position = some a → a.1 = key) (hfuel : t.height < fuel) :
    UpdatesTo (update store (hashTrie t) position key value fuel) store
      (Function.update m position (value.map (key, ·))) := by
  induction ht generalizing store fuel with
  | leaf p a =>
    obtain ⟨fuel, rfl⟩ : ∃ f, fuel = f + 1 := ⟨fuel - 1, by simp only [Trie.height] at hfuel; omega⟩
    have hread := readNode_hashTrie hs (Canon.isCanonical (.leaf p a) hpos)
    simp only [update, if_neg (hashTrie_ne_zero _), hread, nodeOf]
    by_cases hp : p = position
    · -- the leaf holds the row of `key` itself
      subst hp
      have hkey : a.1 = key := hcoll a (single_self p a)
      rw [if_pos rfl, if_neg (not_not.mpr hkey)]
      cases value with
      | none => exact updatesTo_empty hv (update_single_none p · a)
      | some v =>
        dsimp only
        by_cases hva : v = a.2
        · rw [if_pos hva]
          refine updatesTo_same ⟨?_, hs, hv⟩ (Extends.refl _)
          rw [Option.map_some, ← hkey, hva, Prod.mk.eta, update_single_self]
          exact .leaf p a
        · rw [if_neg hva]
          exact updatesTo_leaf hv (by rw [Option.map_some, update_single_self])
    · -- a row beside the leaf
      rw [if_neg hp]
      have hmq : single p a position = none := if_neg (Ne.symm hp)
      cases value with
      | none =>
        refine updatesTo_same ⟨?_, hs, hv⟩ (Extends.refl _)
        rw [Option.map_none, ← hmq, Function.update_eq_self]
        exact .leaf p a
      | some v =>
        dsimp only
        obtain ⟨bit, hbit⟩ := Option.ne_none_iff_exists'.mp fun h => hp (firstDifferingBit_eq_none h)
        have hdiff := firstDifferingBit_eq_some hbit
        rw [hbit, Option.map_some]
        refine updatesTo_split ⟨.leaf p a, hs, hv⟩ hdiff.lt_depth (fun q hq => ?_) key v
        rw [single_eq_some hq]
        exact ⟨hdiff.agree, hdiff.ne⟩
  | @branch b pre l r m hb hpre hl hr ihl ihr =>
    have hbr : Canon (.branch b pre l r) m := .branch hb hpre hl hr
    obtain ⟨fuel, rfl⟩ : ∃ f, fuel = f + 1 := ⟨fuel - 1, by simp only [Trie.height] at hfuel; omega⟩
    have hread := readNode_hashTrie hs (Canon.isCanonical hbr hpos)
    simp only [update, if_neg (hashTrie_ne_zero _), hread, nodeOf]
    cases hfd : firstDifferenceBefore position pre b with
    | some earlier =>
      -- `position` leaves the prefix of the branch at `earlier`
      obtain ⟨hlt, hne, hagree⟩ := firstDifferenceBefore_eq_some hfd
      cases value with
      | none =>
        refine updatesTo_same ⟨?_, hs, hv⟩ (Extends.refl _)
        rw [Option.map_none, ← hbr.eq_none_of_diverge hlt (by simpa using hne),
          Function.update_eq_self]
        exact hbr
      | some v =>
        dsimp only
        refine updatesTo_split ⟨hbr, hs, hv⟩ (hlt.trans hb) (fun q hq => ⟨fun i hi => ?_, ?_⟩) key v
        · rw [Canon.bitAt_eq hbr hq (hi.trans hlt), hagree i hi]
        · rw [Canon.bitAt_eq hbr hq hlt]
          exact Ne.symm hne
    | none =>
      -- `position` shares the prefix: the row goes below, on its side of the branch
      have hagree := firstDifferenceBefore_eq_none hfd
      have hq : prefixOf position b = pre := by
        obtain ⟨p, hp⟩ := hbr.nonempty
        have hpre' : prefixOf p b = pre := by simpa using hpre p hp
        have hsame := @prefixOf_eq_of_agree Bytes32 _ position p b fun i hi => by
          simpa [Canon.bitAt_eq hbr hp hi] using hagree i hi
        simp only [bitString_prefixOf] at hsame
        rw [hsame, hpre']
      cases hs with
      | branch _ _ hroot hsl hsr =>
        have hheight : max l.height r.height < fuel := by
          simp only [Trie.height] at hfuel
          omega
        have hrec : UpdatesTo (update store (if bitAt position b then hashTrie r else hashTrie l)
            position key value fuel) store
            (Function.update (half m b (bitAt position b)) position (value.map (key, ·))) := by
          by_cases hside : bitAt position b = true
          · rw [if_pos hside, hside]
            exact ihr hsr hv (hpos.half b true) (fun a ha => hcoll a (half_eq_some ha)) (by omega)
          · rw [if_neg hside, Bool.eq_false_iff.mpr hside]
            exact ihl hsl hv (hpos.half b false) (fun a ha => hcoll a (half_eq_some ha)) (by omega)
        obtain ⟨o, s', heq, h', hext⟩ := hrec
        rw [heq, Option.map_some]
        simp only [bind, Except.bind]
        exact updatesTo_descend hbr (.branch _ _ hroot hsl hsr) hq h' hext

theorem update_canon {position : Bytes32} {key : K} {value : Option Bytes} {fuel : ℕ}
    (h : Holds store o m) (hpos : Positioned m) (hcoll : ∀ a, m position = some a → a.1 = key)
    (hfuel : treeDepth < fuel) :
    UpdatesTo (update store (rootOf o) position key value fuel) store
      (Function.update m position (value.map (key, ·))) := by
  cases o with
  | none =>
    obtain ⟨fuel, rfl⟩ : ∃ f, fuel = f + 1 := ⟨fuel - 1, by omega⟩
    have hm : ∀ p, m p = none := h.canon
    simp only [update, rootOf]
    cases value with
    | none =>
      refine updatesTo_empty h.valid fun p => ?_
      rw [Option.map_none, Function.update_apply]
      split
      · rfl
      · exact hm p
    | some v => exact updatesTo_leaf h.valid (by rw [Option.map_some, update_eq_single hm])
  | some t =>
    exact update_canon_trie h.canon h.stores h.valid hpos hcoll
      (lt_of_le_of_lt (Canon.height_le h.canon) hfuel)

/-! ## Runs of `apply` -/

/-- `tree` holds, under its root, the canonical trie of the rows `m`, which sit at the positions
of their keys. -/
structure TreeInv (tree : ServiceStateTreeV2 K H) (m : Bytes32 → Option (K × Bytes)) : Prop where
  holds : ∃ o, Holds tree.store o m ∧ tree.root = rootOf o
  positioned : Positioned m

/-- One `apply` keeps the invariant, the row of `key` set to `value`, when a written row reads
back. -/
theorem TreeInv.apply {tree : ServiceStateTreeV2 K H} (h : TreeInv tree m) {key : K}
    (hcoll : ∀ a, m (statePosition key) = some a → a.1 = key) {value : Option Bytes}
    (hvalue : ∀ v ∈ value, readsBack key = true ∧ v.length ≤ maxBytes) :
    ∃ tree', tree.apply key value = some (.ok tree') ∧
      TreeInv tree' (Function.update m (statePosition key) (value.map (key, ·))) := by
  obtain ⟨o, hh, hroot⟩ := h.holds
  obtain ⟨o', s', heq, h', -⟩ := update_canon hh h.positioned hcoll (Nat.lt_succ_self treeDepth)
  refine ⟨⟨s', rootOf o'⟩, ?_, ⟨⟨o', h', rfl⟩, h.positioned.update hvalue⟩⟩
  rw [ServiceStateTreeV2.apply, hroot, heq]
  rfl

/-- The rows a run writes read back from their leaves. -/
def RowsReadBack (rows : List (K × Option Bytes)) : Prop :=
  ∀ row ∈ rows, ∀ v ∈ row.2, readsBack row.1 = true ∧ v.length ≤ maxBytes

/-- A run of `apply` calls whose keys have distinct positions, and whose written rows read back,
keeps the invariant. -/
theorem TreeInv.applyAll {S : Set K} (hS : Set.InjOn statePosition S) :
    ∀ (rows : List (K × Option Bytes)) {tree : ServiceStateTreeV2 K H}
      {m : Bytes32 → Option (K × Bytes)}, (∀ row ∈ rows, row.1 ∈ S) → RowsReadBack rows →
      (∀ p a, m p = some a → a.1 ∈ S) → TreeInv tree m →
      ∃ tree', tree.applyAll rows = some (.ok tree') ∧ TreeInv tree' (rowsAfter m rows)
  | [], tree, _, _, _, _, h => ⟨tree, rfl, h⟩
  | (key, value) :: rows, tree, m, hrows, hread, hm, h => by
    have hkey : key ∈ S := hrows (key, value) List.mem_cons_self
    -- the only row at the position of `key` is the row of `key`
    have hcoll : ∀ a, m (statePosition key) = some a → a.1 = key := fun a ha =>
      hS (hm _ a ha) hkey (h.positioned _ a ha).1
    obtain ⟨tree₁, h₁, hinv₁⟩ := h.apply hcoll (hread (key, value) List.mem_cons_self)
    have hm₁ : ∀ p a, Function.update m (statePosition key) (value.map (key, ·)) p = some a →
        a.1 ∈ S := by
      intro p a hp
      by_cases hpk : p = statePosition key
      · subst hpk
        rw [Function.update_self] at hp
        obtain ⟨v, -, rfl⟩ := Option.map_eq_some_iff.mp hp
        exact hkey
      · rw [Function.update_of_ne hpk] at hp
        exact hm p a hp
    obtain ⟨tree', h', hinv'⟩ := TreeInv.applyAll hS rows
      (fun row hrow => hrows row (List.mem_cons_of_mem _ hrow))
      (fun row hrow => hread row (List.mem_cons_of_mem _ hrow)) hm₁ hinv₁
    refine ⟨tree', ?_, hinv'⟩
    rw [ServiceStateTreeV2.applyAll, h₁]
    exact h'

omit [CollisionFree K H] [DecidableEq K] in
theorem TreeInv.empty (hvalid : Valid store) :
    TreeInv (⟨store, emptyStateRoot⟩ : ServiceStateTreeV2 K H) fun _ => none :=
  ⟨⟨none, ⟨fun _ => rfl, trivial, hvalid⟩, rfl⟩, fun _ a h => absurd h (Option.some_ne_none a).symm⟩

/-! ## Lookups -/

/-- What `get` answers for the row it finds at the position of `key`: a row of another key at
that position is a collision. -/
def foundRow (key : K) : Option (K × Bytes) → Except (StateTreeError H) (Option Bytes)
  | none => .ok none
  | some (k, v) => if k ≠ key then .error .keyCollision else .ok (some v)

/-- **`get` refines the lookup of the trie.** From a node holding the canonical trie `t`, the
loop of `get` answers with the row the trie has at the key's position, given more fuel than the
trie is high. -/
theorem getFrom_hashTrie {position : Bytes32} {key : K} {fuel : ℕ} (ht : Canon t m)
    (hs : Stores store t) (hpos : Positioned m) (hfuel : t.height < fuel) :
    getFrom store position key fuel (hashTrie t) = some (foundRow key (t.find position)) := by
  induction ht generalizing fuel with
  | leaf p a =>
    obtain ⟨fuel, rfl⟩ : ∃ f, fuel = f + 1 := ⟨fuel - 1, by simp only [Trie.height] at hfuel; omega⟩
    have hread := readNode_hashTrie hs (Canon.isCanonical (.leaf p a) hpos)
    simp only [getFrom, if_neg (hashTrie_ne_zero _), hread, nodeOf, Trie.find]
    obtain ⟨k, v⟩ := a
    by_cases hp : p = position <;> by_cases hk : k = key <;> simp [hp, hk, foundRow]
  | @branch b pre l r m hb hpre hl hr ihl ihr =>
    have hbr : Canon (.branch b pre l r) m := .branch hb hpre hl hr
    obtain ⟨fuel, rfl⟩ : ∃ f, fuel = f + 1 := ⟨fuel - 1, by simp only [Trie.height] at hfuel; omega⟩
    have hread := readNode_hashTrie hs (Canon.isCanonical hbr hpos)
    simp only [getFrom, if_neg (hashTrie_ne_zero _), hread, nodeOf, Trie.find, bitString_prefixOf,
      bitString_bitAt]
    obtain ⟨-, hsl, hsr⟩ : _ ∧ Stores store l ∧ Stores store r := by cases hs; tauto
    have hheight : l.height < fuel ∧ r.height < fuel := by
      simp only [Trie.height] at hfuel
      omega
    by_cases hq : prefixOf position b = pre
    · -- the key shares the prefix: the loop goes on down the side its bit names
      rw [if_neg (not_not.mpr hq), if_neg (not_not.mpr hq)]
      by_cases hside : bitAt position b = true
      · rw [if_pos hside, if_pos hside]
        exact ihr hsr (hpos.half b true) hheight.2
      · rw [if_neg hside, if_neg hside]
        exact ihl hsl (hpos.half b false) hheight.1
    · rw [if_pos hq, if_pos hq]
      rfl

/-- `get` on a tree holding the canonical trie of `m` answers with the row `m` has at the key's
position. -/
theorem TreeInv.get {tree : ServiceStateTreeV2 K H} (h : TreeInv tree m) (key : K) :
    tree.get key = some (foundRow key (m (statePosition key))) := by
  obtain ⟨o, hh, hroot⟩ := h.holds
  rw [ServiceStateTreeV2.get, hroot]
  cases o with
  | none =>
    have hm : m (statePosition key) = none := hh.canon _
    rw [hm, rootOf, getFrom, if_pos rfl]
    rfl
  | some t =>
    rw [rootOf, getFrom_hashTrie hh.canon hh.stores h.positioned
      (lt_of_le_of_lt (Canon.height_le hh.canon) (Nat.lt_succ_self treeDepth)),
      Canon.find_eq hh.canon]

end CollisionFree

/-! ## History independence -/

variable [DecidableEq K] [StateKey K]

/-- `canonical_root(M)`: the root of the canonical trie of the rows `M`, kept at the positions of
their keys; `Hash::ZERO` when there are none. -/
def canonicalRoot (M : Finmap fun _ : Bytes32 => K × Bytes) : H :=
  rootOf (Patricia.canonical M)

/-- **The state tree is history independent.** From the empty root, over any valid store, every
run of `apply` calls whose keys have distinct positions and whose written rows read back from
their leaves succeeds, and its root is the canonical root of the rows the run leaves: whatever
the order of the calls, and whichever rows were set and deleted on the way. -/
theorem apply_canonical_root [CollisionFree K H] (store : NodeStore K H) (hvalid : Valid store)
    (rows : List (K × Option Bytes)) (hpos : Set.InjOn statePosition {k | ∃ v, (k, v) ∈ rows})
    (hread : RowsReadBack rows) (M : Finmap fun _ : Bytes32 => K × Bytes)
    (hM : ∀ p a, M.lookup p = some a ↔ statePosition a.1 = p ∧ netEffect rows a.1 = some a.2) :
    ∃ store', ServiceStateTreeV2.applyAll ⟨store, emptyStateRoot⟩ rows =
      some (.ok ⟨store', canonicalRoot M⟩) := by
  obtain ⟨tree, hrun, hinv⟩ := TreeInv.applyAll hpos rows (fun row hrow => ⟨row.2, hrow⟩) hread
    (fun _ a h => absurd h (Option.some_ne_none a).symm) (TreeInv.empty hvalid)
  have hrows : rowsAfter (fun _ => none) rows = fun p => M.lookup p :=
    funext fun p => Option.ext fun a => (rowsAfter_eq_some hpos p a).trans (hM p a).symm
  obtain ⟨o, hh, hroot⟩ := hinv.holds
  rw [hrows] at hh
  refine ⟨tree.store, ?_⟩
  rw [hrun, canonicalRoot, ← CanonOpt.eq_canonical hh.canon, ← hroot]

/-- **The state tree is a finite map.** From the empty root, over any valid store, every run of
`apply` calls whose written rows read back from their leaves succeeds, and `get` then answers
every key with the value its last call left: the value last written, or none when the row was
deleted since or never written. The keys of the run and the key read sit at distinct
positions. -/
theorem get_applyAll [CollisionFree K H] (store : NodeStore K H) (hvalid : Valid store)
    (rows : List (K × Option Bytes)) (key : K)
    (hpos : Set.InjOn statePosition (insert key {k | ∃ v, (k, v) ∈ rows}))
    (hread : RowsReadBack rows) :
    ∃ tree, ServiceStateTreeV2.applyAll ⟨store, emptyStateRoot⟩ rows = some (.ok tree) ∧
      tree.get key = some (.ok (netEffect rows key)) := by
  have hrows : Set.InjOn statePosition {k | ∃ v, (k, v) ∈ rows} :=
    hpos.mono (Set.subset_insert _ _)
  obtain ⟨tree, hrun, hinv⟩ := TreeInv.applyAll hrows rows (fun row hrow => ⟨row.2, hrow⟩) hread
    (fun _ a h => absurd h (Option.some_ne_none a).symm) (TreeInv.empty hvalid)
  refine ⟨tree, hrun, ?_⟩
  rw [hinv.get key]
  cases hrow : rowsAfter (fun _ => none) rows (statePosition key) with
  | none =>
    -- no row at the key's position, so no call left a value for the key
    cases hnet : netEffect rows key with
    | none => rfl
    | some v =>
      have := (rowsAfter_eq_some hrows (statePosition key) (key, v)).mpr ⟨rfl, hnet⟩
      rw [hrow] at this
      cases this
  | some a =>
    -- the row at the key's position is the key's own
    obtain ⟨hposa, hnet⟩ := (rowsAfter_eq_some hrows _ a).mp hrow
    obtain ⟨v', hv'⟩ := mem_of_netEffect_eq_some hnet
    have hka : a.1 = key := hpos (Set.mem_insert_of_mem _ ⟨v', hv'⟩) (Set.mem_insert _ _) hposa
    obtain ⟨k, v⟩ := a
    subst hka
    simp [foundRow, hnet]

/-! ### A collision-free instance -/

/-- Hashes as syntax: `hash_node` of a node is the node itself, so it has no collisions. -/
inductive NodeHash (K : Type)
  | zero
  | leaf (position : Bytes32) (logicalKey : K) (value : Bytes)
  | branch (bit : ℕ) (prefixBits : Bytes32) (left right : NodeHash K)
  deriving DecidableEq

instance : Zero (NodeHash K) := ⟨.zero⟩

instance : StateHasher K (NodeHash K) where
  hashNode
    | .leaf p k v => .leaf p k v
    | .branch b pre l r => .branch b pre l r

instance : CollisionFree K (NodeHash K) where
  injective n n' h := by
    cases n <;> cases n' <;> simp_all [hashNode]
  ne_zero n h := by
    cases n <;> cases h

/-- A stand-in for BLAKE2b: the 32 bytes after the domain, so a key's position is the start of
its wire. -/
def windowDigest (bs : Bytes) : Bytes32 := Vector.ofFn fun i => bs.getD (24 + i.val) 0

instance : StateKey StateKeyV2 := stateKeyV2 windowDigest

/-- The row of actor `1` under the key `[1]`. -/
def actorRowOne : StateKeyV2 := .actorRow (Vector.replicate 32 1) [1]

theorem statePosition_injOn :
    Set.InjOn (statePosition : StateKeyV2 → Bytes32) {actorRowOne, .roleAuthority} := by
  have hne : (statePosition actorRowOne : Bytes32) ≠ statePosition StateKeyV2.roleAuthority := by
    decide +kernel
  rintro a (rfl | rfl) b (rfl | rfl) h
  all_goals first | rfl | exact absurd h hne | exact absurd h.symm hne

theorem readsBack_actorRowOne : readsBack actorRowOne = true :=
  StateKeyV2.readsBack_iff.mpr ⟨by decide, rfl⟩

theorem readsBack_roleAuthority : readsBack StateKeyV2.roleAuthority = true :=
  StateKeyV2.readsBack_iff.mpr ⟨by decide, rfl⟩

/-- Write `actorRowOne` and `RoleAuthority`, then delete `actorRowOne`. -/
def sampleRows : List (StateKeyV2 × Option Bytes) :=
  [(actorRowOne, some [5]), (.roleAuthority, some [6]), (actorRowOne, none)]

theorem actorRowOne_ne_roleAuthority : actorRowOne ≠ .roleAuthority := by
  simp [actorRowOne]

theorem netEffect_sampleRows (k : StateKeyV2) :
    netEffect sampleRows k = if k = .roleAuthority then some [6] else none := by
  by_cases h1 : k = actorRowOne
  · subst h1
    simp [sampleRows, netEffect, actorRowOne_ne_roleAuthority]
  · by_cases h2 : k = .roleAuthority
    · subst h2
      simp [sampleRows, netEffect, actorRowOne_ne_roleAuthority]
    · simp [sampleRows, netEffect, Ne.symm h1, Ne.symm h2, h2]

theorem sampleRows_keys : {k | ∃ v, (k, v) ∈ sampleRows} ⊆ {actorRowOne, .roleAuthority} := by
  rintro k ⟨v, hk⟩
  simp only [sampleRows, List.mem_cons, Prod.mk.injEq, List.mem_nil_iff, or_false] at hk
  rcases hk with ⟨rfl, -⟩ | ⟨rfl, -⟩ | ⟨rfl, -⟩ <;> simp

theorem rowsReadBack_sampleRows : RowsReadBack sampleRows := by
  intro row hrow v hv
  simp only [sampleRows, List.mem_cons, List.mem_nil_iff, or_false] at hrow
  rcases hrow with rfl | rfl | rfl
  · exact ⟨readsBack_actorRowOne, by cases hv; decide⟩
  · exact ⟨readsBack_roleAuthority, by cases hv; decide⟩
  · cases hv

theorem apply_canonical_root_rows :
    let M : Finmap fun _ : Bytes32 => StateKeyV2 × Bytes :=
      Finmap.singleton (statePosition StateKeyV2.roleAuthority) (.roleAuthority, [6])
    Valid (∅ : NodeStore StateKeyV2 (NodeHash StateKeyV2)) ∧
      Set.InjOn statePosition {k | ∃ v, (k, v) ∈ sampleRows} ∧ RowsReadBack sampleRows ∧
      (∀ p a, M.lookup p = some a ↔ statePosition a.1 = p ∧ netEffect sampleRows a.1 = some a.2) ∧
      ∃ store', ServiceStateTreeV2.applyAll ⟨∅, emptyStateRoot⟩ sampleRows =
        some (.ok ⟨store', (canonicalRoot M : NodeHash StateKeyV2)⟩) := by
  intro M
  have hinj := statePosition_injOn.mono sampleRows_keys
  have hlookup : ∀ p, M.lookup p =
      if p = statePosition StateKeyV2.roleAuthority then some (.roleAuthority, [6]) else none := by
    intro p
    split
    · subst_vars
      exact Finmap.lookup_singleton_eq
    · exact Finmap.lookup_eq_none.mpr (by simpa [M, Finmap.mem_singleton])
  have hM : ∀ p a, M.lookup p = some a ↔
      statePosition a.1 = p ∧ netEffect sampleRows a.1 = some a.2 := by
    rintro p ⟨k, v⟩
    rw [hlookup, netEffect_sampleRows]
    by_cases hk : k = .roleAuthority <;>
      by_cases hp : p = statePosition StateKeyV2.roleAuthority <;> simp [hk, hp, eq_comm]
  exact ⟨Valid.empty, hinj, rowsReadBack_sampleRows, hM,
    apply_canonical_root ∅ Valid.empty sampleRows hinj rowsReadBack_sampleRows M hM⟩

theorem get_applyAll_rows :
    Valid (∅ : NodeStore StateKeyV2 (NodeHash StateKeyV2)) ∧
      Set.InjOn statePosition (insert actorRowOne {k | ∃ v, (k, v) ∈ sampleRows}) ∧
      RowsReadBack sampleRows ∧
      ∃ tree : ServiceStateTreeV2 StateKeyV2 (NodeHash StateKeyV2),
        ServiceStateTreeV2.applyAll ⟨∅, emptyStateRoot⟩ sampleRows = some (.ok tree) ∧
          tree.get actorRowOne = some (.ok (netEffect sampleRows actorRowOne)) := by
  have hkeys : insert actorRowOne {k | ∃ v, (k, v) ∈ sampleRows} ⊆ {actorRowOne, .roleAuthority} :=
    Set.insert_subset (Set.mem_insert _ _) sampleRows_keys
  have hinj := statePosition_injOn.mono hkeys
  exact ⟨Valid.empty, hinj, rowsReadBack_sampleRows,
    get_applyAll ∅ Valid.empty sampleRows actorRowOne hinj rowsReadBack_sampleRows⟩

/-! ### A key that does not read back -/

/-- The row of actor `1` under the empty key, which `decode_body` refuses. -/
def emptyActorRow : StateKeyV2 := .actorRow (Vector.replicate 32 1) []

theorem readsBack_emptyActorRow : StateKeyV2.readsBack emptyActorRow = false := by
  cases h : StateKeyV2.readsBack emptyActorRow
  · rfl
  · exact absurd (StateKeyV2.readsBack_iff.mp h).2 (by decide)

section EmptyActorRow

variable (blake2b : Bytes → Bytes32)

/-- The leaf that setting the row of `emptyActorRow` to `[7]` writes, under any BLAKE2b. -/
def emptyActorRowLeaf : StateNodeV2 StateKeyV2 (NodeHash StateKeyV2) :=
  .leaf ((stateKeyV2 blake2b).statePosition emptyActorRow) emptyActorRow [7]

/-- The store holding only that leaf. -/
def emptyActorRowStore : NodeStore StateKeyV2 (NodeHash StateKeyV2) :=
  (∅ : NodeStore _ _).insert (hashNode (emptyActorRowLeaf blake2b)) (emptyActorRowLeaf blake2b)

theorem apply_emptyActorRow :
    letI := stateKeyV2 blake2b
    (⟨∅, emptyStateRoot⟩ : ServiceStateTreeV2 StateKeyV2 (NodeHash StateKeyV2)).apply
      emptyActorRow (some [7]) =
      some (.ok ⟨emptyActorRowStore blake2b, hashNode (emptyActorRowLeaf blake2b)⟩) := by
  simp [ServiceStateTreeV2.apply, update, storeNode, emptyStateRoot, emptyActorRowStore,
    emptyActorRowLeaf, Except.map]

theorem readNode_emptyActorRowLeaf :
    letI := stateKeyV2 blake2b
    readNode (emptyActorRowStore blake2b) (hashNode (emptyActorRowLeaf blake2b)) =
      .error .corruptNode := by
  let _ := stateKeyV2 blake2b
  have hkey : readsBack emptyActorRow = false := readsBack_emptyActorRow
  simp [readNode, emptyActorRowStore, emptyActorRowLeaf, StateNodeV2.isCanonical, hkey]

end EmptyActorRow

/-- A row under an empty `ActorRow` key is written, but its leaf does not decode, so the next
call, here setting `RoleAuthority`, stops at `CorruptNode`; the two lemmas above hold under every
BLAKE2b. -/
theorem applyAll_emptyActorRow_corrupt :
    ServiceStateTreeV2.applyAll
      (⟨∅, emptyStateRoot⟩ : ServiceStateTreeV2 StateKeyV2 (NodeHash StateKeyV2))
      [(emptyActorRow, some [7]), (.roleAuthority, some [6])] = some (.error .corruptNode) := by
  have hroot : hashNode (emptyActorRowLeaf windowDigest) ≠ 0 := CollisionFree.ne_zero _
  rw [ServiceStateTreeV2.applyAll, apply_emptyActorRow]
  simp only [ServiceStateTreeV2.applyAll, ServiceStateTreeV2.apply, update, if_neg hroot,
    readNode_emptyActorRowLeaf]
  rfl

/-- `get` of a row just written under an empty `ActorRow` key is `CorruptNode`, not its
value. -/
theorem get_emptyActorRow_corrupt :
    ∃ tree : ServiceStateTreeV2 StateKeyV2 (NodeHash StateKeyV2),
      ServiceStateTreeV2.applyAll ⟨∅, emptyStateRoot⟩ [(emptyActorRow, some [7])] =
        some (.ok tree) ∧ tree.get emptyActorRow = some (.error .corruptNode) := by
  have hroot : hashNode (emptyActorRowLeaf windowDigest) ≠ 0 := CollisionFree.ne_zero _
  refine ⟨_, by rw [ServiceStateTreeV2.applyAll, apply_emptyActorRow]; rfl, ?_⟩
  simp only [ServiceStateTreeV2.get, getFrom, if_neg hroot, readNode_emptyActorRowLeaf]

end Vos.V2
