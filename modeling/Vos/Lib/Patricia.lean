import Mathlib.Data.Finmap

/-!
# Binary Patricia tries

A binary Patricia trie stores entries at fixed-length bit strings: a leaf holds one entry, and a
branch splits its entries on the first bit at which their positions disagree, remembering the
bits they all share before it. Over a given set of entries this trie is unique, whatever order the
entries arrived in.

* `BitString`: fixed-length bit strings read most significant bit first, with `prefixOf`, which
  keeps the bits before a level and clears the rest;
* `Trie`, `Trie.height`;
* `Canon t m`: `t` is the canonical trie of the entries `m`; **`Canon.eq`** (it is unique),
  `Canon.height_le`;
* `Trie.find`, the walk of a lookup, and **`Canon.find_eq`**: it reads the entries;
* `buildFrom`, `canonical`: the canonical trie of a finite map, computed, and `canonOpt_canonical`;
* how one entry changes a canonical trie: `canon_split` (a new entry leaves the shared bits above
  the root), `canon_descend` (it goes below a branch), `canon_collapse` (a branch loses one side).
-/

namespace Patricia

/-- Bit strings of length `depth`, read most significant bit first. `prefixOf p l` keeps the
bits of `p` before `l` and clears the others. -/
class BitString (Pos : Type) where
  depth : ℕ
  bitAt : Pos → ℕ → Bool
  prefixOf : Pos → ℕ → Pos
  bitAt_prefixOf (p : Pos) (l i : ℕ) :
    i < depth → bitAt (prefixOf p l) i = (decide (i < l) && bitAt p i)
  ext (p q : Pos) : (∀ i < depth, bitAt p i = bitAt q i) → p = q

open BitString

/-- A binary Patricia trie: a leaf holds an entry at its position; a branch splits on `bit`, below
which its positions share `prefixBits`. -/
inductive Trie (Pos α : Type)
  | leaf (position : Pos) (payload : α)
  | branch (bit : ℕ) (prefixBits : Pos) (left right : Trie Pos α)
  deriving DecidableEq

namespace Trie

variable {Pos α : Type}

/-- The number of branches on the longest path. -/
def height : Trie Pos α → ℕ
  | .leaf .. => 0
  | .branch _ _ l r => max l.height r.height + 1

end Trie

variable {Pos α : Type} [BitString Pos] [DecidableEq Pos]

/-! ## Bits and prefixes -/

omit [DecidableEq Pos] in
theorem bitAt_eq_of_prefixOf {p pre : Pos} {b i : ℕ} (h : prefixOf p b = pre) (hi : i < b)
    (hb : b ≤ depth Pos) : bitAt p i = bitAt pre i := by
  rw [← h, bitAt_prefixOf p b i (by omega)]
  simp [hi]

omit [DecidableEq Pos] in
theorem prefixOf_eq_of_agree {p q : Pos} {b : ℕ} (h : ∀ i < b, bitAt p i = bitAt q i) :
    prefixOf p b = prefixOf q b := by
  refine ext _ _ fun i hi => ?_
  rw [bitAt_prefixOf _ _ _ hi, bitAt_prefixOf _ _ _ hi]
  by_cases hib : i < b
  · simp [hib, h i hib]
  · simp [hib]

omit [DecidableEq Pos] in
theorem prefixOf_prefixOf (p : Pos) (b : ℕ) : prefixOf (prefixOf p b) b = prefixOf p b := by
  refine ext _ _ fun i hi => ?_
  rw [bitAt_prefixOf _ _ _ hi, bitAt_prefixOf _ _ _ hi]
  cases decide (i < b) <;> rfl

/-- `e` is the first bit at which `p` and `q` disagree. -/
structure IsFirstDiff (p q : Pos) (e : ℕ) : Prop where
  lt_depth : e < depth Pos
  ne : bitAt p e ≠ bitAt q e
  agree : ∀ i < e, bitAt p i = bitAt q i

/-! ## Canonical tries -/

/-- The entries of `m` whose position has bit `b` equal to `s`. -/
def half (m : Pos → Option α) (b : ℕ) (s : Bool) (p : Pos) : Option α :=
  if bitAt p b = s then m p else none

/-- The single entry `a` at `p`. -/
def single (p : Pos) (a : α) (q : Pos) : Option α :=
  if q = p then some a else none

/-- `t` is the canonical trie of the entries `m`: a leaf for a single entry, and otherwise a
branch on a bit below which all positions share `pre`, over the canonical tries of both halves
(both nonempty, so the bit is the first at which the positions disagree). -/
inductive Canon : Trie Pos α → (Pos → Option α) → Prop
  | leaf (p : Pos) (a : α) : Canon (.leaf p a) (single p a)
  | branch {b : ℕ} {pre : Pos} {l r : Trie Pos α} {m : Pos → Option α} (hb : b < depth Pos)
      (hpre : ∀ p, m p ≠ none → prefixOf p b = pre)
      (hl : Canon l (half m b false)) (hr : Canon r (half m b true)) :
      Canon (.branch b pre l r) m

/-- The canonical trie of `m`, or none when `m` is empty. -/
def CanonOpt : Option (Trie Pos α) → (Pos → Option α) → Prop
  | none, m => ∀ p, m p = none
  | some t, m => Canon t m

variable {t t' : Trie Pos α} {m : Pos → Option α}

@[simp] theorem canonOpt_some : CanonOpt (some t) m ↔ Canon t m := Iff.rfl

omit [DecidableEq Pos] in
theorem half_ne_none {b : ℕ} {s : Bool} {p : Pos} (h : half m b s p ≠ none) :
    m p ≠ none ∧ bitAt p b = s := by
  unfold half at h
  by_cases hs : bitAt p b = s
  · rw [if_pos hs] at h
    exact ⟨h, hs⟩
  · rw [if_neg hs] at h
    exact absurd rfl h

theorem Canon.nonempty (h : Canon t m) : ∃ p, m p ≠ none := by
  induction h with
  | leaf p a => exact ⟨p, by simp [single]⟩
  | branch _ _ _ _ ihl _ =>
    obtain ⟨p, hp⟩ := ihl
    exact ⟨p, (half_ne_none hp).1⟩

theorem Canon.exists_bit {b : ℕ} {pre : Pos} {l r : Trie Pos α}
    (h : Canon (.branch b pre l r) m) (s : Bool) : ∃ p, m p ≠ none ∧ bitAt p b = s := by
  cases h with
  | branch _ _ hl hr =>
    cases s with
    | false =>
      obtain ⟨p, hp⟩ := hl.nonempty
      exact ⟨p, half_ne_none hp⟩
    | true =>
      obtain ⟨p, hp⟩ := hr.nonempty
      exact ⟨p, half_ne_none hp⟩

theorem Canon.agree {b : ℕ} {pre : Pos} {l r : Trie Pos α} (h : Canon (.branch b pre l r) m)
    {p : Pos} (hp : m p ≠ none) {i : ℕ} (hi : i < b) : bitAt p i = bitAt pre i := by
  cases h with
  | branch hb hpre _ _ => exact bitAt_eq_of_prefixOf (hpre p hp) hi hb.le

omit [BitString Pos] in
theorem single_eq_some {p q : Pos} {a : α} (h : single p a q ≠ none) : q = p := by
  by_contra hq
  exact h (if_neg hq)

theorem Canon.eq_leaf (h : Canon t m) {p : Pos} {a : α} (hm : m = single p a) :
    t = .leaf p a := by
  cases h with
  | leaf p' a' =>
    have hp : single p' a' p' = single p a p' := by rw [hm]
    by_cases hpp : p' = p
    · subst hpp
      simp [single] at hp
      rw [hp]
    · simp [single, hpp] at hp
  | branch hb hpre hl hr =>
    obtain ⟨q0, hq0, hb0⟩ := (Canon.branch hb hpre hl hr).exists_bit false
    obtain ⟨q1, hq1, hb1⟩ := (Canon.branch hb hpre hl hr).exists_bit true
    rw [hm] at hq0 hq1
    rw [single_eq_some hq0] at hb0
    rw [single_eq_some hq1] at hb1
    exact absurd (hb0.symm.trans hb1) Bool.false_ne_true

/-- **The canonical trie of a set of entries is unique.** -/
theorem Canon.eq (h : Canon t m) (h' : Canon t' m) : t = t' := by
  induction h generalizing t' with
  | leaf p a => exact (h'.eq_leaf rfl).symm
  | @branch b pre l r m hb hpre hl hr ihl ihr =>
    have hbr : Canon (.branch b pre l r) m := .branch hb hpre hl hr
    cases h' with
    | leaf p a => exact absurd (hbr.eq_leaf rfl) (by simp)
    | @branch b' pre' l' r' _ hb' hpre' hl' hr' =>
      have hbr' : Canon (.branch b' pre' l' r') m := .branch hb' hpre' hl' hr'
      -- the bit of either branch is the first at which the positions disagree
      have hbb : b = b' := by
        obtain ⟨q0, hq0, hb0⟩ := hbr.exists_bit false
        obtain ⟨q1, hq1, hb1⟩ := hbr.exists_bit true
        obtain ⟨q0', hq0', hb0'⟩ := hbr'.exists_bit false
        obtain ⟨q1', hq1', hb1'⟩ := hbr'.exists_bit true
        by_contra hne
        rcases Nat.lt_or_gt_of_ne hne with hlt | hlt
        · have := (hbr'.agree hq0 hlt).trans (hbr'.agree hq1 hlt).symm
          rw [hb0, hb1] at this
          exact Bool.false_ne_true this
        · have := (hbr.agree hq0' hlt).trans (hbr.agree hq1' hlt).symm
          rw [hb0', hb1'] at this
          exact Bool.false_ne_true this
      subst hbb
      obtain ⟨q, hq⟩ := hbr.nonempty
      have hpp : pre = pre' := (hpre q hq).symm.trans (hpre' q hq)
      rw [hpp, ihl hl', ihr hr']

/-- Bits strictly increase along a path of a canonical trie, so it is no higher than the
positions are long. -/
theorem Canon.height_add_le (h : Canon t m) {lo : ℕ} (hlo : lo ≤ depth Pos)
    (hagree : ∀ p q, m p ≠ none → m q ≠ none → ∀ i < lo, bitAt p i = bitAt q i) :
    t.height + lo ≤ depth Pos := by
  induction h generalizing lo with
  | leaf => simpa [Trie.height] using hlo
  | @branch b pre l r m hb hpre hl hr ihl ihr =>
    have hbr : Canon (.branch b pre l r) m := .branch hb hpre hl hr
    have hlo' : lo ≤ b := by
      by_contra hlt
      obtain ⟨q0, hq0, hb0⟩ := hbr.exists_bit false
      obtain ⟨q1, hq1, hb1⟩ := hbr.exists_bit true
      have := hagree q0 q1 hq0 hq1 b (by omega)
      rw [hb0, hb1] at this
      exact Bool.false_ne_true this
    have hhalf : ∀ s, ∀ p q, half m b s p ≠ none → half m b s q ≠ none →
        ∀ i < b + 1, bitAt p i = bitAt q i := by
      intro s p q hp hq i hi
      obtain ⟨hp, hps⟩ := half_ne_none hp
      obtain ⟨hq, hqs⟩ := half_ne_none hq
      rcases Nat.lt_or_ge i b with hib | hib
      · exact (hbr.agree hp hib).trans (hbr.agree hq hib).symm
      · have hib' : i = b := by omega
        rw [hib', hps, hqs]
    have hl' := ihl (by omega) (hhalf false)
    have hr' := ihr (by omega) (hhalf true)
    simp only [Trie.height]
    omega

theorem Canon.height_le (h : Canon t m) : t.height ≤ depth Pos := by
  simpa using h.height_add_le (Nat.zero_le _) fun _ _ _ _ i hi => absurd hi (Nat.not_lt_zero i)

theorem Canon.prefixOf_pre {b : ℕ} {pre : Pos} {l r : Trie Pos α}
    (h : Canon (.branch b pre l r) m) : prefixOf pre b = pre := by
  obtain ⟨p, hp⟩ := h.nonempty
  cases h with
  | branch _ hpre _ _ => rw [← hpre p hp, prefixOf_prefixOf]

theorem Canon.entries_eq {m' : Pos → Option α} (h : Canon t m) (h' : Canon t m') : m = m' := by
  induction h generalizing m' with
  | leaf p a =>
    cases h' with
    | leaf => rfl
  | @branch b pre l r m hb hpre hl hr ihl ihr =>
    cases h' with
    | branch _ _ hl' hr' =>
      funext p
      have hfalse := congrFun (ihl hl') p
      have htrue := congrFun (ihr hr') p
      unfold half at hfalse htrue
      cases hpb : bitAt p b
      · simpa [hpb] using hfalse
      · simpa [hpb] using htrue

theorem Canon.left_ne_right {b : ℕ} {pre : Pos} {l r : Trie Pos α}
    (h : Canon (.branch b pre l r) m) : l ≠ r := by
  intro hlr
  obtain ⟨p, hp, hb⟩ := h.exists_bit false
  cases h with
  | branch _ _ hl hr =>
    rw [hlr] at hl
    have hsame := congrFun (hl.entries_eq hr) p
    unfold half at hsame
    rw [if_pos hb, if_neg (by rw [hb]; decide)] at hsame
    exact hp hsame

/-! ## Lookup -/

/-- The entry at `p`, by the walk of a lookup: a branch whose prefix `p` does not share holds
nothing at `p`, and otherwise `p` is on the side its bit names. -/
def Trie.find (p : Pos) : Trie Pos α → Option α
  | .leaf q a => if q = p then some a else none
  | .branch b pre l r =>
    if prefixOf p b ≠ pre then none else if bitAt p b then r.find p else l.find p

/-- **A lookup in the canonical trie of `m` reads `m`.** -/
theorem Canon.find_eq (h : Canon t m) (p : Pos) : t.find p = m p := by
  induction h with
  | leaf q a => simp [Trie.find, single, eq_comm]
  | @branch b pre l r m hb hpre hl hr ihl ihr =>
    simp only [Trie.find]
    by_cases hp : prefixOf p b = pre
    · -- `p` shares the prefix, so it is in the half its bit names
      rw [if_neg (not_not.mpr hp)]
      cases hpb : bitAt p b <;> simp [hpb, ihl, ihr, half]
    · -- every entry shares the prefix, so there is none at `p`
      rw [if_pos hp]
      by_contra hne
      exact hp (hpre p (Ne.symm hne))

omit [BitString Pos] in
@[simp] theorem single_self (p : Pos) (a : α) : single p a p = some a := if_pos rfl

omit [BitString Pos] in
theorem update_single_self (p : Pos) (a c : α) :
    Function.update (single p a) p (some c) = single p c := by
  funext q
  by_cases hq : q = p
  · subst hq
    simp
  · rw [Function.update_of_ne hq]
    simp [single, hq]

omit [BitString Pos] in
theorem update_eq_single (hm : ∀ p, m p = none) (q : Pos) (c : α) :
    Function.update m q (some c) = single q c := by
  funext p
  by_cases hp : p = q
  · subst hp
    simp
  · rw [Function.update_of_ne hp, hm p]
    simp [single, hp]

omit [BitString Pos] in
theorem update_single_none (p q : Pos) (a : α) : Function.update (single p a) p none q = none := by
  by_cases hq : q = p
  · subst hq
    simp
  · rw [Function.update_of_ne hq]
    simp [single, hq]

/-! ## The canonical trie, computed -/

/-- The canonical trie of the entries `e :: es`, whose positions agree before bit `level`, with
`n` bits left: split on `level` when both sides are occupied, and go to the next bit otherwise. -/
def buildFrom (level : ℕ) : ℕ → Pos × α → List (Pos × α) → Trie Pos α
  | 0, e, _ => .leaf e.1 e.2
  | _ + 1, e, [] => .leaf e.1 e.2
  | n + 1, e, e' :: es =>
    match (e :: e' :: es).filter (fun x => !bitAt x.1 level),
        (e :: e' :: es).filter (fun x => bitAt x.1 level) with
    | l :: ls, h :: hs => .branch level (prefixOf e.1 level) (buildFrom (level + 1) n l ls)
        (buildFrom (level + 1) n h hs)
    | l :: ls, [] => buildFrom (level + 1) n l ls
    | [], h :: hs => buildFrom (level + 1) n h hs
    | [], [] => .leaf e.1 e.2

omit [BitString Pos] in
theorem lookup_cons_of_ne {p : Pos} {e : Pos × α} (l : List (Pos × α)) (hpe : p ≠ e.1) :
    (e :: l).lookup p = l.lookup p := by
  obtain ⟨k, b⟩ := e
  have hb : (p == k) = false := by simpa using hpe
  simp [List.lookup_cons, hb]

omit [BitString Pos] in
theorem lookup_cons_self (e : Pos × α) (l : List (Pos × α)) : (e :: l).lookup e.1 = some e.2 := by
  obtain ⟨k, b⟩ := e
  simp

omit [BitString Pos] in
theorem mem_of_lookup_eq_some {l : List (Pos × α)} {p : Pos} {a : α} (h : l.lookup p = some a) :
    (p, a) ∈ l := by
  induction l with
  | nil => simp at h
  | cons e l ih =>
    by_cases hpe : p = e.1
    · subst hpe
      rw [lookup_cons_self] at h
      cases h
      exact List.mem_cons_self
    · rw [lookup_cons_of_ne _ hpe] at h
      exact List.mem_cons_of_mem _ (ih h)

omit [BitString Pos] in
theorem lookup_filter (l : List (Pos × α)) (f : Pos → Bool) (p : Pos) :
    (l.filter fun x => f x.1).lookup p = if f p then l.lookup p else none := by
  induction l with
  | nil => simp
  | cons e l ih =>
    by_cases hfe : f e.1
    · rw [List.filter_cons_of_pos (by simpa using hfe)]
      by_cases hpe : p = e.1
      · subst hpe
        simp [lookup_cons_self, hfe]
      · rw [lookup_cons_of_ne _ hpe, lookup_cons_of_ne _ hpe, ih]
    · rw [List.filter_cons_of_neg (by simpa using hfe), ih]
      by_cases hpe : p = e.1
      · subst hpe
        simp [hfe]
      · rw [lookup_cons_of_ne _ hpe]

theorem lookup_filter_bit (l : List (Pos × α)) (b : ℕ) (s : Bool) :
    (fun p => (l.filter fun x => bitAt x.1 b == s).lookup p) = half (fun p => l.lookup p) b s := by
  funext p
  rw [lookup_filter l (fun p => bitAt p b == s) p]
  simp [half]

omit [BitString Pos] in
theorem lookup_singleton (e : Pos × α) : (fun p => [e].lookup p) = single e.1 e.2 := by
  funext p
  by_cases hp : p = e.1
  · subst hp
    simp [single, lookup_cons_self]
  · rw [lookup_cons_of_ne _ hp]
    simp [single, hp]

omit [DecidableEq Pos] in
theorem canon_buildFrom_agree {n level : ℕ} {e : Pos × α} {es : List (Pos × α)}
    (hn : level + n = depth Pos) (hagree : ∀ x ∈ e :: es, ∀ i < level, bitAt x.1 i = bitAt e.1 i)
    {s : Bool} {l : Pos × α} {ls : List (Pos × α)}
    (hls : (e :: es).filter (fun x => bitAt x.1 level == s) = l :: ls) :
    ∀ x ∈ l :: ls, ∀ i < level + 1, bitAt x.1 i = bitAt l.1 i := by
  have hmem : ∀ x ∈ l :: ls, x ∈ e :: es ∧ bitAt x.1 level = s := by
    intro x hx
    rw [← hls, List.mem_filter] at hx
    simpa using hx
  intro x hx i hi
  obtain ⟨hx, hxs⟩ := hmem x hx
  obtain ⟨hl, hls'⟩ := hmem l List.mem_cons_self
  rcases Nat.lt_or_ge i level with hil | hil
  · exact (hagree x hx i hil).trans (hagree l hl i hil).symm
  · rw [show i = level by omega, hxs, hls']

/-- **`buildFrom` builds the canonical trie of entries at distinct positions.** -/
theorem canon_buildFrom : ∀ (n level : ℕ) (e : Pos × α) (es : List (Pos × α)),
    level + n = depth Pos → ((e :: es).map Prod.fst).Nodup →
    (∀ x ∈ e :: es, ∀ i < level, bitAt x.1 i = bitAt e.1 i) →
    Canon (buildFrom level n e es) (fun p => (e :: es).lookup p)
  | 0, level, e, es, hn, hnd, hagree => by
    -- every bit is shared, so the positions are equal and there is one entry
    cases es with
    | nil => rw [buildFrom, lookup_singleton]; exact .leaf _ _
    | cons e' es =>
      have heq : e'.1 = e.1 := ext _ _ fun i hi => hagree e' (by simp) i (by omega)
      simp [heq] at hnd
  | n + 1, level, e, [], _, _, _ => by
    rw [buildFrom, lookup_singleton]
    exact .leaf _ _
  | n + 1, level, e, e' :: es, hn, hnd, hagree => by
    have hsub : ∀ s, ∀ {l : Pos × α} {ls : List (Pos × α)},
        (e :: e' :: es).filter (fun x => bitAt x.1 level == s) = l :: ls →
        Canon (buildFrom (level + 1) n l ls) (half (fun p => (e :: e' :: es).lookup p) level s) := by
      intro s l ls hls
      rw [← lookup_filter_bit, hls]
      refine canon_buildFrom n (level + 1) l ls (by omega) ?_ (canon_buildFrom_agree hn hagree hls)
      rw [← hls]
      exact hnd.sublist (List.filter_sublist.map _)
    have hlo : (e :: e' :: es).filter (fun x => !bitAt x.1 level) =
        (e :: e' :: es).filter (fun x => bitAt x.1 level == false) := by
      congr 1
      funext x
      cases bitAt x.1 level <;> rfl
    have hhi : (e :: e' :: es).filter (fun x => bitAt x.1 level) =
        (e :: e' :: es).filter (fun x => bitAt x.1 level == true) := by
      congr 1
      funext x
      cases bitAt x.1 level <;> rfl
    rw [buildFrom]
    split
    next l ls h hs hl hh =>
      refine .branch (by omega) (fun p hp => prefixOf_eq_of_agree fun i hi => ?_)
        (hsub false (hlo ▸ hl)) (hsub true (hhi ▸ hh))
      obtain ⟨a, ha⟩ := Option.ne_none_iff_exists'.mp hp
      exact hagree (p, a) (mem_of_lookup_eq_some ha) i hi
    next l ls hl hh =>
      -- no position has the bit set: the entries are their own lower half
      have hall : half (fun p => (e :: e' :: es).lookup p) level false =
          fun p => (e :: e' :: es).lookup p := by
        rw [← lookup_filter_bit, ← hlo, List.filter_eq_self.mpr]
        intro x hx
        have hx' : x ∉ (e :: e' :: es).filter (fun x => bitAt x.1 level) := by simp [hh]
        simpa [hx] using hx'
      rw [← hall]
      exact hsub false (hlo ▸ hl)
    next h hs hl hh =>
      have hall : half (fun p => (e :: e' :: es).lookup p) level true =
          fun p => (e :: e' :: es).lookup p := by
        rw [← lookup_filter_bit, ← hhi, List.filter_eq_self.mpr]
        intro x hx
        have hx' : x ∉ (e :: e' :: es).filter (fun x => !bitAt x.1 level) := by simp [hl]
        simpa [hx] using hx'
      rw [← hall]
      exact hsub true (hhi ▸ hh)
    next hl hh =>
      -- `e` lies on one of the two sides
      have he : e ∈ (e :: e' :: es).filter (fun x => bitAt x.1 level) ∨
          e ∈ (e :: e' :: es).filter (fun x => !bitAt x.1 level) := by
        cases hbe : bitAt e.1 level <;> simp [hbe]
      rw [hl, hh] at he
      simp at he

/-- The entries of an association list as pairs. -/
def pairs (l : List (Σ _ : Pos, α)) : List (Pos × α) := l.map fun x => (x.1, x.2)

omit [BitString Pos] in
theorem lookup_pairs (l : List (Σ _ : Pos, α)) (p : Pos) : (pairs l).lookup p = l.dlookup p := by
  induction l with
  | nil => rfl
  | cons e l ih =>
    rcases e with ⟨k, v⟩
    have hcons : pairs (⟨k, v⟩ :: l) = (k, v) :: pairs l := rfl
    by_cases hp : p = k
    · subst hp
      rw [hcons, List.dlookup_cons_eq]
      exact lookup_cons_self (p, v) (pairs l)
    · rw [hcons, lookup_cons_of_ne _ hp, List.dlookup_cons_ne _ _ hp, ih]

/-- The canonical trie of the association list `al`, or none when it is empty. -/
def canonicalOf (al : AList fun _ : Pos => α) : Option (Trie Pos α) :=
  match pairs al.entries with
  | [] => none
  | e :: es => some (buildFrom 0 (depth Pos) e es)

theorem canonOpt_canonicalOf (al : AList fun _ : Pos => α) :
    CanonOpt (canonicalOf al) fun p => al.lookup p := by
  have hlookup : (fun p => al.lookup p) = fun p => (pairs al.entries).lookup p := by
    funext p
    rw [lookup_pairs]
    rfl
  have hnd : ((pairs al.entries).map Prod.fst).Nodup := by
    have := al.nodupKeys
    simpa [pairs, List.NodupKeys, List.keys, Function.comp_def] using this
  unfold canonicalOf
  rw [hlookup]
  rcases he : pairs al.entries with _ | ⟨e, es⟩
  · intro p
    rfl
  · rw [he] at hnd
    exact canon_buildFrom _ 0 e es (by omega) hnd fun _ _ i hi => absurd hi (Nat.not_lt_zero i)

theorem CanonOpt.eq {o o' : Option (Trie Pos α)} (h : CanonOpt o m) (h' : CanonOpt o' m) :
    o = o' := by
  rcases o with _ | t <;> rcases o' with _ | t'
  · rfl
  · obtain ⟨p, hp⟩ := Canon.nonempty (m := m) h'
    exact absurd (h p) hp
  · obtain ⟨p, hp⟩ := Canon.nonempty (m := m) h
    exact absurd (h' p) hp
  · exact congrArg some (Canon.eq h h')

/-- The canonical trie of a finite map from positions, or none when it is empty. -/
def canonical (E : Finmap fun _ : Pos => α) : Option (Trie Pos α) :=
  E.liftOn canonicalOf fun a b hab =>
    (canonOpt_canonicalOf a).eq (by
      have : (fun p => a.lookup p) = fun p => b.lookup p := by
        funext p
        exact AList.perm_lookup hab
      rw [this]
      exact canonOpt_canonicalOf b)

/-- **`canonical` computes the canonical trie.** -/
theorem canonOpt_canonical (E : Finmap fun _ : Pos => α) :
    CanonOpt (canonical E) fun p => E.lookup p := by
  induction E using Finmap.induction_on with
  | H al => exact canonOpt_canonicalOf al

theorem CanonOpt.eq_canonical {o : Option (Trie Pos α)} {E : Finmap fun _ : Pos => α}
    (h : CanonOpt o fun p => E.lookup p) : o = canonical E :=
  h.eq (canonOpt_canonical E)

/-! ## Changing one entry -/

theorem Canon.eq_none_of_diverge {b : ℕ} {pre : Pos} {l r : Trie Pos α}
    (h : Canon (.branch b pre l r) m) {q : Pos} {e : ℕ} (he : e < b)
    (hq : bitAt q e ≠ bitAt pre e) : m q = none := by
  by_contra hm
  exact hq (h.agree hm he)

/-- A new entry at `q`, which leaves the positions of `t` at bit `e` after sharing their bits
before it: a branch on `e` over `t` and the new leaf. -/
theorem canon_split (ht : Canon t m) {q : Pos} {e : ℕ} (he : e < depth Pos)
    (hdiff : ∀ p, m p ≠ none → (∀ i < e, bitAt p i = bitAt q i) ∧ bitAt p e ≠ bitAt q e)
    (c : α) :
    Canon (if bitAt q e then .branch e (prefixOf q e) t (.leaf q c)
      else .branch e (prefixOf q e) (.leaf q c) t) (Function.update m q (some c)) := by
  have hmq : m q = none := by
    by_contra hm
    exact (hdiff q hm).2 rfl
  have hnew : half (Function.update m q (some c)) e (bitAt q e) = single q c := by
    funext p
    by_cases hpq : p = q
    · subst hpq
      simp [half, single]
    · rw [half, single, if_neg hpq, Function.update_of_ne hpq]
      by_cases hpe : bitAt p e = bitAt q e
      · rw [if_pos hpe]
        by_contra hm
        exact (hdiff p hm).2 hpe
      · rw [if_neg hpe]
  have hold : half (Function.update m q (some c)) e (!bitAt q e) = m := by
    funext p
    by_cases hpq : p = q
    · subst hpq
      simp [half, hmq]
    · rw [half, Function.update_of_ne hpq]
      by_cases hpe : bitAt p e = !bitAt q e
      · rw [if_pos hpe]
      · rw [if_neg hpe]
        by_contra hm
        exact (hdiff p (Ne.symm hm)).2 (by cases h : bitAt q e <;> simp_all)
  have hpre : ∀ p, Function.update m q (some c) p ≠ none → prefixOf p e = prefixOf q e := by
    intro p hp
    by_cases hpq : p = q
    · rw [hpq]
    · rw [Function.update_of_ne hpq] at hp
      exact prefixOf_eq_of_agree (hdiff p hp).1
  cases hq : bitAt q e
  · rw [hq, Bool.not_false] at hold
    rw [hq] at hnew
    exact .branch he hpre (by rw [hnew]; exact .leaf q c) (by rw [hold]; exact ht)
  · rw [hq, Bool.not_true] at hold
    rw [hq] at hnew
    exact .branch he hpre (by rw [hold]; exact ht) (by rw [hnew]; exact .leaf q c)

omit [DecidableEq Pos] in
theorem half_eq_some {b : ℕ} {s : Bool} {p : Pos} {a : α} (h : half m b s p = some a) :
    m p = some a := by
  unfold half at h
  split at h
  · exact h
  · exact absurd h (Option.some_ne_none a).symm

theorem half_update_same (m : Pos → Option α) (b : ℕ) (q : Pos) (o : Option α) :
    half (Function.update m q o) b (bitAt q b) = Function.update (half m b (bitAt q b)) q o := by
  funext p
  by_cases hpq : p = q
  · subst hpq
    simp [half]
  · simp only [half, Function.update_of_ne hpq]

theorem half_update_other (m : Pos → Option α) (b : ℕ) (q : Pos) (o : Option α) :
    half (Function.update m q o) b (!bitAt q b) = half m b (!bitAt q b) := by
  funext p
  by_cases hpq : p = q
  · subst hpq
    simp [half]
  · simp only [half, Function.update_of_ne hpq]

theorem canon_descend {b : ℕ} {pre : Pos} {l r : Trie Pos α}
    (ht : Canon (.branch b pre l r) m) {q : Pos} (hq : prefixOf q b = pre) {o : Option α}
    (h' : Canon t' (Function.update (half m b (bitAt q b)) q o)) :
    Canon (if bitAt q b then .branch b pre l t' else .branch b pre t' r)
      (Function.update m q o) := by
  cases ht with
  | branch hb hpre hl hr =>
    have hpre' : ∀ p, Function.update m q o p ≠ none → prefixOf p b = pre := by
      intro p hp
      by_cases hpq : p = q
      · rw [hpq, hq]
      · rw [Function.update_of_ne hpq] at hp
        exact hpre p hp
    have hsame := half_update_same m b q o
    have hother := half_update_other m b q o
    cases hqb : bitAt q b
    · rw [hqb] at hsame hother h'
      exact .branch hb hpre' (hsame ▸ h') (hother ▸ hr)
    · rw [hqb] at hsame hother h'
      exact .branch hb hpre' (hother ▸ hl) (hsame ▸ h')

theorem canon_collapse {b : ℕ} {pre : Pos} {l r : Trie Pos α}
    (ht : Canon (.branch b pre l r) m) {q : Pos}
    (hempty : ∀ p, Function.update (half m b (bitAt q b)) q none p = none) :
    Canon (if bitAt q b then l else r) (Function.update m q none) := by
  have hrest : Function.update m q none = half m b (!bitAt q b) := by
    funext p
    by_cases hpq : p = q
    · subst hpq
      simp [half]
    · rw [Function.update_of_ne hpq]
      have hp := hempty p
      rw [Function.update_of_ne hpq] at hp
      unfold half at hp ⊢
      by_cases hpb : bitAt p b = bitAt q b
      · rw [if_pos hpb] at hp
        rw [hp, if_neg (by rw [hpb]; cases bitAt q b <;> simp)]
      · rw [if_pos (by cases h : bitAt q b <;> simp_all)]
  rw [hrest]
  cases ht with
  | branch _ _ hl hr =>
    cases hqb : bitAt q b
    · exact hr
    · exact hl

end Patricia
