import Mathlib.Data.Nat.Digits.Lemmas

/-!
# Little-endian integers and a byte reader

The pieces that hand-written binary codecs are made of. An unsigned integer of a fixed width is
written as its low bytes, least significant first (`to_le_bytes`), and read back with
`from_le_bytes`; a decoder reads a prefix of the bytes left and fails on short input.

* `le`, `ofLe`: **`ofLe_le`** and **`le_ofLe`**, the two round trips of a fixed-width integer,
  and `testBit_ofLe`, the bits of a little-endian integer;
* `Reader`, with `take`, `uint`, `count` (a loop reading `n` items), `remaining`, `byte`,
  `fixed` and `ensure`;
* for each reader, that it reads back what was written whatever follows (`take_append`,
  `uint_le`, `fixed_append`, `count_flatMap`), and that what it accepts is such a write
  (`take_eq_some`, `uint_eq_some`, `fixed_eq_some`, `count_eq_some`).
-/

namespace ByteCodec

/-! ## Fixed-width integers -/

/-- `to_le_bytes` of an unsigned integer `w` bytes wide: the `w` low bytes of `n`, least
significant first. -/
def le : ℕ → ℕ → List UInt8
  | 0, _ => []
  | w + 1, n => (n % 256).toUInt8 :: le w (n / 256)

/-- `from_le_bytes`. -/
def ofLe (bs : List UInt8) : ℕ := Nat.ofDigits 256 (bs.map UInt8.toNat)

@[simp] theorem length_le (w n : ℕ) : (le w n).length = w := by
  induction w generalizing n with
  | zero => rfl
  | succ w ih => simp [le, ih]

@[simp] theorem ofLe_nil : ofLe [] = 0 := rfl

@[simp] theorem ofLe_cons (b : UInt8) (bs : List UInt8) : ofLe (b :: bs) = b.toNat + 256 * ofLe bs :=
  Nat.ofDigits_cons

theorem ofLe_lt (bs : List UInt8) : ofLe bs < 256 ^ bs.length := by
  have hdig : ∀ x ∈ bs.map UInt8.toNat, x < 256 := by
    simp only [List.mem_map]
    rintro _ ⟨b, -, rfl⟩
    exact UInt8.toNat_lt_size b
  rw [ofLe]
  simpa using Nat.ofDigits_lt_base_pow_length (by norm_num) hdig

theorem ofLe_le (w n : ℕ) : ofLe (le w n) = n % 256 ^ w := by
  induction w generalizing n with
  | zero => simp [le, Nat.mod_one]
  | succ w ih =>
    rw [le, ofLe_cons, ih, pow_succ, mul_comm (256 ^ w), Nat.mod_mul]
    simp

theorem le_ofLe (bs : List UInt8) : le bs.length (ofLe bs) = bs := by
  induction bs with
  | nil => rfl
  | cons b bs ih =>
    have hb := UInt8.toNat_lt b
    have hmod : (b.toNat + 256 * ofLe bs) % 256 = b.toNat := by omega
    have hdiv : (b.toNat + 256 * ofLe bs) / 256 = ofLe bs := by omega
    rw [List.length_cons, ofLe_cons, le, hmod, hdiv, ih]
    simp

/-- Bit `i` of a little-endian integer is bit `i % 8` of its byte `i / 8`, of a zero byte past
the end. -/
theorem testBit_ofLe (bs : List UInt8) (i : ℕ) :
    (ofLe bs).testBit i = (bs.getD (i / 8) 0).toNat.testBit (i % 8) := by
  induction bs generalizing i with
  | nil => simp
  | cons b bs ih =>
    have hb : b.toNat < 2 ^ 8 := UInt8.toNat_lt b
    rw [ofLe_cons, show b.toNat + 256 * ofLe bs = 2 ^ 8 * ofLe bs + b.toNat by ring,
      Nat.testBit_two_pow_mul_add _ hb]
    split_ifs with hi
    · simp [Nat.div_eq_of_lt hi, Nat.mod_eq_of_lt hi]
    · rw [ih, show i / 8 = (i - 8) / 8 + 1 by omega, show (i - 8) % 8 = i % 8 by omega]
      simp

theorem ofLe_le_of_lt {w n : ℕ} (h : n < 256 ^ w) : ofLe (le w n) = n := by
  rw [ofLe_le, Nat.mod_eq_of_lt h]

/-! ## Readers -/

/-- A decoder over the bytes not yet read; `none` rejects the input. -/
abbrev Reader := StateT (List UInt8) Option

/-- The next `n` bytes, when there are that many. -/
def take (n : ℕ) : Reader (List UInt8) := fun bs =>
  if n ≤ bs.length then some (bs.take n, bs.drop n) else none

/-- An unsigned little-endian integer `w` bytes wide. -/
def uint (w : ℕ) : Reader ℕ := do
  let bs ← take w
  return ofLe bs

/-- The loop `for _ in 0..n { items.push(p?) }`. -/
def count {α : Type} (p : Reader α) : ℕ → Reader (List α)
  | 0 => pure []
  | n + 1 => do
    let x ← p
    let xs ← count p n
    return x :: xs

/-- The number of bytes not yet read. -/
def remaining : Reader ℕ := fun bs => some (bs.length, bs)

/-- The next byte. -/
def byte : Reader UInt8 := fun bs =>
  match bs with
  | [] => none
  | b :: rest => some (b, rest)

/-- The next `n` bytes, as an array of `n` (`[u8; n]`). -/
def fixed (n : ℕ) : Reader (Vector UInt8 n) := fun bs =>
  if h : n ≤ bs.length then some (⟨(bs.take n).toArray, by simp; omega⟩, bs.drop n) else none

/-- Reject the input unless `p` holds. -/
def ensure (p : Prop) [Decidable p] : Reader Unit := fun bs => if p then some ((), bs) else none

variable {α β : Type}

theorem run_bind_eq_some {x : Reader α} {f : α → Reader β} {bs rest : List UInt8} {y : β} :
    (x >>= f).run bs = some (y, rest) ↔
      ∃ a mid, x.run bs = some (a, mid) ∧ (f a).run mid = some (y, rest) := by
  simp [StateT.run_bind, Option.bind_eq_bind, Option.bind_eq_some_iff]

theorem run_bind_of_eq_some {x : Reader α} {f : α → Reader β} {bs mid : List UInt8} {a : α}
    (h : x.run bs = some (a, mid)) : (x >>= f).run bs = (f a).run mid := by
  simp [StateT.run_bind, h, Option.bind_eq_bind]

theorem run_pure_eq_some {a b : α} {bs rest : List UInt8} :
    (pure a : Reader α).run bs = some (b, rest) ↔ a = b ∧ bs = rest := by
  simp [StateT.run_pure]

theorem take_append (xs rest : List UInt8) : (take xs.length).run (xs ++ rest) = some (xs, rest) := by
  simp [take, StateT.run]

theorem take_eq_some {n : ℕ} {bs xs rest : List UInt8} :
    (take n).run bs = some (xs, rest) ↔ xs.length = n ∧ bs = xs ++ rest := by
  simp only [take, StateT.run]
  constructor
  · intro h
    split at h
    · cases h
      exact ⟨by simp; omega, (List.take_append_drop n bs).symm⟩
    · cases h
  · rintro ⟨rfl, rfl⟩
    simp

theorem uint_le (w n : ℕ) (rest : List UInt8) (h : n < 256 ^ w) :
    (uint w).run (le w n ++ rest) = some (n, rest) := by
  have ht := take_append (le w n) rest
  rw [length_le] at ht
  simp [uint, ht, ofLe_le_of_lt h]

theorem uint_eq_some {w n : ℕ} {bs rest : List UInt8} (h : (uint w).run bs = some (n, rest)) :
    bs = le w n ++ rest ∧ n < 256 ^ w := by
  obtain ⟨xs, mid, ht, hr⟩ := run_bind_eq_some.mp h
  obtain ⟨hlen, rfl⟩ := take_eq_some.mp ht
  obtain ⟨rfl, rfl⟩ := run_pure_eq_some.mp hr
  subst hlen
  exact ⟨by rw [le_ofLe], ofLe_lt xs⟩

@[simp] theorem remaining_run (bs : List UInt8) : remaining.run bs = some (bs.length, bs) := rfl

theorem remaining_eq_some {bs rest : List UInt8} {n : ℕ} :
    remaining.run bs = some (n, rest) ↔ n = bs.length ∧ rest = bs := by
  simp [remaining, StateT.run, eq_comm]

@[simp] theorem byte_cons (b : UInt8) (rest : List UInt8) : byte.run (b :: rest) = some (b, rest) :=
  rfl

theorem byte_eq_some {bs rest : List UInt8} {b : UInt8} :
    byte.run bs = some (b, rest) ↔ bs = b :: rest := by
  cases bs with
  | nil => simp [byte, StateT.run]
  | cons c cs => simp [byte, StateT.run]

theorem fixed_append {n : ℕ} (v : Vector UInt8 n) (rest : List UInt8) :
    (fixed n).run (v.toList ++ rest) = some (v, rest) := by
  simp [fixed, StateT.run, Vector.ext_iff]

theorem fixed_eq_some {n : ℕ} {bs rest : List UInt8} {v : Vector UInt8 n}
    (h : (fixed n).run bs = some (v, rest)) : bs = v.toList ++ rest := by
  simp only [fixed, StateT.run] at h
  split at h
  · cases h
    simp
  · cases h

theorem toList_byteArray (bs : ByteArray) : bs.toList = bs.data.toList := by
  -- the loop has pushed the bytes before `i`, reversed, onto `r`
  have hloop : ∀ i r, ByteArray.toList.loop bs i r = r.reverse ++ bs.data.toList.drop i := by
    intro i r
    fun_induction ByteArray.toList.loop bs i r with
    | case1 i r hi ih =>
      have hi' : i < bs.data.toList.length := by simpa using hi
      rw [ih, List.reverse_cons, List.append_assoc, List.drop_eq_getElem_cons hi']
      simp [ByteArray.get!, hi]
    | case2 i r hi =>
      rw [List.drop_eq_nil_of_le (by simpa using hi), List.append_nil]
  rw [ByteArray.toList]
  simpa using hloop 0 []

theorem ensure_of {p : Prop} [Decidable p] (hp : p) (bs : List UInt8) :
    (ensure p).run bs = some ((), bs) :=
  if_pos hp

theorem ensure_eq_some {p : Prop} [Decidable p] {bs rest : List UInt8} {u : Unit}
    (h : (ensure p).run bs = some (u, rest)) : p ∧ rest = bs := by
  simp only [ensure, StateT.run] at h
  split at h
  · cases h
    exact ⟨‹_›, rfl⟩
  · cases h

/-- Items each written in at least `min` bytes take at least `min` bytes an item: the room a
decoder checks before it reads a count of them. -/
theorem mul_le_length_flatMap {enc : α → List UInt8} {min : ℕ} :
    ∀ {xs : List α}, (∀ x ∈ xs, min ≤ (enc x).length) → xs.length * min ≤ (xs.flatMap enc).length
  | [], _ => by simp
  | x :: xs, h => by
    have hx := h x (List.mem_cons_self ..)
    have hxs := mul_le_length_flatMap fun y hy => h y (List.mem_cons_of_mem _ hy)
    simp only [List.length_cons, List.flatMap_cons, List.length_append]
    rw [Nat.succ_mul]
    omega

theorem count_flatMap {p : Reader α} {enc : α → List UInt8} {xs : List α}
    (hp : ∀ x ∈ xs, ∀ rest, p.run (enc x ++ rest) = some (x, rest)) (rest : List UInt8) :
    (count p xs.length).run (xs.flatMap enc ++ rest) = some (xs, rest) := by
  induction xs with
  | nil => rfl
  | cons x xs ih =>
    have hx := hp x (List.mem_cons_self ..) (xs.flatMap enc ++ rest)
    have hxs := ih fun y hy => hp y (List.mem_cons_of_mem _ hy)
    rw [List.length_cons, count, List.flatMap_cons, List.append_assoc, run_bind_of_eq_some hx,
      run_bind_of_eq_some hxs]
    rfl

theorem count_eq_some {p : Reader α} {enc : α → List UInt8}
    (hp : ∀ bs x rest, p.run bs = some (x, rest) → bs = enc x ++ rest) :
    ∀ (n : ℕ) {bs rest : List UInt8} {xs : List α}, (count p n).run bs = some (xs, rest) →
      bs = xs.flatMap enc ++ rest ∧ xs.length = n
  | 0, bs, rest, xs, h => by
    obtain ⟨rfl, rfl⟩ := run_pure_eq_some.mp h
    simp
  | n + 1, bs, rest, xs, h => by
    obtain ⟨x, bs', hx, h⟩ := run_bind_eq_some.mp h
    obtain ⟨ys, bs'', hys, hr⟩ := run_bind_eq_some.mp h
    obtain ⟨rfl, rfl⟩ := run_pure_eq_some.mp hr
    obtain ⟨rfl, hlen⟩ := count_eq_some hp n hys
    refine ⟨?_, by simp [hlen]⟩
    rw [hp _ _ _ hx]
    simp

end ByteCodec
