import Vos.V2.StateKey

/-!
# vos — the effect log and the CRDT event wire

`effect_log.rs`: what a replicated dispatch observed (its message, the replies of its asks, the
anchor and caller prefix it ran under, the effects of invoked children and its invocation id),
and the bytes it is stored as in a DAG node. A `CrdtEvent` tags a log with its origin and
sequence number, and derives the log's invocation id from them.

* `EffectLog.toBytes`, `EffectLog.fromBytes`, read in the sections of `from_bytes`:
  `readLenPrefixed`, `readCounted` (a `u64` count checked against the bytes left), `readInvokeEffects`
  and `readInvocationId` (the trailing extension);
* `CrdtEvent.new`, `CrdtEvent.toBytes`, `CrdtEvent.fromBytes`;
* each section reads back what was written (`readCounted_append`, …) and accepts only what was
  written (`readCounted_eq_some`, …);
* **`effectLog_codec`**: both round trips, and what `from_bytes` accepts beyond the encodings: a
  zero invocation id written out in the extension, which `to_bytes` omits.
-/

namespace Vos

open ByteCodec V2

/-- `InvocationId::ZERO`. -/
def zeroId : InvocationId := Vector.replicate 32 0

/-- `INVOCATION_ID_EXTENSION`. -/
def invocationIdExtension : UInt8 := 0x01

/-- `InvokeEffects`. -/
structure InvokeEffects where
  replyIdx : UInt64
  svcId : UInt32
  effects : Bytes
  deriving DecidableEq

/-- `EffectLog`. -/
structure EffectLog where
  msg : Bytes
  replies : List Bytes
  anchorKind : UInt8
  anchor : Bytes32
  callerPrefix : Vector UInt8 5
  invokeEffects : List InvokeEffects
  invocationId : InvocationId
  deriving DecidableEq

/-! ## `to_bytes` -/

/-- `[len:u64 LE][bytes]`. -/
def lenPrefixed (bs : Bytes) : Bytes := le 8 bs.length ++ bs

/-- `[reply_idx:u64 LE][svc_id:u32 LE][len:u64 LE][effects]`. -/
def InvokeEffects.toBytes (rec : InvokeEffects) : Bytes :=
  le 8 rec.replyIdx.toNat ++ le 4 rec.svcId.toNat ++ lenPrefixed rec.effects

/-- The invocation extension: omitted for the zero identity. -/
def invocationTail (invocationId : InvocationId) : Bytes :=
  if invocationId ≠ zeroId then invocationIdExtension :: invocationId.toList else []

/-- The mandatory part of `to_bytes`, up to the invoke effects. -/
def EffectLog.fieldBytes (l : EffectLog) : Bytes :=
  lenPrefixed l.msg ++ le 8 l.replies.length ++ l.replies.flatMap lenPrefixed ++
    l.anchorKind :: l.anchor.toList ++ l.callerPrefix.toList ++
    le 8 l.invokeEffects.length ++ l.invokeEffects.flatMap InvokeEffects.toBytes

/-- `EffectLog::to_bytes`. -/
def EffectLog.toBytes (l : EffectLog) : Bytes := l.fieldBytes ++ invocationTail l.invocationId

/-- Every length fits the `u64` that carries it, as the length of every Rust vector does. -/
structure EffectLog.Sized (l : EffectLog) : Prop where
  msg : l.msg.length < 2 ^ 64
  replies : l.replies.length < 2 ^ 64
  reply : ∀ r ∈ l.replies, r.length < 2 ^ 64
  invokeEffects : l.invokeEffects.length < 2 ^ 64
  effects : ∀ rec ∈ l.invokeEffects, rec.effects.length < 2 ^ 64

/-! ## `from_bytes` -/

/-- `read_u64`. -/
abbrev readU64 : Reader ℕ := uint 8

/-- A `u64` length, then that many bytes: `msg`, a reply, the effects of a record. -/
def readLenPrefixed : Reader Bytes := do
  let len ← readU64
  take len

/-- One invoke-effect record. -/
def readInvokeEffects : Reader InvokeEffects := do
  let replyIdx ← readU64
  let svcId ← uint 4
  let effects ← readLenPrefixed
  return { replyIdx := replyIdx.toUInt64, svcId := svcId.toUInt32, effects }

/-- A `u64` count, rejected when the bytes left cannot hold that many items of `min` bytes
(`n > bytes.len().saturating_sub(pos) / min`), then the items. -/
def readCounted {α : Type} (p : Reader α) (min : ℕ) : Reader (List α) := do
  let n ← readU64
  let left ← remaining
  ensure (n ≤ left / min)
  count p n

/-- The invocation id: zero at the end of the input, else the extension tag and 32 bytes. -/
def readInvocationId : Reader InvocationId := do
  let left ← remaining
  if left = 0 then return zeroId
  else
    let tag ← byte
    ensure (tag = invocationIdExtension)
    fixed 32

/-- `EffectLog::from_bytes`. -/
def EffectLog.fromBytes (bytes : Bytes) : Option EffectLog :=
  StateT.run' (s := bytes) do
    let msg ← readLenPrefixed
    let replies ← readCounted readLenPrefixed 8
    let anchorKind ← byte
    let anchor ← fixed 32
    let callerPrefix ← fixed 5
    let invokeEffects ← readCounted readInvokeEffects 20
    let invocationId ← readInvocationId
    let left ← remaining
    ensure (left = 0)
    return { msg, replies, anchorKind, anchor, callerPrefix, invokeEffects, invocationId }

/-! ## The sections read back what was written -/

theorem two_pow_64 : (256 : ℕ) ^ 8 = 2 ^ 64 := by norm_num

theorem readLenPrefixed_append {bs : Bytes} (h : bs.length < 2 ^ 64) (rest : Bytes) :
    readLenPrefixed.run (lenPrefixed bs ++ rest) = some (bs, rest) := by
  rw [readLenPrefixed, lenPrefixed, List.append_assoc,
    run_bind_of_eq_some (uint_le 8 _ _ (two_pow_64 ▸ h)), take_append]

theorem readLenPrefixed_eq_some {bs rest x : Bytes} (h : readLenPrefixed.run bs = some (x, rest)) :
    bs = lenPrefixed x ++ rest := by
  obtain ⟨n, mid, hn, hx⟩ := run_bind_eq_some.mp h
  obtain ⟨rfl, -⟩ := uint_eq_some hn
  obtain ⟨rfl, rfl⟩ := take_eq_some.mp hx
  simp [lenPrefixed]

theorem readInvokeEffects_append {rec : InvokeEffects} (h : rec.effects.length < 2 ^ 64)
    (rest : Bytes) : readInvokeEffects.run (rec.toBytes ++ rest) = some (rec, rest) := by
  have hidx : rec.replyIdx.toNat < 256 ^ 8 := two_pow_64 ▸ rec.replyIdx.toNat_lt
  have hsvc : rec.svcId.toNat < 256 ^ 4 := by
    have := rec.svcId.toNat_lt
    norm_num at this ⊢
    exact this
  rw [readInvokeEffects, InvokeEffects.toBytes, List.append_assoc, List.append_assoc,
    run_bind_of_eq_some (uint_le 8 _ _ hidx), run_bind_of_eq_some (uint_le 4 _ _ hsvc),
    run_bind_of_eq_some (readLenPrefixed_append h rest)]
  simp

theorem readInvokeEffects_eq_some {bs rest : Bytes} {rec : InvokeEffects}
    (h : readInvokeEffects.run bs = some (rec, rest)) : bs = rec.toBytes ++ rest := by
  obtain ⟨idx, mid, hidx, h₁⟩ := run_bind_eq_some.mp h
  obtain ⟨svc, mid', hsvc, h₂⟩ := run_bind_eq_some.mp h₁
  obtain ⟨effects, mid'', heff, h₃⟩ := run_bind_eq_some.mp h₂
  obtain ⟨rfl, rfl⟩ := run_pure_eq_some.mp h₃
  obtain ⟨rfl, hidx_lt⟩ := uint_eq_some hidx
  obtain ⟨rfl, hsvc_lt⟩ := uint_eq_some hsvc
  have h64 : idx.toUInt64.toNat = idx := UInt64.toNat_ofNat_of_lt' (lt_of_lt_of_eq hidx_lt rfl)
  have h32 : svc.toUInt32.toNat = svc :=
    UInt32.toNat_ofNat_of_lt' (by norm_num at hsvc_lt ⊢; exact hsvc_lt)
  rw [readLenPrefixed_eq_some heff, InvokeEffects.toBytes, h64, h32]
  simp

theorem readCounted_append {α : Type} {p : Reader α} {enc : α → Bytes} {min : ℕ} {xs : List α}
    (hp : ∀ x ∈ xs, ∀ rest, p.run (enc x ++ rest) = some (x, rest)) (hmin0 : 0 < min)
    (hmin : ∀ x ∈ xs, min ≤ (enc x).length) (hlen : xs.length < 2 ^ 64) (rest : Bytes) :
    (readCounted p min).run (le 8 xs.length ++ (xs.flatMap enc ++ rest)) = some (xs, rest) := by
  -- the items take at least `min` bytes each, so the room check passes
  have hroom : xs.length ≤ (xs.flatMap enc ++ rest).length / min := by
    rw [Nat.le_div_iff_mul_le hmin0, List.length_append]
    have := mul_le_length_flatMap hmin
    omega
  rw [readCounted, run_bind_of_eq_some (uint_le 8 _ _ (two_pow_64 ▸ hlen)),
    run_bind_of_eq_some (remaining_run _), run_bind_of_eq_some (ensure_of hroom _)]
  exact count_flatMap hp rest

theorem readCounted_eq_some {α : Type} {p : Reader α} {enc : α → Bytes} {min : ℕ}
    (hp : ∀ bs x rest, p.run bs = some (x, rest) → bs = enc x ++ rest) {bs rest : Bytes}
    {xs : List α} (h : (readCounted p min).run bs = some (xs, rest)) :
    bs = le 8 xs.length ++ (xs.flatMap enc ++ rest) := by
  obtain ⟨n, mid, hn, h₁⟩ := run_bind_eq_some.mp h
  obtain ⟨rfl, -⟩ := uint_eq_some hn
  obtain ⟨left, mid', hleft, h₂⟩ := run_bind_eq_some.mp h₁
  obtain ⟨rfl, rfl⟩ := remaining_eq_some.mp hleft
  obtain ⟨u, mid'', hens, h₃⟩ := run_bind_eq_some.mp h₂
  obtain ⟨-, rfl⟩ := ensure_eq_some hens
  obtain ⟨rfl, hlen⟩ := count_eq_some hp n h₃
  rw [hlen]

theorem readInvocationId_tail (invocationId : InvocationId) :
    readInvocationId.run (invocationTail invocationId) = some (invocationId, []) := by
  unfold invocationTail
  by_cases hz : invocationId = zeroId
  · subst hz
    simp [readInvocationId]
  · rw [if_pos hz, readInvocationId, run_bind_of_eq_some (remaining_run _), if_neg (by simp),
      run_bind_of_eq_some (byte_cons _ _), run_bind_of_eq_some (ensure_of rfl _)]
    simpa using fixed_append invocationId []

theorem readInvocationId_eq_some {bs rest : Bytes} {invocationId : InvocationId}
    (h : readInvocationId.run bs = some (invocationId, rest)) :
    (bs = [] ∧ invocationId = zeroId ∧ rest = []) ∨
      bs = invocationIdExtension :: invocationId.toList ++ rest := by
  obtain ⟨left, mid, hleft, h₁⟩ := run_bind_eq_some.mp h
  obtain ⟨rfl, rfl⟩ := remaining_eq_some.mp hleft
  split at h₁
  · -- nothing left: the zero identity
    obtain ⟨rfl, rfl⟩ := run_pure_eq_some.mp h₁
    have hnil := List.eq_nil_of_length_eq_zero ‹_›
    exact .inl ⟨hnil, rfl, hnil⟩
  · obtain ⟨tag, mid', htag, h₂⟩ := run_bind_eq_some.mp h₁
    obtain ⟨u, mid'', hens, h₃⟩ := run_bind_eq_some.mp h₂
    obtain ⟨rfl, rfl⟩ := ensure_eq_some hens
    rw [byte_eq_some.mp htag, fixed_eq_some h₃]
    exact .inr rfl

/-! ## The round trips -/

/-- The fields of a log, followed by any tail from which `readInvocationId` reads the log's id
and leaves nothing, decode to the log. -/
theorem EffectLog.fromBytes_fieldBytes {l : EffectLog} (hl : l.Sized) {tail : Bytes}
    (htail : readInvocationId.run tail = some (l.invocationId, [])) :
    EffectLog.fromBytes (l.fieldBytes ++ tail) = some l := by
  have hreplies := readCounted_append (fun r hr rest => readLenPrefixed_append (hl.reply r hr) rest)
    (show 0 < 8 by norm_num) (fun r _ => by simp [lenPrefixed]) hl.replies
  have hrecs := readCounted_append
    (fun rec hrec rest => readInvokeEffects_append (hl.effects rec hrec) rest)
    (show 0 < 20 by norm_num) (fun rec _ => by simp [InvokeEffects.toBytes, lenPrefixed]; omega)
    hl.invokeEffects
  rw [EffectLog.fromBytes, StateT.run'_eq]
  simp only [EffectLog.fieldBytes, List.append_assoc, List.cons_append]
  rw [run_bind_of_eq_some (readLenPrefixed_append hl.msg _), run_bind_of_eq_some (hreplies _),
    run_bind_of_eq_some (byte_cons _ _), run_bind_of_eq_some (fixed_append _ _),
    run_bind_of_eq_some (fixed_append _ _), run_bind_of_eq_some (hrecs _),
    run_bind_of_eq_some htail, run_bind_of_eq_some (remaining_run _),
    run_bind_of_eq_some (ensure_of List.length_nil _)]
  rfl

theorem EffectLog.fromBytes_toBytes {l : EffectLog} (hl : l.Sized) :
    EffectLog.fromBytes l.toBytes = some l :=
  EffectLog.fromBytes_fieldBytes hl (readInvocationId_tail l.invocationId)

theorem EffectLog.fromBytes_zero_extension {l : EffectLog} (hl : l.Sized)
    (hz : l.invocationId = zeroId) :
    EffectLog.fromBytes (l.fieldBytes ++ invocationIdExtension :: zeroId.toList) = some l := by
  refine EffectLog.fromBytes_fieldBytes hl ?_
  rw [readInvocationId, run_bind_of_eq_some (remaining_run _), if_neg (by simp),
    run_bind_of_eq_some (byte_cons _ _), run_bind_of_eq_some (ensure_of rfl _), hz]
  simpa using fixed_append zeroId []

/-- What `from_bytes` accepts is the encoding of what it returns, or that encoding with the
zero identity written out. -/
theorem EffectLog.toBytes_of_fromBytes {b : Bytes} {l : EffectLog}
    (h : EffectLog.fromBytes b = some l) :
    l.toBytes = b ∨
      (l.invocationId = zeroId ∧ b = l.toBytes ++ invocationIdExtension :: zeroId.toList) := by
  obtain ⟨⟨l', rest⟩, hrun, rfl⟩ := Option.map_eq_some_iff.mp h
  obtain ⟨msg, b₁, hmsg, h₁⟩ := run_bind_eq_some.mp hrun
  obtain ⟨replies, b₂, hreplies, h₂⟩ := run_bind_eq_some.mp h₁
  obtain ⟨anchorKind, b₃, hkind, h₃⟩ := run_bind_eq_some.mp h₂
  obtain ⟨anchor, b₄, hanchor, h₄⟩ := run_bind_eq_some.mp h₃
  obtain ⟨callerPrefix, b₅, hprefix, h₅⟩ := run_bind_eq_some.mp h₄
  obtain ⟨invokeEffects, b₆, hrecs, h₆⟩ := run_bind_eq_some.mp h₅
  obtain ⟨invocationId, b₇, hid, h₇⟩ := run_bind_eq_some.mp h₆
  obtain ⟨left, b₈, hleft, h₈⟩ := run_bind_eq_some.mp h₇
  obtain ⟨u, b₉, hend, h₉⟩ := run_bind_eq_some.mp h₈
  obtain ⟨rfl, rfl⟩ := run_pure_eq_some.mp h₉
  obtain ⟨rfl, rfl⟩ := remaining_eq_some.mp hleft
  obtain ⟨hempty, rfl⟩ := ensure_eq_some hend
  -- the fields are those of the log, and the input ends with what `readInvocationId` read
  have hb : b = EffectLog.fieldBytes ⟨msg, replies, anchorKind, anchor, callerPrefix,
      invokeEffects, invocationId⟩ ++ b₆ := by
    rw [readLenPrefixed_eq_some hmsg,
      readCounted_eq_some (fun _ _ _ h => readLenPrefixed_eq_some h) hreplies,
      byte_eq_some.mp hkind, fixed_eq_some hanchor, fixed_eq_some hprefix,
      readCounted_eq_some (fun _ _ _ h => readInvokeEffects_eq_some h) hrecs]
    simp [EffectLog.fieldBytes]
  obtain rfl : b₉ = [] := List.eq_nil_of_length_eq_zero hempty
  rw [hb]
  rcases readInvocationId_eq_some hid with ⟨rfl, rfl, -⟩ | rfl
  · exact .inl (by simp [EffectLog.toBytes, invocationTail])
  · by_cases hz : invocationId = zeroId
    · subst hz
      exact .inr ⟨rfl, by simp [EffectLog.toBytes, invocationTail]⟩
    · exact .inl (by simp [EffectLog.toBytes, invocationTail, hz])

/-! ## `CrdtEvent` -/

/-- `CRDT_EVENT_VERSION`. -/
def crdtEventVersion : UInt8 := 1

/-- `CrdtEvent`. -/
structure CrdtEvent where
  origin : Bytes32
  seq : UInt64
  log : EffectLog
  deriving DecidableEq

section Blake2b

variable (blake2b : Bytes → Bytes32)

/-- `InvocationId::derive`. -/
def InvocationId.derive (nameSpace nonce : Bytes) : InvocationId :=
  Hash.digest blake2b "vos/invocation/v2".toUTF8.toList
    [le 8 nameSpace.length, nameSpace, le 8 nonce.length, nonce]

/-- `CrdtEvent::invocation_id_for`: the nonce is the origin and the `u64` sequence number. -/
def CrdtEvent.invocationIdFor (origin : Bytes32) (seq : UInt64) : InvocationId :=
  InvocationId.derive blake2b "vos/crdt-event/v2".toUTF8.toList (origin.toList ++ le 8 seq.toNat)

/-- `CrdtEvent::new`: the log gets the invocation id of the event. -/
def CrdtEvent.new (origin : Bytes32) (seq : UInt64) (log : EffectLog) : CrdtEvent :=
  ⟨origin, seq, { log with invocationId := CrdtEvent.invocationIdFor blake2b origin seq }⟩

/-- `CrdtEvent::to_bytes`: `[version:u8][origin:32B][seq:u64 LE][effect_log_bytes…]`. -/
def CrdtEvent.toBytes (e : CrdtEvent) : Bytes :=
  crdtEventVersion :: e.origin.toList ++ le 8 e.seq.toNat ++ e.log.toBytes

/-- `CrdtEvent::from_bytes`. -/
def CrdtEvent.fromBytes (bytes : Bytes) : Option CrdtEvent :=
  if bytes.length < 1 + 32 + 8 then none
  else if bytes.head? ≠ some crdtEventVersion then none
  else do
    let (origin, rest) ← (fixed 32).run (bytes.drop 1)
    let (seq, _) ← (uint 8).run rest
    let log ← EffectLog.fromBytes (bytes.drop 41)
    let expected := CrdtEvent.invocationIdFor blake2b origin seq.toUInt64
    if log.invocationId ≠ zeroId ∧ log.invocationId ≠ expected then none
    else some (CrdtEvent.new blake2b origin seq.toUInt64 log)

end Blake2b

/-! ## The event wire -/

section Event

variable (blake2b : Bytes → Bytes32)

/-- **`CrdtEvent::from_bytes` reads back a fresh event.** -/
theorem CrdtEvent.fromBytes_toBytes_new (origin : Bytes32) (seq : UInt64) {log : EffectLog}
    (hl : log.Sized) :
    CrdtEvent.fromBytes blake2b (CrdtEvent.new blake2b origin seq log).toBytes =
      some (CrdtEvent.new blake2b origin seq log) := by
  set e := CrdtEvent.new blake2b origin seq log with he
  have hsized : e.log.Sized := ⟨hl.msg, hl.replies, hl.reply, hl.invokeEffects, hl.effects⟩
  -- the header: version, origin, sequence number, then the log
  have hlen : ¬ e.toBytes.length < 1 + 32 + 8 := by
    simp only [CrdtEvent.toBytes, List.length_append, List.length_cons, Vector.length_toList,
      length_le]
    omega
  have hhead : e.toBytes.head? = some crdtEventVersion := rfl
  have horigin : (fixed 32).run (e.toBytes.drop 1) = some (origin, le 8 seq.toNat ++ e.log.toBytes) := by
    simpa [CrdtEvent.toBytes, he, CrdtEvent.new] using fixed_append origin _
  have hseq : (uint 8).run (le 8 seq.toNat ++ e.log.toBytes) = some (seq.toNat, e.log.toBytes) :=
    uint_le 8 _ _ (two_pow_64 ▸ seq.toNat_lt)
  have hdrop : e.toBytes.drop 41 = e.log.toBytes := List.drop_left' (by simp)
  -- the log carries the identity of the event, which the check expects
  have hid : e.log.invocationId = CrdtEvent.invocationIdFor blake2b origin seq := rfl
  rw [CrdtEvent.fromBytes, if_neg hlen, if_neg (by rw [hhead]; simp), horigin]
  simp only [Option.bind_eq_bind, Option.bind_some, hseq, hdrop, EffectLog.fromBytes_toBytes hsized,
    UInt64.ofNat_toNat]
  rw [if_neg (by rw [hid]; exact fun h => h.2 rfl)]
  rfl

end Event

/-- **The effect-log wire.** `EffectLog::from_bytes` reads back every log `to_bytes` writes, and
`CrdtEvent::from_bytes` every fresh event; what `from_bytes` accepts is the encoding of the log it
returns, or, for the zero identity, that encoding with the extension written out. -/
theorem effectLog_codec (blake2b : Bytes → Bytes32) :
    (∀ l : EffectLog, l.Sized → EffectLog.fromBytes l.toBytes = some l) ∧
    (∀ (origin : Bytes32) (seq : UInt64) (log : EffectLog), log.Sized →
      CrdtEvent.fromBytes blake2b (CrdtEvent.new blake2b origin seq log).toBytes =
        some (CrdtEvent.new blake2b origin seq log)) ∧
    (∀ (b : Bytes) (l : EffectLog), EffectLog.fromBytes b = some l →
      l.toBytes = b ∨
        (l.invocationId = zeroId ∧ b = l.toBytes ++ invocationIdExtension :: zeroId.toList)) :=
  ⟨fun _ hl => EffectLog.fromBytes_toBytes hl,
    fun origin seq _ hl => CrdtEvent.fromBytes_toBytes_new blake2b origin seq hl,
    fun _ _ h => EffectLog.toBytes_of_fromBytes h⟩

/-- An empty log with the zero identity is accepted with the extension written out, an encoding
other than its own. -/
theorem effectLog_zero_extension_accepted :
    let l : EffectLog := ⟨[], [], 0, Vector.replicate 32 0, Vector.replicate 5 0, [], zeroId⟩
    EffectLog.fromBytes (l.toBytes ++ invocationIdExtension :: zeroId.toList) = some l ∧
      l.toBytes ≠ l.toBytes ++ invocationIdExtension :: zeroId.toList := by
  intro l
  have hsized : l.Sized := ⟨by simp [l], by simp [l], by simp [l], by simp [l], by simp [l]⟩
  have htail : l.toBytes = l.fieldBytes := by simp [EffectLog.toBytes, invocationTail, l]
  refine ⟨?_, by simp⟩
  rw [htail]
  exact EffectLog.fromBytes_zero_extension hsized rfl

end Vos
