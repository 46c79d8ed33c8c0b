import Vos.Lib.ByteCodec
import Vos.V2.StateTree

/-!
# vos v2 — state keys and their hashing

`v2/storage.rs` gives every logical row key, `StateKeyV2`, a canonical wire: a magic, the ABI
version and a tagged body (`StateKeyV2::encode`). `v2/state_tree.rs` hashes keys on a hot path
without building that wire: `hash_state_key` lays the same bytes out as a list of parts in a
fixed array of twelve slots, with its own table of tags and a hand-written length field, and
hands the parts to `Hash::digest`, which feeds them one after the other to BLAKE2b.

* `StateKeyV2`, `Encoder`, `StateKeyV2.encodeBody`, `StateKeyV2.encode`;
* `Decoder`, `StateKeyV2.decodeBody`, `StateKeyV2.decode`: `decode_encode` reads back the wire
  of a key whose `MethodPolicy` method or `ActorRow` key is non-empty and whose wire fits
  `MAX_BYTES`, and `decode_fieldsNonEmpty` says that nothing else decodes, so `readsBack_iff`
  says which keys a leaf of the state tree can hold;
* `Hash.digest` over a hash of the byte stream, `hashStateKey` with its part array `PartSlots`;
* `flatten_stateKeyParts`: the parts of a key concatenate to its wire;
* `fillParts_eq`: the part array holds the parts when there are at most twelve, and panics
  otherwise;
* **`hashStateKey_eq`**: `hash_state_key` is `Hash::digest` over the prefix, the wire of the key
  and the suffix, exactly when the parts fit the array; `statePosition_eq` and
  `hashLeaf_eq`: the two callers always fit.

BLAKE2b is a parameter, `blake2b : Bytes → H`, applied to the whole stream a digest reads.
-/

namespace Vos.V2

open ByteCodec

/-- `ABI_VERSION`. -/
def abiVersion : ℕ := 15

/-- `ActorId`, `CallId` and `InvocationId`: 32 bytes each. -/
abbrev ActorId := Bytes32

abbrev CallId := Bytes32

abbrev InvocationId := Bytes32

/-- `StateKeyV2`. -/
inductive StateKeyV2
  | actorDirectory
  | externalActorDirectory
  | roleAuthority
  | actorDescriptor (actor : ActorId)
  | methodPolicy (actor : ActorId) (method : String)
  | actorRow (actor : ActorId) (key : Bytes)
  | continuation (actor : ActorId)
  | inbox (call : CallId)
  | outbox (call : CallId)
  | workflow (invocation : InvocationId)
  | crdtMaterialization (actor : ActorId)
  | pendingAuthorizedInbox (actor : ActorId)
  deriving DecidableEq

/-! ## The canonical wire -/

namespace Encoder

/-- `Encoder::u8`. -/
def u8 (value : UInt8) : Bytes := [value]

/-- `Encoder::fixed`. -/
def fixed (value : Bytes32) : Bytes := value.toList

/-- `Encoder::bytes`: a `u32` length, then the bytes. -/
def bytes (value : Bytes) : Bytes := le 4 value.length ++ value

/-- `Encoder::string`: the UTF-8 bytes, as `bytes`. -/
def string (value : String) : Bytes := bytes value.toUTF8.toList

end Encoder

namespace StateKeyV2

/-- `StateKeyV2::MAGIC`, `b"VSK2"`. -/
def magic : Bytes := [0x56, 0x53, 0x4B, 0x32]

open Encoder in
/-- `StateKeyV2::encode_body`. -/
def encodeBody : StateKeyV2 → Bytes
  | actorDirectory => u8 9
  | externalActorDirectory => u8 10
  | roleAuthority => u8 11
  | actorDescriptor actor => u8 0 ++ fixed actor
  | methodPolicy actor method => u8 1 ++ fixed actor ++ string method
  | actorRow actor key => u8 2 ++ fixed actor ++ bytes key
  | continuation actor => u8 3 ++ fixed actor
  | inbox call => u8 4 ++ fixed call
  | outbox call => u8 5 ++ fixed call
  | workflow invocation => u8 6 ++ fixed invocation
  | crdtMaterialization actor => u8 7 ++ fixed actor
  | pendingAuthorizedInbox actor => u8 8 ++ fixed actor

/-- `V2Wire::encode`: the magic, the ABI version as a `u16`, the body. -/
def encode (key : StateKeyV2) : Bytes := magic ++ le 2 abiVersion ++ key.encodeBody

end StateKeyV2

/-! ## The decoder

`Decoder` of `v2/wire.rs` as a `Reader`: every `DecodeError` is its `none`, which `read_node` turns
into `CorruptNode` whatever the error. -/

namespace Decoder

/-- `Decoder::u8`. -/
def u8 : Reader UInt8 := byte

/-- `Decoder::u16`. -/
def u16 : Reader ℕ := uint 2

/-- `Decoder::fixed`. -/
def fixed : Reader Bytes32 := ByteCodec.fixed 32

/-- `Decoder::bytes`: a `u32` length, refused past `MAX_BYTES`, then that many bytes. -/
def bytes : Reader Bytes := do
  let len ← uint 4
  ensure (len ≤ maxBytes)
  take len

/-- `Decoder::string`: `bytes`, refused unless they are UTF-8. -/
def string : Reader String := do
  let bs ← bytes
  let s ← (String.fromUTF8? ⟨bs.toArray⟩ : Option String)
  return s

end Decoder

namespace StateKeyV2

/-- `StateKeyV2::decode_body`: an empty `MethodPolicy` method or `ActorRow` key is
`NonCanonical`. -/
def decodeBody : Reader StateKeyV2 := do
  let tag ← Decoder.u8
  match tag.toNat with
  | 0 => return actorDescriptor (← Decoder.fixed)
  | 1 =>
    let actor ← Decoder.fixed
    let method ← Decoder.string
    ensure (method.isEmpty = false)
    return methodPolicy actor method
  | 2 =>
    let actor ← Decoder.fixed
    let key ← Decoder.bytes
    ensure (key.isEmpty = false)
    return actorRow actor key
  | 3 => return continuation (← Decoder.fixed)
  | 4 => return inbox (← Decoder.fixed)
  | 5 => return outbox (← Decoder.fixed)
  | 6 => return workflow (← Decoder.fixed)
  | 7 => return crdtMaterialization (← Decoder.fixed)
  | 8 => return pendingAuthorizedInbox (← Decoder.fixed)
  | 9 => return actorDirectory
  | 10 => return externalActorDirectory
  | 11 => return roleAuthority
  | _ => failure

/-- `V2Wire::decode`: the magic, the ABI version, the body, and no byte left over. -/
def decode (bytes : Bytes) : Option StateKeyV2 :=
  (do
    let m ← take 4
    ensure (m = magic)
    let version ← Decoder.u16
    ensure (version = abiVersion)
    let value ← decodeBody
    let left ← remaining
    ensure (left = 0)
    return value : Reader StateKeyV2).run' bytes

/-- A leaf's key reads back: the leaf's `d.bytes()` takes the key's wire, within `MAX_BYTES`, and
`StateKeyV2::decode` gives the key. -/
def readsBack (key : StateKeyV2) : Bool :=
  decide (key.encode.length ≤ maxBytes) && decode key.encode == some key

/-- The fields `decode_body` checks: a `MethodPolicy` method and an `ActorRow` key are not
empty. -/
def fieldsNonEmpty : StateKeyV2 → Bool
  | methodPolicy _ method => !method.isEmpty
  | actorRow _ key => !key.isEmpty
  | _ => true

end StateKeyV2

/-! ## The decoder reads the wire back -/

theorem maxBytes_lt : maxBytes < 256 ^ 4 := by
  unfold maxBytes
  norm_num

namespace Decoder

theorem u8_encode (value : UInt8) (rest : Bytes) :
    u8.run (Encoder.u8 value ++ rest) = some (value, rest) :=
  byte_cons value rest

theorem u16_le {value : ℕ} (h : value < 256 ^ 2) (rest : Bytes) :
    u16.run (le 2 value ++ rest) = some (value, rest) :=
  uint_le 2 value rest h

theorem fixed_encode (value : Bytes32) (rest : Bytes) :
    fixed.run (Encoder.fixed value ++ rest) = some (value, rest) :=
  fixed_append value rest

theorem bytes_encode {value : Bytes} (h : value.length ≤ maxBytes) (rest : Bytes) :
    bytes.run (Encoder.bytes value ++ rest) = some (value, rest) := by
  have hlen : value.length < 256 ^ 4 := lt_of_le_of_lt h maxBytes_lt
  rw [Encoder.bytes, List.append_assoc, bytes, run_bind_of_eq_some (uint_le 4 _ _ hlen),
    run_bind_of_eq_some (ensure_of h _)]
  exact take_append value rest

theorem string_encode {value : String} (h : value.toUTF8.toList.length ≤ maxBytes) (rest : Bytes) :
    string.run (Encoder.string value ++ rest) = some (value, rest) := by
  have hutf8 : String.fromUTF8? ⟨value.toUTF8.toList.toArray⟩ = some value := by
    rw [toList_byteArray]
    simp [String.fromUTF8?, value.isValidUTF8]
    rfl
  rw [Encoder.string, string, run_bind_of_eq_some (bytes_encode h rest), hutf8]
  rfl

end Decoder

namespace StateKeyV2

theorem decodeBody_encodeBody {key : StateKeyV2} (hne : key.fieldsNonEmpty = true)
    (hlen : key.encode.length ≤ maxBytes) (rest : Bytes) :
    decodeBody.run (key.encodeBody ++ rest) = some (key, rest) := by
  cases key with
  | methodPolicy actor method =>
    have hfit : method.toUTF8.toList.length ≤ maxBytes := by
      simp only [encode, encodeBody, Encoder.string, Encoder.bytes, List.length_append] at hlen
      omega
    have hsome : method.isEmpty = false := by simpa [fieldsNonEmpty] using hne
    rw [encodeBody, List.append_assoc, List.append_assoc, decodeBody,
      run_bind_of_eq_some (Decoder.u8_encode _ _)]
    simp only [UInt8.reduceToNat]
    rw [run_bind_of_eq_some (Decoder.fixed_encode _ _),
      run_bind_of_eq_some (Decoder.string_encode hfit rest)]
    simp [ensure_of hsome]
  | actorRow actor key =>
    have hfit : key.length ≤ maxBytes := by
      simp only [encode, encodeBody, Encoder.bytes, List.length_append] at hlen
      omega
    have hsome : key.isEmpty = false := by simpa [fieldsNonEmpty] using hne
    rw [encodeBody, List.append_assoc, List.append_assoc, decodeBody,
      run_bind_of_eq_some (Decoder.u8_encode _ _)]
    simp only [UInt8.reduceToNat]
    rw [run_bind_of_eq_some (Decoder.fixed_encode _ _),
      run_bind_of_eq_some (Decoder.bytes_encode hfit rest)]
    simp [ensure_of hsome]
  | _ =>
    simp only [encodeBody, List.append_assoc]
    rw [decodeBody, run_bind_of_eq_some (Decoder.u8_encode _ _)]
    simp [Decoder.fixed_encode]

theorem decodeBody_fieldsNonEmpty {bs rest : Bytes} {key : StateKeyV2}
    (h : decodeBody.run bs = some (key, rest)) : key.fieldsNonEmpty = true := by
  obtain ⟨tag, mid, -, h⟩ := run_bind_eq_some.mp h
  split at h
  case h_2 =>
    obtain ⟨actor, mid, -, h⟩ := run_bind_eq_some.mp h
    obtain ⟨method, mid, -, h⟩ := run_bind_eq_some.mp h
    obtain ⟨u, mid, hensure, h⟩ := run_bind_eq_some.mp h
    obtain ⟨rfl, -⟩ := run_pure_eq_some.mp h
    simpa [fieldsNonEmpty] using (ensure_eq_some hensure).1
  case h_3 =>
    obtain ⟨actor, mid, -, h⟩ := run_bind_eq_some.mp h
    obtain ⟨k, mid, -, h⟩ := run_bind_eq_some.mp h
    obtain ⟨u, mid, hensure, h⟩ := run_bind_eq_some.mp h
    obtain ⟨rfl, -⟩ := run_pure_eq_some.mp h
    simpa [fieldsNonEmpty] using (ensure_eq_some hensure).1
  case h_10 | h_11 | h_12 =>
    obtain ⟨rfl, -⟩ := run_pure_eq_some.mp h
    rfl
  case h_13 => cases h
  -- tags 0 and 3 to 8: one fixed field, never checked
  all_goals
    obtain ⟨a, mid, -, h⟩ := run_bind_eq_some.mp h
    obtain ⟨rfl, -⟩ := run_pure_eq_some.mp h
    rfl

/-- `decode` reads back the wire of a key whose checked fields are non-empty, within
`MAX_BYTES`. -/
theorem decode_encode {key : StateKeyV2} (hne : key.fieldsNonEmpty = true)
    (hlen : key.encode.length ≤ maxBytes) : decode key.encode = some key := by
  have hmagic : ∀ rest, (take 4).run (magic ++ rest) = some (magic, rest) :=
    take_append magic
  have hversion : abiVersion < 256 ^ 2 := by decide
  have hwire : key.encode = magic ++ (le 2 abiVersion ++ (key.encodeBody ++ [])) := by
    simp [encode]
  rw [decode, StateT.run'_eq, hwire, run_bind_of_eq_some (hmagic _), run_bind_of_eq_some (ensure_of rfl _),
    run_bind_of_eq_some (Decoder.u16_le hversion _), run_bind_of_eq_some (ensure_of rfl _),
    run_bind_of_eq_some (decodeBody_encodeBody hne hlen []), run_bind_of_eq_some (remaining_run _)]
  rfl

theorem decode_fieldsNonEmpty {bs : Bytes} {key : StateKeyV2} (h : decode bs = some key) :
    key.fieldsNonEmpty = true := by
  rw [decode, StateT.run'_eq, Option.map_eq_map, Option.map_eq_some_iff] at h
  obtain ⟨⟨key, rest⟩, h, rfl⟩ := h
  obtain ⟨m, mid, -, h⟩ := run_bind_eq_some.mp h
  obtain ⟨u, mid, -, h⟩ := run_bind_eq_some.mp h
  obtain ⟨version, mid, -, h⟩ := run_bind_eq_some.mp h
  obtain ⟨u, mid, -, h⟩ := run_bind_eq_some.mp h
  obtain ⟨value, mid, hbody, h⟩ := run_bind_eq_some.mp h
  obtain ⟨left, mid, -, h⟩ := run_bind_eq_some.mp h
  obtain ⟨u, mid, -, h⟩ := run_bind_eq_some.mp h
  obtain ⟨rfl, -⟩ := run_pure_eq_some.mp h
  exact decodeBody_fieldsNonEmpty hbody

/-- A key reads back exactly when its wire fits `MAX_BYTES` and its checked fields are
non-empty. -/
theorem readsBack_iff {key : StateKeyV2} :
    key.readsBack = true ↔ key.encode.length ≤ maxBytes ∧ key.fieldsNonEmpty = true := by
  constructor
  · intro h
    simp only [readsBack, Bool.and_eq_true, decide_eq_true_eq, beq_iff_eq] at h
    exact ⟨h.1, decode_fieldsNonEmpty h.2⟩
  · rintro ⟨hlen, hne⟩
    simp [readsBack, hlen, decode_encode hne hlen]

end StateKeyV2

/-! ## `hash_state_key` -/

/-- `Hash::digest`: the hash of the domain followed by every part, in order. -/
def Hash.digest {H : Type} (blake2b : Bytes → H) (domain : Bytes) (parts : List Bytes) : H :=
  blake2b (domain ++ parts.flatten)

/-- The part array of `hash_state_key`: twelve slots, of which the first `used` are written. -/
structure PartSlots where
  slots : Vector Bytes 12
  used : ℕ

namespace PartSlots

/-- `[&[]; 12]`, none used. -/
def empty : PartSlots := ⟨Vector.replicate 12 [], 0⟩

/-- `parts[used] = part; used += 1`: `none` is the panic of an index past the last slot. -/
def push (p : PartSlots) (part : Bytes) : Option PartSlots :=
  if h : p.used < 12 then some ⟨p.slots.set p.used part h, p.used + 1⟩ else none

/-- `&parts[..used]`. -/
def filled (p : PartSlots) : List Bytes := p.slots.toList.take p.used

end PartSlots

/-- The parts written one after the other into the array, and the slice of those used. -/
def fillParts (parts : List Bytes) : Option (List Bytes) :=
  (parts.foldlM PartSlots.push PartSlots.empty).map PartSlots.filled

/-- The tag table of `hash_state_key`. -/
def StateKeyV2.hashTag : StateKeyV2 → UInt8
  | .actorDescriptor _ => 0
  | .methodPolicy .. => 1
  | .actorRow .. => 2
  | .continuation _ => 3
  | .inbox _ => 4
  | .outbox _ => 5
  | .workflow _ => 6
  | .crdtMaterialization _ => 7
  | .pendingAuthorizedInbox _ => 8
  | .actorDirectory => 9
  | .externalActorDirectory => 10
  | .roleAuthority => 11

/-- The parts `hash_state_key` writes for the key itself, between the prefix and the suffix: the
magic, the version, the tag, then the fields, with the `u32` length the function computes for
the two variable-length variants. -/
def stateKeyParts (key : StateKeyV2) : List Bytes :=
  let version := le 2 abiVersion
  let tag := [key.hashTag]
  let length := match key with
    | .methodPolicy _ method => le 4 method.toUTF8.toList.length
    | .actorRow _ key => le 4 key.length
    | _ => [0, 0, 0, 0]
  [StateKeyV2.magic, version, tag] ++
    match key with
    | .actorDescriptor actor | .continuation actor | .crdtMaterialization actor
    | .pendingAuthorizedInbox actor => [actor.toList]
    | .inbox call | .outbox call => [call.toList]
    | .workflow invocation => [invocation.toList]
    | .methodPolicy actor method => [actor.toList, length, method.toUTF8.toList]
    | .actorRow actor key => [actor.toList, length, key]
    | .actorDirectory | .externalActorDirectory | .roleAuthority => []

/-- `hash_state_key`: `none` is the panic of a part array overflow. -/
def hashStateKey {H : Type} (blake2b : Bytes → H) (domain : Bytes) (pre : List Bytes)
    (key : StateKeyV2) (suffix : List Bytes) : Option H := do
  let parts ← fillParts (pre ++ stateKeyParts key ++ suffix)
  return Hash.digest blake2b domain parts

/-! ## The parts are the wire -/

/-- The parts of a key concatenate to its canonical wire: the two tag tables agree, and the
hand-written length is the one `Encoder::bytes` writes. -/
theorem flatten_stateKeyParts (key : StateKeyV2) : (stateKeyParts key).flatten = key.encode := by
  cases key <;>
    simp [stateKeyParts, StateKeyV2.encode, StateKeyV2.encodeBody, StateKeyV2.hashTag,
      Encoder.u8, Encoder.fixed, Encoder.bytes, Encoder.string]

theorem length_stateKeyParts_le (key : StateKeyV2) : (stateKeyParts key).length ≤ 6 := by
  cases key <;> simp [stateKeyParts]

/-! ## The part array -/

namespace PartSlots

theorem length_toList (p : PartSlots) : p.slots.toList.length = 12 := by simp

theorem push_of_lt {p : PartSlots} (h : p.used < 12) (part : Bytes) :
    ∃ q, p.push part = some q ∧ q.used = p.used + 1 ∧ q.filled = p.filled ++ [part] := by
  refine ⟨_, dif_pos h, rfl, ?_⟩
  have hlen : p.used < p.slots.toList.length := by rw [length_toList]; exact h
  simp only [filled, Vector.toList_set, List.take_add_one, List.take_set_of_le le_rfl,
    List.getElem?_set_self hlen, Option.toList_some]

theorem push_of_le {p : PartSlots} (h : 12 ≤ p.used) (part : Bytes) : p.push part = none :=
  dif_neg (by omega)

/-- Writing parts from a state with `used` slots written: they all fit exactly when there are at
most `12 - used` of them. -/
theorem foldlM_push (parts : List Bytes) (p : PartSlots) (hp : p.used ≤ 12) :
    (parts.foldlM push p).map filled =
      if p.used + parts.length ≤ 12 then some (p.filled ++ parts) else none := by
  induction parts generalizing p with
  | nil => simp [hp]
  | cons part parts ih =>
    by_cases h : p.used < 12
    · -- a free slot: the part is written, and the rest go on from the next slot
      obtain ⟨q, hq, hused, hfilled⟩ := push_of_lt h part
      have hlen : q.used + parts.length = p.used + (part :: parts).length := by
        rw [hused, List.length_cons]
        omega
      simp only [List.foldlM_cons, hq, Option.bind_eq_bind, Option.bind_some]
      rw [ih q (by omega), hlen, hfilled, List.append_assoc, List.singleton_append]
    · -- the array is full: the next write panics
      have hfull : ¬ p.used + (part :: parts).length ≤ 12 := by
        rw [List.length_cons]
        omega
      simp only [List.foldlM_cons, push_of_le (Nat.le_of_not_lt h), Option.bind_eq_bind,
        Option.bind_none, Option.map_none, if_neg hfull]

end PartSlots

theorem fillParts_eq (parts : List Bytes) :
    fillParts parts = if parts.length ≤ 12 then some parts else none := by
  have h := PartSlots.foldlM_push parts PartSlots.empty (Nat.zero_le _)
  rw [fillParts]
  simpa [PartSlots.empty, PartSlots.filled] using h

/-! ## `hash_state_key` is the digest of the wire -/

/-- **`hash_state_key` hashes the canonical wire.** It is `Hash::digest` over the prefix, the
wire of the key and the suffix when its parts fit the twelve slots of its array, and panics
otherwise. -/
theorem hashStateKey_eq {H : Type} (blake2b : Bytes → H) (domain : Bytes) (pre : List Bytes)
    (key : StateKeyV2) (suffix : List Bytes) :
    hashStateKey blake2b domain pre key suffix =
      if pre.length + (stateKeyParts key).length + suffix.length ≤ 12 then
        some (Hash.digest blake2b domain (pre ++ [key.encode] ++ suffix))
      else none := by
  rw [hashStateKey, fillParts_eq]
  simp only [List.length_append]
  split
  · simp [Hash.digest, flatten_stateKeyParts]
  · rfl

/-- Ten prefix parts and the three of `ActorDirectory` overflow the array: the call panics, under
any hash, here the identity on the stream. -/
theorem hashStateKey_ten_prefix_parts :
    hashStateKey (fun bs : Bytes => bs) [] (List.replicate 10 []) .actorDirectory [] = none := by
  rw [hashStateKey_eq, if_neg (by simp [stateKeyParts])]

/-! ## The callers

The two callers live in `v2/state_tree.rs`, whose free functions are kept under `StateTree`. -/

namespace StateTree

/-- `SERVICE_STATE_KEY_DOMAIN`. -/
def serviceStateKeyDomain : Bytes := "vos/service-state-key/v2".toUTF8.toList

/-- `SERVICE_STATE_LEAF_DOMAIN`. -/
def serviceStateLeafDomain : Bytes := "vos/service-state-leaf/v2".toUTF8.toList

/-- `state_position`. -/
def statePosition (blake2b : Bytes → Bytes32) (key : StateKeyV2) : Option Bytes32 :=
  hashStateKey blake2b serviceStateKeyDomain [] key []

/-- The leaf case of `hash_node`: the position before the key, the value's `u64` length and the
value after it. -/
def hashLeaf {H : Type} (blake2b : Bytes → H) (position : Bytes32) (logicalKey : StateKeyV2)
    (value : Bytes) : Option H :=
  hashStateKey blake2b serviceStateLeafDomain [position.toList] logicalKey
    [le 8 value.length, value]

theorem statePosition_eq (blake2b : Bytes → Bytes32) (key : StateKeyV2) :
    statePosition blake2b key = some (Hash.digest blake2b serviceStateKeyDomain [key.encode]) := by
  have hfit := length_stateKeyParts_le key
  rw [statePosition, hashStateKey_eq, if_pos (by simp; omega)]
  rfl

theorem hashLeaf_eq {H : Type} (blake2b : Bytes → H) (position : Bytes32) (logicalKey : StateKeyV2)
    (value : Bytes) :
    hashLeaf blake2b position logicalKey value =
      some (Hash.digest blake2b serviceStateLeafDomain
        [position.toList, logicalKey.encode, le 8 value.length, value]) := by
  have hfit := length_stateKeyParts_le logicalKey
  rw [hashLeaf, hashStateKey_eq, if_pos (by simp; omega)]
  rfl

end StateTree

/-! ## The keys of the state tree -/

/-- The keys of `v2/storage.rs` as the state tree sees them, for the BLAKE2b that `Hash::digest`
runs: a key sits at `state_position` (`StateTree.statePosition_eq`), and a leaf's key reads back when
`StateKeyV2::decode` gives it back. -/
abbrev stateKeyV2 (blake2b : Bytes → Bytes32) : StateKey StateKeyV2 where
  statePosition key := Hash.digest blake2b StateTree.serviceStateKeyDomain [key.encode]
  readsBack := StateKeyV2.readsBack

end Vos.V2
