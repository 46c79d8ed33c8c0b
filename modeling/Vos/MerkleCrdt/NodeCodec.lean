import Vos.MerkleCrdt.Node
import Vos.Lib.ByteCodec

/-!
# merkle-crdt — the node codec

`DagNode::to_bytes` writes `[payload_len:u64 LE][payload_bytes][children_count:u64 LE][child_cids...]`,
the children in ascending order, and `DagNode::from_bytes` reads it back: the payload is decoded
inside its length-prefixed slot, which it must fill, and the children set is rebuilt from the count
and the fixed-width CIDs, a repeated CID being refused. A node's CID is the hash of these bytes.

A payload type's `Encode` / `Decode` pair is a `Codec`; `Codec.ReadsBack` says that its decoder
reads back what its encoder wrote, whatever follows.

* `DagNode.toBytes`, `DagNode.fromBytes`; the `u64` and `bool` codecs;
* **`DagNode.fromBytes_toBytes`**: the codec is lossless for every node whose payload its codec
  reads back, so `toBytes` is injective on such nodes (`toBytes_inj`);
* **`fromBytes_descending_children`**: `from_bytes` does not check the order of the children, so
  a byte string it accepts need not be the encoding of the node it decodes to.
-/

namespace Vos.MerkleCrdt

open ByteCodec

/-- An `Encode` / `Decode` pair: `encode_to` writes a value, `decode_from` reads one off the bytes
left. -/
structure Codec (α : Type) where
  encode : α → List UInt8
  decode : Reader α

/-- The decoder reads back the value the encoder wrote, whatever follows it. -/
def Codec.ReadsBack {α : Type} (c : Codec α) (a : α) : Prop :=
  ∀ rest, c.decode.run (c.encode a ++ rest) = some (a, rest)

/-- `impl Encode / Decode for u64`: eight little-endian bytes. -/
def u64Codec : Codec UInt64 where
  encode x := le 8 x.toNat
  decode := do
    let n ← uint 8
    return n.toUInt64

/-- `impl Encode / Decode for bool`: one byte, any non-zero byte reading as `true`. -/
def boolCodec : Codec Bool where
  encode b := [if b then 1 else 0]
  decode := do
    let b ← byte
    return b != 0

/-- `P::decode_from` on the slot `slot`, which it must read to the end; the bytes after the slot
are left as they are. -/
def decodeSlot {α : Type} (r : Reader α) (slot : List UInt8) : Reader α := fun bs =>
  match r.run slot with
  | some (a, []) => some (a, bs)
  | _ => none

variable {C P : Type} [LinearOrder C]

/-- `DagNode::to_bytes`. -/
def DagNode.toBytes (payload : Codec P) (cid : Codec C) (n : DagNode C P) : List UInt8 :=
  le 8 (payload.encode n.payload).length ++ payload.encode n.payload ++ le 8 n.children.card ++
    (n.children.sort (· ≤ ·)).flatMap cid.encode

/-- `DagNode::from_bytes`: the payload length and slot, the count, one CID per child, and then
no byte left and no CID repeated. -/
def DagNode.fromBytes (payload : Codec P) (cid : Codec C) (bytes : List UInt8) :
    Option (DagNode C P) :=
  Prod.fst <$> (do
    let payloadLen ← uint 8
    let payloadBytes ← take payloadLen
    let p ← decodeSlot payload.decode payloadBytes
    let count ← uint 8
    let cids ← ByteCodec.count cid.decode count
    let left ← remaining
    ensure (left = 0 ∧ cids.toFinset.card = count)
    return ({ payload := p, children := cids.toFinset } : DagNode C P)).run bytes

/-! ## The round trip -/

theorem u64Codec_readsBack (x : UInt64) : u64Codec.ReadsBack x := by
  intro rest
  have hx : x.toNat < 256 ^ 8 := x.toNat_lt
  show (uint 8 >>= fun n => pure n.toUInt64).run (le 8 x.toNat ++ rest) = _
  rw [run_bind_of_eq_some (uint_le 8 x.toNat rest hx)]
  simp

theorem decodeSlot_encode {α : Type} {c : Codec α} {a : α} (h : c.ReadsBack a) (bs : List UInt8) :
    (decodeSlot c.decode (c.encode a)).run bs = some (a, bs) := by
  have h0 := h []
  rw [List.append_nil] at h0
  simp only [decodeSlot, StateT.run] at h0 ⊢
  rw [h0]

/-- **The node codec is lossless**: a node whose payload its codec reads back, written in fewer
than `2^64` payload bytes, and whose children are fewer than `2^64` CIDs each read back, decodes
from its bytes to itself. -/
theorem DagNode.fromBytes_toBytes {payload : Codec P} {cid : Codec C} (n : DagNode C P)
    (hp : payload.ReadsBack n.payload) (hplen : (payload.encode n.payload).length < 2 ^ 64)
    (hc : ∀ c ∈ n.children, cid.ReadsBack c) (hcard : n.children.card < 2 ^ 64) :
    DagNode.fromBytes payload cid (n.toBytes payload cid) = some n := by
  have hlen : (payload.encode n.payload).length < 256 ^ 8 := by simpa using hplen
  have hcard' : n.children.card < 256 ^ 8 := by simpa using hcard
  -- the children are read back in ascending order, and make up the set they were written from
  have hcids : (ByteCodec.count cid.decode n.children.card).run
      ((n.children.sort (· ≤ ·)).flatMap cid.encode) = some (n.children.sort (· ≤ ·), []) := by
    have hsort : (ByteCodec.count cid.decode (n.children.sort (· ≤ ·)).length).run
        ((n.children.sort (· ≤ ·)).flatMap cid.encode ++ []) =
          some (n.children.sort (· ≤ ·), []) :=
      count_flatMap (fun c hc' => hc c ((Finset.mem_sort _).mp hc')) []
    rwa [Finset.length_sort, List.append_nil] at hsort
  have hset : (n.children.sort (· ≤ ·)).toFinset = n.children := Finset.sort_toFinset _ _
  have hend : (ensure (0 = 0 ∧ (n.children.sort (· ≤ ·)).toFinset.card = n.children.card)).run [] =
      some ((), []) := ensure_of ⟨rfl, by rw [hset]⟩ []
  simp only [DagNode.fromBytes, DagNode.toBytes, List.append_assoc,
    run_bind_of_eq_some (uint_le 8 _ _ hlen), run_bind_of_eq_some (take_append _ _),
    run_bind_of_eq_some (decodeSlot_encode hp _), run_bind_of_eq_some (uint_le 8 _ _ hcard'),
    run_bind_of_eq_some hcids, run_bind_of_eq_some (remaining_run []), List.length_nil,
    run_bind_of_eq_some hend, StateT.run_pure, Option.map_eq_map, hset]
  rfl

/-- `toBytes` is injective on the nodes the codec reads back: under an injective hash, so is the
CID. -/
theorem DagNode.toBytes_inj {payload : Codec P} {cid : Codec C} {n m : DagNode C P}
    (hp : payload.ReadsBack n.payload) (hplen : (payload.encode n.payload).length < 2 ^ 64)
    (hc : ∀ c ∈ n.children, cid.ReadsBack c) (hcard : n.children.card < 2 ^ 64)
    (hp' : payload.ReadsBack m.payload) (hplen' : (payload.encode m.payload).length < 2 ^ 64)
    (hc' : ∀ c ∈ m.children, cid.ReadsBack c) (hcard' : m.children.card < 2 ^ 64)
    (h : n.toBytes payload cid = m.toBytes payload cid) : n = m := by
  have hn := n.fromBytes_toBytes hp hplen hc hcard
  rw [h, m.fromBytes_toBytes hp' hplen' hc' hcard'] at hn
  exact (Option.some.inj hn).symm

/-! ## What `from_bytes` accepts -/

/-- One-byte CIDs, compared as bytes: the `[u8; N]` decoder at `N = 1`. -/
def byteCid : Codec (Fin 256) where
  encode c := [c.val.toUInt8]
  decode := do
    let b ← byte
    return b.toFin

/-- **`from_bytes` accepts the children in descending order.** The bytes of a `u64` payload `7`
with the children `2, 1` decode to the node with children `{1, 2}`, whose encoding lists them
as `1, 2`: the accepted bytes are not that node's bytes, and hash to another CID. -/
theorem fromBytes_descending_children :
    DagNode.fromBytes u64Codec byteCid (le 8 8 ++ le 8 7 ++ le 8 2 ++ [2, 1]) = some ⟨7, {1, 2}⟩ ∧
      DagNode.toBytes u64Codec byteCid ⟨7, {1, 2}⟩ ≠ le 8 8 ++ le 8 7 ++ le 8 2 ++ [2, 1] := by
  have htake : (take 8).run (le 8 7 ++ (le 8 2 ++ [2, 1])) = some (le 8 7, le 8 2 ++ [2, 1]) := by
    simpa using take_append (le 8 7) (le 8 2 ++ [2, 1])
  have hslot : (decodeSlot u64Codec.decode (le 8 7)).run (le 8 2 ++ [2, 1]) =
      some (7, le 8 2 ++ [2, 1]) :=
    decodeSlot_encode (u64Codec_readsBack 7) _
  have hcids : (ByteCodec.count byteCid.decode 2).run [2, 1] = some ([2, 1], []) := by decide
  have hend : (ensure (0 = 0 ∧ ([2, 1] : List (Fin 256)).toFinset.card = 2)).run [] =
      some ((), []) := ensure_of ⟨rfl, by decide⟩ []
  have hset : ([2, 1] : List (Fin 256)).toFinset = {1, 2} := by decide
  constructor
  · simp only [DagNode.fromBytes, List.append_assoc, run_bind_of_eq_some (uint_le 8 8 _ (by decide)),
      run_bind_of_eq_some htake, run_bind_of_eq_some hslot,
      run_bind_of_eq_some (uint_le 8 2 _ (by decide)), run_bind_of_eq_some hcids,
      run_bind_of_eq_some (remaining_run []), List.length_nil, run_bind_of_eq_some hend,
      StateT.run_pure, Option.map_eq_map, hset]
    rfl
  · -- `to_bytes` lists the children in ascending order
    have hsort : ({1, 2} : Finset (Fin 256)).sort (· ≤ ·) = [1, 2] :=
      List.Pairwise.eq_of_mem_iff (Finset.sortedLT_sort _).pairwise (by decide) fun a => by simp
    rw [DagNode.toBytes, hsort]
    decide

end Vos.MerkleCrdt
