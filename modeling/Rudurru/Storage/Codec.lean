import Mathlib

/-!
# Rudurru.Storage.Codec

The **`mvccpb.KeyValue` blob** and the varints it is made of (`src/storage/wal.rs`, first half).

Every key of the store is kept as one pre-encoded protobuf blob. The encoder is
hand-written so that two fields sit at offsets a WAL scan can jump to: the key length is a
5-byte *overlong* varint and `mod_revision` a 10-byte one, both of fixed width, while
`create_revision`, `version` and `lease` use minimal varints.

Machine integers keep the source's widths (`UInt8` … `UInt64`, `Int64`), so every `as` cast
is the wrapping cast of the source: `key.len() as u32` is `UInt32.ofNat key.length`, and a
`u16` offset past 65535 wraps.

Two third-party crates take part in the format. They enter as the fields of the class
`Crates`; what the code relies on is stated in `LawfulCrates`.
-/

namespace Rudurru

/-- Byte strings: `Vec<u8>`, `&[u8]` and `prost::bytes::Bytes` alike. -/
abbrev Bytes := List UInt8

/-- The decoded `mvccpb.KeyValue` message. -/
structure KeyValue where
  key : Bytes
  createRevision : Int64
  modRevision : Int64
  version : Int64
  value : Bytes
  lease : Int64
  deriving DecidableEq, Repr

/-- The third-party code the storage layer calls: the `crc32c` crate and prost's generated
`mvccpb::KeyValue::decode`. -/
class Crates where
  /-- `crc32c::crc32c`. -/
  crc32c : Bytes → UInt32
  /-- `crc32c::crc32c_append`. -/
  crc32cAppend : UInt32 → Bytes → UInt32
  /-- `mvccpb::KeyValue::decode`; `none` is a `DecodeError`. -/
  decodeKeyValue : Bytes → Option KeyValue

export Crates (crc32c crc32cAppend decodeKeyValue)

/-! ### Overlong varints -/

/-- `encode_overlong_u32`: a `u32` as a 5-byte varint. -/
def encodeOverlongU32 (v : UInt32) : Bytes :=
  (List.range 4).map (fun i => ((v >>> UInt32.ofNat (i * 7)).toUInt8 &&& 0x7f) ||| 0x80)
    ++ [(v >>> 28).toUInt8 &&& 0x0f]

/-- `decode_overlong_u32`: only the first five bytes are read. -/
def decodeOverlongU32 (buf : Bytes) : Option UInt32 :=
  if buf.length < 5 then none
  else
    some ((buf.take 5).zipIdx.foldl
      (fun (v : UInt64) (b, i) =>
        v ||| ((b &&& 0x7f).toUInt64 <<< UInt64.ofNat (i * 7))) 0).toUInt32

/-- `encode_overlong_u64`: a `u64` as a 10-byte varint. -/
def encodeOverlongU64 (v : UInt64) : Bytes :=
  (List.range 9).map (fun i => ((v >>> UInt64.ofNat (i * 7)).toUInt8 &&& 0x7f) ||| 0x80)
    ++ [(v >>> 63).toUInt8 &&& 0x01]

/-- `decode_overlong_u64`: only the first ten bytes are read. -/
def decodeOverlongU64 (buf : Bytes) : Option UInt64 :=
  if buf.length < 10 then none
  else
    some ((buf.take 10).zipIdx.foldl
      (fun (v : UInt64) (b, i) => v ||| ((b &&& 0x7f).toUInt64 <<< UInt64.ofNat (i * 7))) 0)

/-! ### Minimal varints -/

/-- The loop of `encode_varint`. A `u64` needs at most ten rounds, which is the fuel
`encodeVarint` starts with. -/
def encodeVarintLoop : Nat → UInt64 → Bytes
  | 0, _ => []
  | fuel + 1, v =>
      if v < 0x80 then [v.toUInt8]
      else (v.toUInt8 ||| 0x80) :: encodeVarintLoop fuel (v >>> 7)

/-- `encode_varint`: the minimal protobuf varint of a `u64`. -/
def encodeVarint (v : UInt64) : Bytes := encodeVarintLoop 10 v

/-- The loop of `decode_varint`, at byte index `i` with `shift` and `value` accumulated. -/
def decodeVarintLoop : Bytes → Nat → Nat → UInt64 → Option (UInt64 × Nat)
  | [], _, _, _ => none
  | b :: rest, i, shift, value =>
      let value := value ||| ((b &&& 0x7f).toUInt64 <<< UInt64.ofNat shift)
      if b &&& 0x80 = 0 then some (value, i + 1)
      else if shift + 7 > 63 then none
      else decodeVarintLoop rest (i + 1) (shift + 7) value

/-- `decode_varint`: the value and the number of bytes it took. -/
def decodeVarint (buf : Bytes) : Option (UInt64 × Nat) := decodeVarintLoop buf 0 0 0

/-! ### The blob -/

/-- The part of an `encode_kv` blob before the `mod_revision` varint. -/
def kvHead (key : Bytes) (createRevision : Int64) : Bytes :=
  [0x0a] ++ encodeOverlongU32 (UInt32.ofNat key.length) ++ key
    ++ [0x10] ++ encodeVarint createRevision.toUInt64
    ++ [0x18]

/-- The part of an `encode_kv` blob after the `mod_revision` varint. -/
def kvTail (value : Bytes) (version lease : Int64) : Bytes :=
  [0x20] ++ encodeVarint version.toUInt64
    ++ [0x2a] ++ encodeOverlongU32 (UInt32.ofNat value.length) ++ value
    ++ [0x30] ++ encodeVarint lease.toUInt64

/-- `encode_kv`: the blob, with the offsets of the key-length and `mod_revision` varints
(`buf.len() as u16` at the two places). -/
def encodeKv (key value : Bytes) (createRevision modRevision version lease : Int64) :
    Bytes × UInt16 × UInt16 :=
  (kvHead key createRevision ++ encodeOverlongU64 modRevision.toUInt64
      ++ kvTail value version lease,
    UInt16.ofNat 1, UInt16.ofNat (kvHead key createRevision).length)

/-- `read_key_from_kv`, where the sums of the source fit a `usize`; `readKeyFromKvUsize` is the
version that may overflow. -/
def readKeyFromKv (kvBytes : Bytes) (keyOffset : UInt16) : Option Bytes :=
  let ofs := keyOffset.toNat
  if ofs ≥ kvBytes.length then none
  else
    match decodeVarint (kvBytes.drop ofs) with
    | none => none
    | some (keyLen, varintSize) =>
        let start := ofs + varintSize
        if start + keyLen.toNat > kvBytes.length then none
        else some ((kvBytes.drop start).take keyLen.toNat)

/-- `read_mod_revision_from_kv`. -/
def readModRevisionFromKv (kvBytes : Bytes) (modRevOffset : UInt16) : Option Int64 :=
  let ofs := modRevOffset.toNat
  if ofs + 10 > kvBytes.length then none
  else (decodeOverlongU64 (kvBytes.drop ofs)).map UInt64.toInt64

/-- What the storage layer relies on in the two crates: appending to a checksum is the
checksum of the concatenation, and prost reads back the six fields of an `encode_kv` blob
(whose 5-byte lengths hold anything shorter than 4 GiB). -/
class LawfulCrates [Crates] : Prop where
  crc32cAppend_crc32c : ∀ a b : Bytes, crc32cAppend (crc32c a) b = crc32c (a ++ b)
  decodeKeyValue_encodeKv : ∀ (key value : Bytes) (c m v l : Int64),
    key.length < 2 ^ 32 → value.length < 2 ^ 32 →
      decodeKeyValue (encodeKv key value c m v l).1 = some ⟨key, c, m, v, value, l⟩

export LawfulCrates (crc32cAppend_crc32c decodeKeyValue_encodeKv)

end Rudurru
