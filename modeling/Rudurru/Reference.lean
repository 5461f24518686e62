import Rudurru.Storage.CodecSound
import Rudurru.Storage.Range

/-!
# Rudurru.Reference

A reference implementation of the two crates behind the storage layer: CRC-32C as a bitwise
loop over the reflected polynomial, and a proto3 decoder for `mvccpb.KeyValue` that accepts the
fields in any order and skips the ones it does not know. They satisfy `LawfulCrates`, so the
model runs on concrete inputs.
-/

namespace Rudurru

open Varint

namespace Reference

/-! ### CRC-32C -/

/-- One bit of the checksum. -/
def crcBit (c : UInt32) : UInt32 :=
  if c &&& 1 = 1 then (c >>> 1) ^^^ 0x82f63b78 else c >>> 1

/-- One byte of the checksum. -/
def crcByte (c : UInt32) (b : UInt8) : UInt32 :=
  (List.range 8).foldl (fun c _ => crcBit c) (c ^^^ b.toUInt32)

def crcAppend (crc : UInt32) (data : Bytes) : UInt32 := ~~~ (data.foldl crcByte (~~~ crc))

def crc (data : Bytes) : UInt32 := crcAppend 0 data

/-- The checksum goes on where it stopped. -/
theorem crcAppend_crc (a b : Bytes) : crcAppend (crc a) b = crc (a ++ b) := by
  simp [crcAppend, crc, List.foldl_append]

/-! ### `mvccpb.KeyValue` -/

/-- The value of a field on the wire. -/
inductive WireValue
  | varint (v : UInt64)
  | bytes (b : Bytes)
  | fixed

/-- Split off the first field: its number, its value and what follows. -/
def readField (buf : Bytes) : Option (UInt64 × WireValue × Bytes) := do
  let (key, rest) ← cursorVarint buf
  if key &&& 7 = 0 then
    let (v, rest) ← cursorVarint rest
    return (key >>> 3, .varint v, rest)
  else if key &&& 7 = 2 then
    let (len, rest) ← cursorVarint rest
    let (b, rest) ← cursorTake len.toNat rest
    return (key >>> 3, .bytes b, rest)
  else if key &&& 7 = 1 then
    return (key >>> 3, .fixed, ← cursorSkip 8 rest)
  else if key &&& 7 = 5 then
    return (key >>> 3, .fixed, ← cursorSkip 4 rest)
  else none

/-- Store a field; a known field of the wrong type is an error, an unknown one is dropped. -/
def mergeField (kv : KeyValue) (number : UInt64) (v : WireValue) : Option KeyValue :=
  if number = 1 then
    match v with
    | .bytes b => some { kv with key := b }
    | _ => none
  else if number = 2 then
    match v with
    | .varint n => some { kv with createRevision := n.toInt64 }
    | _ => none
  else if number = 3 then
    match v with
    | .varint n => some { kv with modRevision := n.toInt64 }
    | _ => none
  else if number = 4 then
    match v with
    | .varint n => some { kv with version := n.toInt64 }
    | _ => none
  else if number = 5 then
    match v with
    | .bytes b => some { kv with value := b }
    | _ => none
  else if number = 6 then
    match v with
    | .varint n => some { kv with lease := n.toInt64 }
    | _ => none
  else some kv

/-- Every field takes at least one byte, so the length of the message is fuel enough. -/
def decodeFields : Nat → Bytes → KeyValue → Option KeyValue
  | _, [], kv => some kv
  | 0, _ :: _, _ => none
  | fuel + 1, b :: buf, kv => do
      let (number, v, rest) ← readField (b :: buf)
      let kv ← mergeField kv number v
      decodeFields fuel rest kv

def decode (buf : Bytes) : Option KeyValue :=
  decodeFields buf.length buf
    { key := [], createRevision := 0, modRevision := 0, version := 0, value := [], lease := 0 }

/-- A varint as readers of a `u64` take it: of any width up to ten bytes, minimal or not. -/
structure Reads (bs : Bytes) (v : UInt64) : Prop where
  isVarint : IsVarint bs v.toNat
  length_le : bs.length ≤ 10

/-- A field as a proto3 writer may put it on the wire. -/
inductive IsField : UInt64 → WireValue → Bytes → Prop
  | varint {ts bs : Bytes} {tag v : UInt64} : Reads ts tag → tag &&& 7 = 0 → Reads bs v →
      IsField (tag >>> 3) (.varint v) (ts ++ bs)
  | bytes {ts bs b : Bytes} {tag len : UInt64} : Reads ts tag → tag &&& 7 = 2 → Reads bs len →
      len.toNat = b.length → IsField (tag >>> 3) (.bytes b) (ts ++ (bs ++ b))
  | fixed64 {ts b : Bytes} {tag : UInt64} : Reads ts tag → tag &&& 7 = 1 → b.length = 8 →
      IsField (tag >>> 3) .fixed (ts ++ b)
  | fixed32 {ts b : Bytes} {tag : UInt64} : Reads ts tag → tag &&& 7 = 5 → b.length = 4 →
      IsField (tag >>> 3) .fixed (ts ++ b)

theorem cursorVarint_append {bs : Bytes} {v : UInt64} (h : Reads bs v) (s : Bytes) :
    cursorVarint (bs ++ s) = some (v, s) := by
  simp [cursorVarint, decodeVarint_append h.isVarint h.length_le v.toNat_lt]

theorem cursorSkip_append {n : Nat} {b : Bytes} (h : b.length = n) (s : Bytes) :
    cursorSkip n (b ++ s) = some s := by
  rw [cursorSkip, if_pos (by simp [h]), List.drop_left' h]

/-- The first field is split off, whatever follows it. -/
theorem readField_append {number : UInt64} {v : WireValue} {bs : Bytes}
    (h : IsField number v bs) (s : Bytes) : readField (bs ++ s) = some (number, v, s) := by
  cases h with
  | varint ht hwire h =>
      simp only [readField, List.append_assoc, cursorVarint_append ht, Option.bind_eq_bind,
        Option.bind_some, hwire, if_true, cursorVarint_append h]
      rfl
  | bytes ht hwire h hlen =>
      simp only [readField, List.append_assoc, cursorVarint_append ht, Option.bind_eq_bind,
        Option.bind_some, hwire, cursorVarint_append h, cursorTake, hlen]
      simp
  | fixed64 ht hwire hlen =>
      simp only [readField, List.append_assoc, cursorVarint_append ht, Option.bind_eq_bind,
        Option.bind_some, hwire, cursorSkip_append hlen]
      rfl
  | fixed32 ht hwire hlen =>
      simp only [readField, List.append_assoc, cursorVarint_append ht, Option.bind_eq_bind,
        Option.bind_some, hwire, cursorSkip_append hlen]
      rfl

/-- A field has a tag, so the decoder makes progress. -/
theorem IsField.length_pos {number : UInt64} {v : WireValue} {bs : Bytes}
    (h : IsField number v bs) : 0 < bs.length := by
  cases h with
  | varint ht | bytes ht | fixed64 ht | fixed32 ht =>
      have := ht.isVarint.length_pos
      simp only [List.length_append]
      omega

/-- **The decoder reads any message**, its fields in any order and their varints of any width,
to the end. -/
theorem decodeFields_message {fields : List (UInt64 × WireValue × Bytes)} :
    (∀ f ∈ fields, IsField f.1 f.2.1 f.2.2) →
      ∀ {fuel : Nat} {kv : KeyValue}, (fields.flatMap (·.2.2)).length ≤ fuel →
        decodeFields fuel (fields.flatMap (·.2.2)) kv
          = fields.foldlM (fun kv f => mergeField kv f.1 f.2.1) kv := by
  induction fields with
  | nil =>
      intro _ fuel kv _
      simp [decodeFields]
  | cons f fields ih =>
      intro h fuel kv hfuel
      obtain ⟨number, v, bs⟩ := f
      have hfield : IsField number v bs := h (number, v, bs) (by simp)
      have hpos := hfield.length_pos
      simp only [List.flatMap_cons, List.length_append] at hfuel ⊢
      obtain ⟨fuel, rfl⟩ : ∃ k, fuel = k + 1 := ⟨fuel - 1, by omega⟩
      obtain ⟨b, bs, rfl⟩ := List.exists_cons_of_length_pos hpos
      have hread := readField_append hfield (fields.flatMap (·.2.2))
      rw [List.cons_append] at hread ⊢
      rw [decodeFields, hread, List.foldlM_cons]
      simp only [Option.bind_eq_bind, Option.bind_some]
      congr 1
      funext kv
      exact ih (fun f hf => h f (by simp [hf])) (by rw [List.length_cons] at hfuel; omega)

/-- The decoder on a message: its fields merged one after the other. -/
theorem decode_message {fields : List (UInt64 × WireValue × Bytes)}
    (h : ∀ f ∈ fields, IsField f.1 f.2.1 f.2.2) :
    decode (fields.flatMap (·.2.2)) = fields.foldlM (fun kv f => mergeField kv f.1 f.2.1)
      { key := [], createRevision := 0, modRevision := 0, version := 0, value := [], lease := 0 } :=
  decodeFields_message h (Nat.le_refl _)

/-- The tags of the blob are one-byte varints. -/
theorem reads_tag {tag : UInt8} (htag : tag.toNat < 128) : Reads [tag] tag.toUInt64 where
  isVarint := .of_last (UInt8.toNat_toUInt64 tag).symm (by rw [UInt8.toNat_toUInt64]; exact htag)
  length_le := by simp

theorem reads_encodeVarint (v : UInt64) : Reads (encodeVarint v) v :=
  ⟨(isVarint_encodeVarint v).1, (isVarint_encodeVarint v).2⟩

theorem reads_encodeOverlongU64 (v : UInt64) : Reads (encodeOverlongU64 v) v :=
  ⟨isVarint_encodeOverlongU64 v, by simp⟩

/-- The overlong encoding of a length is a varint to any reader. -/
theorem reads_encodeOverlongU32 (v : UInt32) : Reads (encodeOverlongU32 v) v.toUInt64 :=
  ⟨by rw [UInt32.toNat_toUInt64]; exact isVarint_encodeOverlongU32 v, by simp⟩

/-- The fields of a blob, as they stand in it. -/
def kvFields (key value : Bytes) (c m v l : Int64) : List (UInt64 × WireValue × Bytes) :=
  let tag (t : UInt8) : UInt64 := t.toUInt64 >>> 3
  [(tag 0x0a, .bytes key, [0x0a] ++ (encodeOverlongU32 (UInt32.ofNat key.length) ++ key)),
    (tag 0x10, .varint c.toUInt64, [0x10] ++ encodeVarint c.toUInt64),
    (tag 0x18, .varint m.toUInt64, [0x18] ++ encodeOverlongU64 m.toUInt64),
    (tag 0x20, .varint v.toUInt64, [0x20] ++ encodeVarint v.toUInt64),
    (tag 0x2a, .bytes value, [0x2a] ++ (encodeOverlongU32 (UInt32.ofNat value.length) ++ value)),
    (tag 0x30, .varint l.toUInt64, [0x30] ++ encodeVarint l.toUInt64)]

/-- **The decoder reads back the six fields of a blob.** -/
theorem decode_encodeKv {key value : Bytes} {c m v l : Int64} (hkey : key.length < 2 ^ 32)
    (hvalue : value.length < 2 ^ 32) :
    decode (encodeKv key value c m v l).1 = some ⟨key, c, m, v, value, l⟩ := by
  have hlen {b : Bytes} (hb : b.length < 2 ^ 32) :
      (UInt32.ofNat b.length).toUInt64.toNat = b.length := by
    rw [UInt32.toNat_toUInt64, toNat_ofNat_length hb]
  have hfields : ∀ f ∈ kvFields key value c m v l, IsField f.1 f.2.1 f.2.2 := by
    intro f hf
    simp only [kvFields, List.mem_cons, List.not_mem_nil, or_false] at hf
    rcases hf with rfl | rfl | rfl | rfl | rfl | rfl
    · exact .bytes (reads_tag (by decide)) (by decide) (reads_encodeOverlongU32 _) (hlen hkey)
    · exact .varint (reads_tag (by decide)) (by decide) (reads_encodeVarint _)
    · exact .varint (reads_tag (by decide)) (by decide) (reads_encodeOverlongU64 _)
    · exact .varint (reads_tag (by decide)) (by decide) (reads_encodeVarint _)
    · exact .bytes (reads_tag (by decide)) (by decide) (reads_encodeOverlongU32 _) (hlen hvalue)
    · exact .varint (reads_tag (by decide)) (by decide) (reads_encodeVarint _)
  have hbytes : (encodeKv key value c m v l).1
      = (kvFields key value c m v l).flatMap (·.2.2) := by
    simp [kvFields, encodeKv, kvHead, kvTail]
  rw [hbytes, decode_message hfields]
  show some (KeyValue.mk key c.toUInt64.toInt64 m.toUInt64.toInt64 v.toUInt64.toInt64 value
    l.toUInt64.toInt64) = _
  simp only [Int64.toInt64_toUInt64]

end Reference

instance reference : Crates where
  crc32c := Reference.crc
  crc32cAppend := Reference.crcAppend
  decodeKeyValue := Reference.decode

instance : LawfulCrates where
  crc32cAppend_crc32c := Reference.crcAppend_crc
  decodeKeyValue_encodeKv := fun _ _ _ _ _ _ hkey hvalue => Reference.decode_encodeKv hkey hvalue

end Rudurru
