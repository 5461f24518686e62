import Rudurru.Lib.FramedLog
import Rudurru.Storage.Codec

/-!
# Rudurru.Storage.Wal

The **WAL record format** and the WAL file (`src/storage/wal.rs`, second half).

On disk a record is
`flags(1) | key_offset(2) | mod_rev_offset(2) | rec_len(4) | kv_bytes(N) | crc32(4)`.
`KvWalRecord::new` computes every field but the blob's own bytes, with `rec_len` a wrapping
cast to `u32`. A scan reads records front to back and stops at the first one that is
incomplete or fails its checks.

A `WalFile` is the contents of the file. Two more fields stand for its surroundings:
`faults` decides the outcome of the next `write_all` calls (none pending means they succeed),
and `log` is a history variable, the records appended through this handle, which no
operation reads.
-/

namespace Rudurru

variable [Crates]

/-! ### `KvWalRecord` -/

/-- `wal::DELETED`. -/
def DELETED : UInt8 := 0x01
/-- `wal::IS_CREATE`. -/
def IS_CREATE : UInt8 := 0x02
/-- `wal::HAS_LEASE`. -/
def HAS_LEASE : UInt8 := 0x04

/-- `KV_HEADER_SIZE`: flags, two offsets and `rec_len`. -/
def kvHeaderSize : Nat := 9
/-- `KV_CRC_SIZE`. -/
def kvCrcSize : Nat := 4

/-- `u16::to_le_bytes`. -/
def u16ToLeBytes (v : UInt16) : Bytes := [UInt8.ofNat v.toNat, UInt8.ofNat (v.toNat / 2 ^ 8)]

/-- `u16::from_le_bytes`. -/
def u16FromLeBytes (b₀ b₁ : UInt8) : UInt16 := UInt16.ofNat (b₀.toNat + 2 ^ 8 * b₁.toNat)

/-- `u32::to_le_bytes`. -/
def u32ToLeBytes (v : UInt32) : Bytes :=
  [UInt8.ofNat v.toNat, UInt8.ofNat (v.toNat / 2 ^ 8), UInt8.ofNat (v.toNat / 2 ^ 16),
    UInt8.ofNat (v.toNat / 2 ^ 24)]

/-- `u32::from_le_bytes`. -/
def u32FromLeBytes (b₀ b₁ b₂ b₃ : UInt8) : UInt32 :=
  UInt32.ofNat (b₀.toNat + 2 ^ 8 * b₁.toNat + 2 ^ 16 * b₂.toNat + 2 ^ 24 * b₃.toNat)

/-- A WAL record in the protobuf-native format. -/
structure KvWalRecord where
  flags : UInt8
  kvBytes : Bytes
  keyOffset : UInt16
  modRevOffset : UInt16
  recLen : UInt32
  crc : UInt32
  deriving DecidableEq, Repr

/-- The error kinds the WAL reader reports. -/
inductive IoErrorKind
  | unexpectedEof
  | invalidData
  deriving DecidableEq, Repr

/-- `std::io::Error`. -/
structure IoError where
  kind : IoErrorKind
  message : String
  deriving DecidableEq, Repr

namespace KvWalRecord

/-- `KvWalRecord::new`. -/
def new (flags : UInt8) (key value : Bytes)
    (createRevision modRevision version lease : Int64) : KvWalRecord :=
  let (kvBytes, keyOffset, modRevOffset) :=
    encodeKv key value createRevision modRevision version lease
  let recLen := UInt32.ofNat (kvHeaderSize + kvBytes.length + kvCrcSize)
  let crc := crc32c [flags]
  let crc := crc32cAppend crc (u16ToLeBytes keyOffset)
  let crc := crc32cAppend crc (u16ToLeBytes modRevOffset)
  let crc := crc32cAppend crc (u32ToLeBytes recLen)
  let crc := crc32cAppend crc kvBytes
  { flags, kvBytes, keyOffset, modRevOffset, recLen, crc }

/-- The nine header bytes. -/
def header (r : KvWalRecord) : Bytes :=
  [r.flags] ++ u16ToLeBytes r.keyOffset ++ u16ToLeBytes r.modRevOffset ++ u32ToLeBytes r.recLen

/-- `KvWalRecord::serialize`. -/
def serialize (r : KvWalRecord) : Bytes :=
  r.header ++ r.kvBytes ++ u32ToLeBytes r.crc

/-- `KvWalRecord::deserialize`: the record and the number of bytes it took. -/
def deserialize (data : Bytes) : Except IoError (KvWalRecord × Nat) :=
  match data with
  | flags :: k₀ :: k₁ :: m₀ :: m₁ :: l₀ :: l₁ :: l₂ :: l₃ :: body =>
      if data.length < kvHeaderSize + kvCrcSize then
        .error ⟨.unexpectedEof, "record too short"⟩
      else
        let keyOffset := u16FromLeBytes k₀ k₁
        let modRevOffset := u16FromLeBytes m₀ m₁
        let recLen := u32FromLeBytes l₀ l₁ l₂ l₃
        if recLen.toNat < kvHeaderSize + kvCrcSize then
          .error ⟨.invalidData, "rec_len too small"⟩
        else if recLen.toNat > data.length then
          .error ⟨.unexpectedEof, "record extends past buffer"⟩
        else
          let kvLen := recLen.toNat - kvHeaderSize - kvCrcSize
          let kvBytes := body.take kvLen
          -- the four bytes at `crc_start`; in bounds by the `rec_len` check above
          match body.drop kvLen with
          | c₀ :: c₁ :: c₂ :: c₃ :: _ =>
              let storedCrc := u32FromLeBytes c₀ c₁ c₂ c₃
              if crc32c (data.take (kvHeaderSize + kvLen)) ≠ storedCrc then
                .error ⟨.invalidData, "CRC mismatch"⟩
              else if keyOffset.toNat ≥ kvBytes.length
                  ∨ modRevOffset.toNat + 10 > kvBytes.length then
                .error ⟨.invalidData, "offset out of bounds"⟩
              else
                .ok ({ flags, kvBytes, keyOffset, modRevOffset, recLen, crc := storedCrc },
                  recLen.toNat)
          | _ => .error ⟨.unexpectedEof, "record extends past buffer"⟩
  | _ => .error ⟨.unexpectedEof, "record too short"⟩

/-- `KvWalRecord::key`. -/
def key (r : KvWalRecord) : Option Bytes := readKeyFromKv r.kvBytes r.keyOffset

/-- `KvWalRecord::mod_revision`. -/
def modRevision (r : KvWalRecord) : Option Int64 :=
  readModRevisionFromKv r.kvBytes r.modRevOffset

/-- `rec.mod_revision().unwrap_or(0) as u64`, as every reader of the WAL spells it. -/
def revision (r : KvWalRecord) : UInt64 := (r.modRevision.getD 0).toUInt64

/-- `(rec.flags & wal::DELETED) != 0`. -/
def deleted (r : KvWalRecord) : Bool := r.flags &&& DELETED ≠ 0

end KvWalRecord

/-! ### Scanning -/

/-- One round of the loop of `scan_kv_file`, on the unread part of the file. -/
def scanKvStep (rest : Bytes) : FramedLog.Step KvWalRecord IoError :=
  match rest with
  | _ :: _ :: _ :: _ :: _ :: l₀ :: l₁ :: l₂ :: l₃ :: _ =>
      let recLen := (u32FromLeBytes l₀ l₁ l₂ l₃).toNat
      if recLen < kvHeaderSize + kvCrcSize then .fail ⟨.invalidData, "rec_len too small"⟩
      -- `read_exact` of the body hits the end of the file: `partial_wal_record`
      else if rest.length < recLen then .stop
      else
        match KvWalRecord.deserialize (rest.take recLen) with
        | .ok (rec, consumed) => .record rec consumed
        | .error _ => .stop
  -- `read_exact` of the header hits the end of the file
  | _ => .stop

/-- `scan_kv_file`: the records handed to the callback, in order, and the result. Each round
consumes at least a header, so the length of the file is fuel enough. -/
def scanKvFile (file : Bytes) (offset : Nat) : List KvWalRecord × Except IoError Nat :=
  FramedLog.scan scanKvStep (file.length + 1) (file.drop offset) offset

/-! ### `WalFile` -/

/-- The WAL file behind the store. -/
structure WalFile where
  contents : Bytes
  dirty : Bool
  /-- The outcomes of the coming `write_all` calls: `none` succeeds, `some n` fails after
  `n` bytes. An exhausted list means success. -/
  faults : List (Option Nat)
  /-- History variable: the records appended through this handle. -/
  log : List KvWalRecord
  deriving DecidableEq, Repr

namespace WalFile

/-- `WalFile::open` on a file with the given contents. -/
def «open» (contents : Bytes) : WalFile :=
  { contents, dirty := false, faults := [], log := [] }

/-- `File::write_all` in append mode; `false` is an I/O error. -/
def writeAll (w : WalFile) (data : Bytes) : Bool × WalFile :=
  match w.faults with
  | [] => (true, { w with contents := w.contents ++ data })
  | none :: faults => (true, { w with contents := w.contents ++ data, faults })
  | some n :: faults => (false, { w with contents := w.contents ++ data.take n, faults })

/-- `WalFile::append_kv`. -/
def appendKv (w : WalFile) (rec : KvWalRecord) : Bool × WalFile :=
  match w.writeAll rec.serialize with
  | (true, w) => (true, { w with dirty := true, log := w.log ++ [rec] })
  | (false, w) => (false, w)

/-- The `write_all` loop of `append_kv_batch`. -/
def writeBatch (w : WalFile) : List KvWalRecord → Bool × WalFile
  | [] => (true, w)
  | rec :: recs =>
      match w.writeAll rec.serialize with
      | (true, w) => writeBatch { w with log := w.log ++ [rec] } recs
      | (false, w) => (false, w)

/-- `WalFile::append_kv_batch`. -/
def appendKvBatch (w : WalFile) (recs : List KvWalRecord) : Bool × WalFile :=
  match w.writeBatch recs with
  | (true, w) => (true, { w with dirty := true })
  | (false, w) => (false, w)

end WalFile

end Rudurru
