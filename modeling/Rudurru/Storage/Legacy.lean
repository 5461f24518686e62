import Rudurru.Storage.Range
import Rudurru.Storage.WalSound

/-!
# Rudurru.Storage.Legacy

The WAL format before the protobuf-native one (`src/storage/wal.rs`, last part), which only the
migration tool reads:
`magic(2) | revision(8) | crc32(4) | key_len(4) | val_len(4) | flags(1) | key | value | lease(8)`,
the lease where the flags say so, the checksum over everything from the flags on.

It is a recoverable framing as well (`legacyFraming`), of the records whose key and value lengths a
`u32` holds and whose lease agrees with their flags.

The header and the checksum are its own, but the shape of the proofs is that of the new format: one
lemma that a record is read back whatever follows, one that a torn record stops the reader, and the
general theory of logs does the rest.
-/

namespace Rudurru

open FramedLog (encodeAll)

/-! ### Little-endian integers -/

/-- `u64::to_le_bytes`. -/
def u64ToLeBytes (v : UInt64) : Bytes :=
  [UInt8.ofNat v.toNat, UInt8.ofNat (v.toNat / 2 ^ 8), UInt8.ofNat (v.toNat / 2 ^ 16),
    UInt8.ofNat (v.toNat / 2 ^ 24), UInt8.ofNat (v.toNat / 2 ^ 32), UInt8.ofNat (v.toNat / 2 ^ 40),
    UInt8.ofNat (v.toNat / 2 ^ 48), UInt8.ofNat (v.toNat / 2 ^ 56)]

/-- `u64::from_le_bytes`. -/
def u64FromLeBytes (b₀ b₁ b₂ b₃ b₄ b₅ b₆ b₇ : UInt8) : UInt64 :=
  UInt64.ofNat (b₀.toNat + 2 ^ 8 * b₁.toNat + 2 ^ 16 * b₂.toNat + 2 ^ 24 * b₃.toNat
    + 2 ^ 32 * b₄.toNat + 2 ^ 40 * b₅.toNat + 2 ^ 48 * b₆.toNat + 2 ^ 56 * b₇.toNat)

theorem u64FromLeBytes_toLeBytes (v : UInt64) :
    u64FromLeBytes (UInt8.ofNat v.toNat) (UInt8.ofNat (v.toNat / 2 ^ 8))
      (UInt8.ofNat (v.toNat / 2 ^ 16)) (UInt8.ofNat (v.toNat / 2 ^ 24))
      (UInt8.ofNat (v.toNat / 2 ^ 32)) (UInt8.ofNat (v.toNat / 2 ^ 40))
      (UInt8.ofNat (v.toNat / 2 ^ 48)) (UInt8.ofNat (v.toNat / 2 ^ 56)) = v := by
  have hv := v.toNat_lt
  apply UInt64.toNat_inj.mp
  simp only [u64FromLeBytes, UInt64.toNat_ofNat', UInt8.toNat_ofNat']
  omega

/-- The integer at the front of a buffer, and what follows it. -/
def readU16Le : Bytes → Option (UInt16 × Bytes)
  | b₀ :: b₁ :: rest => some (u16FromLeBytes b₀ b₁, rest)
  | _ => none

@[inherit_doc readU16Le]
def readU32Le : Bytes → Option (UInt32 × Bytes)
  | b₀ :: b₁ :: b₂ :: b₃ :: rest => some (u32FromLeBytes b₀ b₁ b₂ b₃, rest)
  | _ => none

@[inherit_doc readU16Le]
def readU64Le : Bytes → Option (UInt64 × Bytes)
  | b₀ :: b₁ :: b₂ :: b₃ :: b₄ :: b₅ :: b₆ :: b₇ :: rest =>
      some (u64FromLeBytes b₀ b₁ b₂ b₃ b₄ b₅ b₆ b₇, rest)
  | _ => none

@[simp] theorem readU16Le_append (v : UInt16) (s : Bytes) :
    readU16Le (u16ToLeBytes v ++ s) = some (v, s) := by
  simp only [u16ToLeBytes, List.cons_append, List.nil_append, readU16Le, u16FromLeBytes_toLeBytes]

@[simp] theorem readU32Le_append (v : UInt32) (s : Bytes) :
    readU32Le (u32ToLeBytes v ++ s) = some (v, s) := by
  simp only [u32ToLeBytes, List.cons_append, List.nil_append, readU32Le, u32FromLeBytes_toLeBytes]

@[simp] theorem readU64Le_append (v : UInt64) (s : Bytes) :
    readU64Le (u64ToLeBytes v ++ s) = some (v, s) := by
  simp only [u64ToLeBytes, List.cons_append, List.nil_append, readU64Le, u64FromLeBytes_toLeBytes]

theorem readU16Le_extend {data rest : Bytes} {v : UInt16} (h : readU16Le data = some (v, rest))
    (u : Bytes) : data.length = 2 + rest.length ∧ readU16Le (data ++ u) = some (v, rest ++ u) := by
  unfold readU16Le at h
  split at h
  · cases h
    exact ⟨by simp only [List.length_cons]; omega, rfl⟩
  · cases h

theorem readU32Le_extend {data rest : Bytes} {v : UInt32} (h : readU32Le data = some (v, rest))
    (u : Bytes) : data.length = 4 + rest.length ∧ readU32Le (data ++ u) = some (v, rest ++ u) := by
  unfold readU32Le at h
  split at h
  · cases h
    exact ⟨by simp only [List.length_cons]; omega, rfl⟩
  · cases h

theorem readU64Le_extend {data rest : Bytes} {v : UInt64} (h : readU64Le data = some (v, rest))
    (u : Bytes) : data.length = 8 + rest.length ∧ readU64Le (data ++ u) = some (v, rest ++ u) := by
  unfold readU64Le at h
  split at h
  · cases h
    exact ⟨by simp only [List.length_cons]; omega, rfl⟩
  · cases h

theorem readU64Le_eq_none_iff : ∀ {data : Bytes}, readU64Le data = none ↔ data.length < 8
  | [] | [_] | [_, _] | [_, _, _] | [_, _, _, _] | [_, _, _, _, _] | [_, _, _, _, _, _]
  | [_, _, _, _, _, _, _] => by simp [readU64Le]
  | _ :: _ :: _ :: _ :: _ :: _ :: _ :: _ :: _ => by simp [readU64Le]

/-! ### `WalRecord` -/

/-- `wal::MAGIC`. -/
def MAGIC : UInt16 := 0x5255

/-- A record in the legacy format. -/
structure WalRecord where
  revision : UInt64
  key : Bytes
  value : Bytes
  flags : UInt8
  leaseId : Option Int64
  deriving DecidableEq, Repr

namespace WalRecord

/-- `(rec.flags & wal::DELETED) != 0`. -/
def deleted (r : WalRecord) : Bool := r.flags &&& DELETED ≠ 0

/-- `(rec.flags & wal::HAS_LEASE) != 0`. -/
def hasLease (r : WalRecord) : Bool := r.flags &&& HAS_LEASE ≠ 0

/-- The part of a record under its checksum, `buf[22..]`. -/
def payload (r : WalRecord) : Bytes :=
  [r.flags] ++ r.key ++ r.value ++ (r.leaseId.map fun lid => u64ToLeBytes lid.toUInt64).getD []

section

variable [Crates]

/-- `WalRecord::serialize`. -/
def serialize (r : WalRecord) : Bytes :=
  u16ToLeBytes MAGIC ++ u64ToLeBytes r.revision ++ u32ToLeBytes (crc32c r.payload)
    ++ u32ToLeBytes (UInt32.ofNat r.key.length) ++ u32ToLeBytes (UInt32.ofNat r.value.length)
    ++ r.payload

/-- The fields of the 23-byte header in the order they are read, and what follows it. -/
structure Header where
  magic : UInt16
  revision : UInt64
  storedCrc : UInt32
  keyLen : UInt32
  valLen : UInt32
  flags : UInt8
  body : Bytes

/-- `none` when there are fewer than 23 bytes. -/
def readHeader (data : Bytes) : Option Header := do
  let (magic, rest) ← readU16Le data
  let (revision, rest) ← readU64Le rest
  let (storedCrc, rest) ← readU32Le rest
  let (keyLen, rest) ← readU32Le rest
  let (valLen, rest) ← readU32Le rest
  match rest with
  | [] => none
  | flags :: body => some { magic, revision, storedCrc, keyLen, valLen, flags, body }

/-- `WalRecord::deserialize`: the record and the number of bytes it took. -/
def deserialize (data : Bytes) : Except IoError (WalRecord × Nat) :=
  match readHeader data with
  | none => .error ⟨.unexpectedEof, "short record"⟩
  | some h =>
      if h.magic ≠ MAGIC then .error ⟨.invalidData, "bad magic"⟩
      else
        let payloadLen := h.keyLen.toNat + h.valLen.toNat
        if h.body.length < payloadLen then .error ⟨.unexpectedEof, "truncated payload"⟩
        else
          let record : WalRecord :=
            { revision := h.revision
              key := h.body.take h.keyLen.toNat
              value := (h.body.drop h.keyLen.toNat).take h.valLen.toNat
              flags := h.flags
              leaseId := none }
          if record.hasLease then
            match readU64Le (h.body.drop payloadLen) with
            | none => .error ⟨.unexpectedEof, "truncated lease"⟩
            | some (lid, _) =>
                if crc32c (h.flags :: h.body.take (payloadLen + 8)) ≠ h.storedCrc then
                  .error ⟨.invalidData, "CRC mismatch"⟩
                else .ok ({ record with leaseId := some lid.toInt64 }, 23 + payloadLen + 8)
          else if crc32c (h.flags :: h.body.take payloadLen) ≠ h.storedCrc then
            .error ⟨.invalidData, "CRC mismatch"⟩
          else .ok (record, 23 + payloadLen)

end

/-! ### The codec -/

/-- The records that come back: lengths that a `u32` holds, and a lease where the flags say so.
Nothing is asked of the flags otherwise, and nothing of the revision. -/
structure Storable (r : WalRecord) : Prop where
  key_lt : r.key.length < 2 ^ 32
  value_lt : r.value.length < 2 ^ 32
  lease : r.hasLease = r.leaseId.isSome

variable [Crates]

theorem readHeader_serialize_append (r : WalRecord) (s : Bytes) :
    readHeader (r.serialize ++ s) = some
      { magic := MAGIC, revision := r.revision, storedCrc := crc32c r.payload
        keyLen := UInt32.ofNat r.key.length, valLen := UInt32.ofNat r.value.length
        flags := r.flags
        body := r.key ++ (r.value ++
          ((r.leaseId.map fun lid => u64ToLeBytes lid.toUInt64).getD [] ++ s)) } := by
  simp only [serialize, payload, readHeader, List.append_assoc, readU16Le_append, readU64Le_append,
    readU32Le_append, Option.bind_eq_bind, Option.bind_some, List.cons_append, List.nil_append]

omit [Crates] in
theorem length_payload (r : WalRecord) :
    r.payload.length = 1 + r.key.length + r.value.length + if r.leaseId.isSome then 8 else 0 := by
  cases hlease : r.leaseId <;> simp [payload, hlease, u64ToLeBytes] <;> omega

theorem length_serialize (r : WalRecord) : r.serialize.length = 22 + r.payload.length := by
  simp only [serialize, List.length_append, u16ToLeBytes, u32ToLeBytes, u64ToLeBytes,
    List.length_cons, List.length_nil]

/-- **Reading back a serialized record**, whatever follows it. -/
theorem deserialize_serialize_append {r : WalRecord} (h : r.Storable) (s : Bytes) :
    deserialize (r.serialize ++ s) = .ok (r, r.serialize.length) := by
  obtain ⟨revision, key, value, flags, leaseId⟩ := r
  have hkey : (UInt32.ofNat key.length).toNat = key.length := toNat_ofNat_length h.key_lt
  have hvalue : (UInt32.ofNat value.length).toNat = value.length := toNat_ofNat_length h.value_lt
  have hlease := h.lease
  -- the checksum covers key, value and what the flags say follows
  have htake (t : Bytes) (k : Nat) : (key ++ (value ++ t)).take (key.length + value.length + k)
      = key ++ (value ++ t.take k) := by
    rw [Nat.add_assoc, List.take_length_add_append, List.take_length_add_append]
  have hdrop (t : Bytes) : (key ++ (value ++ t)).drop (key.length + value.length) = t := by
    rw [← List.append_assoc, List.drop_left' (by simp)]
  rw [deserialize, readHeader_serialize_append, length_serialize, length_payload]
  dsimp only
  rw [if_neg (by simp), hkey, hvalue, if_neg (by simp only [List.length_append]; omega), hdrop,
    List.take_left, List.drop_left, List.take_left]
  cases leaseId with
  | none =>
      have hflag : (WalRecord.mk revision key value flags none).hasLease = false := hlease
      have hbytes := htake s 0
      rw [Nat.add_zero, List.take_zero, List.append_nil] at hbytes
      rw [if_neg (by rw [hflag]; simp), if_neg]
      · simp only [Option.isSome_none]
        rw [if_neg (by simp)]
        congr 2
        omega
      · rw [Option.map_none, Option.getD_none, List.nil_append, hbytes]
        simp [payload]
  | some lid =>
      have hflag : (WalRecord.mk revision key value flags none).hasLease = true := hlease
      have hbytes := htake (u64ToLeBytes lid.toUInt64 ++ s) 8
      rw [show (u64ToLeBytes lid.toUInt64 ++ s).take 8 = u64ToLeBytes lid.toUInt64 from rfl]
        at hbytes
      rw [if_pos hflag, Option.map_some, Option.getD_some, readU64Le_append]
      dsimp only
      rw [if_neg]
      · simp only [Option.isSome_some, if_true, Int64.toInt64_toUInt64]
        congr 2
        omega
      · rw [hbytes]
        simp [payload]

omit [Crates] in
theorem readHeader_extend {data : Bytes} {h : Header} (hread : readHeader data = some h)
    (u : Bytes) :
    data.length = 23 + h.body.length ∧
      readHeader (data ++ u) = some { h with body := h.body ++ u } := by
  simp only [readHeader, Option.bind_eq_bind, Option.bind_eq_some_iff] at hread
  obtain ⟨⟨magic, d₁⟩, hmagic, ⟨revision, d₂⟩, hrevision, ⟨crc, d₃⟩, hcrc, ⟨keyLen, d₄⟩, hkey,
    ⟨valLen, d₅⟩, hval, hread⟩ := hread
  obtain ⟨l₁, e₁⟩ := readU16Le_extend hmagic u
  obtain ⟨l₂, e₂⟩ := readU64Le_extend hrevision u
  obtain ⟨l₃, e₃⟩ := readU32Le_extend hcrc u
  obtain ⟨l₄, e₄⟩ := readU32Le_extend hkey u
  obtain ⟨l₅, e₅⟩ := readU32Le_extend hval u
  cases d₅ with
  | nil => cases hread
  | cons flags body =>
      cases hread
      rw [List.length_cons] at l₅
      refine ⟨by dsimp only at *; omega, ?_⟩
      simp only [readHeader, e₁, e₂, e₃, e₄, e₅, Option.bind_eq_bind, Option.bind_some,
        List.cons_append]

/-- **What is read is storable, lies in the buffer, and does not depend on what follows it.** -/
theorem deserialize_spec {data : Bytes} {r : WalRecord} {n : Nat}
    (hread : deserialize data = .ok (r, n)) :
    r.Storable ∧ 23 ≤ n ∧ n ≤ data.length ∧ ∀ u, deserialize (data ++ u) = .ok (r, n) := by
  unfold deserialize at hread
  cases hheader : readHeader data with
  | none =>
      rw [hheader] at hread
      cases hread
  | some h =>
      rw [hheader] at hread
      dsimp only at hread
      split at hread
      · cases hread
      -- the three checks in front of the checksum
      next hmagic =>
      split at hread
      · cases hread
      next hbody =>
      have hkeyLen := h.keyLen.toNat_lt
      have hvalLen := h.valLen.toNat_lt
      have hkey : (h.body.take h.keyLen.toNat).length < 2 ^ 32 := by
        rw [List.length_take]
        omega
      have hvalue : ((h.body.drop h.keyLen.toNat).take h.valLen.toNat).length < 2 ^ 32 := by
        rw [List.length_take]
        omega
      have hlen := (readHeader_extend hheader []).1
      -- the slices lie in the buffer, so more bytes behind it do not move them
      have htake (u : Bytes) : (h.body ++ u).take h.keyLen.toNat = h.body.take h.keyLen.toNat :=
        List.take_append_of_le_length (by omega)
      have hdrop (u : Bytes) : ((h.body ++ u).drop h.keyLen.toNat).take h.valLen.toNat
          = (h.body.drop h.keyLen.toNat).take h.valLen.toNat := by
        rw [List.drop_append_of_le_length (by omega), List.take_append_of_le_length]
        rw [List.length_drop]
        omega
      split at hread
      · next hflag =>
        cases hlid : readU64Le (h.body.drop (h.keyLen.toNat + h.valLen.toNat)) with
        | none =>
            rw [hlid] at hread
            cases hread
        | some found =>
            obtain ⟨lid, rest⟩ := found
            rw [hlid] at hread
            dsimp only at hread
            split at hread
            · cases hread
            next hcrc =>
            cases hread
            have hroom := (readU64Le_extend hlid []).1
            rw [List.length_drop] at hroom
            refine ⟨⟨hkey, hvalue, hflag⟩, by omega, by omega, ?_⟩
            intro u
            have hextended := (readU64Le_extend hlid u).2
            rw [← List.drop_append_of_le_length (by omega)] at hextended
            rw [deserialize, (readHeader_extend hheader u).2]
            dsimp only
            rw [if_neg hmagic, if_neg (by rw [List.length_append]; omega), htake, hdrop,
              if_pos hflag, hextended]
            dsimp only
            rw [List.take_append_of_le_length (by omega), if_neg hcrc]
      · next hflag =>
        split at hread
        · cases hread
        next hcrc =>
        cases hread
        refine ⟨⟨hkey, hvalue, by simpa using hflag⟩, by omega, by omega, ?_⟩
        intro u
        rw [deserialize, (readHeader_extend hheader u).2]
        dsimp only
        rw [if_neg hmagic, if_neg (by rw [List.length_append]; omega), htake, hdrop, if_neg hflag,
          List.take_append_of_le_length (by omega), if_neg hcrc]

end WalRecord

/-! ### Reading a file -/

open WalRecord

/-- One round of the loop of `read_old_records`, on the unread part of the file. -/
def readOldStep [Crates] (rest : Bytes) : FramedLog.Step WalRecord IoError :=
  if rest = [] then .stop
  else
    match WalRecord.deserialize rest with
    | .ok (rec, consumed) => .record rec consumed
    | .error _ => .stop

/-- `read_old_records`, which succeeds on every file it can open. Each round consumes at least a
header, so the length of the file is fuel enough. -/
def readOldRecords [Crates] (buf : Bytes) : List WalRecord :=
  (FramedLog.scan readOldStep (buf.length + 1) buf 0).1

/-- The file holding the given records and nothing else. -/
def legacyFile [Crates] (rs : List WalRecord) : Bytes := encodeAll WalRecord.serialize rs

variable [Crates]

theorem readOldStep_record {rest : Bytes} {r : WalRecord} {n : Nat}
    (h : readOldStep rest = .record r n) : WalRecord.deserialize rest = .ok (r, n) := by
  unfold readOldStep at h
  split at h
  · cases h
  split at h
  · next hread =>
      cases h
      exact hread
  · cases h

/-- **The legacy format is a recoverable framing.** -/
theorem legacyFraming : FramedLog.Framing readOldStep WalRecord.serialize Storable where
  next_encode := by
    intro r h s
    have hne : r.serialize ++ s ≠ [] := by
      refine List.ne_nil_of_length_pos ?_
      rw [List.length_append, WalRecord.length_serialize]
      omega
    rw [readOldStep, if_neg hne, deserialize_serialize_append h]
  next_torn := by
    intro r h t hpre hlt
    obtain ⟨u, hu⟩ := hpre
    cases hnext : readOldStep t with
    | stop => rfl
    | fail e =>
        unfold readOldStep at hnext
        split at hnext
        · cases hnext
        · split at hnext <;> cases hnext
    | record r' n =>
        -- what a torn record reads as is what the whole record reads as
        obtain ⟨-, -, hle, hextend⟩ := deserialize_spec (readOldStep_record hnext)
        have hwhole := hextend u
        have hown := deserialize_serialize_append h []
        rw [hu, ← List.append_nil r.serialize, hown] at hwhole
        cases hwhole
        omega
  next_size := by
    intro rest r size h
    obtain ⟨-, hpos, hle, -⟩ := deserialize_spec (readOldStep_record h)
    exact ⟨by omega, hle⟩

/-- A file of storable records is read back. -/
theorem readOldRecords_legacyFile {rs : List WalRecord} (h : ∀ r ∈ rs, r.Storable) :
    readOldRecords (legacyFile rs) = rs := by
  have hlen := legacyFraming.length_le_length_encodeAll h
  rw [readOldRecords, legacyFile, legacyFraming.scan_encodeAll h rfl (by omega)]

/-- Nothing else is read from any file. -/
theorem storable_of_mem_readOldRecords {buf : Bytes} {r : WalRecord}
    (h : r ∈ readOldRecords buf) : r.Storable := by
  obtain ⟨rest, n, hnext⟩ := FramedLog.exists_next_of_mem_scan h
  exact (deserialize_spec (readOldStep_record hnext)).1

end Rudurru
