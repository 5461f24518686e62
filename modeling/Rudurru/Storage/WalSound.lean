import Rudurru.Storage.CodecSound
import Rudurru.Storage.Wal

/-!
# Rudurru.Storage.WalSound

The WAL record format is a recoverable framing: a record is read back whatever follows it, and
a torn record stops the scan quietly (`kvFraming`).

`KvWalRecord.WellFormed` is what the reader checks of a record, no more and no less
(`deserialize_serialize_append`, `deserialize_sound`); `KvWalRecord.new` establishes it as long as
the record is shorter than 4 GiB (`wellFormed_new`). Where the `mod_revision` offset fits a `u16`
too, the accessors return the key and the revision that were written.

The proofs are by fields. The header is nine bytes whatever the record, so that a reader finds
`rec_len` in any prefix that has the header, and either the whole record is there or the scan stops.
The other checks of the reader are what `WellFormed` says, and for a new record the checksum is
computed over the bytes that the reader takes it over.
-/

namespace Rudurru

open FramedLog (encodeAll)

/-! ### Little-endian integers -/

theorem u16FromLeBytes_toLeBytes (v : UInt16) :
    u16FromLeBytes (UInt8.ofNat v.toNat) (UInt8.ofNat (v.toNat / 2 ^ 8)) = v := by
  have hv := v.toNat_lt
  apply UInt16.toNat_inj.mp
  simp only [u16FromLeBytes, UInt16.toNat_ofNat', UInt8.toNat_ofNat']
  omega

theorem u32FromLeBytes_toLeBytes (v : UInt32) :
    u32FromLeBytes (UInt8.ofNat v.toNat) (UInt8.ofNat (v.toNat / 2 ^ 8))
      (UInt8.ofNat (v.toNat / 2 ^ 16)) (UInt8.ofNat (v.toNat / 2 ^ 24)) = v := by
  have hv := v.toNat_lt
  apply UInt32.toNat_inj.mp
  simp only [u32FromLeBytes, UInt32.toNat_ofNat', UInt8.toNat_ofNat']
  omega

namespace KvWalRecord

@[simp] theorem length_header (r : KvWalRecord) : r.header.length = 9 := by
  simp [header, u16ToLeBytes, u32ToLeBytes]

theorem length_serialize (r : KvWalRecord) :
    r.serialize.length = kvHeaderSize + r.kvBytes.length + kvCrcSize := by
  simp only [serialize, u32ToLeBytes, kvHeaderSize, kvCrcSize, List.length_append, length_header,
    List.length_cons, List.length_nil]

/-- The serialized record, byte by byte up to the blob. -/
theorem serialize_eq (r : KvWalRecord) :
    r.serialize = r.flags :: UInt8.ofNat r.keyOffset.toNat
      :: UInt8.ofNat (r.keyOffset.toNat / 2 ^ 8) :: UInt8.ofNat r.modRevOffset.toNat
      :: UInt8.ofNat (r.modRevOffset.toNat / 2 ^ 8) :: UInt8.ofNat r.recLen.toNat
      :: UInt8.ofNat (r.recLen.toNat / 2 ^ 8) :: UInt8.ofNat (r.recLen.toNat / 2 ^ 16)
      :: UInt8.ofNat (r.recLen.toNat / 2 ^ 24) :: (r.kvBytes ++ u32ToLeBytes r.crc) := by
  simp [serialize, header, u16ToLeBytes, u32ToLeBytes]

variable [Crates]

/-- What the reader of the WAL checks of a record. The offsets are checked against the length of the
blob and no further: what they point at is not looked at. -/
structure WellFormed (r : KvWalRecord) : Prop where
  recLen_eq : r.recLen.toNat = kvHeaderSize + r.kvBytes.length + kvCrcSize
  crc_eq : r.crc = crc32c (r.header ++ r.kvBytes)
  keyOffset_lt : r.keyOffset.toNat < r.kvBytes.length
  modRevOffset_le : r.modRevOffset.toNat + 10 ≤ r.kvBytes.length

/-- A well-formed record is as long as it says. -/
theorem WellFormed.length_serialize {r : KvWalRecord} (h : r.WellFormed) :
    r.serialize.length = r.recLen.toNat := by
  rw [KvWalRecord.length_serialize, h.recLen_eq]

/-- Reading back a serialized record, whatever follows it. -/
theorem deserialize_serialize_append {r : KvWalRecord} (h : r.WellFormed) (s : Bytes) :
    deserialize (r.serialize ++ s) = .ok (r, r.recLen.toNat) := by
  have hlen := r.length_serialize
  have hrec := h.recLen_eq
  simp only [kvHeaderSize, kvCrcSize] at hlen hrec
  have hcrc : crc32c ((r.serialize ++ s).take (9 + r.kvBytes.length)) = r.crc := by
    rw [serialize, List.append_assoc, List.take_left' (by simp), ← h.crc_eq]
  rw [serialize_eq] at hlen hcrc ⊢
  simp only [List.cons_append, List.append_assoc] at hcrc ⊢
  rw [deserialize]
  simp only [u16FromLeBytes_toLeBytes, u32FromLeBytes_toLeBytes, kvHeaderSize, kvCrcSize]
  simp only [List.length_cons, List.length_append] at hlen ⊢
  rw [if_neg (by omega), if_neg (by omega), if_neg (by omega),
    show r.recLen.toNat - 9 - 4 = r.kvBytes.length by omega, List.drop_left, List.take_left]
  simp only [u32ToLeBytes, u32FromLeBytes_toLeBytes, List.cons_append, List.nil_append]
  simp only [u32ToLeBytes, List.cons_append, List.nil_append] at hcrc
  rw [if_neg (by rw [hcrc]; simp),
    if_neg (by have := h.keyOffset_lt; have := h.modRevOffset_le; omega)]

/-- A record is read back. -/
theorem deserialize_serialize {r : KvWalRecord} (h : r.WellFormed) :
    deserialize r.serialize = .ok (r, r.recLen.toNat) := by
  simpa using deserialize_serialize_append h []

/-- It has a header and a checksum at least. -/
theorem WellFormed.size_pos {r : KvWalRecord} (h : r.WellFormed) : 13 ≤ r.recLen.toNat := by
  have := h.recLen_eq
  simp only [kvHeaderSize, kvCrcSize] at this
  omega

end KvWalRecord

open KvWalRecord

variable [Crates]

omit [Crates] in
theorem u16ToLeBytes_fromLeBytes (b₀ b₁ : UInt8) :
    u16ToLeBytes (u16FromLeBytes b₀ b₁) = [b₀, b₁] := by
  have h₀ := b₀.toNat_lt
  have h₁ := b₁.toNat_lt
  simp only [u16ToLeBytes, u16FromLeBytes, UInt16.toNat_ofNat', List.cons.injEq, and_true,
    ← UInt8.toNat_inj, UInt8.toNat_ofNat']
  omega

omit [Crates] in
theorem u32ToLeBytes_fromLeBytes (b₀ b₁ b₂ b₃ : UInt8) :
    u32ToLeBytes (u32FromLeBytes b₀ b₁ b₂ b₃) = [b₀, b₁, b₂, b₃] := by
  have h₀ := b₀.toNat_lt
  have h₁ := b₁.toNat_lt
  have h₂ := b₂.toNat_lt
  have h₃ := b₃.toNat_lt
  simp only [u32ToLeBytes, u32FromLeBytes, UInt32.toNat_ofNat', List.cons.injEq, and_true,
    ← UInt8.toNat_inj, UInt8.toNat_ofNat']
  omega

/-- **What is read is well formed, and was written there.** Each of the reader's checks gives one
part of being well formed, and the fields give back the bytes. -/
theorem deserialize_sound {data : Bytes} {r : KvWalRecord} {n : Nat}
    (h : deserialize data = .ok (r, n)) :
    r.WellFormed ∧ n = r.recLen.toNat ∧ r.serialize <+: data := by
  unfold deserialize at h
  split at h
  · next flags k₀ k₁ m₀ m₁ l₀ l₁ l₂ l₃ body =>
    dsimp only at h
    split at h
    · cases h
    split at h
    · cases h
    split at h
    · cases h
    split at h
    · next hshort hsmall hpast _ c₀ c₁ c₂ c₃ rest hdrop =>
      split at h
      · cases h
      split at h
      · cases h
      next hcrc hoffsets =>
      simp only [Except.ok.injEq, Prod.mk.injEq] at h
      obtain ⟨rfl, rfl⟩ := h
      simp only [kvHeaderSize, kvCrcSize, List.length_cons] at hshort hsmall hpast hdrop hcrc
      generalize hlen : (u32FromLeBytes l₀ l₁ l₂ l₃).toNat = len at hsmall hpast hdrop hcrc
      have hkv : (body.take (len - 9 - 4)).length = len - 9 - 4 := by
        rw [List.length_take]
        omega
      -- the bytes of the pair and the checksum are the rest of the record
      have hbody : body.take (len - 9 - 4) ++ c₀ :: c₁ :: c₂ :: c₃ :: rest = body := by
        rw [← hdrop]
        exact List.take_append_drop _ _
      -- the fields read back to the nine bytes they came from
      have hheader : KvWalRecord.header
          { flags, kvBytes := body.take (len - 9 - 4), keyOffset := u16FromLeBytes k₀ k₁,
            modRevOffset := u16FromLeBytes m₀ m₁, recLen := u32FromLeBytes l₀ l₁ l₂ l₃,
            crc := u32FromLeBytes c₀ c₁ c₂ c₃ }
          = [flags, k₀, k₁, m₀, m₁, l₀, l₁, l₂, l₃] := by
        simp only [KvWalRecord.header, u16ToLeBytes_fromLeBytes, u32ToLeBytes_fromLeBytes,
          List.cons_append, List.nil_append]
      simp only [kvHeaderSize, kvCrcSize, hlen] at hoffsets ⊢
      push Not at hoffsets
      refine ⟨⟨?_, ?_, hoffsets.1, hoffsets.2⟩, trivial, rest, ?_⟩
      · simp only [kvHeaderSize, kvCrcSize, hlen]
        omega
      · rw [hheader]
        rw [Nat.add_comm 9] at hcrc
        simp only [List.take_succ_cons, ne_eq, Decidable.not_not] at hcrc
        exact hcrc.symm
      · rw [KvWalRecord.serialize, hheader, u32ToLeBytes_fromLeBytes]
        simp only [List.append_assoc, List.cons_append, List.nil_append, hbody]
    · cases h
  · cases h

/-- The reader takes something, and no more than there is. -/
theorem deserialize_size {data : Bytes} {r : KvWalRecord} {n : Nat}
    (h : deserialize data = .ok (r, n)) : 0 < n ∧ n ≤ data.length := by
  obtain ⟨hwf, rfl, hpre⟩ := deserialize_sound h
  have hpos := hwf.size_pos
  have hle := hpre.length_le
  rw [hwf.length_serialize] at hle
  exact ⟨by omega, hle⟩

/-- **The WAL format is a recoverable framing.** Records that are well formed are read back; what is
torn has its header or does not, and the reader stops either way. -/
theorem kvFraming : FramedLog.Framing scanKvStep serialize WellFormed where
  next_encode := by
    intro r h s
    have hlen := h.length_serialize
    have hpos := h.size_pos
    have htake : (r.serialize ++ s).take r.recLen.toNat = r.serialize := List.take_left' hlen
    rw [hlen]
    rw [serialize_eq] at htake hlen ⊢
    simp only [List.cons_append] at htake hlen ⊢
    simp only [scanKvStep, u32FromLeBytes_toLeBytes, kvHeaderSize, kvCrcSize]
    rw [if_neg (by omega), if_neg (by simp at hlen ⊢; omega), htake, ← serialize_eq,
      deserialize_serialize h]
  next_torn := by
    intro r h t hpre hlt
    obtain ⟨s, hs⟩ := hpre
    have hlen := h.length_serialize
    have hpos := h.size_pos
    unfold scanKvStep
    split
    · -- the header survived: its `rec_len` reaches past the end of `t`
      next a₀ a₁ a₂ a₃ a₄ l₀ l₁ l₂ l₃ body =>
        rw [hlen] at hlt
        rw [serialize_eq] at hs
        simp only [List.cons_append, List.cons.injEq] at hs
        obtain ⟨-, -, -, -, -, rfl, rfl, rfl, rfl, -⟩ := hs
        simp only [u32FromLeBytes_toLeBytes, kvHeaderSize, kvCrcSize]
        rw [if_neg (by omega), if_pos hlt]
    · rfl
  next_size := by
    intro rest r size h
    unfold scanKvStep at h
    split at h
    · dsimp only at h
      split at h
      · cases h
      · split at h
        · cases h
        · split at h
          · next rec consumed hdes =>
            obtain ⟨rfl, rfl⟩ : rec = r ∧ consumed = size := by simpa using h
            have := deserialize_size hdes
            simp only [List.length_take] at this
            omega
          · cases h
    · cases h

/-- The scan accepts nothing else. -/
theorem kvFraming_sound : kvFraming.Sound := by
  intro rest r size h
  unfold scanKvStep at h
  split at h
  · dsimp only at h
    split at h
    · cases h
    split at h
    · cases h
    split at h
    · next rec consumed hdes =>
        cases h
        obtain ⟨hwf, rfl, hpre⟩ := deserialize_sound hdes
        exact ⟨hwf, hwf.length_serialize.symm, hpre.trans (List.take_prefix _ _)⟩
    · cases h
  · cases h

/-! ### Scanning whole files -/

/-- The file holding the given records and nothing else. -/
def serializeAll (rs : List KvWalRecord) : Bytes := encodeAll serialize rs

omit [Crates] in
@[simp] theorem serializeAll_append (rs ss : List KvWalRecord) :
    serializeAll (rs ++ ss) = serializeAll rs ++ serializeAll ss :=
  FramedLog.encodeAll_append _ _ _

/-- A scan reads the records in front of a tail that stops it, and nothing more. -/
theorem scanKvFile_append_of_stop {rs : List KvWalRecord} (h : ∀ r ∈ rs, r.WellFormed)
    {t : Bytes} (ht : scanKvStep t = .stop) :
    scanKvFile (serializeAll rs ++ t) 0 = (rs, .ok (serializeAll rs).length) := by
  have hlen := kvFraming.length_le_length_encodeAll h
  obtain ⟨extra, hextra⟩ := Nat.exists_eq_add_of_le
    (show rs.length ≤ (serializeAll rs ++ t).length + 1 by
      simp only [serializeAll, List.length_append]; omega)
  rw [scanKvFile, List.drop_zero, hextra, serializeAll,
    kvFraming.scan_encodeAll_append t h extra 0, FramedLog.Framing.scan_stop ht]
  simp

/-- A complete file gives back its records. -/
theorem scanKvFile_serializeAll {rs : List KvWalRecord} (h : ∀ r ∈ rs, r.WellFormed) :
    scanKvFile (serializeAll rs) 0 = (rs, .ok (serializeAll rs).length) := by
  have := scanKvFile_append_of_stop h (t := []) rfl
  simpa using this

/-- A file cut anywhere gives back a prefix of its records. -/
theorem scanKvFile_take {rs : List KvWalRecord} (h : ∀ r ∈ rs, r.WellFormed) {n : Nat}
    (hn : n ≤ (serializeAll rs).length) :
    ∃ k ≤ rs.length, scanKvFile ((serializeAll rs).take n) 0
      = (rs.take k, .ok (serializeAll (rs.take k)).length) := by
  have hfuel : n ≤ ((serializeAll rs).take n).length + 1 := by
    simp only [List.length_take]
    omega
  obtain ⟨k, hk, hscan⟩ := kvFraming.scan_take_encodeAll h rfl hn hfuel 0
  refine ⟨k, hk, ?_⟩
  rw [scanKvFile, List.drop_zero]
  simpa [serializeAll] using hscan

/-- A file cut somewhere in its second half gives back its first half and part of the rest. -/
theorem scanKvFile_append_take {rs ss : List KvWalRecord} (hrs : ∀ r ∈ rs, r.WellFormed)
    (hss : ∀ r ∈ ss, r.WellFormed) {n : Nat} (hn : n ≤ (serializeAll ss).length) :
    ∃ k, (scanKvFile (serializeAll rs ++ (serializeAll ss).take n) 0).1 = rs ++ ss.take k := by
  obtain ⟨k, -, t, htake, ht⟩ := FramedLog.take_encodeAll serialize ss n hn
  have hstop : scanKvStep t = .stop := by
    rcases ht with rfl | ⟨r, hr, hpre, hlt⟩
    · rfl
    · exact kvFraming.next_torn (hss r hr) hpre hlt
  have hwf : ∀ r ∈ rs ++ ss.take k, r.WellFormed := by
    intro r hr
    rcases List.mem_append.mp hr with hr | hr
    · exact hrs r hr
    · exact hss r (List.mem_of_mem_take hr)
  refine ⟨k, ?_⟩
  have hfile : serializeAll rs ++ (serializeAll ss).take n
      = serializeAll (rs ++ ss.take k) ++ t := by
    rw [serializeAll_append, List.append_assoc]
    exact congrArg (serializeAll rs ++ ·) htake
  rw [hfile, scanKvFile_append_of_stop hwf hstop]

/-- A scan from an offset reads the records that stand there. -/
theorem scanKvFile_offset {file : Bytes} {offset : Nat} {rs : List KvWalRecord}
    (h : ∀ r ∈ rs, r.WellFormed) (hdrop : file.drop offset = serializeAll rs) :
    (scanKvFile file offset).1 = rs := by
  have hlen := kvFraming.length_le_length_encodeAll h
  have hle : (serializeAll rs).length ≤ file.length := by
    rw [← hdrop, List.length_drop]
    omega
  have hfuel : rs.length ≤ file.length + 1 := by
    rw [serializeAll] at hle
    omega
  rw [scanKvFile, hdrop, serializeAll, kvFraming.scan_encodeAll h rfl hfuel]

/-! ### Records built by `KvWalRecord::new` -/

section New

variable {flags : UInt8} {key value : Bytes} {c m v l : Int64}

omit [Crates] in
/-- The layout of a blob around its revision, which has ten bytes. -/
theorem length_encodeKv (key value : Bytes) (c m v l : Int64) :
    (encodeKv key value c m v l).1.length
      = (kvHead key c).length + 10 + (kvTail value v l).length := by
  simp only [encodeKv, List.length_append, length_encodeOverlongU64]

omit [Crates] in
theorem value_length_le (key value : Bytes) (c m v l : Int64) :
    value.length ≤ (encodeKv key value c m v l).1.length := by
  simp only [encodeKv, kvTail, List.length_append]
  omega

omit [Crates] in
theorem key_length_le (key value : Bytes) (c m v l : Int64) :
    key.length ≤ (encodeKv key value c m v l).1.length := by
  simp only [encodeKv, kvHead, List.length_append]
  omega

@[simp] theorem kvBytes_new :
    (KvWalRecord.new flags key value c m v l).kvBytes = (encodeKv key value c m v l).1 := rfl

@[simp] theorem flags_new : (KvWalRecord.new flags key value c m v l).flags = flags := rfl

/-- The chained checksum of `KvWalRecord::new` is the checksum of everything before it. -/
theorem crc_new [LawfulCrates] :
    (KvWalRecord.new flags key value c m v l).crc
      = crc32c ((KvWalRecord.new flags key value c m v l).header
          ++ (KvWalRecord.new flags key value c m v l).kvBytes) := by
  simp only [KvWalRecord.new, crc32cAppend_crc32c, KvWalRecord.header]

/-- A record under 4 GiB is well formed: an offset that has wrapped around still lies in the
blob. -/
theorem wellFormed_new [LawfulCrates]
    (hlen : kvHeaderSize + (encodeKv key value c m v l).1.length + kvCrcSize < 2 ^ 32) :
    (KvWalRecord.new flags key value c m v l).WellFormed where
  recLen_eq := by
    simp only [KvWalRecord.new, UInt32.toNat_ofNat']
    exact Nat.mod_eq_of_lt hlen
  crc_eq := crc_new
  keyOffset_lt := by
    rw [kvBytes_new, length_encodeKv]
    show (1 : UInt16).toNat < _
    simp
    omega
  modRevOffset_le := by
    rw [kvBytes_new, length_encodeKv]
    simp only [KvWalRecord.new, encodeKv, UInt16.toNat_ofNat']
    have hmod := Nat.mod_le (kvHead key c).length (2 ^ 16)
    omega

/-- The key of a new record can be read back as long as a `u32` holds its length. -/
theorem key_new (hkey : key.length < 2 ^ 32) :
    (KvWalRecord.new flags key value c m v l).key = some key :=
  readKeyFromKv_encodeKv hkey

/-- The record is within the limits of its format: shorter than 4 GiB, so that `rec_len` does
not wrap, and with its `mod_revision` field in the first 64 KiB of the blob, so that
`mod_rev_offset` does not. The latter is a limit on the length of the key. -/
structure KvWalRecord.Fits (r : KvWalRecord) : Prop where
  size_lt : kvHeaderSize + r.kvBytes.length + kvCrcSize < 2 ^ 32
  offset_lt : ∀ offset ∈ modRevisionFieldOffset r.kvBytes, offset < 2 ^ 16

instance (r : KvWalRecord) : Decidable r.Fits :=
  decidable_of_iff (kvHeaderSize + r.kvBytes.length + kvCrcSize < 2 ^ 32 ∧
    ∀ offset ∈ modRevisionFieldOffset r.kvBytes, offset < 2 ^ 16)
    ⟨fun h => ⟨h.1, h.2⟩, fun h => ⟨h.1, h.2⟩⟩

/-- What the format holds: every record under 4 GiB whose key has at most 65 517 bytes. -/
theorem KvWalRecord.fits_new (hkey : key.length ≤ 65517)
    (hsize : kvHeaderSize + (encodeKv key value c m v l).1.length + kvCrcSize < 2 ^ 32) :
    (KvWalRecord.new flags key value c m v l).Fits where
  size_lt := hsize
  offset_lt := by
    intro offset hoffset
    have hhead := length_kvHead_le key c
    rw [kvBytes_new, modRevisionFieldOffset_encodeKv (by omega)] at hoffset
    cases hoffset
    omega

theorem KvWalRecord.Fits.key_length (h : (KvWalRecord.new flags key value c m v l).Fits) :
    key.length < 2 ^ 32 := by
  have hsize := h.size_lt
  have hkeyLen := key_length_le key value c m v l
  rw [kvBytes_new] at hsize
  omega

/-- So can its revision, as long as a `u16` holds its position. -/
theorem revision_new (hhead : (kvHead key c).length < 2 ^ 16) :
    (KvWalRecord.new flags key value c m v l).revision = m.toUInt64 := by
  have : (KvWalRecord.new flags key value c m v l).modRevision = some m :=
    readModRevisionFromKv_encodeKv hhead
  rw [KvWalRecord.revision, this, Option.getD_some]

/-- A record that fits is well formed, and its accessors return what was written. -/
theorem KvWalRecord.Fits.new_spec [LawfulCrates]
    (h : (KvWalRecord.new flags key value c m v l).Fits) :
    (KvWalRecord.new flags key value c m v l).WellFormed
      ∧ (KvWalRecord.new flags key value c m v l).key = some key
      ∧ (KvWalRecord.new flags key value c m v l).revision = m.toUInt64
      ∧ decodeKeyValue (encodeKv key value c m v l).1 = some ⟨key, c, m, v, value, l⟩ := by
  have hsize := h.size_lt
  have hvalueLen := value_length_le key value c m v l
  rw [kvBytes_new] at hsize
  have hhead : (kvHead key c).length < 2 ^ 16 :=
    h.offset_lt _ (modRevisionFieldOffset_encodeKv h.key_length)
  exact ⟨wellFormed_new hsize, key_new h.key_length, revision_new hhead,
    decodeKeyValue_encodeKv key value c m v l h.key_length (by omega)⟩

end New

end Rudurru
