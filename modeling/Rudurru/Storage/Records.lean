import Rudurru.Reference
import Rudurru.Storage.WalSound

/-!
# Rudurru.Storage.Records

What one WAL record is good for. The codec is a bijection between the well-formed records and their
serializations (`kvWalRecord_codec`). The accessors are another matter: `mod_rev_offset` is a `u16`,
so that a record with a long key reads its revision out of the key (`accessors_recover_iff`), and
`key` adds a length to an offset before it compares, which may overflow (`accessors_safe_iff`).

The accessors are compared with what `KvWalRecord::new` was given. The key stands in front and is
always found; the revision stands behind it at an offset that is cut off at 16 bits, so for a long
key the reader decodes ten bytes of the key instead (`modRevision_new_iff`), and what it reads there
can be the right number by accident. That case is part of the statement.
-/

namespace Rudurru

open KvWalRecord Varint

/-! ### The codec -/

section

variable [Crates] [LawfulCrates]

/-- **Serializing is a bijection on its image.** A byte string is read as one record or not at all:
what is read serializes to the bytes that were taken, and a serialization is read back whatever
follows it. -/
theorem kvWalRecord_codec :
    (∀ (flags : UInt8) (key value : Bytes) (c m v l : Int64) (s : Bytes),
      kvHeaderSize + (encodeKv key value c m v l).1.length + kvCrcSize < 2 ^ 32 →
        deserialize ((KvWalRecord.new flags key value c m v l).serialize ++ s)
          = .ok (KvWalRecord.new flags key value c m v l,
              (KvWalRecord.new flags key value c m v l).recLen.toNat)) ∧
    ∀ (d : Bytes) (r : KvWalRecord) (n : Nat), deserialize d = .ok (r, n) →
      n ≤ d.length ∧ n = r.recLen.toNat ∧ r.serialize = d.take n := by
  refine ⟨fun _ _ _ _ _ _ _ s hsize => deserialize_serialize_append (wellFormed_new hsize) s, ?_⟩
  intro d r n h
  obtain ⟨hwf, rfl, hpre⟩ := deserialize_sound h
  have hlen := hwf.length_serialize
  exact ⟨hlen ▸ hpre.length_le, rfl, hlen ▸ List.prefix_iff_eq_take.mp hpre⟩

end

theorem kvWalRecord_codec_reference :
    (∀ (flags : UInt8) (key value : Bytes) (c m v l : Int64) (s : Bytes),
      kvHeaderSize + (encodeKv key value c m v l).1.length + kvCrcSize < 2 ^ 32 →
        deserialize ((KvWalRecord.new flags key value c m v l).serialize ++ s)
          = .ok (KvWalRecord.new flags key value c m v l,
              (KvWalRecord.new flags key value c m v l).recLen.toNat)) ∧
    ∀ (d : Bytes) (r : KvWalRecord) (n : Nat), deserialize d = .ok (r, n) →
      n ≤ d.length ∧ n = r.recLen.toNat ∧ r.serialize = d.take n :=
  kvWalRecord_codec

/-! ### What the accessors read -/

/-- Ten bytes as `decode_overlong_u64` sees them: it looks at neither the continuation bits nor the
bits past the sixty-fourth. -/
def overlongBits (bs : Bytes) : Bytes :=
  (bs.take 9).map (fun b => (b &&& 0x7f) ||| 0x80) ++ (bs.drop 9).map (· &&& 0x01)

theorem exists_isVarint_overlongBits {bs : Bytes} (hlen : bs.length = 10) :
    ∃ n < 2 ^ 64, IsVarint (overlongBits bs) n := by
  have hbits : ∀ {pre : Bytes} {b : UInt8}, ∃ n < 2 ^ (7 * pre.length + 1),
      IsVarint (pre.map (fun b => (b &&& 0x7f) ||| 0x80) ++ [b &&& 0x01]) n := by
    intro pre b
    -- one byte in front at a time, the last one keeping a single bit
    induction pre with
    | nil =>
        have hlast : (b &&& 0x01).toNat < 2 := by
          rw [UInt8.toNat_and, show (0x01 : UInt8).toNat = 2 ^ 1 - 1 from rfl,
            Nat.and_two_pow_sub_one_eq_mod]
          omega
        exact ⟨_, hlast, .last (by omega)⟩
    | cons a pre ih =>
        obtain ⟨n, hn, hvar⟩ := ih
        have hhigh := toNat_low_or_high a
        refine ⟨_, ?_, .more (by rw [hhigh]; omega) hvar⟩
        rw [List.length_cons, show 7 * (pre.length + 1) + 1 = 7 + (7 * pre.length + 1) by omega,
          Nat.pow_add]
        omega
  obtain ⟨b, hb⟩ : ∃ b, bs.drop 9 = [b] := List.length_eq_one_iff.mp (by simp [hlen])
  obtain ⟨n, hn, hvar⟩ := @hbits (bs.take 9) b
  rw [List.length_take, hlen] at hn
  exact ⟨n, hn, by rw [overlongBits, hb]; exact hvar⟩

theorem decodeOverlongU64_overlongBits {bs : Bytes} (hlen : bs.length = 10) :
    decodeOverlongU64 (overlongBits bs) = decodeOverlongU64 bs := by
  have hlow (b : UInt8) : ((b &&& 0x7f) ||| 0x80) &&& 0x7f = b &&& 0x7f := by
    rw [← UInt8.toNat_inj, toNat_and_low, toNat_low_or_high, toNat_and_low]
    omega
  have hlast (b : UInt8) : ((b &&& 0x01) &&& 0x7f).toUInt64 <<< (63 : UInt64)
      = (b &&& 0x7f).toUInt64 <<< (63 : UInt64) := by
    rw [← UInt64.toNat_inj, UInt64.toNat_shiftLeft, UInt64.toNat_shiftLeft, UInt8.toNat_toUInt64,
      UInt8.toNat_toUInt64, toNat_and_low, toNat_and_low, UInt8.toNat_and,
      show (0x01 : UInt8).toNat = 2 ^ 1 - 1 from rfl, Nat.and_two_pow_sub_one_eq_mod,
      Nat.shiftLeft_eq, Nat.shiftLeft_eq, show (63 : UInt64).toNat % 64 = 63 from rfl]
    omega
  match bs, hlen with
  | [b₀, b₁, b₂, b₃, b₄, b₅, b₆, b₇, b₈, b₉], _ =>
      -- the tenth byte is shifted by 63, which loses all but its lowest bit
      have hshift : UInt64.ofNat (9 * 7) = 63 := rfl
      simp only [decodeOverlongU64, overlongBits, List.take_succ_cons, List.take_zero,
        List.drop_succ_cons, List.drop_zero, List.map_cons, List.map_nil, List.cons_append,
        List.nil_append, List.zipIdx_cons, List.zipIdx_nil, List.foldl_cons, List.foldl_nil, hlow,
        List.length_cons, List.length_nil, Nat.zero_add, Nat.reduceAdd, hshift, hlast]

/-- **What ten bytes decode to**, and when. -/
theorem decodeOverlongU64_eq_iff {bs : Bytes} (hlen : bs.length = 10) (v : UInt64) :
    decodeOverlongU64 bs = some v ↔ overlongBits bs = encodeOverlongU64 v := by
  obtain ⟨n, hn, hvar⟩ := exists_isVarint_overlongBits hlen
  have hsize : (overlongBits bs).length = 10 := by
    simp [overlongBits, hlen]
  have hdec := decodeOverlongU64_append hvar hsize hn []
  rw [List.append_nil, decodeOverlongU64_overlongBits hlen] at hdec
  rw [hdec]
  constructor
  · intro h
    obtain rfl : UInt64.ofNat n = v := by simpa using h
    have hval : (UInt64.ofNat n).toNat = n := by rw [UInt64.toNat_ofNat', Nat.mod_eq_of_lt hn]
    have henc := isVarint_encodeOverlongU64 (UInt64.ofNat n)
    rw [hval] at henc
    exact hvar.eq_of_length_eq henc (by simp [hsize])
  · intro h
    rw [h] at hvar hsize
    have henc := decodeOverlongU64_append hvar hsize hn []
    have hown := decodeOverlongU64_append (isVarint_encodeOverlongU64 v) hsize v.toNat_lt []
    rw [henc, UInt64.ofNat_toNat] at hown
    exact hown

/-- The key as it stands at the start of a blob. -/
def keyField (key : Bytes) : Bytes := [0x0a] ++ encodeOverlongU32 (UInt32.ofNat key.length) ++ key

/-- The position of `mod_revision` in a blob, before it is cast to a `u16`. -/
def modRevisionPosition (key : Bytes) (c : Int64) : Nat :=
  key.length + 8 + (encodeVarint c.toUInt64).length

/-- Where the offset has wrapped around, it points into the key or in front of it. -/
theorem take_drop_wrapped {key : Bytes} {c : Int64} (hhead : 2 ^ 16 ≤ modRevisionPosition key c)
    (s : Bytes) :
    ((kvHead key c ++ s).drop (modRevisionPosition key c % 2 ^ 16)).take 10
      = ((keyField key).drop (modRevisionPosition key c % 2 ^ 16)).take 10 := by
  have hwidth := length_encodeVarint_le c.toUInt64
  have hlen : (keyField key).length = key.length + 6 := by
    simp only [keyField, List.length_append, length_encodeOverlongU32, List.length_cons,
      List.length_nil]
    omega
  have hwrapped : modRevisionPosition key c % 2 ^ 16 + 10 ≤ (keyField key).length := by
    rw [hlen]
    simp only [modRevisionPosition] at hhead ⊢
    omega
  have hblob : kvHead key c ++ s
      = keyField key ++ ([0x10] ++ encodeVarint c.toUInt64 ++ [0x18] ++ s) := by
    simp only [kvHead, keyField, List.append_assoc]
  rw [hblob, List.drop_append_of_le_length (by omega),
    List.take_append_of_le_length (by rw [List.length_drop]; omega)]

section

variable [Crates]

/-- **The revision a record gives back** is the one written if its position fits a `u16`, and
otherwise whatever the key has at the position modulo 2¹⁶. -/
theorem modRevision_new_iff (flags : UInt8) (key value : Bytes) (c m v l : Int64) :
    (KvWalRecord.new flags key value c m v l).modRevision = some m ↔
      modRevisionPosition key c < 2 ^ 16 ∨
      overlongBits (((keyField key).drop (modRevisionPosition key c % 2 ^ 16)).take 10)
        = encodeOverlongU64 m.toUInt64 := by
  have hpos : (kvHead key c).length = modRevisionPosition key c := length_kvHead key c
  have hread : (KvWalRecord.new flags key value c m v l).modRevision
      = readModRevisionFromKv (encodeKv key value c m v l).1 (encodeKv key value c m v l).2.2 := rfl
  rw [hread]
  by_cases hfits : modRevisionPosition key c < 2 ^ 16
  · simp only [hfits, true_or, iff_true]
    exact readModRevisionFromKv_encodeKv (hpos ▸ hfits)
  -- the offset has wrapped around
  · have hhead : 2 ^ 16 ≤ modRevisionPosition key c := Nat.le_of_not_lt hfits
    have hofs : (encodeKv key value c m v l).2.2.toNat = modRevisionPosition key c % 2 ^ 16 := by
      simp only [encodeKv, UInt16.toNat_ofNat', hpos]
    have hroom : modRevisionPosition key c % 2 ^ 16 + 10
        ≤ (encodeKv key value c m v l).1.length := by
      rw [length_encodeKv, hpos]
      omega
    have hten : (((encodeKv key value c m v l).1.drop
        (modRevisionPosition key c % 2 ^ 16)).take 10).length = 10 := by
      rw [List.length_take, List.length_drop]
      omega
    -- only the first ten bytes are read
    have hdec : decodeOverlongU64 ((encodeKv key value c m v l).1.drop
          (modRevisionPosition key c % 2 ^ 16))
        = decodeOverlongU64 (((encodeKv key value c m v l).1.drop
          (modRevisionPosition key c % 2 ^ 16)).take 10) := by
      rw [decodeOverlongU64, decodeOverlongU64, List.take_take, Nat.min_self,
        if_neg (by rw [List.length_drop]; omega), if_neg (by omega)]
    rw [readModRevisionFromKv, hofs]
    simp only [hfits, false_or]
    rw [if_neg (by omega), hdec, ← take_drop_wrapped hhead, ← encodeKv_bytes,
      ← decodeOverlongU64_eq_iff hten]
    cases hval : decodeOverlongU64 (((encodeKv key value c m v l).1.drop
        (modRevisionPosition key c % 2 ^ 16)).take 10) with
    | none => simp
    | some n =>
        simp only [Option.map_some, Option.some.injEq]
        constructor
        · intro h
          rw [← h, UInt64.toUInt64_toInt64]
        · intro h
          rw [h, Int64.toInt64_toUInt64]

/-- **When the accessors return what was written**, before and after a round trip: as long as the
position of `mod_revision` fits a `u16`, and by accident where the key spells the revision. -/
theorem accessors_recover_iff [LawfulCrates] (flags : UInt8) (key value : Bytes)
    (c m v l : Int64)
    (hsize : kvHeaderSize + (encodeKv key value c m v l).1.length + kvCrcSize < 2 ^ 32) :
    (((KvWalRecord.new flags key value c m v l).key = some key ∧
        (KvWalRecord.new flags key value c m v l).modRevision = some m) ∧
      ∃ r n, deserialize (KvWalRecord.new flags key value c m v l).serialize = .ok (r, n) ∧
        r.key = some key ∧ r.modRevision = some m) ↔
    modRevisionPosition key c < 2 ^ 16 ∨
      overlongBits (((keyField key).drop (modRevisionPosition key c % 2 ^ 16)).take 10)
        = encodeOverlongU64 m.toUInt64 := by
  -- the key is never lost, so the condition is about the modification revision alone
  have hkey : (KvWalRecord.new flags key value c m v l).key = some key := by
    have hle := key_length_le key value c m v l
    exact key_new (by omega)
  rw [← modRevision_new_iff flags key value c m v l]
  constructor
  · intro h
    exact h.1.2
  · intro h
    exact ⟨⟨hkey, h⟩, _, _, deserialize_serialize (wellFormed_new hsize), hkey, h⟩

end

theorem accessors_recover_iff_short :
    (((KvWalRecord.new IS_CREATE [107] [118] 5 5 1 0).key = some [107] ∧
        (KvWalRecord.new IS_CREATE [107] [118] 5 5 1 0).modRevision = some 5) ∧
      ∃ r n, deserialize (KvWalRecord.new IS_CREATE [107] [118] 5 5 1 0).serialize = .ok (r, n) ∧
        r.key = some [107] ∧ r.modRevision = some 5) ↔
    modRevisionPosition [107] 5 < 2 ^ 16 ∨
      overlongBits (((keyField [107]).drop (modRevisionPosition [107] 5 % 2 ^ 16)).take 10)
        = encodeOverlongU64 (5 : Int64).toUInt64 :=
  accessors_recover_iff IS_CREATE [107] [118] 5 5 1 0 (by decide)

theorem drop_keyField_replicate {n k : Nat} (hk : 6 ≤ k) :
    (keyField (List.replicate n 0)).drop k = List.replicate (n + 6 - k) 0 := by
  have hlen : ([0x0a] ++ encodeOverlongU32 (UInt32.ofNat
      (List.replicate n (0 : UInt8)).length)).length = 6 := by
    simp
  rw [keyField, List.drop_append, hlen, List.drop_of_length_le (by omega), List.nil_append,
    List.drop_replicate]
  congr 1
  omega

/-- A key of 64 KiB of zeros: the revision 5 comes back as the 0 that stands in the key. -/
theorem long_key_loses_revision :
    ¬ ∀ (flags : UInt8) (key value : Bytes) (c m v l : Int64), key ≠ [] →
      kvHeaderSize + (encodeKv key value c m v l).1.length + kvCrcSize < 2 ^ 32 →
        (KvWalRecord.new flags key value c m v l).key = some key ∧
          (KvWalRecord.new flags key value c m v l).modRevision = some m := by
  intro h
  have hlong {n : Nat} (hn : n = 2 ^ 16) :
      ¬ (KvWalRecord.new IS_CREATE (List.replicate n 0) [118] 5 5 1 0).modRevision = some 5 := by
    have hpos : modRevisionPosition (List.replicate n 0) 5 = n + 9 := by
      rw [modRevisionPosition, List.length_replicate]
      rfl
    rw [modRevision_new_iff, hpos, hn, drop_keyField_replicate (by omega), List.take_replicate]
    decide
  have hsize {n : Nat} (hn : n = 2 ^ 16) :
      kvHeaderSize + (encodeKv (List.replicate n 0) [118] 5 5 1 0).1.length + kvCrcSize
        < 2 ^ 32 := by
    have htail : (kvTail [118] 1 0).length = 11 := by decide
    rw [length_encodeKv, length_kvHead, List.length_replicate, htail, kvHeaderSize, kvCrcSize]
    have hwidth := length_encodeVarint_le (5 : Int64).toUInt64
    omega
  obtain ⟨n, hn⟩ : ∃ n, n = 2 ^ 16 := ⟨_, rfl⟩
  have hne : List.replicate n (0 : UInt8) ≠ [] :=
    List.ne_nil_of_length_pos (by rw [List.length_replicate]; omega)
  exact hlong hn (h IS_CREATE (List.replicate n 0) [118] 5 5 1 0 hne (hsize hn)).2

/-! ### The accessors in `usize` arithmetic

`readKeyFromKv` adds in ℕ. The code adds in `usize`, which on a 64-bit target is a `u64`: with
overflow checks a sum past it panics, without them it wraps around. -/

/-- The panics of the accessors. -/
inductive UsizePanic
  /-- `attempt to add with overflow`. -/
  | addOverflow
  /-- `slice index starts at {start} but ends at {stop}`. -/
  | sliceOrder (start stop : UInt64)
  /-- `range end index {stop} out of range for slice`. -/
  | sliceEnd (stop : UInt64)
  /-- `range start index {start} out of range for slice`. -/
  | sliceStart (start : UInt64)
  deriving DecidableEq, Repr

/-- `a + b`. -/
def usizeAdd (overflowChecks : Bool) (a b : UInt64) : Except UsizePanic UInt64 :=
  if overflowChecks ∧ 2 ^ 64 ≤ a.toNat + b.toNat then .error .addOverflow else .ok (a + b)

/-- `&buf[start..stop]`. -/
def sliceRange (buf : Bytes) (start stop : UInt64) : Except UsizePanic Bytes :=
  if stop < start then .error (.sliceOrder start stop)
  else if buf.length < stop.toNat then .error (.sliceEnd stop)
  else .ok ((buf.drop start.toNat).take (stop.toNat - start.toNat))

/-- `&buf[start..]`. -/
def sliceFrom (buf : Bytes) (start : UInt64) : Except UsizePanic Bytes :=
  if buf.length < start.toNat then .error (.sliceStart start) else .ok (buf.drop start.toNat)

/-- `read_key_from_kv`, with or without overflow checks. -/
def readKeyFromKvUsize (overflowChecks : Bool) (kvBytes : Bytes) (keyOffset : UInt16) :
    Except UsizePanic (Option Bytes) := do
  let ofs := keyOffset.toUInt64
  if ofs.toNat ≥ kvBytes.length then
    return none
  match decodeVarint (← sliceFrom kvBytes ofs) with
  | none => return none
  | some (keyLen, varintSize) =>
      let start ← usizeAdd overflowChecks ofs (UInt64.ofNat varintSize)
      let stop ← usizeAdd overflowChecks start keyLen
      if stop.toNat > kvBytes.length then
        return none
      return some (← sliceRange kvBytes start stop)

/-- `read_mod_revision_from_kv`, with or without overflow checks. -/
def readModRevisionFromKvUsize (overflowChecks : Bool) (kvBytes : Bytes) (modRevOffset : UInt16) :
    Except UsizePanic (Option Int64) := do
  let ofs := modRevOffset.toUInt64
  if (← usizeAdd overflowChecks ofs 10).toNat > kvBytes.length then
    return none
  return (decodeOverlongU64 (← sliceFrom kvBytes ofs)).map UInt64.toInt64

/-- A varint takes at most ten bytes, all of them in the buffer. -/
theorem decodeVarintLoop_size {buf : Bytes} : ∀ {i shift : Nat} {value v : UInt64} {size : Nat},
    shift = 7 * i → shift ≤ 63 → decodeVarintLoop buf i shift value = some (v, size) →
      i < size ∧ size ≤ 10 ∧ size ≤ i + buf.length := by
  induction buf with
  | nil =>
      intro i shift value v size _ _ h
      cases h
  | cons b buf ih =>
      intro i shift value v size hshift hle h
      rw [decodeVarintLoop] at h
      rw [List.length_cons]
      -- the shift grows by 7 a byte and must stay under 64
      split at h
      · simp only [Option.some.injEq, Prod.mk.injEq] at h
        omega
      split at h
      · cases h
      · have := ih (by omega) (by omega) h
        omega

theorem decodeVarint_size {buf : Bytes} {v : UInt64} {size : Nat}
    (h : decodeVarint buf = some (v, size)) : 0 < size ∧ size ≤ 10 ∧ size ≤ buf.length := by
  have := decodeVarintLoop_size (by omega) (by omega) h
  omega

theorem usizeAdd_eq {overflowChecks : Bool} {a b : UInt64} (h : a.toNat + b.toNat < 2 ^ 64) :
    usizeAdd overflowChecks a b = .ok (a + b) ∧ (a + b).toNat = a.toNat + b.toNat := by
  refine ⟨if_neg (by omega), ?_⟩
  rw [UInt64.toNat_add]
  omega

theorem sliceFrom_eq {buf : Bytes} {start : UInt64} (h : start.toNat ≤ buf.length) :
    sliceFrom buf start = .ok (buf.drop start.toNat) := if_neg (by omega)

/-- `mod_revision` never panics: its offset is a `u16`. -/
theorem readModRevisionFromKvUsize_eq (overflowChecks : Bool) (kvBytes : Bytes)
    (modRevOffset : UInt16) :
    readModRevisionFromKvUsize overflowChecks kvBytes modRevOffset
      = .ok (readModRevisionFromKv kvBytes modRevOffset) := by
  have hlt := modRevOffset.toNat_lt
  have hofs : modRevOffset.toUInt64.toNat = modRevOffset.toNat := UInt16.toNat_toUInt64 _
  obtain ⟨hadd, hsum⟩ := @usizeAdd_eq overflowChecks modRevOffset.toUInt64 10
    (by rw [hofs, show (10 : UInt64).toNat = 10 from rfl]; omega)
  rw [hofs, show (10 : UInt64).toNat = 10 from rfl] at hsum
  rw [readModRevisionFromKvUsize, hadd, readModRevisionFromKv]
  simp only [bind, Except.bind, pure, Except.pure, hsum]
  by_cases hend : modRevOffset.toNat + 10 > kvBytes.length
  · rw [if_pos hend, if_pos hend]
  · rw [if_neg hend, if_neg hend, sliceFrom_eq (by omega), hofs]

/-- The key length at the offset, whatever bytes stand there, does not overflow a `usize`. -/
def KeyLenFits (kvBytes : Bytes) (keyOffset : UInt16) : Prop :=
  ∀ keyLen size, decodeVarint (kvBytes.drop keyOffset.toNat) = some (keyLen, size) →
    keyOffset.toNat + size + keyLen.toNat < 2 ^ 64

/-- The start of the key, in ℕ and in `usize`. -/
theorem keyStart_eq {overflowChecks : Bool} {buf : Bytes} {keyOffset : UInt16} {keyLen : UInt64}
    {size : Nat} (h : decodeVarint buf = some (keyLen, size)) :
    usizeAdd overflowChecks keyOffset.toUInt64 (UInt64.ofNat size)
        = .ok (keyOffset.toUInt64 + UInt64.ofNat size) ∧
      (keyOffset.toUInt64 + UInt64.ofNat size).toNat = keyOffset.toNat + size := by
  have hsize := decodeVarint_size h
  have hlt := keyOffset.toNat_lt
  have hofs : keyOffset.toUInt64.toNat = keyOffset.toNat := UInt16.toNat_toUInt64 _
  have hnat : (UInt64.ofNat size).toNat = size := by
    rw [UInt64.toNat_ofNat']
    omega
  have := @usizeAdd_eq overflowChecks keyOffset.toUInt64 (UInt64.ofNat size)
    (by rw [hofs, hnat]; omega)
  rwa [hofs, hnat] at this

/-- Without an overflow the model in ℕ is right. -/
theorem readKeyFromKvUsize_eq {overflowChecks : Bool} {kvBytes : Bytes} {keyOffset : UInt16}
    (h : KeyLenFits kvBytes keyOffset) :
    readKeyFromKvUsize overflowChecks kvBytes keyOffset
      = .ok (readKeyFromKv kvBytes keyOffset) := by
  have hofs : keyOffset.toUInt64.toNat = keyOffset.toNat := UInt16.toNat_toUInt64 _
  rw [readKeyFromKvUsize, readKeyFromKv]
  simp only [bind, Except.bind, pure, Except.pure, hofs]
  by_cases hend : keyOffset.toNat ≥ kvBytes.length
  · rw [if_pos hend, if_pos hend]
  rw [if_neg hend, if_neg hend, sliceFrom_eq (by omega), hofs]
  dsimp only
  cases hvarint : decodeVarint (kvBytes.drop keyOffset.toNat) with
  | none => rfl
  | some found =>
      obtain ⟨keyLen, size⟩ := found
      obtain ⟨hstart, hstartNat⟩ := @keyStart_eq overflowChecks _ keyOffset _ _ hvarint
      have hfits := h keyLen size hvarint
      obtain ⟨hstop, hstopNat⟩ := @usizeAdd_eq overflowChecks
        (keyOffset.toUInt64 + UInt64.ofNat size) keyLen (by rw [hstartNat]; omega)
      rw [hstartNat] at hstopNat
      dsimp only
      rw [hstart]
      dsimp only
      rw [hstop]
      dsimp only
      rw [hstopNat]
      by_cases hpast : keyOffset.toNat + size + keyLen.toNat > kvBytes.length
      · rw [if_pos hpast, if_pos hpast]
      · rw [if_neg hpast, if_neg hpast, sliceRange, if_neg, if_neg (by omega), hstartNat, hstopNat,
          Nat.add_sub_cancel_left]
        rw [UInt64.lt_iff_toNat_lt, hstartNat, hstopNat]
        omega

/-- With one, the sum panics; or it wraps around to a position in front of the key, which passes
the check and fails as the end of a slice. -/
theorem readKeyFromKvUsize_panics {overflowChecks : Bool} {kvBytes : Bytes} {keyOffset : UInt16}
    (h : ¬ KeyLenFits kvBytes keyOffset) :
    ∃ panic, readKeyFromKvUsize overflowChecks kvBytes keyOffset = .error panic := by
  have hofs : keyOffset.toUInt64.toNat = keyOffset.toNat := UInt16.toNat_toUInt64 _
  unfold KeyLenFits at h
  push Not at h
  obtain ⟨keyLen, size, hvarint, hover⟩ := h
  have hsize := decodeVarint_size hvarint
  have hlt := keyLen.toNat_lt
  have hofsLt := keyOffset.toNat_lt
  rw [List.length_drop] at hsize
  obtain ⟨hstart, hstartNat⟩ := @keyStart_eq overflowChecks _ keyOffset _ _ hvarint
  rw [readKeyFromKvUsize]
  simp only [bind, Except.bind, pure, Except.pure, hofs]
  rw [if_neg (by omega), sliceFrom_eq (by omega), hofs]
  dsimp only
  rw [hvarint]
  dsimp only
  rw [hstart]
  dsimp only
  cases overflowChecks with
  -- with overflow checks the sum itself panics
  | true =>
      rw [usizeAdd, if_pos ⟨rfl, by omega⟩]
      exact ⟨_, rfl⟩
  -- without them it is too small to be the end of a slice that starts at the offset
  | false =>
      have hstopNat : (keyOffset.toUInt64 + UInt64.ofNat size + keyLen).toNat
          = keyOffset.toNat + size + keyLen.toNat - 2 ^ 64 := by
        rw [UInt64.toNat_add, hstartNat]
        omega
      rw [usizeAdd, if_neg (by simp)]
      dsimp only
      rw [if_neg (by omega), sliceRange,
        if_pos (by rw [UInt64.lt_iff_toNat_lt, hstartNat, hstopNat]; omega)]
      exact ⟨_, rfl⟩

theorem readKeyFromKv_infix {kvBytes key : Bytes} {keyOffset : UInt16}
    (h : readKeyFromKv kvBytes keyOffset = some key) : key <:+: kvBytes := by
  unfold readKeyFromKv at h
  dsimp only at h
  split at h
  · cases h
  split at h
  · cases h
  split at h
  · cases h
  · cases h
    exact (List.take_prefix _ _).isInfix.trans (List.drop_suffix _ _).isInfix

section

variable [Crates]

/-- **When the accessors of a decoded record are safe**: exactly when the sum of the key's offset
and its length does not overflow. The key's offset is checked when a record is decoded, the length
in front of the key is not; a sum that overflows ends in a panic, with overflow checks in the
addition and without them in the slice. -/
theorem accessors_safe_iff (overflowChecks : Bool) (d : Bytes) (r : KvWalRecord) (n : Nat)
    (_ : deserialize d = .ok (r, n)) :
    (∃ key revision, readKeyFromKvUsize overflowChecks r.kvBytes r.keyOffset = .ok key ∧
      readModRevisionFromKvUsize overflowChecks r.kvBytes r.modRevOffset = .ok revision ∧
      ∀ k, key = some k → k <:+: r.kvBytes) ↔
    ∀ keyLen size, decodeVarint (r.kvBytes.drop r.keyOffset.toNat) = some (keyLen, size) →
      r.keyOffset.toNat + size + keyLen.toNat < 2 ^ 64 := by
  constructor
  · intro h
    obtain ⟨key, revision, hkey, -, -⟩ := h
    by_contra hover
    -- past the end the slice panics, whether additions wrap or not
    obtain ⟨panic, hpanic⟩ := @readKeyFromKvUsize_panics overflowChecks _ _ hover
    rw [hpanic] at hkey
    cases hkey
  · intro h
    exact ⟨_, _, readKeyFromKvUsize_eq h, readModRevisionFromKvUsize_eq _ _ _,
      fun k hk => readKeyFromKv_infix hk⟩

/-- A record with a valid checksum whose blob starts with the varint 2⁶⁴ - 1. -/
def maxKeyLenRecord : KvWalRecord :=
  let r : KvWalRecord :=
    { flags := 0, kvBytes := List.replicate 9 0xff ++ [0x01], keyOffset := 0, modRevOffset := 0,
      recLen := 23, crc := 0 }
  { r with crc := crc32c (r.header ++ r.kvBytes) }

theorem wellFormed_maxKeyLenRecord : maxKeyLenRecord.WellFormed where
  recLen_eq := rfl
  crc_eq := rfl
  keyOffset_lt := by
    show 0 < (List.replicate 9 0xff ++ [0x01] : Bytes).length
    decide
  modRevOffset_le := by
    show 0 + 10 ≤ (List.replicate 9 0xff ++ [0x01] : Bytes).length
    decide

end

theorem accessors_safe_iff_maxKeyLen :
    (∃ key revision, readKeyFromKvUsize false maxKeyLenRecord.kvBytes maxKeyLenRecord.keyOffset
        = .ok key ∧
      readModRevisionFromKvUsize false maxKeyLenRecord.kvBytes maxKeyLenRecord.modRevOffset
        = .ok revision ∧
      ∀ k, key = some k → k <:+: maxKeyLenRecord.kvBytes) ↔
    ∀ keyLen size, decodeVarint (maxKeyLenRecord.kvBytes.drop maxKeyLenRecord.keyOffset.toNat)
        = some (keyLen, size) →
      maxKeyLenRecord.keyOffset.toNat + size + keyLen.toNat < 2 ^ 64 :=
  accessors_safe_iff false maxKeyLenRecord.serialize maxKeyLenRecord 23
    (deserialize_serialize wellFormed_maxKeyLenRecord)

/-- Its key panics in either build. -/
theorem maxKeyLen_panics :
    ¬ ∀ (d : Bytes) (r : KvWalRecord) (n : Nat), deserialize d = .ok (r, n) →
      ∃ overflowChecks key,
        readKeyFromKvUsize overflowChecks r.kvBytes r.keyOffset = .ok key := by
  intro h
  obtain ⟨overflowChecks, key, hkey⟩ := h maxKeyLenRecord.serialize maxKeyLenRecord 23
    (deserialize_serialize wellFormed_maxKeyLenRecord)
  have hrelease : readKeyFromKvUsize false maxKeyLenRecord.kvBytes maxKeyLenRecord.keyOffset
      = .error (.sliceOrder 10 9) := rfl
  have hdebug : readKeyFromKvUsize true maxKeyLenRecord.kvBytes maxKeyLenRecord.keyOffset
      = .error .addOverflow := rfl
  cases overflowChecks with
  | true => rw [hdebug] at hkey; cases hkey
  | false => rw [hrelease] at hkey; cases hkey

end Rudurru
