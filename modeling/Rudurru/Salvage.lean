import Rudurru.Lib.Resync
import Rudurru.Reference
import Rudurru.Storage.Legacy

/-!
# Rudurru.Salvage

The offline tools for files in the legacy format: `src/bin/waldoctor.rs` and
`src/bin/walverify.rs`, which report what a file holds, and `src/bin/walrecover.rs`, which writes it
to a new one. Each has its own `scan_wal`, the same loop but for one line. Behind a checksum error
the first two go on one byte behind the start of the candidate, the third at its end.

In front of the first damage all three read what the migration reads (`readOldRecords_prefix`).
Behind it the third can lose records that the first two see: exactly when a corrupt candidate claims
a length that covers one (`walrecover_finds_iff`).

The comparison is made on tapes (`Lib.Resync`). A file is a tape on which every position shows a
record, a candidate that fails its check, or nothing; the doctor resumes one byte behind the start
of a corrupt candidate and misses nothing, the recovery tool resumes at its end and misses what the
candidate covers. A candidate claims its own length, so it is easy to make one that hides a record.
-/

namespace Rudurru

open Resync (Resume Sight Tape)

namespace Salvage

/-! ### A candidate -/

/-- `HEADER_SIZE`. -/
def HEADER_SIZE : Nat := 23

/-- The tools have their own `crc32c`, a bitwise loop. -/
def crc32c (data : Bytes) : UInt32 := data.foldl Reference.crcByte 0xffffffff ^^^ 0xffffffff

/-- The checksum is compared, over everything from the flags to the end of the candidate. -/
def checked (h : WalRecord.Header) (pos next : Nat) (record : WalRecord) : Sight WalRecord :=
  if crc32c (h.flags :: h.body.take (next - (pos + HEADER_SIZE))) ≠ h.storedCrc then .corrupt next
  else .record record next

/-- One round of the loop of `scan_wal` at `pos`, up to the comparison of the checksums. -/
def candidate (buf : Bytes) (pos : Nat) : Sight WalRecord :=
  match WalRecord.readHeader (buf.drop pos) with
  | none => .stop
  | some h =>
      if h.magic ≠ MAGIC then .junk
      else
        let payloadLen := h.keyLen.toNat + h.valLen.toNat
        let payloadEnd := pos + HEADER_SIZE + payloadLen
        let record : WalRecord :=
          { revision := h.revision
            key := h.body.take h.keyLen.toNat
            value := (h.body.drop h.keyLen.toNat).take h.valLen.toNat
            flags := h.flags
            leaseId := none }
        if buf.length < payloadEnd then .stop
        else if record.hasLease then
          -- only the doctor keeps the lease, the other two skip it
          if buf.length < payloadEnd + 8 then .stop
          else
            checked h pos (payloadEnd + 8)
              { record with
                leaseId := (readU64Le (h.body.drop payloadLen)).map fun lid => lid.1.toInt64 }
        else checked h pos payloadEnd record

/-! ### The loop -/

/-- `records`, each with the offset where it starts, `total` and `crc_errors`. -/
structure Scan where
  found : List (Nat × WalRecord) := []
  total : Nat := 0
  crcErrors : Nat := 0
  deriving DecidableEq, Repr

def Scan.records (s : Scan) : List WalRecord := s.found.map (·.2)

/-- The loop of `scan_wal`. Every round goes forward, so the length of the file is fuel enough. -/
def scanLoop (buf : Bytes) (resume : Resume) : Nat → Nat → Scan → Scan
  | 0, _, s => s
  | fuel + 1, pos, s =>
      match candidate buf pos with
      | .junk => scanLoop buf resume fuel (pos + 1) s
      | .stop => s
      | .corrupt next =>
          scanLoop buf resume fuel (resume.place pos next) { s with crcErrors := s.crcErrors + 1 }
      | .record r next =>
          scanLoop buf resume fuel next
            { s with found := s.found ++ [(pos, r)], total := s.total + 1 }

def scan (buf : Bytes) (resume : Resume) : Scan := scanLoop buf resume (buf.length + 1) 0 {}

end Salvage

open Salvage

/-- `WalEntry`: a record without its lease. -/
abbrev WalEntry := UInt64 × Bytes × Bytes × UInt8

def WalRecord.toWalEntry (r : WalRecord) : WalEntry := (r.revision, r.key, r.value, r.flags)

/-- `scan_wal` of the doctor, on the contents of the file: `(records, crc_errors, total)`. -/
def Waldoctor.scanWal (buf : Bytes) : List WalRecord × Nat × Nat :=
  let s := scan buf .byteByByte
  (s.records, s.crcErrors, s.total)

/-- `scan_wal` of the verifier: `(records, total, crc_errors)`. -/
def Walverify.scanWal (buf : Bytes) : List WalEntry × Nat × Nat :=
  let s := scan buf .byteByByte
  (s.records.map WalRecord.toWalEntry, s.total, s.crcErrors)

/-- `scan_wal` of the recovery tool: `(records, total)`. -/
def Walrecover.scanWal (buf : Bytes) : List WalEntry × Nat :=
  let s := scan buf .pastCandidate
  (s.records.map WalRecord.toWalEntry, s.total)

namespace Salvage

/-! ### The file as a tape -/

theorem crc32c_eq (data : Bytes) : crc32c data = Reference.crc data := by
  have hxor : ∀ c : UInt32, c ^^^ 0xffffffff = ~~~ c := fun c => UInt32.xor_neg_one
  rw [crc32c, hxor]
  rfl

/-- What a round of the loop can find. Behind a magic number the candidate lies in the file. -/
theorem candidate_cases (buf : Bytes) (pos : Nat) :
    candidate buf pos = .stop ∨ candidate buf pos = .junk ∧ pos < buf.length ∨
      ∃ h next record, candidate buf pos = checked h pos next record ∧ pos < next ∧
        next ≤ buf.length := by
  unfold candidate
  cases hread : WalRecord.readHeader (buf.drop pos) with
  | none => exact .inl rfl
  | some h =>
      have hlen := (WalRecord.readHeader_extend hread []).1
      rw [List.length_drop] at hlen
      dsimp only
      split
      · exact .inr (.inl ⟨rfl, by omega⟩)
      split
      · exact .inl rfl
      split
      · split
        · exact .inl rfl
        · exact .inr (.inr ⟨h, _, _, rfl, by simp only [HEADER_SIZE]; omega, by omega⟩)
      · exact .inr (.inr ⟨h, _, _, rfl, by simp only [HEADER_SIZE]; omega, by omega⟩)

/-- A candidate that is compared lies in the file, whatever comes of it. -/
theorem candidate_ends {buf : Bytes} {pos next : Nat}
    (h : candidate buf pos = .corrupt next ∨ ∃ r, candidate buf pos = .record r next) :
    pos < next ∧ next ≤ buf.length := by
  rcases candidate_cases buf pos with hcase | ⟨hcase, -⟩ | ⟨header, n, record, hcase, hends⟩
  · simp [hcase] at h
  · simp [hcase] at h
  · rw [hcase, checked] at h
    have hnext : n = next := by
      split at h
      · simpa using h
      · simpa using h
    exact hnext ▸ hends

/-- A file as the tools see it. -/
def tape (buf : Bytes) : Tape WalRecord where
  length := buf.length
  sight := candidate buf
  junk_lt := by
    intro pos h
    rcases candidate_cases buf pos with hcase | ⟨-, hlt⟩ | ⟨header, n, record, hcase, hlt, hle⟩
    · rw [hcase] at h
      cases h
    · exact hlt
    · exact Nat.lt_of_lt_of_le hlt hle
  corrupt_ends := fun h => candidate_ends (.inl h)
  record_ends := fun h => candidate_ends (.inr ⟨_, h⟩)

/-- The loop finds what is read from the tape, and counts it. -/
theorem scanLoop_eq (buf : Bytes) (resume : Resume) (fuel : Nat) (pos : Nat) (s : Scan) :
    (scanLoop buf resume fuel pos s).found = s.found ++ (tape buf).scan resume fuel pos ∧
      (scanLoop buf resume fuel pos s).total
        = s.total + ((tape buf).scan resume fuel pos).length := by
  induction fuel generalizing pos s with
  | zero => simp [scanLoop, Tape.scan]
  | succ fuel ih =>
      rw [scanLoop, Tape.scan, show (tape buf).sight pos = candidate buf pos from rfl]
      cases hsight : candidate buf pos with
      | junk => exact ih (pos + 1) s
      | stop => simp
      | corrupt next => exact ih _ _
      | record r next =>
          obtain ⟨hfound, htotal⟩ := ih next
            { s with found := s.found ++ [(pos, r)], total := s.total + 1 }
          constructor
          · rw [hfound, List.append_assoc, List.singleton_append]
          · rw [htotal, List.length_cons, Nat.add_assoc, Nat.add_comm 1]

theorem found_scan (buf : Bytes) (resume : Resume) :
    (scan buf resume).found = (tape buf).read resume 0 :=
  (scanLoop_eq buf resume _ 0 {}).1

theorem total_scan (buf : Bytes) (resume : Resume) :
    (scan buf resume).total = (scan buf resume).records.length := by
  rw [Scan.records, List.length_map, found_scan]
  exact (scanLoop_eq buf resume _ 0 {}).2.trans (Nat.zero_add _)

/-! ### The same records as the migration -/

/-- At every offset the tools accept what `WalRecord::deserialize` reads from there on. -/
theorem candidate_eq_record_iff {buf : Bytes} {pos n : Nat} {r : WalRecord} :
    candidate buf pos = .record r (pos + n) ↔
      WalRecord.deserialize (buf.drop pos) = .ok (r, n) := by
  unfold candidate WalRecord.deserialize
  cases hread : WalRecord.readHeader (buf.drop pos) with
  | none => simp
  | some h =>
      have hlen := (WalRecord.readHeader_extend hread []).1
      rw [List.length_drop] at hlen
      have hshort (k : Nat) : buf.length < pos + HEADER_SIZE + k ↔ h.body.length < k := by
        simp only [HEADER_SIZE]
        omega
      have hsub (k : Nat) : pos + HEADER_SIZE + k - (pos + HEADER_SIZE) = k := by omega
      dsimp only
      -- the two read the same fields in the same order, and give up at the same ones
      by_cases hmagic : h.magic ≠ MAGIC
      · simp [hmagic]
      rw [if_neg hmagic, if_neg hmagic]
      by_cases hpayload : h.body.length < h.keyLen.toNat + h.valLen.toNat
      · simp [hshort, hpayload]
      rw [if_neg (by rw [hshort]; exact hpayload), if_neg hpayload]
      -- with a lease the trailer has eight bytes more
      split
      · rw [Nat.add_assoc _ _ 8]
        cases hlid : readU64Le (h.body.drop (h.keyLen.toNat + h.valLen.toNat)) with
        | none =>
            rw [readU64Le_eq_none_iff, List.length_drop] at hlid
            rw [if_pos (by rw [hshort]; omega)]
            simp
        | some lid =>
            have hlease := (readU64Le_extend hlid []).1
            rw [List.length_drop] at hlease
            rw [if_neg (by rw [hshort]; omega), checked, hsub, crc32c_eq]
            show _ ↔ (if Reference.crc _ ≠ _ then _ else _) = _
            split
            · simp
            · simp [HEADER_SIZE]
              omega
      · rw [checked, hsub, crc32c_eq]
        show _ ↔ (if Reference.crc _ ≠ _ then _ else _) = _
        split
        · simp
        · simp [HEADER_SIZE]
          omega

/-- The migration stops quietly or reads a record. -/
theorem readOldStep_cases (rest : Bytes) :
    readOldStep rest = .stop ∨
      ∃ r n, WalRecord.deserialize rest = .ok (r, n) ∧ readOldStep rest = .record r n := by
  unfold readOldStep
  split
  · exact .inl rfl
  cases hread : WalRecord.deserialize rest with
  | error e => exact .inl rfl
  | ok x => exact .inr ⟨x.1, x.2, rfl, rfl⟩

/-- From wherever the migration starts, the tools read the same up to where it stops. -/
theorem read_eq_append (buf : Bytes) (resume : Resume) (fuel : Nat) : ∀ pos, ∃ pos',
    (FramedLog.scan readOldStep fuel (buf.drop pos) pos).2 = .ok pos' ∧
      ((tape buf).read resume pos).map (·.2)
        = (FramedLog.scan readOldStep fuel (buf.drop pos) pos).1
          ++ ((tape buf).read resume pos').map (·.2) := by
  induction fuel with
  | zero => exact fun pos => ⟨pos, rfl, rfl⟩
  | succ fuel ih =>
      intro pos
      rw [FramedLog.scan]
      rcases readOldStep_cases (buf.drop pos) with hstep | ⟨r, n, hread, hstep⟩
      · rw [hstep]
        exact ⟨pos, rfl, rfl⟩
      · rw [hstep]
        obtain ⟨pos', hend, hrest⟩ := ih (pos + n)
        have hsight : (tape buf).sight pos = .record r (pos + n) :=
          candidate_eq_record_iff.mpr hread
        rw [Tape.read_of_record hsight, List.map_cons, hrest]
        dsimp only
        rw [List.drop_drop]
        exact ⟨pos', hend, rfl⟩

/-- **In front of the first damage** every tool finds what the migration reads. Up to there all
candidates are records, and every reader goes on at their ends. -/
theorem readOldRecords_prefix (buf : Bytes) (resume : Resume) :
    readOldRecords buf <+: (scan buf resume).records := by
  obtain ⟨pos, -, hread⟩ := read_eq_append buf resume (buf.length + 1) 0
  rw [Scan.records, found_scan, hread]
  exact List.prefix_append _ _

/-- **Of an undamaged file** every tool finds all records. -/
theorem records_scan_legacyFile {rs : List WalRecord} (h : ∀ r ∈ rs, r.Storable)
    (resume : Resume) : (scan (legacyFile rs) resume).records = rs := by
  obtain ⟨pos, hend, hread⟩ :=
    read_eq_append (legacyFile rs) resume ((legacyFile rs).length + 1) 0
  have hlen : rs.length ≤ (legacyFile rs).length + 1 :=
    Nat.le_succ_of_le (legacyFraming.length_le_length_encodeAll h)
  have hscan : FramedLog.scan readOldStep ((legacyFile rs).length + 1) (legacyFile rs) 0
      = (rs, .ok (0 + (legacyFile rs).length)) := legacyFraming.scan_encodeAll h rfl hlen 0
  rw [List.drop_zero, hscan, Nat.zero_add] at hend
  cases hend
  have hstop : (tape (legacyFile rs)).sight (legacyFile rs).length = .stop := by
    show candidate _ _ = _
    rw [candidate, List.drop_length]
    rfl
  rw [Scan.records, found_scan, hread, List.drop_zero, hscan, Tape.read_of_stop hstop,
    List.map_nil, List.append_nil]

end Salvage

/-! ### The doctor and the recovery tool -/

/-- The verifier sees what the doctor sees, leases apart, and each tool reports how many records it
returns. -/
theorem scanWal_totals (buf : Bytes) :
    (Walverify.scanWal buf).1 = (Waldoctor.scanWal buf).1.map WalRecord.toWalEntry ∧
      (Waldoctor.scanWal buf).2.2 = (Waldoctor.scanWal buf).1.length ∧
      (Walverify.scanWal buf).2.1 = (Walverify.scanWal buf).1.length ∧
      (Walrecover.scanWal buf).2 = (Walrecover.scanWal buf).1.length := by
  simp only [Waldoctor.scanWal, Walverify.scanWal, Walrecover.scanWal, List.length_map, total_scan,
    and_self]

/-- No candidate with a wrong checksum hides a record. The two tools are in step up to the first
such candidate with anything but bytes to pass over before its end. -/
def NothingHidden (buf : Bytes) : Prop := (tape buf).NothingHidden .pastCandidate

/-- No entry stands at two offsets of the file. -/
def EntriesDiffer (buf : Bytes) : Prop :=
  ∀ p q r s m n, candidate buf p = .record r m → candidate buf q = .record s n →
    r.toWalEntry = s.toWalEntry → p = q

/-- The entries that are found, with the offsets. -/
def Salvage.Scan.located (s : Scan) : List (Nat × WalEntry) :=
  s.found.map fun x => (x.1, x.2.toWalEntry)

theorem Salvage.located_sublist_iff (buf : Bytes) :
    (scan buf .byteByByte).located.Sublist (scan buf .pastCandidate).located ↔
      NothingHidden buf := by
  rw [NothingHidden, ← Tape.read_sublist_iff, Scan.located, Scan.located, found_scan, found_scan]
  constructor
  · intro h
    refine Tape.sublist_of_map_sublist ?_ h
    intro p q r s m n _ _ heq
    exact congrArg Prod.fst heq
  · exact fun h => h.map _

/-- **When the recovery tool finds all that the doctor sees**, for every file: exactly when nothing
is hidden. Record by record, at their offsets, this is an equivalence. By their contents it is one
where no entry occurs twice; elsewhere a copy may stand in for the record that is lost. -/
theorem walrecover_finds_iff (buf : Bytes) :
    ((scan buf .byteByByte).located.Sublist (scan buf .pastCandidate).located ↔
      NothingHidden buf) ∧
    (NothingHidden buf →
      ((Waldoctor.scanWal buf).1.map WalRecord.toWalEntry).Sublist (Walrecover.scanWal buf).1) ∧
    (EntriesDiffer buf →
      (((Waldoctor.scanWal buf).1.map WalRecord.toWalEntry).Sublist (Walrecover.scanWal buf).1 ↔
        NothingHidden buf)) := by
  have hcontents (resume : Resume) : (scan buf resume).records.map WalRecord.toWalEntry
      = (scan buf resume).located.map (·.2) := by
    simp only [Scan.records, Scan.located, List.map_map, Function.comp_def]
  have henough (h : NothingHidden buf) :
      ((Waldoctor.scanWal buf).1.map WalRecord.toWalEntry).Sublist (Walrecover.scanWal buf).1 := by
    simp only [Waldoctor.scanWal, Walrecover.scanWal, hcontents]
    exact ((located_sublist_iff buf).mpr h).map _
  -- without two equal entries the contents tell the offsets
  refine ⟨located_sublist_iff buf, henough, fun hdiffer => ⟨fun hsub => ?_, henough⟩⟩
  simp only [Waldoctor.scanWal, Walrecover.scanWal, Scan.records, found_scan, List.map_map] at hsub
  exact Tape.read_sublist_iff.mp
    (Tape.sublist_of_map_sublist (f := fun x => x.2.toWalEntry) hdiffer hsub)

/-- Two records, the key length of the first one damaged so that it covers the second one too. The
doctor still sees the second record, the recovery tool does not. -/
theorem walrecover_loses_record :
    let put : UInt64 → UInt8 → WalRecord := fun revision key =>
      { revision, key := [key], value := [], flags := IS_CREATE, leaseId := none }
    let buf := (legacyFile [put 1 97, put 2 98]).set 14 25
    (Waldoctor.scanWal buf).1 = [put 2 98] ∧ (Walrecover.scanWal buf).1 = [] ∧
      ¬ ((Waldoctor.scanWal buf).1.map WalRecord.toWalEntry).Sublist
        (Walrecover.scanWal buf).1 := by
  decide +kernel

end Rudurru
