import Rudurru.Recovery

/-!
# Rudurru.Forgery

What a record that does not fit its format can do. A put that inherits a lease writes a record 41
bytes longer than its request, so a request within the 4 GiB of a frame can make a record of
`2 ^ 32 + 40` bytes, whose `rec_len` is 40. The scan then cuts the record after 40 bytes, of which
the last three are the client's, enough to make the checksum right; and it goes on in the value,
where it finds whatever record the client has put there (`forging_restarts`).

This is why the theorems about files ask for records that fit their format. The client needs no
access to the file: a lease, a value of the right length and three bytes at the right place will do,
and the record that is replayed is one that no request has ever made.
-/

namespace Rudurru

open Prog (exec)

/-- The first 40 bytes of the last put of `forging`, read as a record. -/
def cutRecord : KvWalRecord :=
  { flags := HAS_LEASE
    kvBytes := [0x0a, 0x81, 0x80, 0x80, 0x80, 0x00, 49, 0x10, 1, 0x18, 0x83, 0x80, 0x80, 0x80,
      0x80, 0x80, 0x80, 0x80, 0x80, 0x00, 0x20, 3, 0x2a, 0xf4, 0xff, 0xff, 0xff]
    keyOffset := 1
    modRevOffset := 10
    recLen := 40
    crc := 0xe52bc40f }

/-- The value of that put: the end of the checksum, a record of 43 bytes, and a header that stops
the scan. -/
def forgedValue (forged : KvWalRecord) : Bytes :=
  [196, 43, 229] ++ forged.serialize ++ List.replicate 9 0xff ++ List.replicate (2 ^ 32 - 67) 0

/-- A lease, a key with that lease, updated once. -/
def forgingPrelude : List Event :=
  [.request (.leaseGrant 0 (-1) 60), .request (.put { key := [49], lease := -1 }),
    .request (.put { key := [49], lease := -1 })]

/-- Then a put that inherits the lease, and a restart. -/
def forging (forged : KvWalRecord) : List Event :=
  forgingPrelude ++
    [.request (.put { key := [49], value := forgedValue forged, ignoreLease := true }), .restart 0]

/-- What a scan reads of the WAL. -/
def forgedLog (forged : KvWalRecord) : List KvWalRecord :=
  [.new (IS_CREATE ||| HAS_LEASE) [49] [] 1 1 1 (-1), .new HAS_LEASE [49] [] 1 2 2 (-1), cutRecord,
    forged]

theorem length_forgedValue {forged : KvWalRecord} (h : forged.serialize.length = 43) :
    (forgedValue forged).length = 2 ^ 32 - 12 := by
  rw [forgedValue, List.length_append, List.length_append, List.length_append, h,
    List.length_replicate, List.length_replicate]
  norm_num

theorem wellFormed_forgedLog {forged : KvWalRecord} (h : forged.WellFormed) :
    ∀ r ∈ forgedLog forged, r.WellFormed := by
  intro r hr
  simp only [forgedLog, List.mem_cons, List.not_mem_nil, or_false] at hr
  rcases hr with rfl | rfl | rfl | rfl
  · exact ⟨by decide, by decide +kernel, by decide, by decide⟩
  · exact ⟨by decide, by decide +kernel, by decide, by decide⟩
  · exact ⟨by decide, by decide +kernel, by decide, by decide⟩
  · exact h

/-- A header with the largest length stops the scan of a shorter file. -/
theorem scanKvStep_replicate [Crates] {rest : Bytes} (h : rest.length + 9 < 2 ^ 32 - 1) :
    scanKvStep (List.replicate 9 0xff ++ rest) = .stop := by
  have hlen : (u32FromLeBytes 0xff 0xff 0xff 0xff).toNat = 2 ^ 32 - 1 := by decide
  simp only [List.replicate, List.cons_append, List.nil_append, scanKvStep, hlen, List.length_cons]
  rw [if_neg (by decide), if_pos (by omega)]

/-- The record of the put, for any value of that length. -/
theorem serialize_inherited {value : Bytes} (h : value.length = 2 ^ 32 - 12) :
    ∃ t : Bytes, (KvWalRecord.new HAS_LEASE [49] value 1 3 3 (-1)).serialize
      = cutRecord.header ++ cutRecord.kvBytes ++ [0x0f] ++ value ++ t ∧ t.length = 15 := by
  have hlen : (encodeKv [49] value 1 3 3 (-1)).1.length = 39 + value.length := by
    rw [length_encodeKv, show (kvHead [49] 1).length = 10 by decide]
    simp only [kvTail, List.length_append, length_encodeOverlongU32, List.length_singleton,
      show (encodeVarint (3 : Int64).toUInt64).length = 1 by decide,
      show (encodeVarint (-1 : Int64).toUInt64).length = 10 by decide]
    omega
  have hrec : (KvWalRecord.new HAS_LEASE [49] value 1 3 3 (-1)).recLen = 40 := by
    show UInt32.ofNat (kvHeaderSize + (encodeKv [49] value 1 3 3 (-1)).1.length + kvCrcSize) = 40
    rw [hlen, h]
    rfl
  have hheader : (KvWalRecord.new HAS_LEASE [49] value 1 3 3 (-1)).header = cutRecord.header := by
    rw [KvWalRecord.header, hrec]
    rfl
  have hvalue : encodeOverlongU32 (UInt32.ofNat value.length) = [0xf4, 0xff, 0xff, 0xff, 0x0f] := by
    rw [h]
    decide +kernel
  have hblob : kvHead [49] 1 ++ encodeOverlongU64 (3 : Int64).toUInt64
      ++ ([0x20] ++ encodeVarint (3 : Int64).toUInt64 ++ [0x2a] ++ [0xf4, 0xff, 0xff, 0xff, 0x0f])
      = cutRecord.kvBytes ++ [0x0f] := by decide +kernel
  refine ⟨[0x30] ++ encodeVarint (-1 : Int64).toUInt64
    ++ u32ToLeBytes (KvWalRecord.new HAS_LEASE [49] value 1 3 3 (-1)).crc, ?_, rfl⟩
  rw [KvWalRecord.serialize, hheader, kvBytes_new, encodeKv, kvTail, hvalue,
    List.append_assoc cutRecord.header cutRecord.kvBytes, ← hblob]
  simp only [List.append_assoc]

/-- The scan of the WAL reads the forged record. -/
theorem scanKvFile_forged {forged : KvWalRecord} (hwf : forged.WellFormed)
    (h : forged.serialize.length = 43) :
    ∃ n, scanKvFile (serializeAll ((forgedLog forged).take 2)
      ++ (KvWalRecord.new HAS_LEASE [49] (forgedValue forged) 1 3 3 (-1)).serialize) 0
        = (forgedLog forged, .ok n) := by
  obtain ⟨t, ht, hlen⟩ := serialize_inherited (length_forgedValue h)
  have hstop : scanKvStep (List.replicate 9 0xff ++ (List.replicate (2 ^ 32 - 67) 0 ++ t))
      = .stop := by
    refine scanKvStep_replicate ?_
    rw [List.length_append, List.length_replicate, hlen]
    norm_num
  have hcut : cutRecord.serialize
      = cutRecord.header ++ cutRecord.kvBytes ++ [0x0f, 196, 43, 229] := by
    decide +kernel
  refine ⟨_, Eq.trans (congrArg (scanKvFile · 0) ?_)
    (scanKvFile_append_of_stop (wellFormed_forgedLog hwf) hstop)⟩
  rw [ht, forgedValue]
  simp only [forgedLog, List.take_succ_cons, List.take_zero, serializeAll, FramedLog.encodeAll,
    List.flatMap_cons, List.flatMap_nil, hcut, List.append_assoc, List.cons_append, List.nil_append]

/-- A put that inherits the lease of its key. -/
theorem answer_put_inherited [Crates] {s : StoreState} {key : Bytes} {p : KeyState}
    (hkey : key ≠ []) (halive : s.alive? key = some p)
    (hlease : s.leases.contains p.lease = true) (hs : s.wal.faults = []) (value : Bytes) :
    ∃ s', answer s (.put { key, value, ignoreLease := true }) = some s' ∧
      s'.wal.contents
        = s.wal.contents ++ (putRecord key value p.lease s.nextRev (some p)).serialize := by
  have halive' : aliveIn s.keys key = some p := halive
  have hvalid : validatePut { key, value, ignoreLease := true } s = .ok () := by
    simp [validatePut, checkKey, hkey, halive, putLease, hlease]
  simp only [answer, handle, put, putAt, StoreM.read, Prog.exec_bind, Prog.exec_get, hvalid,
    Prog.exec_pure, allocRevision, Prog.exec_modifyGet, StoreState.alive?, halive', putLease,
    putValue, appendKv, apply, WalFile.appendKv, WalFile.writeAll]
  simp [hlease, Prog.exec_bind, hs, StoreState.notifyWatchers]
  exact ⟨_, rfl, rfl⟩

/-- **The restart replays the forged record.** -/
theorem forging_restarts {forged : KvWalRecord} (hwf : forged.WellFormed)
    (h : forged.serialize.length = 43) {K : Keyspace}
    (hK : Keyspace.empty.replayAll? (replayed (forgedLog forged)) = some K) :
    ∃ contents, System.run ⟨fresh, none⟩ (forging forged)
      = some ⟨opened 0 contents (forgedLog forged) K, none⟩ := by
  have hbefore : (System.run ⟨fresh, none⟩ forgingPrelude).any (fun sys =>
      decide (sys.store.wal.contents
        = serializeAll [.new (IS_CREATE ||| HAS_LEASE) [49] [] 1 1 1 (-1),
            .new HAS_LEASE [49] [] 1 2 2 (-1)]) &&
        sys.store.wal.faults.isEmpty && sys.store.leases.contains (-1) &&
        decide (sys.store.nextRev = 3) && (sys.store.alive? [49]).any fun p =>
          p.lease = -1 && p.createRevision = 1 && p.version = 2) = true := by
    decide +kernel
  obtain ⟨sys, hsys, hfacts⟩ := (Option.any_eq_true _ _).mp hbefore
  simp only [Bool.and_eq_true, decide_eq_true_eq, List.isEmpty_iff] at hfacts
  obtain ⟨⟨⟨⟨hcontents, hfaults⟩, hlease⟩, hnext⟩, hfacts⟩ := hfacts
  obtain ⟨p, halive, hp⟩ := (Option.any_eq_true _ _).mp hfacts
  simp only [Bool.and_eq_true, decide_eq_true_eq] at hp
  obtain ⟨⟨hpl, hpc⟩, hpv⟩ := hp
  have hkey : ([49] : Bytes) ≠ [] := by decide
  obtain ⟨s, hput, hs⟩ := answer_put_inherited hkey halive
    (by rw [hpl]; exact hlease) hfaults (forgedValue forged)
  -- `ignore_lease` puts the inherited id into the record, whatever the value is
  have hrecord : ∀ value, putRecord [49] value p.lease sys.store.nextRev (some p)
      = .new HAS_LEASE [49] value 1 3 3 (-1) := by
    intro value
    simp only [putRecord, hpl, hnext, Option.map_some, Option.getD_some, hpc, hpv,
      Option.isNone_some, Bool.false_eq_true, if_false]
    rw [if_pos (by decide), show (0 : UInt8) ||| HAS_LEASE = HAS_LEASE by decide,
      show UInt64.toInt64 1 = 1 by decide, show UInt64.toInt64 3 = 3 by decide,
      show (2 : Int64) + 1 = 3 by decide]
  -- the reader takes the head of the oversized record for a short one, and goes on inside its value
  have hopen : openStore 0 s.wal.contents
      = .ok (opened 0 s.wal.contents (forgedLog forged) K) := by
    obtain ⟨n, hscan⟩ := scanKvFile_forged hwf h
    refine openStore_of_scan (n := n) ?_ hK
    rw [hs, hcontents, hrecord]
    exact hscan
  have hstep : sys.step
      (.request (.put { key := [49], value := forgedValue forged, ignoreLease := true }))
      = some { sys with store := s } := by
    rw [System.step, hput]
    rfl
  have hrestart : System.run sys [.request
      (.put { key := [49], value := forgedValue forged, ignoreLease := true }), .restart 0]
      = some ⟨opened 0 s.wal.contents (forgedLog forged) K, none⟩ := by
    rw [System.run, Trace.run_cons, hstep, Option.bind_some, Trace.run_singleton, System.step,
      System.boot, hopen]
    rfl
  exact ⟨s.wal.contents, Trace.run_append_eq_some.mpr ⟨sys, hsys, hrestart⟩⟩

end Rudurru
