import Rudurru.Restart
import Rudurru.Server.WatchSound

/-!
# Rudurru.Discard

What `compact_wal` takes from history. A snapshot keeps the last record of every alive key and
nothing else, whatever the compaction watermark: earlier values, deletions and the records
between are gone from the file that historical ranges and watch replays read.

The file always tells when each alive key was last modified (`Journals`, kept by requests,
compactions and restarts), and that is what a snapshot preserves. So nothing changes for readers
at a revision from which on the file holds nothing but keys created and left alone
(`compact_wal_keeps_history`).

A reader of the file at revision `r` drops the records beyond `r` and takes the last one of each key
(`Lib.KeyedLog`). It cannot tell the compacted file from the old one if the records it drops stand
alone: each is the only one of its key, and so a creation. That is `KeepsHistory`, and it is a
condition on the file before the compaction. The proof then compares two logs, once for the ranges
and once for what a replay sends.
-/

namespace Rudurru

open Std (ExtTreeMap)

section

variable [Crates]

/-! ### Records of the server -/

/-- A record the server may have written: replay neither skips it nor files it under another
key. -/
structure KvWalRecord.Made (rec : KvWalRecord) : Prop where
  wellFormed : rec.WellFormed
  revision_ne : rec.revision ≠ 0
  named : ∃ key, rec.key = some key ∧ (rec.deleted = false → blobKey rec.kvBytes = some key)

/-- One record, replayed. -/
theorem modRevision_replay? {K K' : Keyspace} {rec : KvWalRecord} (hrec : rec.Made)
    (hK' : K.replay? rec = some K') (key : Bytes) :
    (aliveIn K'.keys key).map KeyState.modRevision
      = if rec.key = some key then (recordData rec).map Prod.fst
        else (aliveIn K.keys key).map KeyState.modRevision := by
  obtain ⟨recKey, hkey, hblob⟩ := hrec.named
  simp only [hkey, Option.some.injEq]
  unfold Keyspace.replay? at hK'
  cases hdel : rec.deleted with
  | true =>
      rw [hdel, if_pos rfl, hkey, Option.getD_some] at hK'
      rw [recordData, if_pos hdel]
      cases halive : aliveIn K.keys recKey with
      | none =>
          rw [halive] at hK'
          cases hK'
          split
          · next heq => rw [← heq, halive]; rfl
          · rfl
      | some prev =>
          rw [halive] at hK'
          obtain ⟨blob, -, rfl⟩ := Option.map_eq_some_iff.mp hK'
          split
          · next heq =>
              subst heq
              -- a revision of zero would leave the entry alive
              have hdead : ({ prev with deleteRevision := rec.revision } : KeyState).isAlive
                  = false := decide_eq_false hrec.revision_ne
              rw [Keyspace.apply, aliveIn_insert_self, hdead]
              rfl
          · next hne => rw [aliveIn_apply_of_ne (show Write.key (.delete _ _ _) ≠ key from hne)]
  | false =>
      obtain ⟨kv, hkv, rfl⟩ := Option.map_eq_some_iff.mp (hblob hdel)
      rw [hdel, if_neg Bool.false_ne_true, hkv] at hK'
      cases hK'
      rw [recordData, hdel, if_neg Bool.false_ne_true]
      by_cases hk : kv.key = key
      · subst hk
        rw [if_pos rfl, aliveIn_insert_self, if_pos isAlive_putEntry]
        rfl
      · rw [if_neg hk, aliveIn_insert_of_ne hk]

/-- The same of a list of records. -/
theorem modRevision_replayAll? {K K' : Keyspace} {recs : List KvWalRecord}
    (hrecs : ∀ rec ∈ recs, rec.Made) (hK' : K.replayAll? recs = some K') (key : Bytes) :
    (aliveIn K'.keys key).map KeyState.modRevision
      = KeyedLog.lastFrom KvWalRecord.key (fun rec => (recordData rec).map Prod.fst)
          ((aliveIn K.keys key).map KeyState.modRevision) recs (some key) := by
  induction recs generalizing K with
  | nil =>
      cases hK'
      rfl
  | cons rec recs ih =>
      rw [Keyspace.replayAll?_cons, Option.bind_eq_some_iff] at hK'
      obtain ⟨K₁, hK₁, hrest⟩ := hK'
      rw [ih (fun r hr => hrecs r (by simp [hr])) hrest, KeyedLog.lastFrom_cons,
        modRevision_replay? (hrecs rec (by simp)) hK₁]

/-- The records tell when every alive key was last modified. A key without records is not alive, and
neither is one whose last record is a tombstone. -/
structure Journals (recs : List KvWalRecord) (K : Keyspace) : Prop where
  made : ∀ rec ∈ recs, rec.Made
  last : ∀ key, (lastData recs key).map Prod.fst = (aliveIn K.keys key).map KeyState.modRevision

/-- Replayed records do. -/
theorem Journals.of_replay {recs : List KvWalRecord} {K : Keyspace}
    (hrecs : ∀ rec ∈ recs, rec.Made) (hK : Keyspace.empty.replayAll? recs = some K) :
    Journals recs K where
  made := hrecs
  last := by
    intro key
    rw [modRevision_replayAll? hrecs hK, lastData, ← KeyedLog.last_map]
    simp only [aliveIn, Keyspace.empty, ExtTreeMap.getElem?_empty]
    rfl

variable [LawfulCrates]

theorem Write.made_record {w : Write} (hfit : w.record.Fits) (hrev : w.rev ≠ 0) :
    w.record.Made := by
  obtain ⟨hwf, hkey, hrevision⟩ := Write.record_spec hfit
  refine ⟨hwf, by rw [hrevision]; exact hrev, w.key, hkey, ?_⟩
  intro hput
  cases w with
  | put key value lease rev prev =>
      obtain ⟨-, -, -, hdec⟩ := KvWalRecord.Fits.new_spec hfit
      exact congrArg (Option.map (·.key)) hdec
  | delete key rev prev =>
      rw [Write.record, deleted_deleteRecord] at hput
      cases hput

theorem made_snapshotRecord {key : Bytes} {ks : KeyState} (hfit : (snapshotRecord key ks).Fits)
    (hrev : ks.modRevision ≠ 0) : (snapshotRecord key ks).Made := by
  obtain ⟨hwf, hkey, -, hdec⟩ := KvWalRecord.Fits.new_spec hfit
  refine ⟨hwf, by rw [revision_snapshotRecord hfit]; exact hrev, key, hkey, ?_⟩
  intro _
  exact congrArg (Option.map (·.key)) hdec

/-- Writes are recorded. -/
theorem Journals.run {recs : List KvWalRecord} {K K' : Keyspace} {ws : List Write}
    (h : Journals recs K) (hrun : Keyspace.Run K ws K') (hfit : ∀ w ∈ ws, w.record.Fits)
    (hrev : ∀ w ∈ ws, w.rev ≠ 0) : Journals (recs ++ ws.map Write.record) K' where
  made := by
    intro rec hrec
    rcases List.mem_append.mp hrec with hrec | hrec
    · exact h.made rec hrec
    · obtain ⟨w, hw, rfl⟩ := List.mem_map.mp hrec
      exact Write.made_record (hfit w hw) (hrev w hw)
  last := by
    intro key
    rw [lastData, ← KeyedLog.last_map, KeyedLog.last_append]
    refine lastFrom_run Prod.fst hrun hfit hrev ?_
    rw [KeyedLog.last_map]
    exact h.last key

/-! ### Snapshots -/

section

variable {keys : ExtTreeMap Bytes KeyState}
  (hfit : ∀ e ∈ aliveEntries keys, (snapshotRecord e.1 e.2).Fits)

include hfit

/-- A snapshot has one record for each key. -/
theorem nodup_snapshot :
    (((aliveEntries keys).map fun e => snapshotRecord e.1 e.2).map KvWalRecord.key).Nodup := by
  have hkeys : ((aliveEntries keys).map fun e => snapshotRecord e.1 e.2).map KvWalRecord.key
      = ((aliveEntries keys).map (·.1)).map some := by
    rw [List.map_map, List.map_map]
    refine List.map_congr_left fun e he => ?_
    exact (KvWalRecord.Fits.new_spec (hfit e he)).2.1
  rw [hkeys]
  exact (nodup_aliveEntries keys).map (Option.some_injective _)

omit hfit [LawfulCrates] in
theorem isSome_recordData_snapshot :
    ∀ rec ∈ (aliveEntries keys).map fun e => snapshotRecord e.1 e.2, (recordData rec).isSome := by
  intro rec hrec
  obtain ⟨e, -, rfl⟩ := List.mem_map.mp hrec
  rw [recordData, deleted_snapshotRecord]
  rfl

theorem standalone_snapshot (r : UInt64) :
    Standalone r ((aliveEntries keys).map fun e => snapshotRecord e.1 e.2) :=
  KeyedLog.isolated_of_nodup (nodup_snapshot hfit) isSome_recordData_snapshot

/-- **What a snapshot says of each key.** One record for each alive key, so it is the last one. -/
theorem lastData_snapshot (key : Bytes) :
    lastData ((aliveEntries keys).map fun e => snapshotRecord e.1 e.2) key
      = (aliveIn keys key).map fun ks => (ks.modRevision, makeKvBytes key ks) := by
  have hkey : ∀ e ∈ aliveEntries keys, (snapshotRecord e.1 e.2).key = some e.1 :=
    fun e he => (KvWalRecord.Fits.new_spec (hfit e he)).2.1
  cases halive : aliveIn keys key with
  | none =>
      refine KeyedLog.lastFrom_of_forall_ne ?_
      intro rec hrec heq
      obtain ⟨e, he, rfl⟩ := List.mem_map.mp hrec
      rw [hkey e he] at heq
      cases heq
      rw [mem_aliveEntries.mp (show (e.1, e.2) ∈ _ from he)] at halive
      cases halive
  | some ks =>
      have hmem := mem_aliveEntries.mpr halive
      have hlast := KeyedLog.last_of_mem (nodup_snapshot hfit) isSome_recordData_snapshot
        (List.mem_map_of_mem hmem)
      rw [hkey _ hmem] at hlast
      rw [lastData, hlast, recordData, deleted_snapshotRecord, if_neg Bool.false_ne_true,
        revision_snapshotRecord (hfit _ hmem), kvBytes_snapshotRecord]
      rfl

theorem Journals.of_snapshot {n : Nat} (hrev : AliveRevisions (· ≠ 0) ⟨keys, n⟩) :
    Journals ((aliveEntries keys).map fun e => snapshotRecord e.1 e.2) ⟨keys, n⟩ where
  made := by
    intro rec hrec
    obtain ⟨e, he, rfl⟩ := List.mem_map.mp hrec
    exact made_snapshotRecord (hfit e he) (hrev e.1 e.2 (mem_aliveEntries.mp he))
  last := by
    intro key
    rw [lastData_snapshot hfit, Option.map_map]
    rfl

end

/-! ### The file of a running server -/

/-- The WAL journals the live keyspace, and so will the file a running compaction is
preparing. -/
structure Journaled (sys : System) : Prop extends Positive sys where
  file : ∃ recs, sys.store.wal.contents = serializeAll recs ∧ Journals recs sys.store.keyspace
  pending : ∀ c, sys.compaction = some c → ∃ base ws, Pending sys.store c base ws ∧
    AliveRevisions (· ≠ 0) base ∧ ∀ w ∈ ws, w.rev ≠ 0

omit [LawfulCrates] in
theorem journaled_fresh : Journaled ⟨fresh, none⟩ where
  toPositive := positive_fresh
  file := ⟨[], rfl, by simp, fun _ => rfl⟩
  pending := by simp

/-- Writes keep it so. -/
theorem Journaled.commits {sys : System} (h : Journaled sys) {s' : StoreState} {ws : List Write}
    (hpos : Positive { sys with store := s' }) (hc : Commits sys.store ws s')
    (hfit : ∀ w ∈ ws, w.record.Fits) (hrev : ∀ w ∈ ws, w.rev ≠ 0) :
    Journaled { sys with store := s' } where
  toPositive := hpos
  file := by
    obtain ⟨recs, hcontents, hrecs⟩ := h.file
    refine ⟨recs ++ ws.map Write.record, ?_, hrecs.run hc.run hfit hrev⟩
    rw [hc.contents, hcontents, serializeAll_append]
  pending := by
    intro c hcomp
    obtain ⟨base, vs, hp, hbase, hvs⟩ := h.pending c hcomp
    refine ⟨base, vs ++ ws, hp.commits hc hfit, hbase, ?_⟩
    intro w hw
    rcases List.mem_append.mp hw with hw | hw
    · exact hvs w hw
    · exact hrev w hw

/-- **Every event keeps it so**, restarts included. A restart leaves the file alone and replays it,
so the entries are again those of its last records. -/
theorem Journaled.step {sys sys' : System} {ev : Event} (h : Journaled sys) (hok : sys.StepOk ev)
    (hstep : sys.step ev = some sys') : Journaled sys' := by
  obtain ⟨hfit, hcounts⟩ := hok
  have hpos := h.toPositive.step hcounts hstep
  cases System.moves_of_step h.faults hstep with
  | @request q ws s' hq hserved =>
      refine h.commits hpos hserved.toCommits ?_ ?_
      · intro w hw
        refine hfit s' hq _ ?_
        rw [hserved.log]
        exact List.mem_append_right _ (List.mem_map_of_mem hw)
      · intro w hw
        rw [hserved.rev_eq w hw]
        exact hcounts.1
  | watch hquiet => exact h.commits hpos (hquiet.served h.faults).toCommits (by simp) (by simp)
  | cancelWatch hquiet =>
      exact h.commits hpos (hquiet.served h.faults).toCommits (by simp) (by simp)
  | compactA hnone =>
      refine ⟨hpos, h.file, ?_⟩
      intro c hc
      cases hc
      exact ⟨_, [], .start hfit, h.revisions, by simp⟩
  | @compactB c c' hcomp htarget hsize =>
      refine ⟨hpos, h.file, ?_⟩
      intro c'' hc
      cases hc
      obtain ⟨base, ws, hp, hrest⟩ := h.pending c hcomp
      exact ⟨base, ws, hp.phaseB htarget hsize, hrest⟩
  | @compactC c hcomp =>
      -- the new file: the snapshot, and what was written since behind it
      obtain ⟨base, ws, hp, hbase, hws⟩ := h.pending c hcomp
      refine ⟨hpos, ⟨_, hp.contents_swap, ?_⟩, by simp⟩
      exact (Journals.of_snapshot hp.snapshot_fits hbase).run hp.run hp.fits hws
  | compactFails => exact ⟨hpos, h.file, by simp⟩
  | restart hopen =>
      obtain ⟨recs, hcontents, hrecs⟩ := h.file
      obtain ⟨recs', n, K, hscan, hK, rfl⟩ := openStore_eq_ok hopen
      rw [hcontents, scanKvFile_serializeAll fun r hr => (hrecs.made r hr).wellFormed] at hscan
      cases hscan
      rw [replayed_of_nonzero fun r hr => (hrecs.made r hr).revision_ne] at hK
      exact ⟨hpos, ⟨recs, hcontents, .of_replay hrecs.made hK⟩, by simp⟩

/-! ### Readers of two files -/

omit [LawfulCrates] in
/-- Scans of two files with standalone records that leave every key with the same. -/
theorem scanWalRange_congr {contents contents' : Bytes} {recs recs' : List KvWalRecord} {n n' : Nat}
    (hscan : scanKvFile contents 0 = (recs, .ok n))
    (hscan' : scanKvFile contents' 0 = (recs', .ok n')) {r : UInt64} (h : Standalone r recs)
    (h' : Standalone r recs') (hlast : ∀ key, lastData recs' key = lastData recs key)
    (key rangeEnd : Bytes) :
    scanWalRange contents' key rangeEnd r = scanWalRange contents key rangeEnd r := by
  simp only [scanWalRange, hscan, hscan']
  congr 1
  refine ExtTreeMap.ext_getElem? fun k => ?_
  rw [getElem?_scan, getElem?_scan, lastData_filter h (UInt64.le_refl r),
    lastData_filter h' (UInt64.le_refl r), hlast]

omit [LawfulCrates] in
/-- A range at a revision depends on the file through the scan alone. -/
theorem range_of_scanWalRange {s : StoreState} {wal : WalFile} {r : UInt64}
    (h : ∀ key rangeEnd, scanWalRange wal.contents key rangeEnd r
      = scanWalRange s.wal.contents key rangeEnd r) {req : RangeRequest}
    (hreq : req.revision.toUInt64 = r) : range { s with wal } req = range s req := by
  subst hreq
  have hhistorical : rangeHistorical { s with wal } req req.revision.toUInt64
      = rangeHistorical s req req.revision.toUInt64 := by
    simp only [rangeHistorical, h]
    rfl
  unfold range
  by_cases hpos : req.revision > 0
  · simp only [if_pos hpos, hhistorical]
    rfl
  · simp only [if_neg hpos]
    rfl

/-- A file at whose revisions from `r` on there are only created keys, and whose last record of each
alive key is the one a snapshot would write. Both are conditions on the file before the compaction,
and the second is about the blobs: a snapshot encodes an entry again, and this must give the bytes
of its record. -/
structure KeepsHistory (r : UInt64) (s : StoreState) : Prop where
  standalone : Standalone r (scanKvFile s.wal.contents 0).1
  recorded : ∀ key ks, s.alive? key = some ks →
    (lastData (scanKvFile s.wal.contents 0).1 key).map Prod.snd = some (makeKvBytes key ks)

/-- **`compact_wal` keeps the history from `r` on**, for every reachable store whose file holds,
at revisions from `r` on, only keys created and not touched since: no range at `r` changes its
response, and a watcher that starts at `r` is sent the same events, up to their order. -/
theorem compact_wal_keeps_history {evs : List Event} {sys : System}
    (hrun : System.run ⟨fresh, none⟩ evs = some sys)
    (hok : Trace.Along System.step System.StepOk ⟨fresh, none⟩ evs)
    (hfit : ∀ rec ∈ sys.store.snapshotRecords, rec.Fits) {r : UInt64}
    (hr : r ≤ sys.store.currentRevision) (hkeeps : KeepsHistory r sys.store) :
    (∀ req : RangeRequest, req.revision.toUInt64 = r →
      range sys.store.compactWal req = range sys.store req) ∧
    ∀ batch, List.Forall₂ (fun reg reg' => reg'.watchId = reg.watchId ∧
        (reg.startRevision = r → reg'.sender.Perm reg.sender))
      (newWatchers sys.store batch) (newWatchers sys.store.compactWal batch) := by
  have h : Journaled sys :=
    Trace.invariant (fun _ _ _ h hP hstep => h.step hP hstep) journaled_fresh hok hrun
  have hfit' : ∀ e ∈ aliveEntries sys.store.keys, (snapshotRecord e.1 e.2).Fits :=
    fun e he => hfit _ (List.mem_map_of_mem he)
  obtain ⟨recs, hcontents, hrecs⟩ := h.file
  have hscan : scanKvFile sys.store.wal.contents 0 = (recs, .ok (serializeAll recs).length) := by
    rw [hcontents, scanKvFile_serializeAll fun r hr => (hrecs.made r hr).wellFormed]
  obtain ⟨hstandalone, hrecorded⟩ := hkeeps
  rw [hscan] at hstandalone hrecorded
  -- the new file holds the snapshot
  have hp : Pending sys.store sys.store.compactPhaseA sys.store.keyspace [] := .start hfit
  have hscan' := scanKvFile_serializeAll (wellFormed_compacted hp.snapshot_fits hp.fits)
  rw [← hp.contents_swap, List.map_nil, List.append_nil] at hscan'
  have hstandalone' : ∀ r, Standalone r _ := standalone_snapshot hfit'
  -- and leaves every key with what the old one did
  have hlast : ∀ key, lastData ((aliveEntries sys.store.keys).map fun e => snapshotRecord e.1 e.2)
      key = lastData recs key := by
    intro key
    rw [lastData_snapshot hfit']
    have hrev := hrecs.last key
    have hblob := hrecorded key
    cases halive : aliveIn sys.store.keys key with
    | none =>
        rw [show aliveIn sys.store.keyspace.keys key = none from halive] at hrev
        exact (Option.map_eq_none_iff.mp hrev).symm
    | some ks =>
        rw [show aliveIn sys.store.keyspace.keys key = some ks from halive] at hrev
        have hblob := hblob ks halive
        obtain ⟨data, hdata, hfst⟩ := Option.map_eq_some_iff.mp hrev
        rw [hdata, Option.map_some] at hblob
        rw [hdata, Option.map_some, ← hfst, ← Option.some.inj hblob]
  refine ⟨?_, ?_⟩
  · intro req hreq
    refine range_of_scanWalRange ?_ hreq
    exact scanWalRange_congr hscan hscan' hstandalone (hstandalone' r) hlast
  · intro batch
    have hadmitted : flushAdmit sys.store.compactWal batch = flushAdmit sys.store batch := rfl
    rw [newWatchers_eq, newWatchers_eq, hadmitted, hscan,
      show scanKvFile sys.store.compactWal.wal.contents 0 = _ from hscan',
      List.forall₂_map_left_iff, List.forall₂_map_right_iff, List.forall₂_same]
    intro ctx _
    refine ⟨rfl, ?_⟩
    intro hstart
    obtain rfl : ctx.pending.startRevision = r := hstart
    exact (WatchContext.replay_perm hstandalone (hstandalone' _) hr hlast).append_left ctx.eventTx

end

/-- Two keys, written in the other order than the snapshot lists them. -/
theorem compact_wal_keeps_history_two_keys :
    ∃ sys, System.run ⟨fresh, none⟩ [.request (.put { key := [2], value := [3] }),
        .request (.put { key := [1], value := [2] })] = some sys ∧
      (∀ req : RangeRequest, req.revision.toUInt64 = 1 →
        range sys.store.compactWal req = range sys.store req) ∧
      ∀ batch, List.Forall₂ (fun reg reg' => reg'.watchId = reg.watchId ∧
          (reg.startRevision = 1 → reg'.sender.Perm reg.sender))
        (newWatchers sys.store batch) (newWatchers sys.store.compactWal batch) := by
  have hrun : ((System.run ⟨fresh, none⟩ [.request (.put { key := [2], value := [3] }),
      .request (.put { key := [1], value := [2] })]).any fun sys =>
        decide ((∀ rec ∈ sys.store.snapshotRecords, rec.Fits) ∧
          1 ≤ sys.store.currentRevision ∧
          ((scanKvFile sys.store.wal.contents 0).1.map KvWalRecord.key).Nodup ∧
          (∀ rec ∈ (scanKvFile sys.store.wal.contents 0).1, (recordData rec).isSome) ∧
          ∀ e ∈ aliveEntries sys.store.keys,
            (lastData (scanKvFile sys.store.wal.contents 0).1 e.1).map Prod.snd
              = some (makeKvBytes e.1 e.2))) = true := by
    decide +kernel
  obtain ⟨sys, hsys, hfacts⟩ := (Option.any_eq_true _ _).mp hrun
  obtain ⟨hfit, hcur, hnodup, hputs, hrecorded⟩ := of_decide_eq_true hfacts
  refine ⟨sys, hsys, compact_wal_keeps_history hsys (by decide +kernel) hfit hcur ⟨?_, ?_⟩⟩
  · exact KeyedLog.isolated_of_nodup hnodup hputs
  · intro key ks hks
    exact hrecorded (key, ks) (mem_aliveEntries.mpr hks)

/-- The condition is needed: with nothing compacted, an update overwritten in the file changes a
range at the first revision, and takes one of two events from a watcher that starts there. -/
theorem compact_wal_discards_history :
    ∃ sys, System.run ⟨fresh, none⟩ [.request (.put { key := [1], value := [2] }),
        .request (.put { key := [1], value := [3] })] = some sys ∧
      sys.store.compactRev = 0 ∧ 1 ≤ sys.store.currentRevision ∧
      range sys.store.compactWal { key := [1], revision := 1 }
        ≠ range sys.store { key := [1], revision := 1 } ∧
      ∃ reg reg', newWatchers sys.store [⟨{ key := [1], startRevision := 1 }, 0, 0⟩] = [reg] ∧
        newWatchers sys.store.compactWal [⟨{ key := [1], startRevision := 1 }, 0, 0⟩] = [reg'] ∧
        ¬ reg'.sender.Perm reg.sender := by
  have hrun : ((System.run ⟨fresh, none⟩ [.request (.put { key := [1], value := [2] }),
      .request (.put { key := [1], value := [3] })]).any fun sys : System =>
        decide (sys.store.compactRev = 0 ∧ 1 ≤ sys.store.currentRevision ∧
          (range sys.store.compactWal { key := [1], revision := 1 }).toOption
            ≠ (range sys.store { key := [1], revision := 1 }).toOption ∧
          (newWatchers sys.store [⟨{ key := [1], startRevision := 1 }, 0, 0⟩]).map
            (·.sender.length) = [2] ∧
          (newWatchers sys.store.compactWal [⟨{ key := [1], startRevision := 1 }, 0, 0⟩]).map
            (·.sender.length) = [1])) = true := by
    decide +kernel
  obtain ⟨sys, hsys, hfacts⟩ := (Option.any_eq_true _ _).mp hrun
  obtain ⟨hcompact, hcur, hrange, hlength, hlength'⟩ := of_decide_eq_true hfacts
  obtain ⟨reg, hreg, htwo⟩ := List.map_eq_singleton_iff.mp hlength
  obtain ⟨reg', hreg', hone⟩ := List.map_eq_singleton_iff.mp hlength'
  refine ⟨sys, hsys, hcompact, hcur, fun heq => hrange (congrArg _ heq), reg, reg', hreg, hreg', ?_⟩
  intro hperm
  have := hperm.length_eq
  omega

end Rudurru
