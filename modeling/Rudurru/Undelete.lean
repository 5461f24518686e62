import Rudurru.Lib.KeyedLog
import Rudurru.Migration
import Rudurru.Salvage

/-!
# Rudurru.Undelete

What the offline tools make of the records they find: `reconstruct_state` of the doctor
(`src/bin/waldoctor.rs`), and the recovery tool (`src/bin/walrecover.rs`), which writes a legacy
record for each alive key to a new file.

Whatever the file that it is given, the recovery tool writes one on which it would write the same
again. Migrated and opened, the new file serves the values and modification revisions that the
records found in the old one come to, each key at the start of a new lifetime and without its lease
(`walrecover_restores`). The counter goes on from the highest revision of an alive key: those of
later deletions are given out again.

The tools keep an entry per alive key and go through the records once, as `foldLegacy` does
(`reconstructs_foldl`). What the recovery tool writes is less: a record has no place for a create
revision or a version, and the lease is left out. So the new file has one record per alive key, at
its last revision and flagged as a creation. Restoring then composes three results: the scan of an
undamaged file finds its records (`Salvage`), the migration replays them as the fold (`Migration`),
and the store on the migrated file serves it.
-/

namespace Rudurru

open Std (ExtTreeMap)

namespace Salvage

/-! ### The tools -/

/-- `KeyState` of the tools. -/
structure ToolKey where
  value : Bytes
  createRevision : UInt64
  modRevision : UInt64
  version : UInt64
  deriving DecidableEq, Repr

/-- One round of the loop that reconstructs the state, the same in both tools. -/
def reconstructRecord (keys : ExtTreeMap Bytes ToolKey) (rec : WalEntry) :
    ExtTreeMap Bytes ToolKey :=
  let (rev, key, value, flags) := rec
  if flags &&& DELETED ≠ 0 then keys.erase key
  else
    let entry := keys[key]?.getD
      { value := [], createRevision := rev, modRevision := rev, version := 0 }
    keys.insert key
      { value
        createRevision := if flags &&& IS_CREATE ≠ 0 then rev else entry.createRevision
        modRevision := rev
        version := entry.version + 1 }

/-- The keys that `compact(8000)` took away. -/
def lostKeys (keys : ExtTreeMap Bytes ToolKey) : List Bytes :=
  (keys.toList.filter fun e => e.2.modRevision < 8000 && e.2.createRevision < 8000).map (·.1)

end Salvage

open Salvage

/-- `reconstruct_state` of the doctor. -/
def Waldoctor.reconstructState (records : List WalRecord) :
    ExtTreeMap Bytes ToolKey × List Bytes :=
  let keys := (records.map WalRecord.toWalEntry).foldl reconstructRecord ∅
  (keys, lostKeys keys)

/-- One round of the loop of `write_wal`: what is appended to the file. -/
def Walrecover.writeEntry (entry : Bytes × ToolKey) : Bytes :=
  let (key, ks) := entry
  let body := [IS_CREATE] ++ key ++ ks.value
  u16ToLeBytes MAGIC ++ u64ToLeBytes ks.modRevision ++ u32ToLeBytes (Salvage.crc32c body)
    ++ u32ToLeBytes (UInt32.ofNat key.length) ++ u32ToLeBytes (UInt32.ofNat ks.value.length) ++ body

/-- The file that `write_wal` leaves. -/
def Walrecover.writeWal (entries : List (Bytes × ToolKey)) : Bytes :=
  entries.flatMap Walrecover.writeEntry

/-- What `main` of the recovery tool reports, and the file that it writes. -/
structure Walrecover where
  keys : ExtTreeMap Bytes ToolKey
  maxRev : UInt64
  lost : List Bytes
  output : Bytes

/-- `main` of the recovery tool, on the contents of the backup. -/
def Walrecover.main (buf : Bytes) : Walrecover :=
  let records := (Walrecover.scanWal buf).1
  let keys := records.foldl reconstructRecord ∅
  { keys
    maxRev := records.foldl (fun maxRev rec => max maxRev rec.1) 0
    lost := lostKeys keys
    output := Walrecover.writeWal keys.toList }

/-! ### What is reconstructed -/

/-- What an entry is at the start of a lifetime, without a lease. -/
def Entry.reborn (e : Entry) : Entry :=
  { value := e.value, lease := 0, modRevision := e.modRevision, createRevision := e.modRevision
    version := 1 }

/-- The same of what the tools remember of a key. -/
def Salvage.ToolKey.reborn (ks : ToolKey) : Entry :=
  { value := ks.value, lease := 0, modRevision := ks.modRevision, createRevision := ks.modRevision
    version := 1 }

/-- What the tools have for an entry that starts a lifetime. -/
def Entry.reconstructed (e : Entry) : ToolKey :=
  { value := e.value, createRevision := e.modRevision, modRevision := e.modRevision, version := 1 }

/-- The tools' map is that of the fold, but for where lifetimes begin. -/
def Reconstructs (keys : ExtTreeMap Bytes ToolKey) (m : Bytes → Option Entry) : Prop :=
  ∀ key : Bytes, keys[key]?.map ToolKey.reborn = (m key).map Entry.reborn

theorem Reconstructs.step {keys : ExtTreeMap Bytes ToolKey} {m : Bytes → Option Entry}
    (h : Reconstructs keys m) (r : WalRecord) :
    Reconstructs (reconstructRecord keys r.toWalEntry) (legacyStep m r) := by
  intro key
  have hother := h key
  rw [reconstructRecord, WalRecord.toWalEntry, legacyStep]
  cases hdel : r.deleted with
  | true =>
      rw [if_pos (by simpa [WalRecord.deleted] using hdel), if_pos rfl, ExtTreeMap.getElem?_erase]
      by_cases hkey : r.key = key
      · subst hkey
        simp
      · rw [if_neg (by simpa using hkey), Function.update_of_ne (Ne.symm hkey), hother]
  | false =>
      rw [if_neg (by simpa [WalRecord.deleted] using hdel), if_neg (by simp),
        ExtTreeMap.getElem?_insert]
      by_cases hkey : r.key = key
      · subst hkey
        simp [ToolKey.reborn, Entry.reborn, WalRecord.entry]
      · rw [if_neg (by simpa using hkey), Function.update_of_ne (Ne.symm hkey), hother]

/-- **Both tools reconstruct the fold.** -/
theorem reconstructs_foldl (rs : List WalRecord) :
    Reconstructs ((rs.map WalRecord.toWalEntry).foldl reconstructRecord ∅) (foldLegacy rs) := by
  have hrun : ∀ (rs : List WalRecord) (keys : ExtTreeMap Bytes ToolKey)
      (m : Bytes → Option Entry), Reconstructs keys m →
        Reconstructs ((rs.map WalRecord.toWalEntry).foldl reconstructRecord keys)
          (rs.foldl legacyStep m) := by
    intro rs
    induction rs with
    | nil => exact fun _ _ h => h
    | cons r rs ih => exact fun keys m h => ih _ _ (h.step r)
  exact hrun rs ∅ _ fun key => by simp

/-! ### The file that is written -/

/-- The record that is written for a key. -/
def recoveredRecord (entry : Bytes × ToolKey) : WalRecord :=
  { revision := entry.2.modRevision, key := entry.1, value := entry.2.value, flags := IS_CREATE
    leaseId := none }

theorem writeEntry_eq (entry : Bytes × ToolKey) :
    Walrecover.writeEntry entry = (recoveredRecord entry).serialize := by
  have hbody : (recoveredRecord entry).payload = [IS_CREATE] ++ entry.1 ++ entry.2.value := by
    simp [WalRecord.payload, recoveredRecord]
  rw [WalRecord.serialize, hbody]
  simp only [Walrecover.writeEntry, crc32c_eq]
  rfl

theorem writeWal_eq (entries : List (Bytes × ToolKey)) :
    Walrecover.writeWal entries = legacyFile (entries.map recoveredRecord) := by
  rw [Walrecover.writeWal, legacyFile, FramedLog.encodeAll, List.flatMap_map]
  exact List.flatMap_congr fun entry _ => writeEntry_eq entry

/-- The records found in a backup. -/
def Walrecover.records (buf : Bytes) : List WalRecord := (scan buf .pastCandidate).records

theorem storable_of_mem_scan {buf : Bytes} {resume : Resync.Resume} {r : WalRecord}
    (hr : r ∈ (scan buf resume).records) : r.Storable := by
  rw [Scan.records, found_scan] at hr
  obtain ⟨x, hx, rfl⟩ := List.mem_map.mp hr
  obtain ⟨-, next, hsight⟩ := Resync.Tape.mem_read 0 hx
  have hlt := ((tape buf).record_ends hsight).1
  have hsight : candidate buf x.1 = .record x.2 (x.1 + (next - x.1)) := by
    rw [Nat.add_sub_cancel' (Nat.le_of_lt hlt)]
    exact hsight
  exact (WalRecord.deserialize_spec (candidate_eq_record_iff.mp hsight)).1

theorem exists_of_foldLegacy {rs : List WalRecord} {key : Bytes} {e : Entry}
    (he : foldLegacy rs key = some e) :
    ∃ r ∈ rs, r.deleted = false ∧ r.key = key ∧ r.value = e.value ∧
      r.revision = e.modRevision := by
  induction rs using List.reverseRecOn with
  | nil => cases he
  | append_singleton rs r ih =>
      rw [foldLegacy, List.foldl_append, ← foldLegacy, List.foldl_cons, List.foldl_nil,
        legacyStep] at he
      by_cases hkey : key = r.key
      · subst hkey
        rw [Function.update_self] at he
        split at he
        · cases he
        · next hput =>
            cases he
            exact ⟨r, List.mem_append_right _ (List.mem_singleton_self r),
              Bool.eq_false_iff.mpr hput, rfl, rfl, rfl⟩
      · rw [Function.update_of_ne hkey] at he
        obtain ⟨r', hr', hspec⟩ := ih he
        exact ⟨r', List.mem_append_left _ hr', hspec⟩

/-- A key without a record has no entry. -/
theorem foldLegacy_of_not_mem {rs : List WalRecord} {key : Bytes} (h : key ∉ rs.map (·.key)) :
    foldLegacy rs key = none := by
  cases he : foldLegacy rs key with
  | none => rfl
  | some e =>
      obtain ⟨r, hr, -, hkey, -⟩ := exists_of_foldLegacy he
      exact absurd (hkey ▸ List.mem_map_of_mem hr) h

/-- Puts of different keys begin as many lifetimes. -/
theorem foldLegacy_of_nodup {rs : List WalRecord} (hnodup : (rs.map (·.key)).Nodup)
    (hput : ∀ r ∈ rs, r.deleted = false) (key : Bytes) :
    foldLegacy rs key = KeyedLog.last (·.key) (fun r => some (r.entry none)) rs key := by
  induction rs using List.reverseRecOn with
  | nil => rfl
  | append_singleton rs r ih =>
      rw [List.map_append, List.nodup_append] at hnodup
      obtain ⟨hnodup, -, hdisjoint⟩ := hnodup
      have ih := ih hnodup fun r' hr' => hput r' (List.mem_append_left _ hr')
      have hfresh : foldLegacy rs r.key = none :=
        foldLegacy_of_not_mem fun hmem => hdisjoint _ hmem r.key (by simp) rfl
      rw [foldLegacy, List.foldl_append, ← foldLegacy, List.foldl_cons, List.foldl_nil,
        legacyStep_put _ (hput r (by simp)), hfresh, KeyedLog.last_concat, ← ih]
      by_cases hkey : r.key = key
      · rw [if_pos hkey, ← hkey, Function.update_self]
      · rw [if_neg hkey, Function.update_of_ne (Ne.symm hkey)]

/-- From puts of different keys the tools reconstruct lifetimes that start, in full. -/
theorem reconstruct_of_nodup {rs : List WalRecord} (hnodup : (rs.map (·.key)).Nodup)
    (hput : ∀ r ∈ rs, r.deleted = false) (key : Bytes) :
    ((rs.map WalRecord.toWalEntry).foldl reconstructRecord ∅)[key]?
      = (foldLegacy rs key).map Entry.reconstructed := by
  induction rs using List.reverseRecOn generalizing key with
  | nil => simp [foldLegacy]
  | append_singleton rs r ih =>
      rw [List.map_append, List.nodup_append] at hnodup
      obtain ⟨hnodup, -, hdisjoint⟩ := hnodup
      have ih := ih hnodup fun r' hr' => hput r' (List.mem_append_left _ hr')
      have hfresh : foldLegacy rs r.key = none :=
        foldLegacy_of_not_mem fun hmem => hdisjoint _ hmem r.key (by simp) rfl
      -- the tools know as little of the key as the fold does, so their entry is a new one
      have hnew := ih r.key
      rw [hfresh, Option.map_none] at hnew
      have hdel : r.flags &&& DELETED = 0 := by
        simpa [WalRecord.deleted] using hput r (by simp)
      rw [foldLegacy, List.foldl_append, ← foldLegacy, List.foldl_cons, List.foldl_nil,
        legacyStep_put _ (hput r (by simp)), hfresh, List.map_append, List.foldl_append,
        List.map_singleton, List.foldl_cons, List.foldl_nil, reconstructRecord,
        WalRecord.toWalEntry]
      dsimp only
      rw [if_neg (by simp [hdel]), hnew, ExtTreeMap.getElem?_insert]
      by_cases hkey : r.key = key
      · subst hkey
        simp [Entry.reconstructed, WalRecord.entry]
      · rw [if_neg (by simpa using hkey), Function.update_of_ne (Ne.symm hkey)]
        exact ih key

theorem nodup_recovered (keys : ExtTreeMap Bytes ToolKey) :
    ((keys.toList.map recoveredRecord).map (·.key)).Nodup := by
  have hkeys : (keys.toList.map recoveredRecord).map (·.key) = keys.toList.map (·.1) := by
    rw [List.map_map]
    rfl
  rw [hkeys, List.nodup_iff_pairwise_ne, List.pairwise_map]
  exact ExtTreeMap.distinct_keys_toList.imp fun h heq =>
    h (Std.LawfulEqCmp.compare_eq_iff_eq.mpr heq)

/-- What the written records come to. -/
theorem foldLegacy_recovered (keys : ExtTreeMap Bytes ToolKey) (key : Bytes) :
    foldLegacy (keys.toList.map recoveredRecord) key = keys[key]?.map ToolKey.reborn := by
  have hnodup := nodup_recovered keys
  have hput : ∀ r ∈ keys.toList.map recoveredRecord, r.deleted = false := by
    intro r hr
    obtain ⟨entry, -, rfl⟩ := List.mem_map.mp hr
    show decide (IS_CREATE &&& DELETED ≠ 0) = false
    decide
  rw [foldLegacy_of_nodup hnodup hput]
  cases hks : keys[key]? with
  | none =>
      refine KeyedLog.lastFrom_of_forall_ne ?_
      intro r hr hkey
      obtain ⟨⟨k, ks⟩, hmem, rfl⟩ := List.mem_map.mp hr
      obtain rfl : k = key := hkey
      rw [ExtTreeMap.mem_toList_iff_getElem?_eq_some, hks] at hmem
      cases hmem
  | some ks =>
      have hmem : (key, ks) ∈ keys.toList := ExtTreeMap.mem_toList_iff_getElem?_eq_some.mpr hks
      exact KeyedLog.last_of_mem hnodup (fun _ _ => rfl) (List.mem_map_of_mem hmem)

/-- What is written depends on what the keys come to. -/
theorem map_recoveredRecord_congr {keys keys' : ExtTreeMap Bytes ToolKey}
    (h : ∀ key : Bytes, keys[key]?.map ToolKey.reborn = keys'[key]?.map ToolKey.reborn) :
    keys.toList.map recoveredRecord = keys'.toList.map recoveredRecord := by
  have hmap : ∀ keys : ExtTreeMap Bytes ToolKey, keys.toList.map recoveredRecord
      = (keys.map fun _ ks => ks.reborn).toList.map fun e =>
          { revision := e.2.modRevision, key := e.1, value := e.2.value, flags := IS_CREATE
            leaseId := none } := by
    intro keys
    rw [ExtTreeMap.toList_map, List.map_map]
    rfl
  have hsame : keys.map (fun _ ks => ks.reborn) = keys'.map (fun _ ks => ks.reborn) := by
    refine ExtTreeMap.ext_getElem? fun key => ?_
    rw [ExtTreeMap.getElem?_map, ExtTreeMap.getElem?_map, h key]
  rw [hmap, hmap, hsame]

/-- The records that the recovery tool writes. -/
def Walrecover.written (buf : Bytes) : List WalRecord :=
  (Walrecover.main buf).keys.toList.map recoveredRecord

theorem output_main (buf : Bytes) :
    (Walrecover.main buf).output = legacyFile (Walrecover.written buf) :=
  writeWal_eq _

/-- The keys that the recovery tool finds. -/
theorem reborn_keys_main (buf key : Bytes) :
    (Walrecover.main buf).keys[key]?.map ToolKey.reborn
      = (foldLegacy (Walrecover.records buf) key).map Entry.reborn :=
  reconstructs_foldl (Walrecover.records buf) key

theorem foldLegacy_written (buf key : Bytes) :
    foldLegacy (Walrecover.written buf) key
      = (foldLegacy (Walrecover.records buf) key).map Entry.reborn := by
  rw [Walrecover.written, foldLegacy_recovered, reborn_keys_main]

/-- There is a record for each alive key, and no other one. -/
theorem of_mem_written {buf : Bytes} {r : WalRecord} (hr : r ∈ Walrecover.written buf) :
    ∃ e, foldLegacy (Walrecover.records buf) r.key = some e ∧ r.value = e.value ∧
      r.revision = e.modRevision ∧ r.flags = IS_CREATE ∧ r.leaseId = none := by
  obtain ⟨⟨key, ks⟩, hmem, rfl⟩ := List.mem_map.mp hr
  have hkey := reborn_keys_main buf key
  rw [ExtTreeMap.mem_toList_iff_getElem?_eq_some.mp hmem, Option.map_some] at hkey
  obtain ⟨e, he, hreborn⟩ := Option.map_eq_some_iff.mp hkey.symm
  obtain ⟨hvalue, -, hrev, -⟩ := Entry.mk.inj hreborn
  exact ⟨e, he, hvalue.symm, hrev.symm, rfl, rfl⟩

theorem put_of_mem_written {buf : Bytes} {r : WalRecord} (hr : r ∈ Walrecover.written buf) :
    r.deleted = false ∧ r.hasLease = r.leaseId.isSome ∧ r.entry none = (r.entry none).reborn := by
  obtain ⟨e, -, -, -, hflags, hlease⟩ := of_mem_written hr
  rw [WalRecord.deleted, WalRecord.hasLease, Entry.reborn, WalRecord.entry, hflags, hlease]
  exact ⟨by decide, by decide, rfl⟩

/-- What was found could be stored, and so can what is written. -/
theorem storable_written (buf : Bytes) : ∀ r ∈ Walrecover.written buf, r.Storable := by
  intro r hr
  obtain ⟨e, he, hvalue, -⟩ := of_mem_written hr
  obtain ⟨r', hr', -, hkey, hvalue', -⟩ := exists_of_foldLegacy he
  obtain ⟨hkeyLt, hvalueLt, -⟩ := storable_of_mem_scan hr'
  exact ⟨hkey ▸ hkeyLt, by rw [hvalue, ← hvalue']; exact hvalueLt, (put_of_mem_written hr).2.1⟩

theorem nodup_written (buf : Bytes) : ((Walrecover.written buf).map (·.key)).Nodup :=
  nodup_recovered _

/-! ### The recovered store -/

/-- A store can take an entry over at the start of a lifetime: its revision is one that a replay
does not skip and has a successor, and its record is under 4 GiB. The bound on the key keeps the
revision where the accessors of the new format find it. -/
structure Entry.Servable (key : Bytes) (e : Entry) : Prop where
  key_le : key.length ≤ 65000
  revision_pos : 1 ≤ e.modRevision.toNat
  revision_lt : e.modRevision.toNat + 1 < 2 ^ 64
  fits : e.reborn.Fits key

theorem legal_written {buf : Bytes}
    (h : ∀ key e, foldLegacy (Walrecover.records buf) key = some e → e.Servable key) :
    ∀ r ∈ Walrecover.written buf, r.Legal := by
  intro r hr
  obtain ⟨e, he, -, hrev, -⟩ := of_mem_written hr
  have hservable := h _ e he
  exact ⟨hrev ▸ hservable.revision_pos, (put_of_mem_written hr).2.1, hservable.key_le⟩

theorem entriesFit_written {buf : Bytes}
    (h : ∀ key e, foldLegacy (Walrecover.records buf) key = some e → e.Servable key) :
    EntriesFit (fun _ => none) (Walrecover.written buf) := by
  intro before r after hsplit e he
  have hsub : (before ++ [r]).Sublist (Walrecover.written buf) := by
    rw [hsplit]
    exact (List.Sublist.refl before).append ((List.nil_sublist after).cons_cons r)
  have hr : r ∈ Walrecover.written buf := hsub.subset (by simp)
  obtain ⟨e', he', hvalue, hrev, -, -⟩ := of_mem_written hr
  have hlast := foldLegacy_of_nodup ((nodup_written buf).sublist (hsub.map _))
    (fun r' hr' => (put_of_mem_written (hsub.subset hr')).1) r.key
  rw [KeyedLog.last_concat, if_pos rfl, foldLegacy, he] at hlast
  have hreborn : e = e'.reborn := by
    rw [Option.some.inj hlast, (put_of_mem_written hr).2.2, Entry.reborn, Entry.reborn]
    simp only [WalRecord.entry, hvalue, hrev]
  exact hreborn ▸ (h _ e' he').fits

/-- **What a store serves after a recovery.** The legacy records that were written are migrated one
by one, and each replays as the creation of its key. -/
theorem open_written {buf : Bytes}
    (h : ∀ key e, foldLegacy (Walrecover.records buf) key = some e → e.Servable key) (now : Nat) :
    ∃ s, openStore now (migrate (Walrecover.written buf)).2.contents = .ok s ∧
      (∀ key, (s.alive? key).map KeyState.entry = foldLegacy (Walrecover.written buf) key) ∧
      s.nextRev.toNat = highestRevision (Walrecover.written buf) + 1 := by
  have hlegal := legal_written h
  have hholds : Holds .empty fun _ => none :=
    ⟨fun key => by simp [Keyspace.empty, aliveIn], fun key ks hks => by
      simp [Keyspace.empty, aliveIn] at hks⟩
  obtain ⟨hwf, hrevisions, K, hK, hend⟩ :=
    hholds.run tracks_empty (by simp [Deletable]) hlegal (entriesFit_written h)
  obtain ⟨-, hcontents⟩ := @migrateLoop_spec _ (Walrecover.written buf) ∅ (.open []) rfl
  have hfile : (migrate (Walrecover.written buf)).2.contents
      = serializeAll (migrated ∅ (Walrecover.written buf)) := hcontents
  -- replay skips records of revision 0, and the tool writes none
  have hnonzero : replayed (migrated ∅ (Walrecover.written buf))
      = migrated ∅ (Walrecover.written buf) := by
    refine replayed_of_nonzero fun rec hrec hzero => ?_
    have hmem := List.mem_map_of_mem (f := (·.revision)) hrec
    rw [hrevisions] at hmem
    obtain ⟨r, hr, heq⟩ := List.mem_map.mp hmem
    have hpos := (hlegal r hr).revision_pos
    rw [heq, hzero] at hpos
    cases hpos
  refine ⟨_, openStore_of_scan (hfile ▸ scanKvFile_serializeAll hwf) (by rw [hnonzero, hK]),
    hend.entry, ?_⟩
  -- the counter goes on behind the highest revision that was found
  have hmax : (maxRevision (migrated ∅ (Walrecover.written buf)) 0).toNat
      = highestRevision (Walrecover.written buf) := toNat_maxRevision hrevisions
  have hlt : highestRevision (Walrecover.written buf) < 2 ^ 64 - 1 := by
    refine highestRevision_spec.mpr ⟨by omega, fun r hr => ?_⟩
    obtain ⟨e, he, -, hrev, -⟩ := of_mem_written hr
    have := (h _ e he).revision_lt
    rw [hrev]
    omega
  rw [opened_nextRev, UInt64.toNat_add, hmax]
  exact Nat.mod_eq_of_lt (by
    show highestRevision (Walrecover.written buf) + 1 < 2 ^ 64
    omega)

/-- The highest revision that is written is that of an alive key. -/
theorem highestRevision_written_lt_iff (buf : Bytes) (n : Nat) :
    highestRevision (Walrecover.written buf) < n ↔ 0 < n ∧
      ∀ key e, foldLegacy (Walrecover.records buf) key = some e → e.modRevision.toNat < n := by
  rw [highestRevision, highestRevision_spec]
  refine and_congr_right fun _ => ⟨fun h key e he => ?_, fun h r hr => ?_⟩
  · have hwritten := foldLegacy_written buf key
    rw [he, Option.map_some] at hwritten
    obtain ⟨r, hr, -, -, -, hrev⟩ := exists_of_foldLegacy hwritten
    have hlt := h r hr
    rwa [hrev] at hlt
  · obtain ⟨e, he, -, hrev, -⟩ := of_mem_written hr
    rw [hrev]
    exact h _ e he

/-- **Recovery from any file.** The tool writes a record for each key that it finds alive. The
doctor and the migration read all of these records back, in their order and no others, and from them
the tool would write the same file again. They come to what the records found in the backup come to,
every key without its lease and at the start of a lifetime, and that is what the doctor
reconstructs, its own creation revisions and versions included. A store opened on what the migration
makes of the file serves just that, if it can take the entries over, and its counter is the first
number beyond the revisions of the alive keys. -/
theorem walrecover_restores (now : Nat) (buf : Bytes) :
    (Walrecover.main buf).output = legacyFile (Walrecover.written buf) ∧
      (Walrecover.main (Walrecover.main buf).output).output = (Walrecover.main buf).output ∧
      (Waldoctor.scanWal (Walrecover.main buf).output).1 = Walrecover.written buf ∧
      readOldRecords (Walrecover.main buf).output = Walrecover.written buf ∧
      (∀ key, foldLegacy (Walrecover.written buf) key
        = (foldLegacy (Walrecover.records buf) key).map Entry.reborn) ∧
      (∀ key : Bytes, (Waldoctor.reconstructState
          (Waldoctor.scanWal (Walrecover.main buf).output).1).1[key]?
        = (foldLegacy (Walrecover.records buf) key).map Entry.reconstructed) ∧
      ((∀ key e, foldLegacy (Walrecover.records buf) key = some e → e.Servable key) →
        ∃ s, openStore now (migrate (readOldRecords (Walrecover.main buf).output)).2.contents
            = .ok s ∧
          (∀ key, (s.alive? key).map KeyState.entry
            = (foldLegacy (Walrecover.records buf) key).map Entry.reborn) ∧
          ∀ n, s.nextRev.toNat ≤ n ↔ 0 < n ∧ ∀ key e,
            foldLegacy (Walrecover.records buf) key = some e → e.modRevision.toNat < n) := by
  have hstorable := storable_written buf
  have hrecords : Walrecover.records (legacyFile (Walrecover.written buf))
      = Walrecover.written buf := records_scan_legacyFile hstorable _
  have hdoctor : (Waldoctor.scanWal (legacyFile (Walrecover.written buf))).1
      = Walrecover.written buf := records_scan_legacyFile hstorable _
  rw [output_main buf, readOldRecords_legacyFile hstorable, hdoctor]
  -- the records that were written are those that are found again, so the second file is built from
  -- the same keys
  refine ⟨rfl, ?_, rfl, rfl, foldLegacy_written buf, fun key => ?_, fun h => ?_⟩
  · rw [output_main, Walrecover.written]
    refine congrArg legacyFile (map_recoveredRecord_congr fun key => ?_)
    rw [reborn_keys_main, hrecords, foldLegacy_written, reborn_keys_main, Option.map_map]
    rfl
  · have hkeys := reconstruct_of_nodup (nodup_written buf)
      (fun r hr => (put_of_mem_written hr).1) key
    rw [foldLegacy_written, Option.map_map] at hkeys
    exact hkeys
  · obtain ⟨s, hopen, halive, hnext⟩ := open_written h now
    refine ⟨s, hopen, fun key => (halive key).trans (foldLegacy_written buf key), fun n => ?_⟩
    rw [hnext, Nat.succ_le_iff, highestRevision_written_lt_iff]

/-- A backup with a torn tail, in which the last thing to happen is a deletion. -/
def tornBackup : Bytes := legacyFile (lifetimes ++ [⟨9, [109], [], DELETED, none⟩]) ++ [0x55, 0x52]

/-- The recovered key has lost its lease and its version, and revision 8 is given out once more. -/
theorem walrecover_restores_torn :
    (Walrecover.main tornBackup).maxRev = 9 ∧
      (Waldoctor.reconstructState
          (Waldoctor.scanWal (Walrecover.main tornBackup).output).1).1[([107] : Bytes)]?
        = some { value := [3], createRevision := 7, modRevision := 7, version := 1 } ∧
      ∃ s, openStore 0 (migrate (readOldRecords (Walrecover.main tornBackup).output)).2.contents
          = .ok s ∧
        (s.alive? [107]).map KeyState.entry = some
          { value := [3], lease := 0, modRevision := 7, createRevision := 7, version := 1 } ∧
        s.nextRev.toNat ≤ 8 := by
  have hrecords : Walrecover.records tornBackup
      = lifetimes ++ [⟨9, [109], [], DELETED, none⟩] := by decide +kernel
  have hservable : ∀ key e, foldLegacy (Walrecover.records tornBackup) key = some e →
      e.Servable key := by
    intro key e he
    rw [hrecords] at he
    obtain ⟨r, hr, -, rfl, hvalue, hrev⟩ := exists_of_foldLegacy he
    have hall : ∀ r ∈ lifetimes ++ [⟨9, [109], [], DELETED, none⟩], r.key.length ≤ 65000 ∧
        1 ≤ r.revision.toNat ∧ r.revision.toNat + 1 < 2 ^ 64 ∧
          kvHeaderSize + (encodeKv r.key r.value r.revision.toInt64 r.revision.toInt64 1 0).1.length
            + kvCrcSize < 2 ^ 32 := by
      decide +kernel
    obtain ⟨hkey, hpos, hlt, hfits⟩ := hall r hr
    rw [hvalue, hrev] at hfits
    exact ⟨hkey, hrev ▸ hpos, hrev ▸ hlt, hfits⟩
  obtain ⟨-, -, -, -, -, hdoctor, hstore⟩ := walrecover_restores 0 tornBackup
  obtain ⟨s, hopen, halive, hnext⟩ := hstore hservable
  refine ⟨by decide +kernel, (hdoctor [107]).trans ?_, s, hopen, (halive [107]).trans ?_,
    (hnext 8).mpr ⟨by decide, ?_⟩⟩
  · rw [hrecords]
    rfl
  · rw [hrecords]
    rfl
  · intro key e he
    rw [hrecords] at he
    obtain ⟨r, hr, hput, -, -, hrev⟩ := exists_of_foldLegacy he
    have hall : ∀ r ∈ lifetimes ++ [⟨9, [109], [], DELETED, none⟩], r.deleted = false →
        r.revision.toNat < 8 := by
      decide +kernel
    exact hrev ▸ hall r hr hput

end Rudurru
