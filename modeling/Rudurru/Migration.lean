import Rudurru.History
import Rudurru.Storage.Legacy
import Rudurru.Storage.Scanning

/-!
# Rudurru.Migration

The migration tool (`src/bin/wal_migrate.rs`): it reads a file in the legacy format and appends a
record in the new format for each record of it, with metadata that it tracks in a map of its own.

What the legacy records mean is a fold (`foldLegacy`): a put begins or continues the lifetime of its
key, a delete ends it. A store opened on the migrated file has the alive map of the fold
(`migration_preserves`), as long as the new records stay under 4 GiB and the counter of the
revisions does not wrap around.

The tool and the fold go through the legacy records side by side. The map of the tool has what the
fold has (`Tracks`), and the record that the tool writes replays, on a keyspace that holds the alive
map (`Holds`), as one step of the fold (`Holds.step`). A deletion needs its key alive, so what the
tool writes for a key that is not is skipped by the replay, as it is by the fold.
-/

namespace Rudurru

open Std (ExtTreeMap)

/-! ### The tool -/

/-- `(create_revision, version, value, lease)`: what the tool remembers of an alive key. -/
structure MigratedKey where
  createRevision : UInt64
  version : Int64
  value : Bytes
  lease : Int64

/-- The lease of a legacy record, 0 for none. -/
def WalRecord.lease (r : WalRecord) : Int64 := if r.hasLease then r.leaseId.getD 0 else 0

section

variable [Crates]

/-- One round of the loop of `migrate`: the record it appends, and the map after it. -/
def migrateStep (state : ExtTreeMap Bytes MigratedKey) (r : WalRecord) :
    KvWalRecord × ExtTreeMap Bytes MigratedKey :=
  if r.deleted then
    match state[r.key]? with
    | some k =>
        (.new (if k.lease ≠ 0 then DELETED ||| HAS_LEASE else DELETED) r.key k.value
          k.createRevision.toInt64 r.revision.toInt64 k.version k.lease, state.erase r.key)
    -- a key that is not alive is deleted all the same, with empty metadata
    | none => (.new DELETED r.key [] 0 r.revision.toInt64 0 0, state)
  else
    let (createRevision, version) :=
      match state[r.key]? with
      | some k => (k.createRevision, k.version + 1)
      | none => (r.revision, 1)
    (.new (if r.lease ≠ 0 then IS_CREATE ||| HAS_LEASE else IS_CREATE) r.key r.value
      createRevision.toInt64 r.revision.toInt64 version r.lease,
      state.insert r.key { createRevision, version, value := r.value, lease := r.lease })

/-- The loop of `migrate`; `false` is an I/O error. -/
def migrateLoop (state : ExtTreeMap Bytes MigratedKey) (wal : WalFile) :
    List WalRecord → Bool × WalFile
  | [] => (true, wal)
  | r :: rs =>
      match wal.appendKv (migrateStep state r).1 with
      | (true, wal) => migrateLoop (migrateStep state r).2 wal rs
      | (false, wal) => (false, wal)

/-- `migrate`, into a new file. -/
def migrate (rs : List WalRecord) : Bool × WalFile := migrateLoop ∅ (.open []) rs

/-- The records that the loop appends. -/
def migrated (state : ExtTreeMap Bytes MigratedKey) : List WalRecord → List KvWalRecord
  | [] => []
  | r :: rs => (migrateStep state r).1 :: migrated (migrateStep state r).2 rs

theorem migrateLoop_spec {rs : List WalRecord} :
    ∀ {state : ExtTreeMap Bytes MigratedKey} {wal : WalFile}, wal.faults = [] →
      (migrateLoop state wal rs).1 = true ∧ (migrateLoop state wal rs).2.contents
        = wal.contents ++ serializeAll (migrated state rs) := by
  induction rs with
  | nil =>
      intro state wal _
      exact ⟨rfl, (List.append_nil _).symm⟩
  | cons r rs ih =>
      intro state wal hwal
      -- no append of a new file fails
      have happend : wal.appendKv (migrateStep state r).1 = (true, { wal with
          contents := wal.contents ++ (migrateStep state r).1.serialize, dirty := true
          log := wal.log ++ [(migrateStep state r).1] }) := by
        simp [WalFile.appendKv, WalFile.writeAll, hwal]
      rw [migrateLoop, happend]
      obtain ⟨hok, hcontents⟩ := @ih (migrateStep state r).2 { wal with
        contents := wal.contents ++ (migrateStep state r).1.serialize, dirty := true
        log := wal.log ++ [(migrateStep state r).1] } hwal
      refine ⟨hok, hcontents.trans ?_⟩
      simp [migrated, serializeAll]

end

/-! ### What legacy records mean -/

/-- What an alive key holds. -/
structure Entry where
  value : Bytes
  lease : Int64
  modRevision : UInt64
  createRevision : UInt64
  version : Int64

def KeyState.entry (ks : KeyState) : Entry :=
  { value := ks.value, lease := ks.lease, modRevision := ks.modRevision
    createRevision := ks.createRevision, version := ks.version }

/-- The entry of a put that finds the given one alive. -/
def WalRecord.entry (r : WalRecord) (prev : Option Entry) : Entry :=
  { value := r.value
    lease := r.leaseId.getD 0
    modRevision := r.revision
    createRevision := (prev.map (·.createRevision)).getD r.revision
    version := (prev.map (·.version + 1)).getD 1 }

/-- A put begins or continues a lifetime, a delete ends it. -/
def legacyStep (m : Bytes → Option Entry) (r : WalRecord) : Bytes → Option Entry :=
  Function.update m r.key (if r.deleted then none else some (r.entry (m r.key)))

/-- The alive map after some legacy records. -/
def foldLegacy (rs : List WalRecord) : Bytes → Option Entry := rs.foldl legacyStep fun _ => none

/-- The highest revision of some legacy records. -/
def highestRevision (rs : List WalRecord) : Nat :=
  rs.foldl (fun n r => max n r.revision.toNat) 0

/-- The WAL record of the entry is under 4 GiB. -/
def Entry.Fits (key : Bytes) (e : Entry) : Prop :=
  kvHeaderSize + (encodeKv key e.value e.createRevision.toInt64 e.modRevision.toInt64 e.version
    e.lease).1.length + kvCrcSize < 2 ^ 32

/-- Every entry that comes up on the way is under 4 GiB as a record. -/
def EntriesFit (m : Bytes → Option Entry) (rs : List WalRecord) : Prop :=
  ∀ before r after, rs = before ++ r :: after →
    ∀ e, (before ++ [r]).foldl legacyStep m r.key = some e → e.Fits r.key

theorem entriesFit_cons {m : Bytes → Option Entry} {r : WalRecord} {rs : List WalRecord} :
    EntriesFit m (r :: rs) ↔
      (∀ e, legacyStep m r r.key = some e → e.Fits r.key) ∧ EntriesFit (legacyStep m r) rs := by
  constructor
  · intro h
    refine ⟨h [] r rs rfl, ?_⟩
    intro before r' after hsplit
    exact h (r :: before) r' after (by rw [hsplit]; rfl)
  · intro h before r' after hsplit
    cases before with
    | nil =>
        obtain ⟨rfl, rfl⟩ := List.cons.inj hsplit
        exact h.1
    | cons r'' before =>
        obtain ⟨rfl, rfl⟩ := List.cons.inj hsplit
        exact h.2 before r' after rfl

/-- What the tool remembers of an entry. -/
def Entry.migrated (e : Entry) : MigratedKey :=
  { createRevision := e.createRevision, version := e.version, value := e.value, lease := e.lease }

/-- The tool's map is that of the fold, without the modification revisions. -/
def Tracks (state : ExtTreeMap Bytes MigratedKey) (m : Bytes → Option Entry) : Prop :=
  ∀ key : Bytes, state[key]? = (m key).map Entry.migrated

theorem WalRecord.lease_eq {r : WalRecord} (h : r.hasLease = r.leaseId.isSome) :
    r.lease = r.leaseId.getD 0 := by
  rw [WalRecord.lease, h]
  cases r.leaseId <;> rfl

section

variable [Crates]

/-- The WAL record of an entry at a revision. -/
def Entry.record (flags : UInt8) (key : Bytes) (rev : UInt64) (e : Entry) : KvWalRecord :=
  .new flags key e.value e.createRevision.toInt64 rev.toInt64 e.version e.lease

variable {state : ExtTreeMap Bytes MigratedKey} {m : Bytes → Option Entry} {r : WalRecord}

/-- The record of a put has the metadata of the fold. -/
theorem migrateStep_put (h : Tracks state m) (hlease : r.hasLease = r.leaseId.isSome)
    (hdel : r.deleted = false) :
    migrateStep state r
      = ((r.entry (m r.key)).record (if r.lease ≠ 0 then IS_CREATE ||| HAS_LEASE else IS_CREATE)
          r.key r.revision,
        state.insert r.key (r.entry (m r.key)).migrated) := by
  rw [migrateStep, hdel, h r.key, r.lease_eq hlease]
  cases hm : m r.key <;> rfl

theorem migrateStep_delete (h : Tracks state m) (hdel : r.deleted = true) {e : Entry}
    (he : m r.key = some e) :
    migrateStep state r
      = (e.record (if e.lease ≠ 0 then DELETED ||| HAS_LEASE else DELETED) r.key r.revision,
        state.erase r.key) := by
  rw [migrateStep, hdel, h r.key, he]
  rfl

theorem migrateStep_absent (h : Tracks state m) (hdel : r.deleted = true)
    (hnone : m r.key = none) :
    migrateStep state r = (.new DELETED r.key [] 0 r.revision.toInt64 0 0, state) := by
  rw [migrateStep, hdel, h r.key, hnone]
  rfl

omit [Crates] in
theorem legacyStep_put (m : Bytes → Option Entry) (hdel : r.deleted = false) :
    legacyStep m r = Function.update m r.key (some (r.entry (m r.key))) := by
  rw [legacyStep, hdel]
  rfl

omit [Crates] in
theorem legacyStep_delete (m : Bytes → Option Entry) (hdel : r.deleted = true) :
    legacyStep m r = Function.update m r.key none := by
  rw [legacyStep, hdel]
  rfl

/-- The tool keeps track of the fold. -/
theorem Tracks.step (h : Tracks state m) (hlease : r.hasLease = r.leaseId.isSome) :
    Tracks (migrateStep state r).2 (legacyStep m r) := by
  intro key
  cases hdel : r.deleted with
  | false =>
      rw [migrateStep_put h hlease hdel, legacyStep_put m hdel, ExtTreeMap.getElem?_insert]
      by_cases hkey : r.key = key
      · subst hkey
        simp
      -- other keys are left alone by both
      · rw [if_neg (by simpa using hkey), Function.update_of_ne (Ne.symm hkey), h key]
  | true =>
      rw [legacyStep_delete m hdel]
      by_cases hkey : r.key = key
      · subst hkey
        rw [Function.update_self, Option.map_none]
        cases hm : m r.key with
        | none => rw [migrateStep_absent h hdel hm, h r.key, hm, Option.map_none]
        | some e => rw [migrateStep_delete h hdel hm, ExtTreeMap.getElem?_erase_self]
      · rw [Function.update_of_ne (Ne.symm hkey)]
        cases hm : m r.key with
        | none => rw [migrateStep_absent h hdel hm, h key]
        | some e =>
            rw [migrateStep_delete h hdel hm, ExtTreeMap.getElem?_erase,
              if_neg (by simpa using hkey), h key]

end

/-! ### The store on the migrated file -/

/-- A keyspace that holds the alive map of the fold, with the blobs that go with it. -/
structure Holds (K : Keyspace) (m : Bytes → Option Entry) : Prop where
  entry : ∀ key : Bytes, (aliveIn K.keys key).map KeyState.entry = m key
  blob : ∀ (key : Bytes) (ks : KeyState), aliveIn K.keys key = some ks →
    ks.kvBytes = makeKvBytes key ks

/-- The entries are small enough to be logged again when they are deleted. -/
def Deletable (m : Bytes → Option Entry) : Prop :=
  ∀ key e, m key = some e → key.length ≤ 65000 ∧ e.Fits key

theorem Deletable.step {m : Bytes → Option Entry} {r : WalRecord} (h : Deletable m)
    (hkey : r.key.length ≤ 65000) (hfits : ∀ e, legacyStep m r r.key = some e → e.Fits r.key) :
    Deletable (legacyStep m r) := by
  intro key e he
  by_cases hsame : key = r.key
  · subst hsame
    exact ⟨hkey, hfits e he⟩
  · rw [legacyStep, Function.update_of_ne hsame] at he
    exact h key e he

section

variable [Crates] [LawfulCrates]

/-- What the record of an entry under 4 GiB gives back. -/
theorem Entry.record_spec {e : Entry} {key : Bytes} (hkey : key.length ≤ 65000) (h : e.Fits key)
    (flags : UInt8) (rev : UInt64) :
    (e.record flags key rev).WellFormed ∧ (e.record flags key rev).key = some key ∧
      (e.record flags key rev).revision = rev ∧
      decodeKeyValue (e.record flags key rev).kvBytes = some
        ⟨key, e.createRevision.toInt64, rev.toInt64, e.version, e.value, e.lease⟩ := by
  have hsize : kvHeaderSize + (encodeKv key e.value e.createRevision.toInt64 rev.toInt64 e.version
      e.lease).1.length + kvCrcSize < 2 ^ 32 := by
    rw [length_encodeKv]
    rw [Entry.Fits, length_encodeKv] at h
    exact h
  have hfits : (e.record flags key rev).Fits := KvWalRecord.fits_new (by omega) hsize
  obtain ⟨hwf, hread, hrev, hdec⟩ := hfits.new_spec
  exact ⟨hwf, hread, hrev.trans (UInt64.toUInt64_toInt64 rev), hdec⟩

omit [Crates] [LawfulCrates] in
/-- A deletion of nothing is small. -/
theorem fits_absent {key : Bytes} (hkey : key.length ≤ 65000) :
    Entry.Fits key { value := [], lease := 0, modRevision := 0, createRevision := 0, version := 0 }
    := by
  have hhead := length_kvHead_le key 0
  have hzero : (encodeVarint (0 : Int64).toUInt64).length = 1 := by decide
  rw [Entry.Fits, length_encodeKv, show (0 : UInt64).toInt64 = 0 from rfl, kvTail]
  simp only [List.length_append, List.length_cons, List.length_nil, length_encodeOverlongU32,
    hzero, kvHeaderSize, kvCrcSize]
  omega

omit [Crates] [LawfulCrates] in
/-- After a put, the key holds its entry. -/
theorem Holds.put {K : Keyspace} {m : Bytes → Option Entry} (h : Holds K m) {key : Bytes}
    {ks : KeyState} {n : Nat} (halive : ks.isAlive = true)
    (hblob : ks.kvBytes = makeKvBytes key ks) :
    Holds ⟨K.keys.insert key ks, n⟩ (Function.update m key (some ks.entry)) where
  entry := by
    intro key'
    by_cases hkey : key = key'
    · subst hkey
      rw [aliveIn, ExtTreeMap.getElem?_insert_self, Option.filter_some, if_pos halive,
        Function.update_self]
      rfl
    · rw [aliveIn, ExtTreeMap.getElem?_insert, if_neg (by simpa using hkey),
        Function.update_of_ne (Ne.symm hkey)]
      exact h.entry key'
  blob := by
    intro key' ks' hks'
    obtain ⟨hget, halive'⟩ := aliveIn_eq_some.mp hks'
    rcases getElem?_insert_cases hget with ⟨rfl, rfl⟩ | ⟨-, hget⟩
    · exact hblob
    · exact h.blob key' ks' (aliveIn_eq_some.mpr ⟨hget, halive'⟩)

omit [Crates] [LawfulCrates] in
/-- After a deletion at a revision that makes a tombstone, it holds nothing. -/
theorem Holds.delete {K : Keyspace} {m : Bytes → Option Entry} (h : Holds K m) {key : Bytes}
    {ks : KeyState} {n : Nat} (hdead : ks.isAlive = false) :
    Holds ⟨K.keys.insert key ks, n⟩ (Function.update m key none) where
  entry := by
    intro key'
    by_cases hkey : key = key'
    · subst hkey
      rw [aliveIn, ExtTreeMap.getElem?_insert_self, Option.filter_some, hdead,
        Function.update_self]
      rfl
    · rw [aliveIn, ExtTreeMap.getElem?_insert, if_neg (by simpa using hkey),
        Function.update_of_ne (Ne.symm hkey)]
      exact h.entry key'
  blob := by
    intro key' ks' hks'
    obtain ⟨hget, halive'⟩ := aliveIn_eq_some.mp hks'
    rcases getElem?_insert_cases hget with ⟨-, rfl⟩ | ⟨-, hget⟩
    · rw [hdead] at halive'
      cases halive'
    · exact h.blob key' ks' (aliveIn_eq_some.mpr ⟨hget, halive'⟩)

/-- Replaying the record of a put. -/
theorem Holds.replay_put {K : Keyspace} {m : Bytes → Option Entry} {r : WalRecord} {flags : UInt8}
    (h : Holds K m) (hdel : r.deleted = false) (hflags : flags &&& DELETED = 0)
    (hkey : r.key.length ≤ 65000) (hfit : (r.entry (m r.key)).Fits r.key) :
    ∃ K', K.replay? ((r.entry (m r.key)).record flags r.key r.revision) = some K' ∧
      Holds K' (legacyStep m r) := by
  obtain ⟨-, -, hrevision, hdec⟩ := Entry.record_spec hkey hfit flags r.revision
  have hput : ((r.entry (m r.key)).record flags r.key r.revision).deleted = false := by
    rw [Entry.record, KvWalRecord.deleted, flags_new, hflags]
    rfl
  rw [Keyspace.replay?, hput, if_neg (by simp), hdec]
  refine ⟨_, rfl, ?_⟩
  dsimp only
  rw [hrevision, legacyStep_put m hdel]
  -- what `apply` computes anew is what the fold has
  generalize hks : putEntry K.keys r.key (r.entry (m r.key)).value (r.entry (m r.key)).lease
    r.revision (some ((r.entry (m r.key)).record flags r.key r.revision).kvBytes) = ks
  have hentry : ks.entry = r.entry (m r.key) := by
    rw [← hks, ← h.entry r.key]
    cases halive : aliveIn K.keys r.key <;>
      simp [putEntry, halive, KeyState.entry, WalRecord.entry]
  have hblob : ks.kvBytes = makeKvBytes r.key ks := by
    have hmake : makeKvBytes r.key ks = (encodeKv r.key ks.entry.value
        ks.entry.createRevision.toInt64 ks.entry.modRevision.toInt64 ks.entry.version
        ks.entry.lease).1 := rfl
    rw [hmake, hentry, ← hks]
    rfl
  rw [← hentry]
  exact h.put (by rw [← hks]; rfl) hblob

/-- Replaying the record of a deletion of an alive key. -/
theorem Holds.replay_delete {K : Keyspace} {m : Bytes → Option Entry} {r : WalRecord}
    {flags : UInt8} (h : Holds K m) (hdel : r.deleted = true) (hflags : flags &&& DELETED ≠ 0)
    (hrev : r.revision ≠ 0) (hkey : r.key.length ≤ 65000) {e : Entry} (he : m r.key = some e)
    (hfit : e.Fits r.key) :
    ∃ K', K.replay? (e.record flags r.key r.revision) = some K' ∧ Holds K' (legacyStep m r) := by
  obtain ⟨-, hread, hrevision, -⟩ := Entry.record_spec hkey hfit flags r.revision
  have hdeleted : (e.record flags r.key r.revision).deleted = true := by
    rw [Entry.record, KvWalRecord.deleted, flags_new]
    simpa using hflags
  have hentry := h.entry r.key
  rw [he] at hentry
  obtain ⟨prev, hprev, -⟩ := Option.map_eq_some_iff.mp hentry
  -- the blob of an alive entry is a fresh encoding, which `apply_delete` knows how to patch
  have hpatch := @withModRevision_encodeKv r.key prev.value prev.createRevision.toInt64
    prev.modRevision.toInt64 prev.version prev.lease r.revision (by omega)
  rw [Keyspace.replay?, hdeleted, if_pos rfl, hread, hrevision, Option.getD_some, hprev]
  dsimp only
  rw [h.blob r.key prev hprev, makeKvBytes, hpatch, Option.map_some]
  refine ⟨_, rfl, ?_⟩
  rw [legacyStep_delete m hdel]
  exact h.delete (by simpa [KeyState.isAlive] using hrev)

/-- Replaying the record of a deletion of nothing. -/
theorem Holds.replay_absent {K : Keyspace} {m : Bytes → Option Entry} {r : WalRecord}
    (h : Holds K m) (hdel : r.deleted = true) (hkey : r.key.length ≤ 65000)
    (hnone : m r.key = none) :
    ∃ K', K.replay? (.new DELETED r.key [] 0 r.revision.toInt64 0 0) = some K' ∧
      Holds K' (legacyStep m r) := by
  obtain ⟨-, hread, -, -⟩ := Entry.record_spec hkey (fits_absent hkey) DELETED r.revision
  have hentry := h.entry r.key
  rw [hnone] at hentry
  refine ⟨K, ?_, ?_⟩
  · have hdead : aliveIn K.keys
        ((KvWalRecord.new DELETED r.key [] 0 r.revision.toInt64 0 0).key.getD []) = none := by
      rw [show (KvWalRecord.new DELETED r.key [] 0 r.revision.toInt64 0 0).key = some r.key from
        hread]
      exact Option.map_eq_none_iff.mp hentry
    rw [Keyspace.replay?, if_pos (by rw [KvWalRecord.deleted, flags_new]; decide), hdead]
  · rw [legacyStep_delete m hdel, ← hnone, Function.update_eq_self]
    exact h

/-- **One migrated record replays as one step of the fold.** A put replays as a creation or as an
update, as the tool has flagged it, and a tombstone of a key that is not there is skipped. -/
theorem Holds.step {state : ExtTreeMap Bytes MigratedKey} {K : Keyspace}
    {m : Bytes → Option Entry} {r : WalRecord} (h : Holds K m) (ht : Tracks state m)
    (hd : Deletable m) (hrev : r.revision ≠ 0) (hkey : r.key.length ≤ 65000)
    (hlease : r.hasLease = r.leaseId.isSome)
    (hfits : ∀ e, legacyStep m r r.key = some e → e.Fits r.key) :
    ((migrateStep state r).1.WellFormed ∧ (migrateStep state r).1.revision = r.revision) ∧
      ∃ K', K.replay? (migrateStep state r).1 = some K' ∧ Holds K' (legacyStep m r) := by
  cases hdel : r.deleted with
  | false =>
      have hfit : (r.entry (m r.key)).Fits r.key :=
        hfits _ (by rw [legacyStep_put m hdel, Function.update_self])
      rw [migrateStep_put ht hlease hdel]
      obtain ⟨hwf, -, hrevision, -⟩ := Entry.record_spec hkey hfit
        (if r.lease ≠ 0 then IS_CREATE ||| HAS_LEASE else IS_CREATE) r.revision
      exact ⟨⟨hwf, hrevision⟩, h.replay_put hdel (by split <;> decide) hkey hfit⟩
  -- a tombstone is written either way, and only an alive key feels it
  | true =>
      cases hm : m r.key with
      | none =>
          rw [migrateStep_absent ht hdel hm]
          obtain ⟨hwf, -, hrevision, -⟩ := Entry.record_spec hkey (fits_absent hkey) DELETED
            r.revision
          exact ⟨⟨hwf, hrevision⟩, h.replay_absent hdel hkey hm⟩
      | some e =>
          rw [migrateStep_delete ht hdel hm]
          have hfit := (hd r.key e hm).2
          obtain ⟨hwf, -, hrevision, -⟩ := Entry.record_spec hkey hfit
            (if e.lease ≠ 0 then DELETED ||| HAS_LEASE else DELETED) r.revision
          exact ⟨⟨hwf, hrevision⟩, h.replay_delete hdel (by split <;> decide) hrev hkey hm hfit⟩

/-- What the tool is meant for: revisions from 1 on, a lease where the flags say so, and keys whose
revision the accessors of the new format find. -/
structure WalRecord.Legal (r : WalRecord) : Prop where
  revision_pos : 1 ≤ r.revision.toNat
  lease : r.hasLease = r.leaseId.isSome
  key_le : r.key.length ≤ 65000

/-- **The migrated records replay as the fold.** By induction on the legacy records, with the map of
the tool alongside. -/
theorem Holds.run {rs : List WalRecord} :
    ∀ {state : ExtTreeMap Bytes MigratedKey} {K : Keyspace} {m : Bytes → Option Entry},
      Holds K m → Tracks state m → Deletable m → (∀ r ∈ rs, r.Legal) → EntriesFit m rs →
        (∀ rec ∈ migrated state rs, rec.WellFormed) ∧
          (migrated state rs).map (·.revision) = rs.map (·.revision) ∧
          ∃ K', K.replayAll? (migrated state rs) = some K' ∧ Holds K' (rs.foldl legacyStep m) := by
  induction rs with
  | nil =>
      intro state K m h _ _ _ _
      exact ⟨by simp [migrated], rfl, K, rfl, h⟩
  | cons r rs ih =>
      intro state K m h ht hd hlegal hfits
      obtain ⟨hfirst, hrest⟩ := entriesFit_cons.mp hfits
      have hr := hlegal r (by simp)
      have hrev : r.revision ≠ 0 := by
        intro hzero
        have := hr.revision_pos
        rw [hzero] at this
        cases this
      -- the tool's map, the store and the fold move on together
      obtain ⟨⟨hwf, hrevision⟩, K', hK', hstep⟩ := h.step ht hd hrev hr.key_le hr.lease hfirst
      obtain ⟨hwfs, hrevisions, K'', hK'', hend⟩ := ih hstep (ht.step hr.lease)
        (hd.step hr.key_le hfirst) (fun r hr => hlegal r (by simp [hr])) hrest
      refine ⟨?_, ?_, K'', ?_, hend⟩
      · intro rec hrec
        rcases List.mem_cons.mp hrec with rfl | hrec
        · exact hwf
        · exact hwfs rec hrec
      · rw [migrated, List.map_cons, List.map_cons, hrevision, hrevisions]
      · rw [migrated, Keyspace.replayAll?_cons, hK']
        exact hK''

omit [LawfulCrates] in
/-- Records of entries are as long as their entries need. -/
theorem entriesFit_of_lengths {rs : List WalRecord} :
    ∀ {state : ExtTreeMap Bytes MigratedKey} {m : Bytes → Option Entry}, Tracks state m →
      (∀ r ∈ rs, r.Legal) → (∀ rec ∈ migrated state rs, rec.serialize.length < 2 ^ 32) →
        EntriesFit m rs := by
  induction rs with
  | nil =>
      intro state m _ _ _ before r after hsplit
      cases before <;> cases hsplit
  | cons r rs ih =>
      intro state m ht hlegal hlengths
      have hr := hlegal r (by simp)
      refine entriesFit_cons.mpr ⟨?_, ih (ht.step hr.lease) (fun r hr => hlegal r (by simp [hr]))
        fun rec hrec => hlengths rec (by simp [migrated, hrec])⟩
      intro e he
      have hlen := hlengths (migrateStep state r).1 (by simp [migrated])
      cases hdel : r.deleted with
      | true =>
          rw [legacyStep_delete m hdel, Function.update_self] at he
          cases he
      | false =>
          rw [legacyStep_put m hdel, Function.update_self] at he
          cases he
          rw [migrateStep_put ht hr.lease hdel, KvWalRecord.length_serialize] at hlen
          exact hlen

omit [Crates] [LawfulCrates] in
theorem toNat_maxRevision {rs : List WalRecord} :
    ∀ {recs : List KvWalRecord} {n : UInt64}, recs.map (·.revision) = rs.map (·.revision) →
      (maxRevision recs n).toNat = rs.foldl (fun n r => max n r.revision.toNat) n.toNat := by
  induction rs with
  | nil =>
      intro recs n h
      rw [List.map_nil, List.map_eq_nil_iff] at h
      rw [h]
      rfl
  | cons r rs ih =>
      intro recs n h
      cases recs with
      | nil => cases h
      | cons rec recs =>
          obtain ⟨hrev, hrest⟩ := List.cons.inj h
          have hmax : (if rec.revision > n then rec.revision else n).toNat
              = max n.toNat r.revision.toNat := by
            rw [show rec.revision = r.revision from hrev]
            by_cases hgt : r.revision > n
            · rw [if_pos hgt, Nat.max_eq_right (Nat.le_of_lt (UInt64.lt_iff_toNat_lt.mp hgt))]
            · rw [if_neg hgt, Nat.max_eq_left (UInt64.le_iff_toNat_le.mp (UInt64.not_lt.mp hgt))]
          rw [List.foldl_cons, ← hmax]
          exact ih hrest

omit [Crates] [LawfulCrates] in
theorem highestRevision_spec {rs : List WalRecord} {n bound : Nat} :
    rs.foldl (fun n r => max n r.revision.toNat) n < bound ↔
      n < bound ∧ ∀ r ∈ rs, r.revision.toNat < bound := by
  induction rs generalizing n with
  | nil => simp
  | cons r rs ih =>
      rw [List.foldl_cons, ih, Nat.max_lt]
      simp only [List.mem_cons, forall_eq_or_imp]
      exact and_assoc

omit [Crates] [LawfulCrates] in
theorem tracks_empty : Tracks ∅ fun _ => none := fun key => by simp

/-- What the migration should do: read the legacy records, and write a file on which a store opens
with their alive map and goes on counting from their highest revision. -/
def Migrates (now : Nat) (rs : List WalRecord) : Prop :=
  readOldRecords (legacyFile rs) = rs ∧ (migrate rs).1 = true ∧
    ∃ s, openStore now (migrate rs).2.contents = .ok s ∧
      (∀ key, (s.alive? key).map KeyState.entry = foldLegacy rs key) ∧
      s.nextRev.toNat = highestRevision rs + 1

/-- **The migration preserves meaning** if the values are short enough for the legacy format, the
entries for the new one, and the highest revision has a successor. The first and the last are
necessary as well, and the second exactly when all the new records are to be read back. -/
theorem migration_preserves (now : Nat) (rs : List WalRecord) (hlegal : ∀ r ∈ rs, r.Legal) :
    (((∀ r ∈ rs, r.value.length < 2 ^ 32) ∧ (∀ r ∈ rs, r.revision.toNat + 1 < 2 ^ 64) ∧
        EntriesFit (fun _ => none) rs) → Migrates now rs) ∧
      (Migrates now rs →
        (∀ r ∈ rs, r.value.length < 2 ^ 32) ∧ ∀ r ∈ rs, r.revision.toNat + 1 < 2 ^ 64) ∧
      (scanKvCollect (migrate rs).2.contents = .ok (migrated ∅ rs) ↔
        EntriesFit (fun _ => none) rs) := by
  have htracks : Tracks ∅ fun _ => none := tracks_empty
  obtain ⟨hwritten, hcontents⟩ := @migrateLoop_spec _ rs ∅ (.open []) rfl
  have hfile : (migrate rs).2.contents = serializeAll (migrated ∅ rs) := hcontents
  have hholds : Holds .empty fun _ => none :=
    ⟨fun key => by simp [Keyspace.empty, aliveIn], fun key ks hks => by
      simp [Keyspace.empty, aliveIn] at hks⟩
  have hrun (hfits : EntriesFit (fun _ => none) rs) :=
    hholds.run htracks (by simp [Deletable]) hlegal hfits
  refine ⟨?_, ?_, ?_⟩
  · intro h
    obtain ⟨hvalues, hrevs, hfits⟩ := h
    obtain ⟨hwf, hrevisions, K, hK, hend⟩ := hrun hfits
    -- `Store::open` skips records of revision 0, and there are none
    have hnonzero : replayed (migrated ∅ rs) = migrated ∅ rs := by
      refine replayed_of_nonzero fun rec hrec hzero => ?_
      have hmem := List.mem_map_of_mem (f := (·.revision)) hrec
      rw [hrevisions] at hmem
      obtain ⟨r, hr, heq⟩ := List.mem_map.mp hmem
      have hpos := (hlegal r hr).revision_pos
      rw [heq, hzero] at hpos
      cases hpos
    refine ⟨readOldRecords_legacyFile fun r hr => ⟨?_, hvalues r hr, (hlegal r hr).lease⟩, hwritten,
      opened now (migrate rs).2.contents (migrated ∅ rs) K, ?_, hend.entry, ?_⟩
    · have := (hlegal r hr).key_le
      omega
    · exact openStore_of_scan (hfile ▸ scanKvFile_serializeAll hwf) (by rw [hnonzero, hK])
    · have hmax : (maxRevision (migrated ∅ rs) 0).toNat = highestRevision rs :=
        toNat_maxRevision hrevisions
      have hlt : highestRevision rs < 2 ^ 64 - 1 :=
        highestRevision_spec.mpr ⟨by omega, fun r hr => by have := hrevs r hr; omega⟩
      rw [opened_nextRev, UInt64.toNat_add, hmax]
      exact Nat.mod_eq_of_lt (by show highestRevision rs + 1 < 2 ^ 64; omega)
  · intro h
    obtain ⟨hread, -, s, -, -, hnext⟩ := h
    refine ⟨fun r hr => ?_, fun r hr => ?_⟩
    · rw [← hread] at hr
      exact (storable_of_mem_readOldRecords hr).value_lt
    · have hlt := s.nextRev.toNat_lt
      have := (highestRevision_spec.mp (show highestRevision rs < 2 ^ 64 - 1 by omega)).2 r hr
      omega
  · constructor
    · intro h
      refine entriesFit_of_lengths htracks hlegal fun rec hrec => ?_
      rw [(wellFormed_of_scanKvCollect h hrec).length_serialize]
      exact rec.recLen.toNat_lt
    · intro h
      rw [scanKvCollect, hfile, scanKvFile_serializeAll (hrun h).1]

end

/-- A lifetime of two puts, a second one under a lease, and a deletion of nothing. -/
def lifetimes : List WalRecord :=
  [⟨3, [107], [1], 0, none⟩, ⟨4, [107], [2], IS_CREATE, none⟩, ⟨5, [107], [], DELETED, none⟩,
    ⟨7, [107], [3], HAS_LEASE, some 9⟩, ⟨6, [108], [], DELETED, none⟩]

theorem legal_lifetimes : ∀ r ∈ lifetimes, r.Legal := by
  intro r hr
  simp only [lifetimes, List.mem_cons, List.not_mem_nil, or_false] at hr
  rcases hr with rfl | rfl | rfl | rfl | rfl
  all_goals exact ⟨by decide, by decide, by decide⟩

theorem migration_preserves_lifetimes : Migrates 0 lifetimes :=
  (migration_preserves 0 lifetimes legal_lifetimes).1 ⟨by decide, by decide,
    entriesFit_of_lengths tracks_empty legal_lifetimes (by decide +kernel)⟩

/-- A record at the highest revision there is: the counter starts again at 0. -/
theorem last_revision_wraps :
    ¬ ∀ (now : Nat) (rs : List WalRecord), (∀ r ∈ rs, r.Legal) → Migrates now rs := by
  intro h
  have hlegal : ∀ r ∈ [WalRecord.mk (2 ^ 64 - 1) [107] [118] 0 none], r.Legal :=
    fun r hr => List.mem_singleton.mp hr ▸ ⟨by decide +kernel, by decide, by decide⟩
  obtain ⟨-, -, s, -, -, hnext⟩ := h 0 _ hlegal
  -- a counter that stands past the highest revision has not wrapped around
  have hlt := s.nextRev.toNat_lt
  have hhighest : highestRevision [WalRecord.mk (2 ^ 64 - 1) [107] [118] 0 none] = 2 ^ 64 - 1 := by
    decide +kernel
  omega

end Rudurru
