import Rudurru.Recovery

/-!
# Rudurru.Compaction

What a compacted WAL replays to.

A snapshot holds one put record for each alive key. Its blob carries `create_revision` and
`version`, but replay derives both from the entry it finds, and it finds none: the replayed
entry starts a lifetime of its own at the key's `mod_revision` (`snapshotEntry`). From there
on the replayed keyspace follows the live one write by write. `Mirrors` is the relation it
keeps: the same keys are alive, with the same value, revision and lease, and the metadata is
off by what the snapshot lost.

A compaction runs in three phases with requests in between: the snapshot, the copy of what was
appended since, the swap. `Pending` says of the file in preparation that its records are those of
the snapshot and then those of the writes up to the copy, so the swap leaves a file that replays to
a mirror of the live keyspace. From there the invariant goes round: the next compaction takes its
snapshot of the live map, which is the same whatever file it came from.
-/

namespace Rudurru

open Std (ExtTreeMap)
open Prog (exec)

/-! ### Snapshots -/

/-- The alive entries of a map, in key order. -/
def aliveEntries (keys : ExtTreeMap Bytes KeyState) : List (Bytes × KeyState) :=
  keys.toList.filter (·.2.isAlive)

theorem mem_aliveEntries {keys : ExtTreeMap Bytes KeyState} {key : Bytes} {ks : KeyState} :
    (key, ks) ∈ aliveEntries keys ↔ aliveIn keys key = some ks := by
  simp only [aliveEntries, List.mem_filter, ExtTreeMap.mem_toList_iff_getElem?_eq_some, aliveIn,
    Option.filter_eq_some_iff]

theorem nodup_aliveEntries (keys : ExtTreeMap Bytes KeyState) :
    ((aliveEntries keys).map (·.1)).Nodup :=
  nodup_keys_of_sublist List.filter_sublist

/-- What replay makes of a snapshot record: a key created by its last modification. -/
def snapshotEntry (key : Bytes) (ks : KeyState) : KeyState :=
  { value := ks.value
    modRevision := ks.modRevision
    createRevision := ks.modRevision
    version := 1
    lease := ks.lease
    deleteRevision := 0
    rebirth := false
    kvBytes := makeKvBytes key ks }

/-! ### Following the live keyspace

An entry and its mirror differ in metadata only, and they differ as long as the lifetime goes on
that the snapshot has cut off. A key that is created afterwards has the same entry on both sides.
-/

/-- The replayed entry `m` of a key whose live entry is `l`, when the replay started from a
snapshot of `base`. -/
inductive Mirror (base : ExtTreeMap Bytes KeyState) (key : Bytes) :
    Option KeyState → Option KeyState → Prop
  | absent : Mirror base key none none
  /-- Not written since the snapshot. -/
  | kept {a : KeyState} : aliveIn base key = some a →
      Mirror base key (some (snapshotEntry key a)) (some a)
  /-- Updated since the snapshot, within the lifetime the snapshot caught. -/
  | updated {a m l : KeyState} : aliveIn base key = some a →
      m.value = l.value → m.modRevision = l.modRevision → m.lease = l.lease →
      m.kvBytes = l.kvBytes → l.createRevision = a.createRevision →
      m.createRevision = a.modRevision → m.version = l.version - a.version + 1 →
      Mirror base key (some m) (some l)
  /-- Created since the snapshot. -/
  | created {m l : KeyState} :
      m.value = l.value → m.modRevision = l.modRevision → m.lease = l.lease →
      m.kvBytes = l.kvBytes → m.createRevision = l.createRevision → m.version = l.version →
      Mirror base key (some m) (some l)

/-- The replayed keyspace `K` follows the live keyspace `L`. -/
def Mirrors (base : ExtTreeMap Bytes KeyState) (K L : Keyspace) : Prop :=
  ∀ key, Mirror base key (aliveIn K.keys key) (aliveIn L.keys key)

theorem aliveIn_insert_self {keys : ExtTreeMap Bytes KeyState} {key : Bytes} {ks : KeyState} :
    aliveIn (keys.insert key ks) key = if ks.isAlive then some ks else none := by
  simp only [aliveIn, ExtTreeMap.getElem?_insert_self]
  rfl

theorem isAlive_putEntry {keys : ExtTreeMap Bytes KeyState} {key value : Bytes} {lease : Int64}
    {rev : UInt64} {blob : Option Bytes} :
    (putEntry keys key value lease rev blob).isAlive = true := rfl

/-- Without a snapshot, replay gives the live entries themselves. -/
theorem Mirrors.refl (base : ExtTreeMap Bytes KeyState) (K : Keyspace) : Mirrors base K K := by
  intro key
  cases aliveIn K.keys key with
  | none => exact .absent
  | some ks => exact .created rfl rfl rfl rfl rfl rfl

/-- Changing one key on both sides. -/
theorem Mirrors.insert {base : ExtTreeMap Bytes KeyState} {K L : Keyspace} (h : Mirrors base K L)
    {key : Bytes} {m l : KeyState} {n n' : Nat}
    (hkey : Mirror base key (if m.isAlive then some m else none)
      (if l.isAlive then some l else none)) :
    Mirrors base ⟨K.keys.insert key m, n⟩ ⟨L.keys.insert key l, n'⟩ := by
  intro key'
  by_cases heq : key = key'
  · subst heq
    simp only [aliveIn_insert_self]
    exact hkey
  · simp only [aliveIn_insert_of_ne heq]
    exact h key'

/-- Replaying a snapshot gives a mirror of the keyspace it was taken of. -/
theorem Mirrors.of_snapshot {base K : Keyspace}
    (hin : ∀ e ∈ aliveEntries base.keys, K.keys[e.1]? = some (snapshotEntry e.1 e.2))
    (hout : ∀ key, key ∉ (aliveEntries base.keys).map (·.1) → K.keys[key]? = none) :
    Mirrors base.keys K base := by
  intro key
  cases halive : aliveIn base.keys key with
  | none =>
      have hnot : key ∉ (aliveEntries base.keys).map (·.1) := by
        intro hmem
        obtain ⟨e, he, rfl⟩ := List.mem_map.mp hmem
        have := mem_aliveEntries.mp (show (e.1, e.2) ∈ _ from he)
        rw [halive] at this
        cases this
      rw [aliveIn, hout key hnot]
      exact .absent
  | some a =>
      have hentry := hin (key, a) (mem_aliveEntries.mpr halive)
      rw [aliveIn, hentry]
      exact .kept halive

/-- A put on both sides, where the replayed one takes the blob the live one computed. -/
theorem Mirrors.put {base : ExtTreeMap Bytes KeyState} {K L : Keyspace} (h : Mirrors base K L)
    (key value : Bytes) (lease : Int64) (rev : UInt64) (n n' : Nat) :
    Mirrors base
      ⟨K.keys.insert key (putEntry K.keys key value lease rev
        (some (putEntry L.keys key value lease rev none).kvBytes)), n⟩
      ⟨L.keys.insert key (putEntry L.keys key value lease rev none), n'⟩ := by
  refine h.insert ?_
  show Mirror base key (some _) (some _)
  have hkey := h key
  generalize hK : aliveIn K.keys key = m at hkey
  generalize hL : aliveIn L.keys key = l at hkey
  cases hkey with
  | absent =>
      exact .created rfl rfl rfl rfl (by simp [putEntry, hK, hL]) (by simp [putEntry, hK, hL])
  | kept hbase =>
      exact .updated hbase rfl rfl rfl rfl (by simp [putEntry, hL])
        (by simp [putEntry, hK, snapshotEntry])
        (by simp only [putEntry, hK, hL, snapshotEntry, Option.map_some, Option.getD_some]; grind)
  | @updated a m l hbase hvalue hmod hlease hblob hcreate hmcreate hversion =>
      exact .updated hbase rfl rfl rfl rfl (by simp [putEntry, hL, hcreate])
        (by simp [putEntry, hK, hmcreate])
        (by simp only [putEntry, hK, hL, hversion, Option.map_some, Option.getD_some]; grind)
  | created hvalue hmod hlease hblob hcreate hversion =>
      exact .created rfl rfl rfl rfl (by simp [putEntry, hK, hL, hcreate])
        (by simp [putEntry, hK, hL, hversion])

/-- A deletion on both sides. -/
theorem Mirrors.delete {base : ExtTreeMap Bytes KeyState} {K L : Keyspace} (h : Mirrors base K L)
    {key : Bytes} {m l : KeyState} (hK : aliveIn K.keys key = some m)
    (hL : aliveIn L.keys key = some l) (rev : UInt64) (n n' : Nat) :
    Mirrors base ⟨K.keys.insert key { m with deleteRevision := rev }, n⟩
      ⟨L.keys.insert key { l with deleteRevision := rev }, n'⟩ := by
  refine h.insert ?_
  by_cases hrev : rev = 0
  · -- revision zero marks an alive key: the entries stay what they are
    have hsame : ∀ {keys : ExtTreeMap Bytes KeyState} {ks : KeyState},
        aliveIn keys key = some ks → { ks with deleteRevision := rev } = ks := by
      intro keys ks halive
      have hzero : ks.deleteRevision = 0 := by
        simpa [KeyState.isAlive] using (Option.filter_eq_some_iff.mp halive).2
      cases ks
      simp only at hzero
      rw [hrev, hzero]
    have halive : ∀ {keys : ExtTreeMap Bytes KeyState} {ks : KeyState},
        aliveIn keys key = some ks → ks.isAlive = true :=
      fun halive => (Option.filter_eq_some_iff.mp halive).2
    rw [hsame hK, hsame hL, if_pos (halive hK), if_pos (halive hL), ← hK, ← hL]
    exact h key
  · simp only [KeyState.isAlive, hrev, decide_false, Bool.false_eq_true, if_false]
    exact .absent

/-- Every alive entry's blob is the encoding of its fields. -/
def Coherent (K : Keyspace) : Prop :=
  ∀ key ks, aliveIn K.keys key = some ks → ks.kvBytes = makeKvBytes key ks

theorem Coherent.apply {K : Keyspace} {w : Write} (h : Coherent K) (hw : K.Accepts w) :
    Coherent (K.apply w) := by
  intro key ks hks
  cases w with
  | put k value lease rev prev =>
      by_cases heq : k = key
      · subst heq
        rw [Keyspace.apply, aliveIn_insert_self, if_pos isAlive_putEntry] at hks
        cases hks
        rfl
      · rw [Keyspace.apply, aliveIn_insert_of_ne heq] at hks
        exact h key ks hks
  | delete k rev prev =>
      by_cases heq : k = key
      · subst heq
        rw [Keyspace.apply, aliveIn_insert_self] at hks
        split at hks
        · cases hks
          exact h k prev hw.1
        · cases hks
      · rw [Keyspace.apply, aliveIn_insert_of_ne heq] at hks
        exact h key ks hks

theorem Coherent.run {K K' : Keyspace} {ws : List Write} (h : Coherent K)
    (hrun : Keyspace.Run K ws K') : Coherent K' :=
  hrun.invariant h fun _ _ _ hK hw => hK.apply hw

/-- What clients see of a key. -/
def KeyState.data (ks : KeyState) : Bytes × Bytes × UInt64 × Int64 :=
  (ks.kvBytes, ks.value, ks.modRevision, ks.lease)

/-- A mirror of a coherent keyspace shows clients the same keys. -/
theorem Mirrors.data {base : ExtTreeMap Bytes KeyState} {K L : Keyspace} (h : Mirrors base K L)
    (hL : Coherent L) (key : Bytes) :
    (aliveIn K.keys key).map KeyState.data = (aliveIn L.keys key).map KeyState.data := by
  have hkey := h key
  generalize hm : aliveIn K.keys key = m at hkey
  generalize hl : aliveIn L.keys key = l at hkey
  cases hkey with
  | absent => rfl
  | @kept a hbase =>
      simp only [Option.map_some, KeyState.data, snapshotEntry, hL key a hl]
  | updated _ hvalue hmod hlease hblob | created hvalue hmod hlease hblob =>
      simp only [Option.map_some, KeyState.data, hvalue, hmod, hlease, hblob]

section

variable [Crates]

/-! ### Snapshot records -/

theorem snapshotRecords_eq (s : StoreState) :
    s.snapshotRecords = (aliveEntries s.keys).map fun e => snapshotRecord e.1 e.2 := rfl

theorem kvBytes_snapshotRecord (key : Bytes) (ks : KeyState) :
    (snapshotRecord key ks).kvBytes = makeKvBytes key ks := rfl

theorem deleted_snapshotRecord (key : Bytes) (ks : KeyState) :
    (snapshotRecord key ks).deleted = false := by
  simp only [snapshotRecord, KvWalRecord.deleted, flags_new]
  split <;> decide

/-! ### A compaction under way

The three phases of `compact_wal` with requests between them, and what is known of the file that is
being written.
-/

/-- What a running compaction has in hand: a snapshot of an earlier keyspace `base`, and a WAL that
has since grown by the writes from `base` to the present. Phase A takes the snapshot and the size of
the file, so what the file has gained since are the records of these writes; phase B copies them
behind the snapshot. -/
structure Pending (s : StoreState) (c : Compaction) (base : Keyspace) (ws : List Write) :
    Prop where
  target : c.target
    = serializeAll ((aliveEntries base.keys).map fun e => snapshotRecord e.1 e.2)
  snapshot_fits : ∀ e ∈ aliveEntries base.keys, (snapshotRecord e.1 e.2).Fits
  contents : ∃ before : Bytes, before.length = c.walSize ∧
    s.wal.contents = before ++ serializeAll (ws.map Write.record)
  run : Keyspace.Run base ws s.keyspace
  fits : ∀ w ∈ ws, w.record.Fits

theorem Pending.start {s : StoreState} (h : ∀ rec ∈ s.snapshotRecords, rec.Fits) :
    Pending s s.compactPhaseA s.keyspace [] where
  target := by
    simp only [StoreState.compactPhaseA, Compaction.target, compactPhaseB, snapshotRecords_eq,
      serializeAll, FramedLog.encodeAll]
    rfl
  snapshot_fits := fun e he => h _ (List.mem_map_of_mem he)
  contents := ⟨s.wal.contents, rfl, by simp [serializeAll, FramedLog.encodeAll]⟩
  run := .nil
  fits := by simp

theorem Pending.commits {s s' : StoreState} {c : Compaction} {base : Keyspace}
    {ws vs : List Write} (h : Pending s c base ws) (hc : Commits s vs s')
    (hfit : ∀ w ∈ vs, w.record.Fits) : Pending s' c base (ws ++ vs) where
  target := h.target
  snapshot_fits := h.snapshot_fits
  contents := by
    obtain ⟨before, hlen, hcontents⟩ := h.contents
    refine ⟨before, hlen, ?_⟩
    rw [hc.contents, hcontents, List.map_append, serializeAll_append, List.append_assoc]
  run := h.run.append hc.run
  fits := by
    intro w hw
    rcases List.mem_append.mp hw with hw | hw
    · exact h.fits w hw
    · exact hfit w hw

theorem Pending.quiet {s s' : StoreState} {c : Compaction} {base : Keyspace} {ws : List Write}
    (h : Pending s c base ws) (hq : Quiet s s') : Pending s' c base ws where
  target := h.target
  snapshot_fits := h.snapshot_fits
  contents := by
    rw [hq.wal]
    exact h.contents
  run := by
    rw [hq.keyspace]
    exact h.run
  fits := h.fits

/-- Phase B changes neither the data nor the position. -/
theorem Pending.phaseB {s : StoreState} {c c' : Compaction} {base : Keyspace} {ws : List Write}
    (h : Pending s c base ws) (htarget : c'.target = c.target) (hsize : c'.walSize = c.walSize) :
    Pending s c' base ws where
  target := htarget.trans h.target
  snapshot_fits := h.snapshot_fits
  contents := by
    rw [hsize]
    exact h.contents
  run := h.run
  fits := h.fits

/-- Phase C leaves the snapshot followed by the writes since. -/
theorem Pending.contents_swap {s : StoreState} {c : Compaction} {base : Keyspace}
    {ws : List Write} (h : Pending s c base ws) :
    (s.compactPhaseC c.target c.walSize).wal.contents
      = serializeAll ((aliveEntries base.keys).map (fun e => snapshotRecord e.1 e.2)
          ++ ws.map Write.record) := by
  obtain ⟨before, hlen, hcontents⟩ := h.contents
  have htail : (if s.wal.contents.length > c.walSize then s.wal.contents.drop c.walSize else [])
      = serializeAll (ws.map Write.record) := by
    rw [hcontents, ← hlen]
    split
    · rw [List.drop_left]
    · next hle =>
        rw [List.length_append] at hle
        exact (List.eq_nil_of_length_eq_zero (by omega)).symm
  simp only [StoreState.compactPhaseC]
  rw [htail, h.target, serializeAll_append]

/-! ### Replaying a compacted file -/

variable [LawfulCrates]

theorem revision_snapshotRecord {key : Bytes} {ks : KeyState} (h : (snapshotRecord key ks).Fits) :
    (snapshotRecord key ks).revision = ks.modRevision := by
  obtain ⟨-, -, hrev, -⟩ := KvWalRecord.Fits.new_spec h
  exact hrev.trans ks.modRevision.toUInt64_toInt64

theorem replay?_snapshotRecord {K : Keyspace} {key : Bytes} {ks : KeyState}
    (hnew : K.keys[key]? = none) (hfit : (snapshotRecord key ks).Fits) :
    ∃ n, K.replay? (snapshotRecord key ks)
      = some ⟨K.keys.insert key (snapshotEntry key ks), n⟩ := by
  obtain ⟨-, -, -, hdec⟩ := KvWalRecord.Fits.new_spec hfit
  have hdecode : decodeKeyValue (snapshotRecord key ks).kvBytes = some _ := hdec
  refine ⟨if (aliveIn K.keys key).isNone then K.keyCount + 1 else K.keyCount, ?_⟩
  rw [Keyspace.replay?, deleted_snapshotRecord, if_neg (by simp), hdecode]
  simp only [revision_snapshotRecord hfit, kvBytes_snapshotRecord, putEntry, aliveIn, hnew]
  rfl

/-- Replaying a snapshot inserts one entry for each of its keys. -/
theorem replay_snapshot {es : List (Bytes × KeyState)} (hnodup : (es.map (·.1)).Nodup)
    (hfit : ∀ e ∈ es, (snapshotRecord e.1 e.2).Fits) {K : Keyspace}
    (hnew : ∀ e ∈ es, K.keys[e.1]? = none) :
    ∃ K', K.replayAll? (es.map fun e => snapshotRecord e.1 e.2) = some K' ∧
      (∀ e ∈ es, K'.keys[e.1]? = some (snapshotEntry e.1 e.2)) ∧
      ∀ key, key ∉ es.map (·.1) → K'.keys[key]? = K.keys[key]? := by
  induction es generalizing K with
  | nil => exact ⟨K, rfl, by simp, by simp⟩
  | cons e es ih =>
      obtain ⟨he, hnodup⟩ := List.nodup_cons.mp hnodup
      obtain ⟨n, hreplay⟩ := replay?_snapshotRecord (hnew e (by simp)) (hfit e (by simp))
      have hother : ∀ key, key ≠ e.1 →
          (K.keys.insert e.1 (snapshotEntry e.1 e.2))[key]? = K.keys[key]? := by
        intro key hne
        simp [ExtTreeMap.getElem?_insert, hne.symm]
      have hne : ∀ e' ∈ es, e'.1 ≠ e.1 := by
        intro e' he' heq
        exact he (List.mem_map.mpr ⟨e', he', heq⟩)
      -- the first record makes its key known; the keys of the others are still new
      obtain ⟨K', hK', hin, hout⟩ :=
        ih (K := { keys := K.keys.insert e.1 (snapshotEntry e.1 e.2), keyCount := n }) hnodup
        (fun e' he' => hfit e' (by simp [he']))
        (fun e' he' => (hother e'.1 (hne e' he')).trans (hnew e' (by simp [he'])))
      refine ⟨K', ?_, ?_, ?_⟩
      · rw [List.map_cons, Keyspace.replayAll?_cons, hreplay]
        exact hK'
      · intro e' he'
        rcases List.mem_cons.mp he' with rfl | he'
        · rw [hout e'.1 he]
          simp
        · exact hin e' he'
      · intro key hkey
        rw [List.map_cons, List.mem_cons, not_or] at hkey
        rw [hout key hkey.2]
        exact hother key hkey.1

/-- **One write keeps the mirror.** A put to a key that the snapshot has goes on counting from the
version 1 that the snapshot gave it; a deletion or a new key ends the difference. -/
theorem Mirrors.step {base : ExtTreeMap Bytes KeyState} {K L : Keyspace} {w : Write}
    (h : Mirrors base K L) (hw : L.Accepts w) (hfit : w.record.Fits) :
    ∃ K', K.replay? w.record = some K' ∧ Mirrors base K' (L.apply w) := by
  obtain ⟨-, hkey, hrev⟩ := Write.record_spec hfit
  cases w with
  | put key value lease rev prev =>
      obtain rfl : aliveIn L.keys key = prev := hw
      obtain ⟨-, -, -, hdec⟩ := KvWalRecord.Fits.new_spec hfit
      have hdecode : decodeKeyValue (putRecord key value lease rev (aliveIn L.keys key)).kvBytes
          = some _ := hdec
      simp only [Write.record, Write.rev] at hrev ⊢
      refine ⟨_, ?_, h.put key value lease rev
        (if (aliveIn K.keys key).isNone then K.keyCount + 1 else K.keyCount) _⟩
      rw [Keyspace.replay?, deleted_putRecord, if_neg (by simp), hdecode]
      simp only [hrev, kvBytes_putRecord]
  | delete key rev prev =>
      obtain ⟨hL, hpatch⟩ := hw
      simp only [Write.record, Write.key, Write.rev] at hkey hrev ⊢
      have hmirror := h key
      rw [hL] at hmirror
      obtain ⟨m, hK⟩ : ∃ m, aliveIn K.keys key = some m := by
        cases hK : aliveIn K.keys key with
        | none => rw [hK] at hmirror; cases hmirror
        | some m => exact ⟨m, rfl⟩
      -- the replayed blob can be patched, be it the live one or a snapshot's
      obtain ⟨blob, hblob⟩ : ∃ blob, withModRevision m.kvBytes rev = some blob := by
        rw [hK] at hmirror
        cases hmirror with
        | kept => exact ⟨_, withModRevision_encodeKv rev (KvWalRecord.Fits.key_length hfit)⟩
        | updated _ _ _ _ hbytes | created _ _ _ hbytes =>
            rw [hbytes]
            exact Option.isSome_iff_exists.mp hpatch
      refine ⟨_, ?_, h.delete hK hL rev (K.keyCount - 1) _⟩
      rw [Keyspace.replay?, deleted_deleteRecord, if_pos rfl, hkey, hrev, Option.getD_some, hK]
      simp only [hblob, Option.map_some, Keyspace.apply]

/-- **A run of writes keeps the mirror.** -/
theorem Mirrors.run {base : ExtTreeMap Bytes KeyState} {K L L' : Keyspace} {ws : List Write}
    (h : Mirrors base K L) (hrun : Keyspace.Run L ws L') (hfit : ∀ w ∈ ws, w.record.Fits) :
    ∃ K', K.replayAll? (ws.map Write.record) = some K' ∧ Mirrors base K' L' := by
  induction hrun generalizing K with
  | nil => exact ⟨K, rfl, h⟩
  | @cons L L' w ws hw _ ih =>
      obtain ⟨K₁, hK₁, hmirrors⟩ := h.step hw (hfit w (by simp))
      obtain ⟨K', hK', hmirrors'⟩ := ih hmirrors fun v hv => hfit v (by simp [hv])
      refine ⟨K', ?_, hmirrors'⟩
      rw [List.map_cons, Keyspace.replayAll?_cons, hK₁]
      exact hK'

/-- The file a compaction leaves replays to a mirror of the live keyspace: the snapshot, then
the writes since. -/
theorem replay_compacted {base L : Keyspace} {ws : List Write}
    (hsnap : ∀ e ∈ aliveEntries base.keys, (snapshotRecord e.1 e.2).Fits)
    (hrun : Keyspace.Run base ws L) (hfit : ∀ w ∈ ws, w.record.Fits) :
    ∃ K, Keyspace.empty.replayAll?
        ((aliveEntries base.keys).map (fun e => snapshotRecord e.1 e.2) ++ ws.map Write.record)
          = some K ∧ Mirrors base.keys K L := by
  obtain ⟨K₀, hK₀, hin, hout⟩ := replay_snapshot (K := .empty) (nodup_aliveEntries base.keys) hsnap
    (by intro e _; exact ExtTreeMap.getElem?_empty)
  have hmirrors : Mirrors base.keys K₀ base := by
    refine .of_snapshot hin fun key hkey => ?_
    rw [hout key hkey]
    exact ExtTreeMap.getElem?_empty
  obtain ⟨K, hK, hmirrors'⟩ := hmirrors.run hrun hfit
  refine ⟨K, ?_, hmirrors'⟩
  rw [Keyspace.replayAll?_append, hK₀]
  exact hK

theorem wellFormed_compacted {base : Keyspace} {ws : List Write}
    (hsnap : ∀ e ∈ aliveEntries base.keys, (snapshotRecord e.1 e.2).Fits)
    (hfit : ∀ w ∈ ws, w.record.Fits) :
    ∀ r ∈ (aliveEntries base.keys).map (fun e => snapshotRecord e.1 e.2) ++ ws.map Write.record,
      r.WellFormed := by
  intro r hr
  rcases List.mem_append.mp hr with hr | hr
  · obtain ⟨e, he, rfl⟩ := List.mem_map.mp hr
    exact (KvWalRecord.Fits.new_spec (hsnap e he)).1
  · exact wellFormed_of_fits hfit r hr

/-! ### Any number of compactions -/

/-- The state of a process that has not been restarted: its WAL replays to a mirror of the live
keyspace, and so will the file a running compaction is preparing. `base` is the keyspace of the last
snapshot that went into the file, the empty one before the first. -/
structure Replayable (sys : System) : Prop where
  faults : sys.store.wal.faults = []
  coherent : Coherent sys.store.keyspace
  file : ∃ base recs K, sys.store.wal.contents = serializeAll recs ∧ (∀ r ∈ recs, r.WellFormed) ∧
    Keyspace.empty.replayAll? recs = some K ∧ Mirrors base K sys.store.keyspace
  pending : ∀ c, sys.compaction = some c → ∃ base ws, Pending sys.store c base ws

/-- Writes keep the process replayable. -/
theorem Replayable.commits {sys : System} (h : Replayable sys) {s' : StoreState} {ws : List Write}
    (hc : Commits sys.store ws s') (hfit : ∀ w ∈ ws, w.record.Fits) :
    Replayable { sys with store := s' } where
  faults := hc.faults
  coherent := h.coherent.run hc.run
  file := by
    obtain ⟨base, recs, K, hcontents, hwf, hK, hmirrors⟩ := h.file
    obtain ⟨K', hK', hmirrors'⟩ := hmirrors.run hc.run hfit
    refine ⟨base, recs ++ ws.map Write.record, K', ?_, ?_, ?_, hmirrors'⟩
    · rw [hc.contents, hcontents, serializeAll_append]
    · intro r hr
      rcases List.mem_append.mp hr with hr | hr
      · exact hwf r hr
      · exact wellFormed_of_fits hfit r hr
    · rw [Keyspace.replayAll?_append, hK]
      exact hK'
  pending := by
    intro c hcomp
    obtain ⟨base, vs, hpending⟩ := h.pending c hcomp
    exact ⟨base, vs ++ ws, hpending.commits hc hfit⟩

/-- **Every event but a restart keeps the process replayable.** A swap starts a new mirror, from the
snapshot of the compaction; everything else continues the one that is there. -/
theorem Replayable.step {sys sys' : System} {ev : Event} (h : Replayable sys)
    (hfit : sys.StepFits ev) (hev : ev.isRestart = false) (hstep : sys.step ev = some sys') :
    Replayable sys' := by
  cases System.moves_of_step h.faults hstep with
  | @request q ws s' hq hserved =>
      refine h.commits hserved.toCommits fun w hw => hfit s' hq _ ?_
      rw [hserved.log]
      exact List.mem_append_right _ (List.mem_map_of_mem hw)
  | watch hquiet => exact h.commits (hquiet.served h.faults).toCommits (by simp)
  | cancelWatch hquiet => exact h.commits (hquiet.served h.faults).toCommits (by simp)
  | compactA hnone =>
      refine ⟨h.faults, h.coherent, h.file, ?_⟩
      intro c hc
      cases hc
      exact ⟨_, _, .start hfit⟩
  | @compactB c c' hcomp htarget hsize =>
      refine ⟨h.faults, h.coherent, h.file, ?_⟩
      intro c'' hc
      cases hc
      obtain ⟨base, ws, hp⟩ := h.pending c hcomp
      exact ⟨base, ws, hp.phaseB htarget hsize⟩
  | @compactC c hcomp =>
      obtain ⟨base, ws, hp⟩ := h.pending c hcomp
      obtain ⟨K, hK, hmirrors⟩ := replay_compacted hp.snapshot_fits hp.run hp.fits
      refine ⟨h.faults, h.coherent, ?_, by simp⟩
      exact ⟨base.keys, _, K, hp.contents_swap, wellFormed_compacted hp.snapshot_fits hp.fits, hK,
        hmirrors⟩
  | compactFails => exact ⟨h.faults, h.coherent, h.file, by simp⟩
  | restart => cases hev

omit [LawfulCrates] in
theorem replayable_fresh : Replayable ⟨fresh, none⟩ where
  faults := rfl
  coherent := by
    intro key ks hks
    simp [aliveIn, fresh, StoreState.keyspace, StoreState.new] at hks
  file := ⟨∅, [], .empty, rfl, by simp, rfl, .refl _ _⟩
  pending := by simp

/-- **The tail-copy compaction loses and resurrects nothing.** In one process, whatever is
interleaved with the phases of whatever number of compactions, the WAL replays to exactly the
alive keys, with their blobs, values, revisions and leases, provided every record written fits
the format. -/
theorem compaction_keeps_alive_keys {evs : List Event} {sys : System}
    (hrun : System.run ⟨fresh, none⟩ evs = some sys) (hproc : ∀ ev ∈ evs, ev.isRestart = false)
    (hfit : Trace.Along System.step System.StepFits ⟨fresh, none⟩ evs) :
    ∃ recs n s', scanKvFile sys.store.wal.contents 0 = (recs, .ok n) ∧
      exec (recs.forM applyRecord) fresh = (.ok (), s') ∧
      ∀ key, (s'.alive? key).map KeyState.data = (sys.store.alive? key).map KeyState.data := by
  have h : Replayable sys := Trace.invariant (fun _ _ _ h hP hstep => h.step hP.1 hP.2 hstep)
    replayable_fresh (hfit.and_mem hproc) hrun
  -- what the invariant says of the file: its records replay to a keyspace that mirrors the live one
  obtain ⟨base, recs, K, hcontents, hwf, hK, hmirrors⟩ := h.file
  rw [hcontents]
  refine ⟨recs, _, fresh.withKeyspace K, scanKvFile_serializeAll hwf, ?_, ?_⟩
  · exact exec_forM_applyRecord rfl hK
  · exact hmirrors.data h.coherent

end

theorem compaction_keeps_alive_keys_interleaved :
    ∃ sys, System.run ⟨fresh, none⟩ [.request (.put { key := [1], value := [2] }), .compactA,
        .request (.deleteRange { key := [1] }), .compactB,
        .request (.put { key := [1], value := [3] }), .compactC] = some sys ∧
      ∃ recs n s', scanKvFile sys.store.wal.contents 0 = (recs, .ok n) ∧
        exec (recs.forM applyRecord) fresh = (.ok (), s') ∧
        ∀ key, (s'.alive? key).map KeyState.data = (sys.store.alive? key).map KeyState.data := by
  have hrun : (System.run ⟨fresh, none⟩ [.request (.put { key := [1], value := [2] }), .compactA,
      .request (.deleteRange { key := [1] }), .compactB,
      .request (.put { key := [1], value := [3] }), .compactC]).isSome = true := by
    decide +kernel
  obtain ⟨sys, hsys⟩ := Option.isSome_iff_exists.mp hrun
  exact ⟨sys, hsys, compaction_keeps_alive_keys hsys (by simp [Event.isRestart])
    (by decide +kernel)⟩

/-- The limit is needed here as well. -/
theorem oversized_put_breaks_compaction :
    ∃ sys, System.run ⟨fresh, none⟩
        [.request (.put { key := [1], value := List.replicate (2 ^ 32 - 43) 0 })] = some sys ∧
      ¬ ∃ recs n s', scanKvFile sys.store.wal.contents 0 = (recs, .ok n) ∧
        exec (recs.forM applyRecord) fresh = (.ok (), s') ∧
        ∀ key, (s'.alive? key).map KeyState.data = (sys.store.alive? key).map KeyState.data := by
  have hstep : ∀ value : Bytes, ∃ sys,
      System.run ⟨fresh, none⟩ [.request (.put { key := [1], value })] = some sys ∧
        sys.store.wal.contents = (putRecord [1] value 0 1 none).serialize :=
    fun value => ⟨_, rfl, rfl⟩
  obtain ⟨sys, hsys, hcontents⟩ := hstep (List.replicate (2 ^ 32 - 43) 0)
  refine ⟨sys, hsys, ?_⟩
  intro h
  obtain ⟨recs, n, s', hscan, -⟩ := h
  rw [hcontents, scanKvFile_oversized List.length_replicate] at hscan
  cases hscan

end Rudurru
