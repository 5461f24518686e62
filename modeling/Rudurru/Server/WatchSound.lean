import Rudurru.History

/-!
# Rudurru.Server.WatchSound

What a flush delivers. Phase 1 carries one map of blobs past all watchers, so each of them gets
what it would get alone (`WatchContext.replay`); with nothing running beside the flush, phase 2
has nothing to read.

A watcher that starts at a revision from which on every record stands alone gets one event for
each key last written there (`mem_filterMap_event?`), whatever order the records come in
(`replay_perm`).

The statement about order is what a compacted file needs: its records come in key order, and a
watcher from a revision at which they are all creations gets the same set of events from it as from
the old file.
-/

namespace Rudurru

open Std (ExtTreeMap)

/-! ### One watcher -/

/-- The blobs of alive keys after some records, of which those beyond `cur` are skipped. -/
def blobsUpTo (cur : UInt64) (recs : List KvWalRecord) (key : Bytes) : Option Bytes :=
  (lastData (recs.filter (·.revision ≤ cur)) key).map Prod.snd

/-- The event of a record, from the blob its key had before. -/
def recordEvent (rec : KvWalRecord) (key : Bytes) (prev : Option Bytes) : WatchEvent :=
  { revision := rec.revision
    eventType := if rec.deleted then .delete else .put
    key
    kvBytes := rec.kvBytes
    prevKvBytes := prev.getD [] }

namespace WatchContext

/-- Does phase 1 send the watcher an event? -/
def wants (ctx : WatchContext) (event : WatchEvent) : Bool :=
  event.revision ≥ ctx.pending.startRevision && matchesRange ctx.bound event.key
    && shouldSendEvent ctx.pending.filters event.eventType

/-- What phase 1 sends the watcher for a record, from the blobs before it. -/
def event? (ctx : WatchContext) (cur : UInt64) (prev : Bytes → Option Bytes) (rec : KvWalRecord) :
    Option WatchEvent :=
  if rec.revision ≤ cur then
    (rec.key.map fun key => recordEvent rec key (prev key)).filter ctx.wants
  else none

/-- What it sends for the records that come after `before`. -/
def replay (ctx : WatchContext) (cur : UInt64) : List KvWalRecord → List KvWalRecord →
    List WatchEvent
  | _, [] => []
  | before, rec :: recs =>
      (ctx.event? cur (blobsUpTo cur before) rec).toList ++ ctx.replay cur (before ++ [rec]) recs

/-- The watcher after some more events. -/
def receive (ctx : WatchContext) (events : List WatchEvent) : WatchContext :=
  { ctx with eventTx := ctx.eventTx ++ events }

@[simp] theorem receive_nil (ctx : WatchContext) : ctx.receive [] = ctx := by
  simp [receive]

@[simp] theorem receive_append (ctx : WatchContext) (events events' : List WatchEvent) :
    (ctx.receive events).receive events' = ctx.receive (events ++ events') := by
  simp [receive]

/-- What was sent before does not matter. -/
@[simp] theorem replay_receive (ctx : WatchContext) (events : List WatchEvent) (cur : UInt64)
    (before recs : List KvWalRecord) :
    (ctx.receive events).replay cur before recs = ctx.replay cur before recs := by
  induction recs generalizing before with
  | nil => rfl
  | cons rec recs ih =>
      rw [replay, replay, ih]
      rfl

end WatchContext

/-! ### Phase 1 -/

theorem blobsUpTo_concat (cur : UInt64) (before : List KvWalRecord) (rec : KvWalRecord)
    (key : Bytes) :
    blobsUpTo cur (before ++ [rec]) key
      = if rec.revision ≤ cur ∧ rec.key = some key then (recordData rec).map Prod.snd
        else blobsUpTo cur before key := by
  simp only [blobsUpTo]
  rw [List.filter_append]
  by_cases hrev : rec.revision ≤ cur
  · rw [List.filter_cons_of_pos (by simpa using hrev), List.filter_nil, lastData,
      KeyedLog.last_concat]
    by_cases hkey : rec.key = some key
    · rw [if_pos hkey, if_pos ⟨hrev, hkey⟩]
    · rw [if_neg hkey, if_neg fun h => hkey h.2]
  · rw [List.filter_cons_of_neg (by simpa using hrev), List.filter_nil, List.append_nil,
      if_neg fun h => hrev h.1]

/-- One record moves the blobs on. -/
theorem prevKvMap_phase1Record {cur : UInt64} {st : ReplayState} {before : List KvWalRecord}
    (h : ∀ key : Bytes, st.prevKvMap[key]? = blobsUpTo cur before key) (rec : KvWalRecord)
    (key : Bytes) :
    (phase1Record cur st rec).prevKvMap[key]? = blobsUpTo cur (before ++ [rec]) key := by
  rw [blobsUpTo_concat, ← h]
  unfold phase1Record replayRecord
  by_cases hrev : rec.revision ≤ cur
  · cases hkey : rec.key with
    | none => simp [hrev]
    | some recKey =>
        simp only [hrev, decide_true, Bool.not_true, Bool.false_eq_true, if_false, true_and,
          Option.some.injEq, recordData]
        by_cases hk : recKey = key
        · subst hk
          rw [if_pos rfl]
          split
          · rw [ExtTreeMap.getElem?_erase_self]
            rfl
          · rw [ExtTreeMap.getElem?_insert_self]
            rfl
        · rw [if_neg hk]
          split
          · rw [ExtTreeMap.getElem?_erase, if_neg (by simpa using hk)]
          · rw [ExtTreeMap.getElem?_insert, if_neg (by simpa using hk)]
  · simp [hrev]

/-- Every watcher gets its event of the record. -/
theorem active_phase1Record {cur : UInt64} {st : ReplayState} {before : List KvWalRecord}
    (h : ∀ key : Bytes, st.prevKvMap[key]? = blobsUpTo cur before key) (rec : KvWalRecord) :
    (phase1Record cur st rec).active = st.active.map fun ctx =>
      ctx.receive (ctx.event? cur (blobsUpTo cur before) rec).toList := by
  unfold phase1Record replayRecord
  by_cases hrev : rec.revision ≤ cur
  · cases hkey : rec.key with
    | none => simp [hrev, hkey, WatchContext.event?]
    | some key =>
        simp only [hrev, h, decide_true, Bool.not_true, Bool.false_eq_true, if_false]
        refine List.map_congr_left fun ctx _ => ?_
        simp only [WatchContext.event?, if_pos hrev, hkey, Option.map_some]
        by_cases hwants : ctx.wants (recordEvent rec key (blobsUpTo cur before key)) = true
        · rw [Option.filter_some_pos hwants]
          exact if_pos hwants
        · rw [Option.filter_some_neg (by simpa using hwants), Option.toList_none,
            WatchContext.receive_nil]
          exact if_neg hwants
  · simp [hrev, WatchContext.event?]

/-- **Phase 1 serves every watcher on its own.** -/
theorem active_foldl_phase1Record {cur : UInt64} {st : ReplayState} {before : List KvWalRecord}
    (h : ∀ key : Bytes, st.prevKvMap[key]? = blobsUpTo cur before key)
    (recs : List KvWalRecord) :
    (recs.foldl (phase1Record cur) st).active
      = st.active.map fun ctx => ctx.receive (ctx.replay cur before recs) := by
  induction recs generalizing st before with
  | nil => simp [WatchContext.replay]
  | cons rec recs ih =>
      rw [List.foldl_cons, ih (prevKvMap_phase1Record h rec), active_phase1Record h rec,
        List.map_map]
      refine List.map_congr_left fun ctx _ => ?_
      simp [WatchContext.replay]

/-! ### A whole flush -/

section

variable [Crates]

theorem scanKvFile_length (file : Bytes) : (scanKvFile file file.length).1 = [] := by
  rw [scanKvFile, List.drop_length]
  rfl

/-- A scan of phase 1 reads at least what was there at the checkpoint. -/
theorem filter_scanKvFile_take {before after : List KvWalRecord} {rev : UInt64}
    (hwf : ∀ rec ∈ before ++ after, rec.WellFormed) (hbefore : ∀ rec ∈ before, rec.revision ≤ rev)
    (hafter : ∀ rec ∈ after, rev < rec.revision) {n : Nat} (hn : (serializeAll before).length ≤ n)
    (hle : n ≤ (serializeAll (before ++ after)).length) :
    (scanKvFile ((serializeAll (before ++ after)).take n) 0).1.filter (·.revision ≤ rev)
      = before := by
  rw [serializeAll_append, List.length_append] at hle
  have hwfBefore : ∀ rec ∈ before, rec.WellFormed := fun rec hrec => hwf rec (by simp [hrec])
  have hwfAfter : ∀ rec ∈ after, rec.WellFormed := fun rec hrec => hwf rec (by simp [hrec])
  obtain ⟨k, hscan⟩ := scanKvFile_append_take hwfBefore hwfAfter
    (show n - (serializeAll before).length ≤ (serializeAll after).length by omega)
  rw [serializeAll_append, List.take_append, List.take_of_length_le hn, hscan, List.filter_append]
  have hkeep : before.filter (·.revision ≤ rev) = before :=
    List.filter_eq_self.mpr fun rec hrec => decide_eq_true (hbefore rec hrec)
  have hskip : (after.take k).filter (·.revision ≤ rev) = [] := by
    refine List.filter_eq_nil_iff.mpr ?_
    intro rec hrec
    have hlt := hafter rec (List.mem_of_mem_take hrec)
    simpa using UInt64.not_le.mpr hlt
  rw [hkeep, hskip, List.append_nil]

/-- Phase 2 reads the rest. -/
theorem filter_scanKvFile_offset {before after : List KvWalRecord} {rev : UInt64}
    (hwf : ∀ rec ∈ before ++ after, rec.WellFormed) (hafter : ∀ rec ∈ after, rev < rec.revision) :
    (scanKvFile (serializeAll (before ++ after)) (serializeAll before).length).1.filter
      (rev < ·.revision) = after := by
  have hwfAfter : ∀ rec ∈ after, rec.WellFormed := fun rec hrec => hwf rec (by simp [hrec])
  have hdrop : (serializeAll (before ++ after)).drop (serializeAll before).length
      = serializeAll after := by
    rw [serializeAll_append, List.drop_left]
  rw [scanKvFile_offset hwfAfter hdrop]
  exact List.filter_eq_self.mpr fun rec hrec => decide_eq_true (hafter rec hrec)

/-- The watchers that a flush registers, with what it has sent them. -/
def newWatchers (s : StoreState) (batch : List GlobalCreate) : List WatchRegistration :=
  (flushGlobalBatch s batch).2.watchers.drop s.watchers.length

/-- **What a flush delivers.** -/
theorem newWatchers_eq (s : StoreState) (batch : List GlobalCreate) :
    newWatchers s batch = (flushAdmit s batch).active.map fun ctx =>
      (ctx.receive
        (ctx.replay s.currentRevision [] (scanKvFile s.wal.contents 0).1)).registration := by
  have hempty : ∀ key : Bytes, (∅ : ExtTreeMap Bytes Bytes)[key]?
      = blobsUpTo s.currentRevision [] key := by
    intro key
    rw [ExtTreeMap.getElem?_empty]
    rfl
  have hphase2 : ∀ st, flushPhase2 s.wal.contents s.currentRevision s.wal.contents.length st
      = st := by
    intro st
    rw [flushPhase2, scanKvFile_length]
    rfl
  simp only [newWatchers, flushGlobalBatch, currentCheckpoint, hphase2, watchers_registerAll,
    List.drop_left, flushPhase1]
  rw [active_foldl_phase1Record hempty, List.map_map]
  rfl

end

/-! ### Records that stand alone -/

theorem recordData_eq_some {rec : KvWalRecord} {data : UInt64 × Bytes} :
    recordData rec = some data ↔ rec.deleted = false ∧ (rec.revision, rec.kvBytes) = data := by
  unfold recordData
  split <;> simp_all

/-- From revision `r` on, every record creates a key that nothing has touched since. -/
abbrev Standalone (r : UInt64) (recs : List KvWalRecord) : Prop :=
  KeyedLog.Isolated KvWalRecord.key recordData (fun rec => r ≤ rec.revision) recs

/-- Reading such records up to a later revision skips values only. -/
theorem lastData_filter {r cur : UInt64} {recs : List KvWalRecord} (h : Standalone r recs)
    (hcur : r ≤ cur) (key : Bytes) :
    lastData (recs.filter (·.revision ≤ cur)) key
      = (lastData recs key).filter (·.1 ≤ cur) := by
  refine KeyedLog.last_filter ?_ (h.mono ?_) (some key)
  · intro rec b hb
    obtain ⟨-, rfl⟩ := recordData_eq_some.mp hb
    rfl
  · intro rec hrec
    have hlt : cur < rec.revision := UInt64.not_le.mp (of_decide_eq_false hrec)
    exact UInt64.le_trans hcur (UInt64.le_of_lt hlt)

/-- The event of a key created with a blob. -/
def createdEvent (key : Bytes) (data : UInt64 × Bytes) : WatchEvent :=
  { revision := data.1, eventType := .put, key, kvBytes := data.2, prevKvBytes := [] }

theorem recordEvent_eq_createdEvent {rec : KvWalRecord} {data : UInt64 × Bytes}
    (h : recordData rec = some data) (key : Bytes) :
    recordEvent rec key none = createdEvent key data := by
  obtain ⟨hput, rfl⟩ := recordData_eq_some.mp h
  simp [recordEvent, createdEvent, hput]

namespace WatchContext

variable {ctx : WatchContext} {cur : UInt64}

/-- Such records find no blob before them. -/
theorem event?_of_standalone {before after : List KvWalRecord} {rec : KvWalRecord}
    (h : Standalone ctx.pending.startRevision (before ++ rec :: after))
    (hcur : ctx.pending.startRevision ≤ cur) :
    ctx.event? cur (blobsUpTo cur before) rec = ctx.event? cur (fun _ => none) rec := by
  unfold event?
  split
  · cases hkey : rec.key with
    | none => rfl
    | some key =>
        by_cases hstart : ctx.pending.startRevision ≤ rec.revision
        · have hnone := (h before rec after rfl hstart).2.1
          rw [hkey] at hnone
          rw [Option.map_some, Option.map_some, blobsUpTo, lastData_filter h.of_append hcur,
            lastData, hnone]
          rfl
        · have hskip : ∀ prev, ctx.wants (recordEvent rec key prev) = false := by
            intro prev
            simp [wants, recordEvent, hstart]
          rw [Option.map_some, Option.map_some, Option.filter_some_neg (hskip _),
            Option.filter_some_neg (hskip _)]
  · rfl

theorem replay_of_standalone {before recs : List KvWalRecord}
    (h : Standalone ctx.pending.startRevision (before ++ recs))
    (hcur : ctx.pending.startRevision ≤ cur) :
    ctx.replay cur before recs = recs.filterMap (ctx.event? cur fun _ => none) := by
  induction recs generalizing before with
  | nil => rfl
  | cons rec recs ih =>
      rw [replay, event?_of_standalone h hcur, ih (by simpa using h), List.filterMap_cons]
      cases ctx.event? cur (fun _ => none) rec <;> rfl

/-- What the event of a record says about the record. -/
theorem event?_eq_some {prev : Bytes → Option Bytes} {rec : KvWalRecord} {event : WatchEvent} :
    ctx.event? cur prev rec = some event ↔ rec.revision ≤ cur ∧ rec.key = some event.key ∧
      event = recordEvent rec event.key (prev event.key) ∧ ctx.wants event = true := by
  unfold event?
  split
  · next hrev =>
      rw [Option.filter_eq_some_iff, Option.map_eq_some_iff]
      constructor
      · intro h
        obtain ⟨⟨key, hkey, rfl⟩, hwants⟩ := h
        exact ⟨hrev, hkey, rfl, hwants⟩
      · intro h
        obtain ⟨-, hkey, hevent, hwants⟩ := h
        exact ⟨⟨_, hkey, hevent.symm⟩, hwants⟩
  · next hrev => simp [hrev]

theorem startRevision_le_of_wants {event : WatchEvent} (h : ctx.wants event = true) :
    ctx.pending.startRevision ≤ event.revision := by
  simp only [wants, Bool.and_eq_true, decide_eq_true_eq] at h
  exact h.1.1

/-- **The events of standalone records** are those of the keys they leave. -/
theorem mem_filterMap_event? {recs : List KvWalRecord}
    (h : Standalone ctx.pending.startRevision recs) {event : WatchEvent} :
    event ∈ recs.filterMap (ctx.event? cur fun _ => none) ↔
      ∃ key data, lastData recs key = some data ∧ data.1 ≤ cur ∧ event = createdEvent key data ∧
        ctx.wants event = true := by
  rw [List.mem_filterMap]
  constructor
  · intro hevent
    obtain ⟨rec, hmem, hrec⟩ := hevent
    obtain ⟨hrev, hkey, hevent, hwants⟩ := event?_eq_some.mp hrec
    obtain ⟨before, after, rfl⟩ := List.append_of_mem hmem
    have hstart : ctx.pending.startRevision ≤ rec.revision := by
      have := startRevision_le_of_wants hwants
      rw [hevent] at this
      exact this
    obtain ⟨hsome, -, hafter⟩ := h before rec after rfl hstart
    obtain ⟨data, hdata⟩ := Option.isSome_iff_exists.mp hsome
    have hlast : lastData (before ++ rec :: after) event.key = recordData rec := by
      rw [lastData, ← hkey, KeyedLog.last_of_split hafter]
    rw [recordEvent_eq_createdEvent hdata] at hevent
    obtain ⟨-, rfl⟩ := recordData_eq_some.mp hdata
    exact ⟨event.key, _, hlast.trans hdata, hrev, hevent, hwants⟩
  · intro hevent
    obtain ⟨key, data, hlast, hcur, rfl, hwants⟩ := hevent
    obtain ⟨before, rec, after, rfl, hkey, hdata⟩ := KeyedLog.exists_split_of_last hlast
    have hevent := (recordEvent_eq_createdEvent hdata key).symm
    obtain ⟨-, rfl⟩ := recordData_eq_some.mp hdata
    exact ⟨rec, by simp, event?_eq_some.mpr ⟨hcur, hkey, hevent, hwants⟩⟩

/-- There is one for each key. -/
theorem nodup_filterMap_event? {recs : List KvWalRecord}
    (h : Standalone ctx.pending.startRevision recs) :
    (recs.filterMap (ctx.event? cur fun _ => none)).Nodup := by
  have hkeys := h.nodup_keys
  rw [List.Nodup, List.pairwise_map, List.pairwise_filter] at hkeys
  rw [List.Nodup, List.pairwise_filterMap]
  refine hkeys.imp ?_
  intro rec rec' hne event hevent event' hevent' heq
  subst heq
  obtain ⟨-, hkey, hrec, hwants⟩ := event?_eq_some.mp hevent
  obtain ⟨-, hkey', hrec', -⟩ := event?_eq_some.mp hevent'
  have hstart := startRevision_le_of_wants hwants
  refine hne ?_ ?_ (hkey.trans hkey'.symm)
  · rw [hrec] at hstart
    exact decide_eq_true hstart
  · rw [hrec'] at hstart
    exact decide_eq_true hstart

/-- **The order of standalone records does not matter to a watcher**, only what they leave. -/
theorem replay_perm {recs recs' : List KvWalRecord}
    (h : Standalone ctx.pending.startRevision recs)
    (h' : Standalone ctx.pending.startRevision recs')
    (hcur : ctx.pending.startRevision ≤ cur)
    (hlast : ∀ key, lastData recs' key = lastData recs key) :
    (ctx.replay cur [] recs').Perm (ctx.replay cur [] recs) := by
  rw [replay_of_standalone (show Standalone _ ([] ++ recs') from h') hcur,
    replay_of_standalone (show Standalone _ ([] ++ recs) from h) hcur,
    List.perm_ext_iff_of_nodup (nodup_filterMap_event? h') (nodup_filterMap_event? h)]
  intro event
  simp only [mem_filterMap_event? h, mem_filterMap_event? h', hlast]

end WatchContext

end Rudurru
