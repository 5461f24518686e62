import Rudurru.Server.Handoff
import Rudurru.Server.WatchSound
import Rudurru.Txn.Trace

/-!
# Rudurru.Server.Delivery

What the three delivery loops send: phase 1 and phase 2 of a flush, and `notify_watchers`.

An event tells of a change: which key got which blob at which revision, or lost it. A record of
the WAL tells of one as well. Up to that, and each within its own bounds, all three loops send
a watcher the records that match its range and pass its filters, in the order in which they
come (`changes_sentAll`, `changes_notifyWrites`). Only phase 2 leaves out the
comparison with the start revision.

The three loops look different: phase 1 bounds revisions above, phase 2 below, live notification not
at all; two of them go record by record over all watchers, one goes watcher by watcher. Seen from
one watcher each is a filter and a map of the same list, and everything that is proved of deliveries
later is proved of these lists.
-/

namespace Rudurru

open Std (ExtTreeMap)

/-! ### Changes -/

/-- A change of a key: the blob it got, or `none` for a deletion. -/
structure Change where
  revision : UInt64
  key : Bytes
  blob : Option Bytes
  deriving DecidableEq, Repr

/-- The event type of a change. -/
def Change.eventType (c : Change) : EventType := if c.blob.isSome then .put else .delete

/-- Does a watcher with this range and these filters want it? -/
def Change.wanted (bound : RangeBound) (filters : List Int32) (c : Change) : Bool :=
  matchesRange bound c.key && StoreState.passesFilters filters c.eventType

/-- What an event tells; the blob of a tombstone and the value before are not part of it. -/
def WatchEvent.change (event : WatchEvent) : Change :=
  { revision := event.revision
    key := event.key
    blob := match event.eventType with
      | .put => some event.kvBytes
      | .delete => none }

/-- What a record tells, if its key can be read. -/
def KvWalRecord.change? (rec : KvWalRecord) : Option Change :=
  rec.key.map fun key =>
    { revision := rec.revision, key, blob := if rec.deleted then none else some rec.kvBytes }

/-- The changes in a list of records that a watcher wants. -/
def changesFor (bound : RangeBound) (filters : List Int32) (recs : List KvWalRecord) :
    List Change :=
  (recs.filterMap KvWalRecord.change?).filter (Change.wanted bound filters)

@[simp] theorem changesFor_nil (bound : RangeBound) (filters : List Int32) :
    changesFor bound filters [] = [] := rfl

@[simp] theorem changesFor_append (bound : RangeBound) (filters : List Int32)
    (recs recs' : List KvWalRecord) :
    changesFor bound filters (recs ++ recs')
      = changesFor bound filters recs ++ changesFor bound filters recs' := by
  simp [changesFor]

theorem changesFor_cons (bound : RangeBound) (filters : List Int32) (rec : KvWalRecord)
    (recs : List KvWalRecord) :
    changesFor bound filters (rec :: recs)
      = changesFor bound filters [rec] ++ changesFor bound filters recs :=
  changesFor_append bound filters [rec] recs

theorem eventType_change (event : WatchEvent) : event.change.eventType = event.eventType := by
  unfold WatchEvent.change Change.eventType
  cases event.eventType <;> rfl

/-- Selecting changes by revision is selecting records. -/
theorem filter_changesFor (bound : RangeBound) (filters : List Int32) (p : UInt64 → Bool)
    (recs : List KvWalRecord) :
    (changesFor bound filters recs).filter (fun c => p c.revision)
      = changesFor bound filters (recs.filter fun rec => p rec.revision) := by
  induction recs with
  | nil => rfl
  | cons rec recs ih =>
      have hone : (changesFor bound filters [rec]).filter (fun c => p c.revision)
          = changesFor bound filters ([rec].filter fun rec => p rec.revision) := by
        cases hkey : rec.key with
        | none =>
            by_cases hp : p rec.revision = true <;>
              simp [changesFor, KvWalRecord.change?, hkey, hp]
        | some key =>
            by_cases hp : p rec.revision = true <;>
              simp [changesFor, KvWalRecord.change?, hkey, hp, List.filter_cons]
      rw [changesFor_cons, List.filter_append, hone, ih, ← changesFor_append, ← List.filter_append]
      rfl

/-- A change comes from a record of its revision. -/
theorem exists_record_of_mem_changesFor {bound : RangeBound} {filters : List Int32}
    {recs : List KvWalRecord} {c : Change} (h : c ∈ changesFor bound filters recs) :
    ∃ rec ∈ recs, rec.revision = c.revision := by
  obtain ⟨rec, hrec, hchange⟩ := List.mem_filterMap.mp (List.mem_filter.mp h).1
  obtain ⟨key, -, rfl⟩ := Option.map_eq_some_iff.mp hchange
  exact ⟨rec, hrec, rfl⟩

/-! ### The replay phases -/

namespace WatchContext

/-- The changes sent to the watcher so far. -/
def changes (ctx : WatchContext) : List Change := ctx.eventTx.map WatchEvent.change

end WatchContext

section

variable {inPhase : UInt64 → Bool} {wants : WatchContext → UInt64 → Bool}

/-- The event of a record tells the change the record tells. -/
theorem change_recordEvent {rec : KvWalRecord} {key : Bytes} (h : rec.key = some key)
    (prev : Option Bytes) : rec.change? = some (recordEvent rec key prev).change := by
  rw [KvWalRecord.change?, h, Option.map_some]
  unfold recordEvent WatchEvent.change
  cases rec.deleted <;> rfl

/-- Does a watcher take the event of a record? -/
def WatchContext.takes (wants : WatchContext → UInt64 → Bool) (ctx : WatchContext)
    (rec : KvWalRecord) (key : Bytes) : Bool :=
  wants ctx rec.revision && matchesRange ctx.bound key
    && shouldSendEvent ctx.pending.filters (if rec.deleted then .delete else .put)

variable (inPhase wants)

/-- The map of blobs after a record. -/
def nextBlobs (blobs : ExtTreeMap Bytes Bytes) (rec : KvWalRecord) : ExtTreeMap Bytes Bytes :=
  if !inPhase rec.revision then blobs
  else
    match rec.key with
    | none => blobs
    | some key => if rec.deleted then blobs.erase key else blobs.insert key rec.kvBytes

/-- What a watcher is sent for a record. -/
def sentFor (ctx : WatchContext) (blobs : ExtTreeMap Bytes Bytes) (rec : KvWalRecord) :
    List WatchEvent :=
  if !inPhase rec.revision then []
  else
    match rec.key with
    | none => []
    | some key => if ctx.takes wants rec key then [recordEvent rec key blobs[key]?] else []

/-- What it is sent for some records. -/
def sentAll (ctx : WatchContext) : ExtTreeMap Bytes Bytes → List KvWalRecord → List WatchEvent
  | _, [] => []
  | blobs, rec :: recs =>
      sentFor inPhase wants ctx blobs rec ++ sentAll ctx (nextBlobs inPhase blobs rec) recs

variable {inPhase wants}

/-- One record: what becomes of the map and of a watcher does not depend on the other watchers. -/
theorem replayRecord_eq (st : ReplayState) (rec : KvWalRecord) :
    replayRecord inPhase wants st rec =
      { prevKvMap := nextBlobs inPhase st.prevKvMap rec
        active := st.active.map fun ctx =>
          ctx.receive (sentFor inPhase wants ctx st.prevKvMap rec) } := by
  unfold replayRecord nextBlobs sentFor
  by_cases hphase : inPhase rec.revision = true
  · cases hkey : rec.key with
    | none => simp [hphase]
    | some key =>
        simp only [hphase, Bool.not_true, Bool.false_eq_true, if_false]
        refine congrArg (ReplayState.mk _) (List.map_congr_left fun ctx _ => ?_)
        by_cases htakes : ctx.takes wants rec key = true
        · rw [if_pos htakes]
          exact if_pos htakes
        · rw [if_neg htakes, WatchContext.receive_nil]
          exact if_neg htakes
  · simp [hphase]

/-- What was sent before does not matter. -/
theorem sentAll_receive
    (hwants : ∀ ctx events rev, wants (WatchContext.receive ctx events) rev = wants ctx rev)
    (ctx : WatchContext) (events : List WatchEvent) (blobs : ExtTreeMap Bytes Bytes)
    (recs : List KvWalRecord) :
    sentAll inPhase wants (ctx.receive events) blobs recs
      = sentAll inPhase wants ctx blobs recs := by
  induction recs generalizing blobs with
  | nil => rfl
  | cons rec recs ih =>
      rw [sentAll, sentAll, ih]
      refine congrArg (· ++ _) ?_
      unfold sentFor WatchContext.takes
      rw [hwants]
      rfl

/-- **A replay serves every watcher on its own.** The map of blobs is the same for all of them,
since it follows the records. -/
theorem foldl_replayRecord_eq
    (hwants : ∀ ctx events rev, wants (WatchContext.receive ctx events) rev = wants ctx rev)
    (recs : List KvWalRecord) (st : ReplayState) :
    recs.foldl (replayRecord inPhase wants) st =
      { prevKvMap := recs.foldl (nextBlobs inPhase) st.prevKvMap
        active := st.active.map fun ctx =>
          ctx.receive (sentAll inPhase wants ctx st.prevKvMap recs) } := by
  induction recs generalizing st with
  | nil => simp [sentAll]
  | cons rec recs ih =>
      rw [List.foldl_cons, ih, replayRecord_eq, List.map_map, List.foldl_cons]
      simp [Function.comp_def, sentAll_receive hwants, sentAll]

/-- The events of a record tell its change. -/
theorem changes_sentFor (ctx : WatchContext) (blobs : ExtTreeMap Bytes Bytes) (rec : KvWalRecord) :
    (sentFor inPhase wants ctx blobs rec).map WatchEvent.change
      = changesFor ctx.bound ctx.pending.filters
          ([rec].filter fun rec => inPhase rec.revision && wants ctx rec.revision) := by
  unfold sentFor
  by_cases hphase : inPhase rec.revision = true
  · cases hkey : rec.key with
    | none =>
        by_cases hwants : wants ctx rec.revision = true <;>
          simp [changesFor, KvWalRecord.change?, hkey, hphase, hwants]
    | some key =>
        have hchange : rec.change? = some (recordEvent rec key blobs[key]?).change :=
          change_recordEvent hkey _
        have htakes : ctx.takes wants rec key = (wants ctx rec.revision
            && (recordEvent rec key blobs[key]?).change.wanted ctx.bound ctx.pending.filters) := by
          rw [Change.wanted, eventType_change, ← Bool.and_assoc]
          rfl
        dsimp only
        generalize recordEvent rec key blobs[key]? = event at hchange htakes ⊢
        by_cases hwants : wants ctx rec.revision = true
        · by_cases hwanted : event.change.wanted ctx.bound ctx.pending.filters = true <;>
            simp [hphase, htakes, hwants, hwanted, changesFor, hchange]
        · simp [hphase, htakes, hwants]
  · simp [hphase]

/-- **A replay phase sends each watcher the records of the phase that it wants.** Within the bounds
of the phase, in the order of the file. -/
theorem changes_sentAll (ctx : WatchContext) (blobs : ExtTreeMap Bytes Bytes)
    (recs : List KvWalRecord) :
    (sentAll inPhase wants ctx blobs recs).map WatchEvent.change
      = changesFor ctx.bound ctx.pending.filters
          (recs.filter fun rec => inPhase rec.revision && wants ctx rec.revision) := by
  induction recs generalizing blobs with
  | nil => rfl
  | cons rec recs ih =>
      rw [sentAll, List.map_append, changes_sentFor, ih, ← changesFor_append, ← List.filter_append]
      rfl

end

/-- What phase 1 sends a watcher for some records. -/
def sentPhase1 (cur : UInt64) (ctx : WatchContext) (blobs : ExtTreeMap Bytes Bytes)
    (recs : List KvWalRecord) : List WatchEvent :=
  sentAll (· ≤ cur) (fun ctx rev => rev ≥ ctx.pending.startRevision) ctx blobs recs

/-- What phase 2 sends it. -/
def sentPhase2 (cur : UInt64) (ctx : WatchContext) (blobs : ExtTreeMap Bytes Bytes)
    (recs : List KvWalRecord) : List WatchEvent :=
  sentAll (· > cur) (fun _ _ => true) ctx blobs recs

theorem foldl_phase1Record_eq (cur : UInt64) (recs : List KvWalRecord) (st : ReplayState) :
    recs.foldl (phase1Record cur) st =
      { prevKvMap := recs.foldl (nextBlobs (· ≤ cur)) st.prevKvMap
        active := st.active.map fun ctx => ctx.receive (sentPhase1 cur ctx st.prevKvMap recs) } :=
  foldl_replayRecord_eq (fun _ _ _ => rfl) recs st

theorem foldl_phase2Record_eq (cur : UInt64) (recs : List KvWalRecord) (st : ReplayState) :
    recs.foldl (phase2Record cur) st =
      { prevKvMap := recs.foldl (nextBlobs (· > cur)) st.prevKvMap
        active := st.active.map fun ctx => ctx.receive (sentPhase2 cur ctx st.prevKvMap recs) } :=
  foldl_replayRecord_eq (fun _ _ _ => rfl) recs st

@[simp] theorem sentPhase2_receive (cur : UInt64) (ctx : WatchContext) (events : List WatchEvent)
    (blobs : ExtTreeMap Bytes Bytes) (recs : List KvWalRecord) :
    sentPhase2 cur (ctx.receive events) blobs recs = sentPhase2 cur ctx blobs recs :=
  sentAll_receive (fun _ _ _ => rfl) ctx events blobs recs

/-- What phase 1 sends. -/
theorem changes_phase1 (cur : UInt64) (recs : List KvWalRecord) (st : ReplayState) :
    ∃ sent : WatchContext → List WatchEvent,
      (recs.foldl (phase1Record cur) st).active
        = st.active.map (fun ctx => ctx.receive (sent ctx)) ∧
      ∀ ctx, (sent ctx).map WatchEvent.change
        = (changesFor ctx.bound ctx.pending.filters (recs.filter (·.revision ≤ cur))).filter
            (ctx.pending.startRevision ≤ ·.revision) := by
  refine ⟨fun ctx => sentPhase1 cur ctx st.prevKvMap recs, by rw [foldl_phase1Record_eq], ?_⟩
  intro ctx
  dsimp only
  rw [sentPhase1, changes_sentAll, filter_changesFor _ _ (ctx.pending.startRevision ≤ ·),
    List.filter_filter]
  congr 2
  funext rec
  exact Bool.and_comm _ _

/-- What phase 2 sends. -/
theorem changes_phase2 (cur : UInt64) (recs : List KvWalRecord) (st : ReplayState) :
    ∃ sent : WatchContext → List WatchEvent,
      (recs.foldl (phase2Record cur) st).active
        = st.active.map (fun ctx => ctx.receive (sent ctx)) ∧
      ∀ ctx, (sent ctx).map WatchEvent.change
        = changesFor ctx.bound ctx.pending.filters (recs.filter (cur < ·.revision)) := by
  refine ⟨fun ctx => sentPhase2 cur ctx st.prevKvMap recs, by rw [foldl_phase2Record_eq], ?_⟩
  intro ctx
  dsimp only
  rw [sentPhase2, changes_sentAll]
  simp only [Bool.and_true]

/-! ### Live notification -/

namespace WatchRegistration

/-- The changes sent to the watcher so far. -/
def changes (reg : WatchRegistration) : List Change := reg.sender.map WatchEvent.change

end WatchRegistration

section

variable [Crates] [LawfulCrates]

/-- The event of a write tells the change its record tells. -/
theorem change_event {w : Write} (hfit : w.record.Fits) :
    w.record.change? = some w.event.change := by
  obtain ⟨-, hkey, hrev⟩ := Write.record_spec hfit
  rw [KvWalRecord.change?, hkey, hrev, Option.map_some]
  cases w with
  | put key value lease rev prev =>
      rw [Write.record, deleted_putRecord]
      rfl
  | delete key rev prev =>
      rw [Write.record, deleted_deleteRecord]
      rfl

/-- **Live notification sends a watcher the writes that it wants.** From its start revision on, in
the order of the writes. -/
theorem changes_notifyWrites {ws : List Write} (hfit : ∀ w ∈ ws, w.record.Fits)
    (reg : WatchRegistration) :
    ∃ sent, notifyWrites ws reg = { reg with sender := reg.sender ++ sent } ∧
      sent.map WatchEvent.change = (changesFor reg.bound reg.filters (ws.map Write.record)).filter
        (reg.startRevision ≤ ·.revision) := by
  refine ⟨_, notifyWrites_spec ws reg, ?_⟩
  have hstrip : ∀ event, (reg.strip event).change = event.change := by
    intro event
    unfold WatchRegistration.strip
    split <;> rfl
  have hsent : ∀ event, reg.isSent event
      = (reg.startRevision ≤ event.change.revision
        && event.change.wanted reg.bound reg.filters) := by
    intro event
    rw [Change.wanted, eventType_change]
    exact Bool.and_comm _ _
  have hchanges : (ws.map Write.record).filterMap KvWalRecord.change?
      = (ws.map Write.event).map WatchEvent.change := by
    rw [List.filterMap_map, List.map_map, ← List.filterMap_eq_map]
    exact List.filterMap_congr fun w hw => change_event (hfit w hw)
  rw [changesFor, hchanges]
  generalize ws.map Write.event = events
  rw [List.filter_filter, List.filter_map, List.map_map]
  exact congrArg₂ List.map (funext hstrip) (List.filter_congr fun event _ => hsent event)

end

end Rudurru
