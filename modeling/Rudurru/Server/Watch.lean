import Rudurru.Storage.Store

/-!
# Rudurru.Server.Watch

Creating watchers (`src/server/watch.rs`).

Creates from all streams are batched. A flush first turns away the creates that cannot be
served, then replays the WAL to the others in two phases split at a *checkpoint*, a revision
with the length of the file at that moment: phase 1 scans the file without the lock and
delivers what is at or below the checkpoint, phase 2 scans from the checkpoint under the write
lock, delivers the rest and registers the watchers.

A channel is the list of what was sent on it. The reply channel of a create is a number.
-/

namespace Rudurru

open Std (ExtTreeMap)

variable [Crates]

/-- `resolve_start_revision`. -/
def resolveStartRevision (s : StoreState) (requested : UInt64) : UInt64 :=
  if requested = 0 then s.currentRevision + 1 else requested

/-- `should_send_event`, the same loop as in `notify_watchers`. -/
def shouldSendEvent (filters : List Int32) (eventType : EventType) : Bool :=
  StoreState.passesFilters filters eventType

/-- `PendingCreate`. -/
structure PendingCreate where
  key : Bytes
  rangeEnd : Bytes := []
  startRevision : UInt64
  progressNotify : Bool := false
  filters : List Int32 := []
  prevKv : Bool := false
  deriving DecidableEq, Repr

/-- `GlobalCreate`, without the two fields that only tracing reads. -/
structure GlobalCreate where
  pending : PendingCreate
  reply : Nat
  watchId : Int64
  deriving DecidableEq, Repr

/-- `WatchContext`: a create that is being served, with the events sent to it so far. -/
structure WatchContext where
  pending : PendingCreate
  watchId : Int64
  bound : RangeBound
  eventTx : List WatchEvent
  reply : Nat
  deriving DecidableEq, Repr

/-- A reply that refuses a create. -/
def refusal (revision : UInt64) (compactRevision : Int64) (cancelReason : String) :
    WatchResponse :=
  { header := { revision := revision.toInt64 }, watchId := -1, created := false, canceled := true,
    compactRevision, cancelReason }

/-! ### Turning creates away -/

/-- The first loop of `flush_global_batch_at` on one create: an error is the refusal sent. -/
def admitCreate (s : StoreState) (c : GlobalCreate) : Except WatchResponse WatchContext :=
  let start := c.pending.startRevision
  let curRev := s.currentRevision
  if start > 0 ∧ start < s.compactRev then
    .error (refusal curRev s.compactRev.toInt64 "compacted")
  else if start > curRev ∧ start - curRev > 10000 then
    .error (refusal curRev 0
      ("too large resource version: " ++ toString start ++ ", current: " ++ toString curRev))
  else
    .ok { pending := c.pending, watchId := c.watchId,
          bound := resolveRange c.pending.key c.pending.rangeEnd, eventTx := [], reply := c.reply }

omit [Crates] in
/-- What is served is the create, which starts at the watermark or above or asks for no history. -/
theorem admitCreate_eq_ok {s : StoreState} {c : GlobalCreate} {ctx : WatchContext}
    (h : admitCreate s c = .ok ctx) :
    (c.pending.startRevision = 0 ∨ s.compactRev ≤ c.pending.startRevision) ∧
      ctx = { pending := c.pending, watchId := c.watchId,
              bound := resolveRange c.pending.key c.pending.rangeEnd, eventTx := [],
              reply := c.reply } := by
  unfold admitCreate at h
  dsimp only at h
  split at h
  · cases h
  · next hstart =>
      split at h
      · cases h
      · cases h
        refine ⟨?_, rfl⟩
        by_cases hzero : c.pending.startRevision = 0
        · exact .inl hzero
        · refine .inr (UInt64.not_lt.mp fun hlt => hstart ⟨?_, hlt⟩)
          exact UInt64.pos_iff_ne_zero.mpr hzero

omit [Crates] in
/-- What is turned away starts below the watermark or too far ahead. -/
theorem admitCreate_eq_error {s : StoreState} {c : GlobalCreate} {resp : WatchResponse}
    (h : admitCreate s c = .error resp) :
    resp = refusal s.currentRevision s.compactRev.toInt64 "compacted" ∨
      resp = refusal s.currentRevision 0 ("too large resource version: "
        ++ toString c.pending.startRevision ++ ", current: " ++ toString s.currentRevision) := by
  unfold admitCreate at h
  dsimp only at h
  split at h
  · cases h
    exact .inl rfl
  split at h
  · cases h
    exact .inr rfl
  · cases h

/-- The positions whose watch id is taken, by a registered watcher or earlier in the batch. -/
def duplicateIds (s : StoreState) (active : List WatchContext) : List Nat :=
  (List.range active.length).filter fun i =>
    match active[i]? with
    | some ctx =>
        s.watchers.any (·.watchId = ctx.watchId) || (active.take i).any (·.watchId = ctx.watchId)
    | none => false

/-- `Vec::swap_remove`, without the removed element. -/
def swapRemove {α : Type} (l : List α) (i : Nat) : List α :=
  match l.getLast? with
  | some last => (l.set i last).dropLast
  | none => l

/-- A flush in progress: the creates being served and the replies sent. -/
structure Flush where
  active : List WatchContext
  replies : List (Nat × WatchResponse)

/-- The part of `flush_global_batch_at` before phase 1. -/
def flushAdmit (s : StoreState) (batch : List GlobalCreate) : Flush :=
  let refused := batch.filterMap fun c =>
    match admitCreate s c with
    | .error resp => some (c.reply, resp)
    | .ok _ => none
  let active := batch.filterMap fun c => (admitCreate s c).toOption
  let rejected := (duplicateIds s active).reverse
  let duplicates := rejected.filterMap fun i =>
    active[i]?.map fun ctx => (ctx.reply, refusal s.currentRevision 0 "duplicate watch_id")
  { active := rejected.foldl swapRemove active, replies := refused ++ duplicates }

/-! ### Replaying the WAL -/

/-- What a scan callback carries: the latest blob of every alive key, and the watchers. -/
structure ReplayState where
  prevKvMap : ExtTreeMap Bytes Bytes
  active : List WatchContext

/-- The callback of both replay scans: records outside the phase are skipped; the event goes
to the watchers that want it. -/
def replayRecord (inPhase : UInt64 → Bool) (wants : WatchContext → UInt64 → Bool)
    (st : ReplayState) (rec : KvWalRecord) : ReplayState :=
  let rev := rec.revision
  if !inPhase rev then st
  else
    match rec.key with
    | none => st
    | some key =>
        let event : WatchEvent :=
          { revision := rev
            eventType := if rec.deleted then .delete else .put
            key
            kvBytes := rec.kvBytes
            prevKvBytes := st.prevKvMap[key]?.getD [] }
        { prevKvMap :=
            if rec.deleted then st.prevKvMap.erase key else st.prevKvMap.insert key rec.kvBytes
          active := st.active.map fun ctx =>
            if wants ctx rev && matchesRange ctx.bound key
                && shouldSendEvent ctx.pending.filters event.eventType then
              { ctx with eventTx := ctx.eventTx ++ [event] }
            else ctx }

/-- The callback of phase 1. -/
def phase1Record (checkpointRev : UInt64) : ReplayState → KvWalRecord → ReplayState :=
  replayRecord (· ≤ checkpointRev) fun ctx rev => rev ≥ ctx.pending.startRevision

/-- The callback of phase 2, which does not look at `start_revision`. -/
def phase2Record (checkpointRev : UInt64) : ReplayState → KvWalRecord → ReplayState :=
  replayRecord (· > checkpointRev) fun _ _ => true

/-- Phase 1 over the contents of the WAL; the outcome of the scan is ignored. -/
def flushPhase1 (file : Bytes) (checkpointRev : UInt64) (active : List WatchContext) :
    ReplayState :=
  (scanKvFile file 0).1.foldl (phase1Record checkpointRev) { prevKvMap := ∅, active }

/-- Phase 2, up to the registrations. -/
def flushPhase2 (file : Bytes) (checkpointRev : UInt64) (checkpointOffset : Nat)
    (st : ReplayState) : ReplayState :=
  (scanKvFile file checkpointOffset).1.foldl (phase2Record checkpointRev) st

/-- The registration of a replayed watcher. -/
def WatchContext.registration (ctx : WatchContext) : WatchRegistration :=
  { key := ctx.pending.key
    rangeEnd := ctx.pending.rangeEnd
    startRevision := ctx.pending.startRevision
    sender := ctx.eventTx
    watchId := ctx.watchId
    progressNotify := ctx.pending.progressNotify
    filters := ctx.pending.filters
    prevKv := ctx.pending.prevKv
    bound := ctx.bound }

/-- The reply to a create that was served. -/
def createdResponse (s : StoreState) (ctx : WatchContext) : WatchResponse :=
  { header := s.header, watchId := ctx.watchId, created := true, canceled := false,
    compactRevision := 0, cancelReason := "" }

/-- `current_checkpoint`. -/
def currentCheckpoint (s : StoreState) : UInt64 × Nat :=
  (s.currentRevision, s.wal.contents.length)

/-- `flush_global_batch` with nothing else running: the replies, and the store with the new
watchers. -/
def flushGlobalBatch (s : StoreState) (batch : List GlobalCreate) :
    List (Nat × WatchResponse) × StoreState :=
  let (checkpointRev, checkpointOffset) := currentCheckpoint s
  let flush := flushAdmit s batch
  let st := flushPhase1 s.wal.contents checkpointRev flush.active
  let st := flushPhase2 s.wal.contents checkpointRev checkpointOffset st
  let s := st.active.foldl (fun s ctx => s.registerWatcher ctx.registration) s
  (flush.replies ++ st.active.map fun ctx => (ctx.reply, createdResponse s ctx), s)

end Rudurru
