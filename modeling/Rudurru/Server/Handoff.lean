import Rudurru.System

/-!
# Rudurru.Server.Handoff

Watch creation step by step (`src/server/watch.rs`), with the rest of the server running
beside it.

A create is read from its stream, where its start revision is fixed, and queued. One task
flushes the queue, a batch at a time: it takes a checkpoint, turns creates away, opens the WAL
and scans it without the lock (phase 1), then scans on from the checkpoint and registers the
watchers under the write lock (phase 2). Every point at which the task takes the lock, opens
the file or ends its scan is an event here, and anything can happen between two of them.
`flushGlobalBatch` is what these steps come to when nothing does (`run_flushEvents`).

A file that is scanned keeps its contents when `compact_wal` renames another over it; up to
then the scan may see more of it than there was when it was opened.

History variables, which no step reads: a flush knows how many records the WAL had been sent at
its checkpoint, whether the file was replaced since, and what its scans read; an `Origin` keeps
this for each watcher it registered.
-/

namespace Rudurru

variable [Crates]

/-- `WatchCreateRequest`; `fragment` is never read. -/
structure WatchCreateRequest where
  key : Bytes
  rangeEnd : Bytes := []
  startRevision : Int64 := 0
  progressNotify : Bool := false
  filters : List Int32 := []
  prevKv : Bool := false
  watchId : Int64 := 0
  deriving DecidableEq, Repr

/-! ### A flush under way -/

/-- How far `flush_global_batch_at` has come. -/
inductive FlushStage
  /-- The batch is drained and the checkpoint taken. -/
  | drained (batch : List GlobalCreate)
  /-- In the first loop, with the `compact_rev` read before it. -/
  | admitting (compactRev : UInt64) (batch : List GlobalCreate) (active : List WatchContext)
  /-- Duplicate ids are turned away. -/
  | opening (active : List WatchContext)
  /-- In phase 1, with the length of the file when it was opened; `orphan` is what the file
  held when it was replaced. -/
  | scanning (opened : Nat) (orphan : Option Bytes) (active : List WatchContext)
  /-- After phase 1. -/
  | catchingUp (st : ReplayState)
  /-- After phase 2. -/
  | replying (active : List WatchContext)

/-- A `flush_global_batch` under way. -/
structure FlushRun where
  checkpointRev : UInt64
  checkpointOffset : Nat
  stage : FlushStage
  /-- History: the number of records appended before the checkpoint. -/
  position : Nat
  /-- History: was the file replaced since? -/
  swapped : Bool
  /-- History: the records that phase 1 read. -/
  scanned : List KvWalRecord

/-- The WAL is replaced; `contents` is what the old file holds. -/
def FlushRun.swap (f : FlushRun) (contents : Bytes) : FlushRun :=
  { f with
    stage :=
      match f.stage with
      | .scanning opened none active => .scanning opened (some contents) active
      | stage => stage
    swapped := true }

/-- Where a registered watcher comes from: the create behind it, the checkpoint of its flush, what
the two phases read, and the number of records appended before it was registered. -/
structure Origin where
  create : Nat
  checkpointRev : UInt64
  position : Nat
  scanned₁ : List KvWalRecord
  scanned₂ : List KvWalRecord
  registered : Nat
  deriving DecidableEq, Repr

/-- The origin of a watcher that the flush registers. -/
def FlushRun.origin (f : FlushRun) (wal : WalFile) (ctx : WatchContext) : Origin :=
  { create := ctx.reply
    checkpointRev := f.checkpointRev
    position := f.position
    scanned₁ := f.scanned
    scanned₂ := (scanKvFile wal.contents f.checkpointOffset).1
    registered := wal.log.length }

/-- A server process with its queue of creates and the flush it may be running. -/
structure Handoff where
  sys : System
  /-- `NEXT_WATCH_ID`. -/
  nextWatchId : Int64
  /-- The channel of `global_tx`. -/
  queue : List GlobalCreate
  /-- History: the watch ids of the creates so far. The position of a create names its reply
  channel and its event channel. -/
  issued : List Int64
  /-- What was sent on the reply channels. -/
  replies : List (Nat × WatchResponse)
  flush : Option FlushRun
  /-- History: where the registered watchers come from, in their order. -/
  origins : List Origin

/-- What can happen next. -/
inductive HandoffEvent
  /-- An event of the server, other than the creation of watchers. -/
  | server (ev : Event)
  /-- A create request is read from a stream. -/
  | create (req : WatchCreateRequest)
  /-- A flush drains this many creates and takes its checkpoint. -/
  | checkpoint (n : Nat)
  /-- It reads `compact_rev`. -/
  | compactRev
  /-- It admits a create, or turns it away. -/
  | admission
  /-- It turns away duplicate ids. -/
  | screen
  /-- It opens the WAL. -/
  | openWal
  /-- Its scan ends, after this many bytes of the file. -/
  | phase1 (n : Nat)
  | phase2
  /-- It answers a create. -/
  | reply

/-! ### Creates -/

/-- The rejection of duplicate ids in `flush_global_batch_at`. -/
def screenDuplicates (s : StoreState) (active : List WatchContext) : Flush :=
  let rejected := (duplicateIds s active).reverse
  { active := rejected.foldl swapRemove active
    replies := rejected.filterMap fun i =>
      active[i]?.map fun ctx => (ctx.reply, refusal s.currentRevision 0 "duplicate watch_id") }

namespace Handoff

/-- A process that has just started. -/
def start (sys : System) : Handoff :=
  { sys, nextWatchId := 1, queue := [], issued := [], replies := [], flush := none,
    origins := [] }

/-- The watch id of a create: the client's, or the next one of the server. -/
def chooseId (h : Handoff) (req : WatchCreateRequest) : Int64 :=
  if req.watchId ≠ 0 then req.watchId else h.nextWatchId

/-- The create branch of the request loop, up to the queue. -/
def create (h : Handoff) (req : WatchCreateRequest) : Handoff :=
  let watchId := h.chooseId req
  let pending : PendingCreate :=
    { key := req.key
      rangeEnd := req.rangeEnd
      startRevision := resolveStartRevision h.sys.store req.startRevision.toUInt64
      progressNotify := req.progressNotify
      filters := req.filters
      prevKv := req.prevKv }
  { h with
    nextWatchId := if req.watchId ≠ 0 then h.nextWatchId else h.nextWatchId + 1
    queue := h.queue ++ [{ pending, reply := h.issued.length, watchId }]
    issued := h.issued ++ [watchId] }

/-- `cancel_watcher`, with the history variable. -/
def cancelOrigins (h : Handoff) (watchId : Int64) : List Origin :=
  ((h.sys.store.watchers.zip h.origins).filter (·.1.watchId ≠ watchId)).map (·.2)

/-- An event of the server beside the flush. -/
def serverStep (h : Handoff) (ev : Event) : Option Handoff :=
  match ev with
  | .watch _ => none
  | .restart now => (System.boot now h.sys.store.wal.contents).map start
  | .compactC =>
      (h.sys.step .compactC).map fun sys =>
        { h with sys, flush := h.flush.map (·.swap h.sys.store.wal.contents) }
  | .cancelWatch watchId =>
      (h.sys.step (.cancelWatch watchId)).map fun sys =>
        { h with sys, origins := h.cancelOrigins watchId }
  | ev => (h.sys.step ev).map fun sys => { h with sys }

/-- A step of the flush. -/
def flushStep (h : Handoff) (f : FlushRun) : HandoffEvent → Option Handoff
  | .compactRev =>
      match f.stage with
      | .drained batch =>
          some { h with
            flush := some { f with stage := .admitting h.sys.store.compactRev batch [] } }
      | _ => none
  | .admission =>
      match f.stage with
      | .admitting compactRev (c :: batch) active =>
          match admitCreate { h.sys.store with compactRev } c with
          | .error resp =>
              some { h with
                replies := h.replies ++ [(c.reply, resp)]
                flush := some { f with stage := .admitting compactRev batch active } }
          | .ok ctx =>
              some { h with
                flush := some { f with stage := .admitting compactRev batch (active ++ [ctx]) } }
      | _ => none
  | .screen =>
      match f.stage with
      | .admitting _ [] active =>
          let screened := screenDuplicates h.sys.store active
          some { h with
            replies := h.replies ++ screened.replies
            flush := if screened.active = [] then none
              else some { f with stage := .opening screened.active } }
      | _ => none
  | .openWal =>
      match f.stage with
      | .opening active =>
          some { h with
            flush := some { f with
              stage := .scanning h.sys.store.wal.contents.length none active } }
      | _ => none
  | .phase1 n =>
      match f.stage with
      | .scanning opened orphan active =>
          let file := orphan.getD h.sys.store.wal.contents
          if opened ≤ n ∧ n ≤ file.length then
            some { h with
              flush := some { f with
                stage := .catchingUp (flushPhase1 (file.take n) f.checkpointRev active)
                scanned := (scanKvFile (file.take n) 0).1 } }
          else none
      | _ => none
  | .phase2 =>
      match f.stage with
      | .catchingUp st =>
          let st := flushPhase2 h.sys.store.wal.contents f.checkpointRev f.checkpointOffset st
          let store := st.active.foldl (fun s ctx => s.registerWatcher ctx.registration) h.sys.store
          some { h with
            sys := { h.sys with store }
            flush := some { f with stage := .replying st.active }
            origins := h.origins ++ st.active.map (f.origin h.sys.store.wal) }
      | _ => none
  | .reply =>
      match f.stage with
      | .replying (ctx :: active) =>
          some { h with
            replies := h.replies ++ [(ctx.reply, createdResponse h.sys.store ctx)]
            flush := if active = [] then none else some { f with stage := .replying active } }
      | _ => none
  | _ => none

/-- The next state; `none` when the event cannot happen or ends the process. -/
def step (h : Handoff) : HandoffEvent → Option Handoff
  | .server ev => h.serverStep ev
  | .create req => some (h.create req)
  | .checkpoint n =>
      if h.flush.isNone ∧ 0 < n ∧ n ≤ h.queue.length then
        let (checkpointRev, checkpointOffset) := currentCheckpoint h.sys.store
        some { h with
          queue := h.queue.drop n
          flush := some
            { checkpointRev, checkpointOffset, stage := .drained (h.queue.take n)
              position := h.sys.store.wal.log.length, swapped := false, scanned := [] } }
      else none
  | ev => h.flush.bind fun f => h.flushStep f ev

/-- The state after a sequence of events. -/
def run (h : Handoff) (evs : List HandoffEvent) : Option Handoff := Trace.run step h evs

/-- The registered watchers, with where they come from. -/
def watched (h : Handoff) : List (WatchRegistration × Origin) :=
  h.sys.store.watchers.zip h.origins

end Handoff

end Rudurru
