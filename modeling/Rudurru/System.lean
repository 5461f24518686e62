import Rudurru.Lib.Trace
import Rudurru.Server.Watch

/-!
# Rudurru.System

The running server: requests, the phases of `compact_wal` (`src/storage/store.rs`), and
restarts.

Requests run one at a time under the store's lock, so a run of the server is a sequence of
events. `compact_wal` takes the lock twice, for its snapshot (phase A) and for its swap
(phase C), and writes the snapshot in between without it (phase B): its phases are three
events, with anything between them. One compaction runs at a time, as in the background task.
A restart stops the process and opens a store on the current WAL file.
-/

namespace Rudurru

variable [Crates]

/-! ### Requests -/

/-- The requests of the KV and lease services, and the expiry of a lease. -/
inductive Request
  | range (req : RangeRequest)
  | put (req : PutRequest)
  | deleteRange (req : DeleteRangeRequest)
  | txn (req : TxnRequest)
  | compact (revision : Int64)
  | leaseGrant (now : Nat) (id ttl : Int64)
  | leaseRevoke (id : Int64)
  | leaseKeepAlive (now : Nat) (id : Int64)
  | leaseExpire (now : Nat) (id : Int64)

/-- The reply to a request that succeeded. -/
inductive Reply
  | range (resp : RangeResponse)
  | put (resp : PutResponse)
  | deleteRange (resp : DeleteRangeResponse)
  | txn (resp : TxnResponse)
  | compact (header : ResponseHeader)
  | leaseGrant (resp : LeaseGrantResponse)
  | leaseRevoke (header : ResponseHeader)
  | leaseKeepAlive (header : ResponseHeader) (ttl : Int64)
  | leaseExpire

/-- The header of a successful put, delete or transaction. -/
def Reply.writeHeader : Reply → Option ResponseHeader
  | .put resp => some resp.header
  | .deleteRange resp => some resp.header
  | .txn resp => some resp.header
  | _ => none

/-- Run a request. -/
def handle : Request → StoreM Reply
  | .range req => return .range (← StoreM.read (range · req))
  | .put req => return .put (← put req)
  | .deleteRange req => return .deleteRange (← deleteRange req)
  | .txn req => return .txn (← txn req)
  | .compact revision => return .compact (← compact revision)
  | .leaseGrant now id ttl => return .leaseGrant (← leaseGrant now id ttl)
  | .leaseRevoke id => return .leaseRevoke (← leaseRevoke id)
  | .leaseKeepAlive now id => do
      let (header, ttl) ← leaseKeepAlive now id
      return .leaseKeepAlive header ttl
  | .leaseExpire now id => do
      leaseExpire now id
      return .leaseExpire

/-- The store after a request that returned, with a reply or with an error status; `none` when
it panicked, which aborts the process. -/
def answer (s : StoreState) (q : Request) : Option StoreState :=
  match Prog.exec (handle q) s with
  | (.error (.panic _), _) => none
  | (_, s') => some s'

/-- The store after a sequence of requests. -/
def serve (s : StoreState) (qs : List Request) : Option StoreState := Trace.run answer s qs

/-! ### Compaction of the WAL -/

/-- The record phase A writes for an alive key. -/
def snapshotRecord (key : Bytes) (ks : KeyState) : KvWalRecord :=
  KvWalRecord.new (if ks.lease ≠ 0 then HAS_LEASE else 0) key ks.value ks.createRevision.toInt64
    ks.modRevision.toInt64 ks.version ks.lease

/-- The records of phase A, in key order; tombstones are skipped. -/
def StoreState.snapshotRecords (s : StoreState) : List KvWalRecord :=
  (s.keys.toList.filter (·.2.isAlive)).map fun e => snapshotRecord e.1 e.2

/-- A `compact_wal` under way. -/
inductive Compaction
  /-- After phase A: the records, and the length of the WAL when they were taken. -/
  | snapshotted (records : List KvWalRecord) (walSize : Nat)
  /-- After phase B: the contents of the temporary file. -/
  | written (target : Bytes) (walSize : Nat)

/-- The write loop of phase B. -/
def compactPhaseB (records : List KvWalRecord) : Bytes :=
  records.flatMap KvWalRecord.serialize

/-- The contents of the temporary file, once phase B is over. -/
def Compaction.target : Compaction → Bytes
  | .snapshotted records _ => compactPhaseB records
  | .written target _ => target

/-- `snapshot_wal_size`. -/
def Compaction.walSize : Compaction → Nat
  | .snapshotted _ walSize => walSize
  | .written _ walSize => walSize

/-- Phase A of `compact_wal`. -/
def StoreState.compactPhaseA (s : StoreState) : Compaction :=
  .snapshotted s.snapshotRecords s.wal.contents.length

/-- Phase C of `compact_wal`: append what the WAL gained since phase A to the temporary file,
and make that file the WAL. -/
def StoreState.compactPhaseC (s : StoreState) (target : Bytes) (walSize : Nat) : StoreState :=
  let tail := if s.wal.contents.length > walSize then s.wal.contents.drop walSize else []
  { s with wal := { s.wal with contents := target ++ tail, dirty := true } }

/-- `Store::compact_wal` with nothing else running. -/
def StoreState.compactWal (s : StoreState) : StoreState :=
  s.compactPhaseC (compactPhaseB s.snapshotRecords) s.wal.contents.length

/-! ### The system -/

/-- A server process and the compaction it may be running. -/
structure System where
  store : StoreState
  compaction : Option Compaction

/-- What can happen next. -/
inductive Event
  | request (q : Request)
  /-- A batch of watch creates is flushed. -/
  | watch (batch : List GlobalCreate)
  | cancelWatch (watchId : Int64)
  | compactA
  | compactB
  | compactC
  /-- The compaction gives up on an I/O error, before its rename. -/
  | compactFails
  | restart (now : Nat)

/-- Does the process end here? -/
def Event.isRestart : Event → Bool
  | .restart _ => true
  | _ => false

namespace System

/-- A server that has just opened a WAL file. -/
def boot (now : Nat) (contents : Bytes) : Option System :=
  (openStore now contents).toOption.map fun store => { store, compaction := none }

/-- The next state; `none` when the event cannot happen or ends the process. -/
def step (sys : System) : Event → Option System
  | .request q => (answer sys.store q).map fun store => { sys with store }
  | .watch batch => some { sys with store := (flushGlobalBatch sys.store batch).2 }
  | .cancelWatch watchId => some { sys with store := sys.store.cancelWatcher watchId }
  | .compactA =>
      match sys.compaction with
      | none => some { sys with compaction := some sys.store.compactPhaseA }
      | some _ => none
  | .compactB =>
      match sys.compaction with
      | some (.snapshotted records walSize) =>
          some { sys with compaction := some (.written (compactPhaseB records) walSize) }
      | _ => none
  | .compactC =>
      match sys.compaction with
      | some (.written target walSize) =>
          some { store := sys.store.compactPhaseC target walSize, compaction := none }
      | _ => none
  | .compactFails => some { sys with compaction := none }
  | .restart now => boot now sys.store.wal.contents

/-- The state after a sequence of events. -/
def run (sys : System) (evs : List Event) : Option System := Trace.run step sys evs

end System

end Rudurru
