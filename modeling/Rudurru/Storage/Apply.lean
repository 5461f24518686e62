import Rudurru.Lib.Prog
import Rudurru.Storage.State

/-!
# Rudurru.Storage.Apply

Mutating the key map (`src/storage/apply.rs`), shared by live requests and WAL replay.

Requests run in `StoreM`: a state change and either a value or a `Failure`. The state reached
before a failure is kept, as in the source, where nothing is rolled back.
-/

namespace Rudurru

open Std (ExtTreeMap)

variable [Crates]

/-- Code running under the store's write lock. -/
abbrev StoreM := ExceptT Failure (StateM StoreState)

namespace StoreM

/-- Run a read-only computation on the current state. -/
def read {α : Type} (f : StoreState → Except Failure α) : StoreM α := do
  match f (← get) with
  | .ok a => pure a
  | .error e => throw e

end StoreM

/-- `StoreState::alloc_revision`. -/
def allocRevision : StoreM UInt64 :=
  modifyGet fun s => (s.nextRev, { s with nextRev := s.nextRev + 1 })

/-- `self.wal.append_kv(&record)`, reporting an I/O error under the given status. -/
def appendKv (rec : KvWalRecord) (onError : Failure) : StoreM Unit := do
  let ok ← modifyGet fun s => ((s.wal.appendKv rec).1, { s with wal := (s.wal.appendKv rec).2 })
  if ok then pure () else throw onError

/-- `self.wal.append_kv_batch(&records)`, reporting an I/O error under the given status. -/
def appendKvBatch (recs : List KvWalRecord) (onError : Failure) : StoreM Unit := do
  let ok ← modifyGet fun s =>
    ((s.wal.appendKvBatch recs).1, { s with wal := (s.wal.appendKvBatch recs).2 })
  if ok then pure () else throw onError

/-- The entry `apply` stores for a put. -/
def putEntry (keys : ExtTreeMap Bytes KeyState) (key value : Bytes) (lease : Int64)
    (rev : UInt64) (kvBytes : Option Bytes) : KeyState :=
  let prev := aliveIn keys key
  let entry : KeyState :=
    { value
      modRevision := rev
      createRevision := (prev.map (·.createRevision)).getD rev
      version := (prev.map (·.version + 1)).getD 1
      lease
      deleteRevision := 0
      rebirth := (keys[key]?.map (!·.isAlive)).getD false
      kvBytes := [] }
  { entry with kvBytes := kvBytes.getD (makeKvBytes key entry) }

/-- `StoreState::apply`: returns the alive entry it replaces. -/
def apply (key value : Bytes) (lease : Int64) (rev : UInt64) (kvBytes : Option Bytes) :
    StoreM (Option KeyState) :=
  modifyGet fun s =>
    let prev := s.alive? key
    let entry := putEntry s.keys key value lease rev kvBytes
    let event : WatchEvent :=
      { revision := rev, eventType := .put, key, kvBytes := entry.kvBytes,
        prevKvBytes := (prev.map (·.kvBytes)).getD [] }
    let s' := { s with
      keys := s.keys.insert key entry
      keyCount := if prev.isNone then s.keyCount + 1 else s.keyCount }
    (prev, s'.notifyWatchers event)

/-- `StoreState::apply_delete`: returns the entry as it was, or `none` when there is nothing
to delete. The tombstone's event blob is patched in place, which panics on a blob not laid out
by `encode_kv`; by then the map is already updated. -/
def applyDelete (key : Bytes) (rev : UInt64) : StoreM (Option KeyState) := do
  match (← get).keys[key]? with
  | none => return none
  | some prev =>
      if prev.deleteRevision ≠ 0 then return none
      else
        modify fun s => { s with
          keys := s.keys.insert key { prev with deleteRevision := rev }
          keyCount := s.keyCount - 1 }
        match withModRevision prev.kvBytes rev with
        | none => throw (.panic "index out of bounds")
        | some tombstoneBytes =>
            modify (·.notifyWatchers
              { revision := rev, eventType := .delete, key, kvBytes := tombstoneBytes,
                prevKvBytes := prev.kvBytes })
            return some prev

/-- Apply a list of deletions at one revision, in order. -/
def applyDeletes (keys : List Bytes) (rev : UInt64) : StoreM Unit :=
  keys.forM fun key => do let _ ← applyDelete key rev

/-- The WAL record of a deletion, from the entry being deleted. -/
def deleteRecord (key : Bytes) (p : KeyState) (rev : UInt64) : KvWalRecord :=
  KvWalRecord.new (if p.lease ≠ 0 then DELETED ||| HAS_LEASE else DELETED) key p.value
    p.createRevision.toInt64 rev.toInt64 p.version p.lease

/-- The records built before a batch of deletions mutates the map; keys without an alive entry
contribute none. -/
def StoreState.deleteRecords (s : StoreState) (keys : List Bytes) (rev : UInt64) :
    List KvWalRecord :=
  keys.filterMap fun key => (s.alive? key).map fun p => deleteRecord key p rev

/-- `StoreState::delete_keys_for_lease`. -/
def deleteKeysForLease (id : Int64) : StoreM Unit := do
  let keysToDelete :=
    ((← get).keys.toList.filter fun e => e.2.lease = id && e.2.isAlive).map (·.1)
  if keysToDelete = [] then return ()
  let rev ← allocRevision
  let records := (← get).deleteRecords keysToDelete rev
  appendKvBatch records (.status .internal "WAL write failed during lease key deletion")
  applyDeletes keysToDelete rev

/-- `apply_record`: replay one WAL record. -/
def applyRecord (rec : KvWalRecord) : StoreM Unit := do
  if rec.deleted then
    let _ ← applyDelete (rec.key.getD []) rec.revision
  else
    match decodeKeyValue rec.kvBytes with
    | none => return ()
    | some kv =>
        let _ ← apply kv.key kv.value kv.lease rec.revision (some rec.kvBytes)

end Rudurru
