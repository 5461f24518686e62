import Rudurru.Storage.Bounds
import Rudurru.Storage.Wal

/-!
# Rudurru.Storage.State

The in-memory state of the store (`src/storage/state.rs`) and its watcher registry
(`src/storage/watcher.rs`).

Deleted keys stay in the map as tombstones: `deleteRevision` is zero while a key is alive and
the revision of its deletion afterwards.
-/

namespace Rudurru

open Std (ExtTreeMap)

/-- `KeyState`: a key's state, alive or tombstoned. -/
structure KeyState where
  value : Bytes
  modRevision : UInt64
  createRevision : UInt64
  version : Int64
  lease : Int64
  deleteRevision : UInt64
  rebirth : Bool
  kvBytes : Bytes
  deriving DecidableEq, Repr

/-- `KeyState::is_alive`. -/
def KeyState.isAlive (ks : KeyState) : Bool := ks.deleteRevision = 0

/-- `keys.get(key).filter(|k| k.is_alive())`. -/
def aliveIn (keys : ExtTreeMap Bytes KeyState) (key : Bytes) : Option KeyState :=
  keys[key]?.filter KeyState.isAlive

theorem aliveIn_eq_some {keys : ExtTreeMap Bytes KeyState} {key : Bytes} {ks : KeyState} :
    aliveIn keys key = some ks ↔ keys[key]? = some ks ∧ ks.isAlive = true := by
  rw [aliveIn, Option.filter_eq_some_iff]

/-- `make_kv_bytes`. -/
def makeKvBytes (key : Bytes) (ks : KeyState) : Bytes :=
  (encodeKv key ks.value ks.createRevision.toInt64 ks.modRevision.toInt64 ks.version ks.lease).1

/-! ### Patching `mod_revision` in place

`none` stands for the index panic of the source. -/

/-- The loop of `mod_revision_field_offset`: how many bytes precede the first one whose high
bit is clear. -/
def varintTail : Bytes → Option Nat
  | [] => none
  | b :: rest => if b &&& 0x80 = 0 then some 0 else (varintTail rest).map (· + 1)

/-- `mod_revision_field_offset`. -/
def modRevisionFieldOffset (kvBytes : Bytes) : Option Nat :=
  match kvBytes with
  | _ :: b₁ :: b₂ :: b₃ :: b₄ :: b₅ :: _ =>
      let low (b : UInt8) : UInt32 := b.toUInt32 &&& 0x7f
      let keyLen : UInt32 :=
        low b₁ ||| (low b₂ <<< 7) ||| (low b₃ <<< 14) ||| (low b₄ <<< 21)
          ||| ((b₅.toUInt32 &&& (0x0f : UInt32)) <<< 28)
      let i := 1 + 5 + keyLen.toNat + 1
      (varintTail (kvBytes.drop i)).map (i + · + 2)
  | _ => none

/-- `with_mod_revision`. -/
def withModRevision (kvBytes : Bytes) (rev : UInt64) : Option Bytes :=
  match modRevisionFieldOffset kvBytes with
  | none => none
  | some offset =>
      if offset + 10 > kvBytes.length then none
      else some (kvBytes.take offset ++ encodeOverlongU64 rev ++ kvBytes.drop (offset + 10))

/-! ### The store state -/

/-- `LeaseState`. Instants are nanoseconds; the `key_count` field, which nothing updates or
reads, is left out. -/
structure LeaseState where
  id : Int64
  ttl : Int64
  expiresAt : Nat
  deriving DecidableEq, Repr

/-- `mvccpb::event::EventType`. -/
inductive EventType
  | put
  | delete
  deriving DecidableEq, Repr

structure WatchEvent where
  revision : UInt64
  eventType : EventType
  key : Bytes
  kvBytes : Bytes
  prevKvBytes : Bytes
  deriving DecidableEq, Repr

/-- `WatchRegistration`. `sender` is the watcher's event channel, as the events sent on it so
far. -/
structure WatchRegistration where
  key : Bytes
  rangeEnd : Bytes
  startRevision : UInt64
  sender : List WatchEvent
  watchId : Int64
  progressNotify : Bool
  filters : List Int32
  prevKv : Bool
  bound : RangeBound
  deriving DecidableEq, Repr

/-- `StoreState`. -/
structure StoreState where
  keys : ExtTreeMap Bytes KeyState
  leases : ExtTreeMap Int64 LeaseState
  watchers : List WatchRegistration
  nextRev : UInt64
  nextLeaseId : Int64
  keyCount : Nat
  compactRev : UInt64
  wal : WalFile

namespace StoreState

/-- `StoreState::new`. -/
def new (wal : WalFile) : StoreState :=
  { keys := ∅, leases := ∅, watchers := [], nextRev := 1, nextLeaseId := 1, keyCount := 0,
    compactRev := 0, wal }

/-- `StoreState::current_revision`. -/
def currentRevision (s : StoreState) : UInt64 := if s.nextRev = 0 then 0 else s.nextRev - 1

/-- `StoreState::header`. -/
def header (s : StoreState) : ResponseHeader := { revision := s.currentRevision.toInt64 }

/-- `self.keys.get(key).filter(|k| k.is_alive())`. -/
def alive? (s : StoreState) (key : Bytes) : Option KeyState := aliveIn s.keys key

/-! ### Watchers -/

/-- `register_watcher`. -/
def registerWatcher (s : StoreState) (reg : WatchRegistration) : StoreState :=
  { s with watchers := s.watchers ++ [reg] }

/-- `cancel_watcher`. -/
def cancelWatcher (s : StoreState) (watchId : Int64) : StoreState :=
  { s with watchers := s.watchers.filter (·.watchId ≠ watchId) }

/-- The filter loop of `notify_watchers`: `NOPUT` is 0, `NODELETE` is 1. -/
def passesFilters (filters : List Int32) (eventType : EventType) : Bool :=
  filters.all fun f => !((f == 0 && eventType == .put) || (f == 1 && eventType == .delete))

/-- One round of `notify_watchers`. -/
def notifyWatcher (event : WatchEvent) (w : WatchRegistration) : WatchRegistration :=
  if !matchesRange w.bound event.key then w
  else if event.revision < w.startRevision then w
  else if !passesFilters w.filters event.eventType then w
  else
    let event := if w.prevKv then event else { event with prevKvBytes := [] }
    { w with sender := w.sender ++ [event] }

/-- `notify_watchers`. -/
def notifyWatchers (s : StoreState) (event : WatchEvent) : StoreState :=
  { s with watchers := s.watchers.map (notifyWatcher event) }

end StoreState

end Rudurru
