import Rudurru.Storage.Range

/-!
# Rudurru.Storage.Store

The store's operations (`src/storage/store.rs`, and lease expiry from
`src/storage/background.rs`).

Every write goes through `putAt` or `deleteRangeAt`, which append to the WAL first and touch
the map only when the append succeeded. A transaction applies all of its writes at one
revision, allocated on the first write; its historical ranges are set aside and answered after
the lock is released.
-/

namespace Rudurru

open Std (ExtTreeMap)

variable [Crates]

/-! ### Compares -/

inductive CompareResult
  | equal
  | greater
  | less
  | notEqual
  deriving DecidableEq, Repr

inductive CompareTarget
  | version
  | create
  | mod
  | value
  | lease
  deriving DecidableEq, Repr

/-- `result_from_i32`. -/
def resultFromI32 (v : Int32) : CompareResult :=
  if v = 0 then .equal else if v = 1 then .greater else if v = 2 then .less
  else if v = 3 then .notEqual else .equal

/-- `target_from_i32`. -/
def targetFromI32 (v : Int32) : CompareTarget :=
  if v = 0 then .version else if v = 1 then .create else if v = 2 then .mod
  else if v = 3 then .value else if v = 4 then .lease else .version

/-- `cmp_i64`. -/
def cmpI64 (result : CompareResult) (actual expected : Int64) : Bool :=
  match result with
  | .equal => actual = expected
  | .greater => actual > expected
  | .less => actual < expected
  | .notEqual => actual ≠ expected

/-- `cmp_bytes`. -/
def cmpBytes (result : CompareResult) (actual expected : Bytes) : Bool :=
  match result with
  | .equal => actual = expected
  | .greater => bytesLt expected actual
  | .less => bytesLt actual expected
  | .notEqual => actual ≠ expected

/-- `eval_compare`: a tombstoned key counts as absent. -/
def evalCompare (s : StoreState) (cmp : Compare) : Bool :=
  let alive := s.alive? cmp.key
  let result := resultFromI32 cmp.result
  match targetFromI32 cmp.target with
  | .version =>
      cmpI64 result ((alive.map (·.version)).getD 0)
        (match cmp.targetUnion with | some (.version v) => v | _ => 0)
  | .create =>
      cmpI64 result ((alive.map (·.createRevision.toInt64)).getD 0)
        (match cmp.targetUnion with | some (.createRevision v) => v | _ => 0)
  | .mod =>
      cmpI64 result ((alive.map (·.modRevision.toInt64)).getD 0)
        (match cmp.targetUnion with | some (.modRevision v) => v | _ => 0)
  | .value =>
      cmpBytes result ((alive.map (·.value)).getD [])
        (match cmp.targetUnion with | some (.value v) => v | _ => [])
  | .lease =>
      cmpI64 result ((alive.map (·.lease)).getD 0)
        (match cmp.targetUnion with | some (.lease v) => v | _ => 0)

/-! ### Puts -/

def keyNotFound : Failure := .status .invalidArgument "etcdserver: key not found"
def leaseNotFound : Failure := .status .notFound "etcdserver: requested lease not found"
def walWriteFailed : Failure := .status .internal "etcdserver: wal write failed"

/-- The lease a put attaches: with `ignore_lease` the stored one. -/
def putLease (req : PutRequest) (prev : Option KeyState) : Int64 :=
  if req.ignoreLease then (prev.map (·.lease)).getD req.lease else req.lease

/-- The value a put writes: with `ignore_value` the stored one. -/
def putValue (req : PutRequest) (prev : Option KeyState) : Bytes :=
  if req.ignoreValue then (prev.map (·.value)).getD [] else req.value

/-- `StoreState::validate_put`. -/
def validatePut (req : PutRequest) (s : StoreState) : Except Failure Unit := do
  checkKey req.key
  if req.ignoreValue ∧ req.value ≠ [] then
    throw (.status .invalidArgument "etcdserver: value is provided")
  if req.ignoreLease ∧ req.lease ≠ 0 then
    throw (.status .invalidArgument "etcdserver: lease is provided")
  let prev := s.alive? req.key
  if (req.ignoreValue ∨ req.ignoreLease) ∧ prev = none then throw keyNotFound
  let lease := putLease req prev
  if lease ≠ 0 ∧ !s.leases.contains lease then throw leaseNotFound

/-- The WAL record of a put, from the alive entry it replaces. -/
def putRecord (key value : Bytes) (lease : Int64) (rev : UInt64) (prev : Option KeyState) :
    KvWalRecord :=
  let flags : UInt8 := if prev.isNone then IS_CREATE else 0
  let flags := if lease ≠ 0 then flags ||| HAS_LEASE else flags
  let createRevision := (prev.map (·.createRevision)).getD rev
  let version := (prev.map (·.version + 1)).getD 1
  KvWalRecord.new flags key value createRevision.toInt64 rev.toInt64 version lease

/-- `StoreState::put_at`. -/
def putAt (req : PutRequest) (rev : UInt64) : StoreM PutResponse := do
  let s ← get
  let prev := s.alive? req.key
  if (req.ignoreValue ∨ req.ignoreLease) ∧ prev = none then throw keyNotFound
  let value := putValue req prev
  let lease := putLease req prev
  if lease ≠ 0 ∧ !s.leases.contains lease then throw leaseNotFound
  appendKv (putRecord req.key value lease rev prev) walWriteFailed
  let prev ← apply req.key value lease rev none
  let header := (← get).header
  return { header, prevKv := if req.prevKv then (prev.map (·.kvBytes)).getD [] else [] }

/-- `Store::put`. -/
def put (req : PutRequest) : StoreM PutResponse := do
  StoreM.read (validatePut req)
  let rev ← allocRevision
  putAt req rev

/-! ### Deletes -/

/-- The key selection of `delete_range_at`, alive keys only. -/
def StoreState.keysToDelete (s : StoreState) (bound : RangeBound) : Except Failure (List Bytes) :=
  match bound with
  | .point k => .ok ((s.alive? k).map fun _ => k).toList
  | _ => do
      let entries ← walkRange s.keys bound (btreeBounds bound)
      return (entries.filter (·.2.isAlive)).map (·.1)

/-- `StoreState::delete_range_at`. -/
def deleteRangeAt (req : DeleteRangeRequest) (rev : UInt64) : StoreM DeleteRangeResponse := do
  let keysToDelete ← StoreM.read (·.keysToDelete (resolveRange req.key req.rangeEnd))
  let s ← get
  appendKvBatch (s.deleteRecords keysToDelete rev) walWriteFailed
  applyDeletes keysToDelete rev
  let prevKvs := if req.prevKv then (keysToDelete.filterMap s.alive?).map (·.kvBytes) else []
  return { header := (← get).header, deleted := Int64.ofNat keysToDelete.length, prevKvs }

/-- `Store::delete_range`. -/
def deleteRange (req : DeleteRangeRequest) : StoreM DeleteRangeResponse := do
  StoreM.read fun _ => checkKey req.key
  let rev ← allocRevision
  deleteRangeAt req rev

/-! ### Duplicate keys in a transaction

Writes are intervals `[start, end)`, with no end meaning unbounded. -/

/-- `point_interval`. -/
def pointInterval (key : Bytes) : Bytes × Option Bytes := (key, some (key ++ [0]))

/-- The loop of `prefix_end`, on the reversed bytes. -/
def prefixEndLoop : Bytes → Option Bytes
  | [] => none
  | last :: rest => if last = 0xff then prefixEndLoop rest else some ((last + 1) :: rest)

/-- `prefix_end`. -/
def prefixEnd (p : Bytes) : Option Bytes := (prefixEndLoop p.reverse).map List.reverse

/-- `bound_interval`. -/
def boundInterval : RangeBound → Bytes × Option Bytes
  | .all => ([], none)
  | .point k => pointInterval k
  | .prefixOf p => (p, prefixEnd p)
  | .fromKey k => (k, none)
  | .range start stop => (start, some stop)

/-- `intervals_overlap`. -/
def intervalsOverlap (a b : Bytes × Option Bytes) : Bool :=
  let isEmpty (i : Bytes × Option Bytes) : Bool := i.2.any fun stop => bytesLe stop i.1
  let startsBefore (start : Bytes) (stop : Option Bytes) : Bool := stop.all (bytesLt start)
  !isEmpty a && !isEmpty b && startsBefore a.1 b.2 && startsBefore b.1 a.2

/-- The double loop at the end of `check_txn_branch`. -/
def anyOverlap : List (Bytes × Option Bytes) → Bool
  | [] => false
  | i :: rest => rest.any (intervalsOverlap i) || anyOverlap rest

/-- The end of `check_txn_branch`: no two of its writes may touch a common key. -/
def checkIntervals (intervals : List (Bytes × Option Bytes)) : Except Failure Unit :=
  if anyOverlap intervals then
    .error (.status .invalidArgument "etcdserver: duplicate key given in txn request")
  else .ok ()

mutual
/-- One op of `check_txn_branch`: the interval it writes, if any. A nested transaction is
checked on its own. -/
def checkTxnOp : RequestOp → Except Failure (List (Bytes × Option Bytes))
  | .put p => do
      checkKey p.key
      return [pointInterval p.key]
  | .deleteRange d => do
      checkKey d.key
      return [boundInterval (resolveRange d.key d.rangeEnd)]
  | .range r => do
      checkKey r.key
      return []
  | .txn _ success failure => do
      checkIntervals (← checkTxnOps success)
      checkIntervals (← checkTxnOps failure)
      return []
  | .none => return []
/-- The first loop of `check_txn_branch`. -/
def checkTxnOps : List RequestOp → Except Failure (List (Bytes × Option Bytes))
  | [] => return []
  | op :: ops => do
      let i ← checkTxnOp op
      return i ++ (← checkTxnOps ops)
end

/-- `check_txn_branch`. -/
def checkTxnBranch (ops : List RequestOp) : Except Failure Unit := do
  checkIntervals (← checkTxnOps ops)

/-- `check_txn_duplicate_keys`. -/
def checkTxnDuplicateKeys (req : TxnRequest) : Except Failure Unit := do
  checkTxnBranch req.success
  checkTxnBranch req.failure

/-! ### Transactions -/

/-- What a transaction carries from op to op: its revision, once allocated, and the
historical ranges set aside with their positions in the response tree. -/
structure TxnCursor where
  rev : Option UInt64 := none
  deferred : List (List Nat × RangeRequest) := []

/-- `rev.get_or_insert_with(|| state.alloc_revision())`. -/
def TxnCursor.getRev (c : TxnCursor) : StoreM (UInt64 × TxnCursor) :=
  match c.rev with
  | some rev => return (rev, c)
  | none => do
      let rev ← allocRevision
      return (rev, { c with rev := some rev })

mutual
/-- One op of `apply_txn_ops`, at position `path` of the response tree. -/
def applyTxnOp (path : List Nat) (depth : Nat) (c : TxnCursor) :
    RequestOp → StoreM (ResponseOp × TxnCursor)
  | .range r => do
      if r.revision > 0 then
        return (.none, { c with deferred := c.deferred ++ [(path, r)] })
      let resp ← StoreM.read (rangeCurrent · r)
      return (.range resp, c)
  | .put p => do
      StoreM.read (validatePut p)
      let (rev, c) ← c.getRev
      return (.put (← putAt p rev), c)
  | .deleteRange d => do
      StoreM.read fun _ => checkKey d.key
      let (rev, c) ← c.getRev
      return (.deleteRange (← deleteRangeAt d rev), c)
  | .txn compare success failure => do
      if depth ≥ 1 then
        throw (.status .invalidArgument "etcdserver: nested txn is not allowed")
      if compare.all (evalCompare (← get)) then
        let (responses, c) ← applyTxnOps path 0 (depth + 1) c success
        return (.txn (← get).header true responses, c)
      else
        let (responses, c) ← applyTxnOps path 0 (depth + 1) c failure
        return (.txn (← get).header false responses, c)
  | .none => return (.none, c)
/-- `Store::apply_txn_ops`, from op number `i` on. -/
def applyTxnOps (path : List Nat) (i depth : Nat) (c : TxnCursor) :
    List RequestOp → StoreM (List ResponseOp × TxnCursor)
  | [] => return ([], c)
  | op :: ops => do
      let (response, c) ← applyTxnOp (path ++ [i]) depth c op
      let (responses, c) ← applyTxnOps path (i + 1) depth c ops
      return (response :: responses, c)
end

/-- The part of `Store::txn` under the write lock: whether the compares held, the responses so
far, and the deferred ranges. -/
def txnLocked (req : TxnRequest) :
    StoreM (TxnResponse × List (List Nat × RangeRequest)) := do
  let succeeded := req.compare.all (evalCompare (← get))
  let (responses, c) ←
    applyTxnOps [] 0 0 {} (if succeeded then req.success else req.failure)
  return ({ header := (← get).header, succeeded, responses }, c.deferred)

/-- `patch_deferred_range`. -/
def patchDeferredRange : List ResponseOp → List Nat → RangeResponse → List ResponseOp
  | responses, [], _ => responses
  | responses, [i], resp => responses.set i (.range resp)
  | responses, i :: j :: path, resp =>
      match responses[i]? with
      | some (.txn header succeeded nested) =>
          responses.set i (.txn header succeeded (patchDeferredRange nested (j :: path) resp))
      | _ => responses

/-- Answer the deferred ranges of a transaction, in order. -/
def runDeferred : List (List Nat × RangeRequest) → TxnResponse → StoreM TxnResponse
  | [], resp => return resp
  | (path, req) :: deferred, resp => do
      let r ← StoreM.read (range · req)
      runDeferred deferred { resp with responses := patchDeferredRange resp.responses path r }

/-- `Store::txn`. -/
def txn (req : TxnRequest) : StoreM TxnResponse := do
  StoreM.read fun _ => checkTxnDuplicateKeys req
  let (resp, deferred) ← txnLocked req
  runDeferred deferred resp

/-! ### Compaction watermark -/

/-- `Store::compact`. -/
def compact (revision : Int64) : StoreM ResponseHeader := do
  let rev := revision.toUInt64
  let s ← get
  if rev > s.currentRevision then
    throw (.status .outOfRange "etcdserver: mvcc: required revision is a future revision")
  if rev ≤ s.compactRev then
    throw (.status .outOfRange "etcdserver: mvcc: required revision has been compacted")
  set { s with compactRev := rev }
  return (← get).header

/-! ### Leases -/

/-- `LEASE_MAX_TTL`. -/
def leaseMaxTtl : Int64 := 9223372035
/-- `LEASE_MIN_TTL`. -/
def leaseMinTtl : Int64 := 2

/-- `check_lease_ttl`. -/
def checkLeaseTtl (ttl : Int64) : Except Failure Int64 :=
  if ttl > leaseMaxTtl then .error (.status .outOfRange "etcdserver: too large lease TTL")
  else .ok (if ttl < leaseMinTtl then leaseMinTtl else ttl)

/-- `Instant + Duration::from_secs(ttl as u64)`, in nanoseconds. -/
def expiryInstant (now : Nat) (ttl : Int64) : Nat := now + ttl.toUInt64.toNat * 1000000000

/-- `StoreState::alloc_lease_id`. -/
def allocLeaseId : StoreM Int64 :=
  modifyGet fun s => (s.nextLeaseId, { s with nextLeaseId := s.nextLeaseId + 1 })

/-- `Store::lease_grant` at instant `now`. -/
def leaseGrant (now : Nat) (id ttl : Int64) : StoreM LeaseGrantResponse := do
  let ttl ← StoreM.read fun _ => checkLeaseTtl ttl
  let id ← if id ≠ 0 then pure id else allocLeaseId
  if (← get).leases.contains id then
    throw (.status .failedPrecondition "etcdserver: lease already exists")
  modify fun s =>
    { s with leases := s.leases.insert id { id, ttl, expiresAt := expiryInstant now ttl } }
  return { header := (← get).header, id, ttl }

/-- `Store::lease_revoke`. -/
def leaseRevoke (id : Int64) : StoreM ResponseHeader := do
  if !(← get).leases.contains id then throw leaseNotFound
  modify fun s => { s with leases := s.leases.erase id }
  deleteKeysForLease id
  return (← get).header

/-- `Store::lease_keep_alive` at instant `now`. -/
def leaseKeepAlive (now : Nat) (id : Int64) : StoreM (ResponseHeader × Int64) := do
  match (← get).leases[id]? with
  | some ls =>
      modify fun s => { s with
        leases := s.leases.insert id { ls with expiresAt := expiryInstant now ls.ttl } }
      return ((← get).header, ls.ttl)
  | none => throw (.status .notFound "etcdserver: lease not found")

/-- The expiry step of `start_expiry_task` for one lease that is due at instant `now`; a
failed deletion is logged and dropped. -/
def leaseExpire (now : Nat) (id : Int64) : StoreM Unit := do
  match (← get).leases[id]? with
  | some ls =>
      if ls.expiresAt ≤ now then
        modify fun s => { s with leases := s.leases.erase id }
        tryCatch (deleteKeysForLease id) fun
          | .status _ _ => pure ()
          | .panic m => throw (.panic m)
  | none => return ()

/-! ### Opening -/

/-- Why `Store::open` did not produce a store. -/
inductive OpenError
  | io (e : IoError)
  | panic (message : String)
  deriving DecidableEq, Repr

/-- The replay loop of `Store::open`: records at or below `compact_rev` are skipped, and the
highest revision seen is tracked. -/
def replayLoop : List KvWalRecord → UInt64 → StoreM UInt64
  | [], maxRev => return maxRev
  | rec :: recs, maxRev => do
      let rev := rec.revision
      if rev ≤ (← get).compactRev then replayLoop recs maxRev
      else
        applyRecord rec
        replayLoop recs (if rev > maxRev then rev else maxRev)

/-- The lease ids `Store::open` restores: those of the alive keys, in ascending order. -/
def StoreState.restoredLeases (s : StoreState) : List Int64 :=
  let ids := (s.keys.toList.filter fun e => e.2.isAlive && e.2.lease ≠ 0).map (·.2.lease)
  (ids.foldl (fun (m : ExtTreeMap Int64 Unit) id => m.insert id ()) ∅).keys

/-- The lease restoration of `Store::open`, at instant `now`, with its default TTL. -/
def StoreState.restoreLeases (s : StoreState) (now : Nat) : StoreState :=
  let unique := s.restoredLeases
  let maxId := unique.getLast?.getD 0
  { s with
    nextLeaseId := if maxId > 0 then maxId + 1 else s.nextLeaseId
    leases := unique.foldl
      (fun m id => m.insert id { id, ttl := 3600, expiresAt := expiryInstant now 3600 })
      s.leases }

/-- `Store::open` on a file with the given contents. -/
def openStore (now : Nat) (contents : Bytes) : Except OpenError StoreState :=
  let (records, result) := scanKvFile contents 0
  match result with
  | .error e => .error (.io e)
  | .ok _ =>
      match Prog.exec (replayLoop records 0) (.new (.open contents)) with
      | (.ok maxRev, s) => .ok ({ s with nextRev := maxRev + 1 }.restoreLeases now)
      | (.error (.panic m), _) => .error (.panic m)
      | (.error (.status _ m), _) => .error (.panic m)

end Rudurru
