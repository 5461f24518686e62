import Rudurru.Lib.Refine
import Rudurru.Storage.Pages
import Rudurru.Txn.Ready

/-!
# Rudurru.Mvcc

What the store is for its clients: a revision and the alive pairs, each with its metadata.

`Mvcc` has no tombstones, no log, no watchers, no count and no encoded blobs. A request on it is a
few lines: a put inserts a pair, a delete filters the pairs, the ops of a transaction run one after
the other at the next revision. `StoreState.mvcc` forgets the rest of a store, and every request of
the server does to it what the request on `Mvcc` says, with the same answer (`refines_handle`). So
clients cannot tell a run of the server, whatever it does to its WAL meanwhile, from a run of `Mvcc`
(`store_refines_mvcc`).

Historical ranges are left out. They look at what `Mvcc` forgets.
-/

namespace Rudurru

open Std (ExtTreeMap)

/-! ### Requests without history -/

mutual
/-- No range of the op names a revision. -/
def RequestOp.isCurrent : RequestOp → Bool
  | .range r => r.revision ≤ 0
  | .txn _ success failure => areCurrent success && areCurrent failure
  | .put _ | .deleteRange _ | .none => true
def RequestOp.areCurrent : List RequestOp → Bool
  | [] => true
  | op :: ops => op.isCurrent && areCurrent ops
end

/-- No range of the request names a revision. -/
def Request.isCurrent : Request → Bool
  | .range req => req.revision ≤ 0
  | .txn req => RequestOp.areCurrent req.success && RequestOp.areCurrent req.failure
  | _ => true

/-! ### The abstract store -/

/-- A value and what is known about it. -/
structure Pair where
  value : Bytes
  createRevision : UInt64
  modRevision : UInt64
  version : Int64
  lease : Int64
  deriving DecidableEq, Repr

/-- The pair as it is sent to clients. -/
def Pair.encode (key : Bytes) (p : Pair) : Bytes :=
  (encodeKv key p.value p.createRevision.toInt64 p.modRevision.toInt64 p.version p.lease).1

/-- The min/max revision filters of a range. -/
def Pair.passes (req : RangeRequest) (p : Pair) : Bool :=
  (req.minModRevision ≤ 0 || req.minModRevision ≤ p.modRevision.toInt64)
    && (req.maxModRevision ≤ 0 || p.modRevision.toInt64 ≤ req.maxModRevision)
    && (req.minCreateRevision ≤ 0 || req.minCreateRevision ≤ p.createRevision.toInt64)
    && (req.maxCreateRevision ≤ 0 || p.createRevision.toInt64 ≤ req.maxCreateRevision)

@[ext] structure Mvcc where
  revision : UInt64
  pairs : ExtTreeMap Bytes Pair
  compacted : UInt64
  leases : ExtTreeMap Int64 LeaseState
  nextLeaseId : Int64

/-- Requests on the abstract store. -/
abbrev MvccM := ExceptT Failure (StateM Mvcc)

namespace Mvcc

def read {α : Type} (f : Mvcc → Except Failure α) : MvccM α := do
  match f (← get) with
  | .ok a => pure a
  | .error e => throw e

def header (K : Mvcc) : ResponseHeader := { revision := K.revision.toInt64 }

/-- The pairs of a range, in key order. -/
def within (K : Mvcc) (key rangeEnd : Bytes) : List (Bytes × Pair) :=
  K.pairs.toList.filter fun e => matchesRange (resolveRange key rangeEnd) e.1

/-- The answer to a range: the pairs that pass the filters, sorted and cut as asked. -/
def range (K : Mvcc) (req : RangeRequest) : RangeResponse :=
  page req K.header
    (((K.within req.key req.rangeEnd).filter fun e => e.2.passes req).map fun e =>
      (e.1, e.2.encode e.1))

/-- Does the compare hold? A key that is absent has zeros and no bytes. -/
def holds (K : Mvcc) (cmp : Compare) : Bool :=
  let p := K.pairs[cmp.key]?
  let result := resultFromI32 cmp.result
  match targetFromI32 cmp.target with
  | .version =>
      cmpI64 result ((p.map (·.version)).getD 0)
        (match cmp.targetUnion with | some (.version v) => v | _ => 0)
  | .create =>
      cmpI64 result ((p.map (·.createRevision.toInt64)).getD 0)
        (match cmp.targetUnion with | some (.createRevision v) => v | _ => 0)
  | .mod =>
      cmpI64 result ((p.map (·.modRevision.toInt64)).getD 0)
        (match cmp.targetUnion with | some (.modRevision v) => v | _ => 0)
  | .value =>
      cmpBytes result ((p.map (·.value)).getD [])
        (match cmp.targetUnion with | some (.value v) => v | _ => [])
  | .lease =>
      cmpI64 result ((p.map (·.lease)).getD 0)
        (match cmp.targetUnion with | some (.lease v) => v | _ => 0)

/-! #### Writes -/

/-- The lease a put attaches. -/
def leaseOf (req : PutRequest) (prev : Option Pair) : Int64 :=
  if req.ignoreLease then (prev.map (·.lease)).getD req.lease else req.lease

/-- The pair a put leaves, at revision `rev`. -/
def written (req : PutRequest) (prev : Option Pair) (rev : UInt64) : Pair where
  value := if req.ignoreValue then (prev.map (·.value)).getD [] else req.value
  createRevision := (prev.map (·.createRevision)).getD rev
  modRevision := rev
  version := (prev.map (·.version + 1)).getD 1
  lease := leaseOf req prev

def checkPut (req : PutRequest) (K : Mvcc) : Except Failure Unit := do
  checkKey req.key
  if req.ignoreValue ∧ req.value ≠ [] then
    throw (.status .invalidArgument "etcdserver: value is provided")
  if req.ignoreLease ∧ req.lease ≠ 0 then
    throw (.status .invalidArgument "etcdserver: lease is provided")
  if (req.ignoreValue ∨ req.ignoreLease) ∧ K.pairs[req.key]? = none then throw keyNotFound
  let lease := leaseOf req K.pairs[req.key]?
  if lease ≠ 0 ∧ !K.leases.contains lease then throw leaseNotFound

/-- A put at revision `rev`. -/
def putAt (req : PutRequest) (rev : UInt64) (K : Mvcc) : PutResponse × Mvcc :=
  let prev := K.pairs[req.key]?
  ({ header := { revision := rev.toInt64 }
     prevKv := if req.prevKv then (prev.map (·.encode req.key)).getD [] else [] },
   { K with revision := rev, pairs := K.pairs.insert req.key (written req prev rev) })

/-- A delete at revision `rev`. -/
def deleteAt (req : DeleteRangeRequest) (rev : UInt64) (K : Mvcc) : DeleteRangeResponse × Mvcc :=
  let gone := K.within req.key req.rangeEnd
  ({ header := { revision := rev.toInt64 }
     deleted := Int64.ofNat gone.length
     prevKvs := if req.prevKv then gone.map fun e => e.2.encode e.1 else [] },
   { K with
      revision := rev
      pairs := K.pairs.filter fun key _ => !matchesRange (resolveRange req.key req.rangeEnd) key })

def put (req : PutRequest) : MvccM PutResponse := do
  read (checkPut req)
  modifyGet fun K => K.putAt req (K.revision + 1)

def deleteRange (req : DeleteRangeRequest) : MvccM DeleteRangeResponse := do
  read fun _ => checkKey req.key
  modifyGet fun K => K.deleteAt req (K.revision + 1)

mutual
/-- One op of a transaction that writes at revision `rev`. -/
def op (rev : UInt64) (depth : Nat) : RequestOp → MvccM ResponseOp
  | .range r => return .range ((← get).range r)
  | .put p => do
      read (checkPut p)
      return .put (← modifyGet (putAt p rev))
  | .deleteRange d => do
      read fun _ => checkKey d.key
      return .deleteRange (← modifyGet (deleteAt d rev))
  | .txn compare success failure => do
      if depth ≥ 1 then
        throw (.status .invalidArgument "etcdserver: nested txn is not allowed")
      if compare.all (holds (← get)) then
        let responses ← ops rev (depth + 1) success
        return .txn (← get).header true responses
      else
        let responses ← ops rev (depth + 1) failure
        return .txn (← get).header false responses
  | .none => return .none
/-- The ops of a transaction, in order. -/
def ops (rev : UInt64) (depth : Nat) : List RequestOp → MvccM (List ResponseOp)
  | [] => return []
  | op :: rest => do
      let response ← Mvcc.op rev depth op
      let responses ← ops rev depth rest
      return response :: responses
end

/-- A transaction: its ops see one another's writes, and what it writes has one revision. -/
def txn (req : TxnRequest) : MvccM TxnResponse := do
  read fun _ => checkTxnDuplicateKeys req
  let K ← get
  let succeeded := req.compare.all K.holds
  let responses ← ops (K.revision + 1) 0 (if succeeded then req.success else req.failure)
  return { header := (← get).header, succeeded, responses }

/-! #### The watermark and the leases -/

def compact (revision : Int64) : MvccM ResponseHeader := do
  let rev := revision.toUInt64
  let K ← get
  if rev > K.revision then
    throw (.status .outOfRange "etcdserver: mvcc: required revision is a future revision")
  if rev ≤ K.compacted then
    throw (.status .outOfRange "etcdserver: mvcc: required revision has been compacted")
  set { K with compacted := rev }
  return K.header

/-- The end of a lease and of its pairs. -/
def dropLease (id : Int64) (K : Mvcc) : Mvcc :=
  { K with
    leases := K.leases.erase id
    pairs := K.pairs.filter fun _ p => p.lease ≠ id
    revision := if K.pairs.toList.any (·.2.lease = id) then K.revision + 1 else K.revision }

def leaseGrant (now : Nat) (id ttl : Int64) : MvccM LeaseGrantResponse := do
  let ttl ← read fun _ => checkLeaseTtl ttl
  let id ← if id ≠ 0 then pure id
    else modifyGet fun K => (K.nextLeaseId, { K with nextLeaseId := K.nextLeaseId + 1 })
  if (← get).leases.contains id then
    throw (.status .failedPrecondition "etcdserver: lease already exists")
  modify fun K =>
    { K with leases := K.leases.insert id { id, ttl, expiresAt := expiryInstant now ttl } }
  return { header := (← get).header, id, ttl }

def leaseRevoke (id : Int64) : MvccM ResponseHeader := do
  if !(← get).leases.contains id then throw leaseNotFound
  modify (dropLease id)
  return (← get).header

def leaseKeepAlive (now : Nat) (id : Int64) : MvccM (ResponseHeader × Int64) := do
  match (← get).leases[id]? with
  | some ls =>
      modify fun K => { K with
        leases := K.leases.insert id { ls with expiresAt := expiryInstant now ls.ttl } }
      return ((← get).header, ls.ttl)
  | none => throw (.status .notFound "etcdserver: lease not found")

def leaseExpire (now : Nat) (id : Int64) : MvccM Unit := do
  match (← get).leases[id]? with
  | some ls => if ls.expiresAt ≤ now then modify (dropLease id)
  | none => return ()

/-- Run a request. -/
def handle : Request → MvccM Reply
  | .range req => do
      read fun _ => checkKey req.key
      return .range ((← get).range req)
  | .put req => return .put (← put req)
  | .deleteRange req => return .deleteRange (← deleteRange req)
  | .txn req => return .txn (← txn req)
  | .compact revision => return .compact (← compact revision)
  | .leaseGrant now id ttl => return .leaseGrant (← leaseGrant now id ttl)
  | .leaseRevoke id => return .leaseRevoke (← leaseRevoke id)
  | .leaseKeepAlive now id => do
      let (header, ttl) ← leaseKeepAlive now id
      return .leaseKeepAlive header ttl
  | .leaseExpire now id => do
      leaseExpire now id
      return .leaseExpire

/-! #### Runs -/

/-- A store without keys. -/
def empty : Mvcc where
  revision := 0
  pairs := ∅
  compacted := 0
  leases := ∅
  nextLeaseId := 1

/-- The leases that pairs are attached to, in ascending order. -/
def attached (K : Mvcc) : List Int64 :=
  (((K.pairs.toList.filter fun e => e.2.lease ≠ 0).map (·.2.lease)).foldl
    (fun (m : ExtTreeMap Int64 Unit) id => m.insert id ()) ∅).keys

/-- A restart that comes back at revision `rev`: the pairs are all there, and the rest is made up
from them. -/
def restarted (K : Mvcc) (now : Nat) (rev : UInt64) : Mvcc where
  revision := rev
  pairs := K.pairs
  compacted := 0
  leases := K.attached.foldl
    (fun m id => m.insert id { id, ttl := 3600, expiresAt := expiryInstant now 3600 }) ∅
  nextLeaseId := if K.attached.getLast?.getD 0 > 0 then K.attached.getLast?.getD 0 + 1 else 1

/-- What can happen to an abstract store. A restart may go back to any revision from that of the
last modified pair on. -/
inductive Event
  | request (q : Request)
  | restart (now : Nat) (rev : UInt64)

def step (K : Mvcc) : Event → Option Mvcc
  | .request q => some (Prog.exec (handle q) K).2
  | .restart now rev =>
      if rev ≤ K.revision ∧ ∀ e ∈ K.pairs.toList, e.2.modRevision ≤ rev then
        some (K.restarted now rev)
      else none

end Mvcc

/-- What is seen of a server from outside. -/
inductive Seen
  | replied (q : Request) (r : Except Failure Reply)
  | restarted (now : Nat)

/-- What is seen of an event on the abstract store. -/
def Mvcc.sees (K : Mvcc) : Mvcc.Event → List Seen
  | .request q => [.replied q (Prog.exec (handle q) K).1]
  | .restart now _ => [.restarted now]

/-- Everything seen of a run of the abstract store. -/
def Mvcc.history (evs : List Mvcc.Event) : List Seen :=
  Trace.outputs Mvcc.step Mvcc.sees .empty evs

section

variable [Crates]

/-- What is seen of an event of the server. -/
def System.sees (sys : System) : Event → List Seen
  | .request q => [.replied q (Prog.exec (handle q) sys.store).1]
  | .restart now => [.restarted now]
  | _ => []

/-- Everything seen of a run of the server. -/
def System.history (sys : System) (evs : List Event) : List Seen :=
  Trace.outputs System.step System.sees sys evs

end

/-- No range names a revision. -/
def Event.isCurrent : Event → Bool
  | .request q => q.isCurrent
  | _ => true

end Rudurru
