import Rudurru.Storage.Codec

/-!
# Rudurru.Proto

The request and response messages of the KV, lease and watch services (`proto/rpc.proto`),
restricted to the fields the server reads or writes, and the ways a request can fail.

Response fields of type `mvccpb.KeyValue` are `Bytes` here as in the build, where `build.rs`
patches them so that the store can hand out its pre-encoded blobs. Enumerations travel as
`i32` and are interpreted by the functions that read them.
-/

namespace Rudurru

/-- The gRPC status codes the storage layer uses. -/
inductive Code
  | invalidArgument
  | notFound
  | failedPrecondition
  | outOfRange
  | internal
  deriving DecidableEq, Repr

/-- Why a request did not return `Ok`. A panic is no answer at all: the release profile sets
`panic = "abort"`, so it ends the process. -/
inductive Failure
  | status (code : Code) (message : String)
  | panic (message : String)
  deriving DecidableEq, Repr

/-- Did the request end the process rather than return? -/
def Failure.isPanic : Failure → Bool
  | .status _ _ => false
  | .panic _ => true

/-- `ResponseHeader`; the ids and the term are the constant 1. -/
structure ResponseHeader where
  clusterId : UInt64 := 1
  memberId : UInt64 := 1
  revision : Int64
  raftTerm : UInt64 := 1
  deriving DecidableEq, Repr

structure RangeRequest where
  key : Bytes
  rangeEnd : Bytes := []
  limit : Int64 := 0
  revision : Int64 := 0
  sortOrder : Int32 := 0
  sortTarget : Int32 := 0
  keysOnly : Bool := false
  countOnly : Bool := false
  minModRevision : Int64 := 0
  maxModRevision : Int64 := 0
  minCreateRevision : Int64 := 0
  maxCreateRevision : Int64 := 0
  deriving DecidableEq, Repr

structure RangeResponse where
  header : ResponseHeader
  kvs : List Bytes
  more : Bool
  count : Int64
  deriving DecidableEq, Repr

structure PutRequest where
  key : Bytes
  value : Bytes := []
  lease : Int64 := 0
  prevKv : Bool := false
  ignoreValue : Bool := false
  ignoreLease : Bool := false
  deriving DecidableEq, Repr

structure PutResponse where
  header : ResponseHeader
  prevKv : Bytes
  deriving DecidableEq, Repr

structure DeleteRangeRequest where
  key : Bytes
  rangeEnd : Bytes := []
  prevKv : Bool := false
  deriving DecidableEq, Repr

structure DeleteRangeResponse where
  header : ResponseHeader
  deleted : Int64
  prevKvs : List Bytes
  deriving DecidableEq, Repr

/-- The operand of a compare. -/
inductive TargetUnion
  | version (v : Int64)
  | createRevision (v : Int64)
  | modRevision (v : Int64)
  | value (v : Bytes)
  | lease (v : Int64)
  deriving DecidableEq, Repr

/-- `Compare`; the server never reads its `range_end`. -/
structure Compare where
  result : Int32 := 0
  target : Int32 := 0
  key : Bytes
  targetUnion : Option TargetUnion := none
  deriving DecidableEq, Repr

/-- `RequestOp`, with its `TxnRequest` alternative inlined; `none` is an unset `oneof`. -/
inductive RequestOp
  | range (r : RangeRequest)
  | put (p : PutRequest)
  | deleteRange (d : DeleteRangeRequest)
  | txn (compare : List Compare) (success failure : List RequestOp)
  | none

structure TxnRequest where
  compare : List Compare := []
  success : List RequestOp := []
  failure : List RequestOp := []

/-- `ResponseOp`, with its `TxnResponse` alternative inlined. -/
inductive ResponseOp
  | range (r : RangeResponse)
  | put (p : PutResponse)
  | deleteRange (d : DeleteRangeResponse)
  | txn (header : ResponseHeader) (succeeded : Bool) (responses : List ResponseOp)
  | none

structure TxnResponse where
  header : ResponseHeader
  succeeded : Bool
  responses : List ResponseOp

structure LeaseGrantResponse where
  header : ResponseHeader
  id : Int64
  ttl : Int64
  deriving DecidableEq, Repr

/-- `WatchResponse`, without the two fields every producer leaves at their default
(`events` on the replies modelled here, `fragment`). -/
structure WatchResponse where
  header : ResponseHeader
  watchId : Int64
  created : Bool
  canceled : Bool
  compactRevision : Int64
  cancelReason : String
  deriving DecidableEq, Repr

end Rudurru
