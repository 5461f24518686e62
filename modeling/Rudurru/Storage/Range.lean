import Rudurru.Storage.Apply

/-!
# Rudurru.Storage.Range

Reading key ranges (`src/storage/store.rs` and `scan_wal_range` of `src/storage/mod.rs`):
the current state, and the state at an earlier revision.

A historical read has three phases. Phase 1 walks the current map and splits the keys into
those whose stored blob is the answer and those that are *stale*; without stale keys it
returns at once. Phase 2 replays the WAL up to the target revision. Phase 3 merges the two,
falling back to the current blob of a stale key that phase 2 did not find.
-/

namespace Rudurru

open Std (ExtTreeMap)

variable [Crates]

/-- `check_key`. -/
def checkKey (key : Bytes) : Except Failure Unit :=
  if key = [] then .error (.status .invalidArgument "etcdserver: key is not provided")
  else .ok ()

/-! ### Sorting -/

/-- `KvFields`: the fields of a blob a sort can look at. -/
structure KvFields where
  key : Bytes
  createRevision : UInt64
  modRevision : UInt64
  version : UInt64
  value : Bytes
  deriving DecidableEq, Repr

/-! `KvCursor`, as the bytes it has not consumed yet. -/

/-- `KvCursor::skip`. -/
def cursorSkip (n : Nat) (rest : Bytes) : Option Bytes :=
  if n ≤ rest.length then some (rest.drop n) else none

/-- `KvCursor::take`. -/
def cursorTake (n : Nat) (rest : Bytes) : Option (Bytes × Bytes) :=
  if n ≤ rest.length then some (rest.take n, rest.drop n) else none

/-- `KvCursor::varint`, the same loop as `decode_varint`. -/
def cursorVarint (rest : Bytes) : Option (UInt64 × Bytes) :=
  (decodeVarint rest).map fun (v, n) => (v, rest.drop n)

/-- `KvCursor::overlong_u32`. -/
def cursorOverlongU32 (rest : Bytes) : Option (UInt32 × Bytes) := do
  let (buf, rest) ← cursorTake 5 rest
  return (← decodeOverlongU32 buf, rest)

/-- `KvCursor::overlong_u64`. -/
def cursorOverlongU64 (rest : Bytes) : Option (UInt64 × Bytes) := do
  let (buf, rest) ← cursorTake 10 rest
  return (← decodeOverlongU64 buf, rest)

/-- `parse_kv`: tags are skipped, not checked. -/
def parseKv (buf : Bytes) : Option KvFields := do
  let rest ← cursorSkip 1 buf
  let (keyLen, rest) ← cursorOverlongU32 rest
  let (key, rest) ← cursorTake keyLen.toNat rest
  let rest ← cursorSkip 1 rest
  let (createRevision, rest) ← cursorVarint rest
  let rest ← cursorSkip 1 rest
  let (modRevision, rest) ← cursorOverlongU64 rest
  let rest ← cursorSkip 1 rest
  let (version, rest) ← cursorVarint rest
  let rest ← cursorSkip 1 rest
  let (valueLen, rest) ← cursorOverlongU32 rest
  let (value, _) ← cursorTake valueLen.toNat rest
  return { key, createRevision, modRevision, version, value }

/-- `SortValue`. -/
inductive SortValue
  | int (v : UInt64)
  | bytes (b : Bytes)
  deriving DecidableEq, Repr

/-- `cmp_sort_value`. -/
def cmpSortValue : SortValue → SortValue → Ordering
  | .int x, .int y => compare x y
  | .bytes x, .bytes y => compare x y
  | .int _, .bytes _ => .lt
  | .bytes _, .int _ => .gt

/-- The `Entry` of `sort_kvs`; `idx` is a `u32`. -/
structure SortEntry where
  value : SortValue
  key : Bytes
  idx : UInt32
  deriving DecidableEq, Repr

/-- The entry built for the blob at position `idx`. Sort targets are `VERSION` 1, `CREATE` 2,
`MOD` 3 and `VALUE` 4. -/
def sortEntry (target : Int32) (blob : Bytes) (idx : Nat) : SortEntry :=
  match parseKv blob with
  | some f =>
      let value :=
        if target = 2 then .int f.createRevision
        else if target = 1 then .int f.version
        else if target = 4 then .bytes f.value
        else .int f.modRevision
      { value, key := f.key, idx := UInt32.ofNat idx }
  | none => { value := .int 0, key := [], idx := UInt32.ofNat idx }

/-- The comparator of `sort_kvs`. -/
def cmpEntry (descending : Bool) (a b : SortEntry) : Ordering :=
  let ord := (cmpSortValue a.value b.value).then (compare a.key b.key)
  if descending then ord.swap else ord

/-- `sort_unstable_by`: any sorted permutation meets its contract, this is the stable one. -/
def sortEntries (descending : Bool) (entries : List SortEntry) : List SortEntry :=
  entries.insertionSort fun a b => (cmpEntry descending a b).isLE

/-- The final loop of `sort_kvs`: `out.push(mem::take(&mut kvs[i]))`. -/
def takeInOrder : List Bytes → List UInt32 → List Bytes
  | _, [] => []
  | kvs, i :: order => (kvs[i.toNat]?.getD []) :: takeInOrder (kvs.set i.toNat []) order

/-- `sort_kvs`. Sort orders are `NONE` 0, `ASCEND` 1 and `DESCEND` 2; sort target 0 is `KEY`,
in whose order the blobs already are. With a limit well below the number of entries only the
`limit` first ones are kept (`select_nth_unstable_by`, then `truncate`). -/
def sortKvs (kvs : List Bytes) (order target : Int32) (limit : Nat) : List Bytes :=
  if order ≠ 1 ∧ order ≠ 2 then kvs
  else if target = 0 then if order = 2 then kvs.reverse else kvs
  else if target ≠ 2 ∧ target ≠ 3 ∧ target ≠ 1 ∧ target ≠ 4 then kvs
  else
    let entries := kvs.zipIdx.map fun (blob, idx) => sortEntry target blob idx
    let sorted := sortEntries (order = 2) entries
    let kept :=
      if limit > 0 ∧ min (limit * 64) (2 ^ 64 - 1) ≤ entries.length then sorted.take limit
      else sorted
    takeInOrder kvs (kept.map (·.idx))

/-! ### The current state -/

/-- `Vec::with_capacity` for a vector of `Bytes` (32 bytes each). -/
def vecWithCapacity (cap : Nat) : Except Failure Unit :=
  if cap * 32 > 2 ^ 63 - 1 then .error (.panic "capacity overflow") else .ok ()

/-- The min/max revision filters; a non-positive bound is off. -/
def passesRevisionFilters (req : RangeRequest) (ks : KeyState) : Bool :=
  (req.minModRevision ≤ 0 || req.minModRevision ≤ ks.modRevision.toInt64)
    && (req.maxModRevision ≤ 0 || ks.modRevision.toInt64 ≤ req.maxModRevision)
    && (req.minCreateRevision ≤ 0 || req.minCreateRevision ≤ ks.createRevision.toInt64)
    && (req.maxCreateRevision ≤ 0 || ks.createRevision.toInt64 ≤ req.maxCreateRevision)

/-- The blob a response carries for a key: with `keys_only` every other field is zeroed. -/
def responseKv (req : RangeRequest) (key blob : Bytes) : Bytes :=
  if req.keysOnly then (encodeKv key [] 0 0 0 0).1 else blob

/-- `Store::range_current`. -/
def rangeCurrent (s : StoreState) (req : RangeRequest) : Except Failure RangeResponse := do
  let bound := resolveRange req.key req.rangeEnd
  if let .point key := bound then
    let kvs :=
      match s.keys[key]? with
      | some ks =>
          if ks.isAlive && passesRevisionFilters req ks then [responseKv req key ks.kvBytes]
          else []
      | none => []
    let count := Int64.ofNat kvs.length
    return { header := s.header, kvs := if req.countOnly then [] else kvs, more := false, count }
  vecWithCapacity (if req.limit > 0 then req.limit.toUInt64.toNat else s.keys.size)
  let entries ← walkRange s.keys bound (btreeBounds bound)
  let selected := entries.filter fun e => e.2.isAlive && passesRevisionFilters req e.2
  let kvs := selected.map fun e => responseKv req e.1 e.2.kvBytes
  let count := Int64.ofNat kvs.length
  if req.countOnly then
    return { header := s.header, kvs := [], more := false, count }
  let limit := if req.limit > 0 then req.limit.toUInt64.toNat else 0
  let kvs := sortKvs kvs req.sortOrder req.sortTarget limit
  let more := req.limit > 0 && count > req.limit
  let kvs := if more then kvs.take req.limit.toUInt64.toNat else kvs
  return { header := s.header, kvs, more, count }

/-! ### Earlier revisions -/

/-- What phase 1 does with a key. -/
inductive Phase1
  /-- The key is not part of the answer. -/
  | skip
  /-- The stored blob is the answer. -/
  | direct
  /-- The WAL is needed. -/
  | stale
  deriving DecidableEq, Repr

/-- The loop body of phase 1 of `range_historical`. -/
def phase1Classify (req : RangeRequest) (targetRev : UInt64) (ks : KeyState) : Phase1 :=
  if ks.deleteRevision ≠ 0 then
    if ks.createRevision > targetRev then .skip
    else if ks.deleteRevision ≤ targetRev then .skip
    else if ks.modRevision ≤ targetRev then .direct
    else .stale
  else if !passesRevisionFilters req ks then .skip
  else if ks.createRevision > targetRev then
    if ks.rebirth then .stale else .skip
  else if ks.modRevision ≤ targetRev then .direct
  else .stale

/-- Phase 1 of `range_historical`: the direct keys with their response blobs, and the stale
keys. -/
def historicalPhase1 (s : StoreState) (req : RangeRequest) (targetRev : UInt64) :
    Except Failure (List (Bytes × Bytes) × List Bytes) := do
  let bound := resolveRange req.key req.rangeEnd
  let entries ← walkRange s.keys bound (btreeBounds bound)
  let direct := entries.filter fun e => phase1Classify req targetRev e.2 = .direct
  let stale := entries.filter fun e => phase1Classify req targetRev e.2 = .stale
  return (direct.map fun e => (e.1, responseKv req e.1 e.2.kvBytes), stale.map (·.1))

/-- The callback of `scan_wal_range`, on the map built so far. -/
def scanWalRecord (bound : RangeBound) (upToRev : UInt64) (state : ExtTreeMap Bytes Bytes)
    (rec : KvWalRecord) : ExtTreeMap Bytes Bytes :=
  match rec.key with
  | none => state
  | some recKey =>
      if !matchesRange bound recKey then state
      else if rec.revision ≤ upToRev then
        if rec.deleted then state.erase recKey else state.insert recKey rec.kvBytes
      else state

/-- `scan_wal_range`. The source collects into a `HashMap`; only lookups and an
order-independent loop read it. -/
def scanWalRange (file key rangeEnd : Bytes) (upToRev : UInt64) :
    Except IoError (ExtTreeMap Bytes Bytes) :=
  let (records, result) := scanKvFile file 0
  match result with
  | .error e => .error e
  | .ok _ => .ok (records.foldl (scanWalRecord (resolveRange key rangeEnd) upToRev) ∅)

/-- Phase 3 on one stale key: the blob found in the WAL or, failing that, the current blob of
an alive key. -/
def mergeStale (s : StoreState) (req : RangeRequest) (walState m : ExtTreeMap Bytes Bytes)
    (key : Bytes) : ExtTreeMap Bytes Bytes :=
  let m :=
    match walState[key]? with
    | some walKv => m.insert key (responseKv req key walKv)
    | none => m
  if m.contains key then m
  else
    match s.alive? key with
    | some ks => m.insert key (responseKv req key ks.kvBytes)
    | none => m

/-- Phase 3 on a key found in the WAL: it is added unless something is there already. -/
def mergeRest (req : RangeRequest) (m : ExtTreeMap Bytes Bytes) (e : Bytes × Bytes) :
    ExtTreeMap Bytes Bytes :=
  if m.contains e.1 then m
  else if !matchesRange (resolveRange req.key req.rangeEnd) e.1 then m
  else m.insert e.1 (responseKv req e.1 e.2)

/-- Phase 3 of `range_historical`: the blobs of the answer, by key. -/
def historicalMerge (s : StoreState) (req : RangeRequest) (direct : List (Bytes × Bytes))
    (stale : List Bytes) (walState : ExtTreeMap Bytes Bytes) : ExtTreeMap Bytes Bytes :=
  let merged := direct.foldl (fun m (key, kv) => m.insert key (responseKv req key kv)) ∅
  let merged := stale.foldl (mergeStale s req walState) merged
  walState.toList.foldl (mergeRest req) merged

/-- The header of a historical response carries the revision asked for. -/
def historicalHeader (targetRev : UInt64) : ResponseHeader := { revision := targetRev.toInt64 }

/-- `Store::range_historical`. -/
def rangeHistorical (s : StoreState) (req : RangeRequest) (targetRev : UInt64) :
    Except Failure RangeResponse := do
  let header := historicalHeader targetRev
  let (direct, stale) ← historicalPhase1 s req targetRev
  if stale = [] then
    let count := Int64.ofNat direct.length
    if req.countOnly then return { header, kvs := [], more := false, count }
    let limit := if req.limit > 0 then req.limit.toUInt64.toNat else 0
    let kvs := sortKvs (direct.map (·.2)) req.sortOrder req.sortTarget limit
    let more := req.limit > 0 && count > req.limit
    let kvs := if more then kvs.take req.limit.toUInt64.toNat else kvs
    return { header, kvs, more, count }
  match scanWalRange s.wal.contents req.key req.rangeEnd targetRev with
  | .error e => throw (.status .internal ("wal scan failed: " ++ e.message))
  | .ok walState =>
      let merged := historicalMerge s req direct stale walState
      let count := Int64.ofNat merged.size
      if req.countOnly then return { header, kvs := [], more := false, count }
      let limit := if req.limit > 0 then req.limit.toUInt64.toNat else 2 ^ 64 - 1
      let kvs := sortKvs (merged.toList.map (·.2)) req.sortOrder req.sortTarget limit
      let kvs := kvs.take limit
      let more := req.limit > 0 && count > req.limit
      return { header, kvs, more, count }

/-- `Store::range`. -/
def range (s : StoreState) (req : RangeRequest) : Except Failure RangeResponse := do
  checkKey req.key
  let targetRev : UInt64 := if req.revision > 0 then req.revision.toUInt64 else 0
  if targetRev > s.currentRevision then
    throw (.status .outOfRange "etcdserver: mvcc: required revision is a future revision")
  if targetRev > 0 ∧ targetRev < s.compactRev then
    throw (.status .outOfRange "etcdserver: mvcc: required revision has been compacted")
  if targetRev > 0 then rangeHistorical s req targetRev
  else rangeCurrent s req

end Rudurru
