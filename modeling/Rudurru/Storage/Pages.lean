import Rudurru.Storage.Sorting
import Rudurru.Storage.Walkers

/-!
# Rudurru.Storage.Pages

One way to answer a range. `range_current`, the early return of `range_historical` and its merge
each build their response on their own, but they agree on what they make of the pairs they found:
a `page` of them, with `keys_only`, the sort and the limit applied. So two ranges that find the
same pairs answer the same (`rangeCurrent_eq_page`, `rangeHistorical_eq_page`).

What is found is a function of its own here (`StoreState.found`), and so is what is made of it
(`page`). The statements below put the code back together from the two. They are equalities of
outcomes, panics and errors included, so a property of ranges can be shown for the pairs that are
found and carried over.
-/

namespace Rudurru

open Std (ExtTreeMap)

variable [Crates]

/-- The request with the stored blobs asked for. -/
def RangeRequest.plain (req : RangeRequest) : RangeRequest := { req with keysOnly := false }

omit [Crates] in
theorem responseKv_plain (req : RangeRequest) (key blob : Bytes) :
    responseKv req.plain key blob = blob := rfl

/-- The response made of the keys and stored blobs that a range found, in key order. -/
def page (req : RangeRequest) (header : ResponseHeader) (pairs : List (Bytes × Bytes)) :
    RangeResponse :=
  let kvs := pairs.map fun e => responseKv req e.1 e.2
  let count := Int64.ofNat pairs.length
  if req.countOnly then { header, kvs := [], more := false, count }
  else
    let limit := req.limit.toUInt64.toNat
    let kvs := sortKvs kvs req.sortOrder req.sortTarget (if req.limit > 0 then limit else 0)
    let more := req.limit > 0 && count > req.limit
    { header, kvs := if more then kvs.take limit else kvs, more, count }

/-! ### The current state -/

/-- The keys and blobs that `range_current` picks of the entries it walks over. -/
def pickCurrent (req : RangeRequest) (entries : List (Bytes × KeyState)) : List (Bytes × Bytes) :=
  (entries.filter fun e => e.2.isAlive && passesRevisionFilters req e.2).map fun e =>
    (e.1, e.2.kvBytes)

/-- The keys and blobs of the current state that are asked for. -/
def StoreState.currentPairs (s : StoreState) (req : RangeRequest) : List (Bytes × Bytes) :=
  pickCurrent req
    (s.keys.toList.filter fun e => matchesRange (resolveRange req.key req.rangeEnd) e.1)

omit [Crates] in
/-- There is nothing to sort in a list of one. -/
theorem sortKvs_of_length_le_one {kvs : List Bytes} (h : kvs.length ≤ 1) (order target : Int32)
    (limit : Nat) : sortKvs kvs order target limit = kvs := by
  have hshort : kvs = [] ∨ ∃ kv, kvs = [kv] := by
    cases kvs with
    | nil => exact .inl rfl
    | cons kv rest =>
        obtain rfl : rest = [] := List.eq_nil_of_length_eq_zero (by simpa using h)
        exact .inr ⟨kv, rfl⟩
  unfold sortKvs
  split
  · rfl
  split
  · split
    · rcases hshort with rfl | ⟨kv, rfl⟩ <;> rfl
    · rfl
  split
  · rfl
  have hcut : ∀ entries : List SortEntry, entries.length ≤ 1 →
      ¬ (limit > 0 ∧ min (limit * 64) (2 ^ 64 - 1) ≤ entries.length) := by
    intro entries hlen hcut
    omega
  dsimp only
  rw [if_neg (hcut _ (by simpa using h))]
  rcases hshort with rfl | ⟨kv, rfl⟩
  · rfl
  · simp only [List.zipIdx_cons, List.zipIdx_nil, List.map_cons, List.map_nil, sortEntries,
      List.insertionSort_cons, List.insertionSort_nil, List.orderedInsert_nil, idx_sortEntry]
    rfl

omit [Crates] in
theorem page_of_length_le_one (req : RangeRequest) (header : ResponseHeader)
    {pairs : List (Bytes × Bytes)} (h : pairs.length ≤ 1) :
    page req header pairs =
      { header
        kvs := if req.countOnly then [] else pairs.map fun e => responseKv req e.1 e.2
        more := false
        count := Int64.ofNat pairs.length } := by
  unfold page
  dsimp only
  by_cases hcount : req.countOnly = true
  · rw [if_pos hcount, if_pos hcount]
  · rw [if_neg hcount, if_neg hcount, sortKvs_of_length_le_one (by rwa [List.length_map])]
    have hmore : (req.limit > 0 && Int64.ofNat pairs.length > req.limit) = false := by
      rw [Bool.and_eq_false_imp]
      intro hpos
      rw [decide_eq_true_eq] at hpos
      rw [decide_eq_false_iff_not, gt_iff_lt, Int64.not_lt]
      have hone : pairs.length = 0 ∨ pairs.length = 1 := by omega
      rcases hone with hlen | hlen
      · rw [hlen]
        exact Int64.le_of_lt hpos
      · rw [hlen]
        rw [Int64.le_iff_toInt_le]
        rw [gt_iff_lt, Int64.lt_iff_toInt_lt] at hpos
        have hzero : (0 : Int64).toInt = 0 := rfl
        have hval : (Int64.ofNat 1).toInt = 1 := rfl
        omega
    rw [hmore]
    rfl

/-- The vector that `range_current` reserves, unless it is asked for one key. -/
def StoreState.reserve (s : StoreState) (req : RangeRequest) : Except Failure Unit :=
  match resolveRange req.key req.rangeEnd with
  | .point _ => .ok ()
  | _ => vecWithCapacity (if req.limit > 0 then req.limit.toUInt64.toNat else s.keys.size)

omit [Crates] in
theorem currentResponse_eq_page (s : StoreState) (req : RangeRequest)
    {entries : List (Bytes × KeyState)}
    (h : ∀ k, resolveRange req.key req.rangeEnd = .point k → entries.length ≤ 1) :
    currentResponse s req entries = page req s.header (pickCurrent req entries) := by
  unfold currentResponse
  cases hbound : resolveRange req.key req.rangeEnd with
  | point k =>
      rw [page_of_length_le_one]
      · simp only [pickCurrent, List.map_map, List.length_map]
        rfl
      · rw [pickCurrent, List.length_map]
        exact (List.length_filter_le _ _).trans (h k hbound)
  | all | fromKey k | prefixOf p | range start stop =>
      simp only [page, pickCurrent, List.map_map, List.length_map]
      rfl

/-- What `range_current` finds. -/
def StoreState.currentFound (s : StoreState) (req : RangeRequest) :
    Except Failure (List (Bytes × Bytes)) := do
  s.reserve req
  let entries ← visitedCurrent s.keys (resolveRange req.key req.rangeEnd)
  return pickCurrent req entries

omit [Crates] in
/-- **The current state answers with a page.** -/
theorem rangeCurrent_eq_page (s : StoreState) (req : RangeRequest) :
    rangeCurrent s req = (s.currentFound req).map (page req s.header) := by
  rw [rangeCurrent_eq_entries, StoreState.currentFound, StoreState.reserve]
  cases hbound : resolveRange req.key req.rangeEnd with
  | point k =>
      have hlen : (s.keys[k]?.map fun ks => (k, ks)).toList.length ≤ 1 := by
        cases s.keys[k]? <;> simp
      exact congrArg Except.ok (currentResponse_eq_page s req fun _ _ => hlen)
  | all | fromKey k | prefixOf p | range start stop =>
      have hpage : ∀ entries, currentResponse s req entries
          = page req s.header (pickCurrent req entries) := by
        intro entries
        refine currentResponse_eq_page s req fun k hk => ?_
        rw [hbound] at hk
        cases hk
      simp only [hpage]
      cases vecWithCapacity _ with
      | error e => rfl
      | ok _ => cases visitedCurrent s.keys _ <;> rfl

omit [Crates] in
/-- Unless the range is inverted. -/
theorem currentFound_eq (s : StoreState) {req : RangeRequest}
    (h : (resolveRange req.key req.rangeEnd).inverted = false) :
    s.currentFound req = (s.reserve req).map fun _ => s.currentPairs req := by
  rw [StoreState.currentFound, visitedCurrent_eq_filter s.keys h]
  cases s.reserve req <;> rfl

/-! ### Earlier revisions -/

omit [Crates] in
theorem phase1Classify_plain (req : RangeRequest) (targetRev : UInt64) (ks : KeyState) :
    phase1Classify req.plain targetRev ks = phase1Classify req targetRev ks := rfl

/-- What the request makes of the blobs of a map. -/
def stripped (req : RangeRequest) (m : ExtTreeMap Bytes Bytes) : ExtTreeMap Bytes Bytes :=
  m.map fun key blob => responseKv req key blob

omit [Crates] in
theorem stripped_insert (req : RangeRequest) (m : ExtTreeMap Bytes Bytes) (key blob : Bytes) :
    (stripped req m).insert key (responseKv req key blob) = stripped req (m.insert key blob) := by
  refine ExtTreeMap.ext_getElem? fun k => ?_
  rw [ExtTreeMap.getElem?_insert, stripped, stripped, ExtTreeMap.getElem?_map,
    ExtTreeMap.getElem?_map, ExtTreeMap.getElem?_insert]
  split
  · next heq =>
      obtain rfl := Std.LawfulEqCmp.eq_of_compare heq
      rfl
  · rfl

omit [Crates] in
theorem contains_stripped (req : RangeRequest) (m : ExtTreeMap Bytes Bytes) (key : Bytes) :
    (stripped req m).contains key = m.contains key := ExtTreeMap.contains_map

omit [Crates] in
theorem mergeStale_stripped (s : StoreState) (req : RangeRequest)
    (walState m : ExtTreeMap Bytes Bytes) (key : Bytes) :
    mergeStale s req walState (stripped req m) key
      = stripped req (mergeStale s req.plain walState m key) := by
  unfold mergeStale
  simp only [responseKv_plain]
  cases walState[key]? with
  | some blob =>
      simp only [stripped_insert, contains_stripped, ExtTreeMap.contains_insert_self, if_true]
  | none =>
      simp only [contains_stripped]
      by_cases hmem : m.contains key = true
      · rw [if_pos hmem, if_pos hmem]
      · rw [if_neg hmem, if_neg hmem]
        cases s.alive? key with
        | none => rfl
        | some ks => exact stripped_insert ..

omit [Crates] in
theorem mergeRest_stripped (req : RangeRequest) (m : ExtTreeMap Bytes Bytes) (e : Bytes × Bytes) :
    mergeRest req (stripped req m) e = stripped req (mergeRest req.plain m e) := by
  have hmatches : matchesRange (resolveRange req.plain.key req.plain.rangeEnd) e.1
      = matchesRange (resolveRange req.key req.rangeEnd) e.1 := rfl
  unfold mergeRest
  rw [contains_stripped, hmatches]
  by_cases hmem : m.contains e.1 = true
  · rw [if_pos hmem, if_pos hmem]
  · rw [if_neg hmem, if_neg hmem]
    by_cases hout : (!matchesRange (resolveRange req.key req.rangeEnd) e.1) = true
    · rw [if_pos hout, if_pos hout]
    · rw [if_neg hout, if_neg hout]
      exact stripped_insert ..

omit [Crates] in
theorem foldl_stripped {α : Type} {req : RangeRequest}
    {f g : ExtTreeMap Bytes Bytes → α → ExtTreeMap Bytes Bytes} {l : List α}
    (h : ∀ m, ∀ a ∈ l, f (stripped req m) a = stripped req (g m a)) (m : ExtTreeMap Bytes Bytes) :
    l.foldl f (stripped req m) = stripped req (l.foldl g m) := by
  induction l generalizing m with
  | nil => rfl
  | cons a l ih =>
      rw [List.foldl_cons, List.foldl_cons, h m a (by simp)]
      exact ih (fun m b hb => h m b (by simp [hb])) _

omit [Crates] in
/-- The merge strips what the same merge finds. -/
theorem historicalMerge_stripped (s : StoreState) (req : RangeRequest)
    (direct : List (Bytes × Bytes)) (stale : List Bytes) (walState : ExtTreeMap Bytes Bytes) :
    historicalMerge s req (direct.map fun e => (e.1, responseKv req e.1 e.2)) stale walState
      = stripped req (historicalMerge s req.plain direct stale walState) := by
  have hempty : (∅ : ExtTreeMap Bytes Bytes) = stripped req ∅ := by
    refine ExtTreeMap.ext_getElem? fun k => ?_
    rw [stripped, ExtTreeMap.getElem?_map]
    simp
  unfold historicalMerge
  dsimp only
  rw [List.foldl_map, hempty, foldl_stripped (g := fun m e => m.insert e.1 e.2),
    foldl_stripped (g := mergeStale s req.plain walState),
    foldl_stripped (g := mergeRest req.plain)]
  · rfl
  · intro m e _
    exact mergeRest_stripped req m e
  · intro m key _
    exact mergeStale_stripped s req walState m key
  · intro m e _
    dsimp only
    rw [responseKv_idem]
    exact stripped_insert ..

/-- The keys and blobs that a historical range finds. -/
def historicalPairs (s : StoreState) (req : RangeRequest) (targetRev : UInt64) :
    Except Failure (List (Bytes × Bytes)) := historicalEntries s req.plain targetRev

omit [Crates] in
theorem historicalPhase1_stripped (s : StoreState) (req : RangeRequest) (targetRev : UInt64) :
    historicalPhase1 s req targetRev = (historicalPhase1 s req.plain targetRev).map fun found =>
      (found.1.map fun e => (e.1, responseKv req e.1 e.2), found.2) := by
  rw [historicalPhase1_eq_entries, historicalPhase1_eq_entries]
  show Except.map _ (visitedHistorical s.keys (resolveRange req.key req.rangeEnd))
    = Except.map _ (Except.map _ (visitedHistorical s.keys (resolveRange req.key req.rangeEnd)))
  cases visitedHistorical s.keys (resolveRange req.key req.rangeEnd) with
  | error e => rfl
  | ok entries =>
      simp only [Except.map, List.map_map]
      rfl

omit [Crates] in
/-- A limit that is not there, or that is not reached, is none. -/
theorem sortKvs_far {kvs : List Bytes} (hlen : kvs.length < 2 ^ 63) (order target : Int32) :
    sortKvs kvs order target (2 ^ 64 - 1) = sortKvs kvs order target 0 := by
  have hcut : ∀ entries : List SortEntry, entries.length = kvs.length →
      ¬ (2 ^ 64 - 1 > 0 ∧ min ((2 ^ 64 - 1) * 64) (2 ^ 64 - 1) ≤ entries.length) := by
    intro entries hentries
    omega
  unfold sortKvs
  dsimp only
  have hzero : ∀ n, ¬ (0 > 0 ∧ min (0 * 64) (2 ^ 64 - 1) ≤ n) :=
    fun n h => absurd h.1 (Nat.lt_irrefl 0)
  simp only [if_neg (hcut _ (show (kvs.zipIdx.map fun e => sortEntry target e.1 e.2).length = _
    by simp)), if_neg (hzero _)]

omit [Crates] in
theorem length_takeInOrder (kvs : List Bytes) (order : List UInt32) :
    (takeInOrder kvs order).length = order.length := by
  induction order generalizing kvs with
  | nil => rfl
  | cons i order ih => rw [takeInOrder, List.length_cons, List.length_cons, ih]

omit [Crates] in
theorem length_sortKvs_le (kvs : List Bytes) (order target : Int32) (limit : Nat) :
    (sortKvs kvs order target limit).length ≤ kvs.length := by
  unfold sortKvs
  split
  · exact Nat.le_refl _
  split
  · split
    · rw [List.length_reverse]
    · exact Nat.le_refl _
  split
  · exact Nat.le_refl _
  dsimp only
  rw [length_takeInOrder, List.length_map]
  have hsorted : (sortEntries (order = 2)
      (kvs.zipIdx.map fun e => sortEntry target e.1 e.2)).length = kvs.length := by
    rw [sortEntries, List.length_insertionSort, List.length_map, List.length_zipIdx]
  split
  · rw [List.length_take, hsorted]
    exact Nat.min_le_right ..
  · exact hsorted.le

omit [Crates] in
/-- A response is cut off where there is more. -/
theorem cut_eq_truncated {kvs : List Bytes} {n : Nat} (hn : n < 2 ^ 63) (hle : kvs.length ≤ n)
    (limit : Int64) :
    (if limit > 0 && Int64.ofNat n > limit then kvs.take limit.toUInt64.toNat else kvs)
      = truncated (if limit > 0 then limit.toUInt64.toNat else 0) kvs := by
  by_cases hpos : limit > 0
  · have hnat : 0 < limit.toUInt64.toNat ∧ limit.toUInt64.toNat = limit.toInt.toNat := by
      rw [Int64.toNat_toUInt64_of_le (Int64.le_of_lt hpos), Int64.toNatClampNeg]
      rw [gt_iff_lt, Int64.lt_iff_toInt_lt] at hpos
      have hzero : (0 : Int64).toInt = 0 := rfl
      omega
    have hcond : (limit > 0 && Int64.ofNat n > limit) = decide (Int64.ofNat n > limit) := by
      rw [decide_eq_true hpos, Bool.true_and]
    rw [hcond, if_pos hpos, truncated, if_neg (show limit.toUInt64.toNat ≠ 0 by omega)]
    by_cases hmore : Int64.ofNat n > limit
    · rw [if_pos (decide_eq_true hmore)]
    · rw [if_neg (by rwa [decide_eq_true_eq])]
      refine (List.take_of_length_le (hle.trans ?_)).symm
      rw [gt_iff_lt, Int64.not_lt, Int64.le_iff_toInt_le, Int64.toInt_ofNat_of_lt hn] at hmore
      omega
  · rw [if_neg hpos, truncated, if_pos rfl, decide_eq_false hpos, Bool.false_and,
      if_neg Bool.false_ne_true]

/-- The limit of a request; zero is none. -/
def RangeRequest.pageLimit (req : RangeRequest) : Nat :=
  if req.limit > 0 then req.limit.toUInt64.toNat else 0

omit [Crates] in
/-- The blobs of a page: sorted and cut off. -/
theorem kvs_page {req : RangeRequest} (hcount : req.countOnly = false) (header : ResponseHeader)
    {pairs : List (Bytes × Bytes)} (hlen : pairs.length < 2 ^ 63) :
    (page req header pairs).kvs = truncated req.pageLimit
      (sortKvs (pairs.map fun e => responseKv req e.1 e.2) req.sortOrder req.sortTarget
        req.pageLimit) := by
  have hle := length_sortKvs_le (pairs.map fun e => responseKv req e.1 e.2) req.sortOrder
    req.sortTarget req.pageLimit
  rw [List.length_map] at hle
  rw [RangeRequest.pageLimit] at hle ⊢
  rw [page, if_neg (by rw [hcount]; exact Bool.false_ne_true), ← cut_eq_truncated hlen hle]

omit [Crates] in
/-- The other way to apply a limit: always, with the largest one for none. -/
theorem take_sortKvs {kvs : List Bytes} (hlen : kvs.length < 2 ^ 63) (order target : Int32)
    (limit : Int64) :
    (sortKvs kvs order target (if limit > 0 then limit.toUInt64.toNat else 2 ^ 64 - 1)).take
        (if limit > 0 then limit.toUInt64.toNat else 2 ^ 64 - 1)
      = if limit > 0 && Int64.ofNat kvs.length > limit then
          (sortKvs kvs order target (if limit > 0 then limit.toUInt64.toNat else 0)).take
            limit.toUInt64.toNat
        else sortKvs kvs order target (if limit > 0 then limit.toUInt64.toNat else 0) := by
  rw [cut_eq_truncated hlen (length_sortKvs_le ..)]
  by_cases hpos : limit > 0
  · have hne : limit.toUInt64.toNat ≠ 0 := by
      intro hzero
      have := congrArg UInt64.toInt64 (UInt64.toNat_inj.mp (hzero.trans UInt64.toNat_zero.symm))
      rw [Int64.toInt64_toUInt64] at this
      exact absurd hpos (this ▸ Int64.lt_irrefl)
    rw [if_pos hpos, if_pos hpos, truncated, if_neg hne]
  · rw [if_neg hpos, if_neg hpos, sortKvs_far hlen, truncated, if_pos rfl]
    exact List.take_of_length_le ((length_sortKvs_le ..).trans (by omega))

/-- Without a stale key the WAL is not read. -/
theorem rangeHistorical_of_direct {s : StoreState} {req : RangeRequest} {targetRev : UInt64}
    {direct : List (Bytes × Bytes)}
    (h : historicalPhase1 s req.plain targetRev = .ok (direct, [])) :
    rangeHistorical s req targetRev = .ok (page req (historicalHeader targetRev) direct) := by
  unfold rangeHistorical page
  rw [historicalPhase1_stripped, h]
  simp only [bind, Except.bind, Except.map, if_true, List.map_map, List.length_map]
  split <;> rfl

/-- With one, it is. -/
theorem rangeHistorical_of_scan {s : StoreState} {req : RangeRequest} {targetRev : UInt64}
    {direct : List (Bytes × Bytes)} {stale : List Bytes} {walState : ExtTreeMap Bytes Bytes}
    (h : historicalPhase1 s req.plain targetRev = .ok (direct, stale)) (hstale : stale ≠ [])
    (hwal : scanWalRange s.wal.contents req.key req.rangeEnd targetRev = .ok walState)
    (hlen : (historicalMerge s req.plain direct stale walState).toList.length < 2 ^ 63) :
    rangeHistorical s req targetRev = .ok (page req (historicalHeader targetRev)
      (historicalMerge s req.plain direct stale walState).toList) := by
  unfold rangeHistorical
  rw [historicalPhase1_stripped, h]
  simp only [bind, Except.bind, Except.map, if_neg hstale, hwal, historicalMerge_stripped]
  generalize historicalMerge s req.plain direct stale walState = m at hlen ⊢
  have hkvs : (stripped req m).toList.map (·.2)
      = m.toList.map fun e => responseKv req e.1 e.2 := by
    rw [stripped, ExtTreeMap.toList_map, List.map_map]
    rfl
  have hsize : (stripped req m).size = m.toList.length := by
    rw [stripped, ExtTreeMap.size_map, ExtTreeMap.length_toList]
  have hcut := @take_sortKvs (m.toList.map fun e => responseKv req e.1 e.2)
    (by rwa [List.length_map]) req.sortOrder req.sortTarget req.limit
  rw [List.length_map] at hcut
  simp only [hkvs, hsize, hcut]
  unfold page
  dsimp only
  split <;> rfl

/-- **Earlier revisions answer with a page**, whether the WAL is read or not. -/
theorem rangeHistorical_eq_page (s : StoreState) (req : RangeRequest) (targetRev : UInt64)
    (hlen : ∀ pairs, historicalPairs s req targetRev = .ok pairs → pairs.length < 2 ^ 63) :
    rangeHistorical s req targetRev
      = (historicalPairs s req targetRev).map (page req (historicalHeader targetRev)) := by
  unfold historicalPairs historicalEntries at hlen ⊢
  cases hphase : historicalPhase1 s req.plain targetRev with
  | error e =>
      unfold rangeHistorical
      rw [historicalPhase1_stripped, hphase]
      rfl
  | ok found =>
      obtain ⟨direct, stale⟩ := found
      rw [hphase] at hlen
      simp only [bind, Except.bind] at hlen ⊢
      by_cases hstale : stale = []
      · rw [hstale] at hphase
        rw [if_pos hstale, rangeHistorical_of_direct hphase]
        rfl
      · rw [if_neg hstale] at hlen ⊢
        have hscan : scanWalRange s.wal.contents req.plain.key req.plain.rangeEnd targetRev
          = scanWalRange s.wal.contents req.key req.rangeEnd targetRev := rfl
        rw [hscan] at hlen ⊢
        cases hwal : scanWalRange s.wal.contents req.key req.rangeEnd targetRev with
        | error e =>
            unfold rangeHistorical
            rw [historicalPhase1_stripped, hphase]
            simp only [bind, Except.bind, Except.map, if_neg hstale, hwal]
            rfl
        | ok walState =>
            rw [hwal] at hlen
            exact rangeHistorical_of_scan hphase hstale hwal (hlen _ rfl)

/-! ### All ranges -/

/-- What a range finds, with the header it answers with: neither `keys_only`, `count_only`, the
sort nor the limit has a part in it. -/
def StoreState.found (s : StoreState) (req : RangeRequest) :
    Except Failure (ResponseHeader × List (Bytes × Bytes)) := do
  checkKey req.key
  let targetRev : UInt64 := if req.revision > 0 then req.revision.toUInt64 else 0
  if targetRev > s.currentRevision then
    throw (.status .outOfRange "etcdserver: mvcc: required revision is a future revision")
  if targetRev > 0 ∧ targetRev < s.compactRev then
    throw (.status .outOfRange "etcdserver: mvcc: required revision has been compacted")
  if targetRev > 0 then return (historicalHeader targetRev, ← historicalPairs s req targetRev)
  else return (s.header, ← s.currentFound req)

/-- **A range answers with a page of what it finds.** The checks in front are the same, and so are
their errors. -/
theorem range_eq_page (s : StoreState) (req : RangeRequest)
    (hlen : ∀ header pairs, s.found req = .ok (header, pairs) → pairs.length < 2 ^ 63) :
    range s req = (s.found req).map fun found => page req found.1 found.2 := by
  unfold StoreState.found at hlen ⊢
  unfold range
  cases hkey : checkKey req.key with
  | error e => rfl
  | ok _ =>
      rw [hkey] at hlen
      dsimp only [bind, Except.bind] at hlen ⊢
      generalize (if req.revision > 0 then req.revision.toUInt64 else 0) = targetRev at hlen ⊢
      by_cases hfuture : targetRev > s.currentRevision
      · rw [if_pos hfuture, if_pos hfuture]
        rfl
      rw [if_neg hfuture] at hlen ⊢
      rw [if_neg hfuture]
      by_cases hcompacted : targetRev > 0 ∧ targetRev < s.compactRev
      · rw [if_pos hcompacted, if_pos hcompacted]
        rfl
      rw [if_neg hcompacted] at hlen ⊢
      rw [if_neg hcompacted]
      by_cases hpos : targetRev > 0
      · rw [if_pos hpos] at hlen ⊢
        rw [if_pos hpos, rangeHistorical_eq_page]
        · cases historicalPairs s req targetRev <;> rfl
        · intro pairs hpairs
          rw [hpairs] at hlen
          exact hlen _ _ rfl
      · rw [if_neg hpos, if_neg hpos, rangeCurrent_eq_page]
        cases s.currentFound req <;> rfl

end Rudurru
