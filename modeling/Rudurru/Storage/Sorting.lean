import Rudurru.Lib.Selection
import Rudurru.Storage.CodecSound
import Rudurru.Storage.RangeSound

/-!
# Rudurru.Storage.Sorting

What `sort_kvs` sorts by. Its one-pass parser reads the fields back from a blob
(`parseKv_encodeKv`), and its comparator orders the entries as the fields and keys they were made
from. The standard library's sort and selection are any functions that meet their contracts
(`SliceOps`); with distinct keys they have no choice (`sort_kvs_exact`), and the limit only cuts
the list off. Lengths and positions that no `u32` holds are what goes wrong (`sort_kvs_inexact`).

The steps from the code to the statement: the parser gives back the fields that `encode_kv` was
given; the comparator on the entries is the order of the pairs (`cmpEntry_sortEntry`); taking the
blobs out by the sorted positions is sorting the pairs (`takeInOrder_sortEntries`); and a selection
in front of the sort drops only what the limit drops anyway (`truncated_sortCut`). The pairs of a
range have distinct keys, so the comparator never says equal, and there is one sorted list whatever
algorithm finds it.

The converse is shown by pairs for each format: a negative revision, a value or a key of 4 GiB, more
pairs than a `u32` counts.
-/

namespace Rudurru

open Std (TransCmp OrientedCmp LawfulEqCmp)

/-! ### The one-pass parser

The parser walks over a blob once, with a cursor that only moves forward. Each step takes a varint
or skips a length, and is described in front of any rest.
-/

theorem cursorSkip_cons (b : UInt8) (rest : Bytes) : cursorSkip 1 (b :: rest) = some rest := by
  rw [cursorSkip, if_pos (by simp)]
  rfl

theorem cursorTake_le {n : Nat} {bs : Bytes} (h : n ≤ bs.length) (rest : Bytes) :
    cursorTake n (bs ++ rest) = some (bs.take n, bs.drop n ++ rest) := by
  rw [cursorTake, if_pos (by simp; omega), List.take_append_of_le_length h,
    List.drop_append_of_le_length h]

theorem cursorTake_append {n : Nat} {bs : Bytes} (h : bs.length = n) (rest : Bytes) :
    cursorTake n (bs ++ rest) = some (bs, rest) := by
  rw [cursorTake_le (by omega), List.take_of_length_le (by omega),
    List.drop_of_length_le (by omega), List.nil_append]

theorem cursorVarint_append (v : UInt64) (rest : Bytes) :
    cursorVarint (encodeVarint v ++ rest) = some (v, rest) := by
  obtain ⟨hvar, hlen⟩ := isVarint_encodeVarint v
  rw [cursorVarint, decodeVarint_append hvar hlen v.toNat_lt rest, Option.map_some,
    UInt64.ofNat_toNat]
  dsimp only
  rw [List.drop_left]

theorem cursorOverlongU64_append (v : UInt64) (rest : Bytes) :
    cursorOverlongU64 (encodeOverlongU64 v ++ rest) = some (v, rest) := by
  have hdec := decodeOverlongU64_append (isVarint_encodeOverlongU64 v) (by simp) v.toNat_lt []
  rw [List.append_nil, UInt64.ofNat_toNat] at hdec
  rw [cursorOverlongU64, cursorTake_append (by simp)]
  simp only [Option.bind_eq_bind, Option.bind_some, hdec]
  rfl

theorem decodeOverlongU32_encodeOverlongU32 (v : UInt32) :
    decodeOverlongU32 (encodeOverlongU32 v) = some v := by
  have hlt := v.toNat_lt
  have hfold := foldl_zipIdx_isVarint (isVarint_encodeOverlongU32 v) 0 0 (by simp) (by simp)
    (by simp; omega)
  rw [decodeOverlongU32, if_neg (by simp), List.take_of_length_le (by simp), hfold]
  congr 1
  refine UInt32.toNat_inj.mp ?_
  rw [UInt64.toNat_toUInt32, UInt64.toNat_ofNat']
  simp only [Nat.mul_zero, pow_zero, Nat.one_mul]
  show (0 + v.toNat) % 2 ^ 64 % 2 ^ 32 = v.toNat
  omega

theorem cursorOverlongU32_append (v : UInt32) (rest : Bytes) :
    cursorOverlongU32 (encodeOverlongU32 v ++ rest) = some (v, rest) := by
  rw [cursorOverlongU32, cursorTake_append (by simp)]
  simp only [Option.bind_eq_bind, Option.bind_some, decodeOverlongU32_encodeOverlongU32]
  rfl

/-- A value comes back without the part that its `u32` length does not count. -/
theorem parseKv_encodeKv_take {key value : Bytes} (c m v l : Int64) (hkey : key.length < 2 ^ 32) :
    parseKv (encodeKv key value c m v l).1 = some
      { key
        createRevision := c.toUInt64
        modRevision := m.toUInt64
        version := v.toUInt64
        value := value.take (value.length % 2 ^ 32) } := by
  simp only [encodeKv, kvHead, kvTail, List.append_assoc, List.cons_append, List.nil_append]
  rw [parseKv]
  simp only [Option.bind_eq_bind, Option.bind_some, cursorSkip_cons, cursorOverlongU32_append,
    cursorVarint_append, cursorOverlongU64_append, toNat_ofNat_length hkey,
    cursorTake_append (rfl : key.length = key.length)]
  rw [show (UInt32.ofNat value.length).toNat = value.length % 2 ^ 32 from UInt32.toNat_ofNat',
    cursorTake_le (Nat.mod_le ..)]
  rfl

/-- **The parser reads the fields back**, from keys and values whose lengths fit the format. -/
theorem parseKv_encodeKv {key value : Bytes} (c m v l : Int64) (hkey : key.length < 2 ^ 32)
    (hvalue : value.length < 2 ^ 32) :
    parseKv (encodeKv key value c m v l).1 = some
      { key
        createRevision := c.toUInt64
        modRevision := m.toUInt64
        version := v.toUInt64
        value } := by
  rw [parseKv_encodeKv_take c m v l hkey, Nat.mod_eq_of_lt hvalue, List.take_length]

/-! ### The comparator

The descending comparator compares the field the other way round and the keys as well, so it is the
ascending one with its arguments exchanged.
-/

instance : OrientedCmp cmpSortValue where
  eq_swap := by
    intro a b
    cases a with
    | int x =>
        cases b with
        | int y => exact (OrientedCmp.eq_swap : compare x y = (compare y x).swap)
        | bytes y => rfl
    | bytes x =>
        cases b with
        | int y => rfl
        | bytes y => exact (OrientedCmp.eq_swap : compare x y = (compare y x).swap)

instance : TransCmp cmpSortValue where
  isLE_trans := by
    intro a b c hab hbc
    cases a with
    | int x =>
        cases b with
        | int y =>
            cases c with
            | int z =>
                exact @TransCmp.isLE_trans _ compare _ x y z hab hbc
            | bytes z => rfl
        | bytes y =>
            cases c with
            | int z => cases hbc
            | bytes z => rfl
    | bytes x =>
        cases b with
        | int y => cases hab
        | bytes y =>
            cases c with
            | int z => cases hbc
            | bytes z =>
                exact @TransCmp.isLE_trans _ compare _ x y z hab hbc

theorem transCmp_cmpEntry_ascending : TransCmp (cmpEntry false) := by
  have hvalue := SliceOps.transCmp_comap cmpSortValue SortEntry.value
  have hkey := SliceOps.transCmp_comap (compare : Bytes → Bytes → Ordering) SortEntry.key
  exact inferInstanceAs (TransCmp (compareLex (fun a b : SortEntry => cmpSortValue a.value b.value)
    fun a b => compare a.key b.key))

/-- The descending comparator is the ascending one with its arguments exchanged. -/
theorem cmpEntry_descending : cmpEntry true = fun a b => cmpEntry false b a := by
  have := transCmp_cmpEntry_ascending
  funext a b
  exact (OrientedCmp.eq_swap : cmpEntry false b a = (cmpEntry false a b).swap).symm

instance (descending : Bool) : TransCmp (cmpEntry descending) := by
  have := transCmp_cmpEntry_ascending
  cases descending with
  | false => exact this
  | true =>
      rw [cmpEntry_descending]
      infer_instance

/-! ### Sorting what the blobs are made of

Nothing here is about blobs of `encode_kv`. Whatever list the blobs were made of, in whatever order
it is to be sorted, it is enough that the entries compare as the elements do.
-/

/-- The entries of the blobs compare, in a direction, as what the blobs were made of. -/
def ComparesAs {α : Type} (descending : Bool) (target : Int32) (blob : α → Bytes)
    (cmp : α → α → Ordering) (l : List α) : Prop :=
  ∀ a ∈ l, ∀ b ∈ l, ∀ i j,
    cmpEntry descending (sortEntry target (blob a) i) (sortEntry target (blob b) j) = cmp a b

section

variable {α : Type} {descending : Bool} {target : Int32} {blob : α → Bytes}
  {cmp : α → α → Ordering} {l : List α}

/-- The entries, sorted. -/
theorem sortEntries_eq (hcmp : ComparesAs descending target blob cmp l) :
    sortEntries descending ((l.map blob).zipIdx.map fun e => sortEntry target e.1 e.2)
      = (l.zipIdx.insertionSort fun p q => (cmp p.1 q.1).isLE).map fun e =>
          sortEntry target (blob e.1) e.2 := by
  rw [List.zipIdx_map, List.map_map, sortEntries]
  refine (List.map_insertionSort _ _ _ _ ?_).symm
  intro p hp q hq
  show _ ↔ (cmpEntry descending (sortEntry target (blob p.1) p.2)
    (sortEntry target (blob q.1) q.2)).isLE = true
  rw [hcmp _ (List.fst_mem_of_mem_zipIdx hp) _ (List.fst_mem_of_mem_zipIdx hq)]

/-- **What is taken out in the order of the sorted entries.** -/
theorem takeInOrder_sortEntries (hcmp : ComparesAs descending target blob cmp l)
    (hlen : l.length ≤ 2 ^ 32) (n : Nat) :
    takeInOrder (l.map blob) (((sortEntries descending
        ((l.map blob).zipIdx.map fun e => sortEntry target e.1 e.2)).take n).map (·.idx))
      = ((l.insertionSort fun a b => (cmp a b).isLE).take n).map blob := by
  have hsorted : (l.zipIdx.insertionSort fun p q => (cmp p.1 q.1).isLE).map Prod.fst
      = l.insertionSort fun a b => (cmp a b).isLE := by
    rw [List.map_insertionSort _ (fun a b : α => (cmp a b).isLE) Prod.fst l.zipIdx
      (fun _ _ _ _ => Iff.rfl), List.zipIdx_map_fst]
  have hmem : ∀ e ∈ l.zipIdx.insertionSort fun p q => (cmp p.1 q.1).isLE, e ∈ l.zipIdx :=
    fun e he => (List.mem_insertionSort _).mp he
  rw [takeInOrder_sorted (by rwa [List.length_map]) (List.take_sublist _ _), sortEntries_eq hcmp,
    ← hsorted, ← List.map_take, ← List.map_take, List.map_map, List.map_map, List.map_map]
  refine List.map_congr_left fun e he => ?_
  obtain ⟨-, hlt, hget⟩ := List.mem_zipIdx (hmem e (List.mem_of_mem_take he))
  simp only [Function.comp, idx_sortEntry]
  rw [UInt32.toNat_ofNat_of_lt' (show e.2 < 2 ^ 32 by omega), List.getElem?_map,
    List.getElem?_eq_getElem (by omega), Option.map_some, Option.getD_some, hget]
  simp

/-- Where the sort cuts its result off. -/
def sortCut (limit len : Nat) : Nat :=
  if limit > 0 ∧ min (limit * 64) (2 ^ 64 - 1) ≤ len then limit else len

/-- The targets that are sorted by a field. -/
def Sortable (target : Int32) : Prop :=
  target ≠ 0 ∧ ¬ (target ≠ 2 ∧ target ≠ 3 ∧ target ≠ 1 ∧ target ≠ 4)

/-- **The model sorts what the blobs were made of.** -/
theorem sortKvs_map {order : Int32} (horder : ¬ (order ≠ 1 ∧ order ≠ 2))
    (htarget : Sortable target) (hcmp : ComparesAs (order = 2) target blob cmp l)
    (hlen : l.length ≤ 2 ^ 32) (limit : Nat) :
    sortKvs (l.map blob) order target limit
      = ((l.insertionSort fun a b => (cmp a b).isLE).take (sortCut limit l.length)).map blob := by
  rw [sortKvs, if_neg horder, if_neg htarget.1, if_neg htarget.2, sortCut,
    ← takeInOrder_sortEntries hcmp hlen]
  dsimp only
  rw [List.length_map, List.length_zipIdx, List.length_map]
  split
  · rfl
  · rw [List.take_of_length_le]
    rw [sortEntries, List.length_insertionSort, List.length_map, List.length_zipIdx,
      List.length_map]

end

/-! ### What a sort is for -/

/-- The blob of a key-value pair. -/
def KeyValue.encode (d : KeyValue) : Bytes :=
  (encodeKv d.key d.value d.createRevision d.modRevision d.version d.lease).1

/-- The order of a sort target. -/
def compareTarget (target : Int32) (a b : KeyValue) : Ordering :=
  if target = 2 then compare a.createRevision b.createRevision
  else if target = 1 then compare a.version b.version
  else if target = 4 then compare a.value b.value
  else if target = 3 then compare a.modRevision b.modRevision
  else compare a.key b.key

/-- The order of a sort target, ties broken by key. -/
def compareKv (target : Int32) (a b : KeyValue) : Ordering :=
  (compareTarget target a b).then (compare a.key b.key)

/-- The pairs sorted by the target field and the key, reversed for `DESCEND`, and as they are for
`NONE` and for a target that there is not. -/
def sortedBy (order target : Int32) (ds : List KeyValue) : List KeyValue :=
  if order ≠ 1 ∧ order ≠ 2 then ds
  else if target ≠ 0 ∧ target ≠ 1 ∧ target ≠ 2 ∧ target ≠ 3 ∧ target ≠ 4 then ds
  else
    let ascending := ds.insertionSort fun a b => (compareKv target a b).isLE
    if order = 2 then ascending.reverse else ascending

/-- A pair that an `encode_kv` blob can hold, with revisions and a version as the store has them. -/
structure KeyValue.Encodable (d : KeyValue) : Prop where
  key_length : d.key.length < 2 ^ 32
  value_length : d.value.length < 2 ^ 32
  createRevision_nonneg : 0 ≤ d.createRevision
  modRevision_nonneg : 0 ≤ d.modRevision
  version_nonneg : 0 ≤ d.version

theorem toUInt64_lt_of_lt {a b : Int64} (ha : 0 ≤ a) (hab : a < b) :
    a.toUInt64 < b.toUInt64 := by
  have hle := Int64.toUInt64_le ha (Int64.le_of_lt hab)
  have hne : a.toUInt64 ≠ b.toUInt64 := by
    intro heq
    have := congrArg UInt64.toInt64 heq
    simp only [Int64.toInt64_toUInt64] at this
    exact absurd hab (this ▸ Int64.lt_irrefl)
  exact UInt64.lt_of_le_of_ne hle hne

theorem compare_toUInt64 {a b : Int64} (ha : 0 ≤ a) (hb : 0 ≤ b) :
    compare a.toUInt64 b.toUInt64 = compare a b := by
  cases hcmp : compare a b with
  | lt => exact Std.compare_eq_lt.mpr (toUInt64_lt_of_lt ha (Std.compare_eq_lt.mp hcmp))
  | eq =>
      obtain rfl := LawfulEqCmp.eq_of_compare hcmp
      exact Std.ReflCmp.compare_self
  | gt => exact Std.compare_eq_gt.mpr (toUInt64_lt_of_lt hb (Std.compare_eq_gt.mp hcmp))

/-- The value that the sort entry of a pair carries. -/
def sortValueOf (target : Int32) (d : KeyValue) : SortValue :=
  if target = 2 then .int d.createRevision.toUInt64
  else if target = 1 then .int d.version.toUInt64
  else if target = 4 then .bytes d.value
  else .int d.modRevision.toUInt64

theorem sortEntry_encode (target : Int32) {d : KeyValue} (h : d.Encodable) (i : Nat) :
    sortEntry target d.encode i
      = { value := sortValueOf target d, key := d.key, idx := UInt32.ofNat i } := by
  rw [sortEntry, KeyValue.encode, parseKv_encodeKv _ _ _ _ h.key_length h.value_length]
  rfl

/-- **The comparator of the entries is the order of the pairs.** Revisions are compared as signed
integers in one and as unsigned ones in the other, which agree from zero on. -/
theorem cmpEntry_sortEntry {target : Int32} (htarget : Sortable target) {a b : KeyValue}
    (ha : a.Encodable) (hb : b.Encodable) (i j : Nat) :
    cmpEntry false (sortEntry target a.encode i) (sortEntry target b.encode j)
      = compareKv target a b := by
  rw [sortEntry_encode target ha, sortEntry_encode target hb]
  show (cmpSortValue (sortValueOf target a) (sortValueOf target b)).then _ = _
  rw [compareKv]
  congr 1
  unfold sortValueOf compareTarget
  by_cases hcreate : target = 2
  · simp only [if_pos hcreate]
    exact compare_toUInt64 ha.createRevision_nonneg hb.createRevision_nonneg
  by_cases hversion : target = 1
  · simp only [if_neg hcreate, if_pos hversion]
    exact compare_toUInt64 ha.version_nonneg hb.version_nonneg
  by_cases hvalue : target = 4
  · simp only [if_neg hcreate, if_neg hversion, if_pos hvalue]
    rfl
  · have hmod : target = 3 := by
      by_contra hmod
      exact htarget.2 ⟨hcreate, hmod, hversion, hvalue⟩
    simp only [if_neg hcreate, if_neg hversion, if_neg hvalue, if_pos hmod]
    exact compare_toUInt64 ha.modRevision_nonneg hb.modRevision_nonneg

instance (target : Int32) : TransCmp (compareKv target) := by
  have htarget : TransCmp (compareTarget target) := by
    unfold compareTarget
    split
    · exact SliceOps.transCmp_comap compare KeyValue.createRevision
    split
    · exact SliceOps.transCmp_comap compare KeyValue.version
    split
    · exact SliceOps.transCmp_comap compare KeyValue.value
    split
    · exact SliceOps.transCmp_comap compare KeyValue.modRevision
    · exact SliceOps.transCmp_comap compare KeyValue.key
  have hkey := SliceOps.transCmp_comap (compare : Bytes → Bytes → Ordering) KeyValue.key
  exact inferInstanceAs (TransCmp (compareLex (compareTarget target) fun a b =>
    compare a.key b.key))

/-- Pairs that the order does not tell apart have the same key. -/
theorem key_eq_of_compareKv {target : Int32} {a b : KeyValue} (hab : (compareKv target a b).isLE)
    (hba : (compareKv target b a).isLE) : a.key = b.key := by
  have heq : compareKv target a b = .eq := by
    have hswap : compareKv target b a = (compareKv target a b).swap := OrientedCmp.eq_swap
    rw [hswap] at hba
    cases h : compareKv target a b with
    | eq => rfl
    | lt =>
        rw [h] at hba
        cases hba
    | gt =>
        rw [h] at hab
        cases hab
  exact LawfulEqCmp.eq_of_compare (Ordering.then_eq_eq.mp heq).2

/-! ### The sort, without a limit -/

/-- Blobs as a range collects them: of pairs with ascending keys. There are no more of them than a
`u32` has positions. -/
structure Listed (ds : List KeyValue) : Prop where
  encodable : ∀ d ∈ ds, d.Encodable
  ascending : ds.Pairwise fun a b => bytesLt a.key b.key = true
  length_le : ds.length ≤ 2 ^ 32

theorem Listed.nodup {ds : List KeyValue} (h : Listed ds) : (ds.map (·.key)).Nodup := by
  refine List.pairwise_map.mpr (h.ascending.imp ?_)
  intro a b hlt heq
  rw [heq, bytesLt_irrefl] at hlt
  cases hlt

theorem Listed.distinguishes {ds : List KeyValue} (h : Listed ds) (target : Int32) :
    SliceOps.Distinguishes (compareKv target) ds :=
  fun _ ha _ hb hab hba => List.inj_on_of_nodup_map h.nodup ha hb (key_eq_of_compareKv hab hba)

/-- The entries that `sort_kvs` makes. -/
def sortEntriesOf (target : Int32) (ds : List KeyValue) : List SortEntry :=
  ds.zipIdx.map fun e => sortEntry target e.1.encode e.2

theorem zipIdx_encode (target : Int32) (ds : List KeyValue) :
    ((ds.map KeyValue.encode).zipIdx.map fun e => sortEntry target e.1 e.2)
      = sortEntriesOf target ds := by
  rw [List.zipIdx_map, List.map_map]
  rfl

/-- The pairs in ascending or in descending order. -/
def sortPairs (descending : Bool) (target : Int32) (ds : List KeyValue) : List KeyValue :=
  let ascending := ds.insertionSort fun a b => (compareKv target a b).isLE
  if descending then ascending.reverse else ascending

/-- The order of the pairs in a direction. -/
def compareIn (descending : Bool) (target : Int32) (a b : KeyValue) : Ordering :=
  if descending then compareKv target b a else compareKv target a b

/-- The same, by the comparator that goes with the direction. -/
theorem sortPairs_eq {ds : List KeyValue} (h : Listed ds) (descending : Bool) (target : Int32) :
    sortPairs descending target ds
      = ds.insertionSort fun a b => (compareIn descending target a b).isLE := by
  cases descending with
  | false => rfl
  | true =>
      exact ((SliceOps.insertion KeyValue).sortUnstable_swap (h.distinguishes target)).symm

theorem comparesAs_encode {target : Int32} (htarget : Sortable target) {ds : List KeyValue}
    (h : Listed ds) (descending : Bool) :
    ComparesAs descending target KeyValue.encode (compareIn descending target) ds := by
  intro a ha b hb i j
  cases descending with
  | false => exact cmpEntry_sortEntry htarget (h.encodable a ha) (h.encodable b hb) i j
  | true =>
      rw [cmpEntry_descending]
      exact cmpEntry_sortEntry htarget (h.encodable b hb) (h.encodable a ha) j i

/-- The entries are told apart. -/
theorem Listed.distinguishes_entries {target : Int32} (htarget : Sortable target)
    {ds : List KeyValue} (h : Listed ds) (descending : Bool) :
    SliceOps.Distinguishes (cmpEntry descending) (sortEntriesOf target ds) := by
  intro a ha b hb hab hba
  obtain ⟨p, hp, rfl⟩ := List.mem_map.mp ha
  obtain ⟨q, hq, rfl⟩ := List.mem_map.mp hb
  have hp' := List.fst_mem_of_mem_zipIdx hp
  have hq' := List.fst_mem_of_mem_zipIdx hq
  rw [comparesAs_encode htarget h descending _ hp' _ hq'] at hab
  rw [comparesAs_encode htarget h descending _ hq' _ hp'] at hba
  have hkey : p.1.key = q.1.key := by
    cases descending with
    | false => exact key_eq_of_compareKv hab hba
    | true => exact key_eq_of_compareKv hba hab
  -- equal keys are at one position
  obtain ⟨-, hplt, hpget⟩ := List.mem_zipIdx hp
  obtain ⟨-, hqlt, hqget⟩ := List.mem_zipIdx hq
  have hidx : p.2 = q.2 := by
    have hinj := List.nodup_iff_injective_getElem.mp h.nodup
    have := @hinj ⟨p.2, by simpa using hplt⟩ ⟨q.2, by simpa using hqlt⟩ (by
      simp only [List.getElem_map]
      simp only [Nat.sub_zero] at hpget hqget
      rw [← hpget, ← hqget]
      exact hkey)
    simpa using this
  have hfst : p.1 = q.1 := by
    rw [hpget, hqget]
    simp [hidx]
  rw [hfst, hidx]

/-! ### `sort_kvs` -/

/-- `sort_kvs`, over the sort and the selection of the standard library. -/
def sortKvsWith (ops : SliceOps SortEntry) (kvs : List Bytes) (order target : Int32)
    (limit : Nat) : List Bytes :=
  if order ≠ 1 ∧ order ≠ 2 then kvs
  else if target = 0 then if order = 2 then kvs.reverse else kvs
  else if target ≠ 2 ∧ target ≠ 3 ∧ target ≠ 1 ∧ target ≠ 4 then kvs
  else
    let entries := kvs.zipIdx.map fun (blob, idx) => sortEntry target blob idx
    let entries :=
      if limit > 0 ∧ min (limit * 64) (2 ^ 64 - 1) ≤ entries.length then
        (ops.selectNth (cmpEntry (order = 2)) (limit - 1) entries).take limit
      else entries
    let entries := ops.sortUnstable (cmpEntry (order = 2)) entries
    takeInOrder kvs (entries.map (·.idx))

theorem sortUnstable_entries (ops : SliceOps SortEntry) {target : Int32}
    (htarget : Sortable target) {ds : List KeyValue} (h : Listed ds) (descending : Bool) :
    ops.sortUnstable (cmpEntry descending) (sortEntriesOf target ds)
      = sortEntries descending (sortEntriesOf target ds) :=
  ops.eq_sortUnstable (h.distinguishes_entries htarget descending)
    (List.perm_insertionSort _ _) (SliceOps.pairwise_insertionSort _ _)

theorem length_sortEntriesOf (target : Int32) (ds : List KeyValue) :
    (sortEntriesOf target ds).length = ds.length := by
  rw [sortEntriesOf, List.length_map, List.length_zipIdx]

/-- Whichever sort and selection there are, the outcome is that of the model. -/
theorem sortKvsWith_eq (ops : SliceOps SortEntry) {ds : List KeyValue} (h : Listed ds)
    (order target : Int32) (limit : Nat) :
    sortKvsWith ops (ds.map KeyValue.encode) order target limit
      = sortKvs (ds.map KeyValue.encode) order target limit := by
  unfold sortKvsWith sortKvs
  split
  · rfl
  split
  · rfl
  rename_i horder hkey
  split
  · rfl
  rename_i hfield
  have htarget : Sortable target := ⟨hkey, hfield⟩
  simp only [zipIdx_encode]
  by_cases hcut : limit > 0 ∧ min (limit * 64) (2 ^ 64 - 1) ≤ (sortEntriesOf target ds).length
  · simp only [if_pos hcut]
    have hlen := length_sortEntriesOf target ds
    have hle := h.length_le
    obtain ⟨n, rfl⟩ := Nat.exists_eq_add_of_le' hcut.1
    rw [Nat.add_sub_cancel, ops.sortUnstable_take_selectNth
      (h.distinguishes_entries htarget _) (by omega), sortUnstable_entries ops htarget h]
  · simp only [if_neg hcut]
    rw [sortUnstable_entries ops htarget h]

/-! ### With a limit

The selection keeps the `limit` least entries, in any order, and these are sorted; the caller then
truncates. It is left out where it would save little.
-/

/-- The callers' truncation; a limit of zero is none. -/
def truncated {α : Type} (limit : Nat) (l : List α) : List α :=
  if limit = 0 then l else l.take limit

theorem sortedBy_field {order target : Int32} (horder : ¬ (order ≠ 1 ∧ order ≠ 2))
    (htarget : Sortable target) (ds : List KeyValue) :
    sortedBy order target ds = sortPairs (order = 2) target ds := by
  have hknown : ¬ (target ≠ 0 ∧ target ≠ 1 ∧ target ≠ 2 ∧ target ≠ 3 ∧ target ≠ 4) := by
    intro h
    exact htarget.2 ⟨h.2.2.1, h.2.2.2.1, h.2.1, h.2.2.2.2⟩
  rw [sortedBy, if_neg horder, if_neg hknown, sortPairs]
  by_cases hdescend : order = 2
  · simp [hdescend]
  · simp [hdescend]

/-- By key the pairs are sorted already. -/
theorem sortedBy_key {order : Int32} (horder : ¬ (order ≠ 1 ∧ order ≠ 2)) {ds : List KeyValue}
    (h : Listed ds) : sortedBy order 0 ds = if order = 2 then ds.reverse else ds := by
  have hsorted : (ds.insertionSort fun a b => (compareKv 0 a b).isLE) = ds := by
    refine List.Pairwise.insertionSort_eq (h.ascending.imp ?_)
    intro a b hlt
    have hkey : compare a.key b.key = .lt := by
      simpa [bytesLt] using hlt
    show ((compare a.key b.key).then (compare a.key b.key)).isLE = true
    rw [hkey]
    rfl
  rw [sortedBy, if_neg horder, if_neg (by decide), hsorted]

theorem sortedBy_perm (order target : Int32) (ds : List KeyValue) :
    (sortedBy order target ds).Perm ds := by
  unfold sortedBy
  split
  · exact .refl _
  split
  · exact .refl _
  dsimp only
  split
  · exact (List.reverse_perm _).trans (List.perm_insertionSort _ _)
  · exact List.perm_insertionSort _ _

theorem truncated_sortCut {α : Type} {l : List α} (limit : Nat) :
    truncated limit (l.take (sortCut limit l.length)) = truncated limit l := by
  unfold truncated sortCut
  split
  · next hzero => rw [hzero, if_neg (by simp), List.take_length]
  · split
    · rw [List.take_take, Nat.min_self]
    · rw [List.take_length]

/-- The sort itself, cut off where the selection cuts it off. -/
theorem sortKvs_encode {ds : List KeyValue} (h : Listed ds) (order target : Int32)
    (limit : Nat) :
    sortKvs (ds.map KeyValue.encode) order target limit
        = (sortedBy order target ds).map KeyValue.encode ∨
      sortKvs (ds.map KeyValue.encode) order target limit
        = ((sortedBy order target ds).take (sortCut limit ds.length)).map KeyValue.encode := by
  by_cases horder : order ≠ 1 ∧ order ≠ 2
  · left
    rw [sortKvs, if_pos horder, sortedBy, if_pos horder]
  by_cases hkey : target = 0
  · left
    rw [sortKvs, if_neg horder, if_pos hkey, hkey, sortedBy_key horder h]
    split
    · exact (List.map_reverse ..).symm
    · rfl
  by_cases hfield : target ≠ 2 ∧ target ≠ 3 ∧ target ≠ 1 ∧ target ≠ 4
  · left
    rw [sortKvs, if_neg horder, if_neg hkey, if_pos hfield, sortedBy, if_neg horder,
      if_pos ⟨hkey, hfield.2.2.1, hfield.1, hfield.2.1, hfield.2.2.2⟩]
  have htarget : Sortable target := ⟨hkey, hfield⟩
  right
  rw [sortKvs_map horder htarget (comparesAs_encode htarget h _) h.length_le,
    sortedBy_field horder htarget, sortPairs_eq h]

/-- `sort_kvs` and the truncation after it do on the blobs of these pairs what they are for. -/
def SortsExactly (ops : SliceOps SortEntry) (ds : List KeyValue) (order target : Int32)
    (limit : Nat) : Prop :=
  truncated limit (sortKvsWith ops (ds.map KeyValue.encode) order target limit)
      = (truncated limit (sortedBy order target ds)).map KeyValue.encode ∧
    (¬ (0 < limit ∧ limit * 64 ≤ ds.length) →
      (sortKvsWith ops (ds.map KeyValue.encode) order target limit).Perm
        (ds.map KeyValue.encode))

/-- **Sorting with a limit and truncating to it is sorting and truncating.** For any sort and
selection that meet the contracts of the standard library, in every order, by every target and with
every limit. -/
theorem sort_kvs_exact (ops : SliceOps SortEntry) {ds : List KeyValue} (h : Listed ds)
    (order target : Int32) (limit : Nat) : SortsExactly ops ds order target limit := by
  have hlen : (sortedBy order target ds).length = ds.length := (sortedBy_perm ..).length_eq
  rw [SortsExactly, sortKvsWith_eq ops h]
  -- either everything is sorted, or the selection has dropped what the limit cuts off anyway
  rcases sortKvs_encode h order target limit with heq | heq
  · rw [heq]
    refine ⟨?_, fun _ => (sortedBy_perm order target ds).map _⟩
    unfold truncated
    split
    · rfl
    · exact (List.map_take ..).symm
  · rw [heq, ← hlen]
    refine ⟨?_, ?_⟩
    · rw [← @truncated_sortCut _ (sortedBy order target ds) limit]
      unfold truncated
      split
      · rfl
      · exact (List.map_take ..).symm
    · intro hfar
      have hle := h.length_le
      have hcut : sortCut limit (sortedBy order target ds).length
          = (sortedBy order target ds).length := if_neg (by omega)
      rw [hcut, List.take_length]
      exact (sortedBy_perm order target ds).map _

/-- As many pairs as it takes for a limit of one to cut the entries before they are sorted. Their
revisions do not follow the keys. -/
def shuffledPairs : List KeyValue :=
  (List.range 64).map fun i =>
    { key := [UInt8.ofNat i], createRevision := 1, modRevision := Int64.ofNat (i * 37 % 64 + 1)
      version := 1, value := [], lease := 0 }

theorem listed_shuffledPairs : Listed shuffledPairs where
  encodable := by
    have hrevisions : ∀ d ∈ shuffledPairs, 0 ≤ d.modRevision := by decide +kernel
    intro d hd
    have hrevision := hrevisions d hd
    obtain ⟨i, -, rfl⟩ := List.mem_map.mp hd
    exact
      { key_length := by simp
        value_length := by simp
        createRevision_nonneg := show (0 : Int64) ≤ 1 by decide
        modRevision_nonneg := hrevision
        version_nonneg := show (0 : Int64) ≤ 1 by decide }
  ascending := by decide +kernel
  length_le := by decide

/-- The latest of 64, which the selection finds: all entries but one are dropped unsorted. -/
theorem sort_kvs_exact_latest : Listed shuffledPairs ∧ 1 * 64 ≤ shuffledPairs.length ∧
    SortsExactly (.insertion SortEntry) shuffledPairs 2 3 1 ∧
    (truncated 1 (sortedBy 2 3 shuffledPairs)).map (·.key) = [[19]] :=
  ⟨listed_shuffledPairs, by decide, sort_kvs_exact _ listed_shuffledPairs 2 3 1, by decide +kernel⟩

/-! ### What a blob cannot hold -/

/-- A position that was taken before is empty. -/
theorem nil_mem_takeInOrder_of_mem {kvs : List Bytes} {order : List UInt32} {i : UInt32}
    (hi : i ∈ order) (hempty : kvs[i.toNat]?.getD [] = []) : [] ∈ takeInOrder kvs order := by
  induction order generalizing kvs with
  | nil => cases hi
  | cons j order ih =>
      rw [takeInOrder]
      rcases List.mem_cons.mp hi with rfl | hi
      · rw [hempty]
        exact List.mem_cons_self ..
      · refine List.mem_cons_of_mem _ (ih hi ?_)
        rw [List.getElem?_set]
        split
        · split <;> rfl
        · exact hempty

theorem nil_mem_takeInOrder {kvs : List Bytes} {order : List UInt32} (h : ¬ order.Nodup) :
    [] ∈ takeInOrder kvs order := by
  induction order generalizing kvs with
  | nil => exact absurd List.nodup_nil h
  | cons i order ih =>
      rw [takeInOrder]
      refine List.mem_cons_of_mem _ ?_
      by_cases hi : i ∈ order
      · refine nil_mem_takeInOrder_of_mem hi ?_
        rw [List.getElem?_set]
        split
        · split <;> rfl
        · rename_i hne
          exact absurd rfl hne
      · exact ih fun hnodup => h (List.nodup_cons.mpr ⟨hi, hnodup⟩)

/-- **More blobs than a `u32` counts are not rearranged**: two entries have one position. -/
theorem sortKvsWith_not_perm (ops : SliceOps SortEntry) {kvs : List Bytes}
    (hlen : 2 ^ 32 < kvs.length) (hne : [] ∉ kvs) {order target : Int32}
    (horder : ¬ (order ≠ 1 ∧ order ≠ 2)) (htarget : Sortable target) :
    ¬ (sortKvsWith ops kvs order target 0).Perm kvs := by
  intro hperm
  refine hne (hperm.mem_iff.mp ?_)
  rw [sortKvsWith, if_neg horder, if_neg htarget.1, if_neg htarget.2]
  refine nil_mem_takeInOrder fun hnodup => ?_
  have hpositions : ((kvs.zipIdx.map fun e => sortEntry target e.1 e.2).map (·.idx)).Nodup :=
    ((ops.sortUnstable_perm _ _).map _).nodup_iff.mp hnodup
  have hget : ∀ i, i < kvs.length →
      ((kvs.zipIdx.map fun e => sortEntry target e.1 e.2).map (·.idx))[i]? = some (.ofNat i) := by
    intro i hi
    rw [List.map_map, List.getElem?_map, List.getElem?_zipIdx,
      List.getElem?_eq_getElem hi, Option.map_some, Option.map_some, Nat.zero_add]
    exact congrArg some (idx_sortEntry target _ i)
  have heq := (hget 0 (by omega)).trans (hget (2 ^ 32) hlen).symm
  exact absurd ((List.getElem?_inj (by simp; omega) hpositions).mp heq) (by decide)

/-- Two blobs, sorted. -/
theorem sortKvsWith_pair {target : Int32} (htarget : Sortable target) (a b : Bytes) :
    sortKvsWith (.insertion SortEntry) [a, b] 1 target 0
      = if (cmpEntry false (sortEntry target a 0) (sortEntry target b 1)).isLE then [a, b]
        else [b, a] := by
  rw [sortKvsWith, if_neg (by decide), if_neg htarget.1, if_neg htarget.2]
  show takeInOrder [a, b] ((([sortEntry target a 0, sortEntry target b 1].insertionSort
    fun x y => (cmpEntry false x y).isLE)).map (·.idx)) = _
  rw [List.insertionSort_cons, List.insertionSort_cons, List.insertionSort_nil,
    List.orderedInsert_nil, List.orderedInsert]
  split
  · simp only [List.map_cons, List.map_nil, idx_sortEntry]
    rfl
  · simp only [List.orderedInsert_nil, List.map_cons, List.map_nil, idx_sortEntry]
    rfl

theorem sortedBy_pair {target : Int32} (htarget : Sortable target) (a b : KeyValue) :
    sortedBy 1 target [a, b] = if (compareKv target a b).isLE then [a, b] else [b, a] := by
  rw [sortedBy_field (by decide) htarget]
  show [a, b].insertionSort (fun x y => (compareKv target x y).isLE) = _
  rw [List.insertionSort_cons, List.insertionSort_cons, List.insertionSort_nil,
    List.orderedInsert_nil, List.orderedInsert]
  split
  · rfl
  · rw [List.orderedInsert_nil]

/-- Pairs with a revision below zero. -/
def negativePairs : List KeyValue :=
  [{ key := [1], createRevision := 1, modRevision := 1, version := 1, value := [], lease := 0 },
   { key := [2], createRevision := 1, modRevision := -1, version := 1, value := [], lease := 0 }]

/-- Pairs one of whose values is `n` bytes long. -/
def longValuePairs (n : Nat) : List KeyValue :=
  [{ key := [1], createRevision := 1, modRevision := 1, version := 1,
     value := List.replicate n 0, lease := 0 },
   { key := [2], createRevision := 1, modRevision := 2, version := 1, value := [], lease := 0 }]

/-- Pairs one of whose keys is `n` bytes long. -/
def longKeyPairs (n : Nat) : List KeyValue :=
  [{ key := List.replicate n 0, createRevision := 1, modRevision := 2, version := 1,
     value := [], lease := 0 },
   { key := [1], createRevision := 1, modRevision := 1, version := 1, value := [], lease := 0 }]

/-- `n + 1` pairs. -/
def manyPairs (n : Nat) : List KeyValue :=
  (List.range n).map (fun i =>
    { key := List.replicate i 0, createRevision := 1, modRevision := 1, version := 1,
      value := [], lease := 0 }) ++
  [{ key := [1], createRevision := 1, modRevision := 1, version := 1, value := [], lease := 0 }]

/-- A key of zeros whose length reads as zero. -/
theorem parseKv_zeros (rest : Bytes) :
    parseKv (0x0a :: (encodeOverlongU32 0 ++ (List.replicate 21 0 ++ rest)))
      = some { key := [], createRevision := 0, modRevision := 0, version := 0, value := [] } := by
  have hvarint : ∀ bs, cursorVarint (0 :: bs) = some (0, bs) := fun bs => cursorVarint_append 0 bs
  have hu64 : ∀ bs, cursorOverlongU64 (0 :: 0 :: 0 :: 0 :: 0 :: 0 :: 0 :: 0 :: 0 :: 0 :: bs)
      = some (0, bs) := by
    intro bs
    rw [cursorOverlongU64, show (0 :: 0 :: 0 :: 0 :: 0 :: 0 :: 0 :: 0 :: 0 :: 0 :: bs : Bytes)
      = List.replicate 10 0 ++ bs from rfl, cursorTake_append (by rfl)]
    rfl
  have hu32 : ∀ bs, cursorOverlongU32 (0 :: 0 :: 0 :: 0 :: 0 :: bs) = some (0, bs) := by
    intro bs
    rw [cursorOverlongU32, show (0 :: 0 :: 0 :: 0 :: 0 :: bs : Bytes)
      = List.replicate 5 0 ++ bs from rfl, cursorTake_append (by rfl)]
    rfl
  have hnone : ∀ bs, cursorTake 0 bs = some ([], bs) := by
    intro bs
    rw [cursorTake, if_pos (Nat.zero_le _)]
    rfl
  rw [parseKv]
  simp only [Option.bind_eq_bind, Option.bind_some, cursorSkip_cons, cursorOverlongU32_append,
    UInt32.toNat_zero, hnone, List.replicate, List.cons_append, List.nil_append, hvarint, hu64,
    hu32]
  rfl

theorem sortEntry_zeros {d : KeyValue} {n : Nat} (hn : n = 2 ^ 32)
    (hkey : d.key = List.replicate n 0) (i : Nat) :
    sortEntry 3 d.encode i = { value := .int 0, key := [], idx := UInt32.ofNat i } := by
  have hzeros : d.key = List.replicate 21 0 ++ List.replicate (n - 21) 0 := by
    rw [hkey, ← List.replicate_add, Nat.add_sub_cancel' (by omega)]
  have hlen : UInt32.ofNat d.key.length = 0 := by
    rw [hkey, List.length_replicate, hn]
    decide
  have hparse : parseKv d.encode
      = some { key := [], createRevision := 0, modRevision := 0, version := 0, value := [] } := by
    rw [KeyValue.encode, encodeKv, kvHead, hlen, hzeros]
    simp only [List.append_assoc, List.cons_append, List.nil_append]
    exact parseKv_zeros _
  rw [sortEntry, hparse]
  rfl

theorem bytesLt_of_le_of_ne {a b : Bytes} (hle : bytesLe a b = true) (hne : a ≠ b) :
    bytesLt a b = true := by
  rw [bytesLt, beq_iff_eq]
  rw [bytesLe, bne_iff_ne] at hle
  cases hcmp : compare a b with
  | lt => rfl
  | eq => exact absurd (LawfulEqCmp.eq_of_compare hcmp) hne
  | gt => exact absurd hcmp hle

theorem ascending_zeros (n : Nat) :
    (List.range n).Pairwise fun i j =>
      bytesLt (List.replicate i 0) (List.replicate j 0) = true := by
  refine List.pairwise_lt_range.imp ?_
  intro i j hij
  have hprefix : (List.replicate i (0 : UInt8)).isPrefixOf (List.replicate j 0) := by
    rw [List.isPrefixOf_iff_prefix]
    exact ⟨List.replicate (j - i) 0, by rw [← List.replicate_add, Nat.add_sub_cancel' hij.le]⟩
  refine bytesLt_of_le_of_ne (bytesLe_of_isPrefixOf hprefix) fun heq => ?_
  have hlen := congrArg List.length heq
  rw [List.length_replicate, List.length_replicate] at hlen
  omega

theorem ascending_manyPairs (n : Nat) :
    (manyPairs n).Pairwise fun a b => bytesLt a.key b.key = true := by
  refine List.pairwise_append.mpr
    ⟨List.pairwise_map.mpr (ascending_zeros n), List.pairwise_singleton .., ?_⟩
  intro a ha b hb
  obtain ⟨i, -, rfl⟩ := List.mem_map.mp ha
  obtain rfl := List.mem_singleton.mp hb
  show bytesLt (List.replicate i 0) [1] = true
  cases i with
  | zero => decide
  | succ i =>
      rw [List.replicate_succ, bytesLt, compare_cons]
      rfl

/-- Two blobs out of order. -/
theorem not_sortsExactly_pair {target : Int32} (htarget : Sortable target) {a b : KeyValue}
    (hne : a.encode ≠ b.encode)
    (hcode : (cmpEntry false (sortEntry target a.encode 0) (sortEntry target b.encode 1)).isLE)
    (hkv : ¬ (compareKv target a b).isLE) :
    ¬ SortsExactly (.insertion SortEntry) [a, b] 1 target 0 := by
  intro h
  have h := h.1
  rw [truncated, if_pos rfl, truncated, if_pos rfl, sortedBy_pair htarget, if_neg hkv,
    List.map_cons, List.map_cons, List.map_nil, sortKvsWith_pair htarget, if_pos hcode] at h
  exact hne (List.cons.inj h).1

theorem longValuePairs_inexact {n : Nat} (hn : n = 2 ^ 32) :
    (longValuePairs n).Pairwise (fun a b => bytesLt a.key b.key = true) ∧
      ¬ SortsExactly (.insertion SortEntry) (longValuePairs n) 1 4 0 := by
  refine ⟨List.pairwise_pair.mpr (show bytesLt [1] [2] = true by decide), ?_⟩
  refine not_sortsExactly_pair ⟨by decide, by decide⟩ ?_ ?_ ?_
  · intro h
    have hbyte := congrArg (fun l => l[6]?) h
    simp [KeyValue.encode, encodeKv, kvHead, encodeOverlongU32, List.range_succ] at hbyte
  · have hvalue : (List.replicate n (0 : UInt8)).take (n % 2 ^ 32) = [] := by
      rw [show n % 2 ^ 32 = 0 by omega, List.take_zero]
    rw [sortEntry, KeyValue.encode, parseKv_encodeKv_take _ _ _ _ (by simp), sortEntry,
      KeyValue.encode, parseKv_encodeKv_take _ _ _ _ (by simp)]
    simp only [List.length_replicate, hvalue]
    rfl
  · obtain ⟨m, rfl⟩ : ∃ m, n = m + 1 := ⟨n - 1, by omega⟩
    intro h
    cases h

theorem longKeyPairs_inexact {n : Nat} (hn : n = 2 ^ 32) :
    (longKeyPairs n).Pairwise (fun a b => bytesLt a.key b.key = true) ∧
      ¬ SortsExactly (.insertion SortEntry) (longKeyPairs n) 1 3 0 := by
  have hlen : UInt32.ofNat n = 0 := by
    rw [hn]
    decide
  refine ⟨List.pairwise_pair.mpr ?_, not_sortsExactly_pair ⟨by decide, by decide⟩ ?_ ?_ ?_⟩
  · obtain ⟨m, rfl⟩ : ∃ m, n = m + 1 := ⟨n - 1, by omega⟩
    show bytesLt (List.replicate (m + 1) 0) [1] = true
    rw [List.replicate_succ, bytesLt, compare_cons]
    rfl
  · intro h
    have hbyte := congrArg (fun l => l[1]?) h
    simp [KeyValue.encode, encodeKv, kvHead, encodeOverlongU32, hlen] at hbyte
    exact absurd hbyte (by decide)
  · rw [sortEntry_zeros hn rfl]
    rfl
  · intro h
    cases h

theorem manyPairs_inexact {n : Nat} (hn : n = 2 ^ 32) :
    (manyPairs n).Pairwise (fun a b => bytesLt a.key b.key = true) ∧
      ¬ SortsExactly (.insertion SortEntry) (manyPairs n) 1 3 0 := by
  refine ⟨ascending_manyPairs n, ?_⟩
  intro h
  refine sortKvsWith_not_perm (.insertion SortEntry) ?_ ?_ (by decide)
    (show Sortable 3 from ⟨by decide, by decide⟩) (h.2 (by simp))
  · rw [List.length_map, manyPairs, List.length_append, List.length_map, List.length_range, hn]
    simp
  · intro hnil
    obtain ⟨d, -, hd⟩ := List.mem_map.mp hnil
    rw [KeyValue.encode, encodeKv] at hd
    simp [kvHead] at hd

/-- **What a blob cannot hold, and positions that a `u32` cannot, are not sorted.** One family of
pairs for each bound: a revision below zero, a value or a key whose length a `u32` does not hold,
and more pairs than it counts. -/
theorem sort_kvs_inexact :
    (negativePairs.Pairwise (fun a b => bytesLt a.key b.key = true) ∧
        ¬ SortsExactly (.insertion SortEntry) negativePairs 1 3 0) ∧
      ((longValuePairs (2 ^ 32)).Pairwise (fun a b => bytesLt a.key b.key = true) ∧
        ¬ SortsExactly (.insertion SortEntry) (longValuePairs (2 ^ 32)) 1 4 0) ∧
      ((longKeyPairs (2 ^ 32)).Pairwise (fun a b => bytesLt a.key b.key = true) ∧
        ¬ SortsExactly (.insertion SortEntry) (longKeyPairs (2 ^ 32)) 1 3 0) ∧
      (manyPairs (2 ^ 32)).Pairwise (fun a b => bytesLt a.key b.key = true) ∧
        ¬ SortsExactly (.insertion SortEntry) (manyPairs (2 ^ 32)) 1 3 0 :=
  ⟨⟨by decide, not_sortsExactly_pair ⟨by decide, by decide⟩ (by decide +kernel)
      (by decide +kernel) (by decide +kernel)⟩,
    longValuePairs_inexact rfl, longKeyPairs_inexact rfl, manyPairs_inexact rfl⟩

end Rudurru
