import Rudurru.Storage.BoundsSound
import Rudurru.Storage.Store

/-!
# Rudurru.Storage.Walkers

What key ranges mean.

`resolve_range` turns some pairs of `key` and `range_end` into prefix bounds. Where `range_end` is
`key` with its last byte incremented the prefix is the half-open interval
(`incremented_interval_iff`); where it is `key` followed by a zero byte it is not, and the pair
means the prefix (`matchesRange_resolveRange`).

Three places of the store walk the map, each with its own encoding of a bound: `range_current`,
`delete_range_at` and `range_historical`. All three visit the keys that `matches_range` describes
(`walkers_agree`).

The three encodings are compared at the level of the walk: each is a list of keys, the ascending
list of those that match, and so they agree with each other without being compared pairwise. An
interval whose end comes before its start is left out; there the walk panics, which is the subject
of `Txn.Backwards`.
-/

namespace Rudurru

open Std (ExtTreeMap)

/-! ### What a pair means -/

theorem uint8_succ_of_ne {b c : UInt8} (hb : b ≠ 0xff) :
    (compare b c ≠ .gt ∧ compare c (b + 1) = .lt) ↔ c = b := by
  have hsucc : (b + 1).toNat = b.toNat + 1 := by
    have hlt := b.toNat_lt
    have hne : b.toNat ≠ 255 := fun h => hb (UInt8.toNat_inj.mp h)
    rw [UInt8.toNat_add, UInt8.toNat_one]
    omega
  rw [Ne, Std.compare_eq_gt, Std.compare_eq_lt, UInt8.lt_iff_toNat_lt, UInt8.lt_iff_toNat_lt, hsucc,
    ← UInt8.toNat_inj]
  omega

/-- The keys from `key` up to `key` with its last byte incremented are those that extend it. -/
theorem incremented_interval_iff {q : Bytes} {b : UInt8} (hb : b ≠ 0xff) (k : Bytes) :
    (bytesLe (q ++ [b]) k && bytesLt k (q ++ [b + 1])) = (q ++ [b]).isPrefixOf k := by
  induction q generalizing k with
  | nil =>
      cases k with
      | nil => rfl
      | cons c k =>
          have hnil : compare k [] ≠ Ordering.lt := by
            cases k with
            | nil => decide
            | cons d k =>
                rw [compare_cons_nil]
                decide
          -- the last byte decides: `c` is at least `b` and below `b + 1`
          have hle : bytesLe [b] (c :: k) = true ↔ compare b c ≠ .gt := by
            rw [bytesLe, compare_cons]
            cases hbc : compare b c with
            | lt | gt => simp
            | eq =>
                cases k with
                | nil => decide
                | cons d k => simp
          have hlt : bytesLt (c :: k) [b + 1] = true ↔ compare c (b + 1) = .lt := by
            rw [bytesLt, compare_cons]
            cases hcb : compare c (b + 1) with
            | lt | gt => simp
            | eq => simp [hnil]
          have hprefix : [b].isPrefixOf (c :: k) = true ↔ c = b := by
            rw [List.isPrefixOf_cons_cons, List.isPrefixOf_nil_left, Bool.and_true, beq_iff_eq]
            exact eq_comm
          rw [Bool.eq_iff_iff, List.nil_append, List.nil_append, Bool.and_eq_true, hle, hlt,
            hprefix]
          exact uint8_succ_of_ne hb
  | cons a q ih =>
      cases k with
      | nil => simp [bytesLe]
      | cons c k =>
          rw [bytesLe, bytesLt, List.cons_append, List.cons_append, compare_cons, compare_cons,
            List.isPrefixOf_cons_cons]
          -- a byte before the last one must agree, on both sides
          cases hac : compare a c with
          | lt =>
              have hne : a ≠ c := by
                rintro rfl
                simp [Std.ReflCmp.compare_self] at hac
              simp [Std.OrientedCmp.gt_of_lt hac, hne]
          | gt =>
              have hne : a ≠ c := by
                rintro rfl
                simp [Std.ReflCmp.compare_self] at hac
              simp [hne]
          | eq =>
              obtain rfl := Std.LawfulEqCmp.eq_of_compare hac
              simpa [bytesLe, bytesLt, Std.ReflCmp.compare_self] using ih k

/-- The increment test of `resolve_range`, on a key that is not empty. -/
theorem incremented_iff {key rangeEnd : Bytes} (hkey : key ≠ []) :
    (rangeEnd.length = key.length ∧ rangeEnd.dropLast = key.dropLast
      ∧ rangeEnd.getLast? = key.getLast?.map (· + 1) ∧ key.getLast? ≠ some 0xff) ↔
    ∃ q b, b ≠ 0xff ∧ key = q ++ [b] ∧ rangeEnd = q ++ [b + 1] := by
  rcases List.eq_nil_or_concat' key with rfl | ⟨q, b, rfl⟩
  · exact absurd rfl hkey
  · constructor
    · intro h
      obtain ⟨hlen, hinit, hlast, hb⟩ := h
      refine ⟨q, b, by simpa using hb, rfl, ?_⟩
      rcases List.eq_nil_or_concat' rangeEnd with rfl | ⟨q', b', rfl⟩
      · simp at hlen
      · simp only [List.dropLast_concat] at hinit
        simp only [List.getLast?_concat, Option.map_some, Option.some.injEq] at hlast
        rw [hinit, hlast]
    · intro h
      obtain ⟨q', b', hb, hkey, hend⟩ := h
      obtain ⟨rfl, hbb⟩ := List.append_inj' hkey rfl
      cases hbb
      rw [hend]
      simp [hb]

/-- **A pair of `key` and `range_end` means** the key alone, everything from the key on, everything
that extends the key, or the half-open interval. -/
theorem matchesRange_resolveRange {key : Bytes} (hkey : key ≠ []) (rangeEnd k : Bytes) :
    matchesRange (resolveRange key rangeEnd) k = true ↔
      (rangeEnd = [] ∧ k = key) ∨ (rangeEnd = [0] ∧ bytesLe key k = true) ∨
        (rangeEnd = key ++ [0] ∧ key <+: k) ∨
        (rangeEnd ≠ [] ∧ rangeEnd ≠ [0] ∧ rangeEnd ≠ key ++ [0] ∧ bytesLe key k = true ∧
          bytesLt k rangeEnd = true) := by
  have hcons : key ++ [0] ≠ [] := by simp
  have hzero : key ++ [0] ≠ [0] := by simpa using hkey
  unfold resolveRange
  by_cases hempty : rangeEnd = []
  · subst hempty
    simp [matchesRange, hcons.symm]
  rw [if_neg hempty]
  by_cases hfrom : rangeEnd = [0]
  · subst hfrom
    simp [matchesRange, hkey, hzero.symm]
  rw [if_neg hfrom]
  by_cases hsuffix : rangeEnd = key ++ [0]
  · -- the lengths differ, so the pair is not an increment
    have hlen : rangeEnd.length ≠ key.length := by simp [hsuffix]
    rw [if_neg fun h => hlen h.1, if_pos hsuffix]
    simp [matchesRange, hkey, hsuffix, List.isPrefixOf_iff_prefix]
  rw [if_neg hsuffix]
  by_cases hinc : rangeEnd.length = key.length ∧ rangeEnd.dropLast = key.dropLast
      ∧ rangeEnd.getLast? = key.getLast?.map (· + 1) ∧ key.getLast? ≠ some 0xff
  · rw [if_pos hinc]
    obtain ⟨q, b, hb, rfl, rfl⟩ := (incremented_iff hkey).mp hinc
    rw [matchesRange, ← incremented_interval_iff hb, Bool.and_eq_true]
    simp [hempty, hfrom]
  · rw [if_neg hinc]
    simp [matchesRange, hempty, hfrom, hsuffix]

/-- `range_end` is the key with its last byte incremented. -/
theorem matchesRange_resolveRange_incremented :
    matchesRange (resolveRange [1] [2]) [1, 5] = true := by
  refine (matchesRange_resolveRange (by decide) [2] [1, 5]).mpr ?_
  exact .inr (.inr (.inr (by decide)))

/-- `range_end` is the key followed by a zero byte: a longer key matches, though it is not below
`range_end`. -/
theorem matchesRange_resolveRange_suffix :
    ¬ (matchesRange (resolveRange [1] [1, 0]) [1, 2] = true ↔
      (([1, 0] : Bytes) = [] ∧ ([1, 2] : Bytes) = [1]) ∨
        (([1, 0] : Bytes) = [0] ∧ bytesLe [1] [1, 2] = true) ∨
        (([1, 0] : Bytes) ≠ [] ∧ ([1, 0] : Bytes) ≠ [0] ∧ bytesLe [1] [1, 2] = true ∧
          bytesLt [1, 2] [1, 0] = true)) := by
  decide

/-! ### The three walks -/

section

variable {β : Type}

/-- The bounds of `range_current`; points are answered before. -/
def currentBounds : RangeBound → Option Bytes × Option Bytes
  | .all | .point _ => (none, none)
  | .fromKey k => (some k, none)
  | .prefixOf p => (some p, none)
  | .range start stop => (some start, some stop)

/-- The entries that `range_current` visits: a point by `get`, the others by an iterator that stops
at the first key outside a prefix. -/
def visitedCurrent (m : ExtTreeMap Bytes β) (bound : RangeBound) :
    Except Failure (List (Bytes × β)) :=
  match bound with
  | .point k => .ok (m[k]?.map fun v => (k, v)).toList
  | _ => walkRange m bound (currentBounds bound)

/-- The entries that `delete_range_at` visits, before it filters out the tombstones. -/
def visitedForDelete (m : ExtTreeMap Bytes β) (bound : RangeBound) :
    Except Failure (List (Bytes × β)) :=
  match bound with
  | .point k => .ok (m[k]?.map fun v => (k, v)).toList
  | .fromKey k => btreeRange m (some k) none
  | .prefixOf p => (btreeRange m (some p) none).map (·.takeWhile fun e => p.isPrefixOf e.1)
  | .range start stop => btreeRange m (some start) (some stop)
  | .all => .ok m.toList

/-- The entries that phase 1 of `range_historical` visits. -/
def visitedHistorical (m : ExtTreeMap Bytes β) (bound : RangeBound) :
    Except Failure (List (Bytes × β)) :=
  walkRange m bound (btreeBounds bound)

/-- Looking up a key is walking the keys that equal it. -/
theorem getElem?_eq_filter (m : ExtTreeMap Bytes β) (k : Bytes) :
    (m[k]?.map fun v => (k, v)).toList = m.toList.filter fun e => matchesRange (.point k) e.1 := by
  have hmem : ∀ e, e ∈ m.toList.filter (fun e => matchesRange (.point k) e.1) ↔
      e ∈ (m[k]?.map fun v => (k, v)).toList := by
    intro e
    rw [List.mem_filter, Option.mem_toList, Option.map_eq_some_iff,
      ExtTreeMap.mem_toList_iff_getElem?_eq_some, matchesRange, decide_eq_true_eq]
    constructor
    · intro h
      obtain ⟨hget, rfl⟩ := h
      exact ⟨e.2, hget, rfl⟩
    · intro h
      obtain ⟨v, hget, rfl⟩ := h
      exact ⟨hget, rfl⟩
  have hnodup : (m.toList.filter fun e => matchesRange (.point k) e.1).Nodup :=
    (nodup_keys_of_sublist List.filter_sublist).of_map
  cases hget : m[k]? with
  | none =>
      rw [hget] at hmem
      exact (List.eq_nil_iff_forall_not_mem.mpr fun e he => by simpa using (hmem e).mp he).symm
  | some v =>
      rw [hget] at hmem
      have hperm := (List.perm_ext_iff_of_nodup hnodup (List.nodup_singleton (k, v))).mpr hmem
      exact (List.perm_singleton.mp hperm).symm

theorem visitedCurrent_eq_filter (m : ExtTreeMap Bytes β) {bound : RangeBound}
    (h : bound.inverted = false) :
    visitedCurrent m bound = .ok (m.toList.filter fun e => matchesRange bound e.1) := by
  cases bound with
  | point k => exact congrArg Except.ok (getElem?_eq_filter m k)
  | all | fromKey k | prefixOf p | range start stop => exact walkRange_eq_filter m h

theorem visitedForDelete_eq_filter (m : ExtTreeMap Bytes β) {bound : RangeBound}
    (h : bound.inverted = false) :
    visitedForDelete m bound = .ok (m.toList.filter fun e => matchesRange bound e.1) := by
  cases bound with
  | point k => exact congrArg Except.ok (getElem?_eq_filter m k)
  | all | fromKey k | prefixOf p => exact walkRange_eq_filter m h
  | range start stop =>
      rw [← walkRange_eq_filter m h, walkRange, btreeBounds, visitedForDelete]
      exact (bind_pure _).symm

/-- A map's entries are in the order of their keys. -/
theorem pairwise_toList (m : ExtTreeMap Bytes β) :
    m.toList.Pairwise fun a b => bytesLt a.1 b.1 = true := by
  refine ExtTreeMap.ordered_keys_toList.imp ?_
  intro a b hlt
  rw [bytesLt, hlt]
  rfl

/-- Lists in key order with the same pairs are the same. -/
theorem eq_of_ascending {l l' : List (Bytes × Bytes)}
    (h : l.Pairwise fun a b => bytesLt a.1 b.1 = true)
    (h' : l'.Pairwise fun a b => bytesLt a.1 b.1 = true) (hmem : ∀ e, e ∈ l ↔ e ∈ l') : l = l' := by
  have hirrefl : ∀ {a b : Bytes × Bytes}, bytesLt a.1 b.1 = true → a ≠ b := by
    intro a b hlt heq
    rw [heq, bytesLt_irrefl] at hlt
    cases hlt
  refine List.Perm.eq_of_pairwise ?_ h h'
    ((List.perm_ext_iff_of_nodup (h.imp hirrefl) (h'.imp hirrefl)).mpr hmem)
  intro a b _ _ hab hba
  have := bytesLt_of_le_of_lt (bytesLe_of_bytesLt hab) hba
  rw [bytesLt_irrefl] at this
  cases this

/-- **The three walks visit the matching keys**, in ascending order and each once. Of every map, and
for every bound whose interval is not inverted. -/
theorem walkers_agree (m : ExtTreeMap Bytes β) {key rangeEnd : Bytes}
    (hinverted : (resolveRange key rangeEnd).inverted = false) :
    ∃ entries, entries = m.toList.filter (fun e => matchesRange (resolveRange key rangeEnd) e.1) ∧
      visitedCurrent m (resolveRange key rangeEnd) = .ok entries ∧
      visitedForDelete m (resolveRange key rangeEnd) = .ok entries ∧
      visitedHistorical m (resolveRange key rangeEnd) = .ok entries ∧
      entries.Pairwise (fun e e' => bytesLt e.1 e'.1 = true) := by
  refine ⟨_, rfl, visitedCurrent_eq_filter m hinverted, visitedForDelete_eq_filter m hinverted,
    walkRange_eq_filter m hinverted, ?_⟩
  exact (pairwise_toList m).sublist List.filter_sublist

/-- Three keys, two of which extend the key asked for. -/
theorem walkers_agree_prefix :
    ∃ (m : ExtTreeMap Bytes Unit) (entries : List (Bytes × Unit)),
      m.keys = [[1], [1, 5], [2]] ∧ entries.map (·.1) = [[1], [1, 5]] ∧
      visitedCurrent m (resolveRange [1] [2]) = .ok entries ∧
      visitedForDelete m (resolveRange [1] [2]) = .ok entries ∧
      visitedHistorical m (resolveRange [1] [2]) = .ok entries := by
  let m : ExtTreeMap Bytes Unit := .ofList [(([2] : Bytes), ()), ([1, 5], ()), ([1], ())]
  have hinverted : (resolveRange [1] [2]).inverted = false := by decide
  obtain ⟨entries, hentries, hcurrent, hdelete, hhistorical, -⟩ := walkers_agree m hinverted
  refine ⟨m, entries, by decide +kernel, ?_, hcurrent, hdelete, hhistorical⟩
  rw [hentries]
  decide +kernel

end

/-! ### The walks in their functions -/

/-- The selection of `delete_range_at`. -/
theorem keysToDelete_eq_entries (s : StoreState) (bound : RangeBound) :
    s.keysToDelete bound
      = (visitedForDelete s.keys bound).map fun entries =>
          (entries.filter (·.2.isAlive)).map (·.1) := by
  cases bound with
  | point k =>
      cases hget : s.keys[k]? with
      | none => simp [StoreState.keysToDelete, visitedForDelete, StoreState.alive?, aliveIn, hget,
          Except.map]
      | some ks =>
          cases halive : ks.isAlive <;>
            simp [StoreState.keysToDelete, visitedForDelete, StoreState.alive?, aliveIn, hget,
              halive, Except.map]
  | all => rfl
  | fromKey k => rfl
  | prefixOf p => rfl
  | range start stop =>
      simp only [StoreState.keysToDelete, visitedForDelete, walkRange, btreeBounds]
      cases btreeRange s.keys (some start) (some stop) <;> rfl

/-- Phase 1 of `range_historical`. -/
theorem historicalPhase1_eq_entries (s : StoreState) (req : RangeRequest) (targetRev : UInt64) :
    historicalPhase1 s req targetRev
      = (visitedHistorical s.keys (resolveRange req.key req.rangeEnd)).map fun entries =>
          (((entries.filter fun e => phase1Classify req targetRev e.2 = .direct).map fun e =>
              (e.1, responseKv req e.1 e.2.kvBytes)),
            (entries.filter fun e => phase1Classify req targetRev e.2 = .stale).map (·.1)) := by
  rw [historicalPhase1, visitedHistorical]
  cases walkRange s.keys _ _ <;> rfl

/-- What `range_current` answers from the entries it looked at. -/
def currentResponse (s : StoreState) (req : RangeRequest) (entries : List (Bytes × KeyState)) :
    RangeResponse :=
  let selected := entries.filter fun e => e.2.isAlive && passesRevisionFilters req e.2
  let kvs := selected.map fun e => responseKv req e.1 e.2.kvBytes
  let count := Int64.ofNat kvs.length
  let limit := req.limit.toUInt64.toNat
  match resolveRange req.key req.rangeEnd with
  | .point _ =>
      { header := s.header, kvs := if req.countOnly then [] else kvs, more := false, count }
  | _ =>
      if req.countOnly then { header := s.header, kvs := [], more := false, count }
      else
        let kvs := sortKvs kvs req.sortOrder req.sortTarget (if req.limit > 0 then limit else 0)
        let more := req.limit > 0 && count > req.limit
        { header := s.header, kvs := if more then kvs.take limit else kvs, more, count }

/-- `range_current`. -/
theorem rangeCurrent_eq_entries (s : StoreState) (req : RangeRequest) :
    rangeCurrent s req = do
      match resolveRange req.key req.rangeEnd with
      | .point _ => pure ()
      | _ => vecWithCapacity (if req.limit > 0 then req.limit.toUInt64.toNat else s.keys.size)
      let entries ← visitedCurrent s.keys (resolveRange req.key req.rangeEnd)
      return currentResponse s req entries := by
  unfold rangeCurrent currentResponse
  cases hbound : resolveRange req.key req.rangeEnd with
  | point k =>
      cases hget : s.keys[k]? with
      | none =>
          simp only [visitedCurrent, hget]
          rfl
      | some ks =>
          have hone : [(k, ks)].filter (fun e => e.2.isAlive && passesRevisionFilters req e.2)
              = if ks.isAlive && passesRevisionFilters req ks then [(k, ks)] else [] := by
            rw [List.filter_cons, List.filter_nil]
          simp only [visitedCurrent, hget, Option.map_some, Option.toList_some]
          show _ = Except.ok _
          rw [hone]
          cases ks.isAlive && passesRevisionFilters req ks <;> rfl
  | all | fromKey k | prefixOf p | range start stop =>
      refine bind_congr fun _ => bind_congr fun entries => ?_
      cases req.countOnly <;> rfl

end Rudurru
