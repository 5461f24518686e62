import Rudurru.Storage.BoundsSound
import Rudurru.Storage.Range

/-!
# Rudurru.Storage.RangeSound

What a historical range answers with. Sorting rearranges (`sortKvs_perm`), a limit drops; what
remains is the list of keys and blobs that phase 1 found, or that phase 3 merged
(`historicalEntries`). The merge itself is described by what it may insert
(`historicalMerge_all`) and what it cannot miss (`contains_historicalMerge`).

Two later modules build on this one. `History` asks which keys and blobs are among the entries, and
`Storage.Pages` which of them are left on a page. Neither looks at the code of the merge again.
-/

namespace Rudurru

open Std (ExtTreeMap)

/-! ### Sorting -/

/-- Taking distinct positions out of a list is reading them. -/
theorem takeInOrder_eq_map {kvs : List Bytes} {order : List UInt32} (h : order.Nodup) :
    takeInOrder kvs order = order.map fun i => kvs[i.toNat]?.getD [] := by
  induction order generalizing kvs with
  | nil => rfl
  | cons i order ih =>
      obtain ⟨hi, horder⟩ := List.nodup_cons.mp h
      rw [takeInOrder, List.map_cons, ih horder]
      congr 1
      refine List.map_congr_left fun j hj => ?_
      have hne : i.toNat ≠ j.toNat := by
        intro heq
        exact hi (UInt32.toNat_inj.mp heq ▸ hj)
      rw [List.getElem?_set_ne hne]

theorem idx_sortEntry (target : Int32) (blob : Bytes) (idx : Nat) :
    (sortEntry target blob idx).idx = UInt32.ofNat idx := by
  unfold sortEntry
  split <;> rfl

/-- The positions of the entries, in the order of the list. -/
def positions (n : Nat) : List UInt32 := (List.range n).map UInt32.ofNat

theorem nodup_positions {n : Nat} (h : n ≤ 2 ^ 32) : (positions n).Nodup := by
  refine List.Nodup.map_on ?_ List.nodup_range
  intro i hi j hj heq
  rw [List.mem_range] at hi hj
  have hnat := congrArg UInt32.toNat heq
  rwa [UInt32.toNat_ofNat_of_lt' (Nat.lt_of_lt_of_le hi h),
    UInt32.toNat_ofNat_of_lt' (Nat.lt_of_lt_of_le hj h)] at hnat

/-- Reading every position gives the list back. -/
theorem map_positions {kvs : List Bytes} (h : kvs.length ≤ 2 ^ 32) :
    (positions kvs.length).map (fun i => kvs[i.toNat]?.getD []) = kvs := by
  rw [positions, List.map_map]
  refine List.ext_getElem (by simp) fun i _ hi => ?_
  rw [List.getElem_map, List.getElem_range, Function.comp,
    UInt32.toNat_ofNat_of_lt' (Nat.lt_of_lt_of_le hi h), List.getElem?_eq_getElem hi,
    Option.getD_some]

theorem map_idx_entries (kvs : List Bytes) (target : Int32) :
    (kvs.zipIdx.map fun e => sortEntry target e.1 e.2).map (·.idx) = positions kvs.length := by
  rw [List.map_map, positions, List.range_eq_range', ← List.zipIdx_map_snd 0 kvs, List.map_map]
  exact List.map_congr_left fun e _ => idx_sortEntry target e.1 e.2

/-- The positions a sort visits, before a limit cuts them. -/
theorem sorted_positions (kvs : List Bytes) (descending : Bool) (target : Int32) :
    ((sortEntries descending (kvs.zipIdx.map fun e => sortEntry target e.1 e.2)).map (·.idx)).Perm
      (positions kvs.length) := by
  rw [← map_idx_entries kvs target]
  exact (List.perm_insertionSort _ _).map _

/-- Reading some of the sorted positions. -/
theorem takeInOrder_sorted {kvs : List Bytes} (hlen : kvs.length ≤ 2 ^ 32) {descending : Bool}
    {target : Int32} {kept : List SortEntry}
    (hkept : kept.Sublist
      (sortEntries descending (kvs.zipIdx.map fun e => sortEntry target e.1 e.2))) :
    takeInOrder kvs (kept.map (·.idx)) = (kept.map (·.idx)).map fun i => kvs[i.toNat]?.getD [] := by
  refine takeInOrder_eq_map (List.Nodup.sublist (hkept.map _) ?_)
  exact (sorted_positions kvs descending target).nodup_iff.mpr (nodup_positions hlen)

/-- Sorting, with a limit or without one, answers with blobs it was given. -/
theorem mem_of_mem_sortKvs {kvs : List Bytes} (hlen : kvs.length ≤ 2 ^ 32) {order target : Int32}
    {limit : Nat} {kv : Bytes} (h : kv ∈ sortKvs kvs order target limit) : kv ∈ kvs := by
  have hkept : ∀ {descending : Bool} {kept : List SortEntry}, kept.Sublist
      (sortEntries descending (kvs.zipIdx.map fun e => sortEntry target e.1 e.2)) →
        kv ∈ takeInOrder kvs (kept.map (·.idx)) → kv ∈ kvs := by
    intro descending kept hsub hkv
    rw [takeInOrder_sorted hlen hsub] at hkv
    have hperm := (sorted_positions kvs descending target).map fun i => kvs[i.toNat]?.getD []
    rw [map_positions hlen] at hperm
    exact hperm.mem_iff.mp (((hsub.map _).map _).subset hkv)
  unfold sortKvs at h
  split at h
  · exact h
  · split at h
    · split at h
      · exact List.mem_reverse.mp h
      · exact h
    · split at h
      · exact h
      · dsimp only at h
        split at h
        · exact hkept (List.take_sublist _ _) h
        · exact hkept (List.Sublist.refl _) h

/-- Without a limit, or with one that is far away, sorting only rearranges. -/
theorem sortKvs_perm {kvs : List Bytes} (hlen : kvs.length ≤ 2 ^ 32) (order target : Int32)
    {limit : Nat} (hlimit : limit = 0 ∨ 2 ^ 32 < limit) :
    (sortKvs kvs order target limit).Perm kvs := by
  unfold sortKvs
  split
  · exact .refl _
  · split
    · split
      · exact List.reverse_perm kvs
      · exact .refl _
    · split
      · exact .refl _
      · have hcut : ¬ (limit > 0 ∧ min (limit * 64) (2 ^ 64 - 1)
            ≤ (kvs.zipIdx.map fun e => sortEntry target e.1 e.2).length) := by
          rw [List.length_map, List.length_zipIdx]
          omega
        simp only [if_neg hcut]
        rw [takeInOrder_sorted hlen (List.Sublist.refl _)]
        have hperm := (sorted_positions kvs (decide (order = 2)) target).map
          fun i => kvs[i.toNat]?.getD []
        rwa [map_positions hlen] at hperm

/-! ### The merge -/

/-- Every entry of the map has the property. -/
def AllEntries (P : Bytes → Bytes → Prop) (m : ExtTreeMap Bytes Bytes) : Prop :=
  ∀ key kv, m[key]? = some kv → P key kv

theorem AllEntries.insert {P : Bytes → Bytes → Prop} {m : ExtTreeMap Bytes Bytes}
    (h : AllEntries P m) {key kv : Bytes} (hkv : P key kv) : AllEntries P (m.insert key kv) := by
  intro key' kv' hget
  rw [ExtTreeMap.getElem?_insert] at hget
  split at hget
  · next heq =>
      obtain rfl := Std.LawfulEqCmp.eq_of_compare heq
      cases hget
      exact hkv
  · exact h key' kv' hget

theorem AllEntries.foldl {α : Type} {P : Bytes → Bytes → Prop}
    {f : ExtTreeMap Bytes Bytes → α → ExtTreeMap Bytes Bytes} {l : List α}
    (hf : ∀ m, ∀ a ∈ l, AllEntries P m → AllEntries P (f m a)) {m : ExtTreeMap Bytes Bytes}
    (h : AllEntries P m) : AllEntries P (l.foldl f m) := by
  induction l generalizing m with
  | nil => exact h
  | cons a l ih =>
      exact ih (fun m b hb => hf m b (by simp [hb])) (hf m a (by simp) h)

/-- `keys_only` blobs do not depend on what they are made from. -/
theorem responseKv_idem (req : RangeRequest) (key blob : Bytes) :
    responseKv req key (responseKv req key blob) = responseKv req key blob := by
  unfold responseKv
  split <;> rfl

theorem mergeStale_all {P : Bytes → Bytes → Prop} {s : StoreState} {req : RangeRequest}
    {walState m : ExtTreeMap Bytes Bytes} {key : Bytes} (h : AllEntries P m)
    (hwal : ∀ blob, walState[key]? = some blob → P key (responseKv req key blob))
    (hcurrent : ∀ ks, walState[key]? = none → s.alive? key = some ks →
      P key (responseKv req key ks.kvBytes)) :
    AllEntries P (mergeStale s req walState m key) := by
  unfold mergeStale
  cases hget : walState[key]? with
  | some blob =>
      have hins := h.insert (hwal blob hget)
      simp only [ExtTreeMap.contains_insert_self, if_true]
      exact hins
  | none =>
      dsimp only
      split
      · exact h
      · split
        · next ks hks => exact h.insert (hcurrent ks hget hks)
        · exact h

/-- **What the merge may insert**: the direct keys, the stale keys as the WAL has them or, when
it does not, as they are now, and whatever else the WAL has in the range. -/
theorem historicalMerge_all {P : Bytes → Bytes → Prop} {s : StoreState} {req : RangeRequest}
    {direct : List (Bytes × Bytes)} {stale : List Bytes} {walState : ExtTreeMap Bytes Bytes}
    (hdirect : ∀ e ∈ direct, P e.1 (responseKv req e.1 e.2))
    (hwal : ∀ key blob, walState[key]? = some blob → P key (responseKv req key blob))
    (hcurrent : ∀ key ∈ stale, ∀ ks, walState[key]? = none → s.alive? key = some ks →
      P key (responseKv req key ks.kvBytes)) :
    AllEntries P (historicalMerge s req direct stale walState) := by
  have hempty : AllEntries P ∅ := by
    intro key kv hget
    simp at hget
  refine AllEntries.foldl ?_ (AllEntries.foldl ?_ (AllEntries.foldl ?_ hempty))
  · intro m e he hm
    unfold mergeRest
    split
    · exact hm
    · split
      · exact hm
      · exact hm.insert (hwal e.1 e.2 (ExtTreeMap.mem_toList_iff_getElem?_eq_some.mp he))
  · intro m key hkey hm
    exact mergeStale_all hm (hwal key) (hcurrent key hkey)
  · intro m e he hm
    exact hm.insert (hdirect e he)

theorem contains_mergeRest_self {req : RangeRequest} {m : ExtTreeMap Bytes Bytes}
    {e : Bytes × Bytes} (h : matchesRange (resolveRange req.key req.rangeEnd) e.1 = true) :
    (mergeRest req m e).contains e.1 = true := by
  unfold mergeRest
  split
  · assumption
  · rw [h]
    simp

theorem contains_mergeRest {req : RangeRequest} {m : ExtTreeMap Bytes Bytes} {key : Bytes}
    (h : m.contains key = true) (e : Bytes × Bytes) : (mergeRest req m e).contains key = true := by
  unfold mergeRest
  split
  · exact h
  · split
    · exact h
    · rw [ExtTreeMap.contains_insert, h, Bool.or_true]

theorem contains_mergeStale_self {s : StoreState} {req : RangeRequest}
    {walState m : ExtTreeMap Bytes Bytes} {key : Bytes} {ks : KeyState}
    (h : s.alive? key = some ks) : (mergeStale s req walState m key).contains key = true := by
  unfold mergeStale
  dsimp only
  split
  · simp
  · split
    · assumption
    · rw [h]
      simp

theorem contains_mergeStale {s : StoreState} {req : RangeRequest}
    {walState m : ExtTreeMap Bytes Bytes} {key : Bytes} (h : m.contains key = true)
    (key' : Bytes) : (mergeStale s req walState m key').contains key = true := by
  have hins : ∀ blob, (m.insert key' blob).contains key = true := by
    intro blob
    rw [ExtTreeMap.contains_insert, h, Bool.or_true]
  unfold mergeStale
  dsimp only
  split
  · simp [hins]
  · split
    · exact h
    · split
      · exact hins _
      · exact h

/-- A key that a round of a fold puts into the map, and that no round removes, is in it. -/
theorem contains_foldl {κ β α : Type} {cmp : κ → κ → Ordering} [Std.TransCmp cmp]
    {f : ExtTreeMap κ β cmp → α → ExtTreeMap κ β cmp} {key : κ}
    (hkeep : ∀ m a, m.contains key = true → (f m a).contains key = true) {l : List α}
    {m : ExtTreeMap κ β cmp}
    (h : m.contains key = true ∨ ∃ a ∈ l, ∀ m, (f m a).contains key = true) :
    (l.foldl f m).contains key = true := by
  induction l generalizing m with
  | nil => simpa using h
  | cons a l ih =>
      refine ih ?_
      rcases h with h | ⟨b, hb, hput⟩
      · exact .inl (hkeep m a h)
      · rcases List.mem_cons.mp hb with rfl | hb
        · exact .inl (hput m)
        · exact .inr ⟨b, hb, hput⟩

/-- **What the merge cannot miss**: everything the WAL has in the range, and the stale keys that
are alive. -/
theorem contains_historicalMerge {s : StoreState} {req : RangeRequest}
    {direct : List (Bytes × Bytes)} {stale : List Bytes} {walState : ExtTreeMap Bytes Bytes}
    {key : Bytes}
    (h : (∃ blob, walState[key]? = some blob ∧
        matchesRange (resolveRange req.key req.rangeEnd) key = true) ∨
      (key ∈ stale ∧ ∃ ks, s.alive? key = some ks)) :
    (historicalMerge s req direct stale walState).contains key = true := by
  refine contains_foldl (fun m e hm => contains_mergeRest hm e) ?_
  rcases h with ⟨blob, hget, hmatch⟩ | ⟨hstale, ks, hks⟩
  · refine .inr ⟨(key, blob), ExtTreeMap.mem_toList_iff_getElem?_eq_some.mpr hget, ?_⟩
    exact fun m => contains_mergeRest_self hmatch
  · refine .inl (contains_foldl (fun m k hm => contains_mergeStale hm k) (.inr ⟨key, hstale, ?_⟩))
    exact fun m => contains_mergeStale_self hks

theorem exists_mem_toList {m : ExtTreeMap Bytes Bytes} {key : Bytes}
    (h : m.contains key = true) : ∃ kv, (key, kv) ∈ m.toList := by
  rw [ExtTreeMap.contains_eq_isSome_getElem?, Option.isSome_iff_exists] at h
  obtain ⟨kv, hkv⟩ := h
  exact ⟨kv, ExtTreeMap.mem_toList_iff_getElem?_eq_some.mpr hkv⟩

/-- A map whose keys are all in another one is no larger. -/
theorem length_toList_le {β : Type} {m : ExtTreeMap Bytes Bytes} {m' : ExtTreeMap Bytes β}
    (h : AllEntries (fun key _ => key ∈ m') m) : m.toList.length ≤ m'.size := by
  have hnodup : (m.toList.map (·.1)).Nodup := nodup_keys_of_sublist (List.Sublist.refl _)
  have hsub : m.toList.map (·.1) ⊆ m'.keys := by
    intro key hkey
    obtain ⟨e, he, rfl⟩ := List.mem_map.mp hkey
    rw [ExtTreeMap.mem_keys]
    exact h e.1 e.2 (ExtTreeMap.mem_toList_iff_getElem?_eq_some.mp he)
  have hlen := (List.subperm_of_subset hnodup hsub).length_le
  rwa [List.length_map, ExtTreeMap.length_keys] at hlen

/-! ### Phase 1 -/

/-- The keys of the range that phase 1 puts in a class. -/
def classified (s : StoreState) (req : RangeRequest) (targetRev : UInt64) (c : Phase1) :
    List (Bytes × KeyState) :=
  (s.keys.toList.filter fun e => matchesRange (resolveRange req.key req.rangeEnd) e.1).filter
    fun e => phase1Classify req targetRev e.2 = c

theorem mem_classified {s : StoreState} {req : RangeRequest} {targetRev : UInt64} {c : Phase1}
    {key : Bytes} {ks : KeyState} :
    (key, ks) ∈ classified s req targetRev c ↔ s.keys[key]? = some ks ∧
      matchesRange (resolveRange req.key req.rangeEnd) key = true ∧
      phase1Classify req targetRev ks = c := by
  simp only [classified, List.mem_filter, ExtTreeMap.mem_toList_iff_getElem?_eq_some,
    decide_eq_true_eq, and_assoc]

theorem length_classified_le (s : StoreState) (req : RangeRequest) (targetRev : UInt64)
    (c : Phase1) : (classified s req targetRev c).length ≤ s.keys.size := by
  rw [← ExtTreeMap.length_toList]
  exact (List.length_filter_le _ _).trans (List.length_filter_le _ _)

/-- Phase 1, unless the range is inverted. -/
theorem historicalPhase1_eq (s : StoreState) {req : RangeRequest} (targetRev : UInt64)
    (h : (resolveRange req.key req.rangeEnd).inverted = false) :
    historicalPhase1 s req targetRev = .ok
      ((classified s req targetRev .direct).map fun e => (e.1, responseKv req e.1 e.2.kvBytes),
        (classified s req targetRev .stale).map (·.1)) := by
  unfold historicalPhase1
  dsimp only
  rw [walkRange_eq_filter s.keys h]
  rfl

/-! ### The answer behind the response -/

section

variable [Crates]

/-- A range that asks for no revision reads the current state. -/
theorem range_eq_current {s : StoreState} {req : RangeRequest} (hkey : req.key ≠ [])
    (hrev : ¬ req.revision > 0) : range s req = rangeCurrent s req := by
  have hfuture : ¬ (0 : UInt64) > s.currentRevision := UInt64.not_lt.mpr UInt64.zero_le
  have hzero : ¬ (0 : UInt64) > 0 := UInt64.lt_irrefl 0
  simp only [range, checkKey, hkey, if_false, if_neg hrev, if_neg hfuture, if_neg hzero]
  rfl

/-- A range at a revision that was reached and not compacted reads history. -/
theorem range_eq_historical {s : StoreState} {req : RangeRequest} (hkey : req.key ≠ [])
    (hrev : 0 < req.revision) (hcompacted : s.compactRev ≤ req.revision.toUInt64)
    (hreached : req.revision.toUInt64 ≤ s.currentRevision) :
    range s req = rangeHistorical s req req.revision.toUInt64 := by
  have hpos : req.revision.toUInt64 > 0 := by
    rw [gt_iff_lt, UInt64.pos_iff_ne_zero]
    intro hzero
    have := congrArg UInt64.toInt64 hzero
    rw [Int64.toInt64_toUInt64] at this
    exact absurd hrev (this ▸ Int64.lt_irrefl)
  have hreached : ¬ req.revision.toUInt64 > s.currentRevision := UInt64.not_lt.mpr hreached
  have hcompacted : ¬ (req.revision.toUInt64 > 0 ∧ req.revision.toUInt64 < s.compactRev) :=
    fun hc => UInt64.not_lt.mpr hcompacted hc.2
  simp only [range, checkKey, hkey, if_false, if_pos hrev, if_neg hreached, if_neg hcompacted,
    if_pos hpos]
  rfl

/-- The keys and blobs a historical range answers with, before sorting and limits. -/
def historicalEntries (s : StoreState) (req : RangeRequest) (targetRev : UInt64) :
    Except Failure (List (Bytes × Bytes)) := do
  let (direct, stale) ← historicalPhase1 s req targetRev
  if stale = [] then return direct
  match scanWalRange s.wal.contents req.key req.rangeEnd targetRev with
  | .error e => throw (.status .internal ("wal scan failed: " ++ e.message))
  | .ok walState => return (historicalMerge s req direct stale walState).toList

/-- **The response is made of the entries**: of some of them in any case, and of all of them,
rearranged, without `count_only` and without a limit. -/
theorem rangeHistorical_of_entries {s : StoreState} {req : RangeRequest} {targetRev : UInt64}
    {es : List (Bytes × Bytes)} (h : historicalEntries s req targetRev = .ok es)
    (hlen : es.length ≤ 2 ^ 32) :
    ∃ resp, rangeHistorical s req targetRev = .ok resp ∧
      (∀ kv ∈ resp.kvs, kv ∈ es.map (·.2)) ∧
      (req.countOnly = false → req.limit ≤ 0 → resp.kvs.Perm (es.map (·.2))) := by
  have hlen' : (es.map (·.2)).length ≤ 2 ^ 32 := by rwa [List.length_map]
  unfold historicalEntries at h
  unfold rangeHistorical
  cases hphase : historicalPhase1 s req targetRev with
  | error e =>
      rw [hphase] at h
      cases h
  | ok found =>
      obtain ⟨direct, stale⟩ := found
      rw [hphase] at h
      simp only [bind, Except.bind] at h ⊢
      -- without stale keys the memory answers, and sorts before it cuts off
      by_cases hstale : stale = []
      · rw [if_pos hstale] at h ⊢
        cases h
        by_cases hcount : req.countOnly
        · rw [if_pos hcount]
          exact ⟨_, rfl, by simp, by simp [hcount]⟩
        · rw [if_neg hcount]
          refine ⟨_, rfl, ?_, ?_⟩
          · intro kv hkv
            dsimp only at hkv
            split at hkv
            · exact mem_of_mem_sortKvs hlen' (List.mem_of_mem_take hkv)
            · exact mem_of_mem_sortKvs hlen' hkv
          · intro _ hlimit
            have hnone : ¬ req.limit > 0 := Int64.not_lt.mpr hlimit
            simp only [hnone, decide_false, Bool.false_and, Bool.false_eq_true, if_false]
            exact sortKvs_perm hlen' _ _ (.inl rfl)
      · rw [if_neg hstale] at h ⊢
        cases hscan : scanWalRange s.wal.contents req.key req.rangeEnd targetRev with
        | error e =>
            rw [hscan] at h
            cases h
        | ok walState =>
            rw [hscan] at h
            cases h
            dsimp only
            by_cases hcount : req.countOnly
            · rw [if_pos hcount]
              exact ⟨_, rfl, by simp, by simp [hcount]⟩
            · rw [if_neg hcount]
              refine ⟨_, rfl, ?_, ?_⟩
              · intro kv hkv
                exact mem_of_mem_sortKvs hlen' (List.mem_of_mem_take hkv)
              · intro _ hlimit
                have hnone : ¬ req.limit > 0 := Int64.not_lt.mpr hlimit
                simp only [hnone, if_false]
                -- the merged answer is sorted with no limit, so the sort keeps every pair
                have hperm := sortKvs_perm hlen' req.sortOrder req.sortTarget
                  (.inr (by decide : 2 ^ 32 < 2 ^ 64 - 1))
                rwa [List.take_of_length_le (by rw [hperm.length_eq]; omega)]

end

end Rudurru
