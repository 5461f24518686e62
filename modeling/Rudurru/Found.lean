import Rudurru.History
import Rudurru.Storage.Pages
import Rudurru.Txn.Backwards

/-!
# Rudurru.Found

What a historical range finds, key by key. Phase 1 puts every key in a class, and the class says
what is found for it (`pairAt`): the stored blob, the blob that the WAL has or failing that the
stored one, or, if phase 1 skips the key, what the WAL has as long as another key makes the range
read it. Two states that find the same for every key answer the same (`historicalPairs_congr`).

The merge is a chain of insertions into a map; here it is read off at one key
(`getElem?_historicalMerge`). The order of the insertions decides which of them wins, so the class
of a key is enough to know what is found for it, apart from one bit that concerns all keys of the
range: whether any of them made the range read the WAL.
-/

namespace Rudurru

open Std (ExtTreeMap)

section

variable [Crates]

/-! ### The merge -/

omit [Crates] in
theorem lookup_eq_some_iff_mem {β : Type} {l : List (Bytes × β)} (h : (l.map (·.1)).Nodup)
    {key : Bytes} {b : β} : l.lookup key = some b ↔ (key, b) ∈ l := by
  induction l with
  | nil => simp
  | cons e l ih =>
      obtain ⟨k, b'⟩ := e
      rw [List.map_cons, List.nodup_cons] at h
      rw [List.lookup_cons, List.mem_cons]
      by_cases hk : key = k
      · subst hk
        have hnot : (key, b) ∉ l := fun hmem => h.1 (List.mem_map_of_mem (f := (·.1)) hmem)
        simp [hnot, eq_comm]
      · rw [show (key == k) = false from beq_false_of_ne hk]
        simp [hk, ih h.2]

omit [Crates] in
theorem lookup_eq_none_of_not_mem {β : Type} {l : List (Bytes × β)} {key : Bytes}
    (h : key ∉ l.map (·.1)) : l.lookup key = none := by
  rw [List.lookup_eq_none_iff]
  intro e he
  rw [bne_iff_ne]
  rintro rfl
  exact h (List.mem_map_of_mem he)

omit [Crates] in
theorem lookup_toList {β : Type} (m : ExtTreeMap Bytes β) (key : Bytes) :
    m.toList.lookup key = m[key]? := by
  refine Option.ext fun b => ?_
  rw [lookup_eq_some_iff_mem (nodup_keys_of_sublist (List.Sublist.refl _)),
    ExtTreeMap.mem_toList_iff_getElem?_eq_some]

omit [Crates] in
/-- The direct keys. -/
theorem getElem?_foldl_insert {l : List (Bytes × Bytes)} (h : (l.map (·.1)).Nodup)
    (m : ExtTreeMap Bytes Bytes) (key : Bytes) :
    (l.foldl (fun m e => m.insert e.1 e.2) m)[key]? = (l.lookup key).or m[key]? := by
  induction l generalizing m with
  | nil => rfl
  | cons e l ih =>
      obtain ⟨k, b⟩ := e
      rw [List.map_cons, List.nodup_cons] at h
      rw [List.foldl_cons, ih h.2, ExtTreeMap.getElem?_insert, List.lookup_cons]
      by_cases hk : k = key
      · subst hk
        simp [lookup_eq_none_of_not_mem h.1]
      · rw [if_neg (by simpa using hk), show (key == k) = false from beq_false_of_ne (Ne.symm hk)]

omit [Crates] in
/-- One stale key. -/
theorem getElem?_mergeStale (s : StoreState) (req : RangeRequest)
    (walState m : ExtTreeMap Bytes Bytes) (k key : Bytes) :
    (mergeStale s req.plain walState m k)[key]? = if k = key
      then walState[key]?.or (m[key]?.or ((s.alive? key).map KeyState.kvBytes)) else m[key]? := by
  unfold mergeStale
  simp only [responseKv_plain]
  by_cases hk : k = key
  · subst hk
    rw [if_pos rfl]
    cases walState[k]? with
    | some blob => simp
    | none =>
        simp only [Option.none_or, ExtTreeMap.contains_eq_isSome_getElem?]
        cases hm : m[k]? with
        | some b => simp [hm]
        | none => cases s.alive? k <;> simp [hm]
  · have hinsert : ∀ (m : ExtTreeMap Bytes Bytes) blob, (m.insert k blob)[key]? = m[key]? := by
      intro m blob
      rw [ExtTreeMap.getElem?_insert, if_neg (by simpa using hk)]
    rw [if_neg hk]
    cases walState[k]? with
    | some blob => simp [hinsert]
    | none =>
        dsimp only
        split
        · rfl
        · split
          · exact hinsert ..
          · rfl

omit [Crates] in
/-- All stale keys. -/
theorem getElem?_foldl_mergeStale (s : StoreState) (req : RangeRequest)
    (walState : ExtTreeMap Bytes Bytes) (stale : List Bytes) (m : ExtTreeMap Bytes Bytes)
    (key : Bytes) :
    (stale.foldl (mergeStale s req.plain walState) m)[key]? = if key ∈ stale
      then walState[key]?.or (m[key]?.or ((s.alive? key).map KeyState.kvBytes)) else m[key]? := by
  induction stale generalizing m with
  | nil => simp
  | cons k stale ih =>
      rw [List.foldl_cons, ih, getElem?_mergeStale]
      by_cases hk : k = key
      · subst hk
        rw [if_pos rfl, if_pos List.mem_cons_self]
        split
        · cases walState[k]? <;> cases m[k]? <;> cases s.alive? k <;> rfl
        · rfl
      · rw [if_neg hk]
        simp [Ne.symm hk]

omit [Crates] in
/-- One key of the WAL. -/
theorem getElem?_mergeRest (req : RangeRequest) (m : ExtTreeMap Bytes Bytes) (e : Bytes × Bytes)
    (key : Bytes) :
    (mergeRest req.plain m e)[key]? = if e.1 = key
      then m[key]?.or (if matchesRange (resolveRange req.key req.rangeEnd) key then some e.2
        else none) else m[key]? := by
  unfold mergeRest
  have hmatches : matchesRange (resolveRange req.plain.key req.plain.rangeEnd) e.1
      = matchesRange (resolveRange req.key req.rangeEnd) e.1 := rfl
  rw [hmatches, responseKv_plain, ExtTreeMap.contains_eq_isSome_getElem?]
  by_cases hk : e.1 = key
  · rw [hk, if_pos rfl]
    cases hm : m[key]? with
    | some b => simp [hm]
    | none => cases matchesRange (resolveRange req.key req.rangeEnd) key <;> simp [hm]
  · rw [if_neg hk]
    split
    · rfl
    · split
      · rfl
      · rw [ExtTreeMap.getElem?_insert, if_neg (by simpa using hk)]

omit [Crates] in
/-- The rest of the WAL. -/
theorem getElem?_foldl_mergeRest (req : RangeRequest) {l : List (Bytes × Bytes)}
    (h : (l.map (·.1)).Nodup) (m : ExtTreeMap Bytes Bytes) (key : Bytes) :
    (l.foldl (mergeRest req.plain) m)[key]? = m[key]?.or
      (if matchesRange (resolveRange req.key req.rangeEnd) key then l.lookup key else none) := by
  induction l generalizing m with
  | nil => simp
  | cons e l ih =>
      obtain ⟨k, b⟩ := e
      rw [List.map_cons, List.nodup_cons] at h
      rw [List.foldl_cons, ih h.2, getElem?_mergeRest, List.lookup_cons]
      by_cases hk : k = key
      · subst hk
        rw [if_pos rfl, lookup_eq_none_of_not_mem h.1]
        simp
      · rw [if_neg hk, show (key == k) = false from beq_false_of_ne (Ne.symm hk)]

omit [Crates] in
/-- **The merge, key by key**: stale keys from the WAL if it has them; then the direct keys; then
whatever else the WAL has in the range. -/
theorem getElem?_historicalMerge (s : StoreState) (req : RangeRequest)
    {direct : List (Bytes × Bytes)} (h : (direct.map (·.1)).Nodup) (stale : List Bytes)
    (walState : ExtTreeMap Bytes Bytes) (key : Bytes) :
    (historicalMerge s req.plain direct stale walState)[key]? =
      (if key ∈ stale
        then walState[key]?.or ((direct.lookup key).or ((s.alive? key).map KeyState.kvBytes))
        else direct.lookup key).or
      (if matchesRange (resolveRange req.key req.rangeEnd) key then walState[key]? else none) := by
  unfold historicalMerge
  dsimp only
  simp only [responseKv_plain]
  rw [getElem?_foldl_mergeRest _ (nodup_keys_of_sublist (List.Sublist.refl _)), lookup_toList,
    getElem?_foldl_mergeStale, getElem?_foldl_insert h]
  simp

/-! ### Classes -/

/-- Where phase 1 puts a key. -/
def StoreState.phase1 (s : StoreState) (req : RangeRequest) (r : UInt64) (key : Bytes) : Phase1 :=
  match s.keys[key]? with
  | some ks => phase1Classify req r ks
  | none => .skip

/-- What a historical range finds for a key of the range, given what the WAL has. -/
def StoreState.pairAt (s : StoreState) (req : RangeRequest) (r : UInt64)
    (walState : ExtTreeMap Bytes Bytes) (key : Bytes) : Option Bytes :=
  match s.phase1 req r key with
  | .direct => s.keys[key]?.map KeyState.kvBytes
  | .stale => walState[key]?.or ((s.alive? key).map KeyState.kvBytes)
  | .skip => if classified s req r .stale = [] then none else walState[key]?

/-- The direct keys with their blobs. -/
def directPairs (s : StoreState) (req : RangeRequest) (r : UInt64) : List (Bytes × Bytes) :=
  (classified s req r .direct).map fun e => (e.1, e.2.kvBytes)

/-- The stale keys. -/
def staleKeys (s : StoreState) (req : RangeRequest) (r : UInt64) : List Bytes :=
  (classified s req r .stale).map (·.1)

variable {s : StoreState} {req : RangeRequest} {r : UInt64} {key : Bytes}

omit [Crates] in
theorem mem_directPairs {b : Bytes} : (key, b) ∈ directPairs s req r ↔
    matchesRange (resolveRange req.key req.rangeEnd) key = true ∧ s.phase1 req r key = .direct ∧
      s.keys[key]?.map KeyState.kvBytes = some b := by
  unfold directPairs StoreState.phase1
  rw [List.mem_map]
  constructor
  · intro h
    obtain ⟨e, he, heq⟩ := h
    cases heq
    obtain ⟨hget, hmatch, hclass⟩ := mem_classified.mp he
    rw [hget]
    exact ⟨hmatch, hclass, rfl⟩
  · intro h
    obtain ⟨hmatch, hclass, hblob⟩ := h
    obtain ⟨ks, hget, rfl⟩ := Option.map_eq_some_iff.mp hblob
    rw [hget] at hclass
    exact ⟨(key, ks), mem_classified.mpr ⟨hget, hmatch, hclass⟩, rfl⟩

omit [Crates] in
theorem mem_staleKeys : key ∈ staleKeys s req r ↔
    matchesRange (resolveRange req.key req.rangeEnd) key = true ∧ s.phase1 req r key = .stale := by
  unfold staleKeys StoreState.phase1
  rw [List.mem_map]
  constructor
  · intro h
    obtain ⟨e, he, rfl⟩ := h
    obtain ⟨hget, hmatch, hclass⟩ := mem_classified.mp he
    rw [hget]
    exact ⟨hmatch, hclass⟩
  · intro h
    obtain ⟨hmatch, hclass⟩ := h
    cases hget : s.keys[key]? with
    | none =>
        rw [hget] at hclass
        cases hclass
    | some ks =>
        rw [hget] at hclass
        exact ⟨(key, ks), mem_classified.mpr ⟨hget, hmatch, hclass⟩, rfl⟩

omit [Crates] in
theorem classified_sublist (c : Phase1) : (classified s req r c).Sublist s.keys.toList :=
  List.filter_sublist.trans List.filter_sublist

omit [Crates] in
theorem nodup_directPairs : ((directPairs s req r).map (·.1)).Nodup := by
  rw [directPairs, List.map_map]
  exact nodup_keys_of_sublist (classified_sublist .direct)

omit [Crates] in
theorem lookup_directPairs (hmatch : matchesRange (resolveRange req.key req.rangeEnd) key = true) :
    (directPairs s req r).lookup key = if s.phase1 req r key = .direct
      then s.keys[key]?.map KeyState.kvBytes else none := by
  refine Option.ext fun b => ?_
  rw [lookup_eq_some_iff_mem nodup_directPairs, mem_directPairs]
  split
  · next hclass => simp [hmatch, hclass]
  · next hclass => simp [hclass]

omit [Crates] in
/-- **What the merge has for a key.** -/
theorem getElem?_merged {walState : ExtTreeMap Bytes Bytes}
    (hmatch : matchesRange (resolveRange req.key req.rangeEnd) key = true)
    (hstale : classified s req r .stale ≠ []) :
    (historicalMerge s req.plain (directPairs s req r) (staleKeys s req r) walState)[key]?
      = s.pairAt req r walState key := by
  rw [getElem?_historicalMerge s req nodup_directPairs, if_pos hmatch,
    lookup_directPairs hmatch, StoreState.pairAt]
  simp only [mem_staleKeys, hmatch, true_and]
  cases hclass : s.phase1 req r key with
  | direct =>
      cases hget : s.keys[key]? with
      | none =>
          rw [StoreState.phase1, hget] at hclass
          cases hclass
      | some ks => simp
  | stale =>
      cases walState[key]? <;> cases s.alive? key <;> simp
  | skip => simp [hstale]

/-! ### Two states that find the same -/

/-- **What is found**, unless the range is inverted or the scan fails. -/
theorem historicalPairs_eq {walState : ExtTreeMap Bytes Bytes}
    (hbound : (resolveRange req.key req.rangeEnd).inverted = false)
    (hscan : scanWalRange s.wal.contents req.key req.rangeEnd r = .ok walState) :
    historicalPairs s req r = .ok (if classified s req r .stale = [] then directPairs s req r
      else (historicalMerge s req.plain (directPairs s req r) (staleKeys s req r)
        walState).toList) := by
  have hphase : historicalPhase1 s req.plain r = .ok (directPairs s req r, staleKeys s req r) :=
    historicalPhase1_eq s r hbound
  have hscan : scanWalRange s.wal.contents req.plain.key req.plain.rangeEnd r = .ok walState :=
    hscan
  have hnil : staleKeys s req r = [] ↔ classified s req r .stale = [] := List.map_eq_nil_iff
  unfold historicalPairs historicalEntries
  rw [hphase]
  simp only [bind, Except.bind, hscan, hnil]
  split <;> rfl

/-- **The pairs found are those of the keys.** -/
theorem mem_historicalPairs {walState : ExtTreeMap Bytes Bytes} {pairs : List (Bytes × Bytes)}
    (hbound : (resolveRange req.key req.rangeEnd).inverted = false)
    (hscan : scanWalRange s.wal.contents req.key req.rangeEnd r = .ok walState)
    (hpairs : historicalPairs s req r = .ok pairs) {b : Bytes} :
    (key, b) ∈ pairs ↔ matchesRange (resolveRange req.key req.rangeEnd) key = true ∧
      s.pairAt req r walState key = some b := by
  rw [historicalPairs_eq hbound hscan] at hpairs
  cases hpairs
  by_cases hstale : classified s req r .stale = []
  · rw [if_pos hstale, mem_directPairs]
    refine and_congr_right fun hmatch => ?_
    have hnot : s.phase1 req r key ≠ .stale := by
      intro hclass
      have := mem_staleKeys.mpr ⟨hmatch, hclass⟩
      rw [staleKeys, hstale] at this
      cases this
    rw [StoreState.pairAt]
    cases hclass : s.phase1 req r key with
    | direct => simp
    | stale => exact absurd hclass hnot
    | skip => simp [hstale]
  · rw [if_neg hstale, ExtTreeMap.mem_toList_iff_getElem?_eq_some]
    by_cases hmatch : matchesRange (resolveRange req.key req.rangeEnd) key = true
    · rw [getElem?_merged hmatch hstale]
      simp [hmatch]
    · have hnone : key ∉ staleKeys s req r := fun h => hmatch (mem_staleKeys.mp h).1
      have hlookup : (directPairs s req r).lookup key = none := by
        refine lookup_eq_none_of_not_mem ?_
        intro h
        obtain ⟨e, he, rfl⟩ := List.mem_map.mp h
        exact hmatch (mem_directPairs.mp he).1
      rw [getElem?_historicalMerge s req nodup_directPairs, if_neg hnone, if_neg hmatch, hlookup]
      simp [hmatch]

theorem ascending_historicalPairs {walState : ExtTreeMap Bytes Bytes}
    {pairs : List (Bytes × Bytes)}
    (hbound : (resolveRange req.key req.rangeEnd).inverted = false)
    (hscan : scanWalRange s.wal.contents req.key req.rangeEnd r = .ok walState)
    (hpairs : historicalPairs s req r = .ok pairs) :
    pairs.Pairwise fun a b => bytesLt a.1 b.1 = true := by
  rw [historicalPairs_eq hbound hscan] at hpairs
  cases hpairs
  split
  · exact List.pairwise_map.mpr ((pairwise_toList s.keys).sublist (classified_sublist .direct))
  · exact pairwise_toList _

/-- **The same for every key is the same in all.** Both lists are in the order of the keys, so they
are equal if they have the same members. -/
theorem historicalPairs_congr {t : StoreState} {walState : ExtTreeMap Bytes Bytes}
    (hscan : scanWalRange s.wal.contents req.key req.rangeEnd r = .ok walState)
    (hscan' : scanWalRange t.wal.contents req.key req.rangeEnd r = .ok walState)
    (h : ∀ key, matchesRange (resolveRange req.key req.rangeEnd) key = true →
      t.pairAt req r walState key = s.pairAt req r walState key) :
    historicalPairs t req r = historicalPairs s req r := by
  by_cases hbound : (resolveRange req.key req.rangeEnd).inverted = false
  · have hs := historicalPairs_eq hbound hscan
    have ht := historicalPairs_eq hbound hscan'
    have hmem : ∀ e, e ∈ (if classified t req r .stale = [] then directPairs t req r
        else (historicalMerge t req.plain (directPairs t req r) (staleKeys t req r)
          walState).toList) ↔
        e ∈ (if classified s req r .stale = [] then directPairs s req r
        else (historicalMerge s req.plain (directPairs s req r) (staleKeys s req r)
          walState).toList) := by
      intro e
      obtain ⟨k, b⟩ := e
      rw [mem_historicalPairs hbound hscan' ht, mem_historicalPairs hbound hscan hs]
      refine and_congr_right fun hmatch => ?_
      rw [h k hmatch]
    -- in ascending order the pairs are determined by which there are
    have hascend := ascending_historicalPairs hbound hscan hs
    have hascend' := ascending_historicalPairs hbound hscan' ht
    rw [hs, ht]
    exact congrArg Except.ok (eq_of_ascending hascend' hascend hmem)
  · have hinv := Bool.eq_true_of_not_eq_false hbound
    -- on an inverted range both walks panic
    have hpanic : ∀ u : StoreState, historicalPairs u req r = .error rangePanic := by
      intro u
      have hwalk : walkRange u.keys (resolveRange req.plain.key req.plain.rangeEnd)
          (btreeBounds (resolveRange req.plain.key req.plain.rangeEnd)) = .error rangePanic :=
        (walkRange_eq_rangePanic u.keys _).mpr hinv
      unfold historicalPairs historicalEntries historicalPhase1
      dsimp only
      rw [hwalk]
      rfl
    rw [hpanic, hpanic]

end

end Rudurru
