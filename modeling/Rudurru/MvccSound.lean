import Rudurru.Compaction
import Rudurru.Mvcc

/-!
# Rudurru.MvccSound

The store refines `Mvcc`. `StoreState.mvcc` is what a store is for its clients, and `Clean` what
makes it one: the blobs it answers with are those of its pairs. Put and delete are compared as
functions (`putAt_mvcc`, `deleteRangeAt_mvcc`), and whatever is built from them by the rules of
`Prog.Refines`.

The comparison goes along the code. Reading comes first: the same keys are found, the same guards
hold, the same checks pass. Then the two operations that write at a given revision, each of which
leaves a store whose image is the one that the abstract operation computes (`Stepped`). A
transaction takes its revision at its first write, so its ops are compared under `Underway`, which
says of a cursor that it has taken the revision or that the revision is still the next one.
Everything else is put together by the rules of `Prog.Refines`, one step on either side or on both.

The store may panic where the abstract one answers; nothing is claimed of a run that does.
-/

namespace Rudurru

open Std (ExtTreeMap)
open Prog (exec Refines)

/-! ### The abstraction

The image of a store forgets tombstones, the count, the blobs, the file and the watchers. `Clean` is
what has to hold of the forgotten parts for the image to make sense.
-/

def KeyState.pair (ks : KeyState) : Pair where
  value := ks.value
  createRevision := ks.createRevision
  modRevision := ks.modRevision
  version := ks.version
  lease := ks.lease

/-- The alive pairs of a store. -/
def StoreState.pairs (s : StoreState) : ExtTreeMap Bytes Pair :=
  s.keys.filterMap fun _ ks => if ks.isAlive then some ks.pair else none

/-- The store as its clients see it. -/
def StoreState.mvcc (s : StoreState) : Mvcc where
  revision := s.currentRevision
  pairs := s.pairs
  compacted := s.compactRev
  leases := s.leases
  nextLeaseId := s.nextLeaseId

/-- The counter has not wrapped, appends succeed, and the blob of every alive entry is the encoding
of its pair. -/
structure StoreState.Clean (s : StoreState) : Prop where
  faults : s.wal.faults = []
  nextRev : 0 < s.nextRev.toNat
  blobs : ∀ key ks, s.alive? key = some ks → ks.kvBytes = ks.pair.encode key

theorem StoreState.getElem?_pairs (s : StoreState) (key : Bytes) :
    s.pairs[key]? = (s.alive? key).map KeyState.pair := by
  rw [StoreState.pairs, ExtTreeMap.getElem?_filterMap', StoreState.alive?, aliveIn]
  cases hks : s.keys[key]? with
  | none => rfl
  | some ks => cases halive : ks.isAlive <;> simp [halive, Option.filter]

theorem StoreState.toList_pairs (s : StoreState) :
    s.pairs.toList = (s.keys.toList.filter (·.2.isAlive)).map fun e => (e.1, e.2.pair) := by
  rw [StoreState.pairs, ExtTreeMap.toList_filterMap, ← List.filterMap_eq_map, List.filterMap_filter]
  refine List.filterMap_congr fun e _ => ?_
  cases e.2.isAlive <;> rfl

/-- Pairs are compared key by key. -/
theorem pairs_ext {m m' : ExtTreeMap Bytes Pair} (h : ∀ key : Bytes, m[key]? = m'[key]?) :
    m = m' := ExtTreeMap.ext_getElem? fun key => h key

@[simp] theorem StoreState.pairs_mvcc (s : StoreState) : s.mvcc.pairs = s.pairs := rfl

@[simp] theorem StoreState.leases_mvcc (s : StoreState) : s.mvcc.leases = s.leases := rfl

@[simp] theorem StoreState.revision_mvcc (s : StoreState) : s.mvcc.revision = s.currentRevision :=
  rfl

@[simp] theorem StoreState.header_mvcc (s : StoreState) : s.mvcc.header = s.header := rfl

/-- The next revision is the one after the current one. -/
theorem StoreState.Clean.succ {s : StoreState} (h : 0 < s.nextRev.toNat) :
    s.currentRevision + 1 = s.nextRev := by
  have hnat := toNat_currentRevision h
  refine UInt64.toNat_inj.mp ?_
  rw [UInt64.toNat_add, UInt64.toNat_one, hnat]
  exact Nat.mod_eq_of_lt s.nextRev.toNat_lt

/-- Once the next revision is allocated it is the current one. -/
theorem currentRevision_taken {s : StoreState} (h : s.nextRev.toNat + 1 < 2 ^ 64) :
    { s with nextRev := s.nextRev + 1 }.currentRevision = s.nextRev := by
  have hsucc : (s.nextRev + 1).toNat = s.nextRev.toNat + 1 := by
    rw [UInt64.toNat_add, UInt64.toNat_one]
    omega
  have hnat := toNat_currentRevision (s := { s with nextRev := s.nextRev + 1 })
    (by show 0 < (s.nextRev + 1).toNat; omega)
  refine UInt64.toNat_inj.mp ?_
  have : ({ s with nextRev := s.nextRev + 1 } : StoreState).nextRev.toNat = s.nextRev.toNat + 1 :=
    hsucc
  omega

/-! ### Reading

Guards, checks and ranges look at alive entries only, so they can be read off the image.
-/

theorem holds_mvcc (s : StoreState) : s.mvcc.holds = evalCompare s := by
  funext cmp
  unfold Mvcc.holds evalCompare
  rw [StoreState.pairs_mvcc, StoreState.getElem?_pairs]
  cases s.alive? cmp.key <;> rfl

theorem leaseOf_pair (req : PutRequest) (prev : Option KeyState) :
    Mvcc.leaseOf req (prev.map KeyState.pair) = putLease req prev := by
  unfold Mvcc.leaseOf putLease
  rw [Option.map_map]
  rfl

theorem checkPut_mvcc (req : PutRequest) (s : StoreState) :
    Mvcc.checkPut req s.mvcc = validatePut req s := by
  unfold Mvcc.checkPut validatePut
  simp only [StoreState.pairs_mvcc, StoreState.getElem?_pairs, leaseOf_pair, Option.map_eq_none_iff,
    StoreState.leases_mvcc]

theorem within_mvcc (s : StoreState) (key rangeEnd : Bytes) :
    s.mvcc.within key rangeEnd
      = (s.keys.toList.filter fun e =>
          matchesRange (resolveRange key rangeEnd) e.1 && e.2.isAlive).map
            fun e => (e.1, e.2.pair) := by
  rw [Mvcc.within, StoreState.pairs_mvcc, StoreState.toList_pairs, List.filter_map,
    List.filter_filter]
  rfl

/-- **The current range is the abstract one.** -/
theorem currentPairs_mvcc {s : StoreState} (h : s.Clean) (req : RangeRequest) :
    s.currentPairs req
      = ((s.mvcc.within req.key req.rangeEnd).filter fun e => e.2.passes req).map fun e =>
          (e.1, e.2.encode e.1) := by
  rw [within_mvcc, StoreState.currentPairs, pickCurrent, List.filter_filter, List.filter_map,
    List.filter_filter, List.map_map]
  have hfilter : (s.keys.toList.filter fun e =>
      (e.2.isAlive && passesRevisionFilters req e.2)
        && matchesRange (resolveRange req.key req.rangeEnd) e.1)
      = s.keys.toList.filter fun e => Pair.passes req e.2.pair
        && (matchesRange (resolveRange req.key req.rangeEnd) e.1 && e.2.isAlive) := by
    refine List.filter_congr fun e _ => ?_
    show ((e.2.isAlive && passesRevisionFilters req e.2) && _)
      = (passesRevisionFilters req e.2 && _)
    cases e.2.isAlive <;> cases passesRevisionFilters req e.2 <;>
      cases matchesRange (resolveRange req.key req.rangeEnd) e.1 <;> rfl
  rw [hfilter]
  refine List.map_congr_left fun e he => ?_
  obtain ⟨hmem, hpick⟩ := List.mem_filter.mp he
  simp only [Bool.and_eq_true] at hpick
  have halive : s.alive? e.1 = some e.2 :=
    aliveIn_eq_some.mpr ⟨ExtTreeMap.mem_toList_iff_getElem?_eq_some.mp hmem, hpick.2.2⟩
  exact congrArg (Prod.mk e.1) (h.blobs e.1 e.2 halive)

theorem reserve_cases (s : StoreState) (req : RangeRequest) :
    s.reserve req = .ok () ∨ ∃ m, s.reserve req = .error (.panic m) := by
  have hcap (cap : Nat) : vecWithCapacity cap = .ok () ∨
      ∃ m, vecWithCapacity cap = .error (.panic m) := by
    unfold vecWithCapacity
    split
    · exact .inr ⟨_, rfl⟩
    · exact .inl rfl
  unfold StoreState.reserve
  split
  · exact .inl rfl
  · exact hcap _

/-- A range of the current state answers what the abstract one does, or panics. -/
theorem rangeCurrent_mvcc {s : StoreState} (h : s.Clean) (req : RangeRequest) :
    rangeCurrent s req = .ok (s.mvcc.range req) ∨
      ∃ m, rangeCurrent s req = .error (.panic m) := by
  rw [rangeCurrent_eq_page]
  rcases reserve_cases s req with hreserve | ⟨m, hreserve⟩
  · cases hinv : (resolveRange req.key req.rangeEnd).inverted with
    | false =>
        rw [currentFound_eq s hinv, hreserve, Mvcc.range, ← currentPairs_mvcc h]
        exact .inl rfl
    | true =>
        rw [StoreState.currentFound, hreserve,
          (visitedCurrent_eq_rangePanic s.keys _).mpr hinv]
        exact .inr ⟨_, rfl⟩
  · rw [StoreState.currentFound, hreserve]
    exact .inr ⟨m, rfl⟩

/-! ### Writes

Both operations get their revision from the caller, and they leave the counter alone.
-/

/-- What a write op leaves, from a store that has allocated the revision. -/
structure Stepped (s s' : StoreState) (K : Mvcc) : Prop where
  clean : s'.Clean
  nextRev : s'.nextRev = s.nextRev
  mvcc : s'.mvcc = K

theorem currentRevision_congr {s s' : StoreState} (h : s'.nextRev = s.nextRev) :
    s'.currentRevision = s.currentRevision := by
  rw [StoreState.currentRevision, StoreState.currentRevision, h]

/-- The blob of an alive key, from its pair. -/
theorem StoreState.Clean.encode {s : StoreState} (h : s.Clean) (key : Bytes) :
    s.pairs[key]?.map (·.encode key) = (s.alive? key).map (·.kvBytes) := by
  rw [StoreState.getElem?_pairs, Option.map_map]
  cases halive : s.alive? key with
  | none => rfl
  | some ks => exact congrArg some (h.blobs key ks halive).symm

theorem written_pair (s : StoreState) (req : PutRequest) (rev : UInt64) :
    Mvcc.written req s.pairs[req.key]? rev
      = (putEntry s.keys req.key (putValue req (s.alive? req.key))
          (putLease req (s.alive? req.key)) rev none).pair := by
  rw [Mvcc.written, StoreState.getElem?_pairs, leaseOf_pair]
  simp only [Option.map_map, Function.comp_def, putEntry, KeyState.pair, putValue,
    StoreState.alive?]

theorem aliveIn_insert_put (keys : ExtTreeMap Bytes KeyState) (key value : Bytes) (lease : Int64)
    (rev : UInt64) (key' : Bytes) :
    aliveIn (keys.insert key (putEntry keys key value lease rev none)) key'
      = if key = key' then some (putEntry keys key value lease rev none)
        else aliveIn keys key' := by
  split
  · next heq =>
      subst heq
      exact aliveIn_eq_some.mpr ⟨ExtTreeMap.getElem?_insert_self, isAlive_putEntry ..⟩
  · next hne => exact aliveIn_insert_of_ne hne

/-- The pairs after a put. -/
theorem pairs_put {s s' : StoreState} {req : PutRequest} {rev : UInt64}
    (hkeys : s'.keys = s.keys.insert req.key (putEntry s.keys req.key
      (putValue req (s.alive? req.key)) (putLease req (s.alive? req.key)) rev none)) :
    s'.pairs = s.pairs.insert req.key (Mvcc.written req s.pairs[req.key]? rev) := by
  refine pairs_ext fun key => ?_
  rw [StoreState.getElem?_pairs, ExtTreeMap.getElem?_insert, StoreState.alive?, hkeys,
    aliveIn_insert_put, written_pair]
  simp only [Std.compare_eq_iff_eq]
  split
  · rfl
  · rw [StoreState.getElem?_pairs, StoreState.alive?]

/-- The pairs that are left when some alive keys are deleted. -/
theorem pairs_delete {s s' : StoreState} {keys : List Bytes} {P : Bytes → Pair → Bool}
    (halive : ∀ key, s'.alive? key = if key ∈ keys then none else s.alive? key)
    (hkeys : ∀ key, key ∈ keys ↔ ∃ ks, s.alive? key = some ks ∧ P key ks.pair = true) :
    s'.pairs = s.pairs.filter fun key p => !P key p := by
  refine pairs_ext fun key => ?_
  rw [ExtTreeMap.getElem?_filter', StoreState.getElem?_pairs, StoreState.getElem?_pairs, halive]
  cases hks : s.alive? key with
  | none => simp
  | some ks =>
      have hmem : key ∈ keys ↔ P key ks.pair = true := by
        rw [hkeys, hks]
        simp
      by_cases hP : P key ks.pair = true
      · rw [if_pos (hmem.mpr hP), Option.map_some, Option.filter_some, if_neg (by simp [hP])]
        rfl
      · rw [if_neg (mt hmem.mp hP), Option.map_some, Option.filter_some, if_pos (by simp [hP])]

variable [Crates]

/-- **A put of the store is an abstract put.** Both insert the pair that the request and the pair
before make, at the revision given. -/
theorem putAt_mvcc {s : StoreState} (h : s.Clean) {rev : UInt64} (hrev : s.currentRevision = rev)
    {req : PutRequest} (hcheck : validatePut req s = .ok ()) :
    ∃ resp s', exec (putAt req rev) s = (.ok resp, s') ∧
      ∃ K, Mvcc.putAt req rev s.mvcc = (resp, K) ∧ Stepped s s' K := by
  obtain ⟨resp, t, hexec⟩ := exec_putAt h.faults hcheck rev
  refine ⟨resp, t, hexec, ?_⟩
  unfold putAt at hexec
  rw [Prog.exec_bind, Prog.exec_get] at hexec
  dsimp only at hexec
  split at hexec
  · cases hexec
  split at hexec
  · cases hexec
  rw [Prog.exec_bind_eq_ok] at hexec
  obtain ⟨_, s₁, happend, hexec⟩ := hexec
  obtain ⟨w, hw, rfl⟩ := ((appendKv_spec _ _ s).of_ok happend).1 _ rfl
  -- the entry is the only thing the put changes, apart from the file
  have hkeys : t.keys = s.keys.insert req.key (putEntry s.keys req.key
      (putValue req (s.alive? req.key)) (putLease req (s.alive? req.key)) rev none) := by
    cases hexec
    rfl
  have hrest : resp = { header := s.header, prevKv := if req.prevKv then
        ((s.alive? req.key).map (·.kvBytes)).getD [] else [] } ∧ t.wal = w ∧
      t.nextRev = s.nextRev ∧ t.leases = s.leases ∧ t.nextLeaseId = s.nextLeaseId ∧
      t.compactRev = s.compactRev := by
    cases hexec
    exact ⟨rfl, rfl, rfl, rfl, rfl, rfl⟩
  obtain ⟨rfl, hwal, hnext, hleases, hid, hcompact⟩ := hrest
  have hcurrent : t.currentRevision = rev := (currentRevision_congr hnext).trans hrev
  have hfaults : t.wal.faults = [] := by
    rw [hwal]
    exact hw.faults h.faults
  refine ⟨_, Prod.ext ?_ rfl, ⟨hfaults, by rw [hnext]; exact h.nextRev, ?_⟩, hnext,
    Mvcc.ext hcurrent (pairs_put hkeys) hcompact hleases hid⟩
  · rw [Mvcc.putAt, StoreState.pairs_mvcc, h.encode, ← hrev]
    rfl
  · intro key ks halive
    rw [StoreState.alive?, hkeys, aliveIn_insert_put] at halive
    split at halive
    · next heq =>
        subst heq
        cases halive
        rfl
    · exact h.blobs key ks halive

/-- **A batch of deletions** at a revision above zero. -/
theorem deleteBatch_mvcc {s : StoreState} (h : s.Clean) {rev : UInt64} (hrev : rev ≠ 0)
    {keys : List Bytes} (hnodup : keys.Nodup) (e : Failure) :
    StoreM.Spec (do appendKvBatch (s.deleteRecords keys rev) e; applyDeletes keys rev) s
      fun r s' => r = .ok () ∧ s'.Clean ∧ Untouched s s' ∧
        ∀ key, s'.alive? key = if key ∈ keys then none else s.alive? key := by
  obtain ⟨w, hw⟩ := exec_appendKvBatch h.faults (s.deleteRecords keys rev) e
  obtain ⟨w', happended, heq⟩ := ((appendKvBatch_spec _ _ s).of_ok hw).1 _ rfl
  obtain rfl : w = w' := congrArg StoreState.wal heq
  have hrun : StoreM.Spec (do appendKvBatch (s.deleteRecords keys rev) e; applyDeletes keys rev) s
      fun r s' => r = .ok () ∧ Keyspace.Run s.keyspace (s.deletes keys rev) s'.keyspace ∧
        s'.wal = w := by
    refine Prog.spec_bind_ok hw ((applyDeletes_spec hnodup rev _).mono ?_)
    intro r s' hdone
    obtain ⟨hr, hrun, -, hwal, -⟩ := hdone
    exact ⟨hr, hrun, hwal⟩
  refine (hrun.and ((untouched_deleteBatch _ keys rev e).spec s)).mono ?_
  intro r s' hdone
  obtain ⟨⟨hr, hrun, hwal⟩, huntouched⟩ := hdone
  -- the keys of the batch that were alive are dead, the others as they were
  have halive : ∀ key, s'.alive? key = if key ∈ keys then none else s.alive? key := by
    intro key
    by_cases hmem : key ∈ (s.deletes keys rev).map Write.key
    · obtain ⟨ks, hks, hdead⟩ := hrun.deleted (fun v hv => eq_delete_of_mem_deletes hv) hmem
      obtain ⟨v, hv, rfl⟩ := List.mem_map.mp hmem
      rw [if_pos (key_of_mem_deletes hv)]
      refine Option.filter_eq_none_iff.mpr ?_
      intro ks' hks'
      obtain rfl : ks = ks' := Option.some.inj (hks.symm.trans hks')
      simp [KeyState.isAlive, hdead, hrev]
    · have hsame : s'.keys[key]? = s.keys[key]? := hrun.getElem?_of_not_mem hmem
      have hsame : s'.alive? key = s.alive? key := by
        simp only [StoreState.alive?, aliveIn, hsame]
      rw [hsame]
      split
      · next hkey =>
          cases hks : s.alive? key with
          | none => rfl
          | some ks =>
              -- a key of the batch that nothing deleted was not alive before
              refine absurd (List.mem_map.mpr ⟨Write.delete key rev ks, ?_, rfl⟩) hmem
              exact List.mem_filterMap.mpr ⟨key, hkey, by rw [hks]; rfl⟩
      · rfl
  refine ⟨hr, ⟨by rw [hwal]; exact happended.faults h.faults, ?_, ?_⟩, huntouched, halive⟩
  · rw [huntouched.nextRev]
    exact h.nextRev
  · intro key ks hks
    rw [halive] at hks
    split at hks
    · cases hks
    · exact h.blobs key ks hks

omit [Crates] in
/-- The alive keys of a range, and their blobs. -/
theorem keysToDelete_mvcc {s : StoreState} (h : s.Clean) {key rangeEnd : Bytes}
    (hinv : (resolveRange key rangeEnd).inverted = false) :
    s.keysToDelete (resolveRange key rangeEnd) = .ok ((s.mvcc.within key rangeEnd).map (·.1)) ∧
      (((s.mvcc.within key rangeEnd).map (·.1)).filterMap s.alive?).map (·.kvBytes)
        = (s.mvcc.within key rangeEnd).map fun e => e.2.encode e.1 := by
  rw [within_mvcc, List.map_map, List.map_map]
  constructor
  · rw [keysToDelete_eq_entries, visitedForDelete_eq_filter s.keys hinv]
    refine congrArg Except.ok ?_
    dsimp only
    rw [List.filter_filter]
    refine congrArg (List.map _) (List.filter_congr fun e _ => ?_)
    exact Bool.and_comm _ _
  · rw [List.filterMap_map, List.map_filterMap, ← List.filterMap_eq_map]
    refine List.filterMap_congr fun e he => ?_
    obtain ⟨hmem, hpick⟩ := List.mem_filter.mp he
    have halive : s.alive? e.1 = some e.2 := aliveIn_eq_some.mpr
      ⟨ExtTreeMap.mem_toList_iff_getElem?_eq_some.mp hmem, ((Bool.and_eq_true _ _).mp hpick).2⟩
    show (s.alive? e.1).map _ = _
    rw [halive]
    exact congrArg some (h.blobs e.1 e.2 halive)

/-- **A delete of the store is an abstract delete.** Both take away the pairs of the range and
answer with their number, and with the pairs if asked. -/
theorem deleteRangeAt_mvcc {s : StoreState} (h : s.Clean) {rev : UInt64}
    (hrev : s.currentRevision = rev) (hpos : rev ≠ 0) (req : DeleteRangeRequest) :
    (deleteRangeAt req rev).Spec s fun r s' => ∃ resp, r = .ok resp ∧
      ∃ K, Mvcc.deleteAt req rev s.mvcc = (resp, K) ∧ Stepped s s' K := by
  unfold deleteRangeAt
  cases hinv : (resolveRange req.key req.rangeEnd).inverted with
  | true =>
      refine Prog.spec_bind_crash (e := rangePanic) ?_ rfl
      rw [exec_read, (keysToDelete_eq_rangePanic s _).mpr hinv]
  | false =>
      obtain ⟨hkeys, hblobs⟩ := keysToDelete_mvcc h hinv
      refine StoreM.spec_read_bind (fun e he => ?_) fun keys hok => ?_
      · rw [hkeys] at he
        cases he
      obtain rfl : _ = keys := Except.ok.inj (hkeys.symm.trans hok)
      refine Prog.spec_get_bind ?_
      rw [← bind_assoc]
      refine (deleteBatch_mvcc h hpos (nodup_keysToDelete hok) _).bind ?_ ?_
      · intro e s' hdone
        cases hdone.1
      intro _ s' hdone
      obtain ⟨-, hclean, huntouched, halive⟩ := hdone
      have hcurrent := (currentRevision_congr huntouched.nextRev).trans hrev
      refine Prog.spec_get_bind (Prog.spec_pure ⟨_, rfl, _, Prod.ext ?_ rfl, hclean,
        huntouched.nextRev, ?_⟩)
      · rw [Mvcc.deleteAt, hblobs, List.length_map, StoreState.header, hcurrent]
      · refine Mvcc.ext hcurrent ?_ huntouched.compactRev huntouched.leases huntouched.nextLeaseId
        refine pairs_delete (P := fun key _ => matchesRange (resolveRange req.key req.rangeEnd) key)
          halive fun key => ?_
        rw [mem_keysToDelete hok, Option.isSome_iff_exists, and_comm, exists_and_right]

/-! ### Requests -/

/-- The store does what the abstract store does, unless it panics. -/
abbrev StoreM.Refines {α β : Type} (x : StoreM α) (s : StoreState) (y : MvccM β) (K : Mvcc)
    (Q : α → β → StoreState → Mvcc → Prop) (E : StoreState → Mvcc → Prop) : Prop :=
  Prog.Refines (fun e => e.isPanic = true) x s y K Q E

/-- A store and what it is for its clients. -/
def Shows (s : StoreState) (K : Mvcc) : Prop := s.Clean ∧ s.mvcc = K

/-- The answers are the same, and the states fit. -/
def Agrees {α : Type} (a b : α) (s : StoreState) (K : Mvcc) : Prop := a = b ∧ Shows s K

omit [Crates] in
/-- Both sides read the same. -/
theorem refines_read_bind {α β β' : Type} {f : StoreState → Except Failure α}
    {g : Mvcc → Except Failure α} {x : α → StoreM β} {y : α → MvccM β'} {s : StoreState} {K : Mvcc}
    {Q : β → β' → StoreState → Mvcc → Prop} {E : StoreState → Mvcc → Prop} (hfg : f s = g K)
    (hE : E s K) (h : ∀ a, f s = .ok a → (x a).Refines s (y a) K Q E) :
    StoreM.Refines (StoreM.read f >>= x) s (Mvcc.read g >>= y) K Q E := by
  rw [StoreM.read, Mvcc.read, bind_assoc, bind_assoc]
  refine Prog.refines_get_bind ?_
  rw [← hfg]
  cases hf : f s with
  | error e => exact Prog.refines_throw_bind e _ _ hE
  | ok a =>
      refine Prog.refines_bind_left (Prog.exec_pure a s) ?_
      exact Prog.refines_bind_right (Prog.exec_pure a K) (h a hf)

omit [Crates] in
/-- The store that has allocated the next revision. -/
theorem StoreState.Clean.taken {s : StoreState} (h : s.Clean) (hlt : s.nextRev.toNat + 1 < 2 ^ 64) :
    { s with nextRev := s.nextRev + 1 }.Clean := by
  refine ⟨h.faults, ?_, h.blobs⟩
  show 0 < (s.nextRev + 1).toNat
  rw [UInt64.toNat_add, UInt64.toNat_one]
  omega

omit [Crates] in
theorem ne_zero_of_pos {r : UInt64} (h : 0 < r.toNat) : r ≠ 0 := by
  rintro rfl
  exact absurd h (Nat.lt_irrefl 0)

theorem put_mvcc {s : StoreState} (h : s.Clean) (hlt : s.nextRev.toNat + 1 < 2 ^ 64)
    (req : PutRequest) : (put req).Refines s (Mvcc.put req) s.mvcc Agrees Shows := by
  unfold put Mvcc.put
  refine refines_read_bind (checkPut_mvcc req s).symm ⟨h, rfl⟩ fun _ hcheck => ?_
  refine Prog.refines_bind_left (Prog.exec_modifyGet _ s) ?_
  obtain ⟨resp, s', hexec, K, hput, hstep⟩ :=
    putAt_mvcc (h.taken hlt) (currentRevision_taken hlt) hcheck
  refine Prog.refines_of_exec hexec (Prog.exec_modifyGet _ _) ?_
  have hput : Mvcc.putAt req (s.mvcc.revision + 1) s.mvcc = (resp, K) := by
    rw [StoreState.revision_mvcc, StoreState.Clean.succ h.nextRev]
    exact hput
  rw [hput]
  exact ⟨rfl, hstep.clean, hstep.mvcc⟩

theorem deleteRange_mvcc {s : StoreState} (h : s.Clean) (hlt : s.nextRev.toNat + 1 < 2 ^ 64)
    (req : DeleteRangeRequest) :
    (deleteRange req).Refines s (Mvcc.deleteRange req) s.mvcc Agrees Shows := by
  unfold deleteRange Mvcc.deleteRange
  refine refines_read_bind rfl ⟨h, rfl⟩ fun _ _ => ?_
  refine Prog.refines_bind_left (Prog.exec_modifyGet _ s) ?_
  have hdelete := deleteRangeAt_mvcc (h.taken hlt) (currentRevision_taken hlt)
    (ne_zero_of_pos h.nextRev) req
  refine (hdelete.mono ?_).refines (Prog.exec_modifyGet _ _)
  intro r s' hdone
  obtain ⟨resp, hr, K, hspec, hstep⟩ := hdone
  have hspec : Mvcc.deleteAt req (s.mvcc.revision + 1) s.mvcc = (resp, K) := by
    rw [StoreState.revision_mvcc, StoreState.Clean.succ h.nextRev]
    exact hspec
  rw [hspec]
  exact ⟨resp, hr, rfl, hstep.clean, hstep.mvcc⟩

/-! ### Transactions

The store takes the revision when the first write comes, `Mvcc` writes at it from the beginning. A
transaction that writes nothing leaves the counter alone on both sides.
-/

/-- In a transaction that writes at `rev`: the cursor has taken the revision or it is the next one,
and no range was set aside. -/
structure Underway (rev : UInt64) (c : TxnCursor) (s : StoreState) (K : Mvcc) : Prop where
  shows : Shows s K
  deferred : c.deferred = []
  cursor : c.rev = none ∧ s.nextRev = rev ∨ c.rev = some rev ∧ s.currentRevision = rev

/-- The answers are the same, and the transaction goes on. -/
def GoesOn {α : Type} (rev : UInt64) (a : α × TxnCursor) (b : α) (s : StoreState) (K : Mvcc) :
    Prop := a.1 = b ∧ Underway rev a.2 s K

section

variable {rev : UInt64}

omit [Crates] in
/-- The revision of a transaction, taken for its first write. -/
theorem getRev_underway (hlt : rev.toNat + 1 < 2 ^ 64) {c : TxnCursor} {s : StoreState} {K : Mvcc}
    (h : Underway rev c s K) :
    ∃ c' s', exec c.getRev s = (.ok (rev, c'), s') ∧ s'.Clean ∧ s'.currentRevision = rev ∧
      s'.mvcc = { K with revision := rev } ∧ c'.deferred = [] ∧ c'.rev = some rev := by
  obtain ⟨⟨hclean, rfl⟩, hdeferred, hcursor⟩ := h
  rcases hcursor with ⟨hnone, rfl⟩ | ⟨hsome, hcurrent⟩
  · have hexec : exec c.getRev s = (.ok (s.nextRev, { c with rev := some s.nextRev }),
        { s with nextRev := s.nextRev + 1 }) := by
      rw [exec_getRev_eq, TxnCursor.revAt, TxnCursor.taken, hnone]
      rfl
    have hcurrent := currentRevision_taken hlt
    exact ⟨_, _, hexec, hclean.taken hlt, hcurrent, Mvcc.ext hcurrent rfl rfl rfl rfl, hdeferred,
      rfl⟩
  · have hexec : exec c.getRev s = (.ok (rev, { c with rev := some rev }), s) := by
      rw [exec_getRev_eq, TxnCursor.revAt, TxnCursor.taken, hsome]
      rfl
    exact ⟨_, _, hexec, hclean, hcurrent, Mvcc.ext hcurrent rfl rfl rfl rfl, hdeferred, rfl⟩

omit [Crates] in
/-- What a write op of a transaction leaves. -/
theorem Stepped.underway {c : TxnCursor} {s s' : StoreState} {K : Mvcc} (h : Stepped s s' K)
    (hcurrent : s.currentRevision = rev) (hdeferred : c.deferred = []) (hc : c.rev = some rev) :
    Underway rev c s' K where
  shows := ⟨h.clean, h.mvcc⟩
  deferred := hdeferred
  cursor := .inr ⟨hc, (currentRevision_congr h.nextRev).trans hcurrent⟩

omit [Crates] in
/-- The end of a nested transaction. -/
theorem nested_goesOn (succeeded : Bool) {a : List ResponseOp × TxnCursor} {b : List ResponseOp}
    {s : StoreState} {K : Mvcc} (h : GoesOn rev a b s K) :
    StoreM.Refines (do return (ResponseOp.txn (← get).header succeeded a.1, a.2)) s
      (do return ResponseOp.txn (← get).header succeeded b) K (GoesOn rev) Shows := by
  obtain ⟨rfl, hunder⟩ := h
  refine Prog.refines_get_bind (Prog.refines_pure ⟨?_, hunder⟩)
  rw [← hunder.shows.2, StoreState.header_mvcc]

mutual
theorem applyTxnOp_mvcc (hlt : rev.toNat + 1 < 2 ^ 64) (hpos : rev ≠ 0) : ∀ (op : RequestOp)
    (path : List Nat) (depth : Nat) (c : TxnCursor) (s : StoreState) (K : Mvcc),
      op.isCurrent = true → Underway rev c s K →
        (applyTxnOp path depth c op).Refines s (Mvcc.op rev depth op) K (GoesOn rev) Shows
  | .range r, path, depth, c, s, K, hop, h => by
      obtain ⟨hclean, rfl⟩ := h.shows
      unfold applyTxnOp Mvcc.op
      split
      · next hrev =>
          simp only [RequestOp.isCurrent, decide_eq_true_eq] at hop
          -- a read in the past is deferred; the ops here have none
          exact absurd hrev (Int64.not_lt.mpr hop)
      rcases rangeCurrent_mvcc hclean r with hok | ⟨m, hpanic⟩
      · have hread : exec (StoreM.read (rangeCurrent · r)) s = (.ok (s.mvcc.range r), s) := by
          rw [exec_read, hok]
        refine Prog.refines_bind_left hread ?_
        exact Prog.refines_bind_right (Prog.exec_get s.mvcc) (Prog.refines_pure ⟨rfl, h⟩)
      · refine Prog.refines_of_crash (e := .panic m) ?_ rfl
        rw [Prog.exec_bind, exec_read, hpanic]
  | .put p, path, depth, c, s, K, hop, h => by
      obtain ⟨hclean, rfl⟩ := id h.shows
      unfold applyTxnOp Mvcc.op
      refine refines_read_bind (checkPut_mvcc p s).symm h.shows fun _ hcheck => ?_
      -- the first write of the transaction takes the revision, the others find it taken
      obtain ⟨c', s₁, hexec, hclean₁, hcurrent, hmvcc, hdeferred, hc⟩ := getRev_underway hlt h
      refine Prog.refines_bind_left hexec ?_
      have hcheck : validatePut p s₁ = .ok () := by
        rw [← checkPut_mvcc, hmvcc]
        exact (checkPut_mvcc p s).trans hcheck
      obtain ⟨resp, s₂, hput, K, hspec, hstep⟩ := putAt_mvcc hclean₁ hcurrent hcheck
      refine Prog.refines_bind_left hput ?_
      refine Prog.refines_bind_right (Prog.exec_modifyGet _ _) ?_
      rw [hmvcc] at hspec
      have hspec : Mvcc.putAt p rev s.mvcc = (resp, K) := hspec
      rw [hspec]
      exact Prog.refines_pure ⟨rfl, hstep.underway hcurrent hdeferred hc⟩
  | .deleteRange d, path, depth, c, s, K, hop, h => by
      unfold applyTxnOp Mvcc.op
      refine refines_read_bind rfl h.shows fun _ _ => ?_
      obtain ⟨c', s₁, hexec, hclean₁, hcurrent, hmvcc, hdeferred, hc⟩ := getRev_underway hlt h
      refine Prog.refines_bind_left hexec ?_
      have hdelete := deleteRangeAt_mvcc hclean₁ hcurrent hpos d
      rw [hmvcc] at hdelete
      have hrefines : (deleteRangeAt d rev).Refines s₁ (modifyGet (Mvcc.deleteAt d rev)) K
          (fun a b s' K' => a = b ∧ Underway rev c' s' K') Shows := by
        refine (hdelete.mono ?_).refines (Prog.exec_modifyGet _ K)
        intro r s' hdone
        obtain ⟨resp, hr, K', hspec, hstep⟩ := hdone
        have hspec : Mvcc.deleteAt d rev K = (resp, K') := hspec
        rw [hspec]
        exact ⟨resp, hr, rfl, hstep.underway hcurrent hdeferred hc⟩
      refine hrefines.bind fun a b s' K' hdone => ?_
      obtain ⟨rfl, hunder⟩ := hdone
      exact Prog.refines_pure ⟨rfl, hunder⟩
  | .txn compare success failure, path, depth, c, s, K, hop, h => by
      simp only [RequestOp.isCurrent, Bool.and_eq_true] at hop
      unfold applyTxnOp Mvcc.op
      split
      · exact Prog.refines_throw_bind _ _ _ h.shows
      refine Prog.refines_get_bind ?_
      rw [← h.shows.2, holds_mvcc, h.shows.2]
      split
      · refine (applyTxnOps_mvcc hlt hpos success path 0 (depth + 1) c s K hop.1 h).bind ?_
        intro a b s' K' hdone
        exact nested_goesOn true hdone
      · refine (applyTxnOps_mvcc hlt hpos failure path 0 (depth + 1) c s K hop.2 h).bind ?_
        intro a b s' K' hdone
        exact nested_goesOn false hdone
  | .none, path, depth, c, s, K, hop, h => by
      unfold applyTxnOp Mvcc.op
      exact Prog.refines_pure ⟨rfl, h⟩
theorem applyTxnOps_mvcc (hlt : rev.toNat + 1 < 2 ^ 64) (hpos : rev ≠ 0) : ∀ (ops : List RequestOp)
    (path : List Nat) (i depth : Nat) (c : TxnCursor) (s : StoreState) (K : Mvcc),
      RequestOp.areCurrent ops = true → Underway rev c s K →
        (applyTxnOps path i depth c ops).Refines s (Mvcc.ops rev depth ops) K (GoesOn rev) Shows
  | [], path, i, depth, c, s, K, hops, h => by
      unfold applyTxnOps Mvcc.ops
      exact Prog.refines_pure ⟨rfl, h⟩
  | op :: ops, path, i, depth, c, s, K, hops, h => by
      simp only [RequestOp.areCurrent, Bool.and_eq_true] at hops
      unfold applyTxnOps Mvcc.ops
      refine (applyTxnOp_mvcc hlt hpos op (path ++ [i]) depth c s K hops.1 h).bind ?_
      intro a b s' K' hdone
      obtain ⟨rfl, h'⟩ := hdone
      refine (applyTxnOps_mvcc hlt hpos ops path (i + 1) depth a.2 s' K' hops.2 h').bind ?_
      intro a' b' s'' K'' hdone
      obtain ⟨rfl, h''⟩ := hdone
      exact Prog.refines_pure ⟨rfl, h''⟩
end

end

/-- **A transaction of the store is an abstract transaction.** The guards are read in the same
state, and then the ops of the same branch run one after the other. -/
theorem txn_mvcc {s : StoreState} (h : s.Clean) (hlt : s.nextRev.toNat + 1 < 2 ^ 64)
    {req : TxnRequest} (hcurrent : (Request.txn req).isCurrent = true) :
    (txn req).Refines s (Mvcc.txn req) s.mvcc Agrees Shows := by
  simp only [Request.isCurrent, Bool.and_eq_true] at hcurrent
  have hstart : Underway s.nextRev {} s s.mvcc := ⟨⟨h, rfl⟩, rfl, .inl ⟨rfl, rfl⟩⟩
  have hbranch (succeeded : Bool) : RequestOp.areCurrent
      (if succeeded then req.success else req.failure) = true := by
    cases succeeded with
    | false => exact hcurrent.2
    | true => exact hcurrent.1
  unfold txn Mvcc.txn
  refine refines_read_bind rfl ⟨h, rfl⟩ fun _ _ => ?_
  unfold txnLocked
  simp only [bind_assoc]
  refine Prog.refines_get_bind ?_
  rw [holds_mvcc, StoreState.revision_mvcc, StoreState.Clean.succ h.nextRev]
  refine (applyTxnOps_mvcc hlt (ne_zero_of_pos h.nextRev) _ [] 0 0 {} s s.mvcc (hbranch _)
    hstart).bind ?_
  intro a b s' K' hdone
  obtain ⟨rfl, hunder⟩ := hdone
  refine Prog.refines_get_bind ?_
  rw [pure_bind, hunder.deferred]
  refine Prog.refines_pure ⟨?_, hunder.shows⟩
  rw [← hunder.shows.2, StoreState.header_mvcc]

/-! ### The watermark and the leases -/

omit [Crates] in
theorem compact_mvcc {s : StoreState} (h : s.Clean) (revision : Int64) :
    (compact revision).Refines s (Mvcc.compact revision) s.mvcc Agrees Shows := by
  unfold compact Mvcc.compact
  refine Prog.refines_get_bind ?_
  dsimp only
  by_cases hfuture : revision.toUInt64 > s.currentRevision
  · rw [if_pos hfuture, if_pos (show revision.toUInt64 > s.mvcc.revision from hfuture)]
    exact Prog.refines_throw_bind _ _ _ ⟨h, rfl⟩
  rw [if_neg hfuture, if_neg (show ¬ revision.toUInt64 > s.mvcc.revision from hfuture)]
  by_cases hold : revision.toUInt64 ≤ s.compactRev
  · rw [if_pos hold, if_pos (show revision.toUInt64 ≤ s.mvcc.compacted from hold)]
    exact Prog.refines_throw_bind _ _ _ ⟨h, rfl⟩
  rw [if_neg hold, if_neg (show ¬ revision.toUInt64 ≤ s.mvcc.compacted from hold)]
  exact Prog.refines_of_exec rfl rfl ⟨rfl, ⟨h.faults, h.nextRev, h.blobs⟩, rfl⟩

/-- **The keys of a lease are its pairs.** -/
theorem deleteKeysForLease_mvcc {s : StoreState} (h : s.Clean) (hlt : s.nextRev.toNat + 1 < 2 ^ 64)
    (id : Int64) :
    (deleteKeysForLease id).Spec s fun r s' => r = .ok () ∧ s'.Clean ∧
      s'.mvcc = { Mvcc.dropLease id s.mvcc with leases := s.leases } := by
  -- both sides decide alike whether the lease has a key
  have hany : s.mvcc.pairs.toList.any (·.2.lease = id) = true ↔
      ∃ key ks, s.alive? key = some ks ∧ ks.lease = id := by
    rw [StoreState.pairs_mvcc, StoreState.toList_pairs, List.any_map, List.any_eq_true]
    constructor
    · intro hpair
      obtain ⟨e, he, hlease⟩ := hpair
      obtain ⟨hmem, halive⟩ := List.mem_filter.mp he
      exact ⟨e.1, e.2, aliveIn_eq_some.mpr
        ⟨ExtTreeMap.mem_toList_iff_getElem?_eq_some.mp hmem, halive⟩, of_decide_eq_true hlease⟩
    · intro hkey
      obtain ⟨key, ks, hks, hlease⟩ := hkey
      obtain ⟨hget, halive⟩ := aliveIn_eq_some.mp hks
      exact ⟨(key, ks), List.mem_filter.mpr
        ⟨ExtTreeMap.mem_toList_iff_getElem?_eq_some.mpr hget, halive⟩, decide_eq_true hlease⟩
  unfold deleteKeysForLease
  refine Prog.spec_get_bind ?_
  dsimp only
  split
  · -- no key: no revision is taken
    next hnil =>
      have hnone : ∀ key, key ∈ ([] : List Bytes) ↔
          ∃ ks, s.alive? key = some ks ∧ decide (ks.lease = id) = true := by
        intro key
        rw [← hnil, mem_leaseKeys]
        simp
      refine Prog.spec_pure ⟨rfl, h, Mvcc.ext ?_ ?_ rfl rfl rfl⟩
      · have hno : ¬ s.mvcc.pairs.toList.any (·.2.lease = id) = true := by
          rw [hany]
          intro hkey
          obtain ⟨key, ks, hks, hlease⟩ := hkey
          exact absurd ((hnone key).mpr ⟨ks, hks, decide_eq_true hlease⟩) List.not_mem_nil
        exact (if_neg hno).symm
      · rw [Mvcc.dropLease]
        simp only [ne_eq, decide_not]
        refine pairs_delete (P := fun _ p => decide (p.lease = id)) (fun key => ?_) hnone
        rw [if_neg List.not_mem_nil]
  · next hcons =>
      -- one revision for all of them
      refine Prog.spec_modifyGet_bind (Prog.spec_get_bind ?_)
      refine (deleteBatch_mvcc (h.taken hlt) (ne_zero_of_pos h.nextRev)
        (nodup_keys_of_sublist List.filter_sublist) _).mono ?_
      intro r s' hdone
      obtain ⟨hr, hclean, huntouched, halive⟩ := hdone
      have hcurrent : s'.currentRevision = s.nextRev :=
        (currentRevision_congr huntouched.nextRev).trans (currentRevision_taken hlt)
      refine ⟨hr, hclean, Mvcc.ext ?_ ?_ huntouched.compactRev huntouched.leases
        huntouched.nextLeaseId⟩
      · have hyes : s.mvcc.pairs.toList.any (·.2.lease = id) = true := by
          obtain ⟨key, hkey⟩ := List.exists_mem_of_ne_nil _ hcons
          obtain ⟨ks, hks, hlease⟩ := mem_leaseKeys.mp hkey
          exact hany.mpr ⟨key, ks, hks, hlease⟩
        refine hcurrent.trans (((if_pos hyes).trans ?_).symm)
        exact StoreState.Clean.succ h.nextRev
      · rw [Mvcc.dropLease]
        simp only [ne_eq, decide_not]
        refine pairs_delete (P := fun _ p => decide (p.lease = id)) halive fun key => ?_
        rw [mem_leaseKeys]
        exact exists_congr fun ks => and_congr_right fun _ => decide_eq_true_iff.symm

omit [Crates] in
/-- A grant once its id is known. -/
theorem grant_mvcc {s : StoreState} (h : s.Clean) (now : Nat) (id ttl : Int64) :
    StoreM.Refines (α := LeaseGrantResponse)
      (do
        if (← get).leases.contains id then
          throw (.status .failedPrecondition "etcdserver: lease already exists")
        modify fun s =>
          { s with leases := s.leases.insert id { id, ttl, expiresAt := expiryInstant now ttl } }
        return { header := (← get).header, id, ttl }) s
      (do
        if (← get).leases.contains id then
          throw (.status .failedPrecondition "etcdserver: lease already exists")
        modify fun K =>
          { K with leases := K.leases.insert id { id, ttl, expiresAt := expiryInstant now ttl } }
        return { header := (← get).header, id, ttl }) s.mvcc Agrees Shows := by
  refine Prog.refines_get_bind ?_
  dsimp only
  by_cases hused : s.leases.contains id = true
  · rw [if_pos hused, if_pos (show s.mvcc.leases.contains id = true from hused)]
    exact Prog.refines_throw_bind _ _ _ ⟨h, rfl⟩
  rw [if_neg hused, if_neg (show ¬ s.mvcc.leases.contains id = true from hused)]
  exact Prog.refines_of_exec rfl rfl ⟨rfl, ⟨h.faults, h.nextRev, h.blobs⟩, rfl⟩

omit [Crates] in
theorem leaseGrant_mvcc {s : StoreState} (h : s.Clean) (now : Nat) (id ttl : Int64) :
    (leaseGrant now id ttl).Refines s (Mvcc.leaseGrant now id ttl) s.mvcc Agrees Shows := by
  unfold leaseGrant Mvcc.leaseGrant
  refine refines_read_bind rfl ⟨h, rfl⟩ fun ttl _ => ?_
  dsimp only
  by_cases hne : id ≠ 0
  · rw [if_pos hne, if_pos hne]
    exact Prog.refines_bind_left (Prog.exec_pure _ _)
      (Prog.refines_bind_right (Prog.exec_pure _ _) (grant_mvcc h now id ttl))
  · rw [if_neg hne, if_neg hne]
    refine Prog.refines_bind_left (Prog.exec_modifyGet _ s)
      (Prog.refines_bind_right (Prog.exec_modifyGet _ s.mvcc) ?_)
    exact grant_mvcc (s := { s with nextLeaseId := s.nextLeaseId + 1 })
      ⟨h.faults, h.nextRev, h.blobs⟩ now s.nextLeaseId ttl

/-- The end of a lease. -/
theorem dropLease_mvcc {s : StoreState} (h : s.Clean) (hlt : s.nextRev.toNat + 1 < 2 ^ 64)
    (id : Int64) :
    (deleteKeysForLease id).Spec { s with leases := s.leases.erase id }
      fun r s' => r = .ok () ∧ Shows s' (Mvcc.dropLease id s.mvcc) := by
  refine (deleteKeysForLease_mvcc (s := { s with leases := s.leases.erase id })
    ⟨h.faults, h.nextRev, h.blobs⟩ hlt id).mono ?_
  intro r s' hdone
  exact ⟨hdone.1, hdone.2.1, hdone.2.2⟩

theorem leaseRevoke_mvcc {s : StoreState} (h : s.Clean) (hlt : s.nextRev.toNat + 1 < 2 ^ 64)
    (id : Int64) : (leaseRevoke id).Refines s (Mvcc.leaseRevoke id) s.mvcc Agrees Shows := by
  unfold leaseRevoke Mvcc.leaseRevoke
  refine Prog.refines_get_bind ?_
  dsimp only
  cases hid : s.leases.contains id with
  | false =>
      rw [show s.mvcc.leases.contains id = false from hid]
      exact Prog.refines_throw_bind _ _ _ ⟨h, rfl⟩
  | true =>
      rw [show s.mvcc.leases.contains id = true from hid]
      refine Prog.refines_bind_left (Prog.exec_modify _ s) ?_
      have hdrop : StoreM.Refines (deleteKeysForLease id) { s with leases := s.leases.erase id }
          (modify (Mvcc.dropLease id)) s.mvcc Agrees Shows := by
        refine ((dropLease_mvcc h hlt id).mono ?_).refines (Prog.exec_modify _ s.mvcc)
        intro r s' hdone
        exact ⟨(), hdone.1, rfl, hdone.2⟩
      refine hdrop.bind fun a b s' K' hdone => ?_
      obtain ⟨-, hclean, rfl⟩ := hdone
      exact Prog.refines_get_bind (Prog.refines_pure ⟨rfl, hclean, rfl⟩)

omit [Crates] in
theorem leaseKeepAlive_mvcc {s : StoreState} (h : s.Clean) (now : Nat) (id : Int64) :
    (leaseKeepAlive now id).Refines s (Mvcc.leaseKeepAlive now id) s.mvcc Agrees Shows := by
  unfold leaseKeepAlive Mvcc.leaseKeepAlive
  refine Prog.refines_get_bind ?_
  rw [StoreState.leases_mvcc]
  cases s.leases[id]? with
  | none => exact Prog.refines_throw _ ⟨h, rfl⟩
  | some ls => exact Prog.refines_of_exec rfl rfl ⟨rfl, ⟨h.faults, h.nextRev, h.blobs⟩, rfl⟩

theorem leaseExpire_mvcc {s : StoreState} (h : s.Clean) (hlt : s.nextRev.toNat + 1 < 2 ^ 64)
    (now : Nat) (id : Int64) :
    (leaseExpire now id).Refines s (Mvcc.leaseExpire now id) s.mvcc Agrees Shows := by
  unfold leaseExpire Mvcc.leaseExpire
  refine Prog.refines_get_bind ?_
  rw [StoreState.leases_mvcc]
  cases s.leases[id]? with
  | none => exact Prog.refines_pure ⟨rfl, h, rfl⟩
  | some ls =>
      dsimp only
      by_cases hdue : ls.expiresAt ≤ now
      · rw [if_pos hdue, if_pos hdue]
        refine Prog.refines_bind_left (Prog.exec_modify _ s) ?_
        refine Prog.Spec.refines (Prog.spec_tryCatch ?_ ?_) (Prog.exec_modify _ s.mvcc)
        · intro e s' hpanic
          cases e with
          | status code m => cases hpanic
          | panic m => exact ⟨.panic m, rfl, rfl⟩
        · refine (dropLease_mvcc h hlt id).mono ?_
          intro r s' hdone
          obtain ⟨rfl, hshows⟩ := hdone
          exact ⟨(), rfl, rfl, hshows⟩
      · rw [if_neg hdue, if_neg hdue]
        exact Prog.refines_pure ⟨rfl, h, rfl⟩

/-! ### Requests and runs -/

theorem range_mvcc {s : StoreState} (h : s.Clean) {req : RangeRequest}
    (hcurrent : req.revision ≤ 0) :
    StoreM.Refines (StoreM.read (range · req)) s
      (do Mvcc.read fun _ => checkKey req.key; return (← get).range req) s.mvcc Agrees Shows := by
  have hrange : range s req = (checkKey req.key).bind fun _ => rangeCurrent s req := by
    have htarget : ¬ req.revision > 0 := Int64.not_lt.mpr hcurrent
    unfold range
    simp only [if_neg htarget]
    rfl
  cases hkey : checkKey req.key with
  | error e =>
      rw [hkey] at hrange
      have hexec : exec (StoreM.read (range · req)) s = (.error e, s) := by
        rw [exec_read, hrange]
        rfl
      intro _
      rw [hexec]
      exact ⟨rfl, h, rfl⟩
  | ok _ =>
      rw [hkey] at hrange
      have hrange : range s req = rangeCurrent s req := hrange
      rcases rangeCurrent_mvcc h req with hok | ⟨m, hpanic⟩
      · refine Prog.refines_of_exec ?_ rfl ⟨rfl, h, rfl⟩
        rw [exec_read, hrange, hok]
      · refine Prog.refines_of_crash (e := .panic m) ?_ rfl
        rw [exec_read, hrange, hpanic]

omit [Crates] in
/-- Both sides wrap their answers. -/
theorem refines_reply {α : Type} {x : StoreM α} {y : MvccM α} {s : StoreState} {K : Mvcc}
    (g : α → Reply) (h : x.Refines s y K Agrees Shows) :
    StoreM.Refines (do return g (← x)) s (do return g (← y)) K Agrees Shows := by
  refine h.bind fun a b s' K' hdone => ?_
  obtain ⟨rfl, hshows⟩ := hdone
  exact Prog.refines_pure ⟨rfl, hshows⟩

/-- **Every request of the server is a request on the abstract store**, with the same answer. One
case for each kind of request; historical ranges are not among them. -/
theorem refines_handle {s : StoreState} (h : s.Clean) (hlt : s.nextRev.toNat + 1 < 2 ^ 64) :
    ∀ {q : Request}, q.isCurrent = true → (handle q).Refines s (Mvcc.handle q) s.mvcc Agrees Shows
  | .range _, hq => by
      have hrange := refines_reply Reply.range (range_mvcc h (of_decide_eq_true hq))
      rwa [bind_assoc, bind_assoc] at hrange
  | .put req, _ => refines_reply Reply.put (put_mvcc h hlt req)
  | .deleteRange req, _ => refines_reply Reply.deleteRange (deleteRange_mvcc h hlt req)
  | .txn _, hq => refines_reply Reply.txn (txn_mvcc h hlt hq)
  | .compact revision, _ => refines_reply Reply.compact (compact_mvcc h revision)
  | .leaseGrant now id ttl, _ => refines_reply Reply.leaseGrant (leaseGrant_mvcc h now id ttl)
  | .leaseRevoke id, _ => refines_reply Reply.leaseRevoke (leaseRevoke_mvcc h hlt id)
  | .leaseKeepAlive now id, _ =>
      refines_reply (fun a : ResponseHeader × Int64 => Reply.leaseKeepAlive a.1 a.2)
        (leaseKeepAlive_mvcc h now id)
  | .leaseExpire now id, _ =>
      refines_reply (fun _ => Reply.leaseExpire) (leaseExpire_mvcc h hlt now id)

end Rudurru
