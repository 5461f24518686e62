import Rudurru.Discard
import Rudurru.Leases
import Rudurru.Txn.Backwards

/-!
# Rudurru.Overflow

Integers that come from clients. A TTL is bounded before it is added to an instant, and a revision
that is accepted is one the store has handed out. Two others are taken as they are: the limit of a
range is the capacity of a vector, and a lease id, which lives on in the keys it is attached to, is
counted on from when a restart finds it there.

So a request asks for too much memory exactly if it gets to a range with such a limit
(`handle_eq_capacityOverflow`), and no sum overflows in a run whose lease ids leave room for the
ones the server makes itself (`client_integers_in_range`).

The first half is one more `Hazard`: the reservation of a vector panics from 2^58 elements of 32
bytes on, and `Txn.Panics` says which requests get to one. The second half is about sums. `HasRoom n
id` says that `n` more ids fit above `id`; the invariant (`Capped`) demands it of every id in the
leases, the keys and the file, and of those that a compaction under way is going to write, because a
restart goes on counting from the highest of them. Every event that makes a lease takes one from the
room.
-/

namespace Rudurru

open Std (ExtTreeMap)
open Prog (exec Avoids)

/-- `Vec::with_capacity`, asked for more than `isize::MAX` bytes. -/
def capacityOverflow : Failure := .panic "capacity overflow"

/-! ### Capacities

A limit is turned into the capacity of a vector without a bound. Everything else that a request
allocates grows with what is there.
-/

/-- The number of elements `range_current` reserves. -/
def StoreState.capacity (s : StoreState) (req : RangeRequest) : Nat :=
  if req.limit > 0 then req.limit.toUInt64.toNat else s.keys.size

/-- A range of the current state that is not a single key reserves 2^58 elements or more. -/
def currentOversized (s : StoreState) (req : RangeRequest) : Bool :=
  req.rangeEnd ≠ [] && 2 ^ 58 ≤ s.capacity req

/-- The capacity at which `Vec::with_capacity` panics. -/
theorem vecWithCapacity_eq_capacityOverflow (cap : Nat) :
    vecWithCapacity cap = .error capacityOverflow ↔ 2 ^ 58 ≤ cap := by
  unfold vecWithCapacity
  split
  · exact iff_of_true rfl (by omega)
  · refine iff_of_false ?_ (by omega)
    intro h
    cases h

theorem walkRange_ne_capacityOverflow {β : Type} (m : ExtTreeMap Bytes β) (bound : RangeBound) :
    walkRange m bound (btreeBounds bound) ≠ .error capacityOverflow := by
  intro h
  exact absurd (eq_rangePanic_of_walkRange h) (by decide)

theorem visitedCurrent_ne_capacityOverflow {β : Type} (m : ExtTreeMap Bytes β)
    (bound : RangeBound) : visitedCurrent m bound ≠ .error capacityOverflow := by
  cases bound with
  | point k =>
      intro h
      cases h
  | all => exact walkRange_ne_capacityOverflow m .all
  | fromKey k => exact walkRange_ne_capacityOverflow m (.fromKey k)
  | prefixOf p => exact walkRange_ne_capacityOverflow m (.prefixOf p)
  | range start stop => exact walkRange_ne_capacityOverflow m (.range start stop)

theorem resolveRange_of_ne {key rangeEnd : Bytes} (h : rangeEnd ≠ []) (k : Bytes) :
    resolveRange key rangeEnd ≠ .point k := by
  unfold resolveRange
  rw [if_neg h]
  split_ifs <;> intro heq <;> cases heq

/-- A current range reserves room for its limit before it looks at a key. -/
theorem rangeCurrent_eq_capacityOverflow (s : StoreState) (req : RangeRequest) :
    rangeCurrent s req = .error capacityOverflow ↔ currentOversized s req = true := by
  rw [rangeCurrent_eq_entries, currentOversized]
  by_cases hpoint : req.rangeEnd = []
  · have hbound : resolveRange req.key req.rangeEnd = .point req.key := if_pos hpoint
    rw [hbound]
    refine iff_of_false ?_ (by simp [hpoint])
    intro h
    cases h
  · have hne := @resolveRange_of_ne req.key _ hpoint
    have hcap : vecWithCapacity (s.capacity req) = .error capacityOverflow ↔
        (req.rangeEnd ≠ [] && decide (2 ^ 58 ≤ s.capacity req)) = true := by
      rw [vecWithCapacity_eq_capacityOverflow]
      simp [hpoint]
    rw [← hcap]
    cases hbound : resolveRange req.key req.rangeEnd with
    | point k => exact absurd hbound (hne k)
    | all | fromKey k | prefixOf p | range start stop =>
        refine Prog.bind_eq_error_iff ?_
        intro _
        exact Prog.bind_ne_error (visitedCurrent_ne_capacityOverflow _ _) fun _ h => by cases h

/-- `Store::range` gets to such a reservation. -/
def rangeOversized (s : StoreState) (req : RangeRequest) : Bool :=
  req.key ≠ [] && !(req.revision > 0) && currentOversized s req

theorem admits_current {s : StoreState} {req : RangeRequest} (h : ¬ req.revision > 0) :
    s.admits req = true := by
  rw [StoreState.admits, if_neg h]
  simp

section

variable [Crates]

/-- Which ranges get to such a reservation. -/
theorem range_eq_capacityOverflow (s : StoreState) (req : RangeRequest) :
    range s req = .error capacityOverflow ↔ rangeOversized s req = true := by
  rw [capacityOverflow, range_eq_panic, rangeOversized, Bool.and_eq_true, Bool.and_eq_true,
    ← capacityOverflow, rangeCurrent_eq_capacityOverflow]
  by_cases hrev : req.revision > 0
  · rw [if_pos hrev]
    refine iff_of_false (fun h => walkRange_ne_capacityOverflow _ _ h.2.2) ?_
    simp [hrev]
  · rw [if_neg hrev, admits_current hrev]
    simp [hrev]

/-- The calls that reserve too much. -/
def capacityHazard : Hazard where
  current := currentOversized
  delete := fun _ => false
  range := rangeOversized

omit [Crates] in
theorem keysToDelete_ne_capacityOverflow (s : StoreState) (bound : RangeBound) :
    s.keysToDelete bound ≠ .error capacityOverflow := by
  cases bound with
  | point k =>
      intro h
      cases h
  | all | fromKey k | prefixOf p | range start stop =>
      refine Prog.bind_ne_error (walkRange_ne_capacityOverflow _ _) ?_
      intro _ h
      cases h

/-- The hazard has exactly the calls that reserve too much. -/
theorem capacityHazard_exact : capacityHazard.Exact "capacity overflow" where
  current := rangeCurrent_eq_capacityOverflow
  delete := by
    intro req rev s _
    rw [deleteRangeAt_eq_panic (by decide)]
    exact iff_of_false (keysToDelete_ne_capacityOverflow s _) Bool.false_ne_true
  delete_key := fun _ _ => rfl
  range := range_eq_capacityOverflow

/-! ### Lease ids

Ids grow in two places: the counter goes on by one, and a restart sets it above all ids that it
finds.
-/

/-- The id, the `n` ids after it and one more are below `2 ^ 63`. -/
def HasRoom (n : Nat) (id : Int64) : Prop := id.toInt + n + 1 < 2 ^ 63

/-- A TTL as `check_lease_ttl` lets it through. -/
def TtlInRange (ttl : Int64) : Prop := leaseMinTtl ≤ ttl ∧ ttl ≤ leaseMaxTtl

/-- A put record whose lease leaves room. -/
def KvWalRecord.HasRoom (n : Nat) (rec : KvWalRecord) : Prop :=
  rec.deleted = false → ∀ kv, decodeKeyValue rec.kvBytes = some kv → Rudurru.HasRoom n kv.lease

/-- The leases of all entries leave room. -/
def Keyspace.HasRoom (n : Nat) (K : Keyspace) : Prop :=
  ∀ (key : Bytes) (ks : KeyState), K.keys[key]? = some ks → Rudurru.HasRoom n ks.lease

/-- A store in which every lease id leaves room for `n` more that the server makes. -/
structure Roomy (n : Nat) (s : StoreState) : Prop where
  faults : s.wal.faults = []
  count : n + 1 < 2 ^ 63
  next : s.nextLeaseId.toInt + n < 2 ^ 63
  leases : ∀ id ls, s.leases[id]? = some ls → HasRoom n id ∧ TtlInRange ls.ttl
  keys : s.keyspace.HasRoom n
  log : ∀ rec ∈ s.wal.log, rec.Fits → rec.HasRoom n

omit [Crates] in
theorem HasRoom.mono {k n : Nat} {id : Int64} (h : HasRoom (n + k) id) : HasRoom n id := by
  unfold HasRoom at h ⊢
  omega

theorem KvWalRecord.HasRoom.mono {k n : Nat} {rec : KvWalRecord} (h : rec.HasRoom (n + k)) :
    rec.HasRoom n :=
  fun hput kv hkv => Rudurru.HasRoom.mono (h hput kv hkv)

omit [Crates] in
theorem Keyspace.HasRoom.mono {k n : Nat} {K : Keyspace} (h : K.HasRoom (n + k)) : K.HasRoom n :=
  fun key ks hks => Rudurru.HasRoom.mono (h key ks hks)

theorem Roomy.mono {k n : Nat} {s : StoreState} (h : Roomy (n + k) s) : Roomy n s where
  faults := h.faults
  count := by have := h.count; omega
  next := by have := h.next; omega
  leases := fun id ls hls => ⟨(h.leases id ls hls).1.mono, (h.leases id ls hls).2⟩
  keys := h.keys.mono
  log := fun rec hrec hfit => (h.log rec hrec hfit).mono

/-- What touches neither the map nor the file. -/
theorem Roomy.of_leases {n : Nat} {s s' : StoreState} (h : Roomy n s) (hwal : s'.wal = s.wal)
    (hkeys : s'.keyspace = s.keyspace) (hnext : s'.nextLeaseId.toInt + n < 2 ^ 63)
    (hleases : ∀ id ls, s'.leases[id]? = some ls → HasRoom n id ∧ TtlInRange ls.ttl) :
    Roomy n s' where
  faults := by rw [hwal]; exact h.faults
  count := h.count
  next := hnext
  leases := hleases
  keys := by rw [hkeys]; exact h.keys
  log := by rw [hwal]; exact h.log

/-- A lease that a put attaches. -/
theorem Roomy.attaches {n : Nat} {s : StoreState} (h : Roomy n s) {lease : Int64}
    (hlease : lease ≠ 0 → s.leases.contains lease = true) : HasRoom n lease := by
  by_cases hzero : lease = 0
  · have hcount := h.count
    subst hzero
    show (0 : Int) + n + 1 < 2 ^ 63
    omega
  · obtain ⟨ls, hls⟩ := Option.isSome_iff_exists.mp
      ((ExtTreeMap.contains_eq_isSome_getElem? ..).symm.trans (hlease hzero))
    exact (h.leases lease ls hls).1

variable [LawfulCrates]

/-- Writes bring in no lease ids but those of known leases. -/
theorem Roomy.effect {n : Nat} {s s' : StoreState} {ws : List Write} (h : Roomy n s)
    (he : Effect s ws s') (hnext : s'.nextLeaseId = s.nextLeaseId)
    (hws : ∀ w ∈ ws, w.Leased s.leases) : Roomy n s' where
  faults := he.faults h.faults
  count := h.count
  next := by rw [hnext]; exact h.next
  leases := by rw [he.leases]; exact h.leases
  keys := by
    refine he.run.invariant (P := fun K => K.HasRoom n) h.keys ?_
    intro K w hw hK haccepts key ks hks
    cases w with
    | put k value lease rev prev =>
        rcases getElem?_insert_cases hks with ⟨-, rfl⟩ | ⟨-, hks⟩
        · exact h.attaches (hws _ hw)
        · exact hK key ks hks
    | delete k rev prev =>
        rcases getElem?_insert_cases hks with ⟨-, rfl⟩ | ⟨-, hks⟩
        · exact hK k prev (aliveIn_eq_some.mp haccepts.1).1
        · exact hK key ks hks
  log := by
    intro rec hrec hfit hput kv hkv
    rw [he.log] at hrec
    rcases List.mem_append.mp hrec with hrec | hrec
    · exact h.log rec hrec hfit hput kv hkv
    · obtain ⟨w, hw, rfl⟩ := List.mem_map.mp hrec
      cases w with
      | put k value lease rev prev =>
          obtain ⟨-, -, -, hdec⟩ := KvWalRecord.Fits.new_spec hfit
          obtain rfl := Option.some.inj (hdec.symm.trans hkv)
          exact h.attaches (hws _ hw)
      | delete k rev prev =>
          rw [Write.record, deleted_deleteRecord] at hput
          cases hput

theorem putAt_roomy {n : Nat} (req : PutRequest) (rev : UInt64) {s : StoreState}
    (h : Roomy n s) : (putAt req rev).Spec s fun _ s' => Roomy n s' := by
  intro hok
  have hperforms := putAt_spec req rev s hok
  have hleased := putAt_leased req rev s hok
  have huntouched := untouched_putAt req rev s
  rcases hexec : exec (putAt req rev) s with ⟨r, s'⟩
  rw [hexec] at hperforms hleased huntouched
  cases r with
  | ok a =>
      exact h.effect (hperforms.1 a rfl) huntouched.nextLeaseId (by simpa using hleased a rfl)
  | error e =>
      rw [show s' = s from hperforms.2 e rfl h.faults]
      exact h

theorem deleteRangeAt_roomy {n : Nat} (req : DeleteRangeRequest) (rev : UInt64) {s : StoreState}
    (h : Roomy n s) : (deleteRangeAt req rev).Spec s fun _ s' => Roomy n s' := by
  intro hok
  have hperforms := deleteRangeAt_spec req rev s hok
  have huntouched := untouched_deleteRangeAt req rev s
  rcases hexec : exec (deleteRangeAt req rev) s with ⟨r, s'⟩
  rw [hexec] at hperforms huntouched
  cases r with
  | ok a =>
      refine h.effect (hperforms.1 a rfl) huntouched.nextLeaseId ?_
      intro w hw
      obtain ⟨key, prev, rfl⟩ := eq_delete_of_mem_deleteWrites hw
      trivial
  | error e =>
      rw [show s' = s from hperforms.2 e rfl h.faults]
      exact h

omit [LawfulCrates] in
theorem Roomy.taken {n : Nat} {s : StoreState} (h : Roomy n s) :
    Roomy n { s with nextRev := s.nextRev + 1 } :=
  h.of_leases rfl rfl h.next h.leases

/-- The ops of a transaction leave the leases alone. -/
theorem roomy_invariant (n : Nat) : TxnInvariant (fun _ s => Roomy n s) (Roomy n) :=
  .of_store Roomy.taken putAt_roomy deleteRangeAt_roomy

/-! ### Requests about leases -/

/-- The ids that the event makes the server take. -/
def Event.grants : Event → Nat
  | .request (.leaseGrant _ id _) => if id = 0 then 1 else 0
  | _ => 0

/-- The id that a client supplies with the event. -/
def Event.suppliedId : Event → Option Int64
  | .request (.leaseGrant _ id _) => if id = 0 then none else some id
  | _ => none

omit [Crates] [LawfulCrates] in
theorem ttlInRange_of_checkLeaseTtl {ttl t : Int64} (h : checkLeaseTtl ttl = .ok t) :
    TtlInRange t := by
  unfold checkLeaseTtl at h
  split at h
  · cases h
  · next hmax =>
      cases h
      split
      · exact ⟨Int64.le_refl _, by decide⟩
      · next hmin => exact ⟨Int64.not_lt.mp hmin, Int64.not_lt.mp hmax⟩

omit [Crates] [LawfulCrates] in
/-- An increment that stays below `2 ^ 63`. -/
theorem toInt_add_one {a : Int64} (h : a.toInt + 1 < 2 ^ 63) : (a + 1).toInt = a.toInt + 1 := by
  have hlow := Int64.le_toInt a
  rw [Int64.toInt_add]
  simp only [Int64.toInt_one]
  exact Int.bmod_eq_of_le (by omega) (by omega)

omit [LawfulCrates] in
theorem Roomy.insertLease {n : Nat} {s : StoreState} (h : Roomy n s) {id : Int64}
    (hid : HasRoom n id) (ls : LeaseState) (httl : TtlInRange ls.ttl) :
    Roomy n { s with leases := s.leases.insert id ls } := by
  refine h.of_leases rfl rfl h.next ?_
  intro id' ls' hls'
  rcases getElem?_insert_cases hls' with ⟨rfl, rfl⟩ | ⟨-, hls'⟩
  · exact ⟨hid, httl⟩
  · exact h.leases id' ls' hls'

omit [LawfulCrates] in
/-- A grant with an id of its own needs room above it, and one without takes it from the counter. -/
theorem leaseGrant_roomy {n : Nat} (now : Nat) {id : Int64} (ttl : Int64) {s : StoreState}
    (hid : id ≠ 0 → HasRoom n id) (h : Roomy (n + if id = 0 then 1 else 0) s) :
    (leaseGrant now id ttl).Spec s fun _ s' => Roomy n s' := by
  refine leaseGrant_rule now id ttl h.mono ?_ ?_
  · intro hne t ht
    refine grantLease_rule now t id h.mono ?_
    exact h.mono.insertLease (hid hne) _ (ttlInRange_of_checkLeaseTtl ht)
  · intro hzero t ht
    rw [if_pos hzero] at h
    have hnext := h.next
    have hroom : s.nextLeaseId.toInt + n + 1 < 2 ^ 63 := by omega
    have htaken : Roomy n { s with nextLeaseId := s.nextLeaseId + 1 } := by
      refine h.mono.of_leases rfl rfl ?_ h.mono.leases
      show (s.nextLeaseId + 1).toInt + n < 2 ^ 63
      rw [toInt_add_one (by omega)]
      omega
    refine grantLease_rule now t _ htaken ?_
    exact htaken.insertLease hroom _ (ttlInRange_of_checkLeaseTtl ht)

omit [LawfulCrates] in
theorem leaseKeepAlive_roomy {n : Nat} (now : Nat) (id : Int64) {s : StoreState} (h : Roomy n s) :
    (leaseKeepAlive now id).Spec s fun _ s' => Roomy n s' := by
  refine leaseKeepAlive_rule now id h ?_
  intro ls hls
  obtain ⟨hid, httl⟩ := h.leases id ls hls
  exact h.insertLease hid _ httl

omit [LawfulCrates] in
theorem Roomy.erase {n : Nat} {s : StoreState} (h : Roomy n s) (id : Int64) :
    Roomy n { s with leases := s.leases.erase id } := by
  refine h.of_leases rfl rfl h.next ?_
  intro id' ls hls
  rw [ExtTreeMap.getElem?_erase] at hls
  split at hls
  · cases hls
  · exact h.leases id' ls hls

theorem deleteBatch_roomy {n : Nat} {keys : List Bytes} (hnodup : keys.Nodup) (rev : UInt64)
    (e : Failure) {s : StoreState} (h : Roomy n s) :
    StoreM.Spec (do appendKvBatch (s.deleteRecords keys rev) e; applyDeletes keys rev) s
      fun _ s' => Roomy n s' := by
  intro hok
  have hperforms := deleteBatch_spec hnodup rev e s hok
  have huntouched := untouched_deleteBatch (s.deleteRecords keys rev) keys rev e s
  generalize exec _ s = p at hperforms huntouched ⊢
  obtain ⟨r, s'⟩ := p
  cases r with
  | ok a =>
      refine h.effect (hperforms.1 a rfl) huntouched.nextLeaseId ?_
      intro w hw
      obtain ⟨key, prev, rfl⟩ := eq_delete_of_mem_deletes hw
      trivial
  | error e' =>
      rw [show s' = s from hperforms.2 e' rfl h.faults]
      exact h

theorem deleteKeysForLease_roomy {n : Nat} (id : Int64) {s : StoreState} (h : Roomy n s) :
    (deleteKeysForLease id).Spec s fun _ s' => Roomy n s' :=
  deleteKeysForLease_rule id (fun _ => h) fun _ e hnodup _ =>
    deleteBatch_roomy hnodup s.nextRev e (Roomy.taken h)

/-- Every request keeps the room, but for what a grant takes. -/
theorem Roomy.answer {n : Nat} {q : Request} {s s' : StoreState}
    (h : Roomy (n + (Event.request q).grants) s)
    (hid : ∀ id ∈ (Event.request q).suppliedId, HasRoom n id) (hq : answer s q = some s') :
    Roomy n s' := by
  refine answer_spec ?_ hq
  cases q with
  | range req => exact StoreM.spec_read_bind (fun _ _ => h) fun _ _ => Prog.spec_pure h
  | put req => exact StoreM.spec_wrap (put_rule req h (putAt_roomy req _ (Roomy.taken h)))
  | deleteRange req =>
      exact StoreM.spec_wrap (deleteRange_rule req h (deleteRangeAt_roomy req _ (Roomy.taken h)))
  | txn req => exact StoreM.spec_wrap ((roomy_invariant n).txn_spec req h)
  | compact revision =>
      refine StoreM.spec_wrap (compact_rule revision (fun _ => h) fun _ _ _ => ?_)
      exact h.of_leases rfl rfl h.next h.leases
  | leaseGrant now id ttl =>
      refine StoreM.spec_wrap (leaseGrant_roomy now ttl ?_ h)
      intro hne
      exact hid id (if_neg hne)
  | leaseRevoke id =>
      exact StoreM.spec_wrap
        (leaseRevoke_rule id (fun _ => h) fun _ => deleteKeysForLease_roomy id (h.erase id))
  | leaseKeepAlive now id => exact StoreM.spec_wrap (leaseKeepAlive_roomy now id h)
  | leaseExpire now id =>
      exact StoreM.spec_wrap
        (leaseExpire_rule now id (fun _ => h) fun _ _ _ => deleteKeysForLease_roomy id (h.erase id))

/-! ### Restarts -/

omit [Crates] [LawfulCrates] in
/-- What is in a map after a sequence of inserts, or was before. -/
theorem getElem?_foldl_insert_cases {κ β : Type} {cmp : κ → κ → Ordering} [Std.TransCmp cmp]
    [Std.LawfulEqCmp cmp] {f : κ → β} {ids : List κ} {m : ExtTreeMap κ β cmp} {k : κ} {v : β}
    (h : (ids.foldl (fun m id => m.insert id (f id)) m)[k]? = some v) :
    (k ∈ ids ∧ v = f k) ∨ m[k]? = some v := by
  induction ids generalizing m with
  | nil => exact .inr h
  | cons a ids ih =>
      rcases ih h with ⟨hk, hv⟩ | h
      · exact .inl ⟨List.mem_cons_of_mem a hk, hv⟩
      · rcases getElem?_insert_cases h with ⟨rfl, rfl⟩ | ⟨-, h⟩
        · exact .inl ⟨List.mem_cons_self, rfl⟩
        · exact .inr h

omit [Crates] [LawfulCrates] in
/-- A restart restores lease ids of keys. -/
theorem hasRoom_restoredLeases {n : Nat} {s : StoreState} (h : s.keyspace.HasRoom n) {id : Int64}
    (hid : id ∈ s.restoredLeases) : HasRoom n id := by
  obtain ⟨_, hget⟩ := Option.isSome_iff_exists.mp
    (ExtTreeMap.mem_iff_isSome_getElem?.mp (ExtTreeMap.mem_keys.mp hid))
  rcases getElem?_foldl_insert_cases (f := fun _ => ()) hget with ⟨hmem, -⟩ | hget
  · obtain ⟨e, he, rfl⟩ := List.mem_map.mp hmem
    exact h e.1 e.2 (ExtTreeMap.mem_toList_iff_getElem?_eq_some.mp (List.mem_filter.mp he).1)
  · simp at hget

omit [LawfulCrates] in
/-- Replayed records give the keys their leases. -/
theorem hasRoom_replayAll? {n : Nat} {recs : List KvWalRecord} {K K' : Keyspace}
    (h : K.HasRoom n) (hrecs : ∀ rec ∈ recs, rec.HasRoom n) (hK' : K.replayAll? recs = some K') :
    K'.HasRoom n := by
  refine Keyspace.replayAll?_invariant hK' h ?_
  intro K K₁ rec hrec h hK₁ key ks hks
  obtain rfl | ⟨prev, halive, rfl⟩ | ⟨kv, n, hput, hkv, rfl⟩ := Keyspace.replay?_cases hK₁
  · exact h key ks hks
  · rcases getElem?_insert_cases hks with ⟨-, rfl⟩ | ⟨-, hks⟩
    · exact h _ prev (aliveIn_eq_some.mp halive).1
    · exact h key ks hks
  · rcases getElem?_insert_cases hks with ⟨-, rfl⟩ | ⟨-, hks⟩
    · exact hrecs rec hrec hput kv hkv
    · exact h key ks hks

/-- The highest lease id a restart finds, zero if it finds none. -/
def StoreState.maxRestored (s : StoreState) : Int64 := s.restoredLeases.getLast?.getD 0

omit [Crates] [LawfulCrates] in
/-- The highest id that a restart finds leaves the room that every id leaves. -/
theorem hasRoom_maxRestored {n : Nat} (hn : n + 1 < 2 ^ 63) {s : StoreState}
    (h : s.keyspace.HasRoom n) : HasRoom n s.maxRestored := by
  unfold StoreState.maxRestored
  cases hlast : s.restoredLeases.getLast? with
  | none =>
      show (0 : Int) + n + 1 < 2 ^ 63
      omega
  | some id => exact hasRoom_restoredLeases h (List.mem_of_getLast? hlast)

omit [LawfulCrates] in
/-- A restart counts on from there. -/
theorem roomy_opened {n : Nat} (hn : n + 1 < 2 ^ 63) (now : Nat) (contents : Bytes)
    (recs : List KvWalRecord) {K : Keyspace} (hK : K.HasRoom n) :
    Roomy n (opened now contents recs K) where
  faults := rfl
  count := hn
  next := by
    have hmax : HasRoom n (opened now contents recs K).maxRestored := hasRoom_maxRestored hn hK
    unfold HasRoom at hmax
    show (if (opened now contents recs K).maxRestored > 0
      then (opened now contents recs K).maxRestored + 1 else 1).toInt + n < 2 ^ 63
    split
    · rw [toInt_add_one (by omega)]
      omega
    · show (1 : Int) + n < 2 ^ 63
      omega
  leases := by
    intro id ls hls
    rcases getElem?_foldl_insert_cases hls with ⟨hid, rfl⟩ | hls
    · have hdefault : TtlInRange 3600 := ⟨by decide, by decide⟩
      exact ⟨hasRoom_restoredLeases hK hid, hdefault⟩
    · simp [StoreState.withKeyspace, StoreState.new] at hls
  keys := hK
  log := by
    intro rec hrec
    cases hrec

/-! ### Every state of the server

An id is in the leases, in entries, in records and in the records of a compaction under way; the
room has to be there for all of them, since each can come back by a restart.
-/

/-- The ids that the events make the server take. -/
def freshGrants (evs : List Event) : Nat := (evs.map Event.grants).sum

/-- Every id that a client supplies leaves room for those the server takes later. -/
def IdsLeaveRoom : List Event → Prop
  | [] => True
  | ev :: evs => (∀ id ∈ ev.suppliedId, HasRoom (freshGrants evs) id) ∧ IdsLeaveRoom evs

/-- The store leaves room, and so does the file, and the one a running compaction prepares. -/
structure Capped (n : Nat) (sys : System) : Prop extends Roomy n sys.store where
  file : ∃ recs, sys.store.wal.contents = serializeAll recs ∧
    ∀ rec ∈ recs, rec.WellFormed ∧ rec.HasRoom n
  pending : ∀ c, sys.compaction = some c → ∃ base ws, Pending sys.store c base ws ∧
    base.HasRoom n ∧ ∀ w ∈ ws, w.record.HasRoom n

omit [LawfulCrates] in
theorem Capped.mono {k n : Nat} {sys : System} (h : Capped (n + k) sys) : Capped n sys where
  toRoomy := h.toRoomy.mono
  file := by
    obtain ⟨recs, hcontents, hrecs⟩ := h.file
    exact ⟨recs, hcontents, fun rec hrec => ⟨(hrecs rec hrec).1, (hrecs rec hrec).2.mono⟩⟩
  pending := by
    intro c hc
    obtain ⟨base, ws, hp, hbase, hws⟩ := h.pending c hc
    exact ⟨base, ws, hp, hbase.mono, fun w hw => (hws w hw).mono⟩

omit [LawfulCrates] in
theorem capped_fresh {n : Nat} (hn : n + 1 < 2 ^ 63) : Capped n ⟨fresh, none⟩ where
  faults := rfl
  count := hn
  next := by
    show (1 : Int) + n < 2 ^ 63
    omega
  leases := by simp [fresh, StoreState.new]
  keys := by
    intro key ks hks
    simp [fresh, StoreState.new] at hks
  log := by simp [fresh, StoreState.new, WalFile.open]
  file := ⟨[], rfl, by simp⟩
  pending := by simp

/-- Writes keep it so. -/
theorem Capped.commits {n : Nat} {sys : System} (h : Capped n sys) {s' : StoreState}
    {ws : List Write} (hs' : Roomy n s') (hc : Commits sys.store ws s')
    (hfit : ∀ w ∈ ws, w.record.Fits) : Capped n { sys with store := s' } := by
  have hroom : ∀ w ∈ ws, w.record.HasRoom n := by
    intro w hw
    refine hs'.log _ ?_ (hfit w hw)
    rw [hc.log]
    exact List.mem_append_right _ (List.mem_map_of_mem hw)
  refine ⟨hs', ?_, ?_⟩
  · obtain ⟨recs, hcontents, hrecs⟩ := h.file
    refine ⟨recs ++ ws.map Write.record, ?_, ?_⟩
    · rw [hc.contents, hcontents, serializeAll_append]
    · intro rec hrec
      rcases List.mem_append.mp hrec with hrec | hrec
      · exact hrecs rec hrec
      · obtain ⟨w, hw, rfl⟩ := List.mem_map.mp hrec
        exact ⟨(Write.record_spec (hfit w hw)).1, hroom w hw⟩
  · intro c hcomp
    obtain ⟨base, vs, hp, hbase, hvs⟩ := h.pending c hcomp
    refine ⟨base, vs ++ ws, hp.commits hc hfit, hbase, ?_⟩
    intro w hw
    rcases List.mem_append.mp hw with hw | hw
    · exact hvs w hw
    · exact hroom w hw

/-- A record of a snapshot carries the lease of its entry. -/
theorem hasRoom_snapshotRecord {n : Nat} {key : Bytes} {ks : KeyState}
    (hfit : (snapshotRecord key ks).Fits) (h : HasRoom n ks.lease) :
    (snapshotRecord key ks).HasRoom n := by
  intro _ kv hkv
  obtain ⟨-, -, -, hdec⟩ := KvWalRecord.Fits.new_spec hfit
  obtain rfl := Option.some.inj (hdec.symm.trans hkv)
  exact h

/-- **Every event keeps it so**, restarts included, and takes the ids it takes from the room. A
restart is the reason for looking at the file: it makes a lease for every id on an alive key, and
counts on from the highest. -/
theorem Capped.step {n : Nat} {sys sys' : System} {ev : Event} (h : Capped (n + ev.grants) sys)
    (hid : ∀ id ∈ ev.suppliedId, HasRoom n id) (hfit : sys.StepFits ev)
    (hstep : sys.step ev = some sys') : Capped n sys' := by
  cases System.moves_of_step h.faults hstep with
  | @request q ws s' hq hserved =>
      refine h.mono.commits (h.toRoomy.answer hid hq) hserved.toCommits ?_
      intro w hw
      refine hfit s' hq _ ?_
      rw [hserved.log]
      exact List.mem_append_right _ (List.mem_map_of_mem hw)
  | watch hquiet =>
      cases hstep
      have huntouched := untouched_flushGlobalBatch sys.store
      refine h.mono.commits ?_ (hquiet.served h.faults).toCommits (by simp)
      refine h.toRoomy.mono.of_leases hquiet.wal hquiet.keyspace ?_ ?_
      · rw [(huntouched _).nextLeaseId]
        exact h.toRoomy.mono.next
      · rw [(huntouched _).leases]
        exact h.leases
  | cancelWatch hquiet =>
      cases hstep
      refine h.mono.commits ?_ ((quiet_cancelWatcher _ _).served h.faults).toCommits (by simp)
      exact h.toRoomy.mono.of_leases rfl rfl h.next h.leases
  | compactA hnone =>
      refine ⟨h.toRoomy, h.file, ?_⟩
      -- the snapshot is a copy of the map, with the room the map has
      intro c hc
      cases hc
      exact ⟨_, [], .start hfit, h.keys, by simp⟩
  | @compactB c c' hcomp htarget hsize =>
      refine ⟨h.toRoomy, h.file, ?_⟩
      intro c'' hc
      cases hc
      obtain ⟨base, ws, hp, hrest⟩ := h.pending c hcomp
      exact ⟨base, ws, hp.phaseB htarget hsize, hrest⟩
  | @compactC c hcomp =>
      obtain ⟨base, ws, hp, hbase, hws⟩ := h.pending c hcomp
      refine ⟨⟨h.faults, h.count, h.next, h.leases, h.keys, h.log⟩,
        ⟨_, hp.contents_swap, ?_⟩, by simp⟩
      intro rec hrec
      -- the new file is the snapshot and then what was written during the compaction
      refine ⟨wellFormed_compacted hp.snapshot_fits hp.fits rec hrec, ?_⟩
      rcases List.mem_append.mp hrec with hrec | hrec
      · obtain ⟨e, he, rfl⟩ := List.mem_map.mp hrec
        refine hasRoom_snapshotRecord (hp.snapshot_fits e he) (hbase e.1 e.2 ?_)
        exact (aliveIn_eq_some.mp (mem_aliveEntries.mp he)).1
      · obtain ⟨w, hw, rfl⟩ := List.mem_map.mp hrec
        exact hws w hw
  | compactFails => exact ⟨h.toRoomy, h.file, by simp⟩
  | restart hopen =>
      obtain ⟨recs, hcontents, hrecs⟩ := h.file
      obtain ⟨recs', m, K, hscan, hK, rfl⟩ := openStore_eq_ok hopen
      rw [hcontents, scanKvFile_serializeAll fun r hr => (hrecs r hr).1] at hscan
      cases hscan
      have hroom : K.HasRoom n := by
        refine hasRoom_replayAll? ?_ ?_ hK
        · intro key ks hks
          simp [Keyspace.empty] at hks
        · intro rec hrec
          exact (hrecs rec (List.mem_of_mem_filter hrec)).2
      exact ⟨roomy_opened h.count _ _ _ hroom, ⟨recs, hcontents, hrecs⟩, by simp⟩

/-- Along a run the room shrinks by the ids that it takes. -/
theorem Capped.run {evs rest : List Event} {sys sys' : System}
    (h : Capped (freshGrants (evs ++ rest)) sys) (hids : IdsLeaveRoom (evs ++ rest))
    (hfit : Trace.Along System.step System.StepFits sys evs)
    (hrun : System.run sys evs = some sys') :
    Capped (freshGrants rest) sys' ∧ IdsLeaveRoom rest := by
  induction evs generalizing sys with
  | nil =>
      cases hrun
      exact ⟨h, hids⟩
  | cons ev evs ih =>
      rw [System.run, Trace.run_cons, Option.bind_eq_some_iff] at hrun
      obtain ⟨s₁, hs₁, hrest⟩ := hrun
      refine ih ?_ hids.2 (hfit.2 s₁ hs₁) hrest
      have h' : Capped (freshGrants (evs ++ rest) + ev.grants) sys := by
        rw [Nat.add_comm]
        exact h
      exact h'.step hids.1 hfit.1 hs₁

/-! ### In range -/

/-- What a request computes from integers that clients supplied, other than capacities: revisions
it accepts can be counted on from, a TTL it adds to an instant is at most `LEASE_MAX_TTL`, and the
counter of lease ids does not wrap. -/
def Request.InRange (s : StoreState) : Request → Prop
  | .range req => ∀ resp, Rudurru.range s req = .ok resp →
      (if req.revision > 0 then req.revision.toUInt64 else 0).toNat + 1 < 2 ^ 64
  | .compact revision => ∀ header, (exec (Rudurru.compact revision) s).1 = .ok header →
      revision.toUInt64.toNat + 1 < 2 ^ 64
  | .leaseGrant _ id ttl => ∀ t, checkLeaseTtl ttl = .ok t →
      t.toUInt64.toNat ≤ leaseMaxTtl.toUInt64.toNat ∧
        (id = 0 → (s.nextLeaseId + 1).toInt = s.nextLeaseId.toInt + 1)
  | .leaseKeepAlive _ id => ∀ ls, s.leases[id]? = some ls →
      ls.ttl.toUInt64.toNat ≤ leaseMaxTtl.toUInt64.toNat
  | .put _ | .deleteRange _ | .txn _ | .leaseRevoke _ | .leaseExpire _ _ => True

/-- What an event computes from integers that clients supplied is in range: requests allocate no
more than `isize::MAX` bytes and compute in range, the start revision of a watch is what it is
meant to be, and a restart counts on from the highest lease id it finds. -/
def System.InRange (sys : System) : Event → Prop
  | .request q => (exec (handle q) sys.store).1 ≠ .error capacityOverflow ∧ q.InRange sys.store
  | .watch _ => ∀ requested : Int64, (resolveStartRevision sys.store requested.toUInt64).toNat
      = if requested = 0 then sys.store.currentRevision.toNat + 1 else requested.toUInt64.toNat
  | .restart now => ∀ s', openStore now sys.store.wal.contents = .ok s' →
      (s'.maxRestored + 1).toInt = s'.maxRestored.toInt + 1
  | .cancelWatch _ | .compactA | .compactB | .compactC | .compactFails => True

/-- A request gets to a range that reserves too much. -/
def System.oversized (sys : System) : Event → Bool
  | .request q => capacityHazard.request sys.store q
  | _ => false

omit [Crates] [LawfulCrates] in
theorem toNat_currentRevision_succ_lt (s : StoreState) :
    s.currentRevision.toNat + 1 < 2 ^ 64 := by
  unfold StoreState.currentRevision
  split
  · decide
  · next hne =>
      have hpos : s.nextRev.toNat ≠ 0 := fun h => hne (UInt64.toNat_inj.mp h)
      have hone : (1 : UInt64) ≤ s.nextRev := UInt64.le_iff_toNat_le.mpr (by
        show 1 ≤ s.nextRev.toNat
        omega)
      rw [UInt64.toNat_sub_of_le _ _ hone]
      have hlt := s.nextRev.toNat_lt
      show s.nextRev.toNat - 1 + 1 < 2 ^ 64
      omega

omit [Crates] [LawfulCrates] in
theorem succ_lt_of_le_currentRevision {s : StoreState} {r : UInt64} (h : r ≤ s.currentRevision) :
    r.toNat + 1 < 2 ^ 64 := by
  have := toNat_currentRevision_succ_lt s
  have := UInt64.le_iff_toNat_le.mp h
  omega

omit [LawfulCrates] in
/-- A range that is answered asks for a revision there is. -/
theorem le_currentRevision_of_range {s : StoreState} {req : RangeRequest} {resp : RangeResponse}
    (h : range s req = .ok resp) :
    (if req.revision > 0 then req.revision.toUInt64 else 0) ≤ s.currentRevision := by
  by_contra hfuture
  unfold range at h
  obtain ⟨_, -, h⟩ := Prog.bind_eq_ok.mp h
  simp only [gt_iff_lt, if_pos (UInt64.not_le.mp hfuture)] at h
  cases h

omit [Crates] [LawfulCrates] in
/-- A compaction that is accepted is at a revision there is. -/
theorem le_currentRevision_of_compact {s : StoreState} {revision : Int64} {header : ResponseHeader}
    (h : (exec (compact revision) s).1 = .ok header) :
    revision.toUInt64 ≤ s.currentRevision := by
  by_contra hfuture
  unfold compact at h
  rw [Prog.exec_bind, Prog.exec_get] at h
  simp only [gt_iff_lt, if_pos (UInt64.not_le.mp hfuture)] at h
  cases h

omit [Crates] [LawfulCrates] in
theorem TtlInRange.toNat_le {ttl : Int64} (h : TtlInRange ttl) :
    ttl.toUInt64.toNat ≤ leaseMaxTtl.toUInt64.toNat := by
  obtain ⟨hmin, hmax⟩ := h
  exact UInt64.le_iff_toNat_le.mp (Int64.toUInt64_le (Int64.le_trans (by decide) hmin) hmax)

omit [LawfulCrates] in
/-- With room for what a request grants, its sums are in range. -/
theorem Roomy.inRange {n : Nat} {s : StoreState} {q : Request}
    (h : Roomy (n + (Event.request q).grants) s) : q.InRange s := by
  cases q with
  | range req =>
      intro resp hresp
      exact succ_lt_of_le_currentRevision (le_currentRevision_of_range hresp)
  | compact revision =>
      intro header hheader
      exact succ_lt_of_le_currentRevision (le_currentRevision_of_compact hheader)
  | leaseGrant now id ttl =>
      intro t ht
      refine ⟨(ttlInRange_of_checkLeaseTtl ht).toNat_le, ?_⟩
      intro hzero
      have hnext := h.next
      rw [Event.grants, if_pos hzero] at hnext
      exact toInt_add_one (by omega)
  | leaseKeepAlive now id =>
      intro ls hls
      exact (h.leases id ls hls).2.toNat_le
  | put req | deleteRange req | txn req | leaseRevoke id | leaseExpire now id => trivial

omit [Crates] [LawfulCrates] in
/-- The start revision of a watch. -/
theorem toNat_resolveStartRevision (s : StoreState) (requested : Int64) :
    (resolveStartRevision s requested.toUInt64).toNat
      = if requested = 0 then s.currentRevision.toNat + 1 else requested.toUInt64.toNat := by
  have hzero : requested.toUInt64 = 0 ↔ requested = 0 := by
    constructor
    · intro h
      rw [← Int64.toInt64_toUInt64 requested, h]
      rfl
    · rintro rfl
      rfl
  unfold resolveStartRevision
  by_cases hreq : requested = 0
  · rw [if_pos hreq, if_pos (hzero.mpr hreq), UInt64.toNat_add]
    exact Nat.mod_eq_of_lt (toNat_currentRevision_succ_lt s)
  · rw [if_neg hreq, if_neg fun h => hreq (hzero.mp h)]

/-- **Client-supplied integers stay in range** in every state of the server, but for a range that
reserves room for 2^58 keys or more, as long as the lease ids that clients chose leave room for
those that the server makes. -/
theorem client_integers_in_range {evs : List Event} {ev : Event} {sys : System}
    (hrun : System.run ⟨fresh, none⟩ evs = some sys)
    (hfit : Trace.Along System.step System.StepFits ⟨fresh, none⟩ evs)
    (hcount : freshGrants (evs ++ [ev]) + 1 < 2 ^ 63) (hids : IdsLeaveRoom (evs ++ [ev])) :
    sys.InRange ev ↔ sys.oversized ev = false := by
  obtain ⟨hcapped, -⟩ := (capped_fresh hcount).run hids hfit hrun
  have hroom : Roomy (0 + ev.grants) sys.store := by
    have hgrants : freshGrants [ev] = 0 + ev.grants := by simp [freshGrants]
    rw [← hgrants]
    exact hcapped.toRoomy
  cases ev with
  | request q =>
      show _ ∧ _ ↔ capacityHazard.request sys.store q = false
      rw [and_iff_left hroom.inRange, ← Bool.not_eq_true]
      exact not_congr (capacityHazard_exact.handle (by decide) q sys.store)
  | watch batch => exact iff_of_true (toNat_resolveStartRevision sys.store) rfl
  | restart now =>
      refine iff_of_true ?_ rfl
      intro s' hopen
      have hstep : sys.step (.restart now) = some ⟨s', none⟩ := by
        rw [System.step, System.boot, hopen]
        rfl
      have hsupplied : ∀ id ∈ (Event.restart now).suppliedId, HasRoom 0 id := by
        simp [Event.suppliedId]
      -- the leases of the new store are those that its entries name, and they leave as much room
      have hreopened : Capped 0 ⟨s', none⟩ := hcapped.step hsupplied trivial hstep
      have hmax : HasRoom 0 s'.maxRestored :=
        hasRoom_maxRestored hreopened.count hreopened.keys
      unfold HasRoom at hmax
      exact toInt_add_one (by omega)
  | cancelWatch watchId | compactA | compactB | compactC | compactFails =>
      exact iff_of_true trivial rfl

end

/-- A lease id chosen by a client, attached to a key and found again by a restart. -/
theorem client_integers_in_range_restart :
    ∃ sys, System.run ⟨fresh, none⟩ [.request (.leaseGrant 0 7 60),
        .request (.put { key := [1], lease := 7 })] = some sys ∧
      (sys.InRange (.restart 0) ↔ sys.oversized (.restart 0) = false) := by
  have hrun : (System.run ⟨fresh, none⟩ [.request (.leaseGrant 0 7 60),
      .request (.put { key := [1], lease := 7 })]).isSome = true := by
    decide +kernel
  obtain ⟨sys, hsys⟩ := Option.isSome_iff_exists.mp hrun
  refine ⟨sys, hsys, client_integers_in_range hsys (by decide +kernel) (by decide) ?_⟩
  refine ⟨?_, ?_, ?_, trivial⟩
  · intro id hid
    obtain rfl : 7 = id := by simpa [Event.suppliedId] using hid
    show (7 : Int) + _ + 1 < 2 ^ 63
    decide
  · simp [Event.suppliedId]
  · simp [Event.suppliedId]

/-- A limit of 2^58 is more than a vector can hold; and the highest lease id there is, once attached
to a key, wraps the counter of a restart. -/
theorem client_integers_overflow :
    ∃ sys, System.run ⟨fresh, none⟩ [.request (.leaseGrant 0 9223372036854775807 60),
        .request (.put { key := [1], lease := 9223372036854775807 })] = some sys ∧
      ¬ sys.InRange
        (.request (.range { key := [0], rangeEnd := [0], limit := 288230376151711744 })) ∧
      ¬ sys.InRange (.restart 0) := by
  have hrun : (System.run ⟨fresh, none⟩ [.request (.leaseGrant 0 9223372036854775807 60),
      .request (.put { key := [1], lease := 9223372036854775807 })]).any (fun sys =>
        (openStore 0 sys.store.wal.contents).toOption.any
          (·.maxRestored = 9223372036854775807)) = true := by
    decide +kernel
  obtain ⟨sys, hsys, hopen⟩ := (Option.any_eq_true _ _).mp hrun
  obtain ⟨s', hs', hmax⟩ := (Option.any_eq_true _ _).mp hopen
  refine ⟨sys, hsys, ?_, ?_⟩
  · intro h
    refine h.1 ((capacityHazard_exact.handle (by decide) _ sys.store).mpr ?_)
    have hcapacity : sys.store.capacity
        { key := [0], rangeEnd := [0], limit := 288230376151711744 } = 2 ^ 58 := if_pos (by decide)
    simp [Hazard.request, capacityHazard, rangeOversized, currentOversized, hcapacity]
  · intro h
    have hsucc := h s' (Prog.ok_of_toOption hs')
    rw [of_decide_eq_true hmax] at hsucc
    revert hsucc
    decide

end Rudurru
