import Rudurru.Forgery
import Rudurru.History
import Rudurru.Txn.Duplicates
import Rudurru.Watermark

/-!
# Rudurru.Leases

Keys and their leases. A put checks the lease it attaches, also one it inherits; a lease that is
revoked or that expires takes its keys with it; and a restart, which knows of no leases, makes one
for every lease id it finds on an alive key. So no alive key has a lease that is not there
(`no_orphaned_lease`), as long as a deletion leaves a tombstone: at revision zero, which a counter
that has wrapped hands out, it does not.

The invariant (`Attached`) is that every lease on an alive key is known. Only three kinds of event
touch it: a put, which checks the lease or inherits a known one; the removal of a lease, which
deletes every key that has it (`Dropped`); and a restart, which makes a lease for every id on the
keys it reads. The counterexample is a removal at the last revision: the counter wraps, the deletion
is at revision zero, and an entry with `delete_revision` zero is alive.
-/

namespace Rudurru

open Std (ExtTreeMap)
open Prog (exec)

/-- Every alive key with a lease has one that is known. -/
def StoreState.NoOrphans (s : StoreState) : Prop :=
  ∀ (key : Bytes) (ks : KeyState), s.alive? key = some ks → ks.lease ≠ 0 →
    s.leases.contains ks.lease = true

/-- The lease `id` was dropped: it is gone, its alive keys are deleted, and the others are as they
were. The keys stay in the map, as tombstones. -/
structure Dropped (id : Int64) (s s' : StoreState) : Prop where
  leases : s'.leases = s.leases.erase id
  deleted : ∀ (key : Bytes) (ks : KeyState), s.alive? key = some ks → ks.lease = id →
    s'.alive? key = none
  others : ∀ key : Bytes, (∀ ks, s.alive? key = some ks → ks.lease ≠ id) →
    s'.keys[key]? = s.keys[key]?

/-- The lease that a request drops, if it does. -/
def Request.drops (s : StoreState) : Request → Option Int64
  | .leaseRevoke id => if s.leases.contains id then some id else none
  | .leaseExpire now id => if s.leases[id]?.any (·.expiresAt ≤ now) then some id else none
  | _ => none

/-- A store whose appends succeed and whose leases are known. -/
structure Attached (s : StoreState) : Prop where
  faults : s.wal.faults = []
  known : s.NoOrphans

/-- What does not touch the map and forgets no lease. -/
theorem Attached.of_keys {s s' : StoreState} (h : Attached s) (hkeys : s'.keys = s.keys)
    (hleases : ∀ id, s.leases.contains id = true → s'.leases.contains id = true)
    (hwal : s'.wal.faults = s.wal.faults) : Attached s' where
  faults := hwal.trans h.faults
  known := by
    intro key ks hks hlease
    rw [StoreState.alive?, hkeys] at hks
    exact hleases _ (h.known key ks hks hlease)

theorem contains_insert_of_contains {β : Type} {m : ExtTreeMap Int64 β} {id id' : Int64} {v : β}
    (h : m.contains id = true) : (m.insert id' v).contains id = true := by
  rw [ExtTreeMap.contains_insert, h, Bool.or_true]

/-- A put attaches a lease that is known. -/
def Write.Leased (leases : ExtTreeMap Int64 LeaseState) : Write → Prop
  | .put _ _ lease _ _ => lease ≠ 0 → leases.contains lease = true
  | .delete _ _ _ => True

/-- What is alive after a drop was alive before, with another lease. -/
theorem Dropped.alive {id : Int64} {s s' : StoreState} (h : Dropped id s s') {key : Bytes}
    {ks : KeyState} (hks : s'.alive? key = some ks) : s.alive? key = some ks ∧ ks.lease ≠ id := by
  by_cases hkey : ∀ ks, s.alive? key = some ks → ks.lease ≠ id
  · have hsame : s'.alive? key = s.alive? key := by
      rw [StoreState.alive?, StoreState.alive?, aliveIn, aliveIn, h.others key hkey]
    rw [hsame] at hks
    exact ⟨hks, hkey ks hks⟩
  · push Not at hkey
    obtain ⟨p, hp, hlease⟩ := hkey
    rw [h.deleted key p hp hlease] at hks
    cases hks

/-- After a drop, the remaining leases are known. -/
theorem Dropped.attached {id : Int64} {s s' : StoreState} (h : Dropped id s s')
    (hs : Attached s) (hfaults : s'.wal.faults = []) : Attached s' where
  faults := hfaults
  known := by
    intro key ks hks hlease
    obtain ⟨hold, hne⟩ := h.alive hks
    rw [h.leases, ExtTreeMap.contains_erase, hs.known key ks hold hlease]
    simpa using fun heq => hne heq.symm

section

variable [Crates]

/-- Writes keep the leases known. -/
theorem Attached.effect {s s' : StoreState} {ws : List Write} (h : Attached s)
    (he : Effect s ws s') (hws : ∀ w ∈ ws, w.Leased s.leases) : Attached s' where
  faults := he.faults h.faults
  known := by
    have hkeys : ∀ (key : Bytes) (ks : KeyState), aliveIn s'.keyspace.keys key = some ks →
        ks.lease ≠ 0 → s.leases.contains ks.lease = true := by
      refine he.run.invariant (P := fun K => ∀ (key : Bytes) (ks : KeyState),
        aliveIn K.keys key = some ks → ks.lease ≠ 0 → s.leases.contains ks.lease = true) h.known ?_
      intro K w hw hK haccepts key ks hks
      obtain ⟨hget, halive⟩ := aliveIn_eq_some.mp hks
      cases w with
      | put k value lease rev prev =>
          rcases getElem?_insert_cases hget with ⟨-, rfl⟩ | ⟨-, hget⟩
          · exact hws _ hw
          · exact hK key ks (aliveIn_eq_some.mpr ⟨hget, halive⟩)
      | delete k rev prev =>
          rcases getElem?_insert_cases hget with ⟨-, rfl⟩ | ⟨-, hget⟩
          · exact hK k prev haccepts.1
          · exact hK key ks (aliveIn_eq_some.mpr ⟨hget, halive⟩)
    intro key ks hks
    rw [he.leases]
    exact hkeys key ks hks

/-- A put that succeeds has found its lease. -/
theorem putAt_leased (req : PutRequest) (rev : UInt64) (s : StoreState) :
    (putAt req rev).Spec s fun r _ => ∀ a, r = .ok a → (s.putWrite req rev).Leased s.leases := by
  unfold putAt
  refine Prog.spec_get_bind ?_
  dsimp only
  split
  · exact Prog.spec_throw_bind (by simp)
  split
  · exact Prog.spec_throw_bind (by simp)
  · next hknown =>
      intro _ a _ hlease
      by_contra hunknown
      exact hknown ⟨hlease, (Bool.not_eq_true' _).mpr (Bool.eq_false_iff.mpr hunknown)⟩

theorem putAt_attached (req : PutRequest) (rev : UInt64) {s : StoreState} (h : Attached s) :
    (putAt req rev).Spec s fun _ s' => Attached s' := by
  intro hok
  have hperforms := putAt_spec req rev s hok
  have hleased := putAt_leased req rev s hok
  rcases hexec : exec (putAt req rev) s with ⟨r, s'⟩
  rw [hexec] at hperforms hleased
  cases r with
  | ok a => exact h.effect (hperforms.1 a rfl) (by simpa using hleased a rfl)
  | error e =>
      rw [show s' = s from hperforms.2 e rfl h.faults]
      exact h

theorem deleteRangeAt_attached (req : DeleteRangeRequest) (rev : UInt64) {s : StoreState}
    (h : Attached s) : (deleteRangeAt req rev).Spec s fun _ s' => Attached s' := by
  refine (deleteRangeAt_spec req rev s).mono ?_
  intro r s' hr
  cases r with
  | ok a =>
      refine h.effect (hr.1 a rfl) ?_
      intro w hw
      obtain ⟨key, prev, rfl⟩ := eq_delete_of_mem_deleteWrites hw
      trivial
  | error e =>
      rw [hr.2 e rfl h.faults]
      exact h

/-! ### Requests -/

theorem attached_invariant : TxnInvariant (fun _ s => Attached s) Attached :=
  .of_store (fun h => h.of_keys rfl (fun _ hid => hid) rfl) putAt_attached deleteRangeAt_attached

omit [Crates] in
theorem Attached.insertLease {s : StoreState} (h : Attached s) (id : Int64) (ls : LeaseState) :
    Attached { s with leases := s.leases.insert id ls } :=
  h.of_keys rfl (fun _ hid => contains_insert_of_contains hid) rfl

omit [Crates] in
theorem leaseGrant_attached (now : Nat) (id ttl : Int64) {s : StoreState} (h : Attached s) :
    (leaseGrant now id ttl).Spec s fun _ s' => Attached s' := by
  refine leaseGrant_rule now id ttl h ?_ ?_
  · intro _ t _
    exact grantLease_rule now t id h (h.insertLease _ _)
  · intro _ t _
    have htaken : Attached { s with nextLeaseId := s.nextLeaseId + 1 } :=
      h.of_keys rfl (fun _ hid => hid) rfl
    exact grantLease_rule now t _ htaken (htaken.insertLease _ _)

/-! ### Dropping a lease

The lease goes first, then its keys in one batch at one revision.
-/

/-- Deleting the alive keys of a lease, at a revision that makes a tombstone. -/
theorem Effect.dropped {id : Int64} {s t s' : StoreState} {keys : List Bytes} {rev : UInt64}
    (h : Effect t (s.deletes keys rev) s') (hkeys : t.keys = s.keys)
    (hleases : t.leases = s.leases.erase id) (hrev : rev ≠ 0)
    (hmem : ∀ key, key ∈ keys ↔ ∃ ks, s.alive? key = some ks ∧ ks.lease = id) :
    Dropped id s s' := by
  have hwritten : (s.deletes keys rev).map Write.key = keys := by
    refine map_key_deletes rev ?_
    intro key hkey
    obtain ⟨ks, hks, -⟩ := (hmem key).mp hkey
    rw [hks]
    rfl
  refine ⟨h.leases.trans hleases, ?_, ?_⟩
  · intro key ks hks hlease
    obtain ⟨ks', hget, hdel⟩ := h.run.deleted (fun w hw => eq_delete_of_mem_deletes hw)
      (by rw [hwritten]; exact (hmem key).mpr ⟨ks, hks, hlease⟩)
    rw [StoreState.keyspace_keys] at hget
    rw [StoreState.alive?, aliveIn, hget, Option.filter_some, if_neg]
    simpa [KeyState.isAlive, hdel] using hrev
  · intro key hkey
    have hunwritten : key ∉ (s.deletes keys rev).map Write.key := by
      rw [hwritten, hmem]
      intro hex
      obtain ⟨ks, hks, hlease⟩ := hex
      exact hkey ks hks hlease
    have hsame := h.run.getElem?_of_not_mem hunwritten
    rw [StoreState.keyspace_keys, StoreState.keyspace_keys, hkeys] at hsame
    exact hsame

/-- Deleting the keys of a lease that has been removed drops it. -/
theorem deleteKeysForLease_dropped (id : Int64) {s : StoreState} (h : s.wal.faults = [])
    (hrev : s.nextRev ≠ 0) :
    (deleteKeysForLease id).Spec { s with leases := s.leases.erase id } fun _ s' =>
      Dropped id s s' ∧ s'.wal.faults = [] := by
  refine deleteKeysForLease_rule id ?_ ?_
  · intro hnone
    refine ⟨⟨rfl, ?_, fun _ _ => rfl⟩, h⟩
    intro key ks hks hlease
    exact absurd hlease (hnone key ks hks)
  · intro keys e hnodup hmem hok
    have hperforms := deleteBatch_spec hnodup s.nextRev _
      { s with leases := s.leases.erase id, nextRev := s.nextRev + 1 } hok
    have hreturns := deleteBatch_returns hnodup s.nextRev _
      (s := { s with leases := s.leases.erase id, nextRev := s.nextRev + 1 }) h hok
    have heffect := hperforms.1 () hreturns
    exact ⟨Effect.dropped (s := s) heffect rfl rfl hrev hmem, heffect.faults h⟩

theorem leaseRevoke_dropped (id : Int64) {s : StoreState} (h : s.wal.faults = [])
    (hrev : s.nextRev ≠ 0) (hid : s.leases.contains id = true) :
    (leaseRevoke id).Spec s fun _ s' => Dropped id s s' ∧ s'.wal.faults = [] := by
  refine leaseRevoke_rule id ?_ fun _ => deleteKeysForLease_dropped id h hrev
  intro hunknown
  rw [hid] at hunknown
  cases hunknown

theorem leaseExpire_dropped (now : Nat) (id : Int64) {s : StoreState} (h : s.wal.faults = [])
    (hrev : s.nextRev ≠ 0) {ls : LeaseState} (hls : s.leases[id]? = some ls)
    (hdue : ls.expiresAt ≤ now) :
    (leaseExpire now id).Spec s fun _ s' => Dropped id s s' ∧ s'.wal.faults = [] := by
  refine leaseExpire_rule now id ?_ fun _ _ _ => deleteKeysForLease_dropped id h hrev
  intro hnone
  exact absurd hdue (hnone ls hls)

/-- A revocation or an expiry drops the lease. -/
theorem answer_dropped {q : Request} {id : Int64} {s s' : StoreState} (hs : s.wal.faults = [])
    (hrev : s.nextRev ≠ 0) (hq : q.drops s = some id) (h : answer s q = some s') :
    Dropped id s s' ∧ s'.wal.faults = [] := by
  refine answer_spec (E := fun s' => Dropped id s s' ∧ s'.wal.faults = []) ?_ h
  cases q with
  | leaseRevoke id' =>
      simp only [Request.drops] at hq
      split at hq
      · next hid =>
          cases hq
          exact StoreM.spec_wrap (leaseRevoke_dropped id hs hrev hid)
      · cases hq
  | leaseExpire now id' =>
      simp only [Request.drops] at hq
      split at hq
      · next hdue =>
          cases hq
          obtain ⟨ls, hls, hdue⟩ := (Option.any_eq_true _ _).mp hdue
          exact StoreM.spec_wrap
            (leaseExpire_dropped now id hs hrev hls (of_decide_eq_true hdue))
      · cases hq
  | range req | put req | deleteRange req | txn req | compact revision | leaseGrant now id' ttl
    | leaseKeepAlive now id' => cases hq

/-! ### Every state of the server -/

/-- The revision counter is there for the tombstones of a lease's keys. -/
def System.StepTombstones (sys : System) : Event → Prop
  | .request (.leaseRevoke _) | .request (.leaseExpire _ _) => sys.store.nextRev ≠ 0
  | _ => True

omit [Crates] in
instance (sys : System) (ev : Event) : Decidable (sys.StepTombstones ev) := by
  unfold System.StepTombstones
  split <;> infer_instance

omit [Crates] in
theorem untouched_registerAll (ctxs : List WatchContext) (s : StoreState) :
    Untouched s (ctxs.foldl (fun s ctx => s.registerWatcher ctx.registration) s) := by
  induction ctxs generalizing s with
  | nil => exact ⟨rfl, rfl, rfl, rfl⟩
  | cons ctx ctxs ih =>
      obtain ⟨hleases, hid, hrev, hcompact⟩ := ih (s.registerWatcher ctx.registration)
      exact ⟨hleases, hid, hrev, hcompact⟩

theorem untouched_flushGlobalBatch (s : StoreState) (batch : List GlobalCreate) :
    Untouched s (flushGlobalBatch s batch).2 :=
  untouched_registerAll _ s

theorem handle_attached (q : Request) {s : StoreState} (h : Attached s)
    (hq : q.drops s = none) : (handle q).Spec s fun _ s' => Attached s' := by
  cases q with
  | range req => exact StoreM.spec_read_bind (fun _ _ => h) fun _ _ => Prog.spec_pure h
  | put req =>
      have htaken : Attached { s with nextRev := s.nextRev + 1 } :=
        h.of_keys rfl (fun _ hid => hid) rfl
      exact StoreM.spec_wrap (put_rule req h (putAt_attached req _ htaken))
  | deleteRange req =>
      have htaken : Attached { s with nextRev := s.nextRev + 1 } :=
        h.of_keys rfl (fun _ hid => hid) rfl
      exact StoreM.spec_wrap (deleteRange_rule req h (deleteRangeAt_attached req _ htaken))
  | txn req => exact StoreM.spec_wrap (attached_invariant.txn_spec req h)
  | compact revision =>
      refine StoreM.spec_wrap (compact_rule revision (fun _ => h) fun _ _ _ => ?_)
      exact h.of_keys rfl (fun _ hid => hid) rfl
  | leaseGrant now id ttl => exact StoreM.spec_wrap (leaseGrant_attached now id ttl h)
  | leaseKeepAlive now id =>
      exact StoreM.spec_wrap (leaseKeepAlive_rule now id h fun _ _ => h.insertLease _ _)
  | leaseRevoke id =>
      refine StoreM.spec_wrap (leaseRevoke_rule id (fun _ => h) fun hid => ?_)
      rw [Request.drops, if_pos hid] at hq
      cases hq
  | leaseExpire now id =>
      refine StoreM.spec_wrap (leaseExpire_rule now id (fun _ => h) fun ls hls hdue => ?_)
      simp [Request.drops, hls, hdue] at hq

theorem Attached.answer {s s' : StoreState} {q : Request} (h : Attached s)
    (hrev : (q.drops s).isSome → s.nextRev ≠ 0) (hq : answer s q = some s') : Attached s' := by
  cases hdrops : q.drops s with
  | some id =>
      obtain ⟨hdropped, hfaults⟩ := answer_dropped h.faults (hrev (by rw [hdrops]; rfl)) hdrops hq
      exact hdropped.attached h hfaults
  | none => exact answer_spec (handle_attached q h hdrops) hq

omit [Crates] in
/-- A restart makes a lease for every id it finds. -/
theorem attached_opened (now : Nat) (contents : Bytes) (recs : List KvWalRecord) (K : Keyspace) :
    Attached (opened now contents recs K) where
  faults := rfl
  known := by
    intro key ks hks hlease
    have hmem : ks.lease ∈ (opened now contents recs K).restoredLeases := by
      obtain ⟨hget, halive⟩ := aliveIn_eq_some.mp hks
      refine ExtTreeMap.mem_keys.mpr (contains_foldl (fun m id h => contains_insert_of_contains h)
        (.inr ⟨ks.lease, ?_, fun m => ?_⟩))
      · refine List.mem_map.mpr ⟨(key, ks), List.mem_filter.mpr ⟨?_, ?_⟩, rfl⟩
        · exact ExtTreeMap.mem_toList_iff_getElem?_eq_some.mpr hget
        · simp [halive, hlease]
      · exact ExtTreeMap.contains_insert_self
    refine contains_foldl (fun m id h => contains_insert_of_contains h)
      (.inr ⟨ks.lease, hmem, fun m => ExtTreeMap.contains_insert_self⟩)

theorem Attached.step {sys sys' : System} {ev : Event} (h : Attached sys.store)
    (hok : sys.StepTombstones ev) (hstep : sys.step ev = some sys') : Attached sys'.store := by
  cases ev with
  | request q =>
      obtain ⟨s', hq, rfl⟩ := Option.map_eq_some_iff.mp hstep
      refine h.answer ?_ hq
      intro hdrops
      cases q with
      | leaseRevoke id => exact hok
      | leaseExpire now id => exact hok
      | range req | put req | deleteRange req | txn req | compact revision | leaseGrant now id ttl
        | leaseKeepAlive now id => cases hdrops
  | watch batch =>
      cases hstep
      have hquiet := quiet_flushGlobalBatch sys.store batch
      exact h.of_keys (congrArg Keyspace.keys hquiet.keyspace)
        (fun id hid => by rw [(untouched_flushGlobalBatch sys.store batch).leases]; exact hid)
        (by rw [hquiet.wal])
  | cancelWatch watchId =>
      cases hstep
      exact h.of_keys rfl (fun _ hid => hid) rfl
  | compactA | compactB | compactC =>
      simp only [System.step] at hstep
      split at hstep
      · cases hstep
        exact h.of_keys rfl (fun _ hid => hid) rfl
      · cases hstep
  | compactFails =>
      cases hstep
      exact h
  -- a restart rebuilds the leases from the keys it reads
  | restart now =>
      simp only [System.step, System.boot, Option.map_eq_some_iff] at hstep
      obtain ⟨s', hs', rfl⟩ := hstep
      obtain ⟨recs, n, K, -, -, rfl⟩ := openStore_eq_ok (Prog.ok_of_toOption hs')
      exact attached_opened now _ recs K

/-- **No orphaned lease.** While the revision counter has not wrapped when a lease is dropped, every
alive key with a lease has one that is known, in every state of the server; and right after a
lease was revoked or has expired no alive key has it, and every other key is as it was. -/
theorem no_orphaned_lease {evs : List Event} {sys : System}
    (hrun : System.run ⟨fresh, none⟩ evs = some sys)
    (hok : Trace.Along System.step System.StepTombstones ⟨fresh, none⟩ evs) :
    sys.store.NoOrphans ∧
      ∀ (q : Request) (id : Int64) (s' : StoreState), q.drops sys.store = some id →
        sys.store.nextRev ≠ 0 → answer sys.store q = some s' →
          (∀ (key : Bytes) (ks : KeyState), s'.alive? key = some ks → ks.lease ≠ id) ∧
          ∀ key : Bytes, (∀ ks, sys.store.alive? key = some ks → ks.lease ≠ id) →
            s'.keys[key]? = sys.store.keys[key]? := by
  have hfresh : Attached (System.mk fresh none).store := by
    refine ⟨rfl, ?_⟩
    intro key ks hks
    simp [fresh, StoreState.new, StoreState.alive?, aliveIn] at hks
  have hstep : ∀ (s : System) ev s', Attached s.store → s.StepTombstones ev →
      s.step ev = some s' → Attached s'.store := fun s ev s' hs hP => hs.step hP
  have hattached : Attached sys.store :=
    @Trace.invariant _ _ _ _ (fun s => Attached s.store) hstep _ _ _ hfresh hok hrun
  refine ⟨hattached.known, ?_⟩
  intro q id s' hq hrev hanswer
  -- what is attached to the lease is exactly what the removal deletes
  obtain ⟨hdropped, -⟩ := answer_dropped hattached.faults hrev hq hanswer
  exact ⟨fun key ks hks => (hdropped.alive hks).2, hdropped.others⟩

end

/-- A lease is granted, attached to one of two keys and revoked. -/
theorem no_orphaned_lease_revoked :
    ∃ sys s' ks, System.run ⟨fresh, none⟩ [.request (.leaseGrant 0 7 60),
        .request (.put { key := [1], lease := 7 }), .request (.put { key := [2] })] = some sys ∧
      sys.store.NoOrphans ∧ sys.store.alive? [1] = some ks ∧ ks.lease = 7 ∧
      answer sys.store (.leaseRevoke 7) = some s' ∧
      (∀ (key : Bytes) (ks : KeyState), s'.alive? key = some ks → ks.lease ≠ 7) ∧
      s'.keys[([2] : Bytes)]? = sys.store.keys[([2] : Bytes)]? := by
  have hrun : (System.run ⟨fresh, none⟩ [.request (.leaseGrant 0 7 60),
      .request (.put { key := [1], lease := 7 }), .request (.put { key := [2] })]).any (fun sys =>
        (sys.store.alive? [1]).any (·.lease = 7) && (sys.store.alive? [2]).any (·.lease = 0) &&
          sys.store.leases.contains 7 && decide (sys.store.nextRev ≠ 0) &&
            (answer sys.store (.leaseRevoke 7)).isSome) = true := by
    decide +kernel
  obtain ⟨sys, hsys, hfacts⟩ := (Option.any_eq_true _ _).mp hrun
  simp only [Bool.and_eq_true, decide_eq_true_eq] at hfacts
  obtain ⟨⟨⟨⟨halive, hother⟩, hid⟩, hrev⟩, hanswer⟩ := hfacts
  obtain ⟨ks, hks, hlease⟩ := (Option.any_eq_true _ _).mp halive
  obtain ⟨ks', hks', hlease'⟩ := (Option.any_eq_true _ _).mp hother
  obtain ⟨s', hs'⟩ := Option.isSome_iff_exists.mp hanswer
  obtain ⟨hknown, hdrop⟩ := no_orphaned_lease hsys (by decide +kernel)
  obtain ⟨hgone, hsame⟩ := hdrop (.leaseRevoke 7) 7 s' (if_pos hid) hrev hs'
  refine ⟨sys, s', ks, hsys, hknown, hks, of_decide_eq_true hlease, hs', hgone, hsame [2] ?_⟩
  intro p hp
  rw [hks'] at hp
  cases hp
  rw [of_decide_eq_true hlease']
  decide

/-- Deleting the one alive key of a lease. -/
theorem exec_deleteKeysForLease_single [Crates] {s : StoreState} {id : Int64} {key : Bytes}
    {p : KeyState} {tombstone : Bytes}
    (hkeys : (s.keys.toList.filter fun e => e.2.lease = id && e.2.isAlive).map (·.1) = [key])
    (halive : s.alive? key = some p)
    (hpatch : withModRevision p.kvBytes s.nextRev = some tombstone) (hs : s.wal.faults = []) :
    ∃ s', exec (deleteKeysForLease id) s = (.ok (), s') ∧ s'.leases = s.leases ∧
      s'.keys = s.keys.insert key { p with deleteRevision := s.nextRev } := by
  obtain ⟨hget, hdel⟩ := aliveIn_eq_some.mp halive
  have hdel : p.deleteRevision = 0 := by simpa [KeyState.isAlive] using hdel
  have hrecords : StoreState.deleteRecords { s with nextRev := s.nextRev + 1 } [key] s.nextRev
      = [deleteRecord key p s.nextRev] := by
    have halive' : StoreState.alive? { s with nextRev := s.nextRev + 1 } key = some p := halive
    rw [StoreState.deleteRecords, List.filterMap_cons, halive']
    rfl
  unfold deleteKeysForLease
  rw [Prog.exec_bind, Prog.exec_get]
  simp only [hkeys, List.cons_ne_nil, if_false]
  simp [allocRevision, Prog.exec_bind, appendKvBatch, hrecords, WalFile.appendKvBatch,
    WalFile.writeAll, WalFile.writeBatch, hs, applyDeletes, applyDelete, hget, hdel, hpatch,
    StoreState.notifyWatchers]

theorem answer_leaseRevoke_single [Crates] {s : StoreState} {id : Int64} {key : Bytes}
    {p : KeyState} {tombstone : Bytes} (hid : s.leases.contains id = true)
    (hkeys : (s.keys.toList.filter fun e => e.2.lease = id && e.2.isAlive).map (·.1) = [key])
    (halive : s.alive? key = some p)
    (hpatch : withModRevision p.kvBytes s.nextRev = some tombstone) (hs : s.wal.faults = []) :
    ∃ s', answer s (.leaseRevoke id) = some s' ∧ s'.leases = s.leases.erase id ∧
      s'.keys = s.keys.insert key { p with deleteRevision := s.nextRev } := by
  obtain ⟨s', hexec, hleases, hs'⟩ := exec_deleteKeysForLease_single
    (s := { s with leases := s.leases.erase id }) hkeys halive hpatch hs
  refine ⟨s', ?_, hleases, hs'⟩
  simp [-bind_pure_comp, answer, handle, leaseRevoke, Prog.exec_bind, hid, hexec]

/-- At revision zero a deletion leaves no tombstone: after a restart on a forged record with the
highest revision, the key of a revoked lease lives on. -/
theorem wrapped_revision_orphans_lease :
    ∃ sys, System.run ⟨fresh, none⟩
        (forging (.new 0 [2] [] 1 (-1) 7 0) ++ [.request (.leaseRevoke (-1))]) = some sys ∧
      ¬ sys.store.NoOrphans := by
  have hreplay : (Keyspace.empty.replayAll?
      (replayed (forgedLog (.new 0 [2] [] 1 (-1) 7 0)))).any (fun K =>
        (opened 0 [] (forgedLog (.new 0 [2] [] 1 (-1) 7 0)) K).leases.contains (-1) &&
        decide (((K.keys.toList.filter fun e => e.2.lease = -1 && e.2.isAlive).map (·.1))
          = [[49]]) &&
        (aliveIn K.keys [49]).any fun p => p.lease = -1 &&
          (withModRevision p.kvBytes 0).isSome) = true := by
    decide +kernel
  obtain ⟨K, hK, hfacts⟩ := (Option.any_eq_true _ _).mp hreplay
  rw [Bool.and_eq_true, Bool.and_eq_true] at hfacts
  obtain ⟨⟨hid, hkeys⟩, hfacts⟩ := hfacts
  obtain ⟨p, halive, hp⟩ := (Option.any_eq_true _ _).mp hfacts
  rw [Bool.and_eq_true, decide_eq_true_eq] at hp
  obtain ⟨hlease, hpatch⟩ := hp
  obtain ⟨tombstone, hpatch⟩ := Option.isSome_iff_exists.mp hpatch
  obtain ⟨contents, hrun⟩ := forging_restarts
    ⟨by decide, by decide +kernel, by decide, by decide⟩ (by decide +kernel) hK
  have hnext : (opened 0 contents (forgedLog (.new 0 [2] [] 1 (-1) 7 0)) K).nextRev = 0 := by
    rw [opened_nextRev]
    decide +kernel
  have hid' : (opened 0 contents (forgedLog (.new 0 [2] [] 1 (-1) 7 0)) K).leases.contains (-1)
      = true := hid
  obtain ⟨s', hanswer, hleases, hs'⟩ := answer_leaseRevoke_single hid' (of_decide_eq_true hkeys)
    halive (by rw [hnext]; exact hpatch) rfl
  have hrevoke : System.run ⟨opened 0 contents (forgedLog (.new 0 [2] [] 1 (-1) 7 0)) K, none⟩
      [.request (.leaseRevoke (-1))] = some ⟨s', none⟩ := by
    rw [System.run, Trace.run_singleton, System.step, hanswer]
    rfl
  refine ⟨⟨s', none⟩, Trace.run_append_eq_some.mpr ⟨_, hrun, hrevoke⟩, ?_⟩
  intro h
  have hks : s'.alive? [49] = some { p with deleteRevision := 0 } := by
    rw [StoreState.alive?, hs', hnext, aliveIn, ExtTreeMap.getElem?_insert_self]
    rfl
  have hmem := h [49] _ hks (by rw [hlease]; decide)
  rw [hlease, hleases, ExtTreeMap.contains_erase] at hmem
  simp at hmem

end Rudurru
