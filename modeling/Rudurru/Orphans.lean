import Rudurru.Leases

/-!
# Rudurru.Orphans

A lease is removed from the registry before the deletion of its keys is logged. If the append fails,
`lease_revoke` returns the error and the expiry task logs it, and neither puts the lease back: the
keys stay alive under a lease that no longer exists, and that no later revocation or expiry finds
(`failed_removal_orphans`).

Nothing has to be assumed of the state but that the lease is there and the append fails. Whether a
client revokes the lease or the task finds it due makes no difference to what is left behind.
-/

namespace Rudurru

open Std (ExtTreeMap)
open Prog (exec)

section

variable [Crates]

/-- The keys that `delete_keys_for_lease` collects. -/
def StoreState.leaseKeys (s : StoreState) (id : Int64) : List Bytes :=
  (s.keys.toList.filter fun e => e.2.lease = id && e.2.isAlive).map (·.1)

/-- The append inside a removal of the lease fails. -/
def RemovalFails (s : StoreState) (id : Int64) : Prop :=
  (s.wal.appendKvBatch (s.deleteRecords (s.leaseKeys id) s.nextRev)).1 = false

/-- What a failed removal of the lease has left behind. -/
structure Orphaned (id : Int64) (s s' : StoreState) : Prop where
  keys : s'.keys = s.keys
  leases : s'.leases = s.leases.erase id
  /-- A key outlives its lease. -/
  orphan : ∃ key ks, s'.alive? key = some ks ∧ ks.lease = id
  revoke : exec (leaseRevoke id) s' = (.error leaseNotFound, s')
  expire : ∀ now, exec (leaseExpire now id) s' = (.ok (), s')

/-- Only an append of something fails. -/
theorem RemovalFails.leaseKeys_ne_nil {s : StoreState} {id : Int64} (h : RemovalFails s id) :
    s.leaseKeys id ≠ [] := by
  intro hnil
  rw [RemovalFails, hnil] at h
  cases h

/-- The deletion of the keys stops at the append. -/
theorem exec_deleteKeysForLease_fails {s : StoreState} {id : Int64} (h : RemovalFails s id) :
    ∃ s', exec (deleteKeysForLease id) s
        = (.error (.status .internal "WAL write failed during lease key deletion"), s') ∧
      s'.keys = s.keys ∧ s'.leases = s.leases := by
  -- the records carry the revision that is taken in front of them
  have hrecords : StoreState.deleteRecords { s with nextRev := s.nextRev + 1 } (s.leaseKeys id)
      s.nextRev = s.deleteRecords (s.leaseKeys id) s.nextRev := rfl
  refine ⟨{ s with
    nextRev := s.nextRev + 1
    wal := (s.wal.appendKvBatch (s.deleteRecords (s.leaseKeys id) s.nextRev)).2 }, ?_, rfl, rfl⟩
  unfold deleteKeysForLease
  rw [Prog.exec_bind, Prog.exec_get]
  dsimp only
  rw [← StoreState.leaseKeys, if_neg h.leaseKeys_ne_nil]
  simp [allocRevision, Prog.exec_bind, appendKvBatch, hrecords, show _ = false from h]

/-- Without its lease a key is out of reach of both removals. -/
theorem orphaned_of_erase {s s' : StoreState} {id : Int64} (h : RemovalFails s id)
    (hkeys : s'.keys = s.keys) (hleases : s'.leases = s.leases.erase id) : Orphaned id s s' := by
  have hgone : s'.leases[id]? = none := by
    rw [hleases, ExtTreeMap.getElem?_erase_self]
  obtain ⟨key, hkey⟩ := List.exists_mem_of_ne_nil _ h.leaseKeys_ne_nil
  obtain ⟨ks, hks, hlease⟩ := mem_leaseKeys.mp hkey
  refine ⟨hkeys, hleases, ⟨key, ks, ?_, hlease⟩, ?_, ?_⟩
  · rw [StoreState.alive?, hkeys]
    exact hks
  · have hcontains : s'.leases.contains id = false := by
      rw [hleases, ExtTreeMap.contains_erase]
      simp
    simp [leaseRevoke, Prog.exec_bind, hcontains]
  · intro now
    simp [leaseExpire, Prog.exec_bind, hgone]

/-- **A failed removal leaves orphans**, whichever way the lease was to be removed: the keys are
unchanged and the lease is gone. There is no condition under which the code does better: whatever
the state, the lease is gone and its keys are not. -/
theorem failed_removal_orphans (s : StoreState) (id : Int64) (ls : LeaseState)
    (hid : s.leases[id]? = some ls) (hfails : RemovalFails s id) :
    (∃ s', exec (leaseRevoke id) s
        = (.error (.status .internal "WAL write failed during lease key deletion"), s') ∧
      Orphaned id s s' ∧ s'.leases ≠ s.leases) ∧
    ∀ now, ls.expiresAt ≤ now → ∃ s', exec (leaseExpire now id) s = (.ok (), s') ∧
      Orphaned id s s' ∧ s'.leases ≠ s.leases := by
  have hcontains : s.leases.contains id = true := by
    rw [ExtTreeMap.contains_eq_isSome_getElem?, hid]
    rfl
  have hchanged : s.leases.erase id ≠ s.leases := by
    intro heq
    have := ExtTreeMap.getElem?_erase_self (t := s.leases) (k := id)
    rw [heq, hid] at this
    cases this
  -- both removals drop the lease and then delete its keys, in a store without it
  obtain ⟨s', hexec, hkeys, hleases⟩ := exec_deleteKeysForLease_fails
    (show RemovalFails { s with leases := s.leases.erase id } id from hfails)
  have horphaned : Orphaned id s s' ∧ s'.leases ≠ s.leases :=
    ⟨orphaned_of_erase hfails hkeys hleases, hleases ▸ hchanged⟩
  constructor
  · refine ⟨s', ?_, horphaned⟩
    simp [leaseRevoke, Prog.exec_bind, hcontains, hexec]
  · intro now hdue
    refine ⟨s', ?_, horphaned⟩
    simp [leaseExpire, Prog.exec_bind, Prog.exec_tryCatch, hid, hdue, hexec]

end

/-- A lease, a key under it, and an append that fails. -/
theorem failed_removal_orphans_granted :
    ∃ s ls, serve { fresh with wal.faults := [none, some 0] } [.leaseGrant 0 7 60,
        .put { key := [1], lease := 7 }] = some s ∧ s.leases[(7 : Int64)]? = some ls ∧
      (∃ s', exec (leaseRevoke 7) s
          = (.error (.status .internal "WAL write failed during lease key deletion"), s') ∧
        Orphaned 7 s s' ∧ s'.leases ≠ s.leases) ∧
      ∀ now, ls.expiresAt ≤ now → ∃ s', exec (leaseExpire now 7) s = (.ok (), s') ∧
        Orphaned 7 s s' ∧ s'.leases ≠ s.leases := by
  have hrun : (serve { fresh with wal.faults := [none, some 0] } [.leaseGrant 0 7 60,
      .put { key := [1], lease := 7 }]).any (fun s => (s.leases[(7 : Int64)]?).isSome &&
        !(s.wal.appendKvBatch (s.deleteRecords (s.leaseKeys 7) s.nextRev)).1) = true := by
    decide +kernel
  obtain ⟨s, hs, hfacts⟩ := (Option.any_eq_true _ _).mp hrun
  rw [Bool.and_eq_true, Bool.not_eq_true'] at hfacts
  obtain ⟨ls, hls⟩ := Option.isSome_iff_exists.mp hfacts.1
  exact ⟨s, ls, hs, hls, failed_removal_orphans s 7 ls hls hfacts.2⟩

theorem failed_revoke_forgets_lease :
    ¬ ∀ (faults : List (Option Nat)) (qs : List Request) (s : StoreState) (id : Int64),
      serve { fresh with wal.faults := faults } qs = some s → s.leases.contains id = true →
        RemovalFails s id → (exec (leaseRevoke id) s).2.leases = s.leases := by
  intro h
  have hrun : (serve { fresh with wal.faults := [none, some 0] } [.leaseGrant 0 7 60,
      .put { key := [1], lease := 7 }]).any (fun s => s.leases.contains 7 &&
        !(s.wal.appendKvBatch (s.deleteRecords (s.leaseKeys 7) s.nextRev)).1 &&
        !(exec (leaseRevoke 7) s).2.leases.contains 7) = true := by
    decide +kernel
  obtain ⟨s, hs, hfacts⟩ := (Option.any_eq_true _ _).mp hrun
  simp only [Bool.and_eq_true, Bool.not_eq_true'] at hfacts
  obtain ⟨⟨hid, hfails⟩, hgone⟩ := hfacts
  rw [h _ _ s 7 hs hid hfails, hid] at hgone
  cases hgone

end Rudurru
