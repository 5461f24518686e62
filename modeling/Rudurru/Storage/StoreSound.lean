import Rudurru.Storage.BoundsSound
import Rudurru.Storage.Keyspace

/-!
# Rudurru.Storage.StoreSound

**Every request commits a run of writes.** Whatever a request returns, an error half way
through a transaction included, the records it appended to the WAL are those of a run from the
keyspace before to the keyspace after (`Commits`), all at the one revision the request
allocated (`Served`), and the watchers were sent the events of these writes (`Published`).

The proofs go along the code: `putAt` and `deleteRangeAt` have the effect of writes at a
revision they are given (`Effect`), and the recursion over the ops of a transaction keeps
`InTxn`, which ties the cursor's revision to the store's `next_rev`.

Requests are those that return: a panic ends the process. Beyond single operations, appends to
the WAL succeed (`faults = []`).

One operation has one rule (`putAt_spec`, `deleteRangeAt_spec`, `applyTxnOps_spec` and so on), and
nothing later unfolds an operation again. What a rule says is a relation between the states before
and after, so the rules compose along `bind`; `TxnInvariant` packs the recursion over ops and nested
transactions once, for every property that an op keeps.
-/

namespace Rudurru

open Prog (exec)
open Std (ExtTreeMap)

/-- Partial correctness of a store operation: it returns, with `Ok` or a status. -/
abbrev StoreM.Spec {α : Type} (x : StoreM α) (s : StoreState)
    (Q : Except Failure α → StoreState → Prop) : Prop :=
  Prog.Spec (fun e => e.isPanic = true) x s Q

/-- Sequencing after a read, which changes nothing. -/
theorem StoreM.spec_read_bind {α β : Type} {g : StoreState → Except Failure α} {f : α → StoreM β}
    {s : StoreState} {Q : Except Failure β → StoreState → Prop}
    (herr : ∀ e, g s = .error e → Q (.error e) s)
    (hok : ∀ a, g s = .ok a → StoreM.Spec (f a) s Q) :
    StoreM.Spec (StoreM.read g >>= f) s Q := by
  rw [StoreM.read, bind_assoc]
  refine Prog.spec_get_bind ?_
  cases hg : g s with
  | error e => exact Prog.spec_throw_bind (herr e hg)
  | ok a => exact Prog.spec_bind_ok (Prog.exec_pure a s) (hok a hg)

def StoreState.keyspace (s : StoreState) : Keyspace := ⟨s.keys, s.keyCount⟩

@[simp] theorem StoreState.keyspace_keys (s : StoreState) : s.keyspace.keys = s.keys := rfl

@[simp] theorem StoreState.keyspace_keyCount (s : StoreState) :
    s.keyspace.keyCount = s.keyCount := rfl

/-- A change that leaves the WAL, the keyspace and the revision counter alone. -/
structure Quiet (s s' : StoreState) : Prop where
  wal : s'.wal = s.wal
  keyspace : s'.keyspace = s.keyspace
  nextRev : s'.nextRev = s.nextRev
  compactRev_le : s.compactRev ≤ s'.compactRev

theorem Quiet.refl (s : StoreState) : Quiet s s := ⟨rfl, rfl, rfl, UInt64.le_refl _⟩

/-! ### One rule for each operation

An operation without a loop or a record of its own keeps a condition `E` on the state if the changes
it can make do. -/

section

variable {E : StoreState → Prop} {s : StoreState}

/-- Checks come first and change nothing. -/
theorem put_rule [Crates] (req : PutRequest) (h : E s)
    (hput : (putAt req s.nextRev).Spec { s with nextRev := s.nextRev + 1 } fun _ s' => E s') :
    (put req).Spec s fun _ s' => E s' := by
  unfold put
  exact StoreM.spec_read_bind (fun _ _ => h) fun _ _ => Prog.spec_modifyGet_bind hput

/-- A deletion takes a revision, even if no key is found for it. -/
theorem deleteRange_rule [Crates] (req : DeleteRangeRequest) (h : E s)
    (hdelete : (deleteRangeAt req s.nextRev).Spec { s with nextRev := s.nextRev + 1 }
      fun _ s' => E s') :
    (deleteRange req).Spec s fun _ s' => E s' := by
  unfold deleteRange
  exact StoreM.spec_read_bind (fun _ _ => h) fun _ _ => Prog.spec_modifyGet_bind hdelete

/-- `compact` sets the watermark to a revision that lies above it and was reached. -/
theorem compact_rule {Q : Except Failure ResponseHeader → StoreState → Prop} (revision : Int64)
    (herr : ∀ e, Q (.error e) s)
    (hset : s.compactRev < revision.toUInt64 → revision.toUInt64 ≤ s.currentRevision →
      ∀ header, Q (.ok header) { s with compactRev := revision.toUInt64 }) :
    (compact revision).Spec s Q := by
  unfold compact
  refine Prog.spec_get_bind ?_
  dsimp only
  split
  · exact Prog.spec_throw_bind (herr _)
  · next hreached =>
      split
      · exact Prog.spec_throw_bind (herr _)
      · next hnew =>
          have hnew := hset (UInt64.not_le.mp hnew) (UInt64.not_lt.mp hreached)
          exact Prog.spec_bind_ok (Prog.exec_set _ _) (Prog.spec_get_bind (Prog.spec_pure (hnew _)))

/-- The end of `lease_grant`, once the id is settled. -/
def grantLease (now : Nat) (ttl id : Int64) : StoreM LeaseGrantResponse := do
  if (← get).leases.contains id then
    throw (.status .failedPrecondition "etcdserver: lease already exists")
  modify fun s =>
    { s with leases := s.leases.insert id { id, ttl, expiresAt := expiryInstant now ttl } }
  return { header := (← get).header, id, ttl }

/-- A grant in three steps: the TTL, the id, the lease. -/
theorem leaseGrant_eq (now : Nat) (id ttl : Int64) :
    leaseGrant now id ttl = (do
      let ttl ← StoreM.read fun _ => checkLeaseTtl ttl
      let id ← (if id ≠ 0 then pure id else allocLeaseId)
      grantLease now ttl id) := by
  unfold leaseGrant
  refine congrArg _ (funext fun ttl => ?_)
  by_cases hid : id ≠ 0
  · rw [if_pos hid, if_pos hid]
    rfl
  · rw [if_neg hid, if_neg hid]
    rfl

theorem grantLease_rule (now : Nat) (ttl id : Int64) (h : E s)
    (hgrant : E { s with
      leases := s.leases.insert id { id, ttl, expiresAt := expiryInstant now ttl } }) :
    (grantLease now ttl id).Spec s fun _ s' => E s' := by
  unfold grantLease
  refine Prog.spec_get_bind ?_
  split
  · exact Prog.spec_throw_bind h
  · exact Prog.spec_modify_bind (Prog.spec_get_bind (Prog.spec_pure hgrant))

/-- The id is the one supplied, or the value of the counter, which moves on. -/
theorem leaseGrant_rule (now : Nat) (id ttl : Int64) (h : E s)
    (hsupplied : id ≠ 0 → ∀ t, checkLeaseTtl ttl = .ok t →
      (grantLease now t id).Spec s fun _ s' => E s')
    (hcounter : id = 0 → ∀ t, checkLeaseTtl ttl = .ok t →
      (grantLease now t s.nextLeaseId).Spec { s with nextLeaseId := s.nextLeaseId + 1 }
        fun _ s' => E s') :
    (leaseGrant now id ttl).Spec s fun _ s' => E s' := by
  rw [leaseGrant_eq]
  refine StoreM.spec_read_bind (fun _ _ => h) fun t ht => ?_
  by_cases hid : id = 0
  · rw [if_neg (not_not.mpr hid)]
    exact Prog.spec_modifyGet_bind (hcounter hid t ht)
  · rw [if_pos hid]
    exact Prog.spec_bind_ok (Prog.exec_pure id s) (hsupplied hid t ht)

theorem leaseKeepAlive_rule (now : Nat) (id : Int64) (h : E s)
    (hrenew : ∀ ls, s.leases[id]? = some ls → E { s with
      leases := s.leases.insert id { ls with expiresAt := expiryInstant now ls.ttl } }) :
    (leaseKeepAlive now id).Spec s fun _ s' => E s' := by
  unfold leaseKeepAlive
  refine Prog.spec_get_bind ?_
  split
  · next ls hls => exact Prog.spec_modify_bind (Prog.spec_get_bind (Prog.spec_pure (hrenew ls hls)))
  · exact Prog.spec_throw fun _ => h

/-- The keys that `delete_keys_for_lease` collects. -/
theorem mem_leaseKeys {id : Int64} {key : Bytes} :
    key ∈ (s.keys.toList.filter fun e => e.2.lease = id && e.2.isAlive).map (·.1) ↔
      ∃ ks, s.alive? key = some ks ∧ ks.lease = id := by
  simp only [List.mem_map, List.mem_filter, Bool.and_eq_true, decide_eq_true_eq, StoreState.alive?,
    aliveIn_eq_some]
  constructor
  · intro h
    obtain ⟨e, ⟨hget, hlease, halive⟩, rfl⟩ := h
    exact ⟨e.2, ⟨ExtTreeMap.mem_toList_iff_getElem?_eq_some.mp hget, halive⟩, hlease⟩
  · intro h
    obtain ⟨ks, ⟨hget, halive⟩, hlease⟩ := h
    exact ⟨(key, ks), ⟨ExtTreeMap.mem_toList_iff_getElem?_eq_some.mpr hget, hlease, halive⟩, rfl⟩

/-- The keys of a lease are deleted at one revision, if it has any. -/
theorem deleteKeysForLease_rule [Crates] (id : Int64)
    (h : (∀ key ks, s.alive? key = some ks → ks.lease ≠ id) → E s)
    (hdelete : ∀ (keys : List Bytes) (e : Failure), keys.Nodup →
      (∀ key, key ∈ keys ↔ ∃ ks, s.alive? key = some ks ∧ ks.lease = id) →
      StoreM.Spec (do
        appendKvBatch (s.deleteRecords keys s.nextRev) e
        applyDeletes keys s.nextRev) { s with nextRev := s.nextRev + 1 } fun _ s' => E s') :
    (deleteKeysForLease id).Spec s fun _ s' => E s' := by
  unfold deleteKeysForLease
  refine Prog.spec_get_bind ?_
  dsimp only
  split
  · next hnil =>
      refine Prog.spec_pure (h fun key ks hks hlease => ?_)
      have hmem := mem_leaseKeys.mpr ⟨ks, hks, hlease⟩
      rw [hnil] at hmem
      cases hmem
  · exact Prog.spec_modifyGet_bind (Prog.spec_get_bind
      (hdelete _ _ (nodup_keys_of_sublist List.filter_sublist) fun _ => mem_leaseKeys))

/-- A revocation forgets the lease, then deletes its keys. -/
theorem leaseRevoke_rule [Crates] (id : Int64) (h : s.leases.contains id = false → E s)
    (hdrop : s.leases.contains id = true →
      (deleteKeysForLease id).Spec { s with leases := s.leases.erase id } fun _ s' => E s') :
    (leaseRevoke id).Spec s fun _ s' => E s' := by
  unfold leaseRevoke
  refine Prog.spec_get_bind ?_
  cases hid : s.leases.contains id with
  | false => exact Prog.spec_throw_bind (h hid)
  | true =>
      refine Prog.spec_modify_bind ((hdrop hid).bind (fun _ _ hr => hr) ?_)
      intro _ s' hr
      exact Prog.spec_get_bind (Prog.spec_pure hr)

/-- So does an expiry, of a lease that is due; an error of the deletion is dropped. -/
theorem leaseExpire_rule [Crates] (now : Nat) (id : Int64)
    (h : (∀ ls, s.leases[id]? = some ls → ¬ ls.expiresAt ≤ now) → E s)
    (hdrop : ∀ ls, s.leases[id]? = some ls → ls.expiresAt ≤ now →
      (deleteKeysForLease id).Spec { s with leases := s.leases.erase id } fun _ s' => E s') :
    (leaseExpire now id).Spec s fun _ s' => E s' := by
  unfold leaseExpire
  refine Prog.spec_get_bind ?_
  cases hls : s.leases[id]? with
  | none =>
      refine Prog.spec_pure (h fun ls hls' => ?_)
      rw [hls] at hls'
      cases hls'
  | some ls =>
      dsimp only
      split
      · next hdue =>
          -- the lease goes first; a failure to delete its keys is logged and swallowed
          refine Prog.spec_modify_bind (Prog.spec_tryCatch ?_ ?_)
          · intro e s' hpanic
            cases e with
            | status code m => cases hpanic
            | panic m => exact ⟨.panic m, rfl, rfl⟩
          · refine (hdrop ls hls hdue).mono ?_
            intro r s' hr
            cases r with
            | ok a => exact hr
            | error e =>
                cases e with
                | status code m => exact Prog.spec_pure hr
                | panic m => exact Prog.spec_throw fun _ => hr
      · next hdue =>
          refine Prog.spec_pure (h fun ls' hls' => ?_)
          rw [hls] at hls'
          cases hls'
          exact hdue

end

/-! ### The WAL file -/

/-- Records were appended. -/
structure Appended (w : WalFile) (recs : List KvWalRecord) (w' : WalFile) : Prop where
  contents : w'.contents = w.contents ++ serializeAll recs
  log : w'.log = w.log ++ recs
  faults : w.faults = [] → w'.faults = []

/-- A write that succeeds appends its bytes, and has used up no fault if there was none. -/
theorem writeAll_ok {w w' : WalFile} {data : Bytes} (h : w.writeAll data = (true, w')) :
    w'.contents = w.contents ++ data ∧ w'.log = w.log ∧ (w.faults = [] → w'.faults = []) := by
  unfold WalFile.writeAll at h
  split at h
  · next hfaults =>
      cases h
      exact ⟨rfl, rfl, fun _ => hfaults⟩
  · next hfaults =>
      cases h
      exact ⟨rfl, rfl, fun hnil => by rw [hnil] at hfaults; cases hfaults⟩
  · cases h

/-- A write fails only by a fault. -/
theorem writeAll_fails {w w' : WalFile} {data : Bytes} (h : w.writeAll data = (false, w')) :
    w.faults ≠ [] := by
  intro hnil
  simp [WalFile.writeAll, hnil] at h

/-- An append that succeeds has appended the record. -/
theorem appendKv_ok {w w' : WalFile} {rec : KvWalRecord} (h : w.appendKv rec = (true, w')) :
    Appended w [rec] w' := by
  unfold WalFile.appendKv at h
  split at h
  · next w₁ hwrite =>
      cases h
      obtain ⟨hcontents, hlog, hfaults⟩ := writeAll_ok hwrite
      refine ⟨?_, by simp [hlog], hfaults⟩
      rw [hcontents]
      simp [serializeAll, FramedLog.encodeAll]
  · cases h

theorem appendKv_fails {w w' : WalFile} {rec : KvWalRecord} (h : w.appendKv rec = (false, w')) :
    w.faults ≠ [] := by
  unfold WalFile.appendKv at h
  split at h
  · cases h
  · next hwrite => exact writeAll_fails hwrite

theorem writeBatch_ok {w w' : WalFile} {recs : List KvWalRecord}
    (h : w.writeBatch recs = (true, w')) : Appended w recs w' := by
  induction recs generalizing w with
  | nil =>
      cases h
      exact ⟨by simp [serializeAll, FramedLog.encodeAll], by simp, id⟩
  | cons rec recs ih =>
      unfold WalFile.writeBatch at h
      split at h
      · next w₁ hwrite =>
          obtain ⟨hcontents, hlog, hfaults⟩ := writeAll_ok hwrite
          obtain ⟨hcontents', hlog', hfaults'⟩ := ih h
          refine ⟨?_, by rw [hlog', hlog]; simp, fun hnil => hfaults' (hfaults hnil)⟩
          rw [hcontents', hcontents]
          simp [serializeAll, FramedLog.encodeAll]
      · cases h

theorem writeBatch_fails {w w' : WalFile} {recs : List KvWalRecord}
    (h : w.writeBatch recs = (false, w')) : w.faults ≠ [] := by
  induction recs generalizing w with
  | nil => cases h
  | cons rec recs ih =>
      unfold WalFile.writeBatch at h
      split at h
      · next w₁ hwrite =>
          intro hnil
          exact ih h ((writeAll_ok hwrite).2.2 hnil)
      · next hwrite => exact writeAll_fails hwrite

/-- An append of a batch that succeeds has appended all of it. -/
theorem appendKvBatch_ok {w w' : WalFile} {recs : List KvWalRecord}
    (h : w.appendKvBatch recs = (true, w')) : Appended w recs w' := by
  unfold WalFile.appendKvBatch at h
  split at h
  · next hbatch =>
      cases h
      have hw := writeBatch_ok hbatch
      exact ⟨hw.contents, hw.log, hw.faults⟩
  · cases h

theorem appendKvBatch_fails {w w' : WalFile} {recs : List KvWalRecord}
    (h : w.appendKvBatch recs = (false, w')) : w.faults ≠ [] := by
  unfold WalFile.appendKvBatch at h
  split at h
  · cases h
  · next hbatch => exact writeBatch_fails hbatch

/-- An append of the store: on success its records are in the WAL, and nothing else changed. -/
def AppendPost (s : StoreState) (recs : List KvWalRecord) (r : Except Failure Unit)
    (s' : StoreState) : Prop :=
  (∀ a, r = .ok a → ∃ w, Appended s.wal recs w ∧ s' = { s with wal := w }) ∧
    ∀ e, r = .error e → s.wal.faults ≠ []

theorem appendKv_spec (rec : KvWalRecord) (onError : Failure) (s : StoreState) :
    (appendKv rec onError).Spec s (AppendPost s [rec]) := by
  unfold appendKv
  refine Prog.spec_modifyGet_bind ?_
  rcases happend : s.wal.appendKv rec with ⟨ok, w⟩
  cases ok with
  | true => exact Prog.spec_pure ⟨fun _ _ => ⟨w, appendKv_ok happend, rfl⟩, by simp⟩
  | false => exact Prog.spec_throw fun _ => ⟨by simp, fun _ _ => appendKv_fails happend⟩

/-- An append either appends the records or fails with the error given; without faults it does not
fail. -/
theorem appendKvBatch_spec (recs : List KvWalRecord) (onError : Failure) (s : StoreState) :
    (appendKvBatch recs onError).Spec s (AppendPost s recs) := by
  unfold appendKvBatch
  refine Prog.spec_modifyGet_bind ?_
  rcases happend : s.wal.appendKvBatch recs with ⟨ok, w⟩
  cases ok with
  | true => exact Prog.spec_pure ⟨fun _ _ => ⟨w, appendKvBatch_ok happend, rfl⟩, by simp⟩
  | false => exact Prog.spec_throw fun _ => ⟨by simp, fun _ _ => appendKvBatch_fails happend⟩

/-! ### `apply_delete` -/

/-- `apply_delete` on a key without an alive entry does nothing. -/
theorem applyDelete_of_not_alive {s : StoreState} {key : Bytes} (h : s.alive? key = none)
    (rev : UInt64) : exec (applyDelete key rev) s = (.ok none, s) := by
  rw [applyDelete, Prog.exec_bind, Prog.exec_get]
  simp only [StoreState.alive?, aliveIn, Option.filter_eq_none_iff, KeyState.isAlive] at h
  cases hk : s.keys[key]? with
  | none => simp only [hk, Prog.exec_pure]
  | some prev =>
      have hdead : prev.deleteRevision ≠ 0 := by simpa using h prev hk
      simp only [hk, hdead, ne_eq, not_false_eq_true, if_true, Prog.exec_pure]

/-- `apply_delete` on an alive key whose blob can be patched. -/
theorem applyDelete_of_alive {s : StoreState} {key blob : Bytes} {prev : KeyState} {rev : UInt64}
    (h : s.alive? key = some prev) (hblob : withModRevision prev.kvBytes rev = some blob) :
    exec (applyDelete key rev) s = (.ok (some prev),
      { s with
        keys := s.keys.insert key { prev with deleteRevision := rev }
        keyCount := s.keyCount - 1 }.notifyWatchers
          { revision := rev, eventType := .delete, key, kvBytes := blob,
            prevKvBytes := prev.kvBytes }) := by
  simp only [StoreState.alive?, aliveIn, Option.filter_eq_some_iff, KeyState.isAlive,
    decide_eq_true_eq] at h
  obtain ⟨hk, halive⟩ := h
  rw [applyDelete, Prog.exec_bind, Prog.exec_get]
  simp only [hk, halive, ne_eq, not_true_eq_false, if_false, Prog.exec_bind, Prog.exec_modify,
    hblob, Prog.exec_pure]

/-- `apply_delete` on an alive key whose blob cannot be patched. -/
theorem applyDelete_panics {s : StoreState} {key : Bytes} {prev : KeyState} {rev : UInt64}
    (h : s.alive? key = some prev) (hblob : withModRevision prev.kvBytes rev = none) :
    (exec (applyDelete key rev) s).1 = .error (.panic "index out of bounds") := by
  simp only [StoreState.alive?, aliveIn, Option.filter_eq_some_iff, KeyState.isAlive,
    decide_eq_true_eq] at h
  obtain ⟨hk, halive⟩ := h
  rw [applyDelete, Prog.exec_bind, Prog.exec_get]
  simp only [hk, halive, ne_eq, not_true_eq_false, if_false, Prog.exec_bind, Prog.exec_modify,
    hblob, Prog.exec_throw]

theorem applyDeletes_cons (key : Bytes) (keys : List Bytes) (rev : UInt64) :
    applyDeletes (key :: keys) rev = (do let _ ← applyDelete key rev; applyDeletes keys rev) := by
  show (do let _ ← (do let _ ← applyDelete key rev; pure ()); applyDeletes keys rev) = _
  simp only [bind_assoc, pure_bind]

/-! ### Relations that the operations keep

An operation relates the states before and after it if the changes it is made of do. -/

section

open Prog (Within)

variable {R : StoreState → StoreState → Prop} [IsPreorder StoreState R]

theorem within_read {α : Type} (g : StoreState → Except Failure α) :
    Within R (StoreM.read g) := by
  refine Prog.within_get.bind fun s => ?_
  cases g s with
  | ok a => exact Prog.within_pure a
  | error e => exact Prog.within_throw e

theorem within_appendKv (hwal : ∀ s wal, R s { s with wal }) (rec : KvWalRecord) (e : Failure) :
    Within R (appendKv rec e) := by
  refine (Prog.within_modifyGet fun s => hwal s _).bind fun ok => ?_
  split
  · exact Prog.within_pure _
  · exact Prog.within_throw _

/-- A batch of deletions, logged and then carried out. -/
theorem within_deleteBatch [Crates] {rev : UInt64} (hwal : ∀ s wal, R s { s with wal })
    (hdelete : ∀ key, Within R (applyDelete key rev)) (recs : List KvWalRecord)
    (keys : List Bytes) (e : Failure) :
    Within R (do appendKvBatch recs e; applyDeletes keys rev) := by
  refine Within.bind ?_ fun _ => ?_
  · refine (Prog.within_modifyGet fun s => hwal s _).bind fun ok => ?_
    split
    · exact Prog.within_pure _
    · exact Prog.within_throw _
  · induction keys with
    | nil => exact Prog.within_pure _
    | cons key keys ih =>
        rw [applyDeletes_cons]
        exact (hdelete key).bind fun _ => ih

/-- A put changes the file and one entry, so what both changes keep it keeps. -/
theorem within_putAt [Crates] {rev : UInt64} (hwal : ∀ s wal, R s { s with wal })
    (happly : ∀ key value lease, Within R (apply key value lease rev none)) (req : PutRequest) :
    Within R (putAt req rev) := by
  unfold putAt
  refine Prog.within_get.bind fun s => ?_
  dsimp only
  split
  · exact Prog.within_throw_bind _ _
  split
  · exact Prog.within_throw_bind _ _
  refine (within_appendKv hwal _ _).bind fun _ => ?_
  refine (happly _ _ _).bind fun _ => ?_
  exact Prog.within_get.bind fun _ => Prog.within_pure _

/-- A deletion changes the file and entries of its keys. -/
theorem within_deleteRangeAt [Crates] {rev : UInt64} (hwal : ∀ s wal, R s { s with wal })
    (hdelete : ∀ key, Within R (applyDelete key rev)) (req : DeleteRangeRequest) :
    Within R (deleteRangeAt req rev) := by
  unfold deleteRangeAt
  refine (within_read _).bind fun keys => ?_
  refine Prog.within_get.bind fun s => ?_
  rw [← bind_assoc]
  refine (within_deleteBatch hwal hdelete _ keys _).bind fun _ => ?_
  exact Prog.within_get.bind fun _ => Prog.within_pure _

theorem within_leaseGrant (hleases : ∀ s nextLeaseId leases, R s { s with nextLeaseId, leases })
    (now : Nat) (id ttl : Int64) : Within R (leaseGrant now id ttl) := by
  rw [leaseGrant_eq]
  refine (within_read _).bind fun ttl => Within.bind ?_ fun id => ?_
  · split
    · exact Prog.within_pure _
    · exact Prog.within_modifyGet fun s => hleases s _ _
  refine Prog.within_get.bind fun s => ?_
  split
  · exact Prog.within_throw_bind _ _
  · refine (Prog.within_modify fun s => hleases s _ _).bind fun _ => ?_
    exact Prog.within_get.bind fun _ => Prog.within_pure _

theorem within_leaseKeepAlive
    (hleases : ∀ s nextLeaseId leases, R s { s with nextLeaseId, leases }) (now : Nat)
    (id : Int64) : Within R (leaseKeepAlive now id) := by
  unfold leaseKeepAlive
  refine Prog.within_get.bind fun s => ?_
  split
  · refine (Prog.within_modify fun s => hleases s _ _).bind fun _ => ?_
    exact Prog.within_get.bind fun _ => Prog.within_pure _
  · exact Prog.within_throw _

end

/-! ### Deletions -/

/-- The deletions of the alive ones among the given keys. -/
def StoreState.deletes (s : StoreState) (keys : List Bytes) (rev : UInt64) : List Write :=
  keys.filterMap fun key => (s.alive? key).map (Write.delete key rev)

theorem rev_of_mem_deletes {s : StoreState} {keys : List Bytes} {rev : UInt64} {w : Write}
    (h : w ∈ s.deletes keys rev) : w.rev = rev := by
  simp only [StoreState.deletes, List.mem_filterMap, Option.map_eq_some_iff] at h
  obtain ⟨key, -, p, -, rfl⟩ := h
  rfl

theorem aliveIn_insert_of_ne {keys : Std.ExtTreeMap Bytes KeyState} {k k' : Bytes} {ks : KeyState}
    (h : k ≠ k') : aliveIn (keys.insert k ks) k' = aliveIn keys k' := by
  simp [aliveIn, Std.ExtTreeMap.getElem?_insert, h]

/-- Entries of other keys do not matter to a deletion. -/
theorem deletes_of_keys_eq {s s' : StoreState} {key : Bytes} {ks : KeyState} {keys : List Bytes}
    {rev : UInt64} (hkey : key ∉ keys) (hs : s'.keys = s.keys.insert key ks) :
    s'.deletes keys rev = s.deletes keys rev := by
  unfold StoreState.deletes StoreState.alive?
  refine List.filterMap_congr fun k hk => ?_
  rw [hs, aliveIn_insert_of_ne (by rintro rfl; exact hkey hk)]

variable [Crates]

/-- A round of deletions over distinct keys carries out those of the alive ones. -/
theorem applyDeletes_spec {keys : List Bytes} (hnodup : keys.Nodup) (rev : UInt64)
    (s : StoreState) :
    (applyDeletes keys rev).Spec s fun r s' => r = .ok () ∧
      Keyspace.Run s.keyspace (s.deletes keys rev) s'.keyspace ∧
      s'.watchers = s.watchers.map (notifyWrites (s.deletes keys rev)) ∧ s'.wal = s.wal ∧
      s'.leases = s.leases ∧ s'.nextRev = s.nextRev ∧ s'.compactRev = s.compactRev := by
  induction keys generalizing s with
  | nil => exact Prog.spec_pure ⟨rfl, .nil, (List.map_id _).symm, rfl, rfl, rfl, rfl⟩
  | cons key keys ih =>
      obtain ⟨hkey, hkeys⟩ := List.nodup_cons.mp hnodup
      rw [applyDeletes_cons]
      cases halive : s.alive? key with
      | none =>
          refine Prog.spec_bind_ok (applyDelete_of_not_alive halive rev) ?_
          -- a key that is not alive is skipped, and no write stands for it
          have hdeletes : s.deletes (key :: keys) rev = s.deletes keys rev := by
            simp [StoreState.deletes, halive]
          rw [hdeletes]
          exact ih hkeys s
      | some prev =>
          cases hblob : withModRevision prev.kvBytes rev with
          | none => exact Prog.spec_bind_crash (applyDelete_panics halive hblob) rfl
          | some blob =>
              refine Prog.spec_bind_ok (applyDelete_of_alive halive hblob) ?_
              refine (ih hkeys _).mono ?_
              intro r s' h
              obtain ⟨hr, hrun, hwatchers, hrest⟩ := h
              have hdeletes : s.deletes (key :: keys) rev
                  = .delete key rev prev :: s.deletes keys rev := by
                simp [StoreState.deletes, halive]
              rw [deletes_of_keys_eq hkey rfl] at hrun hwatchers
              refine ⟨hr, ?_, ?_, hrest⟩
              · rw [hdeletes]
                exact .cons ⟨halive, by rw [hblob]; rfl⟩ hrun
              · rw [hwatchers, hdeletes, StoreState.notifyWatchers, List.map_map]
                refine List.map_congr_left fun reg _ => ?_
                simp [notifyWrites, Write.event, hblob]

/-! ### What it means to commit -/

/-- The store went from `s` to `s'` by the writes `ws`: their records are what the WAL gained, and
the keyspace moved along them. It is a preorder, up to the concatenation of the writes, and so
describes whole runs as well as single requests. -/
structure Commits (s : StoreState) (ws : List Write) (s' : StoreState) : Prop where
  faults : s'.wal.faults = []
  contents : s'.wal.contents = s.wal.contents ++ serializeAll (ws.map Write.record)
  log : s'.wal.log = s.wal.log ++ ws.map Write.record
  run : Keyspace.Run s.keyspace ws s'.keyspace
  compactRev_le : s.compactRev ≤ s'.compactRev

theorem Commits.refl {s : StoreState} (h : s.wal.faults = []) : Commits s [] s where
  faults := h
  contents := by simp [serializeAll, FramedLog.encodeAll]
  log := by simp
  run := .nil
  compactRev_le := UInt64.le_refl _

/-- One request after the other. -/
theorem Commits.trans {s s' s'' : StoreState} {ws vs : List Write} (h : Commits s ws s')
    (h' : Commits s' vs s'') : Commits s (ws ++ vs) s'' where
  faults := h'.faults
  contents := by rw [h'.contents, h.contents, List.map_append, serializeAll_append,
    List.append_assoc]
  log := by rw [h'.log, h.log, List.map_append, List.append_assoc]
  run := h.run.append h'.run
  compactRev_le := UInt64.le_trans h.compactRev_le h'.compactRev_le

/-- A request went from `s` to `s'` by the writes `ws`, all at the revision it allocated. A request
may take a revision without a write, as a deletion does that finds no key, but no write is at any
other revision. -/
structure Served (s : StoreState) (ws : List Write) (s' : StoreState) : Prop
    extends Commits s ws s' where
  rev_eq : ∀ w ∈ ws, w.rev = s.nextRev
  nextRev : (s'.nextRev = s.nextRev ∧ ws = []) ∨ s'.nextRev = s.nextRev + 1

/-- A quiet request serves nothing. -/
theorem Quiet.served {s s' : StoreState} (h : Quiet s s') (hs : s.wal.faults = []) :
    Served s [] s' where
  faults := by rw [h.wal, hs]
  contents := by simp [h.wal, serializeAll, FramedLog.encodeAll]
  log := by simp [h.wal]
  run := by rw [h.keyspace]; exact .nil
  compactRev_le := h.compactRev_le
  rev_eq := by simp
  nextRev := .inl ⟨h.nextRev, rfl⟩

theorem Served.refl {s : StoreState} (h : s.wal.faults = []) : Served s [] s :=
  (Quiet.refl s).served h

/-- Quiet changes before a request do not show in what it serves. -/
theorem Served.of_quiet {s s' s'' : StoreState} {ws : List Write} (h : Served s' ws s'')
    (hs : Quiet s s') : Served s ws s'' where
  faults := h.faults
  contents := by rw [h.contents, hs.wal]
  log := by rw [h.log, hs.wal]
  run := by rw [← hs.keyspace]; exact h.run
  compactRev_le := UInt64.le_trans hs.compactRev_le h.compactRev_le
  rev_eq := by rw [← hs.nextRev]; exact h.rev_eq
  nextRev := by rw [← hs.nextRev]; exact h.nextRev

/-- Going on after a request has allocated its revision. -/
theorem Served.trans {s s' s'' : StoreState} {ws vs : List Write} (h : Served s ws s')
    (hrev : s'.nextRev = s.nextRev + 1) (h' : Commits s' vs s'')
    (hvs : ∀ w ∈ vs, w.rev = s.nextRev) (hnext : s''.nextRev = s'.nextRev) :
    Served s (ws ++ vs) s'' :=
  { h.toCommits.trans h' with
    rev_eq := by
      intro w hw
      rcases List.mem_append.mp hw with hw | hw
      · exact h.rev_eq w hw
      · exact hvs w hw
    nextRev := .inr (hnext.trans hrev) }

/-- The records that a deletion logs are those of the writes it makes. -/
theorem deleteRecords_eq (s : StoreState) (keys : List Bytes) (rev : UInt64) :
    s.deleteRecords keys rev = (s.deletes keys rev).map Write.record := by
  simp only [StoreState.deleteRecords, StoreState.deletes, List.map_filterMap]
  congr 1
  funext key
  cases s.alive? key <;> rfl

/-! ### Operations at a given revision -/

/-- The store went from `s` to `s'` by the writes `ws`, of which the watchers were told, and nothing
else happened. The revision is given from outside, so the counter stays where it is. -/
structure Effect (s : StoreState) (ws : List Write) (s' : StoreState) : Prop where
  faults : s.wal.faults = [] → s'.wal.faults = []
  contents : s'.wal.contents = s.wal.contents ++ serializeAll (ws.map Write.record)
  log : s'.wal.log = s.wal.log ++ ws.map Write.record
  run : Keyspace.Run s.keyspace ws s'.keyspace
  watchers : s'.watchers = s.watchers.map (notifyWrites ws)
  leases : s'.leases = s.leases
  nextRev : s'.nextRev = s.nextRev
  compactRev : s'.compactRev = s.compactRev

theorem Effect.refl (s : StoreState) : Effect s [] s where
  faults := id
  contents := by simp [serializeAll, FramedLog.encodeAll]
  log := by simp
  run := .nil
  watchers := (List.map_id _).symm
  leases := rfl
  nextRev := rfl
  compactRev := rfl

/-- One operation after the other. -/
theorem Effect.trans {s s' s'' : StoreState} {ws vs : List Write} (h : Effect s ws s')
    (h' : Effect s' vs s'') : Effect s (ws ++ vs) s'' where
  faults := fun hs => h'.faults (h.faults hs)
  contents := by rw [h'.contents, h.contents, List.map_append, serializeAll_append,
    List.append_assoc]
  log := by rw [h'.log, h.log, List.map_append, List.append_assoc]
  run := h.run.append h'.run
  watchers := by
    rw [h'.watchers, h.watchers, List.map_map]
    exact List.map_congr_left fun reg _ => (notifyWrites_append ws vs reg).symm
  leases := h'.leases.trans h.leases
  nextRev := h'.nextRev.trans h.nextRev
  compactRev := h'.compactRev.trans h.compactRev

/-- What an operation has written, it has committed. -/
theorem Effect.commits {s s' : StoreState} {ws : List Write} (h : Effect s ws s')
    (hs : s.wal.faults = []) : Commits s ws s' where
  faults := h.faults hs
  contents := h.contents
  log := h.log
  run := h.run
  compactRev_le := by rw [h.compactRev]; exact UInt64.le_refl _

/-- An operation that returns has carried out the given writes, or it has failed; and if the
WAL is sound it has then changed nothing. -/
def Performs {α : Type} (s : StoreState) (ws : List Write) (r : Except Failure α)
    (s' : StoreState) : Prop :=
  (∀ a, r = .ok a → Effect s ws s') ∧ ∀ e, r = .error e → s.wal.faults = [] → s' = s

theorem performs_error {α : Type} (s : StoreState) (ws : List Write) (e : Failure) :
    Performs s ws (.error e : Except Failure α) s :=
  ⟨by simp, fun _ _ _ => rfl⟩

/-- The write of a put. -/
def StoreState.putWrite (s : StoreState) (req : PutRequest) (rev : UInt64) : Write :=
  .put req.key (putValue req (s.alive? req.key)) (putLease req (s.alive? req.key)) rev
    (s.alive? req.key)

/-- A put has the effect of one write. -/
theorem putAt_spec (req : PutRequest) (rev : UInt64) (s : StoreState) :
    (putAt req rev).Spec s (Performs s [s.putWrite req rev]) := by
  unfold putAt
  refine Prog.spec_get_bind ?_
  dsimp only
  split
  · exact Prog.spec_throw_bind (performs_error s _ _)
  split
  · exact Prog.spec_throw_bind (performs_error s _ _)
  refine (appendKv_spec _ _ s).bind ?_ ?_
  · intro e s' happend
    exact ⟨by simp, fun e' _ hfaults => absurd hfaults (happend.2 e rfl)⟩
  · intro _ s' happend
    obtain ⟨w, hw, rfl⟩ := happend.1 _ rfl
    refine Prog.spec_modifyGet_bind (Prog.spec_get_bind (Prog.spec_pure ⟨fun _ _ => ?_, by simp⟩))
    -- the record was built from the entry that `apply` then replaces
    exact
      { faults := hw.faults
        contents := hw.contents
        log := hw.log
        run := .single rfl
        watchers := by
          refine List.map_congr_left fun reg _ => ?_
          simp only [notifyWrites, List.foldl_cons, List.foldl_nil, StoreState.putWrite,
            Write.event, StoreState.alive?, kvBytes_putRecord]
        leases := rfl
        nextRev := rfl
        compactRev := rfl }

omit [Crates] in
theorem nodup_keysToDelete {s : StoreState} {bound : RangeBound} {keys : List Bytes}
    (h : s.keysToDelete bound = .ok keys) : keys.Nodup := by
  unfold StoreState.keysToDelete at h
  split at h
  · cases h
    cases s.alive? _ <;> simp
  · cases hw : walkRange s.keys bound (btreeBounds bound) with
    | error e => rw [hw] at h; cases h
    | ok entries =>
        rw [hw] at h
        cases h
        rw [walkRange_eq_ok hw]
        exact nodup_keys_of_sublist (List.filter_sublist.trans List.filter_sublist)

/-- Log a batch of deletions, then carry them out. -/
theorem deleteBatch_spec {keys : List Bytes} (hnodup : keys.Nodup) (rev : UInt64) (e : Failure)
    (s : StoreState) :
    StoreM.Spec (do appendKvBatch (s.deleteRecords keys rev) e; applyDeletes keys rev) s
      (Performs s (s.deletes keys rev)) := by
  refine (appendKvBatch_spec _ _ s).bind ?_ ?_
  · intro e s' happend
    exact ⟨by simp, fun e' _ hfaults => absurd hfaults (happend.2 e rfl)⟩
  · intro _ s' happend
    obtain ⟨w, hw, rfl⟩ := happend.1 _ rfl
    refine (applyDeletes_spec hnodup rev _).mono ?_
    intro r s' h
    obtain ⟨rfl, hrun, hwatchers, hwal, hleases, hnext, hcompact⟩ := h
    refine ⟨fun _ _ => ?_, by simp⟩
    exact
      { faults := by rw [hwal]; exact hw.faults
        contents := by rw [hwal, ← deleteRecords_eq]; exact hw.contents
        log := by rw [hwal, ← deleteRecords_eq]; exact hw.log
        run := hrun
        watchers := hwatchers
        leases := hleases
        nextRev := hnext
        compactRev := hcompact }

/-- While appends succeed, a batch of deletions does not fail. -/
theorem deleteBatch_returns {keys : List Bytes} (hnodup : keys.Nodup) (rev : UInt64) (e : Failure)
    {s : StoreState} (hs : s.wal.faults = []) :
    StoreM.Spec (do appendKvBatch (s.deleteRecords keys rev) e; applyDeletes keys rev) s
      fun r _ => r = .ok () := by
  refine (appendKvBatch_spec _ _ s).bind ?_ ?_
  · intro e s' happend
    exact absurd hs (happend.2 e rfl)
  · intro _ s' _
    exact (applyDeletes_spec hnodup rev s').mono fun r s'' hr => hr.1

/-- The writes of a delete: the alive keys of its range. -/
def StoreState.deleteWrites (s : StoreState) (req : DeleteRangeRequest) (rev : UInt64) :
    List Write :=
  match s.keysToDelete (resolveRange req.key req.rangeEnd) with
  | .ok keys => s.deletes keys rev
  | .error _ => []

/-- A deletion has the effect of a write for each alive key of its range. -/
theorem deleteRangeAt_spec (req : DeleteRangeRequest) (rev : UInt64) (s : StoreState) :
    (deleteRangeAt req rev).Spec s (Performs s (s.deleteWrites req rev)) := by
  unfold deleteRangeAt
  refine StoreM.spec_read_bind (fun e _ => performs_error s _ e) fun keys hkeys => ?_
  refine Prog.spec_get_bind ?_
  rw [← bind_assoc]
  refine (deleteBatch_spec (nodup_keysToDelete hkeys) rev _ s).bind ?_ ?_
  · intro e s' h
    exact ⟨by simp, fun _ _ => h.2 e rfl⟩
  · intro a s' h
    refine Prog.spec_get_bind (Prog.spec_pure ⟨fun _ _ => ?_, by simp⟩)
    rw [StoreState.deleteWrites, hkeys]
    exact h.1 a rfl

/-! ### Requests -/

/-- A request served its writes, and the watchers were told of them. -/
structure Published (s : StoreState) (ws : List Write) (s' : StoreState) : Prop
    extends Served s ws s' where
  watchers : s'.watchers = s.watchers.map (notifyWrites ws)

/-- A quiet request that leaves the watchers alone publishes nothing. -/
theorem Quiet.published {s s' : StoreState} (h : Quiet s s') (hw : s'.watchers = s.watchers)
    (hs : s.wal.faults = []) : Published s [] s' :=
  { h.served hs with watchers := hw.trans (List.map_id _).symm }

theorem Published.refl {s : StoreState} (h : s.wal.faults = []) : Published s [] s :=
  (Quiet.refl s).published rfl h

/-- Quiet changes before a request do not show in what it publishes. -/
theorem Published.of_quiet {s s' s'' : StoreState} {ws : List Write} (h : Published s' ws s'')
    (hs : Quiet s s') (hw : s'.watchers = s.watchers) : Published s ws s'' :=
  { h.toServed.of_quiet hs with watchers := by rw [h.watchers, hw] }

/-- Going on after a request has allocated its revision. -/
theorem Published.trans {s s' s'' : StoreState} {ws vs : List Write} (h : Published s ws s')
    (hrev : s'.nextRev = s.nextRev + 1) (h' : Effect s' vs s'')
    (hvs : ∀ w ∈ vs, w.rev = s.nextRev) : Published s (ws ++ vs) s'' :=
  { h.toServed.trans hrev (h'.commits h.faults) hvs h'.nextRev with
    watchers := by
      rw [h'.watchers, h.watchers, List.map_map]
      exact List.map_congr_left fun reg _ => (notifyWrites_append ws vs reg).symm }

/-- Write at the revision that was taken. -/
theorem taken_spec {α : Type} {x : StoreM α} {s : StoreState} (h : s.wal.faults = [])
    {ws : List Write} (hws : ∀ w ∈ ws, w.rev = s.nextRev)
    (hx : x.Spec { s with nextRev := s.nextRev + 1 }
      (Performs { s with nextRev := s.nextRev + 1 } ws)) :
    x.Spec { s with nextRev := s.nextRev + 1 } fun _ s' => ∃ ws, Published s ws s' := by
  refine hx.mono ?_
  intro r s' hr
  have hbase : Published s [] { s with nextRev := s.nextRev + 1 } :=
    { (Published.refl h) with nextRev := .inr rfl }
  cases r with
  | error e =>
      rw [hr.2 e rfl h]
      exact ⟨[], hbase⟩
  | ok a => exact ⟨_, hbase.trans rfl (hr.1 a rfl) hws⟩

omit [Crates] in
theorem rev_putWrite (s : StoreState) (req : PutRequest) (rev : UInt64) :
    (s.putWrite req rev).rev = rev := rfl

omit [Crates] in
theorem rev_of_mem_deleteWrites {s : StoreState} {req : DeleteRangeRequest} {rev : UInt64}
    {w : Write} (h : w ∈ s.deleteWrites req rev) : w.rev = rev := by
  unfold StoreState.deleteWrites at h
  split at h
  · exact rev_of_mem_deletes h
  · cases h

theorem put_spec (req : PutRequest) {s : StoreState} (h : s.wal.faults = []) :
    (put req).Spec s fun _ s' => ∃ ws, Published s ws s' :=
  put_rule req ⟨[], .refl h⟩ (taken_spec h (by simp [rev_putWrite]) (putAt_spec req s.nextRev _))

theorem deleteRange_spec (req : DeleteRangeRequest) {s : StoreState} (h : s.wal.faults = []) :
    (deleteRange req).Spec s fun _ s' => ∃ ws, Published s ws s' :=
  deleteRange_rule req ⟨[], .refl h⟩
    (taken_spec h (fun _ => rev_of_mem_deleteWrites) (deleteRangeAt_spec req s.nextRev _))

theorem deleteKeysForLease_spec (id : Int64) {s : StoreState} (h : s.wal.faults = []) :
    (deleteKeysForLease id).Spec s fun _ s' => ∃ ws, Published s ws s' := by
  refine deleteKeysForLease_rule id (fun _ => ⟨[], .refl h⟩) ?_
  intro keys e hnodup _
  exact taken_spec h (fun _ => rev_of_mem_deletes) (deleteBatch_spec hnodup s.nextRev e _)

/-! ### Transactions -/

/-- The state of a transaction that started in `s₀`: it has published some writes, and its cursor
holds the revision it allocated, if it has allocated one. -/
def InTxn (s₀ : StoreState) (c : TxnCursor) (s : StoreState) : Prop :=
  (∃ ws, Published s₀ ws s) ∧
    (c.rev = none ∧ s.nextRev = s₀.nextRev ∨ c.rev = some s₀.nextRev ∧ s.nextRev = s₀.nextRev + 1)

theorem InTxn.faults {s₀ s : StoreState} {c : TxnCursor} (h : InTxn s₀ c s) :
    s.wal.faults = [] := by
  obtain ⟨⟨ws, hws⟩, -⟩ := h
  exact hws.faults

/-- Writes at the transaction's revision keep it going. -/
theorem InTxn.effect {s₀ s s' : StoreState} {c : TxnCursor} {vs : List Write}
    (h : InTxn s₀ c s) (hrev : c.rev = some s₀.nextRev) (hvs : Effect s vs s')
    (hvsRev : ∀ w ∈ vs, w.rev = s₀.nextRev) : InTxn s₀ c s' := by
  obtain ⟨⟨ws, hws⟩, hcur⟩ := h
  have hnext₀ : s.nextRev = s₀.nextRev + 1 := by
    rcases hcur with ⟨hnone, -⟩ | ⟨-, hs⟩
    · rw [hrev] at hnone
      cases hnone
    · exact hs
  exact ⟨⟨ws ++ vs, hws.trans hnext₀ hvs hvsRev⟩, .inr ⟨hrev, hvs.nextRev.trans hnext₀⟩⟩

/-- `rev.get_or_insert_with(|| state.alloc_revision())`: the transaction's revision is the
`next_rev` it started with, whenever it is allocated. -/
theorem getRev_inTxn {s₀ s : StoreState} {c : TxnCursor} (h : InTxn s₀ c s) :
    ∃ c' s', exec c.getRev s = (.ok (s₀.nextRev, c'), s') ∧ InTxn s₀ c' s' ∧
      c'.rev = some s₀.nextRev := by
  obtain ⟨⟨ws, hws⟩, hcur⟩ := h
  rcases hcur with ⟨hnone, hs⟩ | ⟨hsome, hs⟩
  · refine ⟨{ c with rev := some s₀.nextRev }, { s with nextRev := s.nextRev + 1 }, ?_, ?_, rfl⟩
    · simp only [TxnCursor.getRev, hnone, allocRevision, Prog.exec_bind, Prog.exec_modifyGet,
        Prog.exec_pure, hs]
    · have hpublished : Published s₀ ws { s with nextRev := s.nextRev + 1 } :=
        { hws with nextRev := .inr (by simp [hs]) }
      exact ⟨⟨ws, hpublished⟩, .inr ⟨rfl, by simp [hs]⟩⟩
  · refine ⟨c, s, ?_, ⟨⟨ws, hws⟩, .inr ⟨hsome, hs⟩⟩, hsome⟩
    simp only [TxnCursor.getRev, hsome, Prog.exec_pure]

/-- What holds after part of a transaction: `I` as long as it goes on, and `E` in any case. -/
def TxnPost {α : Type} (I : TxnCursor → StoreState → Prop) (E : StoreState → Prop)
    (r : Except Failure (α × TxnCursor)) (s : StoreState) : Prop :=
  (∀ a c, r = .ok (a, c) → I c s) ∧ E s

/-- A write op: take the transaction's revision, write at it. -/
def writeOp {α β : Type} (c : TxnCursor) (x : UInt64 → StoreM α) (g : α → β) :
    StoreM (β × TxnCursor) := do
  let (rev, c) ← c.getRev
  return (g (← x rev), c)

/-- `I` is kept from op to op of a transaction, and gives `E` wherever one fails. The cursor goes
with the state, since it knows whether the revision is taken. Deferring a range changes the cursor
alone. -/
structure TxnInvariant (I : TxnCursor → StoreState → Prop) (E : StoreState → Prop) : Prop where
  error : ∀ {c s}, I c s → E s
  deferred : ∀ {c s} d, I c s → I { c with deferred := d } s
  put : ∀ {c s} p, I c s → (writeOp c (putAt p) ResponseOp.put).Spec s (TxnPost I E)
  deleteRange : ∀ {c s} d, I c s →
    (writeOp c (deleteRangeAt d) ResponseOp.deleteRange).Spec s (TxnPost I E)

section

variable {I : TxnCursor → StoreState → Prop} {E : StoreState → Prop}

theorem TxnInvariant.post {α : Type} (hI : TxnInvariant I E) {c : TxnCursor} {s : StoreState}
    (h : I c s) (a : α) : TxnPost I E (.ok (a, c)) s :=
  ⟨fun _ _ heq => (by cases heq; exact h), hI.error h⟩

omit [Crates] in
theorem TxnPost.of_error {α : Type} {s : StoreState} (h : E s) (e : Failure) :
    TxnPost I E (.error e : Except Failure (α × TxnCursor)) s :=
  ⟨fun _ _ heq => (by cases heq), h⟩

mutual
/-- The recursion over nested transactions: what the three kinds of ops keep, every op keeps. -/
theorem applyTxnOp_spec (hI : TxnInvariant I E) : ∀ (op : RequestOp) (path : List Nat)
    (depth : Nat) (c : TxnCursor) (s : StoreState), I c s →
      (applyTxnOp path depth c op).Spec s (TxnPost I E)
  | .range r, path, depth, c, s, h => by
      unfold applyTxnOp
      split
      · exact Prog.spec_pure (hI.post (hI.deferred _ h) _)
      · refine StoreM.spec_read_bind (fun e _ => .of_error (hI.error h) e) fun resp _ => ?_
        exact Prog.spec_pure (hI.post h _)
  | .put p, path, depth, c, s, h => by
      unfold applyTxnOp
      refine StoreM.spec_read_bind (fun e _ => .of_error (hI.error h) e) fun _ _ => ?_
      exact hI.put p h
  | .deleteRange d, path, depth, c, s, h => by
      unfold applyTxnOp
      refine StoreM.spec_read_bind (fun e _ => .of_error (hI.error h) e) fun _ _ => ?_
      exact hI.deleteRange d h
  | .txn compare success failure, path, depth, c, s, h => by
      unfold applyTxnOp
      split
      · exact Prog.spec_throw_bind (.of_error (hI.error h) _)
      · refine Prog.spec_get_bind ?_
        split
        · refine (applyTxnOps_spec hI success path 0 (depth + 1) c s h).bind
            (fun e _ hr => .of_error hr.2 e) ?_
          rintro ⟨responses, c'⟩ s' ⟨hin, -⟩
          exact Prog.spec_get_bind (Prog.spec_pure (hI.post (hin _ _ rfl) _))
        · refine (applyTxnOps_spec hI failure path 0 (depth + 1) c s h).bind
            (fun e _ hr => .of_error hr.2 e) ?_
          rintro ⟨responses, c'⟩ s' ⟨hin, -⟩
          exact Prog.spec_get_bind (Prog.spec_pure (hI.post (hin _ _ rfl) _))
  | .none, path, depth, c, s, h => by
      unfold applyTxnOp
      exact Prog.spec_pure (hI.post h _)
theorem applyTxnOps_spec (hI : TxnInvariant I E) : ∀ (ops : List RequestOp) (path : List Nat)
    (i depth : Nat) (c : TxnCursor) (s : StoreState), I c s →
      (applyTxnOps path i depth c ops).Spec s (TxnPost I E)
  | [], path, i, depth, c, s, h => by
      unfold applyTxnOps
      exact Prog.spec_pure (hI.post h _)
  | op :: ops, path, i, depth, c, s, h => by
      unfold applyTxnOps
      refine (applyTxnOp_spec hI op (path ++ [i]) depth c s h).bind
        (fun e _ hr => .of_error hr.2 e) ?_
      rintro ⟨response, c'⟩ s' ⟨hin, -⟩
      refine (applyTxnOps_spec hI ops path (i + 1) depth c' s' (hin _ _ rfl)).bind
        (fun e _ hr => .of_error hr.2 e) ?_
      rintro ⟨responses, c''⟩ s'' ⟨hin', -⟩
      exact Prog.spec_pure (hI.post (hin' _ _ rfl) _)
end

/-- Deferred ranges are read only. -/
theorem runDeferred_spec {Q : StoreState → Prop} : ∀ (deferred : List (List Nat × RangeRequest))
    (resp : TxnResponse) (s : StoreState), Q s →
      (runDeferred deferred resp).Spec s fun _ s' => Q s'
  | [], _, _, h => Prog.spec_pure h
  | (path, req) :: deferred, resp, s, h => by
      unfold runDeferred
      refine StoreM.spec_read_bind (fun _ _ => h) fun r _ => ?_
      exact runDeferred_spec deferred _ s h

/-- **What every op keeps, a whole transaction keeps**, up to where it releases its lock. The
invariant starts with an empty cursor. -/
theorem TxnInvariant.txnLocked_spec (hI : TxnInvariant I E) (req : TxnRequest) {s : StoreState}
    (h : I {} s) : (txnLocked req).Spec s fun _ s' => E s' := by
  unfold txnLocked
  refine Prog.spec_get_bind ?_
  refine (applyTxnOps_spec hI _ [] 0 0 {} s h).bind (fun _ _ hr => hr.2) ?_
  rintro ⟨responses, c⟩ s' ⟨-, hE⟩
  exact Prog.spec_get_bind (Prog.spec_pure hE)

/-- And to its end, an aborted one included. -/
theorem TxnInvariant.txn_spec (hI : TxnInvariant I E) (req : TxnRequest) {s : StoreState}
    (h : I {} s) : (txn req).Spec s fun _ s' => E s' := by
  unfold txn
  refine StoreM.spec_read_bind (fun _ _ => hI.error h) fun _ _ => ?_
  refine (hI.txnLocked_spec req h).bind (fun _ _ hr => hr) ?_
  rintro ⟨resp, deferred⟩ s' hE
  exact runDeferred_spec deferred resp s' hE

end

/-- A write op of a transaction that has published its writes so far. -/
theorem writeOp_spec {α β : Type} {s₀ s : StoreState} {c : TxnCursor} (h : InTxn s₀ c s)
    {x : UInt64 → StoreM α} (g : α → β) {ws : StoreState → List Write}
    (hws : ∀ s', ∀ w ∈ ws s', w.rev = s₀.nextRev)
    (hx : ∀ s', (x s₀.nextRev).Spec s' (Performs s' (ws s'))) :
    (writeOp c x g).Spec s (TxnPost (InTxn s₀) fun s => ∃ ws, Published s₀ ws s) := by
  obtain ⟨c', s', hget, hin, hrev⟩ := getRev_inTxn h
  refine Prog.spec_bind_ok hget ((hx s').bind ?_ ?_)
  · intro e s'' hr
    rw [hr.2 e rfl hin.faults]
    exact .of_error hin.1 e
  · intro a s'' hr
    have hin' := hin.effect hrev (hr.1 a rfl) (hws s')
    refine Prog.spec_pure ⟨?_, hin'.1⟩
    intro b c'' heq
    cases heq
    exact hin'

/-- An invariant of the store that its writes keep is one of a transaction. -/
theorem TxnInvariant.of_store {E : StoreState → Prop}
    (hrev : ∀ {s}, E s → E { s with nextRev := s.nextRev + 1 })
    (hput : ∀ p rev {s}, E s → (putAt p rev).Spec s fun _ s' => E s')
    (hdelete : ∀ d rev {s}, E s → (deleteRangeAt d rev).Spec s fun _ s' => E s') :
    TxnInvariant (fun _ s => E s) E := by
  have hgetRev : ∀ (c : TxnCursor) {s}, E s → c.getRev.Spec s fun _ s' => E s' := by
    intro c s h
    unfold TxnCursor.getRev
    split
    · exact Prog.spec_pure h
    · exact Prog.spec_modifyGet_bind (Prog.spec_pure (hrev h))
  have hwrite : ∀ {α β : Type} (c : TxnCursor) {x : UInt64 → StoreM α} (g : α → β) {s}, E s →
      (∀ rev {s}, E s → (x rev).Spec s fun _ s' => E s') →
      (writeOp c x g).Spec s (TxnPost (fun _ s => E s) E) := by
    intro α β c x g s h hx
    refine (hgetRev c h).bind (fun e _ hs => .of_error hs e) ?_
    intro a s' hs
    refine (hx a.1 hs).bind (fun e _ hs => .of_error hs e) ?_
    intro b s'' hs'
    exact Prog.spec_pure ⟨fun _ _ _ => hs', hs'⟩
  exact
    { error := id
      deferred := fun _ h => h
      put := fun p h => hwrite _ _ h fun rev _ hs => hput p rev hs
      deleteRange := fun d h => hwrite _ _ h fun rev _ hs => hdelete d rev hs }

/-- In a transaction all writes so far are at the revision of its cursor. -/
theorem inTxn_invariant (s₀ : StoreState) :
    TxnInvariant (InTxn s₀) fun s => ∃ ws, Published s₀ ws s where
  error := fun h => h.1
  deferred := fun _ h => h
  put := fun p h => writeOp_spec h _ (by simp [rev_putWrite]) (putAt_spec p _)
  deleteRange := fun d h => writeOp_spec h _ (fun _ _ => rev_of_mem_deleteWrites)
    (deleteRangeAt_spec d _)

/-- A transaction serves its writes, the answers to deferred ranges included, which write nothing.
-/
theorem txn_spec (req : TxnRequest) {s : StoreState} (h : s.wal.faults = []) :
    (txn req).Spec s fun _ s' => ∃ ws, Published s ws s' :=
  (inTxn_invariant s).txn_spec req ⟨⟨[], .refl h⟩, .inl ⟨rfl, rfl⟩⟩

theorem txnLocked_spec (req : TxnRequest) {s : StoreState} (h : s.wal.faults = []) :
    (txnLocked req).Spec s fun _ s' => ∃ ws, Published s ws s' :=
  (inTxn_invariant s).txnLocked_spec req ⟨⟨[], .refl h⟩, .inl ⟨rfl, rfl⟩⟩

/-! ### The watermark and the leases -/

/-- `compact` only ever raises the watermark. -/
theorem compact_spec (revision : Int64) {s : StoreState} (h : s.wal.faults = []) :
    (compact revision).Spec s fun _ s' => ∃ ws, Published s ws s' := by
  refine compact_rule revision (fun _ => ⟨[], .refl h⟩) ?_
  intro hnew _ _
  exact ⟨[], Quiet.published ⟨rfl, rfl, rfl, UInt64.le_of_lt hnew⟩ rfl h⟩

/-- Leases are no part of what is published. -/
theorem published_leases {s : StoreState} (h : s.wal.faults = []) (nextLeaseId : Int64)
    (leases : ExtTreeMap Int64 LeaseState) :
    Published s [] { s with nextLeaseId, leases } :=
  Quiet.published ⟨rfl, rfl, rfl, UInt64.le_refl _⟩ rfl h

theorem leaseGrant_spec (now : Nat) (id ttl : Int64) {s : StoreState} (h : s.wal.faults = []) :
    (leaseGrant now id ttl).Spec s fun _ s' => ∃ ws, Published s ws s' := by
  refine leaseGrant_rule now id ttl ⟨[], .refl h⟩ ?_ ?_
  · intro _ t _
    exact grantLease_rule now t id ⟨[], .refl h⟩ ⟨[], published_leases h _ _⟩
  · intro _ t _
    exact grantLease_rule now t _ ⟨[], published_leases h _ _⟩ ⟨[], published_leases h _ _⟩

/-- The shared part of revocation and expiry: forget the lease, then delete its keys. -/
theorem dropLease_spec (id : Int64) {s : StoreState} (h : s.wal.faults = []) :
    (deleteKeysForLease id).Spec { s with leases := s.leases.erase id }
      fun _ s' => ∃ ws, Published s ws s' := by
  have hs : Quiet s { s with leases := s.leases.erase id } := ⟨rfl, rfl, rfl, UInt64.le_refl _⟩
  refine Prog.Spec.mono (deleteKeysForLease_spec id (by exact h)) ?_
  intro r s' h
  obtain ⟨ws, hws⟩ := h
  exact ⟨ws, hws.of_quiet hs rfl⟩

theorem leaseRevoke_spec (id : Int64) {s : StoreState} (h : s.wal.faults = []) :
    (leaseRevoke id).Spec s fun _ s' => ∃ ws, Published s ws s' :=
  leaseRevoke_rule id (fun _ => ⟨[], .refl h⟩) fun _ => dropLease_spec id h

theorem leaseKeepAlive_spec (now : Nat) (id : Int64) {s : StoreState} (h : s.wal.faults = []) :
    (leaseKeepAlive now id).Spec s fun _ s' => ∃ ws, Published s ws s' :=
  leaseKeepAlive_rule now id ⟨[], .refl h⟩ fun _ _ => ⟨[], published_leases h _ _⟩

theorem leaseExpire_spec (now : Nat) (id : Int64) {s : StoreState} (h : s.wal.faults = []) :
    (leaseExpire now id).Spec s fun _ s' => ∃ ws, Published s ws s' :=
  leaseExpire_rule now id (fun _ => ⟨[], .refl h⟩) fun _ _ _ => dropLease_spec id h

/-! ### Response headers

A successful write answers with the header of the state it leaves. -/

/-- The result, if there is one, has the header of the final state. -/
def HasHeader {α : Type} (header : α → ResponseHeader) (r : Except Failure α) (s : StoreState) :
    Prop :=
  ∀ a, r = .ok a → header a = s.header

omit [Crates] in
theorem hasHeader_error {α : Type} (header : α → ResponseHeader) (e : Failure) (s : StoreState) :
    HasHeader header (.error e) s := by
  intro a ha
  cases ha

omit [Crates] in
theorem hasHeader_ok {α : Type} {header : α → ResponseHeader} {a : α} {s : StoreState}
    (h : header a = s.header) : HasHeader header (.ok a) s := by
  intro a' ha
  cases ha
  exact h

theorem putAt_header (req : PutRequest) (rev : UInt64) (s : StoreState) :
    (putAt req rev).Spec s fun r s' => HasHeader PutResponse.header r s' := by
  unfold putAt
  refine Prog.spec_get_bind ?_
  dsimp only
  split
  · exact Prog.spec_throw_bind (hasHeader_error _ _ _)
  split
  · exact Prog.spec_throw_bind (hasHeader_error _ _ _)
  refine Prog.spec_bind_forall (hasHeader_error _) fun _ s₁ => ?_
  refine Prog.spec_bind_forall (hasHeader_error _) fun _ s₂ => ?_
  exact Prog.spec_get_bind (Prog.spec_pure (hasHeader_ok rfl))

theorem put_header (req : PutRequest) (s : StoreState) :
    (put req).Spec s fun r s' => HasHeader PutResponse.header r s' := by
  unfold put
  refine Prog.spec_bind_forall (hasHeader_error _) fun _ s₁ => ?_
  refine Prog.spec_bind_forall (hasHeader_error _) fun rev s₂ => ?_
  exact putAt_header req rev s₂

theorem deleteRange_header (req : DeleteRangeRequest) (s : StoreState) :
    (deleteRange req).Spec s fun r s' => HasHeader DeleteRangeResponse.header r s' := by
  unfold deleteRange
  refine Prog.spec_bind_forall (hasHeader_error _) fun _ s₁ => ?_
  refine Prog.spec_bind_forall (hasHeader_error _) fun rev s₂ => ?_
  unfold deleteRangeAt
  refine Prog.spec_bind_forall (hasHeader_error _) fun keys s₃ => ?_
  refine Prog.spec_get_bind ?_
  refine Prog.spec_bind_forall (hasHeader_error _) fun _ s₄ => ?_
  refine Prog.spec_bind_forall (hasHeader_error _) fun _ s₅ => ?_
  exact Prog.spec_get_bind (Prog.spec_pure (hasHeader_ok rfl))

theorem runDeferred_header : ∀ (deferred : List (List Nat × RangeRequest)) (resp : TxnResponse)
    (s : StoreState), resp.header = s.header →
      (runDeferred deferred resp).Spec s fun r s' => HasHeader TxnResponse.header r s'
  | [], _, _, h => Prog.spec_pure (hasHeader_ok h)
  | (path, req) :: deferred, resp, s, h => by
      unfold runDeferred
      refine StoreM.spec_read_bind (fun _ _ => hasHeader_error _ _ _) fun r _ => ?_
      exact runDeferred_header deferred _ s h

theorem txn_header (req : TxnRequest) (s : StoreState) :
    (txn req).Spec s fun r s' => HasHeader TxnResponse.header r s' := by
  unfold txn
  refine Prog.spec_bind_forall (hasHeader_error _) fun _ s₁ => ?_
  have hlocked : (txnLocked req).Spec s₁ fun r s' => HasHeader (fun a => a.1.header) r s' := by
    unfold txnLocked
    refine Prog.spec_get_bind ?_
    refine Prog.spec_bind_forall (hasHeader_error _) fun _ s₂ => ?_
    exact Prog.spec_get_bind (Prog.spec_pure (hasHeader_ok rfl))
  refine hlocked.bind (fun _ _ _ => hasHeader_error _ _ _) ?_
  intro a s₂ ha
  exact runDeferred_header a.2 a.1 s₂ (ha a rfl)

end Rudurru
