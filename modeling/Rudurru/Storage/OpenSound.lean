import Rudurru.Storage.StoreSound

/-!
# Rudurru.Storage.OpenSound

`Store::open` computes a fold over the records of the file: the keyspace is the replay of the
records (`Keyspace.replayAll?`), and `next_rev` is one above the highest revision among them
(`openStore_eq`). Records at revision zero are skipped, since a fresh store's `compact_rev` is
zero.

The code reads a record, skips it or applies it, and keeps the highest revision, all in one loop
over a mutable state. The fold separates these: the records that are not skipped, the keyspace they
lead to, the highest revision among them, and the leases of the alive keys at the end. Nobody
watches a store that is being opened, so notification does nothing.
-/

namespace Rudurru

open Prog (exec)

/-! ### The opened store -/

/-- Replace the keyspace. -/
def StoreState.withKeyspace (s : StoreState) (K : Keyspace) : StoreState :=
  { s with keys := K.keys, keyCount := K.keyCount }

/-- Without watchers a notification changes nothing. -/
theorem notifyWatchers_of_watchers {s : StoreState} (h : s.watchers = []) (event : WatchEvent) :
    s.notifyWatchers event = s := by
  cases s
  simp only at h
  simp [StoreState.notifyWatchers, h]

/-- The records `Store::open` does not skip. -/
def replayed (recs : List KvWalRecord) : List KvWalRecord := recs.filter (·.revision ≠ 0)

/-- Only records at revision zero are skipped. -/
theorem replayed_of_nonzero {recs : List KvWalRecord} (h : ∀ r ∈ recs, r.revision ≠ 0) :
    replayed recs = recs :=
  List.filter_eq_self.mpr fun r hr => by simpa using h r hr

/-- The highest revision among the records, `m` included. -/
def maxRevision (recs : List KvWalRecord) (m : UInt64) : UInt64 :=
  recs.foldl (fun m rec => if rec.revision > m then rec.revision else m) m

/-- The store opened on a file whose records replay to `K`. -/
def opened (now : Nat) (contents : Bytes) (recs : List KvWalRecord) (K : Keyspace) : StoreState :=
  { (StoreState.new (.open contents)).withKeyspace K with
    nextRev := maxRevision recs 0 + 1 }.restoreLeases now

@[simp] theorem opened_keys (now : Nat) (contents : Bytes) (recs : List KvWalRecord)
    (K : Keyspace) : (opened now contents recs K).keys = K.keys := rfl

@[simp] theorem opened_keyspace (now : Nat) (contents : Bytes) (recs : List KvWalRecord)
    (K : Keyspace) : (opened now contents recs K).keyspace = K := rfl

@[simp] theorem opened_wal (now : Nat) (contents : Bytes) (recs : List KvWalRecord)
    (K : Keyspace) : (opened now contents recs K).wal = .open contents := rfl

@[simp] theorem opened_nextRev (now : Nat) (contents : Bytes) (recs : List KvWalRecord)
    (K : Keyspace) : (opened now contents recs K).nextRev = maxRevision recs 0 + 1 := rfl

@[simp] theorem opened_compactRev (now : Nat) (contents : Bytes) (recs : List KvWalRecord)
    (K : Keyspace) : (opened now contents recs K).compactRev = 0 := rfl

variable [Crates]

/-! ### Replaying records -/

/-- Nobody watches a store that is being opened, so replaying a record changes the keyspace
only. -/
theorem exec_applyRecord {s : StoreState} (hw : s.watchers = []) {rec : KvWalRecord} {K : Keyspace}
    (h : s.keyspace.replay? rec = some K) :
    exec (applyRecord rec) s = (.ok (), s.withKeyspace K) := by
  unfold Keyspace.replay? at h
  unfold applyRecord
  split at h
  · next hdel =>
      rw [if_pos hdel, Prog.exec_bind]
      cases halive : s.alive? (rec.key.getD []) with
      | none =>
          rw [show aliveIn s.keyspace.keys (rec.key.getD []) = none from halive] at h
          cases h
          rw [applyDelete_of_not_alive halive]
          rfl
      | some prev =>
          rw [show aliveIn s.keyspace.keys (rec.key.getD []) = some prev from halive] at h
          obtain ⟨blob, hblob, rfl⟩ := Option.map_eq_some_iff.mp h
          rw [applyDelete_of_alive halive hblob]
          simp only [Prog.exec_pure]
          -- nobody watches yet
          rw [notifyWatchers_of_watchers (by exact hw)]
          rfl
  · next hput =>
      rw [if_neg hput]
      cases hdec : decodeKeyValue rec.kvBytes with
      | none =>
          simp only [hdec, Option.some.injEq] at h
          subst h
          rfl
      | some kv =>
          simp only [hdec, Option.some.injEq] at h
          subst h
          simp only [apply, Prog.exec_bind, Prog.exec_modifyGet, Prog.exec_pure]
          rw [notifyWatchers_of_watchers (by exact hw)]
          rfl

/-- A record whose blob cannot be patched ends the start of the server. -/
theorem exec_applyRecord_panics {s : StoreState} {rec : KvWalRecord}
    (h : s.keyspace.replay? rec = none) :
    ∃ s', exec (applyRecord rec) s = (.error (.panic "index out of bounds"), s') := by
  unfold Keyspace.replay? at h
  unfold applyRecord
  split at h
  · next hdel =>
      rw [if_pos hdel, Prog.exec_bind]
      cases halive : s.alive? (rec.key.getD []) with
      | none =>
          rw [show aliveIn s.keyspace.keys (rec.key.getD []) = none from halive] at h
          cases h
      | some prev =>
          rw [show aliveIn s.keyspace.keys (rec.key.getD []) = some prev from halive] at h
          have hpanic := applyDelete_panics halive (Option.map_eq_none_iff.mp h)
          rcases hexec : exec (applyDelete (rec.key.getD []) rec.revision) s with ⟨r, s'⟩
          rw [hexec] at hpanic
          obtain rfl : r = .error (.panic "index out of bounds") := hpanic
          exact ⟨s', rfl⟩
  · split at h <;> cases h

/-- Replaying a list of records with nothing skipped. -/
theorem exec_forM_applyRecord {recs : List KvWalRecord} {s : StoreState} (hw : s.watchers = [])
    {K : Keyspace} (h : s.keyspace.replayAll? recs = some K) :
    exec (recs.forM applyRecord) s = (.ok (), s.withKeyspace K) := by
  induction recs generalizing s with
  | nil =>
      cases h
      rfl
  | cons rec recs ih =>
      rw [Keyspace.replayAll?_cons, Option.bind_eq_some_iff] at h
      obtain ⟨K', hK', hrest⟩ := h
      show exec (do applyRecord rec; recs.forM applyRecord) s = _
      rw [Prog.exec_bind, exec_applyRecord hw hK']
      exact ih (s := s.withKeyspace K') hw hrest

/-- The loop over the records keeps the keyspace and the highest revision apart from everything
else. -/
theorem exec_replayLoop {recs : List KvWalRecord} {s : StoreState} (hw : s.watchers = [])
    (hc : s.compactRev = 0) {K : Keyspace} (m : UInt64)
    (h : s.keyspace.replayAll? (replayed recs) = some K) :
    exec (replayLoop recs m) s = (.ok (maxRevision recs m), s.withKeyspace K) := by
  induction recs generalizing s m with
  | nil =>
      cases h
      rfl
  | cons rec recs ih =>
      rw [replayLoop, Prog.exec_bind, Prog.exec_get]
      simp only [hc]
      by_cases hrev : rec.revision = 0
      · have hskip : replayed (rec :: recs) = replayed recs := by simp [replayed, hrev]
        have hmax : maxRevision (rec :: recs) m = maxRevision recs m := by
          simp [maxRevision, hrev]
        rw [hskip] at h
        rw [if_pos (by simp [hrev]), hmax]
        exact ih hw hc m h
      · have hkeep : replayed (rec :: recs) = rec :: replayed recs := by simp [replayed, hrev]
        rw [hkeep, Keyspace.replayAll?_cons, Option.bind_eq_some_iff] at h
        obtain ⟨K', hK', hrest⟩ := h
        rw [if_neg (by simpa using hrev), Prog.exec_bind, exec_applyRecord hw hK']
        exact ih (s := s.withKeyspace K') hw hc _ hrest

theorem exec_replayLoop_panics {recs : List KvWalRecord} {s : StoreState} (hw : s.watchers = [])
    (hc : s.compactRev = 0) (m : UInt64) (h : s.keyspace.replayAll? (replayed recs) = none) :
    ∃ s', exec (replayLoop recs m) s = (.error (.panic "index out of bounds"), s') := by
  induction recs generalizing s m with
  | nil => cases h
  | cons rec recs ih =>
      rw [replayLoop, Prog.exec_bind, Prog.exec_get]
      simp only [hc]
      by_cases hrev : rec.revision = 0
      · have hskip : replayed (rec :: recs) = replayed recs := by simp [replayed, hrev]
        rw [hskip] at h
        rw [if_pos (by simp [hrev])]
        exact ih hw hc m h
      · have hkeep : replayed (rec :: recs) = rec :: replayed recs := by simp [replayed, hrev]
        rw [hkeep, Keyspace.replayAll?_cons] at h
        rw [if_neg (by simpa using hrev), Prog.exec_bind]
        cases hK : s.keyspace.replay? rec with
        | none =>
            obtain ⟨s', hs'⟩ := exec_applyRecord_panics hK
            rw [hs']
            exact ⟨s', rfl⟩
        | some K' =>
            rw [hK] at h
            rw [exec_applyRecord hw hK]
            exact ih (s := s.withKeyspace K') hw hc _ h

/-! ### `Store::open` -/

/-- **What `Store::open` computes.** It fails where the scan does, panics where the replay does, and
is the opened store otherwise. -/
theorem openStore_eq (now : Nat) (contents : Bytes) :
    openStore now contents =
      match scanKvFile contents 0 with
      | (_, .error e) => .error (.io e)
      | (recs, .ok _) =>
          match Keyspace.empty.replayAll? (replayed recs) with
          | some K => .ok (opened now contents recs K)
          | none => .error (.panic "index out of bounds") := by
  unfold openStore
  rcases hscan : scanKvFile contents 0 with ⟨recs, e | n⟩
  · rfl
  · dsimp only
    cases hK : Keyspace.empty.replayAll? (replayed recs) with
    | some K =>
        have hloop : exec (replayLoop recs 0) (.new (.open contents)) = _ :=
          exec_replayLoop rfl rfl 0 hK
        rw [hloop]
        rfl
    | none =>
        obtain ⟨s', hs'⟩ : ∃ s', exec (replayLoop recs 0) (.new (.open contents)) = (_, s') :=
          exec_replayLoop_panics rfl rfl 0 hK
        rw [hs']

/-- A store opens on a file that is read to its end and replays. -/
theorem openStore_of_scan {now n : Nat} {contents : Bytes} {recs : List KvWalRecord} {K : Keyspace}
    (hscan : scanKvFile contents 0 = (recs, .ok n))
    (hK : Keyspace.empty.replayAll? (replayed recs) = some K) :
    openStore now contents = .ok (opened now contents recs K) := by
  rw [openStore_eq, hscan]
  simp only [hK]

/-- What is known of a store that was opened: its records were read and have been replayed. -/
theorem openStore_eq_ok {now : Nat} {contents : Bytes} {s : StoreState}
    (h : openStore now contents = .ok s) :
    ∃ recs n K, scanKvFile contents 0 = (recs, .ok n) ∧
      Keyspace.empty.replayAll? (replayed recs) = some K ∧ s = opened now contents recs K := by
  rw [openStore_eq] at h
  split at h
  · cases h
  · next recs n hscan =>
      split at h
      · next K hK =>
          cases h
          exact ⟨recs, n, K, hscan, hK, rfl⟩
      · cases h

end Rudurru
