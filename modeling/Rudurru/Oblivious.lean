import Rudurru.SystemSound

/-!
# Rudurru.Oblivious

Requests do not look at the watchers: with one watcher more, a request has the same outcome and
leaves the same store, with that watcher at the end (`answer_registerWatcher`). So an extra watcher
can observe a server without being part of it.

The two runs are compared as one program on two states (`Prog.Respects` in `Lib.Prog`): the states
differ by a watcher, every operation respects that difference, and programs made of such operations
do too. No operation reads the list of watchers but the notification, which sends each watcher its
own events.
-/

namespace Rudurru
open Std (ExtTreeMap)
open Prog (exec Respects)

/-- The same store with one watcher more. -/
def Watched (s t : StoreState) : Prop := ∃ reg, t = s.registerWatcher reg

/-- A read of what is not among the watchers. -/
theorem respects_read {α : Type} {f : StoreState → Except Failure α}
    (h : ∀ s reg, f (s.registerWatcher reg) = f s) : Respects Watched (StoreM.read f) := by
  refine Prog.respects_get_bind ?_ ?_
  · intro s t hst
    obtain ⟨reg, rfl⟩ := hst
    rw [h]
  · intro s
    split
    · exact Prog.respects_pure _
    · exact Prog.respects_throw _

/-- Going on from the state, with a program that uses no more of it than what is not among the
watchers. -/
theorem respects_state {β : Type} {f : StoreState → StoreM β}
    (h : ∀ s reg, f (s.registerWatcher reg) = f s) (hf : ∀ s, Respects Watched (f s)) :
    Respects Watched (get >>= f) := by
  refine Prog.respects_get_bind ?_ hf
  intro s t hst
  obtain ⟨reg, rfl⟩ := hst
  exact h s reg

/-- A change that returns the same with the extra watcher there, and leaves it last, whatever it was
sent. -/
theorem respects_update {α : Type} {g : StoreState → α × StoreState}
    (h : ∀ s reg, ∃ reg', g (s.registerWatcher reg) = ((g s).1, (g s).2.registerWatcher reg')) :
    Respects Watched (modifyGet g : StoreM α) := by
  refine Prog.respects_modifyGet ?_ ?_
  · intro s t hst
    obtain ⟨reg, rfl⟩ := hst
    obtain ⟨reg', hreg⟩ := h s reg
    rw [hreg]
  · intro s t hst
    obtain ⟨reg, rfl⟩ := hst
    obtain ⟨reg', hreg⟩ := h s reg
    exact ⟨reg', by rw [hreg]⟩

/-- The same of a change that returns nothing. -/
theorem respects_change {g : StoreState → StoreState}
    (h : ∀ s reg, ∃ reg', g (s.registerWatcher reg) = (g s).registerWatcher reg') :
    Respects Watched (modify g : StoreM PUnit) := by
  refine Prog.respects_modify ?_
  intro s t hst
  obtain ⟨reg, rfl⟩ := hst
  exact h s reg

/-- The extra watcher is told of the event, if it is one of its own, after the others. -/
theorem respects_notify (event : WatchEvent) :
    Respects Watched (modify (·.notifyWatchers event) : StoreM PUnit) := by
  refine respects_change ?_
  intro s reg
  refine ⟨StoreState.notifyWatcher event reg, ?_⟩
  simp [StoreState.notifyWatchers, StoreState.registerWatcher]

theorem respects_allocRevision : Respects Watched allocRevision :=
  respects_update fun _ reg => ⟨reg, rfl⟩

/-- The WAL has no watchers in it; what is appended, and whether that fails, is the same. -/
theorem respects_appendKv (rec : KvWalRecord) (e : Failure) :
    Respects Watched (appendKv rec e) := by
  refine (respects_update fun _ reg => ⟨reg, rfl⟩).bind ?_
  intro ok
  split
  · exact Prog.respects_pure _
  · exact Prog.respects_throw _

theorem respects_appendKvBatch (recs : List KvWalRecord) (e : Failure) :
    Respects Watched (appendKvBatch recs e) := by
  refine (respects_update fun _ reg => ⟨reg, rfl⟩).bind ?_
  intro ok
  split
  · exact Prog.respects_pure _
  · exact Prog.respects_throw _

/-- The entry that `apply` builds, and the one it replaces, are those of the map; only the last step
looks at the watchers, to tell them. -/
theorem respects_apply (key value : Bytes) (lease : Int64) (rev : UInt64) (blob : Option Bytes) :
    Respects Watched (apply key value lease rev blob) := by
  refine respects_update ?_
  intro s reg
  refine ⟨StoreState.notifyWatcher
    { revision := rev, eventType := .put, key
      kvBytes := (putEntry s.keys key value lease rev blob).kvBytes
      prevKvBytes := ((s.alive? key).map (·.kvBytes)).getD [] } reg, ?_⟩
  simp only [StoreState.notifyWatchers, StoreState.registerWatcher, List.map_append,
    List.map_singleton]
  rfl

section

variable [Crates]

omit [Crates] in
/-- A deletion ends in a call of `notify_watchers` too, unless the blob cannot be patched. -/
theorem respects_applyDelete (key : Bytes) (rev : UInt64) :
    Respects Watched (applyDelete key rev) := by
  refine respects_state (fun _ _ => rfl) ?_
  intro s
  split
  · exact Prog.respects_pure _
  split
  · exact Prog.respects_pure _
  refine (respects_change fun _ reg => ⟨reg, rfl⟩).bind ?_
  intro _
  split
  · exact Prog.respects_throw _
  · exact (respects_notify _).bind fun _ => Prog.respects_pure _

omit [Crates] in
theorem respects_applyDeletes (keys : List Bytes) (rev : UInt64) :
    Respects Watched (applyDeletes keys rev) := by
  induction keys with
  | nil => exact Prog.respects_pure _
  | cons key keys ih =>
      exact ((respects_applyDelete key rev).bind fun _ => Prog.respects_pure _).bind fun _ => ih

/-- The keys to delete are chosen by their leases. -/
theorem respects_deleteKeysForLease (id : Int64) : Respects Watched (deleteKeysForLease id) := by
  refine respects_state (fun _ _ => rfl) ?_
  intro s
  dsimp only
  split
  · exact Prog.respects_pure _
  refine respects_allocRevision.bind fun rev => respects_state (fun _ _ => rfl) fun s' => ?_
  exact (respects_appendKvBatch _ _).bind fun _ => respects_applyDeletes _ rev

/-- What `put_at` checks, and the record it writes, depend on the entry of the key and on the
leases. -/
theorem respects_putAt (req : PutRequest) (rev : UInt64) : Respects Watched (putAt req rev) := by
  refine respects_state (fun _ _ => rfl) ?_
  intro s
  dsimp only
  split
  · exact Prog.respects_throw_bind _ _
  split
  · exact Prog.respects_throw_bind _ _
  refine (respects_appendKv _ _).bind fun _ => (respects_apply _ _ _ _ _).bind fun prev => ?_
  exact respects_state (fun _ _ => rfl) fun _ => Prog.respects_pure _

/-- The keys to delete, and the pairs to answer with, are those of the map. -/
theorem respects_deleteRangeAt (req : DeleteRangeRequest) (rev : UInt64) :
    Respects Watched (deleteRangeAt req rev) := by
  refine (respects_read fun _ _ => rfl).bind fun keys => respects_state (fun _ _ => rfl) ?_
  intro s
  refine (respects_appendKvBatch _ _).bind fun _ => (respects_applyDeletes _ _).bind fun _ => ?_
  exact respects_state (fun _ _ => rfl) fun _ => Prog.respects_pure _

/-! ### Transactions -/

omit [Crates] in
/-- The revision of a transaction comes from its cursor or from the counter. -/
theorem respects_getRev (c : TxnCursor) : Respects Watched c.getRev := by
  unfold TxnCursor.getRev
  split
  · exact Prog.respects_pure _
  · exact respects_allocRevision.bind fun _ => Prog.respects_pure _

mutual
/-- An op of a transaction, along the recursion of `apply_txn_ops`: its compares and checks read the
map and the leases, and what it does is one of the operations above. -/
theorem respects_applyTxnOp (path : List Nat) (depth : Nat) (c : TxnCursor) (op : RequestOp) :
    Respects Watched (applyTxnOp path depth c op) := by
  cases op with
  | range r =>
      unfold applyTxnOp
      split
      · exact Prog.respects_pure _
      · exact (respects_read fun _ _ => rfl).bind fun _ => Prog.respects_pure _
  | put p =>
      unfold applyTxnOp
      refine (respects_read fun _ _ => rfl).bind fun _ => (respects_getRev c).bind fun a => ?_
      exact (respects_putAt p a.1).bind fun _ => Prog.respects_pure _
  | deleteRange d =>
      unfold applyTxnOp
      refine (respects_read fun _ _ => rfl).bind fun _ => (respects_getRev c).bind fun a => ?_
      exact (respects_deleteRangeAt d a.1).bind fun _ => Prog.respects_pure _
  | txn compare success failure =>
      unfold applyTxnOp
      split
      · exact Prog.respects_throw_bind _ _
      refine respects_state (fun _ _ => rfl) fun s => ?_
      split
      · refine (respects_applyTxnOps path 0 (depth + 1) c success).bind fun a => ?_
        exact respects_state (fun _ _ => rfl) fun _ => Prog.respects_pure _
      · refine (respects_applyTxnOps path 0 (depth + 1) c failure).bind fun a => ?_
        exact respects_state (fun _ _ => rfl) fun _ => Prog.respects_pure _
  | none =>
      unfold applyTxnOp
      exact Prog.respects_pure _
theorem respects_applyTxnOps (path : List Nat) (i depth : Nat) (c : TxnCursor)
    (ops : List RequestOp) : Respects Watched (applyTxnOps path i depth c ops) := by
  cases ops with
  | nil =>
      unfold applyTxnOps
      exact Prog.respects_pure _
  | cons op ops =>
      unfold applyTxnOps
      refine (respects_applyTxnOp (path ++ [i]) depth c op).bind fun a => ?_
      exact (respects_applyTxnOps path (i + 1) depth a.2 ops).bind fun _ => Prog.respects_pure _
end

/-- Deferred ranges read, one after the other. -/
theorem respects_runDeferred (deferred : List (List Nat × RangeRequest)) (resp : TxnResponse) :
    Respects Watched (runDeferred deferred resp) := by
  induction deferred generalizing resp with
  | nil => exact Prog.respects_pure _
  | cons d deferred ih => exact (respects_read fun _ _ => rfl).bind fun _ => ih _

/-- A transaction: the part under the lock, then its deferred ranges. -/
theorem respects_txn (req : TxnRequest) : Respects Watched (txn req) := by
  refine (respects_read fun _ _ => rfl).bind fun _ => Respects.bind ?_ fun a => ?_
  · refine respects_state (fun _ _ => rfl) fun s => ?_
    refine (respects_applyTxnOps _ _ _ _ _).bind fun a => ?_
    exact respects_state (fun _ _ => rfl) fun _ => Prog.respects_pure _
  · exact respects_runDeferred a.2 a.1

/-! ### Leases and the watermark -/

omit [Crates] in
/-- `compact` is run side by side on the two stores: they have the same revisions, so the same
branch is taken. -/
theorem respects_compact (revision : Int64) : Respects Watched (compact revision) := by
  intro s t hst
  obtain ⟨reg, rfl⟩ := hst
  unfold compact
  rw [Prog.exec_bind, Prog.exec_bind, Prog.exec_get, Prog.exec_get]
  dsimp only
  have hcurrent : (s.registerWatcher reg).currentRevision = s.currentRevision := rfl
  have hcompact : (s.registerWatcher reg).compactRev = s.compactRev := rfl
  rw [hcurrent, hcompact]
  by_cases hfuture : revision.toUInt64 > s.currentRevision
  · rw [if_pos hfuture, if_pos hfuture]
    exact ⟨rfl, reg, rfl⟩
  · rw [if_neg hfuture, if_neg hfuture]
    by_cases hold : revision.toUInt64 ≤ s.compactRev
    · rw [if_pos hold, if_pos hold]
      exact ⟨rfl, reg, rfl⟩
    · rw [if_neg hold, if_neg hold]
      exact ⟨rfl, reg, rfl⟩

omit [Crates] in
/-- A new lease takes its id from the request or from the counter. -/
theorem respects_leaseGrant (now : Nat) (id ttl : Int64) :
    Respects Watched (leaseGrant now id ttl) := by
  rw [leaseGrant_eq]
  refine (respects_read fun _ _ => rfl).bind fun ttl => Respects.bind ?_ fun id => ?_
  · split
    · exact Prog.respects_pure _
    · exact respects_update fun _ reg => ⟨reg, rfl⟩
  refine respects_state (fun _ _ => rfl) fun s => ?_
  split
  · exact Prog.respects_throw_bind _ _
  refine (respects_change fun _ reg => ⟨reg, rfl⟩).bind fun _ => ?_
  exact respects_state (fun _ _ => rfl) fun _ => Prog.respects_pure _

/-- A revocation forgets the lease and then deletes its keys. -/
theorem respects_leaseRevoke (id : Int64) : Respects Watched (leaseRevoke id) := by
  refine respects_state (fun _ _ => rfl) fun s => ?_
  split
  · exact Prog.respects_throw_bind _ _
  refine (respects_change fun _ reg => ⟨reg, rfl⟩).bind fun _ => ?_
  refine (respects_deleteKeysForLease id).bind fun _ => ?_
  exact respects_state (fun _ _ => rfl) fun _ => Prog.respects_pure _

omit [Crates] in
theorem respects_leaseKeepAlive (now : Nat) (id : Int64) :
    Respects Watched (leaseKeepAlive now id) := by
  refine respects_state (fun _ _ => rfl) fun s => ?_
  split
  · refine (respects_change fun _ reg => ⟨reg, rfl⟩).bind fun _ => ?_
    exact respects_state (fun _ _ => rfl) fun _ => Prog.respects_pure _
  · exact Prog.respects_throw _

/-- An expiry does so too, and turns a failure other than a panic into a log line. -/
theorem respects_leaseExpire (now : Nat) (id : Int64) :
    Respects Watched (leaseExpire now id) := by
  refine respects_state (fun _ _ => rfl) fun s => ?_
  split
  · split
    · refine (respects_change fun _ reg => ⟨reg, rfl⟩).bind fun _ => ?_
      refine (respects_deleteKeysForLease id).tryCatch fun e => ?_
      cases e with
      | status code m => exact Prog.respects_pure _
      | panic m => exact Prog.respects_throw _
    · exact Prog.respects_pure _
  · exact Prog.respects_pure _

/-! ### Requests -/

/-- Every request, operation by operation. -/
theorem respects_handle (q : Request) : Respects Watched (handle q) := by
  cases q with
  | range req => exact (respects_read fun _ _ => rfl).bind fun _ => Prog.respects_pure _
  | put req =>
      refine Respects.bind ?_ fun _ => Prog.respects_pure _
      refine (respects_read fun _ _ => rfl).bind fun _ => ?_
      exact respects_allocRevision.bind fun rev => respects_putAt req rev
  | deleteRange req =>
      refine Respects.bind ?_ fun _ => Prog.respects_pure _
      refine (respects_read fun _ _ => rfl).bind fun _ => ?_
      exact respects_allocRevision.bind fun rev => respects_deleteRangeAt req rev
  | txn req => exact (respects_txn req).bind fun _ => Prog.respects_pure _
  | compact revision => exact (respects_compact revision).bind fun _ => Prog.respects_pure _
  | leaseGrant now id ttl =>
      exact (respects_leaseGrant now id ttl).bind fun _ => Prog.respects_pure _
  | leaseRevoke id => exact (respects_leaseRevoke id).bind fun _ => Prog.respects_pure _
  | leaseKeepAlive now id =>
      exact (respects_leaseKeepAlive now id).bind fun _ => Prog.respects_pure _
  | leaseExpire now id => exact (respects_leaseExpire now id).bind fun _ => Prog.respects_pure _

/-- **Requests do not look at the watchers.** The watcher is behind all others, so what they are
sent does not change either. -/
theorem answer_registerWatcher {s s' : StoreState} {q : Request} (h : answer s q = some s')
    (reg : WatchRegistration) :
    ∃ reg', answer (s.registerWatcher reg) q = some (s'.registerWatcher reg') := by
  -- the outcome decides whether there is an answer at all, the state what it leaves
  obtain ⟨houtcome, reg', hstate⟩ := respects_handle q s (s.registerWatcher reg) ⟨reg, rfl⟩
  refine ⟨reg', ?_⟩
  unfold answer at h ⊢
  rcases hs : exec (handle q) s with ⟨r, s₁⟩
  rcases ht : exec (handle q) (s.registerWatcher reg) with ⟨r', t₁⟩
  rw [hs] at h houtcome hstate
  rw [ht] at houtcome hstate
  obtain rfl : r = r' := houtcome
  obtain rfl : t₁ = s₁.registerWatcher reg' := hstate
  cases r with
  | ok a =>
      cases h
      rfl
  | error e =>
      cases e with
      | status code m =>
          cases h
          rfl
      | panic m => cases h

end

end Rudurru
