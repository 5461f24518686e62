import Rudurru.SystemSound

/-!
# Rudurru.Txn.Panics

How a panic gets out of a request. The checks of a request, its appends and its writes to the
map have panics and errors of their own; what is left are the calls that walk the map or allocate
for it. A `Hazard` says which of these calls panic. A transaction panics where its ops, executed
one after the other, get to such a call, and then where one of the ranges it set aside does
(`Hazard.Exact.txn`).

A program avoids an error if it never ends in it (`Avoids` in `Lib.Prog`), and the first part of
this file says so of everything that is not such a call. In a chain of steps of which all but one
avoid the error, the chain ends in it exactly if that one does. So the proofs about requests are
chains with one link, and a transaction is a recursion over its ops with the state each op meets
(`Hazard.op`, `Hazard.ops`).
-/

namespace Rudurru

open Prog (exec Avoids)

/-- The panic of `apply_delete`, on a blob it cannot patch. -/
def patchPanic : Failure := .panic "index out of bounds"

/-- A read has the outcome of what is read, and changes nothing. -/
theorem exec_read {α : Type} (f : StoreState → Except Failure α) (s : StoreState) :
    exec (StoreM.read f) s = (f s, s) := by
  simp only [StoreM.read, Prog.exec_bind, Prog.exec_get]
  cases f s <;> rfl

/-- A key that is given passes its check. -/
theorem exec_checkKey_bind {α : Type} {key : Bytes} (hkey : key ≠ []) (f : Unit → StoreM α)
    (s : StoreState) : exec ((StoreM.read fun _ => checkKey key) >>= f) s = exec (f ()) s := by
  rw [Prog.exec_bind, exec_read, checkKey, if_neg hkey]

/-- A transaction's revision is there or can be taken. -/
theorem exec_getRev (c : TxnCursor) (s : StoreState) : ∃ a t, exec c.getRev s = (.ok a, t) := by
  unfold TxnCursor.getRev
  split
  · exact ⟨_, _, rfl⟩
  · exact ⟨_, _, rfl⟩

/-! ### What does not panic -/

section

variable {m : String}

/-- An error that is answered is not a panic. -/
theorem status_ne_panic (code : Code) (text : String) :
    Failure.status code text ≠ .panic m := by
  intro h
  cases h

/-- An append fails with the error it is given. -/
theorem avoids_appendKv (rec : KvWalRecord) {e : Failure} (he : e ≠ .panic m) :
    Avoids (.panic m) (appendKv rec e) := by
  refine (Prog.avoids_modifyGet _ _).bind ?_
  intro ok
  split
  · exact Prog.avoids_pure _ _
  · exact Prog.avoids_throw he

theorem avoids_appendKvBatch (recs : List KvWalRecord) {e : Failure} (he : e ≠ .panic m) :
    Avoids (.panic m) (appendKvBatch recs e) := by
  refine (Prog.avoids_modifyGet _ _).bind ?_
  intro ok
  split
  · exact Prog.avoids_pure _ _
  · exact Prog.avoids_throw he

/-- The only panic of `apply_delete` is that of the blob it cannot patch. -/
theorem avoids_applyDelete (hm : patchPanic ≠ .panic m) (key : Bytes) (rev : UInt64) :
    Avoids (.panic m) (applyDelete key rev) := by
  refine (Prog.avoids_get _).bind ?_
  intro s
  split
  · exact Prog.avoids_pure _ _
  · split
    · exact Prog.avoids_pure _ _
    · refine (Prog.avoids_modify _ _).bind ?_
      intro _
      split
      · exact Prog.avoids_throw hm
      · exact (Prog.avoids_modify _ _).bind fun _ => Prog.avoids_pure _ _

/-- And so it is for a round of them. -/
theorem avoids_applyDeletes (hm : patchPanic ≠ .panic m) (keys : List Bytes) (rev : UInt64) :
    Avoids (.panic m) (applyDeletes keys rev) := by
  induction keys with
  | nil => exact Prog.avoids_pure _ _
  | cons key keys ih =>
      rw [applyDeletes_cons]
      exact (avoids_applyDelete hm key rev).bind fun _ => ih

/-- Taking the revision of a transaction does not panic. -/
theorem avoids_getRev (c : TxnCursor) : Avoids (.panic m) c.getRev := by
  unfold TxnCursor.getRev
  split
  · exact Prog.avoids_pure _ _
  · exact (Prog.avoids_modifyGet _ _).bind fun _ => Prog.avoids_pure _ _

/-- The keys of a lease are collected without a walk that has bounds, so deleting them can only
panic in `apply_delete`. -/
theorem avoids_deleteKeysForLease [Crates] (hm : patchPanic ≠ .panic m) (id : Int64) :
    Avoids (.panic m) (deleteKeysForLease id) := by
  refine (Prog.avoids_get _).bind ?_
  intro s
  dsimp only
  split
  · exact Prog.avoids_pure _ _
  · refine (Prog.avoids_modifyGet _ _).bind fun rev => (Prog.avoids_get _).bind fun t => ?_
    exact (avoids_appendKvBatch _ (status_ne_panic _ _)).bind fun _ => avoids_applyDeletes hm _ _

/-- `compact` compares revisions, and refuses with a status. -/
theorem avoids_compact (revision : Int64) : Avoids (.panic m) (compact revision) := by
  refine (Prog.avoids_get _).bind ?_
  intro s
  dsimp only
  split
  · exact Prog.avoids_throw_bind (status_ne_panic _ _) _
  split
  · exact Prog.avoids_throw_bind (status_ne_panic _ _) _
  · exact (Prog.avoids_set _ _).bind fun _ => (Prog.avoids_get _).bind fun _ =>
      Prog.avoids_pure _ _

/-- A grant refuses a TTL or an id with a status. -/
theorem avoids_leaseGrant (now : Nat) (id ttl : Int64) :
    Avoids (.panic m) (leaseGrant now id ttl) := by
  rw [leaseGrant_eq]
  have hcheck : Avoids (.panic m) (StoreM.read fun _ => checkLeaseTtl ttl) := by
    intro s h
    rw [exec_read, checkLeaseTtl] at h
    split at h <;> cases h
  refine hcheck.bind fun ttl => Avoids.bind ?_ fun id => ?_
  · split
    · exact Prog.avoids_pure _ _
    · exact Prog.avoids_modifyGet _ _
  refine (Prog.avoids_get _).bind ?_
  intro s
  split
  · exact Prog.avoids_throw_bind (status_ne_panic _ _) _
  · exact (Prog.avoids_modify _ _).bind fun _ => (Prog.avoids_get _).bind fun _ =>
      Prog.avoids_pure _ _

theorem avoids_leaseKeepAlive (now : Nat) (id : Int64) :
    Avoids (.panic m) (leaseKeepAlive now id) := by
  refine (Prog.avoids_get _).bind ?_
  intro s
  split
  · exact (Prog.avoids_modify _ _).bind fun _ => (Prog.avoids_get _).bind fun _ =>
      Prog.avoids_pure _ _
  · exact Prog.avoids_throw (status_ne_panic _ _)

theorem avoids_leaseRevoke [Crates] (hm : patchPanic ≠ .panic m) (id : Int64) :
    Avoids (.panic m) (leaseRevoke id) := by
  refine (Prog.avoids_get _).bind ?_
  intro s
  dsimp only
  split
  · exact Prog.avoids_throw_bind (status_ne_panic _ _) _
  · refine (Prog.avoids_modify _ _).bind fun _ => ?_
    exact (avoids_deleteKeysForLease hm id).bind fun _ => (Prog.avoids_get _).bind fun _ =>
      Prog.avoids_pure _ _

/-- The error of a failed removal is caught in an expiry, a panic is not. -/
theorem avoids_leaseExpire [Crates] (hm : patchPanic ≠ .panic m) (now : Nat) (id : Int64) :
    Avoids (.panic m) (leaseExpire now id) := by
  refine (Prog.avoids_get _).bind ?_
  intro s
  split
  · split
    · refine (Prog.avoids_modify _ _).bind fun _ => (avoids_deleteKeysForLease hm id).tryCatch ?_
      intro e he
      cases e with
      | status code text => exact Prog.avoids_pure _ _
      | panic text => exact Prog.avoids_throw he
    · exact Prog.avoids_pure _ _
  · exact Prog.avoids_pure _ _

/-- What is checked of a key, a put or a transaction is refused with a status. -/
theorem checkKey_ne_panic (key : Bytes) : checkKey key ≠ .error (.panic m) := by
  unfold checkKey
  split <;> intro h <;> cases h

theorem validatePut_ne_panic (p : PutRequest) (s : StoreState) :
    validatePut p s ≠ .error (.panic m) := by
  unfold validatePut checkKey
  by_cases hkey : p.key = []
  · rw [if_pos hkey]
    intro h
    cases h
  · rw [if_neg hkey]
    dsimp only
    split_ifs <;> intro h <;> cases h

theorem checkIntervals_ne_panic (intervals : List (Bytes × Option Bytes)) :
    checkIntervals intervals ≠ .error (.panic m) := by
  unfold checkIntervals
  split <;> intro h <;> cases h

mutual
/-- The checks of a transaction go through its ops, nested ones included. -/
theorem checkTxnOp_ne_panic : ∀ op : RequestOp, checkTxnOp op ≠ .error (.panic m)
  | .put p => by
      unfold checkTxnOp
      exact Prog.bind_ne_error (checkKey_ne_panic p.key) fun _ h => by cases h
  | .deleteRange d => by
      unfold checkTxnOp
      exact Prog.bind_ne_error (checkKey_ne_panic d.key) fun _ h => by cases h
  | .range r => by
      unfold checkTxnOp
      exact Prog.bind_ne_error (checkKey_ne_panic r.key) fun _ h => by cases h
  | .txn _ success failure => by
      unfold checkTxnOp
      refine Prog.bind_ne_error (checkTxnOps_ne_panic success) fun i => ?_
      refine Prog.bind_ne_error (checkIntervals_ne_panic i) fun _ => ?_
      refine Prog.bind_ne_error (checkTxnOps_ne_panic failure) fun j => ?_
      exact Prog.bind_ne_error (checkIntervals_ne_panic j) fun _ h => by cases h
  | .none => by
      unfold checkTxnOp
      intro h
      cases h
theorem checkTxnOps_ne_panic : ∀ ops : List RequestOp, checkTxnOps ops ≠ .error (.panic m)
  | [] => by
      unfold checkTxnOps
      intro h
      cases h
  | op :: ops => by
      unfold checkTxnOps
      refine Prog.bind_ne_error (checkTxnOp_ne_panic op) fun i => ?_
      exact Prog.bind_ne_error (checkTxnOps_ne_panic ops) fun _ h => by cases h
end

theorem checkTxnDuplicateKeys_ne_panic (req : TxnRequest) :
    checkTxnDuplicateKeys req ≠ .error (.panic m) := by
  have hbranch : ∀ ops, checkTxnBranch ops ≠ .error (.panic m) := fun ops =>
    Prog.bind_ne_error (checkTxnOps_ne_panic ops) checkIntervals_ne_panic
  exact Prog.bind_ne_error (hbranch req.success) fun _ => hbranch req.failure

variable [Crates]

/-- A put looks one key up, so it has no walk to panic in. -/
theorem avoids_putAt (req : PutRequest) (rev : UInt64) : Avoids (.panic m) (putAt req rev) := by
  refine (Prog.avoids_get _).bind ?_
  intro s
  dsimp only
  split
  · exact Prog.avoids_throw_bind (status_ne_panic _ _) _
  split
  · exact Prog.avoids_throw_bind (status_ne_panic _ _) _
  refine (avoids_appendKv _ (status_ne_panic _ _)).bind ?_
  intro _
  refine (Prog.avoids_modifyGet _ _).bind ?_
  intro _
  exact (Prog.avoids_get _).bind fun _ => Prog.avoids_pure _ _

/-- A deletion panics in the selection of its keys, if at all. -/
theorem deleteRangeAt_eq_panic (hm : patchPanic ≠ .panic m) (req : DeleteRangeRequest)
    (rev : UInt64) (s : StoreState) :
    (exec (deleteRangeAt req rev) s).1 = .error (.panic m) ↔
      s.keysToDelete (resolveRange req.key req.rangeEnd) = .error (.panic m) := by
  refine (Prog.exec_bind_eq_error_iff ?_ s).trans (by rw [exec_read])
  intro keys
  refine (Prog.avoids_get _).bind ?_
  intro t
  refine (avoids_appendKvBatch _ (status_ne_panic _ _)).bind ?_
  intro _
  refine (avoids_applyDeletes hm _ _).bind ?_
  intro _
  exact (Prog.avoids_get _).bind fun _ => Prog.avoids_pure _ _

end

/-! ### Getting to a call that panics -/

/-- The calls that end in a certain panic: of `range_current`, of `delete_range_at` and of
`Store::range`. -/
structure Hazard where
  current : StoreState → RangeRequest → Bool
  delete : DeleteRangeRequest → Bool
  range : StoreState → RangeRequest → Bool

variable [Crates]

mutual
/-- An op of a transaction gets to such a call. A historical range is not executed yet; a nested
transaction executes the branch its compares choose. -/
def Hazard.op (H : Hazard) (path : List Nat) (depth : Nat) (c : TxnCursor) (s : StoreState) :
    RequestOp → Bool
  | .range r => !(r.revision > 0) && H.current s r
  | .put _ => false
  | .deleteRange d => H.delete d
  | .txn compare success failure =>
      !(depth ≥ 1) &&
        if compare.all (evalCompare s) then H.ops path 0 (depth + 1) c s success
        else H.ops path 0 (depth + 1) c s failure
  | .none => false
/-- One of the ops does, in the state that the ops before it leave. -/
def Hazard.ops (H : Hazard) (path : List Nat) (i depth : Nat) (c : TxnCursor) (s : StoreState) :
    List RequestOp → Bool
  | [] => false
  | op :: ops =>
      H.op (path ++ [i]) depth c s op ||
        match exec (applyTxnOp (path ++ [i]) depth c op) s with
        | (.ok (_, c'), s') => H.ops path (i + 1) depth c' s' ops
        | (.error _, _) => false
end

/-- One of the ranges that were set aside does. -/
def Hazard.deferred (H : Hazard) (s : StoreState) : List (List Nat × RangeRequest) → Bool
  | [] => false
  | (_, req) :: deferred =>
      H.range s req || ((Rudurru.range s req).isOk && H.deferred s deferred)

/-- A transaction does: in an op it executes, or in a range it set aside. -/
def Hazard.txn (H : Hazard) (s : StoreState) (req : TxnRequest) : Bool :=
  (checkTxnDuplicateKeys req).isOk &&
    (H.ops [] 0 0 {} s (if req.compare.all (evalCompare s) then req.success else req.failure) ||
      match exec (txnLocked req) s with
      | (.ok (_, deferred), s') => H.deferred s' deferred
      | (.error _, _) => false)

/-- The hazard has exactly the calls that end in the panic `m`. A deletion without a key is refused
before it gets to its walk, so a hazard may not have it; that the other calls are exact is about
every state they may be run on. -/
structure Hazard.Exact (H : Hazard) (m : String) : Prop where
  current : ∀ s req, rangeCurrent s req = .error (.panic m) ↔ H.current s req = true
  delete : ∀ req rev s, req.key ≠ [] →
    ((exec (deleteRangeAt req rev) s).1 = .error (.panic m) ↔ H.delete req = true)
  delete_key : ∀ req, req.key = [] → H.delete req = false
  range : ∀ s req, Rudurru.range s req = .error (.panic m) ↔ H.range s req = true

variable {H : Hazard} {m : String}

/-- A key that is not given is refused before anything is selected. -/
theorem Hazard.Exact.checkKey_bind {α : Type} (hH : H.Exact m) {d : DeleteRangeRequest}
    {f : Unit → StoreM α} {s : StoreState}
    (hf : d.key ≠ [] → ((exec (f ()) s).1 = .error (.panic m) ↔ H.delete d = true)) :
    (exec ((StoreM.read fun _ => checkKey d.key) >>= f) s).1 = .error (.panic m) ↔
      H.delete d = true := by
  by_cases hkey : d.key = []
  · rw [Prog.exec_bind, exec_read, checkKey, if_pos hkey, hH.delete_key d hkey]
    constructor <;> intro h <;> cases h
  · rw [exec_checkKey_bind hkey]
    exact hf hkey

/-- A deletion takes its revision first, which does not bear on its walk. -/
theorem Hazard.Exact.deleteRange (hH : H.Exact m) (req : DeleteRangeRequest) (s : StoreState) :
    (exec (deleteRange req) s).1 = .error (.panic m) ↔ H.delete req = true := by
  refine hH.checkKey_bind fun hkey => ?_
  rw [allocRevision, Prog.exec_bind, Prog.exec_modifyGet]
  exact hH.delete req _ _ hkey

mutual
/-- **An op panics where it gets to such a call.** A put never does; the others are one read, one
deletion or the ops of a branch. -/
theorem Hazard.Exact.applyTxnOp (hH : H.Exact m) : ∀ (op : RequestOp) (path : List Nat)
    (depth : Nat) (c : TxnCursor) (s : StoreState),
      (exec (applyTxnOp path depth c op) s).1 = .error (.panic m) ↔
        H.op path depth c s op = true
  | .range r, path, depth, c, s => by
      unfold Rudurru.applyTxnOp Hazard.op
      by_cases hrev : r.revision > 0
      · simp [hrev]
      · rw [if_neg hrev]
        simp only [hrev, decide_false, Bool.not_false, Bool.true_and]
        rw [← hH.current]
        exact (Prog.exec_bind_eq_error_iff (fun _ => Prog.avoids_pure _ _) s).trans
          (by rw [exec_read])
  | .put p, path, depth, c, s => by
      unfold Rudurru.applyTxnOp Hazard.op
      -- a put walks no range: neither its checks nor the put itself panic
      refine iff_of_false ?_ (by simp)
      intro h
      rcases Prog.exec_bind_eq_error.mp h with h | ⟨_, s', -, h⟩
      · rw [exec_read] at h
        exact validatePut_ne_panic p s h
      · refine (avoids_getRev c).bind ?_ s' h
        intro a
        exact (avoids_putAt p a.1).bind fun _ => Prog.avoids_pure _ _
  | .deleteRange d, path, depth, c, s => by
      unfold Rudurru.applyTxnOp Hazard.op
      refine hH.checkKey_bind fun hkey => ?_
      rw [Prog.exec_bind_eq_error]
      obtain ⟨a, t, hget⟩ := exec_getRev c s
      constructor
      · intro h
        rcases h with h | ⟨a', t', -, h⟩
        · exact absurd h (avoids_getRev c s)
        · rw [Prog.exec_bind_eq_error_iff fun _ => Prog.avoids_pure _ _] at h
          exact (hH.delete d a'.1 t' hkey).mp h
      · intro h
        refine .inr ⟨a, t, hget, ?_⟩
        rw [Prog.exec_bind_eq_error_iff fun _ => Prog.avoids_pure _ _]
        exact (hH.delete d a.1 t hkey).mpr h
  | .txn compare success failure, path, depth, c, s => by
      unfold Rudurru.applyTxnOp Hazard.op
      by_cases hdepth : depth ≥ 1
      · rw [if_pos hdepth]
        simp only [hdepth, decide_true, Bool.not_true, Bool.false_and]
        refine iff_of_false ?_ (by simp)
        exact Prog.avoids_throw_bind (status_ne_panic _ _) _ s
      · rw [if_neg hdepth, Prog.exec_bind, Prog.exec_get]
        simp only [hdepth, decide_false, Bool.not_false, Bool.true_and]
        -- what is made of the responses of a branch cannot fail
        have hrest : ∀ (succeeded : Bool) (a : List ResponseOp × TxnCursor),
            Avoids (.panic m) (do
              let s' ← get
              return (ResponseOp.txn s'.header succeeded a.1, a.2) :
                StoreM (ResponseOp × TxnCursor)) :=
          fun succeeded a => (Prog.avoids_get _).bind fun _ => Prog.avoids_pure _ _
        split
        · rw [← Hazard.Exact.applyTxnOps hH success path 0 (depth + 1) c s]
          exact Prog.exec_bind_eq_error_iff (hrest true) s
        · rw [← Hazard.Exact.applyTxnOps hH failure path 0 (depth + 1) c s]
          exact Prog.exec_bind_eq_error_iff (hrest false) s
  | .none, path, depth, c, s => by
      unfold Rudurru.applyTxnOp Hazard.op
      simp
/-- A list of ops does so in its first op, or, where that one goes through, in the rest. -/
theorem Hazard.Exact.applyTxnOps (hH : H.Exact m) : ∀ (ops : List RequestOp) (path : List Nat)
    (i depth : Nat) (c : TxnCursor) (s : StoreState),
      (exec (applyTxnOps path i depth c ops) s).1 = .error (.panic m) ↔
        H.ops path i depth c s ops = true
  | [], path, i, depth, c, s => by
      unfold Rudurru.applyTxnOps Hazard.ops
      simp
  | op :: ops, path, i, depth, c, s => by
      unfold Rudurru.applyTxnOps Hazard.ops
      rw [Bool.or_eq_true, ← Hazard.Exact.applyTxnOp hH op (path ++ [i]) depth c s,
        Prog.exec_bind_eq_error]
      refine or_congr_right ?_
      rcases hop : exec (Rudurru.applyTxnOp (path ++ [i]) depth c op) s with ⟨r, t⟩
      cases r with
      | error e => simp
      | ok a =>
          obtain ⟨response, c'⟩ := a
          have hrest : (exec (do
                let a ← Rudurru.applyTxnOps path (i + 1) depth c' ops
                return (response :: a.1, a.2) : StoreM (List ResponseOp × TxnCursor)) t).1
              = .error (.panic m) ↔ H.ops path (i + 1) depth c' t ops = true :=
            (Prog.exec_bind_eq_error_iff (fun _ => Prog.avoids_pure _ _) t).trans
              (Hazard.Exact.applyTxnOps hH ops path (i + 1) depth c' t)
          constructor
          · intro h
            obtain ⟨a, t', heq, h⟩ := h
            cases heq
            exact hrest.mp h
          · intro h
            exact ⟨_, _, rfl, hrest.mpr h⟩
end

/-- The ranges that were set aside are answered in order, up to the first that fails. -/
theorem Hazard.Exact.runDeferred (hH : H.Exact m) (s : StoreState) :
    ∀ (deferred : List (List Nat × RangeRequest)) (resp : TxnResponse),
      (exec (runDeferred deferred resp) s).1 = .error (.panic m) ↔ H.deferred s deferred = true
  | [], resp => by
      unfold Rudurru.runDeferred Hazard.deferred
      simp
  | (path, req) :: deferred, resp => by
      unfold Rudurru.runDeferred Hazard.deferred
      rw [Bool.or_eq_true, ← hH.range, Prog.exec_bind_eq_error, exec_read]
      refine or_congr_right ?_
      cases hrange : Rudurru.range s req with
      | error e => simp [Except.isOk, Except.toBool]
      | ok r =>
          rw [Except.isOk, Except.toBool, Bool.true_and]
          constructor
          · intro h
            obtain ⟨a, t, heq, h⟩ := h
            cases heq
            exact (Hazard.Exact.runDeferred hH s deferred _).mp h
          · intro h
            exact ⟨r, s, rfl, (Hazard.Exact.runDeferred hH s deferred _).mpr h⟩

/-- **A transaction panics where it gets to a call that does.** -/
theorem Hazard.Exact.txn (hH : H.Exact m) (req : TxnRequest) (s : StoreState) :
    (exec (Rudurru.txn req) s).1 = .error (.panic m) ↔ H.txn s req = true := by
  unfold Rudurru.txn Hazard.txn
  rw [Prog.exec_bind_eq_error, exec_read]
  cases hcheck : checkTxnDuplicateKeys req with
  | error e =>
      refine iff_of_false ?_ (by simp [Except.isOk, Except.toBool])
      intro h
      rcases h with h | ⟨a, t, heq, -⟩
      · exact checkTxnDuplicateKeys_ne_panic req (hcheck.trans h)
      · cases heq
  | ok _ =>
      -- under the lock it is the ops that can panic, afterwards the ranges that were set aside
      have hlocked : (exec (txnLocked req) s).1 = .error (.panic m) ↔
          H.ops [] 0 0 {} s
            (if req.compare.all (evalCompare s) then req.success else req.failure) = true := by
        rw [← hH.applyTxnOps, txnLocked, Prog.exec_bind, Prog.exec_get]
        refine Prog.exec_bind_eq_error_iff ?_ s
        intro a
        exact (Prog.avoids_get _).bind fun _ => Prog.avoids_pure _ _
      rw [Except.isOk, Except.toBool, Bool.true_and, Bool.or_eq_true, ← hlocked]
      constructor
      · intro h
        rcases h with h | ⟨a, t, heq, h⟩
        · cases h
        · cases heq
          rcases Prog.exec_bind_eq_error.mp h with h | ⟨a, t, heq, h⟩
          · exact .inl h
          · rw [heq]
            exact .inr ((hH.runDeferred t a.2 a.1).mp h)
      · intro h
        refine .inr ⟨_, _, rfl, Prog.exec_bind_eq_error.mpr ?_⟩
        rcases h with h | h
        · exact .inl h
        · rcases hexec : exec (txnLocked req) s with ⟨r, t⟩
          rw [hexec] at h
          cases r with
          | error e => cases h
          | ok a => exact .inr ⟨a, t, rfl, (hH.runDeferred t a.2 a.1).mpr h⟩

/-- A request gets to a call that panics. -/
def Hazard.request (H : Hazard) (s : StoreState) : Request → Bool
  | .range req => H.range s req
  | .deleteRange req => H.delete req
  | .txn req => H.txn s req
  | .put _ | .compact _ | .leaseGrant _ _ _ | .leaseRevoke _ | .leaseKeepAlive _ _
  | .leaseExpire _ _ => false

/-- **A request panics where it gets to a call that does.** -/
theorem Hazard.Exact.handle (hH : H.Exact m) (hm : patchPanic ≠ .panic m) (q : Request)
    (s : StoreState) : (exec (handle q) s).1 = .error (.panic m) ↔ H.request s q = true := by
  have hwrap : ∀ {α : Type} {x : StoreM α} {g : α → Reply}, Avoids (.panic m) x →
      ((exec (do return g (← x)) s).1 = .error (.panic m) ↔ false = true) := by
    intro α x g hx
    refine iff_of_false ?_ Bool.false_ne_true
    exact hx.bind (fun _ => Prog.avoids_pure _ _) s
  have hreturn : ∀ {α : Type} {x : StoreM α} {g : α → Reply},
      (exec (do return g (← x)) s).1 = .error (.panic m) ↔ (exec x s).1 = .error (.panic m) :=
    Prog.exec_bind_eq_error_iff (fun _ => Prog.avoids_pure _ _) s
  cases q with
  | range req => exact hreturn.trans (by rw [exec_read]; exact hH.range s req)
  | deleteRange req => exact hreturn.trans (hH.deleteRange req s)
  | txn req => exact hreturn.trans (hH.txn req s)
  | put req =>
      have hvalidate : Avoids (.panic m) (StoreM.read (validatePut req)) := by
        intro t h
        rw [exec_read] at h
        exact validatePut_ne_panic req t h
      exact hwrap (hvalidate.bind fun _ => (Prog.avoids_modifyGet _ _).bind fun rev =>
        avoids_putAt req rev)
  | compact revision => exact hwrap (avoids_compact revision)
  | leaseGrant now id ttl => exact hwrap (avoids_leaseGrant now id ttl)
  | leaseRevoke id => exact hwrap (avoids_leaseRevoke hm id)
  | leaseKeepAlive now id => exact hwrap (avoids_leaseKeepAlive now id)
  | leaseExpire now id => exact hwrap (avoids_leaseExpire hm now id)

end Rudurru
