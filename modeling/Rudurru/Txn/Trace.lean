import Rudurru.Recovery

/-!
# Rudurru.Txn.Trace

**The writes of a transaction share one revision**, the `next_rev` it found, whatever branches
its nested transactions take (`txn_one_revision`).

Which ops run depends on the keyspace that the ops before them leave. The trace of a transaction
(`StoreState.executedWrites`) follows the keyspace alone, without the WAL, the watchers or the
cursor; a transaction that succeeds runs this trace (`txn_traced`). `Carried` is what a trace
does to the store: each op makes its writes in the state it meets.

The trace exists in two forms. `executedOps` computes it from the keyspace alone, and is what
statements are made of; `Traced` is the invariant that a running transaction has carried out the
part of it so far. The step from one to the other is `applyTxnOp_traced`, by recursion over the op.
That the writes share one revision then follows from the cursor, which takes a revision once.
-/

namespace Rudurru

open Std (ExtTreeMap)
open Prog (exec)

/-! ### Ops that write -/

/-- A put or a delete of a transaction. -/
inductive WriteOp
  | put (p : PutRequest)
  | deleteRange (d : DeleteRangeRequest)
  deriving DecidableEq

namespace WriteOp

/-- The writes it makes at a revision. -/
def writes (s : StoreState) (rev : UInt64) : WriteOp → List Write
  | .put p => [s.putWrite p rev]
  | .deleteRange d => s.deleteWrites d rev

/-- Is the key in its range? -/
def covers (key : Bytes) : WriteOp → Bool
  | .put p => key = p.key
  | .deleteRange d => matchesRange (resolveRange d.key d.rangeEnd) key

end WriteOp

theorem mem_keysToDelete {s : StoreState} {bound : RangeBound} {keys : List Bytes}
    (h : s.keysToDelete bound = .ok keys) (key : Bytes) :
    key ∈ keys ↔ matchesRange bound key = true ∧ (s.alive? key).isSome := by
  unfold StoreState.keysToDelete at h
  split at h
  · next k =>
      cases h
      simp only [Option.mem_toList, Option.map_eq_some_iff, matchesRange, decide_eq_true_eq]
      constructor
      · rintro ⟨ks, halive, rfl⟩
        exact ⟨rfl, by rw [halive]; rfl⟩
      · rintro ⟨rfl, halive⟩
        obtain ⟨ks, hks⟩ := Option.isSome_iff_exists.mp halive
        exact ⟨ks, hks, rfl⟩
  · cases hw : walkRange s.keys bound (btreeBounds bound) with
    | error e => rw [hw] at h; cases h
    | ok entries =>
        rw [hw] at h
        cases h
        rw [walkRange_eq_ok hw]
        simp only [List.mem_map, List.mem_filter, Prod.exists, exists_and_right, exists_eq_right,
          ExtTreeMap.mem_toList_iff_getElem?_eq_some, StoreState.alive?, aliveIn,
          Option.isSome_filter, Option.any_eq_true]
        constructor
        · rintro ⟨ks, ⟨hks, hmatch⟩, halive⟩
          exact ⟨hmatch, ks, hks, halive⟩
        · rintro ⟨hmatch, ks, hks, halive⟩
          exact ⟨ks, ⟨hks, hmatch⟩, halive⟩

/-- An inverted range covers nothing. -/
theorem not_matchesRange_of_error {s : StoreState} {bound : RangeBound} {e : Failure}
    (h : s.keysToDelete bound = .error e) (key : Bytes) : matchesRange bound key = false := by
  refine not_matchesRange_of_inverted ?_ key
  unfold StoreState.keysToDelete at h
  split at h
  · cases h
  · by_contra hinv
    rw [walkRange_eq_filter s.keys (by simpa using hinv)] at h
    cases h

theorem map_key_deletes {s : StoreState} {keys : List Bytes} (rev : UInt64)
    (h : ∀ key ∈ keys, (s.alive? key).isSome) : (s.deletes keys rev).map Write.key = keys := by
  induction keys with
  | nil => rfl
  | cons key keys ih =>
      obtain ⟨ks, hks⟩ := Option.isSome_iff_exists.mp (h key (by simp))
      have hrest := ih fun k hk => h k (by simp [hk])
      simp only [StoreState.deletes, List.filterMap_cons, hks, Option.map_some,
        List.map_cons] at hrest ⊢
      rw [hrest]
      rfl

/-- **What a delete writes**: the alive keys it covers, each once. -/
theorem deleteWrites_keys (s : StoreState) (d : DeleteRangeRequest) (rev : UInt64) :
    ((s.deleteWrites d rev).map Write.key).Nodup ∧ ∀ key,
      key ∈ (s.deleteWrites d rev).map Write.key ↔
        (WriteOp.deleteRange d).covers key = true ∧ (s.alive? key).isSome := by
  unfold StoreState.deleteWrites
  cases hkeys : s.keysToDelete (resolveRange d.key d.rangeEnd) with
  | ok keys =>
      have hmap : (s.deletes keys rev).map Write.key = keys :=
        map_key_deletes rev fun key hkey => ((mem_keysToDelete hkeys key).mp hkey).2
      rw [hmap]
      exact ⟨nodup_keysToDelete hkeys, mem_keysToDelete hkeys⟩
  | error e =>
      refine ⟨List.nodup_nil, ?_⟩
      intro key
      simp [WriteOp.covers, not_matchesRange_of_error hkeys key]

/-! ### The trace of a transaction

Which branch a nested transaction takes depends on the writes before it, so the trace carries the
keyspace along. It stops nowhere: that an op may fail its checks is no concern of the trace.
-/

/-- The keyspace moves along the writes of an op. -/
def StoreState.carry (s : StoreState) (rev : UInt64) (op : WriteOp) : StoreState :=
  let K := (op.writes s rev).foldl Keyspace.apply s.keyspace
  { s with keys := K.keys, keyCount := K.keyCount }

mutual
/-- The write ops that an op runs at a revision, each with the position of the list of ops it
stands in, and the keyspace they lead to. -/
def executedOp (rev : UInt64) (path : List Nat) (i : Nat) (s : StoreState) :
    RequestOp → List (List Nat × WriteOp) × StoreState
  | .put p => ([(path, .put p)], s.carry rev (.put p))
  | .deleteRange d => ([(path, .deleteRange d)], s.carry rev (.deleteRange d))
  | .txn compare success failure =>
      if compare.all (evalCompare s) then executedOps rev (path ++ [i]) 0 s success
      else executedOps rev (path ++ [i]) 0 s failure
  | .range _ => ([], s)
  | .none => ([], s)
/-- The write ops that a list of ops runs, from op number `i` on: each op starts in the keyspace
that the one before it leaves. -/
def executedOps (rev : UInt64) (path : List Nat) (i : Nat) (s : StoreState) :
    List RequestOp → List (List Nat × WriteOp) × StoreState
  | [] => ([], s)
  | op :: ops =>
      let (first, s) := executedOp rev path i s op
      let (rest, s) := executedOps rev path (i + 1) s ops
      (first ++ rest, s)
end

/-- The branch a transaction takes. -/
def StoreState.branch (s : StoreState) (req : TxnRequest) : List RequestOp :=
  if req.compare.all (evalCompare s) then req.success else req.failure

/-- The write ops that a transaction runs, those of nested transactions included. -/
def StoreState.executedWrites (s : StoreState) (req : TxnRequest) : List (List Nat × WriteOp) :=
  (executedOps s.nextRev [] 0 s (s.branch req)).1

/-! Which ops run, and what they write, depends on the keyspace only. -/

theorem evalCompare_congr {s t : StoreState} (h : s.keyspace = t.keyspace) :
    evalCompare s = evalCompare t := by
  have hkeys : s.keys = t.keys := congrArg Keyspace.keys h
  funext cmp
  simp only [evalCompare, StoreState.alive?, hkeys]

theorem WriteOp.writes_congr {s t : StoreState} (h : s.keyspace = t.keyspace) (rev : UInt64)
    (op : WriteOp) : op.writes s rev = op.writes t rev := by
  have hkeys : s.keys = t.keys := congrArg Keyspace.keys h
  cases op with
  | put p => simp only [WriteOp.writes, StoreState.putWrite, StoreState.alive?, hkeys]
  | deleteRange d =>
      simp only [WriteOp.writes, StoreState.deleteWrites, StoreState.keysToDelete,
        StoreState.deletes, StoreState.alive?, hkeys]

section

variable [Crates]

/-- The store after some write ops at a revision, and the writes they made. -/
inductive Carried (rev : UInt64) (s₀ : StoreState) :
    List (List Nat × WriteOp) → List Write → StoreState → Prop
  | nil : Carried rev s₀ [] [] s₀
  | snoc {ops ws s path op s'} : Carried rev s₀ ops ws s → Effect s (op.writes s rev) s' →
      Carried rev s₀ (ops ++ [(path, op)]) (ws ++ op.writes s rev) s'

/-- A transaction that started in `s₀`, after some write ops: before the first nothing has
happened; from then on it holds its revision, and everything written is written at it. -/
def Traced (s₀ : StoreState) (ops : List (List Nat × WriteOp)) (c : TxnCursor) (s : StoreState) :
    Prop :=
  ops = [] ∧ c.rev = none ∧ s = s₀ ∨
    ops ≠ [] ∧ c.rev = some s₀.nextRev ∧
      ∃ ws, Carried s₀.nextRev { s₀ with nextRev := s₀.nextRev + 1 } ops ws s

/-- Part of a transaction that goes on, if it does, as planned. -/
def TracedPost {α : Type} (s₀ : StoreState) (ops : List (List Nat × WriteOp))
    (plan : List (List Nat × WriteOp) × StoreState) (r : Except Failure (α × TxnCursor))
    (s : StoreState) : Prop :=
  ∀ a c, r = .ok (a, c) → Traced s₀ (ops ++ plan.1) c s ∧ s.keyspace = plan.2.keyspace

variable {s₀ : StoreState}

theorem tracedPost_ok {α : Type} {s : StoreState} {ops : List (List Nat × WriteOp)}
    {plan : List (List Nat × WriteOp) × StoreState} {c : TxnCursor}
    (h : Traced s₀ (ops ++ plan.1) c s) (hplan : s.keyspace = plan.2.keyspace) (a : α) :
    TracedPost s₀ ops plan (.ok (a, c)) s := by
  intro a' c' heq
  cases heq
  exact ⟨h, hplan⟩

theorem tracedPost_error {α : Type} (ops : List (List Nat × WriteOp))
    (plan : List (List Nat × WriteOp) × StoreState) (e : Failure) (s : StoreState) :
    TracedPost s₀ ops plan (.error e : Except Failure (α × TxnCursor)) s := by
  intro a c heq
  cases heq

/-- A write op takes the revision, if it is the first, and makes its writes. -/
theorem writeOp_traced {α β : Type} {s t : StoreState} {ops : List (List Nat × WriteOp)}
    {c : TxnCursor} (h : Traced s₀ ops c s) (ht : s.keyspace = t.keyspace) (path : List Nat)
    (op : WriteOp) {x : UInt64 → StoreM α} (g : α → β)
    (hx : ∀ s', (x s₀.nextRev).Spec s' (Performs s' (op.writes s' s₀.nextRev))) :
    (writeOp c x g).Spec s (TracedPost s₀ ops ([(path, op)], t.carry s₀.nextRev op)) := by
  have hget : ∃ c' s' ws, exec c.getRev s = (.ok (s₀.nextRev, c'), s') ∧
      c'.rev = some s₀.nextRev ∧ s'.keyspace = s.keyspace ∧
      Carried s₀.nextRev { s₀ with nextRev := s₀.nextRev + 1 } ops ws s' := by
    rcases h with ⟨rfl, hnone, rfl⟩ | ⟨-, hsome, ws, hws⟩
    · refine ⟨{ c with rev := some s.nextRev }, { s with nextRev := s.nextRev + 1 }, [], ?_, rfl,
        rfl, .nil⟩
      simp only [TxnCursor.getRev, hnone, allocRevision, Prog.exec_bind, Prog.exec_modifyGet,
        Prog.exec_pure]
    · refine ⟨c, s, ws, ?_, hsome, rfl, hws⟩
      simp only [TxnCursor.getRev, hsome, Prog.exec_pure]
  obtain ⟨c', s', ws, hget, hrev, hkeyspace, hws⟩ := hget
  refine Prog.spec_bind_ok hget ((hx s').bind ?_ ?_)
  · intro e s'' _
    exact tracedPost_error _ _ e s''
  · intro a s'' hr
    have heffect := hr.1 a rfl
    refine Prog.spec_pure (tracedPost_ok (.inr ⟨by simp, hrev, _, hws.snoc heffect⟩) ?_ _)
    rw [heffect.run.eq_foldl, WriteOp.writes_congr (hkeyspace.trans ht), hkeyspace.trans ht]
    rfl

mutual
theorem applyTxnOp_traced : ∀ (op : RequestOp) (path : List Nat) (i depth : Nat) (c : TxnCursor)
    (s t : StoreState) (ops : List (List Nat × WriteOp)), Traced s₀ ops c s →
      s.keyspace = t.keyspace → (applyTxnOp (path ++ [i]) depth c op).Spec s
        (TracedPost s₀ ops (executedOp s₀.nextRev path i t op))
  | .range r, path, i, depth, c, s, t, ops, h, ht => by
      unfold applyTxnOp executedOp
      have hsame : Traced s₀ (ops ++ []) c s := by
        rw [List.append_nil]
        exact h
      split
      · have hdeferred : Traced s₀ (ops ++ [])
            { c with deferred := c.deferred ++ [(path ++ [i], r)] } s := hsame
        exact Prog.spec_pure (tracedPost_ok hdeferred ht _)
      · refine StoreM.spec_read_bind ?_ ?_
        · intro e _
          exact tracedPost_error _ _ e s
        · intro resp _
          exact Prog.spec_pure (tracedPost_ok hsame ht _)
  | .put p, path, i, depth, c, s, t, ops, h, ht => by
      unfold applyTxnOp executedOp
      refine StoreM.spec_read_bind ?_ ?_
      · intro e _
        exact tracedPost_error _ _ e s
      · intro _ _
        exact writeOp_traced h ht path (.put p) _ fun s' => putAt_spec p _ s'
  | .deleteRange d, path, i, depth, c, s, t, ops, h, ht => by
      unfold applyTxnOp executedOp
      refine StoreM.spec_read_bind ?_ ?_
      · intro e _
        exact tracedPost_error _ _ e s
      · intro _ _
        exact writeOp_traced h ht path (.deleteRange d) _ fun s' => deleteRangeAt_spec d _ s'
  | .txn compare success failure, path, i, depth, c, s, t, ops, h, ht => by
      unfold applyTxnOp executedOp
      split
      · exact Prog.spec_throw_bind (tracedPost_error _ _ _ s)
      · refine Prog.spec_get_bind ?_
        rw [← evalCompare_congr ht]
        split
        · refine (applyTxnOps_traced success (path ++ [i]) 0 (depth + 1) c s t ops h ht).bind ?_ ?_
          · intro e s' _
            exact tracedPost_error _ _ e s'
          · intro a s' hr
            obtain ⟨htraced, hplan⟩ := hr a.1 a.2 rfl
            exact Prog.spec_get_bind (Prog.spec_pure (tracedPost_ok htraced hplan _))
        · refine (applyTxnOps_traced failure (path ++ [i]) 0 (depth + 1) c s t ops h ht).bind ?_ ?_
          · intro e s' _
            exact tracedPost_error _ _ e s'
          · intro a s' hr
            obtain ⟨htraced, hplan⟩ := hr a.1 a.2 rfl
            exact Prog.spec_get_bind (Prog.spec_pure (tracedPost_ok htraced hplan _))
  | .none, path, i, depth, c, s, t, ops, h, ht => by
      unfold applyTxnOp executedOp
      refine Prog.spec_pure (tracedPost_ok ?_ ht _)
      rw [List.append_nil]
      exact h
theorem applyTxnOps_traced : ∀ (rest : List RequestOp) (path : List Nat) (i depth : Nat)
    (c : TxnCursor) (s t : StoreState) (ops : List (List Nat × WriteOp)), Traced s₀ ops c s →
      s.keyspace = t.keyspace → (applyTxnOps path i depth c rest).Spec s
        (TracedPost s₀ ops (executedOps s₀.nextRev path i t rest))
  | [], path, i, depth, c, s, t, ops, h, ht => by
      unfold applyTxnOps executedOps
      refine Prog.spec_pure (tracedPost_ok ?_ ht _)
      rw [List.append_nil]
      exact h
  | op :: rest, path, i, depth, c, s, t, ops, h, ht => by
      unfold applyTxnOps executedOps
      refine (applyTxnOp_traced op path i depth c s t ops h ht).bind ?_ ?_
      · intro e s' _
        exact tracedPost_error _ _ e s'
      · intro a s' hr
        obtain ⟨htraced, hplan⟩ := hr a.1 a.2 rfl
        refine (applyTxnOps_traced rest path (i + 1) depth a.2 s' _ _ htraced hplan).bind ?_ ?_
        · intro e s'' _
          exact tracedPost_error _ _ e s''
        · intro b s'' hrest
          obtain ⟨htraced', hplan'⟩ := hrest b.1 b.2 rfl
          rw [List.append_assoc] at htraced'
          refine Prog.spec_pure ?_
          intro responses c' heq
          cases heq
          exact ⟨htraced', hplan'⟩
end

/-- **A transaction that succeeds carries out its trace.** The part under the lock carries it out,
and the deferred ranges behind it write nothing. -/
theorem txn_traced {s s' : StoreState} {req : TxnRequest} {resp : TxnResponse}
    (h : exec (txn req) s = (.ok resp, s')) : ∃ c, Traced s (s.executedWrites req) c s' := by
  have hspec : (txn req).Spec s fun r s' => ∀ a, r = .ok a →
      ∃ c, Traced s (s.executedWrites req) c s' := by
    unfold txn
    refine StoreM.spec_read_bind (by simp) ?_
    intro _ _
    have hlocked : (txnLocked req).Spec s fun r s' => ∀ a, r = .ok a →
        ∃ c, Traced s (s.executedWrites req) c s' := by
      unfold txnLocked
      refine Prog.spec_get_bind ((applyTxnOps_traced (s.branch req) [] 0 0 {} s s []
        (.inl ⟨rfl, rfl, rfl⟩) rfl).bind (by simp) ?_)
      intro a s' hr
      exact Prog.spec_get_bind (Prog.spec_pure fun _ _ => ⟨a.2, (hr a.1 a.2 rfl).1⟩)
    refine hlocked.bind (by simp) ?_
    intro a s' hr
    refine (runDeferred_spec a.2 a.1 s' (Q := fun t => t = s') rfl).mono ?_
    intro r t ht _ _
    rw [ht]
    exact hr a rfl
  have hret := hspec (by rw [h]; simp)
  rw [h] at hret
  exact hret resp rfl

/-! ### What a trace does -/

omit [Crates] in
/-- An op writes at its revision, to keys it covers. -/
theorem WriteOp.rev_covers {s : StoreState} {rev : UInt64} {op : WriteOp} {w : Write}
    (h : w ∈ op.writes s rev) : w.rev = rev ∧ op.covers w.key = true := by
  cases op with
  | put p =>
      obtain rfl := List.mem_singleton.mp h
      exact ⟨rfl, decide_eq_true rfl⟩
  | deleteRange d =>
      refine ⟨rev_of_mem_deleteWrites h, ?_⟩
      exact (((deleteWrites_keys s d rev).2 w.key).mp (List.mem_map_of_mem h)).1

theorem Carried.effect {rev : UInt64} {s₀ s : StoreState} {ops : List (List Nat × WriteOp)}
    {ws : List Write} (h : Carried rev s₀ ops ws s) : Effect s₀ ws s := by
  induction h with
  | nil => exact .refl s₀
  | snoc _ hop ih => exact ih.trans hop

theorem Carried.rev_covers {rev : UInt64} {s₀ s : StoreState} {ops : List (List Nat × WriteOp)}
    {ws : List Write} (h : Carried rev s₀ ops ws s) :
    ∀ w ∈ ws, w.rev = rev ∧ ∃ op ∈ ops, op.2.covers w.key = true := by
  induction h with
  | nil => simp
  | @snoc ops ws s path op s' _ _ ih =>
      intro w hw
      rcases List.mem_append.mp hw with hw | hw
      · obtain ⟨hrev, op', hop', hcovers⟩ := ih w hw
        exact ⟨hrev, op', by simp [hop'], hcovers⟩
      · obtain ⟨hrev, hcovers⟩ := WriteOp.rev_covers hw
        exact ⟨hrev, (path, op), by simp, hcovers⟩

/-- Watchers are sent events of the writes' revisions. -/
theorem notifyWrites_eq {rev : UInt64} {ws : List Write} (h : ∀ w ∈ ws, w.rev = rev)
    (reg : WatchRegistration) :
    ∃ sent, notifyWrites ws reg = { reg with sender := reg.sender ++ sent } ∧
      ∀ event ∈ sent, event.revision = rev := by
  refine ⟨_, notifyWrites_spec ws reg, ?_⟩
  intro event hevent
  obtain ⟨event₀, hevent₀, rfl⟩ := List.mem_map.mp hevent
  obtain ⟨w, hw, rfl⟩ := List.mem_map.mp (List.mem_filter.mp hevent₀).1
  have hrev : w.event.revision = rev := by
    rw [← h w hw]
    cases w <;> rfl
  unfold WatchRegistration.strip
  split <;> exact hrev

omit [Crates] in
/-- The key was put at the revision, or deleted at it. -/
def Keyspace.Stamped (rev : UInt64) (key : Bytes) (K : Keyspace) : Prop :=
  ∃ ks, K.keys[key]? = some ks ∧
    (ks.isAlive = true ∧ ks.modRevision = rev ∨ ks.deleteRevision = rev)

end

namespace Keyspace

theorem stamped_apply (K : Keyspace) (w : Write) : (K.apply w).Stamped w.rev w.key := by
  cases w with
  | put key value lease rev prev =>
      exact ⟨_, ExtTreeMap.getElem?_insert_self, .inl ⟨rfl, rfl⟩⟩
  | delete key rev prev => exact ⟨_, ExtTreeMap.getElem?_insert_self, .inr rfl⟩

/-- Writes at one revision leave a key alone or stamp it. -/
theorem Run.stamped {K K' : Keyspace} {ws : List Write} {rev : UInt64} (h : Run K ws K')
    (hws : ∀ w ∈ ws, w.rev = rev) (key : Bytes) :
    K'.keys[key]? = K.keys[key]? ∨ (∃ w ∈ ws, w.key = key) ∧ K'.Stamped rev key := by
  refine h.invariant (P := fun K' => K'.keys[key]? = K.keys[key]? ∨
    (∃ w ∈ ws, w.key = key) ∧ K'.Stamped rev key) (.inl rfl) ?_
  intro K₁ w hw hP _
  by_cases hkey : w.key = key
  · refine .inr ⟨⟨w, hw, hkey⟩, ?_⟩
    rw [← hws w hw, ← hkey]
    exact stamped_apply K₁ w
  · unfold Stamped at hP ⊢
    rw [getElem?_apply_of_ne hkey]
    exact hP

/-- Once a key has been put at the revision, the writes after it keep its `mod_revision`. -/
theorem Run.modRevision {K K' : Keyspace} {ws : List Write} {rev : UInt64} (h : Run K ws K')
    (hws : ∀ w ∈ ws, w.rev = rev) {key : Bytes}
    (h₀ : ∃ ks, K.keys[key]? = some ks ∧ ks.modRevision = rev) :
    ∃ ks, K'.keys[key]? = some ks ∧ ks.modRevision = rev := by
  refine h.invariant (P := fun K' => ∃ ks, K'.keys[key]? = some ks ∧ ks.modRevision = rev) h₀ ?_
  intro K₁ w hw hP haccepts
  by_cases hkey : w.key = key
  · subst hkey
    cases w with
    | put k value lease r prev =>
        exact ⟨_, ExtTreeMap.getElem?_insert_self, hws _ hw⟩
    | delete k r prev =>
        obtain ⟨ks, hks, hmod⟩ := hP
        obtain ⟨halive, -⟩ := haccepts
        obtain ⟨hprev, -⟩ := Option.filter_eq_some_iff.mp halive
        obtain rfl : ks = prev := Option.some.inj (hks.symm.trans hprev)
        exact ⟨_, ExtTreeMap.getElem?_insert_self, hmod⟩
  · rw [getElem?_apply_of_ne hkey]
    exact hP

end Keyspace

/-! ### One revision -/

section

variable [Crates]

/-- A transaction with the given trace went from `s` to `s'` at one revision. It speaks of records,
events and entries alike, because each of them carries the revision in a field of its own. -/
structure OneRevision (s : StoreState) (ops : List (List Nat × WriteOp)) (resp : TxnResponse)
    (s' : StoreState) : Prop where
  nextRev_of_reads : ops = [] → s'.nextRev = s.nextRev
  nextRev_of_writes : ops ≠ [] → s'.nextRev = s.nextRev + 1
  header : s'.nextRev ≠ 0 → resp.header.revision = (s'.nextRev - 1).toInt64
  records : ∃ ws : List Write,
    s'.wal.contents = s.wal.contents ++ serializeAll (ws.map Write.record) ∧
    ∀ w ∈ ws, w.rev = s.nextRev ∧ (w.record.Fits → w.record.revision = s.nextRev) ∧
      ∃ op ∈ ops, op.2.covers w.key = true
  events : ∃ sent : WatchRegistration → List WatchEvent,
    s'.watchers = s.watchers.map (fun reg => { reg with sender := reg.sender ++ sent reg }) ∧
    ∀ reg, ∀ event ∈ sent reg, event.revision = s.nextRev
  puts : ∀ path p, (path, .put p) ∈ ops →
    ∃ ks, s'.keys[p.key]? = some ks ∧ ks.modRevision = s.nextRev
  changes : ∀ key, s'.keys[key]? ≠ s.keys[key]? → (∃ op ∈ ops, op.2.covers key = true) ∧
    ∃ ks, s'.keys[key]? = some ks ∧
      (ks.isAlive = true ∧ ks.modRevision = s.nextRev ∨ ks.deleteRevision = s.nextRev)

/-- The key of an op that puts has the revision from then on. -/
theorem Carried.puts {rev : UInt64} {s₀ s : StoreState} {ops : List (List Nat × WriteOp)}
    {ws : List Write} (h : Carried rev s₀ ops ws s) {path : List Nat} {p : PutRequest}
    (hp : (path, .put p) ∈ ops) : ∃ ks, s.keys[p.key]? = some ks ∧ ks.modRevision = rev := by
  induction h with
  | nil => cases hp
  | @snoc ops ws s path' op s' _ hop ih =>
      have hrev : ∀ w ∈ op.writes s rev, w.rev = rev := fun w hw => (WriteOp.rev_covers hw).1
      rcases List.mem_append.mp hp with hp | hp
      · exact hop.run.modRevision hrev (ih hp)
      · cases List.mem_singleton.mp hp
        have hrun := hop.run.eq_foldl
        have hkeys : s'.keys = (s.keyspace.apply (s.putWrite p rev)).keys :=
          congrArg Keyspace.keys hrun
        rw [hkeys]
        exact ⟨_, ExtTreeMap.getElem?_insert_self, rfl⟩

variable [LawfulCrates]

/-- **One revision per transaction.** For every tree of ops and every outcome of its guards; a
transaction that gets to no put or delete takes no revision. -/
theorem txn_one_revision {s s' : StoreState} {req : TxnRequest} {resp : TxnResponse}
    (h : exec (txn req) s = (.ok resp, s')) : OneRevision s (s.executedWrites req) resp s' := by
  have hheader : s'.nextRev ≠ 0 → resp.header.revision = (s'.nextRev - 1).toInt64 := by
    intro hne
    have hresp := txn_header req s (by rw [h]; simp)
    rw [h] at hresp
    rw [hresp resp rfl, StoreState.header, StoreState.currentRevision, if_neg hne]
  -- either nothing has been written and nothing has changed, or the trace has carried out its
  -- writes at the revision that was taken
  obtain ⟨c, htraced⟩ := txn_traced h
  rcases htraced with ⟨hops, -, rfl⟩ | ⟨hops, -, ws, hws⟩
  · rw [hops]
    exact
      { nextRev_of_reads := fun _ => rfl
        nextRev_of_writes := fun hne => absurd rfl hne
        header := hheader
        records := ⟨[], by simp [serializeAll, FramedLog.encodeAll], by simp⟩
        events := ⟨fun _ => [], by simp, by simp⟩
        puts := by simp
        changes := fun key hne => absurd rfl hne }
  · have heffect := hws.effect
    have hrev : ∀ w ∈ ws, w.rev = s.nextRev := fun w hw => (hws.rev_covers w hw).1
    refine
      { nextRev_of_reads := fun hnil => absurd hnil hops
        nextRev_of_writes := fun _ => heffect.nextRev
        header := hheader
        records := ⟨ws, heffect.contents, ?_⟩
        events := ?_
        puts := fun path p hp => hws.puts hp
        changes := ?_ }
    · intro w hw
      obtain ⟨hwrev, hcovers⟩ := hws.rev_covers w hw
      exact ⟨hwrev, fun hfit => (Write.record_spec hfit).2.2.trans hwrev, hcovers⟩
    · choose sent hsent hsentRev using notifyWrites_eq hrev
      refine ⟨sent, ?_, hsentRev⟩
      rw [heffect.watchers]
      exact List.map_congr_left fun reg _ => hsent reg
    · intro key hne
      rcases heffect.run.stamped hrev key with hsame | ⟨⟨w, hw, rfl⟩, hstamped⟩
      · exact absurd hsame hne
      · exact ⟨(hws.rev_covers w hw).2, hstamped⟩

end

/-- A put, and a nested transaction that sees it and deletes another key. -/
theorem txn_one_revision_nested :
    ∃ s s' resp, serve fresh [.put { key := [2] }] = some s ∧
      exec (txn { success := [.put { key := [1] },
        .txn [{ result := 1, key := [1] }] [.deleteRange { key := [2] }] []] }) s
        = (.ok resp, s') ∧
      OneRevision s [([], .put { key := [1] }), ([1], .deleteRange { key := [2] })] resp s' := by
  have hrun : ((serve fresh [.put { key := [2] }]).any fun s =>
      (exec (txn { success := [.put { key := [1] },
        .txn [{ result := 1, key := [1] }] [.deleteRange { key := [2] }] []] }) s).1.toOption.isSome
      && decide (s.executedWrites { success := [.put { key := [1] },
        .txn [{ result := 1, key := [1] }] [.deleteRange { key := [2] }] []] }
        = [([], .put { key := [1] }), ([1], .deleteRange { key := [2] })])) = true := by
    decide +kernel
  obtain ⟨s, hs, hrun⟩ := (Option.any_eq_true _ _).mp hrun
  obtain ⟨hsome, htrace⟩ := (Bool.and_eq_true _ _).mp hrun
  obtain ⟨resp, hresp⟩ := Option.isSome_iff_exists.mp hsome
  have hexec := Prod.ext (y := (Except.ok resp, _)) (Prog.ok_of_toOption hresp) rfl
  refine ⟨s, _, resp, hs, hexec, ?_⟩
  rw [← of_decide_eq_true htrace]
  exact txn_one_revision hexec

end Rudurru
