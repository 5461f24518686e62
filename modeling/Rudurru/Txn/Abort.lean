import Rudurru.Txn.Ready

/-!
# Rudurru.Txn.Abort

Transactions that fail. What is checked before anything is applied is only part of what can go
wrong: an op that fails when its turn comes leaves the writes before it in place.

Which writes these are can be told from the state the transaction starts in. `failedOps` goes along
the trace of the transaction up to the first op that does not pass its checks; while appends succeed
no op fails in any other way. So a transaction that fails has carried out the writes before that op
(`txn_applied`), and is without effect if there are none (`txn_error_atomic`).

An op is checked twice here. The run checks it in the store as it is, with the revision taken and
the records appended; the foresight checks it in a keyspace that the trace alone has led to. The
checks look at keys and leases and at nothing else (`validatePut_congr`), so they agree, and by
recursion over the op the run fails where the foresight says (`applyTxnOp_fails`). Behind its checks
an op can only panic.
-/

namespace Rudurru

open Prog (exec)

/-! ### Up to the op that fails -/

mutual
/-- The write ops that an op has carried out when it fails, if it does. A put or a deletion fails in
its checks, before it writes; a nested transaction fails if it stands too deep, or in its ops. -/
def failedOp (rev : UInt64) (path : List Nat) (i depth : Nat) (s : StoreState) :
    RequestOp → Option (List (List Nat × WriteOp))
  | .put p => if (validatePut p s).isOk then none else some []
  | .deleteRange d => if (checkKey d.key).isOk then none else some []
  | .txn compare success failure =>
      if depth ≥ 1 then some []
      else if compare.all (evalCompare s) then failedOps rev (path ++ [i]) 0 (depth + 1) s success
      else failedOps rev (path ++ [i]) 0 (depth + 1) s failure
  -- a range that is not set aside has no status to fail with
  | .range _ => none
  | .none => none
/-- The write ops that a list of ops has carried out when one of them fails: those of the ops before
it, and its own. -/
def failedOps (rev : UInt64) (path : List Nat) (i depth : Nat) (s : StoreState) :
    List RequestOp → Option (List (List Nat × WriteOp))
  | [] => none
  | op :: ops =>
      match failedOp rev path i depth s op with
      | some done => some done
      | none =>
          let before := executedOp rev path i s op
          (failedOps rev path (i + 1) depth before.2 ops).map (before.1 ++ ·)
end

/-- The write ops that a transaction has carried out when it returns: those before the op that
fails, or all that it executes if none does. -/
def StoreState.appliedWrites (s : StoreState) (req : TxnRequest) : List (List Nat × WriteOp) :=
  (failedOps s.nextRev [] 0 0 s (s.branch req)).getD (s.executedWrites req)

/-- The transaction is accepted, and gets to a write of the branch it takes. -/
def StoreState.reachesWrite (s : StoreState) (req : TxnRequest) : Bool :=
  (checkTxnDuplicateKeys req).isOk && !(s.appliedWrites req).isEmpty

/-! What is checked depends on the keyspace and the leases, and a trace leaves the leases alone. -/

theorem validatePut_congr {s t : StoreState} (h : s.keyspace = t.keyspace)
    (hleases : s.leases = t.leases) (p : PutRequest) : validatePut p s = validatePut p t := by
  have hkeys : s.keys = t.keys := congrArg Keyspace.keys h
  have halive : s.alive? p.key = t.alive? p.key := by
    rw [StoreState.alive?, StoreState.alive?, hkeys]
  rw [validatePut, validatePut, halive, hleases]

mutual
theorem executedOp_leases : ∀ (op : RequestOp) (rev : UInt64) (path : List Nat) (i : Nat)
    (s : StoreState), (executedOp rev path i s op).2.leases = s.leases
  | .put p, rev, path, i, s | .deleteRange d, rev, path, i, s | .range r, rev, path, i, s
  | .none, rev, path, i, s => by
      unfold executedOp
      rfl
  | .txn compare success failure, rev, path, i, s => by
      unfold executedOp
      split
      · exact executedOps_leases success rev (path ++ [i]) 0 s
      · exact executedOps_leases failure rev (path ++ [i]) 0 s
theorem executedOps_leases : ∀ (ops : List RequestOp) (rev : UInt64) (path : List Nat) (i : Nat)
    (s : StoreState), (executedOps rev path i s ops).2.leases = s.leases
  | [], rev, path, i, s => by
      unfold executedOps
      rfl
  | op :: ops, rev, path, i, s => by
      unfold executedOps
      exact (executedOps_leases ops rev path (i + 1) _).trans (executedOp_leases op rev path i s)
end

/-! ### No op fails in any other way -/

theorem isPanic_of_vecWithCapacity {cap : Nat} {e : Failure}
    (h : vecWithCapacity cap = .error e) : e.isPanic = true := by
  unfold vecWithCapacity at h
  split at h
  · cases h
    rfl
  · cases h

/-- A range of the current state fails in what it allocates or in its walk. -/
theorem isPanic_of_rangeCurrent {s : StoreState} {req : RangeRequest} {e : Failure}
    (h : rangeCurrent s req = .error e) : e.isPanic = true := by
  have hwalk : ∀ {bound : RangeBound}, (do
      let entries ← visitedCurrent s.keys bound
      return currentResponse s req entries : Except Failure RangeResponse) = .error e →
        e.isPanic = true := by
    intro bound hrest
    rcases Prog.bind_eq_error.mp hrest with hvisited | ⟨_, -, hpage⟩
    · cases hinv : bound.inverted with
      | false =>
          rw [visitedCurrent_eq_filter _ hinv] at hvisited
          cases hvisited
      | true =>
          rw [(visitedCurrent_eq_rangePanic _ bound).mpr hinv] at hvisited
          cases hvisited
          rfl
    · cases hpage
  rw [rangeCurrent_eq_entries] at h
  cases hbound : resolveRange req.key req.rangeEnd with
  | point k =>
      rw [hbound] at h
      exact hwalk h
  | all | fromKey k | prefixOf p | range start stop =>
      rw [hbound] at h
      rcases Prog.bind_eq_error.mp h with hcap | ⟨_, -, hrest⟩
      · exact isPanic_of_vecWithCapacity hcap
      · exact hwalk hrest

section

variable [Crates]

/-- While appends succeed, a deletion fails in the selection of its keys, if at all. -/
theorem deleteRangeAt_returns {s : StoreState} (hs : s.wal.faults = []) (d : DeleteRangeRequest)
    (rev : UInt64) : (deleteRangeAt d rev).Spec s fun r _ => ∃ a, r = .ok a := by
  unfold deleteRangeAt
  cases hkeys : s.keysToDelete (resolveRange d.key d.rangeEnd) with
  | error e =>
      have hpanic : e.isPanic = true := by
        unfold StoreState.keysToDelete at hkeys
        split at hkeys
        · cases hkeys
        · rcases Prog.bind_eq_error.mp hkeys with hwalk | ⟨_, -, hpage⟩
          · rw [eq_rangePanic_of_walkRange hwalk]
            rfl
          · cases hpage
      exact Prog.spec_bind_crash (by rw [exec_read, hkeys]) hpanic
  | ok keys =>
      refine Prog.spec_bind_ok (by rw [exec_read, hkeys]) (Prog.spec_get_bind ?_)
      rw [← bind_assoc]
      refine (deleteBatch_returns (nodup_keysToDelete hkeys) rev _ hs).bind ?_ ?_
      · intro e s' herr
        cases herr
      · intro _ s' _
        exact Prog.spec_get_bind (Prog.spec_pure ⟨_, rfl⟩)

/-- A put that passes `validate_put` does not fail. -/
theorem putAt_returns {s : StoreState} (hs : s.wal.faults = []) {p : PutRequest}
    (h : validatePut p s = .ok ()) (rev : UInt64) :
    (putAt p rev).Spec s fun r _ => ∃ a, r = .ok a := by
  obtain ⟨a, t, hput⟩ := exec_putAt hs h rev
  intro _
  rw [hput]
  exact ⟨a, rfl⟩

omit [Crates] in
theorem writeOp_returns {α β : Type} {c : TxnCursor} {s : StoreState} {x : UInt64 → StoreM α}
    (g : α → β) (hx : ∀ rev, (x rev).Spec (c.taken s) fun r _ => ∃ a, r = .ok a) :
    (writeOp c x g).Spec s fun r _ => ∃ a, r = .ok a := by
  refine Prog.spec_bind_ok (exec_getRev_eq c s) ((hx _).bind ?_ ?_)
  · intro e s' hr
    obtain ⟨a, ha⟩ := hr
    cases ha
  · intro a s' _
    exact Prog.spec_pure ⟨_, rfl⟩

/-- What a transaction has not touched. -/
theorem Traced.kept {s₀ s : StoreState} {ops : List (List Nat × WriteOp)} {c : TxnCursor}
    (h : Traced s₀ ops c s) :
    s.leases = s₀.leases ∧ (s₀.wal.faults = [] → s.wal.faults = []) := by
  rcases h with ⟨-, -, rfl⟩ | ⟨-, -, ws, hws⟩
  · exact ⟨rfl, id⟩
  · exact ⟨hws.effect.leases, hws.effect.faults⟩

/-- Part of a transaction that started in `s₀`, after some write ops: it went on, as foreseen, or it
has failed after the write ops that were foreseen. -/
def FailsAfter {α : Type} (s₀ : StoreState) (ops : List (List Nat × WriteOp))
    (failed : Option (List (List Nat × WriteOp))) (r : Except Failure (α × TxnCursor))
    (s : StoreState) : Prop :=
  match r with
  | .ok _ => failed = none
  | .error _ => ∃ done, failed = some done ∧ ∃ c, Traced s₀ (ops ++ done) c s

variable {s₀ : StoreState}

/-- An op that fails before it has written anything. -/
theorem failsAfter_checks {α : Type} {s : StoreState} {ops : List (List Nat × WriteOp)}
    {c : TxnCursor} (h : Traced s₀ ops c s) (e : Failure) :
    FailsAfter s₀ ops (some []) (.error e : Except Failure (α × TxnCursor)) s := by
  refine ⟨[], rfl, c, ?_⟩
  rw [List.append_nil]
  exact h

/-- An op that passes its checks does not fail. -/
theorem failsAfter_writeOp {α β : Type} {c : TxnCursor} {s : StoreState} {x : UInt64 → StoreM α}
    {g : α → β} (ops : List (List Nat × WriteOp))
    (hx : ∀ rev, (x rev).Spec (c.taken s) fun r _ => ∃ a, r = .ok a) :
    (writeOp c x g).Spec s (FailsAfter s₀ ops none) := by
  refine (writeOp_returns g hx).mono ?_
  intro r s' hr
  obtain ⟨a, rfl⟩ := hr
  rfl

mutual
theorem applyTxnOp_fails (hs₀ : s₀.wal.faults = []) : ∀ (op : RequestOp) (path : List Nat)
    (i depth : Nat) (c : TxnCursor) (s t : StoreState) (ops : List (List Nat × WriteOp)),
      Traced s₀ ops c s → s.keyspace = t.keyspace → t.leases = s₀.leases →
        (applyTxnOp (path ++ [i]) depth c op).Spec s
          (FailsAfter s₀ ops (failedOp s₀.nextRev path i depth t op))
  | .range r, path, i, depth, c, s, t, ops, h, ht, hleases => by
      unfold applyTxnOp failedOp
      split
      · exact Prog.spec_pure rfl
      · cases hrange : rangeCurrent s r with
        -- a range that fails panics, and a panic does not return
        | error e =>
            exact Prog.spec_bind_crash (by rw [exec_read, hrange])
              (isPanic_of_rangeCurrent hrange)
        | ok resp => exact Prog.spec_bind_ok (by rw [exec_read, hrange]) (Prog.spec_pure rfl)
  | .put p, path, i, depth, c, s, t, ops, h, ht, hleases => by
      -- the trace and the run see the same keys and leases, so their checks agree
      have hcheck : validatePut p t = validatePut p s :=
        validatePut_congr ht.symm (hleases.trans h.kept.1.symm) p
      unfold applyTxnOp failedOp
      rw [hcheck]
      refine StoreM.spec_read_bind ?_ ?_
      · intro e he
        rw [he]
        exact failsAfter_checks h e
      · intro _ hvalid
        rw [hvalid]
        obtain ⟨hkeyspace, htaken, hwal⟩ := c.keyspace_taken s
        have hfaults : (c.taken s).wal.faults = [] := by rw [hwal, h.kept.2 hs₀]
        have hvalid' : validatePut p (c.taken s) = .ok () := by
          rw [validatePut_congr hkeyspace htaken, hvalid]
        exact failsAfter_writeOp ops fun rev => putAt_returns hfaults hvalid' rev
  | .deleteRange d, path, i, depth, c, s, t, ops, h, ht, hleases => by
      unfold applyTxnOp failedOp
      refine StoreM.spec_read_bind ?_ ?_
      · intro e he
        rw [he]
        exact failsAfter_checks h e
      · intro _ hvalid
        rw [hvalid]
        have hfaults : (c.taken s).wal.faults = [] := by
          rw [(c.keyspace_taken s).2.2, h.kept.2 hs₀]
        exact failsAfter_writeOp ops fun rev => deleteRangeAt_returns hfaults d rev
  | .txn compare success failure, path, i, depth, c, s, t, ops, h, ht, hleases => by
      unfold applyTxnOp failedOp
      by_cases hdepth : depth ≥ 1
      · rw [if_pos hdepth, if_pos hdepth]
        exact Prog.spec_throw_bind (failsAfter_checks h _)
      · rw [if_neg hdepth, if_neg hdepth, ← evalCompare_congr ht]
        refine Prog.spec_get_bind ?_
        split
        · refine (applyTxnOps_fails hs₀ success (path ++ [i]) 0 (depth + 1) c s t ops h ht
            hleases).bind ?_ ?_
          · intro e s' hr
            exact hr
          · intro a s' hr
            exact Prog.spec_get_bind (Prog.spec_pure hr)
        · refine (applyTxnOps_fails hs₀ failure (path ++ [i]) 0 (depth + 1) c s t ops h ht
            hleases).bind ?_ ?_
          · intro e s' hr
            exact hr
          · intro a s' hr
            exact Prog.spec_get_bind (Prog.spec_pure hr)
  | .none, path, i, depth, c, s, t, ops, h, ht, hleases => by
      unfold applyTxnOp failedOp
      exact Prog.spec_pure rfl
theorem applyTxnOps_fails (hs₀ : s₀.wal.faults = []) : ∀ (rest : List RequestOp)
    (path : List Nat) (i depth : Nat) (c : TxnCursor) (s t : StoreState)
    (ops : List (List Nat × WriteOp)),
      Traced s₀ ops c s → s.keyspace = t.keyspace → t.leases = s₀.leases →
        (applyTxnOps path i depth c rest).Spec s
          (FailsAfter s₀ ops (failedOps s₀.nextRev path i depth t rest))
  | [], path, i, depth, c, s, t, ops, h, ht, hleases => by
      unfold applyTxnOps failedOps
      exact Prog.spec_pure rfl
  | op :: rest, path, i, depth, c, s, t, ops, h, ht, hleases => by
      unfold applyTxnOps failedOps
      refine ((applyTxnOp_fails hs₀ op path i depth c s t ops h ht hleases).and
        (applyTxnOp_traced op path i depth c s t ops h ht)).bind ?_ ?_
      · intro e s' hr
        obtain ⟨⟨done, hdone, htraced⟩, -⟩ := hr
        rw [hdone]
        exact ⟨done, rfl, htraced⟩
      · intro a s' hr
        -- the op went through, so the rest starts where its trace leads
        obtain ⟨hnone, hplan⟩ := hr
        obtain ⟨htraced, hkeyspace⟩ := hplan a.1 a.2 rfl
        have hleases' := (executedOp_leases op s₀.nextRev path i t).trans hleases
        rw [show failedOp s₀.nextRev path i depth t op = none from hnone]
        dsimp only
        refine (applyTxnOps_fails hs₀ rest path (i + 1) depth a.2 s' _ _ htraced hkeyspace
          hleases').bind ?_ ?_
        · intro e s'' hrest
          obtain ⟨done, hdone, c'', hc''⟩ := hrest
          rw [List.append_assoc] at hc''
          exact ⟨_, by rw [hdone]; rfl, c'', hc''⟩
        · intro b s'' hrest
          refine Prog.spec_pure ?_
          show Option.map _ _ = none
          rw [show failedOps s₀.nextRev path (i + 1) depth _ rest = none from hrest]
          rfl
end

/-- **What a transaction has done when it returns**, with a response or with an error: nothing if
it is refused, and else the write ops foreseen. -/
theorem txn_applied (req : TxnRequest) {s : StoreState} (hs : s.wal.faults = []) :
    (txn req).Spec s fun _ s' => (checkTxnDuplicateKeys req).isOk = false ∧ s' = s ∨
      (checkTxnDuplicateKeys req).isOk = true ∧ ∃ c, Traced s (s.appliedWrites req) c s' := by
  unfold txn
  refine StoreM.spec_read_bind ?_ ?_
  · intro e he
    rw [he]
    exact .inl ⟨rfl, rfl⟩
  · intro _ hcheck
    rw [hcheck]
    have hlocked : (txnLocked req).Spec s fun _ s' =>
        ∃ c, Traced s (s.appliedWrites req) c s' := by
      have hstart : Traced s [] {} s := .inl ⟨rfl, rfl, rfl⟩
      unfold txnLocked StoreState.appliedWrites
      refine Prog.spec_get_bind (((applyTxnOps_fails hs (s.branch req) [] 0 0 {} s s [] hstart rfl
        rfl).and (applyTxnOps_traced (s.branch req) [] 0 0 {} s s [] hstart rfl)).bind ?_ ?_)
      · intro e s' hr
        obtain ⟨⟨done, hdone, htraced⟩, -⟩ := hr
        rw [hdone]
        exact htraced
      · intro a s' hr
        obtain ⟨hnone, hplan⟩ := hr
        rw [show failedOps s.nextRev [] 0 0 s (s.branch req) = none from hnone]
        exact Prog.spec_get_bind (Prog.spec_pure ⟨a.2, (hplan a.1 a.2 rfl).1⟩)
    refine hlocked.bind ?_ ?_
    · intro e s' hr
      exact .inr ⟨rfl, hr⟩
    · intro a s' hr
      refine (runDeferred_spec a.2 a.1 s' (Q := fun t => t = s') rfl).mono ?_
      intro r t ht
      rw [ht]
      exact .inr ⟨rfl, hr⟩

/-- Writes at the revision that a transaction took are published. -/
theorem Carried.published {s s' : StoreState} {ops : List (List Nat × WriteOp)} {ws : List Write}
    (hs : s.wal.faults = [])
    (h : Carried s.nextRev { s with nextRev := s.nextRev + 1 } ops ws s') : Published s ws s' := by
  have hbase : Published s [] { s with nextRev := s.nextRev + 1 } :=
    { (Published.refl hs) with nextRev := .inr rfl }
  exact hbase.trans rfl h.effect fun w hw => (h.rev_covers w hw).1

/-- **Transactions and errors.** While appends succeed, a transaction that fails before it has
reached a write changes nothing. One that fails on `ignore_value` or `ignore_lease` for a
missing key after that leaves the writes of the ops before in place, at its one revision, and
nothing else. -/
theorem txn_error_atomic {s s' : StoreState} {req : TxnRequest} {code : Code} {message : String}
    (hs : s.wal.faults = []) (h : exec (txn req) s = (.error (.status code message), s')) :
    (s.reachesWrite req = false → s' = s) ∧
      (Failure.status code message = keyNotFound → s.reachesWrite req = true →
        s'.nextRev = s.nextRev + 1 ∧ ∃ ws,
          Carried s.nextRev { s with nextRev := s.nextRev + 1 } (s.appliedWrites req) ws s' ∧
          Published s ws s') := by
  have hret : ∀ e, (exec (txn req) s).1 = .error e → ¬ e.isPanic = true := by
    intro e he
    rw [h] at he
    cases he
    simp [Failure.isPanic]
  have happlied := txn_applied req hs hret
  rw [h] at happlied
  rw [StoreState.reachesWrite]
  rcases happlied with ⟨hrefused, rfl⟩ | ⟨haccepted, c, hc⟩
  · rw [hrefused]
    exact ⟨fun _ => rfl, fun _ hreach => by cases hreach⟩
  · rw [haccepted, Bool.true_and]
    -- before the first write the state is as it was; from then on the trace says what was written
    rcases hc with ⟨hops, -, rfl⟩ | ⟨hops, -, ws, hws⟩
    · rw [hops]
      exact ⟨fun _ => rfl, fun _ hreach => by cases hreach⟩
    · refine ⟨fun hno => absurd ?_ hops, fun _ _ => ⟨hws.effect.nextRev, ws, hws,
        hws.published hs⟩⟩
      simpa using hno

end

/-- A put that fails on a missing key, alone and in a nested transaction, after one put outside and
one inside. -/
theorem txn_error_atomic_missing_key :
    ∃ s₁ s₂ : StoreState,
      exec (txn { success := [.put { key := [2], ignoreValue := true }] }) fresh
        = (.error keyNotFound, s₁) ∧ s₁ = fresh ∧
      exec (txn { success := [.put { key := [1] },
          .txn [] [.put { key := [3] }, .put { key := [2], ignoreValue := true }] []] }) fresh
        = (.error keyNotFound, s₂) ∧ s₂.nextRev = fresh.nextRev + 1 ∧
      ∃ ws, Carried fresh.nextRev { fresh with nextRev := fresh.nextRev + 1 }
          [([], .put { key := [1] }), ([1], .put { key := [3] })] ws s₂ ∧
        Published fresh ws s₂ := by
  have h₁ := Prog.eq_error_of_failsWith (show Prog.failsWith keyNotFound (exec (txn
    { success := [.put { key := [2], ignoreValue := true }] }) fresh).1 = true by decide +kernel)
  have h₂ := Prog.eq_error_of_failsWith (show Prog.failsWith keyNotFound (exec (txn
    { success := [.put { key := [1] },
      .txn [] [.put { key := [3] }, .put { key := [2], ignoreValue := true }] []] }) fresh).1 = true
      by decide +kernel)
  have hwrites : fresh.appliedWrites { success := [.put { key := [1] },
      .txn [] [.put { key := [3] }, .put { key := [2], ignoreValue := true }] []] }
      = [([], .put { key := [1] }), ([1], .put { key := [3] })] := by decide +kernel
  have hkept := (txn_error_atomic rfl (Prod.ext h₂ rfl)).2 rfl (by decide +kernel)
  rw [hwrites] at hkept
  exact ⟨_, _, Prod.ext h₁ rfl, (txn_error_atomic rfl (Prod.ext h₁ rfl)).1 (by decide +kernel),
    Prod.ext h₂ rfl, hkept⟩

/-- A transaction whose second put fails keeps its first: the key, the revision, the record and
the event of a watcher are there. -/
theorem txn_error_keeps_writes :
    ∃ s s' : StoreState, s = (flushGlobalBatch fresh
        [{ pending := { key := [1], startRevision := 1 }, reply := 0, watchId := 7 }]).2 ∧
      exec (txn { success := [.put { key := [1] }, .put { key := [2], ignoreValue := true }] }) s
        = (.error keyNotFound, s') ∧
      s.wal.faults = [] ∧ s'.keys[([1] : Bytes)]? ≠ s.keys[([1] : Bytes)]? ∧
      s'.keyCount ≠ s.keyCount ∧ s'.nextRev ≠ s.nextRev ∧ s'.wal.contents ≠ s.wal.contents ∧
      s'.watchers ≠ s.watchers := by
  have hfails := Prog.eq_error_of_failsWith (show Prog.failsWith keyNotFound (exec (txn
    { success := [.put { key := [1] }, .put { key := [2], ignoreValue := true }] })
      (flushGlobalBatch fresh
        [{ pending := { key := [1], startRevision := 1 }, reply := 0, watchId := 7 }]).2).1 = true
      by decide +kernel)
  refine ⟨_, _, rfl, Prod.ext hfails rfl, rfl, ?_, ?_, ?_, ?_, ?_⟩ <;> decide +kernel

end Rudurru
