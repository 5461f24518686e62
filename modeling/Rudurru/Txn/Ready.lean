import Rudurru.Txn.Backwards
import Rudurru.Txn.Duplicates

/-!
# Rudurru.Txn.Ready

When a put or a delete of a transaction succeeds. What it checks and writes depends on the leases
and on the alive entries it covers (`WriteOp.Agree`), so ops without a common key do not get in each
other's way: a list of them succeeds if each of them is ready in the state the list starts in
(`exec_of_ready`), and then each makes the writes it would make there (`wrote_of_exec`).

Agreement is symmetric, and an op without a key in common with another agrees on the states before
and after it (`Disjoint.agree`). So the list is walked from the front in both directions: what the
first op needs it finds in the state the list starts in, and the others are moved back over it.
-/

namespace Rudurru

open Std (ExtTreeMap)
open Prog (exec)

/-! ### Writes to distinct keys -/

namespace Keyspace

/-- Only the alive entry of its key decides whether a write is accepted. -/
theorem accepts_congr {K K' : Keyspace} {w : Write}
    (h : aliveIn K.keys w.key = aliveIn K'.keys w.key) : K.Accepts w ↔ K'.Accepts w := by
  cases w with
  | put key value lease rev prev => exact Eq.congr_left h
  | delete key rev prev => exact and_congr_left fun _ => Eq.congr_left h

/-- An entry that the other writes leave alone is met as it was. -/
theorem Run.accepts {K K' : Keyspace} {ws : List Write} (h : Run K ws K')
    (hnodup : (ws.map Write.key).Nodup) : ∀ w ∈ ws, K.Accepts w := by
  induction h with
  | nil => simp
  | @cons K K' w ws hw _ ih =>
      rw [List.map_cons, List.nodup_cons] at hnodup
      intro v hv
      rcases List.mem_cons.mp hv with rfl | hv
      · exact hw
      · have hne : w.key ≠ v.key := by
          intro heq
          exact hnodup.1 (heq ▸ List.mem_map_of_mem hv)
        have hsame : aliveIn (K.apply w).keys v.key = aliveIn K.keys v.key := by
          rw [aliveIn, getElem?_apply_of_ne hne, aliveIn]
        exact (accepts_congr hsame).mp (ih hnodup.2 v hv)

end Keyspace

/-! ### What an op depends on -/

theorem keysToDelete_eq_keys (s : StoreState) {bound : RangeBound}
    (hpoint : ∀ k, bound ≠ .point k) (hinv : bound.inverted = false) :
    s.keysToDelete bound
      = .ok (s.keys.filter fun key ks => ks.isAlive && matchesRange bound key).keys := by
  have hwalk : (do
      let entries ← walkRange s.keys bound (btreeBounds bound)
      return (entries.filter (·.2.isAlive)).map (·.1) : Except Failure (List Bytes))
      = .ok (s.keys.filter fun key ks => ks.isAlive && matchesRange bound key).keys := by
    rw [walkRange_eq_filter s.keys hinv, ← ExtTreeMap.map_fst_toList_eq_keys,
      ExtTreeMap.toList_filter, ← List.filter_filter]
    rfl
  cases bound with
  | point k => exact absurd rfl (hpoint k)
  | all | fromKey k | prefixOf p | range start stop => exact hwalk

theorem keysToDelete_of_upright (s : StoreState) {bound : RangeBound}
    (hinv : bound.inverted = false) : ∃ keys, s.keysToDelete bound = .ok keys := by
  by_cases hpoint : ∃ k, bound = .point k
  · obtain ⟨k, rfl⟩ := hpoint
    exact ⟨_, rfl⟩
  · exact ⟨_, keysToDelete_eq_keys s (fun k hk => hpoint ⟨k, hk⟩) hinv⟩

/-- The keys to delete depend on the alive entries in the range. -/
theorem keysToDelete_congr {s t : StoreState} {bound : RangeBound}
    (h : ∀ key, matchesRange bound key = true → s.alive? key = t.alive? key) :
    s.keysToDelete bound = t.keysToDelete bound := by
  by_cases hinv : bound.inverted = true
  · rw [(keysToDelete_eq_rangePanic s bound).mpr hinv,
      (keysToDelete_eq_rangePanic t bound).mpr hinv]
  rw [Bool.not_eq_true] at hinv
  by_cases hpoint : ∃ k, bound = .point k
  · obtain ⟨k, rfl⟩ := hpoint
    have hk : s.alive? k = t.alive? k := h k (decide_eq_true rfl)
    simp only [StoreState.keysToDelete, hk]
  have hne : ∀ k, bound ≠ .point k := fun k hk => hpoint ⟨k, hk⟩
  rw [keysToDelete_eq_keys s hne hinv, keysToDelete_eq_keys t hne hinv]
  have hfilter : (s.keys.filter fun key ks => ks.isAlive && matchesRange bound key)
      = t.keys.filter fun key ks => ks.isAlive && matchesRange bound key := by
    refine ExtTreeMap.ext_getElem? fun key => ?_
    rw [ExtTreeMap.getElem?_filter', ExtTreeMap.getElem?_filter']
    by_cases hkey : matchesRange bound key = true
    · simp only [hkey, Bool.and_true]
      exact h key hkey
    · simp only [hkey, Bool.and_false]
      cases s.keys[key]? <;> cases t.keys[key]? <;> rfl
  rw [hfilter]

namespace WriteOp

/-- The op as it stands in a request. -/
def toRequestOp : WriteOp → RequestOp
  | .put p => .put p
  | .deleteRange d => .deleteRange d

/-- What is checked before the op takes its revision. -/
def check (s : StoreState) : WriteOp → Except Failure Unit
  | .put p => validatePut p s
  | .deleteRange d => checkKey d.key

/-- The op would be carried out at the revision. It passes its checks, its walk does not panic, and
the blobs of the keys it deletes can be patched. -/
structure Ready (s : StoreState) (rev : UInt64) (op : WriteOp) : Prop where
  check : op.check s = .ok ()
  upright : ∀ d, op = .deleteRange d → (resolveRange d.key d.rangeEnd).inverted = false
  accepts : ∀ w ∈ op.writes s rev, s.keyspace.Accepts w

/-- Two states in which the op finds the same. -/
structure Agree (op : WriteOp) (s t : StoreState) : Prop where
  leases : s.leases = t.leases
  alive : ∀ key, op.covers key = true → s.alive? key = t.alive? key

variable {s t : StoreState} {op : WriteOp} {rev : UInt64}

theorem Agree.writes_eq (h : op.Agree s t) (rev : UInt64) : op.writes s rev = op.writes t rev := by
  cases op with
  | put p => simp only [writes, StoreState.putWrite, h.alive p.key (decide_eq_true rfl)]
  | deleteRange d =>
      have hkeys : s.keysToDelete (resolveRange d.key d.rangeEnd)
          = t.keysToDelete (resolveRange d.key d.rangeEnd) := keysToDelete_congr h.alive
      simp only [writes, StoreState.deleteWrites, hkeys]
      split
      · next keys hkeys =>
          refine List.filterMap_congr fun key hkey => ?_
          rw [h.alive key ((mem_keysToDelete hkeys key).mp hkey).1]
      · rfl

/-- What is ready in one of them is ready in the other. -/
theorem Ready.agree (hop : op.Ready s rev) (h : op.Agree s t) : op.Ready t rev where
  check := by
    have hcheck := hop.check
    cases op with
    | put p =>
        have halive := h.alive p.key (decide_eq_true rfl)
        simpa only [WriteOp.check, validatePut, halive, h.leases] using hcheck
    | deleteRange d => exact hcheck
  upright := hop.upright
  accepts := by
    intro w hw
    rw [← h.writes_eq] at hw
    have halive : aliveIn s.keyspace.keys w.key = aliveIn t.keyspace.keys w.key :=
      h.alive w.key (rev_covers hw).2
    exact (Keyspace.accepts_congr halive).mp (hop.accepts w hw)

end WriteOp

/-! ### One op -/

/-- The revision that the next write op is given. -/
def TxnCursor.revAt (c : TxnCursor) (s : StoreState) : UInt64 := c.rev.getD s.nextRev

/-- The store once that revision is taken. -/
def TxnCursor.taken (c : TxnCursor) (s : StoreState) : StoreState :=
  if c.rev.isSome then s else { s with nextRev := s.nextRev + 1 }

theorem exec_getRev_eq (c : TxnCursor) (s : StoreState) :
    exec c.getRev s
      = (.ok (c.revAt s, { c with rev := some (c.revAt s) }), c.taken s) := by
  unfold TxnCursor.getRev TxnCursor.revAt TxnCursor.taken
  cases hc : c.rev with
  | none => rfl
  | some rev =>
      obtain ⟨_, deferred⟩ := c
      cases hc
      rfl

theorem TxnCursor.keyspace_taken (c : TxnCursor) (s : StoreState) :
    (c.taken s).keyspace = s.keyspace ∧ (c.taken s).leases = s.leases ∧
      (c.taken s).wal = s.wal := by
  unfold TxnCursor.taken
  split <;> exact ⟨rfl, rfl, rfl⟩

/-- Taking the revision does not change what an op finds. -/
theorem WriteOp.agree_taken (op : WriteOp) (c : TxnCursor) (s : StoreState) :
    op.Agree s (c.taken s) := by
  obtain ⟨hkeyspace, hleases, -⟩ := c.keyspace_taken s
  have hkeys : (c.taken s).keys = s.keys := congrArg Keyspace.keys hkeyspace
  refine ⟨hleases.symm, ?_⟩
  intro key _
  rw [StoreState.alive?, StoreState.alive?, hkeys]

section

variable [Crates]

omit [Crates] in
theorem exec_writeOp {α β : Type} (c : TxnCursor) (x : UInt64 → StoreM α) (g : α → β)
    {s t : StoreState} {b : β} {c' : TxnCursor} :
    exec (writeOp c x g) s = (.ok (b, c'), t) ↔ c' = { c with rev := some (c.revAt s) } ∧
      ∃ a, exec (x (c.revAt s)) (c.taken s) = (.ok a, t) ∧ b = g a := by
  unfold writeOp
  rw [Prog.exec_bind, exec_getRev_eq]
  simp only [Prog.exec_bind_eq_ok, Prog.exec_pure, Prod.mk.injEq, Except.ok.injEq]
  constructor
  · intro h
    obtain ⟨a, s₁, hx, ⟨rfl, rfl⟩, rfl⟩ := h
    exact ⟨rfl, a, hx, rfl⟩
  · intro h
    obtain ⟨rfl, a, hx, rfl⟩ := h
    exact ⟨a, t, hx, ⟨rfl, rfl⟩, rfl⟩

omit [Crates] in
theorem exec_appendKv {s : StoreState} (hs : s.wal.faults = []) (rec : KvWalRecord) (e : Failure) :
    ∃ w, exec (appendKv rec e) s = (.ok (), { s with wal := w }) := by
  unfold appendKv
  rw [Prog.exec_bind, Prog.exec_modifyGet]
  rcases happend : s.wal.appendKv rec with ⟨ok, w⟩
  cases ok with
  | true => exact ⟨w, rfl⟩
  | false => exact absurd hs (appendKv_fails happend)

omit [Crates] in
theorem exec_appendKvBatch {s : StoreState} (hs : s.wal.faults = []) (recs : List KvWalRecord)
    (e : Failure) : ∃ w, exec (appendKvBatch recs e) s = (.ok (), { s with wal := w }) := by
  unfold appendKvBatch
  rw [Prog.exec_bind, Prog.exec_modifyGet]
  rcases happend : s.wal.appendKvBatch recs with ⟨ok, w⟩
  cases ok with
  | true => exact ⟨w, rfl⟩
  | false => exact absurd hs (appendKvBatch_fails happend)

/-- A put that passes `validate_put` is carried out. -/
theorem exec_putAt {s : StoreState} (hs : s.wal.faults = []) {p : PutRequest}
    (h : validatePut p s = .ok ()) (rev : UInt64) : ∃ r t, exec (putAt p rev) s = (.ok r, t) := by
  have hchecks : ¬((p.ignoreValue ∨ p.ignoreLease) ∧ s.alive? p.key = none) ∧
      ¬(putLease p (s.alive? p.key) ≠ 0 ∧ !s.leases.contains (putLease p (s.alive? p.key))) := by
    unfold validatePut checkKey at h
    by_cases hkey : p.key = []
    · rw [if_pos hkey] at h
      cases h
    · rw [if_neg hkey] at h
      dsimp only at h
      split_ifs at h <;> first
        | exact ⟨‹¬(_ ∧ s.alive? p.key = none)›, ‹¬(putLease p _ ≠ 0 ∧ _)›⟩
        | cases h
  obtain ⟨w, hw⟩ := exec_appendKv hs
    (putRecord p.key (putValue p (s.alive? p.key)) (putLease p (s.alive? p.key)) rev
      (s.alive? p.key)) walWriteFailed
  unfold putAt
  rw [Prog.exec_bind, Prog.exec_get]
  dsimp only
  rw [if_neg hchecks.1, if_neg hchecks.2, Prog.exec_bind, hw]
  exact ⟨_, _, rfl⟩

omit [Crates] in
theorem key_of_mem_deletes {s : StoreState} {keys : List Bytes} {rev : UInt64} {w : Write}
    (h : w ∈ s.deletes keys rev) : w.key ∈ keys := by
  simp only [StoreState.deletes, List.mem_filterMap, Option.map_eq_some_iff] at h
  obtain ⟨key, hkey, prev, -, rfl⟩ := h
  exact hkey

omit [Crates] in
/-- Deletions that can patch every blob they meet are carried out. -/
theorem exec_applyDeletes {keys : List Bytes} (hnodup : keys.Nodup) (rev : UInt64) :
    ∀ {s : StoreState}, (∀ w ∈ s.deletes keys rev, s.keyspace.Accepts w) →
      ∃ t, exec (applyDeletes keys rev) s = (.ok (), t) := by
  induction keys with
  | nil =>
      intro s _
      exact ⟨s, rfl⟩
  | cons key keys ih =>
      intro s h
      obtain ⟨hkey, hkeys⟩ := List.nodup_cons.mp hnodup
      rw [applyDeletes_cons, Prog.exec_bind]
      cases halive : s.alive? key with
      | none =>
          rw [applyDelete_of_not_alive halive rev]
          exact ih hkeys fun w hw => h w (by simpa [StoreState.deletes, halive] using hw)
      | some prev =>
          have hfirst : s.deletes (key :: keys) rev
              = .delete key rev prev :: s.deletes keys rev := by
            simp [StoreState.deletes, halive]
          rw [hfirst] at h
          obtain ⟨blob, hblob⟩ := Option.isSome_iff_exists.mp (h _ List.mem_cons_self).2
          rw [applyDelete_of_alive halive hblob]
          refine ih hkeys ?_
          intro w hw
          rw [deletes_of_keys_eq hkey rfl] at hw
          have hne : w.key ≠ key := by
            intro heq
            exact hkey (heq ▸ key_of_mem_deletes hw)
          exact (Keyspace.accepts_congr (aliveIn_insert_of_ne (Ne.symm hne)).symm).mp
            (h w (List.mem_cons_of_mem _ hw))

/-- A delete whose range is not inverted, and that can patch what it deletes, is carried out. -/
theorem exec_deleteRangeAt {s : StoreState} (hs : s.wal.faults = []) {d : DeleteRangeRequest}
    {rev : UInt64} (hinv : (resolveRange d.key d.rangeEnd).inverted = false)
    (h : ∀ w ∈ s.deleteWrites d rev, s.keyspace.Accepts w) :
    ∃ r t, exec (deleteRangeAt d rev) s = (.ok r, t) := by
  obtain ⟨keys, hkeys⟩ := keysToDelete_of_upright s hinv
  rw [StoreState.deleteWrites, hkeys] at h
  obtain ⟨w, hw⟩ := exec_appendKvBatch hs (s.deleteRecords keys rev) walWriteFailed
  obtain ⟨t, ht⟩ := exec_applyDeletes (nodup_keysToDelete hkeys) rev (s := { s with wal := w }) h
  unfold deleteRangeAt
  rw [Prog.exec_bind, exec_read, hkeys]
  dsimp only
  rw [Prog.exec_bind, Prog.exec_get]
  dsimp only
  rw [Prog.exec_bind, hw]
  dsimp only
  rw [Prog.exec_bind, ht]
  exact ⟨_, _, rfl⟩

namespace WriteOp

variable {s t : StoreState} {op : WriteOp} {path : List Nat} {depth : Nat} {c c' : TxnCursor}
  {r : ResponseOp}

/-- **An op that succeeds was ready**, and has made its writes at the transaction's revision. -/
theorem ready_of_exec (h : exec (applyTxnOp path depth c op.toRequestOp) s = (.ok (r, c'), t)) :
    op.Ready s (c.revAt s) ∧ c' = { c with rev := some (c.revAt s) } ∧
      Effect (c.taken s) (op.writes s (c.revAt s)) t := by
  have hagree := op.agree_taken c s
  have hkeyspace := (c.keyspace_taken s).1
  cases op with
  | put p =>
      rw [toRequestOp, applyTxnOp, Prog.exec_bind, exec_read] at h
      cases hvalid : validatePut p s with
      | error e =>
          rw [hvalid] at h
          cases h
      | ok _ =>
          rw [hvalid] at h
          obtain ⟨hc, a, hput, -⟩ := (exec_writeOp c (putAt p) ResponseOp.put).mp h
          have heffect := ((putAt_spec p _ (c.taken s)).of_ok hput).1 a rfl
          refine ⟨⟨hvalid, by simp, ?_⟩, hc, ?_⟩
          · intro w hw
            obtain rfl := List.mem_singleton.mp hw
            rfl
          · rw [hagree.writes_eq]
            exact heffect
  | deleteRange d =>
      rw [toRequestOp, applyTxnOp, Prog.exec_bind, exec_read] at h
      cases hkey : checkKey d.key with
      | error e =>
          rw [hkey] at h
          cases h
      | ok _ =>
          rw [hkey] at h
          obtain ⟨hc, a, hdelete, -⟩ :=
            (exec_writeOp c (deleteRangeAt d) ResponseOp.deleteRange).mp h
          have heffect := ((deleteRangeAt_spec d _ (c.taken s)).of_ok hdelete).1 a rfl
          have hwrites : (WriteOp.deleteRange d).writes s (c.revAt s)
              = (c.taken s).deleteWrites d (c.revAt s) := hagree.writes_eq _
          refine ⟨⟨hkey, ?_, ?_⟩, hc, by rw [hwrites]; exact heffect⟩
          · intro d' hd'
            cases hd'
            by_contra hinv
            have hpanic := (keysToDelete_eq_rangePanic (c.taken s) _).mpr (by simpa using hinv)
            rw [deleteRangeAt, Prog.exec_bind, exec_read, hpanic] at hdelete
            cases hdelete
          · rw [hwrites, ← hkeyspace]
            exact heffect.run.accepts (deleteWrites_keys (c.taken s) d _).1

/-- **An op that is ready succeeds.** -/
theorem Ready.exec (hs : s.wal.faults = []) (h : op.Ready s (c.revAt s)) (path : List Nat)
    (depth : Nat) :
    ∃ r t, Prog.exec (applyTxnOp path depth c op.toRequestOp) s
      = (.ok (r, { c with rev := some (c.revAt s) }), t) := by
  obtain ⟨-, -, hwal⟩ := c.keyspace_taken s
  have hfaults : (c.taken s).wal.faults = [] := by rw [hwal, hs]
  have htaken := h.agree (op.agree_taken c s)
  cases op with
  | put p =>
      obtain ⟨a, t, hput⟩ := exec_putAt hfaults htaken.check (c.revAt s)
      refine ⟨.put a, t, ?_⟩
      rw [toRequestOp, applyTxnOp, Prog.exec_bind, exec_read,
        show validatePut p s = .ok () from h.check]
      exact (exec_writeOp c (putAt p) ResponseOp.put).mpr ⟨rfl, a, hput, rfl⟩
  | deleteRange d =>
      obtain ⟨a, t, hdelete⟩ := exec_deleteRangeAt hfaults (htaken.upright d rfl) htaken.accepts
      refine ⟨.deleteRange a, t, ?_⟩
      rw [toRequestOp, applyTxnOp, Prog.exec_bind, exec_read,
        show checkKey d.key = .ok () from h.check]
      exact (exec_writeOp c (deleteRangeAt d) ResponseOp.deleteRange).mpr ⟨rfl, a, hdelete, rfl⟩

end WriteOp

/-! ### A list of ops -/

omit [Crates] in
/-- No key is in the range of both. -/
def WriteOp.Disjoint (a b : WriteOp) : Prop :=
  ∀ key, ¬(a.covers key = true ∧ b.covers key = true)

/-- What an op writes does not change what a disjoint one finds. -/
theorem WriteOp.Disjoint.agree {a b : WriteOp} (h : a.Disjoint b) {c : TxnCursor}
    {s t : StoreState} {rev : UInt64} (heffect : Effect (c.taken s) (a.writes s rev) t) :
    b.Agree s t := by
  have htaken := b.agree_taken c s
  refine ⟨htaken.leases.trans heffect.leases.symm, ?_⟩
  intro key hkey
  refine (htaken.alive key hkey).trans (heffect.alive?_of_not_mem ?_).symm
  intro hmem
  obtain ⟨w, hw, rfl⟩ := List.mem_map.mp hmem
  exact h w.key ⟨(WriteOp.rev_covers hw).2, hkey⟩

omit [Crates] in
/-- The ops have made the writes that they would each have made in `s`, all at the revision that was
taken. The writes are those of the state at the beginning, not of the states in between. -/
structure Wrote (c : TxnCursor) (s : StoreState) (ops : List WriteOp) (c' : TxnCursor)
    (t : StoreState) : Prop where
  ready : ∀ op ∈ ops, op.Ready s (c.revAt s)
  run : Keyspace.Run s.keyspace (ops.flatMap (·.writes s (c.revAt s))) t.keyspace
  leases : t.leases = s.leases
  nextRev : t.nextRev = if ops = [] then s.nextRev else (c.taken s).nextRev
  deferred : c'.deferred = c.deferred

/-- **Disjoint ops that succeed were all ready**, and have made their writes. By induction on the
list: the writes of the first op are out of the way of the others. -/
theorem wrote_of_exec {ops : List WriteOp} (hdisjoint : ops.Pairwise WriteOp.Disjoint) :
    ∀ {path : List Nat} {i depth : Nat} {c c' : TxnCursor} {s t : StoreState}
      {rs : List ResponseOp},
      exec (applyTxnOps path i depth c (ops.map WriteOp.toRequestOp)) s = (.ok (rs, c'), t) →
        Wrote c s ops c' t := by
  induction ops with
  | nil =>
      intro path i depth c c' s t rs h
      cases h
      exact ⟨by simp, .nil, rfl, rfl, rfl⟩
  | cons op ops ih =>
      intro path i depth c c' s t rs h
      obtain ⟨hop, hops⟩ := List.pairwise_cons.mp hdisjoint
      rw [List.map_cons, applyTxnOps] at h
      obtain ⟨⟨r, c₁⟩, t₁, hfirst, h⟩ := Prog.exec_bind_eq_ok.mp h
      obtain ⟨⟨rs', c₂⟩, t₂, hrest, h⟩ := Prog.exec_bind_eq_ok.mp h
      cases h
      obtain ⟨hready, rfl, heffect⟩ := WriteOp.ready_of_exec hfirst
      -- the first op touches no key of the others, so they write what they would have written
      have hagree : ∀ op' ∈ ops, op'.Agree s t₁ := fun op' hop' => (hop op' hop').agree heffect
      obtain ⟨hkeyspace, hleases, -⟩ := c.keyspace_taken s
      have hwrote := ih hops hrest
      have hwrites : ops.flatMap (·.writes t₁ (c.revAt s)) = ops.flatMap (·.writes s (c.revAt s)) :=
        List.flatMap_congr fun op' hop' => ((hagree op' hop').writes_eq _).symm
      refine ⟨?_, ?_, ?_, ?_, hwrote.deferred⟩
      · intro op' hop'
        rcases List.mem_cons.mp hop' with rfl | hop'
        · exact hready
        · have hsymm : op'.Agree t₁ s :=
            ⟨(hagree op' hop').leases.symm, fun key hkey => ((hagree op' hop').alive key hkey).symm⟩
          exact (hwrote.ready op' hop').agree hsymm
      · rw [List.flatMap_cons, ← hwrites, ← hkeyspace]
        exact heffect.run.append hwrote.run
      · rw [hwrote.leases, heffect.leases, hleases]
      · rw [hwrote.nextRev, if_neg (List.cons_ne_nil _ _), ← heffect.nextRev]
        split <;> rfl

/-- **Disjoint ops that are all ready succeed.** By induction on the list as well; what was ready at
the beginning is ready when its turn comes. -/
theorem exec_of_ready {ops : List WriteOp} (hdisjoint : ops.Pairwise WriteOp.Disjoint) :
    ∀ (path : List Nat) (i depth : Nat) {c : TxnCursor} {s : StoreState}, s.wal.faults = [] →
      (∀ op ∈ ops, op.Ready s (c.revAt s)) → ∃ rs c' t,
        exec (applyTxnOps path i depth c (ops.map WriteOp.toRequestOp)) s = (.ok (rs, c'), t) := by
  induction ops with
  | nil =>
      intro path i depth c s _ _
      exact ⟨[], c, s, rfl⟩
  | cons op ops ih =>
      intro path i depth c s hs hready
      obtain ⟨hop, hops⟩ := List.pairwise_cons.mp hdisjoint
      obtain ⟨r, t₁, hfirst⟩ :=
        (hready op List.mem_cons_self).exec hs (path ++ [i]) depth
      obtain ⟨-, -, heffect⟩ := WriteOp.ready_of_exec hfirst
      obtain ⟨-, -, hwal⟩ := c.keyspace_taken s
      obtain ⟨rs, c₂, t₂, hrest⟩ := ih hops path (i + 1) depth
        (c := { c with rev := some (c.revAt s) }) (heffect.faults (by rw [hwal, hs])) (by
          intro op' hop'
          exact (hready op' (List.mem_cons_of_mem _ hop')).agree ((hop op' hop').agree heffect))
      refine ⟨r :: rs, c₂, t₂, ?_⟩
      rw [List.map_cons, applyTxnOps]
      exact Prog.exec_bind_eq_ok.mpr ⟨_, t₁, hfirst, Prog.exec_bind_eq_ok.mpr ⟨_, t₂, hrest, rfl⟩⟩

end

end Rudurru
