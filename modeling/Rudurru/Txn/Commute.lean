import Rudurru.Representation
import Rudurru.Txn.Overlap
import Rudurru.Txn.Ready

/-!
# Rudurru.Txn.Commute

Whether the order of the puts and deletes of a transaction matters. The check leaves no two of them
a common key, so in any order each makes the same writes, and writes to distinct keys lead to the
same map (`txn_perm`). The count of alive keys is another matter: it stops at zero, so it depends on
the order where it starts below the number of keys deleted (`txn_order_irrelevant`).

An op depends on the leases and on the entries it covers. Ops that cover no common key find the same
in whatever order they run, so each of them makes the writes that it would make alone (`Txn.Ready`);
and writes to distinct keys can be exchanged one pair at a time (`keys_foldl_perm`). What is left to
compare is the count of alive keys, which the code subtracts from with saturation.
-/

namespace Rudurru

open Std (ExtTreeMap)
open Prog (exec)

/-! ### Writes to distinct keys -/

namespace Write

/-- What a write makes of the count of alive keys, if it meets the entry it names. -/
def tally (n : Nat) : Write → Nat
  | put _ _ _ _ none => n + 1
  | put _ _ _ _ (some _) => n
  | delete _ _ _ => n - 1

/-- Does the write add a key? -/
def creates : Write → Bool
  | put _ _ _ _ none => true
  | put _ _ _ _ (some _) | delete _ _ _ => false

/-- Does the write remove a key? -/
def deletes : Write → Bool
  | delete _ _ _ => true
  | put _ _ _ _ _ => false

/-- While the count covers the deletions, the order does not matter to it. -/
theorem foldl_tally_of_le {ws : List Write} : ∀ {n : Nat}, ws.countP deletes ≤ n →
    ws.foldl tally n + ws.countP deletes = n + ws.countP creates := by
  induction ws with
  | nil =>
      intro n _
      rfl
  | cons w ws ih =>
      intro n h
      rw [List.countP_cons] at h
      rw [List.foldl_cons, List.countP_cons, List.countP_cons]
      match w with
      | put _ _ _ _ none =>
          have hrest := @ih (n + 1) (by simp [deletes] at h; omega)
          simp only [tally, creates, deletes, if_true, Bool.false_eq_true, if_false]
          omega
      | put _ _ _ _ (some _) =>
          have hrest := @ih n (by simpa [deletes] using h)
          simp only [tally, creates, deletes, Bool.false_eq_true, if_false]
          omega
      | delete _ _ _ =>
          simp only [deletes, if_true] at h
          have hrest := @ih (n - 1) (by omega)
          simp only [tally, creates, deletes, if_true, Bool.false_eq_true, if_false]
          omega

/-- Deletions alone lower the count as far as it goes. -/
theorem foldl_tally_of_no_creates {ws : List Write} : ∀ {n : Nat}, ws.countP creates = 0 →
    ws.foldl tally n = n - ws.countP deletes := by
  induction ws with
  | nil =>
      intro n _
      rfl
  | cons w ws ih =>
      intro n h
      rw [List.countP_cons] at h
      rw [List.foldl_cons, List.countP_cons]
      match w with
      | put _ _ _ _ none => simp [creates] at h
      | put _ _ _ _ (some _) =>
          rw [ih (by simpa [creates] using h)]
          rfl
      | delete _ _ _ =>
          rw [ih (by simpa [creates] using h)]
          simp only [tally, deletes, if_true]
          omega

/-- The count is the same in any order, if it covers the deletions or nothing is added. -/
theorem foldl_tally_perm {ws vs : List Write} (h : ws.Perm vs) {n : Nat}
    (hn : ws.countP deletes ≤ n ∨ ws.countP creates = 0) :
    ws.foldl tally n = vs.foldl tally n := by
  have hdeletes := h.countP_eq deletes
  have hcreates := h.countP_eq creates
  rcases hn with hle | hzero
  · have hws := foldl_tally_of_le hle
    have hvs := @foldl_tally_of_le vs n (by omega)
    omega
  · rw [foldl_tally_of_no_creates hzero, foldl_tally_of_no_creates (by omega), hdeletes]

/-- Otherwise it differs between puts before deletions and puts after them. -/
theorem suffices_of_foldl_tally {ws vs : List Write} {n : Nat} (hws : ws.countP deletes = 0)
    (hvs : vs.countP creates = 0) (h : (ws ++ vs).foldl tally n = (vs ++ ws).foldl tally n) :
    vs.countP deletes ≤ n ∨ ws.countP creates = 0 := by
  have hputs := @foldl_tally_of_le ws n (by omega)
  have hputs' := @foldl_tally_of_le ws (n - vs.countP deletes) (by omega)
  rw [List.foldl_append, List.foldl_append, foldl_tally_of_no_creates hvs,
    foldl_tally_of_no_creates hvs] at h
  omega

end Write

namespace Keyspace

theorem keyCount_apply {K : Keyspace} {w : Write} (h : K.Accepts w) :
    (K.apply w).keyCount = Write.tally K.keyCount w := by
  cases w with
  | put key value lease rev prev =>
      obtain rfl : aliveIn K.keys key = prev := h
      cases halive : aliveIn K.keys key <;> simp [apply, Write.tally, halive]
  | delete key rev prev => rfl

/-- Along a run the count goes by what the writes add and remove. -/
theorem Run.keyCount_eq {K K' : Keyspace} {ws : List Write} (h : Run K ws K') :
    K'.keyCount = ws.foldl Write.tally K.keyCount := by
  induction h with
  | nil => rfl
  | cons hw _ ih => rw [List.foldl_cons, ih, keyCount_apply hw]

/-- What a write leaves at its key depends on what was there. -/
theorem getElem?_apply_self_congr {K K' : Keyspace} {w : Write}
    (h : K.keys[w.key]? = K'.keys[w.key]?) :
    (K.apply w).keys[w.key]? = (K'.apply w).keys[w.key]? := by
  cases w with
  | put key value lease rev prev =>
      have hkey : K.keys[key]? = K'.keys[key]? := h
      simp only [Write.key, apply, putEntry, aliveIn, hkey, ExtTreeMap.getElem?_insert_self]
  | delete key rev prev =>
      simp only [Write.key, apply, ExtTreeMap.getElem?_insert_self]

/-- Writes to different keys can be swapped. -/
theorem keys_apply_comm (K : Keyspace) {w v : Write} (h : w.key ≠ v.key) :
    ((K.apply w).apply v).keys = ((K.apply v).apply w).keys := by
  refine ExtTreeMap.ext_getElem? fun key => ?_
  by_cases hw : w.key = key
  · subst hw
    rw [getElem?_apply_of_ne (Ne.symm h)]
    exact getElem?_apply_self_congr (getElem?_apply_of_ne (Ne.symm h)).symm
  by_cases hv : v.key = key
  · subst hv
    rw [getElem?_apply_of_ne (K := K.apply v) h]
    exact getElem?_apply_self_congr (getElem?_apply_of_ne h)
  · rw [getElem?_apply_of_ne hv, getElem?_apply_of_ne hw, getElem?_apply_of_ne hw,
      getElem?_apply_of_ne hv]

/-- The map that a write leaves, from the map it meets. -/
def applyKeys (keys : ExtTreeMap Bytes KeyState) (w : Write) : ExtTreeMap Bytes KeyState :=
  (Keyspace.apply ⟨keys, 0⟩ w).keys

theorem keys_apply (K : Keyspace) (w : Write) : (K.apply w).keys = applyKeys K.keys w := by
  cases w <;> rfl

theorem keys_foldl_apply (ws : List Write) (K : Keyspace) :
    (ws.foldl apply K).keys = ws.foldl applyKeys K.keys := by
  induction ws generalizing K with
  | nil => rfl
  | cons w ws ih =>
      rw [List.foldl_cons, List.foldl_cons, ih, keys_apply]

/-- **Writes to distinct keys lead to the same map in any order.** By induction on the permutation;
two neighbours can be exchanged because their keys differ. -/
theorem keys_foldl_perm {ws vs : List Write} (h : ws.Perm vs) (hnodup : (ws.map Write.key).Nodup)
    (K : Keyspace) : (ws.foldl apply K).keys = (vs.foldl apply K).keys := by
  rw [keys_foldl_apply, keys_foldl_apply]
  refine h.foldl_eq' ?_ K.keys
  intro w hw v hv keys
  by_cases hkey : w.key = v.key
  · rw [List.inj_on_of_nodup_map hnodup hw hv hkey]
  · simpa only [keys_apply] using keys_apply_comm ⟨keys, 0⟩ hkey

end Keyspace

/-! ### Orders of a transaction -/

section

variable [Crates]

omit [Crates] in
/-- A transaction of puts and deletes, without compares. -/
def writesRequest (ops failure : List WriteOp) : TxnRequest :=
  { success := ops.map WriteOp.toRequestOp, failure := failure.map WriteOp.toRequestOp }

omit [Crates] in
theorem flat_of_check {ops : List WriteOp} : ∀ {intervals : List (Bytes × Option Bytes)},
    checkTxnOps (ops.map WriteOp.toRequestOp) = .ok intervals →
      ∀ op ∈ ops.map WriteOp.toRequestOp, op.Flat := by
  have hkey : ∀ {key : Bytes} {a : Unit}, checkKey key = .ok a → key ≠ [] := by
    intro key a h hnil
    rw [checkKey, if_pos hnil] at h
    cases h
  induction ops with
  | nil => simp
  | cons op ops ih =>
      intro intervals h
      rw [List.map_cons] at h ⊢
      obtain ⟨is, is', hop, hops, -⟩ := checkTxnOps_cons h
      intro op' hop'
      rcases List.mem_cons.mp hop' with rfl | hop'
      · cases op with
        | put p =>
            rw [WriteOp.toRequestOp, checkTxnOp] at hop
            obtain ⟨_, hcheck, -⟩ := Prog.bind_eq_ok.mp hop
            exact hkey hcheck
        | deleteRange d =>
            rw [WriteOp.toRequestOp, checkTxnOp] at hop
            obtain ⟨_, hcheck, -⟩ := Prog.bind_eq_ok.mp hop
            exact hkey hcheck
      · exact ih hops op' hop'

omit [Crates] in
/-- The check on a branch of puts and deletes. -/
theorem checkTxnBranch_writes {ops : List WriteOp} :
    checkTxnBranch (ops.map WriteOp.toRequestOp) = .ok () ↔
      (∀ op ∈ ops.map WriteOp.toRequestOp, op.Flat) ∧
        ops.Pairwise fun a b => intervalsOverlap a.interval b.interval = false := by
  have hintervals : (ops.map WriteOp.toRequestOp).flatMap RequestOp.intervals
      = ops.map WriteOp.interval := by
    induction ops with
    | nil => rfl
    | cons op ops ih =>
        rw [List.map_cons, List.flatMap_cons, ih]
        cases op <;> rfl
  constructor
  · intro h
    obtain ⟨is, hops, hno⟩ := Prog.bind_eq_ok.mp h
    have hflat := flat_of_check hops
    rw [checkTxnOps_flat hflat, hintervals] at hops
    cases hops
    exact ⟨hflat, List.pairwise_map.mp (anyOverlap_eq_false.mp (checkIntervals_eq_ok hno))⟩
  · intro h
    obtain ⟨hflat, hno⟩ := h
    rw [checkTxnBranch, checkTxnOps_flat hflat, hintervals]
    exact if_neg (by rw [anyOverlap_eq_false.mpr (List.pairwise_map.mpr hno)]; simp)

omit [Crates] in
/-- The check does not depend on the order. -/
theorem checkTxnBranch_perm {ops ops' : List WriteOp} (h : ops'.Perm ops)
    (hcheck : checkTxnBranch (ops.map WriteOp.toRequestOp) = .ok ()) :
    checkTxnBranch (ops'.map WriteOp.toRequestOp) = .ok () := by
  obtain ⟨hflat, hno⟩ := checkTxnBranch_writes.mp hcheck
  refine checkTxnBranch_writes.mpr ⟨fun op hop => hflat op ((h.map _).subset hop), ?_⟩
  refine (h.pairwise_iff ?_).mpr hno
  intro a b hab
  rw [← hab]
  simp only [intervalsOverlap]
  ac_rfl

omit [Crates] in
/-- The check leaves no two ops a common key. -/
theorem disjoint_of_check {ops : List WriteOp}
    (h : checkTxnBranch (ops.map WriteOp.toRequestOp) = .ok ()) :
    ops.Pairwise WriteOp.Disjoint := by
  refine (checkTxnBranch_writes.mp h).2.imp ?_
  intro a b hno key hkey
  have hoverlap := intervalsOverlap_of_common (WriteOp.inInterval_of_covers hkey.1)
    (WriteOp.inInterval_of_covers hkey.2)
  rw [hno] at hoverlap
  cases hoverlap

/-- A transaction that succeeds has carried out its ops. -/
theorem wrote_of_txn {s t : StoreState} {ops failure : List WriteOp} {resp : TxnResponse}
    (h : exec (txn (writesRequest ops failure)) s = (.ok resp, t)) :
    checkTxnDuplicateKeys (writesRequest ops failure) = .ok () ∧ ∃ c, Wrote {} s ops c t := by
  have hcheck := check_of_txn h
  refine ⟨hcheck, ?_⟩
  obtain ⟨_, hsuccess, -⟩ := Prog.bind_eq_ok.mp hcheck
  rw [txn, Prog.exec_bind, exec_read, hcheck] at h
  obtain ⟨⟨resp', deferred⟩, t₁, hlocked, h⟩ := Prog.exec_bind_eq_ok.mp h
  rw [txnLocked, Prog.exec_bind, Prog.exec_get] at hlocked
  obtain ⟨⟨rs, c⟩, t₂, hops, hlocked⟩ := Prog.exec_bind_eq_ok.mp hlocked
  cases hlocked
  have hwrote := wrote_of_exec (disjoint_of_check hsuccess) hops
  rw [hwrote.deferred] at h
  cases h
  exact ⟨c, hwrote⟩

/-- A transaction whose ops are ready succeeds. -/
theorem exec_txn_of_ready {s : StoreState} {ops failure : List WriteOp} (hs : s.wal.faults = [])
    (hcheck : checkTxnDuplicateKeys (writesRequest ops failure) = .ok ())
    (hready : ∀ op ∈ ops, op.Ready s s.nextRev) :
    ∃ resp t, exec (txn (writesRequest ops failure)) s = (.ok resp, t) := by
  obtain ⟨_, hsuccess, -⟩ := Prog.bind_eq_ok.mp hcheck
  have hdisjoint := disjoint_of_check hsuccess
  obtain ⟨rs, c, t, hops⟩ := exec_of_ready hdisjoint [] 0 0 (c := {}) hs hready
  have hwrote := wrote_of_exec hdisjoint hops
  refine ⟨⟨t.header, true, rs⟩, t, ?_⟩
  rw [txn, Prog.exec_bind, exec_read, hcheck]
  refine Prog.exec_bind_eq_ok.mpr ⟨(⟨t.header, true, rs⟩, []), t, ?_, rfl⟩
  rw [txnLocked, Prog.exec_bind, Prog.exec_get]
  refine Prog.exec_bind_eq_ok.mpr ⟨(rs, c), t, hops, ?_⟩
  rw [Prog.exec_bind, Prog.exec_get]
  simp [writesRequest, hwrote.deferred]

/-! ### The count of alive keys -/

namespace WriteOp

def isPut : WriteOp → Bool
  | .put _ => true
  | .deleteRange _ => false

/-- How many keys the op adds. -/
def creations (s : StoreState) : WriteOp → Nat
  | .put p => if (s.alive? p.key).isNone then 1 else 0
  | .deleteRange _ => 0

/-- How many keys the op deletes. -/
def deletions (s : StoreState) : WriteOp → Nat
  | .put _ => 0
  | .deleteRange d =>
      match s.keysToDelete (resolveRange d.key d.rangeEnd) with
      | .ok keys => keys.length
      | .error _ => 0

omit [Crates] in
theorem countP_creates (s : StoreState) (rev : UInt64) (op : WriteOp) :
    (op.writes s rev).countP Write.creates = op.creations s := by
  cases op with
  | put p =>
      rw [writes, StoreState.putWrite, creations]
      cases s.alive? p.key <;> rfl
  | deleteRange d =>
      refine List.countP_eq_zero.mpr ?_
      intro w hw
      obtain ⟨key, prev, rfl⟩ := eq_delete_of_mem_deleteWrites hw
      exact Bool.false_ne_true

omit [Crates] in
theorem countP_deletes (s : StoreState) (rev : UInt64) (op : WriteOp) :
    (op.writes s rev).countP Write.deletes = op.deletions s := by
  cases op with
  | put p => rfl
  | deleteRange d =>
      have hall : (s.deleteWrites d rev).countP Write.deletes = (s.deleteWrites d rev).length := by
        refine List.countP_eq_length.mpr ?_
        intro w hw
        obtain ⟨key, prev, rfl⟩ := eq_delete_of_mem_deleteWrites hw
        rfl
      rw [writes, hall, deletions, ← List.length_map (f := Write.key), StoreState.deleteWrites]
      cases hkeys : s.keysToDelete (resolveRange d.key d.rangeEnd) with
      | error e => rfl
      | ok keys =>
          exact congrArg List.length
            (map_key_deletes rev fun key hkey => ((mem_keysToDelete hkeys key).mp hkey).2)

end WriteOp

/-- `key_count` covers the keys that the ops delete, or they add none. -/
def StoreState.CountSuffices (s : StoreState) (ops : List WriteOp) : Prop :=
  (ops.map (·.deletions s)).sum ≤ s.keyCount ∨ (ops.map (·.creations s)).sum = 0

omit [Crates] in
theorem countP_flatMap_writes (s : StoreState) (rev : UInt64) (ops : List WriteOp) :
    (ops.flatMap (·.writes s rev)).countP Write.creates = (ops.map (·.creations s)).sum ∧
      (ops.flatMap (·.writes s rev)).countP Write.deletes = (ops.map (·.deletions s)).sum := by
  rw [List.countP_flatMap, List.countP_flatMap]
  constructor
  · exact congrArg List.sum (List.map_congr_left fun op _ => op.countP_creates s rev)
  · exact congrArg List.sum (List.map_congr_left fun op _ => op.countP_deletes s rev)

omit [Crates] in
/-- The writes of disjoint ops go to distinct keys. -/
theorem nodup_flatMap_writes {ops : List WriteOp} (h : ops.Pairwise WriteOp.Disjoint)
    (s : StoreState) (rev : UInt64) :
    ((ops.flatMap (·.writes s rev)).map Write.key).Nodup := by
  rw [List.map_flatMap, List.nodup_flatMap]
  constructor
  · intro op _
    cases op with
    | put p => exact List.nodup_singleton _
    | deleteRange d => exact (deleteWrites_keys s d rev).1
  · refine h.imp ?_
    intro a b hab key ha hb
    obtain ⟨w, hw, rfl⟩ := List.mem_map.mp ha
    obtain ⟨v, hv, heq⟩ := List.mem_map.mp hb
    have hcovers := (WriteOp.rev_covers hv).2
    rw [heq] at hcovers
    exact hab w.key ⟨(WriteOp.rev_covers hw).2, hcovers⟩

/-- **In any order the ops succeed**, with the same map, leases and revision; and the count goes by
their writes in that order. The ops are ready in the state at the beginning, in whatever order they
come. -/
theorem txn_perm {s t : StoreState} {ops failure ops' failure' : List WriteOp} {resp : TxnResponse}
    (hs : s.wal.faults = []) (h : exec (txn (writesRequest ops failure)) s = (.ok resp, t))
    (hops : ops'.Perm ops) (hfailure : failure'.Perm failure) :
    ∃ resp' t', exec (txn (writesRequest ops' failure')) s = (.ok resp', t') ∧ t'.keys = t.keys ∧
      t'.keyCount = (ops'.flatMap (·.writes s s.nextRev)).foldl Write.tally s.keyCount ∧
      t'.leases = t.leases ∧ t'.nextRev = t.nextRev := by
  obtain ⟨hcheck, c, hwrote⟩ := wrote_of_txn h
  obtain ⟨_, hsuccess, hother⟩ := Prog.bind_eq_ok.mp hcheck
  have hcheck' : checkTxnDuplicateKeys (writesRequest ops' failure') = .ok () :=
    Prog.bind_eq_ok.mpr
      ⟨(), checkTxnBranch_perm hops hsuccess, checkTxnBranch_perm hfailure hother⟩
  obtain ⟨resp', t', h'⟩ := exec_txn_of_ready hs hcheck'
    fun op hop => hwrote.ready op (hops.subset hop)
  obtain ⟨-, c', hwrote'⟩ := wrote_of_txn h'
  refine ⟨resp', t', h', ?_, hwrote'.run.keyCount_eq, ?_, ?_⟩
  · have hkeys := congrArg Keyspace.keys hwrote.run.eq_foldl
    have hkeys' := congrArg Keyspace.keys hwrote'.run.eq_foldl
    rw [StoreState.keyspace_keys] at hkeys hkeys'
    rw [hkeys, hkeys']
    exact Keyspace.keys_foldl_perm (hops.flatMap_right _)
      (nodup_flatMap_writes (disjoint_of_check (checkTxnBranch_perm hops hsuccess)) _ _) _
  · rw [hwrote.leases, hwrote'.leases]
  · rw [hwrote.nextRev, hwrote'.nextRev]
    exact if_congr ⟨fun hnil => (hnil ▸ hops).nil_eq.symm, fun hnil => (hnil ▸ hops).eq_nil⟩ rfl rfl

/-- **The order of a transaction's puts and deletes does not matter** to the map, the leases and the
revision; it does not matter to `key_count` exactly if that covers the deletions or nothing is
added. -/
theorem txn_order_irrelevant {s t : StoreState} {ops failure : List WriteOp} {resp : TxnResponse}
    (hs : s.wal.faults = []) (h : exec (txn (writesRequest ops failure)) s = (.ok resp, t)) :
    (∀ ops' failure', ops'.Perm ops → failure'.Perm failure →
      ∃ resp' t', exec (txn (writesRequest ops' failure')) s = (.ok resp', t') ∧
        t'.keys = t.keys ∧ t'.keyCount = t.keyCount ∧ t'.leases = t.leases ∧
        t'.nextRev = t.nextRev) ↔ s.CountSuffices ops := by
  obtain ⟨-, c, hwrote⟩ := wrote_of_txn h
  have hcount : t.keyCount = (ops.flatMap (·.writes s s.nextRev)).foldl Write.tally s.keyCount :=
    hwrote.run.keyCount_eq
  constructor
  · intro hall
    -- all puts first, and all deletes first
    have hperm : (ops.filter WriteOp.isPut ++ ops.filter fun op => !op.isPut).Perm ops :=
      List.filter_append_perm _ _
    have hsame : ∀ ops' : List WriteOp, ops'.Perm ops →
        (ops'.flatMap (·.writes s s.nextRev)).foldl Write.tally s.keyCount = t.keyCount := by
      intro ops' hops
      obtain ⟨resp₁, t₁, hexec, -, hcount₁, -⟩ := hall ops' failure hops (.refl _)
      obtain ⟨resp₂, t₂, hexec', -, hcount₂, -⟩ := txn_perm hs h hops (.refl failure)
      rw [hexec] at hexec'
      cases hexec'
      rw [← hcount₂, hcount₁]
    have horders := (hsame _ hperm).trans (hsame _ (List.perm_append_comm.trans hperm)).symm
    rw [List.flatMap_append, List.flatMap_append] at horders
    obtain ⟨hcreates, hdeletes⟩ := countP_flatMap_writes s s.nextRev (ops.filter WriteOp.isPut)
    obtain ⟨hcreates', hdeletes'⟩ :=
      countP_flatMap_writes s s.nextRev (ops.filter fun op => !op.isPut)
    have hputs : ((ops.filter WriteOp.isPut).map (·.deletions s)).sum = 0 := by
      refine List.sum_eq_zero fun n hn => ?_
      obtain ⟨op, hop, rfl⟩ := List.mem_map.mp hn
      cases op with
      | put p => rfl
      | deleteRange d => cases (List.mem_filter.mp hop).2
    have hrest : ((ops.filter fun op => !op.isPut).map (·.creations s)).sum = 0 := by
      refine List.sum_eq_zero fun n hn => ?_
      obtain ⟨op, hop, rfl⟩ := List.mem_map.mp hn
      cases op with
      | put p => cases (List.mem_filter.mp hop).2
      | deleteRange d => rfl
    have hsums := (hperm.map (·.creations s)).sum_eq
    have hsums' := (hperm.map (·.deletions s)).sum_eq
    rw [List.map_append, List.sum_append] at hsums hsums'
    rw [StoreState.CountSuffices, ← hsums, ← hsums', hputs, hrest, Nat.zero_add, Nat.add_zero,
      ← hcreates, ← hdeletes']
    exact Write.suffices_of_foldl_tally (by rw [hdeletes, hputs]) (by rw [hcreates', hrest]) horders
  · intro hsuffices ops' failure' hops hfailure
    obtain ⟨resp', t', hexec, hkeys, hcount', hrest⟩ := txn_perm hs h hops hfailure
    refine ⟨resp', t', hexec, hkeys, ?_, hrest⟩
    obtain ⟨hcreates, hdeletes⟩ := countP_flatMap_writes s s.nextRev ops
    rw [hcount', hcount]
    refine (Write.foldl_tally_perm (hops.symm.flatMap_right _) ?_).symm
    rwa [hcreates, hdeletes]

end

instance (K : Keyspace) (w : Write) : Decidable (K.Accepts w) :=
  match w with
  | .put _ _ _ _ _ => inferInstanceAs (Decidable (_ = _))
  | .delete _ _ _ => inferInstanceAs (Decidable (_ ∧ _))

/-- A put and a deletion of the one key there is, in either order. -/
theorem txn_order_irrelevant_put_delete :
    ∃ sys resp t, System.run ⟨fresh, none⟩ [.request (.put { key := [1] })] = some sys ∧
      exec (txn (writesRequest [.put { key := [2] }, .deleteRange { key := [1] }] [])) sys.store
        = (.ok resp, t) ∧
      ∃ resp' t',
        exec (txn (writesRequest [.deleteRange { key := [1] }, .put { key := [2] }] [])) sys.store
          = (.ok resp', t') ∧
        t'.keys = t.keys ∧ t'.keyCount = t.keyCount ∧ t'.leases = t.leases ∧
        t'.nextRev = t.nextRev := by
  have hrun : (System.run ⟨fresh, none⟩ [.request (.put { key := [1] })]).any (fun sys =>
      sys.store.wal.faults.isEmpty && decide (sys.store.keyCount = 1) &&
        decide ((WriteOp.deletions sys.store (.deleteRange { key := [1] })) ≤ 1) &&
        (exec (txn (writesRequest [.put { key := [2] }, .deleteRange { key := [1] }] []))
          sys.store).1.toOption.isSome) = true := by
    decide +kernel
  obtain ⟨sys, hsys, hfacts⟩ := (Option.any_eq_true _ _).mp hrun
  simp only [Bool.and_eq_true, decide_eq_true_eq, List.isEmpty_iff] at hfacts
  obtain ⟨⟨⟨hs, hcount⟩, hdel⟩, hok⟩ := hfacts
  obtain ⟨resp, hresp⟩ := Option.isSome_iff_exists.mp hok
  have hexec := Prod.ext (y := (Except.ok resp, _)) (Prog.ok_of_toOption hresp) rfl
  refine ⟨sys, resp, _, hsys, hexec, ?_⟩
  refine (txn_order_irrelevant hs hexec).mpr (.inl ?_) _ [] (.swap _ _ []) (.refl [])
  rw [hcount]
  simpa [WriteOp.deletions] using hdel

/-- Do the ops' writes, if made at a revision, meet what they name? -/
def acceptsAll (K : Keyspace) (rev : UInt64) (ops : List WriteOp) : Bool :=
  (ops.flatMap (·.writes (fresh.withKeyspace K) rev)).all fun w => decide (K.Accepts w)

/-- Puts without a lease, and deletes, are ready where their writes meet what they name. -/
theorem ready_of_acceptsAll {s : StoreState} {ops : List WriteOp}
    (h : acceptsAll s.keyspace s.nextRev ops = true)
    (hplain : ∀ op ∈ ops, op.check s = .ok () ∧
      ∀ d, op = .deleteRange d → (resolveRange d.key d.rangeEnd).inverted = false) :
    ∀ op ∈ ops, op.Ready s s.nextRev := by
  intro op hop
  refine ⟨(hplain op hop).1, (hplain op hop).2, ?_⟩
  intro w hw
  have hwrites : op.writes s s.nextRev
      = op.writes (fresh.withKeyspace s.keyspace) s.nextRev := WriteOp.writes_congr rfl _ op
  rw [hwrites] at hw
  exact of_decide_eq_true (List.all_eq_true.mp h w (List.mem_flatMap.mpr ⟨op, hop, hw⟩))

/-- After a restart on a forged record with the highest revision, a deletion at revision zero counts
a key out that lives on. Then two deletions meet a count of one, and a put before them makes a
difference. -/
theorem txn_order_changes_count :
    ∃ sys resp t resp' t', System.run ⟨fresh, none⟩ (forging (.new 0 [2] [] 1 (-1) 7 0) ++
        [.request (.txn (writesRequest [.deleteRange { key := [49] }] []))]) = some sys ∧
      exec (txn (writesRequest [.put { key := [3] }, .deleteRange { key := [49] },
        .deleteRange { key := [2] }] [])) sys.store = (.ok resp, t) ∧
      exec (txn (writesRequest [.deleteRange { key := [49] }, .deleteRange { key := [2] },
        .put { key := [3] }] [])) sys.store = (.ok resp', t') ∧
      t.keyCount = 0 ∧ t'.keyCount = 1 := by
  have hput : ∀ s : StoreState, (WriteOp.put { key := [3] }).check s = .ok () ∧
      ∀ d, WriteOp.put { key := [3] } = .deleteRange d →
        (resolveRange d.key d.rangeEnd).inverted = false := by
    intro s
    refine ⟨?_, nofun⟩
    simp [WriteOp.check, validatePut, checkKey, putLease]
  have hdelete : ∀ (s : StoreState) (b : UInt8),
      (WriteOp.deleteRange { key := [b] }).check s = .ok () ∧
      ∀ d, WriteOp.deleteRange { key := [b] } = .deleteRange d →
        (resolveRange d.key d.rangeEnd).inverted = false := by
    intro s b
    refine ⟨rfl, ?_⟩
    intro d hd
    cases hd
    rfl
  have hreplay : (Keyspace.empty.replayAll?
      (replayed (forgedLog (.new 0 [2] [] 1 (-1) 7 0)))).any (fun K =>
        acceptsAll K 0 [.deleteRange { key := [49] }] &&
        let K' := ((WriteOp.deleteRange { key := [49] }).writes (fresh.withKeyspace K) 0).foldl
          Keyspace.apply K
        acceptsAll K' 1
          [.put { key := [3] }, .deleteRange { key := [49] }, .deleteRange { key := [2] }] &&
        decide (([.put { key := [3] }, .deleteRange { key := [49] },
          .deleteRange { key := [2] }].flatMap
            (WriteOp.writes (fresh.withKeyspace K') 1)).foldl Write.tally K'.keyCount = 0) &&
        decide (([.deleteRange { key := [49] }, .deleteRange { key := [2] },
          .put { key := [3] }].flatMap
            (WriteOp.writes (fresh.withKeyspace K') 1)).foldl Write.tally K'.keyCount = 1))
      = true := by
    decide +kernel
  obtain ⟨K, hK, hfacts⟩ := (Option.any_eq_true _ _).mp hreplay
  simp only [Bool.and_eq_true, decide_eq_true_eq] at hfacts
  obtain ⟨hfirst, ⟨hsecond, hzero⟩, hone⟩ := hfacts
  obtain ⟨contents, hrun⟩ := forging_restarts
    ⟨by decide, by decide +kernel, by decide, by decide⟩ (by decide +kernel) hK
  -- the first deletion, at revision zero
  generalize hs₀ : opened 0 contents (forgedLog (.new 0 [2] [] 1 (-1) 7 0)) K = s₀ at hrun
  have hfaults₀ : s₀.wal.faults = [] := by
    rw [← hs₀]
    rfl
  have hkeyspace₀ : s₀.keyspace = K := by
    rw [← hs₀]
    rfl
  have hnext₀ : s₀.nextRev = 0 := by
    rw [← hs₀, opened_nextRev]
    decide +kernel
  obtain ⟨resp₀, s₁, htxn⟩ := @exec_txn_of_ready _ s₀ [.deleteRange { key := [49] }] [] hfaults₀
    (Prog.ok_of_toOption (by decide)) (ready_of_acceptsAll
      (by rw [hkeyspace₀, hnext₀]; exact hfirst) (by
        intro op hop
        fin_cases hop
        exact hdelete s₀ 49))
  have hfaults₁ : s₁.wal.faults = [] := by
    obtain ⟨ws, hws⟩ := (txn_spec _ hfaults₀).of_ok htxn
    exact hws.faults
  obtain ⟨-, c, hwrote⟩ := wrote_of_txn htxn
  have hkeyspace₁ := hwrote.run.eq_foldl
  have hnext₁ : s₁.nextRev = 1 := by
    rw [hwrote.nextRev, if_neg (List.cons_ne_nil _ _)]
    show s₀.nextRev + 1 = 1
    rw [hnext₀]
    decide
  have hwrites : ∀ op : WriteOp, op.writes s₀ 0 = op.writes (fresh.withKeyspace K) 0 :=
    fun op => WriteOp.writes_congr hkeyspace₀ 0 op
  have hrev : TxnCursor.revAt {} s₀ = 0 := hnext₀
  rw [hrev, List.flatMap_singleton, hwrites, hkeyspace₀] at hkeyspace₁
  rw [← hkeyspace₁] at hsecond hzero hone
  obtain ⟨resp, t, hputs⟩ := @exec_txn_of_ready _ s₁ [.put { key := [3] },
    .deleteRange { key := [49] }, .deleteRange { key := [2] }] [] hfaults₁
    (Prog.ok_of_toOption (by decide)) (ready_of_acceptsAll (by rw [hnext₁]; exact hsecond)
      (by
        intro op hop
        fin_cases hop
        · exact hput s₁
        · exact hdelete s₁ 49
        · exact hdelete s₁ 2))
  have hwrites₁ : ∀ op : WriteOp, op.writes s₁ 1 = op.writes (fresh.withKeyspace s₁.keyspace) 1 :=
    fun op => WriteOp.writes_congr rfl 1 op
  obtain ⟨resp₁, t₁, hsame, -, hcount₁, -⟩ := txn_perm hfaults₁ hputs (.refl _) (.refl [])
  have hperm : [WriteOp.deleteRange { key := [49] }, .deleteRange { key := [2] },
      .put { key := [3] }].Perm [.put { key := [3] }, .deleteRange { key := [49] },
        .deleteRange { key := [2] }] := by decide
  obtain ⟨resp', t', hdeletes, -, hcount', -⟩ := txn_perm hfaults₁ hputs hperm (.refl [])
  rw [hputs] at hsame
  cases hsame
  rw [hnext₁, List.flatMap_congr fun op _ => hwrites₁ op] at hcount₁ hcount'
  refine ⟨⟨s₁, none⟩, resp, t, resp', t', ?_, hputs, hdeletes, hcount₁.trans hzero,
    hcount'.trans hone⟩
  refine Trace.run_append_eq_some.mpr ⟨_, hrun, ?_⟩
  have hanswer : answer s₀ (.txn (writesRequest [.deleteRange { key := [49] }] [])) = some s₁ := by
    simp only [answer, handle, Prog.exec_bind, htxn, Prog.exec_pure]
  rw [Trace.run_singleton, System.step, hanswer]
  rfl

end Rudurru
