import Rudurru.Txn.Trace

/-!
# Rudurru.Txn.Duplicates

The check that no key is written twice (`check_txn_duplicate_keys`) compares the writes of one
list of ops at a time, while the writes of a nested transaction are made at the revision of
those around it. So an accepted transaction writes every key at most once exactly if no op
clashes with an op of another list (`txn_writes_once`).

To one key a transaction is a sequence of puts and deletes (`Touch`), of which a put always
writes and a delete writes if the key is alive. The theorem is about all keys at once, and
about what the check does establish: ops of one list have no key in common.

One key is looked at after the other. To a key, a trace is the list of the touches of the ops that
cover it (`Carried.touches`); it is written twice exactly if two of them clash: a put with a later
op, or a delete that finds the key alive with a later put. The check makes the intervals of one list
disjoint, so two ops that clash stand in different lists (`executedOps_apart`). That a clash is a
key written twice needs no check.
-/

namespace Rudurru

open Std (ExtTreeMap)
open Prog (exec)

/-! ### One key

All of the combinatorics is here, for one key and a list of touches.
-/

/-- What an op is to a key in its range. -/
inductive Touch
  | put
  | delete
  deriving DecidableEq, Repr

namespace Touch

/-- How many writes these make to a key that is alive or not. -/
def writes : Bool → List Touch → Nat
  | _, [] => 0
  | _, .put :: rest => 1 + writes true rest
  | alive, .delete :: rest => alive.toNat + writes false rest

/-- Is the key alive after them? -/
def aliveAfter : Bool → List Touch → Bool
  | alive, [] => alive
  | _, .put :: rest => aliveAfter true rest
  | _, .delete :: rest => aliveAfter false rest

/-- Do both write, the second some time after the first, if the key was alive or not before? -/
def clash (alive : Bool) : Touch → Touch → Bool
  | .put, _ => true
  | .delete, .put => alive
  | .delete, .delete => false

theorem writes_append (alive : Bool) (l l' : List Touch) :
    writes alive (l ++ l') = writes alive l + writes (aliveAfter alive l) l' := by
  induction l generalizing alive with
  | nil => simp [writes, aliveAfter]
  | cons t l ih =>
      cases t with
      | put => simp only [List.cons_append, writes, aliveAfter, ih, Nat.add_assoc]
      | delete => simp only [List.cons_append, writes, aliveAfter, ih, Nat.add_assoc]

theorem aliveAfter_append (alive : Bool) (l l' : List Touch) :
    aliveAfter alive (l ++ l') = aliveAfter (aliveAfter alive l) l' := by
  induction l generalizing alive with
  | nil => rfl
  | cons t l ih => cases t <;> exact ih _

theorem writes_true_eq_zero {l : List Touch} : writes true l = 0 ↔ l = [] := by
  cases l with
  | nil => simp [writes]
  | cons t l => cases t <;> simp [writes]

theorem writes_false_eq_zero {l : List Touch} : writes false l = 0 ↔ ∀ t ∈ l, t = .delete := by
  induction l with
  | nil => simp [writes]
  | cons t l ih => cases t <;> simp [writes, ih]

/-- **A key is written at most once exactly if no two ops on it clash.** By induction on the
touches, with whether the key is alive. -/
theorem writes_le_one_iff (alive : Bool) (l : List Touch) :
    writes alive l ≤ 1 ↔ l.Pairwise fun a b => clash alive a b = false := by
  induction l with
  | nil => simp [writes]
  | cons t l ih =>
      rw [List.pairwise_cons]
      cases t with
      | put =>
          -- every op after a put writes, or meets what the put wrote
          have hone : writes alive (.put :: l) ≤ 1 ↔ writes true l = 0 := by
            rw [writes]
            omega
          rw [hone, writes_true_eq_zero]
          constructor
          · intro hl
            subst hl
            simp
          · intro h
            cases l with
            | nil => rfl
            | cons b l => simpa [clash] using h.1 b (by simp)
      | delete =>
          cases alive with
          | false =>
              have hfirst : ∀ b ∈ l, clash false .delete b = false := by
                intro b _
                cases b <;> rfl
              have hsame : writes false (.delete :: l) = writes false l := by simp [writes]
              rw [hsame, ih]
              exact ⟨fun h => ⟨hfirst, h⟩, fun h => h.2⟩
          | true =>
              have hone : writes true (.delete :: l) ≤ 1 ↔ writes false l = 0 := by
                simp only [writes, Bool.toNat_true]
                omega
              rw [hone, writes_false_eq_zero]
              constructor
              · intro hl
                refine ⟨fun b hb => by rw [hl b hb]; rfl, List.pairwise_iff_forall_sublist.mpr ?_⟩
                intro a b hab
                rw [hl a (hab.subset (by simp)), hl b (hab.subset (by simp))]
                rfl
              · intro h b hb
                cases b with
                | put => simpa [clash] using h.1 .put hb
                | delete => rfl

end Touch

/-! ### From ops to touches -/

namespace WriteOp

/-- What the op is to a key. -/
def touch (key : Bytes) (op : WriteOp) : Option Touch :=
  if op.covers key then
    match op with
    | .put _ => some .put
    | .deleteRange _ => some .delete
  else none

/-- Two ops, of which the second runs some time after the first, that write a common key: a put
and whatever covers its key; or a delete and a put of a key in its range that was alive before
the transaction. -/
def Clash (s : StoreState) : WriteOp → WriteOp → Prop
  | .put p, op => op.covers p.key = true
  | .deleteRange d, .put p => (deleteRange d).covers p.key = true ∧ (s.alive? p.key).isSome = true
  | .deleteRange _, .deleteRange _ => False

instance (s : StoreState) (a b : WriteOp) : Decidable (Clash s a b) :=
  match a, b with
  | .put _, _ => inferInstanceAs (Decidable (_ = true))
  | .deleteRange _, .put _ => inferInstanceAs (Decidable (_ ∧ _))
  | .deleteRange _, .deleteRange _ => .isFalse id

theorem covers_of_touch {key : Bytes} {op : WriteOp} {x : Touch} (h : x ∈ op.touch key) :
    op.covers key = true := by
  by_contra hcovers
  simp [touch, hcovers] at h

/-- Ops clash if they do so on some key. -/
theorem clash_iff (s : StoreState) (a b : WriteOp) :
    Clash s a b ↔ ∃ key, ∃ x ∈ a.touch key, ∃ y ∈ b.touch key,
      Touch.clash (s.alive? key).isSome x y = true := by
  cases a with
  | put p =>
      constructor
      · intro h
        -- a put touches one key, so the two clash there or nowhere
        have hself : (WriteOp.put p).touch p.key = some .put := by simp [touch, covers]
        cases b with
        | put q => exact ⟨p.key, .put, hself, .put, by simp_all [touch, Clash], rfl⟩
        | deleteRange d => exact ⟨p.key, .put, hself, .delete, by simp_all [touch, Clash], rfl⟩
      · intro h
        obtain ⟨key, x, hx, y, hy, -⟩ := h
        obtain rfl : key = p.key := of_decide_eq_true (covers_of_touch hx)
        exact covers_of_touch hy
  | deleteRange d =>
      cases b with
      | put p =>
          constructor
          · intro h
            obtain ⟨hcovers, halive⟩ := h
            refine ⟨p.key, .delete, ?_, .put, ?_, halive⟩
            · simp [touch, hcovers]
            · simp [touch, covers]
          · intro h
            obtain ⟨key, x, hx, y, hy, hclash⟩ := h
            obtain rfl : key = p.key := of_decide_eq_true (covers_of_touch hy)
            have hcovers := covers_of_touch hx
            obtain rfl : x = .delete := by simpa [touch, hcovers] using hx.symm
            obtain rfl : y = .put := by simpa [touch, covers] using hy.symm
            exact ⟨hcovers, hclash⟩
      | deleteRange d' =>
          constructor
          · intro h
            cases h
          · intro h
            obtain ⟨key, x, hx, y, hy, hclash⟩ := h
            obtain rfl : x = .delete := by simpa [touch, covers_of_touch hx] using hx.symm
            obtain rfl : y = .delete := by simpa [touch, covers_of_touch hy] using hy.symm
            cases hclash

end WriteOp

/-- Deletions at one revision leave what they delete tombstoned at it. -/
theorem Keyspace.Run.deleted {K K' : Keyspace} {ws : List Write} {rev : UInt64} (h : Run K ws K')
    (hws : ∀ w ∈ ws, ∃ key prev, w = .delete key rev prev) {key : Bytes}
    (hkey : key ∈ ws.map Write.key) :
    ∃ ks, K'.keys[key]? = some ks ∧ ks.deleteRevision = rev := by
  obtain ⟨w, hw, rfl⟩ := List.mem_map.mp hkey
  obtain ⟨before, after, rfl⟩ := List.append_of_mem hw
  obtain ⟨K₁, -, hrun⟩ := h.of_append
  cases hrun with
  | cons _ hafter =>
      refine hafter.invariant
        (P := fun K => ∃ ks, K.keys[w.key]? = some ks ∧ ks.deleteRevision = rev) ?_ ?_
      · obtain ⟨k, prev, rfl⟩ := hws w (by simp)
        exact ⟨_, ExtTreeMap.getElem?_insert_self, rfl⟩
      · intro K v hv hP _
        by_cases hsame : v.key = w.key
        · obtain ⟨k, prev, rfl⟩ := hws v (by simp [hv])
          rw [← hsame]
          exact ⟨_, ExtTreeMap.getElem?_insert_self, rfl⟩
        · rw [getElem?_apply_of_ne hsame]
          exact hP

theorem eq_delete_of_mem_deletes {s : StoreState} {keys : List Bytes} {rev : UInt64} {w : Write}
    (h : w ∈ s.deletes keys rev) : ∃ key prev, w = .delete key rev prev := by
  simp only [StoreState.deletes, List.mem_filterMap, Option.map_eq_some_iff] at h
  obtain ⟨key, -, prev, -, rfl⟩ := h
  exact ⟨key, prev, rfl⟩

theorem eq_delete_of_mem_deleteWrites {s : StoreState} {d : DeleteRangeRequest} {rev : UInt64}
    {w : Write} (h : w ∈ s.deleteWrites d rev) : ∃ key prev, w = .delete key rev prev := by
  unfold StoreState.deleteWrites at h
  split at h
  · exact eq_delete_of_mem_deletes h
  · cases h

section

variable [Crates]

/-- What does not write to a key leaves it as it is. -/
theorem Effect.alive?_of_not_mem {s s' : StoreState} {ws : List Write} (h : Effect s ws s')
    {key : Bytes} (hkey : key ∉ ws.map Write.key) : s'.alive? key = s.alive? key := by
  have hsame := h.run.getElem?_of_not_mem hkey
  simp only [StoreState.keyspace_keys] at hsame
  simp only [StoreState.alive?, aliveIn, hsame]

/-- An op is to a key what `touch` says. -/
theorem WriteOp.touch_effect {s s' : StoreState} {rev : UInt64} (hrev : rev ≠ 0) {op : WriteOp}
    (h : Effect s (op.writes s rev) s') (key : Bytes) :
    ((op.writes s rev).map Write.key).count key
        = Touch.writes (s.alive? key).isSome (op.touch key).toList ∧
      (s'.alive? key).isSome = Touch.aliveAfter (s.alive? key).isSome (op.touch key).toList := by
  by_cases hcovers : op.covers key = true
  · cases op with
    | put p =>
        obtain rfl : key = p.key := of_decide_eq_true hcovers
        -- a put writes its key whether it was alive or not
        have hkeys : s'.keys = (s.keyspace.apply (s.putWrite p rev)).keys :=
          congrArg Keyspace.keys h.run.eq_foldl
        have halive : (s'.alive? p.key).isSome = true := by
          rw [StoreState.alive?, aliveIn, hkeys]
          simp [StoreState.putWrite, Keyspace.apply, putEntry, KeyState.isAlive]
        rw [halive]
        simp [WriteOp.writes, StoreState.putWrite, Write.key, touch, hcovers, Touch.writes,
          Touch.aliveAfter]
    | deleteRange d =>
        obtain ⟨hnodup, hmem⟩ := deleteWrites_keys s d rev
        have htouch : (WriteOp.deleteRange d).touch key = some .delete := by simp [touch, hcovers]
        simp only [htouch, Option.toList_some, Touch.writes, Touch.aliveAfter, Nat.add_zero]
        -- a deletion writes a record only for a key that is alive
        cases halive : (s.alive? key).isSome with
        | true =>
            have hkey := (hmem key).mpr ⟨hcovers, halive⟩
            refine ⟨List.count_eq_one_of_mem hnodup hkey, ?_⟩
            obtain ⟨ks, hks, hdel⟩ :=
              h.run.deleted (fun w hw => eq_delete_of_mem_deleteWrites hw) hkey
            rw [StoreState.keyspace_keys] at hks
            simp [StoreState.alive?, aliveIn, hks, KeyState.isAlive, hdel, hrev]
        | false =>
            have hkey : key ∉ (s.deleteWrites d rev).map Write.key := by
              rw [hmem, halive]
              simp
            refine ⟨List.count_eq_zero_of_not_mem hkey, ?_⟩
            rw [h.alive?_of_not_mem hkey, halive]
  · have hkey : key ∉ (op.writes s rev).map Write.key := by
      intro hkey
      obtain ⟨w, hw, rfl⟩ := List.mem_map.mp hkey
      exact hcovers (WriteOp.rev_covers hw).2
    rw [List.count_eq_zero_of_not_mem hkey, h.alive?_of_not_mem hkey]
    simp [touch, hcovers, Touch.writes, Touch.aliveAfter]

/-- **To one key, a trace is its touches.** -/
theorem Carried.touches {rev : UInt64} (hrev : rev ≠ 0) {s₀ s : StoreState}
    {ops : List (List Nat × WriteOp)} {ws : List Write} (h : Carried rev s₀ ops ws s)
    (key : Bytes) :
    (ws.map Write.key).count key
        = Touch.writes (s₀.alive? key).isSome (ops.filterMap fun op => op.2.touch key) ∧
      (s.alive? key).isSome
        = Touch.aliveAfter (s₀.alive? key).isSome (ops.filterMap fun op => op.2.touch key) := by
  induction h with
  | nil => exact ⟨rfl, rfl⟩
  | @snoc ops ws s path op s' _ hop ih =>
      obtain ⟨hcount, halive⟩ := ih
      obtain ⟨hcount', halive'⟩ := WriteOp.touch_effect hrev hop key
      have hlast : [(path, op)].filterMap (fun op => op.2.touch key) = (op.touch key).toList := by
        cases htouch : op.touch key <;> simp [htouch]
      rw [List.map_append, List.count_append, List.filterMap_append, Touch.writes_append,
        Touch.aliveAfter_append, hlast, hcount, hcount', halive', halive]
      exact ⟨rfl, rfl⟩

/-- **A trace writes every key at most once exactly if no two of its ops clash.** -/
theorem Carried.nodup_iff {rev : UInt64} (hrev : rev ≠ 0) {s₀ s : StoreState}
    {ops : List (List Nat × WriteOp)} {ws : List Write} (h : Carried rev s₀ ops ws s) :
    (ws.map Write.key).Nodup ↔ ops.Pairwise fun a b => ¬ WriteOp.Clash s₀ a.2 b.2 := by
  have hkey : ∀ key, (ws.map Write.key).count key ≤ 1 ↔ ops.Pairwise fun a b =>
      ∀ x, a.2.touch key = some x → ∀ y, b.2.touch key = some y →
        Touch.clash (s₀.alive? key).isSome x y = false := by
    intro key
    rw [(h.touches hrev key).1, Touch.writes_le_one_iff, List.pairwise_filterMap]
  rw [List.nodup_iff_count_le_one]
  constructor
  · intro hnodup
    rw [List.pairwise_iff_getElem]
    intro i j hi hj hij hclash
    obtain ⟨key, x, hx, y, hy, hxy⟩ := (WriteOp.clash_iff _ _ _).mp hclash
    have hno := List.pairwise_iff_getElem.mp ((hkey key).mp (hnodup key)) i j hi hj hij x hx y hy
    rw [hxy] at hno
    cases hno
  · intro hpairs key
    rw [hkey]
    refine hpairs.imp ?_
    intro a b hno x hx y hy
    by_contra hxy
    exact hno ((WriteOp.clash_iff _ _ _).mpr ⟨key, x, hx, y, hy, by simpa using hxy⟩)

end

/-! ### What the check establishes

A write op of a trace carries the path of its list, so paths tell the lists apart.
-/

/-- Is the key in the interval? -/
def InInterval (key : Bytes) (i : Bytes × Option Bytes) : Prop :=
  bytesLe i.1 key = true ∧ ∀ stop ∈ i.2, bytesLt key stop = true

theorem compare_append_left (c a b : Bytes) : compare (c ++ a) (c ++ b) = compare a b := by
  induction c with
  | nil => rfl
  | cons x c ih =>
      have hself : compare x x = .eq := Std.ReflCmp.compare_self
      rw [List.cons_append, List.cons_append, compare_cons, ih, hself]
      rfl

/-- Keys that extend a prefix lie before its end. -/
theorem bytesLt_prefixEnd {p key stop : Bytes} (hp : p <+: key) (hstop : stop ∈ prefixEnd p) :
    bytesLt key stop = true := by
  unfold prefixEnd at hstop
  generalize hq : p.reverse = q at hstop
  induction q generalizing p with
  | nil => cases hstop
  | cons last rest ih =>
      obtain rfl : p = rest.reverse ++ [last] := by
        rw [← List.reverse_reverse p, hq, List.reverse_cons]
      unfold prefixEndLoop at hstop
      split at hstop
      · exact ih ((List.prefix_append _ _).trans hp) (List.reverse_reverse rest) hstop
      · next hlast =>
          obtain rfl : rest.reverse ++ [last + 1] = stop := by simpa using hstop
          obtain ⟨suffix, rfl⟩ := hp
          have hlt : compare last (last + 1) = .lt := by
            rw [Std.compare_eq_lt, UInt8.lt_iff_toNat_lt, UInt8.toNat_add, UInt8.toNat_one]
            have hne : last.toNat ≠ 255 := fun h255 => hlast (UInt8.toNat_inj.mp h255)
            have hlt := last.toNat_lt
            omega
          rw [bytesLt, List.append_assoc, compare_append_left, List.singleton_append, compare_cons,
            hlt]
          rfl

theorem inInterval_pointInterval (key : Bytes) : InInterval key (pointInterval key) := by
  have hpoint := point_interval_iff key key
  rw [decide_eq_true rfl] at hpoint
  obtain ⟨hle, hlt⟩ := (Bool.and_eq_true _ _).mp hpoint
  refine ⟨hle, ?_⟩
  intro stop hstop
  cases hstop
  exact hlt

/-- `bound_interval` holds the keys that `matches_range` selects. -/
theorem inInterval_boundInterval {bound : RangeBound} {key : Bytes}
    (h : matchesRange bound key = true) : InInterval key (boundInterval bound) := by
  cases bound with
  | all => exact ⟨bytesLe_of_isPrefixOf rfl, by simp [boundInterval]⟩
  | point k =>
      obtain rfl : key = k := of_decide_eq_true h
      exact inInterval_pointInterval key
  | fromKey k => exact ⟨h, by simp [boundInterval]⟩
  | prefixOf p =>
      exact ⟨bytesLe_of_isPrefixOf h, fun stop hstop =>
        bytesLt_prefixEnd (List.isPrefixOf_iff_prefix.mp h) hstop⟩
  | range start stop =>
      obtain ⟨hstart, hstop⟩ := (Bool.and_eq_true _ _).mp h
      refine ⟨hstart, ?_⟩
      intro stop' hstop'
      cases hstop'
      exact hstop

/-- Intervals with a common key overlap. -/
theorem intervalsOverlap_of_common {key : Bytes} {a b : Bytes × Option Bytes}
    (ha : InInterval key a) (hb : InInterval key b) : intervalsOverlap a b = true := by
  have hbefore : ∀ {i j : Bytes × Option Bytes}, InInterval key i → InInterval key j →
      j.2.all (bytesLt i.1) = true := by
    intro i j hi hj
    rw [Option.all_eq_true]
    intro stop hstop
    exact bytesLt_of_le_of_lt hi.1 (hj.2 stop hstop)
  have hempty : ∀ {i : Bytes × Option Bytes}, InInterval key i →
      i.2.any (fun stop => bytesLe stop i.1) = false := by
    intro i hi
    rw [Bool.eq_false_iff, Ne, Option.any_eq_true]
    rintro ⟨stop, hstop, hle⟩
    have hlt := bytesLt_of_le_of_lt hi.1 (hi.2 stop hstop)
    rw [bytesLt_eq_not_bytesLe, hle] at hlt
    cases hlt
  simp only [intervalsOverlap, hempty ha, hempty hb, hbefore ha hb, hbefore hb ha, Bool.not_false,
    Bool.and_self]

theorem anyOverlap_eq_false {intervals : List (Bytes × Option Bytes)} :
    anyOverlap intervals = false ↔
      intervals.Pairwise fun a b => intervalsOverlap a b = false := by
  induction intervals with
  | nil => simp [anyOverlap]
  | cons i rest ih =>
      rw [anyOverlap, Bool.or_eq_false_iff, List.pairwise_cons, ih, List.any_eq_false]
      simp

/-- The interval that the check takes a write op for. -/
def WriteOp.interval : WriteOp → Bytes × Option Bytes
  | .put p => pointInterval p.key
  | .deleteRange d => boundInterval (resolveRange d.key d.rangeEnd)

theorem WriteOp.inInterval_of_covers {op : WriteOp} {key : Bytes} (h : op.covers key = true) :
    InInterval key op.interval := by
  cases op with
  | put p =>
      obtain rfl : key = p.key := of_decide_eq_true h
      exact inInterval_pointInterval p.key
  | deleteRange d => exact inInterval_boundInterval h

/-- Ops whose intervals do not overlap do not clash. -/
theorem WriteOp.not_clash {s : StoreState} {a b : WriteOp}
    (h : intervalsOverlap a.interval b.interval = false) : ¬ Clash s a b := by
  intro hclash
  obtain ⟨key, x, hx, y, hy, -⟩ := (clash_iff s a b).mp hclash
  have hoverlap := intervalsOverlap_of_common (inInterval_of_covers (covers_of_touch hx))
    (inInterval_of_covers (covers_of_touch hy))
  rw [h] at hoverlap
  cases hoverlap

/-- Ops of one list have disjoint intervals. -/
def Apart (a b : List Nat × WriteOp) : Prop :=
  a.1 = b.1 → intervalsOverlap a.2.interval b.2.interval = false

theorem checkIntervals_eq_ok {intervals : List (Bytes × Option Bytes)}
    (h : checkIntervals intervals = .ok ()) : anyOverlap intervals = false := by
  unfold checkIntervals at h
  split at h
  · cases h
  · next hno => simpa using hno

/-- A nested transaction passes if both of its branches do. -/
theorem checkTxnOp_txn {compare : List Compare} {success failure : List RequestOp}
    {intervals : List (Bytes × Option Bytes)}
    (h : checkTxnOp (.txn compare success failure) = .ok intervals) :
    (∃ is, checkTxnOps success = .ok is ∧ anyOverlap is = false) ∧
      ∃ is, checkTxnOps failure = .ok is ∧ anyOverlap is = false := by
  unfold checkTxnOp at h
  obtain ⟨is, hsuccess, h⟩ := Prog.bind_eq_ok.mp h
  obtain ⟨_, hcheck, h⟩ := Prog.bind_eq_ok.mp h
  obtain ⟨is', hfailure, h⟩ := Prog.bind_eq_ok.mp h
  obtain ⟨_, hcheck', -⟩ := Prog.bind_eq_ok.mp h
  exact ⟨⟨is, hsuccess, checkIntervals_eq_ok hcheck⟩, is', hfailure, checkIntervals_eq_ok hcheck'⟩

theorem checkTxnOps_cons {op : RequestOp} {ops : List RequestOp}
    {intervals : List (Bytes × Option Bytes)} (h : checkTxnOps (op :: ops) = .ok intervals) :
    ∃ is is', checkTxnOp op = .ok is ∧ checkTxnOps ops = .ok is' ∧ intervals = is ++ is' := by
  unfold checkTxnOps at h
  obtain ⟨is, hop, h⟩ := Prog.bind_eq_ok.mp h
  obtain ⟨is', hops, h⟩ := Prog.bind_eq_ok.mp h
  cases h
  exact ⟨is, is', hop, hops, rfl⟩

theorem checkTxnOp_put {p : PutRequest} {is : List (Bytes × Option Bytes)}
    (h : checkTxnOp (.put p) = .ok is) : is = [(WriteOp.put p).interval] := by
  unfold checkTxnOp at h
  obtain ⟨_, -, h⟩ := Prog.bind_eq_ok.mp h
  cases h
  rfl

theorem checkTxnOp_deleteRange {d : DeleteRangeRequest} {is : List (Bytes × Option Bytes)}
    (h : checkTxnOp (.deleteRange d) = .ok is) : is = [(WriteOp.deleteRange d).interval] := by
  unfold checkTxnOp at h
  obtain ⟨_, -, h⟩ := Prog.bind_eq_ok.mp h
  cases h
  rfl

/-- What stands below one position of a list of ops stands neither in the list nor below another. -/
theorem below_ne {path path' : List Nat} {i : Nat} (h : path ++ [i] <+: path') :
    path' ≠ path ∧ ∀ j, path ++ [j] <+: path' → j = i := by
  constructor
  · rintro rfl
    have hlen := h.length_le
    simp at hlen
  · intro j hj
    have heq : path ++ [j] = path ++ [i] :=
      (List.prefix_of_prefix_length_le hj h (by simp)).eq_of_length (by simp)
    simpa using heq

/-- What runs of a nested transaction stands at its position, or below. -/
theorem below_of_branch {path path' : List Nat} {P : Prop}
    (h : path' = path ∧ P ∨ ∃ j, 0 ≤ j ∧ path ++ [j] <+: path') : path <+: path' := by
  rcases h with ⟨rfl, -⟩ | ⟨j, -, hbelow⟩
  · exact List.prefix_refl _
  · exact (List.prefix_append _ _).trans hbelow

mutual
/-- What runs of an op stands in its list, with the interval the check has taken, or below it. -/
theorem executedOp_apart {rev : UInt64} : ∀ (op : RequestOp) (path : List Nat) (i : Nat)
    (s : StoreState) (is : List (Bytes × Option Bytes)), checkTxnOp op = .ok is →
      (∀ e ∈ (executedOp rev path i s op).1,
        e.1 = path ∧ e.2.interval ∈ is ∨ path ++ [i] <+: e.1) ∧
      (executedOp rev path i s op).1.Pairwise Apart
  | .range r, path, i, s, is, _ => by simp [executedOp]
  | .put p, path, i, s, is, h => by
      rw [checkTxnOp_put h]
      simp [executedOp]
  | .deleteRange d, path, i, s, is, h => by
      rw [checkTxnOp_deleteRange h]
      simp [executedOp]
  | .txn compare success failure, path, i, s, is, h => by
      obtain ⟨⟨is₁, hsuccess, hno₁⟩, is₂, hfailure, hno₂⟩ := checkTxnOp_txn h
      unfold executedOp
      split
      · obtain ⟨hplace, hapart⟩ := executedOps_apart success (path ++ [i]) 0 s is₁ hsuccess
        exact ⟨fun e he => .inr (below_of_branch (hplace e he)), hapart hno₁⟩
      · obtain ⟨hplace, hapart⟩ := executedOps_apart failure (path ++ [i]) 0 s is₂ hfailure
        exact ⟨fun e he => .inr (below_of_branch (hplace e he)), hapart hno₂⟩
  | .none, path, i, s, is, _ => by simp [executedOp]
theorem executedOps_apart {rev : UInt64} : ∀ (ops : List RequestOp) (path : List Nat) (i : Nat)
    (s : StoreState) (is : List (Bytes × Option Bytes)), checkTxnOps ops = .ok is →
      (∀ e ∈ (executedOps rev path i s ops).1,
        e.1 = path ∧ e.2.interval ∈ is ∨ ∃ j, i ≤ j ∧ path ++ [j] <+: e.1) ∧
      (anyOverlap is = false → (executedOps rev path i s ops).1.Pairwise Apart)
  | [], path, i, s, is, _ => by simp [executedOps]
  | op :: ops, path, i, s, is, h => by
      obtain ⟨is₁, is₂, hop, hops, rfl⟩ := checkTxnOps_cons h
      obtain ⟨hplace₁, hapart₁⟩ := executedOp_apart op path i s is₁ hop
      obtain ⟨hplace₂, hapart₂⟩ :=
        executedOps_apart ops path (i + 1) (executedOp rev path i s op).2 is₂ hops
      unfold executedOps
      constructor
      · intro e he
        rcases List.mem_append.mp he with he | he
        · rcases hplace₁ e he with ⟨hpath, hmem⟩ | hbelow
          · exact .inl ⟨hpath, by simp [hmem]⟩
          · exact .inr ⟨i, Nat.le_refl i, hbelow⟩
        · rcases hplace₂ e he with ⟨hpath, hmem⟩ | ⟨j, hj, hbelow⟩
          · exact .inl ⟨hpath, by simp [hmem]⟩
          · exact .inr ⟨j, by omega, hbelow⟩
      · intro hno
        obtain ⟨-, hno₂, hcross⟩ := List.pairwise_append.mp (anyOverlap_eq_false.mp hno)
        refine List.pairwise_append.mpr ⟨hapart₁, hapart₂ (anyOverlap_eq_false.mpr hno₂), ?_⟩
        -- the same path: both stand in this list, which has been checked for overlaps
        intro a ha b hb heq
        rcases hplace₁ a ha with ⟨hpath, hmem⟩ | hbelow
        · rcases hplace₂ b hb with ⟨-, hmem'⟩ | ⟨j, hj, hbelow'⟩
          · exact hcross _ hmem _ hmem'
          · exact absurd (heq.symm.trans hpath) (below_ne hbelow').1
        · rw [heq] at hbelow
          rcases hplace₂ b hb with ⟨hpath', -⟩ | ⟨j, hj, hbelow'⟩
          · exact absurd hpath' (below_ne hbelow).1
          · have hij := (below_ne hbelow).2 j hbelow'
            omega
end

/-- Ops that a transaction runs from one list of ops have disjoint intervals, if it passes the
check. -/
theorem executedWrites_apart {s : StoreState} {req : TxnRequest}
    (h : checkTxnDuplicateKeys req = .ok ()) : (s.executedWrites req).Pairwise Apart := by
  have hbranch : ∀ {ops}, checkTxnBranch ops = .ok () →
      (executedOps s.nextRev [] 0 s ops).1.Pairwise Apart := by
    intro ops hops
    obtain ⟨is, hcheck, hno⟩ := Prog.bind_eq_ok.mp hops
    exact (executedOps_apart ops [] 0 s is hcheck).2 (checkIntervals_eq_ok hno)
  obtain ⟨_, hsuccess, hfailure⟩ := Prog.bind_eq_ok.mp h
  unfold StoreState.executedWrites StoreState.branch
  split
  · exact hbranch hsuccess
  · exact hbranch hfailure

section

variable [Crates]

theorem check_of_txn {s s' : StoreState} {req : TxnRequest} {resp : TxnResponse}
    (h : exec (txn req) s = (.ok resp, s')) : checkTxnDuplicateKeys req = .ok () := by
  have hspec : (txn req).Spec s fun r _ => ∀ a, r = .ok a → checkTxnDuplicateKeys req = .ok () := by
    unfold txn
    refine StoreM.spec_read_bind (by simp) ?_
    intro _ hcheck _ _ _
    exact hcheck
  have hret := hspec (by rw [h]; simp)
  rw [h] at hret
  exact hret resp rfl

/-- **A transaction writes no key twice exactly if no op clashes with an op of another list.** The
clashes are those of the trace: ops of branches that are not taken have no part in them. -/
theorem txn_writes_once {s s' : StoreState} {req : TxnRequest} {resp : TxnResponse}
    (hnext : s.nextRev ≠ 0) (h : exec (txn req) s = (.ok resp, s')) :
    ∃ ws : List Write, s'.wal.log = s.wal.log ++ ws.map Write.record ∧
      s'.wal.contents = s.wal.contents ++ serializeAll (ws.map Write.record) ∧
      (∀ w ∈ ws, w.rev = s.nextRev) ∧
      ((ws.map Write.key).Nodup ↔
        (s.executedWrites req).Pairwise fun a b => a.1 = b.1 ∨ ¬ WriteOp.Clash s a.2 b.2) := by
  obtain ⟨c, htraced⟩ := txn_traced h
  rcases htraced with ⟨hops, -, rfl⟩ | ⟨-, -, ws, hws⟩
  · refine ⟨[], by simp, by simp [serializeAll, FramedLog.encodeAll], by simp, ?_⟩
    simp [hops]
  · refine ⟨ws, hws.effect.log, hws.effect.contents, fun w hw => (hws.rev_covers w hw).1, ?_⟩
    rw [hws.nodup_iff hnext]
    constructor
    · intro hno
      exact hno.imp fun h => .inr h
    · intro hno
      -- two writes of one list are apart by the check, so what is left are those of different lists
      refine (hno.and (executedWrites_apart (s := s) (check_of_txn h))).imp ?_
      rintro a b ⟨hlist | hclash, hapart⟩
      · exact WriteOp.not_clash (hapart hlist)
      · exact hclash

end

/-- A put, and a nested transaction that deletes another key. -/
theorem txn_writes_once_nested :
    ∃ s' resp, ∃ ws : List Write, exec (txn { success := [.put { key := [1] },
        .txn [] [.deleteRange { key := [2] }] []] }) fresh = (.ok resp, s') ∧
      s'.wal.log = fresh.wal.log ++ ws.map Write.record ∧ (ws.map Write.key).Nodup := by
  have hsome : (exec (txn { success := [.put { key := [1] },
      .txn [] [.deleteRange { key := [2] }] []] }) fresh).1.toOption.isSome = true := by
    decide +kernel
  obtain ⟨resp, hresp⟩ := Option.isSome_iff_exists.mp hsome
  have hexec := Prod.ext (y := (Except.ok resp, _)) (Prog.ok_of_toOption hresp) rfl
  obtain ⟨ws, hlog, -, -, hiff⟩ := txn_writes_once (by decide) hexec
  exact ⟨_, resp, ws, hexec, hlog, hiff.mpr (by decide +kernel)⟩

/-- A put, and a nested transaction that puts the same key: both are accepted and logged, at
one revision. -/
theorem txn_writes_twice :
    ∃ s' resp rec rec', exec (txn { success := [.put { key := [1] },
        .txn [] [.put { key := [1] }] []] }) fresh = (.ok resp, s') ∧
      s'.wal.log = fresh.wal.log ++ [rec, rec'] ∧ rec.key = some [1] ∧ rec'.key = some [1] ∧
      rec.revision = 1 ∧ rec'.revision = 1 := by
  have hrun : ((exec (txn { success := [.put { key := [1] },
      .txn [] [.put { key := [1] }] []] }) fresh).1.toOption.isSome &&
      decide ((exec (txn { success := [.put { key := [1] },
        .txn [] [.put { key := [1] }] []] }) fresh).2.wal.log.map
          (fun rec => (rec.key, rec.revision))
          = [(some [1], 1), (some [1], 1)])) = true := by
    decide +kernel
  obtain ⟨hsome, hlog⟩ := (Bool.and_eq_true _ _).mp hrun
  obtain ⟨resp, hresp⟩ := Option.isSome_iff_exists.mp hsome
  obtain ⟨rec, rest, hrecs, hrec, hlog⟩ := List.map_eq_cons_iff.mp (of_decide_eq_true hlog)
  obtain ⟨rec', rfl, hrec'⟩ := List.map_eq_singleton_iff.mp hlog
  obtain ⟨hkey, hrev⟩ := Prod.mk.inj hrec
  obtain ⟨hkey', hrev'⟩ := Prod.mk.inj hrec'
  exact ⟨_, resp, rec, rec', Prod.ext (Prog.ok_of_toOption hresp) rfl, hrecs, hkey, hkey', hrev,
    hrev'⟩

end Rudurru
