import Rudurru.Txn.Duplicates

/-!
# Rudurru.Txn.Overlap

The duplicate check of a transaction is exact. A bound is turned into an interval with exactly the
keys that it matches (`inInterval_boundInterval_iff`), the end of a prefix included, and two
intervals that pass for overlapping have a key in common: the later of their starts
(`intervalsOverlap_iff`). So a branch without nested transactions is accepted exactly when no two
of its writes match a common key (`check_txn_branch_exact`).

The order of byte strings has no predecessor for a prefix's end, so the interval of a prefix stops
at the prefix with its last byte that is not `0xff` incremented, or never. That this is exact is the
lemma that carries the file (`prefix_of_lt_prefixEnd`): whatever lies in between starts with the
prefix.
-/

namespace Rudurru

/-! ### The end of a prefix -/

theorem bytesLe_trans {a b c : Bytes} (h : bytesLe a b = true) (h' : bytesLe b c = true) :
    bytesLe a c = true := by
  by_contra hac
  have hca : bytesLt c a = true := by
    rw [bytesLt_eq_not_bytesLe, Bool.eq_false_iff.mpr hac]
    rfl
  have hba := bytesLt_of_le_of_lt h' hca
  rw [bytesLt_eq_not_bytesLe, h] at hba
  cases hba

theorem bytesLe_append_left (c a b : Bytes) : bytesLe (c ++ a) (c ++ b) = bytesLe a b := by
  rw [bytesLe, bytesLe, compare_append_left]

/-- Between a key and the same with its last byte incremented there is nothing but what extends
it. -/
theorem prefix_of_between_succ {x : UInt8} (hx : x ≠ 0xff) {c key : Bytes}
    (hle : bytesLe (c ++ [x]) key = true) (hlt : bytesLt key (c ++ [x + 1]) = true) :
    c ++ [x] <+: key := by
  induction c generalizing key with
  | nil =>
      cases key with
      | nil => cases hle
      | cons y t =>
          rw [List.nil_append, bytesLe, compare_cons] at hle
          rw [List.nil_append, bytesLt, beq_iff_eq, compare_cons] at hlt
          have hxy : x = y := by
            cases hcmp : compare x y with
            | eq => exact Std.LawfulEqCmp.eq_of_compare hcmp
            | gt => simp [hcmp] at hle
            | lt =>
                -- then `y` is `x + 1` at least, and nothing comes before the empty rest
                have hlt' : compare y (x + 1) ≠ .lt := by
                  rw [Ne, Std.compare_eq_lt, UInt8.lt_iff_toNat_lt, UInt8.toNat_add,
                    UInt8.toNat_one]
                  rw [Std.compare_eq_lt, UInt8.lt_iff_toNat_lt] at hcmp
                  have hmax := x.toNat_lt
                  have hne : x.toNat ≠ 255 := fun h255 => hx (UInt8.toNat_inj.mp h255)
                  omega
                cases hy : compare y (x + 1) with
                | lt => exact absurd hy hlt'
                | gt => simp [hy] at hlt
                | eq =>
                    rw [hy] at hlt
                    cases t with
                    | nil => cases hlt
                    | cons z t => cases hlt
          rw [hxy]
          exact ⟨t, rfl⟩
  | cons d c ih =>
      cases key with
      | nil => cases hle
      | cons y t =>
          rw [List.cons_append, bytesLe, compare_cons] at hle
          rw [List.cons_append, bytesLt, beq_iff_eq, compare_cons] at hlt
          cases hdy : compare d y with
          | lt =>
              rw [Std.OrientedCmp.gt_of_lt hdy] at hlt
              cases hlt
          | gt => simp [hdy] at hle
          | eq =>
              obtain rfl := Std.LawfulEqCmp.eq_of_compare hdy
              rw [hdy] at hle hlt
              obtain ⟨suffix, rfl⟩ := @ih t hle (by rw [bytesLt, beq_iff_eq]; exact hlt)
              exact ⟨suffix, rfl⟩

/-- **Whatever lies between a prefix and its end extends the prefix.** -/
theorem prefix_of_lt_prefixEnd {p key : Bytes} (hle : bytesLe p key = true)
    (hlt : ∀ stop ∈ prefixEnd p, bytesLt key stop = true) : p <+: key := by
  unfold prefixEnd at hlt
  generalize hq : p.reverse = q at hlt
  induction q generalizing p with
  | nil =>
      obtain rfl := List.reverse_eq_nil_iff.mp hq
      exact List.nil_prefix
  | cons last rest ih =>
      obtain rfl : p = rest.reverse ++ [last] := by
        rw [← List.reverse_reverse p, hq, List.reverse_cons]
      unfold prefixEndLoop at hlt
      split at hlt
      · next hlast =>
          -- a trailing 0xFF is dropped: every key that extends the rest goes on with it
          have hrest : bytesLe rest.reverse key = true :=
            bytesLe_trans (bytesLe_of_isPrefixOf (by simp)) hle
          obtain ⟨suffix, rfl⟩ := ih hrest (List.reverse_reverse rest) hlt
          rw [bytesLe_append_left] at hle
          cases suffix with
          | nil => cases hle
          | cons y t =>
              have hy : y = last := by
                rw [bytesLe, compare_cons] at hle
                cases hcmp : compare last y with
                | eq => exact (Std.LawfulEqCmp.eq_of_compare hcmp).symm
                | gt => simp [hcmp] at hle
                | lt =>
                    rw [Std.compare_eq_lt, UInt8.lt_iff_toNat_lt, hlast] at hcmp
                    have hmax := y.toNat_lt
                    exact absurd hcmp (by show ¬ 255 < y.toNat; omega)
              rw [hy]
              exact ⟨t, by simp⟩
      · next hlast =>
          refine prefix_of_between_succ hlast hle (hlt _ ?_)
          simp

/-! ### Intervals of bounds -/

/-- **A bound's interval has exactly the keys that it matches.** -/
theorem inInterval_boundInterval_iff {bound : RangeBound} {key : Bytes} :
    InInterval key (boundInterval bound) ↔ matchesRange bound key = true := by
  refine ⟨?_, inInterval_boundInterval⟩
  intro h
  obtain ⟨hle, hlt⟩ := h
  cases bound with
  | all => rfl
  | point k =>
      have hpoint := point_interval_iff k key
      rw [show bytesLe k key = true from hle, show bytesLt key (k ++ [0]) = true from hlt _ rfl]
        at hpoint
      exact hpoint.symm
  | fromKey k => exact hle
  | prefixOf p => exact List.isPrefixOf_iff_prefix.mpr (prefix_of_lt_prefixEnd hle hlt)
  | range start stop => exact (Bool.and_eq_true _ _).mpr ⟨hle, hlt stop rfl⟩

/-- **Intervals overlap exactly when they have a key in common.** An inverted interval has no key,
and overlaps none. -/
theorem intervalsOverlap_iff {a b : Bytes × Option Bytes} :
    intervalsOverlap a b = true ↔ ∃ key, InInterval key a ∧ InInterval key b := by
  constructor
  · intro h
    simp only [intervalsOverlap, Bool.and_eq_true, Bool.not_eq_true', Option.all_eq_true,
      Option.any_eq_false] at h
    obtain ⟨⟨⟨ha, hb⟩, hab⟩, hba⟩ := h
    have hnonempty : ∀ {i : Bytes × Option Bytes},
        (∀ stop, i.2 = some stop → bytesLe stop i.1 = false) →
          ∀ stop ∈ i.2, bytesLt i.1 stop = true := by
      intro i hi stop hstop
      rw [bytesLt_eq_not_bytesLe, hi stop hstop]
      rfl
    by_cases hle : bytesLe a.1 b.1 = true
    · exact ⟨b.1, ⟨hle, hba⟩, bytesLe_refl b.1, hnonempty hb⟩
    · have hlt : bytesLt b.1 a.1 = true := by
        rw [bytesLt_eq_not_bytesLe, Bool.eq_false_iff.mpr hle]
        rfl
      exact ⟨a.1, ⟨bytesLe_refl a.1, hnonempty ha⟩, bytesLe_of_bytesLt hlt, hab⟩
  · intro h
    obtain ⟨key, ha, hb⟩ := h
    exact intervalsOverlap_of_common ha hb

/-! ### The check on a flat branch -/

/-- A put, a delete range or a range that names a key. -/
def RequestOp.Flat : RequestOp → Prop
  | .put p => p.key ≠ []
  | .deleteRange d => d.key ≠ []
  | .range r => r.key ≠ []
  | .txn _ _ _ | .none => False

/-- Does the op write to the key, if the key is there to be deleted? -/
def RequestOp.writesTo (key : Bytes) : RequestOp → Bool
  | .put p => key = p.key
  | .deleteRange d => matchesRange (resolveRange d.key d.rangeEnd) key
  | .range _ | .txn _ _ _ | .none => false

/-- The intervals that the check collects for the op. -/
def RequestOp.intervals : RequestOp → List (Bytes × Option Bytes)
  | .put p => [pointInterval p.key]
  | .deleteRange d => [boundInterval (resolveRange d.key d.rangeEnd)]
  | .range _ | .txn _ _ _ | .none => []

theorem checkTxnOp_flat {op : RequestOp} (h : op.Flat) : checkTxnOp op = .ok op.intervals := by
  cases op with
  | put p =>
      have hkey : checkKey p.key = .ok () := if_neg h
      rw [checkTxnOp, hkey]
      rfl
  | deleteRange d =>
      have hkey : checkKey d.key = .ok () := if_neg h
      rw [checkTxnOp, hkey]
      rfl
  | range r =>
      have hkey : checkKey r.key = .ok () := if_neg h
      rw [checkTxnOp, hkey]
      rfl
  | txn | none => cases h

theorem checkTxnOps_flat {ops : List RequestOp} (h : ∀ op ∈ ops, op.Flat) :
    checkTxnOps ops = .ok (ops.flatMap RequestOp.intervals) := by
  induction ops with
  | nil => rfl
  | cons op ops ih =>
      rw [checkTxnOps, checkTxnOp_flat (h op List.mem_cons_self),
        ih fun op' hop' => h op' (List.mem_cons_of_mem _ hop')]
      rfl

/-- An op's interval has the keys it writes to. -/
theorem RequestOp.writesTo_iff {op : RequestOp} {key : Bytes} :
    op.writesTo key = true ↔ ∃ i ∈ op.intervals, InInterval key i := by
  cases op with
  | put p =>
      have hpoint : InInterval key (pointInterval p.key) ↔ matchesRange (.point p.key) key = true :=
        @inInterval_boundInterval_iff (.point p.key) key
      simp only [intervals, List.mem_singleton, exists_eq_left, hpoint]
      rfl
  | deleteRange d =>
      simp only [intervals, List.mem_singleton, exists_eq_left, inInterval_boundInterval_iff]
      rfl
  | range | txn | none => simp [writesTo, intervals]

/-- **The duplicate check is exact on a flat branch**: it passes exactly when no two of the ops
write to a common key. The bounds may be of any kind: single keys, prefixes, intervals and
everything from a key on. -/
theorem check_txn_branch_exact {ops : List RequestOp} (h : ∀ op ∈ ops, op.Flat) :
    checkTxnBranch ops = .ok () ↔
      ops.Pairwise fun a b => ∀ key, ¬ (a.writesTo key = true ∧ b.writesTo key = true) := by
  have hcheck : checkTxnBranch ops = .ok () ↔
      anyOverlap (ops.flatMap RequestOp.intervals) = false := by
    rw [checkTxnBranch, checkTxnOps_flat h]
    refine ⟨checkIntervals_eq_ok, ?_⟩
    intro hno
    exact if_neg (by rw [hno]; exact Bool.false_ne_true)
  -- an op of a flat list writes one interval at most, so overlaps are between different ops
  have hone : ∀ op ∈ ops,
      op.intervals.Pairwise fun a b => intervalsOverlap a b = false := by
    intro op _
    cases op <;> simp [RequestOp.intervals]
  rw [hcheck, anyOverlap_eq_false, List.pairwise_flatMap, and_iff_right hone]
  refine List.Pairwise.iff fun {a b} => ?_
  constructor
  · intro hno key hboth
    obtain ⟨i, hi, hkey⟩ := RequestOp.writesTo_iff.mp hboth.1
    obtain ⟨j, hj, hkey'⟩ := RequestOp.writesTo_iff.mp hboth.2
    have hoverlap := intervalsOverlap_of_common hkey hkey'
    rw [hno i hi j hj] at hoverlap
    cases hoverlap
  · intro hno i hi j hj
    refine Bool.eq_false_iff.mpr fun hoverlap => ?_
    obtain ⟨key, hkey, hkey'⟩ := intervalsOverlap_iff.mp hoverlap
    exact hno key
      ⟨RequestOp.writesTo_iff.mpr ⟨i, hi, hkey⟩, RequestOp.writesTo_iff.mpr ⟨j, hj, hkey'⟩⟩

/-- Two writes that meet in a prefix of trailing `0xFF` bytes, and an empty deletion between
them. -/
theorem check_txn_branch_exact_prefix :
    (checkTxnBranch
        [.deleteRange { key := [1, 255], rangeEnd := [1, 255, 0] }, .range { key := [1, 255, 7] },
          .deleteRange { key := [3], rangeEnd := [1] }, .put { key := [1, 254] }] = .ok () ↔
      List.Pairwise
        (fun a b : RequestOp => ∀ key, ¬ (a.writesTo key = true ∧ b.writesTo key = true))
        [.deleteRange { key := [1, 255], rangeEnd := [1, 255, 0] }, .range { key := [1, 255, 7] },
          .deleteRange { key := [3], rangeEnd := [1] }, .put { key := [1, 254] }]) ∧
    checkTxnBranch
        [.deleteRange { key := [1, 255], rangeEnd := [1, 255, 0] }, .range { key := [1, 255, 7] },
          .deleteRange { key := [3], rangeEnd := [1] }, .put { key := [1, 254] }] = .ok () := by
  refine ⟨check_txn_branch_exact ?_, Prog.ok_of_toOption (by decide)⟩
  intro op hop
  fin_cases hop <;> exact List.cons_ne_nil _ _

end Rudurru
