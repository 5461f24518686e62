import Rudurru.Storage.Bounds

/-!
# Rudurru.Storage.BoundsSound

The range walkers select what `matches_range` describes (`walkRange_eq_filter`): the iterator
over `btree_bounds`, cut at the first key that leaves a prefix, visits exactly the matching
keys, in order, unless the interval is inverted.

The prefix bounds rest on a contiguity argument: between a prefix and a key that extends it,
every key extends it (`isPrefixOf_of_between`).

The map is ordered, so the keys behind a start are a suffix of its list, and stopping at the first
key that fails is the same as filtering as long as no later key passes again. For a prefix that is
contiguity; for an interval it is transitivity.
-/

namespace Rudurru

open Std (ExtTreeMap)

/-! ### Lexicographic order -/

/-- Byte strings are compared at their first difference. -/
theorem compare_cons (a b : UInt8) (xs ys : Bytes) :
    compare (a :: xs) (b :: ys) = (compare a b).then (compare xs ys) :=
  List.compareLex_cons_cons

theorem compare_cons_nil (a : UInt8) (xs : Bytes) : compare (a :: xs) [] = .gt :=
  List.compareLex_cons_nil

theorem bytesLe_refl (a : Bytes) : bytesLe a a = true := by
  simp [bytesLe, Std.ReflCmp.compare_self]

/-- The order is total. -/
theorem bytesLt_eq_not_bytesLe (a b : Bytes) : bytesLt a b = !bytesLe b a := by
  rw [bytesLt, bytesLe, show compare b a = (compare a b).swap from Std.OrientedCmp.eq_swap]
  cases compare a b <;> rfl

theorem bytesLt_of_le_of_lt {a b c : Bytes} (h : bytesLe a b = true) (h' : bytesLt b c = true) :
    bytesLt a c = true := by
  have hle : (compare a b).isLE = true := by
    rw [bytesLe] at h
    cases hcmp : compare a b <;> simp_all
  rw [bytesLt, beq_iff_eq] at h' ⊢
  exact Std.TransCmp.lt_of_isLE_of_lt hle h'

theorem bytesLe_of_bytesLt {a b : Bytes} (h : bytesLt a b = true) : bytesLe a b = true := by
  rw [bytesLt, beq_iff_eq] at h
  rw [bytesLe, h]
  rfl

theorem bytesLt_irrefl (a : Bytes) : bytesLt a a = false := by
  rw [bytesLt_eq_not_bytesLe, bytesLe_refl]
  rfl

/-- A prefix comes before what extends it. -/
theorem bytesLe_of_isPrefixOf {p k : Bytes} (h : p.isPrefixOf k) : bytesLe p k = true := by
  induction p generalizing k with
  | nil =>
      cases k with
      | nil => exact bytesLe_refl []
      | cons b k => simp [bytesLe]
  | cons a p ih =>
      cases k with
      | nil => simp at h
      | cons b k =>
          simp only [List.isPrefixOf_cons_cons, Bool.and_eq_true, beq_iff_eq] at h
          obtain ⟨rfl, h⟩ := h
          have := ih h
          simpa [bytesLe, compare_cons, Std.ReflCmp.compare_self] using this

/-- Keys that extend a prefix are contiguous: whatever lies between the prefix and such a key
extends it as well. -/
theorem isPrefixOf_of_between {p k k' : Bytes} (hle : bytesLe p k = true)
    (hlt : compare k k' = .lt) (hp : p.isPrefixOf k') : p.isPrefixOf k := by
  induction p generalizing k k' with
  | nil => simp
  | cons a p ih =>
      cases k' with
      | nil => simp at hp
      | cons c k' =>
          simp only [List.isPrefixOf_cons_cons, Bool.and_eq_true, beq_iff_eq] at hp
          obtain ⟨rfl, hp⟩ := hp
          cases k with
          | nil => simp [bytesLe] at hle
          | cons b k =>
              simp only [bytesLe, compare_cons] at hle
              rw [compare_cons] at hlt
              cases hab : compare a b with
              | lt =>
                  rw [Std.OrientedCmp.gt_of_lt hab] at hlt
                  cases hlt
              | gt => simp [hab] at hle
              | eq =>
                  obtain rfl := Std.LawfulEqCmp.eq_of_compare hab
                  rw [hab] at hle hlt
                  simp only [List.isPrefixOf_cons_cons, beq_self_eq_true, Bool.true_and]
                  exact ih hle hlt hp

/-- The half-open interval from a key to its immediate successor holds that key only. -/
theorem point_interval_iff (k x : Bytes) :
    (bytesLe k x && bytesLt x (k ++ [0])) = decide (x = k) := by
  induction k generalizing x with
  | nil =>
      cases x with
      | nil => decide
      | cons b x =>
          have hb : compare b 0 ≠ .lt := by
            rw [Ne, Std.compare_eq_lt]
            exact UInt8.not_lt_zero
          cases hb0 : compare b 0 with
          | lt => exact absurd hb0 hb
          | gt => simp [bytesLt, hb0]
          | eq => cases x <;> simp [bytesLt, hb0]
  | cons a k ih =>
      cases x with
      | nil => simp [bytesLe]
      | cons b x =>
          rw [bytesLe, bytesLt, List.cons_append, compare_cons, compare_cons]
          cases hab : compare a b with
          | lt =>
              have hne : b ≠ a := by
                rintro rfl
                simp [Std.ReflCmp.compare_self] at hab
              simp [Std.OrientedCmp.gt_of_lt hab, hne]
          | gt =>
              have hne : b ≠ a := by
                rintro rfl
                simp [Std.ReflCmp.compare_self] at hab
              simp [hne]
          | eq =>
              obtain rfl := Std.LawfulEqCmp.eq_of_compare hab
              simpa [bytesLe, bytesLt, Std.ReflCmp.compare_self] using ih x

/-! ### The walk -/

/-- On a list whose elements fail a test from the first failure on, `takeWhile` is `filter`. -/
theorem takeWhile_eq_filter {α : Type} {r : α → α → Prop} {p : α → Bool} {l : List α}
    (hl : l.Pairwise r) (hp : ∀ x ∈ l, ∀ y ∈ l, r x y → p y = true → p x = true) :
    l.takeWhile p = l.filter p := by
  induction l with
  | nil => rfl
  | cons x l ih =>
      obtain ⟨hx, hl⟩ := List.pairwise_cons.mp hl
      have ih := ih hl fun a ha b hb => hp a (by simp [ha]) b (by simp [hb])
      cases hpx : p x with
      | true => rw [List.takeWhile_cons_of_pos hpx, List.filter_cons_of_pos hpx, ih]
      | false =>
          rw [List.takeWhile_cons_of_neg (by simp [hpx]), List.filter_cons_of_neg (by simp [hpx])]
          symm
          rw [List.filter_eq_nil_iff]
          intro y hy hpy
          have := hp x (by simp) y (by simp [hy]) (hx y hy) hpy
          simp [this] at hpx

/-- `Range(start, stop)` with `stop` before `start`, on which `BTreeMap::range` panics. -/
def RangeBound.inverted : RangeBound → Bool
  | .range start stop => bytesLt stop start
  | _ => false

/-- **The walkers visit the matching keys, in order.** -/
theorem walkRange_eq_filter {β : Type} (m : ExtTreeMap Bytes β) {bound : RangeBound}
    (h : bound.inverted = false) :
    walkRange m bound (btreeBounds bound)
      = .ok (m.toList.filter fun e => matchesRange bound e.1) := by
  cases bound with
  | all =>
      have htrue : m.toList.filter (fun e => matchesRange .all e.1) = m.toList :=
        List.filter_eq_self.mpr fun _ _ => rfl
      rw [htrue]
      rfl
  | point k =>
      have hlt : bytesLt (k ++ [0]) k = false := by
        have hpre : k.isPrefixOf (k ++ [0]) := List.isPrefixOf_iff_prefix.mpr ⟨[0], rfl⟩
        rw [bytesLt_eq_not_bytesLe, bytesLe_of_isPrefixOf hpre, Bool.not_true]
      simp only [walkRange, btreeBounds, btreeRange, hlt, Bool.false_eq_true, if_false,
        point_interval_iff, matchesRange]
      rfl
  | fromKey k => rfl
  | prefixOf p =>
      -- the walk of a prefix stops at the first key without it, and no later key has it
      have hfilter : m.toList.filter (fun e => matchesRange (.prefixOf p) e.1)
          = (m.toList.filter fun e => bytesLe p e.1).filter fun e => p.isPrefixOf e.1 := by
        rw [List.filter_filter]
        refine List.filter_congr fun e _ => ?_
        simp only [matchesRange]
        cases hp : p.isPrefixOf e.1 with
        | false => rfl
        | true => rw [bytesLe_of_isPrefixOf hp, Bool.and_self]
      rw [hfilter, ← takeWhile_eq_filter
        (ExtTreeMap.ordered_keys_toList.sublist List.filter_sublist) ?_]
      · rfl
      · intro x hx y _ hlt hpy
        exact isPrefixOf_of_between (List.mem_filter.mp hx).2 hlt hpy
  | range start stop =>
      simp only [RangeBound.inverted] at h
      simp only [walkRange, btreeBounds, btreeRange, h, Bool.false_eq_true, if_false]
      rfl

/-- A walk that returns had its bounds in order. -/
theorem inverted_of_walkRange {β : Type} {m : ExtTreeMap Bytes β} {bound : RangeBound}
    {entries : List (Bytes × β)} (h : walkRange m bound (btreeBounds bound) = .ok entries) :
    bound.inverted = false := by
  cases bound with
  | all | point k | fromKey k | prefixOf p => rfl
  | range start stop =>
      cases hlt : bytesLt stop start with
      | false => rw [RangeBound.inverted, hlt]
      | true =>
          simp only [walkRange, btreeBounds, btreeRange, hlt, if_true] at h
          cases h

/-- An inverted range matches nothing. -/
theorem not_matchesRange_of_inverted {bound : RangeBound} (h : bound.inverted = true)
    (key : Bytes) : matchesRange bound key = false := by
  cases bound with
  | all | point k | fromKey k | prefixOf p => cases h
  | range start stop =>
      rw [matchesRange, Bool.eq_false_iff]
      intro hmatch
      obtain ⟨hstart, hstop⟩ := (Bool.and_eq_true _ _).mp hmatch
      have hlt := bytesLt_of_le_of_lt (bytesLe_of_bytesLt (bytesLt_of_le_of_lt hstart hstop)) h
      rw [bytesLt_irrefl] at hlt
      cases hlt

/-- What a walk has returned. -/
theorem walkRange_eq_ok {β : Type} {m : ExtTreeMap Bytes β} {bound : RangeBound}
    {entries : List (Bytes × β)} (h : walkRange m bound (btreeBounds bound) = .ok entries) :
    entries = m.toList.filter fun e => matchesRange bound e.1 := by
  rw [walkRange_eq_filter m (inverted_of_walkRange h)] at h
  cases h
  rfl

/-- A map's entries have distinct keys. -/
theorem nodup_keys_of_sublist {β : Type} {m : ExtTreeMap Bytes β} {entries : List (Bytes × β)}
    (h : entries.Sublist m.toList) : (entries.map (·.1)).Nodup := by
  have hm : (m.toList.map (·.1)).Nodup := by
    rw [ExtTreeMap.map_fst_toList_eq_keys]
    exact ExtTreeMap.nodup_keys
  exact hm.sublist (h.map _)

end Rudurru
