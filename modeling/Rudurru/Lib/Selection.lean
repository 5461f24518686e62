import Mathlib

/-!
# Rudurru.Lib.Selection

Sorting a slice, and selecting its least elements before sorting them.

An unstable sort may leave equal elements in any order, and a selection may leave both sides of its
element in any order: `SliceOps` is any pair of functions that meet these contracts. Where no two
elements of a list are equal to the comparator the outcome is determined (`eq_sortUnstable`), and
sorting what a selection keeps is the same as keeping the beginning of what sorting gives
(`sortUnstable_take_selectNth`).
-/

open Std (TransCmp OrientedCmp)

/-- `sort_unstable_by` and `select_nth_unstable_by`. The comparator is a total preorder. -/
structure SliceOps (α : Type) where
  sortUnstable : (α → α → Ordering) → List α → List α
  selectNth : (α → α → Ordering) → Nat → List α → List α
  /-- The slice is permuted. -/
  sortUnstable_perm : ∀ cmp l, (sortUnstable cmp l).Perm l
  /-- Afterwards it is in order. -/
  sortUnstable_pairwise : ∀ cmp [TransCmp cmp] l,
    (sortUnstable cmp l).Pairwise fun a b => (cmp a b).isLE
  /-- The slice is permuted. -/
  selectNth_perm : ∀ cmp n l, (selectNth cmp n l).Perm l
  /-- Afterwards nothing before the index is greater than the element there, and nothing after it
  is less. -/
  selectNth_spec : ∀ cmp [TransCmp cmp] n l, n < l.length → ∃ before a after,
    selectNth cmp n l = before ++ a :: after ∧ before.length = n ∧
      (∀ b ∈ before, (cmp b a).isLE) ∧ ∀ b ∈ after, (cmp a b).isLE

namespace SliceOps

variable {α : Type} {cmp : α → α → Ordering}

theorem transCmp_comap {β : Type} (cmp : β → β → Ordering) [TransCmp cmp] (f : α → β) :
    TransCmp fun a b => cmp (f a) (f b) where
  eq_swap := OrientedCmp.eq_swap
  isLE_trans := TransCmp.isLE_trans

/-- No two elements of the list are equal to the comparator. -/
def Distinguishes (cmp : α → α → Ordering) (l : List α) : Prop :=
  ∀ a ∈ l, ∀ b ∈ l, (cmp a b).isLE → (cmp b a).isLE → a = b

theorem Distinguishes.perm {l l' : List α} (h : Distinguishes cmp l) (hl : l'.Perm l) :
    Distinguishes cmp l' :=
  fun a ha b hb => h a (hl.mem_iff.mp ha) b (hl.mem_iff.mp hb)

/-- **A list in order is the one sorting gives.** -/
theorem eq_sortUnstable (ops : SliceOps α) [TransCmp cmp] {l l' : List α}
    (h : Distinguishes cmp l) (hperm : l'.Perm l)
    (hsorted : l'.Pairwise fun a b => (cmp a b).isLE) : ops.sortUnstable cmp l = l' := by
  refine List.Perm.eq_of_pairwise ?_ (ops.sortUnstable_pairwise cmp l) hsorted
    ((ops.sortUnstable_perm cmp l).trans hperm.symm)
  intro a b ha hb
  exact h a ((ops.sortUnstable_perm cmp l).mem_iff.mp ha) b (hperm.mem_iff.mp hb)

/-- **Selecting, then sorting what is kept.** What is kept are the least elements, and sorting
determines their order. -/
theorem sortUnstable_take_selectNth (ops : SliceOps α) [TransCmp cmp] {l : List α}
    (h : Distinguishes cmp l) {n : Nat} (hn : n < l.length) :
    ops.sortUnstable cmp ((ops.selectNth cmp n l).take (n + 1))
      = (ops.sortUnstable cmp l).take (n + 1) := by
  obtain ⟨before, a, after, hselect, hlen, hbefore, hafter⟩ := ops.selectNth_spec cmp n l hn
  have hperm := ops.selectNth_perm cmp n l
  have hkept : (ops.selectNth cmp n l).take (n + 1) = before ++ [a] := by
    rw [hselect, List.append_cons]
    exact List.take_left' (by simp [hlen])
  rw [hselect] at hperm
  rw [hkept]
  -- sort both sides of the cut
  have hsorted : ops.sortUnstable cmp l
      = ops.sortUnstable cmp (before ++ [a]) ++ ops.sortUnstable cmp after := by
    refine ops.eq_sortUnstable h ?_ ?_
    · refine List.Perm.trans ?_ hperm
      rw [List.append_cons before a after]
      exact (ops.sortUnstable_perm cmp _).append (ops.sortUnstable_perm cmp _)
    · refine List.pairwise_append.mpr
        ⟨ops.sortUnstable_pairwise cmp _, ops.sortUnstable_pairwise cmp _, ?_⟩
      intro b hb c hc
      have hc := hafter c ((ops.sortUnstable_perm cmp after).mem_iff.mp hc)
      rcases List.mem_append.mp ((ops.sortUnstable_perm cmp _).mem_iff.mp hb) with hb | hb
      · exact TransCmp.isLE_trans (hbefore b hb) hc
      · obtain rfl := List.mem_singleton.mp hb
        exact hc
  rw [hsorted]
  refine (List.take_left' ?_).symm
  rw [(ops.sortUnstable_perm cmp _).length_eq]
  simp [hlen]

/-- Sorting in the opposite order. -/
theorem sortUnstable_swap (ops : SliceOps α) [TransCmp cmp] {l : List α}
    (h : Distinguishes cmp l) :
    ops.sortUnstable (fun a b => cmp b a) l = (ops.sortUnstable cmp l).reverse := by
  have : TransCmp fun a b => cmp b a := inferInstance
  refine ops.eq_sortUnstable ?_ ?_ ?_
  · intro a ha b hb hab hba
    exact h a ha b hb hba hab
  · exact (List.reverse_perm _).trans (ops.sortUnstable_perm cmp l)
  · exact List.pairwise_reverse.mpr (ops.sortUnstable_pairwise cmp l)

/-- The first `n` elements are in order, and none after them is less. -/
def Leads (cmp : α → α → Ordering) (n : Nat) (l : List α) : Prop :=
  ((l.take n).Pairwise fun a b => (cmp a b).isLE) ∧
    ∀ a ∈ l.take n, ∀ b ∈ l.drop n, (cmp a b).isLE

instance (cmp : α → α → Ordering) (n : Nat) (l : List α) : Decidable (Leads cmp n l) :=
  inferInstanceAs (Decidable (_ ∧ _))

/-- Only how elements compare with later ones matters. -/
theorem leads_congr {cmp' : α → α → Ordering} {n : Nat} {l : List α}
    (h : l.Pairwise fun a b => (cmp a b).isLE ↔ (cmp' a b).isLE) :
    Leads cmp n l ↔ Leads cmp' n l := by
  rw [← List.take_append_drop n l, List.pairwise_append] at h
  refine and_congr ⟨fun hfirst => ?_, fun hfirst => ?_⟩ ?_
  · exact h.1.imp₂ (fun _ _ hiff => hiff.mp) hfirst
  · exact h.1.imp₂ (fun _ _ hiff => hiff.mpr) hfirst
  · exact forall_congr' fun a => imp_congr_right fun ha => forall_congr' fun b =>
      imp_congr_right fun hb => h.2.2 a ha b hb

/-- **Sorting leaves the beginning of a list alone** exactly if it leads the rest in order. -/
theorem take_sortUnstable (ops : SliceOps α) [TransCmp cmp] {l : List α}
    (h : Distinguishes cmp l) (n : Nat) :
    (ops.sortUnstable cmp l).take n = l.take n ↔ Leads cmp n l := by
  constructor
  · intro heq
    have hsorted := ops.sortUnstable_pairwise cmp l
    have hperm := ops.sortUnstable_perm cmp l
    rw [← List.take_append_drop n (ops.sortUnstable cmp l), heq] at hsorted hperm
    have hrest : ((ops.sortUnstable cmp l).drop n).Perm (l.drop n) := by
      refine (List.perm_append_left_iff (l.take n)).mp (hperm.trans ?_)
      rw [List.take_append_drop]
    obtain ⟨hfirst, -, hcross⟩ := List.pairwise_append.mp hsorted
    exact ⟨hfirst, fun a ha b hb => hcross a ha b (hrest.mem_iff.mpr hb)⟩
  · intro hleads
    have hsplit : ops.sortUnstable cmp l = l.take n ++ ops.sortUnstable cmp (l.drop n) := by
      refine ops.eq_sortUnstable h ?_ ?_
      · have hperm := (ops.sortUnstable_perm cmp (l.drop n)).append_left (l.take n)
        rwa [List.take_append_drop] at hperm
      · refine List.pairwise_append.mpr ⟨hleads.1, ops.sortUnstable_pairwise cmp _, ?_⟩
        intro a ha b hb
        exact hleads.2 a ha b ((ops.sortUnstable_perm cmp _).mem_iff.mp hb)
    have hlen : (ops.sortUnstable cmp (l.drop n)).length = l.length - n := by
      rw [(ops.sortUnstable_perm cmp _).length_eq, List.length_drop]
    by_cases hn : n ≤ l.length
    · rw [hsplit]
      exact List.take_left' (List.length_take_of_le hn)
    · have hnil : ops.sortUnstable cmp (l.drop n) = [] :=
        List.eq_nil_of_length_eq_zero (by rw [hlen]; omega)
      rw [hsplit, hnil, List.append_nil, List.take_take, Nat.min_self]

theorem pairwise_insertionSort (cmp : α → α → Ordering) [TransCmp cmp] (l : List α) :
    (l.insertionSort fun a b => (cmp a b).isLE).Pairwise fun a b => (cmp a b).isLE := by
  have : Std.Total fun a b : α => (cmp a b).isLE = true := by
    refine ⟨fun a b => ?_⟩
    have hswap : cmp b a = (cmp a b).swap := OrientedCmp.eq_swap
    rw [hswap]
    cases cmp a b <;> simp
  have : IsTrans α fun a b => (cmp a b).isLE = true := ⟨fun _ _ _ => TransCmp.isLE_trans⟩
  exact List.pairwise_insertionSort _ l

/-- The contracts can be met: insertion sort does, also as a selection. -/
def insertion (α : Type) : SliceOps α where
  sortUnstable cmp l := l.insertionSort fun a b => (cmp a b).isLE
  selectNth cmp _ l := l.insertionSort fun a b => (cmp a b).isLE
  sortUnstable_perm _ _ := List.perm_insertionSort _ _
  sortUnstable_pairwise cmp _ l := pairwise_insertionSort cmp l
  selectNth_perm _ _ _ := List.perm_insertionSort _ _
  selectNth_spec cmp _ n l hn := by
    have hsorted := pairwise_insertionSort cmp l
    have hlen : n < (l.insertionSort fun a b => (cmp a b).isLE).length := by
      rwa [List.length_insertionSort]
    have hsplit := List.take_append_drop n (l.insertionSort fun a b => (cmp a b).isLE)
    rw [List.drop_eq_getElem_cons hlen] at hsplit
    rw [← hsplit, List.pairwise_append, List.pairwise_cons] at hsorted
    refine ⟨_, _, _, hsplit.symm, by rw [List.length_take]; omega, ?_, hsorted.2.1.1⟩
    exact fun b hb => hsorted.2.2 b hb _ (List.mem_cons_self ..)

end SliceOps
