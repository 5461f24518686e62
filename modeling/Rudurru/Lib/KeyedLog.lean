import Mathlib

/-!
# Rudurru.Lib.KeyedLog

Logs of keyed records in which the last record of a key decides. A record either gives its key a
value or takes it away (`val rec = none`); `last` reads a log off, one key at a time.

A log can be read up to some point by dropping the records beyond it, and it can be replaced by
one record for each key that has a value. `Isolated` is what makes the two agree: the records
that are dropped stand alone, with nothing of their key before or after them.
-/

namespace KeyedLog

variable {ρ κ β γ : Type} [DecidableEq κ] {keyOf : ρ → κ} {val : ρ → Option β}

/-- The value of a key after the log, from its value before. -/
def lastFrom (keyOf : ρ → κ) (val : ρ → Option β) (init : Option β) (recs : List ρ) (k : κ) :
    Option β :=
  recs.foldl (fun acc rec => if keyOf rec = k then val rec else acc) init

/-- The value of a key after the log. -/
def last (keyOf : ρ → κ) (val : ρ → Option β) (recs : List ρ) (k : κ) : Option β :=
  lastFrom keyOf val none recs k

@[simp] theorem last_nil (k : κ) : last keyOf val [] k = none := rfl

theorem lastFrom_cons (init : Option β) (rec : ρ) (recs : List ρ) (k : κ) :
    lastFrom keyOf val init (rec :: recs) k
      = lastFrom keyOf val (if keyOf rec = k then val rec else init) recs k := rfl

/-- Later records are read on top of earlier ones. -/
theorem last_append (recs recs' : List ρ) (k : κ) :
    last keyOf val (recs ++ recs') k = lastFrom keyOf val (last keyOf val recs k) recs' k :=
  List.foldl_append

/-- The last record decides for its key and for no other. -/
theorem last_concat (recs : List ρ) (rec : ρ) (k : κ) :
    last keyOf val (recs ++ [rec]) k = if keyOf rec = k then val rec else last keyOf val recs k :=
  last_append recs [rec] k

/-- A key without a record keeps what it had. -/
theorem lastFrom_of_forall_ne {init : Option β} {recs : List ρ} {k : κ}
    (h : ∀ rec ∈ recs, keyOf rec ≠ k) : lastFrom keyOf val init recs k = init := by
  induction recs generalizing init with
  | nil => rfl
  | cons rec recs ih =>
      rw [lastFrom_cons, if_neg (h rec (by simp))]
      exact ih fun rec' hrec' => h rec' (by simp [hrec'])

/-- The records of other keys do not matter. -/
theorem lastFrom_filter (p : κ → Bool) (init : Option β) (recs : List ρ) (k : κ) :
    lastFrom keyOf val init (recs.filter fun rec => p (keyOf rec)) k
      = if p k then lastFrom keyOf val init recs k else init := by
  induction recs generalizing init with
  | nil => rw [List.filter_nil]; exact (ite_self init).symm
  | cons rec recs ih =>
      by_cases hk : keyOf rec = k
      · subst hk
        cases hp : p (keyOf rec) with
        | true =>
            rw [List.filter_cons_of_pos (by exact hp), lastFrom_cons, lastFrom_cons, if_pos rfl, ih,
              hp]
            rfl
        | false =>
            rw [List.filter_cons_of_neg (by simp [hp]), ih, hp]
            rfl
      · have hskip : lastFrom keyOf val init (rec :: recs) k = lastFrom keyOf val init recs k := by
          rw [lastFrom_cons, if_neg hk]
        rw [hskip, ← ih]
        cases hp : p (keyOf rec) with
        | true => rw [List.filter_cons_of_pos (by exact hp), lastFrom_cons, if_neg hk]
        | false => rw [List.filter_cons_of_neg (by simp [hp])]

/-- Two readings that agree on every record. -/
theorem lastFrom_congr {κ' : Type} [DecidableEq κ'] {keyOf' : ρ → κ'} {val' : ρ → Option β}
    {recs : List ρ} {k : κ} {k' : κ'} (h : ∀ rec ∈ recs, (keyOf rec = k ↔ keyOf' rec = k') ∧
      val rec = val' rec) (init : Option β) :
    lastFrom keyOf val init recs k = lastFrom keyOf' val' init recs k' := by
  induction recs generalizing init with
  | nil => rfl
  | cons rec recs ih =>
      obtain ⟨hkey, hval⟩ := h rec List.mem_cons_self
      rw [lastFrom_cons, lastFrom_cons, hval, ih fun r hr => h r (List.mem_cons_of_mem _ hr)]
      simp only [hkey]

/-- The last record of a key decides. -/
theorem last_of_split {before after : List ρ} {rec : ρ}
    (h : ∀ rec' ∈ after, keyOf rec' ≠ keyOf rec) :
    last keyOf val (before ++ rec :: after) (keyOf rec) = val rec := by
  rw [last_append, lastFrom_cons, if_pos rfl, lastFrom_of_forall_ne h]

/-- A key with a value has a last record. -/
theorem exists_split_of_last {recs : List ρ} {k : κ} {b : β} (h : last keyOf val recs k = some b) :
    ∃ before rec after, recs = before ++ rec :: after ∧ keyOf rec = k ∧ val rec = some b := by
  induction recs using List.reverseRecOn with
  | nil => cases h
  | append_singleton recs rec ih =>
      rw [last_concat] at h
      by_cases hk : keyOf rec = k
      · rw [if_pos hk] at h
        exact ⟨recs, rec, [], rfl, hk, h⟩
      · rw [if_neg hk] at h
        obtain ⟨before, rec', after, rfl, hk', hval⟩ := ih h
        exact ⟨before, rec', after ++ [rec], by simp, hk', hval⟩

theorem last_map (f : β → γ) (recs : List ρ) (k : κ) :
    last keyOf (fun rec => (val rec).map f) recs k = (last keyOf val recs k).map f := by
  induction recs using List.reverseRecOn with
  | nil => rfl
  | append_singleton recs rec ih =>
      rw [last_concat, last_concat, ih]
      split <;> rfl

/-! ### Records that stand alone -/

/-- Every record with the property gives its key a value, where it had none before, and is the
last of its key. -/
def Isolated (keyOf : ρ → κ) (val : ρ → Option β) (p : ρ → Prop) (recs : List ρ) : Prop :=
  ∀ before rec after, recs = before ++ rec :: after → p rec →
    (val rec).isSome ∧ last keyOf val before (keyOf rec) = none ∧
      ∀ rec' ∈ after, keyOf rec' ≠ keyOf rec

variable {p : ρ → Prop} {recs : List ρ}

theorem Isolated.of_append {recs' : List ρ} (h : Isolated keyOf val p (recs ++ recs')) :
    Isolated keyOf val p recs := by
  intro before rec after hsplit hp
  obtain ⟨hsome, hnone, hafter⟩ := h before rec (after ++ recs') (by simp [hsplit]) hp
  exact ⟨hsome, hnone, fun r hr => hafter r (by simp [hr])⟩

theorem Isolated.mono {q : ρ → Prop} (h : Isolated keyOf val p recs) (hq : ∀ rec, q rec → p rec) :
    Isolated keyOf val q recs :=
  fun before rec after hsplit hrec => h before rec after hsplit (hq rec hrec)

/-- A log with one record for each key. -/
theorem isolated_of_nodup (hnodup : (recs.map keyOf).Nodup)
    (hval : ∀ rec ∈ recs, (val rec).isSome) : Isolated keyOf val p recs := by
  intro before rec after hsplit _
  subst hsplit
  rw [List.map_append, List.map_cons, List.nodup_append] at hnodup
  obtain ⟨-, hcons, hdisjoint⟩ := hnodup
  refine ⟨hval rec (by simp), lastFrom_of_forall_ne ?_, ?_⟩
  · intro rec' hrec'
    exact hdisjoint _ (List.mem_map_of_mem hrec') _ (by simp)
  · intro rec' hrec' heq
    exact (List.nodup_cons.mp hcons).1 (heq ▸ List.mem_map_of_mem hrec')

/-- With one record for each key, that record is the last one. -/
theorem last_of_mem (hnodup : (recs.map keyOf).Nodup) (hval : ∀ rec ∈ recs, (val rec).isSome)
    {rec : ρ} (hrec : rec ∈ recs) : last keyOf val recs (keyOf rec) = val rec := by
  obtain ⟨before, after, hsplit⟩ := List.append_of_mem hrec
  have hisolated : Isolated keyOf val (fun _ => True) recs := isolated_of_nodup hnodup hval
  rw [hsplit, last_of_split (hisolated before rec after hsplit trivial).2.2]

/-- Isolated records are the records of their keys: there are no two of one key. -/
theorem Isolated.nodup_keys [DecidablePred p] (h : Isolated keyOf val p recs) :
    ((recs.filter p).map keyOf).Nodup := by
  induction recs using List.reverseRecOn with
  | nil => simp
  | append_singleton recs rec ih =>
      rw [List.filter_append, List.map_append, List.nodup_append]
      refine ⟨ih h.of_append, ?_, ?_⟩
      · by_cases hp : p rec <;> simp [hp]
      · intro k hk k' hk'
        obtain ⟨rec', hrec', rfl⟩ := List.mem_map.mp hk
        obtain ⟨hmem, hp'⟩ := List.mem_filter.mp hrec'
        obtain ⟨rec'', hrec'', rfl⟩ := List.mem_map.mp hk'
        obtain rfl : rec'' = rec := List.mem_singleton.mp (List.mem_filter.mp hrec'').1
        obtain ⟨before, after, rfl⟩ := List.append_of_mem hmem
        have := (h before rec' (after ++ [rec'']) (by simp) (by simpa using hp')).2.2 rec''
          (by simp)
        exact fun heq => this heq.symm

/-- **Reading up to a point.** Dropping isolated records is the same as dropping their values
from the reading. -/
theorem last_filter {q : ρ → Bool} {q' : β → Bool} (hq : ∀ rec b, val rec = some b → q' b = q rec)
    (h : Isolated keyOf val (fun rec => q rec = false) recs) (k : κ) :
    last keyOf val (recs.filter q) k = (last keyOf val recs k).filter q' := by
  induction recs using List.reverseRecOn with
  | nil => rfl
  | append_singleton recs rec ih =>
      have ih := ih h.of_append
      rw [List.filter_append, last_concat]
      cases hrec : q rec with
      | true =>
          rw [List.filter_cons_of_pos hrec, List.filter_nil, last_concat]
          by_cases hk : keyOf rec = k
          · rw [if_pos hk, if_pos hk]
            cases hval : val rec with
            | none => rfl
            | some b => rw [Option.filter_some_pos ((hq rec b hval).trans hrec)]
          · rw [if_neg hk, if_neg hk, ih]
      | false =>
          rw [List.filter_cons_of_neg (by simp [hrec]), List.filter_nil, List.append_nil, ih]
          by_cases hk : keyOf rec = k
          · obtain ⟨hsome, hnone, -⟩ := h recs rec [] rfl hrec
            obtain ⟨b, hb⟩ := Option.isSome_iff_exists.mp hsome
            rw [if_pos hk, ← hk, hnone, hb, Option.filter_some_neg (by simp [hq rec b hb, hrec])]
            rfl
          · rw [if_neg hk]

end KeyedLog
