import Mathlib

/-!
# Rudurru.Lib.Resync

Readers that go on behind damage.

A tape says what is found at each position: nothing, a record, a candidate that fails its check, or
something that makes the reader stop. What starts somewhere ends behind it and inside the tape, so a
reader gets to the end whatever it does with the corrupt candidates. `Resume` is what it does: the
position in a corrupt candidate, or behind it, where it goes on.

The reader that goes on one position behind the start of every corrupt candidate
(`Resume.byteByByte`) passes over nothing. Another one finds all that it finds, in the same order,
exactly when no corrupt candidate hides a record (`read_sublist_iff`): up to there both stand at the
same positions (`InStep`).
-/

namespace Resync

variable {ρ σ : Type*}

/-- What a reader finds at a position. -/
inductive Sight (ρ : Type*)
  /-- Nothing starts here. -/
  | junk
  /-- The tape ends, or a candidate runs past its end. -/
  | stop
  /-- A candidate that fails its check; it would end at `next`. -/
  | corrupt (next : Nat)
  /-- A record that ends at `next`. -/
  | record (r : ρ) (next : Nat)

/-- What is found at every position. -/
structure Tape (ρ : Type*) where
  length : Nat
  sight : Nat → Sight ρ
  junk_lt : ∀ {pos}, sight pos = .junk → pos < length
  corrupt_ends : ∀ {pos next}, sight pos = .corrupt next → pos < next ∧ next ≤ length
  record_ends : ∀ {pos r next}, sight pos = .record r next → pos < next ∧ next ≤ length

/-- Where a reader goes on that has met a corrupt candidate from `pos` to `next`. -/
structure Resume where
  place : Nat → Nat → Nat
  forward : ∀ {pos next}, pos < next → pos < place pos next ∧ place pos next ≤ next

namespace Resume

/-- One position behind the start. -/
def byteByByte : Resume where
  place := fun pos _ => pos + 1
  forward := fun h => ⟨Nat.lt_succ_self _, h⟩

/-- Behind the candidate. -/
def pastCandidate : Resume where
  place := fun _ next => next
  forward := fun h => ⟨h, Nat.le_refl _⟩

end Resume

namespace Tape

/-- The reading loop: the records found, each with the position where it starts. -/
def scan (T : Tape ρ) (R : Resume) : Nat → Nat → List (Nat × ρ)
  | 0, _ => []
  | fuel + 1, pos =>
      match T.sight pos with
      | .junk => T.scan R fuel (pos + 1)
      | .stop => []
      | .corrupt next => T.scan R fuel (R.place pos next)
      | .record r next => (pos, r) :: T.scan R fuel next

/-- The records found from a position on. Every round goes forward, so the length is fuel enough. -/
def read (T : Tape ρ) (R : Resume) (pos : Nat) : List (Nat × ρ) := T.scan R (T.length + 1) pos

variable {T : Tape ρ} {R : Resume}

/-- Induction from the end of the tape. -/
theorem backward {P : Nat → Prop} (T : Tape ρ)
    (h : ∀ pos, (∀ next, pos < next → next ≤ T.length → P next) → P pos) (pos : Nat) : P pos := by
  induction hleft : T.length - pos using Nat.strong_induction_on generalizing pos with
  | h left ih =>
      apply h
      intro next hlt hle
      exact ih (T.length - next) (by omega) next rfl

/-! ### One round at a time -/

/-- Behind the end nothing is found. -/
theorem scan_of_length_lt {fuel pos : Nat} (h : T.length < pos) : T.scan R fuel pos = [] := by
  cases fuel with
  | zero => rfl
  | succ fuel =>
      rw [scan]
      cases hsight : T.sight pos with
      | junk => have := T.junk_lt hsight; omega
      | stop => rfl
      | corrupt next => have := T.corrupt_ends hsight; omega
      | record r next => have := T.record_ends hsight; omega

/-- Any fuel does that the reader cannot use up. -/
theorem scan_eq_of_fuel {fuel fuel' : Nat} : ∀ {pos}, T.length < pos + fuel →
    T.length < pos + fuel' → T.scan R fuel pos = T.scan R fuel' pos := by
  induction fuel generalizing fuel' with
  | zero =>
      intro pos hpos _
      have hbehind : T.length < pos := hpos
      rw [scan_of_length_lt hbehind, scan_of_length_lt hbehind]
  | succ fuel ih =>
      intro pos hpos hpos'
      cases fuel' with
      | zero =>
          have hbehind : T.length < pos := hpos'
          rw [scan_of_length_lt hbehind, scan_of_length_lt hbehind]
      | succ fuel' =>
          rw [scan, scan]
          cases hsight : T.sight pos with
          | junk => exact ih (by omega) (by omega)
          | stop => rfl
          | corrupt next =>
              have hforward := R.forward (T.corrupt_ends hsight).1
              exact ih (by omega) (by omega)
          | record r next =>
              have hends := T.record_ends hsight
              exact congrArg _ (ih (by omega) (by omega))

theorem read_of_junk {pos : Nat} (h : T.sight pos = .junk) :
    T.read R pos = T.read R (pos + 1) := by
  rw [read, scan, h]
  exact scan_eq_of_fuel (by omega) (by omega)

theorem read_of_stop {pos : Nat} (h : T.sight pos = .stop) : T.read R pos = [] := by
  rw [read, scan, h]

theorem read_of_corrupt {pos next : Nat} (h : T.sight pos = .corrupt next) :
    T.read R pos = T.read R (R.place pos next) := by
  have hforward := R.forward (T.corrupt_ends h).1
  rw [read, scan, h]
  exact scan_eq_of_fuel (by omega) (by omega)

theorem read_of_record {pos next : Nat} {r : ρ} (h : T.sight pos = .record r next) :
    T.read R pos = (pos, r) :: T.read R next := by
  have hends := T.record_ends h
  rw [read, scan, h]
  exact congrArg _ (scan_eq_of_fuel (by omega) (by omega))

/-- What is found from a position on is a record of the tape, and not in front of it. -/
theorem mem_read {x : Nat × ρ} (pos : Nat) (hx : x ∈ T.read R pos) :
    pos ≤ x.1 ∧ ∃ next, T.sight x.1 = .record x.2 next := by
  induction pos using T.backward with
  | h pos ih =>
      cases hsight : T.sight pos with
      | junk =>
          rw [read_of_junk hsight] at hx
          obtain ⟨hle, hrecord⟩ := ih (pos + 1) (by omega) (T.junk_lt hsight) hx
          exact ⟨by omega, hrecord⟩
      | stop =>
          rw [read_of_stop hsight] at hx
          cases hx
      | corrupt next =>
          have hends := T.corrupt_ends hsight
          have hforward := R.forward hends.1
          rw [read_of_corrupt hsight] at hx
          obtain ⟨hle, hrecord⟩ := ih _ hforward.1 (by omega) hx
          exact ⟨by omega, hrecord⟩
      | record r next =>
          have hends := T.record_ends hsight
          rw [read_of_record hsight] at hx
          rcases List.mem_cons.mp hx with rfl | hx
          · exact ⟨Nat.le_refl _, next, hsight⟩
          · obtain ⟨hle, hrecord⟩ := ih next hends.1 hends.2 hx
            exact ⟨by omega, hrecord⟩

/-! ### What a corrupt candidate hides -/

/-- The byte-by-byte reader goes to the next position without a record. -/
def Passable (T : Tape ρ) (pos : Nat) : Prop :=
  T.sight pos = .junk ∨ ∃ next, T.sight pos = .corrupt next

/-- Nothing is found between two positions, the first one apart. -/
def Clean (T : Tape ρ) (pos next : Nat) : Prop := ∀ q, pos < q → q < next → T.Passable q

/-- Between two positions a record is found, and before it nothing. -/
def Hides (T : Tape ρ) (pos next : Nat) : Prop :=
  ∃ q r n, pos < q ∧ q < next ∧ T.sight q = .record r n ∧ T.Clean pos q

/-- The positions where the byte-by-byte reader and another one stand together. -/
inductive InStep (T : Tape ρ) (R : Resume) : Nat → Prop
  | start : InStep T R 0
  | junk {pos} : InStep T R pos → T.sight pos = .junk → InStep T R (pos + 1)
  | record {pos r next} : InStep T R pos → T.sight pos = .record r next → InStep T R next
  | corrupt {pos next} : InStep T R pos → T.sight pos = .corrupt next →
      T.Clean pos (R.place pos next) → InStep T R (R.place pos next)

/-- No corrupt candidate that both readers meet hides a record in the part that is skipped. -/
def NothingHidden (T : Tape ρ) (R : Resume) : Prop :=
  ∀ pos next, T.InStep R pos → T.sight pos = .corrupt next → ¬ T.Hides pos (R.place pos next)

theorem Passable.read_eq {pos : Nat} (h : T.Passable pos) :
    T.read .byteByByte pos = T.read .byteByByte (pos + 1) := by
  rcases h with h | ⟨next, h⟩
  · exact read_of_junk h
  · exact read_of_corrupt h

/-- The byte-by-byte reader goes through a clean part. -/
theorem Clean.read_eq {pos next : Nat} (h : T.Clean pos next) (hlt : pos < next) :
    T.read .byteByByte (pos + 1) = T.read .byteByByte next := by
  induction next, hlt using Nat.le_induction with
  | base => rfl
  | succ next hle ih =>
      have hbefore : T.Clean pos next := fun q hq hlt => h q hq (by omega)
      rw [ih hbefore]
      exact (h next hle (by omega)).read_eq

/-- A part is clean, or it hides a record, or the byte-by-byte reader stops in it. -/
theorem clean_or_hides (T : Tape ρ) (pos next : Nat) :
    T.Clean pos next ∨ T.Hides pos next ∨
      ∃ q, pos < q ∧ T.sight q = .stop ∧ T.Clean pos q := by
  induction next with
  | zero => exact .inl fun q _ hlt => absurd hlt (Nat.not_lt_zero q)
  | succ next ih =>
      rcases ih with hclean | ⟨q, r, n, hq, hlt, hrecord, hclean⟩ | hstop
      · rcases Nat.lt_or_ge pos next with hpos | hpos
        · cases hsight : T.sight next with
          | stop => exact .inr (.inr ⟨next, hpos, hsight, hclean⟩)
          | record r n => exact .inr (.inl ⟨next, r, n, hpos, Nat.lt_succ_self _, hsight, hclean⟩)
          | junk | corrupt n =>
              left
              intro q hq hlt
              rcases Nat.lt_succ_iff_lt_or_eq.mp hlt with hlt | rfl
              · exact hclean q hq hlt
              · simp [Passable, hsight]
        · exact .inl fun q hq hlt => by omega
      · exact .inr (.inl ⟨q, r, n, hq, by omega, hrecord, hclean⟩)
      · exact .inr (.inr hstop)

/-! ### The comparison -/

/-- Up to a position where they stand together, two readers have found the same. -/
theorem InStep.split {pos : Nat} (h : T.InStep R pos) :
    ∃ found, T.read .byteByByte 0 = found ++ T.read .byteByByte pos ∧
      T.read R 0 = found ++ T.read R pos := by
  induction h with
  | start => exact ⟨[], rfl, rfl⟩
  | @junk pos _ hsight ih =>
      obtain ⟨found, hwide, hnarrow⟩ := ih
      exact ⟨found, by rw [hwide, read_of_junk hsight], by rw [hnarrow, read_of_junk hsight]⟩
  | @record pos r next _ hsight ih =>
      obtain ⟨found, hwide, hnarrow⟩ := ih
      refine ⟨found ++ [(pos, r)], ?_, ?_⟩
      · rw [hwide, read_of_record hsight, List.append_assoc, List.singleton_append]
      · rw [hnarrow, read_of_record hsight, List.append_assoc, List.singleton_append]
  | @corrupt pos next _ hsight hclean ih =>
      obtain ⟨found, hwide, hnarrow⟩ := ih
      have hforward := R.forward (T.corrupt_ends hsight).1
      refine ⟨found, ?_, ?_⟩
      · rw [hwide, read_of_corrupt hsight]
        exact congrArg _ (hclean.read_eq hforward.1)
      · rw [hnarrow, read_of_corrupt hsight]

/-- A record that a corrupt candidate hides is lost to the other reader. -/
theorem InStep.not_sublist {pos next : Nat} (h : T.InStep R pos)
    (hsight : T.sight pos = .corrupt next) (hhides : T.Hides pos (R.place pos next)) :
    ¬ (T.read .byteByByte 0).Sublist (T.read R 0) := by
  obtain ⟨q, r, n, hq, hlt, hrecord, hclean⟩ := hhides
  obtain ⟨found, hwide, hnarrow⟩ := h.split
  have hfinds : T.read .byteByByte pos = (q, r) :: T.read .byteByByte n := by
    rw [read_of_corrupt hsight, ← read_of_record hrecord]
    exact hclean.read_eq hq
  intro hsub
  rw [hwide, hnarrow, List.append_sublist_append_left, hfinds, read_of_corrupt hsight] at hsub
  -- the other reader is behind it already
  have hbehind := (mem_read _ (hsub.subset List.mem_cons_self)).1
  exact absurd hlt (Nat.not_lt.mpr hbehind)

/-- From where the readers stand together on, the other one finds the same where nothing is
hidden, and possibly more where the byte-by-byte reader stops. -/
theorem NothingHidden.sublist (h : T.NothingHidden R) (pos : Nat) (hpos : T.InStep R pos) :
    (T.read .byteByByte pos).Sublist (T.read R pos) := by
  induction pos using T.backward with
  | h pos ih =>
      cases hsight : T.sight pos with
      | stop =>
          rw [read_of_stop hsight]
          exact List.nil_sublist _
      | junk =>
          rw [read_of_junk hsight, read_of_junk hsight]
          exact ih _ (by omega) (T.junk_lt hsight) (hpos.junk hsight)
      | record r next =>
          have hends := T.record_ends hsight
          rw [read_of_record hsight, read_of_record hsight]
          exact (ih next hends.1 hends.2 (hpos.record hsight)).cons_cons _
      | corrupt next =>
          have hends := T.corrupt_ends hsight
          have hforward := R.forward hends.1
          have hwide : T.read .byteByByte pos = T.read .byteByByte (pos + 1) :=
            read_of_corrupt hsight
          rw [hwide, read_of_corrupt hsight]
          rcases T.clean_or_hides pos (R.place pos next)
            with hclean | hhides | ⟨q, hq, hstop, hclean⟩
          · rw [hclean.read_eq hforward.1]
            exact ih _ hforward.1 (by omega) (hpos.corrupt hsight hclean)
          · exact absurd hhides (h pos next hpos hsight)
          · rw [hclean.read_eq hq, read_of_stop hstop]
            exact List.nil_sublist _

/-- **When a reader finds all that the byte-by-byte reader finds**, in the same order. While nothing
is hidden the two stand at the same positions again after each corrupt candidate. The first one that
hides a record is found by one of them only, and the positions before it leave no room to make up
for it. -/
theorem read_sublist_iff :
    (T.read .byteByByte 0).Sublist (T.read R 0) ↔ T.NothingHidden R := by
  constructor
  · intro hsub pos next hpos hsight hhides
    exact hpos.not_sublist hsight hhides hsub
  · intro h
    exact h.sublist 0 .start

/-! ### Contents -/

/-- Lists with the same image are the same where the image tells their members apart. -/
theorem eq_of_map_eq {α : Type*} {g : α → σ} {l l' : List α}
    (hg : ∀ x ∈ l, ∀ y ∈ l', g x = g y → x = y) (h : l.map g = l'.map g) : l = l' := by
  induction l generalizing l' with
  | nil => exact (List.map_eq_nil_iff.mp h.symm).symm
  | cons x l ih =>
      cases l' with
      | nil => cases h
      | cons y l' =>
          rw [List.map_cons, List.map_cons, List.cons.injEq] at h
          rw [hg x List.mem_cons_self y List.mem_cons_self h.1]
          congr 1
          exact ih (fun z hz w hw => hg z (List.mem_cons_of_mem _ hz) w
            (List.mem_cons_of_mem _ hw)) h.2

/-- Where what `f` says of a record tells where it is, a reader that finds what `f` says of the
records of another one finds the records themselves. -/
theorem sublist_of_map_sublist {R' : Resume} {f : Nat × ρ → σ}
    (hf : ∀ p q r s m n, T.sight p = .record r m → T.sight q = .record s n →
      f (p, r) = f (q, s) → p = q)
    (h : ((T.read R 0).map f).Sublist ((T.read R' 0).map f)) :
    (T.read R 0).Sublist (T.read R' 0) := by
  obtain ⟨found, hsub, heq⟩ := List.sublist_map_iff.mp h
  have hsame : T.read R 0 = found := by
    refine eq_of_map_eq (fun x hx y hy hxy => ?_) heq
    obtain ⟨m, hm⟩ := (mem_read 0 hx).2
    obtain ⟨n, hn⟩ := (mem_read 0 (hsub.subset hy)).2
    have hplace : x.1 = y.1 := hf _ _ _ _ _ _ hm hn hxy
    rw [hplace, hn, Sight.record.injEq] at hm
    exact Prod.ext hplace hm.1.symm
  rw [hsame]
  exact hsub

end Tape

end Resync
