import Mathlib

/-!
# Rudurru.Lib.FramedLog

Append-only logs of self-delimiting records, read front to back.

A log is a list of symbols; `next` looks at the unread part and says whether a record
starts there (`Step.record`, with the number of symbols it takes), the reader should stop
quietly, or it should give up with an error. `scan` is the reading loop.

`Framing` collects what makes such a format recoverable: an encoded record is read back
whatever follows it (`next_encode`), and a proper prefix of one — what a crash in the middle
of an append leaves behind — stops the reader quietly (`next_torn`). Two facts then hold of
every log: the records before any suffix are read first (`scan_encodeAll_append`), and
cutting a log anywhere keeps exactly the records that are complete
(`scan_take_encodeAll`).

Where the reader accepts nothing but encoded records (`Framing.Sound`), every input is some records
and a rest that does not start with one, and the scan reads these records
(`exists_scan_eq`).
-/

namespace FramedLog

variable {β ρ ε : Type*}

/-- What the reader finds at its current position. -/
inductive Step (ρ ε : Type*)
  /-- A record occupying the next `size` symbols. -/
  | record (r : ρ) (size : Nat)
  /-- The end of the readable part. -/
  | stop
  /-- An error the reader reports to its caller. -/
  | fail (e : ε)

/-- The reading loop: the records found, and the position reached or the error met. -/
def scan (next : List β → Step ρ ε) : Nat → List β → Nat → List ρ × Except ε Nat
  | 0, _, pos => ([], .ok pos)
  | fuel + 1, rest, pos =>
      match next rest with
      | .stop => ([], .ok pos)
      | .fail e => ([], .error e)
      | .record r size =>
          let out := scan next fuel (rest.drop size) (pos + size)
          (r :: out.1, out.2)

/-- Every record found is one that the reader takes somewhere. -/
theorem exists_next_of_mem_scan {next : List β → Step ρ ε} {fuel : Nat} :
    ∀ {rest : List β} {pos : Nat} {r : ρ}, r ∈ (scan next fuel rest pos).1 →
      ∃ rest' size, next rest' = .record r size := by
  induction fuel with
  | zero =>
      intro rest pos r h
      cases h
  | succ fuel ih =>
      intro rest pos r h
      rw [scan] at h
      cases hnext : next rest with
      | stop =>
          rw [hnext] at h
          cases h
      | fail e =>
          rw [hnext] at h
          cases h
      | record r' size =>
          rw [hnext] at h
          rcases List.mem_cons.mp h with rfl | h
          · exact ⟨rest, size, hnext⟩
          · exact ih h

/-- The encoding of a list of records. -/
def encodeAll (encode : ρ → List β) (rs : List ρ) : List β := rs.flatMap encode

@[simp] theorem encodeAll_nil (encode : ρ → List β) : encodeAll encode [] = [] := rfl
@[simp] theorem encodeAll_cons (encode : ρ → List β) (r : ρ) (rs : List ρ) :
    encodeAll encode (r :: rs) = encode r ++ encodeAll encode rs := rfl
@[simp] theorem encodeAll_append (encode : ρ → List β) (rs ss : List ρ) :
    encodeAll encode (rs ++ ss) = encodeAll encode rs ++ encodeAll encode ss := by
  simp [encodeAll]

/-- Where no record is empty and records can be told apart whatever follows them, so can logs. -/
theorem encodeAll_injOn {encode : ρ → List β} {p : ρ → Prop} (hne : ∀ r, p r → encode r ≠ [])
    (hinj : ∀ r r' s s', p r → p r' → encode r ++ s = encode r' ++ s' → r = r' ∧ s = s')
    {rs ss : List ρ} (hrs : ∀ r ∈ rs, p r) (hss : ∀ r ∈ ss, p r)
    (h : encodeAll encode rs = encodeAll encode ss) : rs = ss := by
  induction rs generalizing ss with
  | nil =>
      cases ss with
      | nil => rfl
      | cons r ss => exact absurd (List.append_eq_nil_iff.mp h.symm).1 (hne r (hss r (by simp)))
  | cons r rs ih =>
      cases ss with
      | nil => exact absurd (List.append_eq_nil_iff.mp h).1 (hne r (hrs r (by simp)))
      | cons r' ss =>
          obtain ⟨rfl, hrest⟩ := hinj r r' _ _ (hrs r (by simp)) (hss r' (by simp)) h
          rw [ih (fun x hx => hrs x (by simp [hx])) (fun x hx => hss x (by simp [hx])) hrest]

/-- The records of a log, each with the positions where it starts and ends. -/
def extents (encode : ρ → List β) : Nat → List ρ → List (ρ × Nat × Nat)
  | _, [] => []
  | pos, r :: rs =>
      (r, pos, pos + (encode r).length) :: extents encode (pos + (encode r).length) rs

theorem extents_append (encode : ρ → List β) (rs ss : List ρ) (pos : Nat) :
    extents encode pos (rs ++ ss)
      = extents encode pos rs ++ extents encode (pos + (encodeAll encode rs).length) ss := by
  induction rs generalizing pos with
  | nil => simp [extents]
  | cons r rs ih => simp [extents, ih, Nat.add_assoc]

/-- The records of a log lie in order, the first where the log starts. -/
theorem extents_bounds {encode : ρ → List β} {rs : List ρ} : ∀ {pos : Nat},
    ∀ x ∈ extents encode pos rs, x.1 ∈ rs ∧ pos ≤ x.2.1 ∧ x.2.2 = x.2.1 + (encode x.1).length ∧
      x.2.2 ≤ pos + (encodeAll encode rs).length := by
  induction rs with
  | nil =>
      intro pos x hx
      cases hx
  | cons r rs ih =>
      intro pos x hx
      rw [extents] at hx
      rw [encodeAll_cons, List.length_append]
      rcases List.mem_cons.mp hx with rfl | hx
      · exact ⟨by simp, Nat.le_refl _, rfl, by simp⟩
      · obtain ⟨hmem, hpos, hsize, hend⟩ := ih x hx
        exact ⟨by simp [hmem], by omega, hsize, by omega⟩

/-- The part of an encoded log kept by a cut: some complete records and a torn one. -/
theorem take_encodeAll (encode : ρ → List β) :
    ∀ (rs : List ρ), ∀ n ≤ (encodeAll encode rs).length,
      ∃ k ≤ rs.length, ∃ t, (encodeAll encode rs).take n = encodeAll encode (rs.take k) ++ t ∧
        (t = [] ∨ ∃ r ∈ rs, t <+: encode r ∧ t.length < (encode r).length) := by
  intro rs
  induction rs with
  | nil => intro n hn; exact ⟨0, by simp, [], by simp⟩
  | cons r rs ih =>
      intro n hn
      by_cases hlt : n < (encode r).length
      · refine ⟨0, by simp, (encode r).take n, ?_, .inr ⟨r, by simp, List.take_prefix _ _, ?_⟩⟩
        · simp [List.take_append, Nat.sub_eq_zero_of_le (Nat.le_of_lt hlt)]
        · simpa using hlt
      · have hle : (encode r).length ≤ n := Nat.le_of_not_lt hlt
        obtain ⟨k, hk, t, htake, ht⟩ := ih (n - (encode r).length) (by simp at hn; omega)
        refine ⟨k + 1, by simpa using hk, t, ?_, ?_⟩
        · simp only [encodeAll_cons, List.take_append, List.take_of_length_le hle,
            List.take_succ_cons, htake, List.append_assoc]
        · exact ht.imp_right fun ⟨x, hx, hpre⟩ => ⟨x, by simp [hx], hpre⟩

/-- A recoverable record format, on the records satisfying `ok`. The last field makes the reader
advance and keeps it inside its input, whatever that is. -/
structure Framing (next : List β → Step ρ ε) (encode : ρ → List β) (ok : ρ → Prop) : Prop where
  next_encode : ∀ {r : ρ}, ok r → ∀ s, next (encode r ++ s) = .record r (encode r).length
  next_torn : ∀ {r : ρ}, ok r → ∀ {t}, t <+: encode r → t.length < (encode r).length →
    next t = .stop
  next_size : ∀ {rest r size}, next rest = .record r size → 0 < size ∧ size ≤ rest.length

namespace Framing

variable {next : List β → Step ρ ε} {encode : ρ → List β} {ok : ρ → Prop}

theorem length_encode_pos (F : Framing next encode ok) {r : ρ} (h : ok r) :
    0 < (encode r).length := by
  have := F.next_encode h []
  exact (F.next_size this).1

/-- A reader that stops at once reads nothing. -/
theorem scan_stop {rest : List β} (h : next rest = .stop) (fuel pos : Nat) :
    scan next fuel rest pos = ([], .ok pos) := by
  cases fuel with
  | zero => rfl
  | succ fuel => rw [scan, h]

/-- Every record takes at least one symbol, so a log's length bounds its record count. -/
theorem length_le_length_encodeAll (F : Framing next encode ok) :
    ∀ {rs : List ρ}, (∀ r ∈ rs, ok r) → rs.length ≤ (encodeAll encode rs).length := by
  intro rs
  induction rs with
  | nil => intro _; simp
  | cons r rs ih =>
      intro h
      have hr := F.length_encode_pos (h r (by simp))
      have hrs := ih (fun x hx => h x (by simp [hx]))
      simp only [encodeAll_cons, List.length_append, List.length_cons]
      omega

/-- The reader goes through the records in front of any suffix before it looks at the
suffix, spending one unit of fuel on each. -/
theorem scan_encodeAll_append (F : Framing next encode ok) (t : List β) :
    ∀ {rs : List ρ}, (∀ r ∈ rs, ok r) → ∀ fuel pos,
      scan next (rs.length + fuel) (encodeAll encode rs ++ t) pos =
        (rs ++ (scan next fuel t (pos + (encodeAll encode rs).length)).1,
          (scan next fuel t (pos + (encodeAll encode rs).length)).2) := by
  intro rs
  induction rs with
  | nil => intro _ fuel pos; simp
  | cons r rs ih =>
      intro h fuel pos
      have hr := h r (by simp)
      rw [List.length_cons, Nat.add_right_comm, scan, encodeAll_cons, List.append_assoc,
        F.next_encode hr]
      simp only [List.drop_left, List.length_append, List.cons_append]
      rw [ih (fun x hx => h x (by simp [hx])), Nat.add_assoc]

/-- Reading a complete log gives back its records. -/
theorem scan_encodeAll (F : Framing next encode ok) {rs : List ρ} (h : ∀ r ∈ rs, ok r)
    (hnil : next [] = .stop) {fuel : Nat} (hfuel : rs.length ≤ fuel) (pos : Nat) :
    scan next fuel (encodeAll encode rs) pos =
      (rs, .ok (pos + (encodeAll encode rs).length)) := by
  obtain ⟨extra, rfl⟩ := Nat.exists_eq_add_of_le hfuel
  have := F.scan_encodeAll_append [] h extra pos
  simpa [scan_stop hnil] using this

/-- **Cutting a log keeps exactly its complete records**: the reader returns a prefix of the
records and reports no error. -/
theorem scan_take_encodeAll (F : Framing next encode ok) {rs : List ρ} (h : ∀ r ∈ rs, ok r)
    (hnil : next [] = .stop) {n : Nat} (hn : n ≤ (encodeAll encode rs).length)
    {fuel : Nat} (hfuel : n ≤ fuel) (pos : Nat) :
    ∃ k ≤ rs.length, scan next fuel ((encodeAll encode rs).take n) pos =
      (rs.take k, .ok (pos + (encodeAll encode (rs.take k)).length)) := by
  obtain ⟨k, hk, t, htake, ht⟩ := take_encodeAll encode rs n hn
  have hok : ∀ r ∈ rs.take k, ok r := fun r hr => h r (List.mem_of_mem_take hr)
  have hstop : next t = .stop := by
    rcases ht with rfl | ⟨r, hr, hpre, hlt⟩
    · exact hnil
    · exact F.next_torn (h r hr) hpre hlt
  have hlen : (rs.take k).length ≤ fuel := by
    have h1 := F.length_le_length_encodeAll hok
    have h2 := congrArg List.length htake
    simp only [List.length_take, List.length_append] at h1 h2 ⊢
    omega
  obtain ⟨extra, rfl⟩ := Nat.exists_eq_add_of_le hlen
  refine ⟨k, hk, ?_⟩
  rw [htake, F.scan_encodeAll_append t hok extra pos, scan_stop hstop]
  simp

/-- **Where a log is cut off, the reader stops after the last record that is complete.** -/
theorem scan_take_extents (F : Framing next encode ok) (hnil : next [] = .stop) {rs : List ρ} :
    ∀ {fuel n pos : Nat}, (∀ r ∈ rs, ok r) → n ≤ fuel →
      scan next fuel ((encodeAll encode rs).take n) pos =
        (((extents encode pos rs).filter fun x => x.2.2 ≤ pos + n).map (·.1),
          .ok ((((extents encode pos rs).filter fun x => x.2.2 ≤ pos + n).getLast?.map
            (·.2.2)).getD pos)) := by
  induction rs with
  | nil =>
      intro fuel n pos _ _
      simp [extents, scan_stop hnil]
  | cons r rs ih =>
      intro fuel n pos hok hfuel
      have hlen := F.length_encode_pos (hok r (by simp))
      rw [extents, encodeAll_cons, List.take_append]
      by_cases hlt : n < (encode r).length
      · -- torn: this record ends behind the cut, and so do the others
        have hstop : next ((encode r).take n) = .stop :=
          F.next_torn (hok r (by simp)) (List.take_prefix _ _) (by simpa using hlt)
        have hnone : (extents encode (pos + (encode r).length) rs).filter
            (fun x => decide (x.2.2 ≤ pos + n)) = [] := by
          refine List.filter_eq_nil_iff.mpr fun x hx => ?_
          obtain ⟨-, hpos, hsize, -⟩ := extents_bounds x hx
          simp only [decide_eq_true_eq]
          omega
        rw [Nat.sub_eq_zero_of_le (Nat.le_of_lt hlt), List.take_zero, List.append_nil,
          scan_stop hstop, List.filter_cons_of_neg (by simp only [decide_eq_true_eq]; omega), hnone]
        rfl
      · -- whole: the scan takes this record and goes on with what is left of the cut
        obtain ⟨fuel, rfl⟩ : ∃ k, fuel = k + 1 := ⟨fuel - 1, by omega⟩
        rw [List.take_of_length_le (Nat.le_of_not_lt hlt), scan, F.next_encode (hok r (by simp)),
          List.filter_cons_of_pos (by simp only [decide_eq_true_eq]; omega)]
        simp only [List.drop_left]
        rw [ih (fun x hx => hok x (by simp [hx])) (by omega),
          show pos + (encode r).length + (n - (encode r).length) = pos + n by omega]
        cases hkept : (extents encode (pos + (encode r).length) rs).filter
            (fun x => decide (x.2.2 ≤ pos + n)) with
        | nil => rfl
        | cons x xs =>
            have hlast := List.getLast?_eq_some_getLast (List.cons_ne_nil x xs)
            rw [List.getLast?_cons_cons, hlast]
            rfl

/-- The reader accepts nothing but encoded records. -/
def Sound (_ : Framing next encode ok) : Prop :=
  ∀ {rest r size}, next rest = .record r size → ok r ∧ size = (encode r).length ∧ encode r <+: rest

/-- **Every input is some records and a rest the reader does not take for one.** By induction on the
length of the input: the reader takes a record, or it stops. -/
theorem exists_scan_eq {F : Framing next encode ok} (hF : F.Sound) :
    ∀ {fuel pos : Nat} {input : List β}, input.length < fuel →
      ∃ rs u, input = encodeAll encode rs ++ u ∧ (∀ r ∈ rs, ok r) ∧
        (next u = .stop ∧ scan next fuel input pos
            = (rs, .ok (pos + (encodeAll encode rs).length)) ∨
          ∃ e, next u = .fail e ∧ scan next fuel input pos = (rs, .error e)) := by
  intro fuel
  induction fuel with
  | zero =>
      intro pos input h
      omega
  | succ fuel ih =>
      intro pos input h
      cases hnext : next input with
      | stop => exact ⟨[], input, rfl, by simp, .inl ⟨hnext, by rw [scan, hnext]; rfl⟩⟩
      | fail e => exact ⟨[], input, rfl, by simp, .inr ⟨e, hnext, by rw [scan, hnext]⟩⟩
      | record r size =>
          obtain ⟨hr, rfl, rest, rfl⟩ := hF hnext
          have hpos := F.length_encode_pos hr
          rw [List.length_append] at h
          obtain ⟨rs, u, rfl, hrs, hscan⟩ := @ih (pos + (encode r).length) rest (by omega)
          refine ⟨r :: rs, u, by simp, ?_, ?_⟩
          · intro x hx
            rcases List.mem_cons.mp hx with rfl | hx
            · exact hr
            · exact hrs x hx
          · rw [scan, hnext]
            simp only [List.drop_left, encodeAll_cons, List.length_append]
            rcases hscan with ⟨hstop, hscan⟩ | ⟨e, hfail, hscan⟩
            · exact .inl ⟨hstop, by rw [hscan, Nat.add_assoc]⟩
            · exact .inr ⟨e, hfail, by rw [hscan]⟩

end Framing

end FramedLog
