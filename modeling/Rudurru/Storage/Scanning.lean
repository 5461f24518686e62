import Rudurru.Reference
import Rudurru.Storage.WalSound

/-!
# Rudurru.Storage.Scanning

What a scan makes of a damaged log. Cut off anywhere, a log of records gives back the ones that
are complete, from any boundary on (`scanKvFile_truncated`). Followed by other bytes it still does,
unless the reader comes to a header whose `rec_len` is smaller than the header itself, as in a
block of zeros: then the scan fails, and with it the start of the server
(`scanKvCollect_prefix_iff`).

Both statements are for all inputs. Where the general theory of logs (`Lib.FramedLog`) speaks of
some records and a rest, the condition here is on the bytes of the rest, because a client of the
file sees bytes: the scan fails exactly if a short header comes up behind some well-formed records.
-/

namespace Rudurru

open KvWalRecord FramedLog

section

variable [Crates]

/-- `KvWalRecord::new` has built the record. -/
def KvWalRecord.Built (r : KvWalRecord) : Prop :=
  ∃ flags key value c m v l, r = .new flags key value c m v l

/-- A record that was built is well formed exactly when it is under 4 GiB. -/
theorem KvWalRecord.Built.wellFormed_iff [LawfulCrates] {r : KvWalRecord} (h : r.Built) :
    r.WellFormed ↔ r.serialize.length < 2 ^ 32 := by
  obtain ⟨flags, key, value, c, m, v, l, rfl⟩ := h
  constructor
  · intro hwf
    rw [hwf.length_serialize]
    exact UInt32.toNat_lt _
  · intro hlen
    rw [length_serialize, kvBytes_new] at hlen
    exact wellFormed_new hlen

/-! ### A log cut off -/

/-- The records that lie between two positions of a file, with their own positions. -/
def recordsBetween (rs : List KvWalRecord) (start n : Nat) : List (KvWalRecord × Nat × Nat) :=
  (extents serialize 0 rs).filter fun x => start ≤ x.2.1 ∧ x.2.2 ≤ n

/-- From a boundary on, what lies in between is what ends in time. -/
theorem recordsBetween_boundary {before after : List KvWalRecord}
    (h : ∀ r ∈ before ++ after, r.WellFormed) (n : Nat) :
    recordsBetween (before ++ after) (serializeAll before).length n
      = (extents serialize (serializeAll before).length after).filter fun x =>
          x.2.2 ≤ (serializeAll before).length + (n - (serializeAll before).length) := by
  have hpos {r : KvWalRecord} (hr : r ∈ before ++ after) : 0 < r.serialize.length :=
    kvFraming.length_encode_pos (h r hr)
  rw [recordsBetween, extents_append, Nat.zero_add, List.filter_append,
    List.filter_eq_nil_iff.mpr, List.nil_append]
  · refine List.filter_congr fun x hx => ?_
    obtain ⟨hmem, hstart, hsize, -⟩ := extents_bounds x hx
    have := hpos (List.mem_append_right before hmem)
    rw [decide_eq_decide, serializeAll] at *
    omega
  -- nothing that ends at or before the boundary starts at it, as records are not empty
  · intro x hx
    obtain ⟨hmem, -, hsize, hend⟩ := extents_bounds x hx
    have := hpos (List.mem_append_left after hmem)
    rw [decide_eq_true_eq, serializeAll]
    omega

/-- **Cutting a log off leaves exactly its complete records**, wherever the scan starts. The start
is a boundary between two records, and the cut may fall anywhere, before the start as well. -/
theorem scanKvFile_truncated [LawfulCrates] (rs : List KvWalRecord)
    (hrs : ∀ r ∈ rs, r.Built ∧ r.serialize.length < 2 ^ 32) (n : Nat)
    (hn : n ≤ (serializeAll rs).length) (k : Nat) :
    scanKvFile ((serializeAll rs).take n) (serializeAll (rs.take k)).length
      = ((recordsBetween rs (serializeAll (rs.take k)).length n).map (·.1),
          .ok (((recordsBetween rs (serializeAll (rs.take k)).length n).getLast?.map
            (·.2.2)).getD (serializeAll (rs.take k)).length)) := by
  have hwf : ∀ r ∈ rs, r.WellFormed := fun r hr => (hrs r hr).1.wellFormed_iff.mpr (hrs r hr).2
  have hsplit := List.take_append_drop k rs
  have hdrop : ((serializeAll rs).take n).drop (serializeAll (rs.take k)).length
      = (encodeAll serialize (rs.drop k)).take (n - (serializeAll (rs.take k)).length) := by
    have hall : serializeAll rs = serializeAll (rs.take k) ++ serializeAll (rs.drop k) := by
      rw [← serializeAll_append, hsplit]
    rw [List.drop_take, hall, List.drop_left]
    rfl
  -- from the boundary on, the file is the log of the remaining records, cut where `n` falls in it
  have hbetween := @recordsBetween_boundary _ (rs.take k) (rs.drop k) (by rwa [hsplit]) n
  rw [hsplit] at hbetween
  have hlen : ((serializeAll rs).take n).length = n := by
    rw [List.length_take]
    omega
  rw [scanKvFile, hdrop, hlen, hbetween,
    kvFraming.scan_take_extents rfl (fun r hr => hwf r (List.mem_of_mem_drop hr)) (by omega)]

end

/-- Three records, the last one cut off: the scan from the end of the first reads the second. -/
theorem scanKvFile_truncated_three :
    let rs := [KvWalRecord.new IS_CREATE [107] [118] 1 1 1 0, .new 0 [107] [119] 1 2 2 0,
      .new 0 [107] [120] 1 3 3 0]
    scanKvFile ((serializeAll rs).take 110) (serializeAll (rs.take 1)).length
      = ([.new 0 [107] [119] 1 2 2 0], .ok (serializeAll (rs.take 2)).length) := by
  intro rs
  have hbetween : recordsBetween rs (serializeAll (rs.take 1)).length 110
      = [(.new 0 [107] [119] 1 2 2 0, (serializeAll (rs.take 1)).length,
          (serializeAll (rs.take 2)).length)] := by decide +kernel
  have hbuilt : ∀ r ∈ rs, r.Built ∧ r.serialize.length < 2 ^ 32 := by
    intro r hr
    simp only [rs, List.mem_cons, List.not_mem_nil, or_false] at hr
    rcases hr with rfl | rfl | rfl
    · exact ⟨⟨_, _, _, _, _, _, _, rfl⟩, by decide⟩
    · exact ⟨⟨_, _, _, _, _, _, _, rfl⟩, by decide⟩
    · exact ⟨⟨_, _, _, _, _, _, _, rfl⟩, by decide⟩
  have hscan := scanKvFile_truncated rs hbuilt 110 (by decide +kernel) 1
  rw [hbetween] at hscan
  exact hscan

section

variable [Crates]

/-! ### A log followed by other bytes -/

/-- `WalFile::scan_kv_collect`. -/
def scanKvCollect (contents : Bytes) : Except IoError (List KvWalRecord) :=
  match scanKvFile contents 0 with
  | (records, .ok _) => .ok records
  | (_, .error e) => .error e

/-- A scan returns well-formed records only. -/
theorem wellFormed_of_scanKvCollect {contents : Bytes} {recs : List KvWalRecord} {r : KvWalRecord}
    (h : scanKvCollect contents = .ok recs) (hr : r ∈ recs) : r.WellFormed := by
  have hread : (scanKvFile contents 0).1 = recs := by
    unfold scanKvCollect at h
    split at h
    · next hscan =>
        cases h
        rw [hscan]
    · cases h
  rw [← hread] at hr
  obtain ⟨rest, size, hnext⟩ := exists_next_of_mem_scan hr
  exact (kvFraming_sound hnext).1

/-- A complete header whose `rec_len` is smaller than a header and a checksum. -/
def ShortHeader (bytes : Bytes) : Prop :=
  ∃ a₀ a₁ a₂ a₃ a₄ l₀ l₁ l₂ l₃ body,
    bytes = a₀ :: a₁ :: a₂ :: a₃ :: a₄ :: l₀ :: l₁ :: l₂ :: l₃ :: body ∧
      (u32FromLeBytes l₀ l₁ l₂ l₃).toNat < kvHeaderSize + kvCrcSize

/-- The only bytes the scan reports an error for. -/
theorem scanKvStep_fail_iff {bytes : Bytes} :
    (∃ e, scanKvStep bytes = .fail e) ↔ ShortHeader bytes := by
  constructor
  · intro h
    obtain ⟨e, h⟩ := h
    unfold scanKvStep at h
    split at h
    · dsimp only at h
      split at h
      · next hsmall => exact ⟨_, _, _, _, _, _, _, _, _, _, rfl, hsmall⟩
      split at h
      · cases h
      · split at h <;> cases h
    · cases h
  · intro h
    obtain ⟨_, _, _, _, _, _, _, _, _, _, rfl, hsmall⟩ := h
    exact ⟨_, if_pos hsmall⟩

/-- Records followed by a short header: the scan reads the records and fails. -/
theorem scanKvCollect_shortHeader {rs : List KvWalRecord} (h : ∀ r ∈ rs, r.WellFormed)
    {u : Bytes} (hu : ShortHeader u) : ∃ e, scanKvCollect (serializeAll rs ++ u) = .error e := by
  obtain ⟨e, he⟩ := scanKvStep_fail_iff.mpr hu
  have hlen := kvFraming.length_le_length_encodeAll h
  obtain ⟨extra, hextra⟩ := Nat.exists_eq_add_of_le
    (show rs.length ≤ (serializeAll rs ++ u).length by
      simp only [serializeAll, List.length_append]; omega)
  refine ⟨e, ?_⟩
  rw [scanKvCollect, scanKvFile, List.drop_zero, hextra, Nat.add_assoc, serializeAll,
    kvFraming.scan_encodeAll_append u h (extra + 1) 0, scan, he]

/-- **When a scan gives back the records in front of a tail**: exactly when they are under 4 GiB
and the tail is not some well-formed records and a short header. -/
theorem scanKvCollect_prefix_iff [LawfulCrates] (rs : List KvWalRecord) (hrs : ∀ r ∈ rs, r.Built)
    (t : Bytes) :
    (∃ out, scanKvCollect (serializeAll rs ++ t) = .ok out ∧ rs <+: out) ↔
      (∀ r ∈ rs, r.serialize.length < 2 ^ 32) ∧
        ¬ ∃ rs' u, t = serializeAll rs' ++ u ∧ (∀ r ∈ rs', r.WellFormed) ∧ ShortHeader u := by
  constructor
  · intro h
    obtain ⟨out, hout, hpre⟩ := h
    obtain ⟨read, u, -, hread, hscan⟩ := @Framing.exists_scan_eq _ _ _ _ _ _ kvFraming
      kvFraming_sound ((serializeAll rs ++ t).length + 1) 0 (serializeAll rs ++ t)
      (Nat.lt_succ_self _)
    have hwf : ∀ r ∈ rs, r.WellFormed := by
      rcases hscan with ⟨-, hscan⟩ | ⟨e, -, hscan⟩
      · rw [scanKvCollect, scanKvFile, List.drop_zero, hscan] at hout
        cases hout
        exact fun r hr => hread r (hpre.mem hr)
      · rw [scanKvCollect, scanKvFile, List.drop_zero, hscan] at hout
        cases hout
    refine ⟨fun r hr => (hrs r hr).wellFormed_iff.mp (hwf r hr), ?_⟩
    intro hshort
    obtain ⟨rs', u, rfl, hrs', hu⟩ := hshort
    -- the scan would read the records of the tail as well, and then fail
    have hall : ∀ r ∈ rs ++ rs', r.WellFormed := by
      intro r hr
      rcases List.mem_append.mp hr with hr | hr
      · exact hwf r hr
      · exact hrs' r hr
    obtain ⟨e, he⟩ := scanKvCollect_shortHeader hall hu
    rw [serializeAll_append, List.append_assoc] at he
    rw [he] at hout
    cases hout
  · intro h
    obtain ⟨hsize, htail⟩ := h
    have hwf : ∀ r ∈ rs, r.WellFormed := fun r hr => (hrs r hr).wellFormed_iff.mpr (hsize r hr)
    obtain ⟨read, u, ht, hread, hscan⟩ := @Framing.exists_scan_eq _ _ _ _ _ _ kvFraming
      kvFraming_sound (t.length + 1) 0 t (Nat.lt_succ_self _)
    rcases hscan with ⟨hstop, -⟩ | ⟨e, hfail, -⟩
    -- it reads on into the tail for as long as that is made of records
    · have hall : ∀ r ∈ rs ++ read, r.WellFormed := by
        intro r hr
        rcases List.mem_append.mp hr with hr | hr
        · exact hwf r hr
        · exact hread r hr
      refine ⟨rs ++ read, ?_, List.prefix_append _ _⟩
      have hfile : serializeAll rs ++ t = serializeAll (rs ++ read) ++ u := by
        rw [ht, serializeAll_append, List.append_assoc]
        rfl
      rw [scanKvCollect, hfile, scanKvFile_append_of_stop hall hstop]
    · exact absurd ⟨read, u, ht, hread, scanKvStep_fail_iff.mp ⟨e, hfail⟩⟩ htail

end

theorem scanKvCollect_prefix_iff_torn :
    (∃ out, scanKvCollect (serializeAll [.new IS_CREATE [107] [118] 1 1 1 0] ++ [2, 1, 0]) = .ok out
        ∧ [.new IS_CREATE [107] [118] 1 1 1 0] <+: out) ↔
      (∀ r ∈ [KvWalRecord.new IS_CREATE [107] [118] 1 1 1 0], r.serialize.length < 2 ^ 32) ∧
        ¬ ∃ rs' u, ([2, 1, 0] : Bytes) = serializeAll rs' ++ u ∧ (∀ r ∈ rs', r.WellFormed)
          ∧ ShortHeader u :=
  scanKvCollect_prefix_iff _ (fun _ hr => List.mem_singleton.mp hr ▸ ⟨_, _, _, _, _, _, _, rfl⟩) _

/-- A block of zeros after the last record. -/
theorem zero_tail_prevents_startup :
    ¬ ∀ (rs : List KvWalRecord) (t : Bytes), (∀ r ∈ rs, r.Built) →
      ∃ out, scanKvCollect (serializeAll rs ++ t) = .ok out ∧ rs <+: out := by
  intro h
  have hbuilt : (KvWalRecord.new IS_CREATE [107] [118] 1 1 1 0).Built := ⟨_, _, _, _, _, _, _, rfl⟩
  have hwf : ∀ r ∈ [KvWalRecord.new IS_CREATE [107] [118] 1 1 1 0], r.WellFormed :=
    fun r hr => List.mem_singleton.mp hr ▸ hbuilt.wellFormed_iff.mpr (by decide)
  have hzeros : ShortHeader (List.replicate 512 0) :=
    ⟨0, 0, 0, 0, 0, 0, 0, 0, 0, List.replicate 503 0, rfl, by decide⟩
  obtain ⟨out, hout, -⟩ := h [.new IS_CREATE [107] [118] 1 1 1 0] (List.replicate 512 0)
    (fun r hr => List.mem_singleton.mp hr ▸ hbuilt)
  obtain ⟨e, he⟩ := scanKvCollect_shortHeader hwf hzeros
  rw [he] at hout
  cases hout

end Rudurru
