import Rudurru.Lib.Varint
import Rudurru.Storage.State

/-!
# Rudurru.Storage.CodecSound

The blob codec reads back what it wrote.

Every length and number inside an `encode_kv` blob is a varint in the sense of
`Varint.IsVarint`, fixed-width or minimal; one lemma per reader then says what it does in front
of any varint, and the readers of the blob follow from its layout.

The readers add up seven bits at a time by shifts and `|||`. That the digits do not overlap, so that
this is addition, is the one argument about bits (`overlongDigits_toNat`), and it is made once for
each width. Patching a revision replaces a varint by one of the same width, so no offset behind it
moves.
-/

namespace Rudurru

open Varint

/-! ### The writers emit varints -/

@[simp] theorem length_encodeOverlongU32 (v : UInt32) : (encodeOverlongU32 v).length = 5 := by
  simp [encodeOverlongU32]

@[simp] theorem length_encodeOverlongU64 (v : UInt64) : (encodeOverlongU64 v).length = 10 := by
  simp [encodeOverlongU64]

/-- The payload byte `i` of an overlong `u32`. -/
theorem toNat_overlongByteU32 (v : UInt32) {i : Nat} (hi : i < 32) :
    (((v >>> UInt32.ofNat i).toUInt8 &&& 0x7f) ||| 0x80).toNat
      = v.toNat / 2 ^ i % 128 + 128 := by
  have hofs : (UInt32.ofNat i).toNat = i := by
    rw [UInt32.toNat_ofNat']
    omega
  rw [toNat_low_or_high, UInt32.toNat_toUInt8, UInt32.toNat_shiftRight, hofs,
    Nat.mod_eq_of_lt hi, Nat.shiftRight_eq_div_pow]
  omega

/-- The payload byte `i` of an overlong `u64`. -/
theorem toNat_overlongByteU64 (v : UInt64) {i : Nat} (hi : i < 64) :
    (((v >>> UInt64.ofNat i).toUInt8 &&& 0x7f) ||| 0x80).toNat
      = v.toNat / 2 ^ i % 128 + 128 := by
  have hofs : (UInt64.ofNat i).toNat = i := by
    rw [UInt64.toNat_ofNat']
    omega
  rw [toNat_low_or_high, UInt64.toNat_toUInt8, UInt64.toNat_shiftRight, hofs,
    Nat.mod_eq_of_lt hi, Nat.shiftRight_eq_div_pow]
  omega

theorem isVarint_encodeOverlongU32 (v : UInt32) : IsVarint (encodeOverlongU32 v) v.toNat := by
  have hv := v.toNat_lt
  have hlast : ((v >>> 28).toUInt8 &&& 0x0f).toNat = v.toNat / 2 ^ 28 := by
    rw [UInt8.toNat_and, show (0x0f : UInt8).toNat = 2 ^ 4 - 1 from rfl,
      Nat.and_two_pow_sub_one_eq_mod, UInt32.toNat_toUInt8, UInt32.toNat_shiftRight,
      show (28 : UInt32).toNat % 32 = 28 from rfl, Nat.shiftRight_eq_div_pow]
    omega
  have hlist : encodeOverlongU32 v =
      [((v >>> UInt32.ofNat 0).toUInt8 &&& 0x7f) ||| 0x80,
        ((v >>> UInt32.ofNat 7).toUInt8 &&& 0x7f) ||| 0x80,
        ((v >>> UInt32.ofNat 14).toUInt8 &&& 0x7f) ||| 0x80,
        ((v >>> UInt32.ofNat 21).toUInt8 &&& 0x7f) ||| 0x80,
        (v >>> 28).toUInt8 &&& 0x0f] := rfl
  rw [hlist]
  refine .of_more ?_ (.of_more ?_ (.of_more ?_ (.of_more ?_ (.of_last ?_ ?_))))
  · rw [toNat_overlongByteU32 v (by omega)]; omega
  · rw [toNat_overlongByteU32 v (by omega)]; omega
  · rw [toNat_overlongByteU32 v (by omega)]; omega
  · rw [toNat_overlongByteU32 v (by omega)]; omega
  · rw [hlast]; omega
  · omega

theorem isVarint_encodeOverlongU64 (v : UInt64) : IsVarint (encodeOverlongU64 v) v.toNat := by
  have hv := v.toNat_lt
  have hlast : ((v >>> 63).toUInt8 &&& 0x01).toNat = v.toNat / 2 ^ 63 := by
    rw [UInt8.toNat_and, show (0x01 : UInt8).toNat = 2 ^ 1 - 1 from rfl,
      Nat.and_two_pow_sub_one_eq_mod, UInt64.toNat_toUInt8, UInt64.toNat_shiftRight,
      show (63 : UInt64).toNat % 64 = 63 from rfl, Nat.shiftRight_eq_div_pow]
    omega
  have hlist : encodeOverlongU64 v =
      [((v >>> UInt64.ofNat 0).toUInt8 &&& 0x7f) ||| 0x80,
        ((v >>> UInt64.ofNat 7).toUInt8 &&& 0x7f) ||| 0x80,
        ((v >>> UInt64.ofNat 14).toUInt8 &&& 0x7f) ||| 0x80,
        ((v >>> UInt64.ofNat 21).toUInt8 &&& 0x7f) ||| 0x80,
        ((v >>> UInt64.ofNat 28).toUInt8 &&& 0x7f) ||| 0x80,
        ((v >>> UInt64.ofNat 35).toUInt8 &&& 0x7f) ||| 0x80,
        ((v >>> UInt64.ofNat 42).toUInt8 &&& 0x7f) ||| 0x80,
        ((v >>> UInt64.ofNat 49).toUInt8 &&& 0x7f) ||| 0x80,
        ((v >>> UInt64.ofNat 56).toUInt8 &&& 0x7f) ||| 0x80,
        (v >>> 63).toUInt8 &&& 0x01] := rfl
  have hbyte : ∀ {i : Nat}, i < 64 → ∀ {n : Nat}, v.toNat / 2 ^ i = n →
      (((v >>> UInt64.ofNat i).toUInt8 &&& 0x7f) ||| 0x80).toNat = n % 128 + 128 := by
    intro i hi n hn
    rw [toNat_overlongByteU64 v hi, hn]
  rw [hlist]
  refine .of_more (hbyte (by omega) ?_) (.of_more (hbyte (by omega) ?_)
    (.of_more (hbyte (by omega) ?_) (.of_more (hbyte (by omega) ?_)
    (.of_more (hbyte (by omega) ?_) (.of_more (hbyte (by omega) ?_)
    (.of_more (hbyte (by omega) ?_) (.of_more (hbyte (by omega) ?_)
    (.of_more (hbyte (by omega) ?_) (.of_last ?_ ?_)))))))))
  case refine_10 =>
    rw [hlast]
    norm_num [Nat.div_div_eq_div_mul]
  case refine_11 => omega
  all_goals norm_num [Nat.div_div_eq_div_mul]

/-- One round of the minimal writer, with fuel for the rest of the number. -/
theorem isVarint_encodeVarintLoop : ∀ (fuel : Nat) (v : UInt64), v.toNat < 128 ^ fuel →
    0 < fuel → IsVarint (encodeVarintLoop fuel v) v.toNat
      ∧ (encodeVarintLoop fuel v).length ≤ fuel := by
  intro fuel
  induction fuel with
  | zero => intro v _ h; omega
  | succ fuel ih =>
      intro v hv _
      rw [encodeVarintLoop]
      have hlt : v < 0x80 ↔ v.toNat < 128 := UInt64.lt_iff_toNat_lt
      by_cases h : v < 0x80
      · rw [if_pos h]
        have hn := hlt.mp h
        refine ⟨.of_last ?_ hn, by simp⟩
        rw [UInt64.toNat_toUInt8]
        omega
      · rw [if_neg h]
        have hn : 128 ≤ v.toNat := Nat.le_of_not_lt fun hlt' => h (hlt.mpr hlt')
        have hshift : (v >>> 7).toNat = v.toNat / 128 := by
          rw [UInt64.toNat_shiftRight, show (7 : UInt64).toNat % 64 = 7 from rfl,
            Nat.shiftRight_eq_div_pow]
        have hfuel : 0 < fuel := by
          rcases Nat.eq_zero_or_pos fuel with rfl | hpos
          · simp at hv; omega
          · exact hpos
        have hsmall : (v >>> 7).toNat < 128 ^ fuel := by
          rw [hshift, Nat.div_lt_iff_lt_mul (by omega), ← Nat.pow_succ]
          exact hv
        obtain ⟨hrest, hlen⟩ := ih (v >>> 7) hsmall hfuel
        refine ⟨.of_more ?_ (hshift ▸ hrest), by simpa using hlen⟩
        rw [toNat_or_high, UInt64.toNat_toUInt8]
        omega

/-- Ten rounds are enough for every `u64`. -/
theorem isVarint_encodeVarint (v : UInt64) :
    IsVarint (encodeVarint v) v.toNat ∧ (encodeVarint v).length ≤ 10 := by
  refine isVarint_encodeVarintLoop 10 v ?_ (by omega)
  have := v.toNat_lt
  omega

theorem length_encodeVarint_le (v : UInt64) : (encodeVarint v).length ≤ 10 :=
  (isVarint_encodeVarint v).2

/-! ### The readers take varints apart -/

/-- One byte of a varint goes on top of the `7 * k` bits read so far, and the rest above it. -/
theorem accumulate_septet {acc : UInt64} {b : UInt8} {k n : Nat} (hk : k ≤ 9)
    (hacc : acc.toNat < 2 ^ (7 * k))
    (hfit : acc.toNat + 2 ^ (7 * k) * (b.toNat % 128 + 128 * n) < 2 ^ 64) :
    (acc ||| ((b &&& 0x7f).toUInt64 <<< UInt64.ofNat (7 * k))).toNat
        = acc.toNat + 2 ^ (7 * k) * (b.toNat % 128) ∧
      acc.toNat + 2 ^ (7 * k) * (b.toNat % 128) < 2 ^ (7 * (k + 1)) ∧
      acc.toNat + 2 ^ (7 * k) * (b.toNat % 128 + 128 * n)
        = acc.toNat + 2 ^ (7 * k) * (b.toNat % 128) + 2 ^ (7 * (k + 1)) * n := by
  have hpow : 2 ^ (7 * (k + 1)) = 128 * 2 ^ (7 * k) := by
    rw [show 7 * (k + 1) = 7 * k + 7 by omega, Nat.pow_add]
    omega
  have hsplit : 2 ^ (7 * k) * (b.toNat % 128 + 128 * n)
      = 2 ^ (7 * k) * (b.toNat % 128) + 2 ^ (7 * (k + 1)) * n := by
    rw [hpow]
    ring
  have hlow : b.toNat % 128 < 128 := Nat.mod_lt _ (by omega)
  have hle : 2 ^ (7 * k) * (b.toNat % 128) ≤ 2 ^ (7 * k) * 127 :=
    Nat.mul_le_mul_left _ (by omega)
  refine ⟨?_, by omega, by rw [hsplit, Nat.add_assoc]⟩
  exact toNat_or_shiftLeft acc b (by omega) hacc (by rw [Nat.mul_comm]; omega)

/-- The reader accumulates what is left of a varint above the bits it has already read. -/
theorem decodeVarintLoop_append {bs : Bytes} {n : Nat} (h : IsVarint bs n) (s : Bytes) :
    ∀ (i k : Nat) (acc : UInt64), acc.toNat < 2 ^ (7 * k) → bs.length + k ≤ 10 →
      acc.toNat + 2 ^ (7 * k) * n < 2 ^ 64 →
      decodeVarintLoop (bs ++ s) i (7 * k) acc
        = some (UInt64.ofNat (acc.toNat + 2 ^ (7 * k) * n), i + bs.length) := by
  induction h with
  | @last b hb =>
      intro i k acc hacc hlen hfit
      have hk : k ≤ 9 := by simp at hlen; omega
      have hval : b.toNat % 128 = b.toNat := Nat.mod_eq_of_lt hb
      have hor := toNat_or_shiftLeft acc b (show 7 * k < 64 by omega) hacc
        (by rw [hval, Nat.mul_comm]; omega)
      rw [List.singleton_append, decodeVarintLoop]
      simp only [and_high_eq_zero_iff, if_pos hb, List.length_singleton]
      refine congrArg some (Prod.ext ?_ rfl)
      rw [← UInt64.ofNat_toNat (x := _ ||| _), hor, hval]
  | @more b bs n hb hbs ih =>
      intro i k acc hacc hlen hfit
      simp only [List.length_cons] at hlen
      have hk : k ≤ 9 := by omega
      obtain ⟨hor, hacc', hsplit⟩ := accumulate_septet hk hacc hfit
      have hne : ¬ b.toNat < 128 := by omega
      -- a continuation byte at the tenth position would leave no room for `bs`
      have hk9 : ¬ 7 * k + 7 > 63 := by
        have := hbs.length_pos
        omega
      rw [List.cons_append, decodeVarintLoop]
      simp only [and_high_eq_zero_iff, if_neg hne, if_neg hk9, List.length_cons]
      rw [show 7 * k + 7 = 7 * (k + 1) by omega,
        ih (i + 1) (k + 1) _ (by rw [hor]; exact hacc') (by omega) (by rw [hor]; omega),
        hor, hsplit]
      exact congrArg some (Prod.ext rfl (by omega))

/-- `decode_varint` in front of any varint of at most ten bytes. -/
theorem decodeVarint_append {bs : Bytes} {n : Nat} (h : IsVarint bs n) (hlen : bs.length ≤ 10)
    (hn : n < 2 ^ 64) (s : Bytes) :
    decodeVarint (bs ++ s) = some (UInt64.ofNat n, bs.length) := by
  have := decodeVarintLoop_append h s 0 0 0 (by simp) (by omega) (by simpa using hn)
  simpa [decodeVarint] using this

/-- The loop of the fixed-width readers, from byte number `k` on. -/
theorem foldl_zipIdx_isVarint {bs : Bytes} {n : Nat} (h : IsVarint bs n) :
    ∀ (k : Nat) (acc : UInt64), acc.toNat < 2 ^ (7 * k) → bs.length + k ≤ 10 →
      acc.toNat + 2 ^ (7 * k) * n < 2 ^ 64 →
      (bs.zipIdx k).foldl
          (fun (v : UInt64) (b, i) => v ||| ((b &&& 0x7f).toUInt64 <<< UInt64.ofNat (i * 7))) acc
        = UInt64.ofNat (acc.toNat + 2 ^ (7 * k) * n) := by
  induction h with
  | @last b hb =>
      intro k acc hacc hlen hfit
      simp only [List.length_singleton] at hlen
      have hval : b.toNat % 128 = b.toNat := Nat.mod_eq_of_lt hb
      have hor := toNat_or_shiftLeft acc b (show 7 * k < 64 by omega) hacc
        (by rw [hval, Nat.mul_comm]; omega)
      rw [hval] at hor
      simp only [List.zipIdx_singleton, List.foldl_cons, List.foldl_nil, Nat.mul_comm k 7]
      rw [← hor, UInt64.ofNat_toNat]
  | @more b bs n hb hbs ih =>
      intro k acc hacc hlen hfit
      simp only [List.length_cons] at hlen
      obtain ⟨hor, hacc', hsplit⟩ := accumulate_septet (by omega) hacc hfit
      simp only [List.zipIdx_cons, List.foldl_cons, Nat.mul_comm k 7]
      rw [ih (k + 1) _ (by rw [hor]; exact hacc') (by omega) (by rw [hor]; omega), hor, hsplit]

/-- `decode_overlong_u64` in front of any ten-byte varint. -/
theorem decodeOverlongU64_append {bs : Bytes} {n : Nat} (h : IsVarint bs n)
    (hlen : bs.length = 10) (hn : n < 2 ^ 64) (s : Bytes) :
    decodeOverlongU64 (bs ++ s) = some (UInt64.ofNat n) := by
  have hfold := foldl_zipIdx_isVarint h 0 0 (by simp) (by omega) (by simpa using hn)
  rw [decodeOverlongU64, if_neg (by simp [hlen]), List.take_left' hlen, hfold]
  simp

/-- The loop of `mod_revision_field_offset` stops at the last byte of a varint. -/
theorem varintTail_append {bs : Bytes} {n : Nat} (h : IsVarint bs n) (s : Bytes) :
    varintTail (bs ++ s) = some (bs.length - 1) := by
  induction h with
  | @last b hb => simp [varintTail, and_high_eq_zero_iff, hb]
  | @more b bs n hb hbs ih =>
      have hlen := hbs.length_pos
      rw [List.cons_append, varintTail, if_neg (by rw [and_high_eq_zero_iff]; omega), ih]
      simp only [Option.map_some, List.length_cons, Option.some.injEq]
      omega

/-! ### The readers of the blob -/

@[simp] theorem toNat_ofNat_length {key : Bytes} (h : key.length < 2 ^ 32) :
    (UInt32.ofNat key.length).toNat = key.length := by
  rw [UInt32.toNat_ofNat']
  exact Nat.mod_eq_of_lt h

theorem length_kvHead (key : Bytes) (c : Int64) :
    (kvHead key c).length = key.length + 8 + (encodeVarint c.toUInt64).length := by
  simp [kvHead]
  omega

theorem length_kvHead_le (key : Bytes) (c : Int64) :
    (kvHead key c).length ≤ key.length + 18 := by
  have := length_encodeVarint_le c.toUInt64
  rw [length_kvHead]
  omega

theorem encodeKv_bytes (key value : Bytes) (c m v l : Int64) :
    (encodeKv key value c m v l).1
      = kvHead key c ++ (encodeOverlongU64 m.toUInt64 ++ kvTail value v l) := by
  simp [encodeKv]

/-- The key is read back from a blob. -/
theorem readKeyFromKv_encodeKv {key value : Bytes} {c m v l : Int64}
    (hkey : key.length < 2 ^ 32) :
    readKeyFromKv (encodeKv key value c m v l).1 (encodeKv key value c m v l).2.1 = some key := by
  obtain ⟨rest, hrest⟩ : ∃ rest, (encodeKv key value c m v l).1
      = 0x0a :: (encodeOverlongU32 (UInt32.ofNat key.length) ++ (key ++ rest)) :=
    ⟨_, by simp only [encodeKv, kvHead, List.append_assoc, List.cons_append, List.nil_append]; rfl⟩
  have hvar := isVarint_encodeOverlongU32 (UInt32.ofNat key.length)
  rw [toNat_ofNat_length hkey] at hvar
  have hdec := decodeVarint_append hvar (by simp) (by omega) (key ++ rest)
  have hlen : (UInt64.ofNat key.length).toNat = key.length := by
    rw [UInt64.toNat_ofNat']
    omega
  rw [hrest, show (encodeKv key value c m v l).2.1 = 1 from rfl, readKeyFromKv]
  simp only [show (1 : UInt16).toNat = 1 from rfl, List.drop_succ_cons, List.drop_zero, hdec, hlen,
    length_encodeOverlongU32]
  rw [if_neg (by simp), if_neg (by simp; omega)]
  simp [length_encodeOverlongU32]

/-- The modification revision is read back from a blob whose offset fits. -/
theorem readModRevisionFromKv_encodeKv {key value : Bytes} {c m v l : Int64}
    (hhead : (kvHead key c).length < 2 ^ 16) :
    readModRevisionFromKv (encodeKv key value c m v l).1 (encodeKv key value c m v l).2.2
      = some m := by
  have hofs : (encodeKv key value c m v l).2.2.toNat = (kvHead key c).length := by
    simp only [encodeKv, UInt16.toNat_ofNat']
    exact Nat.mod_eq_of_lt hhead
  have hdec := decodeOverlongU64_append (isVarint_encodeOverlongU64 m.toUInt64) (by simp)
    m.toUInt64.toNat_lt (kvTail value v l)
  rw [readModRevisionFromKv, hofs, encodeKv_bytes, List.drop_left, hdec]
  rw [if_neg (by simp)]
  simp

/-! ### Patching -/

/-- OR-ing a digit into the bits above the accumulated ones adds it there (`u32`). -/
theorem toNat_or_shiftLeft32 (acc d : UInt32) {shift : Nat} (hshift : shift < 32)
    (hacc : acc.toNat < 2 ^ shift) (hfit : d.toNat * 2 ^ shift < 2 ^ 32) :
    (acc ||| (d <<< UInt32.ofNat shift)).toNat = acc.toNat + 2 ^ shift * d.toNat := by
  have hs : (UInt32.ofNat shift).toNat = shift := by
    rw [UInt32.toNat_ofNat']
    omega
  rw [UInt32.toNat_or, UInt32.toNat_shiftLeft, hs, Nat.mod_eq_of_lt hshift, Nat.shiftLeft_eq,
    Nat.mod_eq_of_lt hfit, Nat.or_comm, Nat.mul_comm, ← Nat.two_pow_add_eq_or_of_lt hacc,
    Nat.add_comm]

/-- The five length bytes of a blob, as `mod_revision_field_offset` puts them together. -/
theorem overlongDigits_toNat {b₁ b₂ b₃ b₄ b₅ : UInt8} {n : Nat} (hn : n < 2 ^ 32)
    (h : IsVarint [b₁, b₂, b₃, b₄, b₅] n) :
    let low (b : UInt8) : UInt32 := b.toUInt32 &&& 0x7f
    (low b₁ ||| (low b₂ <<< 7) ||| (low b₃ <<< 14) ||| (low b₄ <<< 21)
      ||| ((b₅.toUInt32 &&& (0x0f : UInt32)) <<< 28)).toNat = n := by
  intro low
  have hlow : ∀ b : UInt8, (low b).toNat = b.toNat % 128 := by
    intro b
    rw [show low b = b.toUInt32 &&& 0x7f from rfl, UInt32.toNat_and,
      show (0x7f : UInt32).toNat = 2 ^ 7 - 1 from rfl, Nat.and_two_pow_sub_one_eq_mod,
      UInt8.toNat_toUInt32]
  have hlow₅ : (b₅.toUInt32 &&& 0x0f).toNat = b₅.toNat % 16 := by
    rw [UInt32.toNat_and, show (0x0f : UInt32).toNat = 2 ^ 4 - 1 from rfl,
      Nat.and_two_pow_sub_one_eq_mod, UInt8.toNat_toUInt32]
  cases h with
  | more _ h => cases h with
  | more _ h => cases h with
  | more _ h => cases h with
  | more _ h => cases h with
  | more _ h => cases h
  | last hb =>
      have h₁ := hlow b₁
      have h₂ := hlow b₂
      have h₃ := hlow b₃
      have h₄ := hlow b₄
      -- the digits do not overlap, so each `|||` is an addition
      have e₂ := toNat_or_shiftLeft32 (low b₁) (low b₂) (show 7 < 32 by omega)
        (by omega) (by omega)
      have e₃ := toNat_or_shiftLeft32 (_ ||| _) (low b₃) (show 14 < 32 by omega)
        (by rw [e₂]; omega) (by omega)
      have e₄ := toNat_or_shiftLeft32 (_ ||| _) (low b₄) (show 21 < 32 by omega)
        (by rw [e₃, e₂]; omega) (by omega)
      have e₅ := toNat_or_shiftLeft32 (_ ||| _) (b₅.toUInt32 &&& 0x0f) (show 28 < 32 by omega)
        (by rw [e₄, e₃, e₂]; omega) (by omega)
      refine e₅.trans ?_
      rw [e₄, e₃, e₂]
      omega

/-- `mod_revision_field_offset` finds the `mod_revision` varint of every blob. -/
theorem modRevisionFieldOffset_encodeKv {key value : Bytes} {c m v l : Int64}
    (hkey : key.length < 2 ^ 32) :
    modRevisionFieldOffset (encodeKv key value c m v l).1 = some (kvHead key c).length := by
  have hvar := isVarint_encodeOverlongU32 (UInt32.ofNat key.length)
  rw [toNat_ofNat_length hkey] at hvar
  obtain ⟨b₁, b₂, b₃, b₄, b₅, hb⟩ : ∃ b₁ b₂ b₃ b₄ b₅,
      encodeOverlongU32 (UInt32.ofNat key.length) = [b₁, b₂, b₃, b₄, b₅] := ⟨_, _, _, _, _, rfl⟩
  rw [hb] at hvar
  have hbytes : (encodeKv key value c m v l).1
      = 0x0a :: b₁ :: b₂ :: b₃ :: b₄ :: b₅ :: (key ++ (0x10 :: (encodeVarint c.toUInt64
          ++ (0x18 :: (encodeOverlongU64 m.toUInt64 ++ kvTail value v l))))) := by
    simp only [encodeKv, kvHead, hb, List.append_assoc, List.cons_append, List.nil_append]
  have hlen := overlongDigits_toNat hkey hvar
  have hdrop : ((encodeKv key value c m v l).1).drop (1 + 5 + key.length + 1)
      = encodeVarint c.toUInt64
        ++ (0x18 :: (encodeOverlongU64 m.toUInt64 ++ kvTail value v l)) := by
    rw [hbytes, show 1 + 5 + key.length + 1 = (key.length + 1) + 6 by omega]
    simp only [List.drop_succ_cons, List.drop_append]
    simp
  have htail := varintTail_append (isVarint_encodeVarint c.toUInt64).1
    (0x18 :: (encodeOverlongU64 m.toUInt64 ++ kvTail value v l))
  have hpos := (isVarint_encodeVarint c.toUInt64).1.length_pos
  have hofs : modRevisionFieldOffset (encodeKv key value c m v l).1
      = (varintTail ((encodeKv key value c m v l).1.drop (1 + 5 + key.length + 1))).map
          (1 + 5 + key.length + 1 + · + 2) := by
    conv_rhs => rw [← hlen]
    rw [hbytes]
    rfl
  rw [hofs, hdrop, htail, length_kvHead]
  simp only [Option.map_some, Option.some.injEq]
  omega

/-- Patching `mod_revision` in place is re-encoding with the new revision. -/
theorem withModRevision_encodeKv {key value : Bytes} {c m v l : Int64} (rev : UInt64)
    (hkey : key.length < 2 ^ 32) :
    withModRevision (encodeKv key value c m v l).1 rev
      = some (encodeKv key value c rev.toInt64 v l).1 := by
  rw [withModRevision, modRevisionFieldOffset_encodeKv hkey]
  simp only [encodeKv_bytes]
  rw [if_neg (by simp), List.take_left, ← List.drop_drop, List.drop_left,
    List.drop_left' (by simp)]
  simp

end Rudurru
