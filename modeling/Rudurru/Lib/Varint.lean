import Mathlib

/-!
# Rudurru.Lib.Varint

Base-128 varints as byte strings: seven payload bits a byte, lowest first, with the high bit
set on every byte but the last. Neither a width nor minimality is asked for, so one value has
many encodings; `IsVarint bs n` says that `bs` is one of those of `n`.

The second part is the bit arithmetic of reading one: what masking, setting the high bit and
accumulating a shifted payload do to the numbers behind `UInt8`, `UInt32` and `UInt64`.
-/

namespace Varint

/-- `bs` encodes `n`. -/
inductive IsVarint : List UInt8 → Nat → Prop
  | last {b : UInt8} : b.toNat < 128 → IsVarint [b] b.toNat
  | more {b : UInt8} {bs : List UInt8} {n : Nat} : 128 ≤ b.toNat → IsVarint bs n →
      IsVarint (b :: bs) (b.toNat % 128 + 128 * n)

namespace IsVarint

theorem of_last {b : UInt8} {n : Nat} (h : b.toNat = n) (hn : n < 128) : IsVarint [b] n := by
  subst h
  exact .last hn

/-- Encode the low seven bits of `n` in front of an encoding of the rest. -/
theorem of_more {b : UInt8} {bs : List UInt8} {n : Nat} (h : b.toNat = n % 128 + 128)
    (hbs : IsVarint bs (n / 128)) : IsVarint (b :: bs) n := by
  have hval : b.toNat % 128 + 128 * (n / 128) = n := by omega
  exact hval ▸ IsVarint.more (by omega) hbs

theorem ne_nil {bs : List UInt8} {n : Nat} (h : IsVarint bs n) : bs ≠ [] := by
  cases h <;> simp

theorem length_pos {bs : List UInt8} {n : Nat} (h : IsVarint bs n) : 0 < bs.length :=
  List.length_pos_of_ne_nil h.ne_nil

/-- The encodings of one number differ in width only. -/
theorem eq_of_length_eq {bs : List UInt8} {n : Nat} (h : IsVarint bs n) :
    ∀ {cs : List UInt8}, IsVarint cs n → bs.length = cs.length → bs = cs := by
  induction h with
  | @last b hb =>
      intro cs hcs hlen
      generalize hn : b.toNat = n at hcs
      cases hcs with
      | last => rw [UInt8.toNat_inj.mp hn]
      | more _ hcs =>
          have hpos := hcs.length_pos
          simp only [List.length_cons, List.length_nil] at hlen
          omega
  | @more b bs n hb hbs ih =>
      intro cs hcs hlen
      generalize hn : b.toNat % 128 + 128 * n = k at hcs
      cases hcs with
      | last =>
          have hpos := hbs.length_pos
          simp only [List.length_cons, List.length_nil] at hlen
          omega
      | @more d ds k hd hds =>
          have hb' := b.toNat_lt
          have hd' := d.toNat_lt
          obtain rfl : n = k := by omega
          rw [ih hds (by simpa using hlen), UInt8.toNat_inj.mp (show b.toNat = d.toNat by omega)]

end IsVarint

/-! ### Bits of a byte -/

theorem toNat_and_low (b : UInt8) : (b &&& 0x7f).toNat = b.toNat % 128 := by
  rw [UInt8.toNat_and, show (0x7f : UInt8).toNat = 2 ^ 7 - 1 from rfl,
    Nat.and_two_pow_sub_one_eq_mod]

theorem toNat_or_high (b : UInt8) : (b ||| 0x80).toNat = b.toNat % 128 + 128 := by
  have hall : ∀ i : Fin 256, i.val ||| 128 = i.val % 128 + 128 := by decide +kernel
  rw [UInt8.toNat_or]
  exact hall ⟨b.toNat, b.toNat_lt⟩

theorem toNat_low_or_high (b : UInt8) : ((b &&& 0x7f) ||| 0x80).toNat = b.toNat % 128 + 128 := by
  rw [toNat_or_high, toNat_and_low, Nat.mod_mod]

/-- The continuation test. -/
theorem and_high_eq_zero_iff (b : UInt8) : b &&& 0x80 = 0 ↔ b.toNat < 128 := by
  have hall : ∀ i : Fin 256, i.val &&& 128 = 0 ↔ i.val < 128 := by decide +kernel
  rw [← UInt8.toNat_inj, UInt8.toNat_and]
  exact hall ⟨b.toNat, b.toNat_lt⟩

/-! ### Accumulating payloads -/

/-- OR-ing a payload into the bits above the accumulated ones adds it there. -/
theorem toNat_or_shiftLeft (acc : UInt64) (b : UInt8) {shift : Nat} (hshift : shift < 64)
    (hacc : acc.toNat < 2 ^ shift) (hfit : b.toNat % 128 * 2 ^ shift < 2 ^ 64) :
    (acc ||| ((b &&& 0x7f).toUInt64 <<< UInt64.ofNat shift)).toNat
      = acc.toNat + 2 ^ shift * (b.toNat % 128) := by
  have hs : (UInt64.ofNat shift).toNat = shift := by
    rw [UInt64.toNat_ofNat']
    omega
  rw [UInt64.toNat_or, UInt64.toNat_shiftLeft, hs, UInt8.toNat_toUInt64, toNat_and_low,
    Nat.mod_eq_of_lt hshift, Nat.shiftLeft_eq, Nat.mod_eq_of_lt hfit, Nat.or_comm, Nat.mul_comm,
    ← Nat.two_pow_add_eq_or_of_lt hacc, Nat.add_comm]

end Varint
