import Mathlib.Algebra.Order.Ring.Nat
import Mathlib.Tactic

/-!
# Fields of bits

The mask `(2 ^ k - 1) <<< s` cuts the `k` bits from place `s` on out of a number (`and_mask`). In a
byte, a field at the lowest bit is a remainder and one at the highest bit a quotient; two numbers
without a common bit have one sum and one disjunction.
-/

namespace Bits

theorem and_mask (n k s : ℕ) : n &&& (2 ^ k - 1) <<< s = 2 ^ s * (n / 2 ^ s % 2 ^ k) := by
  rw [← Nat.and_two_pow_sub_one_eq_mod, Nat.mul_comm, ← Nat.shiftLeft_eq]
  apply Nat.eq_of_testBit_eq
  intro j
  rw [Nat.testBit_and, Nat.testBit_shiftLeft, Nat.testBit_shiftLeft, Nat.testBit_and,
    Nat.testBit_div_two_pow]
  by_cases hj : s ≤ j
  · simp [hj]
  · simp [hj]

section Byte

variable {m s x y : UInt8} {k : ℕ}

/-- The lowest bits. -/
theorem toNat_low (hm : m.toNat = 2 ^ k - 1) (b : UInt8) : (b &&& m).toNat = b.toNat % 2 ^ k := by
  rw [UInt8.toNat_and, hm, Nat.and_two_pow_sub_one_eq_mod]

/-- The lowest bits, moved up. -/
theorem toNat_low_shiftLeft (hm : m.toNat = 2 ^ k - 1) (hs : s.toNat < 8) (hk : s.toNat + k ≤ 8)
    (b : UInt8) : ((b &&& m) <<< s).toNat = 2 ^ s.toNat * (b.toNat % 2 ^ k) := by
  have hlt : 2 ^ s.toNat * (b.toNat % 2 ^ k) < 2 ^ 8 := by
    have hmod := Nat.mod_lt b.toNat (Nat.two_pow_pos k)
    calc 2 ^ s.toNat * (b.toNat % 2 ^ k) < 2 ^ s.toNat * 2 ^ k :=
          Nat.mul_lt_mul_of_pos_left hmod (Nat.two_pow_pos _)
      _ = 2 ^ (s.toNat + k) := (pow_add 2 _ _).symm
      _ ≤ 2 ^ 8 := Nat.pow_le_pow_right (by norm_num) hk
  rw [UInt8.toNat_shiftLeft, toNat_low hm, Nat.mod_eq_of_lt hs, Nat.shiftLeft_eq, Nat.mul_comm,
    Nat.mod_eq_of_lt hlt]

/-- The highest bits, moved down. -/
theorem toNat_shiftRight (hs : s.toNat < 8) (b : UInt8) :
    (b >>> s).toNat = b.toNat / 2 ^ s.toNat := by
  rw [UInt8.toNat_shiftRight, Nat.mod_eq_of_lt hs, Nat.shiftRight_eq_div_pow]

/-- A mask of the highest bits is for nothing when they are moved down. -/
theorem high_shiftRight (hs : s.toNat < 8) (hm : m.toNat = (2 ^ k - 1) <<< s.toNat)
    (hk : s.toNat + k = 8) (b : UInt8) : (b &&& m) >>> s = b >>> s := by
  have hdiv : b.toNat / 2 ^ s.toNat < 2 ^ k := by
    rw [Nat.div_lt_iff_lt_mul (Nat.two_pow_pos _), ← pow_add, Nat.add_comm, hk]
    exact b.toNat_lt
  rw [← UInt8.toNat_inj, toNat_shiftRight hs, toNat_shiftRight hs, UInt8.toNat_and, hm, and_mask,
    Nat.mul_div_cancel_left _ (Nat.two_pow_pos _), Nat.mod_eq_of_lt hdiv]

/-- Two numbers with no bit in common. -/
theorem toNat_or_eq {j : ℕ} (hx : x.toNat = 2 ^ k * j) (hy : y.toNat < 2 ^ k) :
    (x ||| y).toNat = 2 ^ k * j + y.toNat := by
  rw [UInt8.toNat_or, hx, Nat.two_pow_add_eq_or_of_lt hy]

theorem add_eq_or {j : ℕ} (hx : x.toNat = 2 ^ k * j) (hy : y.toNat < 2 ^ k) : x + y = x ||| y := by
  have hor := toNat_or_eq hx hy
  have hlt := (x ||| y).toNat_lt
  apply UInt8.toNat_inj.mp
  rw [UInt8.toNat_add, hor, hx, Nat.mod_eq_of_lt (by omega)]

end Byte

end Bits
