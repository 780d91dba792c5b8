import Mathlib.Algebra.Order.Ring.Nat
import Mathlib.Tactic

/-!
# Big-endian numbers

The number that a byte string denotes, most significant byte first (`value`), and the `k` bytes
of a number as a program writes them with shifts (`bytes`). The two are inverse on `k` bytes
(`value_bytes`, `bytes_value`), four bytes moved to their places are a 32-bit word
(`toNat_or_shifts`), and the accumulator `n = (n << 8) | b` of a 64-bit word reads the same number
as long as it has at most eight bytes (`toNat_shiftIn`).
-/

namespace BigEndian

/-- The number denoted by a byte string. -/
def value (bs : List UInt8) : ℕ := bs.foldl (fun n b => n * 256 + b.toNat) 0

/-- The low `k` bytes of `n`, the most significant first. -/
def bytes (k n : ℕ) : List UInt8 :=
  (List.range k).reverse.map fun i => (n >>> (i * 8) &&& 0xFF).toUInt8

@[simp] theorem value_nil : value [] = 0 := rfl

theorem value_concat (bs : List UInt8) (b : UInt8) :
    value (bs ++ [b]) = value bs * 256 + b.toNat := by
  simp [value]

theorem value_cons (b : UInt8) (bs : List UInt8) :
    value (b :: bs) = b.toNat * 256 ^ bs.length + value bs := by
  induction bs using List.reverseRecOn with
  | nil => simp [value]
  | append_singleton bs c ih =>
    rw [← List.cons_append, value_concat, ih, value_concat, List.length_append,
      List.length_singleton, pow_succ]
    ring

theorem value_lt (bs : List UInt8) : value bs < 256 ^ bs.length := by
  induction bs with
  | nil => simp
  | cons b bs ih =>
    have hb : b.toNat + 1 ≤ 256 := b.toNat_lt
    have := Nat.mul_le_mul_right (256 ^ bs.length) hb
    rw [value_cons, List.length_cons, pow_succ]
    linarith

@[simp] theorem length_bytes (k n : ℕ) : (bytes k n).length = k := by simp [bytes]

theorem bytes_succ (k n : ℕ) :
    bytes (k + 1) n = (n >>> (k * 8) &&& 0xFF).toUInt8 :: bytes k n := by
  simp [bytes, List.range_succ]

theorem toNat_byte (n i : ℕ) :
    ((n >>> (i * 8) &&& 0xFF).toUInt8).toNat = n / 256 ^ i % 256 := by
  have e : (0xFF : ℕ) = 2 ^ 8 - 1 := rfl
  rw [Nat.toUInt8_eq, UInt8.toNat_ofNat', e, Nat.and_two_pow_sub_one_eq_mod,
    Nat.shiftRight_eq_div_pow, Nat.mul_comm i 8, Nat.pow_mul, Nat.mod_mod]

theorem value_bytes_mod (k n : ℕ) : value (bytes k n) = n % 256 ^ k := by
  induction k with
  | zero => simp [bytes, Nat.mod_one]
  | succ k ih =>
    rw [bytes_succ, value_cons, length_bytes, ih, toNat_byte, pow_succ, Nat.mod_mul]
    ring

/-- **Reading the `k` bytes of a number below `256 ^ k` gives it back.** -/
theorem value_bytes {k n : ℕ} (h : n < 256 ^ k) : value (bytes k n) = n := by
  rw [value_bytes_mod, Nat.mod_eq_of_lt h]

theorem value_inj {xs ys : List UInt8} (hl : xs.length = ys.length) (h : value xs = value ys) :
    xs = ys := by
  induction xs generalizing ys with
  | nil => exact (List.length_eq_zero_iff.mp hl.symm).symm
  | cons x xs ih =>
    cases ys with
    | nil => simp at hl
    | cons y ys =>
      have hl' : xs.length = ys.length := by simpa using hl
      rw [value_cons, value_cons, hl'] at h
      have hx := value_lt xs
      have hy := value_lt ys
      rw [hl'] at hx
      have e1 := congrArg (· / 256 ^ ys.length) h
      simp only [Nat.mul_comm _ (256 ^ ys.length), Nat.mul_add_div (Nat.pow_pos (n := ys.length)
        (show 0 < 256 by omega)), Nat.div_eq_of_lt hx, Nat.div_eq_of_lt hy, Nat.add_zero] at e1
      rw [UInt8.toNat_inj.mp e1] at h ⊢
      rw [ih hl' (Nat.add_left_cancel h)]

/-- Writing the value of a byte string gives it back. -/
theorem bytes_value (bs : List UInt8) : bytes bs.length (value bs) = bs :=
  value_inj (by simp) (value_bytes (value_lt bs))

theorem value_append (bs cs : List UInt8) :
    value (bs ++ cs) = value bs * 256 ^ cs.length + value cs := by
  induction cs using List.reverseRecOn with
  | nil => simp
  | append_singleton cs c ih =>
    rw [← List.append_assoc, value_concat, ih, value_concat, List.length_append,
      List.length_singleton, pow_succ]
    ring

/-- The bytes of a number of two parts. -/
theorem bytes_add (j m : ℕ) {k n : ℕ} (h : n < 256 ^ k) :
    bytes (j + k) (m * 256 ^ k + n) = bytes j m ++ bytes k n := by
  apply value_inj
  · simp
  have hdiv : (m * 256 ^ k + n) / 256 ^ k = m := by
    rw [Nat.mul_comm, Nat.mul_add_div (Nat.pow_pos (by norm_num)), Nat.div_eq_of_lt h, Nat.add_zero]
  have hmod : (m * 256 ^ k + n) % 256 ^ k = n := Nat.mul_add_mod_of_lt h
  rw [value_append, value_bytes_mod, value_bytes_mod, value_bytes h, length_bytes, Nat.add_comm j k,
    pow_add, Nat.mod_mul, hdiv, hmod]
  ring

/-! ## A 32-bit word -/

/-- A word from its bytes, each moved to its place. -/
theorem toNat_or_shifts (a b c d : UInt8) :
    (a.toUInt32 <<< 24 ||| b.toUInt32 <<< 16 ||| c.toUInt32 <<< 8 ||| d.toUInt32).toNat =
      value [a, b, c, d] := by
  have ha := a.toNat_lt
  have hb := b.toNat_lt
  have hc := c.toNat_lt
  have hd := d.toNat_lt
  have h1 : (a.toUInt32 <<< 24).toNat = 2 ^ 24 * a.toNat := by
    rw [UInt32.toNat_shiftLeft, UInt8.toNat_toUInt32]
    simp [Nat.shiftLeft_eq]
    omega
  have h2 : (b.toUInt32 <<< 16).toNat = 2 ^ 16 * b.toNat := by
    rw [UInt32.toNat_shiftLeft, UInt8.toNat_toUInt32]
    simp [Nat.shiftLeft_eq]
    omega
  have h3 : (c.toUInt32 <<< 8).toNat = 2 ^ 8 * c.toNat := by
    rw [UInt32.toNat_shiftLeft, UInt8.toNat_toUInt32]
    simp [Nat.shiftLeft_eq]
    omega
  have hvalue : value [a, b, c, d] =
      2 ^ 24 * a.toNat + (2 ^ 16 * b.toNat + (2 ^ 8 * c.toNat + d.toNat)) := by
    simp [value]
    omega
  rw [UInt32.toNat_or, UInt32.toNat_or, UInt32.toNat_or, h1, h2, h3, UInt8.toNat_toUInt32, hvalue,
    Nat.or_assoc, Nat.or_assoc, ← Nat.two_pow_add_eq_or_of_lt hd,
    ← Nat.two_pow_add_eq_or_of_lt (b := 2 ^ 8 * c.toNat + d.toNat) (by omega),
    ← Nat.two_pow_add_eq_or_of_lt (by omega)]

/-- The bytes of a word, each moved to the lowest place. -/
theorem bytes_word (w : UInt32) :
    bytes 4 w.toNat = [(w >>> 24 &&& 0xFF).toUInt8, (w >>> 16 &&& 0xFF).toUInt8,
      (w >>> 8 &&& 0xFF).toUInt8, (w &&& 0xFF).toUInt8] := by
  rfl

/-! ## The accumulator of a 64-bit word -/

/-- `n = (n << 8) | b`. -/
def shiftIn (n : UInt64) (b : UInt8) : UInt64 := n <<< 8 ||| b.toUInt64

theorem toNat_shiftIn {n : UInt64} (b : UInt8) (h : n.toNat < 2 ^ 56) :
    (shiftIn n b).toNat = n.toNat * 256 + b.toNat := by
  have hb := b.toNat_lt
  have h8 : n.toNat <<< 8 < 2 ^ 64 := by rw [Nat.shiftLeft_eq]; omega
  rw [shiftIn, UInt64.toNat_or, UInt64.toNat_shiftLeft, UInt8.toNat_toUInt64]
  rw [show (8 : UInt64).toNat % 64 = 8 from rfl, Nat.mod_eq_of_lt h8,
    ← Nat.shiftLeft_add_eq_or_of_lt (by omega), Nat.shiftLeft_eq]

theorem toNat_foldl_shiftIn {bs : List UInt8} (h : bs.length ≤ 8) :
    (bs.foldl shiftIn 0).toNat = value bs := by
  induction bs using List.reverseRecOn with
  | nil => rfl
  | append_singleton bs b ih =>
    rw [List.length_append, List.length_singleton] at h
    have hv := (value_lt bs).trans_le (Nat.pow_le_pow_right (by omega : 0 < 256)
      (by omega : bs.length ≤ 7))
    have ih' := ih (by omega)
    rw [List.foldl_append, List.foldl_cons, List.foldl_nil, value_concat, toNat_shiftIn, ih']
    rw [ih']
    exact hv

end BigEndian
