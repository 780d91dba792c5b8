import Mathlib.Data.List.GetD
import Mathlib.Tactic

/-!
# Base64

The encoding of RFC 4648, section 4: three bytes are a number of 24 bits, written with four digits
to the base 64, and one or two bytes that are left are filled up with zero bits and padding.
`decode` is a strict decoder, which takes padding only at the end and only behind zero bits. It is a
left inverse of `encode` (`decode_encode`), so that no two byte strings have one encoding
(`encode_injective`).
-/

namespace Base64

/-- The digits in their order: the capital letters, the small letters, the decimal digits, `+`
and `/`. -/
def alphabet : List UInt8 :=
  (List.range' 65 26 ++ List.range' 97 26 ++ List.range' 48 10 ++ [43, 47]).map Nat.toUInt8

/-- The padding character `=`. -/
def pad : UInt8 := 61

/-- The digit of a number below 64. -/
def digit (k : ℕ) : UInt8 := alphabet.getD k 0

/-- The number of a digit. -/
def digitValue (c : UInt8) : Option ℕ := alphabet.idxOf? c

/-- The four digits of three bytes. -/
def digits (a b c : UInt8) : List UInt8 :=
  let n := (a.toNat * 256 + b.toNat) * 256 + c.toNat
  [digit (n / 64 ^ 3), digit (n / 64 ^ 2 % 64), digit (n / 64 % 64), digit (n % 64)]

/-- The encoding of a byte string. -/
def encode : List UInt8 → List UInt8
  | [] => []
  | [a] => (digits a 0 0).take 2 ++ [pad, pad]
  | [a, b] => (digits a b 0).take 3 ++ [pad]
  | a :: b :: c :: rest => digits a b c ++ encode rest

/-- The three bytes of four digits. -/
def bytesOf (w x y z : ℕ) : UInt8 × UInt8 × UInt8 :=
  let n := ((w * 64 + x) * 64 + y) * 64 + z
  ((n / 256 ^ 2).toUInt8, (n / 256 % 256).toUInt8, (n % 256).toUInt8)

/-- The bytes of the last four characters, of which the first two are digits. -/
def decodeLast (w x : ℕ) (cy cz : UInt8) : Option (List UInt8) :=
  if cy = pad ∧ cz = pad then
    if x % 16 = 0 then some [(bytesOf w x 0 0).1] else none
  else do
    let y ← digitValue cy
    if cz = pad then
      if y % 4 = 0 then some [(bytesOf w x y 0).1, (bytesOf w x y 0).2.1] else none
    else do
      let z ← digitValue cz
      let (a, b, c) := bytesOf w x y z
      some [a, b, c]

/-- The decoder: four characters at a time, with padding in the last four alone. -/
def decode : List UInt8 → Option (List UInt8)
  | [] => some []
  | cw :: cx :: cy :: cz :: rest => do
    let w ← digitValue cw
    let x ← digitValue cx
    if rest = [] then decodeLast w x cy cz
    else do
      let y ← digitValue cy
      let z ← digitValue cz
      let (a, b, c) := bytesOf w x y z
      let bs ← decode rest
      some (a :: b :: c :: bs)
  | _ => none

/-! ## Digits -/

theorem length_alphabet : alphabet.length = 64 := by decide

/-- A digit is read as its number, and is no padding. -/
theorem digitValue_digit {k : ℕ} (h : k < 64) : digitValue (digit k) = some k := by
  have hall : ∀ k < 64, digitValue (digit k) = some k := by decide +kernel
  exact hall k h

theorem digit_ne_pad {k : ℕ} (h : k < 64) : digit k ≠ pad := by
  have hall : ∀ k < 64, digit k ≠ pad := by decide +kernel
  exact hall k h

theorem digit_mem_alphabet {k : ℕ} (h : k < 64) : digit k ∈ alphabet := by
  rw [digit, List.getD_eq_getElem _ _ (by rwa [length_alphabet])]
  exact List.getElem_mem _

theorem pad_notMem_alphabet : pad ∉ alphabet := by decide

/-! ## Three bytes -/

/-- The digits of three bytes are those of one number. -/
theorem exists_digits (a b c : UInt8) : ∃ w x y z, w < 64 ∧ x < 64 ∧ y < 64 ∧ z < 64 ∧
    ((w * 64 + x) * 64 + y) * 64 + z = (a.toNat * 256 + b.toNat) * 256 + c.toNat ∧
    digits a b c = [digit w, digit x, digit y, digit z] := by
  have ha := a.toNat_lt
  have hb := b.toNat_lt
  have hc := c.toNat_lt
  refine ⟨_, _, _, _, ?_, ?_, ?_, ?_, ?_, rfl⟩ <;> omega

/-- A number of 24 bits gives its bytes back. -/
theorem bytesOf_eq {w x y z : ℕ} {a b c : UInt8}
    (h : ((w * 64 + x) * 64 + y) * 64 + z = (a.toNat * 256 + b.toNat) * 256 + c.toNat) :
    bytesOf w x y z = (a, b, c) := by
  have ha := a.toNat_lt
  have hb := b.toNat_lt
  have hc := c.toNat_lt
  have h1 : ((a.toNat * 256 + b.toNat) * 256 + c.toNat) / 256 ^ 2 = a.toNat := by omega
  have h2 : ((a.toNat * 256 + b.toNat) * 256 + c.toNat) / 256 % 256 = b.toNat := by omega
  have h3 : ((a.toNat * 256 + b.toNat) * 256 + c.toNat) % 256 = c.toNat := by omega
  have hbyte : ∀ d : UInt8, d.toNat.toUInt8 = d := fun d => by simp
  simp only [bytesOf, h, h1, h2, h3, hbyte]

@[simp] theorem length_digits (a b c : UInt8) : (digits a b c).length = 4 := rfl

theorem digits_subset (a b c : UInt8) : ∀ d ∈ digits a b c, d ∈ alphabet := by
  obtain ⟨w, x, y, z, hw, hx, hy, hz, -, hd⟩ := exists_digits a b c
  intro d hmem
  simp only [hd, List.mem_cons, List.not_mem_nil, or_false] at hmem
  rcases hmem with rfl | rfl | rfl | rfl
  · exact digit_mem_alphabet hw
  · exact digit_mem_alphabet hx
  · exact digit_mem_alphabet hy
  · exact digit_mem_alphabet hz

/-! ## Decoding -/

/-- Four digits are read as three bytes, whatever follows. -/
theorem decode_digits (a b c : UInt8) (cs : List UInt8) :
    decode (digits a b c ++ cs) = (decode cs).map fun bs => a :: b :: c :: bs := by
  obtain ⟨w, x, y, z, hw, hx, hy, hz, hn, hd⟩ := exists_digits a b c
  have hbytes := bytesOf_eq hn
  rw [hd]
  simp only [List.cons_append, List.nil_append, decode, digitValue_digit hw, digitValue_digit hx,
    Option.bind_eq_bind, Option.bind_some]
  split_ifs with hcs
  · -- the last four characters, without padding
    subst hcs
    simp [decodeLast, digit_ne_pad hy, digit_ne_pad hz, digitValue_digit hy, digitValue_digit hz,
      hbytes, decode]
  · simp only [digitValue_digit hy, digitValue_digit hz, hbytes, Option.bind_some]
    cases decode cs <;> rfl

theorem decode_one (a : UInt8) : decode (encode [a]) = some [a] := by
  obtain ⟨w, x, y, z, hw, hx, hy, hz, hn, hd⟩ := exists_digits a 0 0
  have h0 : (0 : UInt8).toNat = 0 := rfl
  have hzero : x % 16 = 0 ∧ y = 0 ∧ z = 0 := by omega
  have hbytes := bytesOf_eq hn
  rw [hzero.2.1, hzero.2.2] at hbytes
  rw [encode, hd]
  simp [decode, decodeLast, digitValue_digit hw, digitValue_digit hx, hzero.1, hbytes]

theorem decode_two (a b : UInt8) : decode (encode [a, b]) = some [a, b] := by
  obtain ⟨w, x, y, z, hw, hx, hy, hz, hn, hd⟩ := exists_digits a b 0
  have h0 : (0 : UInt8).toNat = 0 := rfl
  have hzero : y % 4 = 0 ∧ z = 0 := by omega
  have hbytes := bytesOf_eq hn
  rw [hzero.2] at hbytes
  rw [encode, hd]
  simp [decode, decodeLast, digitValue_digit hw, digitValue_digit hx, digitValue_digit hy,
    digit_ne_pad hy, hzero.1, hbytes]

/-- **Decoding the encoding of a byte string gives it back.** -/
theorem decode_encode (bs : List UInt8) : decode (encode bs) = some bs := by
  induction bs using encode.induct with
  | case1 => rfl
  | case2 a => exact decode_one a
  | case3 a b => exact decode_two a b
  | case4 a b c rest ih => rw [encode, decode_digits, ih, Option.map_some]

/-- No two byte strings have one encoding. -/
theorem encode_injective : Function.Injective encode := by
  intro bs bs' h
  have hdecode := congrArg decode h
  rw [decode_encode, decode_encode] at hdecode
  exact Option.some.inj hdecode

/-! ## The shape of an encoding -/

theorem length_encode (bs : List UInt8) : (encode bs).length = 4 * ((bs.length + 2) / 3) := by
  induction bs using encode.induct with
  | case1 => rfl
  | case2 a => simp [encode]
  | case3 a b => simp [encode]
  | case4 a b c rest ih =>
    rw [encode, List.length_append, ih, length_digits]
    simp only [List.length_cons]
    omega

/-- An encoding consists of digits, with padding behind them for the bytes that miss in the last
three. -/
theorem exists_encode (bs : List UInt8) : ∃ text, (∀ c ∈ text, c ∈ alphabet) ∧
    encode bs = text ++ List.replicate ((3 - bs.length % 3) % 3) pad := by
  induction bs using encode.induct with
  | case1 => exact ⟨[], by simp, rfl⟩
  | case2 a =>
    exact ⟨(digits a 0 0).take 2, fun c hc => digits_subset a 0 0 c (List.mem_of_mem_take hc), rfl⟩
  | case3 a b =>
    exact ⟨(digits a b 0).take 3, fun c hc => digits_subset a b 0 c (List.mem_of_mem_take hc), rfl⟩
  | case4 a b c rest ih =>
    obtain ⟨text, htext, hrest⟩ := ih
    refine ⟨digits a b c ++ text, fun d hd => ?_, ?_⟩
    · rcases List.mem_append.mp hd with hd | hd
      · exact digits_subset a b c d hd
      · exact htext d hd
    · have hlen : (a :: b :: c :: rest).length % 3 = rest.length % 3 := by
        simp only [List.length_cons]
        omega
      rw [encode, hrest, hlen, List.append_assoc]

/-- The first three bytes are encoded apart from the others. -/
theorem encode_take_drop (bs : List UInt8) :
    encode bs = encode (bs.take 3) ++ encode (bs.drop 3) := by
  match bs with
  | [] => rfl
  | [a] => rfl
  | [a, b] => rfl
  | a :: b :: c :: rest => simp [encode]

end Base64
