import SimpleServer.Foundations.Base64
import SimpleServer.Foundations.Bits
import SimpleServer.Foundations.Bytes

/-!
# The two base64 encoders

`base64_encode` and `b64` of `websocket_handler.cpp`; `simple_server_websocket_connection.cpp` has
the same text. The first looks ahead in the array, with a 32-bit index; the second collects three
bytes at a time in a buffer whose counter is also the variable of an inner loop, and pads by the
length of the result. Both write the encoding of RFC 4648 (`base64Encode_eq`, `b64_eq`), the first
for every array that its index can pass: of fewer than `2 ^ 32` bytes.
-/

namespace SimpleServer

open Cxx

def base64Chars : Bytes := lit "ABCDEFGHIJKLMNOPQRSTUVWXYZabcdefghijklmnopqrstuvwxyz0123456789+/"

/-! ## `base64_encode` -/

/-- The four characters that one pass of the loop appends. -/
def base64Group (data : Bytes) (i : UInt32) : Bytes :=
  let bytesLeft := data.length - i.toNat
  let b0 := data.getD i.toNat 0
  let b1 := if 1 < bytesLeft then data.getD (i + 1).toNat 0 else 0
  let b2 := if 2 < bytesLeft then data.getD (i + 2).toNat 0 else 0
  let char := fun k : UInt8 => base64Chars.getD k.toNat 0
  [char (b0 >>> 2),
    char ((b0 &&& 0x03) <<< 4 ||| (b1 &&& 0xf0) >>> 4),
    if 1 < bytesLeft then char ((b1 &&& 0x0f) <<< 2 ||| (b2 &&& 0xc0) >>> 6) else 61,
    if 2 < bytesLeft then char (b2 &&& 0x3f) else 61]

/-- The loop of `base64_encode`; `none` when it is still running after the passes allowed. -/
def base64Loop (data : Bytes) : ℕ → UInt32 → Bytes → Option Bytes
  | 0, _, _ => none
  | passes + 1, i, output =>
    if i.toNat < data.length then base64Loop data passes (i + 3) (output ++ base64Group data i)
    else some output

/-- `base64_encode`. -/
def base64Encode (data : Bytes) : Option Bytes := base64Loop data (data.length + 1) 0 []

/-! ## `b64` -/

/-- The variables of `b64` at the head of its loop, where the counter `i` is inside the buffer. -/
structure B64State where
  result : Bytes
  i : Fin 3
  byteArray3 : Vector UInt8 3
  byteArray4 : Vector UInt8 4

/-- The four assignments to `byte_array_4`. -/
def splitBytes (a : Vector UInt8 3) : Vector UInt8 4 :=
  #v[(a[0] &&& 0xfc) >>> 2,
    ((a[0] &&& 0x03) <<< 4) + ((a[1] &&& 0xf0) >>> 4),
    ((a[1] &&& 0x0f) <<< 2) + ((a[2] &&& 0xc0) >>> 6),
    a[2] &&& 0x3f]

/-- The loops that append the characters of the first `n` entries of `byte_array_4`. -/
def appendChars (result : Bytes) (a : Vector UInt8 4) (n : ℕ) : Bytes :=
  (a.toList.take n).foldl (fun result k => result ++ [base64Chars.getD k.toNat 0]) result

/-- One pass of the loop over the data. The inner loop leaves `i` at four and it is set to zero. -/
def b64Step (s : B64State) (byte : UInt8) : B64State :=
  let byteArray3 := s.byteArray3.set s.i byte
  if h : s.i.val + 1 = 3 then
    let byteArray4 := splitBytes byteArray3
    ⟨appendChars s.result byteArray4 4, 0, byteArray3, byteArray4⟩
  else { s with i := ⟨s.i + 1, by omega⟩, byteArray3 := byteArray3 }

/-- The loop `while (result.size() % 4)`. -/
def padResult (result : Bytes) : Bytes :=
  if result.length % 4 ≠ 0 then padResult (result ++ [61]) else result
termination_by (4 - result.length % 4) % 4
decreasing_by
  rw [List.length_append, List.length_singleton]
  omega

/-- What `b64` does behind the loop. -/
def b64Rest (s : B64State) : Bytes :=
  if s.i ≠ 0 then
    let byteArray3 := Vector.ofFn fun j : Fin 3 => if s.i ≤ j then 0 else s.byteArray3[j]
    let byteArray4 := splitBytes byteArray3
    padResult (appendChars s.result byteArray4 (s.i + 1))
  else s.result

/-- `b64`. The two arrays are not initialised and hold what the memory holds. -/
def b64 (memory3 : Vector UInt8 3) (memory4 : Vector UInt8 4) (data : Bytes) : Bytes :=
  b64Rest (data.foldl b64Step ⟨[], 0, memory3, memory4⟩)

/-! ## Bits -/

section Fields

variable (b : UInt8)

theorem toNat_upper6 : (b >>> 2).toNat = b.toNat / 2 ^ 2 := Bits.toNat_shiftRight (by decide) b

theorem and_upper6 : (b &&& 0xfc) >>> 2 = b >>> 2 :=
  Bits.high_shiftRight (k := 6) (by decide) rfl rfl b

theorem toNat_lower2 : ((b &&& 0x03) <<< 4).toNat = 2 ^ 4 * (b.toNat % 2 ^ 2) :=
  Bits.toNat_low_shiftLeft rfl (by decide) (by decide) b

theorem toNat_upper4 : ((b &&& 0xf0) >>> 4).toNat = b.toNat / 2 ^ 4 := by
  rw [Bits.high_shiftRight (k := 4) (by decide) rfl rfl b]
  exact Bits.toNat_shiftRight (by decide) b

theorem toNat_lower4 : ((b &&& 0x0f) <<< 2).toNat = 2 ^ 2 * (b.toNat % 2 ^ 4) :=
  Bits.toNat_low_shiftLeft rfl (by decide) (by decide) b

theorem toNat_upper2 : ((b &&& 0xc0) >>> 6).toNat = b.toNat / 2 ^ 6 := by
  rw [Bits.high_shiftRight (k := 2) (by decide) rfl rfl b]
  exact Bits.toNat_shiftRight (by decide) b

theorem toNat_lower6 : (b &&& 0x3f).toNat = b.toNat % 2 ^ 6 := Bits.toNat_low rfl b

end Fields

theorem base64Chars_eq : base64Chars = Base64.alphabet := rfl

/-! ## Groups -/

/-- The characters of three bytes as `base64_encode` computes them. -/
theorem digits_eq (a b c : UInt8) : Base64.digits a b c =
    [base64Chars.getD (a >>> 2).toNat 0,
      base64Chars.getD ((a &&& 0x03) <<< 4 ||| (b &&& 0xf0) >>> 4).toNat 0,
      base64Chars.getD ((b &&& 0x0f) <<< 2 ||| (c &&& 0xc0) >>> 6).toNat 0,
      base64Chars.getD (c &&& 0x3f).toNat 0] := by
  have ha := a.toNat_lt
  have hb := b.toNat_lt
  have hc := c.toNat_lt
  have hsecond := Bits.toNat_or_eq (toNat_lower2 a) (y := (b &&& 0xf0) >>> 4)
    (by rw [toNat_upper4]; omega)
  have hthird := Bits.toNat_or_eq (toNat_lower4 b) (y := (c &&& 0xc0) >>> 6)
    (by rw [toNat_upper2]; omega)
  rw [toNat_upper4] at hsecond
  rw [toNat_upper2] at hthird
  have h1 : ((a.toNat * 256 + b.toNat) * 256 + c.toNat) / 64 ^ 3 = a.toNat / 2 ^ 2 := by omega
  have h2 : ((a.toNat * 256 + b.toNat) * 256 + c.toNat) / 64 ^ 2 % 64 =
      2 ^ 4 * (a.toNat % 2 ^ 2) + b.toNat / 2 ^ 4 := by omega
  have h3 : ((a.toNat * 256 + b.toNat) * 256 + c.toNat) / 64 % 64 =
      2 ^ 2 * (b.toNat % 2 ^ 4) + c.toNat / 2 ^ 6 := by omega
  have h4 : ((a.toNat * 256 + b.toNat) * 256 + c.toNat) % 64 = c.toNat % 2 ^ 6 := by omega
  simp only [Base64.digits, Base64.digit, base64Chars_eq, toNat_upper6, hsecond, hthird,
    toNat_lower6, h1, h2, h3, h4]

theorem lt_of_dvd_three {i n : ℕ} (hi : i % 3 = 0) (h : i < n) (hn : n < 2 ^ 32) :
    i + 3 < 2 ^ 32 := by
  omega

/-- The index does not wrap in a pass. -/
theorem toNat_index_add {i k : UInt32} (hlt : i.toNat + 3 < 2 ^ 32) (hk : k.toNat ≤ 3) :
    (i + k).toNat = i.toNat + k.toNat := by
  rw [UInt32.toNat_add]
  exact Nat.mod_eq_of_lt (by omega)

/-- One pass of the loop encodes the next three bytes, or those that are left. -/
theorem base64Group_eq {data : Bytes} {i : UInt32} (hi : i.toNat < data.length)
    (hlt : i.toNat + 3 < 2 ^ 32) :
    base64Group data i = Base64.encode ((data.drop i.toNat).take 3) := by
  have h1 : (i + 1).toNat = i.toNat + 1 := toNat_index_add hlt (by decide)
  have h2 : (i + 2).toNat = i.toNat + 2 := toNat_index_add hlt (by decide)
  have hget : ∀ j, data.getD (i.toNat + j) 0 = (data.drop i.toNat).getD j 0 := fun j => by
    simp [List.getD_eq_getElem?_getD]
  have hlen : data.length - i.toNat = (data.drop i.toNat).length := List.length_drop.symm
  have hne : data.drop i.toNat ≠ [] := by simpa using hi
  have h0 := hget 0
  rw [Nat.add_zero] at h0
  rw [base64Group, h1, h2, hget 1, hget 2, h0, hlen]
  rcases hdrop : data.drop i.toNat with _ | ⟨a, _ | ⟨b, _ | ⟨c, rest⟩⟩⟩
  · exact absurd hdrop hne
  · simp [Base64.encode, digits_eq, Base64.pad]
  · simp [Base64.encode, digits_eq, Base64.pad]
  · simp [Base64.encode, digits_eq]

/-- The loop from an index that three divides. -/
theorem base64Loop_eq {data : Bytes} (hlen : data.length < 2 ^ 32) {passes : ℕ} {i : UInt32}
    (hi : i.toNat % 3 = 0) (hpasses : data.length ≤ i.toNat + passes) (output : Bytes) :
    base64Loop data (passes + 1) i output = some (output ++ Base64.encode (data.drop i.toNat)) := by
  induction passes generalizing i output with
  | zero =>
    rw [base64Loop, if_neg (by omega), List.drop_of_length_le (by omega), Base64.encode,
      List.append_nil]
  | succ passes ih =>
    rw [base64Loop]
    split_ifs with hlt
    · have hpass := lt_of_dvd_three hi hlt hlen
      have hadd : (i + 3).toNat = i.toNat + 3 := toNat_index_add hpass (by decide)
      rw [ih (by omega) (by omega), hadd, base64Group_eq hlt hpass, List.append_assoc,
        ← List.drop_drop, ← Base64.encode_take_drop]
    · rw [List.drop_of_length_le (not_lt.mp hlt), Base64.encode, List.append_nil]

/-- `base64_encode` writes the encoding of RFC 4648. -/
theorem base64Encode_eq {data : Bytes} (hlen : data.length < 2 ^ 32) :
    base64Encode data = some (Base64.encode data) :=
  base64Loop_eq hlen rfl (by simp) []

/-- The loop ends on every array that the index can pass. -/
theorem base64Encode_isSome {data : Bytes} (hlen : data.length < 2 ^ 32) :
    (base64Encode data).isSome := by
  rw [base64Encode_eq hlen]
  rfl

/-- The text `out` has the length and the shape of a base64 text of as many bytes as `data` has,
and a decoder reads it as `data`. -/
structure Encodes (data out : Bytes) : Prop where
  length_eq : out.length = 4 * ((data.length + 2) / 3)
  shape : ∃ text, (∀ c ∈ text, c ∈ Base64.alphabet) ∧
    out = text ++ List.replicate ((3 - data.length % 3) % 3) Base64.pad
  decode_eq : Base64.decode out = some data

theorem encodes_encode (data : Bytes) : Encodes data (Base64.encode data) :=
  ⟨Base64.length_encode data, Base64.exists_encode data, Base64.decode_encode data⟩

/-- **`base64_encode` is the encoding of RFC 4648.** On every array of fewer than `2 ^ 32` bytes
the function returns; what it returns has the length and the shape of a base64 text and is decoded
to the array, and no other such array is encoded to it. -/
theorem base64Encode_rfc4648 (data : Bytes) (hlen : data.length < 2 ^ 32) :
    (∃ out, base64Encode data = some out ∧ Encodes data out) ∧
      ∀ data' : Bytes, data'.length < 2 ^ 32 → base64Encode data' = base64Encode data →
        data' = data := by
  refine ⟨⟨_, base64Encode_eq hlen, encodes_encode data⟩, fun data' hlen' heq => ?_⟩
  rw [base64Encode_eq hlen, base64Encode_eq hlen', Option.some.injEq] at heq
  exact Base64.encode_injective heq

/-- Two bytes are padded with one character. -/
theorem base64Encode_two : (lit "Ma").length < 2 ^ 32 ∧
    (∃ out, base64Encode (lit "Ma") = some out ∧ Encodes (lit "Ma") out) ∧
      ∀ data' : Bytes, data'.length < 2 ^ 32 → base64Encode data' = base64Encode (lit "Ma") →
        data' = lit "Ma" :=
  have hlen : (lit "Ma").length < 2 ^ 32 := by decide
  ⟨hlen, base64Encode_rfc4648 (lit "Ma") hlen⟩

example : base64Encode (lit "Ma") = some (lit "TWE=") := by decide

/-! ## The state of `b64` -/

theorem appendChars_eq (result : Bytes) (a : Vector UInt8 4) (n : ℕ) :
    appendChars result a n =
      result ++ (a.toList.take n).map fun k => base64Chars.getD k.toNat 0 := by
  rw [appendChars]
  induction a.toList.take n generalizing result with
  | nil => simp
  | cons k ks ih => rw [List.foldl_cons, ih, List.map_cons, List.append_assoc]; rfl

/-- The characters of the buffer of `b64`. -/
theorem chars_splitBytes (a : Vector UInt8 3) :
    ((splitBytes a).toList.map fun k => base64Chars.getD k.toNat 0) =
      Base64.digits a[0] a[1] a[2] := by
  have h0 := a[0].toNat_lt
  have h1 := a[1].toNat_lt
  have h2 := a[2].toNat_lt
  have hsecond : (a[0] &&& 0x03) <<< 4 + (a[1] &&& 0xf0) >>> 4 =
      (a[0] &&& 0x03) <<< 4 ||| (a[1] &&& 0xf0) >>> 4 :=
    Bits.add_eq_or (toNat_lower2 _) (by rw [toNat_upper4]; omega)
  have hthird : (a[1] &&& 0x0f) <<< 2 + (a[2] &&& 0xc0) >>> 6 =
      (a[1] &&& 0x0f) <<< 2 ||| (a[2] &&& 0xc0) >>> 6 :=
    Bits.add_eq_or (toNat_lower4 _) (by rw [toNat_upper2]; omega)
  simp only [digits_eq, splitBytes, and_upper6, hsecond, hthird]
  rfl

/-- The result is filled up to whole groups. -/
theorem padResult_eq {result : Bytes} {k : ℕ} (hk : k < 4) (h : (result.length + k) % 4 = 0) :
    padResult result = result ++ List.replicate k Base64.pad := by
  induction k generalizing result with
  | zero =>
    rw [Nat.add_zero] at h
    rw [padResult, if_neg (not_not.mpr h), List.replicate_zero, List.append_nil]
  | succ k ih =>
    have hnext : padResult (result ++ [61]) = result ++ [61] ++ List.replicate k Base64.pad := by
      apply ih (by omega)
      rw [List.length_append, List.length_singleton]
      omega
    rw [padResult, if_pos (by omega), hnext, List.append_assoc, List.replicate_succ]
    rfl

section Steps

variable (result : Bytes) (buffer : Vector UInt8 3) (chars : Vector UInt8 4)

theorem b64Step_first (a : UInt8) :
    b64Step ⟨result, 0, buffer, chars⟩ a = ⟨result, 1, buffer.set 0 a, chars⟩ := rfl

theorem b64Step_second (b : UInt8) :
    b64Step ⟨result, 1, buffer, chars⟩ b = ⟨result, 2, buffer.set 1 b, chars⟩ := rfl

theorem b64Step_third (c : UInt8) : b64Step ⟨result, 2, buffer, chars⟩ c =
    ⟨appendChars result (splitBytes (buffer.set 2 c)) 4, 0, buffer.set 2 c,
      splitBytes (buffer.set 2 c)⟩ := rfl

/-- The buffer that is written when all three bytes are collected. -/
theorem appendChars_group (a b c : UInt8) :
    appendChars result (splitBytes (((buffer.set 0 a).set 1 b).set 2 c)) 4 =
      result ++ Base64.digits a b c := by
  rw [appendChars_eq, List.take_of_length_le (by simp), chars_splitBytes]
  simp

/-- One byte in the buffer. -/
theorem b64Rest_one (h : result.length % 4 = 0) (a : UInt8) :
    b64Rest ⟨result, 1, buffer.set 0 a, chars⟩ = result ++ Base64.encode [a] := by
  have hbuffer : (Vector.ofFn fun j : Fin 3 =>
      if (1 : Fin 3) ≤ j then 0 else (buffer.set 0 a)[j]) = #v[a, 0, 0] := by
    ext j hj
    interval_cases j <;> simp
  have hchars : appendChars result (splitBytes #v[a, 0, 0]) ((1 : Fin 3) + 1) =
      result ++ (Base64.digits a 0 0).take 2 := by
    rw [appendChars_eq, List.map_take, chars_splitBytes]
    rfl
  rw [b64Rest, if_pos (by simp)]
  simp only [hbuffer, hchars]
  rw [padResult_eq (k := 2) (by norm_num) (by simp; omega), List.append_assoc]
  rfl

/-- Two bytes in the buffer. -/
theorem b64Rest_two (h : result.length % 4 = 0) (a b : UInt8) :
    b64Rest ⟨result, 2, (buffer.set 0 a).set 1 b, chars⟩ = result ++ Base64.encode [a, b] := by
  have hbuffer : (Vector.ofFn fun j : Fin 3 =>
      if (2 : Fin 3) ≤ j then 0 else ((buffer.set 0 a).set 1 b)[j]) = #v[a, b, 0] := by
    ext j hj
    interval_cases j <;> simp
  have hchars : appendChars result (splitBytes #v[a, b, 0]) ((2 : Fin 3) + 1) =
      result ++ (Base64.digits a b 0).take 3 := by
    rw [appendChars_eq, List.map_take, chars_splitBytes]
    rfl
  rw [b64Rest, if_pos (by simp)]
  simp only [hbuffer, hchars]
  rw [padResult_eq (k := 1) (by norm_num) (by simp; omega), List.append_assoc]
  rfl

end Steps

/-- What `b64` writes from a state without a byte in the buffer. -/
theorem b64Rest_foldl (data result : Bytes) (buffer : Vector UInt8 3) (chars : Vector UInt8 4)
    (h : result.length % 4 = 0) :
    b64Rest (data.foldl b64Step ⟨result, 0, buffer, chars⟩) = result ++ Base64.encode data := by
  induction data using Base64.encode.induct generalizing result buffer chars with
  | case1 => simp [b64Rest, Base64.encode]
  | case2 a => exact b64Rest_one result buffer chars h a
  | case3 a b => exact b64Rest_two result buffer chars h a b
  | case4 a b c rest ih =>
    rw [List.foldl_cons, List.foldl_cons, List.foldl_cons, b64Step_first, b64Step_second,
      b64Step_third, ih, appendChars_group, Base64.encode, List.append_assoc]
    rw [appendChars_group, List.length_append, Base64.length_digits]
    omega

/-- `b64` writes the encoding of RFC 4648. -/
theorem b64_eq (memory3 : Vector UInt8 3) (memory4 : Vector UInt8 4) (data : Bytes) :
    b64 memory3 memory4 data = Base64.encode data :=
  b64Rest_foldl data [] memory3 memory4 rfl

/-- **The two encoders agree** on every array of fewer than `2 ^ 32` bytes, whatever the memory of
the buffers held. -/
theorem b64_eq_base64Encode (memory3 : Vector UInt8 3) (memory4 : Vector UInt8 4) (data : Bytes)
    (hlen : data.length < 2 ^ 32) :
    base64Encode data = some (b64 memory3 memory4 data) := by
  rw [base64Encode_eq hlen, b64_eq]

/-- Four bytes: a group and a rest. -/
theorem b64_eq_four : (lit "Many").length < 2 ^ 32 ∧
    base64Encode (lit "Many") = some (b64 #v[1, 2, 3] #v[4, 5, 6, 7] (lit "Many")) :=
  have hlen : (lit "Many").length < 2 ^ 32 := by decide
  ⟨hlen, b64_eq_base64Encode _ _ _ hlen⟩

end SimpleServer
