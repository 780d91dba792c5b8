import SimpleServer.Foundations.BigEndian
import SimpleServer.Foundations.Blocks

/-!
# The secure hash algorithm SHA-1

The function of the standard on messages of whole bytes.

* `choose`, `parity`, `majority`, `logical`, `constant`: the functions and constants of the rounds.
* `schedule`: the words of a block, continued by the recurrence.
* `compress`: the eighty rounds, added to the hash value.
* `pad`: the message with the bit `1`, the zeros and its length in bits.
* `hash`, `digest`: the five words of the hash value, and their bytes.

`hash_of_rest` gives the hash value as a consumer of bytes finds it, which has taken the complete
blocks of the message and has the rest in a buffer.
-/

namespace Sha1

/-- Rotation to the left. -/
def rotl (k : ℕ) (x : UInt32) : UInt32 := ⟨x.toBitVec.rotateLeft k⟩

/-- The rotation by two shifts. -/
theorem rotl_eq_or {k : UInt32} (h0 : 0 < k.toNat) (h : k.toNat < 32) (x : UInt32) :
    rotl k.toNat x = x <<< k ||| x >>> (32 - k) := by
  have hsub : (32 - k).toNat = 32 - k.toNat := by
    rw [UInt32.toNat_sub_of_le _ _ (UInt32.le_iff_toNat_le.mpr h.le)]
    rfl
  apply UInt32.toNat_inj.mp
  rw [UInt32.toNat_or, UInt32.toNat_shiftLeft, UInt32.toNat_shiftRight, hsub,
    Nat.mod_eq_of_lt h, Nat.mod_eq_of_lt (by omega : 32 - k.toNat < 32)]
  change (x.toBitVec.rotateLeft k.toNat).toNat = _
  rw [BitVec.rotateLeft_def, Nat.mod_eq_of_lt h, BitVec.toNat_or, BitVec.toNat_shiftLeft,
    BitVec.toNat_ushiftRight]
  rfl

/-! ## The functions of the rounds -/

def choose (x y z : UInt32) : UInt32 := (x &&& y) ^^^ (~~~x &&& z)

def parity (x y z : UInt32) : UInt32 := x ^^^ y ^^^ z

def majority (x y z : UInt32) : UInt32 := (x &&& y) ^^^ (x &&& z) ^^^ (y &&& z)

/-- No bit is chosen from both. -/
theorem choose_eq_or (x y z : UInt32) : choose x y z = (x &&& y) ||| (~~~x &&& z) := by
  apply UInt32.toBitVec_inj.mp
  apply BitVec.eq_of_getLsbD_eq
  intro i hi
  cases hx : x.toBitVec[i] <;> simp [choose, hx, hi]

theorem majority_eq_or (x y z : UInt32) :
    majority x y z = (x &&& y) ||| (x &&& z) ||| (y &&& z) := by
  apply UInt32.toBitVec_inj.mp
  apply BitVec.eq_of_getLsbD_eq
  intro i hi
  cases hx : x.toBitVec[i] <;> cases hy : y.toBitVec[i] <;> simp [majority, hx, hy, hi]

/-- The function of round `t`. -/
def logical (t : ℕ) : UInt32 → UInt32 → UInt32 → UInt32 :=
  if t < 20 then choose else if t < 40 then parity else if t < 60 then majority else parity

/-- The constant of round `t`. -/
def constant (t : ℕ) : UInt32 :=
  if t < 20 then 0x5A827999 else if t < 40 then 0x6ED9EBA1
  else if t < 60 then 0x8F1BBCDC else 0xCA62C1D6

/-! ## A block -/

/-- Word `t` of a block. -/
def word (block : List UInt8) (t : ℕ) : UInt32 :=
  UInt32.ofNat (BigEndian.value ((block.drop (4 * t)).take 4))

/-- The message schedule. -/
def schedule (block : List UInt8) (t : ℕ) : UInt32 :=
  if t < 16 then word block t
  else rotl 1 (schedule block (t - 3) ^^^ schedule block (t - 8) ^^^ schedule block (t - 14) ^^^
    schedule block (t - 16))

theorem schedule_of_lt {block : List UInt8} {t : ℕ} (h : t < 16) :
    schedule block t = word block t := by
  rw [schedule, if_pos h]

theorem schedule_add (block : List UInt8) (n : ℕ) :
    schedule block (16 + n) = rotl 1 (schedule block (13 + n) ^^^ schedule block (8 + n) ^^^
      schedule block (2 + n) ^^^ schedule block n) := by
  have h3 : 16 + n - 3 = 13 + n := by omega
  have h8 : 16 + n - 8 = 8 + n := by omega
  have h14 : 16 + n - 14 = 2 + n := by omega
  have h16 : 16 + n - 16 = n := by omega
  rw [schedule, if_neg (by omega), h3, h8, h14, h16]

/-- Five words: a hash value, or the working variables. -/
structure Words where
  a : UInt32
  b : UInt32
  c : UInt32
  d : UInt32
  e : UInt32
  deriving DecidableEq, Repr

/-- The sum of the words, each modulo `2 ^ 32`. -/
def Words.add (x y : Words) : Words := ⟨x.a + y.a, x.b + y.b, x.c + y.c, x.d + y.d, x.e + y.e⟩

/-- The bytes of the words. -/
def Words.bytes (x : Words) : List UInt8 :=
  [x.a, x.b, x.c, x.d, x.e].flatMap fun w => BigEndian.bytes 4 w.toNat

/-- Round `t`, with the schedule `W`. -/
def round (W : ℕ → UInt32) (x : Words) (t : ℕ) : Words where
  a := rotl 5 x.a + logical t x.b x.c x.d + x.e + constant t + W t
  b := x.a
  c := rotl 30 x.b
  d := x.c
  e := x.d

/-- The hash value after a block. -/
def compress (h : Words) (block : List UInt8) : Words :=
  h.add ((List.range 80).foldl (round (schedule block)) h)

/-! ## A message -/

def initial : Words := ⟨0x67452301, 0xEFCDAB89, 0x98BADCFE, 0x10325476, 0xC3D2E1F0⟩

/-- What follows a message of `n` bytes. -/
def padding (n : ℕ) : List UInt8 :=
  0x80 :: (List.replicate ((119 - n % 64) % 64) 0 ++ BigEndian.bytes 8 (8 * n))

def pad (message : List UInt8) : List UInt8 := message ++ padding message.length

def hash (message : List UInt8) : Words := Blocks.absorb 64 compress initial (pad message)

/-- The message digest. -/
def digest (message : List UInt8) : List UInt8 := (hash message).bytes

/-! ## The end of a message -/

section Rest

variable {message buffer : List UInt8} {h : Words}

/-- The hash value from the state and the buffer of a consumer. -/
theorem hash_of_consumed (hc : Blocks.Consumed 64 compress initial message h buffer) :
    hash message = Blocks.absorb 64 compress h (buffer ++ padding message.length) := by
  rw [hash, pad, hc.absorb_append (by norm_num)]

/-- The rest and the padding are one block when the length fits into it. -/
theorem hash_of_short (hc : Blocks.Consumed 64 compress initial message h buffer)
    (hlt : buffer.length < 56) :
    hash message = compress h (buffer ++ 0x80 :: (List.replicate (55 - buffer.length) 0 ++
      BigEndian.bytes 8 (8 * message.length))) := by
  have hlen := hc.length_buffer
  have hzeros : (119 - message.length % 64) % 64 = 55 - buffer.length := by omega
  rw [hash_of_consumed hc, padding, hzeros]
  refine Blocks.absorb_block (by norm_num) ?_
  simp
  omega

/-- Else the length goes into a block of its own. -/
theorem hash_of_long (hc : Blocks.Consumed 64 compress initial message h buffer)
    (hle : 56 ≤ buffer.length) :
    hash message = compress (compress h (buffer ++ 0x80 :: List.replicate (63 - buffer.length) 0))
      (List.replicate 56 0 ++ BigEndian.bytes 8 (8 * message.length)) := by
  have hlen := hc.length_buffer
  have hmod := Nat.mod_lt message.length (by norm_num : 0 < 64)
  have hzeros : (119 - message.length % 64) % 64 = 63 - buffer.length + 56 := by omega
  have hblock : (buffer ++ 0x80 :: List.replicate (63 - buffer.length) 0).length = 64 := by
    simp
    omega
  have hsplit : buffer ++ padding message.length =
      (buffer ++ 0x80 :: List.replicate (63 - buffer.length) 0) ++
        (List.replicate 56 0 ++ BigEndian.bytes 8 (8 * message.length)) := by
    rw [padding, hzeros, List.replicate_add]
    simp only [List.append_assoc, List.cons_append]
  rw [hash_of_consumed hc, hsplit,
    Blocks.absorb_append (by norm_num) (hblock ▸ dvd_refl _),
    Blocks.absorb_block (by norm_num) hblock, Blocks.absorb_block (by norm_num) (by simp)]

end Rest

end Sha1
