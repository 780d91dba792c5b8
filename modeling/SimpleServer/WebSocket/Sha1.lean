import SimpleServer.Foundations.Bytes
import SimpleServer.Foundations.Sha1

/-!
# The class `SHA1`

The class of `SHA1.cpp`, a copy of which lies in `base` and another in the echo server `cppws`. Its
members are those of the source; what the memory of an object holds before the constructor is an
argument, and a write outside of the array is undefined. A block of the class is a block of the
standard: the array `W` is the message schedule (`words_eq`), the loops are the rounds
(`loops_eq`), and `ProcessMessageBlock` compresses (`hashValue_processMessageBlock`).
-/

namespace SimpleServer

open Cxx

/-- The members of the class. -/
structure SHA1 where
  H : Vector UInt32 5
  lengthLow : UInt32
  lengthHigh : UInt32
  messageBlock : Vector UInt8 64
  messageBlockIndex : ℕ
  computed : Bool
  corrupted : Bool

namespace SHA1

/-- The word buffers `A` to `E`. -/
structure Buffers where
  A : UInt32
  B : UInt32
  C : UInt32
  D : UInt32
  E : UInt32

/-- `CircularShift`. -/
def circularShift (bits word : UInt32) : UInt32 :=
  ((word <<< bits) &&& 0xFFFFFFFF) ||| ((word &&& 0xFFFFFFFF) >>> (32 - bits))

/-! ## `ProcessMessageBlock` -/

/-- The loop for the first 16 words. -/
def firstWords (block : Vector UInt8 64) : Vector UInt32 16 :=
  Vector.ofFn fun t =>
    block[t.val * 4].toUInt32 <<< 24 ||| block[t.val * 4 + 1].toUInt32 <<< 16 |||
      block[t.val * 4 + 2].toUInt32 <<< 8 ||| block[t.val * 4 + 3].toUInt32

/-- The array `W` after `n` turns of the second loop: as far as it is written. -/
def words (block : Vector UInt8 64) : (n : ℕ) → Vector UInt32 (16 + n)
  | 0 => firstWords block
  | n + 1 =>
    let W := words block n
    W.push (circularShift 1 (W[16 + n - 3] ^^^ W[16 + n - 8] ^^^ W[16 + n - 14] ^^^ W[16 + n - 16]))

/-- The body of the loops over the word buffers: `f` is what the loop makes of `B`, `C` and `D`. -/
def turn (f : UInt32 → UInt32 → UInt32 → UInt32) (K W : UInt32) (s : Buffers) : Buffers :=
  let temp := circularShift 5 s.A + f s.B s.C s.D + s.E + W + K
  let temp := temp &&& 0xFFFFFFFF
  { A := temp, B := s.A, C := circularShift 30 s.B, D := s.C, E := s.D }

/-- A loop of 20 turns from `first` on. -/
def loop (f : UInt32 → UInt32 → UInt32 → UInt32) (K : UInt32) (W : Vector UInt32 80) (first : ℕ)
    (h : first + 20 ≤ 80) (s : Buffers) : Buffers :=
  (List.finRange 20).foldl (fun s t => turn f K W[first + t.val] s) s

/-- The four loops. -/
def loops (W : Vector UInt32 80) (s : Buffers) : Buffers :=
  let s := loop (fun B C D => (B &&& C) ||| (~~~B &&& D)) 0x5A827999 W 0 (by norm_num) s
  let s := loop (fun B C D => B ^^^ C ^^^ D) 0x6ED9EBA1 W 20 (by norm_num) s
  let s := loop (fun B C D => (B &&& C) ||| (B &&& D) ||| (C &&& D)) 0x8F1BBCDC W 40
    (by norm_num) s
  loop (fun B C D => B ^^^ C ^^^ D) 0xCA62C1D6 W 60 (by norm_num) s

/-- `ProcessMessageBlock`. -/
def processMessageBlock (c : SHA1) : SHA1 :=
  let W := words c.messageBlock 64
  let s := loops W ⟨c.H[0], c.H[1], c.H[2], c.H[3], c.H[4]⟩
  { c with
    H := #v[(c.H[0] + s.A) &&& 0xFFFFFFFF, (c.H[1] + s.B) &&& 0xFFFFFFFF,
      (c.H[2] + s.C) &&& 0xFFFFFFFF, (c.H[3] + s.D) &&& 0xFFFFFFFF, (c.H[4] + s.E) &&& 0xFFFFFFFF]
    messageBlockIndex := 0 }

/-! ## `PadMessage` -/

/-- `Message_Block[Message_Block_Index++] = b`. -/
def put (b : UInt8) (c : SHA1) : Except Exn SHA1 :=
  if h : c.messageBlockIndex < 64 then
    .ok { c with
      messageBlock := c.messageBlock.set c.messageBlockIndex b
      messageBlockIndex := c.messageBlockIndex + 1 }
  else .error .undefined

/-- At most `n` turns of the loop that fills the block with zeros up to `bound`. -/
def fillLoop (bound : ℕ) : ℕ → SHA1 → Except Exn SHA1
  | 0, c => .ok c
  | n + 1, c => if c.messageBlockIndex < bound then put 0 c >>= fillLoop bound n else .ok c

/-- `while (Message_Block_Index < bound) Message_Block[Message_Block_Index++] = 0;` -/
def fill (bound : ℕ) (c : SHA1) : Except Exn SHA1 := fillLoop bound (bound - c.messageBlockIndex) c

/-- The message length as the last 8 octets. -/
def storeLength (c : SHA1) : SHA1 :=
  { c with
    messageBlock := ((((((((c.messageBlock.set 56 (c.lengthHigh >>> 24 &&& 0xFF).toUInt8).set 57
      (c.lengthHigh >>> 16 &&& 0xFF).toUInt8).set 58 (c.lengthHigh >>> 8 &&& 0xFF).toUInt8).set 59
      (c.lengthHigh &&& 0xFF).toUInt8).set 60 (c.lengthLow >>> 24 &&& 0xFF).toUInt8).set 61
      (c.lengthLow >>> 16 &&& 0xFF).toUInt8).set 62 (c.lengthLow >>> 8 &&& 0xFF).toUInt8).set 63
      (c.lengthLow &&& 0xFF).toUInt8) }

/-- `PadMessage`. -/
def padMessage (c : SHA1) : Except Exn SHA1 := do
  let c ←
    if c.messageBlockIndex > 55 then do
      let c ← put 0x80 c
      let c ← fill 64 c
      fill 56 c.processMessageBlock
    else do
      let c ← put 0x80 c
      fill 56 c
  return c.storeLength.processMessageBlock

/-! ## The interface -/

/-- `Reset`. -/
def reset (c : SHA1) : SHA1 :=
  { c with
    lengthLow := 0
    lengthHigh := 0
    messageBlockIndex := 0
    H := #v[0x67452301, 0xEFCDAB89, 0x98BADCFE, 0x10325476, 0xC3D2E1F0]
    computed := false
    corrupted := false }

/-- The constructor, with what is in the memory of the members. -/
def construct (memory : SHA1) : SHA1 := memory.reset

/-- The length after another byte, and whether the message is too long. -/
def count (c : SHA1) : SHA1 :=
  let c := { c with lengthLow := c.lengthLow + 8 }
  let c := { c with lengthLow := c.lengthLow &&& 0xFFFFFFFF }
  if c.lengthLow = 0 then
    let c := { c with lengthHigh := c.lengthHigh + 1 }
    let c := { c with lengthHigh := c.lengthHigh &&& 0xFFFFFFFF }
    if c.lengthHigh = 0 then { c with corrupted := true } else c
  else c

/-- The body of the loop of `Input`. -/
def inputByte (b : UInt8) (c : SHA1) : Except Exn SHA1 := do
  let c ← put (b &&& 0xFF) c
  let c := c.count
  return if c.messageBlockIndex = 64 then c.processMessageBlock else c

/-- The loop of `Input`. -/
def inputLoop : Bytes → SHA1 → Except Exn SHA1
  | [], c => .ok c
  | b :: message, c =>
    if c.corrupted then .ok c else inputByte b c >>= inputLoop message

/-- `Input` with a length: `message` are the `length` octets. -/
def input (message : Bytes) (c : SHA1) : Except Exn SHA1 :=
  if message.length = 0 then .ok c
  else if c.computed || c.corrupted then .ok { c with corrupted := true }
  else inputLoop message c

/-- `operator<<` with a string: `p` is what stands from the pointer on. -/
def stream : Bytes → SHA1 → Except Exn SHA1
  | [], c => .ok c
  | b :: p, c => if b = 0 then .ok c else input [b] c >>= stream p

/-- `Result`, with the digest in place of the array and `none` for `false`. -/
def result (c : SHA1) : Except Exn (SHA1 × Option (Vector UInt32 5)) :=
  if c.corrupted then .ok (c, none)
  else do
    let c ← if c.computed then pure c else do
      let c ← padMessage c
      pure { c with computed := true }
    return (c, some c.H)

/-! ## A block is compressed -/

theorem and_all (x : UInt32) : x &&& 0xFFFFFFFF = x := by
  have hall : (0xFFFFFFFF : UInt32) = -1 := by decide
  rw [hall, UInt32.and_neg_one]

theorem circularShift_eq {k : UInt32} (h0 : 0 < k.toNat) (h : k.toNat < 32) (x : UInt32) :
    circularShift k x = Sha1.rotl k.toNat x := by
  rw [circularShift, and_all, and_all, Sha1.rotl_eq_or h0 h]

theorem firstWords_eq (block : Vector UInt8 64) {t : ℕ} (h : t < 16) :
    (firstWords block)[t] = Sha1.word block.toList t := by
  have hlen : block.toList.length = 64 := by simp
  have htake : (block.toList.drop (4 * t)).take 4 =
      [block[t * 4], block[t * 4 + 1], block[t * 4 + 2], block[t * 4 + 3]] := by
    rw [List.drop_eq_getElem_cons (by omega), List.drop_eq_getElem_cons (by omega),
      List.drop_eq_getElem_cons (by omega), List.drop_eq_getElem_cons (by omega)]
    simp [Nat.mul_comm 4 t]
  have hword := BigEndian.toNat_or_shifts block[t * 4] block[t * 4 + 1] block[t * 4 + 2]
    block[t * 4 + 3]
  rw [Sha1.word, htake, ← hword, UInt32.ofNat_toNat]
  simp [firstWords]

/-- The array `W` is the message schedule. -/
theorem words_eq (block : Vector UInt8 64) (n : ℕ) :
    ∀ (t : ℕ) (h : t < 16 + n), (words block n)[t] = Sha1.schedule block.toList t := by
  induction n with
  | zero =>
    intro t h
    rw [Sha1.schedule_of_lt h]
    exact firstWords_eq block h
  | succ n ih =>
    intro t h
    unfold words
    rw [Vector.getElem_push]
    split_ifs with hlt
    · exact ih t hlt
    · have ht : t = 16 + n := by omega
      subst ht
      rw [Sha1.schedule_add, ih, ih, ih, ih]
      have h3 : 16 + n - 3 = 13 + n := by omega
      have h8 : 16 + n - 8 = 8 + n := by omega
      have h14 : 16 + n - 14 = 2 + n := by omega
      have h16 : 16 + n - 16 = n := by omega
      rw [h3, h8, h14, h16]
      exact circularShift_eq (by decide) (by decide) _

/-- The word buffers as working variables. -/
def Buffers.toWords (s : Buffers) : Sha1.Words := ⟨s.A, s.B, s.C, s.D, s.E⟩

/-- The hash value in the object. -/
def hashValue (H : Vector UInt32 5) : Sha1.Words := ⟨H[0], H[1], H[2], H[3], H[4]⟩

/-- A turn of a loop is a round. -/
theorem turn_eq {f : UInt32 → UInt32 → UInt32 → UInt32} {K : UInt32} {W : ℕ → UInt32} {t : ℕ}
    (hf : f = Sha1.logical t) (hK : K = Sha1.constant t) (s : Buffers) :
    (turn f K (W t) s).toWords = Sha1.round W s.toWords t := by
  have h5 : circularShift 5 s.A = Sha1.rotl 5 s.A := circularShift_eq (by decide) (by decide) _
  have h30 : circularShift 30 s.B = Sha1.rotl 30 s.B := circularShift_eq (by decide) (by decide) _
  subst hf hK
  simp only [turn, Buffers.toWords, Sha1.round, and_all, h5, h30]
  rw [UInt32.add_assoc _ (W t), UInt32.add_comm (W t), ← UInt32.add_assoc]

/-- A loop is twenty rounds. -/
theorem loop_eq {f : UInt32 → UInt32 → UInt32 → UInt32} {K : UInt32} {W : Vector UInt32 80}
    {schedule : ℕ → UInt32} {first : ℕ} {h : first + 20 ≤ 80}
    (hW : ∀ (t : ℕ) (ht : t < 80), W[t] = schedule t)
    (hround : ∀ t < 20, f = Sha1.logical (first + t) ∧ K = Sha1.constant (first + t))
    (s : Buffers) :
    (loop f K W first h s).toWords =
      ((List.range 20).map (first + ·)).foldl (Sha1.round schedule) s.toWords := by
  rw [loop, List.foldl_map, ← List.map_coe_finRange_eq_range, List.foldl_map]
  refine (List.foldl_hom Buffers.toWords fun s t => ?_).symm
  obtain ⟨hf, hK⟩ := hround t t.isLt
  rw [hW, turn_eq hf hK]

/-- The four loops are the eighty rounds. -/
theorem loops_eq {W : Vector UInt32 80} {schedule : ℕ → UInt32}
    (hW : ∀ (t : ℕ) (ht : t < 80), W[t] = schedule t) (s : Buffers) :
    (loops W s).toWords = (List.range 80).foldl (Sha1.round schedule) s.toWords := by
  have hrange : List.range 80 = (List.range 20).map (0 + ·) ++ (List.range 20).map (20 + ·) ++
      (List.range 20).map (40 + ·) ++ (List.range 20).map (60 + ·) := by decide
  rw [hrange, List.foldl_append, List.foldl_append, List.foldl_append, loops, loop_eq hW,
    loop_eq hW, loop_eq hW, loop_eq hW]
  · intro t ht
    rw [Sha1.logical, Sha1.constant, if_pos (by omega), if_pos (by omega)]
    refine ⟨?_, rfl⟩
    funext B C D
    exact (Sha1.choose_eq_or B C D).symm
  · intro t ht
    rw [Sha1.logical, Sha1.constant, if_neg (by omega), if_pos (by omega), if_neg (by omega),
      if_pos (by omega)]
    exact ⟨rfl, rfl⟩
  · intro t ht
    rw [Sha1.logical, Sha1.constant, if_neg (by omega), if_neg (by omega), if_pos (by omega),
      if_neg (by omega), if_neg (by omega), if_pos (by omega)]
    refine ⟨?_, rfl⟩
    funext B C D
    exact (Sha1.majority_eq_or B C D).symm
  · intro t ht
    rw [Sha1.logical, Sha1.constant, if_neg (by omega), if_neg (by omega), if_neg (by omega),
      if_neg (by omega), if_neg (by omega), if_neg (by omega)]
    exact ⟨rfl, rfl⟩

/-- **`ProcessMessageBlock` compresses the block.** -/
theorem hashValue_processMessageBlock (c : SHA1) :
    hashValue c.processMessageBlock.H = Sha1.compress (hashValue c.H) c.messageBlock.toList := by
  have hloops := loops_eq (words_eq c.messageBlock 64) ⟨c.H[0], c.H[1], c.H[2], c.H[3], c.H[4]⟩
  have hcompress : Sha1.compress (hashValue c.H) c.messageBlock.toList =
      (hashValue c.H).add (loops (words c.messageBlock 64)
        ⟨c.H[0], c.H[1], c.H[2], c.H[3], c.H[4]⟩).toWords := by
    rw [hloops]
    rfl
  rw [hcompress]
  simp [hashValue, processMessageBlock, and_all, Sha1.Words.add, Buffers.toWords]

end SHA1

end SimpleServer
