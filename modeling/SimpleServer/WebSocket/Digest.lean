import SimpleServer.Foundations.Runs
import SimpleServer.WebSocket.Sha1

/-!
# The life of a `SHA1` object

What an object of the class does, whatever is called on it and in whatever order. `Hashing` says
what it is for: it absorbs a message, gives the digest as often as it is asked for, and is corrupted
by a message that goes on after its digest or that is too long. `Represents` connects it to the
members, every call keeps it (`call_refines`), and so an object answers every list of calls as
`Hashing` does, without a write outside of its array (`answers_eq`).
-/

namespace SimpleServer.SHA1

open Cxx

/-! ## Writing into the block -/

/-- The octets in the block. -/
def buffer (c : SHA1) : Bytes := c.messageBlock.toList.take c.messageBlockIndex

theorem length_buffer {c : SHA1} (h : c.messageBlockIndex ≤ 64) :
    c.buffer.length = c.messageBlockIndex := by
  simp [buffer, h]

/-- A full block is all of the array. -/
theorem buffer_full {c : SHA1} (h : c.messageBlockIndex = 64) :
    c.buffer = c.messageBlock.toList := by
  rw [buffer, List.take_of_length_le (by simp [h])]

/-- The first places after a write to the place behind them. -/
theorem take_set (v : Vector UInt8 64) {i : ℕ} (h : i < 64) (b : UInt8) :
    (v.set i b).toList.take (i + 1) = v.toList.take i ++ [b] := by
  rw [Vector.toList_set, List.take_add_one, List.take_set_of_le le_rfl,
    List.getElem?_set_self (by simpa using h)]
  rfl

/-- Two objects with the same members outside of the block. -/
structure SameState (c c' : SHA1) : Prop where
  H : c'.H = c.H
  lengthLow : c'.lengthLow = c.lengthLow
  lengthHigh : c'.lengthHigh = c.lengthHigh
  computed : c'.computed = c.computed
  corrupted : c'.corrupted = c.corrupted

theorem SameState.refl (c : SHA1) : SameState c c := ⟨rfl, rfl, rfl, rfl, rfl⟩

theorem SameState.trans {c c' c'' : SHA1} (h : SameState c c') (h' : SameState c' c'') :
    SameState c c'' :=
  ⟨h'.H.trans h.H, h'.lengthLow.trans h.lengthLow, h'.lengthHigh.trans h.lengthHigh,
    h'.computed.trans h.computed, h'.corrupted.trans h.corrupted⟩

theorem put_eq {c : SHA1} (h : c.messageBlockIndex < 64) (b : UInt8) :
    ∃ c', put b c = .ok c' ∧ SameState c c' ∧
      c'.messageBlockIndex = c.messageBlockIndex + 1 ∧ c'.buffer = c.buffer ++ [b] := by
  refine ⟨_, dif_pos h, ⟨rfl, rfl, rfl, rfl, rfl⟩, rfl, ?_⟩
  exact take_set c.messageBlock h b

theorem fillLoop_eq {bound n : ℕ} (hbound : bound ≤ 64) {c : SHA1}
    (h : c.messageBlockIndex + n = bound) :
    ∃ c', fillLoop bound n c = .ok c' ∧ SameState c c' ∧ c'.messageBlockIndex = bound ∧
      c'.buffer = c.buffer ++ List.replicate n 0 := by
  induction n generalizing c with
  | zero => exact ⟨c, rfl, .refl c, h, by simp⟩
  | succ n ih =>
    obtain ⟨c₁, hput, hsame, hindex, hbuffer⟩ := put_eq (c := c) (by omega) 0
    obtain ⟨c₂, hfill, hsame', hindex', hbuffer'⟩ := ih (c := c₁) (by omega)
    refine ⟨c₂, ?_, hsame.trans hsame', hindex', ?_⟩
    · rw [fillLoop, if_pos (by omega), hput]
      exact hfill
    · rw [hbuffer', hbuffer, List.append_assoc, List.replicate_succ]
      rfl

/-- The zeros up to `bound`. -/
theorem fill_eq {bound : ℕ} (hbound : bound ≤ 64) {c : SHA1} (h : c.messageBlockIndex ≤ bound) :
    ∃ c', fill bound c = .ok c' ∧ SameState c c' ∧ c'.messageBlockIndex = bound ∧
      c'.buffer = c.buffer ++ List.replicate (bound - c.messageBlockIndex) 0 :=
  fillLoop_eq hbound (by omega)

/-! ## The padding -/

/-- The length of the message in bits. -/
def bitLength (c : SHA1) : ℕ := c.lengthHigh.toNat * 256 ^ 4 + c.lengthLow.toNat

theorem storeLength_eq (c : SHA1) :
    c.storeLength.messageBlock.toList =
      c.messageBlock.toList.take 56 ++ BigEndian.bytes 8 c.bitLength := by
  have hbytes : BigEndian.bytes (4 + 4) c.bitLength =
      BigEndian.bytes 4 c.lengthHigh.toNat ++ BigEndian.bytes 4 c.lengthLow.toNat :=
    BigEndian.bytes_add 4 _ c.lengthLow.toNat_lt
  have hall : c.storeLength.messageBlock.toList = c.storeLength.messageBlock.toList.take (63 + 1) :=
    (List.take_of_length_le (by simp)).symm
  rw [hbytes, BigEndian.bytes_word, BigEndian.bytes_word, hall, storeLength, take_set, take_set,
    take_set, take_set, take_set, take_set, take_set, take_set]
  simp only [List.append_assoc, List.cons_append, List.nil_append]

/-- The last block: what the object holds, and the length. -/
theorem hashValue_last {c : SHA1} (h : c.messageBlockIndex = 56) :
    hashValue c.storeLength.processMessageBlock.H =
      Sha1.compress (hashValue c.H) (c.buffer ++ BigEndian.bytes 8 c.bitLength) := by
  rw [hashValue_processMessageBlock, storeLength_eq, buffer, h]
  rfl

theorem SameState.bitLength {c c' : SHA1} (h : SameState c c') : c'.bitLength = c.bitLength := by
  rw [SHA1.bitLength, h.lengthHigh, h.lengthLow]
  rfl

/-- The object has taken the bytes of a message, and nothing was asked of it. -/
structure Absorbed (message : Bytes) (c : SHA1) : Prop where
  computed : c.computed = false
  corrupted : c.corrupted = false
  index_lt : c.messageBlockIndex < 64
  consumed : Blocks.Consumed 64 Sha1.compress Sha1.initial message (hashValue c.H) c.buffer
  bitLength : c.bitLength = 8 * message.length

/-- The padding in a block of its own. -/
theorem padMessage_long {message : Bytes} {c : SHA1} (h : Absorbed message c)
    (hlong : c.messageBlockIndex > 55) :
    ∃ c', padMessage c = .ok c' ∧ hashValue c'.H = Sha1.hash message ∧
      c'.computed = c.computed ∧ c'.corrupted = c.corrupted := by
  have hindex := h.index_lt
  have hlen := length_buffer hindex.le
  obtain ⟨c₁, hput, hsame₁, hindex₁, hbuffer₁⟩ := put_eq hindex 0x80
  obtain ⟨c₂, hfill₂, hsame₂, hindex₂, hbuffer₂⟩ := fill_eq (c := c₁) le_rfl (by omega)
  obtain ⟨c₃, hfill₃, hsame₃, hindex₃, hbuffer₃⟩ :=
    fill_eq (c := c₂.processMessageBlock) (show 56 ≤ 64 by norm_num) (Nat.zero_le _)
  have hsame := hsame₁.trans hsame₂
  have hzeros : 64 - c₁.messageBlockIndex = 63 - c.buffer.length := by omega
  have hblock : c₂.messageBlock.toList =
      c.buffer ++ 0x80 :: List.replicate (63 - c.buffer.length) 0 := by
    rw [← buffer_full hindex₂, hbuffer₂, hbuffer₁, hzeros, List.append_assoc]
    rfl
  have hbits : c₃.bitLength = 8 * message.length := by
    have hprocess : c₂.processMessageBlock.bitLength = c₂.bitLength := rfl
    rw [hsame₃.bitLength, hprocess, hsame.bitLength, h.bitLength]
  have hzeros₃ : c₃.buffer = List.replicate 56 0 := hbuffer₃
  refine ⟨c₃.storeLength.processMessageBlock, ?_, ?_,
    hsame₃.computed.trans hsame.computed, hsame₃.corrupted.trans hsame.corrupted⟩
  · rw [padMessage, if_pos hlong, hput, ok_bind, hfill₂, ok_bind, hfill₃, ok_bind]
    rfl
  · rw [hashValue_last hindex₃, hsame₃.H, hashValue_processMessageBlock, hblock, hsame.H, hzeros₃,
      hbits, Sha1.hash_of_long h.consumed (by omega)]

/-- The padding behind the rest of the message. -/
theorem padMessage_short {message : Bytes} {c : SHA1} (h : Absorbed message c)
    (hshort : ¬ c.messageBlockIndex > 55) :
    ∃ c', padMessage c = .ok c' ∧ hashValue c'.H = Sha1.hash message ∧
      c'.computed = c.computed ∧ c'.corrupted = c.corrupted := by
  have hindex := h.index_lt
  have hlen := length_buffer hindex.le
  obtain ⟨c₁, hput, hsame₁, hindex₁, hbuffer₁⟩ := put_eq hindex 0x80
  obtain ⟨c₂, hfill, hsame₂, hindex₂, hbuffer₂⟩ :=
    fill_eq (c := c₁) (show 56 ≤ 64 by norm_num) (by omega)
  have hsame := hsame₁.trans hsame₂
  have hzeros : 56 - c₁.messageBlockIndex = 55 - c.buffer.length := by omega
  have hbits : c₂.bitLength = 8 * message.length := by
    rw [hsame.bitLength, h.bitLength]
  refine ⟨c₂.storeLength.processMessageBlock, ?_, ?_, hsame.computed, hsame.corrupted⟩
  · rw [padMessage, if_neg hshort, hput, ok_bind, hfill, ok_bind]
    rfl
  · rw [hashValue_last hindex₂, hbits, hsame.H, hbuffer₂, hbuffer₁, hzeros,
      Sha1.hash_of_short h.consumed (by omega)]
    simp only [List.append_assoc, List.cons_append, List.nil_append]

/-- **`PadMessage` computes the hash value**, whatever the block held behind the message. -/
theorem padMessage_eq {message : Bytes} {c : SHA1} (h : Absorbed message c) :
    ∃ c', padMessage c = .ok c' ∧ hashValue c'.H = Sha1.hash message ∧
      c'.computed = c.computed ∧ c'.corrupted = c.corrupted := by
  by_cases hlong : c.messageBlockIndex > 55
  · exact padMessage_long h hlong
  · exact padMessage_short h hlong

/-! ## The next byte -/

theorem absorbed_reset (c : SHA1) : Absorbed [] c.reset where
  computed := rfl
  corrupted := rfl
  index_lt := Nat.zero_lt_succ 63
  consumed := by
    have hinitial : hashValue c.reset.H = Sha1.initial := by simp [hashValue, reset, Sha1.initial]
    have hempty : c.reset.buffer = [] := by simp [buffer, reset]
    rw [hinitial, hempty]
    exact Blocks.consumed_nil
  bitLength := by simp [SHA1.bitLength, reset]

/-- The length is counted, and at `2 ^ 64` bits the object is corrupted. -/
theorem count_eq {c : SHA1} (hcorrupted : c.corrupted = false) {n : ℕ}
    (hbits : c.bitLength = 8 * n) :
    (n + 1 < 2 ^ 61 ∧ c.count.bitLength = 8 * (n + 1) ∧ c.count.corrupted = false) ∨
      (n + 1 = 2 ^ 61 ∧ c.count.corrupted = true) := by
  have hlow := c.lengthLow.toNat_lt
  have hhigh := c.lengthHigh.toNat_lt
  have hpow : 256 ^ 4 = 2 ^ 32 := by norm_num
  rw [bitLength, hpow] at hbits
  have hlow8 : (c.lengthLow + 8).toNat = (c.lengthLow.toNat + 8) % 2 ^ 32 := by
    rw [UInt32.toNat_add]
    rfl
  have hhigh1 : (c.lengthHigh + 1).toNat = (c.lengthHigh.toNat + 1) % 2 ^ 32 := by
    rw [UInt32.toNat_add]
    rfl
  have hzero : ∀ x : UInt32, x = 0 ↔ x.toNat = 0 := fun x => UInt32.toNat_inj.symm
  simp only [count, and_all, hzero, hlow8, hhigh1]
  split_ifs with hwrap hlast
  · right
    refine ⟨?_, rfl⟩
    omega
  · left
    refine ⟨by omega, ?_, by simpa using hcorrupted⟩
    have hcarry : (c.lengthHigh.toNat + 1) % 2 ^ 32 = c.lengthHigh.toNat + 1 :=
      Nat.mod_eq_of_lt (by omega)
    have hfull : c.lengthLow.toNat + 8 = 2 ^ 32 := by omega
    simp only [bitLength, hlow8, hhigh1, hpow, hwrap, hcarry]
    linarith
  · left
    refine ⟨by omega, ?_, by simpa using hcorrupted⟩
    simp only [bitLength, hlow8, hpow]
    omega

/-- The members that counting leaves alone. -/
theorem count_frame (c : SHA1) :
    c.count.H = c.H ∧ c.count.messageBlock = c.messageBlock ∧
      c.count.messageBlockIndex = c.messageBlockIndex ∧ c.count.computed = c.computed := by
  unfold count
  dsimp only
  split_ifs <;> exact ⟨rfl, rfl, rfl, rfl⟩

/-- **Another byte**, until the message is too long. -/
theorem inputByte_eq {message : Bytes} {c : SHA1} (h : Absorbed message c) (b : UInt8) :
    ∃ c', inputByte b c = .ok c' ∧
      ((message.length + 1 < 2 ^ 61 ∧ Absorbed (message ++ [b]) c') ∨
        (message.length + 1 = 2 ^ 61 ∧ c'.corrupted = true)) := by
  obtain ⟨c₁, hput, hsame, hindex₁, hbuffer₁⟩ := put_eq h.index_lt (b &&& 0xFF)
  have hmask : b &&& 0xFF = b := UInt8.and_neg_one
  obtain ⟨hH, hblock, hindex, hcomputed⟩ := count_frame c₁
  have hbuffer : c₁.count.buffer = c.buffer ++ [b] := by
    rw [buffer, hblock, hindex, ← buffer, hbuffer₁, hmask]
  have hpush := h.consumed.push (by norm_num) b
  have hlen := length_buffer h.index_lt.le
  have hlt := h.index_lt
  have hcount := count_eq (hsame.corrupted.trans h.corrupted) (hsame.bitLength.trans h.bitLength)
  refine ⟨_, by rw [inputByte, hput, ok_bind]; rfl, ?_⟩
  rcases hcount with ⟨hshort, hbits, hcorrupted⟩ | ⟨hlong, hcorrupted⟩
  · left
    refine ⟨hshort, ?_⟩
    split_ifs with hfull
    · have hall : c.buffer.length + 1 = 64 := by omega
      rw [if_pos hall, ← hbuffer, buffer_full hfull, ← hsame.H, ← hH,
        ← hashValue_processMessageBlock] at hpush
      have hbits' : c₁.count.processMessageBlock.bitLength = 8 * (message ++ [b]).length := by
        rw [List.length_append]
        exact hbits
      exact ⟨hcomputed.trans (hsame.computed.trans h.computed), hcorrupted, Nat.zero_lt_succ 63,
        hpush, hbits'⟩
    · have hall : ¬ c.buffer.length + 1 = 64 := by omega
      rw [if_neg hall, ← hbuffer, ← hsame.H, ← hH] at hpush
      exact ⟨hcomputed.trans (hsame.computed.trans h.computed), hcorrupted, by omega, hpush,
        by simpa using hbits⟩
  · right
    refine ⟨hlong, ?_⟩
    split_ifs
    · exact hcorrupted
    · exact hcorrupted

/-! ## What an object is for -/

/-- A state as a caller sees it. -/
inductive Hashing
  | absorbing (message : Bytes)
  | finished (message : Bytes)
  | corrupted

/-- More bytes of the message: none are always taken, others only before the digest and below
`2 ^ 64` bits. -/
def Hashing.feed : Hashing → Bytes → Hashing
  | s, [] => s
  | .absorbing message, b :: bs =>
    if message.length + (b :: bs).length < 2 ^ 61 then .absorbing (message ++ b :: bs)
    else .corrupted
  | .finished _, _ :: _ => .corrupted
  | .corrupted, _ :: _ => .corrupted

/-- A call of the interface. -/
inductive Call
  | reset
  | input (message : Bytes)
  | stream (p : Bytes)
  | result

/-- What a call gives back. -/
inductive Answer
  | done
  | digest (hash : Sha1.Words)
  | failed
  deriving DecidableEq

/-- The calls on a state. -/
def Hashing.call (s : Hashing) : Call → Hashing × Answer
  | .reset => (.absorbing [], .done)
  | .input message => (s.feed message, .done)
  | .stream p => (s.feed (p.takeWhile (· ≠ 0)), .done)
  | .result =>
    match s with
    | .absorbing message => (.finished message, .digest (Sha1.hash message))
    | .finished message => (.finished message, .digest (Sha1.hash message))
    | .corrupted => (.corrupted, .failed)

/-- The calls on an object. -/
def call (c : SHA1) : Call → Except Exn (SHA1 × Answer)
  | .reset => .ok (c.reset, .done)
  | .input message => do return (← input message c, .done)
  | .stream p => do return (← stream p c, .done)
  | .result => do
    match ← result c with
    | (c, some H) => return (c, .digest (hashValue H))
    | (c, none) => return (c, .failed)

/-- The members of an object in a state. -/
def Represents : Hashing → SHA1 → Prop
  | .absorbing message, c => Absorbed message c
  | .finished message, c =>
    c.computed = true ∧ c.corrupted = false ∧ hashValue c.H = Sha1.hash message
  | .corrupted, c => c.corrupted = true

@[simp] theorem Hashing.feed_nil (s : Hashing) : s.feed [] = s := by
  cases s <;> rfl

/-- The bytes may come in pieces. -/
theorem Hashing.feed_append (s : Hashing) (bs cs : Bytes) :
    s.feed (bs ++ cs) = (s.feed bs).feed cs := by
  cases bs with
  | nil => rw [List.nil_append, feed_nil]
  | cons b bs =>
    cases cs with
    | nil => rw [List.append_nil, feed_nil]
    | cons d ds =>
      cases s with
      | finished message => rfl
      | corrupted => rfl
      | absorbing message =>
        simp only [List.cons_append, feed, List.length_cons, List.length_append]
        split_ifs with hall hfirst
        · simp only [List.append_assoc, List.length_append, List.length_cons]
          rw [if_pos (by omega)]
          rfl
        · omega
        · simp only [List.length_append, List.length_cons]
          rw [if_neg (by omega)]
        · rfl

/-- The loop of `Input` on an object that absorbs. -/
theorem inputLoop_eq {message bs : Bytes} {c : SHA1} (h : Absorbed message c)
    (hlt : message.length < 2 ^ 61) :
    ∃ c', inputLoop bs c = .ok c' ∧ Represents (Hashing.feed (.absorbing message) bs) c' := by
  induction bs generalizing message c with
  | nil => exact ⟨c, rfl, h⟩
  | cons b bs ih =>
    obtain ⟨c₁, hinput, hnext⟩ := inputByte_eq h b
    have hfeed : Hashing.feed (.absorbing message) (b :: bs) =
        (Hashing.feed (.absorbing message) [b]).feed bs := Hashing.feed_append _ [b] bs
    have hloop : inputLoop (b :: bs) c = inputLoop bs c₁ := by
      rw [inputLoop, if_neg (by simp [h.corrupted]), hinput, ok_bind]
    rw [hloop, hfeed]
    rcases hnext with ⟨hshort, habsorbed⟩ | ⟨hlong, hcorrupted⟩
    · have hone : Hashing.feed (.absorbing message) [b] = .absorbing (message ++ [b]) :=
        if_pos hshort
      rw [hone]
      exact ih habsorbed (by simpa using hshort)
    · have hone : Hashing.feed (.absorbing message) [b] = .corrupted :=
        if_neg (by rw [List.length_singleton, hlong]; exact lt_irrefl _)
      refine ⟨c₁, ?_, ?_⟩
      · cases bs with
        | nil => rfl
        | cons d ds => rw [inputLoop, if_pos hcorrupted]
      · rw [hone]
        cases bs with
        | nil => exact hcorrupted
        | cons d ds => exact hcorrupted

/-- `Input`. -/
theorem input_eq {s : Hashing} {c : SHA1} (h : Represents s c) (bs : Bytes) :
    ∃ c', input bs c = .ok c' ∧ Represents (s.feed bs) c' := by
  cases bs with
  | nil => exact ⟨c, rfl, by rwa [Hashing.feed_nil]⟩
  | cons b bs =>
    cases s with
    | absorbing message =>
      have hidle : (c.computed || c.corrupted) = false := by simp [h.computed, h.corrupted]
      have hlt : message.length < 2 ^ 61 := by
        have hbits := h.bitLength
        have hhigh := c.lengthHigh.toNat_lt
        have hlow := c.lengthLow.toNat_lt
        rw [SHA1.bitLength] at hbits
        omega
      obtain ⟨c', hloop, hc'⟩ := @inputLoop_eq _ (b :: bs) _ h hlt
      refine ⟨c', ?_, hc'⟩
      rw [input, if_neg (by simp), hidle, if_neg (by simp), hloop]
    | finished message =>
      refine ⟨{ c with corrupted := true }, ?_, rfl⟩
      rw [input, if_neg (by simp), h.1]
      rfl
    | corrupted =>
      have hcorrupted : c.corrupted = true := h
      refine ⟨{ c with corrupted := true }, ?_, rfl⟩
      rw [input, if_neg (by simp), hcorrupted, Bool.or_true]
      rfl

/-- `operator<<` takes the string up to its terminating zero. -/
theorem stream_eq {s : Hashing} {c : SHA1} (h : Represents s c) (p : Bytes) :
    ∃ c', stream p c = .ok c' ∧ Represents (s.feed (p.takeWhile (· ≠ 0))) c' := by
  induction p generalizing s c with
  | nil => exact ⟨c, rfl, by rwa [List.takeWhile_nil, Hashing.feed_nil]⟩
  | cons b p ih =>
    by_cases hb : b = 0
    · refine ⟨c, if_pos hb, ?_⟩
      rwa [List.takeWhile_cons_of_neg (by simpa using hb), Hashing.feed_nil]
    · obtain ⟨c₁, hinput, hc₁⟩ := input_eq h [b]
      obtain ⟨c₂, hstream, hc₂⟩ := ih hc₁
      refine ⟨c₂, ?_, ?_⟩
      · rw [stream, if_neg hb, hinput, ok_bind, hstream]
      · rwa [List.takeWhile_cons_of_pos (by simpa using hb),
          ← List.singleton_append, Hashing.feed_append]

/-- **Each call is the call of the state.** -/
theorem call_refines (s : Hashing) (c : SHA1) (k : Call) (h : Represents s c) :
    ∃ c', c.call k = .ok (c', (s.call k).2) ∧ Represents (s.call k).1 c' := by
  cases k with
  | reset => exact ⟨c.reset, rfl, absorbed_reset c⟩
  | input message =>
    obtain ⟨c', hinput, hc'⟩ := input_eq h message
    exact ⟨c', by rw [call, hinput]; rfl, hc'⟩
  | stream p =>
    obtain ⟨c', hstream, hc'⟩ := stream_eq h p
    exact ⟨c', by rw [call, hstream]; rfl, hc'⟩
  | result =>
    cases s with
    | absorbing message =>
      obtain ⟨c', hpad, hhash, -, hcorrupted⟩ := padMessage_eq h
      have hresult : result c = .ok ({ c' with computed := true }, some c'.H) := by
        rw [result, if_neg (by simp [h.corrupted]), if_neg (by simp [h.computed]), hpad]
        rfl
      refine ⟨{ c' with computed := true }, ?_, rfl, hcorrupted.trans h.corrupted, hhash⟩
      rw [call, hresult]
      exact congrArg (fun hash => Except.ok (_, Answer.digest hash)) hhash
    | finished message =>
      obtain ⟨hcomputed, hcorrupted, hhash⟩ := h
      have hresult : result c = .ok (c, some c.H) := by
        rw [result, if_neg (by simp [hcorrupted]), if_pos hcomputed]
        rfl
      refine ⟨c, ?_, hcomputed, hcorrupted, hhash⟩
      rw [call, hresult]
      exact congrArg (fun hash => Except.ok (_, Answer.digest hash)) hhash
    | corrupted =>
      have hcorrupted : c.corrupted = true := h
      refine ⟨c, ?_, hcorrupted⟩
      rw [call, result, if_pos hcorrupted]
      rfl

/-- **The answers of an object**, whatever was in its memory: every list of calls runs to its end,
without a write outside of the array, and is answered as the state says. -/
theorem answers_eq (memory : SHA1) (calls : List Call) :
    ∃ c, Runs.answers call (construct memory) calls =
        .ok (c, (Runs.replies Hashing.call (.absorbing []) calls).2) ∧
      Represents (Runs.replies Hashing.call (.absorbing []) calls).1 c :=
  Runs.answers_refines (R := Represents) call_refines
    (show Represents (.absorbing []) (construct memory) from absorbed_reset memory) calls

end SimpleServer.SHA1
