import SimpleServer.Foundations.Bits
import SimpleServer.Foundations.Inbox
import SimpleServer.Foundations.Rfc6455

/-!
# `read_frame` and `send_frame`

The two framing functions of `websocket_handler.cpp`; `simple_server_websocket_connection.cpp`
holds the same text in the namespace `simple_server`.

`read_frame` answers every failed read and every frame that is not a text frame with the empty
string. `readParts` is its body up to the last test, with `none` for an exit at a failed read,
and `readFrame` adds that test. The vector for the payload is allocated before the payload is
read, and its constructor throws from `2 ^ 63` elements on.

The main results are about the bytes that have arrived, cut into segments in any way.
`Reads f segs` says that they begin with a whole frame whose header, extended length and masking
key each lie in one segment, which is what these three reads need. `readParts_frame` says that
`read_frame` then takes exactly that frame, and `readParts_cases` that it completes on no other
input: either a frame is read, or its announced length makes the allocation throw
(`Oversized`), or an exit is taken at a failed read.
-/

namespace SimpleServer

open Cxx Inbox Rfc6455

/-! ## The code -/

/-- `(extended_payload[0] << 8) | extended_payload[1]`. -/
def length16 (e : Bytes) : UInt64 := (e.getD 0 0).toUInt64 <<< 8 ||| (e.getD 1 0).toUInt64

/-- The eight steps `payload_length = (payload_length << 8) | extended_payload[i]`. -/
def length64 (e : Bytes) : UInt64 := e.foldl BigEndian.shiftIn 0

/-- The handling of the extended payload lengths. -/
def extendedLength (b1 : UInt8) (q : Inbox) : Option UInt64 × Inbox :=
  let payloadLength := b1 &&& 0x7F
  if payloadLength = 126 then
    match recvExact 2 q with
    | (none, q) => (none, q)
    | (some e, q) => (some (length16 e), q)
  else if payloadLength = 127 then
    match recvExact 8 q with
    | (none, q) => (none, q)
    | (some e, q) => (some (length64 e), q)
  else (some payloadLength.toUInt64, q)

/-- The masking key, four zeros without a read when the frame is not masked. -/
def maskingKey (masked : Bool) (q : Inbox) : Option Bytes × Inbox :=
  if masked then recvExact 4 q else (some [0, 0, 0, 0], q)

/-- `payload[i] ^= masking_key[i % 4]`. -/
def unmask (key payload : Bytes) : Bytes := payload.mapIdx fun i b => b ^^^ key.getD (i % 4) 0

/-- `read_frame` up to the test of the opcode: the opcode and the unmasked payload, or `none`
at one of the exits `return ""`. -/
def readParts (q : Inbox) : Except Exn (Option (UInt8 × Bytes) × Inbox) :=
  match recvExact 2 q with
  | (none, q) => .ok (none, q)
  | (some header, q) =>
    let opcode := header.getD 0 0 &&& 0x0F
    let masked := decide ((header.getD 1 0 >>> 7) &&& 0x01 ≠ 0)
    match extendedLength (header.getD 1 0) q with
    | (none, q) => .ok (none, q)
    | (some payloadLength, q) =>
      match maskingKey masked q with
      | (none, q) => .ok (none, q)
      | (some key, q) =>
        if 2 ^ 63 ≤ payloadLength.toNat then .error .lengthError
        else match recvAll payloadLength.toNat q with
          | (none, q) => .ok (none, q)
          | (some payload, q) =>
            .ok (some (opcode, if masked then unmask key payload else payload), q)

/-- `read_frame`: the string returned and the answers left for later calls. -/
def readFrame (q : Inbox) : Except Exn (Bytes × Inbox) :=
  match readParts q with
  | .error e => .error e
  | .ok (none, q) => .ok ([], q)
  | .ok (some (opcode, payload), q) => if opcode = 0x1 then .ok (payload, q) else .ok ([], q)

/-- The vector `frame` that `send_frame` passes to `send`. -/
def frameBytes (message : Bytes) : Bytes :=
  let payloadLength := message.length
  [(0x81 : UInt8)] ++
    (if payloadLength ≤ 125 then [payloadLength.toUInt8]
    else if payloadLength ≤ 0xFFFF then
      [126, (payloadLength >>> 8 &&& 0xFF).toUInt8, (payloadLength &&& 0xFF).toUInt8]
    else
      127 :: (List.range 8).reverse.map fun i => (payloadLength >>> (i * 8) &&& 0xFF).toUInt8) ++
    message

/-! ## The bit fields of the header -/

theorem toNat_and_0F (b : UInt8) : (b &&& 0x0F).toNat = b.toNat % 16 :=
  Bits.toNat_low (k := 4) rfl b

theorem toNat_and_7F (b : UInt8) : (b &&& 0x7F).toNat = b.toNat % 128 :=
  Bits.toNat_low (k := 7) rfl b

theorem mask_bit_iff (b : UInt8) : (b >>> 7) &&& 0x01 ≠ 0 ↔ 128 ≤ b.toNat := by
  have hb := b.toNat_lt
  have e : ((b >>> 7) &&& 0x01).toNat = b.toNat / 128 := by
    have hlow := Bits.toNat_low (k := 1) (m := 0x01) rfl (b >>> 7)
    rw [Bits.toNat_shiftRight (by decide)] at hlow
    have hseven : (7 : UInt8).toNat = 7 := rfl
    rw [hseven] at hlow
    omega
  rw [ne_eq, ← UInt8.toNat_inj, e, UInt8.toNat_zero]
  omega

theorem keySize_eq (b : UInt8) :
    keySize b = if decide ((b >>> 7) &&& 0x01 ≠ 0) then 4 else 0 := by
  rw [keySize]
  simp only [mask_bit_iff, decide_eq_true_eq]

/-! ## The reads of one frame -/

section Reads

variable {segs : List Bytes} {rest : Inbox}

/-- The handling of the extended lengths, by the form that the header announces. -/
theorem extendedLength_eq (b1 : UInt8) (q : Inbox) :
    extendedLength b1 q =
      match formOf b1 with
      | .seven => (some (b1 &&& 0x7F).toUInt64, q)
      | .sixteen => ((recvExact 2 q).1.map length16, (recvExact 2 q).2)
      | .sixtyFour => ((recvExact 8 q).1.map length64, (recvExact 8 q).2) := by
  have e126 : b1 &&& 0x7F = 126 ↔ b1.toNat % 128 = 126 := by
    rw [← UInt8.toNat_inj, toNat_and_7F]
    rfl
  have e127 : b1 &&& 0x7F = 127 ↔ b1.toNat % 128 = 127 := by
    rw [← UInt8.toNat_inj, toNat_and_7F]
    rfl
  simp only [extendedLength, formOf, e126, e127]
  split_ifs
  · rcases recvExact 2 q with ⟨_ | _, _⟩ <;> rfl
  · rcases recvExact 8 q with ⟨_ | _, _⟩ <;> rfl
  · rfl

theorem extendedLength_of_whole {b1 : UInt8} (hp : Proper segs)
    (hw : Whole (formOf b1).size segs) (rest : Inbox) :
    ∃ n : UInt64, extendedLength b1 (segs.map some ++ rest) =
        (some n, (skip (formOf b1).size segs).map some ++ rest) ∧
      n.toNat = announced b1 (segs.flatten.take (formOf b1).size) := by
  have hlen := hw.length_le
  rw [extendedLength_eq, announced]
  cases hf : formOf b1 <;> rw [hf] at hw hlen <;> simp only [LengthForm.size] at hw hlen ⊢
  · refine ⟨_, by rw [skip_zero hp], ?_⟩
    rw [UInt8.toNat_toUInt64, toNat_and_7F, if_pos trivial]
  · rw [recvExact_of_whole (by omega) hp hw]
    refine ⟨_, rfl, ?_⟩
    obtain ⟨a, b, hab⟩ : ∃ a b, segs.flatten.take 2 = [a, b] :=
      List.length_eq_two.mp (by rw [List.length_take]; omega)
    have e : ([a, b].foldl BigEndian.shiftIn 0).toNat = BigEndian.value [a, b] :=
      BigEndian.toNat_foldl_shiftIn (by simp)
    rw [hab, if_neg (by simp)]
    simpa [BigEndian.shiftIn, length16] using e
  · rw [recvExact_of_whole (by omega) hp hw]
    refine ⟨_, rfl, ?_⟩
    rw [if_neg (by simp)]
    exact BigEndian.toNat_foldl_shiftIn (by rw [List.length_take]; omega)

theorem extendedLength_of_not_whole {b1 : UInt8} (hw : ¬ Whole (formOf b1).size segs)
    (hr : Stops rest) : (extendedLength b1 (segs.map some ++ rest)).1 = none := by
  rw [extendedLength_eq]
  cases hf : formOf b1 <;> rw [hf] at hw <;> simp only [LengthForm.size] at hw ⊢
  · exact absurd (whole_zero segs) hw
  · rw [recvExact_of_not_whole hw hr, Option.map_none]
  · rw [recvExact_of_not_whole hw hr, Option.map_none]

theorem maskingKey_of_whole {b1 : UInt8} (hp : Proper segs) (hw : Whole (keySize b1) segs)
    (rest : Inbox) :
    ∃ key, maskingKey (decide ((b1 >>> 7) &&& 0x01 ≠ 0)) (segs.map some ++ rest) =
        (some key, (skip (keySize b1) segs).map some ++ rest) ∧
      (128 ≤ b1.toNat → key = segs.flatten.take (keySize b1)) := by
  rw [keySize_eq] at hw ⊢
  rw [maskingKey]
  split_ifs at hw ⊢ with h
  · exact ⟨_, recvExact_of_whole (by omega) hp hw rest, fun _ => rfl⟩
  · exact ⟨_, by rw [skip_zero hp], fun h' =>
      absurd (decide_eq_true ((mask_bit_iff b1).mpr h')) h⟩

theorem maskingKey_of_not_whole {b1 : UInt8} (hw : ¬ Whole (keySize b1) segs) (hr : Stops rest) :
    (maskingKey (decide ((b1 >>> 7) &&& 0x01 ≠ 0)) (segs.map some ++ rest)).1 = none := by
  rw [keySize_eq] at hw
  rw [maskingKey]
  split_ifs at hw ⊢
  · exact recvExact_of_not_whole hw hr
  · exact absurd (whole_zero segs) hw

/-- `read_frame` behind its three fixed-size reads: the allocation and the payload loop. -/
theorem readParts_of_whole {b0 b1 : UInt8} {ext key : Bytes} (hp : Proper segs)
    (h2 : Whole 2 segs) (hb : segs.flatten.take 2 = [b0, b1])
    (hw : Whole (formOf b1).size (skip 2 segs))
    (hext : (segs.flatten.drop 2).take (formOf b1).size = ext)
    (hwk : Whole (keySize b1) (skip (2 + (formOf b1).size) segs))
    (hkey : (segs.flatten.drop (2 + (formOf b1).size)).take (keySize b1) = key) :
    readParts (segs.map some ++ rest) =
      if 2 ^ 63 ≤ announced b1 ext then .error .lengthError
      else match recvAll (announced b1 ext)
          ((skip (2 + (formOf b1).size + keySize b1) segs).map some ++ rest) with
        | (none, q) => .ok (none, q)
        | (some payload, q) =>
          .ok (some (b0 &&& 0x0F,
            if 128 ≤ b1.toNat then unmask key payload else payload), q) := by
  obtain ⟨n, hlen, hn⟩ := extendedLength_of_whole (hp.skip 2) hw rest
  obtain ⟨k, hk, hk'⟩ := maskingKey_of_whole (hp.skip (2 + (formOf b1).size)) hwk rest
  rw [flatten_skip] at hn hk'
  rw [← skip_add] at hlen hk
  rw [hext] at hn
  rw [hkey] at hk'
  rw [readParts, recvExact_of_whole (by omega) hp h2, hb]
  simp only [List.getD_cons_zero, List.getD_cons_succ]
  rw [hlen]
  simp only
  rw [hk]
  simp only [hn]
  by_cases hbig : 2 ^ 63 ≤ announced b1 ext
  · rw [if_pos hbig, if_pos hbig]
  rw [if_neg hbig, if_neg hbig]
  rcases recvAll (announced b1 ext) _ with ⟨_ | payload, q⟩
  · rfl
  · by_cases hm : 128 ≤ b1.toNat
    · simp only [if_pos (decide_eq_true ((mask_bit_iff b1).mpr hm)), if_pos hm, hk' hm]
    · simp only [if_neg fun h => hm ((mask_bit_iff b1).mp (of_decide_eq_true h)), if_neg hm]

/-! The exits at a failed read. -/

theorem readParts_of_header {q : Inbox} (h : (recvExact 2 q).1 = none) :
    ∃ q', readParts q = .ok (none, q') := by
  rw [readParts]
  rcases hq : recvExact 2 q with ⟨_ | header, q'⟩
  · exact ⟨q', rfl⟩
  · simp [hq] at h

theorem readParts_of_length {q q₁ : Inbox} {b0 b1 : UInt8}
    (h : recvExact 2 q = (some [b0, b1], q₁)) (hl : (extendedLength b1 q₁).1 = none) :
    ∃ q', readParts q = .ok (none, q') := by
  rw [readParts, h]
  simp only [List.getD_cons_zero, List.getD_cons_succ]
  rcases hq : extendedLength b1 q₁ with ⟨_ | n, q'⟩
  · exact ⟨q', rfl⟩
  · simp [hq] at hl

theorem readParts_of_key {q q₁ q₂ : Inbox} {b0 b1 : UInt8} {n : UInt64}
    (h : recvExact 2 q = (some [b0, b1], q₁)) (hl : extendedLength b1 q₁ = (some n, q₂))
    (hk : (maskingKey (decide ((b1 >>> 7) &&& 0x01 ≠ 0)) q₂).1 = none) :
    ∃ q', readParts q = .ok (none, q') := by
  rw [readParts, h]
  simp only [List.getD_cons_zero, List.getD_cons_succ]
  rw [hl]
  simp only
  rcases hq : maskingKey (decide ((b1 >>> 7) &&& 0x01 ≠ 0)) q₂ with ⟨_ | key, q'⟩
  · exact ⟨q', rfl⟩
  · rw [hq] at hk
    exact absurd hk (by simp)

end Reads

/-! ## Reading a frame -/

/-- The segments begin with the frame `f`, and the header, the extended length and the masking
key each lie in one segment. -/
def Reads (f : Frame) (segs : List Bytes) : Prop :=
  f.wire <+: segs.flatten ∧ Whole 2 segs ∧ Whole f.form.size (skip 2 segs) ∧
    Whole f.key.length (skip (2 + f.form.size) segs)

/-- The segments begin with a header that announces `2 ^ 63` or more bytes of payload, and the
three fixed-size reads succeed. -/
def Oversized (segs : List Bytes) : Prop :=
  ∃ b0 b1, segs.flatten.take 2 = [b0, b1] ∧ Whole 2 segs ∧
    Whole (formOf b1).size (skip 2 segs) ∧
    Whole (keySize b1) (skip (2 + (formOf b1).size) segs) ∧
    2 ^ 63 ≤ announced b1 ((segs.flatten.drop 2).take (formOf b1).size)

/-- What `read_frame` returns for a frame: the payload of a text frame. -/
def textOf (f : Frame) : Bytes := if f.opcode = textOpcode then f.payload else []

theorem unmask_key (f : Frame) (bs : Bytes) :
    (if 128 ≤ f.byte1.toNat then unmask f.key bs else bs) = applyMask f.mask bs := by
  have h := f.code_lt
  rw [f.byte1_toNat, Frame.key]
  cases f.mask with
  | none => rw [if_neg (by simp; omega)]; rfl
  | some k =>
    rw [if_pos (by simp)]
    apply List.ext_getElem (by simp [unmask, applyMask])
    intro i h1 h2
    have hi : i % 4 < 4 := Nat.mod_lt _ (by omega)
    simp [unmask, applyMask, List.getD_eq_getElem?_getD, hi]

section Frames

variable {f : Frame} {segs : List Bytes} {rest : Inbox}

theorem readParts_frame (hp : Proper segs) (h : Reads f segs) (rest : Inbox) :
    readParts (segs.map some ++ rest) =
      .ok (some (f.byte0 &&& 0x0F, f.payload), (skip f.wire.length segs).map some ++ rest) := by
  obtain ⟨⟨t, ht⟩, h2, hw, hwk⟩ := h
  have e : segs.flatten = f.byte0 :: f.byte1 :: (f.extended ++ (f.key ++ (f.body ++ t))) := by
    rw [← ht, Frame.wire]
    simp
  have e1 : f.form.size = (formOf f.byte1).size := by rw [f.formOf_byte1]
  have e2 : f.extended.length = (formOf f.byte1).size := by rw [f.length_extended, e1]
  have d1 : segs.flatten.drop (2 + (formOf f.byte1).size) = f.key ++ (f.body ++ t) := by
    rw [e, ← e2, Nat.add_comm]
    simp
  have d2 : segs.flatten.drop (2 + (formOf f.byte1).size + keySize f.byte1) = f.body ++ t := by
    rw [← List.drop_drop, d1, f.keySize_byte1]
    simp
  rw [e1] at hw hwk
  rw [← f.keySize_byte1] at hwk
  have hb : segs.flatten.take 2 = [f.byte0, f.byte1] := by rw [e]; rfl
  have hext : (segs.flatten.drop 2).take (formOf f.byte1).size = f.extended := by
    rw [e, ← e2]
    simp
  have hkey : (segs.flatten.drop (2 + (formOf f.byte1).size)).take (keySize f.byte1) = f.key := by
    rw [d1, f.keySize_byte1]
    simp
  rw [readParts_of_whole hp h2 hb hw hext hwk hkey, f.announced_extended,
    if_neg (not_le.mpr f.payload_length_lt),
    recvAll_of_le (hp.skip _) (by rw [flatten_skip, d2]; simp), flatten_skip, d2,
    ← f.length_body, List.take_left' rfl, ← skip_add]
  simp only
  rw [unmask_key, Frame.body, applyMask_applyMask, length_applyMask, f.length_wire,
    f.keySize_byte1, ← e1]

theorem opcode_eq_one_iff (f : Frame) : f.byte0 &&& 0x0F = 0x1 ↔ f.opcode = textOpcode := by
  have h := f.opcode.isLt
  rw [← UInt8.toNat_inj, toNat_and_0F, f.byte0_toNat, ← Fin.val_inj]
  change _ = 1 ↔ f.opcode.val = 1
  omega

/-- **`read_frame` takes a frame that has arrived**, and leaves the bytes after it. -/
theorem readFrame_frame (hp : Proper segs) (h : Reads f segs) (rest : Inbox) :
    readFrame (segs.map some ++ rest) =
      .ok (textOf f, (skip f.wire.length segs).map some ++ rest) := by
  rw [readFrame, readParts_frame hp h rest, textOf]
  simp only [opcode_eq_one_iff]
  split_ifs <;> rfl

theorem readParts_oversized (hp : Proper segs) (h : Oversized segs) :
    readParts (segs.map some ++ rest) = .error .lengthError := by
  obtain ⟨b0, b1, hb, h2, hw, hwk, hbig⟩ := h
  rw [readParts_of_whole hp h2 hb hw rfl hwk rfl, if_pos hbig]

/-- **`read_frame` completes on nothing but a frame.** -/
theorem readParts_cases (hp : Proper segs) (hr : Stops rest) :
    (∃ f, Reads f segs) ∨ Oversized segs ∨
      ∃ q, readParts (segs.map some ++ rest) = .ok (none, q) := by
  by_cases h2 : Whole 2 segs
  swap
  · exact .inr (.inr (readParts_of_header (recvExact_of_not_whole h2 hr)))
  obtain ⟨b0, b1, t, hs⟩ : ∃ b0 b1 t, segs.flatten = b0 :: b1 :: t := by
    have := h2.length_le
    rcases hs : segs.flatten with _ | ⟨b0, _ | ⟨b1, t⟩⟩
    · simp [hs] at this
    · simp [hs] at this
    · exact ⟨b0, b1, t, rfl⟩
  have hb : segs.flatten.take 2 = [b0, b1] := by rw [hs]; rfl
  have hd : segs.flatten.drop 2 = t := by rw [hs]; rfl
  have e2 := recvExact_of_whole (by omega) hp h2 rest
  rw [hb] at e2
  by_cases hw : Whole (formOf b1).size (skip 2 segs)
  swap
  · exact .inr (.inr (readParts_of_length e2 (extendedLength_of_not_whole hw hr)))
  obtain ⟨n, hl, -⟩ := extendedLength_of_whole (hp.skip 2) hw rest
  by_cases hwk : Whole (keySize b1) (skip (2 + (formOf b1).size) segs)
  swap
  · rw [← skip_add] at hl
    exact .inr (.inr (readParts_of_key e2 hl (maskingKey_of_not_whole hwk hr)))
  by_cases hbig : 2 ^ 63 ≤ announced b1 (t.take (formOf b1).size)
  · exact .inr (.inl ⟨b0, b1, hb, h2, hw, hwk, by rw [hd]; exact hbig⟩)
  have hkl := hwk.length_le
  have hwl := hw.length_le
  rw [flatten_skip, ← List.drop_drop, hd, List.length_drop] at hkl
  rw [flatten_skip, hd] at hwl
  by_cases hn : (formOf b1).size + keySize b1 + announced b1 (t.take (formOf b1).size) ≤ t.length
  · -- all that the header announces is there
    obtain ⟨f, rfl, hf⟩ := exists_frame_prefix b0 (not_le.mp hbig) hn
    rw [f.formOf_byte1] at hw hwk
    rw [f.keySize_byte1] at hwk
    exact .inl ⟨f, by rw [hs]; exact hf, h2, hw, hwk⟩
  · -- the payload loop runs out of bytes
    right; right
    have hlt : (skip (2 + (formOf b1).size + keySize b1) segs).flatten.length <
        announced b1 (t.take (formOf b1).size) := by
      rw [flatten_skip, Nat.add_assoc, ← List.drop_drop, hd, List.length_drop]
      omega
    have e := recvAll_of_lt hlt hr
    rw [readParts_of_whole hp h2 hb hw rfl hwk rfl, hd, if_neg hbig]
    rcases hq : recvAll (announced b1 (t.take (formOf b1).size)) _ with ⟨_ | payload, q⟩
    · exact ⟨q, rfl⟩
    · rw [hq] at e
      exact absurd e (by simp)

end Frames

end SimpleServer
