import SimpleServer.Foundations.BigEndian
import Mathlib.Data.List.Infix
import Mathlib.Data.Vector.Basic

/-!
# WebSocket frames

The base framing of RFC 6455 (5.2) as data: a `Frame` has the header bits, an optional masking
key, a payload and the form in which its length is written, which need not be the shortest, and
`Frame.wire` is its byte string. `byte0` and `byte1` are taken apart by the masks `0x0F`, `0x7F`
and the top bit (`byte0_toNat`, `byte1_toNat`), and every byte string of the right sizes is the
wire form of a frame (`exists_frame`).
-/

namespace Rfc6455

abbrev Key := Vector UInt8 4

/-- The three ways to write a payload length. -/
inductive LengthForm
  | seven
  | sixteen
  | sixtyFour
  deriving DecidableEq, Repr

namespace LengthForm

/-- The bytes of the extended payload length. -/
def size : LengthForm → ℕ
  | seven => 0
  | sixteen => 2
  | sixtyFour => 8

/-- The lengths that a form can hold; the most significant bit of the long form is zero. -/
def bound : LengthForm → ℕ
  | seven => 126
  | sixteen => 2 ^ 16
  | sixtyFour => 2 ^ 63

/-- The seven length bits of the second header byte. -/
def code (n : ℕ) : LengthForm → ℕ
  | seven => n
  | sixteen => 126
  | sixtyFour => 127

/-- The shortest form of a length. -/
def shortest (n : ℕ) : LengthForm :=
  if n < 126 then seven else if n < 2 ^ 16 then sixteen else sixtyFour

theorem shortest_fits {n : ℕ} (h : n < 2 ^ 63) : n < (shortest n).bound := by
  unfold shortest
  split_ifs with h7 h16
  · exact h7
  · exact h16
  · exact h

theorem size_shortest_le {n : ℕ} {form : LengthForm} (h : n < form.bound) :
    (shortest n).size ≤ form.size := by
  cases form <;> simp only [bound] at h <;> unfold shortest <;> split_ifs <;>
    simp only [size] <;> omega

end LengthForm

/-- XOR with the masking key, octet `i` with octet `i mod 4` of the key. -/
def applyMask : Option Key → List UInt8 → List UInt8
  | none, bs => bs
  | some key, bs => bs.mapIdx fun i b => b ^^^ key[i % 4]

@[simp] theorem length_applyMask (mask : Option Key) (bs : List UInt8) :
    (applyMask mask bs).length = bs.length := by
  cases mask <;> simp [applyMask]

theorem applyMask_applyMask (mask : Option Key) (bs : List UInt8) :
    applyMask mask (applyMask mask bs) = bs := by
  cases mask with
  | none => rfl
  | some key =>
    apply List.ext_getElem (by simp)
    intro i h1 h2
    simp only [applyMask, List.getElem_mapIdx]
    rw [UInt8.xor_assoc, UInt8.xor_self, UInt8.xor_zero]

/-- The opcode of a text frame. -/
def textOpcode : Fin 16 := 1

/-- A frame whose length is below the bound of its form. -/
structure Frame where
  fin : Bool
  rsv : Fin 8
  opcode : Fin 16
  mask : Option Key
  form : LengthForm
  payload : List UInt8
  fits : payload.length < form.bound

namespace Frame

def byte0 (f : Frame) : UInt8 := (f.fin.toNat * 128 + f.rsv * 16 + f.opcode).toUInt8

def byte1 (f : Frame) : UInt8 :=
  (f.mask.isSome.toNat * 128 + f.form.code f.payload.length).toUInt8

/-- The extended payload length. -/
def extended (f : Frame) : List UInt8 := BigEndian.bytes f.form.size f.payload.length

/-- The masking key as it is sent. -/
def key (f : Frame) : List UInt8 :=
  match f.mask with
  | none => []
  | some k => k.toList

/-- The payload as it is sent. -/
def body (f : Frame) : List UInt8 := applyMask f.mask f.payload

/-- The byte string of a frame. -/
def wire (f : Frame) : List UInt8 := f.byte0 :: f.byte1 :: (f.extended ++ f.key ++ f.body)

@[simp] theorem length_extended (f : Frame) : f.extended.length = f.form.size := by
  simp [extended]

theorem length_key (f : Frame) : f.key.length = f.mask.isSome.toNat * 4 := by
  unfold key
  cases f.mask <;> simp

@[simp] theorem length_body (f : Frame) : f.body.length = f.payload.length := by simp [body]

theorem length_wire (f : Frame) :
    f.wire.length = 2 + f.form.size + f.key.length + f.payload.length := by
  simp only [wire, List.length_cons, List.length_append, length_extended, length_body]
  omega

theorem payload_length_lt (f : Frame) : f.payload.length < 2 ^ 63 := by
  refine f.fits.trans_le ?_
  cases f.form <;> simp [LengthForm.bound]

theorem code_lt (f : Frame) : f.form.code f.payload.length < 128 := by
  have h := f.fits
  cases hf : f.form <;> rw [hf] at h <;> simp only [LengthForm.bound, LengthForm.code] at h ⊢ <;>
    omega

theorem byte0_toNat (f : Frame) :
    f.byte0.toNat = f.fin.toNat * 128 + f.rsv * 16 + f.opcode := by
  have h1 := f.fin.toNat_le
  have h2 := f.rsv.isLt
  have h3 := f.opcode.isLt
  rw [byte0, Nat.toUInt8_eq, UInt8.toNat_ofNat', Nat.mod_eq_of_lt (by omega)]

theorem byte1_toNat (f : Frame) :
    f.byte1.toNat = f.mask.isSome.toNat * 128 + f.form.code f.payload.length := by
  have h1 := f.mask.isSome.toNat_le
  have h2 := f.code_lt
  rw [byte1, Nat.toUInt8_eq, UInt8.toNat_ofNat', Nat.mod_eq_of_lt (by omega)]

/-- The extended length spells the payload's length. -/
theorem value_extended (f : Frame) (h : f.form ≠ .seven) :
    BigEndian.value f.extended = f.payload.length := by
  apply BigEndian.value_bytes
  have hf := f.fits
  cases hform : f.form <;> rw [hform] at hf
  · exact absurd hform h
  · simpa [LengthForm.bound, LengthForm.size] using hf
  · exact hf.trans_le (by simp [LengthForm.bound, LengthForm.size])

end Frame

/-! ## From bytes to a frame -/

/-- The form announced by the second header byte. -/
def formOf (b1 : UInt8) : LengthForm :=
  if b1.toNat % 128 = 126 then .sixteen else if b1.toNat % 128 = 127 then .sixtyFour else .seven

/-- The payload length announced by the second header byte and the extended length. -/
def announced (b1 : UInt8) (ext : List UInt8) : ℕ :=
  if formOf b1 = .seven then b1.toNat % 128 else BigEndian.value ext

/-- The number of bytes of the masking key announced by the second header byte. -/
def keySize (b1 : UInt8) : ℕ := if 128 ≤ b1.toNat then 4 else 0

theorem Frame.formOf_byte1 (f : Frame) : formOf f.byte1 = f.form := by
  have h1 := f.code_lt
  have h2 := f.fits
  have e : f.byte1.toNat % 128 = f.form.code f.payload.length := by rw [f.byte1_toNat]; omega
  rw [formOf, e]
  cases hf : f.form with
  | seven =>
    have h : LengthForm.code f.payload.length .seven < 126 := by
      rw [hf] at h2
      exact h2
    rw [if_neg (by omega), if_neg (by omega)]
  | sixteen => rfl
  | sixtyFour => rfl

theorem Frame.announced_extended (f : Frame) : announced f.byte1 f.extended = f.payload.length := by
  have h1 := f.code_lt
  rw [announced, f.formOf_byte1]
  split_ifs with h
  · rw [f.byte1_toNat, h, LengthForm.code]
    rw [h, LengthForm.code] at h1
    omega
  · exact f.value_extended h

theorem Frame.keySize_byte1 (f : Frame) : keySize f.byte1 = f.key.length := by
  have h := f.code_lt
  rw [keySize, f.length_key, f.byte1_toNat]
  cases f.mask with
  | none => rw [if_neg (by simp; omega)]; rfl
  | some k => rw [if_pos (by simp)]; rfl

/-- A key of the announced size is the key of a mask, which is there when the mask bit is set. -/
theorem exists_mask {b1 : UInt8} {key : List UInt8} (hkey : key.length = keySize b1) :
    ∃ mask : Option Key, (match mask with | none => [] | some k => k.toList) = key ∧
      mask.isSome.toNat * 128 = b1.toNat - b1.toNat % 128 := by
  have hb1 := b1.toNat_lt
  unfold keySize at hkey
  split_ifs at hkey with h
  · refine ⟨some ⟨key.toArray, by simpa using hkey⟩, by simp, ?_⟩
    simp only [Option.isSome_some, Bool.toNat_true]
    omega
  · refine ⟨none, (List.length_eq_zero_iff.mp hkey).symm, ?_⟩
    simp only [Option.isSome_none, Bool.toNat_false]
    omega

section Announced

variable {b1 : UInt8} {ext : List UInt8}

theorem code_announced (b1 : UInt8) (ext : List UInt8) :
    (formOf b1).code (announced b1 ext) = b1.toNat % 128 := by
  unfold announced formOf
  split_ifs <;> simp_all [LengthForm.code]

theorem bytes_announced (hext : ext.length = (formOf b1).size) :
    BigEndian.bytes (formOf b1).size (announced b1 ext) = ext := by
  unfold announced
  split_ifs with h
  · rw [h] at hext ⊢
    rw [List.length_eq_zero_iff.mp hext]
    rfl
  · rw [← hext, BigEndian.bytes_value]

theorem announced_lt_bound (hext : ext.length = (formOf b1).size)
    (hlen : announced b1 ext < 2 ^ 63) : announced b1 ext < (formOf b1).bound := by
  have hv := BigEndian.value_lt ext
  rw [hext] at hv
  unfold announced at hlen ⊢
  revert hlen hv
  unfold formOf
  split_ifs <;> simp [LengthForm.bound, LengthForm.size] <;> omega

end Announced

/-- **Every byte string of the announced sizes is the wire form of a frame.** -/
theorem exists_frame (b0 b1 : UInt8) (ext key body : List UInt8)
    (hext : ext.length = (formOf b1).size) (hkey : key.length = keySize b1)
    (hbody : body.length = announced b1 ext) (hlen : announced b1 ext < 2 ^ 63) :
    ∃ f : Frame, f.wire = b0 :: b1 :: (ext ++ key ++ body) ∧ f.byte1 = b1 ∧ f.extended = ext ∧
      f.key = key ∧ f.body = body := by
  have hb0 := b0.toNat_lt
  have hb1 := b1.toNat_lt
  obtain ⟨mask, hmask, hbit⟩ := exists_mask hkey
  have hcode := code_announced b1 ext
  have hextended := bytes_announced hext
  have hfits := announced_lt_bound hext hlen
  rw [← hbody] at hcode hextended hfits
  rw [← length_applyMask mask body] at hfits
  let f : Frame :=
    { fin := decide (128 ≤ b0.toNat), rsv := ⟨b0.toNat / 16 % 8, by omega⟩,
      opcode := ⟨b0.toNat % 16, by omega⟩, mask, form := formOf b1,
      payload := applyMask mask body, fits := hfits }
  have e0 : f.byte0 = b0 := by
    apply UInt8.toNat_inj.mp
    rw [f.byte0_toNat]
    by_cases h : 128 ≤ b0.toNat <;> simp [f, h] <;> omega
  have e1 : f.byte1 = b1 := by
    apply UInt8.toNat_inj.mp
    rw [f.byte1_toNat]
    simp only [f, length_applyMask, hcode, hbit]
    omega
  have e2 : f.extended = ext := by simpa [Frame.extended, f] using hextended
  have e3 : f.key = key := hmask
  have e4 : f.body = body := applyMask_applyMask mask body
  exact ⟨f, by rw [Frame.wire, e0, e1, e2, e3, e4], e1, e2, e3, e4⟩

/-- A byte string that holds all that its header announces begins with a frame. -/
theorem exists_frame_prefix (b0 : UInt8) {b1 : UInt8} {t : List UInt8}
    (hlen : announced b1 (t.take (formOf b1).size) < 2 ^ 63)
    (h : (formOf b1).size + keySize b1 + announced b1 (t.take (formOf b1).size) ≤ t.length) :
    ∃ f : Frame, f.byte1 = b1 ∧ f.wire <+: b0 :: b1 :: t := by
  set n := announced b1 (t.take (formOf b1).size)
  set u := t.drop (formOf b1).size with hu
  have hul : u.length = t.length - (formOf b1).size := by rw [hu, List.length_drop]
  obtain ⟨f, hf, h1, -⟩ := exists_frame b0 b1 (t.take (formOf b1).size) (u.take (keySize b1))
    ((u.drop (keySize b1)).take n) (by rw [List.length_take]; omega)
    (by rw [List.length_take]; omega) (by rw [List.length_take, List.length_drop]; omega) hlen
  refine ⟨f, h1, (u.drop (keySize b1)).drop n, ?_⟩
  rw [hf]
  simp only [List.cons_append, List.append_assoc, List.take_append_drop]
  rw [hu, List.take_append_drop]

namespace Frame

theorem byte0_inj {f g : Frame} (h : f.byte0 = g.byte0) :
    f.fin = g.fin ∧ f.rsv = g.rsv ∧ f.opcode = g.opcode := by
  have e := congrArg UInt8.toNat h
  rw [f.byte0_toNat, g.byte0_toNat] at e
  have := f.opcode.isLt
  have := g.opcode.isLt
  have := f.rsv.isLt
  have := g.rsv.isLt
  have hfin : f.fin = g.fin := by
    cases hf : f.fin <;> cases hg : g.fin <;> simp [hf, hg] at e ⊢ <;> omega
  rw [hfin] at e
  exact ⟨hfin, Fin.ext (by omega), Fin.ext (by omega)⟩

theorem mask_eq_of_key {f g : Frame} (h : f.key = g.key) : f.mask = g.mask := by
  have hlen := congrArg List.length h
  rw [f.length_key, g.length_key] at hlen
  unfold key at h
  rcases hf : f.mask with _ | k <;> rcases hg : g.mask with _ | k' <;>
    simp only [hf, hg, Option.isSome] at h hlen
  · rfl
  · simp at hlen
  · simp at hlen
  · rw [Vector.toList_inj.mp h]

/-- **Frames delimit themselves**: a byte string begins with at most one frame. -/
theorem eq_of_wire_prefix {f g : Frame} {s : List UInt8} (hf : f.wire <+: s)
    (hg : g.wire <+: s) : f = g := by
  obtain ⟨t, rfl⟩ := hf
  obtain ⟨u, h⟩ := hg
  simp only [wire, List.cons_append, List.append_assoc, List.cons.injEq] at h
  obtain ⟨h0, h1, h⟩ := h
  -- the second byte fixes the sizes of the parts
  have hform : f.form = g.form := by rw [← f.formOf_byte1, ← g.formOf_byte1, h1]
  have hkeys : g.key.length = f.key.length := by rw [← f.keySize_byte1, ← g.keySize_byte1, h1]
  obtain ⟨hext, h⟩ := List.append_inj h (by rw [length_extended, length_extended, hform])
  obtain ⟨hkey, h⟩ := List.append_inj h hkeys
  have hlen : g.payload.length = f.payload.length := by
    rw [← f.announced_extended, ← g.announced_extended, h1, hext]
  obtain ⟨hbody, -⟩ := List.append_inj h (by rw [length_body, length_body, hlen])
  have hmask := mask_eq_of_key hkey.symm
  have hpayload : f.payload = g.payload := by
    rw [← applyMask_applyMask f.mask f.payload, ← applyMask_applyMask g.mask g.payload]
    exact congrArg₂ applyMask hmask hbody.symm
  obtain ⟨hfin, hrsv, hopcode⟩ := byte0_inj h0.symm
  cases f
  cases g
  simp_all

end Frame

end Rfc6455
