import SimpleServer.WebSocket.Framing

/-!
# Streams of frames

Successive calls of `read_frame` on a stream of frames (`readFrames`): whatever the frames are
and however their payloads are cut into segments, each call takes one frame
(`readFrames_frames`). The bytes that `send_frame` builds are the wire form of a final, unmasked
text frame in the shortest length form (`frameBytes_eq_wire`), so the calls give back what was
sent (`readFrames_frameBytes`).
-/

namespace SimpleServer

open Cxx Inbox Rfc6455

/-- `n` successive calls of `read_frame`. -/
def readFrames : ℕ → Inbox → Except Exn (List Bytes × Inbox)
  | 0, q => .ok ([], q)
  | n + 1, q =>
    match readFrame q with
    | .error e => .error e
    | .ok (message, q) =>
      match readFrames n q with
      | .error e => .error e
      | .ok (messages, q) => .ok (message :: messages, q)

theorem readFrames_succ {n : ℕ} {q q₁ q₂ : Inbox} {m : Bytes} {ms : List Bytes}
    (h : readFrame q = .ok (m, q₁)) (hs : readFrames n q₁ = .ok (ms, q₂)) :
    readFrames (n + 1) q = .ok (m :: ms, q₂) := by
  simp only [readFrames, h, hs]

/-- The header, the extended length and the masking key of each frame lie in one segment, when
the frames `fs` are read from `segs` one after another. -/
def WholeReads : List Frame → List Bytes → Prop
  | [], _ => True
  | f :: fs, segs =>
    Whole 2 segs ∧ Whole f.form.size (skip 2 segs) ∧
      Whole f.key.length (skip (2 + f.form.size) segs) ∧ WholeReads fs (skip f.wire.length segs)

/-- A frame found at the start of a stream of frames is the first one, and behind it the stream
goes on. -/
theorem exists_next_frame {f : Frame} {segs : List Bytes} (h : Reads f segs) {pending : Bytes}
    {fs : List Frame} (hbytes : segs.flatten ++ pending = fs.flatMap Frame.wire) :
    ∃ rest, fs = f :: rest ∧
      (skip f.wire.length segs).flatten ++ pending = rest.flatMap Frame.wire := by
  obtain ⟨t, ht⟩ := h.1
  have hpre : f.wire <+: fs.flatMap Frame.wire := by
    rw [← hbytes, ← ht, List.append_assoc]
    exact List.prefix_append _ _
  cases fs with
  | nil => simp [Frame.wire] at hpre
  | cons g rest =>
    obtain rfl : f = g := Frame.eq_of_wire_prefix hpre (List.prefix_append _ _)
    refine ⟨rest, rfl, ?_⟩
    rw [flatten_skip, ← ht, List.drop_left]
    rw [← ht, List.flatMap_cons, List.append_assoc] at hbytes
    exact List.append_cancel_left hbytes

/-- **One frame per call.** On the segments of a stream of frames, in which the fixed-size reads
are whole and the payloads cut anywhere, each call of `read_frame` returns the text of one frame,
and the bytes after the last frame are left. -/
theorem readFrames_frames (fs : List Frame) (further : Bytes) (segs : List Bytes)
    (hp : Proper segs) (hbytes : segs.flatten = fs.flatMap Frame.wire ++ further)
    (hw : WholeReads fs segs) :
    ∃ left : List Bytes, readFrames fs.length (segs.map some) = .ok (fs.map textOf, left.map some) ∧
      left.flatten = further := by
  induction fs generalizing segs with
  | nil => exact ⟨segs, rfl, hbytes⟩
  | cons f fs ih =>
    obtain ⟨h2, hext, hkey, hw'⟩ := hw
    rw [List.flatMap_cons, List.append_assoc] at hbytes
    have hread := readFrame_frame hp ⟨⟨_, hbytes.symm⟩, h2, hext, hkey⟩ []
    rw [List.append_nil, List.append_nil] at hread
    have hbytes' : (skip f.wire.length segs).flatten = fs.flatMap Frame.wire ++ further := by
      rw [flatten_skip, hbytes, List.drop_left]
    obtain ⟨left, hrest, hleft⟩ := ih _ (hp.skip _) hbytes' hw'
    exact ⟨left, readFrames_succ hread hrest, hleft⟩

/-- A masked text frame in the 16-bit form, its payload cut in two, a ping and one more byte. -/
theorem readFrames_text_ping :
    ∃ left : List Bytes,
      readFrames 2 [some [0x81, 0xFE, 0, 2, 1, 2, 3, 4, 0x49], some [0x6B, 0x89, 0, 7]] =
        .ok ([lit "Hi", []], left.map some) ∧ left.flatten = [7] := by
  let text : Frame := ⟨true, 0, 1, some #v[1, 2, 3, 4], .sixteen, lit "Hi", by decide⟩
  let ping : Frame := ⟨true, 0, 9, none, .seven, [], by decide⟩
  have hp : Proper [[0x81, 0xFE, 0, 2, 1, 2, 3, 4, 0x49], [0x6B, 0x89, 0, 7]] := by simp [Proper]
  have hw : WholeReads [text, ping] [[0x81, 0xFE, 0, 2, 1, 2, 3, 4, 0x49], [0x6B, 0x89, 0, 7]] :=
    ⟨by decide, by decide, by decide, by decide, by decide, by decide, trivial⟩
  exact readFrames_frames [text, ping] [7] _ hp (by decide) hw

/-! ## What `send_frame` builds -/

/-- The final, unmasked text frame of a message, in the shortest length form. -/
def textFrame (message : Bytes) (h : message.length < 2 ^ 63) : Frame where
  fin := true
  rsv := ⟨0, by decide⟩
  opcode := textOpcode
  mask := none
  form := .shortest message.length
  payload := message
  fits := LengthForm.shortest_fits h

theorem frameBytes_eq_wire {message : Bytes} (h : message.length < 2 ^ 63) :
    frameBytes message = (textFrame message h).wire := by
  have hbody : (textFrame message h).body = message := rfl
  have hkey : (textFrame message h).key = [] := rfl
  have h0 : (textFrame message h).byte0 = 0x81 := rfl
  rw [Frame.wire, hbody, hkey, h0, frameBytes]
  simp only [Frame.byte1, Frame.extended, textFrame, LengthForm.shortest]
  by_cases h7 : message.length ≤ 125
  · rw [if_pos h7, if_pos (by omega)]
    simp [LengthForm.code, LengthForm.size, BigEndian.bytes]
  · by_cases h16 : message.length ≤ 0xFFFF
    · rw [if_neg h7, if_pos h16, if_neg (by omega), if_pos (by omega)]
      simp [LengthForm.code, LengthForm.size, BigEndian.bytes, List.range_succ]
    · rw [if_neg h7, if_neg h16, if_neg (by omega), if_neg (by omega)]
      simp [LengthForm.code, LengthForm.size, BigEndian.bytes]

theorem wholeReads_single (fs : List Frame) (further : Bytes) :
    WholeReads fs (single (fs.flatMap Frame.wire ++ further)) := by
  induction fs with
  | nil => trivial
  | cons f fs ih =>
    rw [List.flatMap_cons, List.append_assoc]
    have hlen := f.length_wire
    have hdrop := List.length_drop (i := 2) (l := f.wire ++ (fs.flatMap Frame.wire ++ further))
    have hdrop' := List.length_drop (i := 2 + f.form.size)
      (l := f.wire ++ (fs.flatMap Frame.wire ++ further))
    rw [List.length_append] at hdrop hdrop'
    refine ⟨whole_single (by rw [List.length_append]; omega), ?_, ?_, ?_⟩
    · rw [skip_single]
      exact whole_single (by omega)
    · rw [skip_single]
      exact whole_single (by omega)
    · rw [skip_single, List.drop_left]
      exact ih

theorem textOf_textFrame {message : Bytes} (h : message.length < 2 ^ 63) :
    textOf (textFrame message h) = message := by
  rw [textOf, if_pos (by rfl)]
  rfl

/-- The byte sequences that `send_frame` builds for messages are a stream of text frames. -/
theorem exists_textFrames {messages : List Bytes} (h : ∀ m ∈ messages, m.length < 2 ^ 63) :
    ∃ fs : List Frame, fs.map textOf = messages ∧
      fs.flatMap Frame.wire = messages.flatMap frameBytes := by
  induction messages with
  | nil => exact ⟨[], rfl, rfl⟩
  | cons m messages ih =>
    obtain ⟨fs, htext, hwire⟩ := ih fun m' hm' => h m' (by simp [hm'])
    have hm := h m (by simp)
    refine ⟨textFrame m hm :: fs, ?_, ?_⟩
    · rw [List.map_cons, textOf_textFrame, htext]
    · rw [List.flatMap_cons, List.flatMap_cons, hwire, frameBytes_eq_wire hm]

/-- **`read_frame` undoes `send_frame`**: on the concatenated frames of messages, every call of
`recv` returning what it asks for, the calls return the messages, and each frame has the
shortest length form that can hold its message. -/
theorem readFrames_frameBytes (messages : List Bytes) (further : Bytes)
    (h : ∀ m ∈ messages, m.length < 2 ^ 63) :
    (∃ left : List Bytes,
      readFrames messages.length
          ((single (messages.flatMap frameBytes ++ further)).map some) =
        .ok (messages, left.map some) ∧ left.flatten = further) ∧
    ∀ m ∈ messages, ∃ f : Frame, frameBytes m = f.wire ∧ f.payload = m ∧
      ∀ form : LengthForm, m.length < form.bound → f.form.size ≤ form.size := by
  constructor
  · obtain ⟨fs, htext, hwire⟩ := exists_textFrames h
    have key := readFrames_frames fs further (single (fs.flatMap Frame.wire ++ further))
      (proper_single _) (flatten_single _) (wholeReads_single fs further)
    have hlen : fs.length = messages.length := by rw [← htext, List.length_map]
    rw [← hwire]
    rwa [htext, hlen] at key
  · intro m hm
    refine ⟨textFrame m (h m hm), frameBytes_eq_wire (h m hm), rfl, fun form hform => ?_⟩
    exact LengthForm.size_shortest_le hform

/-- Two messages, the first of them empty. -/
theorem readFrames_frameBytes_two :
    (∃ left : List Bytes,
      readFrames 2 ((single ([[], lit "Hi"].flatMap frameBytes ++ [])).map some) =
        .ok ([[], lit "Hi"], left.map some) ∧ left.flatten = []) ∧
    ∀ m ∈ [[], lit "Hi"], ∃ f : Frame, frameBytes m = f.wire ∧ f.payload = m ∧
      ∀ form : LengthForm, m.length < form.bound → f.form.size ≤ form.size :=
  readFrames_frameBytes [[], lit "Hi"] [] (by decide)

end SimpleServer
