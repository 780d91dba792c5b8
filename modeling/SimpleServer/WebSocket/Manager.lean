import SimpleServer.Foundations.Kernel
import SimpleServer.WebSocket.FrameStream
import SimpleServer.WebSocket.Handshake
import Mathlib.Data.Finset.Sort

/-!
# The registry of WebSocket clients

`websocket_manager`: `add_new_connection_connection` answers an upgrade request and registers
the descriptor, and `notify_message_request` reads one frame from a registered descriptor and
sends its text to all of them. The kernel and the registry together are the `World` that the
server's functions change.

`read_frame` gives the same empty string for an empty message, a frame that is not text and a
failed read, and `notify_message_request` sends whatever it gets;
`notifyMessageRequest_exact_iff` says when that is right. A length that no string can have is
thrown as an exception (`readFrame_returns_iff`).
-/

namespace SimpleServer

open Cxx Inbox Rfc6455 Posix

/-- The kernel and the `websocket_descriptor` of the `websocket_manager`. -/
structure World where
  kernel : Kernel
  websocketDescriptor : Finset ℤ

/-- The members of a `std::set<int>` in the order in which a loop meets them. -/
def ascending (D : Finset ℤ) : List ℤ := D.sort (· ≤ ·)

theorem mem_ascending {D : Finset ℤ} {fd : ℤ} : fd ∈ ascending D ↔ fd ∈ D :=
  Finset.mem_sort (· ≤ ·)

/-- `send_frame`. -/
def sendFrame (clientSocket : ℤ) (message : Bytes) (k : Kernel) : Kernel :=
  k.send clientSocket (frameBytes message)

/-- `websocket_manager::add_new_connection_connection`; its parameter `endpoint` is unused. -/
def addNewConnectionConnection (platform : Platform) (fd : ℤ) (headers : StringMap) (w : World) :
    Bool × World :=
  let it := findWebsocketKey platform headers
  if it = [] then (false, w)
  else
    (true,
      { kernel := w.kernel.send fd (upgradeResponse platform it)
        websocketDescriptor := insert fd w.websocketDescriptor })

/-- The message made of the text that was read. -/
def idMessage (fd : ℤ) (str : Bytes) : Bytes := lit "ID[" ++ decimalInt fd ++ lit "]=>" ++ str

/-- The loop of `notify_message_request`, over the set in ascending order. -/
def broadcast (descriptors : Finset ℤ) (message : Bytes) (k : Kernel) : Kernel :=
  (ascending descriptors).foldl (fun k c => sendFrame c message k) k

/-- `websocket_manager::notify_message_request`. -/
def notifyMessageRequest (fd : ℤ) (w : World) : Except Exn World :=
  if fd ∈ w.websocketDescriptor then
    match readFrame (w.kernel.inbox fd) with
    | .error e => .error e
    | .ok (str, q) =>
      let message := idMessage fd str
      .ok { w with kernel := broadcast w.websocketDescriptor message (w.kernel.leave fd q) }
  else .ok w

/-! ## What a call changes -/

section Frame

variable {fd : ℤ} {w w' : World}

theorem grows_sendFrame (k : Kernel) (c : ℤ) (message : Bytes) :
    k.Grows (sendFrame c message k) := k.grows_send c _

theorem grows_foldl_sendFrame (k : Kernel) (message : Bytes) (cs : List ℤ) :
    k.Grows (cs.foldl (fun k c => sendFrame c message k) k) := by
  induction cs generalizing k with
  | nil => exact .refl k
  | cons c cs ih => exact (grows_sendFrame k c message).trans (ih _)

/-- A broadcast takes nothing from an inbox. -/
theorem inbox_broadcast (D : Finset ℤ) (message : Bytes) (k : Kernel) (fd : ℤ) :
    (broadcast D message k).inbox fd = k.inbox fd := by
  rw [broadcast]
  induction ascending D generalizing k with
  | nil => rfl
  | cons c cs ih => exact (ih _).trans (k.inbox_send c fd _)

theorem log_foldl_sendFrame (k : Kernel) (message : Bytes) (cs : List ℤ) :
    (cs.foldl (fun k c => sendFrame c message k) k).log =
      k.log ++ cs.map fun c => .send c (frameBytes message) := by
  induction cs generalizing k with
  | nil => simp
  | cons c cs ih =>
    rw [List.foldl_cons, ih, sendFrame, Kernel.log_send]
    simp

theorem log_broadcast (D : Finset ℤ) (message : Bytes) (k : Kernel) :
    (broadcast D message k).log =
      k.log ++ (ascending D).map fun c => .send c (frameBytes message) :=
  log_foldl_sendFrame k message _

/-- **What a call can do**: nothing for a number that is not registered, and else a broadcast of
what was read. -/
theorem notifyMessageRequest_cases (h : notifyMessageRequest fd w = .ok w') :
    (fd ∉ w.websocketDescriptor ∧ w' = w) ∨
      (fd ∈ w.websocketDescriptor ∧ ∃ str q, readFrame (w.kernel.inbox fd) = .ok (str, q) ∧
        w' = ⟨broadcast w.websocketDescriptor (idMessage fd str) (w.kernel.leave fd q),
          w.websocketDescriptor⟩) := by
  rw [notifyMessageRequest] at h
  split_ifs at h with hfd
  · rcases hr : readFrame (w.kernel.inbox fd) with e | ⟨str, q⟩
    · rw [hr] at h
      cases h
    · rw [hr] at h
      cases h
      exact Or.inr ⟨hfd, str, q, rfl, rfl⟩
  · cases h
    exact Or.inl ⟨hfd, rfl⟩

/-- A call opens and closes nothing and leaves the registry as it is. -/
theorem notifyMessageRequest_grows (h : notifyMessageRequest fd w = .ok w') :
    w.kernel.Grows w'.kernel ∧ w'.websocketDescriptor = w.websocketDescriptor := by
  rcases notifyMessageRequest_cases h with ⟨-, rfl⟩ | ⟨-, str, q, -, rfl⟩
  · exact ⟨.refl _, rfl⟩
  · exact ⟨(w.kernel.grows_leave fd q).trans (grows_foldl_sendFrame _ _ _), rfl⟩

end Frame

/-! ## When a broadcast is exact -/

/-- The bytes that can be read from an inbox begin with a text frame, which one call of
`read_frame` takes as a whole. -/
def ReadsText (q : Inbox) (payload : Bytes) : Prop :=
  ∃ segs rest f, q = segs.map some ++ rest ∧ Proper segs ∧ Reads f segs ∧ f.opcode = textOpcode ∧
    f.payload = payload

/-- The bytes that can be read from an inbox announce a payload that no vector can hold. -/
def AnnouncesTooMuch (q : Inbox) : Prop :=
  ∃ segs rest, q = segs.map some ++ rest ∧ Proper segs ∧ Oversized segs

theorem readsText_iff (q : Inbox) (payload : Bytes) :
    ReadsText q payload ↔ ∃ q', readParts q = .ok (some (0x1, payload), q') := by
  constructor
  · rintro ⟨segs, rest, f, rfl, hp, hf, hop, rfl⟩
    rw [readParts_frame hp hf rest, (opcode_eq_one_iff f).mpr hop]
    exact ⟨_, rfl⟩
  · rintro ⟨q', h⟩
    obtain ⟨segs, rest, rfl, hp, hs⟩ := exists_segments q
    rcases readParts_cases hp hs with ⟨f, hf⟩ | hbig | ⟨q'', hnone⟩
    · rw [readParts_frame hp hf rest] at h
      simp only [Except.ok.injEq, Prod.mk.injEq, Option.some.injEq] at h
      exact ⟨segs, rest, f, rfl, hp, hf, (opcode_eq_one_iff f).mp h.1.1, h.1.2⟩
    · rw [readParts_oversized hp hbig] at h
      cases h
    · rw [hnone] at h
      cases h

theorem announcesTooMuch_iff (q : Inbox) :
    AnnouncesTooMuch q ↔ ∃ e, readParts q = .error e := by
  constructor
  · rintro ⟨segs, rest, rfl, hp, hbig⟩
    exact ⟨_, readParts_oversized hp hbig⟩
  · rintro ⟨e, h⟩
    obtain ⟨segs, rest, rfl, hp, hs⟩ := exists_segments q
    rcases readParts_cases hp hs with ⟨f, hf⟩ | hbig | ⟨q'', hnone⟩
    · rw [readParts_frame hp hf rest] at h
      cases h
    · exact ⟨segs, rest, rfl, hp, hbig⟩
    · rw [hnone] at h
      cases h

/-- **When `read_frame` returns.** For all bytes that can be read and every way in which they
arrive or end: the function returns a string if and only if they do not announce a payload of
`2 ^ 63` bytes or more. -/
theorem readFrame_returns_iff (q : Inbox) :
    (∃ result, readFrame q = .ok result) ↔ ¬ AnnouncesTooMuch q := by
  rw [announcesTooMuch_iff, readFrame]
  rcases readParts q with e | ⟨_ | ⟨opcode, payload⟩, q'⟩
  · apply iff_of_false
    · rintro ⟨result, h⟩
      cases h
    · exact fun h => h ⟨e, rfl⟩
  · apply iff_of_true ⟨_, rfl⟩
    rintro ⟨e, h⟩
    cases h
  · apply iff_of_true
    · by_cases hop : opcode = 0x1
      · exact ⟨_, if_pos hop⟩
      · exact ⟨_, if_neg hop⟩
    · rintro ⟨e, h⟩
      cases h

/-- Ten bytes announce `2 ^ 63` bytes of payload. -/
theorem not_readFrame_returns : ¬ ∀ q : Inbox, ∃ result, readFrame q = .ok result := by
  intro h
  obtain ⟨result, hread⟩ := h [some [0x81, 0x7F, 0x80, 0, 0, 0, 0, 0, 0, 0]]
  have hthrows : readFrame [some [0x81, 0x7F, 0x80, 0, 0, 0, 0, 0, 0, 0]] =
      .error .lengthError := rfl
  rw [hthrows] at hread
  cases hread

/-- A string that is not empty is the payload of a text frame. -/
theorem readFrame_eq_iff {q : Inbox} {payload : Bytes} (hne : payload ≠ []) :
    (∃ q', readFrame q = .ok (payload, q')) ↔ ReadsText q payload := by
  rw [readsText_iff]
  constructor
  · rintro ⟨q', h⟩
    rw [readFrame] at h
    rcases hparts : readParts q with e | ⟨_ | ⟨opcode, payload'⟩, q''⟩
    · rw [hparts] at h
      cases h
    · rw [hparts] at h
      cases h
      exact absurd rfl hne
    · rw [hparts] at h
      simp only at h
      split_ifs at h with hop
      · cases h
        exact ⟨q', by rw [hop]⟩
      · cases h
        exact absurd rfl hne
  · rintro ⟨q', h⟩
    refine ⟨q', ?_⟩
    rw [readFrame, h]
    rfl

/-- The system calls of a call of `notify_message_request`. One that throws has done so before
its first `send`. -/
def callsOf (w : World) : Except Exn World → List SysCall
  | .ok w' => w'.kernel.log.drop w.kernel.log.length
  | .error _ => []

/-- The bytes are one text frame with the given payload. -/
def DecodesTo (bytes payload : Bytes) : Prop :=
  ∃ f : Frame, bytes = f.wire ∧ f.fin = true ∧ f.opcode = textOpcode ∧ f.payload = payload

/-- One frame with the right message to each registered descriptor when a text frame was read
from a registered one, and nothing else. -/
def BroadcastExact (fd : ℤ) (w : World) (result : Except Exn World) : Prop :=
  (∀ payload, fd ∈ w.websocketDescriptor → ReadsText (w.kernel.inbox fd) payload →
    ∃ bytes : ℤ → Bytes,
      callsOf w result = (ascending w.websocketDescriptor).map (fun c => .send c (bytes c)) ∧
      ∀ c ∈ w.websocketDescriptor, DecodesTo (bytes c) (idMessage fd payload)) ∧
  ((fd ∉ w.websocketDescriptor ∨ ¬ ∃ payload, ReadsText (w.kernel.inbox fd) payload) →
    callsOf w result = [])

/-- Behind a read that does not throw, a registered descriptor makes one call of `send` for each
descriptor, with the text that was read. -/
theorem callsOf_notifyMessageRequest {fd : ℤ} {w : World} (hfd : fd ∈ w.websocketDescriptor)
    {str : Bytes} {q : Inbox} (h : readFrame (w.kernel.inbox fd) = .ok (str, q)) :
    callsOf w (notifyMessageRequest fd w) = (ascending w.websocketDescriptor).map fun c =>
      .send c (frameBytes (idMessage fd str)) := by
  simp only [notifyMessageRequest, if_pos hfd, h, callsOf, log_broadcast, Kernel.log_leave,
    List.drop_left]

/-- What is sent for an empty string that stands for no message. -/
theorem not_broadcastExact {fd : ℤ} {w : World} (hfd : fd ∈ w.websocketDescriptor) {str : Bytes}
    {q : Inbox} (h : readFrame (w.kernel.inbox fd) = .ok (str, q))
    (hnot : ¬ ∃ payload, ReadsText (w.kernel.inbox fd) payload) :
    ¬ BroadcastExact fd w (notifyMessageRequest fd w) := by
  intro hexact
  have hcalls := hexact.2 (Or.inr hnot)
  rw [callsOf_notifyMessageRequest hfd h, List.map_eq_nil_iff] at hcalls
  have hmem := mem_ascending.mpr hfd
  rw [hcalls] at hmem
  simp at hmem

/-- A text frame was read: each frame sent decodes to the message exactly when a frame can hold
it. -/
theorem broadcastExact_text_iff {fd : ℤ} {w : World} (hfd : fd ∈ w.websocketDescriptor)
    {payload : Bytes} {q : Inbox}
    (h : readParts (w.kernel.inbox fd) = .ok (some (0x1, payload), q)) :
    BroadcastExact fd w (notifyMessageRequest fd w) ↔ (idMessage fd payload).length < 2 ^ 63 := by
  have hread : readFrame (w.kernel.inbox fd) = .ok (payload, q) := by
    rw [readFrame, h]
    rfl
  have htext : ReadsText (w.kernel.inbox fd) payload := (readsText_iff _ _).mpr ⟨q, h⟩
  rw [BroadcastExact, callsOf_notifyMessageRequest hfd hread]
  constructor
  · intro hexact
    obtain ⟨bytes, hcalls, hdec⟩ := hexact.1 payload hfd htext
    obtain ⟨f, -, -, -, hpayload⟩ := hdec fd hfd
    rw [← hpayload]
    exact f.payload_length_lt
  · intro hlen
    refine ⟨fun payload' _ htext' => ?_, fun hnot => ?_⟩
    · obtain ⟨q', h'⟩ := (readsText_iff _ _).mp htext'
      rw [h] at h'
      cases h'
      refine ⟨fun _ => frameBytes (idMessage fd payload), rfl, fun c _ => ?_⟩
      exact ⟨textFrame _ hlen, frameBytes_eq_wire hlen, rfl, rfl, rfl⟩
    · rcases hnot with hnot | hnot
      · exact absurd hfd hnot
      · exact absurd ⟨payload, htext⟩ hnot

/-- **When a broadcast is exact.** For every registry, descriptor and inbox, one call of
`notify_message_request` does what it should exactly when the descriptor is not registered, the
announced length makes the read throw, or a text frame is read whose message a frame can hold. -/
theorem notifyMessageRequest_exact_iff (fd : ℤ) (w : World) :
    BroadcastExact fd w (notifyMessageRequest fd w) ↔
      fd ∉ w.websocketDescriptor ∨ AnnouncesTooMuch (w.kernel.inbox fd) ∨
        ∃ payload, ReadsText (w.kernel.inbox fd) payload ∧
          (idMessage fd payload).length < 2 ^ 63 := by
  by_cases hfd : fd ∈ w.websocketDescriptor
  swap
  · have hcalls : callsOf w (notifyMessageRequest fd w) = [] := by
      rw [notifyMessageRequest, if_neg hfd, callsOf, List.drop_length]
    exact iff_of_true ⟨fun _ h => absurd h hfd, fun _ => hcalls⟩ (Or.inl hfd)
  simp only [hfd, not_true_eq_false, false_or, announcesTooMuch_iff, readsText_iff]
  rcases h : readParts (w.kernel.inbox fd) with e | ⟨_ | ⟨opcode, payload⟩, q⟩
  · -- the read throws before anything is sent
    have hread : readFrame (w.kernel.inbox fd) = .error e := by rw [readFrame, h]
    have hcalls : callsOf w (notifyMessageRequest fd w) = [] := by
      simp only [notifyMessageRequest, if_pos hfd, hread, callsOf]
    refine iff_of_true ⟨fun payload _ htext => ?_, fun _ => hcalls⟩ (Or.inl ⟨e, rfl⟩)
    obtain ⟨q, hq⟩ := (readsText_iff _ _).mp htext
    rw [h] at hq
    cases hq
  · -- the read fails, and an empty message is sent
    have hread : readFrame (w.kernel.inbox fd) = .ok ([], q) := by rw [readFrame, h]
    refine iff_of_false (not_broadcastExact hfd hread ?_) (by simp)
    simp [readsText_iff, h]
  · by_cases hop : opcode = 0x1
    · subst hop
      rw [broadcastExact_text_iff hfd h]
      simp
    · -- a frame that is not text, and an empty message is sent
      have hread : readFrame (w.kernel.inbox fd) = .ok ([], q) := by
        rw [readFrame, h]
        exact if_neg hop
      refine iff_of_false (not_broadcastExact hfd hread ?_) (by simp [hop])
      simp [readsText_iff, h, hop]

/-- Descriptor 5 is registered, and the first byte of a frame has arrived on it. -/
def firstByte : World where
  kernel := ⟨fun fd => if fd = 5 then some (.conn ⟨[some [0x81]], [], [], []⟩) else none, []⟩
  websocketDescriptor := {5}

/-- The read fails, and an empty message goes out. -/
theorem notifyMessageRequest_firstByte :
    ¬ BroadcastExact 5 firstByte (notifyMessageRequest 5 firstByte) := by
  have h : readParts (firstByte.kernel.inbox 5) = .ok (none, []) := rfl
  have hread : readFrame (firstByte.kernel.inbox 5) = .ok ([], []) := by rw [readFrame, h]
  apply not_broadcastExact (by decide) hread
  simp [readsText_iff, h]

end SimpleServer
