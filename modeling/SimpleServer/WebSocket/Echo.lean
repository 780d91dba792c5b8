import SimpleServer.WebSocket.AcceptKey
import SimpleServer.WebSocket.EchoRequest
import SimpleServer.WebSocket.FrameStream

/-!
# The echo server

`cppws.cpp` serves one client after another: it reads the upgrade request, answers it, and sends
every message back until `read_frame` returns an empty one. Its `read_frame`, `send_frame` and
`getAcceptKey` are those of the server, and the text of its answer is the same.

`serveClient_echo` is the whole session: a client that sends an upgrade request with lines shorter
than `2 ^ 31` and then frames, in any segments that keep the headers of the frames whole, and takes
all that it is sent, gets the answer to its key and its messages back in their order, up to the
first that is empty or no text.
-/

namespace SimpleServer.Echo

open Cxx Inbox Posix Conn Rfc6455

/-! ## The functions -/

/-- The name of the header with the key. -/
def keyHeader : Bytes := lit "Sec-WebSocket-Key"

/-- Does the next call of `send` return a negative number. -/
def sendFails (c : Conn) : Bool := c.outbox.head? = some none

/-- `do_ws_handshake`. -/
def doWsHandshake (platform : Platform) (headers : StringMap) (client : Conn) : Bool × Conn :=
  match headers.lookup keyHeader with
  | none => (false, client)
  | some websocketKey => (!sendFails client, client.push (upgradeResponse platform websocketKey))

/-- At most `n` turns of the loop of `echo_server` that send a message; when no byte waits, there is
no message, and the loop ends. -/
def echoLoop : ℕ → Conn → Except Exn Conn
  | 0, client => do
    let (_, q) ← readFrame client.inbox
    return client.leave q
  | n + 1, client => do
    let (msg, q) ← readFrame client.inbox
    let client := client.leave q
    if 0 < msg.length then echoLoop n (client.push (frameBytes msg)) else return client

/-- `echo_server`. -/
def echoServer (client : Conn) : Except Exn Conn := echoLoop (waiting client.inbox).length client

/-- What `main` does with a client, before it closes it. -/
def serveClient (platform : Platform) (client : Conn) : Except Exn Conn := do
  let (headers, q) ← extractRequest client.inbox
  let client := client.leave q
  if 0 < ((headers.lookup keyHeader).getD []).length then
    let (doHs, client) := doWsHandshake platform headers client
    if doHs then echoServer client else return client
  else return client

/-! ## The loop -/

/-- The messages of frames up to the first that is empty or no text. -/
def messages (frames : List Frame) : List Bytes := (frames.map textOf).takeWhile (· ≠ [])

theorem echoLoop_eq {frames : List Frame} {segs : List Bytes} {c : Conn} {n : ℕ}
    (hinbox : c.inbox = segs.map some) (hp : Proper segs)
    (hbytes : segs.flatten = frames.flatMap Frame.wire) (hw : WholeReads frames segs)
    (hroom : c.outbox = []) (hn : segs.flatten.length ≤ n) :
    ∃ c', echoLoop n c = .ok c' ∧ c'.sent = c.sent ++ (messages frames).flatMap frameBytes := by
  induction frames generalizing segs c n with
  | nil =>
    have hsegs : segs = [] := by
      cases segs with
      | nil => rfl
      | cons seg segs => simp [(Proper.cons_iff.mp hp).1] at hbytes
    have hread : readFrame c.inbox = .ok ([], []) := by
      rw [hinbox, hsegs]
      rfl
    refine ⟨c.leave [], ?_, by simp [messages, leave]⟩
    cases n with
    | zero => rw [echoLoop, hread, ok_bind]; rfl
    | succ n => rw [echoLoop, hread, ok_bind]; rfl
  | cons f frames ih =>
    obtain ⟨h2, hext, hkey, hw'⟩ := hw
    rw [List.flatMap_cons] at hbytes
    have hread := readFrame_frame hp ⟨⟨_, hbytes.symm⟩, h2, hext, hkey⟩ []
    rw [List.append_nil, List.append_nil, ← hinbox] at hread
    have hwire : 2 ≤ f.wire.length := by
      rw [f.length_wire]
      omega
    have hflatten : (skip f.wire.length segs).flatten = frames.flatMap Frame.wire := by
      rw [flatten_skip, hbytes, List.drop_left]
    have hlen := congrArg List.length hbytes
    rw [List.length_append] at hlen
    obtain ⟨n, rfl⟩ : ∃ m, n = m + 1 := ⟨n - 1, by omega⟩
    rw [echoLoop, hread, ok_bind]
    by_cases htext : textOf f = []
    · refine ⟨c.leave ((skip f.wire.length segs).map some), by simp [htext]; rfl, ?_⟩
      simp [messages, htext, leave]
    · let c₁ : Conn := { c.leave ((skip f.wire.length segs).map some) with
        sent := c.sent ++ frameBytes (textOf f) }
      have hpush : (c.leave ((skip f.wire.length segs).map some)).push (frameBytes (textOf f)) =
          c₁ := by
        simp [c₁, push, leave, hroom]
      have hlen' : (skip f.wire.length segs).flatten.length ≤ n := by
        rw [hflatten]
        omega
      obtain ⟨c', hloop, hsent⟩ := ih (c := c₁) rfl (hp.skip _) hflatten hw' hroom hlen'
      refine ⟨c', ?_, ?_⟩
      · simp only
        rw [if_pos (List.length_pos_iff.mpr htext), hpush, hloop]
      · rw [hsent]
        simp [c₁, messages, htext]

/-! ## The session -/

/-- The text of a request with these lines. -/
def requestText (lines : List Bytes) : Bytes := lines.flatMap (· ++ crlf) ++ crlf

/-- A client sends a request and frames, and takes what it is sent. Its bytes arrive in segments
that keep the header, the extended length and the masking key of each frame whole. -/
structure Session (lines : List Bytes) (frames : List Frame) (segs : List Bytes) (c : Conn) :
    Prop where
  line : ∀ l ∈ lines, l ≠ [] ∧ cr ∉ l
  short : ∀ l ∈ lines, l.length < 2 ^ 31
  inbox_eq : c.inbox = segs.map some
  proper : Proper segs
  bytes : segs.flatten = requestText lines ++ frames.flatMap Frame.wire
  whole : WholeReads frames (skip (requestText lines).length segs)
  room : c.outbox = []

/-- The bytes sent in a session: the answer and the messages, when there is a key. -/
def sessionBytes (platform : Platform) (lines : List Bytes) (frames : List Frame) : Bytes :=
  let key := (lastOf (lines.filterMap headerOf) keyHeader).getD []
  if key = [] then []
  else upgradeResponse platform key ++ (messages frames).flatMap frameBytes

section Session

variable {lines : List Bytes} {frames : List Frame} {segs : List Bytes} {c : Conn}

/-- The request is read, and the frames are left as they arrive. -/
theorem Session.request_eq (h : Session lines frames segs c) :
    extractRequest c.inbox = .ok (insertAll ∅ (lines.filterMap headerOf),
      (skip (requestText lines).length segs).map some) := by
  have hlines : headLines segs.flatten = (lines, frames.flatMap Frame.wire) := by
    rw [h.bytes]
    exact headLines_append h.line _
  have hshort : ∀ l ∈ (headLines segs.flatten).1, l.length < 2 ^ 31 := by
    rw [hlines]
    exact h.short
  obtain ⟨left, hloop, hleft⟩ := extractRequestLoop_eq h.proper ∅ hshort le_rfl
  rw [hlines] at hloop hleft
  rw [extractRequest, h.inbox_eq, waiting_map_some, hleft, hloop.eq_skip h.bytes]

/-- **An echo session**, whatever the request and the frames are: the answer to the last key of the
request and the messages in their order, and nothing when there is no key. -/
theorem serveClient_echo (platform : Platform) (h : Session lines frames segs c) :
    ∃ c', serveClient platform c = .ok c' ∧
      c'.sent = c.sent ++ sessionBytes platform lines frames := by
  have hlookup : (insertAll ∅ (lines.filterMap headerOf)).lookup keyHeader =
      lastOf (lines.filterMap headerOf) keyHeader := by
    rw [lookup_insertAll]
    simp
  have hflatten : (skip (requestText lines).length segs).flatten = frames.flatMap Frame.wire := by
    rw [flatten_skip, h.bytes, List.drop_left]
  rw [serveClient, h.request_eq, ok_bind, sessionBytes]
  simp only [hlookup]
  by_cases hkey : (lastOf (lines.filterMap headerOf) keyHeader).getD [] = []
  · rw [hkey]
    exact ⟨_, rfl, by simp [leave]⟩
  · obtain ⟨key, hlast⟩ : ∃ key, lastOf (lines.filterMap headerOf) keyHeader = some key := by
      cases hlast : lastOf (lines.filterMap headerOf) keyHeader with
      | none => simp [hlast] at hkey
      | some key => exact ⟨key, rfl⟩
    have hne : key ≠ [] := by simpa [hlast] using hkey
    let c₁ : Conn := { c.leave ((skip (requestText lines).length segs).map some) with
      sent := c.sent ++ upgradeResponse platform key }
    have hshake : doWsHandshake platform (insertAll ∅ (lines.filterMap headerOf))
        (c.leave ((skip (requestText lines).length segs).map some)) = (true, c₁) := by
      rw [doWsHandshake, hlookup, hlast]
      simp [c₁, sendFails, leave, push, h.room]
    obtain ⟨c', hloop, hsent⟩ := echoLoop_eq (c := c₁) rfl (h.proper.skip _) hflatten h.whole h.room
      le_rfl
    have hserver : echoServer c₁ = .ok c' := by
      rw [← hloop, echoServer, ← waiting_map_some]
      rfl
    refine ⟨c', ?_, ?_⟩
    · rw [hlast, Option.getD_some, if_pos (List.length_pos_iff.mpr hne), hshake]
      exact hserver
    · rw [hsent, hlast, Option.getD_some, if_neg hne]
      simp [c₁]

end Session

/-! ## A client that says hello -/

def helloLines : List Bytes :=
  [lit "GET / HTTP/1.1", lit "Sec-WebSocket-Key: dGhlIHNhbXBsZSBub25jZQ=="]

/-- A masked text frame, an empty one, and another that is not reached. -/
def helloFrames : List Frame :=
  [⟨true, 0, textOpcode, some #v[1, 2, 3, 4], .seven, lit "hello", by decide⟩,
    ⟨true, 0, textOpcode, none, .seven, [], by decide⟩,
    ⟨true, 0, textOpcode, none, .seven, lit "late", by decide⟩]

def helloBytes : Bytes := requestText helloLines ++ helloFrames.flatMap Frame.wire

def helloClient : Conn := ⟨(single helloBytes).map some, [], [], []⟩

theorem session_hello : Session helloLines helloFrames (single helloBytes) helloClient where
  line := by decide
  short := by decide
  inbox_eq := rfl
  proper := proper_single helloBytes
  bytes := flatten_single helloBytes
  whole := by
    have hwhole := wholeReads_single helloFrames []
    rw [List.append_nil] at hwhole
    rwa [skip_single, helloBytes, List.drop_left]
  room := rfl

theorem serveClient_echo_hello : ∃ c', serveClient .plain helloClient = .ok c' ∧
    c'.sent =
      upgradeResponse .plain (lit "dGhlIHNhbXBsZSBub25jZQ==") ++ frameBytes (lit "hello") := by
  obtain ⟨c', hserve, hsent⟩ := serveClient_echo .plain session_hello
  exact ⟨c', hserve, hsent.trans (by decide +kernel)⟩

end SimpleServer.Echo
