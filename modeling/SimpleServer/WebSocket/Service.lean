import SimpleServer.WebSocket.Manager
import SimpleServer.Foundations.Runs

/-!
# The WebSocket service of `simple_server`

`simple_server_websocket_connection.cpp` keeps its clients in two lists of one file: `poll_fds`,
whose first entry is an eventfd, and `web_sockect_connections`. The HTTP server hands over a
connection (`create_new_ws_connection`), and a thread polls and serves all entries
(`check_and_notify_events`). A handing over and the handling of one result of `poll` are steps.

A connection that hangs up leaves `poll_fds` alone, so that its object stays
(`paired_of_reached`). The callbacks of a connection are reached by no message
(`delivered_iff`): `read` has taken the bytes of a frame before `read_frame` looks for them, and
the overload of `read_frame` that is called returns a vector without elements.
-/

namespace SimpleServer

open Cxx Inbox Rfc6455 Posix Runs

/-! ## The code -/

/-- `websocket_message`, without the member `type_of_message` that is never set. -/
structure WebsocketMessage where
  payload : Bytes
  connection : ℤ
  deriving DecidableEq

/-- `websocket_connection`: its descriptor, and whether `on_message_received` holds a function.
The members that nothing reads are left out. -/
structure WebsocketConnection where
  fd : ℤ
  onMessageReceived : Bool
  deriving DecidableEq

/-- `websocket_connection_manager`: whether `onmessage_cb` holds a function. -/
structure WebsocketConnectionManager where
  onmessageCb : Bool

/-- `websocket_message::toString`. -/
def WebsocketMessage.toString (m : WebsocketMessage) : Bytes :=
  m.payload.map fun it => if it < 30 then space else it

/-- `std::transform(msg.begin(), msg.end(), ret.begin(), ..)`: the elements that `ret` has are
overwritten, and what is written behind them is not part of `ret`. -/
def transformInto (ret msg : Bytes) : Bytes := msg.take ret.length ++ ret.drop msg.length

/-- The overload of `read_frame` that returns a vector; `reserve` adds no element to `ret`. -/
def readFrameVector (q : Inbox) : Except Exn (Bytes × Inbox) :=
  match readFrame q with
  | .error e => .error e
  | .ok (msg, q) => .ok (transformInto [] msg, q)

namespace Service

/-- The bits of `revents` that the loop tests. -/
structure Revents where
  pollIn : Bool
  pollErr : Bool
  pollHup : Bool
  deriving DecidableEq

/-- `pollfd`, without the member `events` that is always `POLLIN`. -/
structure PollFd where
  fd : ℤ
  revents : Revents
  deriving DecidableEq

/-- `{fd, POLLIN, 0}`. -/
def PollFd.new (fd : ℤ) : PollFd := ⟨fd, false, false, false⟩

/-- The branch of the loop that closes the descriptor is taken. -/
def Revents.hangsUp (r : Revents) : Bool := !r.pollIn && !r.pollErr && r.pollHup

end Service

/-- The variables of the file, the descriptors of the process, and two records: the messages with
which callbacks were called and the bytes that have arrived on each number. -/
structure Service where
  eventFd : ℤ
  object : WebsocketConnectionManager
  webSockectConnections : List WebsocketConnection
  pollFds : List Service.PollFd
  running : Bool
  kernel : Kernel
  messages : List WebsocketMessage
  arrived : ℤ → Bytes

namespace Service

/-- `websocket_connection_manager()`, at the first call of `get`: without an eventfd no thread is
started. -/
def start (eventFd : ℤ) : Service where
  eventFd := eventFd
  object := ⟨false⟩
  webSockectConnections := []
  pollFds := if eventFd = -1 then [] else [PollFd.new eventFd]
  running := eventFd ≠ -1
  kernel :=
    ⟨fun fd => if fd = eventFd ∧ eventFd ≠ -1 then some (.conn ⟨[], [], [], []⟩) else none, []⟩
  messages := []
  arrived := fun _ => []

/-- `get`, which returns a copy. -/
def get (s : Service) : WebsocketConnectionManager := s.object

/-- `on_message` on a manager. -/
def onMessage (_manager : WebsocketConnectionManager) : WebsocketConnectionManager := ⟨true⟩

/-- `add_socket_to_the_list`. -/
def addSocketToTheList (fd : ℤ) (s : Service) : Service :=
  { s with
    pollFds := s.pollFds ++ [PollFd.new fd]
    webSockectConnections := s.webSockectConnections ++ [⟨fd, false⟩]
    kernel := s.kernel.send s.eventFd [1, 0, 0, 0, 0, 0, 0, 0] }

/-- `create_new_ws_connection`. -/
def createNewWsConnection (platform : Platform) (headers : StringMap) (connection : ℤ)
    (s : Service) : Bytes × Service :=
  let it := findWebsocketKey platform headers
  if it = [] then ([], s)
  else (upgradeResponse platform it, addSocketToTheList connection s)

/-- `handle_websocket_handshake`. -/
def handleWebsocketHandshake (platform : Platform) (headers : StringMap) (connection : ℤ)
    (s : Service) : Service :=
  let response := createNewWsConnection platform headers connection s
  { response.2 with kernel := response.2.kernel.send connection response.1 }

/-- `websocket_connection::operator()`. -/
def call (it : WebsocketConnection) (s : Service) : Except Exn Service :=
  match readFrameVector (s.kernel.inbox it.fd) with
  | .error e => .error e
  | .ok (msg, q) =>
    let s := { s with kernel := s.kernel.leave it.fd q }
    if 0 < msg.length then
      let message : WebsocketMessage := ⟨msg, it.fd⟩
      if it.onMessageReceived then .ok { s with messages := s.messages ++ [message] }
      else .ok { s with kernel := sendFrame it.fd message.toString s.kernel }
    else .ok s

/-- The result of `read(fd, buffer, 1024)` is stored into, at the index behind the next one. -/
def storesInside : Option Bytes → Bool
  | none => true
  | some bytes => bytes.length + 1 < 1024

/-- The body of the loop over `web_sockect_connections`, for the entry `fd` of `poll_fds`. -/
def serveConnection (fd : ℤ) (s : Service) (it : WebsocketConnection) : Except Exn Service :=
  if it.fd = fd then
    let bytesRead := s.kernel.recv fd 1024
    if storesInside bytesRead.1 then
      if it.onMessageReceived then call it { s with kernel := bytesRead.2 }
      else .ok { s with kernel := bytesRead.2 }
    else .error .undefined
  else .ok s

/-- The loop over `poll_fds` from index `i` on, with `left` entries to go. -/
def serveEntries : ℕ → ℕ → Service → Except Exn Service
  | 0, _, s => .ok s
  | left + 1, i, s =>
    match s.pollFds[i]? with
    | none => .ok s
    | some p =>
      if p.revents.pollIn then
        match s.webSockectConnections.foldlM (serveConnection p.fd) s with
        | .error e => .error e
        | .ok s => serveEntries left (i + 1) s
      else if p.revents.pollErr then serveEntries left (i + 1) s
      else if p.revents.pollHup then
        serveEntries left i
          { s with kernel := s.kernel.close p.fd, pollFds := s.pollFds.eraseIdx i }
      else serveEntries left (i + 1) s

/-- What happens in one step. -/
inductive Label
  /-- The HTTP server accepts a connection. -/
  | accept (a : Arrival)
  /-- The HTTP server closes a connection that it has not handed over. -/
  | close (fd : ℤ)
  /-- The HTTP server handles an upgrade request on a connection that it has not handed over. -/
  | handshake (headers : StringMap) (fd : ℤ)
  /-- A program calls `get().on_message(..)`. -/
  | onMessage
  /-- The member `on_message_received` of a connection is set. -/
  | install (fd : ℤ)
  /-- Bytes arrive on a connection; the coming calls find the bytes not yet read, old and new, in
  the answers given. -/
  | arrive (fd : ℤ) (piece : Bytes) (q : Inbox) (outbox : List (Option ℕ))
  /-- `poll` returns with the events of all entries, which are served, or fails. -/
  | poll (revents : Option (List Revents))

/-- The descriptors in `poll_fds`. -/
def fds (s : Service) : List ℤ := s.pollFds.map PollFd.fd

/-- The descriptors in `web_sockect_connections`. -/
def connectionFds (s : Service) : List ℤ := s.webSockectConnections.map WebsocketConnection.fd

/-- The connection belongs to the HTTP server: it was accepted, is open, and was not handed
over. -/
def owns (s : Service) (fd : ℤ) : Bool := 0 ≤ fd && s.kernel.isOpen fd && !s.fds.contains fd

/-- The entries with the events that `poll` has set. -/
def polled (revents : List Revents) (s : Service) : List PollFd :=
  s.pollFds.zipWith (fun p r => { p with revents := r }) revents

/-- One step; an exception and an undefined operation end the run. -/
def step (platform : Platform) (s : Service) : Label → Option Service
  | .accept a =>
    if 0 ≤ a.fd ∧ s.kernel.table a.fd = none then
      some { s with
        kernel.table :=
          Function.update s.kernel.table a.fd (some (.conn ⟨a.inbox, a.outbox, [], []⟩)) }
    else none
  | .close fd => if s.owns fd then some { s with kernel := s.kernel.close fd } else none
  | .handshake headers fd =>
    if s.owns fd then some (handleWebsocketHandshake platform headers fd s) else none
  | .onMessage =>
    -- the copy is changed, and dropped
    let _manager := onMessage s.get
    some s
  | .install fd =>
    some { s with
      webSockectConnections := s.webSockectConnections.map fun it =>
        if it.fd = fd then { it with onMessageReceived := true } else it }
  | .arrive fd piece q outbox =>
    if s.kernel.isOpen fd ∧ Conn.waiting q = Conn.waiting (s.kernel.inbox fd) ++ piece then
      some { s with
        kernel := s.kernel.arrive ⟨fd, q, outbox⟩
        arrived := Function.update s.arrived fd (s.arrived fd ++ piece) }
    else none
  | .poll none => if s.running then some { s with running := false } else none
  | .poll (some revents) =>
    if s.running ∧ revents.length = s.pollFds.length then
      (serveEntries s.pollFds.length 0 { s with pollFds := s.polled revents }).toOption
    else none

/-! ## What serving the entries changes -/

/-- The lists and the records are the same. -/
structure Served (s s' : Service) : Prop where
  eventFd : s'.eventFd = s.eventFd
  connections : s'.webSockectConnections = s.webSockectConnections
  pollFds : s'.pollFds = s.pollFds
  messages : s'.messages = s.messages
  arrived : s'.arrived = s.arrived

theorem Served.refl (s : Service) : Served s s := ⟨rfl, rfl, rfl, rfl, rfl⟩

theorem Served.trans {s₁ s₂ s₃ : Service} (h : Served s₁ s₂) (h' : Served s₂ s₃) :
    Served s₁ s₃ :=
  ⟨h'.eventFd.trans h.eventFd, h'.connections.trans h.connections, h'.pollFds.trans h.pollFds,
    h'.messages.trans h.messages, h'.arrived.trans h.arrived⟩

section Serve

variable {s s' : Service}

/-- The vector returned has no element, whatever was read. -/
theorem readFrameVector_nil {q q' : Inbox} {msg : Bytes}
    (h : readFrameVector q = .ok (msg, q')) : msg = [] := by
  rw [readFrameVector] at h
  split at h
  · cases h
  · cases h
    simp [transformInto]

/-- **When the two overloads of `read_frame` agree.** For all bytes that can be read: the vector
has the length and the bytes of the string, or both calls throw, if and only if the bytes do not
begin with a text frame whose payload is not empty. -/
theorem readFrameVector_eq_iff (q : Inbox) :
    readFrameVector q = readFrame q ↔ ¬ ∃ payload, payload ≠ [] ∧ ReadsText q payload := by
  rcases hread : readFrame q with e | ⟨msg, q'⟩
  · have hvector : readFrameVector q = .error e := by rw [readFrameVector, hread]
    refine iff_of_true hvector ?_
    rintro ⟨payload, hne, htext⟩
    obtain ⟨q', h⟩ := (readFrame_eq_iff hne).mpr htext
    rw [hread] at h
    cases h
  · have hvector : readFrameVector q = .ok ([], q') := by
      rw [readFrameVector, hread]
      simp [transformInto]
    rw [hvector]
    by_cases hmsg : msg = []
    · refine iff_of_true (by rw [hmsg]) ?_
      rintro ⟨payload, hne, htext⟩
      obtain ⟨q'', h⟩ := (readFrame_eq_iff hne).mpr htext
      rw [hread] at h
      cases h
      exact hne hmsg
    · apply iff_of_false
      · intro h
        cases h
        exact hmsg rfl
      · exact not_not.mpr ⟨msg, hmsg, (readFrame_eq_iff hmsg).mp ⟨q', hread⟩⟩

/-- The text `ok` is read, and the vector is empty. -/
theorem not_readFrameVector_eq : ¬ ∀ q : Inbox, readFrameVector q = readFrame q := by
  intro h
  let frame := textFrame (lit "ok") (by decide)
  have hreads : Reads frame [frame.wire] := ⟨by simp, by decide, by decide, by decide⟩
  have hproper : Proper [frame.wire] := by simp [Proper, Frame.wire]
  have hread := readFrame_frame hproper hreads []
  have hnil := readFrameVector_nil ((h _).trans hread)
  exact absurd hnil (by decide)

/-- A call of a connection object reads, and neither calls its callback nor sends. -/
theorem served_call {it : WebsocketConnection} (h : call it s = .ok s') : Served s s' := by
  rw [call] at h
  split at h
  · cases h
  · rename_i msg q hread
    rw [readFrameVector_nil hread] at h
    simp only [List.length_nil, lt_irrefl, if_false] at h
    cases h
    exact ⟨rfl, rfl, rfl, rfl, rfl⟩

theorem served_serveConnection {fd : ℤ} {it : WebsocketConnection}
    (h : serveConnection fd s it = .ok s') : Served s s' := by
  simp only [serveConnection] at h
  split_ifs at h
  · have hread : Served s { s with kernel := (s.kernel.recv fd 1024).2 } :=
      ⟨rfl, rfl, rfl, rfl, rfl⟩
    exact hread.trans (served_call h)
  · cases h
    exact ⟨rfl, rfl, rfl, rfl, rfl⟩
  · cases h
    exact .refl _

theorem served_foldlM {fd : ℤ} {its : List WebsocketConnection}
    (h : its.foldlM (serveConnection fd) s = .ok s') : Served s s' := by
  induction its generalizing s with
  | nil =>
    cases h
    exact .refl _
  | cons it its ih =>
    rw [List.foldlM_cons] at h
    rcases hit : serveConnection fd s it with e | s₁
    · rw [hit] at h
      cases h
    · rw [hit] at h
      exact (served_serveConnection hit).trans (ih h)

/-- **The loop over `poll_fds`**: the entries that hang up are gone, and the lists and the records
are else the same. -/
theorem served_serveEntries {before rest : List PollFd} (hpoll : s.pollFds = before ++ rest)
    (h : serveEntries rest.length before.length s = .ok s') :
    Served { s with pollFds := before ++ rest.filter fun p => !p.revents.hangsUp } s' := by
  induction rest generalizing before s with
  | nil =>
    cases h
    exact ⟨rfl, rfl, by simp [hpoll], rfl, rfl⟩
  | cons p rest ih =>
    have hp : s.pollFds[before.length]? = some p := by simp [hpoll]
    have hnext : ∀ {s₁ : Service}, Served s s₁ → p.revents.hangsUp = false →
        serveEntries rest.length (before.length + 1) s₁ = .ok s' →
        Served { s with pollFds := before ++ (p :: rest).filter fun p => !p.revents.hangsUp }
          s' := by
      intro s₁ hserved hstay h₁
      have hpoll₁ : s₁.pollFds = (before ++ [p]) ++ rest := by simp [hserved.pollFds, hpoll]
      have hlen : before.length + 1 = (before ++ [p]).length := by simp
      have := ih hpoll₁ (hlen ▸ h₁)
      exact ⟨this.eventFd.trans hserved.eventFd, this.connections.trans hserved.connections,
        this.pollFds.trans (by simp [hstay]), this.messages.trans hserved.messages,
        this.arrived.trans hserved.arrived⟩
    rw [List.length_cons, serveEntries, hp] at h
    simp only at h
    split_ifs at h with hin herr hhup
    · rcases hfold : s.webSockectConnections.foldlM (serveConnection p.fd) s with e | s₁
      · rw [hfold] at h
        cases h
      · rw [hfold] at h
        exact hnext (served_foldlM hfold) (by simp [Revents.hangsUp, hin]) h
    · exact hnext (.refl s) (by simp [Revents.hangsUp, herr]) h
    · have hgone : p.revents.hangsUp = true := by simp [Revents.hangsUp, hin, herr, hhup]
      have herase : s.pollFds.eraseIdx before.length = before ++ rest := by
        rw [hpoll, List.eraseIdx_append_of_length_le le_rfl]
        simp
      have := ih (s := { s with
        kernel := s.kernel.close p.fd, pollFds := s.pollFds.eraseIdx before.length }) herase h
      exact ⟨this.eventFd, this.connections, this.pollFds.trans (by simp [hgone]),
        this.messages, this.arrived⟩
    · exact hnext (.refl s) (by simp [Revents.hangsUp, hhup]) h

end Serve

/-! ## What a step changes -/

/-- The same descriptors in both lists, and no callback was called. -/
structure Quiet (s s' : Service) : Prop where
  eventFd : s'.eventFd = s.eventFd
  connectionFds : s'.connectionFds = s.connectionFds
  fds : s'.fds = s.fds
  messages : s'.messages = s.messages

/-- A connection was handed over: its descriptor is new at the end of both lists. -/
structure Added (fd : ℤ) (s s' : Service) : Prop where
  eventFd : s'.eventFd = s.eventFd
  connectionFds : s'.connectionFds = s.connectionFds ++ [fd]
  fds : s'.fds = s.fds ++ [fd]
  messages : s'.messages = s.messages

/-- The entries were served: those that hung up are gone from `poll_fds` alone. -/
structure Swept (revents : List Revents) (s s' : Service) : Prop where
  eventFd : s'.eventFd = s.eventFd
  connectionFds : s'.connectionFds = s.connectionFds
  pollFds : s'.pollFds = (s.polled revents).filter fun p => !p.revents.hangsUp
  messages : s'.messages = s.messages

section Step

variable {platform : Platform} {s s' : Service}

theorem map_fd_polled {revents : List Revents} (h : revents.length = s.pollFds.length) :
    (s.polled revents).map PollFd.fd = s.fds := by
  calc (s.polled revents).map PollFd.fd
      = ((s.pollFds.zip revents).map Prod.fst).map PollFd.fd := by
        rw [polled, List.zip, List.map_zipWith, List.map_zipWith, List.map_zipWith]
    _ = s.fds := by rw [List.map_fst_zip h.ge, fds]

theorem handshake_cases (platform : Platform) (headers : StringMap) (fd : ℤ) (s : Service) :
    Quiet s (handleWebsocketHandshake platform headers fd s) ∨
      Added fd s (handleWebsocketHandshake platform headers fd s) := by
  rw [handleWebsocketHandshake, createNewWsConnection]
  split_ifs
  · exact Or.inl ⟨rfl, rfl, rfl, rfl⟩
  · exact Or.inr ⟨rfl, by simp [connectionFds, addSocketToTheList],
      by simp [fds, addSocketToTheList, PollFd.new], rfl⟩

/-- A step that serves the entries does so up to the last one. -/
theorem swept_of_step {revents : List Revents}
    (h : step platform s (.poll (some revents)) = some s') :
    revents.length = s.pollFds.length ∧ Swept revents s s' := by
  rw [step] at h
  split_ifs at h with hpoll
  have hlen : (s.polled revents).length = s.pollFds.length := by
    rw [polled, List.length_zipWith, hpoll.2, min_self]
  rcases hserve : serveEntries s.pollFds.length 0 { s with pollFds := s.polled revents }
    with e | s₁
  · rw [hserve] at h
    cases h
  · rw [hserve] at h
    cases h
    rw [← hlen] at hserve
    have hserved := served_serveEntries rfl
      (show serveEntries _ ([] : List PollFd).length _ = _ from hserve)
    exact ⟨hpoll.2, hserved.eventFd,
      congrArg (List.map WebsocketConnection.fd) hserved.connections, hserved.pollFds,
      hserved.messages⟩

/-- **What one step can do** to the two lists. -/
theorem step_cases {a : Label} (h : step platform s a = some s') :
    Quiet s s' ∨
      (∃ headers fd, a = .handshake headers fd ∧ s.owns fd = true ∧ Added fd s s') ∨
      ∃ revents, a = .poll (some revents) ∧ revents.length = s.pollFds.length ∧
        Swept revents s s' := by
  cases a with
  | accept a =>
    rw [step] at h
    split_ifs at h
    cases h
    exact Or.inl ⟨rfl, rfl, rfl, rfl⟩
  | close fd =>
    rw [step] at h
    split_ifs at h
    cases h
    exact Or.inl ⟨rfl, rfl, rfl, rfl⟩
  | handshake headers fd =>
    rw [step] at h
    split_ifs at h with howns
    cases h
    rcases handshake_cases platform headers fd s with hquiet | hadded
    · exact Or.inl hquiet
    · exact Or.inr (Or.inl ⟨headers, fd, rfl, howns, hadded⟩)
  | onMessage =>
    cases h
    exact Or.inl ⟨rfl, rfl, rfl, rfl⟩
  | install fd =>
    cases h
    refine Or.inl ⟨rfl, ?_, rfl, rfl⟩
    rw [connectionFds, List.map_map]
    refine List.map_congr_left fun it _ => ?_
    rw [Function.comp_apply]
    split_ifs <;> rfl
  | arrive fd piece q outbox =>
    rw [step] at h
    split_ifs at h
    cases h
    exact Or.inl ⟨rfl, rfl, rfl, rfl⟩
  | poll revents =>
    cases revents with
    | none =>
      rw [step] at h
      split_ifs at h
      cases h
      exact Or.inl ⟨rfl, rfl, rfl, rfl⟩
    | some revents => exact Or.inr (Or.inr ⟨revents, rfl, swept_of_step h⟩)

end Step

/-! ## The two lists -/

/-- The descriptors of `web_sockect_connections` are those of `poll_fds` other than the eventfd,
each once in both lists. -/
structure Paired (s : Service) : Prop where
  nodup_connectionFds : s.connectionFds.Nodup
  nodup_fds : s.fds.Nodup
  mem_iff : ∀ fd, fd ∈ s.connectionFds ↔ fd ∈ s.fds ∧ fd ≠ s.eventFd

/-- No entry hangs up. -/
def keepsEntries (s : Service) : Label → Bool
  | .poll (some revents) => (s.polled revents).all fun p => !p.revents.hangsUp
  | _ => true

/-- The lists are paired, and the eventfd is polled when there is one. -/
structure Kept (s : Service) : Prop where
  paired : s.Paired
  polled : s.eventFd = -1 ∨ s.eventFd ∈ s.fds

section Lists

variable {platform : Platform} {s s' : Service}

theorem kept_start (eventFd : ℤ) : Kept (start eventFd) := by
  by_cases h : eventFd = -1
  · exact ⟨⟨by simp [connectionFds, start], by simp [fds, start, h],
      by simp [connectionFds, fds, start, h]⟩, Or.inl h⟩
  · exact ⟨⟨by simp [connectionFds, start], by simp [fds, start, h],
      by simp [connectionFds, fds, start, h, PollFd.new]⟩,
      Or.inr (by simp [fds, start, h, PollFd.new])⟩

theorem Kept.quiet (h : Kept s) (hquiet : Quiet s s') : Kept s' := by
  obtain ⟨hevent, hconn, hfds, -⟩ := hquiet
  refine ⟨⟨hconn ▸ h.paired.nodup_connectionFds, hfds ▸ h.paired.nodup_fds, ?_⟩, ?_⟩
  · rw [hevent, hconn, hfds]
    exact h.paired.mem_iff
  · rw [hevent, hfds]
    exact h.polled

/-- A descriptor that the HTTP server owns is in neither list, and is not the eventfd. -/
theorem Kept.added (h : Kept s) {fd : ℤ} (howns : s.owns fd = true) (hadded : Added fd s s') :
    Kept s' := by
  obtain ⟨hevent, hconn, hfds, -⟩ := hadded
  rw [owns, Bool.and_eq_true, Bool.and_eq_true, decide_eq_true_eq, Bool.not_eq_true',
    List.contains_eq_mem, decide_eq_false_iff_not] at howns
  obtain ⟨⟨hpos, -⟩, hnew⟩ := howns
  have hne : fd ≠ s.eventFd := by
    rintro rfl
    rcases h.polled with hnone | hmem
    · omega
    · exact hnew hmem
  have hnew' : fd ∉ s.connectionFds := fun hmem => hnew ((h.paired.mem_iff fd).mp hmem).1
  refine ⟨⟨?_, ?_, fun fd' => ?_⟩, ?_⟩
  · rw [hconn, ← List.concat_eq_append]
    exact h.paired.nodup_connectionFds.concat hnew'
  · rw [hfds, ← List.concat_eq_append]
    exact h.paired.nodup_fds.concat hnew
  · rw [hconn, hfds, hevent, List.mem_append, List.mem_append, List.mem_singleton,
      h.paired.mem_iff, or_and_right]
    refine or_congr_right ⟨fun heq => ⟨heq, heq ▸ hne⟩, And.left⟩
  · rw [hevent, hfds]
    exact h.polled.imp_right (List.mem_append_left _)

/-- Without a hang-up, the entries served are those that were there. -/
theorem Swept.quiet {revents : List Revents} (hlen : revents.length = s.pollFds.length)
    (hsweep : Swept revents s s')
    (hok : s.keepsEntries (.poll (some revents)) = true) : Quiet s s' := by
  refine ⟨hsweep.eventFd, hsweep.connectionFds, ?_, hsweep.messages⟩
  rw [fds, hsweep.pollFds, List.filter_eq_self.mpr (List.all_eq_true.mp hok), map_fd_polled hlen]

theorem Kept.step {a : Label} (h : Kept s) (hok : s.keepsEntries a = true)
    (hstep : step platform s a = some s') : Kept s' := by
  rcases step_cases hstep with hquiet | ⟨headers, fd, -, howns, hadded⟩ |
    ⟨revents, rfl, hlen, hsweep⟩
  · exact h.quiet hquiet
  · exact h.added howns hadded
  · exact h.quiet (hsweep.quiet hlen hok)

/-- A client that hangs up stays in `web_sockect_connections`. -/
theorem Swept.not_paired {revents : List Revents} (hlen : revents.length = s.pollFds.length)
    (hsweep : Swept revents s s') (h : s.Paired) {p : PollFd} (hp : p ∈ s.polled revents)
    (hgone : p.revents.hangsUp = true) (hclient : p.fd ≠ s.eventFd) : ¬ s'.Paired := by
  intro h'
  have hfds := map_fd_polled hlen
  have hmem : p.fd ∈ s.connectionFds :=
    (h.mem_iff p.fd).mpr ⟨hfds ▸ List.mem_map_of_mem hp, hclient⟩
  have hleft := ((h'.mem_iff p.fd).mp (hsweep.connectionFds.symm ▸ hmem)).1
  rw [fds, hsweep.pollFds] at hleft
  obtain ⟨p', hp', heq⟩ := List.mem_map.mp hleft
  obtain ⟨hpolled, hstay⟩ := List.mem_filter.mp hp'
  have hnodup : ((s.polled revents).map PollFd.fd).Nodup := hfds ▸ h.nodup_fds
  rw [List.inj_on_of_nodup_map hnodup hpolled hp heq, hgone] at hstay
  cases hstay

/-- **The two lists.** In every run in which no entry hangs up, the descriptors of the two lists
are the same but for the eventfd, each once. In a state so reached, a step in which a client
hangs up leaves lists that differ. -/
theorem paired_of_reached (platform : Platform) (eventFd : ℤ) {s : Service}
    (hrun : Reached (step platform) (fun s a => s.keepsEntries a = true) (start eventFd) s) :
    s.Paired ∧ ∀ revents s', s.step platform (.poll (some revents)) = some s' →
      (∃ p ∈ s.polled revents, p.revents.hangsUp = true ∧ p.fd ≠ s.eventFd) → ¬ s'.Paired := by
  have hkept : Kept s := hrun.invariant (kept_start eventFd) fun s a s' h hok hstep =>
    h.step hok hstep
  refine ⟨hkept.paired, fun revents s' hstep => ?_⟩
  rintro ⟨p, hp, hgone, hclient⟩
  obtain ⟨hlen, hsweep⟩ := swept_of_step hstep
  exact hsweep.not_paired hlen hkept.paired hp hgone hclient

end Lists

/-- A client with a key is accepted and handed over. -/
def handedOver : List Label :=
  [.accept ⟨5, [], []⟩,
    .handshake ((∅ : StringMap).insert (lit "Sec-WebSocket-Key") (lit "a")) 5]

/-- It is in both lists. -/
theorem paired_handedOver : ∃ s : Service, s.fds = [3, 5] ∧ s.Paired := by
  have hrun : (run (step .plain) (fun s a => s.keepsEntries a = true) (start 3)
      handedOver).any (fun s => s.fds = [3, 5]) = true := by
    decide +kernel
  obtain ⟨s, hs, hfds⟩ := exists_reached hrun
  exact ⟨s, hfds, (paired_of_reached .plain 3 hs).1⟩

/-- It hangs up, and its object stays. -/
theorem not_paired_hangUp :
    ¬ ∀ s, Reached (step .plain) anyStep (start 3) s → s.Paired := by
  intro h
  have hrun : (run (step .plain) anyStep (start 3)
      (handedOver ++ [.poll (some [⟨false, false, false⟩, ⟨false, false, true⟩])])).any
        (fun s => s.fds = [3] ∧ s.connectionFds = [5]) = true := by
    decide +kernel
  obtain ⟨s, hs, hfds, hconn⟩ := exists_reached hrun
  have hmem := ((h s hs).mem_iff 5).mp (by simp [hconn])
  rw [hfds] at hmem
  exact absurd hmem.1 (by decide)

/-! ## The callbacks -/

/-- The callbacks of the connections were called once for each frame, in order, with its
payload. -/
def Delivered (s : Service) (frames : ℤ → List Frame) : Prop :=
  ∀ fd ∈ s.connectionFds,
    (s.messages.filter (·.connection = fd)).map WebsocketMessage.payload =
      (frames fd).map Frame.payload

/-- No callback is ever called. -/
theorem messages_of_reached {platform : Platform} {eventFd : ℤ} {s : Service}
    (hrun : Reached (step platform) anyStep (start eventFd) s) : s.messages = [] := by
  refine hrun.invariant (I := fun s => s.messages = []) rfl fun s a s' h _ hstep => ?_
  rcases step_cases hstep with hquiet | ⟨headers, fd, -, -, hadded⟩ | ⟨revents, -, -, hsweep⟩
  · rw [hquiet.messages, h]
  · rw [hadded.messages, h]
  · rw [hsweep.messages, h]

/-- **Which frames reach a callback.** In every state reached, with any callbacks installed in any
way: when the bytes that have arrived are those of frames, each frame was delivered exactly when
none has arrived. -/
theorem delivered_iff (platform : Platform) (eventFd : ℤ) {s : Service}
    (hrun : Reached (step platform) anyStep (start eventFd) s) (frames : ℤ → List Frame)
    (hframes : ∀ fd ∈ s.connectionFds, s.arrived fd = (frames fd).flatMap Frame.wire) :
    s.Delivered frames ↔ ∀ fd ∈ s.connectionFds, s.arrived fd = [] := by
  have hmessages := messages_of_reached hrun
  refine forall₂_congr fun fd hfd => ?_
  rw [hmessages, hframes fd hfd]
  cases frames fd with
  | nil => simp
  | cons f fs =>
    have hwire : f.wire ≠ [] := by simp [Frame.wire]
    simp [hwire]

/-- A text frame. -/
def greeting : Frame := textFrame (lit "Hello") (by decide)

/-- The client has a callback, its frame arrives, and `poll` reports it. -/
def greeted : List Label :=
  handedOver ++ [.onMessage, .install 5, .arrive 5 greeting.wire [some greeting.wire] [],
    .poll (some [⟨false, false, false⟩, ⟨true, false, false⟩])]

/-- The end of that run: everything was read. -/
theorem exists_greeted : ∃ s, Reached (step .plain) anyStep (start 3) s ∧
    s.webSockectConnections = [⟨5, true⟩] ∧ s.arrived 5 = greeting.wire ∧
      Conn.waiting (s.kernel.inbox 5) = [] := by
  have hrun : (run (step .plain) anyStep (start 3) greeted).any (fun s =>
      s.webSockectConnections = [⟨5, true⟩] ∧ s.arrived 5 = greeting.wire ∧
        Conn.waiting (s.kernel.inbox 5) = []) = true := by
    decide +kernel
  exact exists_reached hrun

/-- The frame is not delivered. -/
theorem delivered_greeted : ∃ s : Service, s.arrived 5 = greeting.wire ∧
    ¬ s.Delivered fun _ => [greeting] := by
  obtain ⟨s, hs, hconn, harrived, -⟩ := exists_greeted
  have hfds : s.connectionFds = [5] := by rw [connectionFds, hconn, List.map_singleton]
  have hmem : 5 ∈ s.connectionFds := by rw [hfds, List.mem_singleton]
  refine ⟨s, harrived, fun h => ?_⟩
  have hnone := (delivered_iff .plain 3 hs (fun _ => [greeting]) (by
    intro fd hfd
    rw [hfds, List.mem_singleton] at hfd
    rw [hfd, harrived, List.flatMap_singleton])).mp h 5 hmem
  rw [harrived] at hnone
  exact absurd hnone (by decide)

/-- A registered client with a callback sends a text frame, all of which is read. -/
theorem not_delivered_greeted :
    ¬ ∀ s frames, Reached (step .plain) anyStep (start 3) s →
      (∀ fd ∈ s.connectionFds, s.arrived fd = (frames fd).flatMap Frame.wire ∧
        (∀ f ∈ frames fd, f.opcode = textOpcode ∧ f.payload ≠ []) ∧
        Conn.waiting (s.kernel.inbox fd) = []) →
      (∀ it ∈ s.webSockectConnections, it.onMessageReceived = true) → s.Delivered frames := by
  intro h
  obtain ⟨s, hs, hconn, harrived, hread⟩ := exists_greeted
  have hfds : s.connectionFds = [5] := by rw [connectionFds, hconn, List.map_singleton]
  have hdelivered := h s (fun _ => [greeting]) hs (fun fd hfd => by
    rw [hfds, List.mem_singleton] at hfd
    subst hfd
    exact ⟨by rw [harrived, List.flatMap_singleton], by decide, hread⟩) (by simp [hconn])
  have := hdelivered 5 (by simp [hfds])
  rw [messages_of_reached hs] at this
  cases this

end Service

end SimpleServer
