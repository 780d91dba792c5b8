import SimpleServer.Foundations.Runs
import SimpleServer.Http.Server

/-!
# The poll loop

`tcp_poll_handler::accept_and_process_message` with `http_server::handle_connection_request` as
its connection handler, as a transition system. One step is a return of `poll`, the handling of
one entry of `poll_fds`, or a change that the network makes to a connection; the label holds what
the environment decides: the events, the connection accepted, the answers of the coming calls.

`create_server` has run: the listener is open and alone in the list.
-/

namespace SimpleServer

open Cxx Posix

/-- The bits of `revents` that the loop tests. -/
structure Revents where
  pollIn : Bool
  pollOut : Bool
  pollHup : Bool
  deriving DecidableEq

/-- `pollfd`, without the member `events` that is always `POLLIN`. -/
structure PollFd where
  fd : ℤ
  revents : Revents
  deriving DecidableEq

/-- `{fd, POLLIN, 0}`. -/
def PollFd.new (fd : ℤ) : PollFd := ⟨fd, false, false, false⟩

/-- Where the loop is: at `poll`, at an index of the `for` loop, behind the `while` loop, or
ended by an exception. -/
inductive Phase
  | polling
  | scanning (i : ℕ)
  | stopped
  | aborted
  deriving DecidableEq

/-- A `tcp_poll_handler` and the rest of the process. -/
structure Poll where
  serverFd : ℤ
  pollFds : List PollFd
  phase : Phase
  world : World

/-- What a run of the server is given: the code outside, and the routes. -/
structure Config where
  platform : Platform
  routes : RoutesMap

inductive Label
  /-- The network decides what the coming calls on a connection get. -/
  | net (a : Arrival)
  /-- `poll` returns with the events of all entries, or fails. -/
  | poll (revents : Option (List Revents))
  /-- The body of the `for` loop, with the connection that `accept` returns if it is called. -/
  | serve (accepted : Option Arrival)

/-- The branches of the body of the `for` loop. -/
inductive Branch
  | hangUp
  | output
  | accept
  | client
  | idle
  deriving DecidableEq

/-- A server without routes. -/
def bareConfig : Config where
  platform := .plain
  routes := ∅

/-- A request for a WebSocket. -/
def upgradeRequest : Bytes :=
  lit "GET /chat HTTP/1.1\r\nUpgrade: websocket\r\n" ++
    lit "Sec-WebSocket-Key: dGhlIHNhbXBsZSBub25jZQ==\r\n\r\n"

/-- A request for a page. -/
def plainRequest : Bytes := lit "GET / HTTP/1.1\r\n\r\n"

namespace Poll

/-- The state behind `create_server`. -/
def init (serverFd : ℤ) : Poll where
  serverFd := serverFd
  pollFds := [PollFd.new serverFd]
  phase := .polling
  world :=
    { kernel := ⟨fun fd => if fd = serverFd then some .listener else none, []⟩
      websocketDescriptor := ∅ }

/-- The branch taken for an entry. -/
def branch (s : Poll) (p : PollFd) : Branch :=
  if p.revents.pollHup then .hangUp
  else if p.revents.pollOut then .output
  else if p.revents.pollIn then
    if p.fd = s.serverFd then .accept else .client
  else .idle

/-- `remove_socket`. -/
def removeSocket (fd : ℤ) (s : Poll) : Poll :=
  if s.pollFds.any (·.fd = fd) then
    { s with
      world.kernel := s.world.kernel.close fd
      pollFds := s.pollFds.eraseP (·.fd = fd) }
  else s

/-- The branch of the listener: `accept`, `push_back`, `handle_incomming_connection`. -/
def acceptConnection (cfg : Config) (accepted : Option Arrival) (s : Poll) : Option Poll :=
  match s.world.kernel.accept s.serverFd accepted with
  | none => none
  | some (newConnection, kernel) =>
    let s : Poll :=
      { s with
        world.kernel := kernel
        pollFds := s.pollFds ++ [PollFd.new newConnection] }
    match handleConnectionRequest cfg.platform cfg.routes newConnection s.world with
    | .ok world => some { s with world }
    | .error _ => some { s with phase := .aborted }

/-- The result of `recv(client_fd, buffer, 2048, MSG_PEEK)` is at most `0`. -/
def disconnected (s : Poll) (clientFd : ℤ) : Bool :=
  (s.world.kernel.peek clientFd 2048).getD [] = []

/-- The branch of a client. -/
def serveClient (clientFd : ℤ) (s : Poll) : Poll :=
  if s.disconnected clientFd then
    if s.world.kernel.isOpen clientFd then
      removeSocket clientFd { s with world.kernel := s.world.kernel.close clientFd }
    else removeSocket clientFd s
  else
    match notifyMessageRequest clientFd s.world with
    | .ok world => { s with world }
    | .error _ => { s with phase := .aborted }

/-- The body of the `for` loop for the entry `p`. -/
def serveEntry (cfg : Config) (accepted : Option Arrival) (p : PollFd) (s : Poll) : Option Poll :=
  match s.branch p with
  | .hangUp => some (removeSocket p.fd s)
  | .output => some s
  | .accept => acceptConnection cfg accepted s
  | .client => some (serveClient p.fd s)
  | .idle => some s

/-- One step of the server. -/
def step (cfg : Config) (s : Poll) : Label → Option Poll
  | .net a => some { s with world.kernel := s.world.kernel.arrive a }
  | .poll revents =>
    if s.phase = .polling then
      match revents with
      | none => some { s with phase := .stopped }
      | some revents =>
        if revents.length = s.pollFds.length then
          some { s with
            pollFds := s.pollFds.zipWith (fun p r => { p with revents := r }) revents
            phase := .scanning 0 }
        else none
    else none
  | .serve accepted =>
    match s.phase with
    | .scanning i =>
      match s.pollFds[i]? with
      | none => some { s with phase := .polling }
      | some p => serveEntry cfg accepted p { s with phase := .scanning (i + 1) }
    | _ => none

/-- The entry that the `for` loop is at. -/
def current (s : Poll) : Option PollFd :=
  match s.phase with
  | .scanning i => s.pollFds[i]?
  | _ => none

/-- Does the loop remove an entry: it hung up, or has no more bytes to read. -/
def removes (s : Poll) (p : PollFd) : Bool :=
  s.branch p = .hangUp || (s.branch p = .client && s.disconnected p.fd)

/-! ## What a step does -/

/-- The descriptors in the list. -/
def fds (s : Poll) : List ℤ := s.pollFds.map PollFd.fd

/-- The same descriptors in the list, in the registry and open. -/
structure Quiet (s s' : Poll) : Prop where
  serverFd : s'.serverFd = s.serverFd
  fds : s'.fds = s.fds
  registry : s'.world.websocketDescriptor = s.world.websocketDescriptor
  grows : s.world.kernel.Grows s'.world.kernel

/-- The first entry of a descriptor is gone, and its number closed. -/
structure Removed (fd : ℤ) (s s' : Poll) : Prop where
  serverFd : s'.serverFd = s.serverFd
  fds : s'.fds = s.fds.erase fd
  registry : s'.world.websocketDescriptor = s.world.websocketDescriptor
  closed : s'.world.kernel.table fd = none
  table : ∀ fd', fd' ≠ fd → s'.world.kernel.table fd' = s.world.kernel.table fd'

/-- `accept` has returned `fd`, which is new in the list, and its request was handled, maybe with
an exception. -/
structure Accepted (cfg : Config) (accepted : Option Arrival) (fd : ℤ) (kernel : Kernel)
    (s s' : Poll) : Prop where
  accept : s.world.kernel.accept s.serverFd accepted = some (fd, kernel)
  serverFd : s'.serverFd = s.serverFd
  fds : s'.fds = s.fds ++ [fd]
  handled : handleConnectionRequest cfg.platform cfg.routes fd { s.world with kernel } =
      .ok s'.world ∨ s'.world = { s.world with kernel }

variable {cfg : Config} {s s' : Poll}

theorem map_fd_eraseP (l : List PollFd) (fd : ℤ) :
    (l.eraseP (·.fd = fd)).map PollFd.fd = (l.map PollFd.fd).erase fd := by
  induction l with
  | nil => rfl
  | cons p l ih =>
    rw [List.map_cons, List.erase_cons, List.eraseP_cons]
    by_cases h : p.fd = fd
    · simp [h]
    · simp [h, ih]

theorem map_fd_zipWith {l : List PollFd} {revents : List Revents}
    (h : revents.length = l.length) :
    (l.zipWith (fun p r => { p with revents := r }) revents).map PollFd.fd =
      l.map PollFd.fd := by
  calc (l.zipWith (fun p r => { p with revents := r }) revents).map PollFd.fd
      = ((l.zip revents).map Prod.fst).map PollFd.fd := by
        rw [List.zip, List.map_zipWith, List.map_zipWith, List.map_zipWith]
    _ = l.map PollFd.fd := by rw [List.map_fst_zip h.ge]

theorem removeSocket_of_mem {fd : ℤ} (h : fd ∈ s.fds) :
    removeSocket fd s =
      { s with
        world.kernel := s.world.kernel.close fd
        pollFds := s.pollFds.eraseP (·.fd = fd) } := by
  have hany : s.pollFds.any (·.fd = fd) = true := by
    obtain ⟨p, hp, rfl⟩ := List.mem_map.mp h
    exact List.any_eq_true.mpr ⟨p, hp, by simp⟩
  rw [removeSocket, if_pos hany]

theorem removed_removeSocket {fd : ℤ} (h : fd ∈ s.fds) : Removed fd s (removeSocket fd s) := by
  rw [removeSocket_of_mem h]
  exact ⟨rfl, map_fd_eraseP _ _, rfl, Function.update_self ..,
    fun fd' hne => Function.update_of_ne hne ..⟩

theorem mem_fds_of_current {p : PollFd} (h : s.current = some p) : p.fd ∈ s.fds := by
  rw [current] at h
  split at h
  · exact List.mem_map.mpr ⟨p, List.mem_of_getElem? h, rfl⟩
  · cases h

/-- A client is removed when it has disconnected, and else only served. -/
theorem serveClient_cases {fd : ℤ} (h : fd ∈ s.fds) :
    (s.disconnected fd = true ∧ Removed fd s (serveClient fd s)) ∨ Quiet s (serveClient fd s) := by
  rw [serveClient]
  split_ifs with hdis hopen
  · -- closed here and once more by `remove_socket`
    have hr : Removed fd _ _ := removed_removeSocket
      (s := { s with world.kernel := s.world.kernel.close fd }) h
    refine Or.inl ⟨hdis, hr.serverFd, hr.fds, hr.registry, hr.closed, fun fd' hne => ?_⟩
    rw [hr.table fd' hne]
    exact Function.update_of_ne hne ..
  · exact Or.inl ⟨hdis, removed_removeSocket h⟩
  · right
    split
    · rename_i world hok
      obtain ⟨hgrows, hreg⟩ := notifyMessageRequest_grows hok
      exact ⟨rfl, rfl, hreg, hgrows⟩
    · exact ⟨rfl, rfl, rfl, .refl _⟩

/-- The handler has returned, or thrown, which ends the loop. -/
theorem acceptConnection_inv {accepted : Option Arrival}
    (h : acceptConnection cfg accepted s = some s') :
    ∃ fd kernel, s.world.kernel.accept s.serverFd accepted = some (fd, kernel) ∧
      ((∃ world, handleConnectionRequest cfg.platform cfg.routes fd { s.world with kernel } =
          .ok world ∧ s' = { s with world, pollFds := s.pollFds ++ [PollFd.new fd] }) ∨
        s' = { s with
          world.kernel := kernel
          pollFds := s.pollFds ++ [PollFd.new fd]
          phase := .aborted }) := by
  rw [acceptConnection] at h
  rcases hacc : s.world.kernel.accept s.serverFd accepted with _ | ⟨fd, kernel⟩
  · rw [hacc] at h
    cases h
  · rw [hacc] at h
    simp only at h
    rcases hhandle : handleConnectionRequest cfg.platform cfg.routes fd
      { s.world with kernel } with e | world
    · rw [hhandle] at h
      cases h
      exact ⟨fd, kernel, rfl, Or.inr rfl⟩
    · rw [hhandle] at h
      cases h
      exact ⟨fd, kernel, rfl, Or.inl ⟨world, hhandle, rfl⟩⟩

theorem acceptConnection_cases {accepted : Option Arrival}
    (h : acceptConnection cfg accepted s = some s') :
    ∃ fd kernel, Accepted cfg accepted fd kernel s s' := by
  obtain ⟨fd, kernel, hacc, hs'⟩ := acceptConnection_inv h
  have hfds : (s.pollFds ++ [PollFd.new fd]).map PollFd.fd = s.fds ++ [fd] := by
    rw [List.map_append]
    rfl
  obtain ⟨world, hhandle, rfl⟩ | rfl := hs'
  · exact ⟨fd, kernel, hacc, rfl, hfds, Or.inl hhandle⟩
  · exact ⟨fd, kernel, hacc, rfl, hfds, Or.inr rfl⟩

/-- What the body of the `for` loop does for an entry. -/
theorem serveEntry_cases {accepted : Option Arrival} {p : PollFd} (hp : p.fd ∈ s.fds)
    (h : serveEntry cfg accepted p s = some s') :
    Quiet s s' ∨ (s.removes p = true ∧ Removed p.fd s s') ∨
      (s.branch p = .accept ∧ ∃ fd kernel, Accepted cfg accepted fd kernel s s') := by
  rw [serveEntry] at h
  cases hb : s.branch p with
  | hangUp =>
    rw [hb] at h
    cases h
    exact Or.inr (Or.inl ⟨by simp [removes, hb], removed_removeSocket hp⟩)
  | output =>
    rw [hb] at h
    cases h
    exact Or.inl ⟨rfl, rfl, rfl, .refl _⟩
  | accept =>
    rw [hb] at h
    exact Or.inr (Or.inr ⟨rfl, acceptConnection_cases h⟩)
  | client =>
    rw [hb] at h
    cases h
    rcases serveClient_cases hp with ⟨hdis, hr⟩ | hq
    · exact Or.inr (Or.inl ⟨by simp [removes, hb, hdis], hr⟩)
    · exact Or.inl hq
  | idle =>
    rw [hb] at h
    cases h
    exact Or.inl ⟨rfl, rfl, rfl, .refl _⟩

/-- A step of the `for` loop is its end or the handling of the entry that it is at. -/
theorem serve_cases {accepted : Option Arrival} (h : step cfg s (.serve accepted) = some s') :
    ∃ i, s.phase = .scanning i ∧
      ((s.pollFds[i]? = none ∧ s' = { s with phase := .polling }) ∨
        ∃ p, s.pollFds[i]? = some p ∧
          serveEntry cfg accepted p { s with phase := .scanning (i + 1) } = some s') := by
  rw [step] at h
  split at h
  · rename_i i hphase
    refine ⟨i, hphase, ?_⟩
    cases hp : s.pollFds[i]? with
    | none =>
      rw [hp] at h
      cases h
      exact Or.inl ⟨rfl, rfl⟩
    | some p =>
      rw [hp] at h
      exact Or.inr ⟨p, rfl, h⟩
  · cases h

theorem current_eq {i : ℕ} (h : s.phase = .scanning i) : s.current = s.pollFds[i]? := by
  rw [current, h]

/-- A step of the `for` loop at an entry handles that entry. -/
theorem serveEntry_of_current {accepted : Option Arrival} {p : PollFd}
    (hcurrent : s.current = some p) (h : step cfg s (.serve accepted) = some s') :
    ∃ i, s.phase = .scanning i ∧
      serveEntry cfg accepted p { s with phase := .scanning (i + 1) } = some s' := by
  obtain ⟨i, hphase, ⟨hnone, -⟩ | ⟨p', hp, hentry⟩⟩ := serve_cases h
  · rw [current_eq hphase, hnone] at hcurrent
    cases hcurrent
  · rw [current_eq hphase, hp] at hcurrent
    cases hcurrent
    exact ⟨i, hphase, hentry⟩

/-- **What one step can do**: change no descriptor, remove the entry that the loop is at, or
accept a connection and handle its request. -/
theorem step_cases {a : Label} (h : step cfg s a = some s') :
    Quiet s s' ∨
      (∃ accepted p, a = .serve accepted ∧ s.current = some p ∧ s.removes p = true ∧
        Removed p.fd s s') ∨
      ∃ accepted p fd kernel, a = .serve accepted ∧ s.current = some p ∧
        s.branch p = .accept ∧ Accepted cfg accepted fd kernel s s' := by
  cases a with
  | net a =>
    cases h
    exact Or.inl ⟨rfl, rfl, rfl, s.world.kernel.grows_arrive a⟩
  | poll revents =>
    unfold step at h
    split_ifs at h
    cases revents with
    | none =>
      cases h
      exact Or.inl ⟨rfl, rfl, rfl, .refl _⟩
    | some revents =>
      simp only at h
      split_ifs at h with hlen
      cases h
      exact Or.inl ⟨rfl, map_fd_zipWith hlen, rfl, .refl _⟩
  | serve accepted =>
    obtain ⟨i, hphase, ⟨-, rfl⟩ | ⟨p, hp, h⟩⟩ := serve_cases h
    · exact Or.inl ⟨rfl, rfl, rfl, .refl _⟩
    · have hcurrent : s.current = some p := (current_eq hphase).trans hp
      have hmem : p.fd ∈ s.fds := mem_fds_of_current hcurrent
      rcases serveEntry_cases (s := { s with phase := .scanning (i + 1) }) hmem h with
        hq | ⟨hrem, hr⟩ | ⟨hb, fd, kernel, hacc⟩
      · exact Or.inl ⟨hq.serverFd, hq.fds, hq.registry, hq.grows⟩
      · exact Or.inr (Or.inl ⟨accepted, p, rfl, hcurrent, hrem,
          hr.serverFd, hr.fds, hr.registry, hr.closed, hr.table⟩)
      · exact Or.inr (Or.inr ⟨accepted, p, fd, kernel, rfl, hcurrent, hb,
          hacc.accept, hacc.serverFd, hacc.fds, hacc.handled⟩)

end Poll

end SimpleServer
