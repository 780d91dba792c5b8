import SimpleServer.Tcp.Poll

/-!
# The registry of the poll server

Every descriptor in `websocket_descriptor` should be an open connection whose own first request
was an upgrade and got its answer (`Upgraded`), so that messages go to WebSocket clients alone.
Nothing erases a descriptor from the registry: a client that hangs up or disconnects leaves its
number behind, and the next connection with that number gets the messages of the others.
`registry_of_reached` is the invariant for the runs in which no registered descriptor is removed
and every answer to an upgrade is taken whole.
-/

namespace SimpleServer

open Cxx Posix Runs

/-- The first request of a connection was an upgrade, and its answer was sent. -/
def HandshakeDone (platform : Platform) (c : Conn) : Prop :=
  ∃ first request, first <+: c.received ∧ firstRequest [some first] = some request ∧
    upgrades platform request.headers = true ∧
    upgradeResponse platform (findWebsocketKey platform request.headers) <+: c.sent

/-- An open connection whose handshake is done. -/
def Upgraded (platform : Platform) (k : Kernel) (fd : ℤ) : Prop :=
  ∃ c, k.table fd = some (.conn c) ∧ HandshakeDone platform c

/-- When the first request of a connection is an upgrade, its answer is taken whole. -/
def takesAnswer (platform : Platform) (a : Arrival) : Bool :=
  match firstRequest a.inbox with
  | none => true
  | some request =>
    !upgrades platform request.headers ||
      Conn.takes a.outbox
        (upgradeResponse platform (findWebsocketKey platform request.headers)).length

/-! ## The handling of one request -/

theorem HandshakeDone.mono {platform : Platform} {c c' : Conn} (h : HandshakeDone platform c)
    (hr : c.received <+: c'.received) (hs : c.sent <+: c'.sent) : HandshakeDone platform c' := by
  obtain ⟨first, request, hfirst, hrequest, hup, hsent⟩ := h
  exact ⟨first, request, hfirst.trans hr, hrequest, hup, hsent.trans hs⟩

theorem Upgraded.grows {platform : Platform} {k k' : Kernel} {fd : ℤ}
    (h : Upgraded platform k fd) (hk : k.Grows k') : Upgraded platform k' fd := by
  obtain ⟨c, hc, hdone⟩ := h
  obtain ⟨c', hc', hr, hs⟩ := hk.conn hc
  exact ⟨c', hc', hdone.mono hr hs⟩

/-- The first request depends on the bytes that the first call of `recv` takes alone. -/
theorem exists_first {q : Inbox} {request : HttpRequest} (h : firstRequest q = some request) :
    ∃ first q', Inbox.recv 2048 q = (some first, q') ∧
      firstRequest [some first] = some request := by
  rcases hrecv : Inbox.recv 2048 q with ⟨_ | first, q'⟩
  · simp [firstRequest, receivedText, hrecv] at h
  · refine ⟨first, q', rfl, ?_⟩
    have hone : Inbox.recv 2048 [some first] = (some first, []) := by
      rw [Inbox.recv, if_pos (Inbox.recv_length_le hrecv)]
    rw [← h]
    simp only [firstRequest, receivedText, hrecv, hone]

/-- An upgrade of a connection just accepted completes its handshake. -/
theorem upgraded_of_upgrade {platform : Platform} {k : Kernel} {fd : ℤ} {a : Arrival}
    (hconn : k.table fd = some (.conn ⟨a.inbox, a.outbox, [], []⟩)) {request : HttpRequest}
    (hrequest : firstRequest a.inbox = some request)
    (hup : upgrades platform request.headers = true) (htakes : takesAnswer platform a = true) :
    Upgraded platform ((k.recv fd 2048).2.send fd
      (upgradeResponse platform (findWebsocketKey platform request.headers))) fd := by
  obtain ⟨first, q', hrecv, hfirst⟩ := exists_first hrequest
  simp only [takesAnswer, hrequest, hup, Bool.not_true, Bool.false_or] at htakes
  have hrec : ((⟨a.inbox, a.outbox, [], []⟩ : Conn).leave q').received = first :=
    Conn.received_leave_recv (c := ⟨a.inbox, a.outbox, [], []⟩) hrecv
  have htable := Kernel.table_recv_conn hconn 2048
  rw [hrecv] at htable
  refine ⟨_, Kernel.table_send_conn htable _, first, request, ?_, hfirst, hup, ?_⟩
  · rw [Conn.received_push, hrec]
  · rw [Conn.sent_push htakes]
    exact List.prefix_rfl

/-! ## The invariant -/

/-- Registered descriptors are upgraded connections, and connections have proper numbers. -/
structure Registry (platform : Platform) (w : World) : Prop where
  upgraded : ∀ fd ∈ w.websocketDescriptor, Upgraded platform w.kernel fd
  nonneg : ∀ fd c, w.kernel.table fd = some (.conn c) → 0 ≤ fd

section Registry

variable {platform : Platform} {routes : RoutesMap} {w w' : World} {fd : ℤ}

theorem Registry.grows (h : Registry platform w)
    (hreg : w'.websocketDescriptor = w.websocketDescriptor)
    (hgrows : w.kernel.Grows w'.kernel) : Registry platform w' where
  upgraded := by
    intro fd hfd
    rw [hreg] at hfd
    exact (h.upgraded fd hfd).grows hgrows
  nonneg := by
    intro fd c hc
    obtain ⟨c', hc'⟩ := hgrows.conn_of hc
    exact h.nonneg fd c' hc'

/-- Closing a number that is not registered. -/
theorem Registry.closed (h : Registry platform w)
    (hreg : w'.websocketDescriptor = w.websocketDescriptor) (hfd : fd ∉ w.websocketDescriptor)
    (hclosed : w'.kernel.table fd = none)
    (htable : ∀ fd', fd' ≠ fd → w'.kernel.table fd' = w.kernel.table fd') :
    Registry platform w' where
  upgraded := by
    intro fd' hfd'
    rw [hreg] at hfd'
    have hne : fd' ≠ fd := fun e => hfd (e ▸ hfd')
    obtain ⟨c, hc, hdone⟩ := h.upgraded fd' hfd'
    exact ⟨c, (htable fd' hne).trans hc, hdone⟩
  nonneg := by
    intro fd' c hc
    by_cases hne : fd' = fd
    · rw [hne, hclosed] at hc
      cases hc
    · rw [htable fd' hne] at hc
      exact h.nonneg fd' c hc

/-- A number returned by `accept` is not registered, as it was not open. -/
theorem Registry.accept (h : Registry platform w) {kernel : Kernel} {a : Arrival}
    (hfree : w.kernel.table fd = none) (hpos : 0 ≤ fd)
    (htable : kernel.table =
      Function.update w.kernel.table fd (some (.conn ⟨a.inbox, a.outbox, [], []⟩))) :
    fd ∉ w.websocketDescriptor ∧ Registry platform { w with kernel } := by
  have hfd : fd ∉ w.websocketDescriptor := by
    intro hmem
    obtain ⟨c, hc, -⟩ := h.upgraded fd hmem
    rw [hfree] at hc
    cases hc
  refine ⟨hfd, ⟨?_, ?_⟩⟩
  · intro fd' hfd'
    have hne : fd' ≠ fd := fun e => hfd (e ▸ hfd')
    obtain ⟨c, hc, hdone⟩ := h.upgraded fd' hfd'
    refine ⟨c, ?_, hdone⟩
    rw [htable, Function.update_of_ne hne]
    exact hc
  · intro fd' c hc
    by_cases hne : fd' = fd
    · rw [hne]
      exact hpos
    · rw [htable, Function.update_of_ne hne] at hc
      exact h.nonneg fd' c hc

/-- The first request of a connection just accepted: an upgrade registers it with its handshake
done, and anything else leaves the registry as it is. -/
theorem Registry.handled (h : Registry platform w) (hfd : fd ∉ w.websocketDescriptor)
    {a : Arrival} (hconn : w.kernel.table fd = some (.conn ⟨a.inbox, a.outbox, [], []⟩))
    (htakes : takesAnswer platform a = true)
    (hok : handleConnectionRequest platform routes fd w = .ok w') : Registry platform w' := by
  have hinbox : w.kernel.inbox fd = a.inbox := by rw [Kernel.inbox, hconn]
  have hrecv := w.kernel.grows_recv fd 2048
  have hsent : ∀ bytes, Registry platform
      { w with kernel := (w.kernel.recv fd 2048).2.send fd bytes } := fun bytes =>
    h.grows rfl (hrecv.trans (Kernel.grows_send _ fd bytes))
  cases handled_of_ok hok with
  | nothing hread => exact h.grows rfl hrecv
  | upgrade request hrequest hup =>
    rw [hinbox] at hrequest
    refine ⟨?_, (hsent _).nonneg⟩
    intro fd' hfd'
    rcases Finset.mem_insert.mp hfd' with rfl | hfd'
    · exact upgraded_of_upgrade hconn hrequest hup htakes
    · exact (hsent _).upgraded fd' hfd'
  | response request hrequest hup response closefd hrespond =>
    cases closefd with
    | false => exact hsent response
    | true =>
      exact (hsent response).closed rfl hfd (Function.update_self ..) fun fd' hne =>
        Function.update_of_ne hne ..

end Registry

namespace Poll

/-- No registered descriptor is removed from the list, and every answer to an upgrade is taken
whole. -/
def keepsRegistry (cfg : Config) (s : Poll) : Label → Bool
  | .serve accepted =>
    match s.current with
    | none => true
    | some p =>
      if s.removes p then p.fd ∉ s.world.websocketDescriptor
      else
        match s.branch p, accepted with
        | .accept, some a => takesAnswer cfg.platform a
        | _, _ => true
  | _ => true

theorem registry_step {cfg : Config} {s s' : Poll} (h : Registry cfg.platform s.world) {a : Label}
    (hok : keepsRegistry cfg s a = true) (hstep : step cfg s a = some s') :
    Registry cfg.platform s'.world := by
  rcases step_cases hstep with hq | ⟨accepted, p, rfl, hcurrent, hrem, hr⟩ |
    ⟨accepted, p, fd, kernel, rfl, hcurrent, hb, hacc⟩
  · exact h.grows hq.registry hq.grows
  · simp only [keepsRegistry, hcurrent, hrem, if_true, decide_eq_true_eq] at hok
    exact h.closed hr.registry hok hr.closed hr.table
  · have hrem : s.removes p = false := by simp [removes, hb]
    rcases Kernel.accept_cases hacc.accept with
      ⟨-, rfl, htable⟩ | ⟨a, rfl, -, hpos, hfree, -, htable⟩
    · -- `-1` is no connection, and its first read fails
      have hkernel : Registry cfg.platform { s.world with kernel } :=
        h.grows rfl fun fd => by rw [htable]; exact .refl _
      rcases hacc.handled with hok' | hworld
      · have hinbox : kernel.inbox (-1) = [] := by
          rw [Kernel.inbox]
          split
          · rename_i c hc
            exact absurd (hkernel.nonneg (-1) c hc) (by omega)
          · rfl
        obtain ⟨hgrows, hreg⟩ := handleConnectionRequest_nothing hok' hinbox
        exact hkernel.grows hreg hgrows
      · rw [hworld]
        exact hkernel
    · simp only [keepsRegistry, hcurrent, hrem, hb, Bool.false_eq_true, if_false] at hok
      obtain ⟨hfd, hkernel⟩ := h.accept hfree hpos htable
      rcases hacc.handled with hok' | hworld
      · refine hkernel.handled hfd ?_ hok hok'
        rw [htable, Function.update_self]
      · rw [hworld]
        exact hkernel

/-- The calls of `send` in `notify_message_request` go to registered descriptors. -/
theorem mem_of_send_mem_callsOf {w : World} {client fd : ℤ} {bytes : Bytes}
    (h : .send fd bytes ∈ callsOf w (notifyMessageRequest client w)) :
    fd ∈ w.websocketDescriptor := by
  by_cases hclient : client ∈ w.websocketDescriptor
  · rcases hread : readFrame (w.kernel.inbox client) with e | ⟨str, q⟩
    · simp [notifyMessageRequest, hclient, hread, callsOf] at h
    · rw [callsOf_notifyMessageRequest hclient hread] at h
      obtain ⟨fd', hmem, heq⟩ := List.mem_map.mp h
      cases heq
      exact mem_ascending.mp hmem
  · simp [notifyMessageRequest, hclient, callsOf] at h

/-- **The registry.** In every run from the state behind `create_server` in which no registered
descriptor is removed from the list and every answer to an upgrade is taken whole, the registered
descriptors are at every moment open connections whose handshake is done, and
`notify_message_request` sends to no others. -/
theorem registry_of_reached (cfg : Config) (serverFd : ℤ) {s : Poll}
    (hrun : Reached (step cfg) (fun s a => keepsRegistry cfg s a = true) (init serverFd) s) :
    (∀ fd ∈ s.world.websocketDescriptor, Upgraded cfg.platform s.world.kernel fd) ∧
    ∀ client fd bytes, .send fd bytes ∈ callsOf s.world (notifyMessageRequest client s.world) →
      Upgraded cfg.platform s.world.kernel fd := by
  have hinit : Registry cfg.platform (init serverFd).world := by
    refine ⟨by simp [init], ?_⟩
    intro fd c hc
    simp only [init] at hc
    split_ifs at hc
    cases hc
  have h : Registry cfg.platform s.world :=
    hrun.invariant (I := fun s => Registry cfg.platform s.world) hinit
      fun _ _ _ h hok hstep => registry_step h hok hstep
  exact ⟨h.upgraded, fun client fd bytes hsend => h.upgraded fd (mem_of_send_mem_callsOf hsend)⟩

/-- A WebSocket client connects, and its answer is taken. -/
theorem registry_upgrade : ∃ s : Poll, s.world.websocketDescriptor = {5} ∧
    Upgraded bareConfig.platform s.world.kernel 5 := by
  let labels : List Label :=
    [.poll (some [⟨true, false, false⟩]), .serve (some ⟨5, [some upgradeRequest], []⟩)]
  have hrun : (run (step bareConfig) (fun s a => keepsRegistry bareConfig s a = true) (init 3)
      labels).any (fun s => s.world.websocketDescriptor = {5}) = true := by
    decide +kernel
  obtain ⟨s, hs, hend⟩ := exists_reached hrun
  refine ⟨s, hend, (registry_of_reached bareConfig 3 hs).1 5 ?_⟩
  rw [hend]
  exact Finset.mem_singleton_self 5

/-- The client hangs up, and its number goes to a connection on which nothing has been sent: the
number is still registered. -/
theorem not_registry_reused :
    ¬ ∀ s, Reached (step bareConfig) anyStep (init 3) s →
      ∀ fd ∈ s.world.websocketDescriptor, Upgraded bareConfig.platform s.world.kernel fd := by
  let labels : List Label :=
    [.poll (some [⟨true, false, false⟩]), .serve (some ⟨5, [some upgradeRequest], []⟩),
      .serve none, .serve none, .poll (some [⟨false, false, false⟩, ⟨true, false, true⟩]),
      .serve none, .serve none, .serve none, .poll (some [⟨true, false, false⟩]),
      .serve (some ⟨5, [], []⟩)]
  have hrun : (run (step bareConfig) anyStep (init 3) labels).any (fun s =>
      5 ∈ s.world.websocketDescriptor ∧
        s.world.kernel.table 5 = some (.conn ⟨[], [], [], []⟩)) = true := by
    decide +kernel
  intro h
  obtain ⟨s, hs, hend⟩ := exists_reached hrun
  obtain ⟨c, hc, first, request, hfirst, hrequest, -⟩ := h s hs 5 hend.1
  rw [hend.2] at hc
  cases hc
  rw [List.prefix_nil.mp hfirst] at hrequest
  have hnone : firstRequest [some []] = none := rfl
  rw [hnone] at hrequest
  cases hrequest

end Poll

end SimpleServer
