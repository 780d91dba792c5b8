import SimpleServer.Tcp.PollTurns
import SimpleServer.WebSocket.Chat
import SimpleServer.WebSocket.View

/-!
# The poll server as a channel

`tcp_poll_handler` accepts WebSocket clients and others, and its loop calls
`notify_message_request` for those that `poll` reports. A `PollChat` is this server with the bytes
that the clients have still on their way: `poll` reports what it likes, the list of entries grows
and shrinks while the loop goes through it, and pieces of frames arrive at any moment.

`channel_of_reached` is about the runs in which no WebSocket client goes away and each call finds a
whole frame: whatever the other connections do, the loop then serves a channel with one order of
messages.
-/

namespace SimpleServer

open Cxx Inbox Posix Rfc6455 Runs Broadcast

theorem Apart.of_closes {fd : ℤ} {s s' : Poll} (h : Poll.Closes fd s s') :
    Apart fd s.world s'.world := by
  obtain ⟨calls, hlog, hcalls⟩ := h.log
  refine ⟨⟨calls, hlog, fun c _ => List.filterMap_eq_nil_iff.mpr fun call hcall => ?_⟩, h.table,
    h.registry⟩
  obtain ⟨wasOpen, rfl⟩ := hcalls call hcall
  rfl

/-- The poll server with the calls of `send` made on each client, and the bytes of each client that
are still on their way. -/
structure PollChat where
  poll : Poll
  ledger : ℤ → List Sending
  pending : ℤ → Bytes

namespace PollChat

def clients (s : PollChat) : Finset ℤ := s.poll.world.websocketDescriptor

/-- The server as its clients see it: without the list of the loop and the other connections. -/
def chat (s : PollChat) : Chat where
  feed := ⟨s.poll.world.restrict s.clients, s.ledger⟩
  pending := s.pending

/-- The server goes on to `p`, and the calls of `send` on clients are recorded. -/
def record (s : PollChat) (p : Poll) : PollChat where
  poll := p
  ledger c := if c ∈ p.world.websocketDescriptor then
    ((⟨s.poll.world, s.ledger⟩ : Feed).record p.world).ledger c else []
  pending := s.pending

inductive Label
  /-- A piece of a client's bytes arrives; the bytes not yet read are found cut as given. -/
  | arrive (fd : ℤ) (piece : Bytes) (cut : List Bytes) (outbox : List (Option ℕ))
  /-- Something happens to another connection. -/
  | net (a : Arrival)
  /-- `poll` returns with the events of all entries, or fails. -/
  | poll (revents : Option (List Revents))
  /-- The body of the `for` loop, with the connection that `accept` returns if it is called. -/
  | serve (accepted : Option Arrival)

def step (cfg : Config) (s : PollChat) : Label → Option PollChat
  | .arrive fd piece cut outbox =>
    if fd ∈ s.clients ∧ piece <+: s.pending fd ∧ (∀ seg ∈ cut, seg ≠ []) ∧
        cut.flatten = Conn.waiting (s.poll.world.kernel.inbox fd) ++ piece then
      (Poll.step cfg s.poll (.net ⟨fd, cut.map some, outbox⟩)).map fun p =>
        { s.record p with
          pending := Function.update s.pending fd ((s.pending fd).drop piece.length) }
    else none
  | .net a => if a.fd ∈ s.clients then none else (Poll.step cfg s.poll (.net a)).map s.record
  | .poll revents => (Poll.step cfg s.poll (.poll revents)).map s.record
  | .serve accepted => (Poll.step cfg s.poll (.serve accepted)).map s.record

/-- There is no client yet, and each is going to send its frames. -/
def start (serverFd : ℤ) (frames : ℤ → List Frame) : PollChat where
  poll := .init serverFd
  ledger _ := []
  pending fd := (frames fd).flatMap Frame.wire

/-- A connection sends nothing behind a request that is an upgrade. -/
def WaitsForAnswer (platform : Platform) (a : Arrival) : Prop :=
  (firstRequest a.inbox).any (fun request => upgrades platform request.headers) = true →
    (Inbox.recv 2048 a.inbox).2 = []

instance (platform : Platform) (a : Arrival) : Decidable (WaitsForAnswer platform a) :=
  inferInstanceAs (Decidable (_ → _))

/-- A client sends its frames when it has been answered, and does not go away: the loop finds a
whole frame when it is at its entry. -/
def Orderly (cfg : Config) (s : PollChat) : Label → Prop
  | .serve accepted => ∀ e, s.poll.current = some e →
    match s.poll.branch e with
    | .hangUp => e.fd ∉ s.clients
    | .accept => ∀ a, accepted = some a → WaitsForAnswer cfg.platform a
    | .client => s.chat.FindsWhole (.notify e.fd)
    | _ => True
  | _ => True

/-- The loop serves the channel, and its clients are open connections. -/
structure Serves (platform : Platform) (frames : ℤ → List Frame) (t : Channel ℤ (ℤ × Bytes))
    (s : PollChat) : Prop where
  channel : Chat.Represents platform frames t s.chat
  clients : ∀ c ∈ s.clients, ∃ conn, s.poll.world.kernel.table c = some (.conn conn)
  positive : s.poll.Positive

section Step

variable {cfg : Config} {frames : ℤ → List Frame} {t : Channel ℤ (ℤ × Bytes)} {s s' : PollChat}
  {p : Poll}

theorem record_feed (hclients : p.world.websocketDescriptor = s.clients) :
    (s.record p).chat.feed =
      ((⟨s.poll.world, s.ledger⟩ : Feed).record p.world).restrict s.clients := by
  rw [← hclients]
  rfl

theorem Serves.feed_eq (h : Serves cfg.platform frames t s) :
    s.chat.feed = (⟨s.poll.world, s.ledger⟩ : Feed).restrict s.clients := by
  refine congrArg (Feed.mk _) (funext fun c => ?_)
  split_ifs with hc
  · rfl
  · exact h.channel.others c hc

/-- What the clients see may be seen on a number that is not open too. -/
theorem Serves.feed_insert (h : Serves cfg.platform frames t s) {fd : ℤ}
    (hnone : s.poll.world.kernel.table fd = none) :
    s.chat.feed = (⟨s.poll.world, s.ledger⟩ : Feed).restrict (insert fd s.clients) := by
  rw [h.feed_eq]
  refine congrArg₂ Feed.mk ?_ (funext fun c => ?_)
  · exact congrArg (World.mk · s.clients) (Kernel.restrict_insert hnone).symm
  · by_cases hc : c = fd
    · subst hc
      have hledger : ∀ hnew : c ∉ s.clients, s.ledger c = [] := h.channel.others c
      by_cases hmem : c ∈ s.clients
      · simp [hmem]
      · simp [hmem, hledger hmem]
    · simp [hc]

/-- **What happens to other connections is not seen.** -/
theorem Serves.unseen (h : Serves cfg.platform frames t s) {fd : ℤ} (hfd : fd ∉ s.clients)
    (hapart : Apart fd s.poll.world p.world) (hpos : p.Positive) :
    Serves cfg.platform frames t (s.record p) := by
  obtain ⟨calls, hlog, hcalls⟩ := hapart.log
  have hne : ∀ c ∈ s.clients, c ≠ fd := fun c hc heq => hfd (heq ▸ hc)
  have hclients : p.world.websocketDescriptor = s.clients := hapart.registry
  have hrecord := record_feed hclients
  have hsends : Feed.Sends ∅ [] s.chat.feed (s.record p).chat.feed := by
    rw [h.feed_eq, hrecord]
    refine Feed.silent_restrict hlog (fun c hc => hcalls c (hne c hc)) fun c hc => ?_
    rw [Kernel.sentOn, hapart.table c (hne c hc), Kernel.sentOn]
  refine ⟨h.channel.silent hsends hclients fun c => (h.channel.authored c).of_eq ?_ rfl,
    fun c hc => ?_, hpos⟩
  · show (s.record p).chat.feed.world.kernel.inbox c = s.chat.feed.world.kernel.inbox c
    rw [h.feed_eq, hrecord]
    by_cases hc : c ∈ s.clients
    · refine (Kernel.inbox_restrict hc).trans (Eq.trans ?_ (Kernel.inbox_restrict hc).symm)
      show p.world.kernel.inbox c = _
      rw [Kernel.inbox, hapart.table c (hne c hc), Kernel.inbox]
    · exact (Kernel.inbox_restrict_of_notMem hc).trans (Kernel.inbox_restrict_of_notMem hc).symm
  · have hc : c ∈ s.clients := hclients ▸ hc
    obtain ⟨conn, hconn⟩ := h.clients c hc
    exact ⟨conn, (hapart.table c (hne c hc)).trans hconn⟩

theorem Serves.neg_one_notMem (h : Serves cfg.platform frames t s) : -1 ∉ s.clients := by
  intro hmem
  obtain ⟨conn, hconn⟩ := h.clients _ hmem
  exact absurd (h.positive _ conn hconn) (by decide)

theorem Serves.same (h : Serves cfg.platform frames t s) (hworld : p.world = s.poll.world) :
    Serves cfg.platform frames t (s.record p) := by
  refine h.unseen h.neg_one_notMem (hworld ▸ Apart.refl _ _) fun c conn hconn => ?_
  rw [hworld] at hconn
  exact h.positive c conn hconn

/-! ### A client is served -/

/-- A client of which a whole frame is found has not disconnected. -/
theorem Serves.not_disconnected (h : Serves cfg.platform frames t s) {fd : ℤ} (hfd : fd ∈ s.clients)
    (hfinds : s.chat.FindsWhole (.notify fd)) : s.poll.disconnected fd = false := by
  obtain ⟨f, segs, hinbox, hreads⟩ := hfinds hfd
  obtain ⟨-, -, segs', -, -, hinbox', hproper, -⟩ := h.channel.authored fd
  have hsame : segs = segs' :=
    List.map_injective_iff.mpr (Option.some_injective _) (hinbox.symm.trans hinbox')
  have hreal : s.poll.world.kernel.inbox fd = segs.map some :=
    (Kernel.inbox_restrict hfd).symm.trans hinbox
  have hlen := hreads.1.length_le
  cases segs with
  | nil => simp [Frame.wire] at hlen
  | cons seg segs =>
    have hne : seg ≠ [] := (hsame ▸ hproper) seg (List.mem_cons_self ..)
    rw [Poll.disconnected, Kernel.peek, hreal, List.map_cons, Inbox.peek, Inbox.recv]
    split_ifs <;> simp [hne]

/-- What a client wrote is sent to all clients. -/
theorem Serves.client (h : Serves cfg.platform frames t s) {fd : ℤ}
    (hfinds : s.chat.FindsWhole (.notify fd))
    (hnotify : notifyMessageRequest fd s.poll.world = .ok p.world) (hpos : p.Positive) :
    Serves cfg.platform frames t (s.record p) ∨
      ∃ e t', t.step e = some t' ∧ Serves cfg.platform frames t' (s.record p) := by
  have hgrows := (notifyMessageRequest_grows hnotify).1
  have hclients : p.world.websocketDescriptor = s.clients := (notifyMessageRequest_grows hnotify).2
  have hstep : Chat.step cfg.platform s.poll.serverFd s.chat (.notify fd) =
      some (s.record p).chat := by
    obtain ⟨calls, hlog, hother⟩ := offers_notifyMessageRequest hnotify
    have hrecord : s.chat.feed.record (p.world.restrict s.clients) = (s.record p).chat.feed := by
      rw [record_feed hclients, h.feed_eq]
      exact Feed.record_restrict (s := ⟨s.poll.world, s.ledger⟩) hlog hother
    have hseen : notifyMessageRequest fd s.chat.feed.world = .ok (p.world.restrict s.clients) :=
      notifyMessageRequest_restrict hnotify
    rw [Chat.step, Feed.step, hseen]
    exact congrArg (fun feed => some (⟨feed, s.pending⟩ : Chat)) hrecord
  have hopen : ∀ c ∈ (s.record p).clients, ∃ conn,
      (s.record p).poll.world.kernel.table c = some (.conn conn) := by
    intro c hc
    have hc : c ∈ s.clients := hclients ▸ hc
    obtain ⟨conn, hconn⟩ := h.clients c hc
    obtain ⟨conn', hconn', -⟩ := hgrows.conn hconn
    exact ⟨conn', hconn'⟩
  rcases h.channel.notify hfinds hstep with hsame | ⟨post, t', ht', hposted⟩
  · exact Or.inl ⟨hsame, hopen, hpos⟩
  · exact Or.inr ⟨.post post, t', ht', hposted, hopen, hpos⟩

/-- Bytes of a client arrive. -/
theorem Serves.arrive (h : Serves cfg.platform frames t s) {fd : ℤ} {piece : Bytes}
    {cut : List Bytes} {outbox : List (Option ℕ)}
    (hstep : step cfg s (.arrive fd piece cut outbox) = some s') :
    Serves cfg.platform frames t s' := by
  rw [step] at hstep
  split_ifs at hstep with harrive
  obtain ⟨hfd, hpiece, hproper, hcut⟩ := harrive
  obtain ⟨p, hp, rfl⟩ := Option.map_eq_some_iff.mp hstep
  have hpos : p.Positive := h.positive.step hp
  cases hp
  let a : Arrival := ⟨fd, cut.map some, outbox⟩
  have hgrows := s.poll.world.kernel.grows_arrive a
  obtain ⟨conn, hconn⟩ := h.clients fd hfd
  have htable : s.chat.feed.world.kernel.table fd = some (.conn conn) :=
    (Kernel.table_restrict hfd).trans hconn
  have hinbox : s.chat.inbox fd = s.poll.world.kernel.inbox fd := Kernel.inbox_restrict hfd
  have hrecord : s.chat.feed.record
      { s.chat.feed.world with kernel := s.chat.feed.world.kernel.arrive a } =
        ((⟨s.poll.world, s.ledger⟩ : Feed).record
          { s.poll.world with kernel := s.poll.world.kernel.arrive a }).restrict s.clients := by
    have hkernel : (s.poll.world.kernel.restrict s.clients).arrive a =
        (s.poll.world.kernel.arrive a).restrict s.clients := (Kernel.restrict_modify hfd _).symm
    have hlog : (s.poll.world.kernel.arrive a).log = s.poll.world.kernel.log ++ [] :=
      (Kernel.log_modify ..).trans (List.append_nil _).symm
    rw [← Feed.record_restrict (s := ⟨s.poll.world, s.ledger⟩) hlog fun _ _ => rfl, ← h.feed_eq]
    exact congrArg (fun k => s.chat.feed.record ⟨k, s.clients⟩) hkernel
  have hchat : Chat.step cfg.platform s.poll.serverFd s.chat (.arrive fd piece cut outbox) =
      some ⟨((⟨s.poll.world, s.ledger⟩ : Feed).record
          { s.poll.world with kernel := s.poll.world.kernel.arrive a }).restrict s.clients,
        Function.update s.pending fd ((s.pending fd).drop piece.length)⟩ := by
    have hisconn : s.chat.isConnection fd = true := by rw [Chat.isConnection, htable]
    rw [Chat.step, if_pos ⟨hfd, hisconn, hpiece, hproper, by rw [hinbox, hcut]⟩, ← hrecord]
    rfl
  refine ⟨h.channel.arrive hchat, fun c hc => ?_, hpos⟩
  obtain ⟨conn, hconn⟩ := h.clients c hc
  obtain ⟨conn', hconn', -⟩ := hgrows.conn hconn
  exact ⟨conn', hconn'⟩

/-! ### A connection is accepted -/

/-- A step in which nothing is sent needs no record of its own. -/
theorem record_record {f : Feed} {w₁ w₂ : World} {calls calls' : List SysCall}
    (hlog : w₁.kernel.log = f.world.kernel.log ++ calls)
    (hlog' : w₂.kernel.log = w₁.kernel.log ++ calls') (hcalls : ∀ c, Feed.offers c calls = [])
    (hsent : ∀ c, w₁.kernel.sentOn c = f.world.kernel.sentOn c) :
    (f.record w₁).record w₂ = f.record w₂ := by
  have hfirst : w₁.kernel.log.drop f.world.kernel.log.length = calls := by rw [hlog, List.drop_left]
  have hsecond : w₂.kernel.log.drop w₁.kernel.log.length = calls' := by rw [hlog', List.drop_left]
  have hboth : w₂.kernel.log.drop f.world.kernel.log.length = calls ++ calls' := by
    rw [hlog', hlog, List.append_assoc, List.drop_left]
  unfold Feed.record
  simp only [hfirst, hsecond, hboth, Feed.offers_append, hcalls, hsent, List.map_nil,
    List.append_nil, List.nil_append]

section Upgrade

variable {listener fd : ℤ} {a : Arrival} {kernel : Kernel}

theorem log_recv_accept
    (haccept : s.poll.world.kernel.accept listener (some a) = some (fd, kernel)) :
    (kernel.recv fd 2048).2.log = s.poll.world.kernel.log ++ [.accept fd] := by
  rw [← Kernel.log_accept haccept]
  exact Kernel.log_leave ..

theorem sentOn_recv_accept
    (haccept : s.poll.world.kernel.accept listener (some a) = some (fd, kernel)) (c : ℤ) :
    (kernel.recv fd 2048).2.sentOn c = s.poll.world.kernel.sentOn c := by
  rw [← Kernel.sentOn_accept haccept]
  exact Kernel.sentOn_leave ..

theorem Serves.notMem_accept (h : Serves cfg.platform frames t s)
    (haccept : s.poll.world.kernel.accept listener (some a) = some (fd, kernel)) :
    fd ∉ s.clients := by
  intro hmem
  obtain ⟨-, -, hnone, -⟩ := Kernel.of_accept_some haccept
  obtain ⟨conn, hc⟩ := h.clients fd hmem
  rw [hnone] at hc
  cases hc

/-- The clients, and the new connection as one of them, when its request was read. -/
def requestRead (s : PollChat) (fd : ℤ) (kernel : Kernel) : Chat where
  feed := ((⟨s.poll.world, s.ledger⟩ : Feed).record
    ⟨(kernel.recv fd 2048).2, s.clients⟩).restrict (insert fd s.clients)
  pending := s.pending

/-- Nothing is left of the request, and the other clients' bytes are where they were. -/
theorem Serves.inbox_requestRead (h : Serves cfg.platform frames t s)
    (haccept : s.poll.world.kernel.accept listener (some a) = some (fd, kernel))
    (hrest : (Inbox.recv 2048 (kernel.inbox fd)).2 = []) (c : ℤ) :
    (s.requestRead fd kernel).inbox c = s.chat.inbox c := by
  obtain ⟨-, -, -, htable⟩ := Kernel.of_accept_some haccept
  have hconn : kernel.table fd = some (.conn ⟨a.inbox, a.outbox, [], []⟩) := by
    rw [htable, Function.update_self]
  by_cases hc : c = fd
  · subst hc
    have hempty : (kernel.recv c 2048).2.inbox c = (Inbox.recv 2048 (kernel.inbox c)).2 :=
      Kernel.inbox_leave hconn _
    refine (Kernel.inbox_restrict (Finset.mem_insert_self ..)).trans ?_
    exact (hempty.trans hrest).trans
      (Kernel.inbox_restrict_of_notMem (h.notMem_accept haccept)).symm
  · have hsame : (kernel.recv fd 2048).2.inbox c = s.poll.world.kernel.inbox c := by
      have hread : (kernel.recv fd 2048).2.inbox c = kernel.inbox c := Kernel.inbox_modify_ne hc _
      rw [hread, Kernel.inbox, htable, Function.update_of_ne hc, Kernel.inbox]
    by_cases hmem : c ∈ s.clients
    · refine (Kernel.inbox_restrict (Finset.mem_insert_of_mem hmem)).trans ?_
      exact hsame.trans (Kernel.inbox_restrict hmem).symm
    · refine (Kernel.inbox_restrict_of_notMem ?_).trans
        (Kernel.inbox_restrict_of_notMem hmem).symm
      simp [hc, hmem]

/-- The channel is not changed by the request. -/
theorem Serves.represents_requestRead (h : Serves cfg.platform frames t s)
    (haccept : s.poll.world.kernel.accept listener (some a) = some (fd, kernel))
    (hrest : (Inbox.recv 2048 (kernel.inbox fd)).2 = []) :
    Chat.Represents cfg.platform frames t (s.requestRead fd kernel) := by
  obtain ⟨-, -, hnone, -⟩ := Kernel.of_accept_some haccept
  refine h.channel.silent ?_ rfl fun c =>
    (h.channel.authored c).of_eq (h.inbox_requestRead haccept hrest c) rfl
  rw [h.feed_insert hnone]
  exact Feed.silent_restrict (log_recv_accept haccept) (fun _ _ => rfl)
    fun c _ => sentOn_recv_accept haccept c

/-- The answer is sent on the new connection, which is registered. -/
theorem record_answer {bytes : Bytes}
    (haccept : s.poll.world.kernel.accept listener (some a) = some (fd, kernel))
    (hworld : p.world = ⟨(kernel.recv fd 2048).2.send fd bytes, insert fd s.clients⟩) :
    (s.record p).chat.feed = (s.requestRead fd kernel).feed.record
      ⟨(s.requestRead fd kernel).feed.world.kernel.send fd bytes, insert fd s.clients⟩ := by
  let f : Feed := ⟨s.poll.world, s.ledger⟩
  let read : World := ⟨(kernel.recv fd 2048).2, s.clients⟩
  have hlog : p.world.kernel.log = read.kernel.log ++ [.send fd bytes] := by
    rw [hworld]
    exact Kernel.log_send ..
  have hrecord : (s.record p).chat.feed = (f.record p.world).restrict (insert fd s.clients) := by
    have hclients : p.world.websocketDescriptor = insert fd s.clients := by rw [hworld]
    rw [← hclients]
    rfl
  have hother : ∀ c ∉ insert fd s.clients, Feed.offers c [.send fd bytes] = [] := by
    intro c hc
    have hne : fd ≠ c := fun heq => hc (heq ▸ Finset.mem_insert_self ..)
    simp [Feed.offers, hne]
  rw [hrecord, ← record_record (f := f) (log_recv_accept haccept) hlog (fun _ => rfl)
    (sentOn_recv_accept haccept), ← Feed.record_restrict (s := f.record read) hlog hother]
  refine congrArg (Feed.record (s.requestRead fd kernel).feed) ?_
  rw [hworld]
  exact congrArg (World.mk · _) (Kernel.restrict_send (Finset.mem_insert_self ..) _)

/-- A new client is answered, and joins the channel. -/
theorem Serves.upgrade (h : Serves cfg.platform frames t s)
    (haccept : s.poll.world.kernel.accept listener (some a) = some (fd, kernel))
    (hrest : (Inbox.recv 2048 (kernel.inbox fd)).2 = []) {key : Bytes}
    (hworld : p.world = ⟨(kernel.recv fd 2048).2.send fd (upgradeResponse cfg.platform key),
      insert fd s.clients⟩) (hpos : p.Positive) :
    ∃ e t', t.step e = some t' ∧ Serves cfg.platform frames t' (s.record p) := by
  have hnew := h.notMem_accept haccept
  have hread := h.represents_requestRead haccept hrest
  have hanswer := record_answer haccept hworld
  have hsends : Feed.Sends {fd} (upgradeResponse cfg.platform key)
      (s.requestRead fd kernel).feed (s.record p).chat.feed :=
    hanswer ▸ Feed.sends_answer (s.requestRead fd kernel).feed fd _ _
  have hjoined : t.joined fd = none := by
    by_contra hne
    exact hnew ((h.channel.members fd).mp hne)
  have hclients : (s.record p).clients = insert fd s.clients := by
    show p.world.websocketDescriptor = _
    rw [hworld]
  refine ⟨.join fd, t.join fd, if_pos hjoined, ?_, fun c hc => ?_, hpos⟩
  · refine hread.joined hnew hclients hsends fun c => (hread.authored c).of_eq ?_ rfl
    show (s.record p).chat.feed.world.kernel.inbox c = _
    rw [hanswer]
    exact Kernel.inbox_send ..
  · obtain ⟨-, -, -, htable⟩ := Kernel.of_accept_some haccept
    have hgrows : kernel.Grows p.world.kernel := by
      rw [hworld]
      exact (kernel.grows_recv fd _).trans (Kernel.grows_send _ _ _)
    have hold : ∃ conn, kernel.table c = some (.conn conn) := by
      by_cases heq : c = fd
      · exact ⟨_, heq ▸ htable ▸ Function.update_self ..⟩
      · rw [htable, Function.update_of_ne heq]
        exact h.clients c ((Finset.mem_insert.mp (hclients ▸ hc)).resolve_left heq)
    obtain ⟨conn, hc⟩ := hold
    obtain ⟨conn', hconn', -⟩ := hgrows.conn hc
    exact ⟨conn', hconn'⟩

end Upgrade

/-- A connection is accepted, and it joins the channel if it asks for an upgrade. -/
theorem Serves.accept (h : Serves cfg.platform frames t s) {q : Poll}
    (hq : q.world = s.poll.world) {accepted : Option Arrival}
    (hwaits : ∀ a, accepted = some a → WaitsForAnswer cfg.platform a)
    (hstep : Poll.acceptConnection cfg accepted q = some p) (hpos : p.Positive) :
    Serves cfg.platform frames t (s.record p) ∨
      ∃ e t', t.step e = some t' ∧ Serves cfg.platform frames t' (s.record p) := by
  obtain ⟨fd, kernel, haccept, hp⟩ := Poll.acceptConnection_inv hstep
  rw [hq] at haccept hp
  have hcases := Kernel.accept_cases haccept
  have hfd : fd ∉ s.clients := by
    intro hmem
    rcases hcases with ⟨-, rfl, -⟩ | ⟨a, -, -, -, hnone, -⟩
    · exact h.neg_one_notMem hmem
    · obtain ⟨conn, hconn⟩ := h.clients fd hmem
      rw [hnone] at hconn
      cases hconn
  have hfirst := Apart.accept haccept
  obtain ⟨world, hhandle, rfl⟩ | rfl := hp
  swap
  · exact Or.inl (h.unseen hfd hfirst hpos)
  have hhandled := handled_of_ok hhandle
  by_cases hplain : ∀ request, firstRequest (kernel.inbox fd) = some request →
      upgrades cfg.platform request.headers = false
  · exact Or.inl (h.unseen hfd (hfirst.trans (.of_handled hhandled hplain)) hpos)
  · simp only [not_forall, Bool.not_eq_false] at hplain
    obtain ⟨request, hrequest, hup⟩ := hplain
    rcases hcases with ⟨rfl, rfl, htable⟩ | ⟨a, rfl, rfl, -, -, -, htable⟩
    · rw [Kernel.inbox, htable, ← Kernel.inbox, h.positive.inbox_neg_one] at hrequest
      cases hrequest
    · have hinbox : kernel.inbox a.fd = a.inbox := by
        rw [Kernel.inbox, htable, Function.update_self]
      have hrest := hwaits a rfl (by rw [← hinbox, hrequest, Option.any_some, hup])
      rw [← hinbox] at hrest
      cases hhandled with
      | nothing hread =>
        have hnil : firstRequest (kernel.inbox a.fd) = none := by
          rw [firstRequest, hread]
          rfl
        rw [hnil] at hrequest
        cases hrequest
      | upgrade => exact Or.inr (h.upgrade haccept hrest rfl hpos)
      | response request' hrequest' hplain =>
        rw [show request' = request from Option.some.inj (hrequest'.symm.trans hrequest), hup]
          at hplain
        cases hplain

/-! ### One step -/

/-- The body of the loop for the entry that it is at. -/
theorem Serves.entry (h : Serves cfg.platform frames t s) {accepted : Option Arrival} {e : PollFd}
    (hcurrent : s.poll.current = some e) (hok : Orderly cfg s (.serve accepted)) {q : Poll}
    (hq : q.world = s.poll.world) (hbranch : q.branch e = s.poll.branch e)
    (hstep : Poll.serveEntry cfg accepted e q = some p) (hpos : p.Positive) :
    Serves cfg.platform frames t (s.record p) ∨
      ∃ e t', t.step e = some t' ∧ Serves cfg.platform frames t' (s.record p) := by
  have hok := hok e hcurrent
  rw [Poll.serveEntry, hbranch] at hstep
  cases hb : s.poll.branch e with
  | hangUp =>
    rw [hb] at hok hstep
    cases hstep
    exact Or.inl (h.unseen hok (hq ▸ .of_closes (Poll.closes_removeSocket e.fd q)) hpos)
  | accept =>
    rw [hb] at hok hstep
    exact h.accept hq hok hstep hpos
  | client =>
    rw [hb] at hok hstep
    cases hstep
    have hdis : q.disconnected e.fd = s.poll.disconnected e.fd := by
      rw [Poll.disconnected, Poll.disconnected, hq]
    by_cases hleaves : s.poll.disconnected e.fd = true
    · have hfd : e.fd ∉ s.clients := by
        intro hmem
        rw [h.not_disconnected hmem hok] at hleaves
        cases hleaves
      exact Or.inl (h.unseen hfd (hq ▸ .of_closes (Poll.closes_serveClient (hdis.trans hleaves)))
        hpos)
    · rw [← hdis] at hleaves
      rw [Poll.serveClient, if_neg hleaves, hq] at hpos ⊢
      rcases hnotify : notifyMessageRequest e.fd s.poll.world with err | w
      · exact Or.inl (h.same rfl)
      · rw [hnotify] at hpos
        exact h.client hok hnotify hpos
  | output =>
    rw [hb] at hstep
    cases hstep
    exact Or.inl (h.same hq)
  | idle =>
    rw [hb] at hstep
    cases hstep
    exact Or.inl (h.same hq)

/-- **What one step does to the channel**: a client joins, a frame is posted, or nothing. -/
theorem Serves.step (h : Serves cfg.platform frames t s) {a : Label} (hok : Orderly cfg s a)
    (hstep : step cfg s a = some s') :
    Serves cfg.platform frames t s' ∨
      ∃ e t', t.step e = some t' ∧ Serves cfg.platform frames t' s' := by
  cases a with
  | arrive fd piece cut outbox => exact Or.inl (h.arrive hstep)
  | net a =>
    rw [PollChat.step] at hstep
    split_ifs at hstep with hfd
    obtain ⟨p, hp, rfl⟩ := Option.map_eq_some_iff.mp hstep
    have hpos := h.positive.step hp
    cases hp
    have hapart : Apart a.fd s.poll.world
        { s.poll.world with kernel := s.poll.world.kernel.arrive a } :=
      ⟨⟨[], (Kernel.log_modify ..).trans (List.append_nil _).symm, fun _ _ => rfl⟩,
        fun _ hc => Kernel.table_modify_ne hc _, rfl⟩
    exact Or.inl (h.unseen hfd hapart hpos)
  | poll revents =>
    obtain ⟨p, hp, rfl⟩ := Option.map_eq_some_iff.mp hstep
    left
    unfold Poll.step at hp
    split_ifs at hp
    cases revents with
    | none =>
      cases hp
      exact h.same rfl
    | some revents =>
      simp only at hp
      split_ifs at hp
      cases hp
      exact h.same rfl
  | serve accepted =>
    obtain ⟨p, hp, rfl⟩ := Option.map_eq_some_iff.mp hstep
    have hpos := h.positive.step hp
    obtain ⟨i, hphase, ⟨-, rfl⟩ | ⟨e, he, hentry⟩⟩ := Poll.serve_cases hp
    · exact Or.inl (h.same rfl)
    · exact h.entry (q := { s.poll with phase := .scanning (i + 1) })
        ((Poll.current_eq hphase).trans he) hok rfl rfl hentry hpos

end Step

/-! ## The run -/

section Run

variable {cfg : Config} {serverFd : ℤ} {frames : ℤ → List Frame} {s : PollChat}

theorem serves_start (platform : Platform) (serverFd : ℤ) (frames : ℤ → List Frame) :
    Serves platform frames .empty (start serverFd frames) := by
  have htable : ∀ c, (start serverFd frames).chat.feed.world.kernel.table c = none :=
    fun c => Kernel.table_restrict_of_notMem (Finset.notMem_empty c)
  refine ⟨⟨fun c => ?_, fun c posts hview => ?_, fun c _ => rfl, fun c => ?_, fun fd => ?_⟩,
    fun c hc => absurd hc (Finset.notMem_empty c), fun c conn hc => ?_⟩
  · exact iff_of_false (fun h => h rfl) (Finset.notMem_empty c)
  · simp [Channel.view, Channel.empty] at hview
  · rw [Kernel.sentOn, htable]
    rfl
  · refine ⟨[], frames fd, [], rfl, rfl, ?_, by simp [Proper], rfl⟩
    rw [Chat.inbox, Kernel.inbox, htable]
    rfl
  · by_cases heq : c = serverFd <;> simp [start, Poll.init, heq] at hc

/-- **The poll server is a channel.** In every orderly run, whatever `poll` reports, whatever the
other connections do and however much the calls of `send` take, the server is for its clients in a
state of the channel: the posts of each client are a beginning of what its frames say, and a client
has been given the answer to its handshake and the posts since it joined. -/
theorem channel_of_reached (hrun : Reached (step cfg) (Orderly cfg) (start serverFd frames) s) :
    ∃ t : Channel ℤ (ℤ × Bytes), Reached Channel.step anyStep .empty t ∧
      Chat.Represents cfg.platform frames t s.chat ∧
      ∀ fd, Chat.postsOf fd t.posts <+: (frames fd).map textOf := by
  obtain ⟨t, ht, h⟩ := hrun.simulates_of_ok (serves_start cfg.platform serverFd frames)
    fun _ _ _ _ h hok hstep => h.step hok hstep
  refine ⟨t, ht, h.channel, fun fd => ?_⟩
  obtain ⟨done, todo, -, hframes, hposts, -⟩ := h.channel.authored fd
  rw [hposts, hframes, List.map_append]
  exact List.prefix_append _ _

end Run

/-! ## Two clients and a page -/

/-- The frame of client 5, as it is found. -/
def hiSegments : List Bytes := [hiFrame.wire.take 3, hiFrame.wire.drop 3]

/-- A decidable case of `Orderly`: the frame found is that of client 5. -/
def findsHi (platform : Platform) (s : PollChat) : Label → Bool
  | .serve accepted => s.poll.current.all fun e =>
    match s.poll.branch e with
    | .hangUp => false
    | .accept => accepted.all fun a => WaitsForAnswer platform a
    | .client => e.fd = 5 && s.chat.inbox 5 = hiSegments.map some
    | _ => true
  | _ => true

theorem orderly_of_findsHi {cfg : Config} {s : PollChat} {a : Label}
    (h : findsHi cfg.platform s a = true) : Orderly cfg s a := by
  have hreads : Reads hiFrame hiSegments := by
    refine ⟨?_, ?_, ?_, ?_⟩ <;> decide
  cases a with
  | serve accepted =>
    intro e he
    rw [findsHi, he] at h
    simp only [Option.all_some] at h
    cases hb : s.poll.branch e with
    | hangUp => simp [hb] at h
    | accept =>
      rintro a rfl
      simpa [hb] using h
    | client =>
      obtain ⟨hfd, hinbox⟩ : e.fd = 5 ∧ s.chat.inbox 5 = hiSegments.map some := by
        simpa [hb] using h
      exact fun _ => ⟨hiFrame, hiSegments, hfd ▸ hinbox, hreads⟩
    | output => trivial
    | idle => trivial
  | _ => trivial

/-- Client 5 is accepted, then a page is asked for, and client 6 gets the number of this connection,
which is still in the list. The frame of client 5 arrives in two pieces. -/
def hiLabels : List Label :=
  [.poll (some [.readable]), .serve (some ⟨5, [some upgradeRequest], []⟩), .serve none, .serve none,
    .poll (some [.readable, .unreported]), .serve (some ⟨6, [some plainRequest], []⟩),
    .arrive 5 (hiFrame.wire.take 3) [hiFrame.wire.take 3] [], .serve none, .serve none, .serve none,
    .poll (some [.readable, .unreported, .unreported]),
    .serve (some ⟨6, [some upgradeRequest], []⟩), .serve none, .serve none, .serve none,
    .serve none, .poll (some [.unreported, .readable, .unreported, .unreported]), .serve none,
    .arrive 5 (hiFrame.wire.drop 3) hiSegments []]

/-- The loop is at client 5, whose frame is there. -/
structure AtHi (s : PollChat) : Prop where
  phase : s.poll.phase = .scanning 1
  entry : s.poll.pollFds[1]? = some ⟨5, .readable⟩
  serverFd : s.poll.serverFd = 3
  inbox : s.poll.world.kernel.inbox 5 = hiSegments.map some
  clients : 5 ∈ s.clients ∧ 6 ∈ s.clients
  ledger : (s.ledger 6).length = 1

theorem reached_atHi : ∃ s, Reached (step bareConfig) (Orderly bareConfig)
    (start 3 Chat.oneAuthor) s ∧ AtHi s := by
  have hrun : (run (step bareConfig) (fun s a => findsHi bareConfig.platform s a = true)
      (start 3 Chat.oneAuthor) hiLabels).any (fun s =>
        (s.poll.phase = .scanning 1 ∧ s.poll.pollFds[1]? = some ⟨5, .readable⟩ ∧
          s.poll.serverFd = 3) ∧ s.poll.world.kernel.inbox 5 = hiSegments.map some ∧
        (5 ∈ s.clients ∧ 6 ∈ s.clients) ∧ (s.ledger 6).length = 1) = true := by
    decide +kernel
  obtain ⟨s, hs, ⟨hphase, hentry, hserver⟩, hinbox, hclients, hledger⟩ := exists_reached hrun
  exact ⟨s, hs.mono fun _ _ => orderly_of_findsHi,
    hphase, hentry, hserver, hinbox, hclients, hledger⟩

/-- Then the frame is sent to both. -/
theorem channel_hi : ∃ s : PollChat, (s.ledger 6).length = 2 ∧
    ∃ t : Channel ℤ (ℤ × Bytes), Reached Channel.step anyStep .empty t ∧
      Chat.Represents bareConfig.platform Chat.oneAuthor t s.chat ∧
      ∀ fd, Chat.postsOf fd t.posts <+: (Chat.oneAuthor fd).map textOf := by
  obtain ⟨s, hs, hat⟩ := reached_atHi
  have hcurrent : s.poll.current = some ⟨5, .readable⟩ := by
    rw [Poll.current_eq hat.phase, hat.entry]
  have hbranch : s.poll.branch ⟨5, .readable⟩ = .client := by
    simp [Poll.branch, Revents.readable, hat.serverFd]
  have hseen : s.chat.inbox 5 = hiSegments.map some :=
    (Kernel.inbox_restrict hat.clients.1).trans hat.inbox
  have hok : Orderly bareConfig s (.serve none) := by
    apply orderly_of_findsHi
    rw [findsHi, hcurrent]
    simp [hbranch, hseen]
  have hproper : Proper hiSegments := by
    unfold Proper
    decide
  have hreads : Reads hiFrame hiSegments := by
    refine ⟨?_, ?_, ?_, ?_⟩ <;> decide
  let k := s.poll.world.kernel.leave 5 ((skip hiFrame.wire.length hiSegments).map some)
  let w : World := ⟨broadcast s.clients (idMessage 5 (textOf hiFrame)) k, s.clients⟩
  have hnotify : notifyMessageRequest 5 s.poll.world = .ok w := by
    have hread := readFrame_frame hproper hreads []
    rw [List.append_nil, List.append_nil, ← hat.inbox] at hread
    rw [notifyMessageRequest, if_pos (show 5 ∈ s.poll.world.websocketDescriptor from hat.clients.1),
      hread]
    rfl
  have hstays : Poll.disconnected { s.poll with phase := .scanning 2 } 5 = false := by
    rw [Poll.disconnected, Kernel.peek, hat.inbox]
    decide
  have hstep : step bareConfig s (.serve none) =
      some (s.record { s.poll with phase := .scanning 2, world := w }) := by
    have hbranch' : Poll.branch { s.poll with phase := .scanning 2 } ⟨5, .readable⟩ = .client :=
      hbranch
    rw [step, Poll.step, hat.phase]
    simp only [hat.entry, Poll.serveEntry, hbranch', Poll.serveClient, hstays, hnotify]
    rfl
  refine ⟨_, ?_, channel_of_reached (hs.step hok hstep)⟩
  have hledger := (Feed.sends_broadcast ⟨s.poll.world, s.ledger⟩ 5
    ((skip hiFrame.wire.length hiSegments).map some) (idMessage 5 (textOf hiFrame))
    s.clients).ledger 6
  rw [if_pos hat.clients.2] at hledger
  show (if 6 ∈ s.clients then _ else _ : List Sending).length = 2
  rw [if_pos hat.clients.2]
  refine (congrArg List.length hledger).trans ?_
  rw [List.length_append]
  show (s.ledger 6).length + 1 = 2
  rw [hat.ledger]

end PollChat

end SimpleServer
