import SimpleServer.Tcp.PollProgress
import SimpleServer.Tcp.Threads

/-!
# The connections of the poll server

`tcp_poll_handler` handles a connection where it accepts it, between the calls for the other entries
of its list. A `PollTrace` is the server with the calls of each of its steps.

`turns_of_reached` says what the calls of any run are made of: for each result of `accept` those of
a call of `handle_connection_request` that is alone, and besides them nothing but closings and
frames that repeat what a client wrote.
-/

namespace SimpleServer

open Cxx Posix Runs ThreadedServer

/-- There is something to read, and nothing else. -/
def Revents.readable : Revents := ⟨true, false, false⟩

/-- Nothing is reported. -/
def Revents.unreported : Revents := ⟨false, false, false⟩

/-- The calls of a step, and the result of `accept` if it calls it. -/
structure Turn where
  accepted : Option Arrival
  calls : List SysCall

/-- The calls handle the connection as if it were alone, or close a number, or send what one of some
clients wrote to all of them. -/
def Turn.Justified (cfg : Config) (clients : Finset ℤ) (e : Turn) : Prop :=
  match e.accepted with
  | some a => e.calls = callsAlone cfg.platform cfg.routes a
  | none => (∃ fd, ∀ call ∈ e.calls, ∃ wasOpen, call = .close fd wasOpen) ∨
      ∃ D ⊆ clients, ∃ author ∈ D, ∃ text,
        e.calls = (ascending D).map fun c => .send c (frameBytes (idMessage author text))

theorem Turn.Justified.mono {cfg : Config} {D D' : Finset ℤ} {e : Turn} (h : e.Justified cfg D)
    (hD : D ⊆ D') : e.Justified cfg D' := by
  obtain ⟨accepted, calls⟩ := e
  cases accepted with
  | some a => exact h
  | none =>
    rcases h with hclose | ⟨E, hE, hsend⟩
    · exact Or.inl hclose
    · exact Or.inr ⟨E, hE.trans hD, hsend⟩

theorem callsAlone_noArrival (platform : Platform) (routes : RoutesMap) :
    callsAlone platform routes Threads.noArrival = [.accept (-1)] := by
  have hnil : receivedText ((alone Threads.noArrival).kernel.inbox Threads.noArrival.fd) = .ok [] :=
    rfl
  rw [callsAlone, handleConnectionRequest_of_nil hnil]
  rfl

/-- The poll server, with the calls of its steps so far. -/
structure PollTrace where
  poll : Poll
  turns : List Turn

namespace PollTrace

/-- The result of `accept` in a step that calls it. -/
def accepted (s : PollTrace) : Label → Option Arrival
  | .serve accepted =>
    if s.poll.current.any (fun p => s.poll.branch p = .accept) then
      some (accepted.getD Threads.noArrival)
    else none
  | _ => none

def step (cfg : Config) (s : PollTrace) (a : Label) : Option PollTrace :=
  (Poll.step cfg s.poll a).map fun p =>
    ⟨p, s.turns ++ [⟨s.accepted a, p.world.kernel.log.drop s.poll.world.kernel.log.length⟩]⟩

def start (serverFd : ℤ) : PollTrace := ⟨.init serverFd, []⟩

end PollTrace

/-! ## One step -/

namespace Poll

variable {cfg : Config} {s s' : Poll} {accepted : Option Arrival} {fd : ℤ}

/-- No connection is on a negative number. -/
def Positive (s : Poll) : Prop := ∀ c conn, s.world.kernel.table c = some (.conn conn) → 0 ≤ c

theorem Positive.inbox_neg_one (h : s.Positive) : s.world.kernel.inbox (-1) = [] := by
  by_contra hne
  obtain ⟨conn, hconn⟩ := Kernel.exists_conn hne
  exact absurd (h _ conn hconn) (by decide)

theorem subset_step {a : Label} (hstep : step cfg s a = some s') :
    s.world.websocketDescriptor ⊆ s'.world.websocketDescriptor := by
  rcases step_cases hstep with hquiet | ⟨_, _, -, -, -, hremoved⟩ |
    ⟨_, _, fd, kernel, -, -, -, haccepted⟩
  · exact hquiet.registry.ge
  · exact hremoved.registry.ge
  · rcases haccepted.handled with hhandle | hworld
    · exact (handled_of_ok hhandle).subset
    · rw [hworld]

theorem Positive.step (h : s.Positive) {a : Label} (hstep : step cfg s a = some s') :
    s'.Positive := by
  intro c conn hconn
  rcases step_cases hstep with hquiet | ⟨_, p, -, -, -, hremoved⟩ |
    ⟨_, _, fd, kernel, -, -, -, haccepted⟩
  · obtain ⟨conn', hconn'⟩ := hquiet.grows.conn_of hconn
    exact h c conn' hconn'
  · by_cases hc : c = p.fd
    · rw [hc, hremoved.closed] at hconn
      cases hconn
    · rw [hremoved.table c hc] at hconn
      exact h c conn hconn
  · obtain ⟨conn', hconn'⟩ : ∃ conn', kernel.table c = some (.conn conn') := by
      rcases haccepted.handled with hhandle | hworld
      · exact (handled_of_ok hhandle).conn_of hconn
      · rw [hworld] at hconn
        exact ⟨conn, hconn⟩
    rcases Kernel.accept_cases haccepted.accept with ⟨-, -, htable⟩ | ⟨a, -, -, hpos, -, -, htable⟩
    · rw [htable] at hconn'
      exact h c conn' hconn'
    · by_cases hc : c = fd
      · exact hc ▸ hpos
      · rw [htable, Function.update_of_ne hc] at hconn'
        exact h c conn' hconn'

/-- What is added to the calls so far. -/
def Adds (cfg : Config) (accepted : Option Arrival) (s s' : Poll) : Prop :=
  ∃ calls, s'.world.kernel.log = s.world.kernel.log ++ calls ∧
    (⟨accepted, calls⟩ : Turn).Justified cfg s'.world.websocketDescriptor

theorem adds_nothing (hlog : s'.world.kernel.log = s.world.kernel.log) :
    Adds cfg none s s' :=
  ⟨[], by rw [hlog, List.append_nil], Or.inl ⟨0, by simp⟩⟩

/-- Nothing is called for the result of a call of `accept` that failed. -/
theorem log_acceptConnection_failed (hpos : s.Positive)
    (h : acceptConnection cfg none s = some s') :
    s'.world.kernel.log = s.world.kernel.log ++ [.accept (-1)] := by
  obtain ⟨fd, kernel, haccept, hs'⟩ := acceptConnection_inv h
  obtain ⟨rfl, htable⟩ := Kernel.of_accept_none haccept
  have hnil : receivedText (kernel.inbox (-1)) = .ok [] := by
    rw [Kernel.inbox, htable, ← Kernel.inbox, hpos.inbox_neg_one]
    rfl
  rw [← Kernel.log_accept haccept]
  obtain ⟨world, hhandle, rfl⟩ | rfl := hs'
  · rw [handleConnectionRequest_of_nil hnil] at hhandle
    cases hhandle
    exact Kernel.log_leave ..
  · rfl

/-- **A connection is handled as if it were alone.** -/
theorem log_acceptConnection {a : Arrival} (h : acceptConnection cfg (some a) s = some s') :
    s'.world.kernel.log = s.world.kernel.log ++ callsAlone cfg.platform cfg.routes a := by
  rw [acceptConnection] at h
  rcases haccept : s.world.kernel.accept s.serverFd (some a) with _ | ⟨fd, kernel⟩
  · rw [haccept] at h
    cases h
  rw [haccept] at h
  have hlog := Kernel.log_accept haccept
  obtain ⟨rfl, -, -, htable⟩ := Kernel.of_accept_some haccept
  have hconn : kernel.table a.fd = some (.conn ⟨a.inbox, a.outbox, [], []⟩) := by
    rw [htable, Function.update_self]
  have hinbox : kernel.inbox a.fd = a.inbox := by rw [Kernel.inbox, hconn]
  have hopen : kernel.isOpen a.fd = true := by rw [Kernel.isOpen, hconn, Option.isSome_some]
  have halone := alone_httpCode cfg.platform cfg.routes a.fd { s.world with kernel }
  rw [← calls_httpCode]
  cases hhandle : handleConnectionRequest cfg.platform cfg.routes a.fd
      { s.world with kernel } with
  | ok world =>
    rw [hhandle] at halone
    simp only [hhandle] at h
    cases h
    obtain ⟨calls, hcalls, hworld⟩ := Threads.calls_of_alone hinbox hopen halone
    show world.kernel.log = _
    rw [hworld, hlog, hcalls, List.append_assoc]
    rfl
  | error e =>
    rw [hhandle] at halone
    simp only [hhandle] at h
    cases h
    rw [Threads.calls_of_fails hinbox halone]
    exact hlog

/-- A number is closed, and nothing else changes but the list. -/
structure Closes (fd : ℤ) (s s' : Poll) : Prop where
  log : ∃ calls, s'.world.kernel.log = s.world.kernel.log ++ calls ∧
    ∀ call ∈ calls, ∃ wasOpen, call = .close fd wasOpen
  table : ∀ fd', fd' ≠ fd → s'.world.kernel.table fd' = s.world.kernel.table fd'
  registry : s'.world.websocketDescriptor = s.world.websocketDescriptor

theorem closes_removeSocket (fd : ℤ) (s : Poll) : Closes fd s (removeSocket fd s) := by
  unfold removeSocket
  split_ifs
  · refine ⟨⟨[.close fd (s.world.kernel.isOpen fd)], rfl, by simp⟩, fun fd' hne => ?_, rfl⟩
    exact Function.update_of_ne hne ..
  · exact ⟨⟨[], (List.append_nil _).symm, by simp⟩, fun _ _ => rfl, rfl⟩

/-- A client that has disconnected is closed, here and by `remove_socket`. -/
theorem closes_serveClient (h : s.disconnected fd = true) : Closes fd s (serveClient fd s) := by
  rw [serveClient, if_pos h]
  split_ifs
  · have hclosed := closes_removeSocket fd { s with world.kernel := s.world.kernel.close fd }
    obtain ⟨calls, hlog, hcalls⟩ := hclosed.log
    refine ⟨⟨.close fd (s.world.kernel.isOpen fd) :: calls, ?_, by simpa using hcalls⟩,
      fun fd' hne => ?_, hclosed.registry⟩
    · rw [hlog, Kernel.close, List.append_assoc]
      rfl
    · rw [hclosed.table fd' hne]
      exact Function.update_of_ne hne ..
  · exact closes_removeSocket fd s

theorem Closes.adds (h : Closes fd s s') : Adds cfg none s s' := by
  obtain ⟨calls, hlog, hcalls⟩ := h.log
  exact ⟨calls, hlog, Or.inl ⟨fd, hcalls⟩⟩

theorem adds_serveClient (fd : ℤ) (s : Poll) : Adds cfg none s (serveClient fd s) := by
  by_cases hdis : s.disconnected fd = true
  · exact (closes_serveClient hdis).adds
  · rw [serveClient, if_neg hdis]
    split
    · rename_i world hnotify
      rcases notifyMessageRequest_cases hnotify with ⟨-, rfl⟩ | ⟨hfd, str, q, -, rfl⟩
      · exact adds_nothing rfl
      · refine ⟨_, ?_, Or.inr ⟨s.world.websocketDescriptor, subset_rfl, fd, hfd, str, rfl⟩⟩
        rw [log_broadcast, Kernel.log_leave]
    · exact adds_nothing rfl

/-- The body of the loop for an entry. -/
theorem adds_serveEntry (hpos : s.Positive) {e : PollFd}
    (h : serveEntry cfg accepted e s = some s') :
    Adds cfg (if s.branch e = .accept then some (accepted.getD Threads.noArrival) else none)
      s s' := by
  rw [serveEntry] at h
  cases hb : s.branch e with
  | hangUp =>
    rw [hb] at h
    cases h
    exact (closes_removeSocket e.fd s).adds
  | output =>
    rw [hb] at h
    cases h
    exact adds_nothing rfl
  | accept =>
    rw [hb] at h
    cases accepted with
    | none =>
      refine ⟨_, log_acceptConnection_failed hpos h, ?_⟩
      exact (callsAlone_noArrival ..).symm
    | some a => exact ⟨_, log_acceptConnection h, rfl⟩
  | client =>
    rw [hb] at h
    cases h
    exact adds_serveClient e.fd s
  | idle =>
    rw [hb] at h
    cases h
    exact adds_nothing rfl

end Poll

namespace PollTrace

variable {cfg : Config} {serverFd : ℤ} {s s' : PollTrace}

/-- What a step adds is handled as if it were alone, or closes, or goes to all clients. -/
theorem adds_step (hpos : s.poll.Positive) {a : Label} {p : Poll}
    (hstep : Poll.step cfg s.poll a = some p) : Poll.Adds cfg (s.accepted a) s.poll p := by
  cases a with
  | net a =>
    cases hstep
    exact Poll.adds_nothing (Kernel.log_modify ..)
  | poll revents =>
    unfold Poll.step at hstep
    split_ifs at hstep
    cases revents with
    | none =>
      cases hstep
      exact Poll.adds_nothing rfl
    | some revents =>
      simp only at hstep
      split_ifs at hstep
      cases hstep
      exact Poll.adds_nothing rfl
  | serve accepted =>
    obtain ⟨i, hphase, ⟨hnone, rfl⟩ | ⟨e, he, hentry⟩⟩ := Poll.serve_cases hstep
    · have hcurrent : s.poll.current = none := (Poll.current_eq hphase).trans hnone
      simp only [PollTrace.accepted, hcurrent, Option.any_none]
      exact Poll.adds_nothing rfl
    · have hcurrent : s.poll.current = some e := (Poll.current_eq hphase).trans he
      simp only [PollTrace.accepted, hcurrent, Option.any_some, decide_eq_true_eq]
      exact Poll.adds_serveEntry (s := { s.poll with phase := .scanning (i + 1) }) hpos hentry

/-- The calls so far are those of the turns. -/
structure Traced (cfg : Config) (s : PollTrace) : Prop where
  log : s.poll.world.kernel.log = s.turns.flatMap Turn.calls
  justified : ∀ e ∈ s.turns, e.Justified cfg s.poll.world.websocketDescriptor
  positive : s.poll.Positive

theorem traced_start (cfg : Config) (serverFd : ℤ) : Traced cfg (start serverFd) := by
  refine ⟨rfl, by simp [start], fun c conn hconn => ?_⟩
  by_cases hc : c = serverFd <;> simp [start, Poll.init, hc] at hconn

theorem Traced.step (h : Traced cfg s) {a : Label} (hstep : step cfg s a = some s') :
    Traced cfg s' := by
  obtain ⟨p, hp, rfl⟩ := Option.map_eq_some_iff.mp hstep
  obtain ⟨calls, hlog, hadds⟩ := adds_step h.positive hp
  have hcalls : p.world.kernel.log.drop s.poll.world.kernel.log.length = calls := by
    rw [hlog, List.drop_left]
  rw [hcalls]
  refine ⟨?_, fun e he => ?_, h.positive.step hp⟩
  · simp [hlog, h.log]
  · rcases List.mem_append.mp he with he | he
    · exact (h.justified e he).mono (Poll.subset_step hp)
    · rw [List.mem_singleton.mp he]
      exact hadds

/-- **Each connection is handled as if it were alone.** In every run of the poll server, whatever
`poll` reports and the clients send, the calls are those of the turns: for each result of `accept`
they are those of a call of `handle_connection_request` that is alone, and in all other turns they
close one number or send one frame to registered clients. -/
theorem turns_of_reached (hrun : Reached (step cfg) anyStep (start serverFd) s) :
    s.poll.world.kernel.log = s.turns.flatMap Turn.calls ∧
      ∀ e ∈ s.turns, e.Justified cfg s.poll.world.websocketDescriptor := by
  have h := hrun.invariant (traced_start cfg serverFd) fun _ _ _ h _ hstep => h.step hstep
  exact ⟨h.log, h.justified⟩

/-! ## A WebSocket client and a page -/

/-- A WebSocket client is accepted, then one that asks for a page, and then a third one gets the
number of the second. -/
def pageLabels : List Label :=
  [.poll (some [.readable]), .serve (some ⟨5, [some upgradeRequest], []⟩), .serve none, .serve none,
    .poll (some [.readable, .unreported]), .serve (some ⟨6, [some plainRequest], []⟩), .serve none,
    .serve none, .serve none, .poll (some [.readable, .unreported, .unreported]),
    .serve (some ⟨6, [some plainRequest], []⟩)]

theorem turns_pages : ∃ s : PollTrace,
    s.turns.filterMap Turn.accepted = [⟨5, [some upgradeRequest], []⟩,
      ⟨6, [some plainRequest], []⟩, ⟨6, [some plainRequest], []⟩] ∧
    s.poll.world.kernel.log = s.turns.flatMap Turn.calls ∧
      ∀ e ∈ s.turns, e.Justified bareConfig s.poll.world.websocketDescriptor := by
  have hrun : (run (step bareConfig) anyStep (start 3) pageLabels).any (fun s =>
      s.turns.filterMap Turn.accepted = [⟨5, [some upgradeRequest], []⟩,
        ⟨6, [some plainRequest], []⟩, ⟨6, [some plainRequest], []⟩]) = true := by
    decide +kernel
  obtain ⟨s, hs, haccepted⟩ := exists_reached hrun
  exact ⟨s, haccepted, turns_of_reached hs⟩

end PollTrace

end SimpleServer
