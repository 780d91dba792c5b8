import SimpleServer.Tcp.Epoll
import SimpleServer.Tcp.PollClosing

/-!
# The calls of the connection handler

The accept loops of `tcp_default_handler`, `tcp_poll_handler` and `tcp_epoll_handler` with any
connection handler: each records what `accept` has returned and what the handler was called with.
What the handler does to the rest of the process is in the labels of the steps that follow.

The first two call the handler with every result of `accept`, `-1` included, and the third never
calls it. `dispatches_iff` says for which results of `accept` each loop does what all should.
`PollLoop` and `EpollLoop` follow the servers `Poll` and `Epoll` step by step
(`exists_pollLoop`, `exists_epollLoop`).
-/

namespace SimpleServer

open Cxx Posix Runs

/-- What `accept` has returned, and what the connection handler was called with. -/
structure Calls where
  accepted : List ℤ
  handled : List ℤ
  deriving DecidableEq

namespace Calls

def none : Calls := ⟨[], []⟩

/-- A call of `accept` has returned `fd`. -/
def accept (fd : ℤ) (c : Calls) : Calls := { c with accepted := c.accepted ++ [fd] }

/-- `handle_incomming_connection`, the same in the three classes when a handler is set. -/
def handleIncommingConnection (fd : ℤ) (c : Calls) : Calls :=
  { c with handled := c.handled ++ [fd] }

end Calls

/-! ## The loop with threads -/

/-- `tcp_default_handler`; the threads are the detached ones that have not called the handler
yet. -/
structure DefaultLoop where
  run : Bool
  threads : List ℤ
  calls : Calls
  deriving DecidableEq

inductive DefaultLabel
  /-- The body of the `while` loop, with the result of `accept`. -/
  | accept (fd : ℤ)
  /-- A thread calls the handler; an exception ends the process. -/
  | thread (i : ℕ) (throws : Bool)

namespace DefaultLoop

def init : DefaultLoop := ⟨true, [], .none⟩

/-- `tcp_default_handler::accept_and_process_message` and the threads that it starts. -/
def step (s : DefaultLoop) : DefaultLabel → Option DefaultLoop
  | .accept fd =>
    if s.run ∧ -1 ≤ fd then
      some { s with threads := s.threads ++ [fd], calls := s.calls.accept fd }
    else none
  | .thread i throws =>
    if s.run then
      match s.threads[i]? with
      | none => none
      | some fd =>
        some
          { run := !throws
            threads := s.threads.eraseIdx i
            calls := s.calls.handleIncommingConnection fd }
    else none

end DefaultLoop

/-! ## The loop with `poll` -/

/-- `tcp_poll_handler`. -/
structure PollLoop where
  serverFd : ℤ
  pollFds : List PollFd
  phase : Phase
  calls : Calls
  deriving DecidableEq

inductive PollLoopLabel
  /-- `poll` returns with the events of all entries, or fails. -/
  | poll (revents : Option (List Revents))
  /-- The body of the `for` loop, with the results of `accept` and of the `recv` that peeks, if
  they are called, and whether the handler of the branch throws. -/
  | serve (accepted : ℤ) (valread : ℤ) (throws : Bool)

namespace PollLoop

def init (serverFd : ℤ) : PollLoop := ⟨serverFd, [PollFd.new serverFd], .polling, .none⟩

/-- The branch taken for an entry. -/
def branch (s : PollLoop) (p : PollFd) : Branch :=
  if p.revents.pollHup then .hangUp
  else if p.revents.pollOut then .output
  else if p.revents.pollIn then
    if p.fd = s.serverFd then .accept else .client
  else .idle

/-- What `remove_socket` does to the list. -/
def removeSocket (fd : ℤ) (s : PollLoop) : PollLoop :=
  { s with pollFds := s.pollFds.eraseP (·.fd = fd) }

/-- The branch of the listener. -/
def acceptConnection (newConnection : ℤ) (throws : Bool) (s : PollLoop) : Option PollLoop :=
  if -1 ≤ newConnection then
    some { s with
      pollFds := s.pollFds ++ [PollFd.new newConnection]
      phase := if throws then .aborted else s.phase
      calls := (s.calls.accept newConnection).handleIncommingConnection newConnection }
  else none

/-- The branch of a client. -/
def serveClient (clientFd valread : ℤ) (throws : Bool) (s : PollLoop) : PollLoop :=
  if valread ≤ 0 then removeSocket clientFd s
  else { s with phase := if throws then .aborted else s.phase }

/-- The body of the `for` loop for the entry `p`. -/
def serveEntry (accepted valread : ℤ) (throws : Bool) (p : PollFd) (s : PollLoop) :
    Option PollLoop :=
  match s.branch p with
  | .hangUp => some (removeSocket p.fd s)
  | .output => some s
  | .accept => acceptConnection accepted throws s
  | .client => some (serveClient p.fd valread throws s)
  | .idle => some s

/-- `tcp_poll_handler::accept_and_process_message`. -/
def step (s : PollLoop) : PollLoopLabel → Option PollLoop
  | .poll revents =>
    if s.phase = .polling then
      match revents with
      | none => some { s with phase := .stopped }
      | some revents =>
        if revents.length = s.pollFds.length then
          some { s with
            pollFds := s.pollFds.zipWith (fun p r => { p with revents := r }) revents
            phase := .scanning 0 }
        else none
    else none
  | .serve accepted valread throws =>
    match s.phase with
    | .scanning i =>
      match s.pollFds[i]? with
      | none => some { s with phase := .polling }
      | some p => serveEntry accepted valread throws p { s with phase := .scanning (i + 1) }
    | _ => none

end PollLoop

/-! ## The loop with `epoll_wait` -/

/-- `tcp_epoll_handler`. -/
structure EpollLoop where
  serverFd : ℤ
  phase : EpollPhase
  calls : Calls
  deriving DecidableEq

inductive EpollLoopLabel
  /-- `epoll_wait` returns with a batch, or fails. -/
  | wait (events : Option (List ℤ))
  /-- The body of the `for` loop, with the result of `accept` if it is called. -/
  | serve (accepted : ℤ)

namespace EpollLoop

def init (serverFd : ℤ) : EpollLoop := ⟨serverFd, .polling, .none⟩

/-- The body of the `for` loop for an event. The client accepted is added to the interest list or
closed, and `handle_incomming_connection` is not called; nor is it in the branch of a client. -/
def serveEvent (accepted fd : ℤ) (s : EpollLoop) : Option EpollLoop :=
  if fd = s.serverFd then
    if -1 ≤ accepted then some { s with calls := s.calls.accept accepted } else none
  else some s

/-- `tcp_epoll_handler::accept_and_process_message`. -/
def step (s : EpollLoop) : EpollLoopLabel → Option EpollLoop
  | .wait events =>
    if s.phase = .polling then
      match events with
      | none => some { s with phase := .stopped }
      | some events => some { s with phase := .handling events }
    else none
  | .serve accepted =>
    match s.phase with
    | .handling [] => some { s with phase := .polling }
    | .handling (fd :: events) => serveEvent accepted fd { s with phase := .handling events }
    | _ => none

end EpollLoop

/-! ## What each loop calls -/

/-- The calls made and those of the threads are the results of `accept`. -/
theorem DefaultLoop.perm_step {s s' : DefaultLoop} {a : DefaultLabel}
    (h : (s.calls.handled ++ s.threads).Perm s.calls.accepted) (hstep : step s a = some s') :
    (s'.calls.handled ++ s'.threads).Perm s'.calls.accepted := by
  cases a with
  | accept fd =>
    simp only [step] at hstep
    split_ifs at hstep
    cases hstep
    change (s.calls.handled ++ (s.threads ++ [fd])).Perm (s.calls.accepted ++ [fd])
    rw [← List.append_assoc]
    exact h.append_right [fd]
  | thread i throws =>
    simp only [step] at hstep
    split_ifs at hstep
    cases hi : s.threads[i]? with
    | none =>
      rw [hi] at hstep
      cases hstep
    | some fd =>
      rw [hi] at hstep
      cases hstep
      obtain ⟨hlt, rfl⟩ := List.getElem?_eq_some_iff.mp hi
      change ((s.calls.handled ++ [s.threads[i]]) ++ s.threads.eraseIdx i).Perm s.calls.accepted
      rw [List.append_assoc]
      exact ((List.getElem_cons_eraseIdx_perm hlt).append_left _).trans h

theorem PollLoop.handled_serveEntry {s s' : PollLoop} {accepted valread : ℤ} {throws : Bool}
    {p : PollFd} (h : s.calls.handled = s.calls.accepted)
    (hstep : serveEntry accepted valread throws p s = some s') :
    s'.calls.handled = s'.calls.accepted := by
  rw [serveEntry] at hstep
  cases hb : s.branch p with
  | accept =>
    rw [hb] at hstep
    simp only [acceptConnection] at hstep
    split at hstep
    · cases hstep
      exact congrArg (· ++ [accepted]) h
    · cases hstep
  | client =>
    rw [hb] at hstep
    cases hstep
    rw [serveClient]
    split <;> exact h
  | _ =>
    rw [hb] at hstep
    cases hstep
    exact h

/-- The poll loop calls the handler with each result of `accept`, at once. -/
theorem PollLoop.handled_step {s s' : PollLoop} {a : PollLoopLabel}
    (h : s.calls.handled = s.calls.accepted) (hstep : step s a = some s') :
    s'.calls.handled = s'.calls.accepted := by
  cases a with
  | poll revents =>
    simp only [step] at hstep
    split_ifs at hstep
    cases revents with
    | none =>
      cases hstep
      exact h
    | some revents =>
      simp only at hstep
      split_ifs at hstep
      cases hstep
      exact h
  | serve accepted valread throws =>
    simp only [step] at hstep
    split at hstep
    · rename_i i hphase
      cases hp : s.pollFds[i]? with
      | none =>
        rw [hp] at hstep
        cases hstep
        exact h
      | some p =>
        rw [hp] at hstep
        exact handled_serveEntry (s := { s with phase := .scanning (i + 1) }) h hstep
    · cases hstep

/-- The epoll loop never calls the handler. -/
theorem EpollLoop.handled_step {s s' : EpollLoop} {a : EpollLoopLabel}
    (h : s.calls.handled = []) (hstep : step s a = some s') : s'.calls.handled = [] := by
  cases a with
  | wait events =>
    simp only [step] at hstep
    split_ifs at hstep
    rcases events with _ | events <;>
    · cases hstep
      exact h
  | serve accepted =>
    simp only [step] at hstep
    split at hstep
    · cases hstep
      exact h
    · simp only [serveEvent] at hstep
      split_ifs at hstep <;>
      · cases hstep
        exact h
    · cases hstep

/-! ## The three loops -/

/-- The implementations of `tcp_handler`. -/
inductive TcpHandler
  | default
  | poll
  | epoll
  deriving DecidableEq

namespace TcpHandler

/-- The states of a loop. -/
abbrev State : TcpHandler → Type
  | .default => DefaultLoop
  | .poll => PollLoop
  | .epoll => EpollLoop

abbrev Label : TcpHandler → Type
  | .default => DefaultLabel
  | .poll => PollLoopLabel
  | .epoll => EpollLoopLabel

/-- The state behind `create_server`. -/
def init (serverFd : ℤ) : (t : TcpHandler) → t.State
  | .default => DefaultLoop.init
  | .poll => PollLoop.init serverFd
  | .epoll => EpollLoop.init serverFd

/-- `accept_and_process_message`. -/
def step : (t : TcpHandler) → t.State → t.Label → Option t.State
  | .default => DefaultLoop.step
  | .poll => PollLoop.step
  | .epoll => EpollLoop.step

/-- The results of `accept`. -/
def accepted : (t : TcpHandler) → t.State → List ℤ
  | .default, s => s.calls.accepted
  | .poll, s => s.calls.accepted
  | .epoll, s => s.calls.accepted

/-- The calls of the handler, those of the threads that have not run included. -/
def called : (t : TcpHandler) → t.State → List ℤ
  | .default, s => s.calls.handled ++ s.threads
  | .poll, s => s.calls.handled
  | .epoll, s => s.calls.handled

/-- The handler is called once for each descriptor that `accept` has returned, and with nothing
else. -/
def DispatchesEach (t : TcpHandler) (s : t.State) : Prop :=
  (t.called s).Perm ((t.accepted s).filter fun fd => 0 ≤ fd)

/-- The results of `accept` that a loop treats as all loops should: the first two take any for a
descriptor, and the third takes none for one. -/
def Dispatchable : TcpHandler → ℤ → Prop
  | .default, fd => 0 ≤ fd
  | .poll, fd => 0 ≤ fd
  | .epoll, fd => fd < 0

theorem perm_filter_iff {called accepted : List ℤ} (h : called.Perm accepted) :
    called.Perm (accepted.filter fun fd => 0 ≤ fd) ↔ ∀ fd ∈ accepted, 0 ≤ fd := by
  constructor
  · intro hperm fd hfd
    have hmem := hperm.subset (h.symm.subset hfd)
    simpa using (List.mem_filter.mp hmem).2
  · intro hall
    rw [List.filter_eq_self.mpr (by simpa using hall)]
    exact h

/-- **When the loops dispatch alike.** In every state that a loop reaches, the handler has been
called once for each descriptor that `accept` returned and with nothing else exactly when, for
the loops with threads and with `poll`, no call of `accept` has failed, and for the epoll loop,
every call has failed. -/
theorem dispatches_iff (t : TcpHandler) (serverFd : ℤ) {s : t.State}
    (hrun : Reached t.step anyStep (t.init serverFd) s) :
    t.DispatchesEach s ↔ ∀ fd ∈ t.accepted s, t.Dispatchable fd := by
  cases t with
  | default =>
    have h : (s.calls.handled ++ s.threads).Perm s.calls.accepted :=
      hrun.invariant (I := fun s : DefaultLoop =>
        (s.calls.handled ++ s.threads).Perm s.calls.accepted) (.refl _)
        fun _ _ _ h _ hstep => DefaultLoop.perm_step h hstep
    exact perm_filter_iff h
  | poll =>
    have h : s.calls.handled = s.calls.accepted :=
      hrun.invariant (I := fun s : PollLoop => s.calls.handled = s.calls.accepted) rfl
        fun _ _ _ h _ hstep => PollLoop.handled_step h hstep
    exact perm_filter_iff (.of_eq h)
  | epoll =>
    have h : s.calls.handled = [] :=
      hrun.invariant (I := fun s : EpollLoop => s.calls.handled = []) rfl
        fun _ _ _ h _ hstep => EpollLoop.handled_step h hstep
    change s.calls.handled.Perm (s.calls.accepted.filter fun fd => 0 ≤ fd) ↔
      ∀ fd ∈ s.calls.accepted, fd < 0
    rw [h, List.nil_perm, List.filter_eq_nil_iff]
    simp

/-- Two descriptors are accepted, and the second thread is the first to call the handler. -/
theorem dispatches_threads : ∃ s : DefaultLoop, s.calls.handled = [6, 5] ∧
    DispatchesEach .default s := by
  let labels : List DefaultLabel := [.accept 5, .accept 6, .thread 1 false, .thread 0 false]
  have hrun : (run (step .default) anyStep (init 3 .default) labels).any (fun s : DefaultLoop =>
      s.calls.handled = [6, 5] ∧ s.calls.accepted = [5, 6]) = true := by
    decide +kernel
  obtain ⟨s, hs, hend⟩ := exists_reached hrun
  refine ⟨s, hend.1, (dispatches_iff .default 3 hs).mpr fun fd hfd => ?_⟩
  have hfd : fd ∈ s.calls.accepted := hfd
  rw [hend.2] at hfd
  have hcases : fd = 5 ∨ fd = 6 := by simpa using hfd
  change 0 ≤ fd
  omega

/-- A call of `accept` fails, and the poll loop calls the handler with `-1`. -/
theorem not_dispatches_failed :
    ¬ ∀ (t : TcpHandler) (serverFd : ℤ) (s : t.State),
      Reached t.step anyStep (t.init serverFd) s → t.DispatchesEach s := by
  let labels : List PollLoopLabel := [.poll (some [⟨true, false, false⟩]), .serve (-1) 0 false]
  have hrun : (run (step .poll) anyStep (init 3 .poll) labels).any (fun s : PollLoop =>
      s.calls = ⟨[-1], [-1]⟩) = true := by
    decide +kernel
  intro h
  obtain ⟨s, hs, hend⟩ := exists_reached hrun
  have hperm : s.calls.handled.Perm (s.calls.accepted.filter fun fd => 0 ≤ fd) :=
    h .poll 3 s hs
  rw [hend] at hperm
  exact absurd hperm.length_eq (by decide)

end TcpHandler

/-! ## The servers follow the loops -/

theorem accepts_handled {platform : Platform} {routes : RoutesMap} {fd : ℤ} {w w' : World}
    (h : Handled platform routes fd w w') : accepts w'.kernel.log = accepts w.kernel.log := by
  rcases h.talks_or_close with htalks | ⟨k, htalks, -, hclose⟩
  · exact htalks.accepts
  · rw [hclose, Kernel.accepts_close]
    exact htalks.accepts

namespace PollLoop

/-- The poll server with its HTTP handler is in a state of the loop. -/
structure Follows (d : PollLoop) (s : Poll) : Prop where
  serverFd : d.serverFd = s.serverFd
  pollFds : d.pollFds = s.pollFds
  phase : d.phase = s.phase
  accepted : d.calls.accepted = accepts s.world.kernel.log

variable {cfg : Config} {s s' : Poll} {d : PollLoop}

theorem Follows.branch (h : d.Follows s) (p : PollFd) : d.branch p = s.branch p := by
  rw [PollLoop.branch, Poll.branch, h.serverFd]

theorem Follows.removeSocket (h : d.Follows s) (fd : ℤ) :
    (d.removeSocket fd).Follows (s.removeSocket fd) := by
  rw [Poll.removeSocket]
  split_ifs with hany
  · exact ⟨h.serverFd, congrArg (List.eraseP _) h.pollFds, h.phase,
      h.accepted.trans (Kernel.accepts_close _ fd).symm⟩
  · have herase : s.pollFds.eraseP (·.fd = fd) = s.pollFds :=
      List.eraseP_of_forall_not (by simpa using hany)
    exact ⟨h.serverFd, (congrArg (List.eraseP _) h.pollFds).trans herase, h.phase, h.accepted⟩

theorem Follows.serveClient (h : d.Follows s) (fd : ℤ) :
    ∃ valread throws, (d.serveClient fd valread throws).Follows (s.serveClient fd) := by
  rw [Poll.serveClient]
  split_ifs with hdis hopen
  · have hclose : d.Follows { s with world.kernel := s.world.kernel.close fd } :=
      ⟨h.serverFd, h.pollFds, h.phase, h.accepted.trans (Kernel.accepts_close _ fd).symm⟩
    exact ⟨0, false, hclose.removeSocket fd⟩
  · exact ⟨0, false, h.removeSocket fd⟩
  · split
    · rename_i world hok
      refine ⟨1, false, h.serverFd, h.pollFds, h.phase, ?_⟩
      exact h.accepted.trans (notifyMessageRequest_talks hok).accepts.symm
    · exact ⟨1, true, h.serverFd, h.pollFds, rfl, h.accepted⟩

theorem Follows.acceptConnection (h : d.Follows s) {accepted : Option Arrival}
    (hstep : s.acceptConnection cfg accepted = some s') :
    ∃ fd throws d', d.acceptConnection fd throws = some d' ∧ d'.Follows s' := by
  obtain ⟨fd, kernel, haccept, hs'⟩ := Poll.acceptConnection_inv hstep
  have hle := Kernel.neg_one_le_accept haccept
  have hacc : d.calls.accepted ++ [fd] = accepts kernel.log := by
    rw [h.accepted, Kernel.accepts_accept haccept]
  have hfds : d.pollFds ++ [PollFd.new fd] = s.pollFds ++ [PollFd.new fd] := by rw [h.pollFds]
  obtain ⟨world, hhandle, rfl⟩ | rfl := hs'
  · refine ⟨fd, false, _, if_pos hle, h.serverFd, hfds, h.phase, ?_⟩
    exact hacc.trans (accepts_handled (handled_of_ok hhandle)).symm
  · exact ⟨fd, true, _, if_pos hle, h.serverFd, hfds, rfl, hacc⟩

theorem Follows.serveEntry (h : d.Follows s) {accepted : Option Arrival} {p : PollFd}
    (hstep : s.serveEntry cfg accepted p = some s') :
    ∃ fd valread throws d', d.serveEntry fd valread throws p = some d' ∧ d'.Follows s' := by
  rw [Poll.serveEntry] at hstep
  simp only [PollLoop.serveEntry, h.branch p]
  cases hb : s.branch p with
  | hangUp =>
    rw [hb] at hstep
    cases hstep
    exact ⟨0, 0, false, _, rfl, h.removeSocket p.fd⟩
  | accept =>
    rw [hb] at hstep
    obtain ⟨fd, throws, d', hd, hfollows⟩ := h.acceptConnection hstep
    exact ⟨fd, 0, throws, d', hd, hfollows⟩
  | client =>
    rw [hb] at hstep
    cases hstep
    obtain ⟨valread, throws, hfollows⟩ := h.serveClient p.fd
    exact ⟨0, valread, throws, _, rfl, hfollows⟩
  | _ =>
    rw [hb] at hstep
    cases hstep
    exact ⟨0, 0, false, d, rfl, h⟩

/-- A step of the server is one of the loop, but for what the network does. -/
theorem Follows.step (h : d.Follows s) {a : Label} (hstep : s.step cfg a = some s') :
    d.Follows s' ∨ ∃ b d', d.step b = some d' ∧ d'.Follows s' := by
  cases a with
  | net a =>
    cases hstep
    exact Or.inl ⟨h.serverFd, h.pollFds, h.phase,
      h.accepted.trans (s.world.kernel.talks_arrive a).accepts.symm⟩
  | poll revents =>
    right
    unfold Poll.step at hstep
    split_ifs at hstep with hphase
    cases revents with
    | none =>
      cases hstep
      refine ⟨.poll none, _, if_pos (h.phase.trans hphase), h.serverFd, h.pollFds, rfl, h.accepted⟩
    | some revents =>
      simp only at hstep
      split_ifs at hstep with hlen
      cases hstep
      have hlen' : revents.length = d.pollFds.length := by rw [hlen, h.pollFds]
      have hzip := congrArg (·.zipWith (fun p r => { p with revents := r }) revents) h.pollFds
      exact ⟨.poll (some revents), _, (if_pos (h.phase.trans hphase)).trans (if_pos hlen'),
        h.serverFd, hzip, rfl, h.accepted⟩
  | serve accepted =>
    right
    obtain ⟨i, hphase, ⟨hp, rfl⟩ | ⟨p, hp, hentry⟩⟩ := Poll.serve_cases hstep
    · refine ⟨.serve 0 0 false, { d with phase := .polling }, ?_, h.serverFd, h.pollFds, rfl,
        h.accepted⟩
      simp only [PollLoop.step, h.phase, hphase, h.pollFds, hp]
    · have hscan : Follows { d with phase := .scanning (i + 1) }
          { s with phase := .scanning (i + 1) } := ⟨h.serverFd, h.pollFds, rfl, h.accepted⟩
      obtain ⟨fd, valread, throws, d', hd, hfollows⟩ := hscan.serveEntry hentry
      refine ⟨.serve fd valread throws, d', ?_, hfollows⟩
      simp only [PollLoop.step, h.phase, hphase, h.pollFds, hp]
      rw [← h.pollFds]
      exact hd

/-- The poll server is at every moment in a state that the loop reaches. -/
theorem exists_pollLoop (serverFd : ℤ)
    (hrun : Reached (Poll.step cfg) anyStep (Poll.init serverFd) s) :
    ∃ d, Reached PollLoop.step anyStep (init serverFd) d ∧ d.Follows s := by
  have hinit : (init serverFd).Follows (Poll.init serverFd) := ⟨rfl, rfl, rfl, rfl⟩
  exact hrun.simulates hinit fun d s a s' hfollows hstep => hfollows.step hstep

end PollLoop

namespace EpollLoop

/-- The epoll server is in a state of the loop. -/
structure Follows (d : EpollLoop) (s : Epoll) : Prop where
  serverFd : d.serverFd = s.serverFd
  phase : d.phase = s.phase
  accepted : d.calls.accepted = accepts s.kernel.log

variable {s s' : Epoll} {d : EpollLoop} {fd : ℤ}

theorem Follows.of_accepts (h : d.Follows s) (hserver : s'.serverFd = s.serverFd)
    (hphase : s'.phase = s.phase) (haccepts : accepts s'.kernel.log = accepts s.kernel.log) :
    d.Follows s' :=
  ⟨h.serverFd.trans hserver.symm, h.phase.trans hphase.symm, h.accepted.trans haccepts.symm⟩

theorem Follows.close (h : d.Follows s) : d.Follows (s.close fd) :=
  h.of_accepts rfl rfl (Kernel.accepts_close _ fd)

theorem Follows.closed (h : d.Follows s) : d.Follows ((s.close fd).del fd) := by
  rw [Epoll.del_close]
  exact h.close

/-- Serving a client accepts nothing. -/
theorem Follows.serveClient (h : d.Follows s) (again : Bool) :
    d.Follows (s.serveClient fd again) := by
  have hrecv : d.Follows (s.recv fd).2 :=
    h.of_accepts rfl rfl (s.kernel.talks_recv fd 4096).accepts
  rw [Epoll.serveClient]
  generalize s.recv fd = received at hrecv ⊢
  rcases received with ⟨_ | _ | ⟨b, bytes⟩, t⟩
  · cases again with
    | true => exact hrecv
    | false => exact hrecv.closed
  · exact hrecv.closed
  · have hsend : d.Follows (({ t with count := t.count + 1 } : Epoll).send fd
        (epollResponse (t.count + 1))) :=
      hrecv.of_accepts rfl rfl (t.kernel.talks_send fd _).accepts
    exact hsend.closed

theorem Follows.acceptClient (h : d.Follows s) {accepted : Option Arrival} {added : Bool}
    (hstep : s.acceptClient accepted added = some s') :
    ∃ fd, -1 ≤ fd ∧ Follows { d with calls := d.calls.accept fd } s' := by
  obtain ⟨fd, kernel, haccept, hs'⟩ := Epoll.acceptClient_inv hstep
  have hle := Kernel.neg_one_le_accept haccept
  have hacc : Follows { d with calls := d.calls.accept fd } { s with kernel } := by
    refine ⟨h.serverFd, h.phase, ?_⟩
    rw [Calls.accept, h.accepted]
    exact (Kernel.accepts_accept haccept).symm
  refine ⟨fd, hle, ?_⟩
  obtain ⟨-, rfl⟩ | ⟨-, rfl⟩ | ⟨-, rfl⟩ := hs'
  · exact hacc
  · exact hacc.of_accepts rfl rfl rfl
  · exact hacc.close

theorem Follows.step (h : d.Follows s) {a : EpollLabel} (hstep : s.step a = some s') :
    d.Follows s' ∨ ∃ b d', d.step b = some d' ∧ d'.Follows s' := by
  cases a with
  | net a =>
    cases hstep
    exact Or.inl (h.of_accepts rfl rfl (s.kernel.talks_arrive a).accepts)
  | wait events =>
    right
    unfold Epoll.step at hstep
    split_ifs at hstep with hphase
    cases events with
    | none =>
      cases hstep
      exact ⟨.wait none, _, if_pos (h.phase.trans hphase), h.serverFd, rfl, h.accepted⟩
    | some events =>
      simp only at hstep
      split_ifs at hstep
      cases hstep
      exact ⟨.wait (some events), _, if_pos (h.phase.trans hphase), h.serverFd, rfl, h.accepted⟩
  | serve accepted added again =>
    right
    simp only [Epoll.step] at hstep
    split at hstep
    · rename_i hphase
      cases hstep
      refine ⟨.serve 0, { d with phase := .polling }, ?_, h.serverFd, rfl, h.accepted⟩
      simp only [EpollLoop.step, h.phase, hphase]
    · rename_i fd events hphase
      have hnext : Follows { d with phase := .handling events }
          { s with phase := .handling events } := ⟨h.serverFd, rfl, h.accepted⟩
      have hloop (result : ℤ) : d.step (.serve result) =
          EpollLoop.serveEvent result fd { d with phase := .handling events } := by
        simp only [EpollLoop.step, h.phase, hphase]
      rw [Epoll.serveEvent] at hstep
      split_ifs at hstep with hserver
      · have hserver : fd = d.serverFd := hserver.trans h.serverFd.symm
        obtain ⟨result, hle, hfollows⟩ := hnext.acceptClient hstep
        exact ⟨.serve result, _, (hloop result).trans ((if_pos hserver).trans (if_pos hle)),
          hfollows⟩
      · have hserver : fd ≠ d.serverFd := fun e => hserver (e.trans h.serverFd)
        cases hstep
        exact ⟨.serve 0, _, (hloop 0).trans (if_neg hserver), hnext.serveClient again⟩
    · cases hstep

/-- The epoll server is at every moment in a state that the loop reaches. -/
theorem exists_epollLoop (serverFd epollFd : ℤ)
    (hrun : Reached Epoll.step anyStep (Epoll.init serverFd epollFd) s) :
    ∃ d, Reached EpollLoop.step anyStep (init serverFd) d ∧ d.Follows s := by
  have hinit : (init serverFd).Follows (Epoll.init serverFd epollFd) := ⟨rfl, rfl, rfl⟩
  exact hrun.simulates hinit fun d s a s' hfollows hstep => hfollows.step hstep

end EpollLoop

end SimpleServer
