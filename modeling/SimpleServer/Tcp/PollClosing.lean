import SimpleServer.Http.Ownership
import SimpleServer.Tcp.Poll

/-!
# The closing of descriptors by the poll server

Three places of the poll server close descriptors. `handle_connection_request` closes a connection
that was just accepted, which is open; but the entry stays in the list, and when it hangs up
`remove_socket` closes a number that is not open any more, or another connection's. A client
found disconnected is closed and then closed once more by `remove_socket`, or by `remove_socket`
alone when its number was not open to begin with.

`closes_of_reached` is for the runs in which neither happens, and says that a step in which one
of them happens does close a number that is not open.
-/

namespace SimpleServer

open Cxx Posix Runs

namespace Poll

/-- The entry is not that of a client found disconnected, and is open when it hung up. -/
def closesOpenEntry (s : Poll) (p : PollFd) : Bool :=
  match s.branch p with
  | .hangUp => s.world.kernel.isOpen p.fd
  | .client => !s.disconnected p.fd
  | _ => true

/-- No client is found disconnected, and what hangs up is open. -/
def closesOpen (s : Poll) : Label → Bool
  | .serve _ => s.current.all s.closesOpenEntry
  | _ => true

variable {cfg : Config} {s s' : Poll}

theorem tidy_acceptConnection (h : Tidy s.world.kernel) {accepted : Option Arrival}
    (hstep : acceptConnection cfg accepted s = some s') : Tidy s'.world.kernel := by
  obtain ⟨fd, kernel, hacc⟩ := acceptConnection_cases hstep
  have hkernel : Tidy kernel := h.accept hacc.accept
  rcases hacc.handled with hok | hworld
  · exact tidy_handled (w := { s.world with kernel }) hkernel (handled_of_ok hok)
  · rw [hworld]
    exact hkernel

/-- A client that has not disconnected is not closed. -/
theorem tidy_serveClient (h : Tidy s.world.kernel) {fd : ℤ} (hdis : s.disconnected fd = false) :
    Tidy (serveClient fd s).world.kernel := by
  rw [serveClient, hdis, if_neg Bool.false_ne_true]
  split
  · rename_i world hok
    exact h.talks (notifyMessageRequest_talks hok)
  · exact h

theorem tidy_serveEntry (h : Tidy s.world.kernel) {accepted : Option Arrival} {p : PollFd}
    (hp : p.fd ∈ s.fds) (hok : s.closesOpenEntry p = true)
    (hstep : serveEntry cfg accepted p s = some s') : Tidy s'.world.kernel := by
  rw [serveEntry] at hstep
  rw [closesOpenEntry] at hok
  cases hb : s.branch p with
  | hangUp =>
    rw [hb] at hstep hok
    cases hstep
    rw [removeSocket_of_mem hp]
    exact h.close hok
  | output =>
    rw [hb] at hstep
    cases hstep
    exact h
  | accept =>
    rw [hb] at hstep
    exact tidy_acceptConnection h hstep
  | client =>
    rw [hb] at hstep hok
    cases hstep
    exact tidy_serveClient h (by simpa using hok)
  | idle =>
    rw [hb] at hstep
    cases hstep
    exact h

/-- A client found disconnected, and a closed number that hangs up, lead to a call of `close` on
a number that is not open. -/
theorem not_closesOpen_serveEntry {accepted : Option Arrival} {p : PollFd} (hp : p.fd ∈ s.fds)
    (hnot : s.closesOpenEntry p = false) (hstep : serveEntry cfg accepted p s = some s') :
    ¬ ClosesOpen s'.world.kernel.log := by
  rw [serveEntry] at hstep
  rw [closesOpenEntry] at hnot
  cases hb : s.branch p with
  | hangUp =>
    rw [hb] at hstep hnot
    cases hstep
    rw [removeSocket_of_mem hp]
    exact not_closesOpen_close hnot
  | client =>
    rw [hb] at hstep hnot
    cases hstep
    rw [serveClient, if_pos (by simpa using hnot)]
    split_ifs with hopen
    · -- the second call finds what the first has closed
      rw [removeSocket_of_mem (s := { s with world.kernel := s.world.kernel.close p.fd }) hp]
      refine not_closesOpen_close ?_
      simp [Kernel.close, Kernel.isOpen]
    · rw [removeSocket_of_mem hp]
      exact not_closesOpen_close (by simpa using hopen)
  | _ => simp [hb] at hnot

theorem tidy_step (h : Tidy s.world.kernel) {a : Label} (hok : closesOpen s a = true)
    (hstep : step cfg s a = some s') : Tidy s'.world.kernel := by
  cases a with
  | net a =>
    cases hstep
    exact h.talks (s.world.kernel.talks_arrive a)
  | poll revents =>
    unfold step at hstep
    split_ifs at hstep
    cases revents with
    | none =>
      cases hstep
      exact h
    | some revents =>
      simp only at hstep
      split_ifs at hstep
      cases hstep
      exact h
  | serve accepted =>
    obtain ⟨i, hphase, ⟨-, rfl⟩ | ⟨p, hp, hentry⟩⟩ := serve_cases hstep
    · exact h
    · have hcurrent : s.current = some p := (current_eq hphase).trans hp
      have hmem : p.fd ∈ s.fds := mem_fds_of_current hcurrent
      rw [closesOpen, hcurrent] at hok
      exact tidy_serveEntry (s := { s with phase := .scanning (i + 1) }) h hmem hok hentry

/-- **What the poll server closes.** In every run from the state behind `create_server` in which
no client is found disconnected and what hangs up is open, only open numbers are closed, and each
at most once between two calls of `accept` that return it; any other step closes a number that
is not open. -/
theorem closes_of_reached (cfg : Config) (serverFd : ℤ) {s : Poll}
    (hrun : Reached (step cfg) (fun s a => closesOpen s a = true) (init serverFd) s) :
    (ClosesOpen s.world.kernel.log ∧ ClosesOnce s.world.kernel.log) ∧
    ∀ a s', step cfg s a = some s' → closesOpen s a = false →
      ¬ ClosesOpen s'.world.kernel.log := by
  have h : Tidy s.world.kernel :=
    hrun.invariant (I := fun s => Tidy s.world.kernel) (.of_log_eq_nil rfl)
      fun _ _ _ h hok hstep => tidy_step h hok hstep
  refine ⟨⟨h.opened, h.once⟩, fun a s' hstep hnot => ?_⟩
  cases a with
  | serve accepted =>
    obtain ⟨i, hphase, ⟨hnone, -⟩ | ⟨p, hp, hentry⟩⟩ := serve_cases hstep
    · rw [closesOpen, current_eq hphase, hnone] at hnot
      cases hnot
    · have hcurrent : s.current = some p := (current_eq hphase).trans hp
      have hmem : p.fd ∈ s.fds := mem_fds_of_current hcurrent
      rw [closesOpen, hcurrent] at hnot
      exact not_closesOpen_serveEntry (s := { s with phase := .scanning (i + 1) }) hmem hnot hentry
  | _ => cases hnot

/-- A page is requested, and its connection closed by the handler. -/
theorem closes_page : ∃ s : Poll, s.world.kernel.log.getLast? = some (.close 5 true) ∧
    ClosesOnce s.world.kernel.log := by
  let labels : List Label :=
    [.poll (some [⟨true, false, false⟩]), .serve (some ⟨5, [some plainRequest], []⟩)]
  have hrun : (run (step bareConfig) (fun s a => closesOpen s a = true) (init 3) labels).any
      (fun s => s.world.kernel.log.getLast? = some (.close 5 true)) = true := by
    decide +kernel
  obtain ⟨s, hs, hend⟩ := exists_reached hrun
  exact ⟨s, hend, (closes_of_reached bareConfig 3 hs).1.2⟩

/-- A WebSocket client disconnects, and its number is closed twice. -/
theorem not_closesOnce_disconnected :
    ¬ ∀ s, Reached (step bareConfig) anyStep (init 3) s →
      ClosesOpen s.world.kernel.log ∧ ClosesOnce s.world.kernel.log := by
  let labels : List Label :=
    [.poll (some [⟨true, false, false⟩]), .serve (some ⟨5, [some upgradeRequest], []⟩),
      .serve none, .serve none, .net ⟨5, [some []], []⟩,
      .poll (some [⟨false, false, false⟩, ⟨true, false, false⟩]), .serve none, .serve none]
  have hrun : (run (step bareConfig) anyStep (init 3) labels).any
      (fun s => s.world.kernel.log.drop 2 = [.close 5 true, .close 5 false]) = true := by
    decide +kernel
  intro h
  obtain ⟨s, hs, hend⟩ := exists_reached hrun
  have hmem : .close 5 false ∈ s.world.kernel.log :=
    List.mem_of_mem_drop (i := 2) (by rw [hend]; simp)
  exact Bool.false_ne_true ((h s hs).1 5 false hmem)

end Poll

end SimpleServer
