import SimpleServer.Tcp.Poll

/-!
# The list of polled descriptors

`poll_fds` should hold the listener once and beside it distinct descriptors of open connections
(`WellKept`). The loop keeps this when it accepts and when it removes a client, but three things
break it: a failed `accept` whose `-1` is pushed, a request whose handler closes the connection
that stays in the list, and a hang-up on the listener. `wellKept_of_reached` is the invariant
for the runs in which none of these happens.
-/

namespace SimpleServer

open Cxx Posix Runs

namespace Poll

/-- The listener once, and beside it distinct non-negative descriptors of open connections. -/
structure WellKept (s : Poll) : Prop where
  server : s.fds.count s.serverFd = 1
  nodup : s.fds.Nodup
  client : ∀ fd ∈ s.fds, fd ≠ s.serverFd →
    0 ≤ fd ∧ ∃ c, s.world.kernel.table fd = some (.conn c)

/-- No hang-up on the listener, and every `accept` returns a connection whose first request is
not answered by closing it. -/
def keepsList (cfg : Config) (s : Poll) : Label → Bool
  | .serve accepted =>
    match s.current with
    | none => true
    | some p =>
      match s.branch p with
      | .hangUp => p.fd ≠ s.serverFd
      | .accept =>
        match accepted with
        | none => false
        | some a => !closes cfg.platform cfg.routes a.inbox
      | _ => true
  | _ => true

/-- The list is well kept, and the listener open. -/
structure Kept (s : Poll) : Prop extends WellKept s where
  listener : s.world.kernel.table s.serverFd = some .listener

variable {cfg : Config} {s s' : Poll}

theorem kept_init (serverFd : ℤ) : Kept (init serverFd) where
  server := by simp [init, fds, PollFd.new]
  nodup := by simp [init, fds]
  client := by
    intro fd hfd hne
    simp only [init, fds, PollFd.new, List.map_cons, List.map_nil, List.mem_singleton] at hfd
    exact absurd hfd hne
  listener := if_pos rfl

theorem Kept.quiet (h : Kept s) (hq : Quiet s s') : Kept s' where
  server := by rw [hq.fds, hq.serverFd, h.server]
  nodup := by rw [hq.fds]; exact h.nodup
  client := by
    intro fd hfd hne
    rw [hq.fds] at hfd
    rw [hq.serverFd] at hne
    obtain ⟨hpos, c, hc⟩ := h.client fd hfd hne
    obtain ⟨c', hc', -⟩ := hq.grows.conn hc
    exact ⟨hpos, c', hc'⟩
  listener := by
    rw [hq.serverFd]
    exact hq.grows.listener h.listener

/-- As no descriptor is twice in the list, none that is closed stays in it. -/
theorem Kept.removed (h : Kept s) {fd : ℤ} (hne : fd ≠ s.serverFd) (hr : Removed fd s s') :
    Kept s' where
  server := by rw [hr.fds, hr.serverFd, List.count_erase_of_ne hne.symm, h.server]
  nodup := by
    rw [hr.fds]
    exact h.nodup.erase fd
  client := by
    intro fd' hfd' hne'
    rw [hr.fds, h.nodup.mem_erase_iff] at hfd'
    rw [hr.serverFd] at hne'
    rw [hr.table fd' hfd'.1]
    exact h.client fd' hfd'.2 hne'
  listener := by rw [hr.serverFd, hr.table _ hne.symm, h.listener]

/-- A number that `accept` returns is not open, and so not in the list. -/
theorem Kept.accepted (h : Kept s) {a : Arrival} {fd : ℤ} {kernel : Kernel}
    (hclose : closes cfg.platform cfg.routes a.inbox = false)
    (hacc : Accepted cfg (some a) fd kernel s s') : Kept s' := by
  obtain ⟨-, hpos, hfree, htable⟩ := Kernel.of_accept_some hacc.accept
  have hconn : kernel.table fd = some (.conn ⟨a.inbox, a.outbox, [], []⟩) := by
    rw [htable, Function.update_self]
  have hinbox : kernel.inbox fd = a.inbox := by rw [Kernel.inbox, hconn]
  have hgrows : kernel.Grows s'.world.kernel := by
    rcases hacc.handled with hok | hworld
    · refine handleConnectionRequest_grows hok ?_
      rw [hinbox]
      exact hclose
    · rw [hworld]
      exact .refl _
  have hserver : fd ≠ s.serverFd := by
    rintro rfl
    rw [h.listener] at hfree
    cases hfree
  have hnew : fd ∉ s.fds := by
    intro hmem
    obtain ⟨-, c, hc⟩ := h.client fd hmem hserver
    rw [hc] at hfree
    cases hfree
  refine ⟨⟨?_, ?_, ?_⟩, ?_⟩
  · rw [hacc.fds, hacc.serverFd, List.count_append, h.server, List.count_singleton]
    simp [hserver]
  · rw [hacc.fds, ← List.concat_eq_append]
    exact h.nodup.concat hnew
  · intro fd' hfd' hne'
    rw [hacc.fds, List.mem_append, List.mem_singleton] at hfd'
    rw [hacc.serverFd] at hne'
    rcases hfd' with hfd' | rfl
    · obtain ⟨hpos', c, hc⟩ := h.client fd' hfd' hne'
      have hne : fd' ≠ fd := fun e => hnew (e ▸ hfd')
      rw [← Kernel.table_accept_ne hacc.accept hne] at hc
      obtain ⟨c', hc', -⟩ := hgrows.conn hc
      exact ⟨hpos', c', hc'⟩
    · obtain ⟨c', hc', -⟩ := hgrows.conn hconn
      exact ⟨hpos, c', hc'⟩
  · rw [hacc.serverFd]
    exact hgrows.listener ((Kernel.table_accept_ne hacc.accept hserver.symm).trans h.listener)

theorem Kept.step (h : Kept s) {a : Label} (hok : keepsList cfg s a = true)
    (hstep : step cfg s a = some s') : Kept s' := by
  rcases step_cases hstep with hq | ⟨accepted, p, rfl, hcurrent, hrem, hr⟩ |
    ⟨accepted, p, fd, kernel, rfl, hcurrent, hb, hacc⟩
  · exact h.quiet hq
  · refine h.removed ?_ hr
    simp only [keepsList, hcurrent] at hok
    cases hb : s.branch p with
    | hangUp => simpa [hb] using hok
    | client =>
      intro hfd
      simp [branch, hfd] at hb
      split_ifs at hb
    | _ => simp [removes, hb] at hrem
  · simp only [keepsList, hcurrent, hb] at hok
    cases accepted with
    | none => cases hok
    | some a =>
      rw [Bool.not_eq_true'] at hok
      exact h.accepted hok hacc

/-- **The list of polled descriptors.** In every run from the state behind `create_server` in
which the listener never hangs up, every `accept` returns a connection, and no first request is
answered by closing the connection, every state has the listener once in the list, and beside it
distinct descriptors of open connections. -/
theorem wellKept_of_reached (cfg : Config) (serverFd : ℤ) {s : Poll}
    (hrun : Reached (step cfg) (fun s a => keepsList cfg s a = true) (init serverFd) s) :
    WellKept s :=
  (hrun.invariant (kept_init serverFd) fun _ _ _ h hok hstep => h.step hok hstep).toWellKept

/-- A WebSocket client connects. -/
theorem wellKept_upgrade : ∃ s : Poll, s.fds = [3, 5] ∧ WellKept s := by
  let labels : List Label :=
    [.poll (some [⟨true, false, false⟩]), .serve (some ⟨5, [some upgradeRequest], []⟩)]
  have hrun : (run (step bareConfig) (fun s a => keepsList bareConfig s a = true) (init 3)
      labels).any (fun s => s.fds = [3, 5]) = true := by
    decide +kernel
  obtain ⟨s, hs, hfds⟩ := exists_reached hrun
  exact ⟨s, hfds, wellKept_of_reached bareConfig 3 hs⟩

/-- A page is requested that has no route: the connection is closed and stays in the list. -/
theorem not_wellKept_closed :
    ¬ ∀ s, Reached (step bareConfig) anyStep (init 3) s → WellKept s := by
  let labels : List Label :=
    [.poll (some [⟨true, false, false⟩]), .serve (some ⟨5, [some plainRequest], []⟩)]
  have hrun : (run (step bareConfig) anyStep (init 3) labels).any
      (fun s => s.fds = [3, 5] ∧ s.serverFd = 3 ∧ s.world.kernel.table 5 = none) = true := by
    decide +kernel
  intro h
  obtain ⟨s, hs, hend⟩ := exists_reached hrun
  obtain ⟨-, c, hc⟩ := (h s hs).client 5 (by simp [hend.1]) (by simp [hend.2.1])
  rw [hend.2.2] at hc
  cases hc

end Poll

end SimpleServer
