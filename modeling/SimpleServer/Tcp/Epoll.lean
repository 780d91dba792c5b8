import SimpleServer.Foundations.Closing
import SimpleServer.Foundations.Runs

/-!
# The epoll loop

`tcp_epoll_handler::accept_and_process_message` as a transition system. One step is a return of
`epoll_wait`, the handling of the next event of its batch, or a change that the network makes to
a connection; the label holds what the environment decides. `accept` may return any number that
is not open, also one that an earlier event of the batch has closed.

`lifeCycle_of_reached` says that this does not confuse the loop: an event that waits in a batch
is always that of an open descriptor, so no number can be handed out again before its event has
been handled.
-/

namespace SimpleServer

open Cxx Posix Runs

/-- Where the loop is: at `epoll_wait`, in front of the events of a batch, or behind the `while`
loop. -/
inductive EpollPhase
  | polling
  | handling (events : List ℤ)
  | stopped
  deriving DecidableEq

/-- A `tcp_epoll_handler` with the descriptors of the process. -/
structure Epoll where
  serverFd : ℤ
  epollFd : ℤ
  /-- The interest list of `epoll_fd`. -/
  interest : Finset ℤ
  phase : EpollPhase
  /-- The variable `count`, which the code keeps as an `int`. -/
  count : ℕ
  kernel : Kernel
  /-- The numbers given to `recv` and `send`, and whether they were open. -/
  uses : List (ℤ × Bool)

inductive EpollLabel
  /-- The network decides what the coming calls on a connection get. -/
  | net (a : Arrival)
  /-- `epoll_wait` returns with descriptors of the interest list, or fails. -/
  | wait (events : Option (List ℤ))
  /-- The body of the `for` loop, with the connection that `accept` returns if it is called, and
  whether `EPOLL_CTL_ADD` succeeds and `errno` is `EAGAIN` behind a failed `recv`. -/
  | serve (accepted : Option Arrival) (added again : Bool)

/-- The response to the `count`-th message. -/
def epollResponse (count : ℕ) : Bytes :=
  let body := lit "Hola eres el numero==>" ++ decimal count
  lit "HTTP/1.1 200 OK\r\n" ++ lit "Content-Type: text/plain\r\n" ++
    (lit "Content-Length: " ++ decimal body.length ++ lit "\r\n") ++
    lit "Connection: close\r\n\r\n" ++ body

namespace Epoll

/-- The state behind `create_server`. -/
def init (serverFd epollFd : ℤ) : Epoll where
  serverFd := serverFd
  epollFd := epollFd
  interest := {serverFd}
  phase := .polling
  count := 0
  kernel := ⟨fun fd => if fd = serverFd then some .listener else none, []⟩
  uses := []

/-- `recv(fd, buffer, BUFFER_SIZE, 0)`. -/
def recv (fd : ℤ) (s : Epoll) : Option Bytes × Epoll :=
  let r := s.kernel.recv fd 4096
  (r.1, { s with kernel := r.2, uses := s.uses ++ [(fd, s.kernel.isOpen fd)] })

/-- `send(fd, bytes, size, 0)`. -/
def send (fd : ℤ) (bytes : Bytes) (s : Epoll) : Epoll :=
  { s with kernel := s.kernel.send fd bytes, uses := s.uses ++ [(fd, s.kernel.isOpen fd)] }

/-- `close(fd)`, which also takes the number out of the interest list. -/
def close (fd : ℤ) (s : Epoll) : Epoll :=
  { s with kernel := s.kernel.close fd, interest := s.interest.erase fd }

/-- `epoll_ctl(epoll_fd, EPOLL_CTL_DEL, fd, nullptr)`, which fails on a number that is not
open. -/
def del (fd : ℤ) (s : Epoll) : Epoll :=
  if s.kernel.isOpen fd then { s with interest := s.interest.erase fd } else s

/-- The branch of `server_fd`. The descriptor of the epoll instance is open and not returned. -/
def acceptClient (accepted : Option Arrival) (added : Bool) (s : Epoll) : Option Epoll :=
  if accepted.any (·.fd = s.epollFd) then none
  else
    match s.kernel.accept s.serverFd accepted with
    | none => none
    | some (clientFd, kernel) =>
      let s := { s with kernel }
      if clientFd < 0 then some s
      else if added then some { s with interest := insert clientFd s.interest }
      else some (s.close clientFd)

/-- The branch of a client. -/
def serveClient (fd : ℤ) (again : Bool) (s : Epoll) : Epoll :=
  match s.recv fd with
  | (none, s) => if again then s else (s.close fd).del fd
  | (some [], s) => (s.close fd).del fd
  | (some _, s) =>
    let s := { s with count := s.count + 1 }
    ((s.send fd (epollResponse s.count)).close fd).del fd

/-- The body of the `for` loop for an event. -/
def serveEvent (accepted : Option Arrival) (added again : Bool) (fd : ℤ) (s : Epoll) :
    Option Epoll :=
  if fd = s.serverFd then s.acceptClient accepted added else some (s.serveClient fd again)

/-- One step of the server. -/
def step (s : Epoll) : EpollLabel → Option Epoll
  | .net a => some { s with kernel := s.kernel.arrive a }
  | .wait events =>
    if s.phase = .polling then
      match events with
      | none => some { s with phase := .stopped }
      | some events =>
        if events.Nodup ∧ ∀ fd ∈ events, fd ∈ s.interest then
          some { s with phase := .handling events }
        else none
    else none
  | .serve accepted added again =>
    match s.phase with
    | .handling [] => some { s with phase := .polling }
    | .handling (fd :: events) =>
      { s with phase := .handling events }.serveEvent accepted added again fd
    | _ => none

/-! ## What is kept -/

/-- A number is an open connection. -/
def IsClient (s : Epoll) (fd : ℤ) : Prop := ∃ c, s.kernel.table fd = some (.conn c)

/-- The interest list holds the listener and the open connections, which are the accepted clients
not yet closed, and every call was on an open number. -/
structure Sound (s : Epoll) : Prop where
  listener : s.kernel.table s.serverFd = some .listener
  tidy : Tidy s.kernel
  held : ∀ fd, (0 ≤ fd ∧ Held s.kernel.log fd) ↔ s.IsClient fd
  interest : ∀ fd, fd ∈ s.interest ↔ fd = s.serverFd ∨ s.IsClient fd
  used : ∀ u ∈ s.uses, u.2 = true

variable {s s' : Epoll} {fd : ℤ}

theorem IsClient.isOpen (h : s.IsClient fd) : s.kernel.isOpen fd = true := by
  obtain ⟨c, hc⟩ := h
  rw [Kernel.isOpen, hc]
  rfl

theorem IsClient.talks (hc : s.IsClient fd) (htalks : s.kernel.Talks s'.kernel) :
    s'.IsClient fd := by
  obtain ⟨c, hc⟩ := hc
  obtain ⟨c', hc', -⟩ := htalks.grows.conn hc
  exact ⟨c', hc'⟩

theorem sound_init (serverFd epollFd : ℤ) : Sound (init serverFd epollFd) where
  listener := if_pos rfl
  tidy := .of_log_eq_nil rfl
  held fd := by
    by_cases h : fd = serverFd <;> simp [init, Held, IsClient, h]
  interest fd := by
    by_cases h : fd = serverFd <;> simp [init, IsClient, h]
  used := by simp [init]

namespace Sound

theorem ne_serverFd (h : Sound s) (hc : s.IsClient fd) : fd ≠ s.serverFd := by
  rintro rfl
  obtain ⟨c, hc⟩ := hc
  rw [h.listener] at hc
  cases hc

theorem notMem_interest (h : Sound s) (hfree : s.kernel.table fd = none) : fd ∉ s.interest := by
  rw [h.interest]
  rintro (rfl | ⟨c, hc⟩)
  · rw [h.listener] at hfree
    cases hfree
  · rw [hfree] at hc
    cases hc

/-- The kernel has changed, and calls on open numbers were recorded. -/
theorem talks (h : Sound s) (hserver : s'.serverFd = s.serverFd)
    (hinterest : s'.interest = s.interest) (htalks : s.kernel.Talks s'.kernel)
    (hused : ∀ u ∈ s'.uses, u.2 = true) : Sound s' := by
  have hclient (fd : ℤ) : s'.IsClient fd ↔ s.IsClient fd := by
    constructor
    · rintro ⟨c, hc⟩
      exact htalks.grows.conn_of hc
    · exact fun hc => hc.talks htalks
  obtain ⟨sent, hlog⟩ := htalks.log
  refine ⟨?_, h.tidy.talks htalks, fun fd => ?_, fun fd => ?_, hused⟩
  · rw [hserver]
    exact htalks.grows.listener h.listener
  · rw [hclient, ← h.held]
    exact and_congr_right fun _ => by rw [hlog, held_sends]
  · rw [hclient, hserver, hinterest]
    exact h.interest fd

theorem used_concat (h : Sound s) (hc : s.IsClient fd) :
    ∀ u ∈ s.uses ++ [(fd, s.kernel.isOpen fd)], u.2 = true := by
  intro u hu
  rcases List.mem_append.mp hu with hu | hu
  · exact h.used u hu
  · rw [List.mem_singleton.mp hu]
    exact hc.isOpen

theorem recv (h : Sound s) (hc : s.IsClient fd) : Sound (s.recv fd).2 :=
  h.talks rfl rfl (s.kernel.talks_recv fd 4096) (h.used_concat hc)

theorem send (h : Sound s) (hc : s.IsClient fd) (bytes : Bytes) : Sound (s.send fd bytes) :=
  h.talks rfl rfl (s.kernel.talks_send fd bytes) (h.used_concat hc)

/-- A client is closed. -/
theorem close (h : Sound s) (hc : s.IsClient fd) : Sound (s.close fd) := by
  have hne := h.ne_serverFd hc
  have htable (fd' : ℤ) : (s.close fd).IsClient fd' ↔ fd' ≠ fd ∧ s.IsClient fd' := by
    by_cases hfd : fd' = fd
    · simp [IsClient, Epoll.close, Kernel.close, hfd]
    · simp [IsClient, Epoll.close, Kernel.close, hfd]
  refine ⟨?_, h.tidy.close hc.isOpen, fun fd' => ?_, fun fd' => ?_, h.used⟩
  · exact (Function.update_of_ne hne.symm ..).trans h.listener
  · rw [htable, ← h.held]
    change 0 ≤ fd' ∧ Held (s.kernel.log ++ [_]) fd' ↔ _
    rw [held_concat]
    constructor
    · rintro ⟨h0, hcall | ⟨hheld, hcall⟩⟩
      · cases hcall
      · exact ⟨fun e => hcall _ (by rw [e]), h0, hheld⟩
    · rintro ⟨hfd, h0, hheld⟩
      refine ⟨h0, Or.inr ⟨hheld, fun b hb => ?_⟩⟩
      cases hb
      exact hfd rfl
  · rw [htable, Epoll.close, Finset.mem_erase, h.interest]
    constructor
    · rintro ⟨hfd, rfl | hc'⟩
      · exact Or.inl rfl
      · exact Or.inr ⟨hfd, hc'⟩
    · rintro (rfl | ⟨hfd, hc'⟩)
      · exact ⟨hne.symm, Or.inl rfl⟩
      · exact ⟨hfd, Or.inr hc'⟩

/-- `accept` has returned a client, which is added to the interest list. -/
theorem accept (h : Sound s) {accepted : Option Arrival} {k : Kernel}
    (haccept : s.kernel.accept s.serverFd accepted = some (fd, k)) (h0 : 0 ≤ fd) :
    Sound { s with kernel := k, interest := insert fd s.interest } := by
  have hlog : k.log = s.kernel.log ++ [.accept fd] := Kernel.log_accept haccept
  rcases Kernel.accept_cases haccept with ⟨-, rfl, -⟩ | ⟨a, -, -, -, hfree, -, htable⟩
  · exact absurd h0 (by decide)
  have hne : fd ≠ s.serverFd := by
    rintro rfl
    rw [h.listener] at hfree
    cases hfree
  have hclient (fd' : ℤ) : (∃ c, k.table fd' = some (.conn c)) ↔ fd' = fd ∨ s.IsClient fd' := by
    by_cases hfd : fd' = fd
    · simp [htable, hfd]
    · simp [htable, hfd, IsClient]
  refine ⟨?_, h.tidy.accept haccept, fun fd' => ?_, fun fd' => ?_, h.used⟩
  · change k.table s.serverFd = _
    rw [htable, Function.update_of_ne hne.symm]
    exact h.listener
  · change 0 ≤ fd' ∧ Held k.log fd' ↔ ∃ c, k.table fd' = _
    rw [hclient, ← h.held, hlog, held_concat]
    constructor
    · rintro ⟨h0', hcall | ⟨hheld, -⟩⟩
      · cases hcall
        exact Or.inl rfl
      · exact Or.inr ⟨h0', hheld⟩
    · rintro (rfl | ⟨h0', hheld⟩)
      · exact ⟨h0, Or.inl rfl⟩
      · exact ⟨h0', Or.inr ⟨hheld, by simp⟩⟩
  · change fd' ∈ insert fd s.interest ↔ fd' = s.serverFd ∨ ∃ c, k.table fd' = _
    rw [hclient, Finset.mem_insert, h.interest, or_left_comm]

/-- A failed call of `accept`. -/
theorem accept_failed (h : Sound s) {accepted : Option Arrival} {k : Kernel}
    (haccept : s.kernel.accept s.serverFd accepted = some (fd, k)) (h0 : fd < 0) :
    Sound { s with kernel := k } := by
  have hlog : k.log = s.kernel.log ++ [.accept fd] := Kernel.log_accept haccept
  rcases Kernel.accept_cases haccept with ⟨-, -, htable⟩ | ⟨-, -, -, hpos, -⟩
  · refine ⟨htable ▸ h.listener, h.tidy.accept haccept, fun fd' => ?_, fun fd' => ?_, h.used⟩
    · change 0 ≤ fd' ∧ Held k.log fd' ↔ ∃ c, k.table fd' = _
      rw [htable, hlog, held_concat]
      refine Iff.trans (and_congr_right fun h0' => ?_) (h.held fd')
      have hne : fd ≠ fd' := by omega
      simp [hne]
    · change fd' ∈ s.interest ↔ fd' = s.serverFd ∨ ∃ c, k.table fd' = _
      rw [htable]
      exact h.interest fd'
  · omega

end Sound

/-! ## What an event does -/

/-- A closed number is not in the interest list any more. -/
theorem del_close (s : Epoll) (fd : ℤ) : (s.close fd).del fd = s.close fd := by
  rw [del, if_neg]
  simp [close, Kernel.close, Kernel.isOpen]

/-- The handling of one event: what was kept still is, and no number but `fd` has left the
interest list. -/
structure Handled (fd : ℤ) (s s' : Epoll) : Prop where
  sound : Sound s'
  phase : s'.phase = s.phase
  interest : s.interest.erase fd ⊆ s'.interest

theorem handled_close {t : Epoll} (h : Sound t) (hc : t.IsClient fd) (hphase : t.phase = s.phase)
    (hinterest : t.interest = s.interest) : Handled fd s ((t.close fd).del fd) := by
  rw [del_close]
  refine ⟨h.close hc, hphase, ?_⟩
  rw [close, hinterest]

theorem handled_serveClient (h : Sound s) (hc : s.IsClient fd) (again : Bool) :
    Handled fd s (s.serveClient fd again) := by
  have hrecv := h.recv hc
  have hc' : (s.recv fd).2.IsClient fd := hc.talks (s.kernel.talks_recv fd 4096)
  have hphase : (s.recv fd).2.phase = s.phase := rfl
  have hinterest : (s.recv fd).2.interest = s.interest := rfl
  rw [serveClient]
  generalize s.recv fd = received at hrecv hc' hphase hinterest ⊢
  rcases received with ⟨_ | _ | ⟨b, bytes⟩, t⟩
  · cases again with
    | true => exact ⟨hrecv, hphase, hinterest ▸ Finset.erase_subset _ _⟩
    | false => exact handled_close hrecv hc' hphase hinterest
  · exact handled_close hrecv hc' hphase hinterest
  · have hcount : Sound { t with count := t.count + 1 } :=
      hrecv.talks rfl rfl (.refl _) hrecv.used
    have hsend := hcount.send hc' (epollResponse (t.count + 1))
    exact handled_close hsend (hc'.talks (t.kernel.talks_send fd _)) hphase hinterest

/-- No client, or one that has entered the interest list, or one that is closed. -/
theorem acceptClient_inv {accepted : Option Arrival} {added : Bool}
    (hstep : s.acceptClient accepted added = some s') :
    ∃ fd kernel, s.kernel.accept s.serverFd accepted = some (fd, kernel) ∧
      ((fd < 0 ∧ s' = { s with kernel }) ∨
        (0 ≤ fd ∧ s' = { s with kernel, interest := insert fd s.interest }) ∨
          (0 ≤ fd ∧ s' = { s with kernel }.close fd)) := by
  rw [acceptClient] at hstep
  split at hstep
  · cases hstep
  rcases haccept : s.kernel.accept s.serverFd accepted with _ | ⟨fd, kernel⟩
  · rw [haccept] at hstep
    cases hstep
  rw [haccept] at hstep
  simp only at hstep
  refine ⟨fd, kernel, rfl, ?_⟩
  split_ifs at hstep with hneg
  · cases hstep
    exact Or.inl ⟨hneg, rfl⟩
  · cases hstep
    exact Or.inr (Or.inl ⟨not_lt.mp hneg, rfl⟩)
  · cases hstep
    exact Or.inr (Or.inr ⟨not_lt.mp hneg, rfl⟩)

theorem handled_acceptClient (h : Sound s) {accepted : Option Arrival} {added : Bool}
    (hstep : s.acceptClient accepted added = some s') : Handled s.serverFd s s' := by
  have herase := Finset.erase_subset s.serverFd s.interest
  obtain ⟨clientFd, k, haccept, ⟨hneg, rfl⟩ | ⟨hpos, rfl⟩ | ⟨hpos, rfl⟩⟩ := acceptClient_inv hstep
  · exact ⟨h.accept_failed haccept hneg, rfl, herase⟩
  · exact ⟨h.accept haccept hpos, rfl, herase.trans (Finset.subset_insert _ _)⟩
  · -- the client leaves the interest list that it had not entered
    have hadd := h.accept haccept hpos
    obtain ⟨a, hfree, htable⟩ : ∃ a : Arrival, s.kernel.table clientFd = none ∧
        k.table = Function.update s.kernel.table clientFd
          (some (.conn ⟨a.inbox, a.outbox, [], []⟩)) := by
      rcases Kernel.accept_cases haccept with ⟨-, rfl, -⟩ | ⟨a, -, -, -, hfree, -, htable⟩
      · omega
      · exact ⟨a, hfree, htable⟩
    have hclient : IsClient { s with kernel := k, interest := insert clientFd s.interest }
        clientFd := ⟨_, by rw [htable]; exact Function.update_self ..⟩
    have hclose := hadd.close hclient
    have hnot := h.notMem_interest hfree
    have heq : { s with kernel := k, interest := insert clientFd s.interest }.close clientFd =
        { s with kernel := k }.close clientFd := by
      simp [close, Finset.erase_insert_eq_erase]
    rw [heq] at hclose
    exact ⟨hclose, rfl, herase.trans (Finset.erase_eq_of_notMem hnot).ge⟩

/-- The events left of a batch are those of distinct descriptors of the interest list. -/
structure Fresh (s : Epoll) : Prop extends Sound s where
  nodup : ∀ events, s.phase = .handling events → events.Nodup
  mem : ∀ events, s.phase = .handling events → ∀ fd ∈ events, fd ∈ s.interest

theorem Fresh.handled (h : Fresh s) {events : List ℤ} (hphase : s.phase = .handling (fd :: events))
    (hfd : Handled fd { s with phase := .handling events } s') : Fresh s' := by
  obtain ⟨hnot, hnodup⟩ := List.nodup_cons.mp (h.nodup _ hphase)
  have hrest (events' : List ℤ) (hphase' : s'.phase = .handling events') : events' = events :=
    EpollPhase.handling.inj (hphase'.symm.trans hfd.phase)
  refine ⟨hfd.sound, fun events' hphase' => ?_, fun events' hphase' fd' hmem => ?_⟩
  · rw [hrest events' hphase']
    exact hnodup
  · rw [hrest events' hphase'] at hmem
    have hne : fd' ≠ fd := fun e => hnot (e ▸ hmem)
    have hmem' : fd' ∈ s.interest := h.mem _ hphase fd' (List.mem_cons_of_mem _ hmem)
    exact hfd.interest (Finset.mem_erase.mpr ⟨hne, hmem'⟩)

theorem Handled.serveEvent (h : Sound s) (hmem : fd ∈ s.interest) {accepted : Option Arrival}
    {added again : Bool} (hstep : s.serveEvent accepted added again fd = some s') :
    Handled fd s s' := by
  rw [Epoll.serveEvent] at hstep
  split_ifs at hstep with hserver
  · rw [hserver]
    exact handled_acceptClient h hstep
  · cases hstep
    exact handled_serveClient h (((h.interest fd).mp hmem).resolve_left hserver) again

theorem Fresh.of_phase (h : Sound s) (hphase : ∀ events, s.phase ≠ .handling events) : Fresh s :=
  ⟨h, fun events he => absurd he (hphase events), fun events he => absurd he (hphase events)⟩

/-- One step keeps the events that wait those of open descriptors. -/
theorem Fresh.step (h : Fresh s) {a : EpollLabel} (hstep : s.step a = some s') : Fresh s' := by
  have hsound := h.toSound
  cases a with
  | net a =>
    cases hstep
    exact ⟨hsound.talks rfl rfl (s.kernel.talks_arrive a) h.used, h.nodup, h.mem⟩
  | wait events =>
    unfold Epoll.step at hstep
    split_ifs at hstep
    cases events with
    | none =>
      cases hstep
      exact .of_phase (hsound.talks rfl rfl (.refl _) h.used) (by simp)
    | some events =>
      simp only at hstep
      split_ifs at hstep with hevents
      cases hstep
      have hbatch (events' : List ℤ) (he : EpollPhase.handling events = .handling events') :
          events' = events := (EpollPhase.handling.inj he).symm
      refine ⟨hsound.talks rfl rfl (.refl _) h.used, fun events' he => ?_, fun events' he => ?_⟩
      · rw [hbatch events' he]
        exact hevents.1
      · rw [hbatch events' he]
        exact hevents.2
  | serve accepted added again =>
    simp only [Epoll.step] at hstep
    split at hstep
    · cases hstep
      exact .of_phase (hsound.talks rfl rfl (.refl _) h.used) (by simp)
    · rename_i fd events hphase
      have hsound' : Sound { s with phase := .handling events } :=
        hsound.talks rfl rfl (.refl _) h.used
      have hmem : fd ∈ s.interest := h.mem _ hphase fd List.mem_cons_self
      exact h.handled hphase (.serveEvent hsound' hmem hstep)
    · cases hstep

/-- The life cycle of the descriptors: the interest list holds the listener and the accepted
clients not yet closed, every call was on an open number, and each client was closed at most
once. -/
structure LifeCycle (s : Epoll) : Prop where
  interest : ∀ fd, fd ∈ s.interest ↔ fd = s.serverFd ∨ (0 ≤ fd ∧ Held s.kernel.log fd)
  used : ∀ u ∈ s.uses, u.2 = true
  opened : ClosesOpen s.kernel.log
  once : ClosesOnce s.kernel.log

/-- **The life cycle of the descriptors** is kept in every run from the state behind
`create_server`, whatever the batches, the clients accepted and the numbers they get. -/
theorem lifeCycle_of_reached (serverFd epollFd : ℤ) {s : Epoll}
    (hrun : Reached Epoll.step anyStep (init serverFd epollFd) s) : LifeCycle s := by
  have h : Fresh s := hrun.invariant (.of_phase (sound_init serverFd epollFd) (by simp [init]))
    fun _ _ _ h _ hstep => h.step hstep
  refine ⟨fun fd => ?_, h.used, h.tidy.opened, h.tidy.once⟩
  rw [h.interest, h.held]

/-- In one batch a client is answered and closed and its number accepted again. -/
theorem lifeCycle_reuse : ∃ s : Epoll, s.interest = {3, 5} ∧ s.count = 1 ∧ LifeCycle s := by
  let page := some (lit "GET / HTTP/1.1\r\n\r\n")
  let labels : List EpollLabel :=
    [.wait (some [3]), .serve (some ⟨5, [page], []⟩) true false, .serve none false false,
      .wait (some [5, 3]), .serve none false false, .serve (some ⟨5, [], []⟩) true false]
  have hrun : (run Epoll.step anyStep (init 3 4) labels).any
      (fun s => s.interest = {3, 5} ∧ s.count = 1) = true := by
    decide +kernel
  obtain ⟨s, hs, hend⟩ := exists_reached hrun
  exact ⟨s, hend.1, hend.2, lifeCycle_of_reached 3 4 hs⟩

end Epoll

end SimpleServer
