import SimpleServer.Http.Segmentation
import SimpleServer.Tcp.PollClosing

/-!
# Progress of the poll loop

`poll` reports a descriptor as long as bytes wait on it, so the loop makes progress when serving a
readable client takes a byte or removes the client. The loop itself only peeks;
`notify_message_request` reads from registered descriptors alone, and a connection is registered
by the one call of the HTTP handler behind its `accept` or never. Where that call finds nothing
to read, or answers without closing, the connection stays in the list and nothing that arrives on
it is ever read (`serveClient_unregistered`).

`progress_of_reached` is for the runs in which every connection that this would leave so gets a
number that is registered already.
-/

namespace SimpleServer

open Cxx Inbox Posix Rfc6455 Runs

/-! ## What `read_frame` takes -/

/-- The answers left where the allocation in `read_frame` throws: the header, the extended length
and the masking key have been read. -/
def thrownAt (q : Inbox) : Inbox :=
  match recvExact 2 q with
  | (none, q) => q
  | (some header, q) =>
    match extendedLength (header.getD 1 0) q with
    | (none, q) => q
    | (some _, q) => (maskingKey (decide ((header.getD 1 0 >>> 7) &&& 0x01 ≠ 0)) q).2

section Reads

open Conn

variable {m : ℕ} {q q' : Inbox}

theorem length_waiting_extendedLength_le (b1 : UInt8) (q : Inbox) :
    (waiting (extendedLength b1 q).2).length ≤ (waiting q).length := by
  rw [extendedLength_eq]
  cases formOf b1 with
  | seven => rfl
  | sixteen => exact length_waiting_recvExact_le 2 q
  | sixtyFour => exact length_waiting_recvExact_le 8 q

theorem length_waiting_maskingKey_le (masked : Bool) (q : Inbox) :
    (waiting (maskingKey masked q).2).length ≤ (waiting q).length := by
  cases masked with
  | false => rfl
  | true => exact length_waiting_recvExact_le 4 q

/-- Behind the header, `read_frame` adds nothing to what waits. -/
theorem length_waiting_readParts_le {r : Option (UInt8 × Bytes)} (h : readParts q = .ok (r, q')) :
    (waiting q').length ≤ (waiting (recvExact 2 q).2).length := by
  rw [readParts] at h
  rcases hheader : recvExact 2 q with ⟨_ | header, q₁⟩
  · rw [hheader] at h
    cases h
    rfl
  rw [hheader] at h
  have h₁ := length_waiting_extendedLength_le (header.getD 1 0) q₁
  simp only at h ⊢
  rcases hlength : extendedLength (header.getD 1 0) q₁ with ⟨_ | payloadLength, q₂⟩
  · rw [hlength] at h h₁
    cases h
    exact h₁
  rw [hlength] at h h₁
  have h₂ := length_waiting_maskingKey_le (decide ((header.getD 1 0 >>> 7) &&& 0x01 ≠ 0)) q₂
  simp only at h h₁
  rcases hkey : maskingKey (decide ((header.getD 1 0 >>> 7) &&& 0x01 ≠ 0)) q₂ with ⟨_ | key, q₃⟩
  · rw [hkey] at h h₂
    cases h
    exact h₂.trans h₁
  rw [hkey] at h h₂
  have h₃ := length_waiting_recvAll_le payloadLength.toNat q₃
  simp only at h h₂
  by_cases hbig : 2 ^ 63 ≤ payloadLength.toNat
  · rw [if_pos hbig] at h
    cases h
  rw [if_neg hbig] at h
  rcases hpayload : recvAll payloadLength.toNat q₃ with ⟨_ | payload, q₄⟩
  · rw [hpayload] at h h₃
    cases h
    exact (h₃.trans h₂).trans h₁
  · rw [hpayload] at h h₃
    cases h
    exact (h₃.trans h₂).trans h₁

/-- `read_frame` takes a byte from a descriptor on which one can be seen. -/
theorem length_waiting_readFrame_lt {str : Bytes} (hpeek : (peek m q).getD [] ≠ [])
    (h : readFrame q = .ok (str, q')) : (waiting q').length < (waiting q).length := by
  have hheader : (waiting (recvExact 2 q).2).length < (waiting q).length := by
    rw [recvExact_snd]
    exact length_waiting_recv_lt (by omega) hpeek
  obtain ⟨r, hparts⟩ : ∃ r, readParts q = .ok (r, q') := by
    rw [readFrame] at h
    rcases hr : readParts q with e | ⟨_ | ⟨opcode, payload⟩, q''⟩
    · rw [hr] at h
      cases h
    · rw [hr] at h
      cases h
      exact ⟨_, rfl⟩
    · rw [hr] at h
      simp only at h
      split_ifs at h
      all_goals
        cases h
        exact ⟨_, rfl⟩
  exact (length_waiting_readParts_le hparts).trans_lt hheader

theorem length_waiting_thrownAt_lt (hpeek : (peek m q).getD [] ≠ []) :
    (waiting (thrownAt q)).length < (waiting q).length := by
  have hheader : (waiting (recvExact 2 q).2).length < (waiting q).length := by
    rw [recvExact_snd]
    exact length_waiting_recv_lt (by omega) hpeek
  rw [thrownAt]
  rcases hread : recvExact 2 q with ⟨_ | header, q₁⟩
  · rwa [hread] at hheader
  rw [hread] at hheader
  have h₁ := length_waiting_extendedLength_le (header.getD 1 0) q₁
  simp only at hheader ⊢
  rcases hlength : extendedLength (header.getD 1 0) q₁ with ⟨_ | payloadLength, q₂⟩
  · rw [hlength] at h₁
    exact h₁.trans_lt hheader
  · rw [hlength] at h₁
    exact ((length_waiting_maskingKey_le _ q₂).trans h₁).trans_lt hheader

end Reads

/-! ## Connections that are left open -/

/-- The first request of a connection leaves it open and does not register it: nothing was there
to read, or the response does not close it. -/
def leftOpen (cfg : Config) (q : Inbox) : Bool :=
  match builtRequest q with
  | .error _ => false
  | .ok none => true
  | .ok (some request) =>
    !upgrades cfg.platform request.headers &&
      match respond cfg.platform cfg.routes request with
      | .error _ => false
      | .ok (_, closefd) => !closefd

theorem builtRequest_of_firstRequest {q : Inbox} {request : HttpRequest}
    (h : firstRequest q = some request) : builtRequest q = .ok (some request) := by
  rw [firstRequest] at h
  rw [builtRequest]
  rcases hread : receivedText q with e | strRequest
  · rw [hread] at h
    cases h
  rw [hread] at h
  simp only at h
  by_cases hnil : strRequest = []
  · rw [if_pos hnil] at h
    cases h
  rw [if_neg hnil] at h
  change requestOf strRequest = _
  rw [requestOf, if_neg hnil]
  rcases hparse : parseRequest strRequest with e | request'
  · rw [hparse] at h
    cases h
  · rw [hparse] at h
    cases h
    rfl

section Handled

variable {cfg : Config} {fd fd' : ℤ} {w w' : World}

/-- The handler opens nothing. -/
theorem Handled.conn_of (h : Handled cfg.platform cfg.routes fd w w') {c : Conn}
    (hc : w'.kernel.table fd' = some (.conn c)) : ∃ c, w.kernel.table fd' = some (.conn c) := by
  rcases h.talks_or_close with htalks | ⟨k, htalks, -, hclose⟩
  · exact htalks.grows.conn_of hc
  · rw [hclose] at hc
    by_cases hfd : fd' = fd
    · simp [hfd, Kernel.close] at hc
    · exact htalks.grows.conn_of ((Function.update_of_ne hfd ..).symm.trans hc)

theorem Handled.subset (h : Handled cfg.platform cfg.routes fd w w') :
    w.websocketDescriptor ⊆ w'.websocketDescriptor := by
  cases h with
  | upgrade => exact Finset.subset_insert _ _
  | _ => exact Finset.Subset.refl _

/-- A connection that is not left open is registered or closed. -/
theorem Handled.registered (h : Handled cfg.platform cfg.routes fd w w')
    (hleft : leftOpen cfg (w.kernel.inbox fd) = false) {c : Conn}
    (hc : w'.kernel.table fd = some (.conn c)) : fd ∈ w'.websocketDescriptor := by
  cases h with
  | nothing hread =>
    rw [leftOpen, builtRequest, hread] at hleft
    cases hleft
  | upgrade request hrequest hup => exact Finset.mem_insert_self fd _
  | response request hrequest hup response closefd hrespond =>
    rw [leftOpen, builtRequest_of_firstRequest hrequest] at hleft
    cases closefd with
    | false => simp [hup, hrespond] at hleft
    | true => simp [Kernel.close] at hc

end Handled

namespace Poll

/-- The answers left on a descriptor behind a step that serves it. Behind an exception the state
is the one before; `read_frame` had read the header. -/
def inboxBehind (s s' : Poll) (fd : ℤ) : Inbox :=
  if s'.phase = .aborted then thrownAt (s.world.kernel.inbox fd) else s'.world.kernel.inbox fd

/-- Serving a client that is reported readable takes a byte of what waits on it or removes it
from the list. -/
def Progress (cfg : Config) (s : Poll) : Prop :=
  ∀ accepted p s', s.current = some p → s.branch p = .client →
    step cfg s (.serve accepted) = some s' →
      s'.fds = s.fds.erase p.fd ∨
        (Conn.waiting (s.inboxBehind s' p.fd)).length <
          (Conn.waiting (s.world.kernel.inbox p.fd)).length

/-- A connection that its first request leaves open gets a number that is registered already. -/
def keepsReading (cfg : Config) (s : Poll) : Label → Bool
  | .serve (some a) =>
    s.current.all fun p =>
      s.branch p ≠ .accept || a.fd ∈ s.world.websocketDescriptor || !leftOpen cfg a.inbox
  | _ => true

/-- Open connections in the list are registered, until an exception ends the loop. -/
structure Attended (s : Poll) : Prop where
  registered : s.phase ≠ .aborted → ∀ fd ∈ s.fds, ∀ c, s.world.kernel.table fd = some (.conn c) →
    fd ∈ s.world.websocketDescriptor
  nonneg : ∀ fd c, s.world.kernel.table fd = some (.conn c) → 0 ≤ fd

variable {cfg : Config} {s s' : Poll}

theorem attended_init (serverFd : ℤ) : Attended (init serverFd) := by
  have hnone (fd : ℤ) (c : Conn) : (init serverFd).world.kernel.table fd ≠ some (.conn c) := by
    simp only [init]
    split_ifs <;> simp
  exact ⟨fun _ fd _ c hc => absurd hc (hnone fd c), fun fd c hc => absurd hc (hnone fd c)⟩

theorem Attended.quiet (h : Attended s) (hphase : s'.phase ≠ .aborted → s.phase ≠ .aborted)
    (hq : Quiet s s') : Attended s' where
  registered := by
    intro hs' fd hfd c hc
    obtain ⟨c', hc'⟩ := hq.grows.conn_of hc
    rw [hq.registry]
    exact h.registered (hphase hs') fd (hq.fds ▸ hfd) c' hc'
  nonneg := by
    intro fd c hc
    obtain ⟨c', hc'⟩ := hq.grows.conn_of hc
    exact h.nonneg fd c' hc'

theorem Attended.removed (h : Attended s) (hphase : s.phase ≠ .aborted) {fd : ℤ}
    (hr : Removed fd s s') : Attended s' := by
  have hconn (fd' : ℤ) (c : Conn) (hc : s'.world.kernel.table fd' = some (.conn c)) :
      s.world.kernel.table fd' = some (.conn c) := by
    by_cases hfd : fd' = fd
    · rw [hfd, hr.closed] at hc
      cases hc
    · rwa [hr.table fd' hfd] at hc
  refine ⟨fun _ fd' hfd' c hc => ?_, fun fd' c hc => h.nonneg fd' c (hconn fd' c hc)⟩
  rw [hr.fds] at hfd'
  rw [hr.registry]
  exact h.registered hphase fd' (List.mem_of_mem_erase hfd') c (hconn fd' c hc)

/-- Unless it ends the loop, the handler returns. -/
theorem handled_of_acceptConnection {accepted : Option Arrival} {fd : ℤ} {kernel : Kernel}
    (hstep : acceptConnection cfg accepted s = some s')
    (haccept : s.world.kernel.accept s.serverFd accepted = some (fd, kernel))
    (hphase : s'.phase ≠ .aborted) :
    Handled cfg.platform cfg.routes fd { s.world with kernel } s'.world := by
  obtain ⟨fd', kernel', haccept', hs'⟩ := acceptConnection_inv hstep
  rw [haccept', Option.some.injEq, Prod.mk.injEq] at haccept
  obtain ⟨rfl, rfl⟩ := haccept
  obtain ⟨world, hhandle, rfl⟩ | rfl := hs'
  · exact handled_of_ok hhandle
  · exact absurd rfl hphase

theorem Attended.accepted (h : Attended s) (hs : s.phase ≠ .aborted) {accepted : Option Arrival}
    (hok : ∀ a, accepted = some a →
      a.fd ∈ s.world.websocketDescriptor ∨ leftOpen cfg a.inbox = false)
    (hstep : acceptConnection cfg accepted s = some s') : Attended s' := by
  obtain ⟨fd, kernel, hacc⟩ := acceptConnection_cases hstep
  have hnonneg (fd' : ℤ) (c : Conn) (hc : kernel.table fd' = some (.conn c)) : 0 ≤ fd' := by
    by_cases hfd : fd' = fd
    · subst hfd
      rcases Kernel.accept_cases hacc.accept with ⟨-, -, htable⟩ | ⟨a, -, -, hpos, -⟩
      · exact h.nonneg _ c (htable ▸ hc)
      · exact hpos
    · exact h.nonneg fd' c ((Kernel.table_accept_ne hacc.accept hfd).symm.trans hc)
  have hconn (fd' : ℤ) (c : Conn) (hc : s'.world.kernel.table fd' = some (.conn c)) :
      ∃ c, kernel.table fd' = some (.conn c) := by
    rcases hacc.handled with hhandle | hworld
    · exact (handled_of_ok hhandle).conn_of hc
    · rw [hworld] at hc
      exact ⟨c, hc⟩
  refine ⟨fun hs' fd' hfd' c hc => ?_, fun fd' c hc => ?_⟩
  · have hhandled := handled_of_acceptConnection hstep hacc.accept hs'
    obtain ⟨c', hc'⟩ := hconn fd' c hc
    by_cases hfd : fd' = fd
    · subst hfd
      rcases Kernel.accept_cases hacc.accept with ⟨-, hneg, -⟩ | ⟨a, ha, hafd, -, -, -, htable⟩
      · have := hnonneg fd' c' hc'
        omega
      · have hinbox : kernel.inbox fd' = a.inbox := by
          rw [Kernel.inbox, htable, Function.update_self]
        rcases hok a ha with hreg | hleft
        · exact hhandled.subset (hafd ▸ hreg)
        · exact hhandled.registered (by rw [hinbox]; exact hleft) hc
    · have hmem : fd' ∈ s.fds := by
        rw [hacc.fds, List.mem_append, List.mem_singleton] at hfd'
        exact hfd'.resolve_right hfd
      rw [Kernel.table_accept_ne hacc.accept hfd] at hc'
      exact hhandled.subset (h.registered hs fd' hmem c' hc')
  · obtain ⟨c', hc'⟩ := hconn fd' c hc
    exact hnonneg fd' c' hc'

theorem phase_ne_of_step {a : Label} (hstep : step cfg s a = some s')
    (hphase : s'.phase ≠ .aborted) : s.phase ≠ .aborted := by
  cases a with
  | net a =>
    cases hstep
    exact hphase
  | poll revents =>
    unfold step at hstep
    split_ifs at hstep with hpolling
    rw [hpolling]
    exact Phase.noConfusion
  | serve accepted =>
    obtain ⟨i, hscanning, -⟩ := serve_cases hstep
    rw [hscanning]
    exact Phase.noConfusion

theorem Attended.step (h : Attended s) {a : Label} (hok : keepsReading cfg s a = true)
    (hstep : step cfg s a = some s') : Attended s' := by
  rcases step_cases hstep with hq | ⟨accepted, p, rfl, hcurrent, -, hr⟩ |
    ⟨accepted, p, fd, kernel, rfl, hcurrent, hb, hacc⟩
  · exact h.quiet (phase_ne_of_step hstep) hq
  · obtain ⟨i, hscanning, -⟩ := serve_cases hstep
    exact h.removed (by rw [hscanning]; exact Phase.noConfusion) hr
  · obtain ⟨i, hscanning, hentry⟩ := serveEntry_of_current hcurrent hstep
    have hnext : Attended { s with phase := .scanning (i + 1) } :=
      ⟨fun _ => h.registered (by rw [hscanning]; exact Phase.noConfusion), h.nonneg⟩
    have hb' : branch { s with phase := .scanning (i + 1) } p = .accept := hb
    rw [serveEntry, hb'] at hentry
    refine hnext.accepted Phase.noConfusion (fun a ha => ?_) hentry
    subst ha
    simpa [keepsReading, hcurrent, hb] using hok

/-! ## What serving a client does -/

/-- Nothing is read from an open connection that is not registered. -/
theorem serveClient_unregistered {fd : ℤ} (hdis : s.disconnected fd = false)
    (hfd : fd ∉ s.world.websocketDescriptor) : serveClient fd s = s := by
  rw [serveClient, hdis, if_neg Bool.false_ne_true, notifyMessageRequest, if_neg hfd]

theorem fds_serveClient_disconnected {fd : ℤ} (hdis : s.disconnected fd = true)
    (hfd : fd ∈ s.fds) : (serveClient fd s).fds = s.fds.erase fd := by
  rw [serveClient, if_pos hdis]
  split_ifs
  · exact (removed_removeSocket (s := { s with world.kernel := s.world.kernel.close fd }) hfd).fds
  · exact (removed_removeSocket hfd).fds

theorem peek_of_not_disconnected {fd : ℤ} (hdis : s.disconnected fd = false) :
    (peek 2048 (s.world.kernel.inbox fd)).getD [] ≠ [] :=
  of_decide_eq_false hdis

theorem exists_conn_of_not_disconnected {fd : ℤ} (hdis : s.disconnected fd = false) :
    ∃ c, s.world.kernel.table fd = some (.conn c) := by
  refine Kernel.exists_conn fun hnil => ?_
  have hpeek := peek_of_not_disconnected hdis
  rw [hnil] at hpeek
  exact hpeek rfl

/-- `read_frame` takes a byte from a registered client that has not disconnected. -/
theorem length_waiting_serveClient_lt {fd : ℤ} (hdis : s.disconnected fd = false)
    (hfd : fd ∈ s.world.websocketDescriptor) (hphase : s.phase ≠ .aborted) :
    (Conn.waiting (s.inboxBehind (serveClient fd s) fd)).length <
      (Conn.waiting (s.world.kernel.inbox fd)).length := by
  have hpeek := peek_of_not_disconnected hdis
  obtain ⟨c, hc⟩ := exists_conn_of_not_disconnected hdis
  rw [serveClient, hdis, if_neg Bool.false_ne_true, notifyMessageRequest, if_pos hfd]
  rcases hread : readFrame (s.world.kernel.inbox fd) with e | ⟨str, q⟩
  · simp only [inboxBehind, if_true]
    exact length_waiting_thrownAt_lt hpeek
  · simp only [inboxBehind, if_neg hphase]
    rw [inbox_broadcast, Kernel.inbox_leave hc]
    exact length_waiting_readFrame_lt hpeek hread

theorem Attended.progress (h : Attended s) : s.Progress cfg := by
  intro accepted p s' hcurrent hb hstep
  obtain ⟨i, hscanning, hentry⟩ := serveEntry_of_current hcurrent hstep
  have hmem : p.fd ∈ s.fds := mem_fds_of_current hcurrent
  have hb' : branch { s with phase := .scanning (i + 1) } p = .client := hb
  rw [serveEntry, hb'] at hentry
  cases hentry
  cases hdis : s.disconnected p.fd with
  | true =>
    exact Or.inl (fds_serveClient_disconnected (s := { s with phase := .scanning (i + 1) })
      hdis hmem)
  | false =>
    obtain ⟨c, hc⟩ := exists_conn_of_not_disconnected hdis
    have hreg := h.registered (by rw [hscanning]; exact Phase.noConfusion) p.fd hmem c hc
    exact Or.inr (length_waiting_serveClient_lt (s := { s with phase := .scanning (i + 1) })
      hdis hreg Phase.noConfusion)

/-- The loop makes no progress at a readable client that is not registered. -/
theorem not_progress_of_unregistered {i : ℕ} {p : PollFd} (hscanning : s.phase = .scanning i)
    (hp : s.pollFds[i]? = some p) (hb : s.branch p = .client)
    (hdis : s.disconnected p.fd = false) (hfd : p.fd ∉ s.world.websocketDescriptor) :
    ¬ s.Progress cfg := by
  intro h
  have hcurrent : s.current = some p := (current_eq hscanning).trans hp
  have hstep : step cfg s (.serve none) = some { s with phase := .scanning (i + 1) } := by
    have hb' : branch { s with phase := .scanning (i + 1) } p = .client := hb
    simp only [step, hscanning, hp, serveEntry, hb', Option.some.injEq]
    exact serveClient_unregistered (s := { s with phase := .scanning (i + 1) }) hdis hfd
  rcases h none p _ hcurrent hb hstep with hremoved | htaken
  · have hlen := congrArg List.length hremoved
    have hpos := List.length_pos_of_mem (mem_fds_of_current hcurrent)
    rw [List.length_erase_of_mem (mem_fds_of_current hcurrent)] at hlen
    change s.fds.length = s.fds.length - 1 at hlen
    omega
  · exact lt_irrefl _ htaken

/-- **Progress of the poll loop.** In every run from the state behind `create_server` in which a
connection that its first request leaves open gets a number that is registered already, serving a
client that is reported readable takes a byte of what waits on it or removes it. -/
theorem progress_of_reached (cfg : Config) (serverFd : ℤ) {s : Poll}
    (hrun : Reached (step cfg) (fun s a => keepsReading cfg s a = true) (init serverFd) s) :
    s.Progress cfg :=
  (hrun.invariant (attended_init serverFd) fun _ _ _ h hok hstep => h.step hok hstep).progress

/-- A WebSocket client has sent a frame, which is served. -/
theorem progress_upgrade : ∃ s : Poll, s.current.map PollFd.fd = some 5 ∧
    s.disconnected 5 = false ∧ s.Progress bareConfig := by
  let labels : List Label :=
    [.poll (some [⟨true, false, false⟩]), .serve (some ⟨5, [some upgradeRequest], []⟩),
      .serve none, .serve none, .net ⟨5, [some [0x81, 0x00]], []⟩,
      .poll (some [⟨false, false, false⟩, ⟨true, false, false⟩]), .serve none]
  have hrun : (run (step bareConfig) (fun s a => keepsReading bareConfig s a = true) (init 3)
      labels).any (fun s =>
        s.current.map PollFd.fd = some 5 ∧ s.disconnected 5 = false) = true := by
    decide +kernel
  obtain ⟨s, hs, hend⟩ := exists_reached hrun
  exact ⟨s, hend.1, hend.2, progress_of_reached bareConfig 3 hs⟩

/-- Nothing had arrived when the client was accepted; its request is never read. -/
theorem not_progress_late :
    ¬ ∀ s, Reached (step bareConfig) anyStep (init 3) s → s.Progress bareConfig := by
  let labels : List Label :=
    [.poll (some [⟨true, false, false⟩]), .serve (some ⟨5, [], []⟩),
      .serve none, .serve none, .net ⟨5, [some plainRequest], []⟩,
      .poll (some [⟨false, false, false⟩, ⟨true, false, false⟩]), .serve none]
  have hrun : (run (step bareConfig) anyStep (init 3) labels).any (fun s =>
      s.phase = .scanning 1 ∧ s.pollFds[1]? = some ⟨5, ⟨true, false, false⟩⟩ ∧
        s.serverFd = 3 ∧ s.disconnected 5 = false ∧ 5 ∉ s.world.websocketDescriptor) = true := by
    decide +kernel
  intro h
  obtain ⟨s, hs, hend⟩ := exists_reached hrun
  obtain ⟨hphase, hp, hserver, hdis, hfd⟩ := hend
  refine not_progress_of_unregistered hphase hp ?_ hdis hfd (h s hs)
  simp [branch, hserver]

end Poll

end SimpleServer
