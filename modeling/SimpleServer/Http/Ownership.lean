import SimpleServer.Foundations.Closing
import SimpleServer.Http.Server

/-!
# Who is responsible for a connection

`handle_connection_request` closes the connection that it is given, or registers it as a
WebSocket client, or keeps it open for a handler whose response says so. It closes no other
descriptor (`Handled.talks_or_close`). When the first read brings nothing it does none of these;
`handleConnectionRequest_owned_iff` says that this is the only such case.
-/

namespace SimpleServer

open Cxx Posix

section Handlers

variable {platform : Platform} {routes : RoutesMap} {fd : ℤ} {w w' : World}

theorem notifyMessageRequest_talks (h : notifyMessageRequest fd w = .ok w') :
    w.kernel.Talks w'.kernel := by
  refine ⟨(notifyMessageRequest_grows h).1, ?_⟩
  rcases notifyMessageRequest_cases h with ⟨-, rfl⟩ | ⟨-, str, q, -, rfl⟩
  · exact ⟨[], by simp [sends]⟩
  · refine ⟨(ascending w.websocketDescriptor).map fun c => (c, frameBytes (idMessage fd str)), ?_⟩
    simp [sends, log_broadcast, Function.comp_def]

/-- A request was only read from an open number. -/
theorem isOpen_of_firstRequest {k : Kernel} {request : HttpRequest}
    (h : firstRequest (k.inbox fd) = some request) : k.isOpen fd = true := by
  have hinbox : k.inbox fd ≠ [] := by
    intro hnil
    rw [hnil] at h
    cases h
  obtain ⟨c, hc⟩ := Kernel.exists_conn hinbox
  rw [Kernel.isOpen, hc]
  rfl

/-- The handler closes no number but that of its connection, which is open, and this last. -/
theorem Handled.talks_or_close (h : Handled platform routes fd w w') :
    w.kernel.Talks w'.kernel ∨
      ∃ k, w.kernel.Talks k ∧ k.isOpen fd = true ∧ w'.kernel = k.close fd := by
  have hrecv := w.kernel.talks_recv fd 2048
  cases h with
  | nothing hread => exact Or.inl hrecv
  | upgrade request hrequest hup => exact Or.inl (hrecv.trans (Kernel.talks_send _ fd _))
  | response request hrequest hup response closefd hrespond =>
    have htalks := hrecv.trans (Kernel.talks_send _ fd response)
    cases closefd with
    | false => exact Or.inl htalks
    | true => exact Or.inr ⟨_, htalks, htalks.isOpen (isOpen_of_firstRequest hrequest), rfl⟩

theorem tidy_handled (h : Tidy w.kernel) (hhandled : Handled platform routes fd w w') :
    Tidy w'.kernel := by
  rcases hhandled.talks_or_close with htalks | ⟨k, htalks, hopen, hclose⟩
  · exact h.talks htalks
  · rw [hclose]
    exact (h.talks htalks).close hopen

end Handlers

/-! ## The owner of a connection -/

/-- The calls of `close` on a number, each with whether the number was open. -/
def closesOf (fd : ℤ) (log : List SysCall) : List Bool :=
  log.filterMap fun
    | .close fd' wasOpen => if fd' = fd then some wasOpen else none
    | _ => none

/-- The handler of the route that the first request matches answers with `close_fd = false`. -/
def HandlerKeeps (platform : Platform) (routes : RoutesMap) (q : Inbox) : Prop :=
  ∃ request route endpoint, firstRequest q = some request ∧
    queryEndpointFromMap platform routes request.url = .ok (route, some endpoint) ∧
    route ≠ invalidHttpUri ∧ (endpoint request).closeFd = false

/-- Between the worlds `w` and `w'` the connection was closed once, when it was open, or in the
end it is registered, or its handler keeps it. -/
def Owned (platform : Platform) (routes : RoutesMap) (fd : ℤ) (w w' : World) : Prop :=
  closesOf fd (w'.kernel.log.drop w.kernel.log.length) = [true] ∨
    fd ∈ w'.websocketDescriptor ∨ HandlerKeeps platform routes (w.kernel.inbox fd)

section Owner

variable {platform : Platform} {routes : RoutesMap} {fd : ℤ} {w w' : World}

/-- A response that keeps the connection is that of a handler. -/
theorem exists_endpoint_of_respond {request : HttpRequest} {response : Bytes}
    (h : respond platform routes request = .ok (response, false)) :
    ∃ route endpoint,
      queryEndpointFromMap platform routes request.url = .ok (route, some endpoint) ∧
      route ≠ invalidHttpUri ∧ (endpoint request).closeFd = false := by
  rw [respond] at h
  obtain ⟨⟨route, endpoint⟩, hquery, h⟩ := exists_of_bind_eq_ok h
  simp only at h
  split_ifs at h with hroute
  · cases h
  · cases endpoint with
    | none => cases h
    | some endpoint =>
      exact ⟨route, endpoint, hquery, hroute, congrArg Prod.snd (Except.ok.inj h)⟩

/-- Every way to return but one leaves an owner. -/
theorem Handled.owned (h : Handled platform routes fd w w')
    (hread : receivedText (w.kernel.inbox fd) ≠ .ok []) : Owned platform routes fd w w' := by
  cases h with
  | nothing hnil => exact absurd hnil hread
  | upgrade request hrequest hup => exact Or.inr (Or.inl (Finset.mem_insert_self ..))
  | response request hrequest hup response closefd hrespond =>
    cases closefd with
    | false =>
      obtain ⟨route, endpoint, hquery⟩ := exists_endpoint_of_respond hrespond
      exact Or.inr (Or.inr ⟨request, route, endpoint, hrequest, hquery⟩)
    | true =>
      have htalks := (w.kernel.talks_recv fd 2048).trans (Kernel.talks_send _ fd response)
      have hopen := htalks.isOpen (isOpen_of_firstRequest hrequest)
      have hlog : ((((w.kernel.recv fd 2048).2.send fd response).close fd).log).drop
          w.kernel.log.length = [.send fd response, .close fd true] := by
        rw [Kernel.close, hopen, Kernel.log_send, Kernel.recv, Kernel.log_leave]
        simp
      left
      rw [if_pos rfl, hlog]
      simp [closesOf]

/-- A call that reads nothing returns, and has done nothing but read. -/
theorem handleConnectionRequest_of_nil (hnil : receivedText (w.kernel.inbox fd) = .ok []) :
    handleConnectionRequest platform routes fd w =
      .ok { w with kernel := (w.kernel.recv fd 2048).2 } := by
  have hstr : (receivedStr fd w.kernel).1 = .ok [] := hnil
  rw [handleConnectionRequest]
  simp only [hstr]
  rfl

/-- **When a connection has an owner.** For every outcome of the first read, every request, every
set of routes and every registry, a call that returns has closed the connection once, or it is
registered, or its handler keeps it, exactly when the first read brought a text or the number
was registered before. -/
theorem handleConnectionRequest_owned_iff (platform : Platform) (routes : RoutesMap) (fd : ℤ)
    (w : World) :
    (∀ w', handleConnectionRequest platform routes fd w = .ok w' →
      Owned platform routes fd w w') ↔
      receivedText (w.kernel.inbox fd) ≠ .ok [] ∨ fd ∈ w.websocketDescriptor := by
  constructor
  · intro hall
    by_cases hnil : receivedText (w.kernel.inbox fd) = .ok []
    · right
      rcases hall _ (handleConnectionRequest_of_nil hnil) with hclose | hreg | hkeeps
      · rw [Kernel.recv, Kernel.log_leave, List.drop_length] at hclose
        cases hclose
      · exact hreg
      · obtain ⟨request, -, -, hrequest, -⟩ := hkeeps
        rw [firstRequest, hnil] at hrequest
        cases hrequest
    · exact Or.inl hnil
  · rintro (hread | hreg) w' hok
    · exact (handled_of_ok hok).owned hread
    · right
      left
      cases handled_of_ok hok with
      | nothing => exact hreg
      | upgrade => exact Finset.mem_insert_of_mem hreg
      | response => exact hreg

end Owner

/-- A connection that the client closes before it has sent anything. -/
def silentClient : World where
  kernel := ⟨fun fd => if fd = 5 then some (.conn ⟨[some []], [], [], []⟩) else none, []⟩
  websocketDescriptor := ∅

/-- It stays open, and nobody is responsible for it. -/
theorem not_owned_silent : ∃ w',
    handleConnectionRequest .plain ∅ 5 silentClient = .ok w' ∧
      ¬ Owned .plain ∅ 5 silentClient w' ∧ w'.kernel.isOpen 5 = true := by
  have hnil : receivedText (silentClient.kernel.inbox 5) = .ok [] := rfl
  refine ⟨_, handleConnectionRequest_of_nil hnil, ?_, rfl⟩
  rintro (hclose | hreg | ⟨request, -, -, hrequest, -⟩)
  · cases hclose
  · exact absurd hreg (Finset.notMem_empty 5)
  · cases hrequest

end SimpleServer
