import SimpleServer.Http.Routing
import SimpleServer.WebSocket.Manager

/-!
# The handling of a connection's first request

`http_server::handle_connection_request` reads a request with one call of `recv`, answers it and
closes the connection, or keeps it as a WebSocket client. `handled_of_ok` says all that a call
that returns can have done.
-/

namespace SimpleServer

open Cxx Posix

/-- `received_str` on the answers of a descriptor: the bytes up to the first NUL. The buffer is
filled with zeros first; 2048 bytes without a NUL are read past its end. -/
def receivedText (q : Inbox) : Except Exn Bytes :=
  match (Inbox.recv 2048 q).1 with
  | none => .ok []
  | some bytes =>
    if bytes.length = 2048 ∧ 0 ∉ bytes then .error .undefined
    else .ok (bytes.takeWhile (· ≠ 0))

/-- `received_str`. -/
def receivedStr (connection : ℤ) (k : Kernel) : Except Exn Bytes × Kernel :=
  (receivedText (k.inbox connection), (k.recv connection 2048).2)

/-- The variable `request` of `handle_connection_request`. -/
def parseRequest (strRequest : Bytes) : Except Exn HttpRequest := do
  let v ← parse strRequest
  return {
    requestVerbId := v.requestVerb
    strVerb := v.httpVerb
    url := v.url
    headers := v.headers
    queryParams := v.queryParams
    body := v.body }

/-- The variables `response` and `closefd` of `handle_connection_request`. -/
def respond (platform : Platform) (routes : RoutesMap) (request : HttpRequest) :
    Except Exn (Bytes × Bool) := do
  let it ← queryEndpointFromMap platform routes request.url
  if it.1 = invalidHttpUri then return (default500Msg, true)
  else
    match it.2 with
    | none => throw .badFunctionCall
    | some endpoint =>
      let res := endpoint request
      return (res.build platform.order, res.closeFd)

/-- Does `handle_connection_request` answer with an upgrade. -/
def upgrades (platform : Platform) (headers : StringMap) : Bool :=
  isWebsocket headers && findWebsocketKey platform headers ≠ []

/-- `http_server::handle_connection_request`. -/
def handleConnectionRequest (platform : Platform) (routes : RoutesMap) (connection : ℤ)
    (w : World) : Except Exn World := do
  let received := receivedStr connection w.kernel
  let w := { w with kernel := received.2 }
  let strRequest ← received.1
  if strRequest = [] then return w
  else
    let request ← parseRequest strRequest
    let upgraded :=
      if isWebsocket request.headers then
        addNewConnectionConnection platform connection request.headers w
      else (false, w)
    if upgraded.1 then return upgraded.2
    else
      let answer ← respond platform routes request
      let k := w.kernel.send connection answer.1
      return { w with kernel := if answer.2 then k.close connection else k }

/-! ## What a call has done -/

/-- The request read from the answers of a descriptor, when there is one. -/
def firstRequest (q : Inbox) : Option HttpRequest :=
  match receivedText q with
  | .error _ => none
  | .ok strRequest =>
    if strRequest = [] then none
    else
      match parseRequest strRequest with
      | .error _ => none
      | .ok request => some request

/-- The ways in which a call returns: nothing was read, the request was an upgrade and its
descriptor is registered, or a response was sent and the connection closed or not. -/
inductive Handled (platform : Platform) (routes : RoutesMap) (fd : ℤ) (w : World) : World → Prop
  | nothing (hread : receivedText (w.kernel.inbox fd) = .ok []) :
    Handled platform routes fd w { w with kernel := (w.kernel.recv fd 2048).2 }
  | upgrade (request : HttpRequest) (hrequest : firstRequest (w.kernel.inbox fd) = some request)
      (hup : upgrades platform request.headers = true) :
    Handled platform routes fd w
      { kernel := (w.kernel.recv fd 2048).2.send fd
          (upgradeResponse platform (findWebsocketKey platform request.headers))
        websocketDescriptor := insert fd w.websocketDescriptor }
  | response (request : HttpRequest) (hrequest : firstRequest (w.kernel.inbox fd) = some request)
      (hup : upgrades platform request.headers = false) (response : Bytes) (closefd : Bool)
      (hrespond : respond platform routes request = .ok (response, closefd)) :
    Handled platform routes fd w
      { w with
        kernel :=
          if closefd then ((w.kernel.recv fd 2048).2.send fd response).close fd
          else (w.kernel.recv fd 2048).2.send fd response }

section Handled

variable {platform : Platform} {routes : RoutesMap} {fd : ℤ} {w w' : World}

/-- The variable `upgraded`: a request that is not for a WebSocket, or has no key, changes
nothing. -/
theorem upgraded_eq (headers : StringMap) :
    (if isWebsocket headers then addNewConnectionConnection platform fd headers w
      else (false, w)) =
      if upgrades platform headers then
        (true,
          { kernel := w.kernel.send fd
              (upgradeResponse platform (findWebsocketKey platform headers))
            websocketDescriptor := insert fd w.websocketDescriptor })
      else (false, w) := by
  rw [upgrades, addNewConnectionConnection]
  by_cases hws : isWebsocket headers = true <;>
    by_cases hkey : findWebsocketKey platform headers = [] <;> simp [hws, hkey]

/-- **What a call that returns has done.** -/
theorem handled_of_ok (h : handleConnectionRequest platform routes fd w = .ok w') :
    Handled platform routes fd w w' := by
  rw [handleConnectionRequest] at h
  obtain ⟨strRequest, hstr, h⟩ := exists_of_bind_eq_ok h
  have hread : receivedText (w.kernel.inbox fd) = .ok strRequest := hstr
  by_cases hnil : strRequest = []
  · rw [if_pos hnil] at h
    cases h
    exact .nothing (hnil ▸ hread)
  rw [if_neg hnil] at h
  obtain ⟨request, hparse, h⟩ := exists_of_bind_eq_ok h
  have hrequest : firstRequest (w.kernel.inbox fd) = some request := by
    simp only [firstRequest, hread, if_neg hnil, hparse]
  simp only [upgraded_eq] at h
  cases hup : upgrades platform request.headers with
  | true =>
    simp only [hup, if_true] at h
    cases h
    exact .upgrade request hrequest hup
  | false =>
    simp only [hup, Bool.false_eq_true, if_false] at h
    obtain ⟨⟨response, closefd⟩, hrespond, h⟩ := exists_of_bind_eq_ok h
    cases h
    exact .response request hrequest hup response closefd hrespond

/-! ## Requests that close -/

/-- Is the first request answered by a response that closes the connection: no upgrade, and no
route for its URL or a handler that leaves `close_fd` set. -/
def closes (platform : Platform) (routes : RoutesMap) (q : Inbox) : Bool :=
  match firstRequest q with
  | none => false
  | some request =>
    !upgrades platform request.headers &&
      match respond platform routes request with
      | .error _ => false
      | .ok (_, closefd) => closefd

/-- A call that does not close the connection opens and closes nothing. -/
theorem handleConnectionRequest_grows (h : handleConnectionRequest platform routes fd w = .ok w')
    (hclose : closes platform routes (w.kernel.inbox fd) = false) :
    w.kernel.Grows w'.kernel := by
  have hrecv := w.kernel.grows_recv fd 2048
  cases handled_of_ok h with
  | nothing hread => exact hrecv
  | upgrade request hrequest hup => exact hrecv.trans (Kernel.grows_send _ fd _)
  | response request hrequest hup response closefd hrespond =>
    simp only [closes, hrequest, hup, hrespond, Bool.not_false, Bool.true_and] at hclose
    subst hclose
    exact hrecv.trans (Kernel.grows_send _ fd _)

/-- On a number without answers a call does nothing. -/
theorem handleConnectionRequest_nothing
    (h : handleConnectionRequest platform routes fd w = .ok w')
    (hinbox : w.kernel.inbox fd = []) :
    w.kernel.Grows w'.kernel ∧ w'.websocketDescriptor = w.websocketDescriptor := by
  have hnone : firstRequest (w.kernel.inbox fd) = none := by
    rw [hinbox]
    rfl
  cases handled_of_ok h with
  | nothing hread => exact ⟨w.kernel.grows_recv fd 2048, rfl⟩
  | upgrade request hrequest =>
    rw [hnone] at hrequest
    cases hrequest
  | response request hrequest =>
    rw [hnone] at hrequest
    cases hrequest

end Handled

end SimpleServer
