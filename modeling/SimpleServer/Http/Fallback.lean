import SimpleServer.Http.ResponseMessage
import SimpleServer.Http.Routing
import SimpleServer.WebSocket.Service

/-!
# The HTTP server of `simple_server`

`http_server::handle_connection_request` of `simple_server_http.cpp` hands an upgrade over to the
WebSocket service, and answers other requests with the response of the route's handler. For a
request without a route it writes a response itself, with a description of the request as its body.
The header section of this response ends with CRLF CRLF behind a line that has its CRLF already, so
that a receiver finds one CRLF more in front of the body than was counted
(`receive_fallbackResponse`), whatever the request (`handleConnectionRequest_unrouted`).
-/

namespace SimpleServer

open Cxx Http Posix

namespace Fallback

/-! ## Requests and routes -/

/-- `Request`. -/
structure Request where
  requestVerb : RequestVerb
  url : Bytes
  headers : StringMap
  queryParams : StringMap
  body : Bytes

/-- `Response`, without the member `raw_response` that is never used. -/
structure Response where
  headers : StringMap
  body : Bytes
  statusCode : HttpResponseCode

/-- `Response::buildResponse`. -/
def Response.buildResponse (order : HashOrder) (r : Response) : Bytes :=
  buildHttpResponse order r.headers r.body r.statusCode

/-- `endpointcb`: the pointer that is returned may be null. -/
abbrev Endpointcb := Request → Option Response

/-- `query_endpoint_from_map` of this server, which searches as the other one does. -/
def queryEndpoint (platform : Platform) (routes : AList fun _ : Bytes => Endpointcb)
    (uri : Bytes) : Except Exn (Bytes × Option Endpointcb) :=
  queryEndpointFromMap platform routes uri

/-! ## `handle_connection_request` -/

/-- The variable `request`. -/
def Request.of (v : Parsed) : Request :=
  ⟨v.requestVerb, v.url, v.headers, v.queryParams, v.body⟩

/-- The stream `body`: verb, URLs, headers and parameters. -/
def diagnosticText (order : HashOrder) (v : Parsed) : Bytes :=
  let body := lit "HTTP VERB: " ++ v.httpVerb ++ lit "\n" ++ lit "URL: " ++ v.url ++ lit "\n" ++
    lit "Dynamic Url: " ++ v.urlDynamicPath ++ lit "\n" ++ lit "HTTP Headers: "
  let body := (order.enum v.headers).foldl
    (fun body header => body ++ header.1 ++ lit ": " ++ header.2 ++ lit "\n") body
  if v.queryParams.entries ≠ [] then
    (order.enum v.queryParams).foldl
      (fun body param => body ++ param.1 ++ lit " : " ++ param.2 ++ lit "\n")
      (body ++ lit "Query Parameters: \n")
  else body

/-- The response that is written around the text. -/
def fallbackResponse (text : Bytes) : Bytes :=
  let response := lit "HTTP/1.1 200 OK\r\n"
  let response := response ++ (lit "Content-Length: " ++ decimal text.length ++ lit "\r\n")
  let response := response ++ lit "Content-Type: text/plain\r\n"
  let response := response ++ lit "\r\n\r\n"
  response ++ text

/-- What is done with a request: an upgrade, or a response that is sent. -/
inductive Answer
  | handshake (headers : StringMap)
  | response (text : Bytes)

/-- `handle_connection_request` from the text of the request on. -/
def answer (platform : Platform) (routes : AList fun _ : Bytes => Endpointcb)
    (strRequest : Bytes) : Except Exn Answer := do
  let v ← parse strRequest
  if findWebsocketKey platform v.headers ≠ [] then return .handshake v.headers
  else
    let it ← queryEndpoint platform routes v.url
    if it.1 = invalidHttpUri then
      return .response (fallbackResponse (diagnosticText platform.order v))
    else
      match it.2 with
      | none => throw .badFunctionCall
      | some endpoint =>
        match endpoint (Request.of v) with
        | none => throw .undefined
        | some res => return .response (res.buildResponse platform.order)

/-- `str_request`, when bytes were read: the buffer up to its first NUL. 2048 bytes without a NUL
are read past their end. -/
def strRequest : Option Bytes → Except Exn (Option Bytes)
  | none => .ok none
  | some buffer =>
    if buffer = [] then .ok none
    else if buffer.length = 2048 ∧ 0 ∉ buffer then .error .undefined
    else .ok (some (buffer.takeWhile (· ≠ 0)))

/-- `http_server::handle_connection_request`. -/
def handleConnectionRequest (platform : Platform) (routes : AList fun _ : Bytes => Endpointcb)
    (con : ℤ) (s : Service) : Except Exn Service := do
  let bytesRead := s.kernel.recv con 2048
  let s := { s with kernel := bytesRead.2 }
  match ← strRequest bytesRead.1 with
  | none => return { s with kernel := s.kernel.close con }
  | some text =>
    match ← answer platform routes text with
    | .handshake headers => return s.handleWebsocketHandshake platform headers con
    | .response response => return { s with kernel := (s.kernel.send con response).close con }

/-! ## What a receiver finds -/

/-- The fields of the response. -/
def fallbackFields (text : Bytes) : List (Bytes × Bytes) :=
  [(contentLength, decimal text.length), (lit "Content-Type", lit "text/plain")]

/-- The line of `Content-Type` has its CRLF, and the one that is written next ends the header
section: the third CRLF is part of the body. -/
theorem fallbackResponse_eq (text : Bytes) :
    fallbackResponse text =
      (Message.mk (lit "HTTP/1.1 200 OK") (fallbackFields text) (crlf ++ text)).render := by
  have hstatus : lit "HTTP/1.1 200 OK\r\n" = lit "HTTP/1.1 200 OK" ++ crlf := by decide
  have hlength : lit "Content-Length: " = contentLength ++ lit ": " := by decide
  have htype : lit "Content-Type: text/plain\r\n" =
      lit "Content-Type" ++ lit ": " ++ lit "text/plain" ++ crlf := by decide
  have hblank : lit "\r\n\r\n" = crlf ++ crlf := by decide
  have hcrlf : lit "\r\n" = crlf := by decide
  simp only [fallbackResponse, hstatus, hlength, htype, hblank, hcrlf, Message.render,
    fallbackFields, fieldLine, List.map_cons, List.map_nil, List.flatMap_cons, List.flatMap_nil,
    List.append_assoc, List.append_nil]

theorem receive_fallbackResponse (text : Bytes) :
    receive (fallbackResponse text) =
      some ⟨lit "HTTP/1.1 200 OK", fallbackFields text, crlf ++ text⟩ := by
  have hstatus : lit "HTTP/1.1 200 OK" ≠ [] ∧ OneLine (lit "HTTP/1.1 200 OK") := by decide
  rw [fallbackResponse_eq]
  refine Message.receive_render ⟨hstatus.1, hstatus.2, ?_⟩
  intro f hf
  rcases List.mem_pair.mp hf with rfl | rfl
  · exact fieldOk_contentLength text.length
  · decide

/-- The body that a receiver finds is `text`, and `Content-Length` counts it. -/
def SelfConsistent (response text : Bytes) : Prop :=
  ∃ m : Message, receive response = some m ∧ (contentLength, decimal m.body.length) ∈ m.fields ∧
    m.body = text

/-- The body found is two bytes longer than the text. -/
theorem not_selfConsistent (text : Bytes) : ¬ SelfConsistent (fallbackResponse text) text := by
  intro h
  obtain ⟨m, hm, -, hbody⟩ := h
  rw [receive_fallbackResponse, Option.some.injEq] at hm
  subst hm
  have hlength : (crlf ++ text).length = text.length := congrArg List.length hbody
  rw [List.length_append] at hlength
  have hcrlf : crlf.length = 2 := rfl
  omega

/-! ## Requests without a route -/

/-- No upgrade, and no route for the URL. -/
def Unrouted (platform : Platform) (routes : AList fun _ : Bytes => Endpointcb) (v : Parsed) :
    Prop :=
  findWebsocketKey platform v.headers = [] ∧
    ∃ cb, queryEndpoint platform routes v.url = .ok (invalidHttpUri, cb)

section Unrouted

variable {platform : Platform} {routes : AList fun _ : Bytes => Endpointcb} {v : Parsed}
  {text : Bytes}

theorem answer_of_unrouted (hparse : parse text = .ok v) (h : Unrouted platform routes v) :
    answer platform routes text =
      .ok (.response (fallbackResponse (diagnosticText platform.order v))) := by
  obtain ⟨hkey, cb, hcb⟩ := h
  simp only [answer, hparse, hkey, hcb, bind, Except.bind, ne_eq, not_true_eq_false, if_false,
    if_true]
  rfl

/-- **No response for a request without a route is self-consistent.** -/
theorem handleConnectionRequest_unrouted {con : ℤ} {s : Service}
    (htext : strRequest (s.kernel.recv con 2048).1 = .ok (some text)) (hparse : parse text = .ok v)
    (h : Unrouted platform routes v) :
    ∃ response, handleConnectionRequest platform routes con s =
        .ok { s with kernel := ((s.kernel.recv con 2048).2.send con response).close con } ∧
      ¬ SelfConsistent response (diagnosticText platform.order v) := by
  refine ⟨fallbackResponse (diagnosticText platform.order v), ?_, not_selfConsistent _⟩
  simp only [handleConnectionRequest, htext, answer_of_unrouted hparse h, bind, Except.bind]
  rfl

end Unrouted

/-- A request, and what is found in it. -/
def pageRequest : Bytes := lit "GET /page HTTP/1.1\r\nHost: a\r\n\r\n"

def pageParsed : Parsed where
  httpVerb := lit "GET"
  requestVerb := .get
  urlDynamicPath := lit "/page"
  url := lit "/page"
  headers := (∅ : StringMap).insert (lit "Host") (lit "a")
  queryParams := ∅
  body := lit " "

theorem parse_pageRequest : parse pageRequest = .ok pageParsed := by
  rfl

theorem unrouted_pageParsed : Unrouted Platform.plain ∅ pageParsed :=
  ⟨by decide, none, by rfl⟩

/-- The service with the request on a connection. -/
def pageService : Service :=
  { Service.start 3 with
    kernel :=
      ⟨fun fd => if fd = 5 then some (.conn ⟨[some pageRequest], [], [], []⟩) else none, []⟩ }

theorem strRequest_pageService :
    strRequest (pageService.kernel.recv 5 2048).1 = .ok (some pageRequest) := by
  rfl

theorem handleConnectionRequest_unrouted_page :
    ∃ response, handleConnectionRequest Platform.plain ∅ 5 pageService =
        .ok { pageService with
          kernel := ((pageService.kernel.recv 5 2048).2.send 5 response).close 5 } ∧
      ¬ SelfConsistent response (diagnosticText HashOrder.listed pageParsed) :=
  handleConnectionRequest_unrouted strRequest_pageService parse_pageRequest unrouted_pageParsed

theorem not_selfConsistent_page :
    parse pageRequest = .ok pageParsed ∧ Unrouted Platform.plain ∅ pageParsed ∧
      ¬ ∃ response, answer Platform.plain ∅ pageRequest = .ok (.response response) ∧
        SelfConsistent response (diagnosticText HashOrder.listed pageParsed) := by
  refine ⟨parse_pageRequest, unrouted_pageParsed, ?_⟩
  rintro ⟨response, hanswer, h⟩
  rw [answer_of_unrouted parse_pageRequest unrouted_pageParsed] at hanswer
  cases hanswer
  exact not_selfConsistent _ h

end Fallback

end SimpleServer
