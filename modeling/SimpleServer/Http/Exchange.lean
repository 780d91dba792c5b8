import SimpleServer.Http.HeaderRoundTrip
import SimpleServer.Http.Segmentation

/-!
# A request and its response

A client writes a request with a target, headers and a body, and `handle_connection_request` reads
it in one segment. `parseRequest_text` says what the server makes of its text: the verb, the path,
the parameters and the headers that the client wrote, and for a body what its lines add to the
headers. `handleConnectionRequest_exchange` is the whole exchange: the handler of the route is
called with this request, and what the client is sent is a complete message with the handler's
status, headers and body.
-/

namespace SimpleServer

open Cxx Http Posix

/-- A request as a client writes it. -/
structure ClientRequest where
  target : Target
  fields : List (Bytes × Bytes)
  body : Bytes
  lf_notMem_verb : lf ∉ target.verb
  lf_notMem_text : lf ∉ target.text
  plain : ∀ f ∈ fields, Plain f

namespace ClientRequest

/-- The request line and the lines of the headers. -/
def head (r : ClientRequest) : RequestHead where
  requestLine := r.target.request []
  headerLines := r.fields.map fieldLine
  lf_notMem_requestLine := by
    have hversion : lf ∉ httpVersion := by decide
    have hspace : lf ≠ space := by decide
    simp [Target.request, r.lf_notMem_verb, r.lf_notMem_text, hversion, hspace]
  headerLine_ne_nil := by
    intro line hline
    obtain ⟨f, -, rfl⟩ := List.mem_map.mp hline
    exact fieldLine_ne_nil f
  lf_notMem_headerLine := by
    intro line hline
    obtain ⟨f, hf, rfl⟩ := List.mem_map.mp hline
    have hplain := r.plain f hf
    exact ((hplain.oneLine_name.append (by decide)).append hplain.oneLine_value).2

/-- The bytes of the request. -/
def text (r : ClientRequest) : Bytes := r.head.withBody r.body

/-- What stands behind the version. -/
def rest (r : ClientRequest) : Bytes :=
  crlf ++ (r.fields.map fieldLine).flatMap (· ++ crlf) ++ crlf ++ r.body

theorem text_eq (r : ClientRequest) : r.text = r.target.request r.rest := by
  simp [text, RequestHead.withBody, RequestHead.bytes, head, rest, Target.request]

/-- The request that a handler is called with. The verb is searched for in the whole text, no body
is passed on, and the lines of the body that look like headers are. -/
def parsed (r : ClientRequest) : HttpRequest where
  requestVerbId := parseHttpRequestVerb r.text
  strVerb := r.target.verb
  url := r.target.path
  headers := insertAll (insertAll ∅ r.fields) (bodyFields r.body)
  queryParams := insertAll ∅ r.target.pairs
  body := lit " "

/-- The local variables of `handle_connection_request` behind the parsing. -/
def locals (r : ClientRequest) : Parsed where
  httpVerb := r.target.verb
  requestVerb := r.parsed.requestVerbId
  urlDynamicPath := r.target.text
  url := r.target.path
  headers := r.parsed.headers
  queryParams := r.parsed.queryParams
  body := r.parsed.body

theorem text_ne_nil (r : ClientRequest) : r.text ≠ [] := by
  rw [text_eq, Target.request]
  simp

/-- The headers that the lines of the head set are those written. -/
theorem fields_head (r : ClientRequest) : r.head.fields = r.fields := by
  have hfield : ∀ f ∈ r.fields, fieldOf (fieldLine f ++ [cr]) = some f :=
    fun f hf => fieldOf_fieldLine (r.plain f hf)
  rw [RequestHead.fields, head, List.map_map, List.filterMap_map]
  exact (List.filterMap_congr hfield).trans (List.filterMap_some ..)

section Text

variable (r : ClientRequest) (hstop : r.target.stop < 2 ^ 31)

include hstop in
theorem extract_text : extractUrlWithQueryParams r.text = .ok r.target.text := by
  rw [text_eq]
  exact Target.extract_request hstop r.rest

include hstop in
theorem extractHttpVerb_text : extractHttpVerb r.text = r.target.verb := by
  rw [text_eq]
  exact (Target.recovers_of_lt hstop r.rest).1

theorem parseHeaders_text :
    parseHeaders r.text =
      if Throws r.body then .error .outOfRange
      else .ok (insertAll (insertAll ∅ r.fields) (bodyFields r.body)) := by
  rw [text, parseHeaders_withBody, fields_head]

include hstop in
/-- What the calls make of the text. -/
theorem parse_text :
    parse r.text = if Throws r.body then .error .outOfRange else .ok r.locals := by
  have hurl := r.extract_text hstop
  rw [parse, hurl, Target.extractUrl_of_text hurl, parseHeaders_text]
  split_ifs
  · rfl
  · show parseUrlParams r.target.text >>= _ = _
    rw [Target.parseUrlParams_text hstop, ok_bind, r.extractHttpVerb_text hstop]
    rfl

end Text

/-- **A request is read back.** For every target, every list of headers and every body, the server
finds the verb, the path, the parameters and the headers of the request, the last of a name, and
throws when a line of the body ends at its first colon. -/
theorem parseRequest_text (r : ClientRequest) (hstop : r.target.stop < 2 ^ 31) :
    parseRequest r.text =
      if Throws r.body then .error .outOfRange else .ok r.parsed := by
  rw [parseRequest, r.parse_text hstop]
  split_ifs <;> rfl

/-- The request fits the buffer in one read. -/
structure Fits (r : ClientRequest) : Prop where
  length_lt : r.text.length < 2048
  nul_notMem : 0 ∉ r.text
  not_throws : ¬ Throws r.body

theorem Fits.stop_lt {r : ClientRequest} (h : r.Fits) : r.target.stop < 2 ^ 31 := by
  have hlen := h.length_lt
  rw [text_eq, Target.length_request] at hlen
  omega

theorem Fits.parse_eq {r : ClientRequest} (h : r.Fits) : parse r.text = .ok r.locals := by
  rw [r.parse_text h.stop_lt, if_neg h.not_throws]

theorem Fits.parseRequest_eq {r : ClientRequest} (h : r.Fits) :
    parseRequest r.text = .ok r.parsed := by
  rw [parseRequest, h.parse_eq]
  rfl

end ClientRequest

/-! ## The response -/

/-- The headers and the body of a complete message: headers that fit the grammar, with the length of
the body as their `Content-Length` when they have one, and a body that is not empty and whose size
is an `int`. -/
structure WholeResponse (headers : StringMap) (body : Bytes) : Prop where
  headersOk : HeadersOk headers
  lengthOk : ∀ v, headers.lookup contentLength = some v → v = decimal body.length
  body_ne_nil : body ≠ []
  length_lt : body.length < 2 ^ 31

theorem WholeResponse.complete {headers : StringMap} {body : Bytes} (h : WholeResponse headers body)
    (order : HashOrder) (statusCode : HttpResponseCode) :
    Complete headers body statusCode (buildHttpResponse order headers body statusCode) := by
  have hlen := h.length_lt
  have hpos := List.length_pos_iff.mpr h.body_ne_nil
  have hsize : 0 < toInt32 body.length := by
    rw [toInt32_of_lt hlen]
    omega
  have hperm : (responseFields order headers body).Perm (completeFields headers body) :=
    responseFields_perm order hsize (Or.inl hlen)
  rw [buildHttpResponse_eq, if_pos hsize]
  refine ⟨_, hperm, ?_, ?_, rfl, receive_responseFields order h.headersOk _ _⟩
  · exact ((hperm.map Prod.fst).nodup_iff).mpr nodup_completeFields
  · exact hperm.mem_iff.mpr (contentLength_mem_completeFields h.lengthOk)

/-! ## The exchange -/

section Exchange

variable {platform : Platform} {routes : RoutesMap} {endpoint : Endpoint} {route : Bytes}

theorem respond_eq {request : HttpRequest}
    (hquery : queryEndpointFromMap platform routes request.url = .ok (route, some endpoint))
    (hroute : route ≠ invalidHttpUri) :
    respond platform routes request =
      .ok ((endpoint request).build platform.order, (endpoint request).closeFd) := by
  rw [respond, hquery, ok_bind]
  simp only
  rw [if_neg hroute]
  rfl

/-- **One exchange.** A request that fits the buffer, arrives in one segment and asks for no upgrade
is answered with the response of the handler of its route, called with what the client wrote. What
is sent is a complete message with the status, the headers and the body of this response, and the
connection is closed exactly when the response says so. -/
theorem handleConnectionRequest_exchange {r : ClientRequest} (hfits : r.Fits) {fd : ℤ} {w : World}
    {q : Inbox} (hinbox : w.kernel.inbox fd = some r.text :: q)
    (hup : upgrades platform r.parsed.headers = false)
    (hquery : queryEndpointFromMap platform routes r.target.path = .ok (route, some endpoint))
    (hroute : route ≠ invalidHttpUri)
    (hwhole : WholeResponse (endpoint r.parsed).headers (endpoint r.parsed).body) :
    ∃ response,
      Complete (endpoint r.parsed).headers (endpoint r.parsed).body (endpoint r.parsed).statusCode
        response ∧
      handleConnectionRequest platform routes fd w = .ok { w with
        kernel :=
          if (endpoint r.parsed).closeFd then ((w.kernel.recv fd 2048).2.send fd response).close fd
          else (w.kernel.recv fd 2048).2.send fd response } := by
  refine ⟨_, hwhole.complete platform.order _, ?_⟩
  have hread : receivedText (some r.text :: q) = .ok r.text :=
    receivedText_of_lt hfits.length_lt hfits.nul_notMem q
  have hparse := hfits.parseRequest_eq
  have hbuilt : builtRequest (w.kernel.inbox fd) = .ok (some r.parsed) := by
    rw [builtRequest, hinbox, hread, ok_bind, requestOf, if_neg r.text_ne_nil, hparse]
    rfl
  have hrespond : respond platform routes r.parsed =
      .ok ((endpoint r.parsed).build platform.order, (endpoint r.parsed).closeFd) :=
    respond_eq hquery hroute
  rw [handleConnectionRequest_eq, hbuilt, ok_bind]
  simp only [answerRequest, upgraded_eq, hup, Bool.false_eq_true, if_false, hrespond, ok_bind]
  rfl

end Exchange

/-! ## A form -/

/-- `POST /form?name=Ann;age=7`, with a header and a body. -/
def formRequest : ClientRequest where
  target :=
    { verb := lit "POST"
      path := lit "/form"
      pairs := [(lit "name", lit "Ann"), (lit "age", lit "7")]
      mark := true
      space_notMem_verb := by decide
      slash_path := rfl
      space_notMem_path := by decide
      mark_notMem_path := by decide
      nul_notMem_path := by decide
      isPart := by
        intro p hp
        rcases List.mem_pair.mp hp with rfl | rfl <;>
          exact ⟨⟨⟨by decide, by decide, by decide⟩, ⟨by decide, by decide, by decide⟩⟩,
            ⟨⟨by decide, by decide, by decide⟩, ⟨by decide, by decide, by decide⟩⟩⟩
      space_notMem_pairs := by decide
      mark_of_pairs := fun _ => rfl }
  fields := [(lit "Host", lit "a:80")]
  body := lit "b=1"
  lf_notMem_verb := by decide
  lf_notMem_text := by decide
  plain := by
    intro f hf
    rw [List.mem_singleton.mp hf]
    exact ⟨by decide, by decide, by decide, by decide +kernel⟩

theorem formRequest_fits : formRequest.Fits where
  length_lt := by decide +kernel
  nul_notMem := by decide +kernel
  not_throws := by decide

theorem parseRequest_text_form : formRequest.target.stop < 2 ^ 31 ∧
    parseRequest formRequest.text =
      if Throws formRequest.body then .error .outOfRange else .ok formRequest.parsed :=
  ⟨formRequest_fits.stop_lt, formRequest.parseRequest_text formRequest_fits.stop_lt⟩

/-- A handler that greets the parameter `name`. -/
def greet (request : HttpRequest) : HttpResponse :=
  (HttpResponse.default .ok).setBody
    (lit "Hi " ++ (request.queryParams.lookup (lit "name")).getD [])

theorem whole_greet :
    WholeResponse (greet formRequest.parsed).headers (greet formRequest.parsed).body where
  headersOk := headersOk_empty.insert (fieldOk_contentLength _)
  lengthOk := by decide +kernel
  body_ne_nil := by decide +kernel
  length_lt := by decide +kernel

theorem query_form : queryEndpointFromMap .plain ((∅ : RoutesMap).insert (lit "/form") greet)
    formRequest.target.path = .ok (lit "/form", some greet) := rfl

end SimpleServer
