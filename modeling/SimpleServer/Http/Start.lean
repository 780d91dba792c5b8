import SimpleServer.Foundations.Threads
import SimpleServer.Http.Exchange
import SimpleServer.Http.Fallback

/-!
# The loop of `simple_server`

`http_server::start` starts a thread for each connection that `accept` returns, and goes on when
`accept` fails. The thread calls `handle_connection_request`, which closes the connection unless it
hands it over to the WebSocket service.

`released_of_reached` is about the runs in which no connection is handed over: whatever the order of
the threads' calls, each connection gets what a call of `handle_connection_request` sends that is
alone, is closed once and by its own thread, and its number is free when the thread has ended. When
the connections bring requests, each is sent the complete message of its handler's response, or the
description of its request if this has no route (`answered_of_reached`).
-/

namespace SimpleServer

open Cxx Http Posix Runs Threads

namespace Fallback

/-! ## The code of a thread -/

/-- What `handle_connection_request` does with the answer of its call of `recv`; what the WebSocket
service does with a connection that is handed over is left out. -/
def connectionPlan (platform : Platform) (routes : AList fun _ : Bytes => Endpointcb)
    (bytesRead : Option Bytes) : Except Exn Plan := do
  match ← strRequest bytesRead with
  | none => return ⟨none, .close⟩
  | some text =>
    match ← answer platform routes text with
    | .handshake headers =>
      return ⟨some (upgradeResponse platform (findWebsocketKey platform headers)), .leave⟩
    | .response response => return ⟨some response, .close⟩

/-- `http_server::handle_connection_request` as the code of a thread. -/
def connectionCode (platform : Platform) (routes : AList fun _ : Bytes => Endpointcb) : Code where
  size := 2048
  plan bytesRead := (connectionPlan platform routes bytesRead).toOption
  afterFailure := false

/-- The request that is read is handed over. -/
def HandsOver (platform : Platform) (routes : AList fun _ : Bytes => Endpointcb) (q : Inbox) :
    Prop :=
  ∃ text headers, strRequest (Inbox.recv 2048 q).1 = .ok (some text) ∧
    answer platform routes text = .ok (.handshake headers)

section Alone

variable {platform : Platform} {routes : AList fun _ : Bytes => Endpointcb}

/-- **A thread that is alone is a call of `handle_connection_request`.** -/
theorem alone_connectionCode {con : ℤ} {s : Service}
    (hplain : ¬ HandsOver platform routes (s.kernel.inbox con)) :
    (connectionCode platform routes).alone con s.kernel =
      (handleConnectionRequest platform routes con s).toOption.map Service.kernel := by
  have hanswer : (s.kernel.recv con 2048).1 = (Inbox.recv 2048 (s.kernel.inbox con)).1 := rfl
  simp only [Code.alone, connectionCode, handleConnectionRequest, connectionPlan]
  rcases hread : strRequest (s.kernel.recv con 2048).1 with e | _ | text
  · rfl
  · rfl
  · rw [ok_bind, ok_bind]
    rcases hrequest : answer platform routes text with e | headers | response
    · simp only [hrequest]
      rfl
    · exact absurd ⟨text, headers, hanswer ▸ hread, hrequest⟩ hplain
    · simp only [hrequest]
      rfl

/-- A connection that is not handed over is closed in the end. -/
theorem finish_of_connectionPlan {bytesRead : Option Bytes} {p : Plan}
    (hp : connectionPlan platform routes bytesRead = .ok p) :
    p.finish = .close ∨ ∃ text headers, strRequest bytesRead = .ok (some text) ∧
      answer platform routes text = .ok (.handshake headers) := by
  rw [connectionPlan] at hp
  rcases hread : strRequest bytesRead with e | _ | text
  · rw [hread] at hp
    cases hp
  · rw [hread] at hp
    cases hp
    exact Or.inl rfl
  · rw [hread, ok_bind] at hp
    rcases hrequest : answer platform routes text with e | headers | response
    · simp only [hrequest] at hp
      cases hp
    · exact Or.inr ⟨text, headers, rfl, hrequest⟩
    · simp only [hrequest] at hp
      cases hp
      exact Or.inl rfl

theorem endsWith_close {a : Arrival} (hplain : ¬ HandsOver platform routes a.inbox) :
    (connectionCode platform routes).EndsWith .close a := by
  intro p hp
  have hplan : connectionPlan platform routes (Inbox.recv 2048 a.inbox).1 = .ok p := by
    unfold connectionCode Code.answer at hp
    cases hplan : connectionPlan platform routes (Inbox.recv 2048 a.inbox).1 with
    | error e =>
      simp only [hplan] at hp
      cases hp
    | ok p' =>
      simp only [hplan] at hp
      cases hp
      rfl
  exact (finish_of_connectionPlan hplan).resolve_right hplain

/-- The service with one connection. -/
def alone (a : Arrival) : Service := { Service.start (-1) with kernel := only a }

/-- The calls on a connection when nothing else happens: `accept`, and those of
`handle_connection_request`. -/
def callsAlone (platform : Platform) (routes : AList fun _ : Bytes => Endpointcb) (a : Arrival) :
    List SysCall :=
  .accept a.fd ::
    match handleConnectionRequest platform routes a.fd (alone a) with
    | .ok s => s.kernel.log
    | .error _ => []

theorem calls_connectionCode {a : Arrival} (hplain : ¬ HandsOver platform routes a.inbox) :
    (connectionCode platform routes).calls a = callsAlone platform routes a := by
  have hinbox : (alone a).kernel.inbox a.fd = a.inbox := by simp [alone, only, Kernel.inbox]
  rw [← hinbox] at hplain
  have halone : (connectionCode platform routes).alone a.fd (only a) =
      (handleConnectionRequest platform routes a.fd (alone a)).toOption.map Service.kernel :=
    alone_connectionCode hplain
  rw [calls_eq_log, halone, callsAlone]
  cases handleConnectionRequest platform routes a.fd (alone a) <;> rfl

end Alone

/-! ## All threads -/

section Run

variable {platform : Platform} {routes : AList fun _ : Bytes => Endpointcb} {listener : ℤ}
  {s : Process}

/-- **Every connection is answered alone, and released.** In every run of `start` in which no
connection is handed over, the calls on a number are a beginning of those that its connections get
when each is the only one, in the order in which they were accepted. When the number has no thread
they are all of them, and the number is free. -/
theorem released_of_reached (hlistener : 0 ≤ listener)
    (hrun : Reached (Process.step (connectionCode platform routes) listener) anyStep
      (.start listener) s)
    (hplain : ∀ a ∈ s.accepted, ¬ HandsOver platform routes a.inbox) {fd : ℤ} (hfd : 0 ≤ fd) :
    callsOn fd s.kernel.log <+:
        s.accepted.flatMap (fun a => if a.fd = fd then callsAlone platform routes a else []) ∧
      ((∀ t ∈ s.threads, t.fd ≠ fd) →
        (callsOn fd s.kernel.log =
          s.accepted.flatMap fun a => if a.fd = fd then callsAlone platform routes a else []) ∧
        (fd ≠ listener → s.kernel.table fd = none)) := by
  have hcalls : (s.accepted.flatMap fun a =>
      if a.fd = fd then (connectionCode platform routes).calls a else []) =
        s.accepted.flatMap fun a => if a.fd = fd then callsAlone platform routes a else [] :=
    List.flatMap_congr fun a ha => by rw [calls_connectionCode (hplain a ha)]
  obtain ⟨hbegin, hall⟩ := callsOn_of_reached hlistener hrun hfd
  rw [hcalls] at hbegin hall
  refine ⟨hbegin, fun hnone => ⟨hall hnone, fun hne => ?_⟩⟩
  exact table_of_reached hlistener hrun hne hnone fun a ha _ => endsWith_close (hplain a ha)

end Run

/-- A client that asks for the page. -/
def pageArrival (fd : ℤ) : Arrival := ⟨fd, [some pageRequest], []⟩

/-- Two clients are served at the same time, and a third one gets the number of the first; a call of
`accept` fails. -/
def threeVisits (arrival : ℤ → Arrival) : List Threads.Label :=
  [.accept (some (arrival 5)), .accept none, .accept (some (arrival 6)), .turn 1, .turn 0, .turn 1,
    .turn 0, .turn 0, .accept (some (arrival 5)), .turn 0, .turn 0, .turn 0, .turn 0]

theorem not_handsOver_page (fd : ℤ) : ¬ HandsOver .plain ∅ (pageArrival fd).inbox := by
  rintro ⟨text, headers, hread, hanswer⟩
  have htext : text = pageRequest :=
    Option.some.inj (Except.ok.inj (hread.symm.trans strRequest_pageService))
  rw [htext, answer_of_unrouted parse_pageRequest unrouted_pageParsed] at hanswer
  cases hanswer

theorem released_pages : ∃ s : Process, s.threads = [] ∧
    callsOn 5 s.kernel.log =
      callsAlone .plain ∅ (pageArrival 5) ++ callsAlone .plain ∅ (pageArrival 5) ∧
    s.kernel.table 5 = none := by
  have hrun : (run (Process.step (connectionCode .plain ∅) 3) anyStep (.start 3)
      (threeVisits pageArrival)).any (fun s =>
        s.threads = [] ∧ s.accepted = [pageArrival 5, pageArrival 6, pageArrival 5]) = true := by
    decide +kernel
  obtain ⟨s, hs, hthreads, haccepted⟩ := exists_reached hrun
  have hplain : ∀ a ∈ s.accepted, ¬ HandsOver .plain ∅ a.inbox := by
    rw [haccepted]
    simp [not_handsOver_page]
  obtain ⟨hcalls, hfree⟩ := (released_of_reached (by decide) hs hplain
    (show (0 : ℤ) ≤ 5 by decide)).2 (by simp [hthreads])
  refine ⟨s, hthreads, ?_, hfree (by decide)⟩
  rw [hcalls, haccepted]
  simp [pageArrival]

/-! ## One request -/

section Request

variable {platform : Platform} {routes : AList fun _ : Bytes => Endpointcb} {r : ClientRequest}

/-- The request asks for no upgrade and has a route, whose handler returns a complete response. -/
structure Routed (platform : Platform) (routes : AList fun _ : Bytes => Endpointcb)
    (r : ClientRequest) (res : Response) : Prop where
  no_key : findWebsocketKey platform r.parsed.headers = []
  query : ∃ route endpoint, queryEndpoint platform routes r.target.path =
    .ok (route, some endpoint) ∧ route ≠ invalidHttpUri ∧
      endpoint (Request.of r.locals) = some res
  whole : WholeResponse res.headers res.body

/-- A connection brings such a request in one segment, or one without a route. -/
structure Asks (platform : Platform) (routes : AList fun _ : Bytes => Endpointcb)
    (r : ClientRequest) (a : Arrival) : Prop where
  fits : r.Fits
  inbox : ∃ q, a.inbox = some r.text :: q
  route : (∃ res, Routed platform routes r res) ∨ Unrouted platform routes r.locals

/-- What a client receives: the complete message of its handler's response, or the description of
its request, with two bytes more than the `Content-Length` says. -/
def Receives (platform : Platform) (routes : AList fun _ : Bytes => Endpointcb)
    (r : ClientRequest) (response : Bytes) : Prop :=
  (∃ res, Routed platform routes r res ∧
      Complete res.headers res.body res.statusCode response) ∨
    Unrouted platform routes r.locals ∧
      receive response = some ⟨lit "HTTP/1.1 200 OK",
        fallbackFields (diagnosticText platform.order r.locals),
        crlf ++ diagnosticText platform.order r.locals⟩

theorem answer_of_routed (hfits : r.Fits) {res : Response}
    (h : Routed platform routes r res) :
    answer platform routes r.text = .ok (.response (res.buildResponse platform.order)) := by
  obtain ⟨route, endpoint, hquery, hroute, hres⟩ := h.query
  have hkey : findWebsocketKey platform r.locals.headers = [] := h.no_key
  have hquery : queryEndpoint platform routes r.locals.url = .ok (route, some endpoint) :=
    hquery
  simp only [answer, hfits.parse_eq, ok_bind, hkey, ne_eq, not_true_eq_false, if_false, hquery,
    if_neg hroute, hres]
  rfl

theorem Asks.exists_answer {a : Arrival} (h : Asks platform routes r a) :
    ∃ response, answer platform routes r.text = .ok (.response response) ∧
      Receives platform routes r response := by
  rcases h.route with ⟨res, hrouted⟩ | hunrouted
  · exact ⟨_, answer_of_routed h.fits hrouted,
      Or.inl ⟨res, hrouted, hrouted.whole.complete platform.order res.statusCode⟩⟩
  · exact ⟨_, answer_of_unrouted h.fits.parse_eq hunrouted,
      Or.inr ⟨hunrouted, receive_fallbackResponse _⟩⟩

/-- What the thread of such a connection reads. -/
theorem Asks.strRequest_eq {a : Arrival} (h : Asks platform routes r a) :
    strRequest (Inbox.recv 2048 a.inbox).1 = .ok (some r.text) := by
  obtain ⟨q, hq⟩ := h.inbox
  have hle := h.fits.length_lt.le
  have hne := h.fits.length_lt.ne
  have hrecv : (Inbox.recv 2048 a.inbox).1 = some r.text := by simp [hq, Inbox.recv, hle]
  rw [hrecv, strRequest, if_neg r.text_ne_nil, if_neg (fun hfull => hne hfull.1),
    (takeWhile_ne_nul_eq_iff r.text).mpr h.fits.nul_notMem]

/-- **One request.** It is answered, and the connection is closed. -/
theorem Asks.calls {a : Arrival} (h : Asks platform routes r a) :
    ∃ response, Receives platform routes r response ∧
      (connectionCode platform routes).calls a =
        [.accept a.fd, .send a.fd response, .close a.fd true] := by
  obtain ⟨response, hanswer, hreceives⟩ := h.exists_answer
  have hplan : (connectionCode platform routes).plan
      ((connectionCode platform routes).answer a) = some ⟨some response, .close⟩ := by
    show (connectionPlan platform routes (Inbox.recv 2048 a.inbox).1).toOption = _
    rw [connectionPlan, h.strRequest_eq, ok_bind]
    simp only [hanswer, ok_bind]
    rfl
  refine ⟨response, hreceives, ?_⟩
  rw [Code.calls, hplan]
  rfl

end Request

/-! ## All requests -/

section Run

variable {platform : Platform} {routes : AList fun _ : Bytes => Endpointcb} {listener : ℤ}
  {s : Process}

/-- **Every client is answered.** In every run of `start` the calls on a number, when each of its
connections brings a request, are a beginning of these in turn: a connection is accepted, the
response to its own request is sent on it, and it is closed once; and all of them when the number
has no thread. -/
theorem answered_of_reached (hlistener : 0 ≤ listener)
    (hrun : Reached (Process.step (connectionCode platform routes) listener) anyStep
      (.start listener) s)
    {fd : ℤ} (hfd : 0 ≤ fd) {request : Arrival → ClientRequest}
    (hasks : ∀ a ∈ s.accepted, a.fd = fd → Asks platform routes (request a) a) :
    ∃ response : Arrival → Bytes,
      (∀ a ∈ s.accepted, a.fd = fd → Receives platform routes (request a) (response a)) ∧
      callsOn fd s.kernel.log <+: s.accepted.flatMap (fun a =>
        if a.fd = fd then [.accept fd, .send fd (response a), .close fd true] else []) ∧
      ((∀ t ∈ s.threads, t.fd ≠ fd) → callsOn fd s.kernel.log = s.accepted.flatMap fun a =>
        if a.fd = fd then [.accept fd, .send fd (response a), .close fd true] else []) := by
  classical
  have hone : ∀ a, ∃ response, a ∈ s.accepted → a.fd = fd →
      Receives platform routes (request a) response ∧
        (connectionCode platform routes).calls a =
          [.accept a.fd, .send a.fd response, .close a.fd true] := by
    intro a
    by_cases ha : a ∈ s.accepted ∧ a.fd = fd
    · obtain ⟨response, h⟩ := (hasks a ha.1 ha.2).calls
      exact ⟨response, fun _ _ => h⟩
    · exact ⟨[], fun hmem heq => absurd ⟨hmem, heq⟩ ha⟩
  choose response hresponse using hone
  have hcalls : (s.accepted.flatMap fun a =>
      if a.fd = fd then (connectionCode platform routes).calls a else []) =
        s.accepted.flatMap fun a =>
          if a.fd = fd then [.accept fd, .send fd (response a), .close fd true] else [] := by
    refine List.flatMap_congr fun a ha => ?_
    by_cases heq : a.fd = fd
    · rw [if_pos heq, if_pos heq, (hresponse a ha heq).2, heq]
    · rw [if_neg heq, if_neg heq]
  refine ⟨response, fun a ha heq => (hresponse a ha heq).1, ?_⟩
  rw [← hcalls]
  exact callsOn_of_reached hlistener hrun hfd

end Run

/-- A handler that greets the parameter `name`. -/
def greetPage (request : Request) : Option Response :=
  some ⟨∅, lit "Hi " ++ (request.queryParams.lookup (lit "name")).getD [], .ok⟩

def greetRoutes : AList fun _ : Bytes => Endpointcb :=
  (∅ : AList fun _ : Bytes => Endpointcb).insert (lit "/form") greetPage

/-- A client that sends the form. -/
def formArrival (fd : ℤ) : Arrival := ⟨fd, [some formRequest.text], []⟩

theorem asks_greet (fd : ℤ) : Asks .plain greetRoutes formRequest (formArrival fd) where
  fits := formRequest_fits
  inbox := ⟨[], rfl⟩
  route := by
    refine Or.inl ⟨⟨∅, lit "Hi Ann", .ok⟩, by decide +kernel, ?_, ?_⟩
    · exact ⟨lit "/form", greetPage, rfl, by decide, rfl⟩
    · refine ⟨headersOk_empty, fun v h => ?_, by decide, by decide⟩
      cases h

theorem answered_greet : ∃ s : Process, s.threads = [] ∧ ∃ response,
    Receives .plain greetRoutes formRequest response ∧
    callsOn 6 s.kernel.log = [.accept 6, .send 6 response, .close 6 true] := by
  have hrun : (run (Process.step (connectionCode .plain greetRoutes) 3) anyStep (.start 3)
      (threeVisits formArrival)).any (fun s =>
        s.threads = [] ∧ s.accepted = [formArrival 5, formArrival 6, formArrival 5]) = true := by
    decide +kernel
  obtain ⟨s, hs, hthreads, haccepted⟩ := exists_reached hrun
  have hform : ∀ a ∈ s.accepted, ∃ fd, a = formArrival fd := by
    rw [haccepted]
    simp
  have hasks : ∀ a ∈ s.accepted, a.fd = 6 → Asks .plain greetRoutes formRequest a := by
    intro a ha _
    obtain ⟨fd, rfl⟩ := hform a ha
    exact asks_greet fd
  obtain ⟨response, hreceives, -, hall⟩ :=
    answered_of_reached (by decide) hs (show (0 : ℤ) ≤ 6 by decide) hasks
  refine ⟨s, hthreads, response (formArrival 6), hreceives _ (by simp [haccepted]) rfl, ?_⟩
  rw [hall (by simp [hthreads]), haccepted]
  simp [formArrival]

end Fallback

end SimpleServer
