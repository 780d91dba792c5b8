import SimpleServer.Foundations.Threads
import SimpleServer.Http.Exchange
import SimpleServer.Tcp.Dispatch

/-!
# The server with threads

`tcp_default_handler` starts a thread for each result of `accept`, and the thread calls
`http_server::handle_connection_request`. The calls of the threads come in any order. The set of
WebSocket descriptors, which the threads change without a lock, is left out: what follows is about
the calls on the connections.

A thread that is alone is a call of `handleConnectionRequest` (`alone_httpCode`), and
`isolated_of_reached` says that in every run each connection is handled as if it were alone: the
calls on a number are those of its connections one after another, so none is closed by the thread
of another or gets the response of another. `served_of_reached` puts the exchange of one request in
the place of each connection. The loop of `tcp_default_handler` without its threads' calls is
followed step by step (`exists_defaultLoop`).
-/

namespace SimpleServer

open Cxx Posix Runs Threads

namespace ThreadedServer

/-! ## The handler -/

/-- `received_str` on the answer of its call of `recv`. -/
def receivedAnswer : Option Bytes → Except Exn Bytes
  | none => .ok []
  | some bytes =>
    if bytes.length = 2048 ∧ 0 ∉ bytes then .error .undefined
    else .ok (bytes.takeWhile (· ≠ 0))

/-- What `handle_connection_request` does with the text of a request, without the registration of
an upgraded connection. -/
def requestPlan (platform : Platform) (routes : RoutesMap) (strRequest : Bytes) :
    Except Exn Plan := do
  if strRequest = [] then return ⟨none, .leave⟩
  else
    let request ← parseRequest strRequest
    if upgrades platform request.headers then
      return ⟨some (upgradeResponse platform (findWebsocketKey platform request.headers)), .leave⟩
    else
      let answer ← respond platform routes request
      return ⟨some answer.1, if answer.2 then .close else .leave⟩

/-- `http_server::handle_connection_request` as the code of a thread. -/
def httpCode (platform : Platform) (routes : RoutesMap) : Code where
  size := 2048
  plan answer := (receivedAnswer answer >>= requestPlan platform routes).toOption
  afterFailure := true

/-! ## A thread that is alone -/

section Alone

variable {platform : Platform} {routes : RoutesMap}

theorem receivedText_eq (q : Inbox) : receivedText q = receivedAnswer (Inbox.recv 2048 q).1 := by
  unfold receivedText receivedAnswer
  cases (Inbox.recv 2048 q).1 <;> rfl

/-- **A thread that is alone is a call of the handler.** -/
theorem alone_httpCode (platform : Platform) (routes : RoutesMap) (fd : ℤ) (w : World) :
    (httpCode platform routes).alone fd w.kernel =
      (handleConnectionRequest platform routes fd w).toOption.map World.kernel := by
  have hanswer : receivedAnswer (w.kernel.recv fd 2048).1 = receivedText (w.kernel.inbox fd) :=
    (receivedText_eq _).symm
  rw [handleConnectionRequest_eq, builtRequest]
  simp only [Code.alone, httpCode, hanswer]
  cases hread : receivedText (w.kernel.inbox fd) with
  | error e => rfl
  | ok strRequest =>
    rw [ok_bind, ok_bind, requestPlan, requestOf]
    split_ifs with hnil
    · rfl
    · cases hparse : parseRequest strRequest with
      | error e => rfl
      | ok request =>
        simp only [ok_bind, Except.map, answerRequest, upgraded_eq]
        cases hup : upgrades platform request.headers with
        | true => rfl
        | false =>
          simp only [Bool.false_eq_true, if_false]
          rcases hrespond : respond platform routes request with e | ⟨response, closefd⟩
          · rfl
          · cases closefd <;> rfl

/-- A process with one connection. -/
def alone (a : Arrival) : World := ⟨only a, ∅⟩

/-- The calls on a connection when nothing else happens: `accept`, and those of the handler. -/
def callsAlone (platform : Platform) (routes : RoutesMap) (a : Arrival) : List SysCall :=
  .accept a.fd ::
    match handleConnectionRequest platform routes a.fd (alone a) with
    | .ok w => w.kernel.log
    | .error _ => []

theorem calls_httpCode (a : Arrival) :
    (httpCode platform routes).calls a = callsAlone platform routes a := by
  have halone : (httpCode platform routes).alone a.fd (only a) =
      (handleConnectionRequest platform routes a.fd (alone a)).toOption.map World.kernel :=
    alone_httpCode platform routes a.fd (alone a)
  rw [calls_eq_log, halone, callsAlone]
  cases handleConnectionRequest platform routes a.fd (alone a) <;> rfl

end Alone

/-! ## All threads -/

section Run

variable {platform : Platform} {routes : RoutesMap} {serverFd : ℤ} {s : Process}

/-- **Each connection is handled as if it were alone.** In every run of the server, whatever the
order of the threads' calls, the calls on a number are a beginning of those that its connections
get when each is the only one, in the order in which they were accepted, and all of them when the
number has no thread. -/
theorem isolated_of_reached (hserver : 0 ≤ serverFd)
    (hrun : Reached (Process.step (httpCode platform routes) serverFd) anyStep (.start serverFd) s)
    {fd : ℤ} (hfd : 0 ≤ fd) :
    callsOn fd s.kernel.log <+:
        s.accepted.flatMap (fun a => if a.fd = fd then callsAlone platform routes a else []) ∧
      ((∀ t ∈ s.threads, t.fd ≠ fd) → callsOn fd s.kernel.log =
        s.accepted.flatMap fun a => if a.fd = fd then callsAlone platform routes a else []) := by
  have hcalls := callsOn_of_reached hserver hrun hfd
  simp only [calls_httpCode] at hcalls
  exact hcalls

/-- A connection brings, in one segment, a request that fits the buffer, asks for no upgrade and has
a route, whose handler's response is a complete message. -/
structure Asks (platform : Platform) (routes : RoutesMap) (r : ClientRequest) (endpoint : Endpoint)
    (a : Arrival) : Prop where
  fits : r.Fits
  inbox : ∃ q, a.inbox = some r.text :: q
  no_upgrade : upgrades platform r.parsed.headers = false
  query : ∃ route, queryEndpointFromMap platform routes r.target.path = .ok (route, some endpoint) ∧
    route ≠ invalidHttpUri
  whole : WholeResponse (endpoint r.parsed).headers (endpoint r.parsed).body

/-- The calls on a connection that is served: its handler's response is sent, and it is closed when
the response says so. -/
def servedCalls (fd : ℤ) (res : HttpResponse) (response : Bytes) : List SysCall :=
  [.accept fd, .send fd response] ++ if res.closeFd then [.close fd true] else []

/-- One exchange, by its calls. -/
theorem callsAlone_exchange {r : ClientRequest} {endpoint : Endpoint} {a : Arrival}
    (h : Asks platform routes r endpoint a) :
    ∃ response,
      Complete (endpoint r.parsed).headers (endpoint r.parsed).body (endpoint r.parsed).statusCode
        response ∧
      callsAlone platform routes a = servedCalls a.fd (endpoint r.parsed) response := by
  obtain ⟨q, hq⟩ := h.inbox
  obtain ⟨route, hquery, hroute⟩ := h.query
  have hinbox : (alone a).kernel.inbox a.fd = some r.text :: q := by
    simp [alone, only, Kernel.inbox, hq]
  obtain ⟨response, hcomplete, hok⟩ :=
    handleConnectionRequest_exchange h.fits hinbox h.no_upgrade hquery hroute h.whole
  refine ⟨response, hcomplete, ?_⟩
  have hopen : (((only a).recv a.fd 2048).2.send a.fd response).isOpen a.fd = true :=
    (Kernel.talks_send _ a.fd response).isOpen (isOpen_recv_only a 2048)
  rw [callsAlone, hok, servedCalls]
  cases (endpoint r.parsed).closeFd with
  | true => simp [alone, Kernel.close, log_recv_only, hopen]
  | false => simp [alone, log_recv_only]

/-- **Every client is served.** In every run of the server the calls on a number, when each of its
connections brings a request, are a beginning of these in turn: a connection is accepted, the
complete message of its own request's response is sent on it, and it is closed once when the
response says so; and all of them when the number has no thread. -/
theorem served_of_reached (hserver : 0 ≤ serverFd)
    (hrun : Reached (Process.step (httpCode platform routes) serverFd) anyStep (.start serverFd) s)
    {fd : ℤ} (hfd : 0 ≤ fd) {request : Arrival → ClientRequest} {endpoint : Arrival → Endpoint}
    (hasks : ∀ a ∈ s.accepted, a.fd = fd → Asks platform routes (request a) (endpoint a) a) :
    ∃ response : Arrival → Bytes,
      (∀ a ∈ s.accepted, a.fd = fd →
        Complete (endpoint a (request a).parsed).headers (endpoint a (request a).parsed).body
          (endpoint a (request a).parsed).statusCode (response a)) ∧
      callsOn fd s.kernel.log <+: s.accepted.flatMap (fun a =>
        if a.fd = fd then servedCalls fd (endpoint a (request a).parsed) (response a) else []) ∧
      ((∀ t ∈ s.threads, t.fd ≠ fd) → callsOn fd s.kernel.log = s.accepted.flatMap fun a =>
        if a.fd = fd then servedCalls fd (endpoint a (request a).parsed) (response a) else []) := by
  classical
  have hexchange : ∀ a, ∃ response, a ∈ s.accepted → a.fd = fd →
      Complete (endpoint a (request a).parsed).headers (endpoint a (request a).parsed).body
          (endpoint a (request a).parsed).statusCode response ∧
        callsAlone platform routes a =
          servedCalls a.fd (endpoint a (request a).parsed) response := by
    intro a
    by_cases ha : a ∈ s.accepted ∧ a.fd = fd
    · obtain ⟨response, h⟩ := callsAlone_exchange (hasks a ha.1 ha.2)
      exact ⟨response, fun _ _ => h⟩
    · exact ⟨[], fun hmem heq => absurd ⟨hmem, heq⟩ ha⟩
  choose response hresponse using hexchange
  refine ⟨response, fun a ha heq => (hresponse a ha heq).1, ?_⟩
  have hserved : (s.accepted.flatMap fun a =>
      if a.fd = fd then callsAlone platform routes a else []) = s.accepted.flatMap fun a =>
        if a.fd = fd then servedCalls fd (endpoint a (request a).parsed) (response a) else [] := by
    refine List.flatMap_congr fun a ha => ?_
    by_cases heq : a.fd = fd
    · rw [if_pos heq, if_pos heq, (hresponse a ha heq).2, heq]
    · rw [if_neg heq, if_neg heq]
  have hcalls := callsOn_of_reached hserver hrun hfd
  simp only [calls_httpCode] at hcalls
  rw [← hserved]
  exact hcalls

end Run

/-! ## Two clients -/

def formRoutes : RoutesMap := (∅ : RoutesMap).insert (lit "/form") greet

/-- A client that sends the form. -/
def formArrival (fd : ℤ) : Arrival := ⟨fd, [some formRequest.text], []⟩

/-- Two clients are served at the same time, and a third one gets the number of the first. -/
def formLabels : List Threads.Label :=
  [.accept (some (formArrival 5)), .accept (some (formArrival 6)), .turn 1, .turn 0, .turn 1,
    .turn 0, .turn 0, .accept (some (formArrival 5)), .turn 0, .turn 0, .turn 0, .turn 0]

theorem reached_forms : ∃ s, Reached (Process.step (httpCode .plain formRoutes) 3) anyStep
    (.start 3) s ∧ s.threads = [] ∧ s.accepted = [formArrival 5, formArrival 6, formArrival 5] := by
  have hrun : (run (Process.step (httpCode .plain formRoutes) 3) anyStep (.start 3) formLabels).any
      (fun s => s.threads = [] ∧ s.accepted = [formArrival 5, formArrival 6, formArrival 5]) =
        true := by
    decide +kernel
  exact exists_reached hrun

theorem asks_form (fd : ℤ) : Asks .plain formRoutes formRequest greet (formArrival fd) where
  fits := formRequest_fits
  inbox := ⟨[], rfl⟩
  no_upgrade := by decide +kernel
  query := ⟨lit "/form", query_form, by decide⟩
  whole := whole_greet

theorem isolated_forms : ∃ s : Process, s.threads = [] ∧
    callsOn 5 s.kernel.log =
      callsAlone .plain formRoutes (formArrival 5) ++
        callsAlone .plain formRoutes (formArrival 5) := by
  obtain ⟨s, hs, hthreads, haccepted⟩ := reached_forms
  have hcalls := (isolated_of_reached (by decide) hs (show (0 : ℤ) ≤ 5 by decide)).2
    (by simp [hthreads])
  refine ⟨s, hthreads, hcalls.trans ?_⟩
  rw [haccepted]
  simp [formArrival]

theorem served_forms : ∃ (s : Process) (response : Bytes), s.threads = [] ∧
    Complete (greet formRequest.parsed).headers (lit "Hi Ann") .ok response ∧
    callsOn 5 s.kernel.log =
      [.accept 5, .send 5 response, .close 5 true, .accept 5, .send 5 response, .close 5 true] := by
  obtain ⟨s, hs, hthreads, haccepted⟩ := reached_forms
  have hbody : (greet formRequest.parsed).body = lit "Hi Ann" := by decide +kernel
  have hasks : ∀ a ∈ s.accepted, a.fd = 5 → Asks .plain formRoutes formRequest greet a := by
    intro a ha _
    rw [haccepted] at ha
    simp only [List.mem_cons, List.not_mem_nil, or_false] at ha
    rcases ha with rfl | rfl | rfl <;> exact asks_form _
  obtain ⟨response, hcomplete, -, hcalls⟩ := served_of_reached (by decide) hs
    (show (0 : ℤ) ≤ 5 by decide) hasks
  have hfirst := hcomplete (formArrival 5) (by simp [haccepted]) rfl
  rw [hbody] at hfirst
  refine ⟨s, response (formArrival 5), hthreads, hfirst, (hcalls (by simp [hthreads])).trans ?_⟩
  rw [haccepted]
  simp [formArrival, servedCalls, greet, HttpResponse.setBody, HttpResponse.default]

/-! ## The loop -/

/-- The number of a thread that has not called the handler yet. -/
def waiting (t : Thread) : Option ℤ := if t.stage = .reading then some t.fd else none

/-- The server is in a state of the loop of `tcp_default_handler`. -/
structure Follows (d : DefaultLoop) (s : Process) : Prop where
  run : d.run = s.running
  threads : s.running = true → d.threads = s.threads.filterMap waiting
  accepted : d.calls.accepted = accepts s.kernel.log

section Loop

variable {code : Code} {serverFd : ℤ} {d : DefaultLoop} {s s' : Process}

theorem accepts_planSend (p : Plan) (fd : ℤ) (k : Kernel) :
    accepts (p.send fd k).log = accepts k.log := by
  cases hreply : p.reply with
  | none => simp [Plan.send, hreply]
  | some bytes =>
    simp only [Plan.send, hreply]
    exact (k.talks_send fd bytes).accepts

theorem accepts_planClose (p : Plan) (fd : ℤ) (k : Kernel) :
    accepts (p.close fd k).log = accepts k.log := by
  cases hfinish : p.finish with
  | close =>
    simp only [Plan.close, hfinish]
    exact Kernel.accepts_close k fd
  | leave => simp [Plan.close, hfinish]

/-- The threads around the one at an index. -/
theorem threads_split {i : ℕ} {t : Thread} (ht : s.threads[i]? = some t) :
    s.threads = s.threads.take i ++ t :: s.threads.drop (i + 1) ∧
      ∀ t', s.threads.set i t' = s.threads.take i ++ t' :: s.threads.drop (i + 1) := by
  obtain ⟨hi, rfl⟩ := List.getElem?_eq_some_iff.mp ht
  refine ⟨by rw [List.getElem_cons_drop, List.take_append_drop], fun t' => ?_⟩
  rw [List.set_eq_take_append_cons_drop, if_pos hi]

/-- A thread that reads calls the handler, and waits no longer. -/
theorem Follows.read (h : Follows d s) (hrun : s.running = true) {i : ℕ} {t : Thread}
    (ht : s.threads[i]? = some t) (hstage : t.stage = .reading) (throws : Bool) :
    ∃ j, d.step (.thread j throws) =
        some ⟨!throws, d.threads.eraseIdx j, d.calls.handleIncommingConnection t.fd⟩ ∧
      ∀ p, d.threads.eraseIdx j = (s.threads.set i ⟨t.fd, .planned p⟩).filterMap waiting := by
  obtain ⟨hsplit, hset⟩ := threads_split ht
  have hwaiting : waiting t = some t.fd := if_pos hstage
  have hthreads : d.threads = (s.threads.take i).filterMap waiting ++
      t.fd :: (s.threads.drop (i + 1)).filterMap waiting := by
    rw [h.threads hrun]
    conv_lhs => rw [hsplit]
    rw [List.filterMap_append, List.filterMap_cons, hwaiting]
  refine ⟨((s.threads.take i).filterMap waiting).length, ?_, fun p => ?_⟩
  · have hget : d.threads[((s.threads.take i).filterMap waiting).length]? = some t.fd := by
      rw [hthreads, List.getElem?_append_right le_rfl, Nat.sub_self]
      rfl
    rw [DefaultLoop.step, if_pos (h.run.trans hrun), hget]
  · rw [hthreads, hset, List.filterMap_append, List.filterMap_cons,
      List.eraseIdx_append_of_length_le le_rfl, Nat.sub_self]
    rfl

/-- The other calls of a thread change nothing for the loop. -/
theorem filterMap_waiting_set {i : ℕ} {t : Thread} (ht : s.threads[i]? = some t)
    (hstage : t.stage ≠ .reading) {t' : Thread} (hstage' : t'.stage ≠ .reading) :
    (s.threads.set i t').filterMap waiting = s.threads.filterMap waiting := by
  obtain ⟨hsplit, hset⟩ := threads_split ht
  have hnone : waiting t = none := if_neg hstage
  have hnone' : waiting t' = none := if_neg hstage'
  conv_rhs => rw [hsplit]
  rw [hset, List.filterMap_append, List.filterMap_append, List.filterMap_cons,
    List.filterMap_cons, hnone, hnone']

theorem filterMap_waiting_erase {i : ℕ} {t : Thread} (ht : s.threads[i]? = some t)
    (hstage : t.stage ≠ .reading) :
    (s.threads.eraseIdx i).filterMap waiting = s.threads.filterMap waiting := by
  obtain ⟨hsplit, -⟩ := threads_split ht
  have hnone : waiting t = none := if_neg hstage
  conv_rhs => rw [hsplit]
  rw [List.eraseIdx_eq_take_drop_succ, List.filterMap_append, List.filterMap_append,
    List.filterMap_cons, hnone]

theorem Follows.step (h : Follows d s) (hcode : code.afterFailure = true) {a : Threads.Label}
    (hstep : s.step code serverFd a = some s') :
    Follows d s' ∨ ∃ b d', d.step b = some d' ∧ Follows d' s' := by
  cases a with
  | accept a =>
    right
    have hstarts : code.starts a = true := by rw [Code.starts, hcode, Bool.or_true]
    simp only [Process.step, hstarts, if_true] at hstep
    split_ifs at hstep with hrun
    obtain ⟨⟨fd, kernel⟩, haccept, rfl⟩ := Option.map_eq_some_iff.mp hstep
    have hle := Kernel.neg_one_le_accept haccept
    refine ⟨.accept fd, _, if_pos ⟨h.run.trans hrun, hle⟩, h.run, fun _ => ?_, ?_⟩
    · rw [List.filterMap_append, ← h.threads hrun]
      rfl
    · rw [Calls.accept, h.accepted]
      exact (Kernel.accepts_accept haccept).symm
  | turn i =>
    rw [Process.step] at hstep
    split_ifs at hstep with hrun
    obtain ⟨t, ht, rfl⟩ := Option.map_eq_some_iff.mp hstep
    cases hstage : t.stage with
    | reading =>
      right
      have hrecv := (s.kernel.talks_recv t.fd code.size).accepts
      simp only [Process.turn, hstage]
      cases hplan : code.plan (s.kernel.recv t.fd code.size).1 with
      | none =>
        obtain ⟨j, hd, -⟩ := h.read hrun ht hstage true
        exact ⟨_, _, hd, rfl, fun hstop => absurd hstop Bool.false_ne_true,
          h.accepted.trans hrecv.symm⟩
      | some p =>
        obtain ⟨j, hd, hthreads⟩ := h.read hrun ht hstage false
        exact ⟨_, _, hd, hrun.symm, fun _ => hthreads p, h.accepted.trans hrecv.symm⟩
    | planned p =>
      left
      simp only [Process.turn, hstage]
      refine ⟨h.run, fun _ => ?_, h.accepted.trans (accepts_planSend ..).symm⟩
      exact (h.threads hrun).trans (filterMap_waiting_set ht (by simp [hstage]) (by simp)).symm
    | replied p =>
      left
      simp only [Process.turn, hstage]
      refine ⟨h.run, fun _ => ?_, h.accepted.trans (accepts_planClose ..).symm⟩
      exact (h.threads hrun).trans (filterMap_waiting_erase ht (by simp [hstage])).symm

/-- The server is at every moment in a state that the loop reaches. -/
theorem exists_defaultLoop (hcode : code.afterFailure = true)
    (hrun : Reached (Process.step code serverFd) anyStep (.start serverFd) s) :
    ∃ d, Reached DefaultLoop.step anyStep .init d ∧ Follows d s := by
  have hinit : Follows .init (.start serverFd) := ⟨rfl, fun _ => rfl, rfl⟩
  exact hrun.simulates hinit fun d s a s' hfollows hstep => hfollows.step hcode hstep

end Loop

end ThreadedServer

end SimpleServer
