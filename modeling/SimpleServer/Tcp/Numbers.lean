import SimpleServer.Foundations.Dispenser
import SimpleServer.Http.ResponseMessage
import SimpleServer.Tcp.Epoll

/-!
# What the epoll server is for

`tcp_epoll_handler` answers the first bytes that a client sends with a number, the next value of
`count`, and closes the connection. So the server dispenses numbers: a visit begins when a
connection is accepted and ends when it is closed, with a number or without one.

`numbered_of_reached` says that every run of the server is one of the dispenser: the calls on a
descriptor are those of its visits, whatever the batches and however the descriptors are given out
again, the responses `1, .., count` are sent in this order and each to one visit, and every response
is received as a complete message.
-/

namespace SimpleServer

open Cxx Http Posix Runs Tickets

namespace Epoll

/-! ## The response -/

/-- The body of the response to the `count`-th message. -/
def epollBody (count : ℕ) : Bytes := lit "Hola eres el numero==>" ++ decimal count

def epollFields (count : ℕ) : List (Bytes × Bytes) :=
  [(lit "Content-Type", lit "text/plain"),
    (contentLength, decimal (epollBody count).length), (lit "Connection", lit "close")]

theorem epollResponse_eq (count : ℕ) :
    epollResponse count =
      (Message.mk (lit "HTTP/1.1 200 OK") (epollFields count) (epollBody count)).render := by
  have hstatus : lit "HTTP/1.1 200 OK\r\n" = lit "HTTP/1.1 200 OK" ++ crlf := by decide
  have htype : lit "Content-Type: text/plain\r\n" =
      lit "Content-Type" ++ lit ": " ++ lit "text/plain" ++ crlf := by decide
  have hlength : lit "Content-Length: " = contentLength ++ lit ": " := by decide
  have hclose : lit "Connection: close\r\n\r\n" =
      lit "Connection" ++ lit ": " ++ lit "close" ++ crlf ++ crlf := by decide
  have hcrlf : lit "\r\n" = crlf := by decide
  simp only [epollResponse, epollBody, hstatus, htype, hlength, hclose, hcrlf, Message.render,
    epollFields, fieldLine, List.map_cons, List.map_nil, List.flatMap_cons, List.flatMap_nil,
    List.append_assoc, List.append_nil]

theorem receive_epollResponse (count : ℕ) :
    receive (epollResponse count) =
      some ⟨lit "HTTP/1.1 200 OK", epollFields count, epollBody count⟩ := by
  have hstatus : lit "HTTP/1.1 200 OK" ≠ [] ∧ OneLine (lit "HTTP/1.1 200 OK") := by decide
  rw [epollResponse_eq]
  refine Message.receive_render ⟨hstatus.1, hstatus.2, ?_⟩
  intro f hf
  simp only [epollFields, List.mem_cons, List.not_mem_nil, or_false] at hf
  rcases hf with rfl | rfl | rfl
  · decide
  · exact fieldOk_contentLength _
  · decide

/-! ## Visits -/

/-- The calls with which a visit ends. -/
def lastCalls (fd : ℤ) : Outcome → List SysCall
  | .waiting => []
  | .left => [.close fd true]
  | .served n => [.send fd (epollResponse n), .close fd true]

/-- The calls of a visit. -/
def visitCalls (v : ℤ × Outcome) : List SysCall := .accept v.1 :: lastCalls v.1 v.2

/-- What a call sends. -/
def sentBy : SysCall → Option Bytes
  | .send _ bytes => some bytes
  | _ => none

/-- The server is in a state of the dispenser. -/
structure Dispenses (d : Dispenser ℤ) (s : Epoll) : Prop where
  issued : d.issued = s.count
  clients : ∀ fd, (fd, .waiting) ∈ d.visits ↔ s.IsClient fd
  calls : ∀ fd, 0 ≤ fd → callsOn fd s.kernel.log =
    d.visits.flatMap fun v => if v.1 = fd then visitCalls v else []
  sent : s.kernel.log.filterMap sentBy = (List.range' 1 s.count).map epollResponse

section Step

variable {d : Dispenser ℤ} {s s' : Epoll} {fd : ℤ}

theorem dispenses_init (serverFd epollFd : ℤ) : Dispenses .empty (init serverFd epollFd) := by
  refine ⟨rfl, fun fd => ?_, fun fd _ => rfl, rfl⟩
  by_cases h : fd = serverFd <;> simp [Dispenser.empty, init, IsClient, h]

/-- Nothing is called on an open number, and the same connections are open. -/
theorem Dispenses.silent (h : Dispenses d s) (hcount : s'.count = s.count)
    (hclients : ∀ fd, s'.IsClient fd ↔ s.IsClient fd)
    (hcalls : ∀ fd, 0 ≤ fd → callsOn fd s'.kernel.log = callsOn fd s.kernel.log)
    (hsent : s'.kernel.log.filterMap sentBy = s.kernel.log.filterMap sentBy) : Dispenses d s' where
  issued := hcount ▸ h.issued
  clients fd := (h.clients fd).trans (hclients fd).symm
  calls fd hpos := (hcalls fd hpos).trans (h.calls fd hpos)
  sent := by rw [hsent, hcount, h.sent]

theorem fd_of_mem_lastCalls {o : Outcome} : ∀ c ∈ lastCalls fd o, c.fd = fd := by
  cases o <;> simp [lastCalls, SysCall.fd]

/-- The calls of the visits when one of them ends. -/
theorem Dispenses.calls_settle (h : Dispenses d s) (hwaits : (fd, .waiting) ∈ d.visits)
    (o : Outcome) {fd' : ℤ} (hpos : 0 ≤ fd') :
    callsOn fd' (s.kernel.log ++ lastCalls fd o) =
      (settle fd o d.visits).flatMap fun v => if v.1 = fd' then visitCalls v else [] := by
  obtain ⟨l, r, hvisits, hsettle, hbehind⟩ := exists_settle d.apart hwaits
  rw [callsOn_append, h.calls fd' hpos, hsettle, hvisits, List.flatMap_append, List.flatMap_append,
    List.flatMap_cons, List.flatMap_cons]
  by_cases heq : fd = fd'
  · subst heq
    have hnone : r.flatMap (fun v => if v.1 = fd then visitCalls v else []) = [] := by
      rw [List.flatMap_eq_nil_iff]
      exact fun v hv => if_neg (hbehind v hv)
    rw [if_pos rfl, if_pos rfl, hnone, callsOn_of_forall fd_of_mem_lastCalls]
    simp [visitCalls, lastCalls]
  · rw [if_neg heq, if_neg heq, callsOn_of_ne fd_of_mem_lastCalls (Ne.symm heq), List.append_nil]

/-- A visit ends without a number. -/
theorem Dispenses.left (h : Dispenses d s) (hwaits : (fd, .waiting) ∈ d.visits)
    (hcount : s'.count = s.count) (hlog : s'.kernel.log = s.kernel.log ++ lastCalls fd .left)
    (hclients : ∀ fd', s'.IsClient fd' ↔ fd' ≠ fd ∧ s.IsClient fd') :
    Dispenses (d.leave fd hwaits) s' where
  issued := hcount ▸ h.issued
  clients fd' := by
    rw [hclients, ← h.clients]
    exact mem_settle_iff (by simp) fd'
  calls fd' hpos := by
    rw [hlog]
    exact h.calls_settle hwaits .left hpos
  sent := by
    rw [hlog, List.filterMap_append, h.sent, hcount]
    simp [lastCalls, sentBy]

/-- A visit ends with the next number. -/
theorem Dispenses.served (h : Dispenses d s) (hwaits : (fd, .waiting) ∈ d.visits)
    (hcount : s'.count = s.count + 1)
    (hlog : s'.kernel.log = s.kernel.log ++ lastCalls fd (.served (s.count + 1)))
    (hclients : ∀ fd', s'.IsClient fd' ↔ fd' ≠ fd ∧ s.IsClient fd') :
    Dispenses (d.serve fd hwaits) s' where
  issued := by rw [hcount, ← h.issued]; rfl
  clients fd' := by
    rw [hclients, ← h.clients]
    exact mem_settle_iff (by simp) fd'
  calls fd' hpos := by
    rw [hlog, ← h.issued]
    exact h.calls_settle hwaits _ hpos
  sent := by
    rw [hlog, List.filterMap_append, h.sent, hcount, List.range'_concat, List.map_append, one_mul,
      Nat.add_comm 1]
    rfl

/-- A visit begins, and maybe ends. -/
theorem Dispenses.joined (h : Dispenses d s) {o : Outcome} (ho : o.number = none)
    (hfree : (fd, .waiting) ∉ d.visits) (hcount : s'.count = s.count)
    (hlog : s'.kernel.log = s.kernel.log ++ visitCalls (fd, o))
    (hclients : ∀ fd', s'.IsClient fd' ↔ (fd' = fd ∧ o = .waiting) ∨ s.IsClient fd') :
    Dispenses (d.join fd o ho hfree) s' where
  issued := hcount ▸ h.issued
  clients fd' := by
    rw [hclients, ← h.clients]
    show (fd', Outcome.waiting) ∈ d.visits ++ [(fd, o)] ↔ _
    rw [List.mem_append, List.mem_singleton, Prod.mk.injEq, or_comm, eq_comm (a := Outcome.waiting)]
  calls fd' hpos := by
    have hall : ∀ c ∈ visitCalls (fd, o), c.fd = fd := by
      rintro c (_ | ⟨_, hc⟩)
      · rfl
      · exact fd_of_mem_lastCalls c hc
    show _ = (d.visits ++ [(fd, o)]).flatMap _
    rw [hlog, callsOn_append, h.calls fd' hpos, List.flatMap_append, List.flatMap_singleton]
    by_cases heq : fd = fd'
    · subst heq
      rw [if_pos rfl, callsOn_of_forall hall]
    · rw [if_neg heq, callsOn_of_ne hall (Ne.symm heq)]
  sent := by
    rw [hlog, List.filterMap_append, h.sent, hcount]
    cases o with
    | served n => cases ho
    | _ => simp [visitCalls, lastCalls, sentBy]

/-! ### What an event does -/

theorem isClient_iff_of_talks (htalks : s.kernel.Talks s'.kernel) (fd : ℤ) :
    s'.IsClient fd ↔ s.IsClient fd := by
  constructor
  · rintro ⟨c, hc⟩
    exact htalks.grows.conn_of hc
  · exact fun hc => hc.talks htalks

/-- The kernel has talked, and nothing was sent. -/
theorem Dispenses.talked (h : Dispenses d s) (hcount : s'.count = s.count)
    (htalks : s.kernel.Talks s'.kernel) (hlog : s'.kernel.log = s.kernel.log) : Dispenses d s' :=
  h.silent hcount (isClient_iff_of_talks htalks) (fun fd _ => congrArg (callsOn fd) hlog)
    (congrArg _ hlog)

theorem isClient_close (s : Epoll) (fd fd' : ℤ) :
    (s.close fd).IsClient fd' ↔ fd' ≠ fd ∧ s.IsClient fd' := by
  by_cases heq : fd' = fd
  · simp [IsClient, Epoll.close, Kernel.close, heq]
  · simp [IsClient, Epoll.close, Kernel.close, heq]

theorem log_close (hc : s.IsClient fd) :
    (s.close fd).kernel.log = s.kernel.log ++ [.close fd true] := by
  rw [Epoll.close, Kernel.close, hc.isOpen]

/-- The branch of a client is a step of the dispenser, or none. -/
theorem Dispenses.serveClient (h : Dispenses d s) (hc : s.IsClient fd) (again : Bool) :
    Dispenses d (s.serveClient fd again) ∨
      ∃ e d', d.step e = some d' ∧ Dispenses d' (s.serveClient fd again) := by
  have hrecv := s.kernel.talks_recv fd 4096
  have hlog : (s.recv fd).2.kernel.log = s.kernel.log := Kernel.log_leave ..
  have hcount : (s.recv fd).2.count = s.count := rfl
  have hread : Dispenses d (s.recv fd).2 := h.talked rfl hrecv hlog
  have hc' : (s.recv fd).2.IsClient fd := hc.talks hrecv
  have hwaits : (fd, .waiting) ∈ d.visits := (h.clients fd).mpr hc
  rw [Epoll.serveClient]
  generalize s.recv fd = received at hread hc' hlog hcount ⊢
  rcases received with ⟨_ | _ | ⟨b, bytes⟩, t⟩
  · cases again with
    | true => exact Or.inl hread
    | false =>
      refine Or.inr ⟨.leave fd, d.leave fd hwaits, dif_pos hwaits, ?_⟩
      show Dispenses _ ((t.close fd).del fd)
      rw [del_close]
      exact hread.left hwaits rfl (log_close hc') (isClient_close t fd)
  · refine Or.inr ⟨.leave fd, d.leave fd hwaits, dif_pos hwaits, ?_⟩
    show Dispenses _ ((t.close fd).del fd)
    rw [del_close]
    exact hread.left hwaits rfl (log_close hc') (isClient_close t fd)
  · refine Or.inr ⟨.serve fd, d.serve fd hwaits, dif_pos hwaits, ?_⟩
    -- the response is sent on the open connection, which is then closed
    have hsend := t.kernel.talks_send fd (epollResponse (t.count + 1))
    have hopen : ({ t with count := t.count + 1 }.send fd (epollResponse (t.count + 1))).IsClient
        fd := hc'.talks hsend
    simp only [del_close]
    refine hread.served hwaits rfl ?_ fun fd' => ?_
    · rw [log_close hopen]
      show (t.kernel.send fd _).log ++ _ = _
      rw [Kernel.log_send, List.append_assoc]
      rfl
    · rw [isClient_close]
      exact and_congr_right fun _ => isClient_iff_of_talks hsend fd'

/-- The branch of the listener is a step of the dispenser, or none. -/
theorem Dispenses.acceptClient (h : Dispenses d s) {accepted : Option Arrival} {added : Bool}
    (hstep : s.acceptClient accepted added = some s') :
    Dispenses d s' ∨ ∃ e d', d.step e = some d' ∧ Dispenses d' s' := by
  obtain ⟨clientFd, kernel, haccept, hs'⟩ := acceptClient_inv hstep
  have hlog := Kernel.log_accept haccept
  rcases Kernel.accept_cases haccept with ⟨-, rfl, htable⟩ | ⟨a, -, -, hpos, hnone, -, htable⟩
  · obtain ⟨-, rfl⟩ : (-1 : ℤ) < 0 ∧ s' = { s with kernel } := by
      rcases hs' with hs' | ⟨hpos, -⟩ | ⟨hpos, -⟩
      · exact hs'
      · exact absurd hpos (by decide)
      · exact absurd hpos (by decide)
    refine Or.inl (h.silent rfl (fun fd => ?_) (fun fd hfd => ?_) ?_)
    · rw [IsClient, htable]
      rfl
    · have hne : (-1 : ℤ) ≠ fd := by omega
      rw [hlog, callsOn_append]
      simp [callsOn, SysCall.fd, hne]
    · rw [hlog, List.filterMap_append]
      simp [sentBy]
  · -- a number that is free is that of no visit
    have hfree : (clientFd, .waiting) ∉ d.visits := by
      rw [h.clients]
      rintro ⟨c, hc⟩
      rw [hnone] at hc
      cases hc
    have hclients : ∀ fd,
        ({ s with kernel } : Epoll).IsClient fd ↔ fd = clientFd ∨ s.IsClient fd := by
      intro fd
      by_cases heq : fd = clientFd
      · simp [IsClient, htable, heq]
      · simp [IsClient, htable, heq]
    right
    rcases hs' with ⟨hneg, -⟩ | ⟨-, rfl⟩ | ⟨-, rfl⟩
    · exact absurd hpos (not_le.mpr hneg)
    · refine ⟨.join clientFd, d.join clientFd .waiting rfl hfree, dif_pos hfree, ?_⟩
      exact h.joined rfl hfree rfl hlog fun fd => (hclients fd).trans (by simp)
    · refine ⟨.turnAway clientFd, d.join clientFd .left rfl hfree, dif_pos hfree, ?_⟩
      have hc : ({ s with kernel } : Epoll).IsClient clientFd :=
        (hclients clientFd).mpr (Or.inl rfl)
      refine h.joined rfl hfree rfl ?_ fun fd => ?_
      · rw [log_close hc]
        show kernel.log ++ _ = _
        rw [hlog, List.append_assoc]
        rfl
      · rw [isClient_close, hclients]
        have hnot : ¬ s.IsClient clientFd := (h.clients clientFd).not.mp hfree
        by_cases heq : fd = clientFd
        · simp [heq, hnot]
        · simp [heq]

/-- One step of the server is a step of the dispenser, or none. -/
theorem Dispenses.step (h : Dispenses d s) (hfresh : Fresh s) {a : EpollLabel}
    (hstep : s.step a = some s') :
    Dispenses d s' ∨ ∃ e d', d.step e = some d' ∧ Dispenses d' s' := by
  cases a with
  | net a =>
    cases hstep
    exact Or.inl (h.talked rfl (s.kernel.talks_arrive a) (Kernel.log_modify ..))
  | wait events =>
    left
    unfold Epoll.step at hstep
    split_ifs at hstep
    cases events with
    | none =>
      cases hstep
      exact h.talked rfl (.refl _) rfl
    | some events =>
      simp only at hstep
      split_ifs at hstep
      cases hstep
      exact h.talked rfl (.refl _) rfl
  | serve accepted added again =>
    simp only [Epoll.step] at hstep
    split at hstep
    · cases hstep
      exact Or.inl (h.talked rfl (.refl _) rfl)
    · rename_i fd events hphase
      have h' : Dispenses d { s with phase := .handling events } := h.talked rfl (.refl _) rfl
      have hmem : fd ∈ s.interest := hfresh.mem _ hphase fd List.mem_cons_self
      rw [serveEvent] at hstep
      split_ifs at hstep with hserver
      · exact h'.acceptClient hstep
      · cases hstep
        exact h'.serveClient (((hfresh.interest fd).mp hmem).resolve_left hserver) again
    · cases hstep

end Step

/-! ## The run -/

theorem exists_dispenser (serverFd epollFd : ℤ) {s : Epoll}
    (hrun : Reached Epoll.step anyStep (init serverFd epollFd) s) :
    ∃ d : Dispenser ℤ, Reached Dispenser.step anyStep .empty d ∧ Fresh s ∧ Dispenses d s := by
  have hinit : Fresh (init serverFd epollFd) :=
    .of_phase (sound_init serverFd epollFd) (by simp [init])
  refine hrun.simulates (R := fun d s => Fresh s ∧ Dispenses d s)
    ⟨hinit, dispenses_init serverFd epollFd⟩ ?_
  rintro d s a s' ⟨hfresh, h⟩ hstep
  have hfresh' := hfresh.step hstep
  rcases h.step hfresh hstep with h' | ⟨e, d', he, h'⟩
  · exact Or.inl ⟨hfresh', h'⟩
  · exact Or.inr ⟨e, d', he, hfresh', h'⟩

/-- **The server dispenses numbers.** Every run of the server in which `count` stays an `int` is one
of the dispenser: the calls on a descriptor are those of its visits in turn, where each visit gets
at most one response and is closed once, the responses sent are `1, .., count` in this order, each
in one visit and an `int`, and a client receives a response as a complete message. -/
theorem numbered_of_reached (serverFd epollFd : ℤ) {s : Epoll}
    (hrun : Reached Epoll.step anyStep (init serverFd epollFd) s) (hcount : s.count < 2 ^ 31) :
    ∃ d : Dispenser ℤ, Reached Dispenser.step anyStep .empty d ∧
      (∀ fd, 0 ≤ fd → callsOn fd s.kernel.log =
        d.visits.flatMap fun v => if v.1 = fd then visitCalls v else []) ∧
      s.kernel.log.filterMap sentBy = (List.range' 1 s.count).map epollResponse ∧
      ((numbersOf d.visits).Nodup ∧ ∀ n, n ∈ numbersOf d.visits ↔ 1 ≤ n ∧ n ≤ s.count) ∧
      (∀ n ∈ numbersOf d.visits, toInt32 n = n) ∧
      ∀ n, receive (epollResponse n) =
        some ⟨lit "HTTP/1.1 200 OK", epollFields n, epollBody n⟩ := by
  obtain ⟨d, hd, -, h⟩ := exists_dispenser serverFd epollFd hrun
  have hnumbers : (numbersOf d.visits).Nodup ∧
      ∀ n, n ∈ numbersOf d.visits ↔ 1 ≤ n ∧ n ≤ s.count := by
    rw [← h.issued]
    exact d.nodup_numbers
  refine ⟨d, hd, h.calls, h.sent, hnumbers, fun n hn => ?_, receive_epollResponse⟩
  exact toInt32_of_lt (((hnumbers.2 n).mp hn).2.trans_lt hcount)

/-- A client that sends something. -/
def hello (fd : ℤ) : Arrival := ⟨fd, [some (lit "hello")], []⟩

/-- A client is answered, another one goes away, and the number of the first is accepted again. -/
def helloLabels : List EpollLabel :=
  [.wait (some [3]), .serve (some (hello 5)) true false, .serve none false false,
    .wait (some [3]), .serve (some ⟨6, [some []], []⟩) true false, .serve none false false,
    .wait (some [6, 5, 3]), .serve none false false, .serve none false false,
    .serve (some (hello 5)) true false, .serve none false false,
    .wait (some [5]), .serve none false false]

theorem numbered_hello : ∃ s : Epoll, s.count = 2 ∧ ∃ d : Dispenser ℤ,
    callsOn 5 s.kernel.log = d.visits.flatMap (fun v => if v.1 = 5 then visitCalls v else []) ∧
    s.kernel.log.filterMap sentBy = [epollResponse 1, epollResponse 2] := by
  have hrun : (run Epoll.step anyStep (init 3 4) helloLabels).any
      (fun s => s.count = 2) = true := by
    decide +kernel
  obtain ⟨s, hs, hcount⟩ := exists_reached hrun
  obtain ⟨d, -, hcalls, hsent, -⟩ := numbered_of_reached 3 4 hs (by rw [hcount]; norm_num)
  rw [hcount] at hsent
  exact ⟨s, hcount, d, hcalls 5 (by decide), hsent⟩

end Epoll

end SimpleServer
