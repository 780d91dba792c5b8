import SimpleServer.Foundations.Closing
import SimpleServer.Foundations.Runs

/-!
# A thread for each connection

A process accepts connections and starts a thread for each, some processes also for a failed call
of `accept`. A thread calls `recv` once, sends a reply or none, and ends: it closes its connection
or leaves it open. The calls of the threads come in any order, a number that was closed is given out
again, and a thread that fails ends the process. The threads share nothing but the table of
descriptors.

A `Visit` is a connection with how far its thread is, and depends on nothing but what waits on the
connection. `exists_visits` says that every run is an interleaving of visits. So the calls on a
number are those of its connections one after another, each as if it were alone
(`callsOn_of_reached`): no thread reads, writes or closes a connection of another.
-/

namespace Posix

open Cxx Runs

namespace Threads

/-! ## The code of a thread -/

inductive Finish
  | close
  | leave
  deriving DecidableEq

/-- What a thread does with what it has read. -/
structure Plan where
  reply : Option Bytes
  finish : Finish
  deriving DecidableEq

/-- How many bytes a thread reads at most, what it does with the answer, or `none` when it fails,
and whether a thread is started behind a failed call of `accept`. -/
structure Code where
  size : ℕ
  plan : Option Bytes → Option Plan
  afterFailure : Bool

namespace Plan

/-- The kernel after the reply, if there is one. -/
def send (p : Plan) (fd : ℤ) (k : Kernel) : Kernel :=
  match p.reply with
  | none => k
  | some bytes => k.send fd bytes

/-- The kernel after the end. -/
def close (p : Plan) (fd : ℤ) (k : Kernel) : Kernel :=
  match p.finish with
  | .close => k.close fd
  | .leave => k

/-- The calls of the reply, and of the end on an open number. -/
def sends (p : Plan) (fd : ℤ) : List SysCall := (p.reply.map fun bytes => .send fd bytes).toList

def closes (p : Plan) (fd : ℤ) : List SysCall :=
  if p.finish = .close then [.close fd true] else []

end Plan

namespace Code

variable (code : Code)

/-- What the call of `recv` on a connection is answered. -/
def answer (a : Arrival) : Option Bytes := (Inbox.recv code.size a.inbox).1

/-- The calls on a connection that is alone. -/
def calls (a : Arrival) : List SysCall :=
  .accept a.fd ::
    match code.plan (code.answer a) with
    | none => []
    | some p => p.sends a.fd ++ p.closes a.fd

/-- A thread is started with the result of `accept`. -/
def starts (a : Option Arrival) : Bool := a.isSome || code.afterFailure

/-- The calls of one thread without those of others: what they leave of the kernel. -/
def alone (fd : ℤ) (k : Kernel) : Option Kernel :=
  let r := k.recv fd code.size
  (code.plan r.1).map fun p => p.close fd (p.send fd r.2)

/-- The thread of a connection, if it does not fail, ends in this way. -/
def EndsWith (finish : Finish) (a : Arrival) : Prop :=
  ∀ p, code.plan (code.answer a) = some p → p.finish = finish

end Code

/-! ## A connection that is alone -/

/-- A kernel with one connection and no other descriptor. -/
def only (a : Arrival) : Kernel :=
  ⟨fun fd => if fd = a.fd then some (.conn ⟨a.inbox, a.outbox, [], []⟩) else none, []⟩

section Alone

variable {fd : ℤ} {k : Kernel}

theorem log_planSend (p : Plan) (fd : ℤ) (k : Kernel) :
    (p.send fd k).log = k.log ++ p.sends fd := by
  cases hreply : p.reply <;> simp [Plan.send, Plan.sends, hreply]

theorem log_planClose (p : Plan) (hopen : k.isOpen fd = true) :
    (p.close fd k).log = k.log ++ p.closes fd := by
  cases hfinish : p.finish <;> simp [Plan.close, Plan.closes, hfinish, Kernel.close, hopen]

theorem isOpen_planSend (p : Plan) (hopen : k.isOpen fd = true) :
    (p.send fd k).isOpen fd = true := by
  cases hreply : p.reply with
  | none => simpa [Plan.send, hreply] using hopen
  | some bytes => simpa [Plan.send, hreply] using (k.talks_send fd bytes).isOpen hopen

theorem log_recv_only (a : Arrival) (n : ℕ) : ((only a).recv a.fd n).2.log = [] := by
  rw [Kernel.recv, Kernel.log_leave]
  rfl

theorem isOpen_recv_only (a : Arrival) (n : ℕ) :
    ((only a).recv a.fd n).2.isOpen a.fd = true :=
  ((only a).talks_recv a.fd n).isOpen (by simp [only, Kernel.isOpen])

variable (code : Code)

section Open

variable {code} {a : Arrival}

/-- A thread that fails makes no call behind that of `recv`. -/
theorem calls_of_fails (hinbox : k.inbox a.fd = a.inbox) (h : code.alone a.fd k = none) :
    code.calls a = [.accept a.fd] := by
  have hanswer : (k.recv a.fd code.size).1 = code.answer a :=
    congrArg (fun q => (Inbox.recv code.size q).1) hinbox
  rw [Code.alone, hanswer, Option.map_eq_none_iff] at h
  rw [Code.calls, h]

/-- The calls of a thread on an open connection depend on what waits there and on nothing else. -/
theorem calls_of_alone {k' : Kernel} (hinbox : k.inbox a.fd = a.inbox)
    (hopen : k.isOpen a.fd = true) (h : code.alone a.fd k = some k') :
    ∃ calls, code.calls a = .accept a.fd :: calls ∧ k'.log = k.log ++ calls := by
  have hanswer : (k.recv a.fd code.size).1 = code.answer a :=
    congrArg (fun q => (Inbox.recv code.size q).1) hinbox
  have hlog : (k.recv a.fd code.size).2.log = k.log := Kernel.log_leave ..
  have hread : (k.recv a.fd code.size).2.isOpen a.fd = true := (k.talks_recv _ _).isOpen hopen
  rw [Code.alone, hanswer] at h
  obtain ⟨p, hp, rfl⟩ := Option.map_eq_some_iff.mp h
  refine ⟨p.sends a.fd ++ p.closes a.fd, by rw [Code.calls, hp], ?_⟩
  rw [log_planClose p (isOpen_planSend p hread), log_planSend, hlog, List.append_assoc]

end Open

/-- The calls on a connection that is alone are those that its thread records. -/
theorem calls_eq_log (a : Arrival) :
    code.calls a = .accept a.fd :: (code.alone a.fd (only a)).elim [] Kernel.log := by
  have hinbox : (only a).inbox a.fd = a.inbox := by simp [only, Kernel.inbox]
  cases halone : code.alone a.fd (only a) with
  | none => exact calls_of_fails hinbox halone
  | some k =>
    obtain ⟨calls, hcalls, hlog⟩ := calls_of_alone hinbox (by simp [only, Kernel.isOpen]) halone
    rw [hcalls, Option.elim_some, hlog]
    rfl

end Alone

/-! ## The process -/

/-- Where a thread is. -/
inductive Stage
  | reading
  | planned (p : Plan)
  | replied (p : Plan)
  deriving DecidableEq

structure Thread where
  fd : ℤ
  stage : Stage
  deriving DecidableEq

/-- The process, with the connections for which it has started threads so far. -/
structure Process where
  kernel : Kernel
  threads : List Thread
  running : Bool
  accepted : List Arrival

inductive Label
  /-- `accept` returns a connection or fails. -/
  | accept (a : Option Arrival)
  /-- The thread at an index goes on to its next call. -/
  | turn (i : ℕ)
  deriving DecidableEq

/-- The result `-1`, on which nothing waits. -/
def noArrival : Arrival := ⟨-1, [], []⟩

namespace Process

def start (listener : ℤ) : Process where
  kernel := ⟨fun fd => if fd = listener then some .listener else none, []⟩
  threads := []
  running := true
  accepted := []

/-- The next call of the thread `t` at the index `i`. -/
def turn (code : Code) (i : ℕ) (t : Thread) (s : Process) : Process :=
  match t.stage with
  | .reading =>
    let r := s.kernel.recv t.fd code.size
    match code.plan r.1 with
    | none => { s with kernel := r.2, running := false }
    | some p => { s with kernel := r.2, threads := s.threads.set i ⟨t.fd, .planned p⟩ }
  | .planned p =>
    { s with
      kernel := p.send t.fd s.kernel
      threads := s.threads.set i ⟨t.fd, .replied p⟩ }
  | .replied p =>
    { s with
      kernel := p.close t.fd s.kernel
      threads := s.threads.eraseIdx i }

def step (code : Code) (listener : ℤ) (s : Process) : Label → Option Process
  | .accept a =>
    if s.running then
      (s.kernel.accept listener a).map fun r =>
        if code.starts a then
          { s with
            kernel := r.2
            threads := s.threads ++ [⟨r.1, .reading⟩]
            accepted := s.accepted ++ [a.getD noArrival] }
        else { s with kernel := r.2 }
    else none
  | .turn i => if s.running then s.threads[i]?.map fun t => s.turn code i t else none

end Process

/-! ## Visits -/

/-- How far a thread is. -/
inductive Progress
  | reading
  | planned (p : Plan)
  | replied (p : Plan)
  | ended (p : Plan)

namespace Progress

def plan : Progress → Option Plan
  | reading => none
  | planned p => some p
  | replied p => some p
  | ended p => some p

/-- The stage of the thread, while there is one. -/
def stage : Progress → Option Stage
  | reading => some .reading
  | planned p => some (.planned p)
  | replied p => some (.replied p)
  | ended _ => none

end Progress

/-- A connection and how far its thread is, with the plan that the code has for it. -/
structure Visit (code : Code) where
  arrival : Arrival
  progress : Progress
  plan_eq : ∀ p, progress.plan = some p → code.plan (code.answer arrival) = some p

namespace Visit

variable {code : Code}

/-- The visit of a connection that was just accepted. -/
def new (a : Arrival) : Visit code := ⟨a, .reading, fun _ h => nomatch h⟩

def fd (v : Visit code) : ℤ := v.arrival.fd

def thread (v : Visit code) : Option Thread := v.progress.stage.map fun stage => ⟨v.fd, stage⟩

/-- The connection while it is open. -/
def conn (v : Visit code) : Conn :=
  let accepted : Conn := ⟨v.arrival.inbox, v.arrival.outbox, [], []⟩
  let read := accepted.leave (Inbox.recv code.size v.arrival.inbox).2
  match v.progress with
  | .reading => accepted
  | .planned _ => read
  | .replied p => p.reply.elim read read.push
  | .ended p => p.reply.elim read read.push

/-- The calls made so far. -/
def calls (v : Visit code) : List SysCall :=
  .accept v.fd ::
    match v.progress with
    | .reading => []
    | .planned _ => []
    | .replied p => p.sends v.fd
    | .ended p => p.sends v.fd ++ p.closes v.fd

def Closed (v : Visit code) : Prop := ∃ p, v.progress = .ended p ∧ p.finish = .close

theorem calls_begin (v : Visit code) : v.calls <+: code.calls v.arrival := by
  have hplan := v.plan_eq
  rw [calls, Code.calls, fd, List.cons_prefix_cons]
  refine ⟨rfl, ?_⟩
  cases hv : v.progress with
  | reading => exact List.nil_prefix
  | planned p => exact List.nil_prefix
  | replied p =>
    rw [hplan p (by rw [hv]; rfl)]
    exact List.prefix_append _ _
  | ended p => rw [hplan p (by rw [hv]; rfl)]

theorem ended_of_thread_eq_none {v : Visit code} (h : v.thread = none) :
    ∃ p, v.progress = .ended p := by
  cases hv : v.progress with
  | ended p => exact ⟨p, rfl⟩
  | _ => simp [thread, hv, Progress.stage] at h

theorem calls_of_thread_eq_none {v : Visit code} (h : v.thread = none) :
    v.calls = code.calls v.arrival := by
  obtain ⟨p, hv⟩ := ended_of_thread_eq_none h
  have hplan := v.plan_eq p (by rw [hv]; rfl)
  simp only [calls, Code.calls, hv, hplan, fd]

theorem thread_of_closed {v : Visit code} (h : v.Closed) : v.thread = none := by
  obtain ⟨p, hp, -⟩ := h
  rw [thread, hp]
  rfl

end Visit

/-! ## A process is made of visits -/

/-- The visits of a process, in the order in which they were accepted. A number is given out again
only when its last visit has closed it, and the result `-1` is not open. -/
structure Follows (code : Code) (listener : ℤ) (visits : List (Visit code)) (s : Process) :
    Prop where
  accepted : s.accepted = visits.map Visit.arrival
  threads : s.threads = visits.filterMap Visit.thread
  order : visits.Pairwise fun v v' => 0 ≤ v.fd → v.fd = v'.fd → v.Closed
  silent : ∀ v ∈ visits, v.fd < 0 → v.arrival.inbox = []
  listening : s.kernel.table listener = some .listener
  conn : s.running = true → ∀ v ∈ visits, 0 ≤ v.fd → ¬ v.Closed →
    s.kernel.table v.fd = some (.conn v.conn)
  free : ∀ fd, fd ≠ listener → (0 ≤ fd → ∀ v ∈ visits, v.fd = fd → v.Closed) →
    s.kernel.table fd = none
  calls : ∀ fd, 0 ≤ fd →
    callsOn fd s.kernel.log = visits.flatMap fun v => if v.fd = fd then v.calls else []

/-- What the turn of one thread does: it moves its visit on, and changes its own number alone. -/
structure Moves {code : Code} (v v' : Visit code) (s s' : Process) : Prop where
  arrival : v'.arrival = v.arrival
  accepted : s'.accepted = s.accepted
  live : v.thread ≠ none
  others : ∀ fd, fd ≠ v.fd → s'.kernel.table fd = s.kernel.table fd
  none : s.kernel.table v.fd = none → s'.kernel.table v.fd = none
  conn : ¬ v'.Closed → s.kernel.table v.fd = some (.conn v.conn) →
    s'.kernel.table v.fd = some (.conn v'.conn)
  gone : v'.Closed → s'.kernel.table v.fd = Option.none
  log : s.kernel.isOpen v.fd = true → ∃ calls, s'.kernel.log = s.kernel.log ++ calls ∧
    (∀ c ∈ calls, c.fd = v.fd) ∧ v'.calls = v.calls ++ calls
  otherLog : ∀ fd, fd ≠ v.fd → callsOn fd s'.kernel.log = callsOn fd s.kernel.log

section Step

variable {code : Code} {listener : ℤ} {visits l r : List (Visit code)} {v v' : Visit code}
  {s s' : Process}

theorem not_closed_of_live (h : v.thread ≠ none) : ¬ v.Closed :=
  fun hclosed => h (Visit.thread_of_closed hclosed)

/-- A live visit and another one that has not closed its number are on different numbers. -/
theorem fd_ne_of_mem (h : Follows code listener (l ++ v :: r) s) (hlive : ¬ v.Closed)
    {u : Visit code} (hu : u ∈ l ++ r) (hpos : 0 ≤ u.fd) (hopen : ¬ u.Closed) : u.fd ≠ v.fd := by
  intro heq
  have horder := List.pairwise_append.mp h.order
  rcases List.mem_append.mp hu with hu | hu
  · exact hopen (horder.2.2 u hu v List.mem_cons_self hpos heq)
  · exact hlive ((List.pairwise_cons.mp horder.2.1).1 u hu (heq ▸ hpos) heq.symm)

theorem mem_middle {u : Visit code} : u ∈ l ++ v :: r ↔ u = v ∨ u ∈ l ++ r := by
  simp only [List.mem_append, List.mem_cons]
  tauto

/-- **A turn moves one visit on.** -/
theorem Follows.turn (h : Follows code listener (l ++ v :: r) s) (hlistener : 0 ≤ listener)
    (hrun : s.running = true) (hmoves : Moves v v' s s')
    (hthreads : s'.threads = (l ++ v' :: r).filterMap Visit.thread) :
    Follows code listener (l ++ v' :: r) s' := by
  have hlive := not_closed_of_live hmoves.live
  have hfd : v'.fd = v.fd := congrArg Arrival.fd hmoves.arrival
  have hmem : v ∈ l ++ v :: r := mem_middle.mpr (Or.inl rfl)
  have hconn : 0 ≤ v.fd → s.kernel.table v.fd = some (.conn v.conn) :=
    fun hpos => h.conn hrun v hmem hpos hlive
  have horder := List.pairwise_append.mp h.order
  have hcons := List.pairwise_cons.mp horder.2.1
  have hne : listener ≠ v.fd := by
    intro heq
    have htable := hconn (heq ▸ hlistener)
    rw [← heq, h.listening] at htable
    cases htable
  constructor
  case accepted => simp [hmoves.accepted, h.accepted, hmoves.arrival]
  case threads => exact hthreads
  case order =>
    refine List.pairwise_append.mpr ⟨horder.1, List.pairwise_cons.mpr ⟨?_, hcons.2⟩, ?_⟩
    · intro u hu hpos heq
      exact absurd (hcons.1 u hu (hfd ▸ hpos) (hfd ▸ heq)) hlive
    · intro u hu u' hu' hpos heq
      rcases List.mem_cons.mp hu' with rfl | hu'
      · exact horder.2.2 u hu v List.mem_cons_self hpos (heq.trans hfd)
      · exact horder.2.2 u hu u' (List.mem_cons_of_mem _ hu') hpos heq
  case silent =>
    intro u hu hneg
    rcases mem_middle.mp hu with rfl | hu
    · rw [hmoves.arrival]
      exact h.silent v hmem (hfd ▸ hneg)
    · exact h.silent u (mem_middle.mpr (Or.inr hu)) hneg
  case listening =>
    rw [hmoves.others listener hne]
    exact h.listening
  case conn =>
    intro _ u hu hpos hopen
    rcases mem_middle.mp hu with rfl | hu
    · rw [hfd]
      exact hmoves.conn hopen (hconn (hfd ▸ hpos))
    · rw [hmoves.others u.fd (fd_ne_of_mem h hlive hu hpos hopen)]
      exact h.conn hrun u (mem_middle.mpr (Or.inr hu)) hpos hopen
  case free =>
    intro fd hfdl hall
    by_cases heq : fd = v.fd
    · subst heq
      by_cases hpos : 0 ≤ v.fd
      · exact hmoves.gone (hall hpos v' (mem_middle.mpr (Or.inl rfl)) hfd)
      · exact hmoves.none (h.free v.fd hfdl fun hpos' => absurd hpos' hpos)
    · rw [hmoves.others fd heq]
      refine h.free fd hfdl fun hpos u hu hufd => ?_
      rcases mem_middle.mp hu with rfl | hu
      · exact absurd hufd.symm heq
      · exact hall hpos u (mem_middle.mpr (Or.inr hu)) hufd
  case calls =>
    intro fd hpos
    by_cases heq : fd = v.fd
    · subst heq
      have hopen : s.kernel.isOpen v.fd = true := by
        rw [Kernel.isOpen, hconn hpos]
        rfl
      obtain ⟨calls, hlog, hcalls, hv'⟩ := hmoves.log hopen
      -- no visit behind this one is on its number
      have hnone : r.flatMap (fun u => if u.fd = v.fd then u.calls else []) = [] := by
        rw [List.flatMap_eq_nil_iff]
        intro u hu
        rw [if_neg]
        exact fun heq => hlive (hcons.1 u hu hpos heq.symm)
      have hold := h.calls v.fd hpos
      rw [List.flatMap_append, List.flatMap_cons, if_pos rfl, hnone, List.append_nil] at hold
      rw [List.flatMap_append, List.flatMap_cons, if_pos hfd, hnone, List.append_nil, hlog,
        callsOn_append, callsOn_of_forall hcalls, hold, hv', List.append_assoc]
    · have hne' : v'.fd ≠ fd := fun e => heq (e.symm.trans hfd)
      rw [hmoves.otherLog fd heq, h.calls fd hpos, List.flatMap_append, List.flatMap_append,
        List.flatMap_cons, List.flatMap_cons, if_neg (Ne.symm heq), if_neg hne']

/-! ### The turns -/

theorem modify_of_none {k : Kernel} {fd : ℤ} (h : k.table fd = none) (f : Conn → Conn) :
    k.modify fd f = k := by
  rw [Kernel.modify, h]

/-- What waits on the number of a visit that has not read yet. -/
theorem Follows.inbox_eq (h : Follows code listener visits s) (hlistener : 0 ≤ listener)
    (hrun : s.running = true) (hv : v ∈ visits) (hreading : v.progress = .reading) :
    s.kernel.inbox v.fd = v.arrival.inbox := by
  by_cases hpos : 0 ≤ v.fd
  · have hopen : ¬ v.Closed := by
      rintro ⟨p, hp, -⟩
      rw [hreading] at hp
      cases hp
    have hconn : v.conn = ⟨v.arrival.inbox, v.arrival.outbox, [], []⟩ := by
      simp only [Visit.conn, hreading]
    rw [Kernel.inbox, h.conn hrun v hv hpos hopen, hconn]
  · have hne : v.fd ≠ listener := fun heq => hpos (heq ▸ hlistener)
    rw [Kernel.inbox, h.free v.fd hne fun hpos' => absurd hpos' hpos, h.silent v hv (by omega)]

/-- A thread reads. -/
theorem moves_read {p : Plan} {threads : List Thread} (hreading : v.progress = .reading)
    (hplan : code.plan (code.answer v.arrival) = some p) :
    Moves v ⟨v.arrival, .planned p, fun _ h => (Option.some.inj h) ▸ hplan⟩ s
      { s with kernel := (s.kernel.recv v.fd code.size).2, threads } := by
  have hlog : (s.kernel.recv v.fd code.size).2.log = s.kernel.log := by
    rw [Kernel.recv, Kernel.log_leave]
  constructor
  case live => simp [Visit.thread, hreading, Progress.stage]
  case others => exact fun fd hne => Kernel.table_modify_ne hne _
  case none =>
    intro hnone
    show (s.kernel.leave v.fd _).table v.fd = none
    rw [Kernel.leave, modify_of_none hnone, hnone]
  case conn =>
    intro _ hconn
    have hv : v.conn.inbox = v.arrival.inbox := by simp only [Visit.conn, hreading]
    show (s.kernel.recv v.fd code.size).2.table v.fd = _
    rw [Kernel.table_recv_conn hconn, hv]
    simp only [Visit.conn, hreading]
  case gone =>
    rintro ⟨_, hp, _⟩
    cases hp
  case log =>
    exact fun _ => ⟨[], by simp [hlog], by simp, by simp [Visit.calls, Visit.fd, hreading]⟩
  case otherLog => exact fun fd _ => congrArg (callsOn fd) hlog
  all_goals rfl

theorem sends_fd {p : Plan} {fd : ℤ} : ∀ c ∈ p.sends fd, c.fd = fd := by
  cases hreply : p.reply <;> simp [Plan.sends, hreply, SysCall.fd]

/-- A thread sends its reply. -/
theorem moves_send {p : Plan} {threads : List Thread} (hplanned : v.progress = .planned p) :
    Moves v ⟨v.arrival, .replied p, fun _ h => v.plan_eq _ (hplanned ▸ h)⟩ s
      { s with kernel := p.send v.fd s.kernel, threads } := by
  have hlog := log_planSend p v.fd s.kernel
  constructor
  case live => simp [Visit.thread, hplanned, Progress.stage]
  case others =>
    intro fd hne
    cases hreply : p.reply with
    | none => simp [Plan.send, hreply]
    | some bytes =>
      simp only [Plan.send, hreply]
      exact Kernel.table_modify_ne hne _
  case none =>
    intro hnone
    cases hreply : p.reply with
    | none => simpa [Plan.send, hreply] using hnone
    | some bytes => simpa [Plan.send, hreply, Kernel.send, modify_of_none hnone] using hnone
  case conn =>
    intro _ hconn
    cases hreply : p.reply with
    | none => simpa [Plan.send, Visit.conn, hreply, hplanned] using hconn
    | some bytes =>
      have htable := Kernel.table_send_conn hconn bytes
      simpa [Plan.send, Visit.conn, hreply, hplanned] using htable
  case gone =>
    rintro ⟨_, hp, _⟩
    cases hp
  case log =>
    exact fun _ => ⟨p.sends v.fd, hlog, sends_fd, by simp [Visit.calls, Visit.fd, hplanned]⟩
  case otherLog =>
    intro fd hne
    rw [hlog, callsOn_append, callsOn_of_ne sends_fd hne, List.append_nil]
  all_goals rfl

/-- A thread ends. -/
theorem moves_end {p : Plan} {threads : List Thread} (hreplied : v.progress = .replied p) :
    Moves v ⟨v.arrival, .ended p, fun _ h => v.plan_eq _ (hreplied ▸ h)⟩ s
      { s with
        kernel := p.close v.fd s.kernel
        threads } := by
  constructor
  case live => simp [Visit.thread, hreplied, Progress.stage]
  case others =>
    intro fd hne
    cases hfinish : p.finish <;> simp [Plan.close, hfinish, Kernel.close, Function.update_of_ne hne]
  case none =>
    intro hnone
    cases hfinish : p.finish <;> simp [Plan.close, hfinish, Kernel.close, hnone]
  case conn =>
    intro hopen hconn
    cases hfinish : p.finish with
    | close => exact absurd ⟨p, rfl, hfinish⟩ hopen
    | leave => simpa [Plan.close, Visit.conn, hfinish, hreplied] using hconn
  case gone =>
    rintro ⟨p', hp', hclose⟩
    cases hp'
    simp [Plan.close, hclose, Kernel.close]
  case log =>
    intro hopen
    refine ⟨p.closes v.fd, ?_, ?_, ?_⟩
    · cases hfinish : p.finish <;> simp [Plan.close, Plan.closes, hfinish, Kernel.close, hopen]
    · cases hfinish : p.finish <;> simp [Plan.closes, hfinish, SysCall.fd]
    · simp [Visit.calls, Visit.fd, hreplied]
  case otherLog =>
    intro fd hne
    cases hfinish : p.finish with
    | close =>
      have hfd : ∀ c ∈ [SysCall.close v.fd (s.kernel.isOpen v.fd)], c.fd = v.fd := by
        simp [SysCall.fd]
      have hcall := callsOn_of_ne hfd hne
      simp only [Plan.close, hfinish, Kernel.close]
      rw [callsOn_append, hcall, List.append_nil]
    | leave => simp [Plan.close, hfinish]
  all_goals rfl

/-- A thread that fails ends the process, and nothing was changed but what it has read. -/
theorem Follows.fail (h : Follows code listener visits s) (fd' : ℤ) (n : ℕ) :
    Follows code listener visits
      { s with kernel := (s.kernel.recv fd' n).2, running := false } := by
  have hlog : (s.kernel.recv fd' n).2.log = s.kernel.log := by rw [Kernel.recv, Kernel.log_leave]
  have htable : ∀ fd, (s.kernel.table fd = none ∨ s.kernel.table fd = some .listener) →
      (s.kernel.recv fd' n).2.table fd = s.kernel.table fd := by
    intro fd hfd
    by_cases heq : fd = fd'
    · subst heq
      show (s.kernel.leave fd _).table fd = _
      rcases hfd with hfd | hfd <;> simp [Kernel.leave, Kernel.modify, hfd]
    · exact Kernel.table_modify_ne heq _
  constructor
  case accepted => exact h.accepted
  case threads => exact h.threads
  case order => exact h.order
  case silent => exact h.silent
  case listening => exact (htable listener (Or.inr h.listening)).trans h.listening
  case conn => exact fun hstop => absurd hstop Bool.false_ne_true
  case free =>
    intro fd hne hall
    have hnone := h.free fd hne hall
    exact (htable fd (Or.inl hnone)).trans hnone
  case calls => exact fun fd hpos => (congrArg (callsOn fd) hlog).trans (h.calls fd hpos)

/-- **A connection that is accepted is a visit of its own.** -/
theorem Follows.accept (h : Follows code listener visits s) (hlistener : 0 ≤ listener)
    (hrun : s.running = true)
    {a : Option Arrival} {fd : ℤ} {kernel : Kernel}
    (haccept : s.kernel.accept listener a = some (fd, kernel)) :
    Follows code listener (visits ++ [Visit.new (a.getD noArrival)])
      { s with
        kernel
        threads := s.threads ++ [⟨fd, .reading⟩]
        accepted := s.accepted ++ [a.getD noArrival] } := by
  have hfd : fd = (a.getD noArrival).fd := by
    rcases Kernel.accept_cases haccept with ⟨rfl, rfl, -⟩ | ⟨a, rfl, rfl, -⟩ <;> rfl
  have hnew : ∀ u : Visit code, u ∈ visits ++ [Visit.new (a.getD noArrival)] ↔
      u ∈ visits ∨ u = Visit.new (a.getD noArrival) := by simp
  have hopen : ¬ (Visit.new (a.getD noArrival) : Visit code).Closed := by
    rintro ⟨_, hp, _⟩
    cases hp
  have hnone : 0 ≤ fd → s.kernel.table fd = none := by
    intro hpos
    rcases Kernel.accept_cases haccept with ⟨-, rfl, -⟩ | ⟨-, -, -, -, hnone, -⟩
    · exact absurd hpos (by decide)
    · exact hnone
  have hclosed : ∀ u ∈ visits, 0 ≤ u.fd → u.fd = fd → u.Closed := by
    intro u hu hpos heq
    by_contra hnot
    have hconn := h.conn hrun u hu hpos hnot
    rw [heq, hnone (heq ▸ hpos)] at hconn
    cases hconn
  constructor
  case accepted => simp [h.accepted, Visit.new]
  case threads =>
    rw [List.filterMap_append, ← h.threads, hfd]
    rfl
  case order =>
    refine List.pairwise_append.mpr ⟨h.order, List.pairwise_singleton .., ?_⟩
    intro u hu u' hu' hpos heq
    rw [List.mem_singleton.mp hu'] at heq
    exact hclosed u hu hpos (heq.trans hfd.symm)
  case silent =>
    intro u hu hneg
    rcases (hnew u).mp hu with hu | rfl
    · exact h.silent u hu hneg
    · rcases Kernel.accept_cases haccept with ⟨rfl, -⟩ | ⟨a, rfl, rfl, hpos, -⟩
      · rfl
      · exact absurd hneg (not_lt.mpr hpos)
  case listening =>
    rw [Kernel.table_accept_ne haccept]
    · exact h.listening
    · rintro rfl
      have hlisten := h.listening
      rw [hnone hlistener] at hlisten
      cases hlisten
  case conn =>
    intro _ u hu hpos hnot
    rcases (hnew u).mp hu with hu | rfl
    · rw [Kernel.table_accept_ne haccept fun heq => hnot (hclosed u hu hpos heq)]
      exact h.conn hrun u hu hpos hnot
    · rcases Kernel.accept_cases haccept with ⟨rfl, -⟩ | ⟨a, rfl, rfl, -, -, -, htable⟩
      · exact absurd hpos (show ¬ (0 : ℤ) ≤ -1 by decide)
      · rw [htable]
        exact Function.update_self ..
  case free =>
    intro fd' hne hall
    by_cases heq : fd' = fd
    · subst heq
      rcases Kernel.accept_cases haccept with ⟨-, rfl, htable⟩ | ⟨-, -, -, hpos, -⟩
      · rw [htable]
        exact h.free _ hne fun hpos => absurd hpos (by decide)
      · exact absurd (hall hpos _ ((hnew _).mpr (Or.inr rfl)) hfd.symm) hopen
    · rw [Kernel.table_accept_ne haccept heq]
      exact h.free fd' hne fun hpos u hu => hall hpos u ((hnew u).mpr (Or.inl hu))
  case calls =>
    intro fd' hpos
    have hcall : callsOn fd' [.accept fd] = if fd = fd' then [.accept fd] else [] := by
      by_cases heq : fd = fd' <;> simp [callsOn, SysCall.fd, heq]
    have hvisit : (Visit.new (a.getD noArrival) : Visit code).calls = [.accept fd] := by
      rw [hfd]
      rfl
    have hnewfd : (Visit.new (a.getD noArrival) : Visit code).fd = fd := hfd.symm
    rw [Kernel.log_accept haccept, callsOn_append, h.calls fd' hpos, List.flatMap_append, hcall,
      List.flatMap_singleton, hvisit, hnewfd]

/-- A failed call of `accept` changes nothing. -/
theorem Follows.accept_failed (h : Follows code listener visits s) {fd : ℤ} {kernel : Kernel}
    (haccept : s.kernel.accept listener none = some (fd, kernel)) :
    Follows code listener visits { s with kernel } := by
  have hlog : kernel.log = s.kernel.log ++ [.accept fd] := Kernel.log_accept haccept
  obtain ⟨hfd, htable⟩ := Kernel.of_accept_none haccept
  constructor
  case listening => exact htable ▸ h.listening
  case conn => exact htable ▸ h.conn
  case free => exact htable ▸ h.free
  case calls =>
    intro fd' hpos
    have hne : fd ≠ fd' := by omega
    have hcall : callsOn fd' [.accept fd] = [] := by simp [callsOn, SysCall.fd, hne]
    rw [hlog, callsOn_append, hcall, List.append_nil]
    exact h.calls fd' hpos
  case accepted => exact h.accepted
  case threads => exact h.threads
  case order => exact h.order
  case silent => exact h.silent

/-! ### The runs -/

theorem follows_start (code : Code) (listener : ℤ) :
    Follows code listener [] (.start listener) := by
  constructor <;> simp [Process.start, callsOn]

/-- The visit of a thread, between those before and behind it. -/
theorem Follows.exists_split (h : Follows code listener visits s) {i : ℕ} {t : Thread}
    (ht : s.threads[i]? = some t) : ∃ l v r, visits = l ++ v :: r ∧ v.thread = some t ∧
      (∀ t', s.threads.set i t' = l.filterMap Visit.thread ++ t' :: r.filterMap Visit.thread) ∧
      s.threads.eraseIdx i = l.filterMap Visit.thread ++ r.filterMap Visit.thread := by
  obtain ⟨hi, hget⟩ := List.getElem?_eq_some_iff.mp ht
  have hsplit : visits.filterMap Visit.thread =
      s.threads.take i ++ t :: s.threads.drop (i + 1) := by
    rw [← h.threads, ← hget, List.getElem_cons_drop, List.take_append_drop]
  obtain ⟨l₁, r₁, rfl, hl, hr₁⟩ := List.filterMap_eq_append_iff.mp hsplit
  obtain ⟨l₂, v, r, rfl, hl₂, hv, hr⟩ := List.filterMap_eq_cons_iff.mp hr₁
  have hleft : (l₁ ++ l₂).filterMap Visit.thread = s.threads.take i := by
    rw [List.filterMap_append, hl, List.filterMap_eq_nil_iff.mpr hl₂, List.append_nil]
  refine ⟨l₁ ++ l₂, v, r, by simp, hv, fun t' => ?_, ?_⟩
  · rw [hleft, hr, List.set_eq_take_append_cons_drop, if_pos hi]
  · rw [hleft, hr, List.eraseIdx_eq_take_drop_succ]

/-- **A step adds a visit or moves one on.** -/
theorem Follows.step (h : Follows code listener visits s) (hlistener : 0 ≤ listener) {a : Label}
    (hstep : s.step code listener a = some s') : ∃ visits', Follows code listener visits' s' := by
  cases a with
  | accept a =>
    rw [Process.step] at hstep
    split_ifs at hstep with hrun hstarts
    · obtain ⟨⟨fd, kernel⟩, haccept, rfl⟩ := Option.map_eq_some_iff.mp hstep
      exact ⟨_, h.accept hlistener hrun haccept⟩
    · obtain ⟨⟨fd, kernel⟩, haccept, rfl⟩ := Option.map_eq_some_iff.mp hstep
      cases a with
      | none => exact ⟨_, h.accept_failed haccept⟩
      | some a => exact absurd rfl hstarts
  | turn i =>
    rw [Process.step] at hstep
    split_ifs at hstep with hrun
    obtain ⟨t, ht, rfl⟩ := Option.map_eq_some_iff.mp hstep
    obtain ⟨l, v, r, rfl, hv, hset, herase⟩ := h.exists_split ht
    obtain ⟨stage, hstage, rfl⟩ := Option.map_eq_some_iff.mp hv
    have hmem : v ∈ l ++ v :: r := mem_middle.mpr (Or.inl rfl)
    cases hprogress : v.progress with
    | reading =>
      rw [hprogress] at hstage
      cases hstage
      have hinbox := h.inbox_eq hlistener hrun hmem hprogress
      have hanswer : (s.kernel.recv v.fd code.size).1 = code.answer v.arrival :=
        congrArg (fun q => (Inbox.recv code.size q).1) hinbox
      simp only [Process.turn, hanswer]
      cases hplan : code.plan (code.answer v.arrival) with
      | none => exact ⟨_, h.fail v.fd code.size⟩
      | some p =>
        refine ⟨_, h.turn hlistener hrun (moves_read hprogress hplan) ?_⟩
        rw [List.filterMap_append, List.filterMap_cons]
        exact hset _
    | planned p =>
      rw [hprogress] at hstage
      cases hstage
      refine ⟨_, h.turn hlistener hrun (moves_send hprogress) ?_⟩
      rw [List.filterMap_append, List.filterMap_cons]
      exact hset _
    | replied p =>
      rw [hprogress] at hstage
      cases hstage
      refine ⟨_, h.turn hlistener hrun (moves_end hprogress) ?_⟩
      rw [List.filterMap_append, List.filterMap_cons]
      exact herase
    | ended p =>
      rw [hprogress] at hstage
      cases hstage

theorem exists_visits (hlistener : 0 ≤ listener)
    (hrun : Reached (Process.step code listener) anyStep (.start listener) s) :
    ∃ visits, Follows code listener visits s :=
  hrun.invariant (I := fun s => ∃ visits, Follows code listener visits s)
    ⟨[], follows_start code listener⟩ fun _ _ _ ⟨_, h⟩ _ hstep => h.step hlistener hstep

/-! ### The calls on a number -/

/-- The calls on a number are those of its visits: all but the last are complete. -/
theorem flatMap_calls_begin {fd : ℤ} (hpos : 0 ≤ fd)
    (horder : visits.Pairwise fun v v' => 0 ≤ v.fd → v.fd = v'.fd → v.Closed) :
    (visits.flatMap fun v => if v.fd = fd then v.calls else []) <+:
      visits.flatMap fun v => if v.fd = fd then code.calls v.arrival else [] := by
  induction visits with
  | nil => exact List.prefix_rfl
  | cons v visits ih =>
    obtain ⟨hhead, htail⟩ := List.pairwise_cons.mp horder
    rw [List.flatMap_cons, List.flatMap_cons]
    by_cases hfd : v.fd = fd
    · rw [if_pos hfd, if_pos hfd]
      by_cases hclosed : v.Closed
      · rw [Visit.calls_of_thread_eq_none (Visit.thread_of_closed hclosed)]
        exact (List.prefix_append_right_inj _).mpr (ih htail)
      · -- the number of a visit that has not closed it is not given out again
        have hne : ∀ u ∈ visits, u.fd ≠ fd := fun u hu heq =>
          hclosed (hhead u hu (hfd ▸ hpos) (hfd.trans heq.symm))
        rw [List.flatMap_eq_nil_iff.mpr fun u hu => if_neg (hne u hu), List.append_nil]
        exact v.calls_begin.trans (List.prefix_append _ _)
    · rw [if_neg hfd, if_neg hfd]
      exact ih htail

theorem Follows.thread_eq_none (h : Follows code listener visits s) {fd : ℤ}
    (hnone : ∀ t ∈ s.threads, t.fd ≠ fd) (hv : v ∈ visits) (hfd : v.fd = fd) : v.thread = none := by
  by_contra hne
  obtain ⟨t, ht⟩ := Option.ne_none_iff_exists'.mp hne
  have hmem : t ∈ s.threads := h.threads ▸ List.mem_filterMap.mpr ⟨v, hv, ht⟩
  obtain ⟨stage, -, rfl⟩ := Option.map_eq_some_iff.mp ht
  exact hnone _ hmem hfd

/-- **Each connection as if it were alone.** In every run the calls on a number are a beginning of
those that its connections get one after another when each is alone, and all of them when the
number has no thread. -/
theorem callsOn_of_reached (hlistener : 0 ≤ listener)
    (hrun : Reached (Process.step code listener) anyStep (.start listener) s) {fd : ℤ}
    (hpos : 0 ≤ fd) :
    callsOn fd s.kernel.log <+:
        s.accepted.flatMap (fun a => if a.fd = fd then code.calls a else []) ∧
      ((∀ t ∈ s.threads, t.fd ≠ fd) →
        callsOn fd s.kernel.log =
          s.accepted.flatMap fun a => if a.fd = fd then code.calls a else []) := by
  obtain ⟨visits, h⟩ := exists_visits hlistener hrun
  rw [h.calls fd hpos, h.accepted, List.flatMap_map]
  refine ⟨flatMap_calls_begin hpos h.order, fun hnone => List.flatMap_congr fun v hv => ?_⟩
  by_cases hfd : v.fd = fd
  · rw [if_pos hfd, if_pos (show v.arrival.fd = fd from hfd)]
    exact Visit.calls_of_thread_eq_none (h.thread_eq_none hnone hv hfd)
  · rw [if_neg hfd, if_neg (show v.arrival.fd ≠ fd from hfd)]

/-- A number that has no thread is free when the threads of its connections end with closing. -/
theorem table_of_reached (hlistener : 0 ≤ listener)
    (hrun : Reached (Process.step code listener) anyStep (.start listener) s) {fd : ℤ}
    (hne : fd ≠ listener) (hnone : ∀ t ∈ s.threads, t.fd ≠ fd)
    (hclose : ∀ a ∈ s.accepted, a.fd = fd → code.EndsWith .close a) : s.kernel.table fd = none := by
  obtain ⟨visits, h⟩ := exists_visits hlistener hrun
  refine h.free fd hne fun _ v hv hfd => ?_
  obtain ⟨p, hp⟩ := Visit.ended_of_thread_eq_none (h.thread_eq_none hnone hv hfd)
  have hplan : code.plan (code.answer v.arrival) = some p := v.plan_eq p (by rw [hp]; rfl)
  exact ⟨p, hp, hclose v.arrival (h.accepted ▸ List.mem_map_of_mem hv) hfd p hplan⟩

end Step

end Threads

end Posix
