import SimpleServer.Foundations.Inbox
import Mathlib.Logic.Function.Basic

/-!
# The descriptors of a process

A `Kernel` is the descriptor table of a process with its sockets, and the record of the calls
that the process has made. A connection holds the answers that its coming calls of `recv` and
`send` get, and what these calls have transferred since the connection was accepted. A number
that is not open is answered with an error.

Between two kernels `Grows` says that the same numbers are open, for the same connections, which
have only transferred more; this is all that the calls other than `accept` and `close` do.
-/

namespace Posix

open Cxx

/-- The process's end of a connection. -/
structure Conn where
  /-- What the coming calls of `recv` are answered. -/
  inbox : Inbox
  /-- How many bytes the coming calls of `send` take, `none` for `-1`; then all. -/
  outbox : List (Option ℕ)
  /-- The bytes that `recv` has taken. -/
  received : Bytes
  /-- The bytes that `send` has taken. -/
  sent : Bytes
  deriving DecidableEq

inductive Descriptor
  | listener
  | conn (c : Conn)
  deriving DecidableEq

/-- The calls that a process makes; a call of `close` is recorded with whether the number was
open. -/
inductive SysCall
  | accept (fd : ℤ)
  | send (fd : ℤ) (bytes : Bytes)
  | close (fd : ℤ) (wasOpen : Bool)
  deriving DecidableEq

structure Kernel where
  table : ℤ → Option Descriptor
  log : List SysCall

/-- A connection that waits to be accepted, with the number that it will get. -/
structure Arrival where
  fd : ℤ
  inbox : Inbox
  outbox : List (Option ℕ)
  deriving DecidableEq

namespace Conn

/-- All bytes that an inbox holds. -/
def waiting (q : Inbox) : Bytes := (q.filterMap id).flatten

@[simp] theorem waiting_map_some (segs : List Bytes) : waiting (segs.map some) = segs.flatten := by
  simp [waiting, List.filterMap_map]

/-- What a call of `recv` returns is taken from the front. -/
theorem waiting_recv {n : ℕ} {q q' : Inbox} {bs : Bytes} (h : Inbox.recv n q = (some bs, q')) :
    waiting q = bs ++ waiting q' := by
  rcases q with _ | ⟨_ | seg, q⟩
  · simp [Inbox.recv] at h
  · simp [Inbox.recv] at h
  · rw [Inbox.recv] at h
    split_ifs at h
    · cases h
      rfl
    · cases h
      simp [waiting, ← List.append_assoc, List.take_append_drop]

/-- A call of `recv` adds nothing to what waits. -/
theorem length_waiting_recv_le (n : ℕ) (q : Inbox) :
    (waiting (Inbox.recv n q).2).length ≤ (waiting q).length := by
  obtain ⟨r, q', h⟩ : ∃ r q', Inbox.recv n q = (r, q') := ⟨_, _, rfl⟩
  rw [h]
  cases r with
  | none =>
    rcases q with _ | ⟨_ | seg, q⟩
    · cases h
      rfl
    · cases h
      exact le_of_eq rfl
    · rw [Inbox.recv] at h
      split_ifs at h <;> cases h
  | some bs =>
    rw [waiting_recv h, List.length_append]
    exact Nat.le_add_left ..

/-- Where a call that peeks finds a byte, a call of `recv` takes one. -/
theorem length_waiting_recv_lt {m n : ℕ} (hn : 0 < n) {q : Inbox}
    (hpeek : (Inbox.peek m q).getD [] ≠ []) :
    (waiting (Inbox.recv n q).2).length < (waiting q).length := by
  rcases q with _ | ⟨_ | seg, q⟩
  · simp [Inbox.peek, Inbox.recv] at hpeek
  · simp [Inbox.peek, Inbox.recv] at hpeek
  · have hseg : seg ≠ [] := by
      rintro rfl
      simp [Inbox.peek, Inbox.recv] at hpeek
    have hpos := List.length_pos_iff.mpr hseg
    rw [Inbox.recv]
    split_ifs <;> simp [waiting] <;> omega

theorem length_waiting_recvExact_le (n : ℕ) (q : Inbox) :
    (waiting (Inbox.recvExact n q).2).length ≤ (waiting q).length := by
  rw [Inbox.recvExact_snd]
  exact length_waiting_recv_le n q

theorem length_waiting_recvAll_le (n : ℕ) (q : Inbox) :
    (waiting (Inbox.recvAll n q).2).length ≤ (waiting q).length := by
  induction n using Nat.strong_induction_on generalizing q with
  | _ n ih =>
    have hle := length_waiting_recv_le n q
    rw [Inbox.recvAll]
    split_ifs with hn
    · rcases h : Inbox.recv n q with ⟨_ | bs, q'⟩
      · rwa [h] at hle
      · rw [h] at hle
        by_cases hbs : bs = []
        · simpa [hbs] using hle
        · have hpos := List.length_pos_iff.mpr hbs
          simp only [dif_neg hbs]
          exact (ih (n - bs.length) (by omega) q').trans hle
    · rfl

/-- The connection after calls of `recv` have left the answers `q`. -/
def leave (c : Conn) (q : Inbox) : Conn :=
  { c with
    inbox := q
    received := c.received ++
      (waiting c.inbox).take ((waiting c.inbox).length - (waiting q).length) }

theorem received_leave_recv {c : Conn} {n : ℕ} {bs : Bytes} {q : Inbox}
    (h : Inbox.recv n c.inbox = (some bs, q)) : (c.leave q).received = c.received ++ bs := by
  have hlen : (bs ++ waiting q).length - (waiting q).length = bs.length := by
    rw [List.length_append, Nat.add_sub_cancel]
  rw [leave, waiting_recv h, hlen, List.take_left]

/-- The connection after a call of `send`. -/
def push (c : Conn) (bytes : Bytes) : Conn :=
  match c.outbox with
  | [] => { c with sent := c.sent ++ bytes }
  | none :: outbox => { c with outbox }
  | some n :: outbox => { c with outbox, sent := c.sent ++ bytes.take n }

/-- The next call of `send` takes `n` bytes when it is given them. -/
def takes (outbox : List (Option ℕ)) (n : ℕ) : Bool :=
  match outbox with
  | [] => true
  | none :: _ => false
  | some m :: _ => n ≤ m

/-- How many of `n` bytes the next call of `send` takes. -/
def room (outbox : List (Option ℕ)) (n : ℕ) : ℕ :=
  match outbox with
  | [] => n
  | none :: _ => 0
  | some m :: _ => min m n

theorem room_le (outbox : List (Option ℕ)) (n : ℕ) : room outbox n ≤ n := by
  rcases outbox with _ | ⟨_ | m, outbox⟩ <;> simp [room]

theorem room_eq_of_takes {outbox : List (Option ℕ)} {n : ℕ} (h : takes outbox n = true) :
    room outbox n = n := by
  rcases outbox with _ | ⟨_ | m, outbox⟩
  · rfl
  · cases h
  · exact min_eq_right (of_decide_eq_true h)

theorem sent_push_room (c : Conn) (bytes : Bytes) :
    (c.push bytes).sent = c.sent ++ bytes.take (room c.outbox bytes.length) := by
  unfold push
  rcases hout : c.outbox with _ | ⟨_ | m, outbox⟩
  · simp [room]
  · simp [room]
  · simp [room, List.take_eq_take_iff]

theorem sent_push {c : Conn} {bytes : Bytes} (h : takes c.outbox bytes.length = true) :
    (c.push bytes).sent = c.sent ++ bytes := by
  rw [sent_push_room, room_eq_of_takes h, List.take_length]

theorem received_push (c : Conn) (bytes : Bytes) : (c.push bytes).received = c.received := by
  unfold push
  split <;> rfl

end Conn

namespace Kernel

/-- Is a number open. -/
def isOpen (k : Kernel) (fd : ℤ) : Bool := (k.table fd).isSome

/-- The answers that wait on a descriptor. -/
def inbox (k : Kernel) (fd : ℤ) : Inbox :=
  match k.table fd with
  | some (.conn c) => c.inbox
  | _ => []

/-- A change of one connection. -/
def modify (k : Kernel) (fd : ℤ) (f : Conn → Conn) : Kernel :=
  match k.table fd with
  | some (.conn c) => { k with table := Function.update k.table fd (some (.conn (f c))) }
  | _ => k

/-- The kernel after calls of `recv` on `fd` have left the answers `q`. -/
def leave (k : Kernel) (fd : ℤ) (q : Inbox) : Kernel := k.modify fd (·.leave q)

/-- `recv(fd, buffer, n, 0)`. -/
def recv (k : Kernel) (fd : ℤ) (n : ℕ) : Option Bytes × Kernel :=
  let r := Inbox.recv n (k.inbox fd)
  (r.1, k.leave fd r.2)

/-- `recv(fd, buffer, n, MSG_PEEK)`. -/
def peek (k : Kernel) (fd : ℤ) (n : ℕ) : Option Bytes := Inbox.peek n (k.inbox fd)

/-- `send(fd, bytes, size, 0)`, whose result no caller looks at. -/
def send (k : Kernel) (fd : ℤ) (bytes : Bytes) : Kernel :=
  let k := k.modify fd (·.push bytes)
  { k with log := k.log ++ [.send fd bytes] }

/-- Does the next call of `send` on a number take `n` bytes when it is given them. -/
def takes (k : Kernel) (fd : ℤ) (n : ℕ) : Bool :=
  match k.table fd with
  | some (.conn c) => Conn.takes c.outbox n
  | _ => false

/-- How many of `n` bytes the next call of `send` on a number takes. -/
def room (k : Kernel) (fd : ℤ) (n : ℕ) : ℕ :=
  match k.table fd with
  | some (.conn c) => Conn.room c.outbox n
  | _ => 0

/-- The bytes that a connection has sent. -/
def sentOn (k : Kernel) (fd : ℤ) : Bytes :=
  match k.table fd with
  | some (.conn c) => c.sent
  | _ => []

/-- `close(fd)`. -/
def close (k : Kernel) (fd : ℤ) : Kernel where
  table := Function.update k.table fd none
  log := k.log ++ [.close fd (k.isOpen fd)]

/-- `accept(listener, ..)`: `-1`, or a number that is not open, on an open listener. -/
def accept (k : Kernel) (listener : ℤ) : Option Arrival → Option (ℤ × Kernel)
  | none => some (-1, { k with log := k.log ++ [.accept (-1)] })
  | some a =>
    if 0 ≤ a.fd ∧ k.table a.fd = none ∧ k.table listener = some .listener then
      some (a.fd,
        { table := Function.update k.table a.fd (some (.conn ⟨a.inbox, a.outbox, [], []⟩))
          log := k.log ++ [.accept a.fd] })
    else none

/-- What the network does to a connection between two calls. -/
def arrive (k : Kernel) (a : Arrival) : Kernel :=
  k.modify a.fd fun c => { c with inbox := a.inbox, outbox := a.outbox }

/-! ## What the calls leave unchanged -/

/-- The same descriptor, closed or open, a connection having transferred no less. -/
def GrowsTo : Option Descriptor → Option Descriptor → Prop
  | none, d => d = none
  | some .listener, d => d = some .listener
  | some (.conn c), d => ∃ c', d = some (.conn c') ∧ c.received <+: c'.received ∧ c.sent <+: c'.sent

/-- No descriptor is opened or closed, and connections have transferred no less. -/
def Grows (k k' : Kernel) : Prop := ∀ fd, GrowsTo (k.table fd) (k'.table fd)

theorem GrowsTo.refl (d : Option Descriptor) : GrowsTo d d := by
  rcases d with _ | _ | c
  · rfl
  · rfl
  · exact ⟨c, rfl, List.prefix_rfl, List.prefix_rfl⟩

theorem GrowsTo.trans {d₁ d₂ d₃ : Option Descriptor} (h : GrowsTo d₁ d₂) (h' : GrowsTo d₂ d₃) :
    GrowsTo d₁ d₃ := by
  rcases d₁ with _ | _ | c
  · cases h
    exact h'
  · cases h
    exact h'
  · obtain ⟨c₂, rfl, hr, hs⟩ := h
    obtain ⟨c₃, rfl, hr', hs'⟩ := h'
    exact ⟨c₃, rfl, hr.trans hr', hs.trans hs'⟩

namespace Grows

variable {k k' k'' : Kernel} {fd : ℤ}

theorem refl (k : Kernel) : k.Grows k := fun _ => .refl _

theorem trans (h : k.Grows k') (h' : k'.Grows k'') : k.Grows k'' := fun fd => (h fd).trans (h' fd)

theorem none (h : k.Grows k') (hfd : k.table fd = .none) : k'.table fd = .none := by
  have := h fd
  rwa [hfd] at this

theorem listener (h : k.Grows k') (hfd : k.table fd = some .listener) :
    k'.table fd = some .listener := by
  have := h fd
  rwa [hfd] at this

theorem conn_of (h : k.Grows k') {c : Conn} (hfd : k'.table fd = some (.conn c)) :
    ∃ c', k.table fd = some (.conn c') := by
  have := h fd
  rw [hfd] at this
  rcases hd : k.table fd with _ | _ | c'
  · simp [hd, GrowsTo] at this
  · simp [hd, GrowsTo] at this
  · exact ⟨c', rfl⟩

theorem conn (h : k.Grows k') {c : Conn} (hfd : k.table fd = some (.conn c)) :
    ∃ c', k'.table fd = some (.conn c') ∧ c.received <+: c'.received ∧ c.sent <+: c'.sent := by
  have := h fd
  rwa [hfd] at this

end Grows

theorem table_modify_conn {k : Kernel} {fd : ℤ} {c : Conn} (h : k.table fd = some (.conn c))
    (f : Conn → Conn) : (k.modify fd f).table fd = some (.conn (f c)) := by
  rw [modify, h]
  exact Function.update_self ..

theorem table_modify_ne {k : Kernel} {fd fd' : ℤ} (h : fd' ≠ fd) (f : Conn → Conn) :
    (k.modify fd f).table fd' = k.table fd' := by
  unfold modify
  split
  · exact Function.update_of_ne h ..
  · rfl

theorem grows_modify (k : Kernel) (fd : ℤ) {f : Conn → Conn}
    (hf : ∀ c, c.received <+: (f c).received ∧ c.sent <+: (f c).sent) :
    k.Grows (k.modify fd f) := by
  intro fd'
  by_cases h : fd' = fd
  · subst h
    rcases hd : k.table fd' with _ | _ | c
    · simp [modify, hd, GrowsTo]
    · simp [modify, hd, GrowsTo]
    · exact ⟨f c, table_modify_conn hd f, hf c⟩
  · rw [table_modify_ne h]
    exact .refl _

theorem grows_leave (k : Kernel) (fd : ℤ) (q : Inbox) : k.Grows (k.leave fd q) :=
  k.grows_modify fd fun _ => ⟨List.prefix_append _ _, List.prefix_rfl⟩

theorem grows_recv (k : Kernel) (fd : ℤ) (n : ℕ) : k.Grows (k.recv fd n).2 := k.grows_leave fd _

theorem grows_send (k : Kernel) (fd : ℤ) (bytes : Bytes) : k.Grows (k.send fd bytes) := by
  refine k.grows_modify fd fun c => ?_
  unfold Conn.push
  split
  · exact ⟨List.prefix_rfl, List.prefix_append _ _⟩
  · exact ⟨List.prefix_rfl, List.prefix_rfl⟩
  · exact ⟨List.prefix_rfl, List.prefix_append _ _⟩

theorem grows_arrive (k : Kernel) (a : Arrival) : k.Grows (k.arrive a) :=
  k.grows_modify a.fd fun _ => ⟨List.prefix_rfl, List.prefix_rfl⟩

/-! ## What the calls change -/

theorem inbox_modify {k : Kernel} {fd : ℤ} {c : Conn} (h : k.table fd = some (.conn c))
    (f : Conn → Conn) : (k.modify fd f).inbox fd = (f c).inbox := by
  rw [inbox, table_modify_conn h]

theorem inbox_modify_ne {k : Kernel} {fd fd' : ℤ} (h : fd' ≠ fd) (f : Conn → Conn) :
    (k.modify fd f).inbox fd' = k.inbox fd' := by
  rw [inbox, table_modify_ne h, inbox]

theorem table_recv_conn {k : Kernel} {fd : ℤ} {c : Conn} (h : k.table fd = some (.conn c))
    (n : ℕ) : (k.recv fd n).2.table fd = some (.conn (c.leave (Inbox.recv n c.inbox).2)) := by
  have hinbox : k.inbox fd = c.inbox := by rw [inbox, h]
  rw [recv, hinbox]
  exact table_modify_conn h _

theorem table_send_conn {k : Kernel} {fd : ℤ} {c : Conn} (h : k.table fd = some (.conn c))
    (bytes : Bytes) : (k.send fd bytes).table fd = some (.conn (c.push bytes)) :=
  table_modify_conn h _

theorem inbox_leave {k : Kernel} {fd : ℤ} {c : Conn} (h : k.table fd = some (.conn c))
    (q : Inbox) : (k.leave fd q).inbox fd = q :=
  inbox_modify h _

theorem inbox_arrive {k : Kernel} {a : Arrival} {c : Conn} (h : k.table a.fd = some (.conn c)) :
    (k.arrive a).inbox a.fd = a.inbox :=
  inbox_modify h _

/-- Answers wait on connections alone. -/
theorem exists_conn {k : Kernel} {fd : ℤ} (h : k.inbox fd ≠ []) :
    ∃ c, k.table fd = some (.conn c) := by
  rw [inbox] at h
  split at h
  · rename_i c hc
    exact ⟨c, hc⟩
  · exact absurd rfl h

/-- What `accept` can do. -/
theorem accept_cases {k k' : Kernel} {listener fd : ℤ} {accepted : Option Arrival}
    (h : k.accept listener accepted = some (fd, k')) :
    (accepted = none ∧ fd = -1 ∧ k'.table = k.table) ∨
      ∃ a, accepted = some a ∧ fd = a.fd ∧ 0 ≤ fd ∧ k.table fd = none ∧
        k.table listener = some .listener ∧
        k'.table = Function.update k.table fd (some (.conn ⟨a.inbox, a.outbox, [], []⟩)) := by
  cases accepted with
  | none =>
    cases h
    exact Or.inl ⟨rfl, rfl, rfl⟩
  | some a =>
    rw [accept] at h
    split_ifs at h with hc
    cases h
    exact Or.inr ⟨a, rfl, rfl, hc.1, hc.2.1, hc.2.2, rfl⟩

theorem of_accept_none {k k' : Kernel} {listener fd : ℤ}
    (h : k.accept listener none = some (fd, k')) : fd = -1 ∧ k'.table = k.table := by
  rcases accept_cases h with ⟨-, hfd, htable⟩ | ⟨a, ha, -⟩
  · exact ⟨hfd, htable⟩
  · cases ha

/-- A connection that waits is accepted on its number, which was not open. -/
theorem of_accept_some {k k' : Kernel} {listener fd : ℤ} {a : Arrival}
    (h : k.accept listener (some a) = some (fd, k')) :
    fd = a.fd ∧ 0 ≤ fd ∧ k.table fd = none ∧
      k'.table = Function.update k.table fd (some (.conn ⟨a.inbox, a.outbox, [], []⟩)) := by
  rcases accept_cases h with ⟨ha, -⟩ | ⟨a', ha, hfd, hpos, hnone, -, htable⟩
  · cases ha
  · cases ha
    exact ⟨hfd, hpos, hnone, htable⟩

theorem neg_one_le_accept {k k' : Kernel} {listener fd : ℤ} {accepted : Option Arrival}
    (h : k.accept listener accepted = some (fd, k')) : -1 ≤ fd := by
  rcases accept_cases h with ⟨-, hfd, -⟩ | ⟨-, -, -, hfd, -⟩ <;> omega

/-- A call of `accept` changes no number but the one that it returns. -/
theorem table_accept_ne {k k' : Kernel} {listener fd fd' : ℤ} {accepted : Option Arrival}
    (h : k.accept listener accepted = some (fd, k')) (hne : fd' ≠ fd) :
    k'.table fd' = k.table fd' := by
  rcases accept_cases h with ⟨-, -, htable⟩ | ⟨a, -, -, -, -, -, htable⟩
  · rw [htable]
  · rw [htable, Function.update_of_ne hne]

/-- A call of `accept` is recorded with its result. -/
theorem log_accept {k k' : Kernel} {listener fd : ℤ} {accepted : Option Arrival}
    (h : k.accept listener accepted = some (fd, k')) : k'.log = k.log ++ [.accept fd] := by
  cases accepted with
  | none =>
    cases h
    rfl
  | some a =>
    rw [accept] at h
    split_ifs at h
    cases h
    rfl

/-- What a change of connections leaves alone in each of them is the same on every number. -/
theorem table_modify_eq {β : Type*} {g : Option Descriptor → β} {f : Conn → Conn}
    (hf : ∀ c, g (some (.conn (f c))) = g (some (.conn c))) (k : Kernel) (fd fd' : ℤ) :
    g ((k.modify fd f).table fd') = g (k.table fd') := by
  by_cases h : fd' = fd
  · subst h
    rcases hd : k.table fd' with _ | _ | c
    · simp [modify, hd]
    · simp [modify, hd]
    · rw [table_modify_conn hd, hf]
  · rw [table_modify_ne h]

/-- A call of `send` takes nothing from an inbox. -/
theorem inbox_send (k : Kernel) (fd fd' : ℤ) (bytes : Bytes) :
    (k.send fd bytes).inbox fd' = k.inbox fd' := by
  have hpush : ∀ c : Conn, (c.push bytes).inbox = c.inbox := by
    intro c
    unfold Conn.push
    split <;> rfl
  exact table_modify_eq (g := fun d => match d with | some (.conn c) => c.inbox | _ => [])
    hpush k fd fd'

/-- A change of a connection that sends nothing. -/
theorem sentOn_modify {k : Kernel} {fd : ℤ} {f : Conn → Conn} (hf : ∀ c, (f c).sent = c.sent)
    (fd' : ℤ) : (k.modify fd f).sentOn fd' = k.sentOn fd' :=
  table_modify_eq (g := fun d => match d with | some (.conn c) => c.sent | _ => []) hf k fd fd'

theorem sentOn_leave (k : Kernel) (fd fd' : ℤ) (q : Inbox) :
    (k.leave fd q).sentOn fd' = k.sentOn fd' :=
  sentOn_modify (f := (·.leave q)) (fun _ => rfl) fd'

/-- A call of `send` adds what it takes to one number. -/
theorem sentOn_send (k : Kernel) (fd fd' : ℤ) (bytes : Bytes) :
    (k.send fd bytes).sentOn fd' = k.sentOn fd' ++
      if fd' = fd then bytes.take (k.room fd' bytes.length) else [] := by
  by_cases h : fd' = fd
  · subst h
    rw [if_pos rfl]
    rcases hd : k.table fd' with _ | _ | c
    · simp [send, sentOn, room, modify, hd]
    · simp [send, sentOn, room, modify, hd]
    · simp only [sentOn, room, table_send_conn hd, hd]
      exact c.sent_push_room bytes
  · have htable : (k.send fd bytes).table fd' = k.table fd' := table_modify_ne h _
    rw [if_neg h, List.append_nil, sentOn, htable, sentOn]

/-- A connection that is accepted has sent nothing. -/
theorem sentOn_accept {k k' : Kernel} {listener fd : ℤ} {accepted : Option Arrival}
    (h : k.accept listener accepted = some (fd, k')) (fd' : ℤ) :
    k'.sentOn fd' = k.sentOn fd' := by
  rcases accept_cases h with ⟨-, -, htable⟩ | ⟨a, -, -, -, hnone, -, htable⟩
  · rw [sentOn, htable, sentOn]
  · by_cases hfd : fd' = fd
    · subst hfd
      simp [sentOn, htable, hnone]
    · rw [sentOn, htable, Function.update_of_ne hfd, sentOn]

/-- What the next call on a number takes does not depend on the calls on other numbers. -/
theorem room_send_ne (k : Kernel) {fd fd' : ℤ} (h : fd' ≠ fd) (bytes : Bytes) (n : ℕ) :
    (k.send fd bytes).room fd' n = k.room fd' n := by
  have htable : (k.send fd bytes).table fd' = k.table fd' := table_modify_ne h _
  rw [room, htable, room]

/-- Calls of `recv` leave what the next call of `send` takes. -/
theorem room_leave (k : Kernel) (fd fd' : ℤ) (q : Inbox) (n : ℕ) :
    (k.leave fd q).room fd' n = k.room fd' n :=
  table_modify_eq (f := (·.leave q))
    (g := fun d => match d with | some (.conn c) => Conn.room c.outbox n | _ => 0)
    (fun _ => rfl) k fd fd'

theorem room_le (k : Kernel) (fd : ℤ) (n : ℕ) : k.room fd n ≤ n := by
  unfold room
  split
  · exact Conn.room_le _ n
  · exact n.zero_le

theorem takes_iff (k : Kernel) (fd : ℤ) {n : ℕ} (hn : 0 < n) :
    k.takes fd n = true ↔ k.room fd n = n := by
  unfold takes room
  split
  · rename_i c _
    rcases hout : c.outbox with _ | ⟨_ | m, outbox⟩
    · simp [Conn.takes, Conn.room]
    · simp [Conn.takes, Conn.room, hn.ne]
    · simp [Conn.takes, Conn.room]
  · simp [hn.ne]

/-- A call that takes no byte takes nothing, whatever it is given. -/
theorem room_eq_zero_iff (k : Kernel) (fd : ℤ) {n : ℕ} (hn : 0 < n) :
    k.room fd n = 0 ↔ k.room fd 1 = 0 := by
  unfold room
  split
  · rename_i c _
    rcases hout : c.outbox with _ | ⟨_ | m, outbox⟩
    · simp [Conn.room, hn.ne']
    · simp [Conn.room]
    · simp [Conn.room, hn.ne']
  · rfl

@[simp] theorem log_modify (k : Kernel) (fd : ℤ) (f : Conn → Conn) :
    (k.modify fd f).log = k.log := by
  unfold modify
  split <;> rfl

@[simp] theorem log_send (k : Kernel) (fd : ℤ) (bytes : Bytes) :
    (k.send fd bytes).log = k.log ++ [.send fd bytes] := by
  simp [send]

@[simp] theorem log_leave (k : Kernel) (fd : ℤ) (q : Inbox) : (k.leave fd q).log = k.log :=
  k.log_modify fd _

/-! ## Some of the numbers -/

/-- The kernel as it is seen on the numbers of `D` alone. -/
def restrict (k : Kernel) (D : Finset ℤ) : Kernel where
  table fd := if fd ∈ D then k.table fd else none
  log := k.log

section Restrict

variable {k : Kernel} {D : Finset ℤ} {fd : ℤ}

theorem table_restrict (h : fd ∈ D) : (k.restrict D).table fd = k.table fd := if_pos h

theorem table_restrict_of_notMem (h : fd ∉ D) : (k.restrict D).table fd = .none := if_neg h

theorem inbox_restrict (h : fd ∈ D) : (k.restrict D).inbox fd = k.inbox fd := by
  rw [inbox, table_restrict h, inbox]

theorem inbox_restrict_of_notMem (h : fd ∉ D) : (k.restrict D).inbox fd = [] := by
  rw [inbox, table_restrict_of_notMem h]

theorem sentOn_restrict (h : fd ∈ D) : (k.restrict D).sentOn fd = k.sentOn fd := by
  rw [sentOn, table_restrict h, sentOn]

theorem sentOn_restrict_of_notMem (h : fd ∉ D) : (k.restrict D).sentOn fd = [] := by
  rw [sentOn, table_restrict_of_notMem h]

/-- A number that is not open can be seen or not. -/
theorem restrict_insert (h : k.table fd = .none) : k.restrict (insert fd D) = k.restrict D := by
  have htable : ∀ fd', (k.restrict (insert fd D)).table fd' = (k.restrict D).table fd' := by
    intro fd'
    by_cases hne : fd' = fd
    · subst hne
      by_cases hmem : fd' ∈ D <;> simp [restrict, h]
    · simp [restrict, hne]
  exact congrArg (Kernel.mk · k.log) (funext htable)

/-- A change of a connection that is seen. -/
theorem restrict_modify (h : fd ∈ D) (f : Conn → Conn) :
    (k.modify fd f).restrict D = (k.restrict D).modify fd f := by
  have htable : (k.restrict D).table fd = k.table fd := table_restrict h
  have hlog : ((k.modify fd f).restrict D).log = ((k.restrict D).modify fd f).log := by
    rw [log_modify]
    exact log_modify k fd f
  have hrest : ∀ fd', ((k.modify fd f).restrict D).table fd' =
      ((k.restrict D).modify fd f).table fd' := by
    intro fd'
    by_cases hne : fd' = fd
    · subst hne
      rw [table_restrict h]
      rcases hd : k.table fd' with _ | _ | c
      · simp [modify, htable, hd]
      · simp [modify, htable, hd]
      · rw [table_modify_conn hd, table_modify_conn (htable.trans hd)]
    · rw [table_modify_ne hne]
      by_cases hmem : fd' ∈ D
      · rw [table_restrict hmem, table_restrict hmem, table_modify_ne hne]
      · rw [table_restrict_of_notMem hmem, table_restrict_of_notMem hmem]
  exact congrArg₂ Kernel.mk (funext hrest) hlog

theorem restrict_leave (h : fd ∈ D) (q : Inbox) :
    (k.leave fd q).restrict D = (k.restrict D).leave fd q := restrict_modify h _

theorem restrict_send (h : fd ∈ D) (bytes : Bytes) :
    (k.send fd bytes).restrict D = (k.restrict D).send fd bytes := by
  have hpush : (k.modify fd (·.push bytes)).restrict D =
      (k.restrict D).modify fd (·.push bytes) := restrict_modify h _
  rw [send, send, ← hpush]
  rfl

end Restrict

end Kernel

end Posix
