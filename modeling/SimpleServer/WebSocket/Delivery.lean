import SimpleServer.WebSocket.Manager
import SimpleServer.Foundations.Runs

/-!
# Delivery of a client's messages

One registered client sends a list of text frames. Between two calls of
`notify_message_request`, pieces of their bytes arrive on its descriptor. An arrival also says how
the calls of `recv` will find the bytes that have not been read, old and new together, cut into
segments, so that every result that the calls can have is some cut.

`read_frame` discards the bytes that it has taken when a read comes up short, and what it returns
is sent to everyone all the same. `delivered_of_reached` says that, in every run whose calls all
find a whole frame, the messages sent out are at every moment a prefix of the client's.
-/

namespace SimpleServer

open Cxx Inbox Rfc6455 Posix Runs

/-- A client's connection: its descriptor, the server, and the bytes still on their way. -/
structure Client where
  fd : ℤ
  world : World
  pending : Bytes

/-- What happens at the client's descriptor. -/
inductive Event
  /-- A piece of the client's bytes arrives; the bytes not yet read are found cut as given, and
  the coming calls of `send` take what the client has room for. -/
  | arrive (piece : Bytes) (cut : List Bytes) (outbox : List (Option ℕ))
  /-- `notify_message_request` is called. -/
  | notify

namespace Client

def inbox (s : Client) : Inbox := s.world.kernel.inbox s.fd

/-- A call that throws ends the run. -/
def step (s : Client) : Event → Option Client
  | .arrive piece cut outbox =>
    if piece <+: s.pending ∧ (∀ seg ∈ cut, seg ≠ []) ∧
        cut.flatten = Conn.waiting s.inbox ++ piece then
      some { s with
        world.kernel := s.world.kernel.arrive ⟨s.fd, cut.map some, outbox⟩
        pending := s.pending.drop piece.length }
    else none
  | .notify =>
    match notifyMessageRequest s.fd s.world with
    | .ok world => some { s with world }
    | .error _ => none

/-- Nothing of what the client sends has arrived. -/
def start (fd : ℤ) (w : World) (frames : List Frame) : Client where
  fd := fd
  world := w
  pending := frames.flatMap Frame.wire

end Client

/-- A call of `notify_message_request` finds a whole frame, its header, extended length and
masking key each in one segment. -/
def FindsFrame (s : Client) : Event → Prop
  | .arrive .. => True
  | .notify => ∃ f segs, s.inbox = segs.map some ∧ Reads f segs

/-- The calls that send messages of `fd` to all descriptors of `D`. -/
def broadcastCalls (fd : ℤ) (D : Finset ℤ) (messages : List Bytes) : List SysCall :=
  messages.flatMap fun m => (ascending D).map fun c => .send c (frameBytes (idMessage fd m))

/-- Since the start, the messages sent out are a prefix of the payloads. -/
def Delivered (fd : ℤ) (w : World) (payloads : List Bytes) (s : Client) : Prop :=
  ∃ messages, messages <+: payloads ∧
    s.world.kernel.log = w.kernel.log ++ broadcastCalls fd w.websocketDescriptor messages

theorem broadcastCalls_concat (fd : ℤ) (D : Finset ℤ) (messages : List Bytes) (m : Bytes) :
    broadcastCalls fd D (messages ++ [m]) = broadcastCalls fd D messages ++
      (ascending D).map fun c => .send c (frameBytes (idMessage fd m)) := by
  simp [broadcastCalls]

/-! ## The run -/

/-- The frames split into those sent out and those of which all bytes are unread or on their
way. -/
structure InFlight (fd : ℤ) (w : World) (frames : List Frame) (s : Client) : Prop where
  fd_eq : s.fd = fd
  registry : s.world.websocketDescriptor = w.websocketDescriptor
  conn : ∃ c, s.world.kernel.table fd = some (.conn c)
  split : ∃ done todo segs, frames = done ++ todo ∧
    s.world.kernel.log =
      w.kernel.log ++ broadcastCalls fd w.websocketDescriptor (done.map Frame.payload) ∧
    s.inbox = segs.map some ∧ Proper segs ∧
    segs.flatten ++ s.pending = todo.flatMap Frame.wire

section Run

variable {fd : ℤ} {w : World} {frames : List Frame} {s s' : Client}

theorem inFlight_start (hconn : ∃ c, w.kernel.table fd = some (.conn c))
    (hinbox : w.kernel.inbox fd = []) : InFlight fd w frames (.start fd w frames) where
  fd_eq := rfl
  registry := rfl
  conn := hconn
  split := ⟨[], frames, [], rfl, by simp [broadcastCalls, Client.start], hinbox, by simp [Proper],
    rfl⟩

theorem InFlight.delivered (h : InFlight fd w frames s) :
    Delivered fd w (frames.map Frame.payload) s := by
  obtain ⟨done, todo, -, hframes, hlog, -⟩ := h.split
  refine ⟨done.map Frame.payload, ?_, hlog⟩
  rw [hframes, List.map_append]
  exact List.prefix_append _ _

/-- Bytes that arrive go from those on their way to those not read. -/
theorem InFlight.arrive (h : InFlight fd w frames s) {piece : Bytes} {cut : List Bytes}
    {outbox : List (Option ℕ)} (hstep : s.step (.arrive piece cut outbox) = some s') :
    InFlight fd w frames s' := by
  obtain ⟨c, hc⟩ := h.conn
  obtain ⟨done, todo, segs, hframes, hlog, hinbox, -, hbytes⟩ := h.split
  have hfd := h.fd_eq
  subst hfd
  rw [Client.step] at hstep
  split_ifs at hstep with harrive
  cases hstep
  obtain ⟨⟨rest, hrest⟩, hproper, hcut⟩ := harrive
  refine ⟨rfl, h.registry, ?_, done, todo, cut, hframes, ?_, ?_, hproper, ?_⟩
  · obtain ⟨c', hc', -⟩ := (Kernel.grows_arrive s.world.kernel _).conn hc
    exact ⟨c', hc'⟩
  · rw [← hlog]
    exact Kernel.log_modify ..
  · exact Kernel.inbox_arrive (a := ⟨s.fd, cut.map some, outbox⟩) hc
  · rw [hcut, hinbox, Conn.waiting_map_some, List.append_assoc, ← hbytes, ← hrest]
    simp

/-- A call that finds a whole frame takes the next frame of the client and sends its payload to
everyone. -/
theorem InFlight.notify (hreg : fd ∈ w.websocketDescriptor)
    (htext : ∀ f ∈ frames, f.opcode = textOpcode) (h : InFlight fd w frames s)
    (hfinds : FindsFrame s .notify) (hstep : s.step .notify = some s') :
    InFlight fd w frames s' := by
  obtain ⟨c, hc⟩ := h.conn
  obtain ⟨done, todo, segs, hframes, hlog, hinbox, hp, hbytes⟩ := h.split
  obtain ⟨f, segs', hinbox', hreads⟩ := hfinds
  have hfd := h.fd_eq
  subst hfd
  have hsegs : segs' = segs := by
    rw [hinbox] at hinbox'
    exact (List.map_injective_iff.mpr (Option.some_injective _) hinbox').symm
  subst hsegs
  obtain ⟨todo, rfl, hnext⟩ := exists_next_frame hreads hbytes
  have hop : f.opcode = textOpcode := htext f (by simp [hframes])
  have hread : readFrame (s.world.kernel.inbox s.fd) =
      .ok (f.payload, (skip f.wire.length segs').map some) := by
    have := readFrame_frame hp hreads []
    rwa [List.append_nil, List.append_nil, ← hinbox', textOf, if_pos hop] at this
  have hreg' : s.fd ∈ s.world.websocketDescriptor := by rwa [h.registry]
  have hnotify : notifyMessageRequest s.fd s.world = .ok
      { s.world with
        kernel := broadcast s.world.websocketDescriptor (idMessage s.fd f.payload)
          (s.world.kernel.leave s.fd ((skip f.wire.length segs').map some)) } := by
    rw [notifyMessageRequest, if_pos hreg', hread]
  rw [Client.step, hnotify] at hstep
  cases hstep
  refine ⟨rfl, h.registry, ?_, done ++ [f], todo, skip f.wire.length segs', by simp [hframes],
    ?_, ?_, hp.skip _, hnext⟩
  · obtain ⟨c', hc', -⟩ := (notifyMessageRequest_grows hnotify).1.conn hc
    exact ⟨c', hc'⟩
  · simp only [log_broadcast, Kernel.log_leave, hlog, List.map_append, List.map_singleton,
      broadcastCalls_concat, h.registry, List.append_assoc]
  · exact (inbox_broadcast _ _ _ _).trans (Kernel.inbox_leave hc _)

/-- **Delivery.** A registered client, of which nothing has arrived, sends text frames. In every
run in which each call of `notify_message_request` finds a whole frame, the messages sent out are
at every moment a prefix of the client's payloads. -/
theorem delivered_of_reached (hreg : fd ∈ w.websocketDescriptor)
    (hconn : ∃ c, w.kernel.table fd = some (.conn c)) (hinbox : w.kernel.inbox fd = [])
    (htext : ∀ f ∈ frames, f.opcode = textOpcode)
    (hrun : Reached Client.step FindsFrame (.start fd w frames) s) :
    Delivered fd w (frames.map Frame.payload) s := by
  have hflight : InFlight fd w frames s := by
    apply hrun.invariant (inFlight_start hconn hinbox)
    intro s a s' h hok hstep
    cases a with
    | arrive piece cut outbox => exact h.arrive hstep
    | notify => exact h.notify hreg htext hok hstep
  exact hflight.delivered

end Run

/-- Descriptor 5 is registered, and nothing has arrived on it. -/
def quiet : World where
  kernel := ⟨fun fd => if fd = 5 then some (.conn ⟨[], [], [], []⟩) else none, []⟩
  websocketDescriptor := {5}

/-- An unmasked text frame. -/
def hiFrame : Frame := textFrame (lit "Hi") (by decide)

/-- A piece of the frame has arrived on the quiet descriptor, cut as given. -/
def afterPiece (cut : List Bytes) : Client where
  fd := 5
  world := { quiet with kernel := quiet.kernel.arrive ⟨5, cut.map some, []⟩ }
  pending := hiFrame.wire.drop cut.flatten.length

theorem reached_afterPiece {ok : Client → Event → Prop} {cut : List Bytes}
    (hok : ∀ s piece cut outbox, ok s (.arrive piece cut outbox))
    (hpre : cut.flatten <+: hiFrame.wire) (hcut : ∀ seg ∈ cut, seg ≠ []) :
    Reached Client.step ok (.start 5 quiet [hiFrame]) (afterPiece cut) := by
  refine Reached.start.step (hok _ cut.flatten cut []) ?_
  have hinbox : (Client.start 5 quiet [hiFrame]).inbox = [] := rfl
  have hpending : (Client.start 5 quiet [hiFrame]).pending = hiFrame.wire := by
    simp [Client.start]
  rw [Client.step, hinbox, hpending, if_pos ⟨hpre, hcut, rfl⟩]
  rfl

/-- A call on the registered descriptor sends what the read returned to descriptor 5. -/
theorem step_notify_afterPiece {cut : List Bytes} {str : Bytes} {q : Inbox}
    (h : readFrame (cut.map some) = .ok (str, q)) :
    ∃ s, (afterPiece cut).step .notify = some s ∧
      s.world.kernel.log = [.send 5 (frameBytes (idMessage 5 str))] := by
  have hinbox : (afterPiece cut).world.kernel.inbox 5 = cut.map some := rfl
  have hmem : (5 : ℤ) ∈ (afterPiece cut).world.websocketDescriptor := Finset.mem_singleton_self 5
  have hfd : (afterPiece cut).fd = 5 := rfl
  rw [Client.step, notifyMessageRequest, hfd, if_pos hmem, hinbox, h]
  refine ⟨_, rfl, ?_⟩
  have hlog : (afterPiece cut).world.kernel.log = [] := rfl
  have hreg : (afterPiece cut).world.websocketDescriptor = {5} := rfl
  rw [log_broadcast, Kernel.log_leave, hlog, hreg, ascending, Finset.sort_singleton]
  rfl

/-- The frame arrives cut inside its payload, and the call takes it. -/
theorem delivered_hi : ∃ s,
    s.world.kernel.log = [.send 5 (frameBytes (idMessage 5 (lit "Hi")))] ∧
      Delivered 5 quiet [lit "Hi"] s := by
  have hproper : Proper [[0x81, 2, 0x48], [0x69]] := by simp [Proper]
  have hreads : Reads hiFrame [[0x81, 2, 0x48], [0x69]] := by
    refine ⟨?_, ?_, ?_, ?_⟩ <;> decide
  have hread := readFrame_frame hproper hreads []
  rw [List.append_nil] at hread
  obtain ⟨s, hstep, hlog⟩ := step_notify_afterPiece hread
  have hfinds : FindsFrame (afterPiece [[0x81, 2, 0x48], [0x69]]) .notify :=
    ⟨hiFrame, _, rfl, hreads⟩
  have hrun : Reached Client.step FindsFrame (.start 5 quiet [hiFrame]) s :=
    (reached_afterPiece (fun _ _ _ _ => trivial) (by decide) hproper).step hfinds hstep
  exact ⟨s, hlog, delivered_of_reached (by decide) ⟨_, rfl⟩ rfl (by decide) hrun⟩

/-- One byte of the header arrives first: an empty message goes out. -/
theorem not_delivered_firstByte :
    ¬ ∀ s, Reached Client.step anyStep (.start 5 quiet [hiFrame]) s →
      Delivered 5 quiet [lit "Hi"] s := by
  intro hall
  have hread : readFrame ([[0x81]].map some) = .ok ([], []) := rfl
  obtain ⟨s, hstep, hlog⟩ := step_notify_afterPiece hread
  obtain ⟨messages, hpre, hsent⟩ := hall s
    ((reached_afterPiece (fun _ _ _ _ => trivial) (by decide) (by decide)).step trivial hstep)
  rw [hlog] at hsent
  have hcases : messages = [] ∨ messages = [lit "Hi"] := by
    rcases messages with _ | ⟨m, ms⟩
    · exact Or.inl rfl
    · obtain ⟨rfl, hms⟩ := List.cons_prefix_cons.mp hpre
      exact Or.inr (by rw [List.prefix_nil.mp hms])
  rcases hcases with rfl | rfl <;> exact absurd hsent (by decide +kernel)

end SimpleServer
