import SimpleServer.WebSocket.Upgrade
import SimpleServer.Foundations.Runs

/-!
# Whole frames

Connections are accepted, answered with the upgrade, and then sent every broadcast. A call of
`send` on a socket without much room takes some of the bytes that it is given. `read_frame` repeats
its calls of `recv` until it has all bytes, and `send_frame` calls `send` once and drops what it
returns.

The `Feed` records for each number the calls of `send` made on it, with what they took.
`wholeFrames_of_reached` says which runs leave every client with whole frames: a client of which
a frame was cut has no room from then on.
-/

namespace SimpleServer

open Cxx Inbox Posix Runs

/-- A call of `send`: the bytes given, and how many of them it took. -/
structure Sending where
  given : Bytes
  accepted : ℕ
  deriving DecidableEq

namespace Sending

/-- The bytes that the call took. -/
def taken (e : Sending) : Bytes := e.given.take e.accepted

/-- The call took some bytes and not all of them. -/
def Cut (e : Sending) : Prop := 0 < e.accepted ∧ e.accepted < e.given.length

instance (e : Sending) : Decidable e.Cut :=
  inferInstanceAs (Decidable (0 < e.accepted ∧ e.accepted < e.given.length))

end Sending

/-- The world, with the calls of `send` made on each number. -/
structure Feed where
  world : World
  ledger : ℤ → List Sending

namespace Feed

/-- The bytes given to `send` on a number in some system calls. -/
def offers (c : ℤ) (calls : List SysCall) : List Bytes :=
  calls.filterMap fun
    | .send fd bytes => if fd = c then some bytes else none
    | _ => none

/-- The world is now `w`. A step calls `send` at most once on a number, so that what the call took
is what the connection has sent more than before. -/
def record (s : Feed) (w : World) : Feed where
  world := w
  ledger c := s.ledger c ++
    (offers c (w.kernel.log.drop s.world.kernel.log.length)).map fun given =>
      ⟨given, (w.kernel.sentOn c).length - (s.world.kernel.sentOn c).length⟩

/-- There is the listener and no client. -/
def start (listener : ℤ) : Feed where
  world := ⟨⟨fun fd => if fd = listener then some .listener else none, []⟩, ∅⟩
  ledger _ := []

/-- What happens in one step. -/
inductive Label
  /-- A connection is accepted. -/
  | accept (a : Arrival)
  /-- Its upgrade request is handled. -/
  | handshake (fd : ℤ) (headers : StringMap)
  /-- Bytes arrive on a connection, or its room changes. -/
  | arrive (a : Arrival)
  /-- `notify_message_request` is called. -/
  | notify (fd : ℤ)

/-- One step; a connection makes one handshake, and an exception ends the run. -/
def step (platform : Platform) (listener : ℤ) (s : Feed) : Label → Option Feed
  | .accept a =>
    (s.world.kernel.accept listener (some a)).map fun (_, kernel) =>
      s.record { s.world with kernel }
  | .handshake fd headers =>
    if s.world.kernel.isOpen fd ∧ fd ∉ s.world.websocketDescriptor then
      some (s.record (addNewConnectionConnection platform fd headers s.world).2)
    else none
  | .arrive a => some (s.record { s.world with kernel := s.world.kernel.arrive a })
  | .notify fd =>
    match notifyMessageRequest fd s.world with
    | .ok w => some (s.record w)
    | .error _ => none

/-- What the client `c` has received is the answer to its upgrade request and frames, where only a
last frame may be cut. -/
structure WholeFrames (platform : Platform) (s : Feed) (c : ℤ) : Prop where
  calls : ∃ key frames,
    s.ledger c = ⟨upgradeResponse platform key, upgradeSize⟩ :: frames ∧
      ∀ e ∈ frames, ∃ message, e.given = frameBytes message
  lastCut : (s.ledger c).Pairwise fun e e' => e.Cut → e'.accepted = 0
  sentOn_eq : s.world.kernel.sentOn c = (s.ledger c).flatMap Sending.taken

/-- `send` takes the whole answer of a handshake, and no byte for a client of which a frame was
cut. -/
def KeepsWhole (platform : Platform) (s : Feed) : Label → Prop
  | .handshake fd headers =>
    findWebsocketKey platform headers ≠ [] → s.world.kernel.takes fd upgradeSize = true
  | .notify fd =>
    fd ∈ s.world.websocketDescriptor → ∀ c ∈ s.world.websocketDescriptor,
      (∃ e ∈ s.ledger c, e.Cut) → s.world.kernel.room c 1 = 0
  | _ => True

instance (platform : Platform) (s : Feed) : DecidablePred (KeepsWhole platform s)
  | .handshake fd headers => inferInstanceAs (Decidable
      (findWebsocketKey platform headers ≠ [] → s.world.kernel.takes fd upgradeSize = true))
  | .notify fd => inferInstanceAs (Decidable
      (fd ∈ s.world.websocketDescriptor → ∀ c ∈ s.world.websocketDescriptor,
        (∃ e ∈ s.ledger c, e.Cut) → s.world.kernel.room c 1 = 0))
  | .accept _ => isTrue trivial
  | .arrive _ => isTrue trivial

/-! ## What a call sends -/

theorem offers_append (c : ℤ) (calls calls' : List SysCall) :
    offers c (calls ++ calls') = offers c calls ++ offers c calls' :=
  List.filterMap_append

/-- A round of calls gives the same bytes to each number once. -/
theorem offers_map_send {cs : List ℤ} (hcs : cs.Nodup) (bytes : Bytes) (c : ℤ) :
    offers c (cs.map fun fd => .send fd bytes) = if c ∈ cs then [bytes] else [] := by
  induction cs with
  | nil => rfl
  | cons fd cs ih =>
    obtain ⟨hnew, hcs⟩ := List.nodup_cons.mp hcs
    rw [List.map_cons, ← List.singleton_append, offers_append, ih hcs]
    by_cases h : fd = c
    · subst h
      simp [offers, hnew]
    · simp [offers, h, Ne.symm h]

/-- A round of frames adds to each number what its next call of `send` takes. -/
theorem sentOn_foldl_sendFrame {cs : List ℤ} (hcs : cs.Nodup) (message : Bytes) (k : Kernel)
    (c : ℤ) :
    (cs.foldl (fun k c => sendFrame c message k) k).sentOn c = k.sentOn c ++
      if c ∈ cs then (frameBytes message).take (k.room c (frameBytes message).length) else [] := by
  induction cs generalizing k with
  | nil => simp
  | cons fd cs ih =>
    obtain ⟨hnew, hcs⟩ := List.nodup_cons.mp hcs
    rw [List.foldl_cons, ih hcs, sendFrame, Kernel.sentOn_send]
    by_cases h : c = fd
    · subst h
      simp [hnew]
    · rw [if_neg h, List.append_nil, Kernel.room_send_ne k h]
      simp [h]

theorem nodup_ascending (D : Finset ℤ) : (ascending D).Nodup := Finset.sort_nodup D (· ≤ ·)

theorem sentOn_broadcast (D : Finset ℤ) (message : Bytes) (k : Kernel) (c : ℤ) :
    (broadcast D message k).sentOn c = k.sentOn c ++
      if c ∈ D then (frameBytes message).take (k.room c (frameBytes message).length) else [] := by
  rw [broadcast, sentOn_foldl_sendFrame (nodup_ascending D)]
  simp only [mem_ascending]

/-- One call of `send` on each number of `D`, with the same bytes, and nothing else. -/
structure Sends (D : Finset ℤ) (bytes : Bytes) (s s' : Feed) : Prop where
  ledger : ∀ c, s'.ledger c = s.ledger c ++
    if c ∈ D then [⟨bytes, s.world.kernel.room c bytes.length⟩] else []
  sentOn : ∀ c, s'.world.kernel.sentOn c = s.world.kernel.sentOn c ++
    if c ∈ D then bytes.take (s.world.kernel.room c bytes.length) else []

section Step

variable {platform : Platform} {listener : ℤ} {s s' : Feed}

/-- What is recorded of a world behind such calls. -/
theorem sends_record {D : Finset ℤ} {bytes : Bytes} {w : World} {calls : List SysCall}
    (hlog : w.kernel.log = s.world.kernel.log ++ calls)
    (hcalls : ∀ c, offers c calls = if c ∈ D then [bytes] else [])
    (hsent : ∀ c, w.kernel.sentOn c = s.world.kernel.sentOn c ++
      if c ∈ D then bytes.take (s.world.kernel.room c bytes.length) else []) :
    Sends D bytes s (s.record w) := by
  refine ⟨fun c => ?_, hsent⟩
  have hle := s.world.kernel.room_le c bytes.length
  show s.ledger c ++ (offers c (w.kernel.log.drop _)).map _ = _
  rw [hlog, List.drop_left, hcalls, hsent]
  split_ifs
  · simp [hle]
  · rfl

/-- Nothing is sent. -/
theorem silent_record {w : World} (calls : List SysCall)
    (hlog : w.kernel.log = s.world.kernel.log ++ calls) (hcalls : ∀ c, offers c calls = [])
    (hsent : ∀ c, w.kernel.sentOn c = s.world.kernel.sentOn c) : Sends ∅ [] s (s.record w) :=
  sends_record hlog (by simpa using hcalls) (by simpa using hsent)

theorem sends_answer (s : Feed) (fd : ℤ) (bytes : Bytes) (D : Finset ℤ) :
    Sends {fd} bytes s (s.record ⟨s.world.kernel.send fd bytes, D⟩) := by
  apply sends_record (Kernel.log_send ..)
  · intro c
    simpa using offers_map_send (List.nodup_singleton fd) bytes c
  · intro c
    simp only [Finset.mem_singleton]
    exact Kernel.sentOn_send ..

theorem sends_broadcast (s : Feed) (fd : ℤ) (q : Inbox) (message : Bytes) (D : Finset ℤ) :
    Sends D (frameBytes message) s (s.record
      { s.world with kernel := broadcast D message (s.world.kernel.leave fd q) }) := by
  apply sends_record
  · rw [log_broadcast, Kernel.log_leave]
  · intro c
    rw [offers_map_send (nodup_ascending D)]
    simp only [mem_ascending]
  · intro c
    rw [sentOn_broadcast, Kernel.sentOn_leave, Kernel.room_leave]

/-- **What one step can do**: nothing is sent, a new client gets the answer to its handshake, or
every client gets a frame. -/
theorem step_cases {a : Label} (h : step platform listener s a = some s') :
    (KeepsWhole platform s a ∧ Sends ∅ [] s s' ∧
        s'.world.websocketDescriptor = s.world.websocketDescriptor) ∨
      (∃ fd headers, a = .handshake fd headers ∧ findWebsocketKey platform headers ≠ [] ∧
        fd ∉ s.world.websocketDescriptor ∧
        s'.world.websocketDescriptor = insert fd s.world.websocketDescriptor ∧
        Sends {fd} (upgradeResponse platform (findWebsocketKey platform headers)) s s') ∨
      ∃ fd message, a = .notify fd ∧ fd ∈ s.world.websocketDescriptor ∧
        s'.world.websocketDescriptor = s.world.websocketDescriptor ∧
        Sends s.world.websocketDescriptor (frameBytes message) s s' := by
  cases a with
  | accept a =>
    obtain ⟨⟨fd, kernel⟩, haccept, rfl⟩ := Option.map_eq_some_iff.mp h
    refine Or.inl ⟨trivial, silent_record _ (Kernel.log_accept haccept) (fun c => rfl) ?_, rfl⟩
    intro c
    exact Kernel.sentOn_accept haccept c
  | handshake fd headers =>
    rw [step] at h
    split_ifs at h with hnew
    cases h
    by_cases hkey : findWebsocketKey platform headers = []
    · rw [addNewConnectionConnection, if_pos hkey]
      refine Or.inl ⟨fun hne => absurd hkey hne, ?_, rfl⟩
      exact silent_record [] (by simp) (fun c => rfl) fun c => rfl
    · rw [addNewConnectionConnection, if_neg hkey]
      exact Or.inr (Or.inl ⟨fd, headers, rfl, hkey, hnew.2, rfl, sends_answer s fd _ _⟩)
  | arrive a =>
    cases h
    refine Or.inl ⟨trivial, silent_record [] ?_ (fun c => rfl) ?_, rfl⟩
    · simp [Kernel.arrive]
    · exact Kernel.sentOn_modify fun _ => rfl
  | notify fd =>
    rcases hnotify : notifyMessageRequest fd s.world with e | w
    · rw [step, hnotify] at h
      cases h
    · rw [step, hnotify] at h
      cases h
      rcases notifyMessageRequest_cases hnotify with ⟨hfd, rfl⟩ | ⟨hfd, str, q, -, rfl⟩
      · refine Or.inl ⟨fun hmem => absurd hmem hfd, ?_, rfl⟩
        exact silent_record [] (by simp) (fun c => rfl) fun c => rfl
      · exact Or.inr (Or.inr ⟨fd, idMessage fd str, rfl, hfd, rfl, sends_broadcast s fd q _ _⟩)

end Step

/-! ## The run -/

/-- Every client has whole frames, and nothing was sent to another connection. -/
structure Kept (platform : Platform) (s : Feed) : Prop where
  clients : ∀ c ∈ s.world.websocketDescriptor, s.WholeFrames platform c
  others : ∀ c ∉ s.world.websocketDescriptor, s.ledger c = [] ∧ s.world.kernel.sentOn c = []

section Run

variable {platform : Platform} {listener : ℤ} {s s' : Feed}

theorem kept_start (platform : Platform) (listener : ℤ) : Kept platform (start listener) := by
  refine ⟨fun c hc => absurd hc (Finset.notMem_empty c), fun c _ => ⟨rfl, ?_⟩⟩
  by_cases h : c = listener <;> simp [Kernel.sentOn, start, h]

/-- What a connection was sent is unchanged where nothing is sent to it. -/
theorem Sends.unsent {D : Finset ℤ} {bytes : Bytes} (h : Sends D bytes s s') {c : ℤ} (hc : c ∉ D) :
    s'.ledger c = s.ledger c ∧ s'.world.kernel.sentOn c = s.world.kernel.sentOn c := by
  rw [h.ledger, h.sentOn, if_neg hc, if_neg hc, List.append_nil, List.append_nil]
  exact ⟨rfl, rfl⟩

theorem WholeFrames.unsent {c : ℤ} (h : s.WholeFrames platform c)
    (hsame : s'.ledger c = s.ledger c ∧ s'.world.kernel.sentOn c = s.world.kernel.sentOn c) :
    s'.WholeFrames platform c := by
  obtain ⟨hledger, hsent⟩ := hsame
  refine ⟨?_, ?_, ?_⟩
  · rw [hledger]
    exact h.calls
  · rw [hledger]
    exact h.lastCut
  · rw [hledger, hsent]
    exact h.sentOn_eq

theorem length_frameBytes_pos (message : Bytes) : 0 < (frameBytes message).length := by
  simp [frameBytes]

/-- A frame keeps what a client has received whole exactly when none before was cut, or nothing of
it is taken. -/
theorem WholeFrames.frame_iff {c : ℤ} (h : s.WholeFrames platform c) {message : Bytes}
    {D : Finset ℤ} (hsends : Sends D (frameBytes message) s s') (hc : c ∈ D) :
    s'.WholeFrames platform c ↔ ((∃ e ∈ s.ledger c, e.Cut) → s.world.kernel.room c 1 = 0) := by
  have hroom := s.world.kernel.room_eq_zero_iff c (length_frameBytes_pos message)
  have hledger := hsends.ledger c
  rw [if_pos hc] at hledger
  have hpair : (s'.ledger c).Pairwise (fun e e' => e.Cut → e'.accepted = 0) ↔
      ((∃ e ∈ s.ledger c, e.Cut) → s.world.kernel.room c 1 = 0) := by
    rw [hledger, List.pairwise_append, ← hroom]
    simp [h.lastCut]
  rw [← hpair]
  refine ⟨WholeFrames.lastCut, fun hlast => ⟨?_, hlast, ?_⟩⟩
  · obtain ⟨key, frames, hcalls, hframes⟩ := h.calls
    refine ⟨key, frames ++ [_], by rw [hledger, hcalls, List.cons_append], ?_⟩
    intro e he
    rcases List.mem_append.mp he with he | he
    · exact hframes e he
    · rw [List.mem_singleton.mp he]
      exact ⟨message, rfl⟩
  · rw [hledger, hsends.sentOn, if_pos hc, h.sentOn_eq, List.flatMap_append]
    simp [Sending.taken]

/-- The answer to a handshake is whole exactly when `send` takes all of it. -/
theorem wholeFrames_answer_iff {fd : ℤ} {key : Bytes}
    (hnone : s.ledger fd = [] ∧ s.world.kernel.sentOn fd = [])
    (hsends : Sends {fd} (upgradeResponse platform key) s s') :
    s'.WholeFrames platform fd ↔ s.world.kernel.takes fd upgradeSize = true := by
  have hledger := hsends.ledger fd
  have hsent := hsends.sentOn fd
  rw [if_pos (Finset.mem_singleton_self fd), length_upgradeResponse, hnone.1, List.nil_append]
    at hledger
  rw [if_pos (Finset.mem_singleton_self fd), length_upgradeResponse, hnone.2, List.nil_append]
    at hsent
  rw [Kernel.takes_iff _ _ (by decide)]
  constructor
  · intro h
    obtain ⟨key', frames, hcalls, -⟩ := h.calls
    rw [hledger, List.cons.injEq, Sending.mk.injEq] at hcalls
    exact hcalls.1.2
  · intro htakes
    rw [htakes] at hledger
    refine ⟨⟨key, [], hledger, by simp⟩, ?_, ?_⟩
    · rw [hledger]
      exact List.pairwise_singleton ..
    · rw [hledger, hsent, htakes]
      simp [Sending.taken]

theorem Kept.silent (h : Kept platform s) (hsends : Sends ∅ [] s s')
    (hreg : s'.world.websocketDescriptor = s.world.websocketDescriptor) : Kept platform s' := by
  have hsame := fun c => hsends.unsent (Finset.notMem_empty c)
  refine ⟨fun c hc => ?_, fun c hc => ?_⟩
  · rw [hreg] at hc
    exact (h.clients c hc).unsent (hsame c)
  · rw [hreg] at hc
    rw [(hsame c).1, (hsame c).2]
    exact h.others c hc

/-- A new client is answered. -/
theorem Kept.answered (h : Kept platform s) {fd : ℤ} {key : Bytes}
    (hnew : fd ∉ s.world.websocketDescriptor)
    (hreg : s'.world.websocketDescriptor = insert fd s.world.websocketDescriptor)
    (hsends : Sends {fd} (upgradeResponse platform key) s s')
    (htakes : s.world.kernel.takes fd upgradeSize = true) : Kept platform s' := by
  have hsame := fun c (hne : c ≠ fd) => hsends.unsent (Finset.notMem_singleton.mpr hne)
  refine ⟨fun c hc => ?_, fun c hc => ?_⟩
  · by_cases hfd : c = fd
    · subst hfd
      exact (wholeFrames_answer_iff (h.others c hnew) hsends).mpr htakes
    · rw [hreg, Finset.mem_insert, or_iff_right hfd] at hc
      exact (h.clients c hc).unsent (hsame c hfd)
  · rw [hreg, Finset.mem_insert, not_or] at hc
    rw [(hsame c hc.1).1, (hsame c hc.1).2]
    exact h.others c hc.2

/-- Every client is sent a frame, for which one that was cut before has no room. -/
theorem Kept.framed (h : Kept platform s) {message : Bytes}
    (hreg : s'.world.websocketDescriptor = s.world.websocketDescriptor)
    (hsends : Sends s.world.websocketDescriptor (frameBytes message) s s')
    (hroom : ∀ c ∈ s.world.websocketDescriptor,
      (∃ e ∈ s.ledger c, e.Cut) → s.world.kernel.room c 1 = 0) : Kept platform s' := by
  refine ⟨fun c hc => ?_, fun c hc => ?_⟩
  · rw [hreg] at hc
    exact ((h.clients c hc).frame_iff hsends hc).mpr (hroom c hc)
  · rw [hreg] at hc
    rw [(hsends.unsent hc).1, (hsends.unsent hc).2]
    exact h.others c hc

theorem Kept.step {a : Label} (h : Kept platform s) (hok : KeepsWhole platform s a)
    (hstep : step platform listener s a = some s') : Kept platform s' := by
  rcases step_cases hstep with ⟨-, hsends, hreg⟩ | ⟨fd, headers, rfl, hkey, hnew, hreg, hsends⟩ |
    ⟨fd, message, rfl, hfd, hreg, hsends⟩
  · exact h.silent hsends hreg
  · exact h.answered hnew hreg hsends (hok hkey)
  · exact h.framed hreg hsends (hok hfd)

/-- A step that does not keep the frames whole leaves a client with a cut answer, or with bytes
behind a cut frame. -/
theorem Kept.broken {a : Label} (h : Kept platform s) (hok : ¬ KeepsWhole platform s a)
    (hstep : Feed.step platform listener s a = some s') :
    ∃ c ∈ s'.world.websocketDescriptor, ¬ s'.WholeFrames platform c := by
  rcases step_cases hstep with ⟨hkeeps, -⟩ | ⟨fd, headers, rfl, hkey, hnew, hreg, hsends⟩ |
    ⟨fd, message, rfl, hfd, hreg, hsends⟩
  · exact absurd hkeeps hok
  · refine ⟨fd, hreg ▸ Finset.mem_insert_self .., fun hwhole => hok fun _ => ?_⟩
    exact (wholeFrames_answer_iff (h.others fd hnew) hsends).mp hwhole
  · by_contra hall
    apply hok
    intro _ c hc
    have hwhole : s'.WholeFrames platform c := by
      by_contra hnot
      exact hall ⟨c, hreg ▸ hc, hnot⟩
    exact ((h.clients c hc).frame_iff hsends hc).mp hwhole

/-- **Whole frames.** In every run in which `send` takes the whole answer of each handshake, and
nothing for a client of which a frame was cut, every client has received the answer and whole
frames, but for a last one. In a state so reached, any other step leaves a client for which this
is not so. -/
theorem wholeFrames_of_reached (platform : Platform) (listener : ℤ) {s : Feed}
    (hrun : Reached (step platform listener) (KeepsWhole platform) (start listener) s) :
    (∀ c ∈ s.world.websocketDescriptor, s.WholeFrames platform c) ∧
      ∀ a s', step platform listener s a = some s' → ¬ KeepsWhole platform s a →
        ∃ c ∈ s'.world.websocketDescriptor, ¬ s'.WholeFrames platform c := by
  have hkept : Kept platform s := hrun.invariant (kept_start platform listener)
    fun s a s' h hok hstep => h.step hok hstep
  exact ⟨hkept.clients, fun a s' hstep hok => hkept.broken hok hstep⟩

end Run

/-- A client is accepted and answered. It sends two frames, and has room for some bytes of the
first broadcast and then as given. -/
def cutShort (outbox : List (Option ℕ)) : List Label :=
  [.accept ⟨5, [], []⟩, .handshake 5 upgradeHeaders,
    .arrive ⟨5, [some [0x81, 2, 0x48, 0x69], some [0x81, 2, 0x48, 0x69]], some 3 :: outbox⟩,
    .notify 5, .notify 5]

/-- The calls made on the client. -/
def cutLedger (accepted : ℕ) : List Sending :=
  [⟨upgradeResponse .plain (lit "dGhlIHNhbXBsZSBub25jZQ=="), upgradeSize⟩,
    ⟨frameBytes (idMessage 5 (lit "Hi")), 3⟩, ⟨frameBytes (idMessage 5 (lit "Hi")), accepted⟩]

/-- It has no room for the second broadcast. -/
theorem wholeFrames_refused : ∃ s : Feed, s.ledger 5 = cutLedger 0 ∧
    s.WholeFrames .plain 5 := by
  have hrun : (run (step .plain 3) (KeepsWhole .plain) (start 3)
      (cutShort [none])).any (fun s => 5 ∈ s.world.websocketDescriptor ∧
        s.ledger 5 = cutLedger 0) = true := by
    decide +kernel
  obtain ⟨s, hs, hclient, hledger⟩ := exists_reached hrun
  exact ⟨s, hledger, (wholeFrames_of_reached .plain 3 hs).1 5 hclient⟩

/-- It takes the second frame behind three bytes of the first. -/
theorem not_wholeFrames_cut :
    ¬ ∀ s, Reached (step .plain 3) anyStep (start 3) s →
      ∀ c ∈ s.world.websocketDescriptor, s.WholeFrames .plain c := by
  intro h
  have hrun : (run (step .plain 3) anyStep (start 3) (cutShort [])).any
      (fun s => 5 ∈ s.world.websocketDescriptor ∧ s.ledger 5 = cutLedger 11) = true := by
    decide +kernel
  obtain ⟨s, hs, hclient, hledger⟩ := exists_reached hrun
  have hlast := (h s hs 5 hclient).lastCut
  rw [hledger] at hlast
  exact absurd hlast (by decide +kernel)

end Feed

end SimpleServer
