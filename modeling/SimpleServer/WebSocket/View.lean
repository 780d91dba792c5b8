import SimpleServer.Http.Server
import SimpleServer.WebSocket.WholeFrames

/-!
# What the clients see

The calls of `notify_message_request` read and send on registered numbers only, so that they are the
same when the other numbers are not there (`notifyMessageRequest_restrict`), and what is recorded of
them is the same (`record_restrict`). A request that is no upgrade changes one number, and there are
no calls on another (`Apart.of_handled`).
-/

namespace SimpleServer

open Cxx Posix

/-- What is seen on the numbers of `D` alone. -/
def World.restrict (w : World) (D : Finset ℤ) : World :=
  { w with kernel := w.kernel.restrict D }

namespace Feed

def restrict (s : Feed) (D : Finset ℤ) : Feed where
  world := s.world.restrict D
  ledger c := if c ∈ D then s.ledger c else []

variable {s : Feed} {w : World} {D : Finset ℤ}

/-- A step that sends nothing on other numbers is recorded as it is seen. -/
theorem record_restrict {calls : List SysCall}
    (hlog : w.kernel.log = s.world.kernel.log ++ calls)
    (hother : ∀ c ∉ D, offers c calls = []) :
    (s.restrict D).record (w.restrict D) = (s.record w).restrict D := by
  refine congrArg (Feed.mk _) (funext fun c => ?_)
  have hcalls : w.kernel.log.drop s.world.kernel.log.length = calls := by rw [hlog, List.drop_left]
  have hseen : (w.kernel.restrict D).log.drop (s.world.kernel.restrict D).log.length = calls :=
    hcalls
  by_cases hc : c ∈ D
  · simp only [record, restrict, World.restrict, hcalls, hseen, Kernel.sentOn_restrict hc,
      if_pos hc]
  · simp only [restrict, World.restrict, hseen, hother c hc, if_neg hc, List.map_nil,
      List.append_nil]

/-- A step that sends nothing on the numbers that are seen. -/
theorem silent_restrict {calls : List SysCall} (hlog : w.kernel.log = s.world.kernel.log ++ calls)
    (hcalls : ∀ c ∈ D, offers c calls = [])
    (hsent : ∀ c ∈ D, w.kernel.sentOn c = s.world.kernel.sentOn c) :
    Sends ∅ [] (s.restrict D) ((s.record w).restrict D) := by
  refine ⟨fun c => ?_, fun c => ?_⟩
  · rw [if_neg (Finset.notMem_empty c), List.append_nil]
    by_cases hc : c ∈ D
    · simp [restrict, record, hc, hlog, hcalls c hc]
    · simp [restrict, hc]
  · rw [if_neg (Finset.notMem_empty c), List.append_nil]
    by_cases hc : c ∈ D
    · exact (Kernel.sentOn_restrict hc).trans ((hsent c hc).trans (Kernel.sentOn_restrict hc).symm)
    · exact (Kernel.sentOn_restrict_of_notMem hc).trans (Kernel.sentOn_restrict_of_notMem hc).symm

end Feed

theorem restrict_broadcast {D : Finset ℤ} (message : Bytes) (k : Kernel) :
    (broadcast D message k).restrict D = broadcast D message (k.restrict D) := by
  have hfold : ∀ cs : List ℤ, (∀ c ∈ cs, c ∈ D) → ∀ k : Kernel,
      (cs.foldl (fun k c => sendFrame c message k) k).restrict D =
        cs.foldl (fun k c => sendFrame c message k) (k.restrict D) := by
    intro cs
    induction cs with
    | nil => exact fun _ _ => rfl
    | cons c cs ih =>
      intro hcs k
      obtain ⟨hc, hcs⟩ := List.forall_mem_cons.mp hcs
      rw [List.foldl_cons, List.foldl_cons, ih hcs, sendFrame, sendFrame, Kernel.restrict_send hc]
  exact hfold _ (fun c hc => mem_ascending.mp hc) k

/-- A call sees clients only. -/
theorem notifyMessageRequest_restrict {fd : ℤ} {w w' : World}
    (h : notifyMessageRequest fd w = .ok w') :
    notifyMessageRequest fd (w.restrict w.websocketDescriptor) =
      .ok (w'.restrict w.websocketDescriptor) := by
  rcases notifyMessageRequest_cases h with ⟨hfd, rfl⟩ | ⟨hfd, str, q, hread, rfl⟩
  · exact if_neg hfd
  · have hseen : readFrame ((w.kernel.restrict w.websocketDescriptor).inbox fd) = .ok (str, q) := by
      rw [Kernel.inbox_restrict hfd, hread]
    have hfd' : fd ∈ (w.restrict w.websocketDescriptor).websocketDescriptor := hfd
    rw [notifyMessageRequest, if_pos hfd']
    simp only [World.restrict, hseen, restrict_broadcast, Kernel.restrict_leave hfd]

theorem offers_notifyMessageRequest {fd : ℤ} {w w' : World}
    (h : notifyMessageRequest fd w = .ok w') :
    ∃ calls, w'.kernel.log = w.kernel.log ++ calls ∧
      ∀ c ∉ w.websocketDescriptor, Feed.offers c calls = [] := by
  rcases notifyMessageRequest_cases h with ⟨-, rfl⟩ | ⟨-, str, q, -, rfl⟩
  · exact ⟨[], (List.append_nil _).symm, fun _ _ => rfl⟩
  · refine ⟨_, by rw [log_broadcast, Kernel.log_leave], fun c hc => ?_⟩
    rw [Feed.offers_map_send (Feed.nodup_ascending _), if_neg (mt mem_ascending.mp hc)]

/-- A change of one number, with calls on no other. -/
structure Apart (fd : ℤ) (w w' : World) : Prop where
  log : ∃ calls, w'.kernel.log = w.kernel.log ++ calls ∧ ∀ c, c ≠ fd → Feed.offers c calls = []
  table : ∀ c, c ≠ fd → w'.kernel.table c = w.kernel.table c
  registry : w'.websocketDescriptor = w.websocketDescriptor

namespace Apart

variable {fd : ℤ} {w w' w'' : World}

theorem refl (fd : ℤ) (w : World) : Apart fd w w :=
  ⟨⟨[], (List.append_nil _).symm, fun _ _ => rfl⟩, fun _ _ => rfl, rfl⟩

theorem trans (h : Apart fd w w') (h' : Apart fd w' w'') : Apart fd w w'' := by
  obtain ⟨calls, hlog, hcalls⟩ := h.log
  obtain ⟨calls', hlog', hcalls'⟩ := h'.log
  refine ⟨⟨calls ++ calls', by rw [hlog', hlog, List.append_assoc], fun c hc => ?_⟩,
    fun c hc => (h'.table c hc).trans (h.table c hc), h'.registry.trans h.registry⟩
  rw [Feed.offers_append, hcalls c hc, hcalls' c hc, List.append_nil]

theorem accept {k : Kernel} {listener : ℤ} {accepted : Option Arrival}
    (h : w.kernel.accept listener accepted = some (fd, k)) :
    Apart fd w { w with kernel := k } :=
  ⟨⟨_, Kernel.log_accept h, fun _ _ => rfl⟩, fun _ hc => Kernel.table_accept_ne h hc, rfl⟩

theorem recv (fd : ℤ) (n : ℕ) (w : World) :
    Apart fd w { w with kernel := (w.kernel.recv fd n).2 } :=
  ⟨⟨[], (Kernel.log_leave ..).trans (List.append_nil _).symm, fun _ _ => rfl⟩,
    fun _ hc => Kernel.table_modify_ne hc _, rfl⟩

theorem send (fd : ℤ) (bytes : Bytes) (w : World) :
    Apart fd w { w with kernel := w.kernel.send fd bytes } := by
  refine ⟨⟨_, Kernel.log_send .., fun c hc => ?_⟩, fun _ hc => Kernel.table_modify_ne hc _, rfl⟩
  simp [Feed.offers, hc.symm]

theorem close (fd : ℤ) (w : World) : Apart fd w { w with kernel := w.kernel.close fd } :=
  ⟨⟨_, rfl, fun _ _ => rfl⟩, fun _ hc => Function.update_of_ne hc .., rfl⟩

/-- A request that is no upgrade is answered on its own connection. -/
theorem of_handled {platform : Platform} {routes : RoutesMap}
    (h : Handled platform routes fd w w')
    (hplain : ∀ request, firstRequest (w.kernel.inbox fd) = some request →
      upgrades platform request.headers = false) : Apart fd w w' := by
  have hrecv := recv fd 2048 w
  cases h with
  | nothing hread => exact hrecv
  | upgrade request hrequest hup =>
    rw [hplain request hrequest] at hup
    cases hup
  | response request hrequest hup response closefd hrespond =>
    have hsend := hrecv.trans (send fd response _)
    cases closefd with
    | true => exact hsend.trans (close fd _)
    | false => exact hsend

end Apart

end SimpleServer
