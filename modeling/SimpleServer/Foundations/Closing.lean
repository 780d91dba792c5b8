import SimpleServer.Foundations.Kernel

/-!
# Closing each descriptor once

What it means, on the record of a process's calls, that `close` is only called on open numbers
and at most once between two calls of `accept` that return a number. `Tidy` adds what keeps this
so: a number closed since it was last accepted is not open. Of the calls of a process, only
`close` has to be given an open number (`Tidy.close`).
-/

namespace Posix

open Cxx

/-- `close` is only called on open numbers. -/
def ClosesOpen (log : List SysCall) : Prop :=
  ∀ fd wasOpen, .close fd wasOpen ∈ log → wasOpen = true

/-- Between two calls of `close` on a number, `accept` returns it. -/
def ClosesOnce (log : List SysCall) : Prop :=
  ∀ fd before b₁ between b₂ after,
    log = before ++ .close fd b₁ :: (between ++ .close fd b₂ :: after) → .accept fd ∈ between

/-- A number has been closed since `accept` last returned it. -/
def ClosedSince (log : List SysCall) (fd : ℤ) : Prop :=
  ∃ before b after, log = before ++ .close fd b :: after ∧ .accept fd ∉ after

/-- `accept` has returned a number, which has not been closed since. -/
def Held (log : List SysCall) (fd : ℤ) : Prop :=
  ∃ before after, log = before ++ .accept fd :: after ∧ ∀ b, .close fd b ∉ after

/-- An element of a list with a last one is that last one or stands before it. -/
theorem concat_eq_append_cons_iff {α : Type*} {l before after : List α} {a c : α} :
    l ++ [a] = before ++ c :: after ↔
      (l = before ∧ a = c ∧ after = []) ∨
        ∃ rest, l = before ++ c :: rest ∧ after = rest ++ [a] := by
  constructor
  · intro h
    rcases List.eq_nil_or_concat after with rfl | ⟨rest, last, rfl⟩
    · obtain ⟨hl, ha⟩ := List.append_inj' h rfl
      exact Or.inl ⟨hl, List.singleton_inj.mp ha, rfl⟩
    · have h : l ++ [a] = (before ++ c :: rest) ++ [last] := by simpa using h
      obtain ⟨hl, ha⟩ := List.append_inj' h rfl
      refine Or.inr ⟨rest, hl, ?_⟩
      rw [List.concat_eq_append, List.singleton_inj.mp ha]
  · rintro (⟨rfl, rfl, rfl⟩ | ⟨rest, rfl, rfl⟩) <;> simp

section Log

variable {log : List SysCall} {call : SysCall} {fd : ℤ}

theorem closedSince_concat :
    ClosedSince (log ++ [call]) fd ↔
      (∃ b, call = .close fd b) ∨ (ClosedSince log fd ∧ call ≠ .accept fd) := by
  constructor
  · rintro ⟨before, b, after, heq, hafter⟩
    rcases concat_eq_append_cons_iff.mp heq with ⟨-, hcall, -⟩ | ⟨rest, hlog, rfl⟩
    · exact Or.inl ⟨b, hcall⟩
    · rw [List.mem_append, List.mem_singleton, not_or] at hafter
      exact Or.inr ⟨⟨before, b, rest, hlog, hafter.1⟩, fun hcall => hafter.2 hcall.symm⟩
  · rintro (⟨b, rfl⟩ | ⟨⟨before, b, after, rfl, hafter⟩, hcall⟩)
    · exact ⟨log, b, [], rfl, List.not_mem_nil⟩
    · refine ⟨before, b, after ++ [call], by simp, ?_⟩
      rw [List.mem_append, List.mem_singleton, not_or]
      exact ⟨hafter, hcall.symm⟩

theorem held_concat :
    Held (log ++ [call]) fd ↔
      call = .accept fd ∨ (Held log fd ∧ ∀ b, call ≠ .close fd b) := by
  constructor
  · rintro ⟨before, after, heq, hafter⟩
    rcases concat_eq_append_cons_iff.mp heq with ⟨-, hcall, -⟩ | ⟨rest, hlog, rfl⟩
    · exact Or.inl hcall
    · simp only [List.mem_append, List.mem_singleton, not_or] at hafter
      exact Or.inr ⟨⟨before, rest, hlog, fun b => (hafter b).1⟩, fun b hb => (hafter b).2 hb.symm⟩
  · rintro (rfl | ⟨⟨before, after, rfl, hafter⟩, hcall⟩)
    · exact ⟨log, [], rfl, fun b => List.not_mem_nil⟩
    · refine ⟨before, after ++ [call], by simp, fun b => ?_⟩
      rw [List.mem_append, List.mem_singleton, not_or]
      exact ⟨hafter b, fun h => hcall b h.symm⟩

theorem closesOnce_concat :
    ClosesOnce (log ++ [call]) ↔
      ClosesOnce log ∧ ∀ fd b, call = .close fd b → ¬ ClosedSince log fd := by
  constructor
  · intro h
    refine ⟨fun fd before b₁ between b₂ after heq => ?_, ?_⟩
    · exact h fd before b₁ between b₂ (after ++ [call]) (by simp [heq])
    · rintro fd b rfl ⟨before, b₁, after, rfl, hafter⟩
      exact hafter (h fd before b₁ after b [] (by simp))
  · rintro ⟨honce, hcall⟩ fd before b₁ between b₂ after heq
    rw [← List.cons_append, ← List.append_assoc] at heq
    rcases concat_eq_append_cons_iff.mp heq with ⟨hlog, hlast, -⟩ | ⟨rest, hlog, -⟩
    · by_contra hnot
      exact hcall fd b₂ hlast ⟨before, b₁, between, hlog, hnot⟩
    · exact honce fd before b₁ between b₂ rest (by simpa using hlog)

theorem closesOpen_concat :
    ClosesOpen (log ++ [call]) ↔ ClosesOpen log ∧ ∀ fd b, call = .close fd b → b = true := by
  simp only [ClosesOpen, List.mem_append, List.mem_singleton]
  constructor
  · intro h
    exact ⟨fun fd b hmem => h fd b (Or.inl hmem), fun fd b hcall => h fd b (Or.inr hcall.symm)⟩
  · rintro ⟨hlog, hcall⟩ fd b (hmem | hmem)
    · exact hlog fd b hmem
    · exact hcall fd b hmem.symm

/-- The record of calls of `send`. -/
def sends (sent : List (ℤ × Bytes)) : List SysCall := sent.map fun s => .send s.1 s.2

theorem append_sends_concat (log : List SysCall) (sent : List (ℤ × Bytes)) (s : ℤ × Bytes) :
    log ++ sends (sent ++ [s]) = (log ++ sends sent) ++ [.send s.1 s.2] := by
  simp [sends]

theorem closedSince_sends (sent : List (ℤ × Bytes)) :
    ClosedSince (log ++ sends sent) fd ↔ ClosedSince log fd := by
  induction sent using List.reverseRecOn with
  | nil => simp [sends]
  | append_singleton sent s ih =>
    rw [append_sends_concat, closedSince_concat, ih]
    simp

theorem held_sends (sent : List (ℤ × Bytes)) : Held (log ++ sends sent) fd ↔ Held log fd := by
  induction sent using List.reverseRecOn with
  | nil => simp [sends]
  | append_singleton sent s ih =>
    rw [append_sends_concat, held_concat, ih]
    simp

theorem closesOnce_sends (sent : List (ℤ × Bytes)) :
    ClosesOnce (log ++ sends sent) ↔ ClosesOnce log := by
  induction sent using List.reverseRecOn with
  | nil => simp [sends]
  | append_singleton sent s ih =>
    rw [append_sends_concat, closesOnce_concat, ih]
    simp

theorem closesOpen_sends (sent : List (ℤ × Bytes)) :
    ClosesOpen (log ++ sends sent) ↔ ClosesOpen log := by
  simp [ClosesOpen, sends]

end Log

/-! ## The calls on a number -/

/-- The number that a call is about. -/
def SysCall.fd : SysCall → ℤ
  | accept fd => fd
  | send fd _ => fd
  | close fd _ => fd

/-- The calls on a number. -/
def callsOn (fd : ℤ) (log : List SysCall) : List SysCall := log.filter fun c => c.fd = fd

theorem callsOn_append (fd : ℤ) (log calls : List SysCall) :
    callsOn fd (log ++ calls) = callsOn fd log ++ callsOn fd calls := List.filter_append ..

theorem callsOn_of_forall {fd : ℤ} {calls : List SysCall} (h : ∀ c ∈ calls, c.fd = fd) :
    callsOn fd calls = calls := List.filter_eq_self.mpr (by simpa using h)

theorem callsOn_of_ne {fd fd' : ℤ} {calls : List SysCall} (h : ∀ c ∈ calls, c.fd = fd)
    (hne : fd' ≠ fd) : callsOn fd' calls = [] := by
  rw [callsOn, List.filter_eq_nil_iff]
  intro c hc
  simp [h c hc, Ne.symm hne]

/-! ## Processes that close each descriptor once -/

/-- Every call of `close` was on an open number, at most one since its `accept`, and numbers
closed since are not open. -/
structure Tidy (k : Kernel) : Prop where
  opened : ClosesOpen k.log
  once : ClosesOnce k.log
  closed : ∀ fd, ClosedSince k.log fd → k.table fd = none

/-- Two kernels between which no descriptor is opened or closed, and nothing was called but
`send`. -/
structure Kernel.Talks (k k' : Kernel) : Prop where
  grows : k.Grows k'
  log : ∃ sent : List (ℤ × Bytes), k'.log = k.log ++ sends sent

namespace Kernel.Talks

variable {k k' k'' : Kernel}

theorem refl (k : Kernel) : k.Talks k := ⟨.refl k, [], by simp [sends]⟩

theorem trans (h : k.Talks k') (h' : k'.Talks k'') : k.Talks k'' := by
  obtain ⟨sent, hlog⟩ := h.log
  obtain ⟨sent', hlog'⟩ := h'.log
  exact ⟨h.grows.trans h'.grows, sent ++ sent', by simp [hlog', hlog, sends]⟩

theorem isOpen (h : k.Talks k') {fd : ℤ} (hopen : k.isOpen fd = true) : k'.isOpen fd = true := by
  rw [Kernel.isOpen] at hopen ⊢
  rcases hd : k.table fd with _ | _ | c
  · rw [hd] at hopen
    cases hopen
  · rw [h.grows.listener hd]
    rfl
  · obtain ⟨c', hc', -⟩ := h.grows.conn hd
    rw [hc']
    rfl

end Kernel.Talks

/-- The results of the calls of `accept`. -/
def accepts (log : List SysCall) : List ℤ :=
  log.filterMap fun
    | .accept fd => some fd
    | _ => none

theorem Kernel.Talks.accepts {k k' : Kernel} (h : k.Talks k') : accepts k'.log = accepts k.log := by
  obtain ⟨sent, hlog⟩ := h.log
  rw [hlog, Posix.accepts, List.filterMap_append]
  simp [sends, List.filterMap_map, Posix.accepts]

namespace Kernel

theorem accepts_close (k : Kernel) (fd : ℤ) : accepts (k.close fd).log = accepts k.log := by
  simp [close, accepts]

theorem accepts_accept {k k' : Kernel} {listener fd : ℤ} {accepted : Option Arrival}
    (h : k.accept listener accepted = some (fd, k')) :
    accepts k'.log = accepts k.log ++ [fd] := by
  simp [log_accept h, accepts]

theorem talks_leave (k : Kernel) (fd : ℤ) (q : Inbox) : k.Talks (k.leave fd q) :=
  ⟨k.grows_leave fd q, [], by simp [sends]⟩

theorem talks_recv (k : Kernel) (fd : ℤ) (n : ℕ) : k.Talks (k.recv fd n).2 := k.talks_leave fd _

theorem talks_send (k : Kernel) (fd : ℤ) (bytes : Bytes) : k.Talks (k.send fd bytes) :=
  ⟨k.grows_send fd bytes, [(fd, bytes)], k.log_send fd bytes⟩

theorem talks_arrive (k : Kernel) (a : Arrival) : k.Talks (k.arrive a) :=
  ⟨k.grows_arrive a, [], by simp [arrive, sends]⟩

end Kernel

namespace Tidy

variable {k k' : Kernel}

theorem of_log_eq_nil (h : k.log = []) : Tidy k where
  opened := by simp [ClosesOpen, h]
  once := by simp [ClosesOnce, h]
  closed := by simp [ClosedSince, h]

theorem talks (h : Tidy k) (htalks : k.Talks k') : Tidy k' := by
  obtain ⟨sent, hlog⟩ := htalks.log
  refine ⟨?_, ?_, fun fd hsince => ?_⟩
  · rw [hlog, closesOpen_sends]
    exact h.opened
  · rw [hlog, closesOnce_sends]
    exact h.once
  · rw [hlog, closedSince_sends] at hsince
    exact htalks.grows.none (h.closed fd hsince)

/-- An open number can be closed. -/
theorem close (h : Tidy k) {fd : ℤ} (hopen : k.isOpen fd = true) : Tidy (k.close fd) where
  opened := closesOpen_concat.mpr ⟨h.opened, by
    intro fd' b hcall
    cases hcall
    exact hopen⟩
  once := closesOnce_concat.mpr ⟨h.once, by
    intro fd' b hcall hsince
    cases hcall
    rw [Kernel.isOpen, h.closed fd hsince] at hopen
    cases hopen⟩
  closed fd' hsince := by
    by_cases hfd : fd' = fd
    · rw [hfd]
      exact Function.update_self ..
    · rcases closedSince_concat.mp hsince with ⟨b, hcall⟩ | ⟨hsince, -⟩
      · cases hcall
        exact absurd rfl hfd
      · exact (Function.update_of_ne hfd ..).trans (h.closed fd' hsince)

/-- A number that `accept` returns was not open, and is open now. -/
theorem accept (h : Tidy k) {listener fd : ℤ} {accepted : Option Arrival}
    (haccept : k.accept listener accepted = some (fd, k')) : Tidy k' := by
  have hlog : k'.log = k.log ++ [.accept fd] := Kernel.log_accept haccept
  refine ⟨?_, ?_, fun fd' hsince => ?_⟩
  · rw [hlog, closesOpen_concat]
    exact ⟨h.opened, by simp⟩
  · rw [hlog, closesOnce_concat]
    exact ⟨h.once, by simp⟩
  · rw [hlog, closedSince_concat] at hsince
    obtain ⟨b, hcall⟩ | ⟨hsince, hne⟩ := hsince
    · cases hcall
    rw [Kernel.table_accept_ne haccept fun e => hne (e ▸ rfl)]
    exact h.closed fd' hsince

end Tidy

/-- A number that is not open must not be closed. -/
theorem not_closesOpen_close {k : Kernel} {fd : ℤ} (h : k.isOpen fd = false) :
    ¬ ClosesOpen (k.close fd).log := by
  intro hopen
  have hlast := (closesOpen_concat.mp hopen).2 fd _ rfl
  rw [h] at hlast
  cases hlast

end Posix
