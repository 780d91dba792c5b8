import SimpleServer.Foundations.Erasing
import SimpleServer.Tcp.Dispatch

/-!
# One pass over the polled descriptors

The `for` loop of `tcp_poll_handler::accept_and_process_message`, run from its first entry to its
end with given answers of `accept` and `recv`. The loop erases an entry with `remove_socket` and
increments its index all the same, so that it passes over the entry behind (`pass_eq`), and it
asks for `POLLHUP` and `POLLOUT` before `POLLIN`. A failed peek is a disconnection for it, also
when the call would only have blocked. `exhaustive_iff` says when a pass serves every readable
descriptor and removes exactly the clients that are gone all the same.
-/

namespace SimpleServer

open Cxx Posix Runs Erasing

/-- What a `recv` that peeks reports. -/
inductive Peek
  /-- `n + 1` bytes. -/
  | bytes (n : ℕ)
  | endOfStream
  /-- `EAGAIN` or `EWOULDBLOCK`. -/
  | wouldBlock
  | failed
  deriving DecidableEq

/-- The result of the call. -/
def Peek.valread : Peek → ℤ
  | bytes n => n + 1
  | endOfStream => 0
  | wouldBlock => -1
  | failed => -1

/-- What a pass gets from outside: `accept` a descriptor or an error, a peek by its descriptor its
report, and the handler that is called for the entry of a descriptor throws or returns. -/
structure Answers where
  accepted : Option ℕ
  peek : ℤ → Peek
  throws : ℤ → Bool

/-- The result of `accept`. -/
def Answers.newConnection (answers : Answers) : ℤ :=
  match answers.accepted with
  | none => -1
  | some fd => fd

namespace PollLoop

/-! ## The pass -/

/-- The entry that the `for` loop looks at. -/
def current (s : PollLoop) : Option PollFd :=
  match s.phase with
  | .scanning i => s.pollFds[i]?
  | _ => none

/-- The body of the `for` loop with the answers. -/
def label (answers : Answers) (s : PollLoop) : PollLoopLabel :=
  match s.current with
  | some p => .serve answers.newConnection (answers.peek p.fd).valread (answers.throws p.fd)
  | none => .serve answers.newConnection 0 false

/-- The entry is served: a connection is accepted, or a client is read. -/
def serves (s : PollLoop) (p : PollFd) : Bool :=
  match s.branch p with
  | .accept => true
  | .client => true
  | _ => false

/-- The entry is removed when the loop comes to it. -/
def drops (answers : Answers) (s : PollLoop) (p : PollFd) : Bool :=
  match s.branch p with
  | .hangUp => true
  | .client => (answers.peek p.fd).valread ≤ 0
  | _ => false

/-- The entry ends the process when the loop comes to it: its handler is called and throws. -/
def fails (answers : Answers) (s : PollLoop) (p : PollFd) : Bool :=
  match s.branch p with
  | .accept => answers.throws p.fd
  | .client => 0 < (answers.peek p.fd).valread && answers.throws p.fd
  | _ => false

/-- The descriptors that the body of the `for` loop serves. -/
def services (s : PollLoop) : List ℤ :=
  ((s.current.filter s.serves).map PollFd.fd).toList

/-- The `for` loop up to its end: the descriptors served in order, and the state behind it. -/
def passFrom (answers : Answers) : ℕ → PollLoop → Option (List ℤ × PollLoop)
  | 0, _ => none
  | fuel + 1, s =>
    if s.phase = .polling then some ([], s)
    else
      (s.step (s.label answers)).bind fun s' =>
        (passFrom answers fuel s').map fun (serviced, final) => (s.services ++ serviced, final)

/-- A pass of the `for` loop; each entry adds at most one. -/
def pass (answers : Answers) (s : PollLoop) : Option (List ℤ × PollLoop) :=
  passFrom answers (2 * s.pollFds.length + 2) s

/-! ## What a pass comes to -/

variable {answers : Answers} {s s₀ : PollLoop} {p : PollFd} {before todo new rest : List PollFd}
  {i fuel : ℕ}

theorem branch_congr (h : s.serverFd = s₀.serverFd) (p : PollFd) : s.branch p = s₀.branch p := by
  rw [branch, branch, h]

theorem serves_congr (h : s.serverFd = s₀.serverFd) (p : PollFd) : s.serves p = s₀.serves p := by
  rw [serves, serves, branch_congr h]

theorem drops_congr (h : s.serverFd = s₀.serverFd) (p : PollFd) :
    s.drops answers p = s₀.drops answers p := by
  rw [drops, drops, branch_congr h]

theorem fails_congr (h : s.serverFd = s₀.serverFd) (p : PollFd) :
    s.fails answers p = s₀.fails answers p := by
  rw [fails, fails, branch_congr h]

theorem branch_new (s : PollLoop) (fd : ℤ) : s.branch (.new fd) = .idle := rfl

/-- The connection accepted is idle until the next call of `poll`. -/
def Fresh (p : PollFd) : Prop := ∃ fd, p = .new fd

theorem Answers.neg_one_le_newConnection (answers : Answers) : -1 ≤ answers.newConnection := by
  rw [Answers.newConnection]
  cases answers.accepted with
  | none => exact le_refl _
  | some fd => show (-1 : ℤ) ≤ fd; omega

/-- What the body of the `for` loop does to the list and the phase. -/
theorem serveEntry_eq (answers : Answers) (s : PollLoop) (p : PollFd) :
    ∃ s' added, serveEntry answers.newConnection (answers.peek p.fd).valread (answers.throws p.fd)
        p s = some s' ∧
      s'.serverFd = s.serverFd ∧
      s'.phase = (bif s.fails answers p then .aborted else s.phase) ∧
      s'.pollFds = (bif s.drops answers p then s.pollFds.eraseP (·.fd = p.fd) else s.pollFds) ++
        added ∧
      added.length ≤ 1 ∧ ∀ a ∈ added, Fresh a := by
  rw [serveEntry, drops, fails]
  cases s.branch p with
  | hangUp => exact ⟨_, [], rfl, rfl, rfl, (List.append_nil _).symm, by simp, by simp⟩
  | accept =>
    refine ⟨_, [.new answers.newConnection], if_pos (Answers.neg_one_le_newConnection answers),
      rfl, ?_, rfl, le_refl _, ?_⟩
    · exact (Bool.cond_eq_ite _ _ _).symm
    · intro a ha
      exact ⟨_, List.mem_singleton.mp ha⟩
  | client =>
    by_cases hle : (answers.peek p.fd).valread ≤ 0
    · refine ⟨_, [], congrArg some (if_pos hle), rfl, ?_, ?_, by simp, by simp⟩
      · rw [decide_eq_false (not_lt.mpr hle)]
        rfl
      · rw [decide_eq_true hle, List.append_nil]
        rfl
    · refine ⟨_, [], congrArg some (if_neg hle), rfl, ?_, ?_, by simp, by simp⟩
      · rw [decide_eq_true (not_le.mp hle), Bool.true_and]
        exact (Bool.cond_eq_ite _ _ _).symm
      · rw [decide_eq_false hle, List.append_nil]
        rfl
  | _ => exact ⟨s, [], rfl, rfl, rfl, (List.append_nil _).symm, by simp, by simp⟩

theorem step_of_current (hphase : s.phase = .scanning i) (hp : s.pollFds[i]? = some p) :
    s.step (s.label answers) =
      serveEntry answers.newConnection (answers.peek p.fd).valread (answers.throws p.fd) p
        { s with phase := .scanning (i + 1) } := by
  have hcurrent : s.current = some p := by rw [current, hphase]; exact hp
  rw [label, hcurrent]
  simp only [step, hphase, hp]

theorem services_of_current (hphase : s.phase = .scanning i) (hp : s.pollFds[i]? = some p) :
    s.services = ([p].filter s.serves).map PollFd.fd := by
  have hcurrent : s.current = some p := by rw [current, hphase]; exact hp
  rw [services, hcurrent, List.filter_singleton]
  cases h : s.serves p with
  | true => simp [h]
  | false => simp [h]

theorem passFrom_succ {s' : PollLoop} (hphase : s.phase = .scanning i)
    (hstep : s.step (s.label answers) = some s') :
    passFrom answers (fuel + 1) s =
      (passFrom answers fuel s').map fun (serviced, final) => (s.services ++ serviced, final) := by
  rw [passFrom, if_neg (by rw [hphase]; exact Phase.noConfusion), hstep]
  rfl

/-- The exception of a handler ends the process. -/
theorem passFrom_aborted (hphase : s.phase = .aborted) : passFrom answers fuel s = none := by
  cases fuel with
  | zero => rfl
  | succ fuel =>
    have hcurrent : s.current = none := by rw [current, hphase]
    rw [passFrom, if_neg (by rw [hphase]; exact Phase.noConfusion), label, hcurrent]
    simp only [step, hphase]
    rfl

/-- Behind the last entry the loop ends. -/
theorem passFrom_end (hphase : s.phase = .scanning i) (hi : s.pollFds[i]? = none)
    (hfuel : 2 ≤ fuel) : passFrom answers fuel s = some ([], { s with phase := .polling }) := by
  obtain ⟨fuel, rfl⟩ := Nat.exists_eq_add_of_le' hfuel
  have hcurrent : s.current = none := by rw [current, hphase]; exact hi
  have hstep : s.step (s.label answers) = some { s with phase := .polling } := by
    rw [label, hcurrent]
    simp only [step, hphase, hi]
  rw [passFrom_succ hphase hstep, services, hcurrent]
  rfl

/-- Connections accepted in the pass are not served in it. -/
theorem passFrom_fresh (hphase : s.phase = .scanning i)
    (hfresh : ∀ a ∈ s.pollFds.drop i, Fresh a) (hfuel : (s.pollFds.drop i).length + 2 ≤ fuel) :
    passFrom answers fuel s = some ([], { s with phase := .polling }) := by
  generalize hl : s.pollFds.drop i = l at hfresh hfuel
  induction l generalizing s i fuel with
  | nil =>
    apply passFrom_end hphase _ hfuel
    rw [← List.head?_drop, hl]
    rfl
  | cons a l ih =>
    obtain ⟨fuel, rfl⟩ := Nat.exists_eq_add_of_le' (show 1 ≤ fuel by omega)
    have ha : s.pollFds[i]? = some a := by
      rw [← List.head?_drop, hl]
      rfl
    have hdrop : s.pollFds.drop (i + 1) = l := by
      rw [← List.tail_drop, hl]
      rfl
    obtain ⟨fd, rfl⟩ := hfresh a List.mem_cons_self
    have hstep : s.step (s.label answers) = some { s with phase := .scanning (i + 1) } := by
      rw [step_of_current hphase ha, serveEntry, branch_new]
    have hrest : ∀ a ∈ l, Fresh a := fun a ha => hfresh a (List.mem_cons_of_mem _ ha)
    rw [passFrom_succ hphase hstep, ih (s := { s with phase := .scanning (i + 1) }) rfl hdrop hrest
      (by rw [List.length_cons] at hfuel; omega), services_of_current hphase ha]
    rfl

/-- The entry that was last is erased: only connections accepted stand behind the index. -/
theorem passFrom_erased (answers : Answers) (hphase : s.phase = .scanning i)
    (hfds : s.pollFds = before ++ new) (hi : before.length ≤ i) (hfresh : ∀ a ∈ new, Fresh a)
    (hfuel : new.length + 2 ≤ fuel) :
    passFrom answers fuel s = some ([], { s with phase := .polling }) := by
  have hdrop : s.pollFds.drop i = new.drop (i - before.length) := by
    rw [hfds, List.drop_append, List.drop_of_length_le hi]
    rfl
  apply passFrom_fresh hphase
  · rw [hdrop]
    exact fun a ha => hfresh a (List.mem_of_mem_drop ha)
  · rw [hdrop, List.length_drop]
    omega

/-- In the middle of a pass: behind the entries `before` that the index has passed stand those
still to come and the connections accepted in the pass. -/
structure Scanning (s : PollLoop) (before todo new : List PollFd) : Prop where
  phase : s.phase = .scanning before.length
  pollFds : s.pollFds = before ++ (todo ++ new)
  nodup : ((before ++ todo).map PollFd.fd).Nodup
  fresh : ∀ a ∈ new, Fresh a

theorem eraseP_fd (hnodup : ((before ++ p :: rest).map PollFd.fd).Nodup) (new : List PollFd) :
    (before ++ (p :: rest ++ new)).eraseP (·.fd = p.fd) = before ++ (rest ++ new) := by
  have hne : ∀ b ∈ before, ¬ decide (b.fd = p.fd) = true := by
    intro b hb heq
    rw [List.map_append, List.nodup_append] at hnodup
    exact hnodup.2.2 b.fd (List.mem_map_of_mem hb) p.fd (by simp) (of_decide_eq_true heq)
  rw [List.eraseP_append_right _ hne, List.cons_append, List.eraseP_cons_of_pos (by simp)]

/-- The loop looks at the entry `p`. -/
theorem Scanning.step (h : s.Scanning before (p :: rest) new) (answers : Answers) :
    ∃ s' new', s.step (s.label answers) = some s' ∧ s'.serverFd = s.serverFd ∧
      s.services = ([p].filter s.serves).map PollFd.fd ∧ new'.length ≤ new.length + 1 ∧
      (∀ a ∈ new', Fresh a) ∧
      s'.phase = (bif s.fails answers p then .aborted else .scanning (before.length + 1)) ∧
      s'.pollFds = before ++ (bif s.drops answers p then rest ++ new' else p :: rest ++ new') := by
  have hp : s.pollFds[before.length]? = some p := by
    rw [h.pollFds]
    simp
  obtain ⟨s', added, hentry, hserver, hphase, hfds, hlen, hfresh⟩ :=
    serveEntry_eq answers { s with phase := .scanning (before.length + 1) } p
  refine ⟨s', new ++ added, (step_of_current h.phase hp).trans hentry, hserver,
    services_of_current h.phase hp, ?_, ?_, hphase, hfds.trans ?_⟩
  · rw [List.length_append]
    omega
  · intro a ha
    rcases List.mem_append.mp ha with ha | ha
    · exact h.fresh a ha
    · exact hfresh a ha
  · show (bif s.drops answers p then s.pollFds.eraseP (·.fd = p.fd) else s.pollFds) ++ added = _
    rw [h.pollFds, eraseP_fd h.nodup]
    cases s.drops answers p <;> simp

/-- The next entry moves into the free place and is passed over. -/
theorem Scanning.erase {q : PollFd} {s' : PollLoop} {new' : List PollFd}
    (h : s.Scanning before (p :: q :: rest) new) (hphase : s'.phase = .scanning (before.length + 1))
    (hfds : s'.pollFds = before ++ (q :: rest ++ new')) (hfresh : ∀ a ∈ new', Fresh a) :
    s'.Scanning (before ++ [q]) rest new' := by
  refine ⟨by simpa using hphase, by simpa using hfds, ?_, hfresh⟩
  have hsub : (before ++ q :: rest).Sublist (before ++ p :: q :: rest) :=
    (List.sublist_cons_self _ _).append_left before
  simpa using h.nodup.sublist (hsub.map PollFd.fd)

theorem Scanning.keep {s' : PollLoop} {new' : List PollFd} (h : s.Scanning before (p :: rest) new)
    (hphase : s'.phase = .scanning (before.length + 1))
    (hfds : s'.pollFds = before ++ (p :: rest ++ new')) (hfresh : ∀ a ∈ new', Fresh a) :
    s'.Scanning (before ++ [p]) rest new' :=
  ⟨by simpa using hphase, by simpa using hfds, by simpa using h.nodup, hfresh⟩

/-- What a pass that comes to the entries `l` gives: nothing when a handler throws. -/
def outcome (answers : Answers) (s : PollLoop) (l : List PollFd) (final : PollLoop) :
    Option (List ℤ × PollLoop) :=
  bif l.any (s.fails answers) then none else some ((l.filter s.serves).map PollFd.fd, final)

theorem outcome_cons_of_fails (h : s.fails answers p = true) (l : List PollFd)
    (final : PollLoop) : outcome answers s (p :: l) final = none := by
  rw [outcome, List.any_cons, h]
  rfl

theorem outcome_eq_some_iff {l : List PollFd} {final final' : PollLoop} {serviced : List ℤ} :
    outcome answers s l final = some (serviced, final') ↔
      (∀ p ∈ l, s.fails answers p = false) ∧
        (l.filter s.serves).map PollFd.fd = serviced ∧ final = final' := by
  have hany : l.any (s.fails answers) = false ↔ ∀ p ∈ l, s.fails answers p = false := by
    rw [List.any_eq_false]
    simp only [Bool.not_eq_true]
  rw [outcome, ← hany]
  cases l.any (s.fails answers) with
  | true => simp
  | false => simp

theorem passFrom_cons {s' final : PollLoop} {l : List PollFd} (hserver : s.serverFd = s₀.serverFd)
    (hphase : s.phase = .scanning i) (hstep : s.step (s.label answers) = some s')
    (hservices : s.services = ([p].filter s.serves).map PollFd.fd)
    (hreturns : s₀.fails answers p = false)
    (hpass : passFrom answers fuel s' = outcome answers s₀ l final) :
    passFrom answers (fuel + 1) s = outcome answers s₀ (p :: l) final := by
  rw [passFrom_succ hphase hstep, hpass, hservices, funext (serves_congr hserver), outcome, outcome,
    List.any_cons, hreturns, Bool.false_or]
  cases l.any (s₀.fails answers) with
  | true => rfl
  | false =>
    apply congrArg (fun serviced => some (serviced, final))
    rw [← List.map_append, ← List.filter_append]
    rfl

/-- The handler of a removed entry is not called. -/
theorem not_fails_of_drops (h : s.drops answers p = true) : s.fails answers p = false := by
  rw [drops] at h
  rw [fails]
  cases hbranch : s.branch p with
  | client =>
    rw [hbranch] at h
    rw [decide_eq_false (not_lt.mpr (of_decide_eq_true h))]
    rfl
  | accept =>
    rw [hbranch] at h
    cases h
  | _ => rfl

theorem passFrom_scan (answers : Answers) (s₀ : PollLoop) (hserver : s.serverFd = s₀.serverFd)
    (h : s.Scanning before todo new) (hfuel : 2 * todo.length + new.length + 2 ≤ fuel) :
    ∃ final added,
      passFrom answers fuel s = outcome answers s₀ (visited (s₀.drops answers) todo) final ∧
      final.pollFds = before ++ kept (s₀.drops answers) todo ++ added ∧ ∀ a ∈ added, Fresh a := by
  induction todo using scan_induction (s₀.drops answers)
    generalizing s before new fuel with
  | nil =>
    refine ⟨_, new, passFrom_fresh h.phase ?_ ?_, ?_, h.fresh⟩
    · rw [h.pollFds, List.drop_left]
      exact h.fresh
    · rw [h.pollFds, List.drop_left]
      simpa using hfuel
    · rw [h.pollFds]
      simp [kept]
  | erase p rest hdrop ih =>
    obtain ⟨fuel, rfl⟩ := Nat.exists_eq_add_of_le' (show 1 ≤ fuel by omega)
    obtain ⟨s', new', hstep, hserver', hservices, hlen, hfresh, hphase, hfds⟩ := h.step answers
    have hreturns := not_fails_of_drops hdrop
    rw [fails_congr hserver, hreturns, cond_false] at hphase
    rw [drops_congr hserver, hdrop, cond_true] at hfds
    rw [visited_cons_of_erased hdrop, kept_cons_of_erased hdrop]
    cases rest with
    | nil =>
      have hfuel' : new'.length + 2 ≤ fuel := by
        simp only [List.length_cons, List.length_nil] at hfuel
        omega
      have hend := passFrom_erased answers hphase hfds (Nat.le_succ _) hfresh hfuel'
      refine ⟨{ s' with phase := .polling }, new',
        passFrom_cons hserver h.phase hstep hservices hreturns hend, ?_, hfresh⟩
      rw [hfds]
      simp [kept]
    | cons q rest =>
      have hfuel' : 2 * (q :: rest).tail.length + new'.length + 2 ≤ fuel := by
        simp only [List.length_cons, List.tail_cons] at hfuel ⊢
        omega
      obtain ⟨final, added, hpass, hfinal, hadded⟩ :=
        ih (hserver'.trans hserver) (h.erase hphase hfds hfresh) hfuel'
      refine ⟨final, added,
        passFrom_cons hserver h.phase hstep hservices hreturns hpass, ?_, hadded⟩
      rw [hfinal]
      simp
  | keep p rest hdrop ih =>
    obtain ⟨fuel, rfl⟩ := Nat.exists_eq_add_of_le' (show 1 ≤ fuel by omega)
    obtain ⟨s', new', hstep, hserver', hservices, hlen, hfresh, hphase, hfds⟩ := h.step answers
    rw [fails_congr hserver] at hphase
    rw [drops_congr hserver, hdrop, cond_false] at hfds
    rw [visited_cons_of_not hdrop, kept_cons_of_not hdrop]
    cases hfails : s₀.fails answers p with
    | true =>
      rw [hfails, cond_true] at hphase
      refine ⟨{ s with pollFds := before ++ p :: kept (s₀.drops answers) rest }, [], ?_,
        (List.append_nil _).symm, by simp⟩
      rw [passFrom_succ h.phase hstep, passFrom_aborted hphase, outcome_cons_of_fails hfails]
      rfl
    | false =>
      rw [hfails, cond_false] at hphase
      have hfuel' : 2 * rest.length + new'.length + 2 ≤ fuel := by
        rw [List.length_cons] at hfuel
        omega
      obtain ⟨final, added, hpass, hfinal, hadded⟩ :=
        ih (hserver'.trans hserver) (h.keep hphase hfds hfresh) hfuel'
      refine ⟨final, added,
        passFrom_cons hserver h.phase hstep hservices hfails hpass, ?_, hadded⟩
      rw [hfinal]
      simp

/-- **What a pass does.** It serves those of the entries it comes to that can be served, and
leaves the list without the entries it erases and with the connections accepted. -/
theorem pass_eq (answers : Answers) (hphase : s.phase = .scanning 0)
    (hnodup : (s.pollFds.map PollFd.fd).Nodup) :
    ∃ final added, pass answers s =
        outcome answers s (visited (s.drops answers) s.pollFds) final ∧
      final.pollFds = kept (s.drops answers) s.pollFds ++ added ∧ ∀ a ∈ added, Fresh a := by
  have h : s.Scanning [] s.pollFds [] := ⟨hphase, by simp, hnodup, by simp⟩
  obtain ⟨final, added, hpass, hfinal, hadded⟩ :=
    passFrom_scan answers s rfl h (le_refl _)
  exact ⟨final, added, hpass, by simpa using hfinal, hadded⟩

/-! ## What a pass should do -/

/-- A client that has hung up, or whose peek reports the end of its stream or an error. -/
def Gone (answers : Answers) (s : PollLoop) (p : PollFd) : Prop :=
  p.fd ≠ s.serverFd ∧ (p.revents.pollHup = true ∨ p.revents.pollIn = true ∧
    (answers.peek p.fd = .endOfStream ∨ answers.peek p.fd = .failed))

/-- The pass ends, has served every readable descriptor once, and has removed exactly the clients
that are gone. -/
def Exhaustive (answers : Answers) (s : PollLoop) : Prop :=
  ∃ serviced final, pass answers s = some (serviced, final) ∧
    (∀ p ∈ s.pollFds, p.revents.pollIn = true → serviced.count p.fd = 1) ∧
    ∀ p ∈ s.pollFds, p ∉ final.pollFds ↔ s.Gone answers p

/-- The cases in which the order of the tests and the erased entries do no harm: a readable
descriptor has neither hung up nor is writable, no peek would block, no handler that is called
throws, directly behind a client that is gone stands nothing to serve or to remove, and the listener
has not hung up or is itself passed over. -/
structure Harmless (answers : Answers) (s : PollLoop) : Prop where
  readable : ∀ p ∈ s.pollFds, p.revents.pollIn = true →
    p.revents.pollHup = false ∧ p.revents.pollOut = false
  ready : ∀ p ∈ s.pollFds, p.revents.pollIn = true → p.fd ≠ s.serverFd →
    answers.peek p.fd ≠ .wouldBlock
  returns : ∀ p ∈ s.pollFds, p.revents.pollIn = true →
    p.fd = s.serverFd ∨ 0 < (answers.peek p.fd).valread → answers.throws p.fd = false
  behind : ∀ before p q after, s.pollFds = before ++ p :: q :: after → s.Gone answers p →
    q.revents.pollIn = false ∧ ¬ s.Gone answers q
  listener : ∀ p ∈ s.pollFds, p.fd = s.serverFd → p.revents.pollHup = true →
    ∃ before q after, s.pollFds = before ++ q :: p :: after ∧ s.Gone answers q

theorem serves_iff : s.serves p = true ↔
    p.revents.pollIn = true ∧ p.revents.pollHup = false ∧ p.revents.pollOut = false := by
  rw [serves, branch]
  by_cases hserver : p.fd = s.serverFd <;> cases p.revents.pollHup <;> cases p.revents.pollOut <;>
    cases p.revents.pollIn <;> simp [hserver]

/-- A hang-up is removed, and a client that is read when no byte comes. -/
theorem drops_iff : s.drops answers p = true ↔
    p.revents.pollHup = true ∨
      (s.serves p = true ∧ p.fd ≠ s.serverFd ∧ (answers.peek p.fd).valread ≤ 0) := by
  rw [drops, serves, branch]
  by_cases hserver : p.fd = s.serverFd <;> cases p.revents.pollHup <;> cases p.revents.pollOut <;>
    cases p.revents.pollIn <;> simp [hserver]

/-- The handler is called for the listener, and for a client when bytes come. -/
theorem fails_iff : s.fails answers p = true ↔
    s.serves p = true ∧ (p.fd = s.serverFd ∨ 0 < (answers.peek p.fd).valread) ∧
      answers.throws p.fd = true := by
  rw [fails, serves, branch]
  by_cases hserver : p.fd = s.serverFd <;> cases p.revents.pollHup <;> cases p.revents.pollOut <;>
    cases p.revents.pollIn <;> simp [hserver]

theorem not_drops_of_fresh (h : Fresh p) : s.drops answers p = false := by
  obtain ⟨fd, rfl⟩ := h
  rfl

theorem count_fd_iff {l l' : List PollFd} (hnodup : (l.map PollFd.fd).Nodup)
    (hsub : l'.Sublist l) (hp : p ∈ l) : (l'.map PollFd.fd).count p.fd = 1 ↔ p ∈ l' := by
  constructor
  · intro h
    obtain ⟨q, hq, hfd⟩ := List.mem_map.mp (List.count_pos_iff.mp (by rw [h]; exact Nat.one_pos))
    exact List.inj_on_of_nodup_map hnodup (hsub.subset hq) hp hfd ▸ hq
  · intro hmem
    exact List.count_eq_one_of_mem (hnodup.sublist (hsub.map PollFd.fd)) (List.mem_map_of_mem hmem)

/-- A connection accepted is none of the entries removed. -/
theorem removed_iff (answers : Answers) (s : PollLoop) {l added : List PollFd} (hnodup : l.Nodup)
    (hadded : ∀ a ∈ added, Fresh a) (hp : p ∈ l) : p ∉ kept (s.drops answers) l ++ added ↔
      p ∈ visited (s.drops answers) l ∧ s.drops answers p = true := by
  rw [List.mem_append, not_or, mem_kept_iff hnodup hp, not_not]
  constructor
  · exact And.left
  · intro h
    refine ⟨h, fun hmem => ?_⟩
    rw [not_drops_of_fresh (hadded p hmem)] at h
    exact Bool.false_ne_true h.2

/-- The same of the entries that the pass comes to. -/
theorem exhaustive_iff_visited (hphase : s.phase = .scanning 0)
    (hnodup : (s.pollFds.map PollFd.fd).Nodup) :
    Exhaustive answers s ↔
      (∀ p ∈ visited (s.drops answers) s.pollFds, s.fails answers p = false) ∧
      (∀ p ∈ s.pollFds, p.revents.pollIn = true →
        p ∈ visited (s.drops answers) s.pollFds ∧ s.serves p = true) ∧
      ∀ p ∈ s.pollFds,
        (p ∈ visited (s.drops answers) s.pollFds ∧ s.drops answers p = true) ↔
          s.Gone answers p := by
  obtain ⟨final, added, hpass, hfinal, hadded⟩ := pass_eq answers hphase hnodup
  have hsub : ((visited (s.drops answers) s.pollFds).filter s.serves).Sublist s.pollFds :=
    List.filter_sublist.trans (visited_sublist _ _)
  have hserved (p : PollFd) (hp : p ∈ s.pollFds) := by
    have hcount := count_fd_iff hnodup hsub hp
    rwa [List.mem_filter] at hcount
  have hremoved (p : PollFd) (hp : p ∈ s.pollFds) :=
    removed_iff answers s hnodup.of_map hadded hp
  rw [← hfinal] at hremoved
  constructor
  · rintro ⟨serviced, final', hpass', hexact, hgone⟩
    rw [hpass] at hpass'
    obtain ⟨hreturns, rfl, rfl⟩ := outcome_eq_some_iff.mp hpass'
    refine ⟨hreturns, fun p hp hin => (hserved p hp).mp (hexact p hp hin), fun p hp => ?_⟩
    rw [← hremoved p hp]
    exact hgone p hp
  · rintro ⟨hreturns, hexact, hgone⟩
    refine ⟨_, final, hpass.trans (outcome_eq_some_iff.mpr ⟨hreturns, rfl, rfl⟩),
      fun p hp hin => (hserved p hp).mpr (hexact p hp hin), fun p hp => ?_⟩
    rw [hremoved p hp]
    exact hgone p hp

theorem Exhaustive.harmless (hphase : s.phase = .scanning 0)
    (hnodup : (s.pollFds.map PollFd.fd).Nodup) (h : Exhaustive answers s) :
    Harmless answers s := by
  obtain ⟨hreturns, hserved, hremoved⟩ := (exhaustive_iff_visited hphase hnodup).mp h
  have hserves (p : PollFd) (hp : p ∈ s.pollFds) (hin : p.revents.pollIn = true) :=
    serves_iff.mp (hserved p hp hin).2
  refine ⟨fun p hp hin => (hserves p hp hin).2, ?_, ?_, ?_, ?_⟩
  · intro p hp hin hserver hpeek
    have hdrop : s.drops answers p = true := by
      refine drops_iff.mpr (Or.inr ⟨(hserved p hp hin).2, hserver, ?_⟩)
      rw [hpeek]
      show (-1 : ℤ) ≤ 0
      omega
    obtain ⟨-, hhup | ⟨-, hpeek' | hpeek'⟩⟩ := (hremoved p hp).mp ⟨(hserved p hp hin).1, hdrop⟩
    · rw [(hserves p hp hin).2.1] at hhup
      cases hhup
    · rw [hpeek] at hpeek'
      cases hpeek'
    · rw [hpeek] at hpeek'
      cases hpeek'
  · intro p hp hin hcalled
    apply Bool.eq_false_of_not_eq_true
    intro hthrows
    have hfails := fails_iff.mpr ⟨(hserved p hp hin).2, hcalled, hthrows⟩
    rw [hreturns p (hserved p hp hin).1] at hfails
    cases hfails
  · intro before p q after hl hgone
    have hp : p ∈ s.pollFds := by rw [hl]; simp
    have hq : q ∈ s.pollFds := by rw [hl]; simp
    obtain ⟨hvisited, hdrop⟩ := (hremoved p hp).mpr hgone
    have hbehind := notMem_visited_of_behind hnodup.of_map hl hvisited hdrop
    refine ⟨?_, fun hgone => hbehind ((hremoved q hq).mpr hgone).1⟩
    apply Bool.eq_false_of_not_eq_true
    exact fun hin => hbehind (hserved q hq hin).1
  · intro p hp hserver hhup
    have hnot : p ∉ visited (s.drops answers) s.pollFds := by
      intro hvisited
      exact ((hremoved p hp).mp ⟨hvisited, drops_iff.mpr (Or.inl hhup)⟩).1 hserver
    obtain ⟨before, q, after, hl, hvisited, hdrop⟩ := exists_ahead_of_notMem_visited hp hnot
    have hq : q ∈ s.pollFds := by rw [hl]; simp
    exact ⟨before, q, after, hl, (hremoved q hq).mp ⟨hvisited, hdrop⟩⟩

namespace Harmless

theorem drops_of_gone (h : Harmless answers s) (hp : p ∈ s.pollFds) (hgone : s.Gone answers p) :
    s.drops answers p = true := by
  obtain ⟨hserver, hhup | ⟨hin, hpeek⟩⟩ := hgone
  · exact drops_iff.mpr (Or.inl hhup)
  · refine drops_iff.mpr (Or.inr ⟨serves_iff.mpr ⟨hin, h.readable p hp hin⟩, hserver, ?_⟩)
    rcases hpeek with hpeek | hpeek
    · rw [hpeek]
      exact le_refl _
    · rw [hpeek]
      show (-1 : ℤ) ≤ 0
      omega

/-- A client that is removed is gone. -/
theorem gone_of_drops (h : Harmless answers s) (hp : p ∈ s.pollFds) (hserver : p.fd ≠ s.serverFd)
    (hdrop : s.drops answers p = true) : s.Gone answers p := by
  refine ⟨hserver, ?_⟩
  rcases drops_iff.mp hdrop with hhup | ⟨hserves, -, hvalread⟩
  · exact Or.inl hhup
  · have hin := (serves_iff.mp hserves).1
    refine Or.inr ⟨hin, ?_⟩
    cases hpeek : answers.peek p.fd with
    | bytes n =>
      rw [hpeek] at hvalread
      have hvalread : (n : ℤ) + 1 ≤ 0 := hvalread
      omega
    | endOfStream => exact Or.inl rfl
    | wouldBlock => exact absurd hpeek (h.ready p hp hin hserver)
    | failed => exact Or.inr rfl

theorem hangUp_of_drops_server (hserver : p.fd = s.serverFd) (hdrop : s.drops answers p = true) :
    p.revents.pollHup = true := by
  rcases drops_iff.mp hdrop with hhup | ⟨-, hne, -⟩
  · exact hhup
  · exact absurd hserver hne

/-- The pass comes to every client that is gone; by induction on the entries before it. -/
theorem visited_of_gone (h : Harmless answers s) (hnodup : s.pollFds.Nodup)
    {before after : List PollFd} (hl : s.pollFds = before ++ p :: after)
    (hgone : s.Gone answers p) : p ∈ visited (s.drops answers) s.pollFds := by
  induction hlen : before.length using Nat.strong_induction_on generalizing p before after with
  | _ n ih =>
    by_contra hnot
    have hp : p ∈ s.pollFds := by rw [hl]; simp
    obtain ⟨a, q, b, hlq, hq, hdrop⟩ := exists_ahead_of_notMem_visited hp hnot
    have hqmem : q ∈ s.pollFds := by rw [hlq]; simp
    by_cases hserver : q.fd = s.serverFd
    · -- the listener has hung up, and is itself passed over
      have hhup := hangUp_of_drops_server hserver hdrop
      obtain ⟨a', r, b', hlr, hr⟩ := h.listener q hqmem hserver hhup
      have hrmem : r ∈ s.pollFds := by rw [hlr]; simp
      have hshorter : a'.length < n := by
        rw [← hlen, before_eq_concat hnodup hl hlq, before_eq_concat hnodup hlq hlr]
        simp
      have hrvisited := ih a'.length hshorter hlr hr rfl
      exact notMem_visited_of_behind hnodup hlr hrvisited (h.drops_of_gone hrmem hr) hq
    · exact (h.behind a q p b hlq (h.gone_of_drops hqmem hserver hdrop)).2 hgone

/-- The listener is not removed. -/
theorem gone_of_visited (h : Harmless answers s) (hnodup : s.pollFds.Nodup)
    (hp : p ∈ s.pollFds) (hvisited : p ∈ visited (s.drops answers) s.pollFds)
    (hdrop : s.drops answers p = true) : s.Gone answers p := by
  apply h.gone_of_drops hp _ hdrop
  intro hserver
  obtain ⟨before, q, after, hl, hq⟩ :=
    h.listener p hp hserver (hangUp_of_drops_server hserver hdrop)
  have hqmem : q ∈ s.pollFds := by rw [hl]; simp
  have hqvisited := h.visited_of_gone hnodup hl hq
  exact notMem_visited_of_behind hnodup hl hqvisited (h.drops_of_gone hqmem hq) hvisited

theorem exhaustive (h : Harmless answers s) (hphase : s.phase = .scanning 0)
    (hnodup : (s.pollFds.map PollFd.fd).Nodup) : Exhaustive answers s := by
  rw [exhaustive_iff_visited hphase hnodup]
  refine ⟨fun p hvisited => ?_,
    fun p hp hin => ⟨?_, serves_iff.mpr ⟨hin, h.readable p hp hin⟩⟩, fun p hp => ?_⟩
  · apply Bool.eq_false_of_not_eq_true
    intro hfails
    obtain ⟨hserves, hcalled, hthrows⟩ := fails_iff.mp hfails
    have hp := (visited_sublist _ _).subset hvisited
    rw [h.returns p hp (serves_iff.mp hserves).1 hcalled] at hthrows
    cases hthrows
  · by_contra hnot
    obtain ⟨before, q, after, hl, hvisited, hdrop⟩ := exists_ahead_of_notMem_visited hp hnot
    have hq : q ∈ s.pollFds := by rw [hl]; simp
    have hgone := h.gone_of_visited hnodup.of_map hq hvisited hdrop
    have hidle := (h.behind before q p after hl hgone).1
    rw [hin] at hidle
    cases hidle
  · constructor
    · rintro ⟨hvisited, hdrop⟩
      exact h.gone_of_visited hnodup.of_map hp hvisited hdrop
    · intro hgone
      obtain ⟨before, after, hl⟩ := List.append_of_mem hp
      exact ⟨h.visited_of_gone hnodup.of_map hl hgone, h.drops_of_gone hp hgone⟩

end Harmless

/-- **When a pass is exhaustive.** For every list of entries without a descriptor twice, all
events and all answers: the pass serves each readable descriptor once and removes exactly the
clients that are gone if and only if the case is harmless. -/
theorem exhaustive_iff (answers : Answers) (s : PollLoop) (hphase : s.phase = .scanning 0)
    (hnodup : (s.pollFds.map PollFd.fd).Nodup) : Exhaustive answers s ↔ Harmless answers s :=
  ⟨fun h => h.harmless hphase hnodup, fun h => h.exhaustive hphase hnodup⟩

/-- The listener and two clients, all of them polled, and both clients readable. -/
def twoClients : PollLoop :=
  ⟨3, [⟨3, false, false, false⟩, ⟨5, true, false, false⟩, ⟨6, true, false, false⟩], .scanning 0,
    .none⟩

/-- One client has closed its connection, and the others have sent a byte; the handlers return. -/
def closedBy (client : ℤ) : Answers :=
  ⟨none, fun fd => if fd = client then .endOfStream else .bytes 0, fun _ => false⟩

/-- The last client is gone. -/
theorem exhaustive_last : Exhaustive (closedBy 6) twoClients := by
  apply (exhaustive_iff _ twoClients rfl (by decide)).mpr
  refine ⟨by decide, by decide, fun _ _ _ _ => rfl, ?_, ?_⟩
  · intro before p q after hl hgone
    rcases before with _ | ⟨x, _ | ⟨y, before⟩⟩
    · cases hl
      exact absurd rfl hgone.1
    · cases hl
      simp [Gone, closedBy] at hgone
    · have hlen := congrArg List.length hl
      simp [twoClients] at hlen
      omega
  · intro p hp hserver hhup
    have hnone : ∀ p ∈ twoClients.pollFds, p.revents.pollHup = false := by decide
    rw [hnone p hp] at hhup
    cases hhup

/-- The first of two readable clients is gone, and the second one is not served. -/
theorem not_exhaustive_first :
    ¬ ∀ (answers : Answers) (s : PollLoop), s.phase = .scanning 0 →
      (s.pollFds.map PollFd.fd).Nodup → Exhaustive answers s := by
  intro h
  obtain ⟨serviced, final, hpass, hserved, -⟩ := h (closedBy 5) twoClients rfl (by decide)
  have hfirst : (pass (closedBy 5) twoClients).map Prod.fst = some [5] := by decide +kernel
  rw [hpass] at hfirst
  cases hfirst
  exact absurd (hserved ⟨6, true, false, false⟩ (by decide) rfl) (by decide)

end PollLoop

end SimpleServer
