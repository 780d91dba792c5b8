import Mathlib.Tactic

/-!
# Runs of a labelled transition system

A system is a step function `σ → α → Option σ`: the label is what the environment does in the
step, and `none` says that it cannot. `Reached step ok s₀ s` says that some run leads from `s₀`
to `s` in which every step satisfies `ok`. An invariant of these steps holds in every state so
reached (`Reached.invariant`), a relation that the steps of two systems keep is kept by their runs
(`Reached.simulates`, `run_rel`), and a concrete run is carried out by `run` (`reached_of_run`).

An object is a function of its calls that may fail, `call : σ → κ → Except ε (σ × β)`; when each
call keeps a relation to an object that cannot fail and gives its answer, so does every list of
calls (`answers_refines`).
-/

namespace Runs

variable {σ α : Type*} (step : σ → α → Option σ) (ok : σ → α → Prop)

/-- `s` is reached from `s₀` by steps that satisfy `ok`. -/
inductive Reached (s₀ : σ) : σ → Prop
  | start : Reached s₀ s₀
  | step {s s' : σ} {a : α} : Reached s₀ s → ok s a → step s a = some s' → Reached s₀ s'

/-- Every step is allowed. -/
def anyStep (_ : σ) (_ : α) : Prop := True

instance (s : σ) (a : α) : Decidable (anyStep s a) := inferInstanceAs (Decidable True)

/-- The end of the run with the given labels, when each step can be made and satisfies `ok`. -/
def run [∀ s a, Decidable (ok s a)] (s : σ) : List α → Option σ
  | [] => some s
  | a :: as => if ok s a then (step s a).bind fun s' => run s' as else none

variable {step ok} {s₀ s s' : σ}

theorem Reached.trans {s₁ : σ} (h₁ : Reached step ok s₀ s₁) (h₂ : Reached step ok s₁ s) :
    Reached step ok s₀ s := by
  induction h₂ with
  | start => exact h₁
  | step _ hok hstep ih => exact ih.step hok hstep

theorem Reached.mono {ok' : σ → α → Prop} (hok : ∀ s a, ok s a → ok' s a)
    (h : Reached step ok s₀ s) : Reached step ok' s₀ s := by
  induction h with
  | start => exact .start
  | step _ ha hs ih => exact ih.step (hok _ _ ha) hs

theorem reached_of_run [∀ s a, Decidable (ok s a)] {as : List α}
    (h : run step ok s as = some s') : Reached step ok s s' := by
  induction as generalizing s with
  | nil =>
    cases h
    exact .start
  | cons a as ih =>
    rw [run] at h
    split_ifs at h with hok
    obtain ⟨t, hstep, hrun⟩ := Option.bind_eq_some_iff.mp h
    exact (Reached.start.step hok hstep).trans (ih hrun)

/-- What is computed of the end of a run holds of a state that is reached. -/
theorem exists_reached [∀ s a, Decidable (ok s a)] {as : List α} {P : σ → Prop}
    [DecidablePred P] (h : (run step ok s as).any (fun s' => P s') = true) :
    ∃ s', Reached step ok s s' ∧ P s' := by
  obtain ⟨s', hrun, hP⟩ := (Option.any_eq_true _ _).mp h
  exact ⟨s', reached_of_run hrun, of_decide_eq_true hP⟩

/-- **Invariants of runs**: what holds at the start and is kept by every step that satisfies
`ok` holds in every state reached by such steps. -/
theorem Reached.invariant {I : σ → Prop} (h₀ : I s₀)
    (hstep : ∀ s a s', I s → ok s a → step s a = some s' → I s')
    (h : Reached step ok s₀ s) : I s := by
  induction h with
  | start => exact h₀
  | step _ hok hs ih => exact hstep _ _ _ ih hok hs

theorem run_cons_anyStep (s : σ) (a : α) (as : List α) :
    run step anyStep s (a :: as) = (step s a).bind fun s' => run step anyStep s' as :=
  if_pos trivial

/-- **Simulation with stuttering**: where every step that satisfies `ok` keeps a relation, by a step
of the other system or by none, each state so reached is related to one that the other system
reaches. -/
theorem Reached.simulates_of_ok {τ β : Type*} {step' : τ → β → Option τ} {R : τ → σ → Prop}
    {t₀ : τ} (h₀ : R t₀ s₀)
    (hstep : ∀ t s a s', R t s → ok s a → step s a = some s' →
      R t s' ∨ ∃ b t', step' t b = some t' ∧ R t' s')
    (h : Reached step ok s₀ s) : ∃ t, Reached step' anyStep t₀ t ∧ R t s := by
  induction h with
  | start => exact ⟨t₀, .start, h₀⟩
  | step _ hok hs ih =>
    obtain ⟨t, ht, hR⟩ := ih
    rcases hstep _ _ _ _ hR hok hs with hR' | ⟨b, t', hb, hR'⟩
    · exact ⟨t, ht, hR'⟩
    · exact ⟨t', ht.step trivial hb, hR'⟩

theorem Reached.simulates {τ β : Type*} {step' : τ → β → Option τ} {R : τ → σ → Prop} {t₀ : τ}
    (h₀ : R t₀ s₀)
    (hstep : ∀ t s a s', R t s → step s a = some s' →
      R t s' ∨ ∃ b t', step' t b = some t' ∧ R t' s')
    (h : Reached step anyStep s₀ s) : ∃ t, Reached step' anyStep t₀ t ∧ R t s :=
  h.simulates_of_ok h₀ fun t s a s' hR _ hs => hstep t s a s' hR hs

/-- **Runs side by side**: where two systems make the same steps and keep a relation, they make the
same runs, and keep it. -/
theorem run_rel {τ : Type*} {step' : τ → α → Option τ} {R : σ → τ → Prop}
    (hstep : ∀ s t a, R s t → Option.Rel R (step s a) (step' t a))
    (as : List α) {t : τ} (hR : R s t) :
    Option.Rel R (run step anyStep s as) (run step' anyStep t as) := by
  induction as generalizing s t with
  | nil => exact .some hR
  | cons a as ih =>
    rw [run_cons_anyStep, run_cons_anyStep]
    have hrel := hstep s t a hR
    generalize step s a = x at hrel
    generalize step' t a = y at hrel
    cases hrel with
    | some hR₁ => exact ih hR₁
    | none => exact .none

/-! ## Objects and their calls -/

section Objects

variable {τ κ β ε : Type*} (call : σ → κ → Except ε (σ × β)) (spec : τ → κ → τ × β)

/-- The calls of a list one after another, with their answers; a call that fails ends them. -/
def answers (s : σ) : List κ → Except ε (σ × List β)
  | [] => .ok (s, [])
  | k :: ks => do
    let (s, b) ← call s k
    let (s, bs) ← answers s ks
    return (s, b :: bs)

/-- The calls of a list to an object that cannot fail. -/
def replies (t : τ) : List κ → τ × List β
  | [] => (t, [])
  | k :: ks =>
    let (t, b) := spec t k
    let (t, bs) := replies t ks
    (t, b :: bs)

variable {call spec}

/-- **Refinement of objects**: no call fails, and the answers are those of the other object. -/
theorem answers_refines {R : τ → σ → Prop}
    (hcall : ∀ t s k, R t s → ∃ s', call s k = .ok (s', (spec t k).2) ∧ R (spec t k).1 s')
    {t : τ} {s : σ} (hR : R t s) (ks : List κ) :
    ∃ s', answers call s ks = .ok (s', (replies spec t ks).2) ∧ R (replies spec t ks).1 s' := by
  induction ks generalizing t s with
  | nil => exact ⟨s, rfl, hR⟩
  | cons k ks ih =>
    obtain ⟨s₁, hs₁, hR₁⟩ := hcall t s k hR
    obtain ⟨s₂, hs₂, hR₂⟩ := ih hR₁
    refine ⟨s₂, ?_, hR₂⟩
    rw [answers, hs₁]
    change (answers call s₁ ks >>= fun r => pure (r.1, (spec t k).2 :: r.2)) = _
    rw [hs₂]
    rfl

end Objects

end Runs
