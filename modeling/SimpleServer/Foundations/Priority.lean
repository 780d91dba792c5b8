import Mathlib.Data.List.Basic
import Mathlib.Tactic

/-!
# Searches by rules of decreasing strength

A search tries one rule after another on a list, and returns the first element that satisfies the
rule at hand. What it finds satisfies the strongest rule that any element satisfies (`Best`), and
it finds nothing only when no element satisfies a rule (`search_eq_none_iff`). Which of the best
elements it finds depends on the order of the list (`search_cons_of_best`), unless there is only
one (`search_eq_of_unique`).
-/

namespace Priority

variable {α β : Type*}

/-- The first element that satisfies the first rule that any element satisfies. -/
def search : List (α → Bool) → List α → Option α
  | [], _ => none
  | rule :: rules, l =>
    match l.find? rule with
    | some a => some a
    | none => search rules l

/-- `a` satisfies a rule, and no element of the list satisfies a stronger one. -/
def Best (rules : List (α → Bool)) (l : List α) (a : α) : Prop :=
  ∃ stronger rule weaker, rules = stronger ++ rule :: weaker ∧ rule a = true ∧
    ∀ r ∈ stronger, ∀ b ∈ l, r b = false

section Search

variable {rules : List (α → Bool)} {rule : α → Bool} {l l' : List α} {a : α}

theorem best_cons : Best (rule :: rules) l a ↔
    rule a = true ∨ ((∀ b ∈ l, rule b = false) ∧ Best rules l a) := by
  constructor
  · rintro ⟨_ | ⟨r, stronger⟩, rule', weaker, hrules, ha, hstronger⟩
    · cases hrules
      exact Or.inl ha
    · cases hrules
      exact Or.inr ⟨hstronger _ (by simp), stronger, rule', weaker, rfl, ha,
        fun r' hr' => hstronger r' (by simp [hr'])⟩
  · rintro (ha | ⟨hrule, stronger, rule', weaker, rfl, ha, hstronger⟩)
    · exact ⟨[], rule, rules, rfl, ha, by simp⟩
    · refine ⟨rule :: stronger, rule', weaker, rfl, ha, ?_⟩
      intro r hr
      rcases List.mem_cons.mp hr with rfl | hr
      · exact hrule
      · exact hstronger r hr

theorem not_best_nil : ¬ Best [] l a := by
  rintro ⟨stronger, rule, weaker, hrules, -⟩
  simp at hrules

theorem best_congr (h : ∀ b, b ∈ l ↔ b ∈ l') : Best rules l a ↔ Best rules l' a := by
  simp only [Best, h]

theorem best_singleton : Best [rule] l a ↔ rule a = true := by
  rw [best_cons, or_iff_left fun h => not_best_nil h.2]

/-- Rules about a part of the elements. -/
theorem best_comp {f : β → α} {m : List β} {b : β} :
    Best (rules.map (· ∘ f)) m b ↔ Best rules (m.map f) (f b) := by
  induction rules with
  | nil => simp [Best]
  | cons rule rules ih => simp [best_cons, ih]

/-- **What is found is best.** -/
theorem best_of_search (h : search rules l = some a) : a ∈ l ∧ Best rules l a := by
  induction rules with
  | nil => cases h
  | cons rule rules ih =>
    rw [search] at h
    cases hfind : l.find? rule with
    | none =>
      rw [hfind] at h
      obtain ⟨hmem, hbest⟩ := ih h
      refine ⟨hmem, best_cons.mpr (Or.inr ⟨fun b hb => ?_, hbest⟩)⟩
      simpa using List.find?_eq_none.mp hfind b hb
    | some b =>
      rw [hfind] at h
      cases h
      exact ⟨List.mem_of_find?_eq_some hfind, best_cons.mpr (Or.inl (List.find?_some hfind))⟩

/-- **Nothing is found only when no element satisfies a rule.** -/
theorem search_eq_none_iff : search rules l = none ↔ ∀ r ∈ rules, ∀ b ∈ l, r b = false := by
  induction rules with
  | nil => simp [search]
  | cons rule rules ih =>
    rw [search, List.forall_mem_cons]
    cases hfind : l.find? rule with
    | none =>
      have hrule : ∀ b ∈ l, rule b = false := by simpa using hfind
      simp only [ih]
      exact ⟨fun h => ⟨hrule, h⟩, fun h => h.2⟩
    | some b =>
      have hb := List.find?_some hfind
      simp only [reduceCtorEq, false_iff]
      rintro ⟨h, -⟩
      rw [h b (List.mem_of_find?_eq_some hfind)] at hb
      cases hb

/-- When an element is best, something is found. -/
theorem search_ne_none (ha : a ∈ l) (h : Best rules l a) : search rules l ≠ none := by
  obtain ⟨stronger, rule, weaker, rfl, hrule, -⟩ := h
  intro hnone
  rw [search_eq_none_iff.mp hnone rule (by simp) a ha] at hrule
  cases hrule

/-- A best element that stands first is found. -/
theorem search_cons_of_best (h : Best rules (a :: l) a) : search rules (a :: l) = some a := by
  induction rules with
  | nil => exact absurd h not_best_nil
  | cons rule rules ih =>
    rw [search, List.find?_cons]
    cases hrule : rule a with
    | true => rfl
    | false =>
      obtain ⟨hnone, hbest⟩ := (best_cons.mp h).resolve_left (by simp [hrule])
      have hfind : l.find? rule = none := by
        rw [List.find?_eq_none]
        intro b hb
        simp [hnone b (by simp [hb])]
      simp only [hfind]
      exact ih hbest

/-- **With one best element, the order of the list does not matter.** -/
theorem search_eq_of_unique (hperm : l.Perm l')
    (hunique : ∀ a ∈ l, ∀ b ∈ l, Best rules l a → Best rules l b → a = b) :
    search rules l = search rules l' := by
  have hmem : ∀ b, b ∈ l ↔ b ∈ l' := fun b => hperm.mem_iff
  cases h : search rules l with
  | none =>
    symm
    rw [search_eq_none_iff] at h ⊢
    exact fun r hr b hb => h r hr b ((hmem b).mpr hb)
  | some a =>
    obtain ⟨ha, hbest⟩ := best_of_search h
    rcases h' : search rules l' with _ | b
    · exact absurd h' (search_ne_none ((hmem a).mp ha) ((best_congr hmem).mp hbest))
    · obtain ⟨hb, hbest'⟩ := best_of_search h'
      rw [hunique a ha b ((hmem b).mpr hb) hbest ((best_congr hmem).mpr hbest')]

/-- Elements that satisfy no rule can be left out. -/
theorem search_filter {keep : α → Bool}
    (h : ∀ a ∈ l, keep a = false → ∀ r ∈ rules, r a = false) :
    search rules (l.filter keep) = search rules l := by
  induction rules with
  | nil => rfl
  | cons rule rules ih =>
    have hfind : (l.filter keep).find? rule = l.find? rule := by
      rw [List.find?_filter]
      apply List.find?_congr
      intro a ha
      cases hkeep : keep a with
      | true => simp
      | false => simp [h a ha hkeep rule List.mem_cons_self]
    rw [search, search, hfind, ih fun a ha hkeep r hr => h a ha hkeep r (List.mem_cons_of_mem _ hr)]

/-- A search by one rule. -/
theorem search_singleton : search [rule] l = l.find? rule := by
  rw [search]
  cases l.find? rule <;> rfl

end Search

end Priority
