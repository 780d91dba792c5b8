import SimpleServer.Foundations.Runs

/-!
# A dispenser of numbers

Visitors join, and a visitor that waits goes away without a number or is served with the next one. A
visitor may come again when it waits no longer. The numbers given out are `1, .., issued`, each to
one visit (`Dispenser.numbers`), and nobody waits twice (`Dispenser.apart`).
-/

namespace Tickets

open Runs

variable {κ : Type*}

/-- How a visit has ended, if it has. -/
inductive Outcome
  | waiting
  | left
  | served (n : ℕ)
  deriving DecidableEq

def Outcome.number : Outcome → Option ℕ
  | served n => some n
  | _ => none

/-- The numbers given out in some visits. -/
def numbersOf (visits : List (κ × Outcome)) : List ℕ := visits.filterMap fun v => v.2.number

/-- The visits in the order in which they began, and how many numbers were given out. -/
structure Dispenser (κ : Type*) where
  visits : List (κ × Outcome)
  issued : ℕ
  numbers : (numbersOf visits).Perm (List.range' 1 issued)
  apart : visits.Pairwise fun v v' => v.1 = v'.1 → v.2 ≠ .waiting

inductive Event (κ : Type*)
  | join (c : κ)
  /-- A visitor comes and goes at once. -/
  | turnAway (c : κ)
  | leave (c : κ)
  | serve (c : κ)

/-- The visit of `c` that waits ends. -/
def settle [DecidableEq κ] (c : κ) (o : Outcome) (visits : List (κ × Outcome)) :
    List (κ × Outcome) :=
  visits.map fun v => if v = (c, .waiting) then (c, o) else v

theorem numbersOf_append (l r : List (κ × Outcome)) :
    numbersOf (l ++ r) = numbersOf l ++ numbersOf r := List.filterMap_append

theorem numbersOf_cons (v : κ × Outcome) (r : List (κ × Outcome)) :
    numbersOf (v :: r) = v.2.number.toList ++ numbersOf r := by
  cases hv : v.2.number <;> simp [numbersOf, hv]

section Settle

variable [DecidableEq κ] {c : κ} {visits : List (κ × Outcome)}

/-- One visit is settled, and those behind it are of other visitors. -/
theorem exists_settle (hapart : visits.Pairwise fun v v' => v.1 = v'.1 → v.2 ≠ .waiting)
    (hmem : (c, .waiting) ∈ visits) : ∃ l r, visits = l ++ (c, .waiting) :: r ∧
      (∀ o, settle c o visits = l ++ (c, o) :: r) ∧ ∀ v ∈ r, v.1 ≠ c := by
  obtain ⟨l, r, rfl⟩ := List.append_of_mem hmem
  obtain ⟨-, hcons, hcross⟩ := List.pairwise_append.mp hapart
  have hbehind : ∀ v ∈ r, v.1 ≠ c := fun v hv heq =>
    (List.pairwise_cons.mp hcons).1 v hv heq.symm rfl
  have hleft : ∀ v ∈ l, v ≠ (c, .waiting) := by
    rintro v hv rfl
    exact hcross _ hv (c, .waiting) List.mem_cons_self rfl rfl
  have hright : ∀ v ∈ r, v ≠ (c, .waiting) := fun v hv heq => hbehind v hv (by rw [heq])
  refine ⟨l, r, rfl, fun o => ?_, hbehind⟩
  rw [settle, List.map_append, List.map_cons, if_pos rfl,
    List.map_congr_left fun v hv => if_neg (hleft v hv),
    List.map_congr_left fun v hv => if_neg (hright v hv), List.map_id', List.map_id']

/-- A visitor whose visit is settled does not wait, if it is not settled as one that waits. -/
theorem mem_settle_iff {o : Outcome} (ho : o ≠ .waiting) (d : κ) :
    (d, .waiting) ∈ settle c o visits ↔ d ≠ c ∧ (d, .waiting) ∈ visits := by
  constructor
  · intro hd
    obtain ⟨v, hv, heq⟩ := List.mem_map.mp hd
    split_ifs at heq with hvc
    · exact absurd (congrArg Prod.snd heq) ho
    · refine ⟨?_, heq ▸ hv⟩
      rintro rfl
      exact hvc heq
  · rintro ⟨hne, hd⟩
    refine List.mem_map.mpr ⟨(d, .waiting), hd, if_neg fun heq => hne ?_⟩
    exact congrArg Prod.fst heq

theorem apart_settle (hapart : visits.Pairwise fun v v' => v.1 = v'.1 → v.2 ≠ .waiting)
    {o : Outcome} (ho : o ≠ .waiting) :
    (settle c o visits).Pairwise fun v v' => v.1 = v'.1 → v.2 ≠ .waiting := by
  refine List.pairwise_map.mpr (hapart.imp fun {v v'} h => ?_)
  have hfst : ∀ v : κ × Outcome, (if v = (c, .waiting) then (c, o) else v).1 = v.1 := by
    intro v
    split_ifs with hv
    · rw [hv]
    · rfl
  intro heq
  rw [hfst, hfst] at heq
  split_ifs
  · exact ho
  · exact h heq

end Settle

namespace Dispenser

def empty : Dispenser κ where
  visits := []
  issued := 0
  numbers := .rfl
  apart := .nil

/-- A visit begins, or begins and ends. -/
def join (d : Dispenser κ) (c : κ) (o : Outcome) (ho : o.number = none)
    (hfree : (c, .waiting) ∉ d.visits) : Dispenser κ where
  visits := d.visits ++ [(c, o)]
  issued := d.issued
  numbers := by
    rw [numbersOf_append, numbersOf_cons]
    simpa [ho, numbersOf] using d.numbers
  apart := by
    refine List.pairwise_append.mpr ⟨d.apart, List.pairwise_singleton .., ?_⟩
    rintro ⟨c', o'⟩ hv v' hv' heq rfl
    rw [List.mem_singleton.mp hv'] at heq
    cases heq
    exact hfree hv

/-- **Each number once**: a number was given out if and only if it is one of `1, .., issued`, and no
two visits have the same. -/
theorem nodup_numbers (d : Dispenser κ) :
    (numbersOf d.visits).Nodup ∧ ∀ n, n ∈ numbersOf d.visits ↔ 1 ≤ n ∧ n ≤ d.issued := by
  refine ⟨d.numbers.nodup_iff.mpr (List.nodup_range' ..), fun n => ?_⟩
  rw [d.numbers.mem_iff, List.mem_range'_1]
  omega

variable [DecidableEq κ]

/-- A visit ends without a number. -/
def leave (d : Dispenser κ) (c : κ) (hwaits : (c, .waiting) ∈ d.visits) : Dispenser κ where
  visits := settle c .left d.visits
  issued := d.issued
  numbers := by
    obtain ⟨l, r, hvisits, hsettle, -⟩ := exists_settle d.apart hwaits
    have hnumbers := d.numbers
    rw [hvisits, numbersOf_append, numbersOf_cons] at hnumbers
    rw [hsettle, numbersOf_append, numbersOf_cons]
    exact hnumbers
  apart := apart_settle d.apart (by simp)

/-- A visit ends with the next number. -/
def serve (d : Dispenser κ) (c : κ) (hwaits : (c, .waiting) ∈ d.visits) : Dispenser κ where
  visits := settle c (.served (d.issued + 1)) d.visits
  issued := d.issued + 1
  numbers := by
    obtain ⟨l, r, hvisits, hsettle, -⟩ := exists_settle d.apart hwaits
    have hnumbers := d.numbers
    rw [hvisits, numbersOf_append, numbersOf_cons] at hnumbers
    rw [hsettle, numbersOf_append, numbersOf_cons, List.range'_concat, one_mul, Nat.add_comm 1]
    have hfront : (numbersOf l ++ ([d.issued + 1] ++ numbersOf r)).Perm
        ([d.issued + 1] ++ List.range' 1 d.issued) :=
      (List.perm_append_comm_assoc ..).trans (hnumbers.append_left _)
    exact hfront.trans List.perm_append_comm
  apart := apart_settle d.apart (by simp)

/-- A step; nobody joins who waits, and only who waits leaves or is served. -/
def step (d : Dispenser κ) : Event κ → Option (Dispenser κ)
  | .join c => if h : (c, .waiting) ∉ d.visits then some (d.join c .waiting rfl h) else none
  | .turnAway c => if h : (c, .waiting) ∉ d.visits then some (d.join c .left rfl h) else none
  | .leave c => if h : (c, .waiting) ∈ d.visits then some (d.leave c h) else none
  | .serve c => if h : (c, .waiting) ∈ d.visits then some (d.serve c h) else none

end Dispenser

end Tickets
