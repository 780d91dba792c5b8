import Mathlib.Data.List.Nodup
import Mathlib.Tactic

/-!
# Erasing from a list while scanning it by index

A loop that erases the element at its index and then increments the index passes over the element
that has moved into the free place. `visited` lists the elements such a loop comes to, and `kept`
what it leaves. Of a list without duplicates, exactly the elements directly behind an erased one
are passed over (`notMem_visited_of_behind`, `exists_ahead_of_notMem_visited`).
-/

namespace Erasing

variable {α : Type*}

/-- The elements that the loop comes to when it erases those with `erased`. -/
def visited (erased : α → Bool) : List α → List α
  | [] => []
  | [p] => [p]
  | p :: q :: rest =>
    if erased p then p :: visited erased rest else p :: visited erased (q :: rest)

/-- The elements that the loop leaves. -/
def kept (erased : α → Bool) : List α → List α
  | [] => []
  | [p] => if erased p then [] else [p]
  | p :: q :: rest =>
    if erased p then q :: kept erased rest else p :: kept erased (q :: rest)

variable {erased : α → Bool} {p q x : α} {l rest : List α}

theorem visited_cons_of_erased (h : erased p = true) :
    visited erased (p :: rest) = p :: visited erased rest.tail := by
  cases rest with
  | nil => rfl
  | cons q rest => exact if_pos h

theorem visited_cons_of_not (h : erased p = false) :
    visited erased (p :: rest) = p :: visited erased rest := by
  cases rest with
  | nil => rfl
  | cons q rest =>
    apply if_neg
    rw [h]
    exact Bool.false_ne_true

theorem kept_cons_of_erased (h : erased p = true) :
    kept erased (p :: rest) = rest.head?.toList ++ kept erased rest.tail := by
  cases rest with
  | nil => exact if_pos h
  | cons q rest => exact if_pos h

theorem kept_cons_of_not (h : erased p = false) :
    kept erased (p :: rest) = p :: kept erased rest := by
  have hne : ¬ erased p = true := by
    rw [h]
    exact Bool.false_ne_true
  cases rest with
  | nil => exact if_neg hne
  | cons q rest => exact if_neg hne

/-- An element that is erased takes the next one out of the loop's way. -/
theorem scan_induction (erased : α → Bool) {motive : List α → Prop} (nil : motive [])
    (erase : ∀ p rest, erased p = true → motive rest.tail → motive (p :: rest))
    (keep : ∀ p rest, erased p = false → motive rest → motive (p :: rest)) (l : List α) :
    motive l := by
  induction l using visited.induct erased with
  | case1 => exact nil
  | case2 p =>
    cases h : erased p with
    | true => exact erase p [] h nil
    | false => exact keep p [] h nil
  | case3 p q rest h ih => exact erase p (q :: rest) h ih
  | case4 p q rest h ih => exact keep p (q :: rest) (Bool.eq_false_of_not_eq_true h) ih

theorem visited_sublist (erased : α → Bool) (l : List α) : (visited erased l).Sublist l := by
  induction l using scan_induction erased with
  | nil => exact .slnil
  | erase p rest h ih =>
    rw [visited_cons_of_erased h]
    exact (ih.trans rest.tail_sublist).cons_cons p
  | keep p rest h ih =>
    rw [visited_cons_of_not h]
    exact ih.cons_cons p

theorem kept_sublist (erased : α → Bool) (l : List α) : (kept erased l).Sublist l := by
  induction l using scan_induction erased with
  | nil => exact .slnil
  | erase p rest h ih =>
    rw [kept_cons_of_erased h]
    cases rest with
    | nil => exact ih.cons p
    | cons q rest => exact (ih.cons_cons q).cons p
  | keep p rest h ih =>
    rw [kept_cons_of_not h]
    exact ih.cons_cons p

/-- From a list without duplicates the loop erases the elements with `erased` that it comes to. -/
theorem mem_kept_iff (hnodup : l.Nodup) (hx : x ∈ l) :
    x ∈ kept erased l ↔ ¬ (x ∈ visited erased l ∧ erased x = true) := by
  induction l using scan_induction erased with
  | nil => cases hx
  | erase p rest h ih =>
    obtain ⟨hp, hrest⟩ := List.nodup_cons.mp hnodup
    rw [kept_cons_of_erased h, visited_cons_of_erased h, List.mem_cons]
    have hvisited := (visited_sublist erased rest.tail).subset
    have hkept := (kept_sublist erased rest.tail).subset
    rcases List.mem_cons.mp hx with rfl | hx
    · have hnot : x ∉ rest.head?.toList ++ kept erased rest.tail := by
        rw [List.mem_append, Option.mem_toList]
        rintro (hhead | htail)
        · exact hp (List.mem_of_mem_head? hhead)
        · exact hp (List.mem_of_mem_tail (hkept htail))
      exact iff_of_false hnot fun hnot => hnot ⟨Or.inl rfl, h⟩
    have hne : x ≠ p := fun e => hp (e ▸ hx)
    cases rest with
    | nil => cases hx
    | cons q rest =>
      obtain ⟨hq, htail⟩ := List.nodup_cons.mp hrest
      rcases List.mem_cons.mp hx with rfl | hx
      · refine iff_of_true List.mem_cons_self ?_
        rintro ⟨rfl | hx, -⟩
        · exact hne rfl
        · exact hq (hvisited hx)
      · have hneq : x ≠ q := fun e => hq (e ▸ hx)
        show x ∈ q :: kept erased rest ↔ _
        rw [List.mem_cons, or_iff_right hneq, or_iff_right hne]
        exact ih htail hx
  | keep p rest h ih =>
    obtain ⟨hp, hrest⟩ := List.nodup_cons.mp hnodup
    rw [kept_cons_of_not h, visited_cons_of_not h]
    rcases List.mem_cons.mp hx with rfl | hx
    · refine iff_of_true List.mem_cons_self fun hx => ?_
      exact Bool.false_ne_true (h.symm.trans hx.2)
    · have hne : x ≠ p := fun e => hp (e ▸ hx)
      rw [List.mem_cons, List.mem_cons, or_iff_right hne, or_iff_right hne]
      exact ih hrest hx

/-- The element directly behind one that is erased is passed over. -/
theorem notMem_visited_of_behind {before after : List α} (hnodup : l.Nodup)
    (hl : l = before ++ p :: q :: after) (hp : p ∈ visited erased l) (herased : erased p = true) :
    q ∉ visited erased l := by
  induction l using scan_induction erased generalizing before with
  | nil => simp at hl
  | erase x rest h ih =>
    obtain ⟨hx, hrest⟩ := List.nodup_cons.mp hnodup
    rw [visited_cons_of_erased h, List.mem_cons, not_or]
    rw [visited_cons_of_erased h, List.mem_cons] at hp
    have hvisited := (visited_sublist erased rest.tail).subset
    match before with
    | [] =>
      obtain ⟨rfl, rfl⟩ : x = p ∧ rest = q :: after := by simpa using hl
      obtain ⟨hq, -⟩ := List.nodup_cons.mp hrest
      exact ⟨fun e => hx (e ▸ List.mem_cons_self), fun hmem => hq (hvisited hmem)⟩
    | [y] =>
      obtain ⟨rfl, rfl⟩ : x = y ∧ rest = p :: q :: after := by simpa using hl
      obtain ⟨hpq, -⟩ := List.nodup_cons.mp hrest
      rcases hp with rfl | hp
      · exact absurd List.mem_cons_self hx
      · exact absurd (hvisited hp) hpq
    | y :: z :: before =>
      obtain ⟨rfl, rfl⟩ : x = y ∧ rest = z :: before ++ p :: q :: after := by simpa using hl
      refine ⟨fun e => hx (by simp [e]), ?_⟩
      rcases hp with rfl | hp
      · exact absurd (by simp) hx
      · exact ih hrest.tail rfl hp
  | keep x rest h ih =>
    obtain ⟨hx, hrest⟩ := List.nodup_cons.mp hnodup
    rw [visited_cons_of_not h, List.mem_cons, not_or]
    rw [visited_cons_of_not h, List.mem_cons] at hp
    match before with
    | [] =>
      obtain ⟨rfl, -⟩ : x = p ∧ rest = q :: after := by simpa using hl
      rw [h] at herased
      cases herased
    | y :: before =>
      obtain ⟨rfl, rfl⟩ : x = y ∧ rest = before ++ p :: q :: after := by simpa using hl
      refine ⟨fun e => hx (by simp [e]), ?_⟩
      rcases hp with rfl | hp
      · exact absurd (by simp) hx
      · exact ih hrest rfl hp

/-- An element that is passed over stands directly behind one that is erased. -/
theorem exists_ahead_of_notMem_visited (hx : x ∈ l) (hnot : x ∉ visited erased l) :
    ∃ before p after, l = before ++ p :: x :: after ∧ p ∈ visited erased l ∧ erased p = true := by
  induction l using scan_induction erased with
  | nil => cases hx
  | erase p rest h ih =>
    rw [visited_cons_of_erased h, List.mem_cons, not_or] at hnot
    rw [visited_cons_of_erased h]
    obtain ⟨hne, hnot⟩ := hnot
    cases rest with
    | nil => exact absurd (List.mem_singleton.mp hx) hne
    | cons q rest =>
      rcases List.mem_cons.mp (List.mem_of_ne_of_mem hne hx) with rfl | hx
      · exact ⟨[], p, rest, rfl, List.mem_cons_self, h⟩
      · obtain ⟨before, y, after, hrest, hy, herased⟩ := ih hx hnot
        refine ⟨p :: q :: before, y, after, ?_, List.mem_cons_of_mem p hy, herased⟩
        exact congrArg (p :: q :: ·) hrest
  | keep p rest h ih =>
    rw [visited_cons_of_not h, List.mem_cons, not_or] at hnot
    rw [visited_cons_of_not h]
    obtain ⟨before, y, after, hrest, hy, herased⟩ := ih (List.mem_of_ne_of_mem hnot.1 hx) hnot.2
    exact ⟨p :: before, y, after, congrArg (p :: ·) hrest, List.mem_cons_of_mem p hy, herased⟩

/-- In a list without duplicates only one element stands directly ahead of another. -/
theorem before_eq_concat {before before' after after' : List α} (hnodup : l.Nodup)
    (hx : l = before ++ x :: after) (hp : l = before' ++ p :: x :: after') :
    before = before' ++ [p] := by
  have hnot := List.nodup_cons.mp ((List.nodup_middle).mp (hx ▸ hnodup))
  rw [List.mem_append, not_or] at hnot
  have h : before ++ x :: after = (before' ++ [p]) ++ x :: after' := by
    rw [← hx, hp, List.append_assoc]
    rfl
  exact ((List.append_cons_inj_of_notMem hnot.1.1 hnot.1.2).mp h).1

end Erasing
