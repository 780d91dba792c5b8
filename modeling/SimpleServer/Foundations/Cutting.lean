import Mathlib.Data.List.Infix
import Mathlib.Tactic

/-!
# Cutting a list

Two ways to take a list apart. `Cut p s ps` says that `ps` are the pieces of `s` between the
occurrences of the pattern `p`, each the leftmost one behind the one before; a list has exactly one
such list of pieces when the pattern is not empty (`exists_cut`, `Cut.unique`). `Spans P s spans`
says that `spans` are, in their order, the places of all maximal runs of elements of `s` that
satisfy `P`.
-/

namespace Cutting

variable {α : Type*}

/-! ## At the occurrences of a pattern -/

/-- In `a ++ p ++ b` the pattern does not occur before the end of `a`. -/
def Leftmost (p a b : List α) : Prop :=
  ∀ a' b', a' ++ p ++ b' = a ++ p ++ b → a.length ≤ a'.length

/-- The pieces between the occurrences of a pattern. -/
inductive Cut (p : List α) : List α → List (List α) → Prop
  | last {s : List α} : ¬ p <:+: s → Cut p s [s]
  | next {a b : List α} {ps : List (List α)} : Leftmost p a b → Cut p b ps →
      Cut p (a ++ p ++ b) (a :: ps)

theorem exists_leftmost {p s : List α} (h : p <:+: s) :
    ∃ a b, s = a ++ p ++ b ∧ Leftmost p a b := by
  classical
  obtain ⟨a₀, b₀, h₀⟩ := h
  have hex : ∃ n, ∃ a b, s = a ++ p ++ b ∧ a.length = n := ⟨_, a₀, b₀, h₀.symm, rfl⟩
  obtain ⟨a, b, hs, ha⟩ := Nat.find_spec hex
  refine ⟨a, b, hs, fun a' b' heq => ?_⟩
  rw [ha]
  exact Nat.find_min' hex ⟨a', b', by rw [heq, hs], rfl⟩

/-- Two leftmost occurrences in one list are the same. -/
theorem Leftmost.eq {p a b a' b' : List α} (h : Leftmost p a b) (h' : Leftmost p a' b')
    (heq : a ++ p ++ b = a' ++ p ++ b') : a = a' ∧ b = b' := by
  have hlen : a.length = a'.length := le_antisymm (h a' b' heq.symm) (h' a b heq)
  rw [List.append_assoc, List.append_assoc] at heq
  obtain ⟨ha, hrest⟩ := List.append_inj heq hlen
  exact ⟨ha, List.append_cancel_left hrest⟩

theorem infix_append (p a b : List α) : p <:+: a ++ p ++ b := ⟨a, b, rfl⟩

/-- Every list has pieces. -/
theorem exists_cut {p : List α} (hp : p ≠ []) (s : List α) : ∃ ps, Cut p s ps := by
  induction hn : s.length using Nat.strong_induction_on generalizing s with
  | _ n ih =>
    by_cases hs : p <:+: s
    · obtain ⟨a, b, rfl, hleft⟩ := exists_leftmost hs
      have hpos := List.length_pos_of_ne_nil hp
      have hlt : b.length < n := by
        rw [← hn, List.length_append, List.length_append]
        omega
      obtain ⟨ps, hps⟩ := ih b.length hlt b rfl
      exact ⟨a :: ps, .next hleft hps⟩
    · exact ⟨[s], .last hs⟩

/-- A list has no other pieces. -/
theorem Cut.unique {p s : List α} {ps qs : List (List α)} (h : Cut p s ps) (h' : Cut p s qs) :
    ps = qs := by
  induction h generalizing qs with
  | last hs =>
    cases h' with
    | last _ => rfl
    | next _ _ => exact absurd (infix_append _ _ _) hs
  | @next a b ps hleft _ ih =>
    generalize hs : a ++ p ++ b = s at h'
    cases h' with
    | last hs' =>
      rw [← hs] at hs'
      exact absurd (infix_append _ _ _) hs'
    | @next a' b' qs' hleft' h' =>
      obtain ⟨rfl, rfl⟩ := hleft.eq hleft' hs
      rw [ih h']

theorem Cut.ne_nil {p s : List α} {ps : List (List α)} (h : Cut p s ps) : ps ≠ [] := by
  cases h <;> simp

/-! ## At maximal runs -/

/-- The elements of `s` from place `i` to before place `j` satisfy `P`, and those next to them do
not. -/
structure IsSpan (P : α → Prop) (s : List α) (i j : ℕ) : Prop where
  lt : i < j
  inside : ∀ k, i ≤ k → k < j → ∃ c, s[k]? = some c ∧ P c
  left : ∀ k c, k + 1 = i → s[k]? = some c → ¬ P c
  right : ∀ c, s[j]? = some c → ¬ P c

/-- All maximal runs, in their order. -/
structure Spans (P : α → Prop) (s : List α) (spans : List (ℕ × ℕ)) : Prop where
  sorted : spans.Pairwise fun e f => e.2 < f.1
  mem_iff : ∀ i j, (i, j) ∈ spans ↔ IsSpan P s i j

/-- The elements of `s` in a run. -/
def elements (s : List α) (e : ℕ × ℕ) : List α := (s.drop e.1).take (e.2 - e.1)

/-- A run moved by `n` places. -/
def shift (n : ℕ) (e : ℕ × ℕ) : ℕ × ℕ := (e.1 + n, e.2 + n)

section Runs

variable {P : α → Prop} {u v : List α} {x : α}

theorem getElem?_append_cons (k : ℕ) : (u ++ x :: v)[k + (u.length + 1)]? = v[k]? := by
  rw [List.getElem?_append_right (by omega),
    show k + (u.length + 1) - u.length = k + 1 by omega, List.getElem?_cons_succ]

theorem getElem?_append_self : (u ++ x :: v)[u.length]? = some x := by
  rw [List.getElem?_append_right le_rfl, Nat.sub_self, List.getElem?_cons_zero]

/-- A run in front is an element of the first list that satisfies `P` in all places. -/
theorem exists_getElem?_append (hu : ∀ c ∈ u, P c) (t : List α) {k : ℕ} (hk : k < u.length) :
    ∃ c, (u ++ t)[k]? = some c ∧ P c := by
  rw [List.getElem?_append_left hk, List.getElem?_eq_getElem hk]
  exact ⟨_, rfl, hu _ (List.getElem_mem hk)⟩

/-- A run that ends inside a list of elements that satisfy `P` is all of the list. -/
theorem IsSpan.eq_of_le {t : List α} {i j : ℕ} (h : IsSpan P (u ++ t) i j) (hu : ∀ c ∈ u, P c)
    (hj : j ≤ u.length) : u ≠ [] ∧ i = 0 ∧ j = u.length := by
  have hlt := h.lt
  have hi0 : i = 0 := by
    by_contra hne
    obtain ⟨c, hc, hPc⟩ := exists_getElem?_append hu t (k := i - 1) (by omega)
    exact h.left (i - 1) c (by omega) hc hPc
  have hjn : j = u.length := by
    by_contra hne
    obtain ⟨c, hc, hPc⟩ := exists_getElem?_append hu t (k := j) (by omega)
    exact h.right c hc hPc
  refine ⟨fun hnil => ?_, hi0, hjn⟩
  rw [hnil, List.length_nil] at hjn
  omega

/-- An element that does not satisfy `P` ends the run in front of it. -/
theorem isSpan_append_cons (hu : ∀ c ∈ u, P c) (hx : ¬ P x) (i j : ℕ) :
    IsSpan P (u ++ x :: v) i j ↔ (u ≠ [] ∧ i = 0 ∧ j = u.length) ∨
      ∃ i' j', (i, j) = shift (u.length + 1) (i', j') ∧ IsSpan P v i' j' := by
  constructor
  · intro hspan
    have ⟨hlt, hinside, hleft, hright⟩ := hspan
    have hout : ¬ (i ≤ u.length ∧ u.length < j) := fun h => by
      obtain ⟨c, hc, hPc⟩ := hinside u.length h.1 h.2
      rw [getElem?_append_self, Option.some.injEq] at hc
      exact hx (hc ▸ hPc)
    by_cases hi : i ≤ u.length
    · -- the run stands in `u`, and is all of it
      left
      exact hspan.eq_of_le hu (not_lt.mp fun h => hout ⟨hi, h⟩)
    · right
      refine ⟨i - (u.length + 1), j - (u.length + 1), ?_, ?_, fun k hk hkj => ?_,
        fun k c hk hc => ?_, fun c hc => ?_⟩
      · rw [shift, Prod.mk.injEq]
        omega
      · omega
      · rw [← getElem?_append_cons (u := u) (x := x)]
        exact hinside _ (by omega) (by omega)
      · rw [← getElem?_append_cons (u := u) (x := x)] at hc
        exact hleft _ c (by omega) hc
      · rw [← getElem?_append_cons (u := u) (x := x),
          Nat.sub_add_cancel (by omega)] at hc
        exact hright c hc
  · rintro (⟨hne, rfl, rfl⟩ | ⟨i', j', heq, hlt, hinside, hleft, hright⟩)
    · refine ⟨List.length_pos_of_ne_nil hne, fun k _ hk => exists_getElem?_append hu _ hk,
        fun k c hk => by omega, fun c hc => ?_⟩
      rw [getElem?_append_self, Option.some.injEq] at hc
      exact hc ▸ hx
    · rw [shift, Prod.mk.injEq] at heq
      obtain ⟨rfl, rfl⟩ := heq
      refine ⟨by omega, fun k hk hkj => ?_, fun k c hk hc => ?_, fun c hc => ?_⟩
      · obtain ⟨k', rfl⟩ := Nat.exists_eq_add_of_le' (show u.length + 1 ≤ k by omega)
        rw [getElem?_append_cons]
        exact hinside k' (by omega) (by omega)
      · by_cases hk' : k = u.length
        · rw [hk', getElem?_append_self, Option.some.injEq] at hc
          exact hc ▸ hx
        · obtain ⟨k', rfl⟩ := Nat.exists_eq_add_of_le' (show u.length + 1 ≤ k by omega)
          rw [getElem?_append_cons] at hc
          exact hleft k' c (by omega) hc
      · rw [getElem?_append_cons] at hc
        exact hright c hc

/-- The one run of a list that is a run, if it is not empty. -/
def whole (u : List α) : List (ℕ × ℕ) := if u = [] then [] else [(0, u.length)]

theorem mem_whole (i j : ℕ) : (i, j) ∈ whole u ↔ u ≠ [] ∧ i = 0 ∧ j = u.length := by
  unfold whole
  split_ifs with h
  · simp [h]
  · simp [h]

theorem spans_whole (hu : ∀ c ∈ u, P c) : Spans P u (whole u) := by
  refine ⟨?_, fun i j => ?_⟩
  · unfold whole
    split_ifs <;> simp
  · rw [mem_whole]
    constructor
    · rintro ⟨hne, rfl, rfl⟩
      refine ⟨List.length_pos_of_ne_nil hne, fun k _ hk => ?_, fun k c hk => by omega,
        fun c hc => ?_⟩
      · simpa using exists_getElem?_append hu [] hk
      · simp at hc
    · intro h
      have hlt := h.lt
      have hj : j ≤ u.length := by
        obtain ⟨c, hc, -⟩ := h.inside (j - 1) (by omega) (by omega)
        have := (List.getElem?_eq_some_iff.mp hc).1
        omega
      rw [← List.append_nil u] at h
      exact h.eq_of_le hu hj

/-- The runs behind an element that does not satisfy `P` are moved, and one may stand in front. -/
theorem Spans.append_cons {spans : List (ℕ × ℕ)} (h : Spans P v spans) (hu : ∀ c ∈ u, P c)
    (hx : ¬ P x) : Spans P (u ++ x :: v) (whole u ++ spans.map (shift (u.length + 1))) := by
  refine ⟨?_, fun i j => ?_⟩
  · rw [List.pairwise_append, List.pairwise_map]
    refine ⟨(spans_whole hu).sorted, h.sorted.imp fun hlt => ?_, fun e he f hf => ?_⟩
    · rw [shift, shift]
      omega
    · obtain ⟨f', -, rfl⟩ := List.mem_map.mp hf
      obtain ⟨-, -, he2⟩ := (mem_whole e.1 e.2).mp he
      rw [he2, shift]
      omega
  · rw [List.mem_append, mem_whole, isSpan_append_cons hu hx, List.mem_map]
    refine or_congr Iff.rfl ⟨?_, ?_⟩
    · rintro ⟨⟨i', j'⟩, hmem, heq⟩
      exact ⟨i', j', heq.symm, (h.mem_iff i' j').mp hmem⟩
    · rintro ⟨i', j', heq, hspan⟩
      exact ⟨(i', j'), (h.mem_iff i' j').mpr hspan, heq.symm⟩

theorem map_elements_whole (t : List α) :
    (whole u).map (elements (u ++ t)) = [u].filter (· ≠ []) := by
  unfold whole
  split_ifs with h
  · simp [h]
  · simp [h, elements]

theorem elements_shift (e : ℕ × ℕ) :
    elements (u ++ x :: v) (shift (u.length + 1) e) = elements v e := by
  have hdrop : (u ++ x :: v).drop (e.1 + (u.length + 1)) = v.drop e.1 := by
    apply List.ext_getElem?
    intro k
    rw [List.getElem?_drop, List.getElem?_drop, Nat.add_right_comm, getElem?_append_cons]
  rw [elements, elements, shift, hdrop, Nat.add_sub_add_right]

end Runs

/-- The pieces of a list between the places of an element, without the empty ones, are its maximal
runs of other elements. -/
theorem exists_spans [DecidableEq α] (a : α) (s : List α) :
    ∃ spans, Spans (· ≠ a) s spans ∧
      spans.map (elements s) = (s.splitOn a).filter (· ≠ []) := by
  have hother : ∀ u : List α, a ∉ u → ∀ c ∈ u, c ≠ a := fun u hu c hc heq => hu (heq ▸ hc)
  induction hn : s.length using Nat.strong_induction_on generalizing s with
  | _ n ih =>
    by_cases hmem : a ∈ s
    · obtain ⟨u, v, rfl, hu⟩ := List.eq_append_cons_of_mem hmem
      have hlt : v.length < n := by
        rw [← hn, List.length_append, List.length_cons]
        omega
      obtain ⟨spans, hspans, hmap⟩ := ih v.length hlt v rfl
      refine ⟨_, hspans.append_cons (hother u hu) (not_not.mpr rfl), ?_⟩
      rw [List.map_append, map_elements_whole, List.map_map, List.splitOn_append_cons_self,
        List.splitOn_eq_singleton hu, List.filter_append, ← hmap]
      congr 1
      exact List.map_congr_left fun e _ => elements_shift e
    · refine ⟨_, spans_whole (hother s hmem), ?_⟩
      have hwhole := map_elements_whole (u := s) []
      rw [List.append_nil] at hwhole
      rw [hwhole, List.splitOn_eq_singleton hmem]

end Cutting
