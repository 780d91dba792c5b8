import Mathlib.Data.List.Nodup
import Mathlib.Tactic

/-!
# Labels for names that repeat

Names are labelled one after another. A name that is not in use is its own label; the label of
another one is made by `mk` of the name and the number of such names so far. A label so made is in
use from then on, but it may have been in use before: `KeepsApart` says that none was, and the
labels are distinct exactly then (`labels_nodup_iff`). Names apart from all that `mk` makes of them
are kept apart (`keepsApart_of_apart`).
-/

namespace Naming

variable {α : Type*} [DecidableEq α] (mk : α → ℕ → α)

/-- The labels of the names, from labels in use and a number of repeated names on. -/
def labels : List α → ℕ → List α → List α
  | _, _, [] => []
  | used, count, name :: names =>
    if name ∈ used then
      mk name (count + 1) :: labels (mk name (count + 1) :: used) (count + 1) names
    else name :: labels (name :: used) count names

/-- The number of repeated names at the end. -/
def repeats : List α → ℕ → List α → ℕ
  | _, count, [] => count
  | used, count, name :: names =>
    if name ∈ used then repeats (mk name (count + 1) :: used) (count + 1) names
    else repeats (name :: used) count names

/-- What is made of a repeated name is not in use. -/
def KeepsApart : List α → ℕ → List α → Prop
  | _, _, [] => True
  | used, count, name :: names =>
    if name ∈ used then
      mk name (count + 1) ∉ used ∧ KeepsApart (mk name (count + 1) :: used) (count + 1) names
    else KeepsApart (name :: used) count names

instance decidableKeepsApart : (used : List α) → (count : ℕ) → (names : List α) →
    Decidable (KeepsApart mk used count names)
  | _, _, [] => inferInstanceAs (Decidable True)
  | used, count, name :: names =>
    have := decidableKeepsApart (mk name (count + 1) :: used) (count + 1) names
    have := decidableKeepsApart (name :: used) count names
    inferInstanceAs (Decidable (if name ∈ used then _ else _))

variable {mk} {used : List α} {count : ℕ} {name : α} {names : List α}

theorem labels_cons_of_mem (h : name ∈ used) : labels mk used count (name :: names) =
    mk name (count + 1) :: labels mk (mk name (count + 1) :: used) (count + 1) names :=
  if_pos h

theorem labels_cons_of_notMem (h : name ∉ used) :
    labels mk used count (name :: names) = name :: labels mk (name :: used) count names :=
  if_neg h

theorem repeats_cons_of_mem (h : name ∈ used) : repeats mk used count (name :: names) =
    repeats mk (mk name (count + 1) :: used) (count + 1) names :=
  if_pos h

theorem repeats_cons_of_notMem (h : name ∉ used) :
    repeats mk used count (name :: names) = repeats mk (name :: used) count names :=
  if_neg h

variable (mk) in
theorem length_labels (used : List α) (count : ℕ) (names : List α) :
    (labels mk used count names).length = names.length := by
  induction names generalizing used count with
  | nil => rfl
  | cons name names ih =>
    by_cases h : name ∈ used
    · rw [labels_cons_of_mem h, List.length_cons, ih, List.length_cons]
    · rw [labels_cons_of_notMem h, List.length_cons, ih, List.length_cons]

variable (mk) in
/-- Every name may be repeated. -/
theorem repeats_bounds (used : List α) (count : ℕ) (names : List α) :
    count ≤ repeats mk used count names ∧
      repeats mk used count names ≤ count + names.length := by
  induction names generalizing used count with
  | nil => exact ⟨le_rfl, le_rfl⟩
  | cons name names ih =>
    rw [List.length_cons]
    by_cases h : name ∈ used
    · have hih := ih (mk name (count + 1) :: used) (count + 1)
      rw [repeats_cons_of_mem h]
      omega
    · have hih := ih (name :: used) count
      rw [repeats_cons_of_notMem h]
      omega

/-- One label more, apart from the labels in use and from those that follow. -/
theorem nodup_cons_and_iff {β : Type*} {label : β} {used rest : List β} :
    ((label :: rest).Nodup ∧ ∀ l ∈ label :: rest, l ∉ used) ↔
      label ∉ used ∧ rest.Nodup ∧ ∀ l ∈ rest, l ∉ label :: used := by
  rw [List.nodup_cons, List.forall_mem_cons]
  simp only [List.mem_cons, not_or]
  constructor
  · rintro ⟨⟨hlabel, hrest⟩, hused, hall⟩
    exact ⟨hused, hrest, fun l hl => ⟨fun heq => hlabel (heq ▸ hl), hall l hl⟩⟩
  · rintro ⟨hused, hrest, hall⟩
    exact ⟨⟨fun hl => (hall label hl).1 rfl, hrest⟩, hused, fun l hl => (hall l hl).2⟩

variable (mk) in
/-- The labels are distinct, and apart from those in use, when no label is made that is in use. -/
theorem labels_nodup_and_iff (used : List α) (count : ℕ) (names : List α) :
    ((labels mk used count names).Nodup ∧ ∀ l ∈ labels mk used count names, l ∉ used) ↔
      KeepsApart mk used count names := by
  induction names generalizing used count with
  | nil => simp [labels, KeepsApart]
  | cons name names ih =>
    unfold KeepsApart
    by_cases h : name ∈ used
    · rw [labels_cons_of_mem h, nodup_cons_and_iff, ih, if_pos h]
    · rw [labels_cons_of_notMem h, nodup_cons_and_iff, ih, if_neg h, and_iff_right h]

variable (mk) in
/-- **Distinct labels.** -/
theorem labels_nodup_iff (names : List α) :
    (labels mk [] 0 names).Nodup ↔ KeepsApart mk [] 0 names := by
  rw [← labels_nodup_and_iff]
  simp

/-- The labels in use are names or were made of names, with numbers up to `count`. -/
theorem keepsApart_of_used {all : List α} (hname : ∀ a ∈ all, ∀ b ∈ all, ∀ n, mk a n ≠ b)
    (hmk : ∀ a ∈ all, ∀ b ∈ all, ∀ m n, mk a m = mk b n → m = n) (hall : ∀ a ∈ names, a ∈ all)
    (hused : ∀ l ∈ used, l ∈ all ∨ ∃ a ∈ all, ∃ n ≤ count, l = mk a n) :
    KeepsApart mk used count names := by
  induction names generalizing used count with
  | nil => trivial
  | cons name names ih =>
    obtain ⟨hhead, htail⟩ := List.forall_mem_cons.mp hall
    unfold KeepsApart
    split_ifs with h
    · refine ⟨fun hmem => ?_, ih htail fun l hl => ?_⟩
      · rcases hused _ hmem with hin | ⟨a, ha, n, hn, heq⟩
        · exact hname name hhead _ hin _ rfl
        · have := hmk name hhead a ha _ _ heq
          omega
      · rcases List.mem_cons.mp hl with rfl | hl
        · exact Or.inr ⟨name, hhead, count + 1, le_rfl, rfl⟩
        · exact (hused l hl).imp_right fun ⟨a, ha, n, hn, heq⟩ =>
            ⟨a, ha, n, Nat.le_succ_of_le hn, heq⟩
    · refine ih htail fun l hl => ?_
      rcases List.mem_cons.mp hl with rfl | hl
      · exact Or.inl hhead
      · exact hused l hl

/-- Names of which none is made of another one, where what is made of names tells the numbers. -/
theorem keepsApart_of_apart (hname : ∀ a ∈ names, ∀ b ∈ names, ∀ n, mk a n ≠ b)
    (hmk : ∀ a ∈ names, ∀ b ∈ names, ∀ m n, mk a m = mk b n → m = n) :
    KeepsApart mk [] 0 names :=
  keepsApart_of_used hname hmk (fun _ ha => ha) (by simp)

end Naming
