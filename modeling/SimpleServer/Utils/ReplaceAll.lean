import SimpleServer.Foundations.Bytes
import SimpleServer.Foundations.Cutting

/-!
# Replacing all occurrences

`replace_all` of `string_utils.h`; `simple_server_utils.cpp` has the same text. The function edits
the string that it searches. Behind the position from which it searches next the string is still
the one that it was given, and that part gets shorter in every pass when the pattern is not empty;
so the loop ends, and the string is that of its pieces with the replacement between them
(`replaceAll_pieces`).

An empty pattern is found at the position itself, and the part behind it never gets shorter. Such a
call does not return; it ends only where the string has grown to the largest size that a
`std::string` can have, so never when the replacement is empty too (`replaceAllMax_ends_iff`).
-/

namespace SimpleServer

open Cxx Cutting

/-- The loop of `replace_all`; `none` when it is still running after the passes allowed. -/
def replaceAllLoop (from' to' : Bytes) : ℕ → Bytes → ℕ → Option Bytes
  | 0, _, _ => none
  | passes + 1, str, startPos =>
    match findFrom from' str startPos with
    | none => some str
    | some startPos =>
      replaceAllLoop from' to' passes (replaceAt str startPos from'.length to')
        (startPos + to'.length)

/-- `replace_all`, when its loop makes at most `passes` passes. -/
def replaceAll (passes : ℕ) (str from' to' : Bytes) : Option Bytes :=
  replaceAllLoop from' to' passes str 0

section Loop

variable {from' a b : Bytes}

/-- The leftmost occurrence is found. -/
theorem find_leftmost (h : Leftmost from' a b) : find from' (a ++ from' ++ b) = some a.length := by
  obtain ⟨n, hn, hfind⟩ := find_append_le from' a b
  obtain ⟨a', b', heq, hlen⟩ := exists_of_find hfind
  have hle := h a' b' heq.symm
  rw [hfind, Option.some.injEq]
  omega

theorem findFrom_append (edited rest : Bytes) :
    findFrom from' (edited ++ rest) edited.length =
      (find from' rest).map (· + edited.length) := by
  rw [findFrom, if_neg (by simp), List.drop_left]

/-- One pass: the piece in front of the occurrence and the replacement are edited text now. -/
theorem replaceAt_append (edited to' : Bytes) :
    replaceAt (edited ++ (a ++ from' ++ b)) (a.length + edited.length) from'.length to' =
      edited ++ a ++ to' ++ b := by
  have hlen : a.length + edited.length = (edited ++ a).length := by
    rw [List.length_append, Nat.add_comm]
  have hassoc : edited ++ (a ++ from' ++ b) = edited ++ a ++ (from' ++ b) := by simp
  rw [replaceAt, hlen, hassoc, List.take_left, ← List.drop_drop, List.drop_left, List.drop_left]

/-- The loop with the edited text in front of the position, whatever it holds. -/
theorem replaceAllLoop_cut {rest : Bytes} {pieces : List Bytes} (hfrom : from' ≠ [])
    (hcut : Cut from' rest pieces) (to' edited : Bytes) {passes : ℕ} (h : rest.length < passes) :
    replaceAllLoop from' to' passes (edited ++ rest) edited.length =
      some (edited ++ List.intercalate to' pieces) := by
  induction hcut generalizing edited passes with
  | @last s hs =>
    obtain ⟨passes, rfl⟩ := Nat.exists_eq_add_of_le' (Nat.one_le_of_lt h)
    rw [replaceAllLoop, findFrom_append, (find_eq_none_iff _ _).mpr hs, Option.map_none,
      List.intercalate_singleton]
  | @next a b pieces hleft hcut ih =>
    obtain ⟨passes, rfl⟩ := Nat.exists_eq_add_of_le' (Nat.one_le_of_lt h)
    have hpos := List.length_pos_of_ne_nil hfrom
    rw [List.length_append, List.length_append] at h
    have hlen : a.length + edited.length + to'.length = (edited ++ a ++ to').length := by
      rw [List.length_append, List.length_append]
      omega
    obtain ⟨piece, pieces, rfl⟩ := List.exists_cons_of_ne_nil hcut.ne_nil
    rw [replaceAllLoop, findFrom_append, find_leftmost hleft, Option.map_some]
    simp only
    rw [replaceAt_append, hlen, ih _ (by omega), List.intercalate_cons_cons]
    simp

end Loop

/-- **`replace_all` replaces all occurrences.** For every string, every pattern that is not empty
and every replacement: the loop ends, after at most one pass more than the string has bytes, and
returns the pieces of the string between the leftmost occurrences of the pattern, each searched for
behind the one before, joined by the replacement. The string has one such list of pieces. -/
theorem replaceAll_pieces (str from' to' : Bytes) (hfrom : from' ≠ []) :
    ∃ pieces, Cut from' str pieces ∧ (∀ pieces', Cut from' str pieces' → pieces' = pieces) ∧
      ∀ passes, str.length < passes →
        replaceAll passes str from' to' = some (List.intercalate to' pieces) := by
  obtain ⟨pieces, hcut⟩ := exists_cut hfrom str
  exact ⟨pieces, hcut, fun pieces' hcut' => hcut'.unique hcut,
    fun passes h => replaceAllLoop_cut hfrom hcut to' [] h⟩

/-- Occurrences that overlap, and a replacement that holds the pattern. -/
theorem replaceAll_pieces_overlap : lit "aa" ≠ [] ∧
    ∃ pieces, Cut (lit "aa") (lit "aaaaa") pieces ∧
      (∀ pieces', Cut (lit "aa") (lit "aaaaa") pieces' → pieces' = pieces) ∧
      ∀ passes, (lit "aaaaa").length < passes →
        replaceAll passes (lit "aaaaa") (lit "aa") (lit "aaa") =
          some (List.intercalate (lit "aaa") pieces) :=
  have hfrom : lit "aa" ≠ [] := by decide
  ⟨hfrom, replaceAll_pieces _ _ _ hfrom⟩

example : replaceAll 6 (lit "aaaaa") (lit "aa") (lit "aaa") = some (lit "aaaaaaa") := by decide

/-! ## The end of the loop -/

/-- The loop of `replace_all` on strings of at most `maxSize` bytes: `replace` throws when its
result would have more. -/
def replaceAllMaxLoop (maxSize : ℕ) (from' to' : Bytes) :
    ℕ → Bytes → ℕ → Option (Except Exn Bytes)
  | 0, _, _ => none
  | passes + 1, str, startPos =>
    match findFrom from' str startPos with
    | none => some (.ok str)
    | some startPos =>
      if maxSize - (str.length - from'.length) < to'.length then some (.error .lengthError)
      else
        replaceAllMaxLoop maxSize from' to' passes (replaceAt str startPos from'.length to')
          (startPos + to'.length)

/-- `replace_all` on strings of at most `maxSize` bytes. -/
def replaceAllMax (maxSize passes : ℕ) (str from' to' : Bytes) : Option (Except Exn Bytes) :=
  replaceAllMaxLoop maxSize from' to' passes str 0

section Ends

variable {maxSize : ℕ} {from' to' : Bytes}

/-- What is returned is what is returned without a largest size. -/
theorem replaceAllLoop_of_max {passes : ℕ} {str result : Bytes} {startPos : ℕ}
    (h : replaceAllMaxLoop maxSize from' to' passes str startPos = some (.ok result)) :
    replaceAllLoop from' to' passes str startPos = some result := by
  induction passes generalizing str startPos with
  | zero => cases h
  | succ passes ih =>
    rw [replaceAllMaxLoop] at h
    rw [replaceAllLoop]
    cases hfind : findFrom from' str startPos with
    | none =>
      rw [hfind] at h
      cases h
      rfl
    | some n =>
      rw [hfind] at h
      simp only at h ⊢
      by_cases hmax : maxSize - (str.length - from'.length) < to'.length
      · rw [if_pos hmax] at h
        cases h
      · rw [if_neg hmax] at h
        exact ih h

/-- An occurrence stands behind the position, inside the string. -/
theorem findFrom_bounds {str : Bytes} {pos n : ℕ} (h : findFrom from' str pos = some n) :
    pos ≤ n ∧ n + from'.length ≤ str.length := by
  unfold findFrom at h
  split_ifs at h with hpos
  obtain ⟨m, hm, rfl⟩ := Option.map_eq_some_iff.mp h
  have hle := find_length_le hm
  rw [List.length_drop] at hle
  omega

theorem length_replaceAt {str : Bytes} {n : ℕ} (h : n + from'.length ≤ str.length) :
    (replaceAt str n from'.length to').length = str.length - from'.length + to'.length := by
  rw [replaceAt, List.length_append, List.length_append, List.length_take, List.length_drop]
  omega

/-- The part behind the position gets shorter when the pattern is not empty. -/
theorem isSome_of_ne_nil (hfrom : from' ≠ []) {passes : ℕ} {str : Bytes} {startPos : ℕ}
    (hstart : startPos ≤ str.length) (h : str.length < startPos + passes) :
    (replaceAllMaxLoop maxSize from' to' passes str startPos).isSome := by
  have hpos := List.length_pos_of_ne_nil hfrom
  induction passes generalizing str startPos with
  | zero => omega
  | succ passes ih =>
    rw [replaceAllMaxLoop]
    cases hfind : findFrom from' str startPos with
    | none => rfl
    | some n =>
      have hbounds := findFrom_bounds hfind
      simp only
      split_ifs
      · rfl
      · have hlen : (replaceAt str n from'.length to').length = _ := length_replaceAt hbounds.2
        exact ih (by omega) (by omega)

/-- **The two loops agree.** Whatever the largest size is, a call for a pattern that is not empty
ends, and what it returns is the pieces of the string joined by the replacement. -/
theorem replaceAllMax_pieces (hfrom : from' ≠ []) {str : Bytes} {pieces : List Bytes}
    (hcut : Cut from' str pieces) {passes : ℕ} (h : str.length < passes) :
    ∃ r, replaceAllMax maxSize passes str from' to' = some r ∧
      ∀ result, r = .ok result → result = List.intercalate to' pieces := by
  have hends : (replaceAllMaxLoop maxSize from' to' passes str 0).isSome :=
    isSome_of_ne_nil hfrom (Nat.zero_le _) (by omega)
  obtain ⟨r, hr⟩ := Option.isSome_iff_exists.mp hends
  refine ⟨r, hr, ?_⟩
  rintro result rfl
  have hjoined : replaceAllLoop from' to' passes str 0 = some (List.intercalate to' pieces) :=
    replaceAllLoop_cut hfrom hcut to' [] h
  rw [replaceAllLoop_of_max hr, Option.some.injEq] at hjoined
  exact hjoined

/-- The empty pattern is found at the position itself. -/
theorem findFrom_nil {str : Bytes} {pos : ℕ} (h : pos ≤ str.length) :
    findFrom [] str pos = some pos := by
  have hself : find [] (str.drop pos) = some 0 := find_self [] (str.drop pos)
  rw [findFrom, if_neg (not_lt.mpr h), hself, Option.map_some, Nat.zero_add]

/-- A pass for the empty pattern. -/
theorem replaceAllMaxLoop_nil {passes : ℕ} {str : Bytes} {startPos : ℕ}
    (h : startPos ≤ str.length) : replaceAllMaxLoop maxSize [] to' (passes + 1) str startPos =
      if maxSize - str.length < to'.length then some (.error .lengthError)
      else replaceAllMaxLoop maxSize [] to' passes (replaceAt str startPos 0 to')
        (startPos + to'.length) := by
  rw [replaceAllMaxLoop, findFrom_nil h]
  rfl

/-- The position stays inside the string. -/
theorem le_length_replaceAt_nil (to' : Bytes) {str : Bytes} {n : ℕ} (h : n ≤ str.length) :
    n + to'.length ≤ (replaceAt str n 0 to').length ∧
      (replaceAt str n 0 to').length = str.length + to'.length := by
  have hlen : (replaceAt str n ([] : Bytes).length to').length =
      str.length - ([] : Bytes).length + to'.length := length_replaceAt (by simpa using h)
  rw [List.length_nil, Nat.sub_zero] at hlen
  omega

/-- Only the exception ends a call for the empty pattern. -/
theorem not_returns_nil {passes : ℕ} {str result : Bytes} {startPos : ℕ}
    (h : startPos ≤ str.length) :
    replaceAllMaxLoop maxSize [] to' passes str startPos ≠ some (.ok result) := by
  induction passes generalizing str startPos with
  | zero => exact fun hrun => by cases hrun
  | succ passes ih =>
    rw [replaceAllMaxLoop_nil h]
    split_ifs
    · exact fun hrun => by cases hrun
    · exact ih (le_length_replaceAt_nil to' h).1

/-- The empty pattern and the empty replacement: a pass changes nothing. -/
theorem eq_none_of_nil {passes : ℕ} {str : Bytes} {startPos : ℕ} (h : startPos ≤ str.length) :
    replaceAllMaxLoop maxSize [] [] passes str startPos = none := by
  induction passes with
  | zero => rfl
  | succ passes ih =>
    have hsame : replaceAt str startPos 0 [] = str := by simp [replaceAt]
    rw [replaceAllMaxLoop_nil h, List.length_nil, if_neg (Nat.not_lt_zero _), hsame]
    exact ih

/-- Another replacement lets the string grow until it is too long. -/
theorem isSome_of_grows (hto : to' ≠ []) {passes : ℕ} {str : Bytes} {startPos : ℕ}
    (h : startPos ≤ str.length) (hpasses : maxSize ≤ str.length + passes) :
    (replaceAllMaxLoop maxSize [] to' (passes + 1) str startPos).isSome := by
  have hpos := List.length_pos_of_ne_nil hto
  induction passes generalizing str startPos with
  | zero =>
    rw [replaceAllMaxLoop_nil h, if_pos (by omega)]
    rfl
  | succ passes ih =>
    obtain ⟨hinside, hlen⟩ := le_length_replaceAt_nil to' h
    rw [replaceAllMaxLoop_nil h]
    split_ifs
    · rfl
    · exact ih hinside (by omega)

/-- **When `replace_all` ends.** For every string, every pattern, every replacement and every
largest size of a string: the call ends exactly when the pattern or the replacement is not empty,
and for an empty pattern it never returns. -/
theorem replaceAllMax_ends_iff (maxSize : ℕ) (str from' to' : Bytes) :
    ((∃ passes, (replaceAllMax maxSize passes str from' to').isSome) ↔ from' ≠ [] ∨ to' ≠ []) ∧
      (from' = [] → ∀ passes result,
        replaceAllMax maxSize passes str from' to' ≠ some (.ok result)) := by
  refine ⟨⟨fun hends => ?_, fun hne => ?_⟩, fun hfrom passes result => ?_⟩
  · by_contra hnil
    rw [not_or, not_not, not_not] at hnil
    obtain ⟨rfl, rfl⟩ := hnil
    obtain ⟨passes, hsome⟩ := hends
    rw [replaceAllMax, eq_none_of_nil (Nat.zero_le _)] at hsome
    cases hsome
  · by_cases hfrom : from' = []
    · subst hfrom
      exact ⟨maxSize + 1, isSome_of_grows (hne.resolve_left fun h => h rfl) (Nat.zero_le _)
        (Nat.le_add_left _ _)⟩
    · exact ⟨str.length + 1, isSome_of_ne_nil hfrom (Nat.zero_le _) (by omega)⟩
  · subst hfrom
    exact not_returns_nil (Nat.zero_le _)

end Ends

/-- No number of passes is enough for the empty pattern and the empty replacement. -/
theorem not_replaceAllMax_ends :
    ¬ ∃ maxSize passes, (replaceAllMax maxSize passes (lit "ab") [] []).isSome := by
  rintro ⟨maxSize, passes, hsome⟩
  rw [replaceAllMax, eq_none_of_nil (Nat.zero_le _)] at hsome
  cases hsome

end SimpleServer
