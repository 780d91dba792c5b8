import Mathlib.Data.List.DropRight
import Mathlib.Data.List.Infix
import Mathlib.Tactic

/-!
# Byte strings and the string operations of the C++ standard library

A `std::string` is a list of bytes. A position returned by one of its searches is an
`Option ℕ`, with `none` for `npos`; where a program computes with `npos` (`npos + 1 = 0`,
`npos` converted to `int`) the operation below says what comes out.

* `find`, `findChar`, `substr`, `eraseFront`, `eraseBehind`, `replaceAt`: the members of
  `std::string`.
* `lines`: what the successive calls of `std::getline` on a stream extract.
* `toLower`, `decimal`: `std::tolower` of the C locale and `std::to_string`.

An operation that throws returns `Except Exn`; what the standard leaves undefined is an
exception of its own, `Exn.undefined`, at which a run ends.
-/

namespace Cxx

abbrev Bytes := List UInt8

/-- The bytes of an ASCII literal. -/
def lit (s : String) : Bytes := s.toList.map fun c => c.toNat.toUInt8

/-- The ways in which a call may fail to return. -/
inductive Exn
  | outOfRange
  | lengthError
  | regexError
  | badFunctionCall
  /-- Undefined behaviour: a read outside a container, an `int` that overflows, an object that is
  handed to `snprintf`. -/
  | undefined
  deriving DecidableEq, Repr

theorem ok_bind {α β : Type} (a : α) (f : α → Except Exn β) : (Except.ok a >>= f) = f a := rfl

theorem exists_of_bind_eq_ok {α β : Type} {x : Except Exn α} {f : α → Except Exn β} {b : β}
    (h : x >>= f = .ok b) : ∃ a, x = .ok a ∧ f a = .ok b := by
  cases x with
  | error e => cases h
  | ok a => exact ⟨a, rfl, h⟩

def lf : UInt8 := 10
def cr : UInt8 := 13
def space : UInt8 := 32
def colon : UInt8 := 58
def crlf : Bytes := [cr, lf]

/-- The blank line that ends the head of a message, with the line end before it. -/
def blankLine : Bytes := crlf ++ crlf

theorem lit_crlf : lit "\r\n" = crlf := by decide

/-! ## Searching -/

/-- `s.find(p)`: the first position at which `p` occurs. -/
def find (p : Bytes) : Bytes → Option ℕ
  | [] => if p = [] then some 0 else none
  | c :: s => if p.isPrefixOf (c :: s) then some 0 else (find p s).map (· + 1)

/-- `s.find(p, pos)`. -/
def findFrom (p s : Bytes) (pos : ℕ) : Option ℕ :=
  if s.length < pos then none else (find p (s.drop pos)).map (· + pos)

/-- `s.find(c)` for one character, also `find_first_of` of a one-character set. -/
def findChar (c : UInt8) (s : Bytes) : Option ℕ := s.findIdx? (· == c)

/-- `s.find_first_not_of(set)`. -/
def findFirstNotOf (set s : Bytes) : Option ℕ := s.findIdx? fun c => !set.contains c

/-- `s.find_last_not_of(set)`. -/
def findLastNotOf (set s : Bytes) : Option ℕ :=
  (s.reverse.findIdx? fun c => !set.contains c).map fun i => s.length - 1 - i

/-- Does `p` occur in `s`: `s.find(p) != npos`. -/
def contains (p s : Bytes) : Bool := (find p s).isSome

theorem find_eq_none_iff (p s : Bytes) : find p s = none ↔ ¬ p <:+: s := by
  induction s with
  | nil => simp [find]
  | cons c s ih =>
    rw [find, List.infix_cons_iff, not_or]
    split_ifs with h
    · simp [List.isPrefixOf_iff_prefix.mp h]
    · simp [ih, ← List.isPrefixOf_iff_prefix, h]

theorem contains_iff (p s : Bytes) : contains p s = true ↔ p <:+: s := by
  rw [contains, Option.isSome_iff_ne_none, ne_eq, find_eq_none_iff, not_not]

theorem findChar_eq_none {c : UInt8} {s : Bytes} (h : c ∉ s) : findChar c s = none := by
  rw [findChar, List.findIdx?_eq_none_iff]
  intro d hd
  rw [beq_eq_false_iff_ne]
  rintro rfl
  exact h hd

theorem findChar_append_cons {c : UInt8} {p : Bytes} (h : c ∉ p) (s : Bytes) :
    findChar c (p ++ c :: s) = some p.length := by
  have hp := findChar_eq_none h
  unfold findChar at hp ⊢
  rw [List.findIdx?_append, hp, Option.none_or, List.findIdx?_cons, beq_self_eq_true, if_pos rfl,
    Option.map_some, Nat.zero_add]

theorem findChar_lt {c : UInt8} {s : Bytes} {n : ℕ} (h : findChar c s = some n) :
    n < s.length := (List.findIdx?_eq_some_iff_getElem.mp h).1

/-- What is appended is not searched when the byte is found before it. -/
theorem findChar_append_of_some {c : UInt8} {s : Bytes} {n : ℕ} (h : findChar c s = some n)
    (t : Bytes) : findChar c (s ++ t) = some n := by
  unfold findChar at h ⊢
  rw [List.findIdx?_append, h, Option.some_or]

theorem find_length_le {p s : Bytes} {n : ℕ} (h : find p s = some n) :
    n + p.length ≤ s.length := by
  induction s generalizing n with
  | nil =>
    rw [find] at h
    split_ifs at h with hp
    cases h
    simp [hp]
  | cons c s ih =>
    rw [find] at h
    split_ifs at h with hp
    · cases h
      simpa using (List.isPrefixOf_iff_prefix.mp hp).length_le
    · obtain ⟨m, hm, rfl⟩ := Option.map_eq_some_iff.mp h
      have := ih hm
      rw [List.length_cons]
      omega

/-- Where a pattern is found, it stands. -/
theorem exists_of_find {p s : Bytes} {n : ℕ} (h : find p s = some n) :
    ∃ a b, s = a ++ p ++ b ∧ a.length = n := by
  induction s generalizing n with
  | nil =>
    rw [find] at h
    split_ifs at h with hp
    cases h
    exact ⟨[], [], by simp [hp], rfl⟩
  | cons c s ih =>
    rw [find] at h
    split_ifs at h with hp
    · cases h
      obtain ⟨b, hb⟩ := List.isPrefixOf_iff_prefix.mp hp
      exact ⟨[], b, hb.symm, rfl⟩
    · obtain ⟨m, hm, rfl⟩ := Option.map_eq_some_iff.mp h
      obtain ⟨a, b, rfl, rfl⟩ := ih hm
      exact ⟨c :: a, b, rfl, rfl⟩

/-- What is appended is not searched when the pattern is found before it. -/
theorem find_append_of_some {p s : Bytes} {n : ℕ} (h : find p s = some n) (t : Bytes) :
    find p (s ++ t) = some n := by
  induction s generalizing n with
  | nil =>
    rw [find] at h
    split_ifs at h with hp
    cases h
    subst hp
    cases t <;> simp [find]
  | cons c s ih =>
    have hlen := find_length_le h
    rw [find] at h
    rw [List.cons_append, find]
    split_ifs at h with hp
    · rw [if_pos, h]
      rw [List.isPrefixOf_iff_prefix] at hp ⊢
      exact hp.trans (List.prefix_append (c :: s) t)
    · obtain ⟨m, hm, rfl⟩ := Option.map_eq_some_iff.mp h
      rw [if_neg, ih hm, Option.map_some]
      rw [List.isPrefixOf_iff_prefix] at hp ⊢
      intro hp'
      refine hp (List.prefix_of_prefix_length_le hp' (List.prefix_append (c :: s) t) ?_)
      omega

theorem find_self (p t : Bytes) : find p (p ++ t) = some 0 := by
  cases h : p ++ t with
  | nil =>
    rw [List.append_eq_nil_iff] at h
    rw [find, if_pos h.1]
  | cons c s =>
    rw [find, if_pos]
    rw [← h, List.isPrefixOf_iff_prefix]
    exact List.prefix_append p t

/-- A pattern is found at its first place, or before a place given. -/
theorem find_append_le (p a b : Bytes) : ∃ n ≤ a.length, find p (a ++ p ++ b) = some n := by
  induction a with
  | nil => exact ⟨0, le_rfl, find_self p b⟩
  | cons c a ih =>
    obtain ⟨n, hn, hfind⟩ := ih
    rw [List.cons_append, List.cons_append, find]
    split_ifs
    · exact ⟨0, Nat.zero_le _, rfl⟩
    · exact ⟨n + 1, Nat.succ_le_succ hn, by rw [hfind, Option.map_some]⟩

/-- A pattern is not found before its first byte. -/
theorem find_append_of_notMem {c : UInt8} {p a : Bytes} (h : c ∉ a) (s : Bytes) :
    find (c :: p) (a ++ s) = (find (c :: p) s).map (· + a.length) := by
  induction a with
  | nil => simp
  | cons d a ih =>
    rw [List.mem_cons, not_or] at h
    have hd : (c :: p).isPrefixOf (d :: (a ++ s)) = false := by simp [List.isPrefixOf, h.1]
    rw [List.cons_append, find, hd, ih h.2]
    cases find (c :: p) s <;> simp [Nat.add_assoc]

/-- A pattern without the byte `c` occurs in `a ++ c :: b` only on one side of `c`. -/
theorem infix_append_cons_iff {c : UInt8} {p : Bytes} (hc : c ∉ p) (a b : Bytes) :
    p <:+: a ++ c :: b ↔ p <:+: a ∨ p <:+: b := by
  constructor
  · rintro ⟨u, v, h⟩
    rw [List.append_assoc, List.append_eq_append_iff] at h
    rcases h with ⟨w, rfl, hw⟩ | ⟨w, rfl, hw⟩
    · rw [List.append_eq_append_iff] at hw
      rcases hw with ⟨z, rfl, -⟩ | ⟨z, rfl, hz⟩
      · exact Or.inl ⟨u, z, by simp⟩
      · cases z with
        | nil => exact Or.inl ⟨u, [], by simp⟩
        | cons d z =>
          rw [List.cons_append, List.cons.injEq] at hz
          exact absurd (by simp [hz.1]) hc
    · cases w with
      | nil =>
        cases p with
        | nil => exact Or.inl ⟨[], a, by simp⟩
        | cons d p =>
          rw [List.nil_append, List.cons_append, List.cons.injEq] at hw
          exact absurd (by simp [hw.1]) hc
      | cons d w =>
        rw [List.cons_append, List.cons.injEq] at hw
        exact Or.inr ⟨w, v, by rw [hw.2, List.append_assoc]⟩
  · rintro (⟨u, v, rfl⟩ | ⟨u, v, rfl⟩)
    · exact ⟨u, v ++ c :: b, by simp⟩
    · exact ⟨a ++ c :: u, v, by simp⟩

/-! ## Cutting -/

/-- `s.substr(pos, n)`; a count of `none` is `npos`. -/
def substr (s : Bytes) (pos : ℕ) (n : Option ℕ) : Except Exn Bytes :=
  if s.length < pos then .error .outOfRange
  else .ok ((s.drop pos).take (n.getD s.length))

/-- `s.substr(0, n)`, which does not throw. -/
def substrFront (s : Bytes) (n : Option ℕ) : Bytes := s.take (n.getD s.length)

/-- `s.erase(0, n)`. -/
def eraseFront (s : Bytes) (n : Option ℕ) : Bytes := s.drop (n.getD s.length)

/-- `s.erase(n + 1)`; `npos + 1` is `0`. -/
def eraseBehind (s : Bytes) : Option ℕ → Bytes
  | none => []
  | some n => s.take (n + 1)

/-- `s.replace(pos, n, t)` at a position of `s`, which does not throw. -/
def replaceAt (s : Bytes) (pos n : ℕ) (t : Bytes) : Bytes := s.take pos ++ t ++ s.drop (pos + n)

theorem eraseFront_findFirstNotOf (set s : Bytes) :
    eraseFront s (findFirstNotOf set s) = s.dropWhile set.contains := by
  induction s with
  | nil => rfl
  | cons c s ih =>
    rw [List.dropWhile_cons, findFirstNotOf, List.findIdx?_cons]
    rw [findFirstNotOf] at ih
    cases h : set.contains c
    · simp [eraseFront]
    · rw [if_pos rfl, ← ih]
      cases s.findIdx? fun c => !set.contains c <;> simp [eraseFront]

theorem eraseBehind_findLastNotOf (set s : Bytes) :
    eraseBehind s (findLastNotOf set s) = s.rdropWhile set.contains := by
  induction s using List.reverseRecOn with
  | nil => rfl
  | append_singleton s c ih =>
    rw [List.rdropWhile_concat, findLastNotOf, List.reverse_concat, List.findIdx?_cons]
    rw [findLastNotOf] at ih
    cases h : set.contains c
    · simp [eraseBehind]
    · simp only [Bool.not_true, Bool.false_eq_true, if_false, if_true]
      rw [← ih]
      cases hf : s.reverse.findIdx? fun c => !set.contains c with
      | none => rfl
      | some i =>
        have hi : i < s.length := by simpa using (List.findIdx?_eq_some_iff_getElem.mp hf).1
        simp only [Option.map_some, List.length_append, List.length_singleton, eraseBehind]
        rw [List.take_append_of_le_length (by omega)]
        congr 1
        omega

/-! ## Lines -/

/-- The lines that successive calls of `std::getline` extract: a line feed ends a line and is
dropped, and what follows the last one is a line unless it is empty. -/
def lines : Bytes → List Bytes
  | [] => []
  | c :: s =>
    if c = lf then [] :: lines s
    else match lines s with
      | [] => [[c]]
      | l :: ls => (c :: l) :: ls

theorem lines_append_lf {l : Bytes} (h : lf ∉ l) (s : Bytes) :
    lines (l ++ lf :: s) = l :: lines s := by
  induction l with
  | nil => simp [lines]
  | cons c l ih =>
    rw [List.mem_cons, not_or] at h
    rw [List.cons_append, lines, if_neg (Ne.symm h.1), ih h.2]

/-- A text without a line feed has no line after the first. -/
theorem tail_lines {l : Bytes} (h : lf ∉ l) : (lines l).tail = [] := by
  induction l with
  | nil => rfl
  | cons c l ih =>
    rw [List.mem_cons, not_or] at h
    have ih := ih h.2
    rw [lines, if_neg fun hc => h.1 hc.symm]
    rcases hl : lines l with _ | ⟨l', ls⟩
    · rfl
    · rw [hl, List.tail_cons] at ih
      rw [List.tail_cons, ih]

theorem lines_crlf {l : Bytes} (h : lf ∉ l) (s : Bytes) :
    lines (l ++ crlf ++ s) = (l ++ [cr]) :: lines s := by
  have h' : lf ∉ l ++ [cr] := by simpa [lf, cr] using h
  have e : l ++ crlf ++ s = (l ++ [cr]) ++ lf :: s := by simp [crlf]
  rw [e, lines_append_lf h']

/-- A block of lines, each ended by CRLF, is read line by line. -/
theorem lines_flatMap_crlf {ls : List Bytes} (h : ∀ l ∈ ls, lf ∉ l) (s : Bytes) :
    lines (ls.flatMap (· ++ crlf) ++ s) = ls.map (· ++ [cr]) ++ lines s := by
  induction ls with
  | nil => rfl
  | cons l ls ih =>
    rw [List.flatMap_cons, List.append_assoc, lines_crlf (h l (by simp)),
      ih fun l' hl' => h l' (by simp [hl'])]
    rfl

/-! ## Characters and numbers -/

/-- `std::tolower` of the C locale. The code passes a plain `char`, which is negative for a byte
from 128 on; the C library in use leaves such a byte unchanged. -/
def toLower (c : UInt8) : UInt8 := if 65 ≤ c ∧ c ≤ 90 then c + 32 else c

/-- `to_lower_case`: `std::tolower` on every character. -/
def toLowerCase (s : Bytes) : Bytes := s.map toLower

/-- `isdigit`, which in the same way is false for a byte from 128 on. -/
def isDigit (c : UInt8) : Bool := 48 ≤ c && c ≤ 57

/-- `std::to_string` of an unsigned number. -/
def decimal (n : ℕ) : Bytes := (Nat.toDigits 10 n).map fun c => c.toNat.toUInt8

/-- `std::to_string` of an `int`. -/
def decimalInt : ℤ → Bytes
  | .ofNat n => decimal n
  | .negSucc n => lit "-" ++ decimal (n + 1)

/-- The conversion of a `std::size_t` to `int`: the low 32 bits in two's complement. -/
def toInt32 (n : ℕ) : ℤ := Int.bmod n (2 ^ 32)

/-- The conversion of a position to `int`; `npos` becomes `-1`. -/
def posToInt : Option ℕ → ℤ
  | none => -1
  | some n => toInt32 n

/-- The conversion of an `int` to `std::size_t`. -/
def toSizeT (z : ℤ) : ℕ := (z % 2 ^ 64).toNat

/-- The result of a sum or a difference of `int`s: it is undefined when no `int` holds it. -/
def intResult (z : ℤ) : Except Exn ℤ :=
  if -2 ^ 31 ≤ z ∧ z < 2 ^ 31 then .ok z else .error .undefined

theorem toInt32_of_lt {n : ℕ} (h : n < 2 ^ 31) : toInt32 n = n := by
  unfold toInt32
  exact Int.bmod_eq_of_le (by omega) (by omega)

/-- A conversion to `int` keeps a number exactly when it is below `2 ^ 31`. -/
theorem toInt32_eq_iff (n : ℕ) : toInt32 n = n ↔ n < 2 ^ 31 := by
  constructor
  · intro h
    have := Int.bmod_lt (x := (n : ℤ)) (m := 2 ^ 32) (by norm_num)
    unfold toInt32 at h
    omega
  · exact toInt32_of_lt

theorem toInt32_bounds (n : ℕ) : -2 ^ 31 ≤ toInt32 n ∧ toInt32 n < 2 ^ 31 ∧ toInt32 n ≤ n := by
  have h1 := Int.le_bmod (x := (n : ℤ)) (m := 2 ^ 32) (by norm_num)
  have h2 := Int.bmod_lt (x := (n : ℤ)) (m := 2 ^ 32) (by norm_num)
  have h3 : Int.bmod (n : ℤ) (2 ^ 32) ≤ n := by
    rw [Int.bmod_def]
    split_ifs <;> omega
  unfold toInt32
  omega

/-- A number from `2 ^ 31` to below `2 ^ 32` becomes negative. -/
theorem toInt32_of_ge {n : ℕ} (h : 2 ^ 31 ≤ n) (h' : n < 2 ^ 32) : toInt32 n = n - 2 ^ 32 := by
  unfold toInt32
  rw [Int.bmod_def]
  split_ifs <;> omega

theorem toSizeT_of_nonneg {z : ℤ} (h : 0 ≤ z) (h' : z < 2 ^ 64) : toSizeT z = z.toNat := by
  rw [toSizeT, Int.emod_eq_of_lt h h']

/-- A negative number becomes a large one. -/
theorem toSizeT_of_neg {z : ℤ} (h : z < 0) (h' : -2 ^ 64 ≤ z) : (toSizeT z : ℤ) = z + 2 ^ 64 := by
  unfold toSizeT
  omega

theorem intResult_of_mem {z : ℤ} (h : -2 ^ 31 ≤ z) (h' : z < 2 ^ 31) : intResult z = .ok z :=
  if_pos ⟨h, h'⟩

theorem eq_of_intResult {z z' : ℤ} (h : intResult z = .ok z') : z' = z := by
  rw [intResult] at h
  split_ifs at h
  cases h
  rfl

theorem isDigit_of_mem_decimal {n : ℕ} {c : UInt8} (h : c ∈ decimal n) : isDigit c = true := by
  obtain ⟨d, hd, rfl⟩ := List.mem_map.mp h
  have hd' := Nat.isDigit_of_mem_toDigits (by norm_num) (by norm_num) hd
  rw [Char.isDigit, Bool.and_eq_true, decide_eq_true_eq, decide_eq_true_eq] at hd'
  have h1 : 48 ≤ d.toNat := hd'.1
  have h2 : d.toNat ≤ 57 := hd'.2
  simp only [isDigit, Bool.and_eq_true, decide_eq_true_eq, UInt8.le_iff_toNat_le,
    UInt8.toNat_ofNat', Nat.toUInt8_eq]
  constructor <;> simp <;> omega

theorem decimal_injective : Function.Injective decimal := by
  intro m n h
  have key : ∀ k, ((decimal k).map fun c => Char.ofNat c.toNat) = Nat.toDigits 10 k := fun k => by
    rw [decimal, List.map_map]
    refine (List.map_congr_left fun d hd => ?_).trans (List.map_id _)
    have hd' := Nat.isDigit_of_mem_toDigits (by norm_num) (by norm_num) hd
    rw [Char.isDigit, Bool.and_eq_true, decide_eq_true_eq, decide_eq_true_eq] at hd'
    have h2 : d.toNat ≤ 57 := hd'.2
    have : d.toNat.toUInt8.toNat = d.toNat := by simp; omega
    simp [this]
  have := congrArg (List.map fun c : UInt8 => Char.ofNat c.toNat) h
  rw [key, key] at this
  rw [← Nat.ofDigitChars_ten_toDigits (n := m), this, Nat.ofDigitChars_ten_toDigits]

theorem notMem_decimal {n : ℕ} {c : UInt8} (h : isDigit c = false) : c ∉ decimal n := fun hc => by
  rw [isDigit_of_mem_decimal hc] at h
  exact Bool.noConfusion h

end Cxx
