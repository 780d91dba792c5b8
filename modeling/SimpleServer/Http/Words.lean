import SimpleServer.Http.Request
import SimpleServer.Foundations.Cutting

/-!
# The words of a string

The words of a string are its pieces between separators, up to the first NUL, that are not empty
(`wordsOf`, `wordsOf_eq`). A word before a separator is the first one (`wordsOf_cons`), so that
words joined by separators are found again (`wordsOf_intercalate`).

`split_words` keeps the place in the string as an `int`: it returns the words of the strings that
this index can pass (`splitWordsInt_eq`), and `splitWordsInt_exact_iff` says for which strings the
words are the maximal runs of characters other than the separator.
-/

namespace SimpleServer

open Cxx Cutting

/-- A word between separators: it is not empty and holds neither the separator nor NUL. -/
structure IsWord (sp : UInt8) (w : Bytes) : Prop where
  ne_nil : w ≠ []
  sp_notMem : sp ∉ w
  nul_notMem : 0 ∉ w

/-- The words from a place on: the characters left, the word so far and the words found. -/
def wordsLoop (sp : UInt8) : Bytes → Bytes → List Bytes → List Bytes
  | [], str, ret => if str ≠ [] then ret ++ [str] else ret
  | c :: word, str, ret =>
    if c = 0 then (if str ≠ [] then ret ++ [str] else ret)
    else if c ≠ sp then wordsLoop sp word (str ++ [c]) ret
    else if str ≠ [] then wordsLoop sp word [] (ret ++ [str])
    else wordsLoop sp word str ret

/-- The words of a string. -/
def wordsOf (word : Bytes) (sp : UInt8) : List Bytes := wordsLoop sp word [] []

section Words

variable {sp : UInt8} {w : Bytes}

/-- The words found so far stay in front. -/
theorem wordsLoop_append (word str : Bytes) (ret : List Bytes) :
    wordsLoop sp word str ret = ret ++ wordsLoop sp word str [] := by
  induction word generalizing str ret with
  | nil => by_cases h : str = [] <;> simp [wordsLoop, h]
  | cons c word ih =>
    simp only [wordsLoop]
    split_ifs
    · simp
    · simp
    · exact ih _ _
    · rw [ih [] (ret ++ [str]), ih [] ([] ++ [str])]
      simp
    · exact ih _ _

/-- The characters of a word are collected. -/
theorem wordsLoop_collect (hsp : sp ∉ w) (h0 : 0 ∉ w) (rest str : Bytes) (ret : List Bytes) :
    wordsLoop sp (w ++ rest) str ret = wordsLoop sp rest (str ++ w) ret := by
  induction w generalizing str with
  | nil => simp
  | cons c w ih =>
    rw [List.mem_cons, not_or] at hsp h0
    rw [List.cons_append, wordsLoop, if_neg (Ne.symm h0.1), if_pos (Ne.symm hsp.1),
      ih hsp.2 h0.2, List.append_assoc, List.singleton_append]

/-- A word that ends the string. -/
theorem wordsOf_word (h : IsWord sp w) : wordsOf w sp = [w] := by
  have hloop := wordsLoop_collect h.sp_notMem h.nul_notMem [] [] []
  rw [List.append_nil, List.nil_append] at hloop
  rw [wordsOf, hloop, wordsLoop, if_pos h.ne_nil, List.nil_append]

/-- A word before a separator. -/
theorem wordsOf_cons (hsp : sp ≠ 0) (h : IsWord sp w) (rest : Bytes) :
    wordsOf (w ++ sp :: rest) sp = w :: wordsOf rest sp := by
  rw [wordsOf, wordsLoop_collect h.sp_notMem h.nul_notMem, List.nil_append,
    wordsLoop, if_neg hsp, if_neg (not_not.mpr rfl), if_pos h.ne_nil, wordsLoop_append]
  rfl

/-- **Joined words are found again.** -/
theorem wordsOf_intercalate (hsp : sp ≠ 0) {ws : List Bytes} (h : ∀ w ∈ ws, IsWord sp w) :
    wordsOf (List.intercalate [sp] ws) sp = ws := by
  induction ws with
  | nil => rfl
  | cons w ws ih =>
    have hw := h w (by simp)
    cases ws with
    | nil => rw [List.intercalate_singleton, wordsOf_word hw]
    | cons w' ws =>
      have hrest := ih fun v hv => h v (List.mem_cons_of_mem _ hv)
      have hjoin : List.intercalate [sp] (w :: w' :: ws) =
          w ++ sp :: List.intercalate [sp] (w' :: ws) := by simp [List.intercalate_cons_cons]
      rw [hjoin, wordsOf_cons hsp hw, hrest]

/-- The words found on the way, when the loop holds a beginning of the next one. -/
theorem wordsLoop_eq (word str : Bytes) (ret : List Bytes) :
    wordsLoop sp word str ret =
      ret ++ (((word.takeWhile (· ≠ 0)).splitOn sp).modifyHead (str ++ ·)).filter (· ≠ []) := by
  induction word generalizing str ret with
  | nil => by_cases h : str = [] <;> simp [wordsLoop, h]
  | cons c word ih =>
    rw [wordsLoop]
    by_cases h0 : c = 0
    · by_cases h : str = [] <;> simp [h0, h]
    rw [if_neg h0, List.takeWhile_cons_of_pos (by simpa using h0),
      List.splitOn_cons_eq_if_modifyHead]
    by_cases hc : c = sp
    · -- a separator ends the word held, which is dropped when it is empty
      have hbeq : (c == sp) = true := by simpa using hc
      have hid : ∀ l : List Bytes, l.modifyHead (fun w => w) = l := congrFun List.modifyHead_id
      rw [if_neg (not_not.mpr hc), if_pos hbeq]
      by_cases h : str = []
      · rw [if_neg (not_not.mpr h), ih, h]
        simp [hid]
      · rw [if_pos h, ih]
        simp [h, hid]
    · rw [if_pos hc, if_neg (by simpa using hc), ih, List.modifyHead_modifyHead]
      simp [Function.comp_def]

/-- **The words of a string.** -/
theorem wordsOf_eq (word : Bytes) (sp : UInt8) :
    wordsOf word sp = ((word.takeWhile (· ≠ 0)).splitOn sp).filter (· ≠ []) := by
  rw [wordsOf, wordsLoop_eq, List.nil_append]
  congr 1
  exact congrFun List.modifyHead_id _

end Words

/-! ## The index -/

/-- The part of a string before its first NUL. -/
def beforeNul (word : Bytes) : Bytes := word.takeWhile (· ≠ 0)

/-- The index of `split_words` can pass the string. -/
def Indexable (word : Bytes) : Prop := (beforeNul word).length < 2 ^ 31

instance : DecidablePred Indexable := fun word =>
  inferInstanceAs (Decidable ((beforeNul word).length < 2 ^ 31))

theorem indexable_of_length_lt {word : Bytes} (h : word.length < 2 ^ 31) : Indexable word :=
  (List.takeWhile_prefix _).length_le.trans_lt h

theorem splitWordsBody_eq (sp c next : UInt8) (str : Bytes) (ret : List Bytes) :
    splitWordsBody sp c next str ret =
      if c ≠ sp then (str ++ [c], ret)
      else if str ≠ [] then ([], ret ++ [str]) else (str, ret) := by
  unfold splitWordsBody
  by_cases h : c = sp <;> simp [h]

/-- The loop returns when the index can pass the characters left, and then what the loop without
an index returns. -/
theorem splitWordsIntLoop_eq (sp : UInt8) (word : Bytes) {iter : ℕ} (hiter : iter < 2 ^ 31)
    (str : Bytes) (ret : List Bytes) :
    splitWordsIntLoop sp word iter str ret =
      if iter + (beforeNul word).length < 2 ^ 31 then .ok (wordsLoop sp word str ret)
      else .error .undefined := by
  induction word generalizing iter str ret with
  | nil =>
    rw [if_pos (by simpa [beforeNul] using hiter)]
    rfl
  | cons c word ih =>
    rw [splitWordsIntLoop, wordsLoop, beforeNul]
    by_cases h0 : c = 0
    · rw [if_pos h0, if_pos h0, List.takeWhile_cons_of_neg (by simpa using h0), List.length_nil,
        Nat.add_zero]
      exact (if_pos hiter).symm
    rw [if_neg h0, if_neg h0, List.takeWhile_cons_of_pos (by simpa using h0), ← beforeNul,
      List.length_cons]
    simp only
    by_cases hlast : iter = 2 ^ 31 - 1
    · rw [if_pos hlast, if_neg (by omega)]
    · have hnext : iter + 1 + (beforeNul word).length = iter + ((beforeNul word).length + 1) := by
        omega
      rw [if_neg hlast, ih (by omega), hnext, splitWordsBody_eq]
      by_cases hc : c = sp <;> by_cases hs : str = [] <;> simp [hc, hs]

/-- `split_words` returns on the strings that its index can pass. -/
theorem splitWordsInt_eq (word : Bytes) (sp : UInt8) :
    splitWordsInt word sp =
      if (beforeNul word).length < 2 ^ 31 then .ok (wordsOf word sp)
      else .error .undefined := by
  rw [splitWordsInt, splitWordsIntLoop_eq sp word (by norm_num), Nat.zero_add]
  rfl

section Indexable

variable {word w : Bytes} {sp : UInt8}

theorem splitWordsInt_of_indexable (h : Indexable word) (sp : UInt8) :
    splitWordsInt word sp = .ok (wordsOf word sp) := by
  rw [splitWordsInt_eq, if_pos (show (beforeNul word).length < 2 ^ 31 from h)]

theorem splitWordsInt_of_not_indexable (h : ¬ Indexable word) (sp : UInt8) :
    splitWordsInt word sp = .error .undefined := by
  rw [splitWordsInt_eq, if_neg (show ¬ (beforeNul word).length < 2 ^ 31 from h)]

theorem of_splitWordsInt_eq_ok {ws : List Bytes} (h : splitWordsInt word sp = .ok ws) :
    Indexable word ∧ ws = wordsOf word sp := by
  by_cases hword : Indexable word
  · rw [splitWordsInt_of_indexable hword, Except.ok.injEq] at h
    exact ⟨hword, h.symm⟩
  · rw [splitWordsInt_of_not_indexable hword] at h
    cases h

theorem length_le_of_mem_intercalate {sep : Bytes} {ws : List Bytes} (h : w ∈ ws) :
    w.length ≤ (List.intercalate sep ws).length := by
  induction ws with
  | nil => cases h
  | cons v ws ih =>
    cases ws with
    | nil => rw [List.mem_singleton.mp h, List.intercalate_singleton]
    | cons v' ws =>
      rw [List.intercalate_cons_cons, List.length_append, List.length_append]
      rcases List.mem_cons.mp h with rfl | h
      · omega
      · exact (ih h).trans (Nat.le_add_left _ _)

/-- A word is no longer than the part of the string that is split. -/
theorem Indexable.of_mem_wordsOf (h : Indexable word) (hw : w ∈ wordsOf word sp) :
    Indexable w := by
  rw [wordsOf_eq, ← beforeNul] at hw
  have hle : w.length ≤ (List.intercalate [sp] ((beforeNul word).splitOn sp)).length :=
    length_le_of_mem_intercalate (List.mem_filter.mp hw).1
  rw [List.intercalate_splitOn sp] at hle
  exact indexable_of_length_lt (hle.trans_lt h)

end Indexable

/-! ## Words joined by separators -/

/-- The string is the words in their order, with one or more separators between two of them and
any number at both ends. -/
inductive Joined (sp : UInt8) : List Bytes → Bytes → Prop
  | none (n : ℕ) : Joined sp [] (List.replicate n sp)
  | last (n : ℕ) (w : Bytes) (m : ℕ) :
      Joined sp [w] (List.replicate n sp ++ w ++ List.replicate m sp)
  | cons (n : ℕ) (w : Bytes) {w' : Bytes} {ws : List Bytes} {t : Bytes} :
      Joined sp (w' :: ws) t → Joined sp (w :: w' :: ws) (List.replicate n sp ++ w ++ sp :: t)

section Joined

variable {sp : UInt8}

/-- Separators in front are skipped. -/
theorem wordsOf_replicate_append (hsp : sp ≠ 0) (n : ℕ) (rest : Bytes) :
    wordsOf (List.replicate n sp ++ rest) sp = wordsOf rest sp := by
  induction n with
  | zero => rfl
  | succ n ih =>
    rw [List.replicate_succ, List.cons_append, wordsOf, wordsLoop, if_neg hsp,
      if_neg (not_not.mpr rfl), if_neg (not_not.mpr rfl)]
    exact ih

/-- A string of separators has no words. -/
theorem wordsOf_replicate (hsp : sp ≠ 0) (n : ℕ) : wordsOf (List.replicate n sp) sp = [] := by
  have h := wordsOf_replicate_append hsp n []
  rwa [List.append_nil] at h

theorem wordsOf_joined (hsp : sp ≠ 0) {ws : List Bytes} {word : Bytes}
    (hws : ∀ w ∈ ws, IsWord sp w) (h : Joined sp ws word) : wordsOf word sp = ws := by
  induction h with
  | none n => exact wordsOf_replicate hsp n
  | last n w m =>
    have hw := hws w (by simp)
    rw [List.append_assoc, wordsOf_replicate_append hsp]
    cases m with
    | zero => rw [List.replicate_zero, List.append_nil, wordsOf_word hw]
    | succ m => rw [List.replicate_succ, wordsOf_cons hsp hw, wordsOf_replicate hsp]
  | @cons n w w' ws t _ ih =>
    have hrest := ih fun v hv => hws v (List.mem_cons_of_mem _ hv)
    rw [List.append_assoc, wordsOf_replicate_append hsp, wordsOf_cons hsp (hws w (by simp)),
      hrest]

/-- `split_words` returns the maximal runs of characters other than the separator, in their order,
of the part of the string before its first NUL; and when the string is made of words joined by
separators, these words. -/
structure SplitsExactly (word : Bytes) (sp : UInt8) : Prop where
  runs : ∃ spans, Spans (· ≠ sp) (beforeNul word) spans ∧
    splitWordsInt word sp = .ok (spans.map (elements (beforeNul word)))
  joined : ∀ ws, (∀ w ∈ ws, IsWord sp w) → Joined sp ws word → splitWordsInt word sp = .ok ws

/-- **When the words are exact.** For every string and every separator other than NUL, exactly when
the part of the string before its first NUL has fewer than `2 ^ 31` bytes. -/
theorem splitWordsInt_exact_iff (word : Bytes) (hsp : sp ≠ 0) :
    SplitsExactly word sp ↔ (beforeNul word).length < 2 ^ 31 := by
  constructor
  · rintro ⟨⟨spans, -, hok⟩, -⟩
    by_contra hlen
    rw [splitWordsInt_eq, if_neg hlen] at hok
    cases hok
  · intro hlen
    have hok : splitWordsInt word sp = .ok (wordsOf word sp) := by
      rw [splitWordsInt_eq, if_pos hlen]
    refine ⟨?_, fun ws hws hjoined => ?_⟩
    · obtain ⟨spans, hspans, hmap⟩ := exists_spans sp (beforeNul word)
      refine ⟨spans, hspans, ?_⟩
      rw [hok, wordsOf_eq, hmap, beforeNul]
    · rw [hok, wordsOf_joined hsp hws hjoined]

end Joined

/-- A query with separators everywhere. -/
theorem splitWordsInt_exact_query : (59 : UInt8) ≠ 0 ∧ SplitsExactly (lit ";;a=1;;b=2;") 59 := by
  have hsp : (59 : UInt8) ≠ 0 := by decide
  exact ⟨hsp, (splitWordsInt_exact_iff (lit ";;a=1;;b=2;") hsp).mpr (by decide)⟩

/-- A word that the index cannot pass. -/
theorem not_splitWordsInt_exact : ¬ SplitsExactly (List.replicate (2 ^ 31) 97) space := by
  rintro ⟨⟨spans, -, hok⟩, -⟩
  have hlen : (beforeNul (List.replicate (2 ^ 31) 97)).length = 2 ^ 31 := by
    rw [beforeNul, List.takeWhile_replicate, if_pos (by decide), List.length_replicate]
  rw [splitWordsInt_eq, if_neg (by rw [hlen]; exact lt_irrefl _)] at hok
  cases hok

end SimpleServer
