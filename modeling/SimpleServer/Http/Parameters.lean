import SimpleServer.Http.Target

/-!
# The reads of `parse_url_params`

`parse_url_params` cuts the query of a URL into pieces at `;`, and each piece that is not empty
into words at `=`. It then reads the first two of these words, however many there are. As
`split_words` drops empty words, a piece has two of them when some `=` in it stands between two
bytes that are not `=` (`two_le_length_wordsOf_iff`).

`parseUrlParams_inside_iff` says for which URLs every read is inside the words found, and the index
of `split_words` inside its range.
-/

namespace SimpleServer

open Cxx

/-- The query of a URL as `split_words` sees it: what stands behind the first `?`, up to a NUL. -/
def query (url : Bytes) : Bytes := (url.dropWhile (· ≠ 63)).tail.takeWhile (· ≠ 0)

/-- A piece of a query with a key and a value: a byte that is not `=` on both sides of an `=`. -/
def HasPair (piece : Bytes) : Prop :=
  ∃ key value, piece = key ++ 61 :: value ∧ (∃ c ∈ key, c ≠ 61) ∧ ∃ c ∈ value, c ≠ 61

/-! ## Pieces with two words -/

/-- Only separators leave no piece that is not empty. -/
theorem filter_splitOn_ne_nil_iff {a : UInt8} (piece : Bytes) :
    (piece.splitOn a).filter (· ≠ []) ≠ [] ↔ ∃ c ∈ piece, c ≠ a := by
  induction piece with
  | nil => simp
  | cons c piece ih =>
    rw [List.splitOn_cons_eq_if_modifyHead]
    by_cases hc : c = a
    · rw [if_pos (by simpa using hc), List.filter_cons_of_neg (by simp), ih]
      simp [hc]
    · obtain ⟨w, ws, hw⟩ := List.exists_cons_of_ne_nil (List.splitOn_ne_nil a piece)
      rw [if_neg (by simpa using hc), hw, List.modifyHead_cons,
        List.filter_cons_of_pos (by simp)]
      simp [hc]

/-- A separator adds the pieces on its two sides. -/
theorem filter_splitOn_append (a : UInt8) (u v : Bytes) :
    ((u ++ a :: v).splitOn a).filter (· ≠ []) =
      (u.splitOn a).filter (· ≠ []) ++ (v.splitOn a).filter (· ≠ []) := by
  rw [List.splitOn_append_cons_self, List.filter_append]

theorem two_le_length_splitOn_iff (piece : Bytes) :
    2 ≤ ((piece.splitOn 61).filter (· ≠ [])).length ↔ HasPair piece := by
  constructor
  · intro hlen
    induction hn : piece.length using Nat.strong_induction_on generalizing piece with
    | _ n ih =>
      by_cases hmem : 61 ∈ piece
      · obtain ⟨u, v, rfl, hu⟩ := List.eq_append_cons_of_mem hmem
        rw [filter_splitOn_append, List.length_append, List.splitOn_eq_singleton hu] at hlen
        cases u with
        | nil =>
          -- a leading `=` gives no word, and the two words stand behind it
          have hv : 2 ≤ ((v.splitOn 61).filter (· ≠ [])).length := by simpa using hlen
          obtain ⟨key, value, rfl, hkey, hvalue⟩ := ih v.length (by simp [← hn]) v hv rfl
          obtain ⟨c, hc, hne⟩ := hkey
          exact ⟨61 :: key, value, rfl, ⟨c, List.mem_cons_of_mem _ hc, hne⟩, hvalue⟩
        | cons c u =>
          refine ⟨c :: u, v, rfl, ⟨c, by simp, ?_⟩, ?_⟩
          · rintro rfl
            exact hu (by simp)
          · rw [← filter_splitOn_ne_nil_iff, ← List.length_pos_iff]
            have hone : ([c :: u].filter (· ≠ [])).length = 1 := rfl
            omega
      · rw [List.splitOn_eq_singleton hmem] at hlen
        have := List.length_filter_le (· ≠ []) [piece]
        rw [List.length_singleton] at this
        omega
  · rintro ⟨key, value, rfl, hkey, hvalue⟩
    rw [← filter_splitOn_ne_nil_iff, ← List.length_pos_iff] at hkey hvalue
    rw [filter_splitOn_append, List.length_append]
    omega

/-- The number of words of a piece, which holds no NUL. -/
theorem two_le_length_wordsOf_iff {piece : Bytes} (h : 0 ∉ piece) :
    2 ≤ (wordsOf piece 61).length ↔ HasPair piece := by
  have hall : piece.takeWhile (· ≠ 0) = piece := by
    rw [List.takeWhile_eq_self_iff]
    intro c hc
    rw [decide_eq_true_eq]
    rintro rfl
    exact h hc
  rw [wordsOf_eq, hall, two_le_length_splitOn_iff]

/-! ## All pieces -/

/-- The loop over the pieces ends when each can be indexed and has two words. -/
theorem foldlM_setParam_iff (vars : List Bytes) (m : StringMap) :
    (∃ params, vars.foldlM setParam m = .ok params) ↔
      ∀ var ∈ vars, Indexable var ∧ 2 ≤ (wordsOf var 61).length := by
  induction vars generalizing m with
  | nil => exact iff_of_true ⟨m, rfl⟩ (by simp)
  | cons var vars ih =>
    have hfails : ∀ e, setParam m var = .error e →
        ¬ ∃ params, (var :: vars).foldlM setParam m = .ok params := by
      rintro e he ⟨_, h⟩
      rw [List.foldlM_cons, he] at h
      cases h
    rw [List.forall_mem_cons]
    by_cases hindex : Indexable var
    swap
    · have hset : setParam m var = .error .undefined := by
        rw [setParam, splitWordsInt_of_not_indexable hindex]
        rfl
      exact iff_of_false (hfails _ hset) fun h => hindex h.1.1
    have hsplit := splitWordsInt_of_indexable hindex 61
    rcases hvar : wordsOf var 61 with _ | ⟨key, _ | ⟨value, words⟩⟩
    · have hset : setParam m var = .error .undefined := by rw [setParam, hsplit, ok_bind, hvar]
      exact iff_of_false (hfails _ hset) (by simp)
    · have hset : setParam m var = .error .undefined := by rw [setParam, hsplit, ok_bind, hvar]
      exact iff_of_false (hfails _ hset) (by simp)
    · have hset : setParam m var = .ok (m.insert key value) := by
        rw [setParam, hsplit, ok_bind, hvar]
      rw [List.foldlM_cons, hset]
      exact (ih _).trans (by simp [hindex])

/-- A piece holds no byte that the string does not hold. -/
theorem notMem_of_mem_splitOn {a c : UInt8} {s piece : Bytes} (hc : c ∉ s)
    (h : piece ∈ s.splitOn a) : c ∉ piece := by
  induction s generalizing piece with
  | nil =>
    rw [List.splitOn_nil, List.mem_singleton] at h
    rw [h]
    exact List.not_mem_nil
  | cons x s ih =>
    rw [List.mem_cons, not_or] at hc
    rw [List.splitOn_cons_eq_if_modifyHead] at h
    split_ifs at h
    · rcases List.mem_cons.mp h with rfl | h
      · exact List.not_mem_nil
      · exact ih hc.2 h
    · obtain ⟨w, ws, hw⟩ := List.exists_cons_of_ne_nil (List.splitOn_ne_nil a s)
      rw [hw] at h ih
      rcases List.mem_cons.mp h with rfl | h
      · rw [List.mem_cons, not_or]
        exact ⟨hc.1, ih hc.2 List.mem_cons_self⟩
      · exact ih hc.2 (List.mem_cons_of_mem _ h)

/-- **When every read of `keyPairs` is inside it.** For every URL, `parse_url_params` returns
exactly when its query has fewer than `2 ^ 31` bytes and each piece of it is empty or has a key and
a value. -/
theorem parseUrlParams_inside_iff (url : Bytes) :
    (∃ params, parseUrlParams url = .ok params) ↔
      (query url).length < 2 ^ 31 ∧
        ∀ piece ∈ (query url).splitOn 59, piece = [] ∨ HasPair piece := by
  have hpieces : ∀ q : Bytes,
      (∃ params, (splitWordsInt q 59 >>= fun vars => vars.foldlM setParam ∅) = .ok params) ↔
        (q.takeWhile (· ≠ 0)).length < 2 ^ 31 ∧
          ∀ piece ∈ (q.takeWhile (· ≠ 0)).splitOn 59, piece = [] ∨ HasPair piece := fun q => by
    have hnul : (0 : UInt8) ∉ q.takeWhile (· ≠ 0) := fun h => by
      simpa using List.mem_takeWhile_imp h
    by_cases hindex : Indexable q
    swap
    · rw [splitWordsInt_of_not_indexable hindex]
      refine iff_of_false ?_ fun h => hindex h.1
      rintro ⟨_, h⟩
      cases h
    have hlen : (q.takeWhile (· ≠ 0)).length < 2 ^ 31 := hindex
    rw [splitWordsInt_of_indexable hindex, ok_bind, foldlM_setParam_iff, and_iff_right hlen]
    have hdrop : (∀ var ∈ wordsOf q 59, Indexable var ∧ 2 ≤ (wordsOf var 61).length) ↔
        ∀ var ∈ wordsOf q 59, 2 ≤ (wordsOf var 61).length :=
      forall₂_congr fun var hvar => and_iff_right (hindex.of_mem_wordsOf hvar)
    rw [hdrop, wordsOf_eq]
    refine forall_congr' fun piece => ?_
    rw [List.mem_filter, decide_eq_true_eq, and_imp]
    refine forall_congr' fun hmem => ?_
    rw [two_le_length_wordsOf_iff (notMem_of_mem_splitOn hnul hmem), or_iff_not_imp_left]
  by_cases hmark : 63 ∈ url
  · obtain ⟨path, q, rfl, hpath⟩ := List.eq_append_cons_of_mem hmark
    have hdrop : (path ++ 63 :: q).dropWhile (· ≠ 63) = 63 :: q := by
      rw [List.dropWhile_append_of_pos, List.dropWhile_cons_of_neg (by simp)]
      intro c hc
      rw [decide_eq_true_eq]
      rintro rfl
      exact hpath hc
    rw [parseUrlParams_mark hpath, hpieces, query, hdrop, List.tail_cons]
  · have hdrop : url.dropWhile (· ≠ 63) = [] := by
      rw [List.dropWhile_eq_nil_iff]
      intro c hc
      rw [decide_eq_true_eq]
      rintro rfl
      exact hmark hc
    rw [parseUrlParams_of_notMem hmark, query, hdrop]
    exact iff_of_true ⟨_, rfl⟩ (by simp)

/-- A parameter without a value. -/
theorem parseUrlParams_flag :
    ¬ ∃ params, parseUrlParams (lit "/list?all") = .ok params := by
  have hflag : parseUrlParams (lit "/list?all") = .error .undefined := by decide
  rw [hflag]
  rintro ⟨params, hok⟩
  cases hok

end SimpleServer
