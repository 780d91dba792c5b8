import SimpleServer.Http.Words
import SimpleServer.Foundations.HashMap

/-!
# The target of a request

`extract_url_with_query_params` takes what stands between the first space of a request and its
first ` HTTP/1.1`. It searches for both in the whole request and keeps the positions as `int`, so
that a search that fails, and a position from `2 ^ 31` on, turn the difference of the two into the
length of a text without end, or into one that no `int` holds, which is undefined.

`extractUrl_fixed_iff` says for which first lines the result depends on the line alone, and
`recovers_iff_of_lt` that the verb, the path and the parameters are recovered from every request
whose ` HTTP/1.1` stands below `2 ^ 31`.
-/

namespace SimpleServer

open Cxx

/-- The text that ends the target. -/
def httpVersion : Bytes := lit " HTTP/1.1"

/-! ## What is cut out -/

section Extract

variable {request : Bytes} {a b : ℤ}

theorem extractUrlWithQueryParams_eq (ha : posToInt (findChar space request) = a)
    (hb : posToInt (find httpVersion request) = b) :
    extractUrlWithQueryParams request = (do
      let start ← intResult (a + 1)
      let count ← intResult (b - start)
      substr request (toSizeT start) (some (toSizeT count))) := by
  subst ha hb
  rfl

theorem posToInt_bounds (n : Option ℕ) : -2 ^ 31 ≤ posToInt n ∧ posToInt n < 2 ^ 31 := by
  cases n with
  | none => simp [posToInt]
  | some n =>
    have := toInt32_bounds n
    exact ⟨this.1, this.2.1⟩

/-- Positions in order cut out what stands between them. -/
theorem extract_of_le (ha : posToInt (findChar space request) = a)
    (hb : posToInt (find httpVersion request) = b) (h0 : 0 ≤ a + 1) (hab : a + 1 ≤ b)
    (hlen : (a + 1).toNat ≤ request.length) :
    extractUrlWithQueryParams request =
      .ok ((request.drop (a + 1).toNat).take (b - (a + 1)).toNat) := by
  have hb' := (posToInt_bounds (find httpVersion request)).2
  rw [hb] at hb'
  rw [extractUrlWithQueryParams_eq ha hb, intResult_of_mem (by omega) (by omega), ok_bind,
    intResult_of_mem (by omega) (by omega), ok_bind, toSizeT_of_nonneg h0 (by omega),
    toSizeT_of_nonneg (by omega) (by omega), substr, if_neg (by omega), Option.getD_some]

/-- What is returned is cut out by positions whose sum and difference are `int`s. -/
theorem exists_substr_of_ok {url : Bytes} (ha : posToInt (findChar space request) = a)
    (hb : posToInt (find httpVersion request) = b)
    (h : extractUrlWithQueryParams request = .ok url) :
    -2 ^ 31 ≤ b - (a + 1) ∧
      substr request (toSizeT (a + 1)) (some (toSizeT (b - (a + 1)))) = .ok url := by
  rw [extractUrlWithQueryParams_eq ha hb] at h
  cases hstart : intResult (a + 1) with
  | error e =>
    rw [hstart] at h
    cases h
  | ok start =>
    rw [hstart, ok_bind, eq_of_intResult hstart] at h
    cases hcount : intResult (b - (a + 1)) with
    | error e =>
      rw [hcount] at h
      cases h
    | ok count =>
      rw [hcount, ok_bind, eq_of_intResult hcount] at h
      rw [intResult] at hcount
      split_ifs at hcount with hmem
      exact ⟨hmem.1, h⟩

/-- Positions out of order cut out all that is left. -/
theorem eq_drop_of_lt {url : Bytes} (ha : posToInt (findChar space request) = a)
    (hb : posToInt (find httpVersion request) = b) (h0 : 0 ≤ a + 1) (hab : b < a + 1)
    (hlen : (a + 1).toNat ≤ request.length) (hshort : request.length < 2 ^ 63)
    (h : extractUrlWithQueryParams request = .ok url) : url = request.drop (a + 1).toNat := by
  obtain ⟨hmin, hsubstr⟩ := exists_substr_of_ok ha hb h
  have ha' := (posToInt_bounds (findChar space request)).2
  rw [ha] at ha'
  have hcount := toSizeT_of_neg (z := b - (a + 1)) (by omega) (by omega)
  rw [toSizeT_of_nonneg h0 (by omega), substr, if_neg (by omega), Option.getD_some,
    List.take_of_length_le (by rw [List.length_drop]; omega), Except.ok.injEq] at hsubstr
  exact hsubstr.symm

/-- A negative position is beyond the end of every string. -/
theorem not_extract_of_neg {url : Bytes} (ha : posToInt (findChar space request) = a)
    (h0 : a + 1 < 0) (hshort : request.length < 2 ^ 63) :
    extractUrlWithQueryParams request ≠ .ok url := by
  intro h
  obtain ⟨-, hsubstr⟩ := exists_substr_of_ok ha rfl h
  have ha' := (posToInt_bounds (findChar space request)).1
  rw [ha] at ha'
  have hpos := toSizeT_of_neg (z := a + 1) h0 (by omega)
  rw [substr, if_pos (by omega)] at hsubstr
  cases hsubstr

end Extract

/-- `extract_url`: the target up to its first `?`. -/
theorem extractUrl_of_ok {request target : Bytes}
    (h : extractUrlWithQueryParams request = .ok target) :
    extractUrl request = .ok (target.take ((findChar 63 target).getD target.length)) := by
  rw [extractUrl, h]
  cases hfind : findChar 63 target with
  | none => simp only [hfind, Option.getD_none, List.take_length]
  | some n =>
    simp only [hfind, substrFront, Option.getD_some]

/-! ## The first line -/

/-- The first line of a request, without its CRLF. No string has `2 ^ 63` bytes. -/
structure FirstLine where
  bytes : Bytes
  cr_notMem : cr ∉ bytes
  lf_notMem : lf ∉ bytes
  length_lt : bytes.length < 2 ^ 63 - 2

namespace FirstLine

/-- The request that goes on after the line. -/
def followedBy (line : FirstLine) (t : Bytes) : Bytes := line.bytes ++ crlf ++ t

/-- A text cut out of every request with the line, whatever follows, is the same and a part of
the line. -/
def Fixes (line : FirstLine) (f : Bytes → Except Exn Bytes) : Prop :=
  ∀ t₁ t₂, ∃ url, f (line.followedBy t₁) = .ok url ∧ f (line.followedBy t₂) = .ok url ∧
    url <:+: line.bytes

/-- The line has a ` HTTP/1.1` behind its first space, by their positions as `int`. -/
def EndsTarget (line : FirstLine) : Prop :=
  ∃ s h, findChar space line.bytes = some s ∧ find httpVersion line.bytes = some h ∧
    0 ≤ toInt32 s + 1 ∧ toInt32 s + 1 ≤ toInt32 h

/-- Below `2 ^ 31` bytes, the positions are what they are. -/
theorem endsTarget_iff_of_lt {line : FirstLine} (hlen : line.bytes.length < 2 ^ 31) :
    line.EndsTarget ↔ ∃ s h, findChar space line.bytes = some s ∧
      find httpVersion line.bytes = some h ∧ s < h := by
  constructor
  · rintro ⟨s, h, hs, hh, -, hle⟩
    have h1 := findChar_lt hs
    have h2 := find_length_le hh
    rw [toInt32_of_lt (by omega), toInt32_of_lt (by omega)] at hle
    exact ⟨s, h, hs, hh, by omega⟩
  · rintro ⟨s, h, hs, hh, hlt⟩
    have h1 := findChar_lt hs
    have h2 := find_length_le hh
    refine ⟨s, h, hs, hh, ?_⟩
    rw [toInt32_of_lt (by omega), toInt32_of_lt (by omega)]
    omega

/-- In the request that ends with the line, both searches stay in the line. -/
theorem find_followedBy_nil (line : FirstLine) :
    findChar space (line.followedBy []) = findChar space line.bytes ∧
      find httpVersion (line.followedBy []) = find httpVersion line.bytes := by
  rw [followedBy, List.append_nil]
  constructor
  · unfold findChar
    rw [List.findIdx?_append]
    cases line.bytes.findIdx? (· == space) <;> rfl
  · cases hfind : find httpVersion line.bytes with
    | none =>
      rw [find_eq_none_iff] at hfind ⊢
      rw [crlf, infix_append_cons_iff (by decide)]
      rintro (h | h)
      · exact hfind h
      · exact absurd h (by decide)
    | some n =>
      exact find_append_of_some hfind _

/-- The target of a line that has one is cut out whatever follows. -/
theorem extract_followedBy {line : FirstLine} {s h : ℕ} (hs : findChar space line.bytes = some s)
    (hh : find httpVersion line.bytes = some h) (h0 : 0 ≤ toInt32 s + 1)
    (hle : toInt32 s + 1 ≤ toInt32 h) (t : Bytes) :
    extractUrlWithQueryParams (line.followedBy t) =
      .ok ((line.bytes.drop (toInt32 s + 1).toNat).take
        (toInt32 h - (toInt32 s + 1)).toNat) := by
  have e : line.followedBy t = line.bytes ++ (crlf ++ t) := by simp [followedBy]
  have hstart : (toInt32 s + 1).toNat ≤ line.bytes.length := by
    have := findChar_lt hs
    have := toInt32_bounds s
    omega
  have hstop : (toInt32 h - (toInt32 s + 1)).toNat ≤
      (line.bytes.drop (toInt32 s + 1).toNat).length := by
    have := find_length_le hh
    have := toInt32_bounds h
    rw [List.length_drop]
    omega
  have ha : posToInt (findChar space (line.followedBy t)) = toInt32 s := by
    rw [e, findChar_append_of_some hs]
    rfl
  have hb : posToInt (find httpVersion (line.followedBy t)) = toInt32 h := by
    rw [e, find_append_of_some hh]
    rfl
  have hlen : (toInt32 s + 1).toNat ≤ (line.followedBy t).length := by
    rw [e, List.length_append]
    exact Nat.le_add_right_of_le hstart
  rw [extract_of_le ha hb h0 hle hlen, e, List.drop_append_of_le_length hstart,
    List.take_append_of_le_length hstop]

/-- What is cut out begins in the line or at its end. -/
theorem start_le (line : FirstLine) :
    (posToInt (findChar space line.bytes) + 1).toNat ≤ line.bytes.length := by
  cases hfind : findChar space line.bytes with
  | none => exact Nat.zero_le _
  | some s =>
    have := findChar_lt hfind
    have := toInt32_bounds s
    rw [posToInt]
    omega

/-- ` HTTP/1.1` begins with a space. -/
theorem exists_space_of_version {bytes : Bytes} {h : ℕ} (hfind : find httpVersion bytes = some h) :
    ∃ s, findChar space bytes = some s := by
  have hsub : httpVersion <:+: bytes := by
    by_contra hnot
    rw [(find_eq_none_iff _ _).mpr hnot] at hfind
    cases hfind
  cases hchar : findChar space bytes with
  | none =>
    rw [findChar, List.findIdx?_eq_none_iff] at hchar
    exact absurd (hchar space (hsub.subset (by decide))) (by simp)
  | some s => exact ⟨s, rfl⟩

/-- A result that is the same for all continuations needs a target in the line. -/
theorem endsTarget_of_fixes {line : FirstLine} (h : line.Fixes extractUrlWithQueryParams) :
    line.EndsTarget := by
  obtain ⟨url, hurl, -, hsub⟩ := h [] []
  have hcr : cr ∉ url := fun hmem => line.cr_notMem (hsub.subset hmem)
  obtain ⟨hs, hh⟩ := line.find_followedBy_nil
  have hlen : (line.followedBy []).length = line.bytes.length + 2 := by simp [followedBy, crlf]
  have hshort := line.length_lt
  -- what is cut out up to the end of the request holds the CR behind the line
  have hrest : ∀ n ≤ line.bytes.length, url ≠ (line.followedBy []).drop n := by
    rintro n hn rfl
    rw [followedBy, List.append_nil, List.drop_append_of_le_length hn] at hcr
    exact hcr (by simp [crlf])
  have hstart := line.start_le
  generalize ha : posToInt (findChar space line.bytes) = a at *
  generalize hb : posToInt (find httpVersion line.bytes) = b at *
  rw [← hs] at ha
  rw [← hh] at hb
  have h0 : 0 ≤ a + 1 := by
    by_contra hneg
    exact not_extract_of_neg ha (by omega) (by omega) hurl
  have hab : a + 1 ≤ b := by
    by_contra hlt
    exact hrest _ hstart (eq_drop_of_lt ha hb h0 (by omega) (by omega) (by omega) hurl)
  -- neither search has failed
  rw [hs] at ha
  rw [hh] at hb
  rcases hfind : find httpVersion line.bytes with _ | h
  · rw [hfind, posToInt] at hb
    omega
  obtain ⟨s, hchar⟩ := exists_space_of_version hfind
  rw [hchar, posToInt] at ha
  rw [hfind, posToInt] at hb
  exact ⟨s, h, hchar, hfind, by omega, by omega⟩

theorem fixes_iff (line : FirstLine) :
    (line.Fixes extractUrlWithQueryParams ∧ line.Fixes extractUrl) ↔ line.EndsTarget := by
  refine ⟨fun h => endsTarget_of_fixes h.1, ?_⟩
  rintro ⟨s, h, hs, hh, h0, hle⟩
  have hcut := extract_followedBy hs hh h0 hle
  have hsub : (line.bytes.drop (toInt32 s + 1).toNat).take
      (toInt32 h - (toInt32 s + 1)).toNat <:+: line.bytes :=
    (List.take_prefix _ _).isInfix.trans (List.drop_suffix _ _).isInfix
  generalize (line.bytes.drop (toInt32 s + 1).toNat).take
    (toInt32 h - (toInt32 s + 1)).toNat = target at hcut hsub
  constructor
  · intro t₁ t₂
    exact ⟨target, hcut t₁, hcut t₂, hsub⟩
  · intro t₁ t₂
    exact ⟨_, extractUrl_of_ok (hcut t₁), extractUrl_of_ok (hcut t₂),
      (List.take_prefix _ _).isInfix.trans hsub⟩

/-- **The URL is fixed by the first line** exactly when the line has a ` HTTP/1.1` behind its
first space, by their positions as `int`; below `2 ^ 31` bytes, by their positions. -/
theorem extractUrl_fixed_iff (line : FirstLine) :
    ((line.Fixes extractUrlWithQueryParams ∧ line.Fixes extractUrl) ↔ line.EndsTarget) ∧
      (line.bytes.length < 2 ^ 31 →
        ((line.Fixes extractUrlWithQueryParams ∧ line.Fixes extractUrl) ↔
          ∃ s h, findChar space line.bytes = some s ∧ find httpVersion line.bytes = some h ∧
            s < h)) :=
  ⟨line.fixes_iff, fun hlen => line.fixes_iff.trans (endsTarget_iff_of_lt hlen)⟩

/-- The first line of a request in HTTP/1.0. -/
def http10 : FirstLine where
  bytes := lit "GET / HTTP/1.0"
  cr_notMem := by decide
  lf_notMem := by decide
  length_lt := by decide

/-- The URL of a request in HTTP/1.0 goes on to the end of the request. -/
theorem extractUrl_http10 :
    extractUrl (http10.followedBy (lit "Host: a\r\n\r\n")) =
        .ok (lit "/ HTTP/1.0\r\nHost: a\r\n\r\n") ∧
      ¬ http10.Fixes extractUrl := by
  refine ⟨by decide +kernel, fun h => ?_⟩
  obtain ⟨url, h₁, h₂, -⟩ := h (lit "a") (lit "b")
  have hne : extractUrl (http10.followedBy (lit "a")) ≠
      extractUrl (http10.followedBy (lit "b")) := by
    decide +kernel
  exact hne (h₁.trans h₂.symm)

end FirstLine

/-! ## Parameters -/

/-- `key=value`. -/
def pairText (p : Bytes × Bytes) : Bytes := p.1 ++ 61 :: p.2

/-- `k1=v1;...;kn=vn`. -/
def queryText (pairs : List (Bytes × Bytes)) : Bytes := List.intercalate [59] (pairs.map pairText)

/-- A key or a value: a word of both splits. -/
structure IsPart (w : Bytes) : Prop where
  word_semicolon : IsWord 59 w
  word_equals : IsWord 61 w

section Params

variable {pairs : List (Bytes × Bytes)} {path : Bytes}

theorem wordsOf_pairText {p : Bytes × Bytes} (hk : IsPart p.1) (hv : IsPart p.2) :
    wordsOf (pairText p) 61 = [p.1, p.2] := by
  rw [pairText, wordsOf_cons (by decide) hk.word_equals, wordsOf_word hv.word_equals]

theorem isWord_pairText {p : Bytes × Bytes} (hk : IsPart p.1) (hv : IsPart p.2) :
    IsWord 59 (pairText p) where
  ne_nil := by simp [pairText]
  sp_notMem := by
    have h₁ := hk.word_semicolon.sp_notMem
    have h₂ := hv.word_semicolon.sp_notMem
    simp [pairText, h₁, h₂]
  nul_notMem := by
    have h₁ := hk.word_equals.nul_notMem
    have h₂ := hv.word_equals.nul_notMem
    simp [pairText, h₁, h₂]

theorem wordsOf_queryText (h : ∀ p ∈ pairs, IsPart p.1 ∧ IsPart p.2) :
    wordsOf (queryText pairs) 59 = pairs.map pairText := by
  refine wordsOf_intercalate (by decide) fun w hw => ?_
  obtain ⟨p, hp, rfl⟩ := List.mem_map.mp hw
  exact isWord_pairText (h p hp).1 (h p hp).2

/-- The body of the loop of `parse_url_params`. -/
def setParam (ret : StringMap) (var : Bytes) : Except Exn StringMap := do
  let keyPairs ← splitWordsInt var 61
  match keyPairs with
  | key :: value :: _ => .ok (ret.insert key value)
  | _ => .error .undefined

theorem foldlM_setParam (h : ∀ p ∈ pairs, IsPart p.1 ∧ IsPart p.2)
    (hindex : ∀ p ∈ pairs, Indexable (pairText p)) (m : StringMap) :
    (pairs.map pairText).foldlM setParam m = .ok (insertAll m pairs) := by
  induction pairs generalizing m with
  | nil => rfl
  | cons p pairs ih =>
    obtain ⟨hk, hv⟩ := h p (by simp)
    have hset : setParam m (pairText p) = .ok (m.insert p.1 p.2) := by
      rw [setParam, splitWordsInt_of_indexable (hindex p (by simp)), ok_bind,
        wordsOf_pairText hk hv]
    rw [List.map_cons, List.foldlM_cons, hset]
    exact ih (fun q hq => h q (List.mem_cons_of_mem _ hq))
      (fun q hq => hindex q (List.mem_cons_of_mem _ hq)) _

/-- The parameters of a URL are what stands behind its first `?`. -/
theorem parseUrlParams_mark (hpath : 63 ∉ path) (query : Bytes) :
    parseUrlParams (path ++ 63 :: query) =
      splitWordsInt query 59 >>= fun vars => vars.foldlM setParam ∅ := by
  have hdrop : (path ++ 63 :: query).drop (path.length + 1) = query := by
    rw [← List.drop_drop, List.drop_left]
    rfl
  have hlen : (path ++ 63 :: query).length = path.length + query.length + 1 := by
    rw [List.length_append, List.length_cons]
    omega
  rw [parseUrlParams, findChar_append_cons hpath]
  simp only [substr, hdrop, hlen, Option.getD_some]
  rw [if_neg (by omega), List.take_of_length_le (by omega), ok_bind]
  rfl

/-- **The parameters behind a path** are set one after another. -/
theorem parseUrlParams_queryText (hpath : 63 ∉ path)
    (h : ∀ p ∈ pairs, IsPart p.1 ∧ IsPart p.2) (hindex : Indexable (queryText pairs)) :
    parseUrlParams (path ++ 63 :: queryText pairs) = .ok (insertAll ∅ pairs) := by
  have hpairs : ∀ p ∈ pairs, Indexable (pairText p) := fun p hp =>
    hindex.of_mem_wordsOf (by rw [wordsOf_queryText h]; exact List.mem_map_of_mem hp)
  rw [parseUrlParams_mark hpath, splitWordsInt_of_indexable hindex, ok_bind, wordsOf_queryText h,
    foldlM_setParam h hpairs]

theorem parseUrlParams_of_notMem (h : 63 ∉ path) : parseUrlParams path = .ok ∅ := by
  rw [parseUrlParams, findChar_eq_none h]

end Params

/-! ## Requests -/

/-- The parts of a request up to its version: a verb, a path and parameters, which follow a `?`
that may stand alone. -/
structure Target where
  verb : Bytes
  path : Bytes
  pairs : List (Bytes × Bytes)
  mark : Bool
  space_notMem_verb : space ∉ verb
  slash_path : path.head? = some 47
  space_notMem_path : space ∉ path
  mark_notMem_path : 63 ∉ path
  nul_notMem_path : 0 ∉ path
  isPart : ∀ p ∈ pairs, IsPart p.1 ∧ IsPart p.2
  space_notMem_pairs : ∀ p ∈ pairs, space ∉ p.1 ∧ space ∉ p.2
  mark_of_pairs : pairs ≠ [] → mark = true

namespace Target

/-- The text between the verb and the version. -/
def text (t : Target) : Bytes := t.path ++ if t.mark then 63 :: queryText t.pairs else []

/-- The request that goes on with the given text. -/
def request (t : Target) (rest : Bytes) : Bytes :=
  t.verb ++ space :: (t.text ++ httpVersion ++ rest)

/-- The position of ` HTTP/1.1`. -/
def stop (t : Target) : ℕ := t.verb.length + 1 + t.text.length

/-- The verb, the path and the parameters of a request are found again. -/
def Recovers (t : Target) (rest : Bytes) : Prop :=
  extractHttpVerb (t.request rest) = t.verb ∧ extractUrl (t.request rest) = .ok t.path ∧
    ∃ params, extractUrlWithQueryParams (t.request rest) >>= parseUrlParams = .ok params ∧
      ∀ key, params.lookup key = lastOf t.pairs key

theorem mem_intercalate {sep : Bytes} {c : UInt8} {ws : List Bytes}
    (h : c ∈ List.intercalate sep ws) : c ∈ sep ∨ ∃ w ∈ ws, c ∈ w := by
  induction ws with
  | nil => simp [List.intercalate_nil] at h
  | cons w ws ih =>
    cases ws with
    | nil =>
      rw [List.intercalate_singleton] at h
      exact Or.inr ⟨w, by simp, h⟩
    | cons w' ws =>
      rw [List.intercalate_cons_cons] at h
      rcases List.mem_append.mp h with h | h
      · rcases List.mem_append.mp h with h | h
        · exact Or.inr ⟨w, by simp, h⟩
        · exact Or.inl h
      · rcases ih h with h | ⟨v, hv, hc⟩
        · exact Or.inl h
        · exact Or.inr ⟨v, List.mem_cons_of_mem _ hv, hc⟩

theorem space_notMem_text (t : Target) : space ∉ t.text := by
  rw [text, List.mem_append]
  rintro (h | h)
  · exact t.space_notMem_path h
  · split_ifs at h
    · rcases List.mem_cons.mp h with h | h
      · exact absurd h (by decide)
      · rcases mem_intercalate h with h | ⟨w, hw, hc⟩
        · exact absurd h (by decide)
        · obtain ⟨p, hp, rfl⟩ := List.mem_map.mp hw
          obtain ⟨hk, hv⟩ := t.space_notMem_pairs p hp
          rcases List.mem_append.mp hc with hc | hc
          · exact hk hc
          · rcases List.mem_cons.mp hc with hc | hc
            · exact absurd hc (by decide)
            · exact hv hc
    · simp at h

theorem findChar_request (t : Target) (rest : Bytes) :
    findChar space (t.request rest) = some t.verb.length :=
  findChar_append_cons t.space_notMem_verb _

/-- No ` HTTP/1.1` stands before that of the request: the only space is followed by `/`. -/
theorem find_request (t : Target) (rest : Bytes) :
    find httpVersion (t.request rest) = some t.stop := by
  have hversion : httpVersion = space :: lit "HTTP/1.1" := by decide
  obtain ⟨path, hpath⟩ := List.head?_eq_some_iff.mp t.slash_path
  have hnot : (space :: lit "HTTP/1.1").isPrefixOf
      (space :: (t.text ++ (space :: lit "HTTP/1.1") ++ rest)) = false := by
    rw [text, hpath]
    rfl
  rw [request, hversion, find_append_of_notMem t.space_notMem_verb, find, hnot,
    List.append_assoc, find_append_of_notMem t.space_notMem_text, find_self, stop]
  simp only [Bool.false_eq_true, if_false, Option.map_some]
  congr 1
  omega

theorem drop_request (t : Target) (rest : Bytes) :
    (t.request rest).drop (t.verb.length + 1) = t.text ++ (httpVersion ++ rest) := by
  rw [request, ← List.drop_drop, List.drop_left, List.append_assoc]
  rfl

theorem length_request (t : Target) (rest : Bytes) :
    (t.request rest).length = t.stop + 9 + rest.length := by
  have hversion : httpVersion.length = 9 := by decide
  rw [request, stop]
  simp only [List.length_append, List.length_cons, hversion]
  omega

/-- Below `2 ^ 31`, the target is cut out. -/
theorem extract_request {t : Target} (h : t.stop < 2 ^ 31) (rest : Bytes) :
    extractUrlWithQueryParams (t.request rest) = .ok t.text := by
  have hlen := t.length_request rest
  have hstop : t.stop = t.verb.length + 1 + t.text.length := rfl
  have ha : posToInt (findChar space (t.request rest)) = t.verb.length := by
    rw [findChar_request, posToInt, toInt32_of_lt (by omega)]
  have hb : posToInt (find httpVersion (t.request rest)) = t.stop := by
    rw [find_request, posToInt, toInt32_of_lt h]
  have hstart : ((t.verb.length : ℤ) + 1).toNat = t.verb.length + 1 := by omega
  have hcount : ((t.stop : ℤ) - (t.verb.length + 1)).toNat = t.text.length := by omega
  rw [extract_of_le ha hb (by omega) (by omega) (by omega), hstart, hcount, drop_request,
    List.take_left]

/-- The path of a target is what stands before its `?`. -/
theorem extractUrl_of_text {t : Target} {request : Bytes}
    (h : extractUrlWithQueryParams request = .ok t.text) : extractUrl request = .ok t.path := by
  rw [extractUrl_of_ok h, text]
  cases t.mark with
  | false =>
    rw [if_neg (by simp), List.append_nil, findChar_eq_none t.mark_notMem_path, Option.getD_none,
      List.take_length]
  | true =>
    rw [if_pos rfl, findChar_append_cons t.mark_notMem_path, Option.getD_some, List.take_left]

/-- Below `2 ^ 31`, `split_words` can index the parameters. -/
theorem indexable_queryText {t : Target} (h : t.stop < 2 ^ 31) (hmark : t.mark = true) :
    Indexable (queryText t.pairs) := by
  refine indexable_of_length_lt (lt_of_le_of_lt ?_ h)
  rw [stop, text, if_pos hmark, List.length_append, List.length_cons]
  omega

theorem parseUrlParams_text {t : Target} (h : t.stop < 2 ^ 31) :
    parseUrlParams t.text = .ok (insertAll ∅ t.pairs) := by
  rw [text]
  cases hmark : t.mark with
  | false =>
    have hpairs : t.pairs = [] := by
      by_contra hne
      rw [t.mark_of_pairs hne] at hmark
      cases hmark
    rw [if_neg (by simp), List.append_nil, parseUrlParams_of_notMem t.mark_notMem_path, hpairs]
    rfl
  | true =>
    rw [if_pos rfl, parseUrlParams_queryText t.mark_notMem_path t.isPart
      (indexable_queryText h hmark)]

/-- Below `2 ^ 31`, the parts of a request are recovered. -/
theorem recovers_of_lt {t : Target} (h : t.stop < 2 ^ 31) (rest : Bytes) : t.Recovers rest := by
  have hcut := extract_request h rest
  refine ⟨?_, extractUrl_of_text hcut, insertAll ∅ t.pairs, ?_, fun key => ?_⟩
  · rw [extractHttpVerb, findChar_request, substrFront, Option.getD_some, request, List.take_left]
  · rw [hcut]
    exact parseUrlParams_text h
  · rw [lookup_insertAll, AList.lookup_empty, Option.or_none]

/-! Between `2 ^ 31` and `2 ^ 32`, the position of ` HTTP/1.1` is negative as an `int`. -/

theorem intercalate_concat (sep x w : Bytes) (ws : List Bytes) :
    List.intercalate sep (ws ++ [w]) ++ x = List.intercalate sep (ws ++ [w ++ x]) := by
  induction ws with
  | nil => simp
  | cons w' ws ih =>
    rw [List.cons_append, List.cons_append, List.intercalate_cons_of_ne_nil (by simp),
      List.intercalate_cons_of_ne_nil (by simp), ← ih]
    simp only [List.append_assoc]

theorem isPart_httpVersion {w : Bytes} (h : IsPart w) : IsPart (w ++ httpVersion) := by
  have h₁ : (59 : UInt8) ∉ httpVersion ∧ (61 : UInt8) ∉ httpVersion ∧
      (0 : UInt8) ∉ httpVersion := by
    decide
  refine ⟨⟨by simp [h.word_equals.ne_nil], ?_, ?_⟩, ⟨by simp [h.word_equals.ne_nil], ?_, ?_⟩⟩
  · simp [h.word_semicolon.sp_notMem, h₁.1]
  · simp [h.word_equals.nul_notMem, h₁.2.2]
  · simp [h.word_equals.sp_notMem, h₁.2.1]
  · simp [h.word_equals.nul_notMem, h₁.2.2]

/-- The target with the version behind it has other parameters. -/
theorem parseUrlParams_version {t : Target} (hmark : t.mark = true) {params : StringMap}
    (h : parseUrlParams (t.text ++ httpVersion) = .ok params) :
    ∃ key, params.lookup key ≠ lastOf t.pairs key := by
  have htext : t.text ++ httpVersion = t.path ++ 63 :: (queryText t.pairs ++ httpVersion) := by
    simp [text, hmark]
  rw [htext] at h
  rcases List.eq_nil_or_concat t.pairs with hnil | ⟨init, ⟨k, v⟩, hpairs⟩
  · -- the version alone does not split into a key and a value
    have herror : parseUrlParams (t.path ++ 63 :: (queryText t.pairs ++ httpVersion)) =
        .error .undefined := by
      rw [parseUrlParams_mark t.mark_notMem_path, hnil]
      rfl
    rw [herror] at h
    cases h
  · rw [List.concat_eq_append] at hpairs
    have hpart := t.isPart
    rw [hpairs] at hpart
    have hquery : queryText t.pairs ++ httpVersion =
        queryText (init ++ [(k, v ++ httpVersion)]) := by
      rw [hpairs, queryText, queryText, List.map_append, List.map_append, List.map_singleton,
        List.map_singleton, intercalate_concat]
      simp [pairText]
    have hpart' : ∀ p ∈ init ++ [(k, v ++ httpVersion)], IsPart p.1 ∧ IsPart p.2 := by
      intro p hp
      rcases List.mem_append.mp hp with hp | hp
      · exact hpart p (List.mem_append_left _ hp)
      · obtain ⟨hk, hv⟩ := hpart (k, v) (by simp)
        rw [List.mem_singleton.mp hp]
        exact ⟨hk, isPart_httpVersion hv⟩
    have hindex : Indexable (queryText (init ++ [(k, v ++ httpVersion)])) := by
      rw [parseUrlParams_mark t.mark_notMem_path, hquery] at h
      cases hsplit : splitWordsInt (queryText (init ++ [(k, v ++ httpVersion)])) 59 with
      | error e =>
        rw [hsplit] at h
        cases h
      | ok vars => exact (of_splitWordsInt_eq_ok hsplit).1
    rw [hquery, parseUrlParams_queryText t.mark_notMem_path hpart' hindex, Except.ok.injEq] at h
    refine ⟨k, ?_⟩
    rw [← h, lookup_insertAll, lastOf, lastOf, hpairs, List.reverse_concat, List.reverse_concat,
      List.lookup_cons_self, List.lookup_cons_self, Option.some_or]
    intro heq
    rw [Option.some.injEq, List.append_right_eq_self] at heq
    exact absurd heq (by decide)

/-- From `2 ^ 31` to below `2 ^ 32`, a request that ends with its version is not recovered: the
difference of the positions is undefined, or what is cut out goes on behind the target. -/
theorem not_recovers {t : Target} (h : 2 ^ 31 ≤ t.stop) (h' : t.stop < 2 ^ 32) :
    ¬ t.Recovers [] := by
  rintro ⟨-, hurl, params, hparams, hlookup⟩
  have hlen : (t.request []).length = t.stop + 9 := t.length_request []
  have hstop : t.stop = t.verb.length + 1 + t.text.length := rfl
  have hb : posToInt (find httpVersion (t.request [])) = t.stop - 2 ^ 32 := by
    rw [find_request, posToInt, toInt32_of_ge h h']
  have ha : posToInt (findChar space (t.request [])) = toInt32 t.verb.length := by
    rw [findChar_request, posToInt]
  have htext : t.text ≠ [] := by
    obtain ⟨path, hpath⟩ := List.head?_eq_some_iff.mp t.slash_path
    simp [text, hpath]
  have hpos := List.length_pos_iff.mpr htext
  by_cases hverb : t.verb.length < 2 ^ 31
  · rw [toInt32_of_lt hverb] at ha
    have hstart : ((t.verb.length : ℤ) + 1).toNat = t.verb.length + 1 := by omega
    have hcut : ∀ {url}, extractUrlWithQueryParams (t.request []) = .ok url →
        url = t.text ++ httpVersion := by
      intro url hok
      rw [eq_drop_of_lt ha hb (by omega) (by omega) (by omega) (by omega) hok, hstart,
        drop_request, List.append_nil]
    cases hok : extractUrlWithQueryParams (t.request []) with
    | error e =>
      rw [hok] at hparams
      cases hparams
    | ok url =>
      have hurl' := extractUrl_of_ok hok
      rw [hok, ok_bind] at hparams
      rw [hcut hok] at hurl' hparams
      cases hmark : t.mark with
      | false =>
        have hnone : findChar 63 (t.path ++ httpVersion) = none := by
          refine findChar_eq_none fun hmem => ?_
          rcases List.mem_append.mp hmem with hmem | hmem
          · exact t.mark_notMem_path hmem
          · exact absurd hmem (by decide)
        rw [hurl', text, hmark, if_neg (by simp), List.append_nil, hnone, Option.getD_none,
          List.take_length, Except.ok.injEq, List.append_right_eq_self] at hurl
        exact absurd hurl (by decide)
      | true =>
        obtain ⟨key, hkey⟩ := parseUrlParams_version hmark hparams
        exact hkey (hlookup key)
  · rw [toInt32_of_ge (by omega) (by omega)] at ha
    cases hok : extractUrlWithQueryParams (t.request []) with
    | error e =>
      rw [hok] at hparams
      cases hparams
    | ok url => exact not_extract_of_neg ha (by omega) (by omega) hok

/-- **The parts of a request are recovered**, whatever follows its version, when ` HTTP/1.1`
stands below `2 ^ 31`; from there to below `2 ^ 32` they are not. -/
theorem recovers_iff_of_lt (t : Target) :
    (t.stop < 2 ^ 31 → ∀ rest, t.Recovers rest) ∧
      (2 ^ 31 ≤ t.stop → t.stop < 2 ^ 32 → ¬ ∀ rest, t.Recovers rest) :=
  ⟨fun h rest => recovers_of_lt h rest, fun h h' hall => not_recovers h h' (hall [])⟩

/-- A path of `n + 1` bytes. -/
def longPath (n : ℕ) : Target where
  verb := lit "GET"
  path := 47 :: List.replicate n 97
  pairs := []
  mark := false
  space_notMem_verb := by decide
  slash_path := rfl
  space_notMem_path := by simp [List.mem_replicate, space]
  mark_notMem_path := by simp [List.mem_replicate]
  nul_notMem_path := by simp [List.mem_replicate]
  isPart := by simp
  space_notMem_pairs := by simp
  mark_of_pairs := by simp

theorem stop_longPath (n : ℕ) : (longPath n).stop = n + 5 := by
  have hverb : (longPath n).verb.length = 3 := rfl
  have htext : (longPath n).text.length = n + 1 := by
    simp [text, longPath, List.length_replicate]
  rw [stop, hverb, htext]
  omega

/-- A path of `2 ^ 31 + 1` bytes is found with the version behind it. -/
theorem not_recovers_longPath : ¬ (longPath (2 ^ 31)).Recovers [] := by
  have hstop := stop_longPath (2 ^ 31)
  exact not_recovers (by rw [hstop]; omega) (by rw [hstop]; omega)

end Target

end SimpleServer
