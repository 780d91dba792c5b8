import SimpleServer.Http.Request
import SimpleServer.Foundations.HashMap

/-!
# Where `parse_headers` stops reading headers

The loop of `parse_headers` stops at a line that is empty once its LF is gone. The blank line
that ends a header section is CRLF, which `std::getline` delivers as the one byte CR, so the loop
goes on into the body and stops only at a bare LF or at the end.

`headerLoop_eq` gives the loop by the lines that it scans: a line without a colon is skipped, a
line that ends at its first colon throws, and every other line sets a header. From it,
`parseHeaders_withBody_iff` says when two requests with one head and different bodies parse
alike, and that a body is inert for every head exactly when no scanned line of it has a colon.
-/

namespace SimpleServer

open Cxx

/-! ## What a line does -/

/-- The header set by a line: its name and its value. -/
def fieldOf (line : Bytes) : Option (Bytes × Bytes) :=
  (findChar colon line).map fun n => (line.take n, trimValue (line.drop (n + 2)))

/-- A line whose first colon is its last byte. -/
def Broken (line : Bytes) : Prop := ∃ name, colon ∉ name ∧ line = name ++ [colon]

instance : DecidablePred Broken := fun line =>
  decidable_of_iff (line.getLast? = some colon ∧ colon ∉ line.dropLast) <| by
    constructor
    · rintro ⟨h, hn⟩
      obtain ⟨name, rfl⟩ := List.getLast?_eq_some_iff.mp h
      exact ⟨name, by simpa using hn, rfl⟩
    · rintro ⟨name, hn, rfl⟩
      simpa using hn

/-- The lines of a text at which the loop looks. -/
def scanned (text : Bytes) : List Bytes := (lines text).takeWhile (· ≠ [])

/-- A line without a colon, a line that ends at its first colon, or a name, a colon, one more
byte and the rest. -/
theorem line_cases (line : Bytes) : colon ∉ line ∨ Broken line ∨
    ∃ name c rest, colon ∉ name ∧ line = name ++ colon :: c :: rest := by
  by_cases h : colon ∈ line
  · obtain ⟨name, rest, rfl, hname⟩ := List.eq_append_cons_of_mem h
    cases rest with
    | nil => exact Or.inr (Or.inl ⟨name, hname, rfl⟩)
    | cons c rest => exact Or.inr (Or.inr ⟨name, c, rest, hname, rfl⟩)
  · exact Or.inl h

theorem headerLine_skip {line : Bytes} (h : colon ∉ line) (m : StringMap) :
    headerLine m line = .ok m := by
  rw [headerLine, findChar_eq_none h]

theorem headerLine_broken {line : Bytes} (h : Broken line) (m : StringMap) :
    headerLine m line = .error .outOfRange := by
  obtain ⟨name, hname, rfl⟩ := h
  rw [headerLine, findChar_append_cons hname]
  simp [substr]

theorem headerLine_field {name rest : Bytes} {c : UInt8} (h : colon ∉ name) (m : StringMap) :
    headerLine m (name ++ colon :: c :: rest) = .ok (m.insert name (trimValue rest)) := by
  have hd : (name ++ colon :: c :: rest).drop (name.length + 2) = rest := by
    rw [← List.drop_drop, List.drop_left]
    rfl
  rw [headerLine, findChar_append_cons h]
  simp only [substr, substrFront, hd, Option.getD_some, Option.getD_none, List.take_left]
  rw [if_neg (by simp), List.take_of_length_le (by simp; omega)]

theorem fieldOf_field {name rest : Bytes} {c : UInt8} (h : colon ∉ name) :
    fieldOf (name ++ colon :: c :: rest) = some (name, trimValue rest) := by
  have hd : (name ++ colon :: c :: rest).drop (name.length + 2) = rest := by
    rw [← List.drop_drop, List.drop_left]
    rfl
  rw [fieldOf, findChar_append_cons h, Option.map_some, hd, List.take_left]

theorem fieldOf_skip {line : Bytes} (h : colon ∉ line) : fieldOf line = none := by
  rw [fieldOf, findChar_eq_none h, Option.map_none]

theorem not_broken_of_notMem {line : Bytes} (h : colon ∉ line) : ¬ Broken line := by
  rintro ⟨name, -, rfl⟩
  simp at h

theorem not_broken_field {name rest : Bytes} {c : UInt8} (h : colon ∉ name) :
    ¬ Broken (name ++ colon :: c :: rest) := by
  rintro ⟨name', h', e⟩
  have := congrArg (findChar colon) e
  rw [findChar_append_cons h, findChar_append_cons h', Option.some.injEq] at this
  have := congrArg List.length e
  simp only [List.length_append, List.length_cons, List.length_nil] at this
  omega

/-- A line that CRLF ended is never broken. -/
theorem not_broken_cr (l : Bytes) : ¬ Broken (l ++ [cr]) := by
  rintro ⟨name, -, e⟩
  have := congrArg List.getLast? e
  simp [cr, colon] at this

/-! ## What the loop does -/

/-- **The loop of `parse_headers`**: it throws at a broken line among those it scans, and else
sets the fields of the scanned lines. -/
theorem headerLoop_eq (m : StringMap) (ls : List Bytes) :
    headerLoop m ls =
      if ∃ line ∈ ls.takeWhile (· ≠ []), Broken line then .error .outOfRange
      else .ok (insertAll m ((ls.takeWhile (· ≠ [])).filterMap fieldOf)) := by
  induction ls generalizing m with
  | nil => simp [headerLoop, insertAll]
  | cons line ls ih =>
    rw [headerLoop]
    by_cases h0 : line = []
    · simp [h0, insertAll]
    · rw [if_neg h0, List.takeWhile_cons_of_pos (by simpa using h0)]
      rcases line_cases line with h | h | ⟨name, c, rest, h, rfl⟩
      · simp only [headerLine_skip h, ih, List.mem_cons, exists_eq_or_imp,
          not_broken_of_notMem h, false_or, List.filterMap_cons, fieldOf_skip h]
      · simp only [headerLine_broken h, List.mem_cons, exists_eq_or_imp, h, true_or, if_true]
      · simp only [headerLine_field h, ih, List.mem_cons, exists_eq_or_imp,
          not_broken_field h, false_or, List.filterMap_cons, fieldOf_field h, insertAll,
          List.foldl_cons]

/-! ## When the loop throws -/

/-- The lines of a request at which the loop looks: those behind the request line, up to the
first empty one. -/
def headerLines (request : Bytes) : List Bytes := (lines request).tail.takeWhile (· ≠ [])

/-- `parse_headers` returns, and every position at which it cuts a value out of a line is at most
the length of the line. -/
def Returns (request : Bytes) : Prop :=
  (∃ headers, parseHeaders request = .ok headers) ∧
    ∀ line ∈ headerLines request, ∀ colonPos, findChar colon line = some colonPos →
      colonPos + 2 ≤ line.length

/-- A line is broken exactly when the position behind its first colon and one more byte is
outside of it. -/
theorem broken_iff (line : Bytes) :
    Broken line ↔ ∃ colonPos, findChar colon line = some colonPos ∧ line.length < colonPos + 2 := by
  constructor
  · rintro ⟨name, hname, rfl⟩
    exact ⟨name.length, findChar_append_cons hname [], by simp⟩
  · rintro ⟨colonPos, hfind, hlen⟩
    rcases line_cases line with h | h | ⟨name, c, rest, h, rfl⟩
    · rw [findChar_eq_none h] at hfind
      cases hfind
    · exact h
    · rw [findChar_append_cons h] at hfind
      cases hfind
      simp only [List.length_append, List.length_cons] at hlen
      omega

/-- **When `parse_headers` returns.** It throws exactly when a line at which it looks ends at its
first colon. -/
theorem parseHeaders_returns_iff (request : Bytes) :
    Returns request ↔ ∀ line ∈ headerLines request, ¬ Broken line := by
  have hparse : parseHeaders request =
      if ∃ line ∈ headerLines request, Broken line then .error .outOfRange
      else .ok (insertAll ∅ ((headerLines request).filterMap fieldOf)) := headerLoop_eq ∅ _
  constructor
  · rintro ⟨⟨headers, hok⟩, -⟩ line hline hbroken
    rw [hparse, if_pos ⟨line, hline, hbroken⟩] at hok
    cases hok
  · intro h
    have hnot : ¬ ∃ line ∈ headerLines request, Broken line := by
      rintro ⟨line, hline, hbroken⟩
      exact h line hline hbroken
    refine ⟨⟨_, hparse.trans (if_neg hnot)⟩, fun line hline colonPos hfind => ?_⟩
    by_contra hlen
    exact h line hline ((broken_iff line).mpr ⟨colonPos, hfind, not_le.mp hlen⟩)

/-- A request that is cut off behind the colon of a header. -/
theorem parseHeaders_cut :
    parseHeaders (lit "GET / HTTP/1.1\r\nHost:") = .error .outOfRange ∧
      ¬ Returns (lit "GET / HTTP/1.1\r\nHost:") := by
  have hcut : parseHeaders (lit "GET / HTTP/1.1\r\nHost:") = .error .outOfRange := by decide
  refine ⟨hcut, ?_⟩
  rintro ⟨⟨headers, hok⟩, -⟩
  rw [hcut] at hok
  cases hok

/-! ## Heads and bodies -/

/-- The head of a request: a request line and header lines that are not empty. -/
structure RequestHead where
  requestLine : Bytes
  headerLines : List Bytes
  lf_notMem_requestLine : lf ∉ requestLine
  headerLine_ne_nil : ∀ line ∈ headerLines, line ≠ []
  lf_notMem_headerLine : ∀ line ∈ headerLines, lf ∉ line

namespace RequestHead

/-- The bytes of a head: its lines, each ended by CRLF. -/
def bytes (head : RequestHead) : Bytes :=
  (head.requestLine :: head.headerLines).flatMap (· ++ crlf)

/-- The request with a head and a body. -/
def withBody (head : RequestHead) (body : Bytes) : Bytes := head.bytes ++ crlf ++ body

/-- The headers that the lines of a head set. -/
def fields (head : RequestHead) : List (Bytes × Bytes) :=
  (head.headerLines.map (· ++ [cr])).filterMap fieldOf

/-- The request line alone, `GET / HTTP/1.1`. -/
def bare : RequestHead where
  requestLine := lit "GET / HTTP/1.1"
  headerLines := []
  lf_notMem_requestLine := by decide
  headerLine_ne_nil := by simp
  lf_notMem_headerLine := by simp

theorem lines_withBody (head : RequestHead) (body : Bytes) :
    (lines (head.withBody body)).tail =
      head.headerLines.map (· ++ [cr]) ++ [cr] :: lines body := by
  have hlf : ∀ line ∈ head.requestLine :: head.headerLines, lf ∉ line := by
    intro line hline
    rcases List.mem_cons.mp hline with rfl | hline
    · exact head.lf_notMem_requestLine
    · exact head.lf_notMem_headerLine line hline
  have hblank := lines_crlf (l := []) (by simp) body
  rw [List.nil_append] at hblank
  rw [withBody, bytes, List.append_assoc, lines_flatMap_crlf hlf, hblank]
  rfl

/-- No line of the head stops the loop, nor does the blank line: the scan reaches the body. -/
theorem takeWhile_lines_withBody (head : RequestHead) (body : Bytes) :
    (lines (head.withBody body)).tail.takeWhile (· ≠ []) =
      head.headerLines.map (· ++ [cr]) ++ [cr] :: scanned body := by
  rw [lines_withBody, List.takeWhile_append_of_pos, List.takeWhile_cons_of_pos (by simp), scanned]
  intro line hline
  obtain ⟨l, -, rfl⟩ := List.mem_map.mp hline
  simp

end RequestHead

/-- A body with a scanned line that is broken. -/
def Throws (body : Bytes) : Prop := ∃ line ∈ scanned body, Broken line

instance : DecidablePred Throws := fun body =>
  inferInstanceAs (Decidable (∃ line ∈ scanned body, Broken line))

/-- The headers that the scanned lines of a body set. -/
def bodyFields (body : Bytes) : List (Bytes × Bytes) := (scanned body).filterMap fieldOf

/-- A body without a colon in a scanned line does not throw. -/
theorem not_throws_of_inert {body : Bytes} (h : ∀ line ∈ scanned body, colon ∉ line) :
    ¬ Throws body := by
  rintro ⟨line, hline, hbroken⟩
  exact not_broken_of_notMem (h line hline) hbroken

theorem bodyFields_of_inert {body : Bytes} (h : ∀ line ∈ scanned body, colon ∉ line) :
    bodyFields body = [] := by
  rw [bodyFields, List.filterMap_eq_nil_iff]
  exact fun line hline => fieldOf_skip (h line hline)

/-- What `parse_headers` makes of a head and a body. -/
theorem parseHeaders_withBody (head : RequestHead) (body : Bytes) :
    parseHeaders (head.withBody body) =
      if Throws body then .error .outOfRange
      else .ok (insertAll (insertAll ∅ head.fields) (bodyFields body)) := by
  have hthrows : (∃ line ∈ head.headerLines.map (· ++ [cr]) ++ [cr] :: scanned body,
      Broken line) ↔ Throws body := by
    constructor
    · rintro ⟨line, hline, hbroken⟩
      rcases List.mem_append.mp hline with hline | hline
      · obtain ⟨l, -, rfl⟩ := List.mem_map.mp hline
        exact absurd hbroken (not_broken_cr l)
      · rcases List.mem_cons.mp hline with rfl | hline
        · exact absurd hbroken (not_broken_cr [])
        · exact ⟨line, hline, hbroken⟩
    · rintro ⟨line, hline, hbroken⟩
      exact ⟨line, by simp [hline], hbroken⟩
  have hfields : (head.headerLines.map (· ++ [cr]) ++ [cr] :: scanned body).filterMap fieldOf =
      head.fields ++ bodyFields body := by
    rw [List.filterMap_append, List.filterMap_cons, fieldOf_skip (by decide)]
    rfl
  rw [parseHeaders, headerLoop_eq, head.takeWhile_lines_withBody]
  simp only [hthrows, hfields, insertAll, List.foldl_append]

/-- Do two calls of `parse_headers` give the same result: equal exceptions, or maps with the
same values. -/
def SameResult : Except Exn StringMap → Except Exn StringMap → Prop
  | .ok m₁, .ok m₂ => ∀ name, m₁.lookup name = m₂.lookup name
  | .error e₁, .error e₂ => e₁ = e₂
  | _, _ => False

/-- A body leaves the headers of every head as an empty body does exactly when no line of it
that is scanned has a colon. -/
theorem sameResult_empty_iff (body : Bytes) :
    (∀ head : RequestHead, SameResult (parseHeaders (head.withBody body))
      (parseHeaders (head.withBody []))) ↔ ∀ line ∈ scanned body, colon ∉ line := by
  have hnil : ¬ Throws [] := by decide
  simp only [parseHeaders_withBody, if_neg hnil]
  constructor
  · intro h line hline
    have hbare := h RequestHead.bare
    split_ifs at hbare with hthrows
    · exact hbare.elim
    rcases line_cases line with hc | hc | ⟨name, c, rest, hname, rfl⟩
    · exact hc
    · exact absurd ⟨line, hline, hc⟩ hthrows
    · -- the line sets a header that the bare head does not have
      have hmem : (name, trimValue rest) ∈ bodyFields body :=
        List.mem_filterMap.mpr ⟨_, hline, fieldOf_field hname⟩
      have hlookup := hbare name
      rw [lookup_insertAll] at hlookup
      have hnone : lastOf (bodyFields body) name = none := by
        simpa [insertAll, bodyFields, scanned, lines, RequestHead.fields, RequestHead.bare]
          using hlookup
      rw [lastOf, List.lookup_eq_none_iff] at hnone
      exact absurd (hnone _ (List.mem_reverse.mpr hmem)) (by simp)
  · intro h head
    rw [if_neg (not_throws_of_inert h), bodyFields_of_inert h]
    exact fun name => rfl

/-- **What a body can do to the headers.** Two requests with one head parse alike exactly when
both bodies have a broken line, or neither has and every name has the same last value in both,
a value set by the body winning over one set by the head. A body does nothing, under any head,
exactly when no line of it that is scanned has a colon. -/
theorem parseHeaders_withBody_iff (head : RequestHead) (b₁ b₂ : Bytes) :
    (SameResult (parseHeaders (head.withBody b₁)) (parseHeaders (head.withBody b₂)) ↔
      (Throws b₁ ∧ Throws b₂) ∨ (¬ Throws b₁ ∧ ¬ Throws b₂ ∧ ∀ name,
        (lastOf (bodyFields b₁) name).or (lastOf head.fields name) =
          (lastOf (bodyFields b₂) name).or (lastOf head.fields name))) ∧
    ((∀ head : RequestHead, SameResult (parseHeaders (head.withBody b₁))
      (parseHeaders (head.withBody []))) ↔ ∀ line ∈ scanned b₁, colon ∉ line) := by
  refine ⟨?_, sameResult_empty_iff b₁⟩
  rw [parseHeaders_withBody, parseHeaders_withBody]
  by_cases h₁ : Throws b₁ <;> by_cases h₂ : Throws b₂ <;>
    simp [h₁, h₂, SameResult, lookup_insertAll]

/-- A body of one line adds the header that makes a plain request a WebSocket upgrade. -/
theorem parseHeaders_smuggles :
    ¬ SameResult (parseHeaders (RequestHead.bare.withBody []))
      (parseHeaders (RequestHead.bare.withBody (lit "Upgrade: websocket"))) := by
  intro h
  rw [parseHeaders_withBody, parseHeaders_withBody, if_neg (by decide), if_neg (by decide)] at h
  exact absurd (h (lit "Upgrade")) (by decide)

end SimpleServer
