import SimpleServer.Http.HeaderRoundTrip

/-!
# Header values with blanks around them

A header line has a name, a colon, blanks, a value and blanks again, and a parser should find the
value. `parse_headers` drops one byte behind the colon, whatever it is, and it takes the blanks
off the end while the CR of the line still stands behind them. `fieldOf_line` is the value that it
finds, and `parseHeaders_value_iff` says that this is the right one only when the value is empty,
or has a blank in front and none behind.
-/

namespace SimpleServer

open Cxx Http

/-- The bytes that may stand around a value. -/
def Blank (c : UInt8) : Prop := c = space ∨ c = tab

/-- A header as the grammar has it. -/
structure HeaderField where
  name : Bytes
  before : Bytes
  value : Bytes
  behind : Bytes
  colon_notMem : colon ∉ name
  oneLine_name : OneLine name
  blank_before : ∀ c ∈ before, Blank c
  blank_behind : ∀ c ∈ behind, Blank c
  oneLine_value : OneLine value
  head_value : ∀ c ∈ value.head?, ¬ Blank c
  last_value : ∀ c ∈ value.getLast?, ¬ Blank c

/-- The bytes behind the colon. -/
def HeaderField.content (field : HeaderField) : Bytes := field.before ++ field.value ++ field.behind

/-- The line of a header, without its CRLF. -/
def HeaderField.line (field : HeaderField) : Bytes := field.name ++ colon :: field.content

/-! ## The value that is found -/

theorem contains_blank_iff {c : UInt8} : (lit " \t").contains c = true ↔ Blank c := by
  rw [List.contains_iff_mem, show lit " \t" = [space, tab] by decide, List.mem_pair]
  rfl

theorem oneLine_of_blank {s : Bytes} (h : ∀ c ∈ s, Blank c) : OneLine s := by
  constructor
  · intro hcr
    rcases h cr hcr with h | h <;> cases h
  · intro hlf
    rcases h lf hlf with h | h <;> cases h

theorem dropWhile_blank {s : Bytes} (h : ∀ c ∈ s, Blank c) (t : Bytes) :
    (s ++ t).dropWhile (lit " \t").contains = t.dropWhile (lit " \t").contains :=
  List.dropWhile_append_of_pos fun c hc => contains_blank_iff.mpr (h c hc)

theorem dropWhile_value {s : Bytes} (h : ∀ c ∈ s.head?, ¬ Blank c) :
    s.dropWhile (lit " \t").contains = s := by
  cases s with
  | nil => rfl
  | cons c s =>
    apply List.dropWhile_cons_of_neg
    rw [contains_blank_iff]
    exact h c rfl

theorem trimValue_append {s : Bytes} (h : ∀ c ∈ s, Blank c) (t : Bytes) :
    trimValue (s ++ t) = trimValue t := by
  rw [trimValue_eq, trimValue_eq, dropWhile_blank h]

/-- What the calls of `erase` leave of the rest of a line with its CR. -/
theorem trimValue_concat {s : Bytes} (h : OneLine s) :
    trimValue (s ++ [cr]) = s.dropWhile (lit " \t").contains := by
  have hsplit := List.takeWhile_append_dropWhile (p := (lit " \t").contains) (l := s)
  have hblank : ∀ c ∈ s.takeWhile (lit " \t").contains, Blank c := fun c hc =>
    contains_blank_iff.mp (List.mem_takeWhile_imp hc)
  have hsub := (List.dropWhile_sublist (l := s) (lit " \t").contains).subset
  have hhead : ∀ c ∈ (s.dropWhile (lit " \t").contains).head?, c ≠ space ∧ c ≠ tab := by
    intro c hc
    have hnot := List.head?_dropWhile_not (lit " \t").contains s
    rw [Option.mem_def.mp hc] at hnot
    rw [← not_or]
    exact fun h => Bool.false_ne_true (hnot.symm.trans (contains_blank_iff.mpr h))
  have hskip := trimValue_append hblank (s.dropWhile (lit " \t").contains ++ [cr])
  rw [← List.append_assoc, hsplit] at hskip
  rw [hskip]
  exact trimValue_concat_cr ⟨fun hcr => h.1 (hsub hcr), fun hlf => h.2 (hsub hlf)⟩ hhead

/-- The value found: one byte is dropped behind the colon, then blanks, and none at the end. -/
def HeaderField.found (field : HeaderField) : Bytes :=
  field.content.tail.dropWhile (lit " \t").contains

namespace HeaderField

variable (field : HeaderField)

theorem oneLine_content : OneLine field.content :=
  ((oneLine_of_blank field.blank_before).append field.oneLine_value).append
    (oneLine_of_blank field.blank_behind)

theorem fieldOf_line : fieldOf (field.line ++ [cr]) = some (field.name, field.found) := by
  have hline := field.oneLine_content
  rw [line, found, List.append_assoc, List.cons_append]
  generalize field.content = content at hline ⊢
  cases content with
  | nil =>
    rw [List.nil_append, fieldOf_field field.colon_notMem]
    rfl
  | cons c rest =>
    have hrest : OneLine rest :=
      ⟨fun h => hline.1 (List.mem_cons_of_mem c h), fun h => hline.2 (List.mem_cons_of_mem c h)⟩
    rw [List.cons_append, fieldOf_field field.colon_notMem, trimValue_concat hrest]
    rfl

/-- Behind a blank all of the value is found, and the blanks at its end with it. -/
theorem found_of_before {c : UInt8} {blanks : Bytes} (hbefore : field.before = c :: blanks)
    (hvalue : field.value ≠ []) : field.found = field.value ++ field.behind := by
  have hblanks : ∀ b ∈ blanks, Blank b := fun b hb =>
    field.blank_before b (hbefore ▸ List.mem_cons_of_mem c hb)
  rw [found, content, hbefore, List.append_assoc, List.cons_append, List.tail_cons,
    dropWhile_blank hblanks]
  apply dropWhile_value
  rw [List.head?_append_of_ne_nil _ hvalue]
  exact field.head_value

/-- Without a blank in front the first byte of the value is lost. -/
theorem found_ne_of_before_nil (hbefore : field.before = []) (hvalue : field.value ≠ []) :
    field.found ≠ field.value := by
  intro heq
  obtain ⟨c, rest, hcons⟩ := List.exists_cons_of_ne_nil hvalue
  have hfound : field.found = (rest ++ field.behind).dropWhile (lit " \t").contains := by
    rw [found, content, hbefore, hcons]
    rfl
  obtain ⟨dropped, hsuffix⟩ : field.value <:+ rest ++ field.behind := by
    rw [← heq, hfound]
    exact List.dropWhile_suffix _
  rcases List.eq_nil_or_concat field.behind with hnil | ⟨blanks, b, hconcat⟩
  · have hlen := congrArg List.length hsuffix
    rw [hnil, hcons] at hlen
    simp only [List.length_append, List.length_cons, List.length_nil] at hlen
    omega
  · -- the value would end with the last blank
    have hlast := congrArg List.getLast? hsuffix
    rw [List.getLast?_append_of_ne_nil _ hvalue, hconcat, List.concat_eq_append,
      ← List.append_assoc, List.getLast?_concat] at hlast
    apply field.last_value b hlast
    apply field.blank_behind b
    rw [hconcat]
    simp

theorem found_eq_iff :
    field.found = field.value ↔ field.value = [] ∨ (field.before ≠ [] ∧ field.behind = []) := by
  by_cases hvalue : field.value = []
  · refine iff_of_true ?_ (Or.inl hvalue)
    rw [hvalue, found, List.dropWhile_eq_nil_iff]
    intro c hc
    rw [contains_blank_iff]
    have hmem := List.mem_of_mem_tail hc
    rw [content, hvalue, List.append_nil] at hmem
    rcases List.mem_append.mp hmem with h | h
    · exact field.blank_before c h
    · exact field.blank_behind c h
  · rw [or_iff_right hvalue]
    cases hbefore : field.before with
    | nil => exact iff_of_false (field.found_ne_of_before_nil hbefore hvalue) fun h => h.1 rfl
    | cons c blanks =>
      rw [field.found_of_before hbefore hvalue, List.append_right_eq_self]
      simp

end HeaderField

/-! ## All lines of a request -/

/-- A value that is not overwritten. -/
theorem lastOf_append_cons {earlier later : List (Bytes × Bytes)} {name : Bytes}
    (h : ∀ f ∈ later, f.1 ≠ name) (value : Bytes) :
    lastOf (earlier ++ (name, value) :: later) name = some value := by
  have hlater : later.reverse.lookup name = none := by
    rw [List.lookup_eq_none_iff]
    intro f hf
    rw [bne_iff_ne]
    exact (h f (List.mem_reverse.mp hf)).symm
  rw [lastOf, List.reverse_append, List.reverse_cons, List.append_assoc, List.lookup_append,
    hlater]
  simp

/-- The header is found with the value that `fieldOf_line` gives. -/
theorem parseHeaders_found (head : RequestHead) (field : HeaderField)
    (earlier later : List Bytes) (hlines : head.headerLines = earlier ++ field.line :: later)
    (hlater : ∀ line ∈ later, ∀ f, fieldOf (line ++ [cr]) = some f → f.1 ≠ field.name)
    (body : Bytes) (hbody : ∀ line ∈ scanned body, colon ∉ line) :
    ∃ headers, parseHeaders (head.withBody body) = .ok headers ∧
      headers.lookup field.name = some field.found := by
  have hfields : head.fields = (earlier.map (· ++ [cr])).filterMap fieldOf ++
      (field.name, field.found) :: (later.map (· ++ [cr])).filterMap fieldOf := by
    rw [RequestHead.fields, hlines, List.map_append, List.map_cons, List.filterMap_append,
      List.filterMap_cons, field.fieldOf_line]
  have hkept : ∀ f ∈ (later.map (· ++ [cr])).filterMap fieldOf, f.1 ≠ field.name := by
    intro f hf
    obtain ⟨line, hline, hfield⟩ := List.mem_filterMap.mp hf
    obtain ⟨l, hl, rfl⟩ := List.mem_map.mp hline
    exact hlater l hl f hfield
  refine ⟨_, (parseHeaders_withBody head body).trans (if_neg (not_throws_of_inert hbody)), ?_⟩
  rw [bodyFields_of_inert hbody, hfields]
  show (insertAll ∅ _).lookup field.name = _
  rw [lookup_insertAll, lastOf_append_cons hkept]
  rfl

/-- **When a header value is read as the grammar has it.** For every header, in every request
whose later lines do not set the same name again: the name is mapped to exactly the value if and
only if the value is empty, or a blank stands in front of it and none behind. -/
theorem parseHeaders_value_iff (head : RequestHead) (field : HeaderField)
    (earlier later : List Bytes) (hlines : head.headerLines = earlier ++ field.line :: later)
    (hlater : ∀ line ∈ later, ∀ f, fieldOf (line ++ [cr]) = some f → f.1 ≠ field.name)
    (body : Bytes) (hbody : ∀ line ∈ scanned body, colon ∉ line) :
    (∃ headers, parseHeaders (head.withBody body) = .ok headers ∧
        headers.lookup field.name = some field.value) ↔
      field.value = [] ∨ (field.before ≠ [] ∧ field.behind = []) := by
  obtain ⟨found, hparse, hlookup⟩ := parseHeaders_found head field earlier later hlines
    hlater body hbody
  rw [← field.found_eq_iff]
  constructor
  · rintro ⟨headers, hparse', hvalue⟩
    rw [hparse] at hparse'
    cases hparse'
    rw [hlookup] at hvalue
    exact Option.some.inj hvalue
  · intro heq
    exact ⟨found, hparse, heq ▸ hlookup⟩

/-- The head with one header. -/
def RequestHead.single (field : HeaderField) : RequestHead where
  requestLine := bare.requestLine
  headerLines := [field.line]
  lf_notMem_requestLine := bare.lf_notMem_requestLine
  headerLine_ne_nil := by
    intro line hline
    rw [List.mem_singleton.mp hline, HeaderField.line]
    simp
  lf_notMem_headerLine := by
    intro line hline
    rw [List.mem_singleton.mp hline, HeaderField.line, List.mem_append, List.mem_cons, not_or,
      not_or]
    exact ⟨field.oneLine_name.2, by decide, field.oneLine_content.2⟩

/-- `Accept:a`, with the given blanks. -/
def acceptField (before behind : Bytes) (h : ∀ c ∈ before ++ behind, Blank c) : HeaderField where
  name := lit "Accept"
  before := before
  value := lit "a"
  behind := behind
  colon_notMem := by decide
  oneLine_name := by decide
  blank_before := fun c hc => h c (List.mem_append_left _ hc)
  blank_behind := fun c hc => h c (List.mem_append_right _ hc)
  oneLine_value := by decide
  head_value := by
    intro c hc
    cases hc
    rintro (h | h) <;> cases h
  last_value := by
    intro c hc
    cases hc
    rintro (h | h) <;> cases h

/-- Two blanks in front of the value. -/
theorem parseHeaders_accept :
    ∃ headers, parseHeaders ((RequestHead.single
        (acceptField [space, tab] [] (by simp [Blank]))).withBody []) = .ok headers ∧
      headers.lookup (lit "Accept") = some (lit "a") := by
  apply (parseHeaders_value_iff (RequestHead.single _) (acceptField [space, tab] [] _) [] [] rfl
    _ [] _).mpr
  · exact Or.inr ⟨List.cons_ne_nil _ _, rfl⟩
  · intro line hline
    cases hline
  · intro line hline
    cases hline

/-- Without a blank behind the colon the value is lost. -/
theorem not_parseHeaders_value :
    ¬ ∀ field : HeaderField, ∃ headers,
      parseHeaders ((RequestHead.single field).withBody []) = .ok headers ∧
        headers.lookup field.name = some field.value := by
  intro h
  let field := acceptField [] [] (by simp)
  obtain ⟨headers, hparse, hvalue⟩ := h field
  obtain ⟨found, hparse', hlookup⟩ := parseHeaders_found (RequestHead.single field) field [] []
    rfl (by simp) [] (by simp [scanned, lines])
  rw [hparse] at hparse'
  cases hparse'
  rw [hvalue] at hlookup
  exact absurd hlookup (by decide)

end SimpleServer
