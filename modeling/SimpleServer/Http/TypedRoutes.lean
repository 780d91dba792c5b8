import SimpleServer.Http.RouteSelection
import SimpleServer.Http.Words

/-!
# Routes with typed placeholders

The segments of a pattern are literals and placeholders `<name:type>`, and a URL should fit a
pattern when each of its segments is the literal or a value of the type (`Fits`).
`validate_pattern_by_url` compares the type named by the placeholder with the type of the value,
and finds both by searches for a substring, so that it accepts as a boolean every text that holds
`true` or `false`, and as a string only a text that holds neither. `validatePatternByUrl_iff` says
when it is right all the same, and `matchPattern_unique` that routes which differ in their types
alone do not compete for a URL.
-/

namespace SimpleServer

open Cxx

/-! ## Patterns -/

/-- The types that a placeholder can name. -/
inductive PlaceholderType
  | int
  | str
  | boolean
  deriving DecidableEq

namespace PlaceholderType

/-- The name of the type. -/
def keyword : PlaceholderType → Bytes
  | int => lit "int"
  | str => lit "str"
  | boolean => lit "boolean"

def dataType : PlaceholderType → UrlDataType
  | int => .integer
  | str => .str
  | boolean => .boolean

end PlaceholderType

/-- A segment of a pattern: a literal that does not start with `<`, or a placeholder. -/
inductive PatternSegment
  | literal (value : Bytes) (h : value.head? ≠ some 60)
  | placeholder (name : Bytes) (type : PlaceholderType) (hcolon : colon ∉ name) (hclose : 62 ∉ name)

namespace PatternSegment

/-- The text of a placeholder. -/
def placeholderText (name : Bytes) (type : PlaceholderType) : Bytes :=
  60 :: name ++ colon :: (type.keyword ++ [62])

/-- The segment as it stands in a route. -/
def text : PatternSegment → Bytes
  | literal value _ => value
  | placeholder name type _ _ => placeholderText name type

theorem text_literal (value : Bytes) (h) : (literal value h).text = value := rfl

theorem text_placeholder (name : Bytes) (type : PlaceholderType) (hcolon hclose) :
    (placeholder name type hcolon hclose).text = placeholderText name type := rfl

/-- The segment of a URL is what the segment of the pattern asks for. -/
def Fits : PatternSegment → Bytes → Prop
  | literal text _, value => value = text
  | placeholder _ .int _ _, value => ∀ c ∈ value, isDigit c = true
  | placeholder _ .boolean _ _, value => value = lit "true" ∨ value = lit "false"
  | placeholder _ .str _ _, value =>
    ¬ (∀ c ∈ value, isDigit c = true) ∧ value ≠ lit "true" ∧ value ≠ lit "false"

end PatternSegment

/-! ## The type of a placeholder -/

/-- The position of the colon is `-1` as an `int`. -/
def Wrapped (name : Bytes) : Prop := toInt32 (name.length + 1) = -1

instance : DecidablePred Wrapped := fun name =>
  inferInstanceAs (Decidable (toInt32 (name.length + 1) = -1))

/-- Only the search for the right type finds something, right behind the name. -/
theorem posToInt_find_placeholderText {name : Bytes} (h : colon ∉ name)
    (type other : PlaceholderType) :
    posToInt (find (colon :: (other.keyword ++ [62]))
        (PatternSegment.placeholderText name type)) =
      if other = type then toInt32 (name.length + 1) else -1 := by
  have hnot : colon ∉ 60 :: name := by
    rw [List.mem_cons, not_or]
    exact ⟨by decide, h⟩
  have hfind : find (colon :: (other.keyword ++ [62])) (colon :: (type.keyword ++ [62])) =
      if other = type then some 0 else none := by
    cases other <;> cases type <;> decide
  rw [PatternSegment.placeholderText, find_append_of_notMem hnot, hfind]
  split_ifs
  · rw [Option.map_some, Nat.zero_add]
    rfl
  · rfl

/-- A placeholder has the type it names, unless its name is so long that its colon is not found. -/
theorem getNodeDataTypeByPattern_placeholder {name : Bytes} (h : colon ∉ name)
    (type : PlaceholderType) :
    getNodeDataTypeByPattern (PatternSegment.placeholderText name type) =
      if Wrapped name then .invalidUrlDatatype else type.dataType := by
  have hint : lit ":int>" = colon :: (PlaceholderType.int.keyword ++ [62]) := by decide
  have hstr : lit ":str>" = colon :: (PlaceholderType.str.keyword ++ [62]) := by decide
  have hboolean : lit ":boolean>" = colon :: (PlaceholderType.boolean.keyword ++ [62]) := by decide
  rw [getNodeDataTypeByPattern, hint, hstr, hboolean]
  simp only [posToInt_find_placeholderText h]
  by_cases hwrap : Wrapped name
  · have hpos : toInt32 (name.length + 1) = -1 := hwrap
    simp [hpos, hwrap]
  · have hpos : toInt32 (name.length + 1) ≠ -1 := hwrap
    cases type <;> simp [hpos, hwrap, PlaceholderType.dataType]

/-! ## What is accepted -/

/-- What `validate_pattern_by_url` asks of a segment of the URL. -/
def Accepts (pValue value : Bytes) : Prop :=
  value = pValue ∨
    (pValue.head? = some 60 ∧ getNodeDataTypeByPattern pValue = getDataTypeByValue value)

/-- A list is accepted segment by segment, by a pattern that is not shorter. -/
theorem validatePatternByUrl_true_iff {uri pattern : List Bytes} :
    validatePatternByUrl uri pattern = .ok true ↔
      uri.length ≤ pattern.length ∧ ∀ cell ∈ pattern.zip uri, Accepts cell.1 cell.2 := by
  induction uri generalizing pattern with
  | nil => simp [validatePatternByUrl]
  | cons value uri ih =>
    cases pattern with
    | nil => simp [validatePatternByUrl]
    | cons pValue pattern =>
      rw [validatePatternByUrl, List.zip_cons_cons, List.forall_mem_cons, List.length_cons,
        List.length_cons, Nat.add_le_add_iff_right, and_left_comm, ← ih, Accepts]
      split_ifs with hne hhead htype
      · simp [hne, hhead]
      · simp [hne, htype]
      · simp only [not_not] at hhead htype
        simp [hhead, htype]
      · simp [not_not.mp hne]

/-- The text holds the name of a truth value. -/
def HoldsKeyword (value : Bytes) : Prop := lit "true" <:+: value ∨ lit "false" <:+: value

theorem isInteger_iff {value : Bytes} : isInteger value = true ↔ ∀ c ∈ value, isDigit c = true :=
  List.all_eq_true

theorem isBoolean_iff {value : Bytes} : isBoolean value = true ↔ HoldsKeyword value := by
  rw [isBoolean, Bool.or_eq_true, contains_iff, contains_iff]
  rfl

theorem HoldsKeyword.not_digits {value : Bytes} (h : HoldsKeyword value) :
    ¬ ∀ c ∈ value, isDigit c = true := by
  intro hdigits
  rcases h with h | h
  · exact absurd (hdigits 116 (h.subset (by decide))) (by decide)
  · exact absurd (hdigits 102 (h.subset (by decide))) (by decide)

theorem holdsKeyword_of_eq {value : Bytes} (h : value = lit "true" ∨ value = lit "false") :
    HoldsKeyword value := by
  rcases h with rfl | rfl
  · exact Or.inl (List.infix_refl _)
  · exact Or.inr (List.infix_refl _)

/-- The type found for a value. -/
theorem dataType_eq_iff (type : PlaceholderType) (value : Bytes) :
    type.dataType = getDataTypeByValue value ↔
      match type with
      | .int => ∀ c ∈ value, isDigit c = true
      | .boolean => HoldsKeyword value
      | .str => ¬ (∀ c ∈ value, isDigit c = true) ∧ ¬ HoldsKeyword value := by
  rw [getDataTypeByValue]
  by_cases hint : isInteger value = true
  · have hdigits := isInteger_iff.mp hint
    have hnot : ¬ HoldsKeyword value := fun h => h.not_digits hdigits
    rw [if_pos hint]
    cases type
    · exact iff_of_true rfl hdigits
    · exact iff_of_false (by decide) fun h => h.1 hdigits
    · exact iff_of_false (by decide) hnot
  · have hdigits : ¬ ∀ c ∈ value, isDigit c = true := fun h => hint (isInteger_iff.mpr h)
    rw [if_neg hint]
    by_cases hbool : isBoolean value = true
    · have hholds := isBoolean_iff.mp hbool
      rw [if_pos hbool]
      cases type
      · exact iff_of_false (by decide) hdigits
      · exact iff_of_false (by decide) fun h => h.2 hholds
      · exact iff_of_true rfl hholds
    · have hholds : ¬ HoldsKeyword value := fun h => hbool (isBoolean_iff.mpr h)
      rw [if_neg hbool]
      cases type
      · exact iff_of_false (by decide) hdigits
      · exact iff_of_true rfl ⟨hdigits, hholds⟩
      · exact iff_of_false (by decide) hholds

theorem accepts_literal {text : Bytes} (h : text.head? ≠ some 60) (value : Bytes) :
    Accepts text value ↔ value = text := by
  rw [Accepts, or_iff_left fun hhead => h hhead.1]

theorem accepts_placeholder {name : Bytes} (h : colon ∉ name) (type : PlaceholderType)
    (value : Bytes) :
    Accepts (PatternSegment.placeholderText name type) value ↔
      value = PatternSegment.placeholderText name type ∨
        (¬ Wrapped name ∧ type.dataType = getDataTypeByValue value) := by
  have hhead : (PatternSegment.placeholderText name type).head? = some 60 := rfl
  rw [Accepts, hhead, getNodeDataTypeByPattern_placeholder h]
  by_cases hwrap : Wrapped name
  · have hne : UrlDataType.invalidUrlDatatype ≠ getDataTypeByValue value := by
      rw [getDataTypeByValue]
      split_ifs <;> decide
    simp [hwrap, hne]
  · simp [hwrap]

namespace PatternSegment

/-- A segment that is accepted and does not fit: a placeholder that faces its own text, or a
boolean one that faces a longer text with the name of a truth value in it. -/
def Loose : PatternSegment → Bytes → Prop
  | literal _ _, _ => False
  | placeholder name .int _ _, value => value = placeholderText name .int
  | placeholder name .boolean _ _, value =>
    value = placeholderText name .boolean ∨
      (¬ Wrapped name ∧ HoldsKeyword value ∧ value ≠ lit "true" ∧ value ≠ lit "false")
  | placeholder _ .str _ _, _ => False

/-- A segment that fits and is not accepted: a string with the name of a truth value in it, or any
value of a placeholder whose colon is not found. -/
def Strict : PatternSegment → Bytes → Prop
  | literal _ _, _ => False
  | placeholder name .int _ _, value => Wrapped name ∧ ∀ c ∈ value, isDigit c = true
  | placeholder name .boolean _ _, value =>
    Wrapped name ∧ (value = lit "true" ∨ value = lit "false")
  | placeholder name .str _ _, value =>
    value ≠ placeholderText name .str ∧ ¬ (∀ c ∈ value, isDigit c = true) ∧
      value ≠ lit "true" ∧ value ≠ lit "false" ∧ (Wrapped name ∨ HoldsKeyword value)

theorem not_digits_of_eq {name : Bytes} {type : PlaceholderType} {value : Bytes}
    (h : value = placeholderText name type) : ¬ ∀ c ∈ value, isDigit c = true := by
  rw [h]
  exact fun hdigits => absurd (hdigits 60 List.mem_cons_self) (by decide)

theorem ne_of_eq {name : Bytes} {type : PlaceholderType} {value : Bytes}
    (h : value = placeholderText name type) : value ≠ lit "true" ∧ value ≠ lit "false" := by
  have hhead : value.head? = some 60 := by rw [h]; rfl
  constructor
  · rintro rfl
    exact absurd hhead (by decide)
  · rintro rfl
    exact absurd hhead (by decide)

theorem loose_iff (segment : PatternSegment) (value : Bytes) :
    segment.Loose value ↔ Accepts segment.text value ∧ ¬ segment.Fits value := by
  cases segment with
  | literal text h =>
    rw [text_literal, accepts_literal h]
    exact iff_of_false id fun h => h.2 h.1
  | placeholder name type hcolon hclose =>
    rw [text_placeholder, accepts_placeholder hcolon, dataType_eq_iff]
    cases type with
    | int =>
      constructor
      · exact fun hself => ⟨Or.inl hself, not_digits_of_eq hself⟩
      · rintro ⟨hself | ⟨-, hdigits⟩, hfits⟩
        · exact hself
        · exact absurd hdigits hfits
    | boolean =>
      constructor
      · rintro (hself | ⟨hwrap, hholds, hfits⟩)
        · exact ⟨Or.inl hself, not_or.mpr (ne_of_eq hself)⟩
        · exact ⟨Or.inr ⟨hwrap, hholds⟩, not_or.mpr hfits⟩
      · rintro ⟨hself | ⟨hwrap, hholds⟩, hfits⟩
        · exact Or.inl hself
        · exact Or.inr ⟨hwrap, hholds, not_or.mp hfits⟩
    | str =>
      refine iff_of_false id ?_
      rintro ⟨hself | ⟨-, hdigits, hholds⟩, hfits⟩
      · exact hfits ⟨not_digits_of_eq hself, ne_of_eq hself⟩
      · refine hfits ⟨hdigits, ?_, ?_⟩
        · exact fun h => hholds (holdsKeyword_of_eq (Or.inl h))
        · exact fun h => hholds (holdsKeyword_of_eq (Or.inr h))

theorem strict_iff (segment : PatternSegment) (value : Bytes) :
    segment.Strict value ↔ segment.Fits value ∧ ¬ Accepts segment.text value := by
  cases segment with
  | literal text h =>
    rw [text_literal, accepts_literal h]
    exact iff_of_false id fun h => h.2 h.1
  | placeholder name type hcolon hclose =>
    rw [text_placeholder, accepts_placeholder hcolon, dataType_eq_iff]
    cases type with
    | int =>
      constructor
      · rintro ⟨hwrap, hdigits⟩
        refine ⟨hdigits, ?_⟩
        rintro (hself | ⟨hnot, -⟩)
        · exact not_digits_of_eq hself hdigits
        · exact hnot hwrap
      · rintro ⟨hdigits, hnot⟩
        refine ⟨?_, hdigits⟩
        by_contra hwrap
        exact hnot (Or.inr ⟨hwrap, hdigits⟩)
    | boolean =>
      constructor
      · rintro ⟨hwrap, hfits⟩
        refine ⟨hfits, ?_⟩
        rintro (hself | ⟨hnot, -⟩)
        · exact not_or.mpr (ne_of_eq hself) hfits
        · exact hnot hwrap
      · rintro ⟨hfits, hnot⟩
        refine ⟨?_, hfits⟩
        by_contra hwrap
        exact hnot (Or.inr ⟨hwrap, holdsKeyword_of_eq hfits⟩)
    | str =>
      constructor
      · rintro ⟨hself, hdigits, htrue, hfalse, hreason⟩
        refine ⟨⟨hdigits, htrue, hfalse⟩, ?_⟩
        rintro (h | ⟨hwrap, -, hholds⟩)
        · exact hself h
        · exact hreason.elim hwrap hholds
      · rintro ⟨⟨hdigits, htrue, hfalse⟩, hnot⟩
        refine ⟨fun h => hnot (Or.inl h), hdigits, htrue, hfalse, ?_⟩
        by_contra hreason
        obtain ⟨hwrap, hholds⟩ := not_or.mp hreason
        exact hnot (Or.inr ⟨hwrap, hdigits, hholds⟩)

end PatternSegment

/-! ## A whole pattern -/

/-- Two tests of all elements agree when an element fails both, or when the elements that pass
only the one and only the other are both there or both missing. -/
theorem forall_iff_forall_iff {α : Type} {l : List α} {P Q : α → Prop} :
    ((∀ a ∈ l, P a) ↔ ∀ a ∈ l, Q a) ↔
      (∃ a ∈ l, ¬ Q a ∧ ¬ (P a ∧ ¬ Q a)) ∨
        ((∃ a ∈ l, P a ∧ ¬ Q a) ↔ ∃ a ∈ l, Q a ∧ ¬ P a) := by
  by_cases hP : ∀ a ∈ l, P a <;> by_cases hQ : ∀ a ∈ l, Q a
  · refine iff_of_true (iff_of_true hP hQ) (Or.inr (iff_of_false ?_ ?_))
    · exact fun ⟨a, ha, _, hnot⟩ => hnot (hQ a ha)
    · exact fun ⟨a, ha, _, hnot⟩ => hnot (hP a ha)
  · obtain ⟨b, hb, hnot⟩ : ∃ b ∈ l, ¬ Q b := by simpa using hQ
    refine iff_of_false (fun h => hQ (h.mp hP)) ?_
    rintro (⟨a, ha, hQa, hnot'⟩ | hiff)
    · exact hnot' ⟨hP a ha, hQa⟩
    · obtain ⟨a, ha, -, hPa⟩ := hiff.mp ⟨b, hb, hP b hb, hnot⟩
      exact hPa (hP a ha)
  · obtain ⟨b, hb, hnot⟩ : ∃ b ∈ l, ¬ P b := by simpa using hP
    refine iff_of_false (fun h => hP (h.mpr hQ)) ?_
    rintro (⟨a, ha, hQa, -⟩ | hiff)
    · exact hQa (hQ a ha)
    · obtain ⟨a, ha, -, hQa⟩ := hiff.mpr ⟨b, hb, hQ b hb, hnot⟩
      exact hQa (hQ a ha)
  · obtain ⟨b, hb, hPb⟩ : ∃ b ∈ l, ¬ P b := by simpa using hP
    obtain ⟨c, hc, hQc⟩ : ∃ c ∈ l, ¬ Q c := by simpa using hQ
    refine iff_of_true (iff_of_false hP hQ) ?_
    by_cases hQb : Q b
    · by_cases hPc : P c
      · exact Or.inr (iff_of_true ⟨c, hc, hPc, hQc⟩ ⟨b, hb, hQb, hPb⟩)
      · exact Or.inl ⟨c, hc, hQc, fun h => hPc h.1⟩
    · exact Or.inl ⟨b, hb, hQb, fun h => hPb h.1⟩

/-- **When typed placeholders accept exactly their types.** For every pattern of literals and
placeholders and every list of as many segments: `validate_pattern_by_url` returns true exactly
when all segments fit, if and only if a segment does not fit and is not accepted loosely, or
loosely accepted segments and strictly refused ones are both there or both missing. -/
theorem validatePatternByUrl_iff (uri : List Bytes) (pattern : List PatternSegment)
    (hlen : pattern.length = uri.length) :
    (validatePatternByUrl uri (pattern.map PatternSegment.text) = .ok true ↔
        ∀ cell ∈ pattern.zip uri, cell.1.Fits cell.2) ↔
      (∃ cell ∈ pattern.zip uri, ¬ cell.1.Fits cell.2 ∧ ¬ cell.1.Loose cell.2) ∨
        ((∃ cell ∈ pattern.zip uri, cell.1.Loose cell.2) ↔
          ∃ cell ∈ pattern.zip uri, cell.1.Strict cell.2) := by
  have haccepts : validatePatternByUrl uri (pattern.map PatternSegment.text) = .ok true ↔
      ∀ cell ∈ pattern.zip uri, Accepts cell.1.text cell.2 := by
    rw [validatePatternByUrl_true_iff, List.length_map, and_iff_right hlen.ge, List.zip_map_left,
      List.forall_mem_map]
    rfl
  rw [haccepts]
  simp only [PatternSegment.loose_iff, PatternSegment.strict_iff]
  exact forall_iff_forall_iff

/-- `/item/<id:int>`. -/
def itemPattern : List PatternSegment :=
  [.literal (lit "item") (by decide), .placeholder (lit "id") .int (by decide) (by decide)]

theorem validatePatternByUrl_item :
    validatePatternByUrl [lit "item", lit "42"] (itemPattern.map PatternSegment.text) = .ok true ↔
      ∀ cell ∈ itemPattern.zip [lit "item", lit "42"], cell.1.Fits cell.2 := by
  apply (validatePatternByUrl_iff [lit "item", lit "42"] itemPattern rfl).mpr
  refine Or.inr (iff_of_false ?_ ?_)
  · rintro ⟨cell, hcell, hloose⟩
    rcases List.mem_pair.mp hcell with rfl | rfl
    · exact hloose
    · have hself : lit "42" = PatternSegment.placeholderText (lit "id") .int := hloose
      exact absurd hself (by decide)
  · rintro ⟨cell, hcell, hstrict⟩
    rcases List.mem_pair.mp hcell with rfl | rfl
    · exact hstrict
    · exact absurd hstrict.1 (by decide)

/-- A word that holds `true` is taken for a boolean. -/
theorem not_validatePatternByUrl_fits :
    ¬ ∀ (uri : List Bytes) (pattern : List PatternSegment), (∀ value ∈ uri, value ≠ []) →
      pattern.length = uri.length →
      (validatePatternByUrl uri (pattern.map PatternSegment.text) = .ok true ↔
        ∀ cell ∈ pattern.zip uri, cell.1.Fits cell.2) := by
  intro h
  have hflag := h [lit "untrue"] [.placeholder (lit "flag") .boolean (by decide) (by decide)]
    (by decide) rfl
  have hfits := hflag.mp (by decide) _ (List.mem_singleton.mpr rfl)
  rcases hfits with heq | heq <;> exact absurd heq (by decide)

/-! ## Routes that differ in their types -/

namespace PatternSegment

/-- The same literal, or two placeholders. -/
def SameShape : PatternSegment → PatternSegment → Prop
  | literal text _, literal text' _ => text = text'
  | placeholder .., placeholder .. => True
  | _, _ => False

/-- Two placeholders of different types. -/
def DifferentTypes : PatternSegment → PatternSegment → Prop
  | placeholder _ type _ _, placeholder _ type' _ _ => type ≠ type'
  | _, _ => False

/-- A value that does not start with `<` is accepted by one type at most. -/
theorem DifferentTypes.not_accepts {segment segment' : PatternSegment}
    (h : segment.DifferentTypes segment') {value : Bytes} (hvalue : value.head? ≠ some 60)
    (haccepts : Accepts segment.text value) : ¬ Accepts segment'.text value := by
  intro haccepts'
  cases segment with
  | literal => exact h
  | placeholder name type hcolon hclose =>
    cases segment' with
    | literal => exact h
    | placeholder name' type' hcolon' hclose' =>
      have hself {name : Bytes} {type : PlaceholderType} : value ≠ placeholderText name type := by
        rintro rfl
        exact hvalue rfl
      obtain hself' | ⟨-, htype⟩ := (accepts_placeholder hcolon type value).mp haccepts
      · exact hself hself'
      obtain hself' | ⟨-, htype'⟩ := (accepts_placeholder hcolon' type' value).mp haccepts'
      · exact hself hself'
      have hne : type ≠ type' := h
      apply hne
      have heq := htype.trans htype'.symm
      cases type <;> cases type' <;> first | rfl | cases heq

end PatternSegment

/-- `validate_pattern_by_url` behind `split_words`. -/
def validateRoute (uri route : Bytes) : Except Exn Bool := do
  let splittedUri ← splitWordsInt uri 47
  let eSplitted ← splitWordsInt route 47
  validatePatternByUrl splittedUri eSplitted

open PatternSegment in
/-- Two routes with the same literals at the same places and placeholders at the others, at least
one of them of another type. -/
def DifferInTypes (route route' : Bytes) : Prop :=
  ∃ pattern pattern' : List PatternSegment,
    splitWordsInt route 47 = .ok (pattern.map text) ∧
      splitWordsInt route' 47 = .ok (pattern'.map text) ∧
      List.Forall₂ SameShape pattern pattern' ∧
      ∃ pair ∈ pattern.zip pattern', DifferentTypes pair.1 pair.2

open PatternSegment in
/-- Two such routes that name different types at one of the first `n` places. -/
def DifferInTypesWithin (n : ℕ) (route route' : Bytes) : Prop :=
  ∃ pattern pattern' : List PatternSegment,
    splitWordsInt route 47 = .ok (pattern.map text) ∧
      splitWordsInt route' 47 = .ok (pattern'.map text) ∧
      List.Forall₂ SameShape pattern pattern' ∧
      ∃ pair ∈ (pattern.zip pattern').take n, DifferentTypes pair.1 pair.2

theorem DifferInTypes.within {route route' : Bytes} (h : DifferInTypes route route') {n : ℕ}
    {eSplitted : List Bytes} (hsplit : splitWordsInt route 47 = .ok eSplitted)
    (hn : eSplitted.length ≤ n) : DifferInTypesWithin n route route' := by
  obtain ⟨pattern, pattern', hroute, hroute', hshape, pair, hpair, htypes⟩ := h
  refine ⟨pattern, pattern', hroute, hroute', hshape, pair, ?_, htypes⟩
  rw [hsplit, Except.ok.injEq] at hroute
  rw [hroute, List.length_map] at hn
  rwa [List.take_of_length_le]
  rw [List.length_zip]
  omega

theorem accepts_of_accepted {pattern : List PatternSegment} {uri : List Bytes}
    (h : validatePatternByUrl uri (pattern.map PatternSegment.text) = .ok true) {i : ℕ}
    (hi : i < pattern.length) (hi' : i < uri.length) : Accepts pattern[i].text uri[i] := by
  refine (validatePatternByUrl_true_iff.mp h).2 (pattern[i].text, uri[i]) ?_
  have hlen : i < ((pattern.map PatternSegment.text).zip uri).length := by
    rw [List.length_zip, List.length_map]
    omega
  exact List.mem_iff_getElem.mpr ⟨i, hlen, by simp⟩

/-- Of two routes that differ in their types one at most is accepted, when the URL has a segment
at one of the places where they do. -/
theorem DifferInTypesWithin.not_both {route route' : Bytes} {uri eSplitted eSplitted' : List Bytes}
    (h : DifferInTypesWithin uri.length route route') (huri : ∀ value ∈ uri, value.head? ≠ some 60)
    (hsplit : splitWordsInt route 47 = .ok eSplitted)
    (hsplit' : splitWordsInt route' 47 = .ok eSplitted')
    (haccepted : validatePatternByUrl uri eSplitted = .ok true) :
    validatePatternByUrl uri eSplitted' ≠ .ok true := by
  obtain ⟨pattern, pattern', hroute, hroute', hshape, ⟨segment, segment'⟩, hpair, htypes⟩ := h
  rw [hsplit, Except.ok.injEq] at hroute
  rw [hsplit', Except.ok.injEq] at hroute'
  intro haccepted'
  rw [hroute] at haccepted
  rw [hroute'] at haccepted'
  obtain ⟨i, hi, heq⟩ := List.mem_iff_getElem.mp hpair
  rw [List.getElem_take, List.getElem_zip] at heq
  cases heq
  rw [List.length_take, List.length_zip] at hi
  have hcell := accepts_of_accepted haccepted (i := i) (by omega) (by omega)
  have hcell' := accepts_of_accepted haccepted' (i := i) (by omega) (by omega)
  exact htypes.not_accepts (huri _ (List.getElem_mem _)) hcell hcell'

theorem exists_split_of_validateRoute {uri route : Bytes}
    (h : validateRoute uri route = .ok true) :
    Indexable uri ∧ ∃ eSplitted, splitWordsInt route 47 = .ok eSplitted ∧
      validatePatternByUrl (wordsOf uri 47) eSplitted = .ok true := by
  rw [validateRoute] at h
  cases huri : splitWordsInt uri 47 with
  | error e =>
    rw [huri] at h
    cases h
  | ok splittedUri =>
    obtain ⟨hindex, rfl⟩ := of_splitWordsInt_eq_ok huri
    rw [huri, ok_bind] at h
    cases hroute : splitWordsInt route 47 with
    | error e =>
      rw [hroute] at h
      cases h
    | ok eSplitted =>
      rw [hroute, ok_bind] at h
      exact ⟨hindex, eSplitted, rfl, h⟩

theorem exists_split_of_matchesPattern {uri route : Bytes} (h : matchesPattern uri route = true) :
    ∃ eSplitted, splitWordsInt route 47 = .ok eSplitted ∧
      eSplitted.length = (wordsOf uri 47).length ∧
      validatePatternByUrl (wordsOf uri 47) eSplitted = .ok true := by
  obtain ⟨huri, hroute⟩ := indexable_of_matchesPattern h
  refine ⟨wordsOf route 47, splitWordsInt_of_indexable hroute 47, ?_⟩
  rw [matchesPattern, splitWordsInt_of_indexable huri, splitWordsInt_of_indexable hroute] at h
  simp only [Bool.and_eq_true, decide_eq_true_eq] at h
  refine ⟨h.1, ?_⟩
  cases hvalidate : validatePatternByUrl (wordsOf uri 47) (wordsOf route 47) with
  | error e => simp [hvalidate] at h
  | ok status =>
    have hstatus : status = true := by simpa [hvalidate] using h.2
    rw [hstatus]

/-- In a family of such routes, the loop over the patterns finds the same in every order. -/
theorem matchPattern_order {uri : Bytes} (hindex : Indexable uri)
    (huri : ∀ value ∈ wordsOf uri 47, value.head? ≠ some 60) {routes : RoutesMap}
    (hfamily : ∀ route ∈ routes, ∀ route' ∈ routes, route ≠ route' → DifferInTypes route route')
    (order order' : HashOrder) :
    matchPattern (wordsOf uri 47) (order.enum routes) =
      matchPattern (wordsOf uri 47) (order'.enum routes) := by
  by_cases hall : ∀ route ∈ routes, Indexable route
  swap
  · -- a route that cannot be split is the only one
    push Not at hall
    obtain ⟨bad, hbad, hnot⟩ := hall
    have honly : ∀ route ∈ routes, route = bad := by
      intro route hroute
      by_contra hne
      obtain ⟨-, pattern', -, hsplit, -⟩ := hfamily route hroute bad hbad hne
      exact hnot (of_splitWordsInt_eq_ok hsplit).1
    have hundefined : ∀ order : HashOrder,
        matchPattern (wordsOf uri 47) (order.enum routes) = .error .undefined := by
      intro order
      apply matchPattern_undefined hindex
      · intro it hit
        rw [honly it.1 (mem_of_mem_enum hit)]
        exact Bool.eq_false_of_not_eq_true fun h => hnot (indexable_of_matchesPattern h).2
      · obtain ⟨it, hit, rfl⟩ := List.mem_map.mp ((HashOrder.mem_keys_enum order).mpr hbad)
        exact ⟨it, hit, hnot⟩
    rw [hundefined, hundefined]
  have hits : ∀ order : HashOrder, ∀ it ∈ order.enum routes, Indexable it.1 :=
    fun order it hit => hall it.1 (mem_of_mem_enum hit)
  rw [matchPattern_eq hindex (hits order), matchPattern_eq hindex (hits order'),
    ← Priority.search_singleton, ← Priority.search_singleton]
  apply congrArg Except.ok
  apply Priority.search_eq_of_unique (order.enum_perm order' fun _ => rfl)
  rintro ⟨route, cb⟩ hmem ⟨route', cb'⟩ hmem' hbest hbest'
  rw [HashOrder.mem_enum] at hmem hmem'
  rw [Priority.best_singleton] at hbest hbest'
  obtain ⟨eSplitted, hsplit, hlen, haccepted⟩ := exists_split_of_matchesPattern hbest
  obtain ⟨eSplitted', hsplit', -, haccepted'⟩ := exists_split_of_matchesPattern hbest'
  by_cases heq : route = route'
  · subst heq
    rw [hmem, Option.some.injEq] at hmem'
    rw [hmem']
  · have hdiffer := hfamily route (AList.lookup_isSome.mp (by simp [hmem])) route'
      (AList.lookup_isSome.mp (by simp [hmem'])) heq
    exact absurd haccepted'
      ((hdiffer.within hsplit hlen.le).not_both huri hsplit hsplit' haccepted)

/-- **Routes that differ in their types do not compete.** For every URL without a segment that
starts with `<`: of two such routes `validate_pattern_by_url` accepts one at most, when the URL
has a segment at one of the places where they differ, and among any family of them the search by
patterns finds the same in every order. -/
theorem matchPattern_unique (uri : Bytes)
    (huri : ∀ value ∈ wordsOf uri 47, value.head? ≠ some 60) :
    (∀ route route', DifferInTypesWithin (wordsOf uri 47).length route route' →
      ¬ (validateRoute uri route = .ok true ∧ validateRoute uri route' = .ok true)) ∧
    ∀ routes : RoutesMap,
      (∀ route ∈ routes, ∀ route' ∈ routes, route ≠ route' → DifferInTypes route route') →
      ∀ order order' : HashOrder,
        (splitWordsInt uri 47 >>= (matchPattern · (order.enum routes))) =
          (splitWordsInt uri 47 >>= (matchPattern · (order'.enum routes))) := by
  refine ⟨?_, fun routes hfamily order order' => ?_⟩
  · rintro route route' h ⟨haccepted, haccepted'⟩
    obtain ⟨-, eSplitted, hsplit, hvalid⟩ := exists_split_of_validateRoute haccepted
    obtain ⟨-, eSplitted', hsplit', hvalid'⟩ := exists_split_of_validateRoute haccepted'
    exact h.not_both huri hsplit hsplit' hvalid hvalid'
  · by_cases hindex : Indexable uri
    · rw [splitWordsInt_of_indexable hindex, ok_bind, ok_bind]
      exact matchPattern_order hindex huri hfamily order order'
    · rw [splitWordsInt_of_not_indexable hindex]
      rfl

/-- `/item/<x:int>` and `/item/<x:str>`. -/
theorem differInTypes_item : DifferInTypes (lit "/item/<x:int>") (lit "/item/<x:str>") := by
  let item : PatternSegment := .literal (lit "item") (by decide)
  let asInt : PatternSegment := .placeholder (lit "x") .int (by decide) (by decide)
  let asStr : PatternSegment := .placeholder (lit "x") .str (by decide) (by decide)
  refine ⟨[item, asInt], [item, asStr], by decide, by decide, ?_, (asInt, asStr), ?_, ?_⟩
  · exact .cons rfl (.cons trivial .nil)
  · exact List.mem_cons_of_mem _ List.mem_cons_self
  · exact PlaceholderType.noConfusion

/-- The URL `/item/7` has one of the two routes. -/
theorem matchPattern_unique_item :
    ¬ (validateRoute (lit "/item/7") (lit "/item/<x:int>") = .ok true ∧
        validateRoute (lit "/item/7") (lit "/item/<x:str>") = .ok true) := by
  have hsplit : splitWordsInt (lit "/item/<x:int>") 47 = .ok [lit "item", lit "<x:int>"] := by
    decide
  exact (matchPattern_unique (lit "/item/7") (by decide)).1 _ _
    (differInTypes_item.within hsplit (by decide))

/-- The loop ends with the URL: both routes are accepted for `/item`. -/
theorem not_unique_shorter :
    ¬ ∀ uri route route' : Bytes, (∀ value ∈ wordsOf uri 47, value.head? ≠ some 60) →
      DifferInTypes route route' →
      ¬ (validateRoute uri route = .ok true ∧ validateRoute uri route' = .ok true) := by
  intro h
  apply h (lit "/item") (lit "/item/<x:int>") (lit "/item/<x:str>") (by decide) differInTypes_item
  decide

end SimpleServer
