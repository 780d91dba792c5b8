import SimpleServer.Foundations.Bytes

/-!
# HTTP messages

A message is a start line, header fields and a body. `Message.render` writes it with one line for
each field and an empty line before the body; `receive` is a receiver that splits a text at its
first CRLF CRLF. A well-formed message is received as it was rendered (`receive_render`).
-/

namespace Http

open Cxx

structure Message where
  startLine : Bytes
  fields : List (Bytes × Bytes)
  body : Bytes
  deriving DecidableEq

/-- The line of a field, without its CRLF. -/
def fieldLine (f : Bytes × Bytes) : Bytes := f.1 ++ lit ": " ++ f.2

/-- The name and the value of a field's line. -/
def parseField (line : Bytes) : Option (Bytes × Bytes) :=
  (findChar colon line).map fun n => (line.take n, line.drop (n + 2))

/-- The lines of a text whose lines all end with CRLF. -/
def splitLines (text : Bytes) : List Bytes := (lines text).map List.dropLast

/-- A receiver: the text up to the first CRLF CRLF is the start line and the fields, and what
follows is the body. -/
def receive (text : Bytes) : Option Message :=
  match find blankLine text with
  | none => none
  | some n =>
    match splitLines (text.take (n + 2)) with
    | [] => none
    | startLine :: fieldLines =>
      (fieldLines.mapM parseField).map fun fields => ⟨startLine, fields, text.drop (n + 4)⟩

/-- Neither CR nor LF. -/
def OneLine (s : Bytes) : Prop := cr ∉ s ∧ lf ∉ s

instance : DecidablePred OneLine := fun s => inferInstanceAs (Decidable (cr ∉ s ∧ lf ∉ s))

/-- A name that is not empty and has no colon, and a value, each on one line. -/
def FieldOk (f : Bytes × Bytes) : Prop :=
  f.1 ≠ [] ∧ colon ∉ f.1 ∧ OneLine f.1 ∧ OneLine f.2

instance : DecidablePred FieldOk := fun f =>
  inferInstanceAs (Decidable (f.1 ≠ [] ∧ colon ∉ f.1 ∧ OneLine f.1 ∧ OneLine f.2))

theorem OneLine.append {s t : Bytes} (hs : OneLine s) (ht : OneLine t) : OneLine (s ++ t) := by
  simp only [OneLine, List.mem_append, not_or]
  exact ⟨⟨hs.1, ht.1⟩, hs.2, ht.2⟩

theorem FieldOk.oneLine_fieldLine {f : Bytes × Bytes} (h : FieldOk f) : OneLine (fieldLine f) :=
  (h.2.2.1.append (by decide)).append h.2.2.2

theorem fieldLine_ne_nil (f : Bytes × Bytes) : fieldLine f ≠ [] := by
  have : lit ": " ≠ [] := by decide
  simp [fieldLine, this]

theorem parseField_fieldLine {f : Bytes × Bytes} (h : FieldOk f) :
    parseField (fieldLine f) = some f := by
  have e : fieldLine f = f.1 ++ colon :: space :: f.2 := by
    rw [fieldLine, List.append_assoc]
    rfl
  have hd : (f.1 ++ colon :: space :: f.2).drop (f.1.length + 2) = f.2 := by
    rw [← List.drop_drop, List.drop_left]
    rfl
  rw [parseField, e, findChar_append_cons h.2.1, Option.map_some, hd, List.take_left]

theorem mapM_parseField {fields : List (Bytes × Bytes)} (h : ∀ f ∈ fields, FieldOk f) :
    (fields.map fieldLine).mapM parseField = some fields := by
  induction fields with
  | nil => rfl
  | cons f fields ih =>
    rw [List.map_cons, List.mapM_cons, parseField_fieldLine (h f (by simp)),
      ih fun f' hf' => h f' (by simp [hf'])]
    rfl

/-! ## The first empty line -/

theorem find_blank_append {l : Bytes} (h : cr ∉ l) (s : Bytes) :
    find blankLine (l ++ s) = (find blankLine s).map (· + l.length) :=
  find_append_of_notMem h s

theorem find_blank_crlf {c : UInt8} (h : c ≠ cr) (s : Bytes) :
    find blankLine (crlf ++ c :: s) = (find blankLine (c :: s)).map (· + 2) := by
  have h0 : blankLine.isPrefixOf (cr :: lf :: c :: s) = false := by
    simp [blankLine, crlf, List.isPrefixOf, Ne.symm h]
  have h1 : blankLine.isPrefixOf (lf :: c :: s) = false := by
    simp [blankLine, crlf, List.isPrefixOf, cr, lf]
  rw [crlf, List.cons_append, List.cons_append, List.nil_append, find, h0, find, h1]
  cases find blankLine (c :: s) <;> simp

/-- Lines that are not empty and hold no CR, then an empty line: the first CRLF CRLF begins with
the CRLF of the last of these lines. -/
theorem find_blank_lines {l : Bytes} {ls : List Bytes} (h : ∀ x ∈ l :: ls, x ≠ [] ∧ cr ∉ x)
    (s : Bytes) :
    find blankLine ((l :: ls).flatMap (· ++ crlf) ++ crlf ++ s) =
      some (((l :: ls).flatMap (· ++ crlf)).length - 2) := by
  have hl := (h l (by simp)).2
  induction ls generalizing l with
  | nil =>
    have e : [l].flatMap (· ++ crlf) ++ crlf ++ s = l ++ (blankLine ++ s) := by simp [blankLine]
    rw [e, find_blank_append hl, find_self]
    simp [crlf]
  | cons l' ls ih =>
    have h' : ∀ x ∈ l' :: ls, x ≠ [] ∧ cr ∉ x := fun x hx => h x (by simp_all)
    obtain ⟨hne, hcr⟩ := h' l' (by simp)
    obtain ⟨c, t, rfl⟩ := List.exists_cons_of_ne_nil hne
    have hc : c ≠ cr := fun e => hcr (by simp [e])
    have e : (l :: (c :: t) :: ls).flatMap (· ++ crlf) ++ crlf ++ s =
        l ++ (crlf ++ c :: (t ++ crlf ++ ls.flatMap (· ++ crlf) ++ crlf ++ s)) := by simp
    have e' : c :: (t ++ crlf ++ ls.flatMap (· ++ crlf) ++ crlf ++ s) =
        ((c :: t) :: ls).flatMap (· ++ crlf) ++ crlf ++ s := by simp
    rw [e, find_blank_append hl, find_blank_crlf hc, e', ih h' hcr, Option.map_some,
      Option.map_some]
    simp only [List.flatMap_cons, List.length_append, crlf, List.length_cons, List.length_nil]
    congr 1
    omega

namespace Message

/-- The text of a message. -/
def render (m : Message) : Bytes :=
  (m.startLine :: m.fields.map fieldLine).flatMap (· ++ crlf) ++ crlf ++ m.body

/-- The lines of fields, each with its CRLF. -/
def fieldBytes (fields : List (Bytes × Bytes)) : Bytes :=
  (fields.map fieldLine).flatMap (· ++ crlf)

theorem fieldBytes_append (fs gs : List (Bytes × Bytes)) :
    fieldBytes (fs ++ gs) = fieldBytes fs ++ fieldBytes gs := by
  rw [fieldBytes, List.map_append, List.flatMap_append]
  rfl

theorem length_fieldBytes_perm {fs gs : List (Bytes × Bytes)} (h : fs.Perm gs) :
    (fieldBytes fs).length = (fieldBytes gs).length :=
  ((h.map fieldLine).flatMap_right _).length_eq

theorem length_render (m : Message) :
    m.render.length = m.startLine.length + (fieldBytes m.fields).length + m.body.length + 4 := by
  have hcrlf : crlf.length = 2 := rfl
  rw [render, List.flatMap_cons, ← fieldBytes]
  simp only [List.length_append, hcrlf]
  omega

/-- A start line on one line and fields that a receiver can take apart. -/
structure WellFormed (m : Message) : Prop where
  startLine_ne_nil : m.startLine ≠ []
  oneLine_startLine : OneLine m.startLine
  fieldOk : ∀ f ∈ m.fields, FieldOk f

theorem WellFormed.line {m : Message} (h : m.WellFormed) :
    ∀ l ∈ m.startLine :: m.fields.map fieldLine, l ≠ [] ∧ OneLine l := by
  intro l hl
  rcases List.mem_cons.mp hl with rfl | hl
  · exact ⟨h.startLine_ne_nil, h.oneLine_startLine⟩
  · obtain ⟨f, hf, rfl⟩ := List.mem_map.mp hl
    exact ⟨fieldLine_ne_nil f, (h.fieldOk f hf).oneLine_fieldLine⟩

theorem splitLines_crlf {ls : List Bytes} (h : ∀ l ∈ ls, lf ∉ l) :
    splitLines (ls.flatMap (· ++ crlf)) = ls := by
  have e := lines_flatMap_crlf h []
  rw [List.append_nil] at e
  rw [splitLines, e, lines, List.append_nil, List.map_map]
  conv_rhs => rw [← List.map_id ls]
  refine List.map_congr_left fun l _ => ?_
  simp

/-- **A rendered message is received as it was.** -/
theorem receive_render {m : Message} (h : m.WellFormed) : receive m.render = some m := by
  have hfind := find_blank_lines (fun l hl => ⟨(h.line l hl).1, (h.line l hl).2.1⟩) m.body
  have hlines := splitLines_crlf fun l hl => (h.line l hl).2.2
  have hlen : 2 ≤ ((m.startLine :: m.fields.map fieldLine).flatMap (· ++ crlf)).length := by
    simp [crlf]
    omega
  unfold receive render
  rw [hfind]
  simp only
  generalize (m.startLine :: m.fields.map fieldLine).flatMap (· ++ crlf) = head at *
  have hhead : (head ++ crlf ++ m.body).take (head.length - 2 + 2) = head := by
    rw [Nat.sub_add_cancel hlen, List.append_assoc, List.take_left]
  have hbody : (head ++ crlf ++ m.body).drop (head.length - 2 + 4) = m.body := by
    rw [show head.length - 2 + 4 = (head ++ crlf).length by simp [crlf]; omega, List.drop_left]
  rw [hhead, hbody, hlines]
  simp only
  rw [mapM_parseField h.fieldOk, Option.map_some]

end Message

end Http
