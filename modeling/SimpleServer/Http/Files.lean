import SimpleServer.Http.ResponseMessage

/-!
# Files as bodies

`read_text_file` and its copy `read_whole_file` put a line feed behind every line that
`std::getline` extracts, also behind a last line that has none (`readTextFile_exact_iff`).
`render_text_file` takes the empty text for a failure, and `list_dir` answers a failure of its own
with the path it was given and has no defined answer for a directory with a member.
`renderTextFile_exact_iff` says for which paths the body is what it should be.
-/

namespace SimpleServer

open Cxx

/-- `read_whole_file` of `simple_server_utils.cpp`. -/
def readWholeFile (fs : FileSystem) (src : Bytes) : Bytes :=
  match fs.openStream src with
  | some text => (lines text).flatMap (· ++ [lf])
  | none => lit "THIS FILE COULD NOT BE OPENED ." ++ src

/-! ## Lines written again -/

/-- The text is empty or ends with a line feed. -/
def EndsLine (text : Bytes) : Prop := text = [] ∨ text.getLast? = some lf

instance : DecidablePred EndsLine := fun text =>
  inferInstanceAs (Decidable (text = [] ∨ text.getLast? = some lf))

theorem endsLine_cons {c : UInt8} {text : Bytes} (h : text ≠ []) :
    EndsLine (c :: text) ↔ EndsLine text := by
  obtain ⟨d, text, rfl⟩ := List.exists_cons_of_ne_nil h
  simp [EndsLine, List.getLast?_cons_cons]

/-- The lines of a text, each with a line feed: a line feed is added when the last line has none. -/
theorem flatMap_lines (text : Bytes) :
    (lines text).flatMap (· ++ [lf]) = if EndsLine text then text else text ++ [lf] := by
  induction text with
  | nil => rfl
  | cons c text ih =>
    by_cases hnil : text = []
    · subst hnil
      by_cases hc : c = lf
      · simp [lines, hc, EndsLine]
      · simp [lines, hc, EndsLine]
    · have hcons : (lines (c :: text)).flatMap (· ++ [lf]) =
          c :: (lines text).flatMap (· ++ [lf]) := by
        rw [lines]
        by_cases hc : c = lf
        · simp [hc]
        · rw [if_neg hc]
          cases hlines : lines text with
          | nil =>
            rw [hlines] at ih
            have hne : (if EndsLine text then text else text ++ [lf]) ≠ [] := by
              split_ifs <;> simp [hnil]
            exact absurd ih.symm hne
          | cons l ls => simp
      rw [hcons, ih]
      by_cases h : EndsLine text
      · rw [if_pos h, if_pos ((endsLine_cons hnil).mpr h)]
      · rw [if_neg h, if_neg (mt (endsLine_cons hnil).mp h), List.cons_append]

theorem flatMap_lines_eq_iff (text : Bytes) :
    (lines text).flatMap (· ++ [lf]) = text ↔ EndsLine text := by
  rw [flatMap_lines]
  split_ifs with h
  · simp [h]
  · simp [h]

section Files

variable {fs : FileSystem} {src text : Bytes}

/-- **When a file is read as it is.** For every file that can be opened: `read_text_file`, and
likewise `read_whole_file`, returns its bytes exactly when there are none or the last one is a line
feed. -/
theorem readTextFile_exact_iff (hopen : fs.openStream src = some text) :
    (readTextFile fs src = text ↔ text = [] ∨ text.getLast? = some lf) ∧
      (readWholeFile fs src = text ↔ text = [] ∨ text.getLast? = some lf) := by
  rw [readTextFile, readWholeFile, hopen]
  exact ⟨flatMap_lines_eq_iff text, flatMap_lines_eq_iff text⟩

end Files

/-- Binary data with line feeds in the middle and at the end. -/
theorem readTextFile_exact_binary :
    (oneFile (lit "a.bin") [0, lf, lf, 255, lf]).openStream (lit "a.bin") =
        some [0, lf, lf, 255, lf] ∧
      readTextFile (oneFile (lit "a.bin") [0, lf, lf, 255, lf]) (lit "a.bin") =
        [0, lf, lf, 255, lf] := by
  have hopen : (oneFile (lit "a.bin") [0, lf, lf, 255, lf]).openStream (lit "a.bin") =
      some [0, lf, lf, 255, lf] := by decide
  exact ⟨hopen, (readTextFile_exact_iff hopen).1.mpr (by decide)⟩

/-- A file without a line feed at its end gets one. -/
theorem not_readTextFile_exact :
    (oneFile (lit "a.txt") (lit "a")).openStream (lit "a.txt") = some (lit "a") ∧
      readTextFile (oneFile (lit "a.txt") (lit "a")) (lit "a.txt") ≠ lit "a" ∧
      readWholeFile (oneFile (lit "a.txt") (lit "a")) (lit "a.txt") ≠ lit "a" := by
  decide

/-! ## `render_text_file` -/

/-- The body that `render_text_file` should set: a listing of a directory with an entry for each
member, the text of a file, and else the message, without a trace of the path when there is no file
or an empty one. -/
structure RendersExactly (fs : FileSystem) (filename body : Bytes) : Prop where
  listing : ∀ entries, fs.opendir filename = some entries →
    ∃ entry : Bytes → Bytes, (∀ name, name <:+ entry name) ∧
      body = (members entries).flatMap fun name => entry name ++ crlf
  text : ∀ text, fs.opendir filename = none → fs.openStream filename = some text → body = text
  message : fs.opendir filename = none → fs.openStream filename = none →
    body = lit "file could not be opened."
  /-- Another path that is missing or empty in the same way gives the same body. -/
  secret : fs.opendir filename = none →
    fs.openStream filename = none ∨ fs.openStream filename = some [] →
      ∀ (fs' : FileSystem) (path : Bytes), fs'.opendir path = none →
        fs'.openStream path = fs.openStream filename → fileText fs' path = .ok body

section Render

variable {fs : FileSystem} {filename text : Bytes} {entries : List Bytes}

/-- The body of a path that is no directory and has no text. -/
theorem fileText_missing (hdir : fs.opendir filename = none)
    (hread : readTextFile fs filename = []) :
    fileText fs filename = .ok (filename ++ crlf) := by
  have hlist : listDir fs filename = .ok [filename] := by rw [listDir, hdir]
  rw [fileText, hread, if_pos rfl, hlist, ok_bind, List.length_singleton, if_pos Nat.zero_lt_one,
    lit_crlf]
  rfl

/-- The body of a file with a text. -/
theorem fileText_text (hopen : fs.openStream filename = some text) (hne : text ≠ []) :
    fileText fs filename = .ok (if EndsLine text then text else text ++ [lf]) := by
  have hread : readTextFile fs filename = if EndsLine text then text else text ++ [lf] := by
    rw [readTextFile, hopen]
    exact flatMap_lines text
  have hread' : readTextFile fs filename ≠ [] := by
    rw [hread]
    split_ifs <;> simp [hne]
  rw [fileText, if_neg hread', hread]
  rfl

/-- The body of a directory without members. -/
theorem fileText_empty_directory (hdir : fs.opendir filename = some entries)
    (hread : readTextFile fs filename = []) (hmembers : members entries = []) :
    fileText fs filename = .ok (lit "file could not be opened.") := by
  have hlist : listDir fs filename = .ok [] := by
    rw [listDir, hdir]
    exact (listEntries_eq [] entries).trans (if_pos hmembers)
  rw [fileText, hread, if_pos rfl, hlist, ok_bind]
  rfl

/-- A body that is right. -/
theorem exists_renderTextFile_iff (r : HttpResponse) :
    (∃ r', r.renderTextFile fs filename = .ok r' ∧ RendersExactly fs filename r'.body) ↔
      ∃ fi, fileText fs filename = .ok fi ∧ RendersExactly fs filename fi := by
  constructor
  · rintro ⟨r', h, hexact⟩
    obtain ⟨fi, hfi, rfl⟩ := exists_renderTextFile h
    exact ⟨fi, hfi, hexact⟩
  · rintro ⟨fi, hfi, hexact⟩
    exact ⟨{ r with body := fi }, by rw [HttpResponse.renderTextFile, hfi]; rfl, hexact⟩

theorem message_ne (path : Bytes) : path ++ crlf ≠ lit "file could not be opened." := by
  intro h
  have hlast := congrArg List.getLast? h
  rw [show path ++ crlf = path ++ [cr] ++ [lf] by simp [crlf], List.getLast?_concat] at hlast
  exact absurd hlast (by decide)

/-- A path that is no directory and has no text is answered with itself. -/
theorem not_rendersExactly_missing (hdir : fs.opendir filename = none)
    (hopen : fs.openStream filename = none ∨ fs.openStream filename = some []) :
    ¬ ∃ fi, fileText fs filename = .ok fi ∧ RendersExactly fs filename fi := by
  rintro ⟨fi, hfi, h⟩
  have hread : readTextFile fs filename = [] := by
    rcases hopen with hopen | hopen
    · rw [readTextFile, hopen]
    · rw [readTextFile, hopen]
      rfl
  rw [fileText_missing hdir hread, Except.ok.injEq] at hfi
  rcases hopen with hopen | hopen
  · exact message_ne filename (hfi.trans (h.message hdir hopen))
  · have hbody := hfi.trans (h.text [] hdir hopen)
    simp [crlf] at hbody

/-- A directory is not listed: without members it is answered with the message, and with one the
call has no defined result. -/
theorem not_rendersExactly_directory (hdir : fs.opendir filename = some entries)
    (hread : readTextFile fs filename = []) :
    ¬ ∃ fi, fileText fs filename = .ok fi ∧ RendersExactly fs filename fi := by
  rintro ⟨fi, hfi, h⟩
  by_cases hmembers : members entries = []
  · obtain ⟨entry, -, hbody⟩ := h.listing entries hdir
    rw [hmembers, List.flatMap_nil] at hbody
    rw [fileText_empty_directory hdir hread hmembers, hbody, Except.ok.injEq] at hfi
    exact absurd hfi (by decide)
  · rw [fileText_of_listsMember ⟨hread, entries, hdir, hmembers⟩] at hfi
    cases hfi

/-- Only the text is right for a file that has one. -/
theorem rendersExactly_iff_text {body : Bytes} (hdir : fs.opendir filename = none)
    (hopen : fs.openStream filename = some text) (hne : text ≠ []) :
    RendersExactly fs filename body ↔ body = text := by
  refine ⟨fun h => h.text text hdir hopen, fun hbody => ?_⟩
  refine ⟨fun _ hsome => ?_, fun text' _ hopen' => ?_, fun _ hnone => ?_, fun _ hempty => ?_⟩
  · rw [hdir] at hsome
    cases hsome
  · rw [hopen, Option.some.injEq] at hopen'
    rwa [← hopen']
  · rw [hopen] at hnone
    cases hnone
  · rw [hopen] at hempty
    simp [hne] at hempty

/-- A file with a text is given as it is when its last line is ended. -/
theorem rendersExactly_text_iff (hdir : fs.opendir filename = none)
    (hopen : fs.openStream filename = some text) (hne : text ≠ []) :
    (∃ fi, fileText fs filename = .ok fi ∧ RendersExactly fs filename fi) ↔
      text.getLast? = some lf := by
  have hends : EndsLine text ↔ text.getLast? = some lf := or_iff_right hne
  rw [fileText_text hopen hne, ← hends]
  simp only [Except.ok.injEq, exists_eq_left', rendersExactly_iff_text hdir hopen hne]
  split_ifs with h
  · exact iff_of_true rfl h
  · exact iff_of_false (by simp) h

/-- **When the body is what it should be.** For every file system and every path, where a directory
delivers no bytes: exactly when the path is no directory and a file whose text ends with a line
feed. -/
theorem renderTextFile_exact_iff (fs : FileSystem) (filename : Bytes) (r : HttpResponse)
    (hdirectory : ∀ entries text, fs.opendir filename = some entries →
      fs.openStream filename = some text → text = []) :
    (∃ r', r.renderTextFile fs filename = .ok r' ∧ RendersExactly fs filename r'.body) ↔
      fs.opendir filename = none ∧
        ∃ text, fs.openStream filename = some text ∧ text.getLast? = some lf := by
  rw [exists_renderTextFile_iff]
  cases hdir : fs.opendir filename with
  | some entries =>
    have hread : readTextFile fs filename = [] := by
      cases hopen : fs.openStream filename with
      | none => rw [readTextFile, hopen]
      | some text =>
        rw [readTextFile, hopen, hdirectory entries text hdir hopen]
        rfl
    exact iff_of_false (not_rendersExactly_directory hdir hread) (by simp)
  | none =>
    rcases hopen : fs.openStream filename with _ | text
    · exact iff_of_false (not_rendersExactly_missing hdir (Or.inl hopen)) (by simp)
    · by_cases hnil : text = []
      · subst hnil
        exact iff_of_false (not_rendersExactly_missing hdir (Or.inr hopen)) (by simp)
      · rw [rendersExactly_text_iff hdir hopen hnil]
        simp

end Render

/-- A page that ends with a line feed. -/
theorem renderTextFile_exact_page :
    (∀ entries text, (oneFile (lit "/srv/a") (lit "hi\n")).opendir (lit "/srv/a") = some entries →
      (oneFile (lit "/srv/a") (lit "hi\n")).openStream (lit "/srv/a") = some text → text = []) ∧
    ∃ r', (HttpResponse.default .ok).renderTextFile (oneFile (lit "/srv/a") (lit "hi\n"))
        (lit "/srv/a") = .ok r' ∧
      RendersExactly (oneFile (lit "/srv/a") (lit "hi\n")) (lit "/srv/a") r'.body := by
  have hdirectory : ∀ entries text,
      (oneFile (lit "/srv/a") (lit "hi\n")).opendir (lit "/srv/a") = some entries →
        (oneFile (lit "/srv/a") (lit "hi\n")).openStream (lit "/srv/a") = some text →
          text = [] := by
    intro entries text hdir
    cases hdir
  exact ⟨hdirectory, (renderTextFile_exact_iff _ _ (.default .ok) hdirectory).mpr
    ⟨rfl, lit "hi\n", by decide, by decide⟩⟩

/-- A missing file is answered with its path on the server. -/
theorem not_renderTextFile_exact :
    fileText (oneFile (lit "/srv/a") (lit "hi\n")) (lit "/srv/key") = .ok (lit "/srv/key\r\n") ∧
      ¬ ∃ r', (HttpResponse.default .ok).renderTextFile (oneFile (lit "/srv/a") (lit "hi\n"))
          (lit "/srv/key") = .ok r' ∧
        RendersExactly (oneFile (lit "/srv/a") (lit "hi\n")) (lit "/srv/key") r'.body := by
  refine ⟨fileText_missing rfl (by decide), ?_⟩
  rw [exists_renderTextFile_iff]
  exact not_rendersExactly_missing rfl (Or.inl (by decide))

end SimpleServer
