import SimpleServer.Http.Request
import SimpleServer.Foundations.HashMap

/-!
# The building of a response

The type `http_response` with its setters and `build_http_response`, and the fixed text that
answers an unknown URL. A setter changes the object that it is called on and returns a copy of
it; the functions below give the object after the call. `list_dir` hands a `std::string` object to
`snprintf` for each member of a directory, which is undefined: only calls that list no member
return.
-/

namespace SimpleServer

open Cxx

/-- `http_response_code`. The type holds any `int`; all values without a name are one here, as
the only function that reads one tells them apart no further. -/
inductive HttpResponseCode
  | continue
  | switchingProtocols
  | ok
  | created
  | accepted
  | movedPermanently
  | found
  | seeOther
  | badRequest
  | unauthorized
  | forbidden
  | notFound
  | internalServerError
  | notImplemented
  | unnamed
  deriving DecidableEq, Repr

/-- The name of the value that an `int` has as an `http_response_code`. -/
def HttpResponseCode.ofInt : ℤ → HttpResponseCode
  | 100 => .continue
  | 101 => .switchingProtocols
  | 200 => .ok
  | 201 => .created
  | 202 => .accepted
  | 301 => .movedPermanently
  | 302 => .found
  | 303 => .seeOther
  | 400 => .badRequest
  | 401 => .unauthorized
  | 403 => .forbidden
  | 404 => .notFound
  | 500 => .internalServerError
  | 501 => .notImplemented
  | _ => .unnamed

/-- The lambda `strBuilder`. -/
def strBuilder (n : ℕ) (s : String) : Bytes := decimal n ++ lit " " ++ lit s ++ lit "\r\n"

/-- `http_response_code_to_string`, which ends the status line. -/
def httpResponseCodeToString : HttpResponseCode → Bytes
  | .continue => strBuilder 100 "Continue"
  | .switchingProtocols => strBuilder 101 "Switching Protocols"
  | .ok => strBuilder 200 "OK"
  | .created => strBuilder 201 "Created"
  | .accepted => strBuilder 202 "Accepted"
  | .movedPermanently => strBuilder 301 "Moved Permanently"
  | .found => strBuilder 302 "Found"
  | .seeOther => strBuilder 303 "See Other"
  | .badRequest => strBuilder 400 "Bad Request"
  | .unauthorized => strBuilder 401 "Unauthorized"
  | .forbidden => strBuilder 403 "OK"
  | .notFound => strBuilder 404 "Not Found"
  | .internalServerError => strBuilder 500 "Internal Server Error"
  | .notImplemented => strBuilder 501 "Not Implemented"
  | .unnamed => strBuilder 200 "OK"

/-- `http_content_type`. -/
inductive HttpContentType
  | textHtml
  | textPlain
  | textCss
  | applicationJavascript
  | applicationJson
  | applicationXml
  | multipartFormData
  | applicationOctetStream
  | imagePng
  | imageJpeg
  | uknown
  deriving DecidableEq, Repr

/-- `content_type_to_string`. -/
def contentTypeToString : HttpContentType → Bytes
  | .textHtml => lit "text/html"
  | .textPlain => lit "text/plain"
  | .textCss => lit "text/css"
  | .applicationJavascript => lit "application/javascript"
  | .applicationJson => lit "application/json"
  | .applicationXml => lit "application/xml"
  | .multipartFormData => lit "multipart/form-data"
  | .applicationOctetStream => lit "application/octet-stream"
  | .imagePng => lit "image/png"
  | .imageJpeg => lit "image/jpeg"
  | .uknown => lit "unknown"

/-- The loop of `http_headers_to_response_string` over the headers as they are met. -/
def responseString (pairs : List (Bytes × Bytes)) : Bytes :=
  pairs.foldl (fun response it => response ++ (it.1 ++ lit ": " ++ it.2 ++ lit "\r\n")) []

/-- `http_headers_to_response_string`. -/
def httpHeadersToResponseString (order : HashOrder) (headers : StringMap) : Bytes :=
  responseString (order.enum headers)

/-- `build_http_response`. -/
def buildHttpResponse (order : HashOrder) (headers : StringMap) (body : Bytes)
    (statusCode : HttpResponseCode) : Bytes :=
  let response := lit "HTTP/1.1 " ++ httpResponseCodeToString statusCode
  let response := response ++ httpHeadersToResponseString order headers
  let bodySize := toInt32 body.length
  if 0 < bodySize then
    if headers.lookup (lit "Content-Length") = none then
      response ++ (lit "Content-Length: " ++ decimalInt bodySize ++ lit "\r\n\r\n" ++ body)
    else response ++ (lit "\r\n" ++ body)
  else response

/-- `default_500_msg`. -/
def default500Msg : Bytes :=
  lit "HTTP/1.1 500 Not Found\r\n" ++ lit "Server: SimpleServer/1.0\r\n" ++
    lit "Connection: close\r\n\r\n"

/-- `http_response`, without the member `raw_response` that is never used. -/
structure HttpResponse where
  closeFd : Bool
  homePath : Bytes
  headers : StringMap
  body : Bytes
  statusCode : HttpResponseCode

namespace HttpResponse

/-- `http_response()`: the status code is not initialised and holds what the memory holds. -/
def default (memory : HttpResponseCode) : HttpResponse where
  closeFd := true
  homePath := lit "/var"
  headers := ∅
  body := []
  statusCode := memory

/-- `build_http_response()`. -/
def build (order : HashOrder) (r : HttpResponse) : Bytes :=
  buildHttpResponse order r.headers r.body r.statusCode

/-- `set_home_path`. -/
def setHomePath (p : Bytes) (r : HttpResponse) : HttpResponse := { r with homePath := p }

/-- `set_content_type`. -/
def setContentType (type : HttpContentType) (r : HttpResponse) : HttpResponse :=
  { r with headers := r.headers.insert (lit "Content-Type") (contentTypeToString type) }

/-- `set_body`. -/
def setBody (body : Bytes) (r : HttpResponse) : HttpResponse :=
  { r with
    headers := r.headers.insert (lit "Content-Length") (decimal body.length)
    body := body }

end HttpResponse

/-! ## Files -/

/-- What the operating system answers to the calls that open a path: the bytes that a stream on
it delivers, and the names that `readdir` lists. -/
structure FileSystem where
  openStream : Bytes → Option Bytes
  opendir : Bytes → Option (List Bytes)

/-- The loop of `list_dir` over the entries of a directory. `snprintf` finds an object where `%s`
asks for characters. -/
def listEntries (ret : List Bytes) : List Bytes → Except Exn (List Bytes)
  | [] => .ok ret
  | name :: entries =>
    if name = lit "." ∨ name = lit ".." then listEntries ret entries else .error .undefined

/-- `list_dir`. -/
def listDir (fs : FileSystem) (path : Bytes) : Except Exn (List Bytes) :=
  match fs.opendir path with
  | none => .ok [path]
  | some entries => listEntries [] entries

/-- `read_text_file`. -/
def readTextFile (fs : FileSystem) (src : Bytes) : Bytes :=
  match fs.openStream src with
  | some text => (lines text).flatMap (· ++ [lf])
  | none => []

/-- The local variable `fi` at the end of `render_text_file`. -/
def fileText (fs : FileSystem) (filename : Bytes) : Except Exn Bytes := do
  let fi := readTextFile fs filename
  if fi = [] then
    let directories ← listDir fs filename
    if 0 < directories.length then
      return directories.foldl (fun fi it => fi ++ (it ++ lit "\r\n")) fi
    else return lit "file could not be opened."
  else return fi

namespace HttpResponse

/-- `render_text_file`. -/
def renderTextFile (fs : FileSystem) (filename : Bytes) (r : HttpResponse) :
    Except Exn HttpResponse := do
  let fi ← fileText fs filename
  return { r with body := fi }

/-- `render_html_file`. -/
def renderHtmlFile (fs : FileSystem) (filename : Bytes) (r : HttpResponse) :
    Except Exn HttpResponse :=
  renderTextFile fs filename (setContentType .textHtml r)

end HttpResponse

/-! ### Listings -/

/-- The members of a directory. -/
def members (entries : List Bytes) : List Bytes :=
  entries.filter fun name => name ≠ lit "." ∧ name ≠ lit ".."

/-- The path has no text and is a directory with a member. -/
def ListsMember (fs : FileSystem) (filename : Bytes) : Prop :=
  readTextFile fs filename = [] ∧
    ∃ entries, fs.opendir filename = some entries ∧ members entries ≠ []

section Listing

variable {fs : FileSystem} {filename : Bytes}

theorem listEntries_eq (ret entries : List Bytes) :
    listEntries ret entries = if members entries = [] then .ok ret else .error .undefined := by
  induction entries with
  | nil => rfl
  | cons name entries ih =>
    rw [listEntries]
    split_ifs with hname hmembers hmembers
    · rw [ih, if_pos]
      rcases hname with rfl | rfl <;> exact hmembers
    · rw [ih, if_neg]
      rcases hname with rfl | rfl <;> exact hmembers
    · -- the entry is a member
      rw [not_or] at hname
      rw [members, List.filter_cons_of_pos (by simpa using hname)] at hmembers
      cases hmembers
    · rfl

theorem fileText_of_listsMember (h : ListsMember fs filename) :
    fileText fs filename = .error .undefined := by
  obtain ⟨hread, entries, hdir, hmembers⟩ := h
  have hlist : listDir fs filename = .error .undefined := by
    rw [listDir, hdir]
    exact (listEntries_eq [] entries).trans (if_neg hmembers)
  rw [fileText, hread, hlist]
  rfl

/-- The text is found unless a member would be listed. -/
theorem exists_fileText (h : ¬ ListsMember fs filename) : ∃ fi, fileText fs filename = .ok fi := by
  have hlist : readTextFile fs filename = [] →
      ∃ directories, listDir fs filename = .ok directories := by
    intro hread
    rw [listDir]
    cases hdir : fs.opendir filename with
    | none => exact ⟨_, rfl⟩
    | some entries =>
      refine ⟨[], (listEntries_eq [] entries).trans (if_pos ?_)⟩
      by_contra hmembers
      exact h ⟨hread, entries, hdir, hmembers⟩
  rw [fileText]
  by_cases hread : readTextFile fs filename = []
  · obtain ⟨directories, hdirectories⟩ := hlist hread
    simp only [hread, if_true, hdirectories, ok_bind]
    split_ifs
    · exact ⟨_, rfl⟩
    · exact ⟨_, rfl⟩
  · simp only [if_neg hread]
    exact ⟨_, rfl⟩

end Listing

end SimpleServer
