import SimpleServer.Foundations.Bytes
import Mathlib.Data.List.AList

/-!
# The parsing of a request

The functions of `http_handler.cpp` that take a request apart; `simple_server_utils.cpp` and
`simple_server_http_connection.cpp` hold the same text in the namespace `simple_server`. A
`std::unordered_map` from strings is an association list without repeated keys; the order of
its entries is never used here.

`parseHttpRequestVerb_eq_iff` says when the verb found is the one that the request's method
token names: the function searches the whole request, and a verb tested earlier wins wherever
it occurs. `extractBody_iff` says when the body found is what stands behind the header section.
-/

namespace SimpleServer

open Cxx

/-- `string_map`. -/
abbrev StringMap := AList fun _ : Bytes => Bytes

/-- `request_verb`. -/
inductive RequestVerb
  | get
  | post
  | put
  | delete
  | options
  deriving DecidableEq, Repr

/-- `http_request`, without the member `fd` that is never set. -/
structure HttpRequest where
  requestVerbId : RequestVerb
  strVerb : Bytes
  url : Bytes
  headers : StringMap
  queryParams : StringMap
  body : Bytes

/-! ## `split_words` -/

/-- The body of the loop up to `iter++`, on a character and the next one: the word so far and the
words found. -/
def splitWordsBody (sp c next : UInt8) (str : Bytes) (ret : List Bytes) : Bytes × List Bytes :=
  if c ≠ sp then (str ++ [c], ret)
  else if str ≠ [] then
    if c = sp then ([], ret ++ [str])
    else if next = sp then ([], ret ++ [str ++ [c]])
    else (str, ret)
  else (str, ret)

/-- The loop of `split_words` on the characters from the place `iter` on. There is no next `int`
behind `2 ^ 31 - 1`. -/
def splitWordsIntLoop (sp : UInt8) : Bytes → ℕ → Bytes → List Bytes → Except Exn (List Bytes)
  | [], _, str, ret => .ok (if str ≠ [] then ret ++ [str] else ret)
  | c :: word, iter, str, ret =>
    if c = 0 then .ok (if str ≠ [] then ret ++ [str] else ret)
    else
      let (str, ret) := splitWordsBody sp c (word.headD 0) str ret
      if iter = 2 ^ 31 - 1 then .error .undefined
      else splitWordsIntLoop sp word (iter + 1) str ret

/-- `split_words`, with its `int` as the place in the string. -/
def splitWordsInt (word : Bytes) (sp : UInt8) : Except Exn (List Bytes) :=
  splitWordsIntLoop sp word 0 [] []

/-! ## The request line -/

/-- `extract_http_verb`. -/
def extractHttpVerb (request : Bytes) : Bytes := substrFront request (findChar space request)

/-- `extract_url_with_query_params`. -/
def extractUrlWithQueryParams (request : Bytes) : Except Exn Bytes := do
  let firstSpace := posToInt (findChar space request)
  let findHttpVersion := posToInt (find (lit " HTTP/1.1") request)
  let start ← intResult (firstSpace + 1)
  let count ← intResult (findHttpVersion - start)
  substr request (toSizeT start) (some (toSizeT count))

/-- `extract_url`. -/
def extractUrl (request : Bytes) : Except Exn Bytes :=
  match extractUrlWithQueryParams request with
  | .error e => .error e
  | .ok url =>
    match findChar 63 url with
    | some n => .ok (substrFront url (some n))
    | none => .ok url

/-- `extract_body`, whose first `return` is unconditional. -/
def extractBody (_str : Bytes) : Bytes := lit " "

/-- `parse_url_params`; a piece that does not split into a key and a value is read out of
bounds. -/
def parseUrlParams (url : Bytes) : Except Exn StringMap :=
  match findChar 63 url with
  | none => .ok ∅
  | some pos => do
    let paramList ← substr url (pos + 1) (some (url.length - pos))
    let vars ← splitWordsInt paramList 59
    vars.foldlM (fun ret var => do
      let keyPairs ← splitWordsInt var 61
      match keyPairs with
      | key :: value :: _ => .ok (ret.insert key value)
      | _ => .error .undefined) ∅

/-- `parse_http_request_verb`. -/
def parseHttpRequestVerb (buffer : Bytes) : RequestVerb :=
  let testStr := toLowerCase buffer
  if contains (lit "get") testStr then .get
  else if contains (lit "post") testStr then .post
  else if contains (lit "put") testStr then .put
  else .get

/-! ## The headers -/

/-- The five `erase` calls on a header value. -/
def trimValue (value : Bytes) : Bytes :=
  let value := eraseFront value (findFirstNotOf (lit " \t") value)
  let value := eraseBehind value (findLastNotOf (lit " \t") value)
  let value := eraseFront value (findFirstNotOf [cr] value)
  let value := eraseFront value (findFirstNotOf [lf] value)
  eraseBehind value (findLastNotOf crlf value)

/-- The calls of `erase` as what they drop at the two ends. -/
theorem trimValue_eq (value : Bytes) :
    trimValue value =
      ((((value.dropWhile (lit " \t").contains).rdropWhile (lit " \t").contains).dropWhile
        [cr].contains).dropWhile [lf].contains).rdropWhile crlf.contains := by
  simp only [trimValue, eraseFront_findFirstNotOf, eraseBehind_findLastNotOf]

/-- The body of the loop of `parse_headers`. -/
def headerLine (headers : StringMap) (line : Bytes) : Except Exn StringMap :=
  match findChar colon line with
  | none => .ok headers
  | some colonPos =>
    let headerName := substrFront line (some colonPos)
    match substr line (colonPos + 2) none with
    | .error e => .error e
    | .ok headerValue => .ok (headers.insert headerName (trimValue headerValue))

/-- The loop of `parse_headers` on the lines that `std::getline` extracts. -/
def headerLoop (headers : StringMap) : List Bytes → Except Exn StringMap
  | [] => .ok headers
  | line :: rest =>
    if line = [] then .ok headers
    else match headerLine headers line with
      | .error e => .error e
      | .ok headers => headerLoop headers rest

/-- `parse_headers`: the request line is read first and dropped. -/
def parseHeaders (request : Bytes) : Except Exn StringMap := headerLoop ∅ (lines request).tail

/-! ## The local variables -/

/-- The local variables of `handle_connection_request` behind the parsing. -/
structure Parsed where
  httpVerb : Bytes
  requestVerb : RequestVerb
  urlDynamicPath : Bytes
  url : Bytes
  headers : StringMap
  queryParams : StringMap
  body : Bytes

/-- The calls of `handle_connection_request` that take the text of a request apart. -/
def parse (strRequest : Bytes) : Except Exn Parsed := do
  let urlDynamicPath ← extractUrlWithQueryParams strRequest
  let url ← extractUrl strRequest
  let headers ← parseHeaders strRequest
  let queryParams ← parseUrlParams urlDynamicPath
  return {
    httpVerb := extractHttpVerb strRequest
    requestVerb := parseHttpRequestVerb strRequest
    urlDynamicPath := urlDynamicPath
    url := url
    headers := headers
    queryParams := queryParams
    body := extractBody strRequest }

/-! ## The verb of a request -/

/-- The lower-case token that `parse_http_request_verb` searches for a verb. -/
def methodToken : RequestVerb → Bytes
  | .get => lit "get"
  | .post => lit "post"
  | .put => lit "put"
  | .delete => lit "delete"
  | .options => lit "options"

/-- The text of a request after its method token. -/
def afterVerb (request : Bytes) : Bytes := request.drop (extractHttpVerb request).length

theorem extractHttpVerb_append_afterVerb (request : Bytes) :
    extractHttpVerb request ++ afterVerb request = request := by
  unfold afterVerb extractHttpVerb substrFront
  generalize (findChar space request).getD request.length = n
  rw [List.length_take]
  rcases le_total n request.length with h | h
  · rw [Nat.min_eq_left h, List.take_append_drop]
  · rw [Nat.min_eq_right h, List.take_of_length_le h, List.drop_length, List.append_nil]

/-- What follows the method token is empty or begins with the space that ended it. -/
theorem afterVerb_eq (request : Bytes) :
    afterVerb request = [] ∨ ∃ t, afterVerb request = space :: t := by
  unfold afterVerb extractHttpVerb substrFront findChar
  cases h : request.findIdx? (· == space) with
  | none => simp
  | some n =>
    obtain ⟨hn, hs, -⟩ := List.findIdx?_eq_some_iff_getElem.mp h
    right
    rw [Option.getD_some, List.length_take, Nat.min_eq_left hn.le, List.drop_eq_getElem_cons hn]
    exact ⟨_, by rw [beq_iff_eq.mp hs]⟩

/-- A token without a space occurs in a request where it occurs in the method or after it. -/
theorem infix_toLowerCase_iff {p : Bytes} (hp : p ≠ []) (hs : space ∉ p) (request : Bytes) :
    p <:+: toLowerCase request ↔ p <:+: toLowerCase (extractHttpVerb request) ∨
      p <:+: toLowerCase (afterVerb request) := by
  have key : toLowerCase request =
      toLowerCase (extractHttpVerb request) ++ toLowerCase (afterVerb request) := by
    rw [toLowerCase, toLowerCase, toLowerCase, ← List.map_append,
      extractHttpVerb_append_afterVerb]
  have hnil : ¬ p <:+: [] := fun h => hp (List.infix_nil.mp h)
  rw [key]
  rcases afterVerb_eq request with h | ⟨t, h⟩
  · rw [h]
    simp [toLowerCase, hp]
  · have e : toLowerCase (afterVerb request) = space :: toLowerCase t := by rw [h]; rfl
    have e' := infix_append_cons_iff hs [] (toLowerCase t)
    rw [List.nil_append] at e'
    rw [e, infix_append_cons_iff hs, e']
    simp [hnil]

/-- **When the verb is the one named by the method token.** For a request whose method token is,
in any letter case, that of a verb the server knows, `parse_http_request_verb` finds that verb
exactly when no verb tested before it occurs, in any letter case, in the text after the
token. -/
theorem parseHttpRequestVerb_eq_iff (request : Bytes) (verb : RequestVerb)
    (hverb : verb = .get ∨ verb = .post ∨ verb = .put)
    (hmethod : toLowerCase (extractHttpVerb request) = methodToken verb) :
    parseHttpRequestVerb request = verb ↔
      (verb = .post ∨ verb = .put → ¬ lit "get" <:+: toLowerCase (afterVerb request)) ∧
      (verb = .put → ¬ lit "post" <:+: toLowerCase (afterVerb request)) := by
  have hget := infix_toLowerCase_iff (p := lit "get") (by decide) (by decide) request
  have hpost := infix_toLowerCase_iff (p := lit "post") (by decide) (by decide) request
  have hput := infix_toLowerCase_iff (p := lit "put") (by decide) (by decide) request
  rw [hmethod] at hget hpost hput
  simp only [parseHttpRequestVerb, contains_iff, hget, hpost, hput]
  have g1 : ¬ lit "get" <:+: lit "post" := by decide
  have g2 : ¬ lit "get" <:+: lit "put" := by decide
  have g3 : ¬ lit "post" <:+: lit "put" := by decide
  rcases hverb with rfl | rfl | rfl
  · simp [methodToken]
  · simp [methodToken, g1]
  · by_cases a : lit "get" <:+: toLowerCase (afterVerb request) <;>
      by_cases b : lit "post" <:+: toLowerCase (afterVerb request) <;>
      simp [methodToken, g2, g3, a, b]

/-- A request to post a form is a POST, as no `get` follows its method. -/
theorem parseHttpRequestVerb_post_form :
    parseHttpRequestVerb (lit "Post /form HTTP/1.1") = .post := by
  refine (parseHttpRequestVerb_eq_iff (lit "Post /form HTTP/1.1") .post (Or.inr (Or.inl rfl))
    (by decide)).mpr ⟨fun _ => ?_, fun h => ?_⟩
  · decide
  · cases h

/-- The URL of a POST turns it into a GET. -/
theorem parseHttpRequestVerb_widget :
    toLowerCase (extractHttpVerb (lit "POST /widget HTTP/1.1")) = methodToken .post ∧
      parseHttpRequestVerb (lit "POST /widget HTTP/1.1") = .get := by
  decide

/-! ## The body of a request -/

/-- **When `extract_body` finds the body.** For every request: the function returns the text
behind the first blank line, and nothing when there is no blank line, if and only if that text is
a single space. -/
theorem extractBody_iff (request : Bytes) :
    ((∀ head body, request = head ++ blankLine ++ body →
        find blankLine request = some head.length → extractBody request = body) ∧
      (¬ blankLine <:+: request → extractBody request = [])) ↔
    ∃ head, request = head ++ blankLine ++ [space] ∧
      find blankLine request = some head.length := by
  constructor
  · rintro ⟨hbody, hnone⟩
    cases hfind : find blankLine request with
    | none => cases hnone ((find_eq_none_iff _ _).mp hfind)
    | some n =>
      obtain ⟨head, body, hrequest, rfl⟩ := exists_of_find hfind
      refine ⟨head, ?_, rfl⟩
      rw [hrequest, ← hbody head body hrequest hfind]
      rfl
  · rintro ⟨head, hrequest, hfind⟩
    refine ⟨fun head' body hrequest' hfind' => ?_, fun hnot => ?_⟩
    · have hlen : head.length = head'.length := Option.some.inj (hfind.symm.trans hfind')
      rw [hrequest, List.append_assoc, List.append_assoc] at hrequest'
      obtain ⟨-, htail⟩ := List.append_inj hrequest' hlen
      exact List.append_cancel_left htail
    · rw [(find_eq_none_iff _ _).mpr hnot] at hfind
      cases hfind

/-- The body of a POST is not returned, and neither is that of a request without one. -/
theorem not_extractBody :
    ¬ ∀ request : Bytes,
      (∀ head body, request = head ++ blankLine ++ body →
        find blankLine request = some head.length → extractBody request = body) ∧
      (¬ blankLine <:+: request → extractBody request = []) := by
  intro h
  obtain ⟨hbody, -⟩ := h (lit "POST / HTTP/1.1" ++ blankLine ++ lit "a=1")
  exact absurd (hbody (lit "POST / HTTP/1.1") (lit "a=1") rfl (by decide)) (by decide)

end SimpleServer
