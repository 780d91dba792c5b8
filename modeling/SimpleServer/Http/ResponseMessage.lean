import SimpleServer.Http.Response
import SimpleServer.Foundations.Message

/-!
# Responses as messages

What `build_http_response` writes is a message with the headers of the map and, when the map has
no `Content-Length`, one more field for it; but only for a body whose length is positive as an
`int`. Without one the text ends behind the last header, with no empty line
(`buildHttpResponse_eq`). `buildHttpResponse_complete_iff` says when the text is a complete
message, and `contentLength_exact_iff` after which calls of the setters the length announced is
that of the body. No setter sets the status code, which no constructor sets either;
`build_memory_iff` says when two responses are the same all the same.
-/

namespace SimpleServer

open Cxx Http

/-- The name of the field that `build_http_response` looks up and `set_body` sets. -/
def contentLength : Bytes := lit "Content-Length"

/-- The first line of a response, without its CRLF. -/
def statusLine (statusCode : HttpResponseCode) : Bytes :=
  (lit "HTTP/1.1 " ++ httpResponseCodeToString statusCode).dropLast.dropLast

/-- The fields that `build_http_response` writes. -/
def responseFields (order : HashOrder) (headers : StringMap) (body : Bytes) :
    List (Bytes × Bytes) :=
  order.enum headers ++
    if headers.lookup contentLength = none ∧ 0 < toInt32 body.length then
      [(contentLength, decimalInt (toInt32 body.length))] else []

/-- The fields of a complete response: the headers, with a `Content-Length` when they have
none. -/
def completeFields (headers : StringMap) (body : Bytes) : List (Bytes × Bytes) :=
  (headers.entries.map fun e => (e.1, e.2)) ++
    if headers.lookup contentLength = none then [(contentLength, decimal body.length)] else []

theorem statusLine_crlf (statusCode : HttpResponseCode) :
    statusLine statusCode ++ crlf = lit "HTTP/1.1 " ++ httpResponseCodeToString statusCode := by
  cases statusCode <;> decide +kernel

theorem statusLine_ne_nil (statusCode : HttpResponseCode) : statusLine statusCode ≠ [] := by
  cases statusCode <;> decide +kernel

theorem oneLine_statusLine (statusCode : HttpResponseCode) : OneLine (statusLine statusCode) := by
  cases statusCode <;> decide +kernel

theorem responseString_eq (pairs : List (Bytes × Bytes)) :
    responseString pairs = (pairs.map fieldLine).flatMap (· ++ crlf) := by
  rw [responseString, ← List.flatMap_eq_foldl, List.flatMap_map, lit_crlf]
  rfl

theorem httpHeadersToResponseString_eq (order : HashOrder) (headers : StringMap) :
    httpHeadersToResponseString order headers =
      ((order.enum headers).map fieldLine).flatMap (· ++ crlf) := by
  rw [httpHeadersToResponseString, responseString_eq]

/-- **The text of a response**: a message when the length of the body is positive as an `int`,
and else the status line and the headers alone. -/
theorem buildHttpResponse_eq (order : HashOrder) (headers : StringMap) (body : Bytes)
    (statusCode : HttpResponseCode) :
    buildHttpResponse order headers body statusCode =
      if 0 < toInt32 body.length then
        (Message.mk (statusLine statusCode) (responseFields order headers body) body).render
      else (statusLine statusCode :: (order.enum headers).map fieldLine).flatMap (· ++ crlf) := by
  have hblank : lit "\r\n\r\n" = crlf ++ crlf := by decide
  have hcolon : lit "Content-Length: " = contentLength ++ lit ": " := by decide
  have hname : lit "Content-Length" = contentLength := rfl
  rw [buildHttpResponse, httpHeadersToResponseString_eq, ← statusLine_crlf, hblank, lit_crlf,
    hcolon, hname, Message.render, responseFields]
  by_cases hsize : 0 < toInt32 body.length
  · by_cases hlookup : headers.lookup contentLength = none
    · simp [hsize, hlookup, fieldLine]
    · simp [hsize, hlookup]
  · simp [hsize]

/-! ## Complete responses -/

/-- Names that are not empty and have no colon, and names and values on one line each. -/
def HeadersOk (headers : StringMap) : Prop :=
  ∀ name value, headers.lookup name = some value → FieldOk (name, value)

/-- A text that is a complete message: the status line, the headers in some order, one
`Content-Length` with the length of the body, an empty line and the body, which a receiver takes
apart into exactly these. -/
def Complete (headers : StringMap) (body : Bytes) (statusCode : HttpResponseCode)
    (text : Bytes) : Prop :=
  ∃ fields : List (Bytes × Bytes), fields.Perm (completeFields headers body) ∧
    (fields.map Prod.fst).Nodup ∧ (contentLength, decimal body.length) ∈ fields ∧
    text = (Message.mk (statusLine statusCode) fields body).render ∧
    receive text = some ⟨statusLine statusCode, fields, body⟩

section Complete

variable (order : HashOrder) {headers : StringMap} {body : Bytes}

theorem fieldOk_contentLength (n : ℕ) : FieldOk (contentLength, decimal n) :=
  have hname : contentLength ≠ [] ∧ colon ∉ contentLength ∧ OneLine contentLength := by decide
  ⟨hname.1, hname.2.1, hname.2.2, notMem_decimal (by decide), notMem_decimal (by decide)⟩

/-- The number of a positive `int` is written as that of a natural number. -/
theorem exists_decimalInt {z : ℤ} (h : 0 < z) :
    ∃ n : ℕ, (n : ℤ) = z ∧ decimalInt z = decimal n := by
  obtain ⟨n, rfl⟩ := Int.eq_ofNat_of_zero_le h.le
  exact ⟨n, rfl, rfl⟩

theorem fieldOk_responseFields (h : HeadersOk headers) :
    ∀ f ∈ responseFields order headers body, FieldOk f := by
  intro f hf
  rcases List.mem_append.mp hf with hf | hf
  · exact h f.1 f.2 ((order.mem_enum).mp hf)
  · split_ifs at hf with hc
    · obtain ⟨n, -, hn⟩ := exists_decimalInt hc.2
      rw [List.mem_singleton.mp hf, hn]
      exact fieldOk_contentLength n
    · simp at hf

theorem receive_responseFields (h : HeadersOk headers) (body : Bytes)
    (statusCode : HttpResponseCode) :
    receive (Message.mk (statusLine statusCode) (responseFields order headers body) body).render =
      some ⟨statusLine statusCode, responseFields order headers body, body⟩ :=
  Message.receive_render
    ⟨statusLine_ne_nil _, oneLine_statusLine _, fieldOk_responseFields order h⟩

theorem nodup_completeFields : ((completeFields headers body).map Prod.fst).Nodup := by
  have hkeys : (headers.entries.map fun e => (e.1, e.2)).map Prod.fst = headers.keys := by
    rw [List.map_map]
    rfl
  rw [completeFields, List.map_append, hkeys]
  split_ifs with h
  · rw [List.map_singleton, List.nodup_append]
    refine ⟨headers.keys_nodup, List.nodup_singleton _, ?_⟩
    rintro name hname _ hmem rfl
    rw [List.mem_singleton] at hmem
    subst hmem
    exact AList.lookup_eq_none.mp h (AList.mem_keys.mpr hname)
  · simpa using headers.keys_nodup

theorem contentLength_mem_completeFields
    (hlen : ∀ v, headers.lookup contentLength = some v → v = decimal body.length) :
    (contentLength, decimal body.length) ∈ completeFields headers body := by
  rw [completeFields, List.mem_append]
  cases h : headers.lookup contentLength with
  | none => simp
  | some v =>
    left
    rw [← hlen v h, List.mem_map]
    exact ⟨⟨contentLength, v⟩, AList.mem_lookup_iff.mp h, rfl⟩

/-- What is written is complete when the length of the body is an `int`, or the map holds it. -/
theorem responseFields_perm (hsize : 0 < toInt32 body.length)
    (h : body.length < 2 ^ 31 ∨ headers.lookup contentLength ≠ none) :
    (responseFields order headers body).Perm (completeFields headers body) := by
  refine (order.perm headers).append ?_
  by_cases hlookup : headers.lookup contentLength = none
  · have hlt := h.resolve_right (not_not.mpr hlookup)
    rw [if_pos ⟨hlookup, hsize⟩, if_pos hlookup, toInt32_of_lt hlt]
    rfl
  · rw [if_neg fun h => hlookup h.1, if_neg hlookup]

/-- A text without the empty line is shorter than any complete message. -/
theorem not_complete_of_size (hsize : ¬ 0 < toInt32 body.length) (statusCode : HttpResponseCode) :
    ¬ Complete headers body statusCode (buildHttpResponse order headers body statusCode) := by
  rintro ⟨fields, hperm, -, -, htext, -⟩
  rw [buildHttpResponse_eq, if_neg hsize, List.flatMap_cons, ← Message.fieldBytes] at htext
  have hlen := congrArg List.length htext
  have hfields := Message.length_fieldBytes_perm hperm
  have henum := Message.length_fieldBytes_perm (order.perm headers)
  have hcrlf : crlf.length = 2 := rfl
  rw [completeFields, Message.fieldBytes_append, List.length_append] at hfields
  rw [Message.length_render, List.length_append, List.length_append, hcrlf] at hlen
  simp only at hlen
  omega

/-- **When a response is a complete message.** For headers that fit the grammar, whose
`Content-Length`, if any, is the length of the body, `build_http_response` yields a complete
message exactly when the length of the body is positive as an `int` and either is below `2 ^ 31`
or is in the headers. -/
theorem buildHttpResponse_complete_iff (statusCode : HttpResponseCode) (h : HeadersOk headers)
    (hlen : ∀ v, headers.lookup contentLength = some v → v = decimal body.length) :
    Complete headers body statusCode (buildHttpResponse order headers body statusCode) ↔
      0 < toInt32 body.length ∧
        (body.length < 2 ^ 31 ∨ headers.lookup contentLength ≠ none) := by
  by_cases hsize : 0 < toInt32 body.length
  swap
  · exact ⟨fun hc => absurd hc (not_complete_of_size order hsize statusCode),
      fun hc => absurd hc.1 hsize⟩
  rw [buildHttpResponse_eq, if_pos hsize]
  have hreceive := receive_responseFields order h body statusCode
  constructor
  · rintro ⟨fields, hperm, -, hmem, -, hfields⟩
    refine ⟨hsize, ?_⟩
    by_contra hc
    rw [not_or, not_not] at hc
    -- the line that the code writes itself has the length as an `int`
    rw [hreceive, Option.some.injEq, Message.mk.injEq] at hfields
    rw [← hfields.2.1, responseFields, if_pos ⟨hc.2, hsize⟩, List.mem_append, order.mem_enum,
      hc.2, List.mem_singleton, Prod.mk.injEq] at hmem
    obtain ⟨n, hn, hdec⟩ := exists_decimalInt hsize
    have heq : decimal body.length = decimal n := by
      rw [← hdec]
      exact (hmem.resolve_left (by simp)).2
    rw [← decimal_injective heq] at hn
    exact hc.1 ((toInt32_eq_iff _).mp hn.symm)
  · rintro ⟨-, hc⟩
    have hperm := responseFields_perm order hsize hc
    refine ⟨_, hperm, ?_, ?_, rfl, hreceive⟩
    · exact ((hperm.map Prod.fst).nodup_iff).mpr nodup_completeFields
    · exact hperm.mem_iff.mpr (contentLength_mem_completeFields hlen)

end Complete

theorem headersOk_empty : HeadersOk ∅ := by
  intro name value h
  simp at h

theorem HeadersOk.insert {headers : StringMap} {name value : Bytes} (h : HeadersOk headers)
    (hf : FieldOk (name, value)) : HeadersOk (headers.insert name value) := by
  intro name' value' h'
  by_cases e : name' = name
  · subst e
    rw [AList.lookup_insert, Option.some.injEq] at h'
    rwa [← h']
  · rw [AList.lookup_insert_ne e] at h'
    exact h name' value' h'

/-- A page is a complete message. -/
theorem buildHttpResponse_page :
    Complete ((∅ : StringMap).insert (lit "Content-Type") (lit "text/html")) (lit "<p>") .ok
      (buildHttpResponse HashOrder.listed
        ((∅ : StringMap).insert (lit "Content-Type") (lit "text/html")) (lit "<p>") .ok) :=
  (buildHttpResponse_complete_iff HashOrder.listed .ok (headersOk_empty.insert (by decide))
    (by decide)).mpr ⟨by decide, Or.inl (by decide)⟩

/-- A response with an empty body has no empty line and no `Content-Length`. -/
theorem buildHttpResponse_empty_body :
    HeadersOk ∅ ∧ ¬ Complete ∅ [] .ok (buildHttpResponse HashOrder.listed ∅ [] .ok) :=
  ⟨headersOk_empty, not_complete_of_size HashOrder.listed (by decide) .ok⟩

/-! ## The length that the setters announce -/

/-- A call on a response. -/
inductive Setter
  | setBody (body : Bytes)
  | setContentType (type : HttpContentType)
  | renderTextFile (filename : Bytes)
  | renderHtmlFile (filename : Bytes)
  | setHomePath (p : Bytes)

namespace Setter

/-- The response after a call. -/
def apply (fs : FileSystem) (r : HttpResponse) : Setter → Except Exn HttpResponse
  | setBody body => .ok (r.setBody body)
  | setContentType type => .ok (r.setContentType type)
  | renderTextFile filename => r.renderTextFile fs filename
  | renderHtmlFile filename => r.renderHtmlFile fs filename
  | setHomePath p => .ok (r.setHomePath p)

/-- The call renders a path that has no text and is a directory with a member. -/
def Lists (fs : FileSystem) : Setter → Prop
  | renderTextFile filename => ListsMember fs filename
  | renderHtmlFile filename => ListsMember fs filename
  | _ => False

/-- The argument of `set_body`. -/
def argument : Setter → Option Bytes
  | setBody body => some body
  | _ => none

/-- The text that a call stores in the body. -/
def text (fs : FileSystem) : Setter → Option Bytes
  | setBody body => some body
  | renderTextFile filename => (fileText fs filename).toOption
  | renderHtmlFile filename => (fileText fs filename).toOption
  | _ => none

end Setter

/-- The response after a sequence of calls. -/
def applySetters (fs : FileSystem) (r : HttpResponse) (setters : List Setter) :
    Except Exn HttpResponse :=
  setters.foldlM (Setter.apply fs) r

/-- The argument of the last call of `set_body`. -/
def lastArgument (setters : List Setter) : Option Bytes := setters.reverse.findSome? Setter.argument

/-- The last text stored in the body. -/
def lastText (fs : FileSystem) (setters : List Setter) : Bytes :=
  (setters.reverse.findSome? (Setter.text fs)).getD []

/-- The places of a response in which setters store. -/
inductive Place
  | contentLength
  | contentType
  | body
  | homePath

namespace Place

/-- The text at a place, or `none` when the map has no such header. -/
def get (r : HttpResponse) : Place → Option Bytes
  | contentLength => r.headers.lookup (lit "Content-Length")
  | contentType => r.headers.lookup (lit "Content-Type")
  | body => some r.body
  | homePath => some r.homePath

/-- The text that a call stores at a place, or `none` when it stores nothing there. -/
def stored (fs : FileSystem) : Place → Setter → Option Bytes
  | contentLength, .setBody text => some (decimal text.length)
  | contentType, .setContentType type => some (contentTypeToString type)
  | contentType, .renderHtmlFile _ => some (contentTypeToString .textHtml)
  | body, s => s.text fs
  | homePath, .setHomePath p => some p
  | _, _ => none

/-- The text that the last of the calls that store at a place stores there. -/
def lastStored (fs : FileSystem) (place : Place) (setters : List Setter) : Option Bytes :=
  setters.reverse.findSome? (place.stored fs)

end Place

section Setters

variable {fs : FileSystem} {r r' : HttpResponse}

theorem exists_renderTextFile {filename : Bytes} (h : r.renderTextFile fs filename = .ok r') :
    ∃ fi, fileText fs filename = .ok fi ∧ r' = { r with body := fi } := by
  obtain ⟨fi, hfi, hr⟩ := exists_of_bind_eq_ok h
  cases hr
  exact ⟨fi, hfi, rfl⟩

/-- One call replaces the text at a place by the one that it stores. -/
theorem get_apply {s : Setter} (h : s.apply fs r = .ok r') (place : Place) :
    place.get r' = (place.stored fs s).or (place.get r) := by
  have hne : lit "Content-Length" ≠ lit "Content-Type" := by decide
  cases s with
  | setBody body =>
    cases h
    cases place <;> simp [Place.get, Place.stored, Setter.text, HttpResponse.setBody,
      AList.lookup_insert_ne hne.symm]
  | setContentType type =>
    cases h
    cases place <;> simp [Place.get, Place.stored, Setter.text, HttpResponse.setContentType,
      AList.lookup_insert_ne hne]
  | renderTextFile filename =>
    obtain ⟨fi, hfi, rfl⟩ := exists_renderTextFile h
    cases place <;> simp [Place.get, Place.stored, Setter.text, hfi, Except.toOption]
  | renderHtmlFile filename =>
    obtain ⟨fi, hfi, rfl⟩ := exists_renderTextFile h
    cases place <;> simp [Place.get, Place.stored, Setter.text, hfi, Except.toOption,
      HttpResponse.setContentType, AList.lookup_insert_ne hne]
  | setHomePath p =>
    cases h
    cases place <;> rfl

theorem applySetters_cons (s : Setter) (setters : List Setter) :
    applySetters fs r (s :: setters) = s.apply fs r >>= (applySetters fs · setters) :=
  List.foldlM_cons ..

/-- A sequence of calls. -/
theorem get_applySetters {setters : List Setter} (h : applySetters fs r setters = .ok r')
    (place : Place) : place.get r' = (place.lastStored fs setters).or (place.get r) := by
  induction setters generalizing r with
  | nil =>
    cases h
    rfl
  | cons s setters ih =>
    rw [applySetters_cons] at h
    obtain ⟨r₁, hfirst, hrest⟩ := exists_of_bind_eq_ok h
    rw [ih hrest, get_apply hfirst, Place.lastStored, Place.lastStored, List.reverse_cons,
      List.findSome?_append, List.findSome?_singleton, Option.or_assoc]

theorem body_applySetters {setters : List Setter} (h : applySetters fs r setters = .ok r') :
    r'.body = (setters.reverse.findSome? (Setter.text fs)).getD r.body := by
  have hbody : some r'.body = (setters.reverse.findSome? (Setter.text fs)).or (some r.body) :=
    get_applySetters h .body
  rw [Option.or_some] at hbody
  exact Option.some.inj hbody

theorem lookup_applySetters {setters : List Setter} (h : applySetters fs r setters = .ok r') :
    r'.headers.lookup contentLength =
      ((lastArgument setters).map fun t => decimal t.length).or
        (r.headers.lookup contentLength) := by
  have hstored : Place.stored fs .contentLength =
      Option.map (fun t => decimal t.length) ∘ Setter.argument := by
    funext s
    cases s <;> rfl
  rw [lastArgument, List.map_findSome?, ← hstored]
  exact get_applySetters h .contentLength

/-! ### Calls that return -/

theorem exists_apply_iff (r : HttpResponse) (s : Setter) :
    (∃ r', s.apply fs r = .ok r') ↔ ¬ s.Lists fs := by
  have hrender : ∀ (r : HttpResponse) (filename : Bytes),
      (∃ r', r.renderTextFile fs filename = .ok r') ↔ ¬ ListsMember fs filename := by
    intro r filename
    constructor
    · rintro ⟨r', h⟩ hlists
      obtain ⟨fi, hfi, -⟩ := exists_renderTextFile h
      rw [fileText_of_listsMember hlists] at hfi
      cases hfi
    · intro hlists
      obtain ⟨fi, hfi⟩ := exists_fileText hlists
      exact ⟨_, by rw [HttpResponse.renderTextFile, hfi]; rfl⟩
  cases s with
  | renderTextFile filename => exact hrender r filename
  | renderHtmlFile filename => exact hrender (r.setContentType .textHtml) filename
  | _ => exact iff_of_true ⟨_, rfl⟩ id

/-- A sequence of calls returns unless one of them lists a member. -/
theorem exists_applySetters_iff (r : HttpResponse) (setters : List Setter) :
    (∃ r', applySetters fs r setters = .ok r') ↔ ∀ s ∈ setters, ¬ s.Lists fs := by
  induction setters generalizing r with
  | nil => exact iff_of_true ⟨r, rfl⟩ (by simp)
  | cons s setters ih =>
    rw [List.forall_mem_cons, applySetters_cons, ← exists_apply_iff r s]
    constructor
    · rintro ⟨r', h⟩
      obtain ⟨r₁, hfirst, hrest⟩ := exists_of_bind_eq_ok h
      exact ⟨⟨r₁, hfirst⟩, (ih r₁).mp ⟨r', hrest⟩⟩
    · rintro ⟨⟨r₁, hfirst⟩, hlists⟩
      obtain ⟨r', hrest⟩ := (ih r₁).mpr hlists
      exact ⟨r', by rw [hfirst, ok_bind, hrest]⟩

end Setters

/-- The map has no `Content-Length` or that of the body, and every `Content-Length` that
`build_http_response()` writes is that of the body. -/
def LengthExact (order : HashOrder) (r : HttpResponse) : Prop :=
  (r.headers.lookup contentLength = none ∨
    r.headers.lookup contentLength = some (decimal r.body.length)) ∧
  ∀ v, (contentLength, v) ∈ responseFields order r.headers r.body → v = decimal r.body.length

theorem mem_responseFields (order : HashOrder) (headers : StringMap) (body v : Bytes) :
    (contentLength, v) ∈ responseFields order headers body ↔
      headers.lookup contentLength = some v ∨
        (headers.lookup contentLength = none ∧ 0 < toInt32 body.length ∧
          v = decimalInt (toInt32 body.length)) := by
  rw [responseFields, List.mem_append, order.mem_enum]
  split_ifs with h
  · simp [h]
  · simp only [List.not_mem_nil, or_false]
    exact ⟨Or.inl, fun hc => hc.resolve_right fun h' => h ⟨h'.1, h'.2.1⟩⟩

/-- The length announced by calls that return. -/
theorem lengthExact_iff (order : HashOrder) {fs : FileSystem} {memory : HttpResponseCode}
    {setters : List Setter} {r : HttpResponse}
    (h : applySetters fs (.default memory) setters = .ok r) :
    LengthExact order r ↔
      (∀ t, lastArgument setters = some t → (lastText fs setters).length = t.length) ∧
      (lastArgument setters = none →
        toInt32 (lastText fs setters).length ≤ 0 ∨ (lastText fs setters).length < 2 ^ 31) := by
  have hbody : r.body = lastText fs setters := body_applySetters h
  have hlookup := lookup_applySetters h
  have hnone : (HttpResponse.default memory).headers.lookup contentLength = none := rfl
  rw [hnone, Option.or_none] at hlookup
  simp only [LengthExact, mem_responseFields, hbody, hlookup]
  generalize lastText fs setters = body
  cases lastArgument setters with
  | none =>
    -- the length written is that of the body as an `int`
    constructor
    · rintro ⟨-, h⟩
      refine ⟨by simp, fun _ => ?_⟩
      by_contra hc
      rw [not_or, not_le] at hc
      obtain ⟨n, hn, hdec⟩ := exists_decimalInt hc.1
      have heq := h _ (Or.inr ⟨rfl, hc.1, rfl⟩)
      rw [hdec] at heq
      rw [decimal_injective heq] at hn
      exact hc.2 ((toInt32_eq_iff _).mp hn.symm)
    · rintro ⟨-, h⟩
      refine ⟨Or.inl rfl, ?_⟩
      rintro v (hv | ⟨-, hsize, hv⟩)
      · simp at hv
      · rw [hv, toInt32_of_lt ((h rfl).resolve_left (not_le.mpr hsize))]
        rfl
  | some t =>
    -- the length written is that of the last argument
    constructor
    · rintro ⟨h, -⟩
      refine ⟨fun t' ht' => ?_, by simp⟩
      rw [Option.some.injEq] at ht'
      have heq := h.resolve_left (by simp)
      rw [Option.map_some, Option.some.injEq] at heq
      rw [← ht', decimal_injective heq]
    · rintro ⟨h, -⟩
      rw [h t rfl]
      refine ⟨Or.inr rfl, ?_⟩
      rintro v (hv | ⟨hv, -⟩)
      · simpa using hv.symm
      · simp at hv

/-- **When the announced length is that of the body.** After any sequence of calls on a default
response, the calls return and the length announced is that of the body exactly when no call lists
a member of a directory and the last text stored in the body has the length of the argument of the
last `set_body`, or, without a call of `set_body`, when its length as an `int` is not positive or is
exact. -/
theorem contentLength_exact_iff (order : HashOrder) (fs : FileSystem) (memory : HttpResponseCode)
    (setters : List Setter) :
    (∃ r, applySetters fs (.default memory) setters = .ok r ∧ LengthExact order r) ↔
      (∀ s ∈ setters, ¬ s.Lists fs) ∧
      (∀ t, lastArgument setters = some t → (lastText fs setters).length = t.length) ∧
      (lastArgument setters = none →
        toInt32 (lastText fs setters).length ≤ 0 ∨ (lastText fs setters).length < 2 ^ 31) := by
  rw [← exists_applySetters_iff (.default memory) setters]
  constructor
  · rintro ⟨r, h, hexact⟩
    exact ⟨⟨r, h⟩, (lengthExact_iff order h).mp hexact⟩
  · rintro ⟨⟨r, h⟩, hexact⟩
    exact ⟨r, h, (lengthExact_iff order h).mpr hexact⟩

/-- One path that can be opened: a file. -/
def oneFile (path text : Bytes) : FileSystem where
  openStream src := if src = path then some text else none
  opendir _ := none

/-- A text file of six bytes behind a body of two: the map still says two. -/
theorem contentLength_stale :
    ¬ ∃ r, applySetters (oneFile (lit "a.txt") (lit "hello\n")) (.default .ok)
        [.setBody (lit "ab"), .renderTextFile (lit "a.txt")] = .ok r ∧
      LengthExact HashOrder.listed r := by
  rintro ⟨r, h, hexact, -⟩
  cases h
  exact absurd hexact (by decide +kernel)

/-! ## The memory that no constructor sets -/

/-- The two values of `status_code` have one name, or each is 200 or has none. -/
def SameStatus (memory₁ memory₂ : HttpResponseCode) : Prop :=
  memory₁ = memory₂ ∨
    ((memory₁ = .ok ∨ memory₁ = .unnamed) ∧ (memory₂ = .ok ∨ memory₂ = .unnamed))

instance (memory₁ memory₂ : HttpResponseCode) : Decidable (SameStatus memory₁ memory₂) :=
  inferInstanceAs (Decidable (_ ∨ _))

/-- All values of an `http_response_code`. -/
def responseCodes : List HttpResponseCode :=
  [.continue, .switchingProtocols, .ok, .created, .accepted, .movedPermanently, .found, .seeOther,
    .badRequest, .unauthorized, .forbidden, .notFound, .internalServerError, .notImplemented,
    .unnamed]

theorem mem_responseCodes (statusCode : HttpResponseCode) : statusCode ∈ responseCodes := by
  cases statusCode <;> decide

/-- The text of a status code tells apart all codes but 200 and those without a name. -/
theorem httpResponseCodeToString_eq_iff (memory₁ memory₂ : HttpResponseCode) :
    httpResponseCodeToString memory₁ = httpResponseCodeToString memory₂ ↔
      SameStatus memory₁ memory₂ := by
  have hall : ∀ c₁ ∈ responseCodes, ∀ c₂ ∈ responseCodes,
      (httpResponseCodeToString c₁ = httpResponseCodeToString c₂ ↔ SameStatus c₁ c₂) := by
    decide +kernel
  exact hall _ (mem_responseCodes memory₁) _ (mem_responseCodes memory₂)

/-- The status code stands in the first line alone. -/
theorem buildHttpResponse_append (order : HashOrder) (headers : StringMap) (body : Bytes) :
    ∃ rest, ∀ statusCode, buildHttpResponse order headers body statusCode =
      lit "HTTP/1.1 " ++ httpResponseCodeToString statusCode ++ rest := by
  simp only [buildHttpResponse]
  split_ifs
  · exact ⟨_, fun _ => List.append_assoc ..⟩
  · exact ⟨_, fun _ => List.append_assoc ..⟩
  · exact ⟨_, fun _ => rfl⟩

/-- The response with another status code. -/
def HttpResponse.withStatus (memory : HttpResponseCode) (r : HttpResponse) : HttpResponse :=
  { r with statusCode := memory }

/-- One call of a setter leaves the status code as it is, and what it does to the other members
does not depend on it. -/
theorem apply_statusCode (fs : FileSystem) (r : HttpResponse) (memory : HttpResponseCode)
    (s : Setter) : s.apply fs (r.withStatus memory) =
      (s.apply fs r).map (HttpResponse.withStatus memory) := by
  cases s with
  | renderTextFile filename =>
    rw [Setter.apply, Setter.apply, HttpResponse.renderTextFile, HttpResponse.renderTextFile]
    cases fileText fs filename <;> rfl
  | renderHtmlFile filename =>
    rw [Setter.apply, Setter.apply, HttpResponse.renderHtmlFile, HttpResponse.renderHtmlFile,
      HttpResponse.renderTextFile, HttpResponse.renderTextFile]
    cases fileText fs filename <;> rfl
  | _ => rfl

theorem applySetters_statusCode (fs : FileSystem) (r : HttpResponse) (memory : HttpResponseCode)
    (setters : List Setter) : applySetters fs (r.withStatus memory) setters =
      (applySetters fs r setters).map (HttpResponse.withStatus memory) := by
  induction setters generalizing r with
  | nil => rfl
  | cons s setters ih =>
    rw [applySetters_cons, applySetters_cons, apply_statusCode]
    cases s.apply fs r with
    | error e => rfl
    | ok r₁ => exact ih r₁

/-- The memory goes into the text as it is. -/
theorem build_applySetters (order : HashOrder) (fs : FileSystem) (memory : HttpResponseCode)
    (setters : List Setter) :
    (applySetters fs (.default memory) setters).map (HttpResponse.build order) =
      (applySetters fs (.default .ok) setters).map fun r =>
        buildHttpResponse order r.headers r.body memory := by
  have h : applySetters fs (.default memory) setters =
      (applySetters fs (.default .ok) setters).map (HttpResponse.withStatus memory) :=
    applySetters_statusCode fs (.default .ok) memory setters
  rw [h]
  cases applySetters fs (.default .ok) setters with
  | error e => simp only [Except.map]
  | ok r => simp only [Except.map, HttpResponse.build, HttpResponse.withStatus]

/-- **When the response does not depend on the memory.** Two responses of which the memory held
any two values, after the same calls of setters, are built to the same bytes exactly when no call
lists a member of a directory and these values have one name, or each is 200 or has none. -/
theorem build_memory_iff (order : HashOrder) (fs : FileSystem) (setters : List Setter)
    (memory₁ memory₂ : ℤ) :
    (∃ bytes,
      (applySetters fs (.default (.ofInt memory₁)) setters).map (HttpResponse.build order) =
          .ok bytes ∧
        (applySetters fs (.default (.ofInt memory₂)) setters).map (HttpResponse.build order) =
          .ok bytes) ↔
      (∀ s ∈ setters, ¬ s.Lists fs) ∧ SameStatus (.ofInt memory₁) (.ofInt memory₂) := by
  rw [build_applySetters, build_applySetters, ← exists_applySetters_iff (.default .ok) setters]
  cases applySetters fs (.default .ok) setters with
  | error e =>
    refine iff_of_false ?_ ?_
    · rintro ⟨bytes, h, -⟩
      cases h
    · rintro ⟨⟨r, h⟩, -⟩
      cases h
  | ok r =>
    obtain ⟨rest, hrest⟩ := buildHttpResponse_append order r.headers r.body
    rw [and_iff_right ⟨r, rfl⟩, ← httpResponseCodeToString_eq_iff]
    simp only [Except.map, Except.ok.injEq, hrest]
    constructor
    · rintro ⟨bytes, h₁, h₂⟩
      exact List.append_cancel_left (List.append_cancel_right (h₁.trans h₂.symm))
    · intro h
      exact ⟨_, rfl, by rw [h]⟩

/-- Memory that holds 404, and memory that holds zero. -/
theorem build_memory_differs :
    ¬ ∀ (setters : List Setter) (memory₁ memory₂ : ℤ), ∃ bytes,
      (applySetters (oneFile [] []) (.default (.ofInt memory₁)) setters).map
            (HttpResponse.build .listed) = .ok bytes ∧
        (applySetters (oneFile [] []) (.default (.ofInt memory₂)) setters).map
            (HttpResponse.build .listed) = .ok bytes := by
  intro h
  obtain ⟨bytes, h₁, h₂⟩ := h [] 404 0
  have heq : (HttpResponse.default .notFound).build .listed =
      (HttpResponse.default .unnamed).build .listed :=
    Except.ok.inj (h₁.trans h₂.symm)
  exact absurd heq (by decide +kernel)

end SimpleServer
