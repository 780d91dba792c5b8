import SimpleServer.Http.Server
import SimpleServer.Http.Target

/-!
# Requests in segments

`received_str` calls `recv` once, for 2048 bytes, and reads what it has stored as a text that ends
at the first NUL (`receivedText_eq_iff`). `handleConnectionRequest_eq` separates the building of
the request from what is done with it, and `builtRequest_whole_iff` says for which lists of segment
lengths every request is built as from its whole text: the first segment has all the bytes, fewer
than 2048.
-/

namespace SimpleServer

open Cxx Posix

/-- The request that `handle_connection_request` builds from a text; none from the empty one. -/
def requestOf (strRequest : Bytes) : Except Exn (Option HttpRequest) :=
  if strRequest = [] then .ok none else (parseRequest strRequest).map some

/-- The request that `handle_connection_request` builds from the answers of a descriptor. -/
def builtRequest (q : Inbox) : Except Exn (Option HttpRequest) := receivedText q >>= requestOf

/-- What `handle_connection_request` does with the request that it has built. -/
def answerRequest (platform : Platform) (routes : RoutesMap) (connection : ℤ)
    (request : HttpRequest) (w : World) : Except Exn World := do
  let upgraded :=
    if isWebsocket request.headers then
      addNewConnectionConnection platform connection request.headers w
    else (false, w)
  if upgraded.1 then return upgraded.2
  else
    let answer ← respond platform routes request
    let k := w.kernel.send connection answer.1
    return { w with kernel := if answer.2 then k.close connection else k }

/-- The answers of the descriptor decide nothing but the request. -/
theorem handleConnectionRequest_eq (platform : Platform) (routes : RoutesMap) (connection : ℤ)
    (w : World) :
    handleConnectionRequest platform routes connection w =
      builtRequest (w.kernel.inbox connection) >>= fun request =>
        let w := { w with kernel := (w.kernel.recv connection 2048).2 }
        match request with
        | none => return w
        | some request => answerRequest platform routes connection request w := by
  rw [handleConnectionRequest, builtRequest, receivedStr]
  rcases receivedText (w.kernel.inbox connection) with e | strRequest
  · rfl
  · by_cases hnil : strRequest = []
    · subst hnil
      rfl
    · change (if strRequest = [] then _ else _) = (requestOf strRequest >>= _)
      rw [if_neg hnil, requestOf, if_neg hnil]
      cases parseRequest strRequest with
      | error e => rfl
      | ok request => rfl

/-! ## Equal requests -/

/-- Do two requests look the same to a handler. -/
structure HttpRequest.Same (r r' : HttpRequest) : Prop where
  requestVerbId : r.requestVerbId = r'.requestVerbId
  strVerb : r.strVerb = r'.strVerb
  url : r.url = r'.url
  headers : ∀ name, r.headers.lookup name = r'.headers.lookup name
  queryParams : ∀ key, r.queryParams.lookup key = r'.queryParams.lookup key
  body : r.body = r'.body

theorem HttpRequest.Same.refl (r : HttpRequest) : r.Same r :=
  ⟨rfl, rfl, rfl, fun _ => rfl, fun _ => rfl, rfl⟩

/-- Is the same built twice: no request, the same request or the same exception. -/
def SameBuilt : Except Exn (Option HttpRequest) → Except Exn (Option HttpRequest) → Prop
  | .ok none, .ok none => True
  | .ok (some r), .ok (some r') => r.Same r'
  | .error e, .error e' => e = e'
  | _, _ => False

theorem SameBuilt.refl (b : Except Exn (Option HttpRequest)) : SameBuilt b b := by
  rcases b with e | _ | r
  · exact rfl
  · trivial
  · exact HttpRequest.Same.refl r

theorem SameBuilt.url {b b' : Except Exn (Option HttpRequest)} (h : SameBuilt b b') :
    b.map (Option.map HttpRequest.url) = b'.map (Option.map HttpRequest.url) := by
  rcases b with e | _ | r <;> rcases b' with e' | _ | r'
  case error.error => exact congrArg Except.error h
  case ok.none.ok.none => rfl
  case ok.some.ok.some => exact congrArg (fun url => Except.ok (some url)) (HttpRequest.Same.url h)
  all_goals exact h.elim

/-! ## One call of `recv` -/

theorem takeWhile_ne_nul_eq_iff (s : Bytes) : s.takeWhile (· ≠ 0) = s ↔ 0 ∉ s := by
  rw [List.takeWhile_eq_self_iff]
  constructor
  · exact fun h hmem => by simpa using h 0 hmem
  · intro hnul c hc
    rw [decide_eq_true_eq]
    rintro rfl
    exact hnul hc

/-- A first segment of fewer than 2048 bytes, without NUL, is the text. -/
theorem receivedText_of_lt {s : Bytes} (hs : s.length < 2048) (hnul : 0 ∉ s) (q : Inbox) :
    receivedText (some s :: q) = .ok s := by
  have hrecv : (Inbox.recv 2048 (some s :: q)).1 = some s := by
    rw [Inbox.recv, if_pos hs.le]
  simp only [receivedText, hrecv, (takeWhile_ne_nul_eq_iff s).mpr hnul]
  rw [if_neg (by omega)]

/-- **When `received_str` returns what was received.** For all bytes that `recv` stores: the text
is exactly these bytes if and only if none of them is NUL and they do not fill the buffer. -/
theorem receivedText_eq_iff (q : Inbox) (bytes : Bytes)
    (hrecv : (Inbox.recv 2048 q).1 = some bytes) :
    receivedText q = .ok bytes ↔ 0 ∉ bytes ∧ bytes.length < 2048 := by
  have hlen : bytes.length ≤ 2048 := Inbox.recv_length_le (Prod.ext hrecv rfl)
  simp only [receivedText, hrecv]
  split_ifs with hfull
  · apply iff_of_false
    · intro h
      cases h
    · exact fun h => h.2.ne hfull.1
  · rw [Except.ok.injEq, takeWhile_ne_nul_eq_iff]
    constructor
    · exact fun hnul => ⟨hnul, lt_of_le_of_ne hlen fun e => hfull ⟨e, hnul⟩⟩
    · exact And.left

/-- A segment without NUL. -/
theorem receivedText_get : receivedText [some (lit "GET")] = .ok (lit "GET") :=
  (receivedText_eq_iff [some (lit "GET")] (lit "GET") rfl).mpr (by decide)

/-- What follows a NUL is lost. -/
theorem not_receivedText_nul :
    ¬ ∀ (q : Inbox) (bytes : Bytes), (Inbox.recv 2048 q).1 = some bytes → 1 ≤ bytes.length →
      receivedText q = .ok bytes := by
  intro h
  have htext := h [some [71, 0, 69]] [71, 0, 69] rfl (by decide)
  exact absurd htext (by decide)

/-- A first segment of 2048 bytes or more, without NUL, is read out of bounds. -/
theorem receivedText_of_ge {s : Bytes} (hs : 2048 ≤ s.length) (hnul : 0 ∉ s) (q : Inbox) :
    receivedText (some s :: q) = .error .undefined := by
  have hrecv : (Inbox.recv 2048 (some s :: q)).1 = some (s.take 2048) := by
    rw [Inbox.recv]
    split_ifs with h
    · rw [List.take_of_length_le h]
    · rfl
  have hlen : (s.take 2048).length = 2048 := by
    rw [List.length_take]
    omega
  simp only [receivedText, hrecv]
  rw [if_pos ⟨hlen, fun h => hnul (List.mem_of_mem_take h)⟩]

/-! ## Every request of given segment lengths -/

/-- The request of `n` bytes `x` is parsed, and its verb is all of it. -/
theorem parseRequest_replicate (n : ℕ) :
    ∃ request, parseRequest (List.replicate n 120) = .ok request ∧
      request.strVerb = List.replicate n 120 := by
  have hnotMem {c : UInt8} (hc : c ≠ 120) : c ∉ List.replicate n 120 := fun h =>
    hc (List.eq_of_mem_replicate h)
  have hspace : findChar space (List.replicate n 120) = none :=
    findChar_eq_none (hnotMem (by decide))
  have hversion : find httpVersion (List.replicate n 120) = none :=
    (find_eq_none_iff _ _).mpr fun h =>
      hnotMem (c := space) (by decide) (h.subset (by decide))
  have hcut : extractUrlWithQueryParams (List.replicate n 120) =
      .ok ((List.replicate n 120).take (2 ^ 64 - 1)) := by
    rw [extractUrlWithQueryParams_eq (congrArg posToInt hspace) (congrArg posToInt hversion)]
    rfl
  have hparams : parseUrlParams ((List.replicate n 120).take (2 ^ 64 - 1)) = .ok ∅ :=
    parseUrlParams_of_notMem fun h => hnotMem (by decide) (List.mem_of_mem_take h)
  have hheaders : parseHeaders (List.replicate n 120) = .ok ∅ := by
    rw [parseHeaders, tail_lines (hnotMem (by decide))]
    rfl
  have hverb : extractHttpVerb (List.replicate n 120) = List.replicate n 120 := by
    simp [extractHttpVerb, substrFront, hspace]
  rw [parseRequest, parse, hcut, extractUrl_of_ok hcut, hheaders]
  simp only [bind, Except.bind, hparams]
  exact ⟨_, rfl, hverb⟩

theorem flatten_map_replicate (sizes : List ℕ) :
    (sizes.map fun n => List.replicate n (120 : UInt8)).flatten =
      List.replicate sizes.sum 120 := by
  induction sizes with
  | nil => rfl
  | cons n sizes ih =>
    rw [List.map_cons, List.flatten_cons, ih, List.sum_cons, List.replicate_append_replicate]

/-- Is every request without NUL, arriving in segments of the given lengths, built as from its
whole text. -/
def BuildsWhole (sizes : List ℕ) : Prop :=
  ∀ segs : List Bytes, segs.map List.length = sizes → 0 ∉ segs.flatten →
    SameBuilt (builtRequest (segs.map some)) (requestOf segs.flatten)

theorem buildsWhole_empty {sizes : List ℕ} (hsum : sizes.sum = 0) : BuildsWhole sizes := by
  rintro segs rfl hnul
  have hflat : segs.flatten = [] := by
    rw [← List.length_eq_zero_iff, List.length_flatten, hsum]
  have htext : receivedText (segs.map some) = .ok [] := by
    rcases segs with _ | ⟨s, segs⟩
    · rfl
    · obtain ⟨rfl, -⟩ : s = [] ∧ segs.flatten = [] := by simpa using hflat
      rfl
  rw [builtRequest, htext, hflat]
  exact .refl _

theorem buildsWhole_first {sizes : List ℕ} (hhead : sizes.head? = some sizes.sum)
    (hsum : sizes.sum < 2048) : BuildsWhole sizes := by
  rintro segs rfl hnul
  rcases segs with _ | ⟨s, segs⟩
  · cases hhead
  have hflat : segs.flatten = [] := by
    rw [← List.length_eq_zero_iff, List.length_flatten]
    simpa using hhead
  rw [List.flatten_cons, hflat, List.append_nil] at hnul ⊢
  have hlen : s.length < 2048 := by
    rw [List.map_cons, List.sum_cons] at hsum
    omega
  rw [builtRequest, List.map_cons, receivedText_of_lt hlen hnul]
  exact .refl _

/-- The requests of bytes `x` are built whole in no other way. -/
theorem total_of_buildsWhole {sizes : List ℕ} (h : BuildsWhole sizes) (hpos : sizes.sum ≠ 0) :
    sizes.head? = some sizes.sum ∧ sizes.sum < 2048 := by
  obtain ⟨n, sizes, rfl⟩ := List.exists_cons_of_ne_nil (l := sizes) (by rintro rfl; exact hpos rfl)
  have hnul (m : ℕ) : (0 : UInt8) ∉ List.replicate m 120 := fun hmem =>
    absurd (List.eq_of_mem_replicate hmem) (by decide)
  have hsame := h ((n :: sizes).map fun m => List.replicate m 120) (by simp [Function.comp_def])
    (by rw [flatten_map_replicate]; exact hnul _)
  rw [flatten_map_replicate] at hsame
  generalize hsum : (n :: sizes).sum = total at hsame hpos
  obtain ⟨request, hparse, hverb⟩ := parseRequest_replicate total
  have hwhole : requestOf (List.replicate total 120) = .ok (some request) := by
    rw [requestOf, if_neg (by simpa using hpos), hparse]
    rfl
  rw [hwhole, builtRequest, List.map_cons, List.map_cons] at hsame
  rcases Nat.lt_or_ge n 2048 with hlt | hge
  · rw [receivedText_of_lt (by simpa using hlt) (hnul n)] at hsame
    change SameBuilt (requestOf (List.replicate n 120)) _ at hsame
    by_cases hzero : n = 0
    · subst hzero
      exact hsame.elim
    · obtain ⟨request', hparse', hverb'⟩ := parseRequest_replicate n
      rw [requestOf, if_neg (by simpa using hzero), hparse'] at hsame
      have heq := hsame.strVerb
      rw [hverb, hverb'] at heq
      have hn : n = total := by simpa using congrArg List.length heq
      exact ⟨by rw [hn]; rfl, by omega⟩
  · rw [receivedText_of_ge (by simpa using hge) (hnul n)] at hsame
    exact hsame.elim

/-- **When segmentation changes nothing.** Every request that arrives in segments of the given
lengths is built as from its whole text exactly when it is empty or the first segment has all
the bytes, fewer than 2048. -/
theorem builtRequest_whole_iff (sizes : List ℕ) :
    BuildsWhole sizes ↔
      sizes.sum = 0 ∨ (sizes.head? = some sizes.sum ∧ sizes.sum < 2048) := by
  constructor
  · intro h
    exact or_iff_not_imp_left.mpr (total_of_buildsWhole h)
  · rintro (hsum | ⟨hhead, hsum⟩)
    · exact buildsWhole_empty hsum
    · exact buildsWhole_first hhead hsum

/-- A request cut inside its path is built with the beginning of the path. -/
theorem builtRequest_cut :
    ¬ SameBuilt (builtRequest [some (lit "GET /pa"), some (lit "th HTTP/1.1\r\n\r\n")])
      (requestOf (lit "GET /path HTTP/1.1\r\n\r\n")) := by
  intro h
  exact absurd h.url (by decide +kernel)

end SimpleServer
