import SimpleServer.Http.Routing
import SimpleServer.Http.Words
import SimpleServer.Foundations.Priority

/-!
# Which route a URL selects

A route satisfies a URL by being equal to it, as a regular expression, or as a pattern with typed
placeholders, and `query_endpoint_from_map` searches by these rules in turn. For every URL but
`/` this is a search by priority (`queryEndpointFromMap_eq`), so that the route found satisfies
the strongest rule that any route satisfies; `/` is looked up alone, and the other rules are not
tried (`queryEndpointFromMap_root`). The rule of patterns splits the URL and the routes into words,
and is undefined when one of them is too long for the index of `split_words`.

The code outside decides `std::regex_match` by any predicate, and no constructor throws.
-/

namespace SimpleServer

open Cxx Priority

/-- The platform with `std::regex_match(uri, route)` decided by a predicate. -/
def Platform.withRegex (platform : Platform) (regexMatch : Bytes → Bytes → Bool) : Platform :=
  { platform with regex := fun route => some fun uri => regexMatch uri route }

/-- The routes behind a sequence of calls of `add_route_handler`. -/
def register (calls : List (Bytes × Endpoint)) : RoutesMap :=
  calls.foldl (fun routes c => addRouteHandler c.1 c.2 routes) ∅

/-! ## The rules -/

/-- The URL has as many segments as the route, and `validate_pattern_by_url` accepts them. -/
def matchesPattern (uri route : Bytes) : Bool :=
  match splitWordsInt uri 47, splitWordsInt route 47 with
  | .ok splittedUri, .ok eSplitted =>
    eSplitted.length = splittedUri.length &&
      match validatePatternByUrl splittedUri eSplitted with
      | .ok status => status
      | .error _ => false
  | _, _ => false

/-- The rules by which a route can satisfy a URL, the strongest first. -/
def routeRules (regexMatch : Bytes → Bytes → Bool) (uri : Bytes) : List (Bytes → Bool) :=
  [fun route => route = uri, regexMatch uri, matchesPattern uri]

section Search

variable {β : Type}

/-- The search for a route by the rules, over the routes in some order. -/
def searchRoutes (regexMatch : Bytes → Bytes → Bool) (uri : Bytes) (order : HashOrder)
    (routes : AList fun _ : Bytes => β) : Option (Bytes × β) :=
  search ((routeRules regexMatch uri).map (· ∘ Prod.fst)) (order.enum routes)

/-- The pair that is returned for a route found, or for none. -/
def pairOf : Option (Bytes × β) → Bytes × Option β
  | some it => (it.1, some it.2)
  | none => (invalidHttpUri, none)

/-- The URL is a route or matches one as a regular expression, or `split_words` can index the URL
and every route. -/
def Searchable (regexMatch : Bytes → Bytes → Bool) (routes : AList fun _ : Bytes => β)
    (uri : Bytes) : Prop :=
  uri ∈ routes ∨ (∃ route ∈ routes, regexMatch uri route = true) ∨
    (Indexable uri ∧ ∀ route ∈ routes, Indexable route)

variable (platform : Platform) (regexMatch : Bytes → Bytes → Bool)
  {routes : AList fun _ : Bytes => β} {uri : Bytes}

theorem matchRegex_eq (uri : Bytes) (its : List (Bytes × β)) :
    matchRegex (platform.withRegex regexMatch) uri its =
      .ok (its.find? fun it => regexMatch uri it.1) := by
  induction its with
  | nil => rfl
  | cons it its ih =>
    rw [matchRegex, List.find?_cons]
    cases h : regexMatch uri it.1 <;> simp [Platform.withRegex, h]
    exact ih

/-- Lists of one length are read side by side, and not beyond an end. -/
theorem exists_validatePatternByUrl {uri pattern : List Bytes}
    (h : pattern.length = uri.length) :
    ∃ status, validatePatternByUrl uri pattern = .ok status := by
  induction uri generalizing pattern with
  | nil => exact ⟨true, rfl⟩
  | cons value uri ih =>
    cases pattern with
    | nil => simp at h
    | cons pValue pattern =>
      obtain ⟨status, hstatus⟩ := ih (by simpa using h)
      rw [validatePatternByUrl]
      split_ifs
      · exact ⟨false, rfl⟩
      · exact ⟨false, rfl⟩
      · exact ⟨status, hstatus⟩
      · exact ⟨status, hstatus⟩

/-! ### The rule of patterns -/

theorem indexable_of_matchesPattern {route : Bytes} (h : matchesPattern uri route = true) :
    Indexable uri ∧ Indexable route := by
  constructor
  · by_contra hnot
    rw [matchesPattern, splitWordsInt_of_not_indexable hnot] at h
    cases h
  · by_contra hnot
    rw [matchesPattern, splitWordsInt_of_not_indexable hnot] at h
    cases hsplit : splitWordsInt uri 47 <;> simp [hsplit] at h

/-- One turn of the loop over the patterns. -/
theorem matchPattern_cons (huri : Indexable uri) (it : Bytes × β) (its : List (Bytes × β)) :
    matchPattern (wordsOf uri 47) (it :: its) =
      if ¬ Indexable it.1 then .error .undefined
      else if matchesPattern uri it.1 then .ok (some it)
      else matchPattern (wordsOf uri 47) its := by
  rw [matchPattern]
  by_cases hit : Indexable it.1
  swap
  · rw [if_pos hit, splitWordsInt_of_not_indexable hit]
  rw [if_neg (not_not.mpr hit), splitWordsInt_of_indexable hit, matchesPattern,
    splitWordsInt_of_indexable huri, splitWordsInt_of_indexable hit]
  by_cases hlen : (wordsOf it.1 47).length = (wordsOf uri 47).length
  · obtain ⟨status, hstatus⟩ := exists_validatePatternByUrl hlen
    simp only [hlen, ne_eq, not_true_eq_false, if_false, hstatus, decide_true, Bool.true_and]
  · simp only [hlen, ne_eq, not_false_eq_true, if_true, decide_false, Bool.false_and,
      Bool.false_eq_true, if_false]

/-- What the loop over the patterns returns, when it does. -/
theorem eq_of_matchPattern (huri : Indexable uri) {its : List (Bytes × β)}
    {res : Option (Bytes × β)} (h : matchPattern (wordsOf uri 47) its = .ok res) :
    res = its.find? fun it => matchesPattern uri it.1 := by
  induction its with
  | nil =>
    cases h
    rfl
  | cons it its ih =>
    rw [matchPattern_cons huri] at h
    rw [List.find?_cons]
    split_ifs at h with hit hmatch
    · cases h
      rw [hmatch]
    · rw [Bool.not_eq_true] at hmatch
      rw [hmatch]
      exact ih h

theorem matchPattern_eq (huri : Indexable uri) {its : List (Bytes × β)}
    (h : ∀ it ∈ its, Indexable it.1) :
    matchPattern (wordsOf uri 47) its = .ok (its.find? fun it => matchesPattern uri it.1) := by
  induction its with
  | nil => rfl
  | cons it its ih =>
    obtain ⟨hit, hits⟩ := List.forall_mem_cons.mp h
    rw [matchPattern_cons huri, if_neg (not_not.mpr hit), List.find?_cons, ih hits]
    cases matchesPattern uri it.1 <;> rfl

/-- A loop in which no route matches meets every route. -/
theorem matchPattern_undefined (huri : Indexable uri) {its : List (Bytes × β)}
    (hnone : ∀ it ∈ its, matchesPattern uri it.1 = false) (h : ∃ it ∈ its, ¬ Indexable it.1) :
    matchPattern (wordsOf uri 47) its = .error .undefined := by
  induction its with
  | nil =>
    obtain ⟨it, hit, -⟩ := h
    cases hit
  | cons it its ih =>
    obtain ⟨hit, hits⟩ := List.forall_mem_cons.mp hnone
    rw [matchPattern_cons huri, hit]
    by_cases hindex : Indexable it.1
    · rw [if_neg (not_not.mpr hindex), if_neg Bool.false_ne_true]
      obtain ⟨bad, hbad, hnot⟩ := h
      rcases List.mem_cons.mp hbad with rfl | hbad
      · exact absurd hindex hnot
      · exact ih hits ⟨bad, hbad, hnot⟩
    · rw [if_pos hindex]

/-! ### All rules -/

theorem mem_of_mem_enum {order : HashOrder} {it : Bytes × β} (hit : it ∈ order.enum routes) :
    it.1 ∈ routes :=
  (HashOrder.mem_keys_enum order).mp (List.mem_map_of_mem hit)

/-- **The URL `/`** is looked up, and the other rules are not tried. -/
theorem queryEndpointFromMap_root (routes : AList fun _ : Bytes => β) :
    queryEndpointFromMap (platform.withRegex regexMatch) routes (lit "/") =
      .ok (pairOf ((routes.lookup (lit "/")).map fun cb => (lit "/", cb))) := by
  rw [queryEndpointFromMap, if_pos ⟨rfl, rfl⟩, HashOrder.find_key]
  rcases routes.lookup (lit "/") with _ | cb <;> rfl

/-- A URL that is no route and matches none as a regular expression is looked for by patterns. -/
theorem queryEndpointFromMap_patterns (huri : uri ≠ lit "/") (hnone : uri ∉ routes)
    (hregex : ∀ route ∈ routes, regexMatch uri route = false) :
    queryEndpointFromMap (platform.withRegex regexMatch) routes uri =
      (splitWordsInt uri 47 >>= (matchPattern · (platform.order.enum routes))).map pairOf := by
  have hfind : (platform.order.enum routes).find? (fun it => regexMatch uri it.1) = none := by
    rw [List.find?_eq_none]
    intro it hit
    rw [hregex it.1 (mem_of_mem_enum hit)]
    exact Bool.false_ne_true
  have horder : (platform.withRegex regexMatch).order = platform.order := rfl
  rw [queryEndpointFromMap, if_neg fun h => huri h.2, AList.lookup_eq_none.mpr hnone]
  simp only [matchRegex_eq, horder, hfind]
  rcases splitWordsInt uri 47 >>= (matchPattern · (platform.order.enum routes)) with e | _ | it <;>
    rfl

/-- **Every other URL** is searched for by the rules in turn. -/
theorem queryEndpointFromMap_eq (huri : uri ≠ lit "/") (h : Searchable regexMatch routes uri) :
    queryEndpointFromMap (platform.withRegex regexMatch) routes uri =
      .ok (pairOf (searchRoutes regexMatch uri platform.order routes)) := by
  have hfind := platform.order.find_key routes uri
  have horder : (platform.withRegex regexMatch).order = platform.order := rfl
  rw [queryEndpointFromMap, if_neg fun h => huri h.2]
  simp only [searchRoutes, routeRules, List.map_cons, List.map_nil, search, Function.comp_def,
    hfind]
  cases hlookup : routes.lookup uri with
  | some cb => rfl
  | none =>
    simp only [matchRegex_eq, Option.map_none, horder]
    rcases hregex : (platform.order.enum routes).find? fun it => regexMatch uri it.1 with _ | it
    · have hindex : Indexable uri ∧ ∀ route ∈ routes, Indexable route := by
        rcases h with hmem | ⟨route, hroute, hmatch⟩ | hindex
        · exact absurd hmem (AList.lookup_eq_none.mp hlookup)
        · obtain ⟨it, hit, rfl⟩ :=
            List.mem_map.mp ((HashOrder.mem_keys_enum platform.order).mpr hroute)
          exact absurd hmatch (by simpa using List.find?_eq_none.mp hregex it hit)
        · exact hindex
      have hits : ∀ it ∈ platform.order.enum routes, Indexable it.1 :=
        fun it hit => hindex.2 it.1 (mem_of_mem_enum hit)
      simp only [hregex, splitWordsInt_of_indexable hindex.1, ok_bind,
        matchPattern_eq hindex.1 hits]
      rcases hpattern : (platform.order.enum routes).find? fun it => matchesPattern uri it.1 with
        _ | it <;> simp only [hpattern, pairOf]
    · simp only [hregex, pairOf]

/-- What is known of a URL that no rule can be tried on to the end. -/
theorem of_not_searchable (h : ¬ Searchable regexMatch routes uri) :
    uri ∉ routes ∧ (∀ route ∈ routes, regexMatch uri route = false) ∧
      (Indexable uri → ∃ bad ∈ routes, ¬ Indexable bad) := by
  rw [Searchable, not_or, not_or] at h
  push Not at h
  exact ⟨h.1, fun route hroute => Bool.eq_false_of_not_eq_true (h.2.1 route hroute), h.2.2⟩

/-- What is returned is what the search finds. -/
theorem eq_of_queryEndpointFromMap (huri : uri ≠ lit "/") {res : Bytes × Option β}
    (h : queryEndpointFromMap (platform.withRegex regexMatch) routes uri = .ok res) :
    res = pairOf (searchRoutes regexMatch uri platform.order routes) := by
  by_cases hsearch : Searchable regexMatch routes uri
  · rw [queryEndpointFromMap_eq platform regexMatch huri hsearch, Except.ok.injEq] at h
    exact h.symm
  · obtain ⟨hequal, hregex, -⟩ := of_not_searchable regexMatch hsearch
    have hfirst : (platform.order.enum routes).find? (fun it => decide (it.1 = uri)) = none := by
      rw [HashOrder.find_key, AList.lookup_eq_none.mpr hequal, Option.map_none]
    have hsecond : (platform.order.enum routes).find? (fun it => regexMatch uri it.1) = none := by
      rw [List.find?_eq_none]
      intro it hit
      rw [hregex it.1 (mem_of_mem_enum hit)]
      exact Bool.false_ne_true
    rw [queryEndpointFromMap_patterns platform regexMatch huri hequal hregex] at h
    by_cases hindex : Indexable uri
    swap
    · rw [splitWordsInt_of_not_indexable hindex] at h
      cases h
    rw [splitWordsInt_of_indexable hindex, ok_bind] at h
    simp only [searchRoutes, routeRules, List.map_cons, List.map_nil, search, Function.comp_def,
      hfirst, hsecond]
    cases hmatch : matchPattern (wordsOf uri 47) (platform.order.enum routes) with
    | error e =>
      rw [hmatch] at h
      cases h
    | ok found =>
      rw [hmatch] at h
      cases h
      rw [eq_of_matchPattern hindex hmatch]
      cases (platform.order.enum routes).find? fun it => matchesPattern uri it.1 <;> rfl

/-- Such a URL is undefined when no route matches. -/
theorem queryEndpointFromMap_undefined (huri : uri ≠ lit "/")
    (hsearch : ¬ Searchable regexMatch routes uri)
    (hnone : ∀ route ∈ routes, matchesPattern uri route = false) :
    queryEndpointFromMap (platform.withRegex regexMatch) routes uri = .error .undefined := by
  obtain ⟨hequal, hregex, hlong⟩ := of_not_searchable regexMatch hsearch
  rw [queryEndpointFromMap_patterns platform regexMatch huri hequal hregex]
  by_cases hindex : Indexable uri
  swap
  · rw [splitWordsInt_of_not_indexable hindex]
    rfl
  have hbad : ∃ it ∈ platform.order.enum routes, ¬ Indexable it.1 := by
    obtain ⟨route, hmem, hnot⟩ := hlong hindex
    obtain ⟨it, hit, rfl⟩ := List.mem_map.mp ((HashOrder.mem_keys_enum platform.order).mpr hmem)
    exact ⟨it, hit, hnot⟩
  rw [splitWordsInt_of_indexable hindex, ok_bind,
    matchPattern_undefined hindex (fun it hit => hnone it.1 (mem_of_mem_enum hit)) hbad]
  rfl

/-- In some order, such a URL is undefined whatever the routes are. -/
theorem exists_front_undefined (huri : uri ≠ lit "/")
    (hsearch : ¬ Searchable regexMatch routes uri) :
    ∃ bad, queryEndpointFromMap ({ platform with order := .front bad }.withRegex regexMatch) routes
      uri = .error .undefined := by
  obtain ⟨hequal, hregex, hlong⟩ := of_not_searchable regexMatch hsearch
  simp only [queryEndpointFromMap_patterns _ regexMatch huri hequal hregex]
  by_cases hindex : Indexable uri
  swap
  · refine ⟨uri, ?_⟩
    rw [splitWordsInt_of_not_indexable hindex]
    rfl
  obtain ⟨bad, hmem, hnot⟩ := hlong hindex
  obtain ⟨cb, hcb⟩ := Option.isSome_iff_exists.mp (AList.lookup_isSome.mpr hmem)
  obtain ⟨rest, hrest⟩ := HashOrder.enum_front hcb
  refine ⟨bad, ?_⟩
  rw [splitWordsInt_of_indexable hindex, ok_bind, hrest, matchPattern_cons hindex, if_pos hnot]
  rfl

end Search

/-! ## The search -/

/-- No route satisfies the URL by any rule. -/
def NoneMatches {β : Type} (regexMatch : Bytes → Bytes → Bool) (routes : AList fun _ : Bytes => β)
    (uri : Bytes) : Prop :=
  ∀ route ∈ routes, ∀ rule ∈ routeRules regexMatch uri, rule route = false

section Search

variable {β : Type} {regexMatch : Bytes → Bytes → Bool} {uri : Bytes} {order : HashOrder}
  {routes : AList fun _ : Bytes => β}

theorem best_enum_iff {it : Bytes × β} :
    Best ((routeRules regexMatch uri).map (· ∘ Prod.fst)) (order.enum routes) it ↔
      Best (routeRules regexMatch uri) routes.keys it.1 := by
  rw [best_comp]
  exact best_congr fun route => (HashOrder.mem_keys_enum order).trans AList.mem_keys

theorem searchRoutes_eq_none_iff :
    searchRoutes regexMatch uri order routes = none ↔ NoneMatches regexMatch routes uri := by
  rw [searchRoutes, search_eq_none_iff]
  simp only [List.forall_mem_map, Function.comp_apply, NoneMatches]
  constructor
  · intro h route hroute rule hrule
    obtain ⟨⟨route', cb⟩, hit, rfl⟩ := List.mem_map.mp ((HashOrder.mem_keys_enum order).mpr hroute)
    exact h rule hrule _ hit
  · intro h rule hrule it hit
    exact h it.1 ((HashOrder.mem_keys_enum order).mp (List.mem_map_of_mem hit)) rule hrule

/-- What is found is a registered route with its callback, and one of the best. -/
theorem best_of_searchRoutes {it : Bytes × β}
    (h : searchRoutes regexMatch uri order routes = some it) :
    routes.lookup it.1 = some it.2 ∧ Best (routeRules regexMatch uri) routes.keys it.1 := by
  obtain ⟨hmem, hbest⟩ := best_of_search h
  exact ⟨(HashOrder.mem_enum order).mp hmem, best_enum_iff.mp hbest⟩

/-- In some order, a given best route is found. -/
theorem searchRoutes_front {route : Bytes} {cb : β}
    (hlookup : routes.lookup route = some cb)
    (hbest : Best (routeRules regexMatch uri) routes.keys route) :
    searchRoutes regexMatch uri (.front route) routes = some (route, cb) := by
  obtain ⟨rest, hrest⟩ := HashOrder.enum_front hlookup
  have h : Best ((routeRules regexMatch uri).map (· ∘ Prod.fst))
      ((HashOrder.front route).enum routes) (route, cb) := best_enum_iff.mpr hbest
  rw [hrest] at h
  rw [searchRoutes, hrest]
  exact search_cons_of_best h

/-- In some order, a given best route is returned, also when another one cannot be split. -/
theorem queryEndpointFromMap_front (platform : Platform) (huri : uri ≠ lit "/") {route : Bytes}
    {cb : β} (hlookup : routes.lookup route = some cb)
    (hbest : Best (routeRules regexMatch uri) routes.keys route) :
    queryEndpointFromMap ({ platform with order := .front route }.withRegex regexMatch) routes uri =
      .ok (route, some cb) := by
  by_cases hsearch : Searchable regexMatch routes uri
  · rw [queryEndpointFromMap_eq _ regexMatch huri hsearch, searchRoutes_front hlookup hbest]
    rfl
  obtain ⟨hequal, hregex, -⟩ := of_not_searchable regexMatch hsearch
  -- only the rule of patterns is left
  have hmem : route ∈ routes := AList.lookup_isSome.mp (by simp [hlookup])
  have hpattern : matchesPattern uri route = true := by
    rw [routeRules, best_cons, best_cons, best_singleton] at hbest
    rcases hbest with heq | ⟨-, hmatch | ⟨-, hpattern⟩⟩
    · rw [decide_eq_true_eq] at heq
      exact absurd (heq ▸ hmem) hequal
    · rw [hregex route hmem] at hmatch
      cases hmatch
    · exact hpattern
  obtain ⟨hindex, hroute⟩ := indexable_of_matchesPattern hpattern
  obtain ⟨rest, hrest⟩ := HashOrder.enum_front hlookup
  rw [queryEndpointFromMap_patterns _ regexMatch huri hequal hregex,
    splitWordsInt_of_indexable hindex, ok_bind, hrest, matchPattern_cons hindex,
    if_neg (not_not.mpr hroute), hpattern, if_pos rfl]
  rfl

end Search

/-! ## Registered routes -/

theorem addRouteHandler_eq (url : Bytes) (cb : Endpoint) (routes : RoutesMap) :
    addRouteHandler url cb routes = routes.insert url cb := by
  rw [addRouteHandler, insertNew, if_pos]
  exact (AList.mem_insert _).mpr (Or.inl rfl)

theorem register_eq (calls : List (Bytes × Endpoint)) : register calls = insertAll ∅ calls := by
  simp only [register, insertAll, addRouteHandler_eq]

/-- **A route leads to the callback registered last for it.** -/
theorem lookup_register (calls : List (Bytes × Endpoint)) (route : Bytes) :
    (register calls).lookup route = lastOf calls route := by
  rw [register_eq, lookup_insertAll, AList.lookup_empty, Option.or_none]

theorem lastOf_isSome_iff {calls : List (Bytes × Endpoint)} {route : Bytes} :
    (lastOf calls route).isSome ↔ route ∈ calls.map Prod.fst := by
  rw [lastOf, List.lookup_isSome_iff, List.mem_map]
  simp only [List.mem_reverse, beq_iff_eq]
  constructor
  · rintro ⟨c, hc, rfl⟩
    exact ⟨c, hc, rfl⟩
  · rintro ⟨c, hc, rfl⟩
    exact ⟨c, hc, rfl⟩

theorem mem_register {calls : List (Bytes × Endpoint)} {route : Bytes} :
    route ∈ register calls ↔ route ∈ calls.map Prod.fst := by
  rw [← AList.lookup_isSome, lookup_register, lastOf_isSome_iff]

theorem best_register {regexMatch : Bytes → Bytes → Bool} {calls : List (Bytes × Endpoint)}
    {uri route : Bytes} :
    Best (routeRules regexMatch uri) (register calls).keys route ↔
      Best (routeRules regexMatch uri) (calls.map Prod.fst) route :=
  best_congr fun route => by rw [← AList.mem_keys, mem_register]

/-- **Soundness and priority.** What is found for a URL is a registered route with the callback
registered last for it, and it satisfies the strongest rule that any registered route
satisfies. -/
theorem queryEndpointFromMap_sound (platform : Platform) (regexMatch : Bytes → Bytes → Bool)
    (calls : List (Bytes × Endpoint)) (uri route : Bytes) (callback : Option Endpoint)
    (h : queryEndpointFromMap (platform.withRegex regexMatch) (register calls) uri =
      .ok (route, callback))
    (hroute : route ≠ invalidHttpUri) :
    ∃ cb, callback = some cb ∧ lastOf calls route = some cb ∧
      Best (routeRules regexMatch uri) (calls.map Prod.fst) route := by
  by_cases huri : uri = lit "/"
  · subst huri
    rw [queryEndpointFromMap_root, lookup_register] at h
    cases hlast : lastOf calls (lit "/") with
    | none =>
      rw [hlast] at h
      cases h
      exact absurd rfl hroute
    | some cb =>
      rw [hlast] at h
      cases h
      exact ⟨cb, rfl, hlast, best_cons.mpr (Or.inl (decide_eq_true rfl))⟩
  · have hres := eq_of_queryEndpointFromMap platform regexMatch huri h
    cases hsearch : searchRoutes regexMatch uri platform.order (register calls) with
    | none =>
      rw [hsearch] at hres
      cases hres
      exact absurd rfl hroute
    | some it =>
      rw [hsearch] at hres
      cases hres
      obtain ⟨hlookup, hbest⟩ := best_of_searchRoutes hsearch
      rw [lookup_register] at hlookup
      exact ⟨it.2, rfl, hlookup, best_register.mp hbest⟩

/-- A handler that answers with a text. -/
def textHandler (text : Bytes) : Endpoint := fun _ => (HttpResponse.default .ok).setBody text

/-- A route with a number, registered twice. -/
theorem queryEndpointFromMap_number :
    ∃ cb, some (textHandler (lit "new")) = some cb ∧
      lastOf [(lit "/item/<id:int>", textHandler (lit "old")),
        (lit "/item/<id:int>", textHandler (lit "new"))] (lit "/item/<id:int>") = some cb ∧
      Best (routeRules (fun uri route => uri = route) (lit "/item/42"))
        [lit "/item/<id:int>", lit "/item/<id:int>"] (lit "/item/<id:int>") :=
  queryEndpointFromMap_sound Platform.plain (fun uri route => uri = route)
    [(lit "/item/<id:int>", textHandler (lit "old")),
      (lit "/item/<id:int>", textHandler (lit "new"))]
    (lit "/item/42") (lit "/item/<id:int>") _ rfl (by decide)

/-! ## What the shortcut misses -/

/-- **Completeness.** Whatever the order of the loops, `INVALID_HTTP_URI` comes back only when no
route satisfies the URL, exactly when two things do not happen: `/` is satisfied by a route but
not registered itself, and a route with the text of `INVALID_HTTP_URI` satisfies the strongest
rule that any route satisfies. -/
theorem queryEndpointFromMap_complete_iff (regexMatch : Bytes → Bytes → Bool) (routes : RoutesMap)
    (uri : Bytes) :
    (∀ (platform : Platform) (callback : Option Endpoint),
      queryEndpointFromMap (platform.withRegex regexMatch) routes uri =
        .ok (invalidHttpUri, callback) → NoneMatches regexMatch routes uri) ↔
      (uri = lit "/" → lit "/" ∈ routes ∨ NoneMatches regexMatch routes uri) ∧
      (uri ≠ lit "/" → invalidHttpUri ∈ routes →
        ¬ Best (routeRules regexMatch uri) routes.keys invalidHttpUri) := by
  by_cases huri : uri = lit "/"
  · subst huri
    have hne : lit "/" ≠ invalidHttpUri := by decide
    simp only [queryEndpointFromMap_root, ne_eq, not_true_eq_false, false_imp_iff, and_true,
      true_imp_iff, Except.ok.injEq]
    cases hlookup : routes.lookup (lit "/") with
    | none =>
      have hmem : lit "/" ∉ routes := AList.lookup_eq_none.mp hlookup
      simp only [hmem, false_or]
      constructor
      · intro h
        exact h Platform.plain none rfl
      · intro h _ _ _
        exact h
    | some cb =>
      have hmem : lit "/" ∈ routes := AList.lookup_isSome.mp (by simp [hlookup])
      simp [hmem, pairOf, hne]
  · simp only [huri, ne_eq, not_false_eq_true, false_imp_iff, true_and, true_imp_iff]
    constructor
    · intro h hmem hbest
      obtain ⟨cb, hcb⟩ := Option.isSome_iff_exists.mp (AList.lookup_isSome.mpr hmem)
      have hnone := h _ (some cb) (queryEndpointFromMap_front Platform.plain huri hcb hbest)
      obtain ⟨stronger, rule, weaker, hrules, hrule, -⟩ := hbest
      rw [hnone _ hmem rule (by simp [hrules])] at hrule
      cases hrule
    · intro h platform callback hresult
      have hres := eq_of_queryEndpointFromMap platform regexMatch huri hresult
      cases hsearch : searchRoutes regexMatch uri platform.order routes with
      | none => exact searchRoutes_eq_none_iff.mp hsearch
      | some it =>
        obtain ⟨hlookup, hbest⟩ := best_of_searchRoutes hsearch
        rw [hsearch, pairOf, Prod.mk.injEq] at hres
        rw [← hres.1] at hlookup hbest
        exact absurd hbest (h (AList.lookup_isSome.mp (by simp [hlookup])))

/-- A server with the one route `/.*`, which matches `/` as it matches every path. -/
theorem queryEndpointFromMap_root_missed :
    queryEndpointFromMap
        (Platform.plain.withRegex fun uri route => route = lit "/.*" && uri.head? = some 47)
        (register [(lit "/.*", textHandler (lit "page"))]) (lit "/") = .ok (invalidHttpUri, none) ∧
      ¬ NoneMatches (fun uri route => route = lit "/.*" && uri.head? = some 47)
        (register [(lit "/.*", textHandler (lit "page"))]) (lit "/") := by
  refine ⟨by rw [queryEndpointFromMap_root]; rfl, fun h => ?_⟩
  have := h (lit "/.*") (by decide) _ (List.mem_cons_of_mem _ (List.mem_cons_self ..))
  exact absurd this (by decide)

/-! ## The order of the routes -/

/-- With one best route at most there is one best entry. -/
theorem eq_of_best_enum {β : Type} {regexMatch : Bytes → Bytes → Bool} {uri : Bytes}
    {routes : AList fun _ : Bytes => β} {order : HashOrder}
    (hunique : ∀ r₁ ∈ routes, ∀ r₂ ∈ routes, Best (routeRules regexMatch uri) routes.keys r₁ →
      Best (routeRules regexMatch uri) routes.keys r₂ → r₁ = r₂) :
    ∀ it₁ ∈ order.enum routes, ∀ it₂ ∈ order.enum routes,
      Best ((routeRules regexMatch uri).map (· ∘ Prod.fst)) (order.enum routes) it₁ →
      Best ((routeRules regexMatch uri).map (· ∘ Prod.fst)) (order.enum routes) it₂ →
        it₁ = it₂ := by
  rintro ⟨r₁, cb₁⟩ h₁ ⟨r₂, cb₂⟩ h₂ hbest₁ hbest₂
  rw [HashOrder.mem_enum] at h₁ h₂
  obtain rfl : r₁ = r₂ := hunique r₁ (AList.lookup_isSome.mp (by simp [h₁])) r₂
    (AList.lookup_isSome.mp (by simp [h₂])) (best_enum_iff.mp hbest₁) (best_enum_iff.mp hbest₂)
  rw [h₁, Option.some.injEq] at h₂
  rw [h₂]

/-- Maps with the same values are searched alike when one route at most is best. -/
theorem searchRoutes_eq_of_unique {β : Type} {regexMatch : Bytes → Bytes → Bool} {uri : Bytes}
    {routes routes' : AList fun _ : Bytes => β} (order order' : HashOrder)
    (hlookup : ∀ route, routes.lookup route = routes'.lookup route)
    (hunique : ∀ r₁ ∈ routes, ∀ r₂ ∈ routes, Best (routeRules regexMatch uri) routes.keys r₁ →
      Best (routeRules regexMatch uri) routes.keys r₂ → r₁ = r₂) :
    searchRoutes regexMatch uri order routes = searchRoutes regexMatch uri order' routes' :=
  search_eq_of_unique (order.enum_perm order' hlookup) (eq_of_best_enum hunique)

/-- A URL for which only patterns are left, and one of the routes accepts it. -/
def FoundByPattern (regexMatch : Bytes → Bytes → Bool) (routes : List Bytes) (uri : Bytes) : Prop :=
  uri ∉ routes ∧ (∀ route ∈ routes, regexMatch uri route = false) ∧
    ∃ route ∈ routes, matchesPattern uri route = true

section Orders

variable {regexMatch : Bytes → Bytes → Bool} {calls calls' : List (Bytes × Endpoint)} {uri : Bytes}

theorem lookup_register_perm (hdistinct : (calls.map Prod.fst).Nodup) (hperm : calls'.Perm calls)
    (route : Bytes) : (register calls').lookup route = (register calls).lookup route := by
  rw [lookup_register, lookup_register, lastOf_perm hdistinct hperm]

theorem mem_register_perm (hperm : calls'.Perm calls) {route : Bytes} :
    route ∈ register calls' ↔ route ∈ register calls := by
  rw [mem_register, mem_register, (hperm.map Prod.fst).mem_iff]

theorem searchable_perm (hperm : calls'.Perm calls) :
    Searchable regexMatch (register calls') uri ↔ Searchable regexMatch (register calls) uri := by
  simp only [Searchable, mem_register_perm hperm]

/-- In some order the lookup finds a best route. -/
theorem queryEndpointFromMap_best (huri : uri ≠ lit "/") {route : Bytes}
    (hmem : route ∈ calls.map Prod.fst)
    (hbest : Best (routeRules regexMatch uri) (calls.map Prod.fst) route) :
    ∃ cb, queryEndpointFromMap ({ Platform.plain with order := .front route }.withRegex regexMatch)
      (register calls) uri = .ok (route, some cb) := by
  obtain ⟨cb, hcb⟩ := Option.isSome_iff_exists.mp (AList.lookup_isSome.mpr (mem_register.mpr hmem))
  exact ⟨cb, queryEndpointFromMap_front .plain huri hcb (best_register.mpr hbest)⟩

/-- A route that accepts the URL is then best. -/
theorem FoundByPattern.exists_best {routes : List Bytes}
    (h : FoundByPattern regexMatch routes uri) :
    ∃ route ∈ routes, Best (routeRules regexMatch uri) routes route := by
  obtain ⟨hequal, hregex, route, hmem, hpattern⟩ := h
  refine ⟨route, hmem,
    best_cons.mpr (Or.inr ⟨fun r hr => ?_, best_cons.mpr (Or.inr ⟨hregex, ?_⟩)⟩)⟩
  · rw [decide_eq_false_iff_not]
    rintro rfl
    exact hequal hr
  · exact best_singleton.mpr hpattern

/-- Then all routes are split, and one that is too long ends the search. -/
theorem FoundByPattern.not_searchable {bad : Bytes}
    (h : FoundByPattern regexMatch (calls.map Prod.fst) uri) (hbad : bad ∈ calls.map Prod.fst)
    (hnot : ¬ Indexable bad) : ¬ Searchable regexMatch (register calls) uri := by
  rintro (hmem | ⟨route, hmem, hmatch⟩ | hall)
  · exact h.1 (mem_register.mp hmem)
  · rw [h.2.1 route (mem_register.mp hmem)] at hmatch
    cases hmatch
  · exact hnot (hall.2 bad (mem_register.mpr hbad))

/-- Where the search ends at a route that is too long, no route accepts the URL. -/
theorem matchesPattern_of_not_searchable
    (hpattern : FoundByPattern regexMatch (calls.map Prod.fst) uri →
      ∀ r ∈ calls.map Prod.fst, Indexable r)
    (h : ¬ Searchable regexMatch (register calls) uri) {route : Bytes}
    (hmem : route ∈ register calls) : matchesPattern uri route = false := by
  by_contra hmatch
  rw [Bool.not_eq_false] at hmatch
  obtain ⟨hequal, hregex, hlong⟩ := of_not_searchable regexMatch h
  obtain ⟨bad, hbad, hnot⟩ := hlong (indexable_of_matchesPattern hmatch).1
  exact hnot (hpattern ⟨fun h => hequal (mem_register.mpr h),
    fun r hr => hregex r (mem_register.mpr hr), route, mem_register.mp hmem, hmatch⟩ bad
    (mem_register.mp hbad))

end Orders

/-- **The order of the routes.** For distinct routes, neither the order of registration nor that
of the loops has an effect exactly when the URL is `/`, or no two routes satisfy the strongest
rule that any route satisfies and, if this is the rule of patterns, `split_words` can index every
route. -/
theorem queryEndpointFromMap_order_iff (regexMatch : Bytes → Bytes → Bool)
    (calls : List (Bytes × Endpoint)) (hdistinct : (calls.map Prod.fst).Nodup) (uri : Bytes) :
    (∀ (calls₁ calls₂ : List (Bytes × Endpoint)) (p₁ p₂ : Platform), calls₁.Perm calls →
      calls₂.Perm calls →
        queryEndpointFromMap (p₁.withRegex regexMatch) (register calls₁) uri =
          queryEndpointFromMap (p₂.withRegex regexMatch) (register calls₂) uri) ↔
      uri = lit "/" ∨
        ((∀ r₁ ∈ calls.map Prod.fst, ∀ r₂ ∈ calls.map Prod.fst,
          Best (routeRules regexMatch uri) (calls.map Prod.fst) r₁ →
          Best (routeRules regexMatch uri) (calls.map Prod.fst) r₂ → r₁ = r₂) ∧
        (FoundByPattern regexMatch (calls.map Prod.fst) uri →
          ∀ r ∈ calls.map Prod.fst, Indexable r)) := by
  by_cases huri : uri = lit "/"
  · subst huri
    simp only [true_or, iff_true]
    intro calls₁ calls₂ p₁ p₂ h₁ h₂
    rw [queryEndpointFromMap_root, queryEndpointFromMap_root,
      lookup_register_perm hdistinct h₁, lookup_register_perm hdistinct h₂]
  rw [or_iff_right huri]
  constructor
  · intro h
    refine ⟨fun r₁ h₁ r₂ h₂ hbest₁ hbest₂ => ?_, fun hfound bad hbad => ?_⟩
    · obtain ⟨cb₁, hfirst⟩ := queryEndpointFromMap_best huri h₁ hbest₁
      obtain ⟨cb₂, hsecond⟩ := queryEndpointFromMap_best huri h₂ hbest₂
      have heq := h calls calls { Platform.plain with order := .front r₁ }
        { Platform.plain with order := .front r₂ } (.refl _) (.refl _)
      rw [hfirst, hsecond, Except.ok.injEq] at heq
      exact (Prod.mk.inj heq).1
    · by_contra hnot
      -- in one order the accepted route is met first, in another one a route that is too long
      obtain ⟨r, hr, hbest⟩ := hfound.exists_best
      obtain ⟨cb, hok⟩ := queryEndpointFromMap_best huri hr hbest
      obtain ⟨front, herror⟩ :=
        exists_front_undefined .plain regexMatch huri (hfound.not_searchable hbad hnot)
      have heq := h calls calls { Platform.plain with order := .front r }
        { Platform.plain with order := .front front } (.refl _) (.refl _)
      rw [hok, herror] at heq
      cases heq
  · rintro ⟨hunique, hpattern⟩ calls₁ calls₂ p₁ p₂ h₁ h₂
    by_cases hsearch : Searchable regexMatch (register calls) uri
    · have hkeys : ∀ r₁ ∈ register calls, ∀ r₂ ∈ register calls,
          Best (routeRules regexMatch uri) (register calls).keys r₁ →
          Best (routeRules regexMatch uri) (register calls).keys r₂ → r₁ = r₂ :=
        fun r₁ hr₁ r₂ hr₂ hbest₁ hbest₂ => hunique r₁ (mem_register.mp hr₁) r₂
          (mem_register.mp hr₂) (best_register.mp hbest₁) (best_register.mp hbest₂)
      have hsame : ∀ {calls' : List (Bytes × Endpoint)} (p : Platform), calls'.Perm calls →
          queryEndpointFromMap (p.withRegex regexMatch) (register calls') uri =
            .ok (pairOf (searchRoutes regexMatch uri .listed (register calls))) := by
        intro calls' p hperm
        rw [queryEndpointFromMap_eq p regexMatch huri ((searchable_perm hperm).mpr hsearch),
          searchRoutes_eq_of_unique .listed p.order
            (fun r => (lookup_register_perm hdistinct hperm r).symm) hkeys]
      rw [hsame p₁ h₁, hsame p₂ h₂]
    · -- no route accepts the URL, and not all can be split
      have hundefined : ∀ {calls' : List (Bytes × Endpoint)} (p : Platform), calls'.Perm calls →
          queryEndpointFromMap (p.withRegex regexMatch) (register calls') uri =
            .error .undefined := by
        intro calls' p hperm
        exact queryEndpointFromMap_undefined p regexMatch huri
          (mt (searchable_perm hperm).mp hsearch) fun r hr =>
            matchesPattern_of_not_searchable hpattern hsearch ((mem_register_perm hperm).mp hr)
      rw [hundefined p₁ h₁, hundefined p₂ h₂]

/-- Two routes that differ in the type of their placeholder: only one accepts the segment. -/
theorem queryEndpointFromMap_typed_order :
    queryEndpointFromMap ({ Platform.plain with order := .front (lit "/<a:int>") }.withRegex
        fun uri route => uri = route)
        (register [(lit "/<a:int>", textHandler []), (lit "/<b:str>", textHandler [])])
        (lit "/x") =
      queryEndpointFromMap ({ Platform.plain with order := .front (lit "/<b:str>") }.withRegex
        fun uri route => uri = route)
        (register [(lit "/<b:str>", textHandler []), (lit "/<a:int>", textHandler [])])
        (lit "/x") := by
  have hint : ¬ Best (routeRules (fun uri route => uri = route) (lit "/x"))
      [lit "/<a:int>", lit "/<b:str>"] (lit "/<a:int>") := by
    simp only [routeRules, best_cons, not_best_nil]
    decide
  refine (queryEndpointFromMap_order_iff (fun uri route => uri = route)
    [(lit "/<a:int>", textHandler []), (lit "/<b:str>", textHandler [])] (by decide)
    (lit "/x")).mpr (Or.inr ⟨?_, fun _ => by decide⟩) _ _ _ _ (.refl _) (.swap ..)
  intro r₁ h₁ r₂ h₂ hbest₁ hbest₂
  have hstr : ∀ r ∈ [lit "/<a:int>", lit "/<b:str>"],
      Best (routeRules (fun uri route => uri = route) (lit "/x"))
        [lit "/<a:int>", lit "/<b:str>"] r → r = lit "/<b:str>" := by
    intro r hr hbest
    rcases List.mem_cons.mp hr with rfl | hr
    · exact absurd hbest hint
    · exact List.mem_singleton.mp hr
  rw [hstr r₁ h₁ hbest₁, hstr r₂ h₂ hbest₂]

/-- Two routes with a placeholder of one type: each is returned in some order. -/
theorem queryEndpointFromMap_order_matters :
    ¬ ∀ p₁ p₂ : Platform,
      queryEndpointFromMap (p₁.withRegex fun uri route => uri = route)
          (register [(lit "/<a:str>", textHandler []), (lit "/<b:str>", textHandler [])])
          (lit "/x") =
        queryEndpointFromMap (p₂.withRegex fun uri route => uri = route)
          (register [(lit "/<a:str>", textHandler []), (lit "/<b:str>", textHandler [])])
          (lit "/x") := by
  intro h
  have heq := congrArg (fun r => r.map Prod.fst)
    (h { Platform.plain with order := .front (lit "/<a:str>") }
      { Platform.plain with order := .front (lit "/<b:str>") })
  exact absurd heq (by decide)

end SimpleServer
