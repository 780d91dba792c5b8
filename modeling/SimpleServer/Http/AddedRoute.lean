import SimpleServer.Http.RouteSelection

/-!
# Adding a route

A route that is added should leave the lookups of the URLs that it does not match as they were.
`query_endpoint_from_map` compiles the text of every route as a regular expression while it looks
for a URL that is not registered itself, and splits it when no route has matched so far.
`add_route_handler` takes any text, so that one route whose text does not compile makes these
lookups throw, and one that is too long for `split_words` makes them undefined. `unaffected_iff`
says for which URLs this cannot happen.
-/

namespace SimpleServer

open Cxx Priority

/-- The constructor of `std::regex` does not throw. -/
def Compiles (platform : Platform) (route : Bytes) : Prop := (platform.regex route).isSome

instance (platform : Platform) : DecidablePred (Compiles platform) := fun route =>
  inferInstanceAs (Decidable ((platform.regex route).isSome = true))

/-- `std::regex_match(uri, route)`, false for a text that does not compile. -/
def Platform.regexMatch (platform : Platform) (uri route : Bytes) : Bool :=
  match platform.regex route with
  | some regexMatch => regexMatch uri
  | none => false

/-- The route satisfies the URL by one of the rules. -/
def Matches (platform : Platform) (route uri : Bytes) : Prop :=
  ∃ rule ∈ routeRules platform.regexMatch uri, rule route = true

/-- The lookup with the additional route, in one order, returns, and what it does without it, in
the other order, unless the additional route matches. -/
def Unaffected (platform : Platform) (order order' : HashOrder) (routes : RoutesMap)
    (route : Bytes) (cb : Endpoint) (uri : Bytes) : Prop :=
  ∃ res,
    queryEndpointFromMap { platform with order } (addRouteHandler route cb routes) uri = .ok res ∧
      (¬ Matches platform route uri →
        queryEndpointFromMap { platform with order := order' } routes uri = .ok res)

/-- A loop meets the routes in the same order with the additional one as without it. -/
def KeepsOrder (order : HashOrder) (routes : RoutesMap) (route : Bytes) (cb : Endpoint) : Prop :=
  (order.enum (addRouteHandler route cb routes)).filter (fun it => it.1 ≠ route) =
    order.enum routes

variable {platform : Platform} {routes : RoutesMap} {route uri : Bytes} {cb : Endpoint}
  {order order' : HashOrder}

/-! ## Lookups -/

theorem matchRegex_of_compiles {β : Type} {its : List (Bytes × β)}
    (h : ∀ it ∈ its, Compiles platform it.1) :
    matchRegex platform uri its = .ok (its.find? fun it => platform.regexMatch uri it.1) := by
  induction its with
  | nil => rfl
  | cons it its ih =>
    obtain ⟨hit, hits⟩ := List.forall_mem_cons.mp h
    obtain ⟨regexMatch, hregex⟩ := Option.isSome_iff_exists.mp hit
    have hmatch : platform.regexMatch uri it.1 = regexMatch uri := by
      rw [Platform.regexMatch, hregex]
    rw [matchRegex, List.find?_cons, hregex, hmatch, ih hits]
    show (if regexMatch uri = true then _ else _) = _
    cases regexMatch uri <;> rfl

/-- When every route compiles, the constructor does not matter. -/
theorem queryEndpointFromMap_of_compiles (platform : Platform)
    (h : ∀ r ∈ routes, Compiles platform r) (uri : Bytes) :
    queryEndpointFromMap platform routes uri =
      queryEndpointFromMap (platform.withRegex platform.regexMatch) routes uri := by
  have hits : ∀ it ∈ platform.order.enum routes, Compiles platform it.1 := fun it hit =>
    h it.1 ((HashOrder.mem_keys_enum platform.order).mp (List.mem_map_of_mem hit))
  have horder : (platform.withRegex platform.regexMatch).order = platform.order := rfl
  simp only [queryEndpointFromMap, matchRegex_of_compiles hits, matchRegex_eq, horder]

/-- The URL `/` and a URL that is registered are looked up alone. -/
theorem queryEndpointFromMap_slash :
    queryEndpointFromMap platform routes (lit "/") =
      .ok (pairOf ((routes.lookup (lit "/")).map fun cb => (lit "/", cb))) :=
  queryEndpointFromMap_root platform platform.regexMatch routes

theorem queryEndpointFromMap_of_lookup (huri : uri ≠ lit "/") (h : routes.lookup uri = some cb) :
    queryEndpointFromMap platform routes uri = .ok (uri, some cb) := by
  rw [queryEndpointFromMap, if_neg fun hroot => huri hroot.2, h]

/-- A route that does not compile and is met first makes every other lookup throw. -/
theorem queryEndpointFromMap_throws {bad : Bytes} (huri : uri ≠ lit "/")
    (hnone : routes.lookup uri = none) (hmem : bad ∈ routes) (hbad : ¬ Compiles platform bad) :
    queryEndpointFromMap { platform with order := .front bad } routes uri =
      .error .regexError := by
  obtain ⟨cb, hcb⟩ := Option.isSome_iff_exists.mp (AList.lookup_isSome.mpr hmem)
  obtain ⟨rest, hrest⟩ := HashOrder.enum_front hcb
  have hregex : platform.regex bad = none := Option.not_isSome_iff_eq_none.mp hbad
  rw [queryEndpointFromMap, if_neg fun hroot => huri hroot.2, hnone]
  simp only [hrest, matchRegex, hregex]

theorem queryEndpointFromMap_search (huri : uri ≠ lit "/")
    (h : ∀ r ∈ routes, Compiles platform r)
    (hsearch : Searchable platform.regexMatch routes uri) (order : HashOrder) :
    queryEndpointFromMap { platform with order } routes uri =
      .ok (pairOf (searchRoutes platform.regexMatch uri order routes)) :=
  (queryEndpointFromMap_of_compiles { platform with order } h uri).trans
    (queryEndpointFromMap_eq { platform with order } platform.regexMatch huri hsearch)

/-! ## The additional route -/

theorem lookup_added (routes : RoutesMap) (route : Bytes) (cb : Endpoint) :
    (addRouteHandler route cb routes).lookup route = some cb := by
  rw [addRouteHandler_eq, AList.lookup_insert]

theorem lookup_added_of_ne (cb : Endpoint) {r : Bytes} (h : r ≠ route) :
    (addRouteHandler route cb routes).lookup r = routes.lookup r := by
  rw [addRouteHandler_eq, AList.lookup_insert_ne h]

theorem mem_added {r : Bytes} : r ∈ addRouteHandler route cb routes ↔ r = route ∨ r ∈ routes := by
  rw [addRouteHandler_eq, AList.mem_insert]

theorem lookup_eq_none_of_notMem {r : Bytes} (h : r ∉ routes) : routes.lookup r = none :=
  AList.lookup_eq_none.mpr h

/-- Without the additional route the loop meets the other entries. -/
theorem filter_enum_perm (order order' : HashOrder) (cb : Endpoint) (hnew : route ∉ routes) :
    ((order.enum (addRouteHandler route cb routes)).filter (fun it => it.1 ≠ route)).Perm
      (order'.enum routes) := by
  rw [List.perm_ext_iff_of_nodup ((order.nodup_enum _).filter _) (order'.nodup_enum _)]
  rintro ⟨r, cb'⟩
  rw [List.mem_filter, HashOrder.mem_enum, HashOrder.mem_enum, decide_eq_true_eq]
  constructor
  · rintro ⟨hlookup, hne⟩
    rwa [lookup_added_of_ne cb hne] at hlookup
  · intro hlookup
    have hne : r ≠ route := by
      rintro rfl
      rw [lookup_eq_none_of_notMem hnew] at hlookup
      cases hlookup
    exact ⟨(lookup_added_of_ne cb hne).trans hlookup, hne⟩

/-- An order with a given route in front is one that is kept. -/
theorem keepsOrder_front (hnew : route ∉ routes) (front : Bytes) :
    KeepsOrder (.front front) routes route cb := by
  have hlisted : HashOrder.listed.enum (addRouteHandler route cb routes) =
      (route, cb) :: HashOrder.listed.enum routes := by
    rw [addRouteHandler_eq, HashOrder.listed]
    simp only [AList.entries_insert_of_notMem hnew, List.map_cons]
  have hrest : (HashOrder.listed.enum (addRouteHandler route cb routes)).filter
      (fun it => it.1 ≠ route) = HashOrder.listed.enum routes := by
    rw [hlisted, List.filter_cons_of_neg (by simp), List.filter_eq_self]
    intro it hit
    rw [decide_eq_true_eq]
    rintro rfl
    exact hnew ((HashOrder.mem_keys_enum .listed).mp (List.mem_map_of_mem hit))
  show ((HashOrder.listed.enum (addRouteHandler route cb routes)).filter _ ++
    (HashOrder.listed.enum (addRouteHandler route cb routes)).filter _).filter _ =
      (HashOrder.listed.enum routes).filter _ ++ (HashOrder.listed.enum routes).filter _
  rw [List.filter_append, List.filter_comm, hrest, List.filter_comm, hrest]

/-- A route that satisfies no rule is not found, and hides nothing. -/
theorem searchRoutes_added (hnot : ¬ Matches platform route uri) :
    searchRoutes platform.regexMatch uri order (addRouteHandler route cb routes) =
      search ((routeRules platform.regexMatch uri).map (· ∘ Prod.fst))
        ((order.enum (addRouteHandler route cb routes)).filter fun it => it.1 ≠ route) := by
  rw [searchRoutes]
  symm
  apply search_filter
  intro it _ hkeep r hr
  obtain ⟨rule, hrule, rfl⟩ := List.mem_map.mp hr
  have hit : it.1 = route := by simpa using hkeep
  apply Bool.eq_false_of_not_eq_true
  exact fun htrue => hnot ⟨rule, hrule, hit ▸ htrue⟩

/-! ## When the others are not affected -/

theorem matches_self : Matches platform uri uri :=
  ⟨_, List.mem_cons_self, decide_eq_true rfl⟩

/-- The URL is found without a search. -/
def Registered (routes : RoutesMap) (route uri : Bytes) : Prop :=
  uri = lit "/" ∨ uri = route ∨ uri ∈ routes

theorem Registered.unaffected (h : Registered routes route uri) :
    Unaffected platform order order' routes route cb uri := by
  by_cases hroot : uri = lit "/"
  · subst hroot
    refine ⟨_, queryEndpointFromMap_slash, fun hnot => ?_⟩
    have hne : lit "/" ≠ route := by
      rintro rfl
      exact hnot matches_self
    rw [queryEndpointFromMap_slash, lookup_added_of_ne cb hne]
  · by_cases hself : uri = route
    · subst hself
      refine ⟨_, queryEndpointFromMap_of_lookup hroot (lookup_added routes uri cb), fun hnot => ?_⟩
      exact absurd matches_self hnot
    · have hmem : uri ∈ routes := (h.resolve_left hroot).resolve_left hself
      obtain ⟨endpoint, hlookup⟩ := Option.isSome_iff_exists.mp (AList.lookup_isSome.mpr hmem)
      have hadded := (lookup_added_of_ne cb hself).trans hlookup
      exact ⟨_, queryEndpointFromMap_of_lookup hroot hadded, fun _ =>
        queryEndpointFromMap_of_lookup hroot hlookup⟩

/-- A route that matches neither the URL nor another one does not make the search end earlier. -/
theorem Searchable.of_added
    (h : Searchable platform.regexMatch (addRouteHandler route cb routes) uri)
    (hreg : ¬ Registered routes route uri) (hnot : ¬ Matches platform route uri) :
    Searchable platform.regexMatch routes uri := by
  rcases h with hmem | ⟨r, hr, hmatch⟩ | ⟨huri, hall⟩
  · exact absurd (Or.inr (mem_added.mp hmem)) hreg
  · rcases mem_added.mp hr with rfl | hr
    · exact absurd ⟨_, List.mem_cons_of_mem _ List.mem_cons_self, hmatch⟩ hnot
    · exact Or.inr (Or.inl ⟨r, hr, hmatch⟩)
  · exact Or.inr (Or.inr ⟨huri, fun r hr => hall r (mem_added.mpr (Or.inr hr))⟩)

/-- When the lookups are searches, both return, and they agree when the searches do. -/
theorem unaffected_iff_search (h : ¬ Registered routes route uri)
    (hall : ∀ r ∈ addRouteHandler route cb routes, Compiles platform r)
    (hsearch : Searchable platform.regexMatch (addRouteHandler route cb routes) uri) :
    Unaffected platform order order' routes route cb uri ↔
      (¬ Matches platform route uri →
        pairOf (search ((routeRules platform.regexMatch uri).map (· ∘ Prod.fst))
          ((order.enum (addRouteHandler route cb routes)).filter fun it => it.1 ≠ route)) =
        pairOf (searchRoutes platform.regexMatch uri order' routes)) := by
  have hroot : uri ≠ lit "/" := fun hroot => h (Or.inl hroot)
  have hadded := queryEndpointFromMap_search hroot hall hsearch order
  have hold := fun hnot => queryEndpointFromMap_search hroot
    (fun r hr => hall r (mem_added.mpr (Or.inr hr))) (hsearch.of_added h hnot) order'
  rw [Unaffected, hadded]
  constructor
  · rintro ⟨res, hres, hsame⟩ hnot
    have hres' := hsame hnot
    rw [hold hnot] at hres'
    rw [← searchRoutes_added hnot]
    exact (Except.ok.inj hres).trans (Except.ok.inj hres').symm
  · intro hsame
    refine ⟨_, rfl, fun hnot => ?_⟩
    rw [hold hnot, searchRoutes_added hnot, hsame hnot]

/-- A route that does not compile makes a lookup throw when the loop meets it first. -/
theorem not_unaffected_front {bad : Bytes} (h : ¬ Registered routes route uri)
    (hmem : bad ∈ addRouteHandler route cb routes) (hbad : ¬ Compiles platform bad) :
    ¬ Unaffected platform (.front bad) order' routes route cb uri := by
  rintro ⟨res, hres, -⟩
  obtain ⟨hroot, hself, hnew⟩ : uri ≠ lit "/" ∧ uri ≠ route ∧ uri ∉ routes := by
    rw [Registered, not_or, not_or] at h
    exact h
  have hnone := (lookup_added_of_ne cb hself).trans (lookup_eq_none_of_notMem hnew)
  rw [queryEndpointFromMap_throws hroot hnone hmem hbad] at hres
  cases hres

/-- A search that cannot be ended makes a lookup undefined in some order. -/
theorem exists_not_unaffected (h : ¬ Registered routes route uri)
    (hall : ∀ r ∈ addRouteHandler route cb routes, Compiles platform r)
    (hsearch : ¬ Searchable platform.regexMatch (addRouteHandler route cb routes) uri) :
    ∃ front, ∀ order', ¬ Unaffected platform (.front front) order' routes route cb uri := by
  have hroot : uri ≠ lit "/" := fun hroot => h (Or.inl hroot)
  obtain ⟨front, hfront⟩ :=
    exists_front_undefined platform platform.regexMatch hroot hsearch
  refine ⟨front, ?_⟩
  rintro order' ⟨res, hres, -⟩
  have hundefined := (queryEndpointFromMap_of_compiles { platform with order := .front front } hall
    uri).trans hfront
  rw [hundefined] at hres
  cases hres

theorem exists_not_compiles
    (h : ¬ ∀ r ∈ addRouteHandler route cb routes, Compiles platform r) :
    ∃ bad ∈ addRouteHandler route cb routes, ¬ Compiles platform bad := by
  simpa using h

/-- One best route of two is found in either order, when neither order has an effect. -/
theorem unique_of_unaffected (h : ¬ Registered routes route uri)
    (hall : ∀ r ∈ addRouteHandler route cb routes, Compiles platform r)
    (hsearch : Searchable platform.regexMatch (addRouteHandler route cb routes) uri)
    (hnot : ¬ Matches platform route uri)
    (hunaffected : ∀ order order', Unaffected platform order order' routes route cb uri)
    {r₁ r₂ : Bytes} (h₁ : r₁ ∈ routes) (h₂ : r₂ ∈ routes)
    (hbest₁ : Best (routeRules platform.regexMatch uri) routes.keys r₁)
    (hbest₂ : Best (routeRules platform.regexMatch uri) routes.keys r₂) : r₁ = r₂ := by
  obtain ⟨cb₁, hcb₁⟩ := Option.isSome_iff_exists.mp (AList.lookup_isSome.mpr h₁)
  obtain ⟨cb₂, hcb₂⟩ := Option.isSome_iff_exists.mp (AList.lookup_isSome.mpr h₂)
  have hfirst := (unaffected_iff_search h hall hsearch).mp (hunaffected .listed (.front r₁)) hnot
  have hsecond := (unaffected_iff_search h hall hsearch).mp (hunaffected .listed (.front r₂)) hnot
  rw [hfirst, searchRoutes_front hcb₁ hbest₁, searchRoutes_front hcb₂ hbest₂] at hsecond
  exact (Prod.mk.inj hsecond).1

/-- **When an additional route leaves the others alone.** For every set of routes, every route not
registered yet and every URL: in every order that the loops keep, the lookup returns and is what
it was unless the additional route matches, if and only if the URL is `/` or registered, or every
route compiles and, when none matches the URL as a regular expression, `split_words` can index the
URL and every route; in any two orders, if and only if moreover, when the URL is searched for, the
additional route matches or no two of the others are best. -/
theorem unaffected_iff (platform : Platform) (routes : RoutesMap) (route : Bytes) (cb : Endpoint)
    (hnew : route ∉ routes) (uri : Bytes) :
    ((∀ order, KeepsOrder order routes route cb →
        Unaffected platform order order routes route cb uri) ↔
      Registered routes route uri ∨
        ((∀ r ∈ addRouteHandler route cb routes, Compiles platform r) ∧
          Searchable platform.regexMatch (addRouteHandler route cb routes) uri)) ∧
    ((∀ order order', Unaffected platform order order' routes route cb uri) ↔
      Registered routes route uri ∨
        ((∀ r ∈ addRouteHandler route cb routes, Compiles platform r) ∧
          Searchable platform.regexMatch (addRouteHandler route cb routes) uri ∧
          (Matches platform route uri ∨ ∀ r₁ ∈ routes, ∀ r₂ ∈ routes,
            Best (routeRules platform.regexMatch uri) routes.keys r₁ →
            Best (routeRules platform.regexMatch uri) routes.keys r₂ → r₁ = r₂))) := by
  by_cases h : Registered routes route uri
  · exact ⟨iff_of_true (fun _ _ => h.unaffected) (Or.inl h),
      iff_of_true (fun _ _ => h.unaffected) (Or.inl h)⟩
  rw [or_iff_right h, or_iff_right h]
  by_cases hboth : (∀ r ∈ addRouteHandler route cb routes, Compiles platform r) ∧
    Searchable platform.regexMatch (addRouteHandler route cb routes) uri
  swap
  · -- in some order the lookup does not return
    obtain ⟨front, hfails⟩ :
        ∃ front, ∀ order', ¬ Unaffected platform (.front front) order' routes route cb uri := by
      by_cases hall : ∀ r ∈ addRouteHandler route cb routes, Compiles platform r
      · exact exists_not_unaffected h hall fun hsearch => hboth ⟨hall, hsearch⟩
      · obtain ⟨bad, hmem, hbad⟩ := exists_not_compiles hall
        exact ⟨bad, fun order' => not_unaffected_front h hmem hbad⟩
    constructor
    · apply iff_of_false _ hboth
      exact fun hunaffected => hfails _ (hunaffected _ (keepsOrder_front hnew front))
    · apply iff_of_false _ fun hcond => hboth ⟨hcond.1, hcond.2.1⟩
      exact fun hunaffected => hfails .listed (hunaffected _ _)
  · obtain ⟨hall, hsearch⟩ := hboth
    constructor
    · refine iff_of_true (fun order hkeeps => ?_) ⟨hall, hsearch⟩
      rw [unaffected_iff_search h hall hsearch, hkeeps]
      exact fun _ => rfl
    · rw [and_iff_right hall, and_iff_right hsearch]
      constructor
      · intro hunaffected
        rw [or_iff_not_imp_left]
        exact fun hnot r₁ h₁ r₂ h₂ => unique_of_unaffected h hall hsearch hnot hunaffected h₁ h₂
      · intro hunique order order'
        rw [unaffected_iff_search h hall hsearch]
        intro hnot
        have hbest := hunique.resolve_left hnot
        have hperm := filter_enum_perm order order' cb hnew
        exact congrArg pairOf (search_eq_of_unique hperm.symm (eq_of_best_enum hbest)).symm

/-- A platform whose constructor of `std::regex` takes every text but `/(`, whose parenthesis is not
closed, and on which a regular expression matches its own text alone. -/
def literalPlatform : Platform :=
  { Platform.plain with
    regex := fun route => if route = lit "/(" then none else some fun uri => uri = route }

/-- A route with a number is added, and another URL is not found as before. -/
theorem unaffected_item :
    Unaffected literalPlatform .listed .listed ∅ (lit "/item/<id:int>") (textHandler [])
      (lit "/about") := by
  have hadded : ∀ r ∈ addRouteHandler (lit "/item/<id:int>") (textHandler []) ∅,
      r = lit "/item/<id:int>" := by
    intro r hr
    exact (mem_added.mp hr).resolve_right (AList.notMem_empty r)
  apply (unaffected_iff literalPlatform ∅ (lit "/item/<id:int>") (textHandler []) (by decide)
    (lit "/about")).2.mpr
  refine Or.inr ⟨fun r hr => ?_, Or.inr (Or.inr ⟨by decide, fun r hr => ?_⟩),
    Or.inr fun r hr => absurd hr (AList.notMem_empty r)⟩
  · rw [hadded r hr]
    decide
  · rw [hadded r hr]
    decide

/-- The route `/(` is added, and a lookup of another URL throws. -/
theorem not_unaffected_paren :
    ¬ ∀ (platform : Platform) (routes : RoutesMap) (route : Bytes) (cb : Endpoint),
      route ∉ routes → ∀ (uri : Bytes) (order : HashOrder), KeepsOrder order routes route cb →
        Unaffected platform order order routes route cb uri := by
  intro h
  have hparen := h literalPlatform ∅ (lit "/(") (textHandler []) (by decide) (lit "/about")
    (.front (lit "/(")) (keepsOrder_front (by decide) _)
  apply not_unaffected_front _ (mem_added.mpr (Or.inl rfl)) _ hparen
  · rintro (hroot | hself | hmem)
    · exact absurd hroot (by decide)
    · exact absurd hself (by decide)
    · exact AList.notMem_empty _ hmem
  · decide

end SimpleServer
