import SimpleServer.Http.ResponseMessage

/-!
# Chains of setters

A setter of `http_response` returns `*this` by value: the object is changed, and the call gives a
copy of it. In a chain the calls behind the first one are made on such copies, and what they store
is lost to the object that the chain began with (`chain_fst`). `chain_iff` says for which calls the
object is the same all the same.
-/

namespace SimpleServer

open Cxx

/-- A call: the object behind it, and the object that it returns. -/
def Setter.call (fs : FileSystem) (r : HttpResponse) (s : Setter) :
    Except Exn (HttpResponse × HttpResponse) := do
  let r ← s.apply fs r
  return (r, r)

/-- The expression `r.s1().s2() .. .sn()`: the object `r` behind it, and its value. -/
def chain (fs : FileSystem) (r : HttpResponse) :
    List Setter → Except Exn (HttpResponse × HttpResponse)
  | [] => .ok (r, r)
  | s :: setters => do
    let (r, copy) ← s.call fs r
    let (_, value) ← chain fs copy setters
    return (r, value)

/-- The same headers, body and home path. -/
structure SameResponse (r r' : HttpResponse) : Prop where
  headers : ∀ name, r.headers.lookup name = r'.headers.lookup name
  body : r.body = r'.body
  homePath : r.homePath = r'.homePath

section Stores

variable {fs : FileSystem} {r r' : HttpResponse}

/-- The headers that no setter sets. -/
theorem lookup_apply_of_ne {s : Setter} (h : s.apply fs r = .ok r') {name : Bytes}
    (h₁ : name ≠ lit "Content-Length") (h₂ : name ≠ lit "Content-Type") :
    r'.headers.lookup name = r.headers.lookup name := by
  cases s with
  | setBody body =>
    cases h
    exact AList.lookup_insert_ne h₁
  | setContentType type =>
    cases h
    exact AList.lookup_insert_ne h₂
  | renderTextFile filename =>
    obtain ⟨fi, -, rfl⟩ := exists_renderTextFile h
    rfl
  | renderHtmlFile filename =>
    obtain ⟨fi, -, rfl⟩ := exists_renderTextFile h
    exact AList.lookup_insert_ne h₂
  | setHomePath p =>
    cases h
    rfl

theorem lookup_applySetters_of_ne {setters : List Setter} (h : applySetters fs r setters = .ok r')
    {name : Bytes} (h₁ : name ≠ lit "Content-Length") (h₂ : name ≠ lit "Content-Type") :
    r'.headers.lookup name = r.headers.lookup name := by
  induction setters generalizing r with
  | nil =>
    cases h
    rfl
  | cons s setters ih =>
    rw [applySetters_cons] at h
    obtain ⟨first, hfirst, hrest⟩ := exists_of_bind_eq_ok h
    rw [ih hrest, lookup_apply_of_ne hfirst h₁ h₂]

/-- Only the places in which setters store can differ. -/
theorem sameResponse_applySetters_iff {setters : List Setter}
    (hok : applySetters fs r setters = .ok r') :
    SameResponse r r' ↔ ∀ place : Place, place.get r = place.get r' := by
  constructor
  · intro h place
    cases place with
    | contentLength => exact h.headers _
    | contentType => exact h.headers _
    | body => exact congrArg some h.body
    | homePath => exact congrArg some h.homePath
  · intro h
    refine ⟨fun name => ?_, Option.some.inj (h .body), Option.some.inj (h .homePath)⟩
    by_cases h₁ : name = lit "Content-Length"
    · subst h₁
      exact h .contentLength
    · by_cases h₂ : name = lit "Content-Type"
      · subst h₂
        exact h .contentType
      · exact (lookup_applySetters_of_ne hok h₁ h₂).symm

/-! ## Chains -/

theorem chain_cons {s : Setter} {first : HttpResponse} (h : s.apply fs r = .ok first)
    (setters : List Setter) :
    chain fs r (s :: setters) = (chain fs first setters).map fun c => (first, c.2) := by
  rw [chain, Setter.call, h]
  show (chain fs first setters >>= fun c => .ok (first, c.2)) = _
  cases chain fs first setters <;> rfl

/-- The value of a chain has seen all calls. -/
theorem chain_snd (fs : FileSystem) (r : HttpResponse) (setters : List Setter) :
    (chain fs r setters).map Prod.snd = applySetters fs r setters := by
  induction setters generalizing r with
  | nil => rfl
  | cons s setters ih =>
    rw [applySetters_cons]
    cases hfirst : s.apply fs r with
    | error e =>
      rw [chain, Setter.call, hfirst]
      rfl
    | ok first =>
      rw [chain_cons hfirst, ok_bind, ← ih]
      cases chain fs first setters <;> rfl

/-- The object that a chain begins with sees its first call alone. -/
theorem chain_fst {s : Setter} {setters : List Setter} {c : HttpResponse × HttpResponse}
    (h : chain fs r (s :: setters) = .ok c) : s.apply fs r = .ok c.1 := by
  cases hfirst : s.apply fs r with
  | error e =>
    rw [chain, Setter.call, hfirst] at h
    cases h
  | ok first =>
    rw [chain_cons hfirst] at h
    cases hrest : chain fs first setters with
    | error e =>
      rw [hrest] at h
      cases h
    | ok c' =>
      rw [hrest] at h
      cases h
      rfl

/-- A chain that returns leaves its object as the calls one by one do. -/
theorem sameResponse_chain_iff {setters : List Setter} {c : HttpResponse × HttpResponse}
    (hchain : chain fs r setters = .ok c) (hone : applySetters fs r setters = .ok r') :
    SameResponse c.1 r' ↔
      ∀ s rest, setters = s :: rest → ∀ (place : Place) (text : Bytes),
        place.lastStored fs rest = some text →
          (place.stored fs s).or (place.get r) = some text := by
  cases setters with
  | nil =>
    cases hchain
    cases hone
    exact iff_of_true ⟨fun _ => rfl, rfl, rfl⟩ (by simp)
  | cons s rest =>
    have hfirst : s.apply fs r = .ok c.1 := chain_fst hchain
    have hrest : applySetters fs c.1 rest = .ok r' := by
      rw [← hone, applySetters_cons, hfirst, ok_bind]
    rw [sameResponse_applySetters_iff hrest]
    simp only [get_applySetters hrest, get_apply hfirst]
    constructor
    · rintro h s' rest' heq place text hlast
      cases heq
      have hplace := h place
      rwa [hlast, Option.some_or] at hplace
    · intro h place
      cases hlast : place.lastStored fs rest with
      | none => rw [Option.none_or]
      | some text => rw [Option.some_or, h s rest rfl place text hlast]

end Stores

/-- **When a chain does what separate statements do.** For every response and every list of calls:
both return, and the chain leaves the response in the state in which the calls one by one leave it,
exactly when no call lists a member of a directory and, of the calls behind the first one, the last
to store at a place stores there what the first one stored or, if it stored nothing there, what the
response already held. -/
theorem chain_iff (fs : FileSystem) (r : HttpResponse) (setters : List Setter) :
    (∃ c r', chain fs r setters = .ok c ∧ applySetters fs r setters = .ok r' ∧
        SameResponse c.1 r') ↔
      (∀ s ∈ setters, ¬ s.Lists fs) ∧
      ∀ s rest, setters = s :: rest → ∀ (place : Place) (text : Bytes),
        place.lastStored fs rest = some text →
          (place.stored fs s).or (place.get r) = some text := by
  rw [← exists_applySetters_iff r setters]
  constructor
  · rintro ⟨c, r', hchain, hone, hsame⟩
    exact ⟨⟨r', hone⟩, (sameResponse_chain_iff hchain hone).mp hsame⟩
  · rintro ⟨⟨r', hone⟩, hstored⟩
    have hvalue := chain_snd fs r setters
    rw [hone] at hvalue
    cases hchain : chain fs r setters with
    | error e =>
      rw [hchain] at hvalue
      cases hvalue
    | ok c => exact ⟨c, r', rfl, hone, (sameResponse_chain_iff hchain hone).mpr hstored⟩

/-- The home path behind a body is lost. -/
theorem not_chain : ∃ setters : List Setter,
    setters = [.setBody (lit "a"), .setHomePath (lit "/srv")] ∧
    ¬ ∃ c r', chain (oneFile [] []) (.default .ok) setters = .ok c ∧
      applySetters (oneFile [] []) (.default .ok) setters = .ok r' ∧ SameResponse c.1 r' := by
  refine ⟨_, rfl, ?_⟩
  rintro ⟨c, r', hchain, hone, h⟩
  cases hchain
  cases hone
  exact absurd h.homePath (by decide)

end SimpleServer
