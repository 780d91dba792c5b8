import SimpleServer.Http.Server

/-!
# The decision to upgrade

Two functions look at the headers of an upgrade request. `websocket_manager::is_websocket` looks
up the name `Upgrade` as it is spelled, and `find_websocket_key` compares names in lower case;
`sameDecision_iff` says which changes of the letter case of names the decision survives. The map
keeps names that differ in letter case apart, and the key is that of the entry that its order
brings first; `findWebsocketKey_order_iff` says when the order does not matter.

`add_new_connection_connection` sends its answer and registers the descriptor, whatever `send`
returns. `addNewConnectionConnection_atomic_iff` says when that is the same as registering behind
an answer that was sent as a whole.
-/

namespace SimpleServer

open Cxx Posix

/-! ## The key of a request -/

/-- The lower-case name of the header with the key. -/
def keyName : Bytes := lit "sec-websocket-key"

/-- `find_websocket_key` returns the value of a header with the name of the key, or there is no
such header. -/
theorem findWebsocketKey_cases (platform : Platform) (headers : StringMap) :
    (∃ name, toLowerCase name = keyName ∧
        headers.lookup name = some (findWebsocketKey platform headers)) ∨
      (findWebsocketKey platform headers = [] ∧
        ∀ name ∈ headers, toLowerCase name ≠ keyName) := by
  rw [findWebsocketKey, ← keyName]
  cases hfind : (platform.order.enum headers).find? fun it => toLowerCase it.1 = keyName with
  | none =>
    refine Or.inr ⟨rfl, fun name hname heq => ?_⟩
    obtain ⟨e, he, rfl⟩ := List.mem_map.mp (platform.order.mem_keys_enum.mpr hname)
    exact List.find?_eq_none.mp hfind e he (by simpa using heq)
  | some e =>
    have hname : toLowerCase e.1 = keyName := by simpa using List.find?_some hfind
    exact Or.inl ⟨e.1, hname, platform.order.mem_enum.mp (List.mem_of_find?_eq_some hfind)⟩

/-! ## Letter case -/

/-- No two names of a map are the same in lower case. -/
def DistinctNames (headers : StringMap) : Prop :=
  ∀ name₁ ∈ headers, ∀ name₂ ∈ headers, toLowerCase name₁ = toLowerCase name₂ → name₁ = name₂

instance (headers : StringMap) : Decidable (DistinctNames headers) :=
  inferInstanceAs (Decidable (∀ name₁ ∈ headers.keys, ∀ name₂ ∈ headers.keys,
    toLowerCase name₁ = toLowerCase name₂ → name₁ = name₂))

/-- The two maps hold the same values under names that differ in letter case alone, and no two
names of a map do so. -/
structure Recased (headers headers' : StringMap) : Prop where
  forth : ∀ name value, headers.lookup name = some value →
    ∃ name', toLowerCase name' = toLowerCase name ∧ headers'.lookup name' = some value
  back : ∀ name' value, headers'.lookup name' = some value →
    ∃ name, toLowerCase name = toLowerCase name' ∧ headers.lookup name = some value
  distinct : DistinctNames headers
  distinct' : DistinctNames headers'

/-- `handle_connection_request` takes the same decision on two maps, with the same key. -/
def SameDecision (platform : Platform) (headers headers' : StringMap) : Prop :=
  isWebsocket headers = isWebsocket headers' ∧
    findWebsocketKey platform headers = findWebsocketKey platform headers'

section Recased

variable {platform : Platform} {headers headers' : StringMap}

theorem mem_of_lookup {name value : Bytes} (h : headers.lookup name = some value) :
    name ∈ headers := by
  rw [← AList.lookup_isSome, h]
  rfl

theorem exists_lookup {name : Bytes} (h : name ∈ headers) :
    ∃ value, headers.lookup name = some value :=
  Option.isSome_iff_exists.mp (AList.lookup_isSome.mpr h)

theorem isWebsocket_iff (headers : StringMap) :
    isWebsocket headers = true ↔ lit "Upgrade" ∈ headers :=
  AList.lookup_isSome

/-- The key does not depend on the letter case of its name. -/
theorem Recased.findWebsocketKey_eq (h : Recased headers headers') :
    findWebsocketKey platform headers = findWebsocketKey platform headers' := by
  rcases findWebsocketKey_cases platform headers with ⟨name, hname, hlookup⟩ | ⟨hnil, hnone⟩
  · obtain ⟨name', hcase, hlookup'⟩ := h.forth name _ hlookup
    rcases findWebsocketKey_cases platform headers' with ⟨found, hfound, hvalue⟩ | ⟨-, hnone⟩
    · have heq : name' = found := h.distinct' name' (mem_of_lookup hlookup') found
        (mem_of_lookup hvalue) (by rw [hcase, hname, hfound])
      rw [heq, hvalue, Option.some.injEq] at hlookup'
      exact hlookup'.symm
    · exact absurd (hcase.trans hname) (hnone name' (mem_of_lookup hlookup'))
  · rcases findWebsocketKey_cases platform headers' with ⟨found, hfound, hvalue⟩ | ⟨hnil', -⟩
    · obtain ⟨name, hcase, hlookup⟩ := h.back found _ hvalue
      exact absurd (hcase.trans hfound) (hnone name (mem_of_lookup hlookup))
    · rw [hnil, hnil']

/-- The map with one name spelled in another way. -/
theorem recased_rename (hdistinct : DistinctNames headers) {name name' value : Bytes}
    (hlookup : headers.lookup name = some value) (hcase : toLowerCase name' = toLowerCase name)
    (hne : name' ≠ name) : Recased headers ((headers.erase name).insert name' value) := by
  have hname : name ∈ headers := mem_of_lookup hlookup
  have hother : ∀ n ∈ headers, n ≠ name → toLowerCase n ≠ toLowerCase name := fun n hn hn' heq =>
    hn' (hdistinct n hn name hname heq)
  refine ⟨fun n v hv => ?_, fun n v hv => ?_, hdistinct, fun n₁ h₁ n₂ h₂ heq => ?_⟩
  · by_cases hn : n = name
    · subst hn
      rw [hlookup] at hv
      exact ⟨name', hcase, by rw [AList.lookup_insert, hv]⟩
    · have hn' : n ≠ name' := by
        rintro rfl
        exact hother n (mem_of_lookup hv) hn hcase
      exact ⟨n, rfl, by rw [AList.lookup_insert_ne hn', AList.lookup_erase_ne hn, hv]⟩
  · by_cases hn : n = name'
    · subst hn
      rw [AList.lookup_insert] at hv
      exact ⟨name, hcase.symm, by rw [hlookup, hv]⟩
    · rw [AList.lookup_insert_ne hn] at hv
      have hn' : n ≠ name := by
        rintro rfl
        rw [AList.lookup_erase] at hv
        cases hv
      exact ⟨n, rfl, by rw [← hv, AList.lookup_erase_ne hn']⟩
  · rw [AList.mem_insert, AList.mem_erase] at h₁ h₂
    rcases h₁ with rfl | ⟨hn₁, h₁⟩ <;> rcases h₂ with rfl | ⟨hn₂, h₂⟩
    · rfl
    · exact absurd (heq.symm.trans hcase) (hother n₂ h₂ hn₂)
    · exact absurd (heq.trans hcase) (hother n₁ h₁ hn₁)
    · exact hdistinct n₁ h₁ n₂ h₂ heq

theorem Recased.decision_iff (h : Recased headers headers') :
    SameDecision platform headers headers' ↔
      (lit "Upgrade" ∈ headers ↔ lit "Upgrade" ∈ headers') := by
  rw [SameDecision, and_iff_left h.findWebsocketKey_eq, Bool.eq_iff_iff, isWebsocket_iff,
    isWebsocket_iff]

/-- **Which changes of letter case the decision survives.** One change of the letter case of the
names keeps the decision exactly when it keeps the presence of the name `Upgrade` in this
spelling. All of them keep it exactly when no name is `Upgrade` in any letter case. -/
theorem sameDecision_iff (platform : Platform) (headers : StringMap)
    (hdistinct : DistinctNames headers) :
    ((∀ headers', Recased headers headers' → SameDecision platform headers headers') ↔
      ∀ name ∈ headers, toLowerCase name ≠ lit "upgrade") ∧
    ∀ headers', Recased headers headers' → (SameDecision platform headers headers' ↔
      (lit "Upgrade" ∈ headers ↔ lit "Upgrade" ∈ headers')) := by
  refine ⟨⟨fun hall name hname hcase => ?_, fun hnone headers' h => ?_⟩,
    fun headers' h => h.decision_iff⟩
  · obtain ⟨value, hlookup⟩ := exists_lookup hname
    by_cases hspelled : name = lit "Upgrade"
    · -- the spelling that is looked up is lost
      have h : Recased headers ((headers.erase name).insert (lit "upgrade") value) :=
        recased_rename hdistinct hlookup (by rw [hcase]; decide) (by rw [hspelled]; decide)
      have hmem := (h.decision_iff.mp (hall _ h)).mp (hspelled ▸ hname)
      rw [AList.mem_insert, AList.mem_erase, hspelled] at hmem
      exact hmem.elim (by decide) fun h => h.1 rfl
    · -- the spelling that is looked up is found
      have h : Recased headers ((headers.erase name).insert (lit "Upgrade") value) :=
        recased_rename hdistinct hlookup (by rw [hcase]; decide) (Ne.symm hspelled)
      have hmem : lit "Upgrade" ∈ headers := (h.decision_iff.mp (hall _ h)).mpr
        ((AList.mem_insert _).mpr (Or.inl rfl))
      exact hspelled (hdistinct name hname _ hmem (by rw [hcase]; decide))
  · refine h.decision_iff.mpr (iff_of_false (fun hmem => ?_) fun hmem => ?_)
    · exact hnone _ hmem (by decide)
    · obtain ⟨value, hlookup⟩ := exists_lookup hmem
      obtain ⟨name, hcase, hname⟩ := h.back _ _ hlookup
      exact hnone name (mem_of_lookup hname) (hcase.trans (by decide))

end Recased

/-- The headers of an upgrade request. -/
def upgradeHeaders : StringMap :=
  (AList.insert (lit "Upgrade") (lit "websocket") ∅).insert (lit "Sec-WebSocket-Key")
    (lit "dGhlIHNhbXBsZSBub25jZQ==")

/-- The headers of a request that has a key and no `Upgrade`. -/
def keyAlone : StringMap := AList.insert (lit "Sec-WebSocket-Key") (lit "a") ∅

/-- They are left alone in every spelling, such as one in lower case. -/
theorem sameDecision_keyAlone : SameDecision .plain keyAlone
    ((keyAlone.erase (lit "Sec-WebSocket-Key")).insert keyName (lit "a")) := by
  have hdistinct : DistinctNames keyAlone := by decide
  refine (sameDecision_iff .plain keyAlone hdistinct).1.mpr ?_ _ ?_
  · intro name hname
    rcases (AList.mem_insert _).mp hname with rfl | hname
    · decide
    · exact absurd hname (AList.notMem_empty _)
  · exact recased_rename hdistinct (by decide) (by decide) (by decide)

/-- An upgrade request that spells `Upgrade` in lower case goes to the routes. -/
theorem upgrades_lowerCase : ∃ headers', Recased upgradeHeaders headers' ∧
    ¬ SameDecision .plain upgradeHeaders headers' ∧
      upgrades .plain upgradeHeaders = true ∧
      upgrades .plain headers' = false := by
  refine ⟨(upgradeHeaders.erase (lit "Upgrade")).insert (lit "upgrade") (lit "websocket"),
    recased_rename (by decide) (by decide) (by decide) (by decide), ?_, by decide, by decide⟩
  rintro ⟨hws, -⟩
  exact absurd hws (by decide)

/-! ## The handshake -/

/-- A header with the name of the key, in any letter case, has a value that is not empty. -/
def HasKey (headers : StringMap) : Prop :=
  ∃ name value, headers.lookup name = some value ∧ toLowerCase name = keyName ∧ value ≠ []

/-- A header with the name of the key has an empty value. -/
def HasEmptyKey (headers : StringMap) : Prop :=
  ∃ name, headers.lookup name = some [] ∧ toLowerCase name = keyName

/-- `add_new_connection_connection` returns `true` and registers the descriptor when the headers
have a key and `send` takes the whole answer, and else returns `false` and registers nothing. -/
def AtomicHandshake (platform : Platform) (fd : ℤ) (headers : StringMap) (w : World) : Prop :=
  let result := addNewConnectionConnection platform fd headers w
  let answer := upgradeResponse platform (findWebsocketKey platform headers)
  (HasKey headers ∧ w.kernel.takes fd answer.length = true →
    result.1 = true ∧ result.2.websocketDescriptor = insert fd w.websocketDescriptor) ∧
  (¬ (HasKey headers ∧ w.kernel.takes fd answer.length = true) →
    result.1 = false ∧ result.2.websocketDescriptor = w.websocketDescriptor)

section Handshake

variable {platform : Platform} {fd : ℤ} {headers : StringMap} {w : World}

/-- Without a key nothing is found. -/
theorem findWebsocketKey_of_not_hasKey (h : ¬ HasKey headers) :
    findWebsocketKey platform headers = [] := by
  rcases findWebsocketKey_cases platform headers with ⟨name, hname, hlookup⟩ | ⟨hnil, -⟩
  · by_contra hne
    exact h ⟨name, _, hlookup, hname, hne⟩
  · exact hnil

theorem findWebsocketKey_of_no_name (h : ∀ name ∈ headers, toLowerCase name ≠ keyName) :
    findWebsocketKey platform headers = [] := by
  apply findWebsocketKey_of_not_hasKey
  rintro ⟨name, value, hlookup, hname, -⟩
  exact h name (mem_of_lookup hlookup) hname

/-- A key that no empty one can hide is found. -/
theorem findWebsocketKey_ne_nil (h : HasKey headers) (hempty : ¬ HasEmptyKey headers) :
    findWebsocketKey platform headers ≠ [] := by
  intro hnil
  rcases findWebsocketKey_cases platform headers with ⟨name, hname, hlookup⟩ | ⟨-, hnone⟩
  · rw [hnil] at hlookup
    exact hempty ⟨name, hlookup, hname⟩
  · obtain ⟨name, value, hlookup, hname, -⟩ := h
    exact hnone name (mem_of_lookup hlookup) hname

/-- The header that the loop meets first is found. -/
theorem findWebsocketKey_front (platform : Platform) {name value : Bytes}
    (hlookup : headers.lookup name = some value) (hname : toLowerCase name = keyName) :
    findWebsocketKey { platform with order := .front name } headers = value := by
  obtain ⟨rest, hrest⟩ := HashOrder.enum_front hlookup
  rw [findWebsocketKey, ← keyName, hrest, List.find?_cons_of_pos (by simpa using hname)]

/-- On every two orders of the map `find_websocket_key` returns the same value, which is not empty
when there is a key, and empty when no header has the name of the key. -/
structure OrderFree (platform : Platform) (headers : StringMap) : Prop where
  same : ∀ order order' : HashOrder, findWebsocketKey { platform with order } headers =
    findWebsocketKey { platform with order := order' } headers
  ne_nil : HasKey headers → ∀ order, findWebsocketKey { platform with order } headers ≠ []
  eq_nil : (∀ name ∈ headers, toLowerCase name ≠ keyName) →
    ∀ order, findWebsocketKey { platform with order } headers = []

/-- The headers with the name of the key, in any letter case, have one value. -/
def OneKey (headers : StringMap) : Prop :=
  ∀ name₁ value₁ name₂ value₂, headers.lookup name₁ = some value₁ →
    headers.lookup name₂ = some value₂ → toLowerCase name₁ = keyName →
      toLowerCase name₂ = keyName → value₁ = value₂

/-- The one value is found. -/
theorem OneKey.findWebsocketKey_eq (h : OneKey headers) {name value : Bytes}
    (hlookup : headers.lookup name = some value) (hname : toLowerCase name = keyName) :
    findWebsocketKey platform headers = value := by
  rcases findWebsocketKey_cases platform headers with ⟨found, hfound, hvalue⟩ | ⟨-, hnone⟩
  · exact h found _ name value hvalue hlookup hfound hname
  · exact absurd hname (hnone name (mem_of_lookup hlookup))

/-- **When the order of the map does not matter.** For every map: `find_websocket_key` returns one
value in all orders, as it should be for a map with a key and for one without, exactly when the
headers with the name of the key have one value. -/
theorem findWebsocketKey_order_iff (platform : Platform) (headers : StringMap) :
    OrderFree platform headers ↔ OneKey headers := by
  constructor
  · intro h name₁ value₁ name₂ value₂ h₁ h₂ hname₁ hname₂
    rw [← findWebsocketKey_front platform h₁ hname₁, ← findWebsocketKey_front platform h₂ hname₂]
    exact h.same _ _
  · intro h
    refine ⟨fun order order' => ?_, ?_, fun hnone order => ?_⟩
    · rcases findWebsocketKey_cases { platform with order } headers with
        ⟨name, hname, hlookup⟩ | ⟨hnil, hnone⟩
      · exact (h.findWebsocketKey_eq hlookup hname).symm
      · rw [hnil, findWebsocketKey_of_no_name hnone]
    · rintro ⟨name, value, hlookup, hname, hvalue⟩ order
      rwa [h.findWebsocketKey_eq hlookup hname]
    · exact findWebsocketKey_of_no_name hnone

/-- The call by what `find_websocket_key` returns. -/
theorem atomicHandshake_of_nil (hnil : findWebsocketKey platform headers = []) :
    AtomicHandshake platform fd headers w ↔
      ¬ (HasKey headers ∧ w.kernel.takes fd upgradeSize = true) := by
  rw [AtomicHandshake, addNewConnectionConnection, if_pos hnil, length_upgradeResponse]
  simp

theorem atomicHandshake_of_ne_nil (hne : findWebsocketKey platform headers ≠ []) :
    AtomicHandshake platform fd headers w ↔
      HasKey headers ∧ w.kernel.takes fd upgradeSize = true := by
  rw [AtomicHandshake, addNewConnectionConnection, if_neg hne, length_upgradeResponse]
  simp

/-- **When the handshake is atomic.** For every descriptor, map, registry and outcome of `send`,
in every order of the map, it is exactly when there is no key, or `send` takes the whole answer
and no header with the name of the key is empty. -/
theorem addNewConnectionConnection_atomic_iff (platform : Platform) (fd : ℤ)
    (headers : StringMap) (w : World) :
    (∀ order, AtomicHandshake { platform with order } fd headers w) ↔
      ¬ HasKey headers ∨
        (w.kernel.takes fd upgradeSize = true ∧ ¬ HasEmptyKey headers) := by
  constructor
  · intro hall
    by_cases hkey : HasKey headers
    · obtain ⟨name, value, hlookup, hname, hvalue⟩ := hkey
      have hfront := findWebsocketKey_front platform hlookup hname
      obtain ⟨-, htakes⟩ := (atomicHandshake_of_ne_nil (hfront.trans_ne hvalue)).mp
        (hall (.front name))
      refine Or.inr ⟨htakes, ?_⟩
      rintro ⟨empty, hempty, hcase⟩
      have hnil := findWebsocketKey_front platform hempty hcase
      exact (atomicHandshake_of_nil hnil).mp (hall (.front empty))
        ⟨⟨name, value, hlookup, hname, hvalue⟩, htakes⟩
    · exact Or.inl hkey
  · rintro (hkey | ⟨htakes, hempty⟩) order
    · exact (atomicHandshake_of_nil (findWebsocketKey_of_not_hasKey hkey)).mpr fun h => hkey h.1
    · by_cases hkey : HasKey headers
      · exact (atomicHandshake_of_ne_nil (findWebsocketKey_ne_nil hkey hempty)).mpr
          ⟨hkey, htakes⟩
      · exact (atomicHandshake_of_nil (findWebsocketKey_of_not_hasKey hkey)).mpr fun h => hkey h.1

end Handshake

/-- A key and an empty header whose name differs from its name in letter case. -/
def shadowedKey : StringMap :=
  (AList.insert keyName [] ∅).insert (lit "Sec-WebSocket-Key") (lit "a")

/-- The order decides whether the key is found. -/
theorem not_findWebsocketKey_order :
    findWebsocketKey { Platform.plain with order := .front (lit "Sec-WebSocket-Key") }
        shadowedKey = lit "a" ∧
      findWebsocketKey { Platform.plain with order := .front keyName } shadowedKey = [] ∧
      ¬ OrderFree .plain shadowedKey := by
  have hfound : findWebsocketKey { Platform.plain with order := .front (lit "Sec-WebSocket-Key") }
      shadowedKey = lit "a" := by decide
  have hlost :
      findWebsocketKey { Platform.plain with order := .front keyName } shadowedKey = [] := by
    decide
  refine ⟨hfound, hlost, fun h => ?_⟩
  have hsame := h.same (.front (lit "Sec-WebSocket-Key")) (.front keyName)
  rw [hfound, hlost] at hsame
  exact absurd hsame (by decide)

/-- A client that has room for ten bytes. -/
def fullClient : World where
  kernel := ⟨fun fd => if fd = 5 then some (.conn ⟨[], [some 10], [], []⟩) else none, []⟩
  websocketDescriptor := ∅

/-- It is registered behind the first ten bytes of the answer. -/
theorem not_atomicHandshake_full :
    ¬ AtomicHandshake .plain 5 upgradeHeaders fullClient ∧
      5 ∈ (addNewConnectionConnection .plain 5 upgradeHeaders
        fullClient).2.websocketDescriptor := by
  have hne : findWebsocketKey .plain upgradeHeaders ≠ [] := by decide
  refine ⟨fun h => ?_, ?_⟩
  · exact absurd ((atomicHandshake_of_ne_nil hne).mp h).2 (by decide)
  · rw [addNewConnectionConnection, if_neg hne]
    exact Finset.mem_insert_self ..

end SimpleServer
