import SimpleServer.Foundations.HashMap
import SimpleServer.Foundations.Naming

/-!
# The addresses of the network interfaces

`get_local_ip_address_list` of `simple_server_utils.cpp` keeps the addresses that `getifaddrs`
lists in a map with the names of the interfaces as keys. The key of a name that the map has is made
of the name and of a counter, and what the map has under that key is overwritten. The function
stores the addresses under the labels of the names (`addressLoop_eq`), and loses none exactly when
no label is in use when it is made (`getLocalIpAddressList_losesNone_iff`).
-/

namespace SimpleServer

open Cxx Naming

/-- The text that `inet_ntop` writes for an address, which is never empty. -/
structure AddressText where
  text : Bytes
  ne_nil : text ≠ []

/-- What `ifa_addr` points to, by its `sa_family`. -/
inductive SockAddr
  | inet (address : AddressText)
  | inet6 (address : AddressText)
  | other

/-- `struct ifaddrs`, without its members that are never read; `ifa_addr` may be null. -/
structure IfAddrs where
  ifaName : Bytes
  ifaAddr : Option SockAddr

/-- `std::map<std::string, std::string>`; the order of its entries is never used. -/
abbrev AddressMap := AList fun _ : Bytes => Bytes

/-! ## The code -/

/-- The statement that both branches have: the map and the counter, which is an `int`. -/
def storeAddress (ifaName addressBuffer : Bytes) (ret : AddressMap) (cnt : ℕ) :
    Except Exn (AddressMap × ℕ) :=
  -- `ret[ifa->ifa_name]` adds an empty string under a name that the map does not have
  let ret := insertNew ifaName [] ret
  if (ret.lookup ifaName).getD [] = [] then .ok (ret.insert ifaName addressBuffer, cnt)
  else if cnt = 2 ^ 31 - 1 then .error .undefined
  else .ok (ret.insert (ifaName ++ decimal (cnt + 1)) addressBuffer, cnt + 1)

/-- The loop of `get_local_ip_address_list`. -/
def addressLoop : List IfAddrs → AddressMap → ℕ → Except Exn AddressMap
  | [], ret, _ => .ok ret
  | ifa :: rest, ret, cnt =>
    match ifa.ifaAddr with
    | none => addressLoop rest ret cnt
    | some (.inet address) =>
      match storeAddress ifa.ifaName address.text ret cnt with
      | .error e => .error e
      | .ok (ret, cnt) => addressLoop rest ret cnt
    | some (.inet6 address) =>
      match storeAddress ifa.ifaName address.text ret cnt with
      | .error e => .error e
      | .ok (ret, cnt) => addressLoop rest ret cnt
    | some .other => addressLoop rest ret cnt

/-- `get_local_ip_address_list`; `getifaddrs` gives a list, or fails. -/
def getLocalIpAddressList (ifAddrStruct : Option (List IfAddrs)) : Except Exn AddressMap :=
  match ifAddrStruct with
  | none => .ok ∅
  | some list => addressLoop list ∅ 0

/-! ## Labels -/

namespace Interfaces

/-- The name and the address of an entry of one of the two families. -/
def pair (ifa : IfAddrs) : Option (Bytes × AddressText) :=
  match ifa.ifaAddr with
  | some (.inet address) => some (ifa.ifaName, address)
  | some (.inet6 address) => some (ifa.ifaName, address)
  | _ => none

/-- The entries of the two families. -/
def pairs (list : List IfAddrs) : List (Bytes × AddressText) := list.filterMap pair

/-- The names of these entries. -/
def names (list : List IfAddrs) : List Bytes := (pairs list).map Prod.fst

/-- Their addresses. -/
def addresses (list : List IfAddrs) : List Bytes := (pairs list).map fun e => e.2.text

/-- A name followed by a number. -/
def numbered (name : Bytes) (n : ℕ) : Bytes := name ++ decimal n

section Loop

variable {ret : AddressMap} {used : List Bytes} {cnt : ℕ} {list : List IfAddrs}

/-- The map has these keys, and no empty value. -/
structure Holds (ret : AddressMap) (used : List Bytes) : Prop where
  mem_iff : ∀ k, k ∈ ret ↔ k ∈ used
  ne_nil : ∀ k v, ret.lookup k = some v → v ≠ []

theorem Holds.insert (h : Holds ret used) (label : Bytes) (address : AddressText) :
    Holds (ret.insert label address.text) (label :: used) := by
  refine ⟨fun k => ?_, fun k v hv => ?_⟩
  · rw [AList.mem_insert, List.mem_cons, h.mem_iff]
  · by_cases hk : k = label
    · subst hk
      rw [AList.lookup_insert, Option.some.injEq] at hv
      exact hv ▸ address.ne_nil
    · rw [AList.lookup_insert_ne hk] at hv
      exact h.ne_nil k v hv

/-- A new name is its own key. -/
theorem storeAddress_of_notMem (h : Holds ret used) {name : Bytes} (hname : name ∉ used)
    (text : Bytes) (cnt : ℕ) :
    storeAddress name text ret cnt = .ok (ret.insert name text, cnt) := by
  have hmem : name ∉ ret := mt (h.mem_iff name).mp hname
  rw [storeAddress, insertNew, if_neg hmem]
  simp only [AList.lookup_insert, AList.insert_insert]
  rfl

/-- The key of another one is its label. -/
theorem storeAddress_of_mem (h : Holds ret used) {name : Bytes} (hname : name ∈ used)
    (text : Bytes) (cnt : ℕ) :
    storeAddress name text ret cnt =
      if cnt = 2 ^ 31 - 1 then .error .undefined
      else .ok (ret.insert (numbered name (cnt + 1)) text, cnt + 1) := by
  have hmem : name ∈ ret := (h.mem_iff name).mpr hname
  obtain ⟨v, hv⟩ := Option.isSome_iff_exists.mp (AList.lookup_isSome.mpr hmem)
  have hne : (ret.lookup name).getD [] ≠ [] := by
    rw [hv]
    exact h.ne_nil name v hv
  rw [storeAddress, insertNew, if_pos hmem]
  simp only [if_neg hne]
  rfl

theorem pairs_cons_of_none {ifa : IfAddrs} (h : pair ifa = none) (list : List IfAddrs) :
    pairs (ifa :: list) = pairs list :=
  List.filterMap_cons_none h

theorem pairs_cons_of_some {ifa : IfAddrs} {e : Bytes × AddressText} (h : pair ifa = some e)
    (list : List IfAddrs) : pairs (ifa :: list) = e :: pairs list :=
  List.filterMap_cons_some h

theorem addressLoop_cons_of_none {ifa : IfAddrs} (h : pair ifa = none) (list : List IfAddrs)
    (ret : AddressMap) (cnt : ℕ) :
    addressLoop (ifa :: list) ret cnt = addressLoop list ret cnt := by
  obtain ⟨ifaName, _ | ⟨address⟩ | ⟨address⟩ | _⟩ := ifa
  · rfl
  · cases h
  · cases h
  · rfl

/-- Both branches have the same statement. -/
theorem addressLoop_cons_of_some {ifa : IfAddrs} {e : Bytes × AddressText} (h : pair ifa = some e)
    (list : List IfAddrs) (ret : AddressMap) (cnt : ℕ) :
    addressLoop (ifa :: list) ret cnt =
      match storeAddress e.1 e.2.text ret cnt with
      | .error e => .error e
      | .ok (ret, cnt) => addressLoop list ret cnt := by
  obtain ⟨ifaName, _ | ⟨address⟩ | ⟨address⟩ | _⟩ := ifa
  · cases h
  · cases h
    rfl
  · cases h
    rfl
  · cases h

/-- The loop stores the addresses under the labels of the names, when the counter can count the
names that repeat. -/
theorem addressLoop_eq (h : Holds ret used) (hcnt : cnt < 2 ^ 31) (list : List IfAddrs) :
    addressLoop list ret cnt =
      if repeats numbered used cnt (names list) < 2 ^ 31 then
        .ok (insertAll ret ((labels numbered used cnt (names list)).zip (addresses list)))
      else .error .undefined := by
  induction list generalizing ret used cnt with
  | nil => exact (if_pos hcnt).symm
  | cons ifa list ih =>
    cases hpair : pair ifa with
    | none =>
      rw [addressLoop_cons_of_none hpair, names, addresses, pairs_cons_of_none hpair]
      exact ih h hcnt
    | some e =>
      obtain ⟨name, address⟩ := e
      rw [addressLoop_cons_of_some hpair, names, addresses, pairs_cons_of_some hpair, List.map_cons,
        List.map_cons, ← names, ← addresses]
      by_cases hname : name ∈ used
      · rw [storeAddress_of_mem h hname, labels_cons_of_mem hname, repeats_cons_of_mem hname]
        by_cases hlast : cnt = 2 ^ 31 - 1
        · -- the counter overflows
          have hle := (repeats_bounds numbered (numbered name (cnt + 1) :: used) (cnt + 1)
            (names list)).1
          rw [if_pos hlast, if_neg (by omega)]
        · rw [if_neg hlast]
          exact ih (h.insert _ address) (by omega)
      · rw [storeAddress_of_notMem h hname, labels_cons_of_notMem hname,
          repeats_cons_of_notMem hname]
        exact ih (h.insert name address) hcnt

end Loop

/-- The map that is returned has one entry for each entry of the two families, and their
addresses as its values. -/
def LosesNone (list : List IfAddrs) : Prop :=
  ∃ ret, getLocalIpAddressList (some list) = .ok ret ∧
    ret.entries.length = (pairs list).length ∧
      (ret.entries.map fun e => e.2).Perm (addresses list)

theorem holds_empty : Holds ∅ [] := by
  refine ⟨fun k => ?_, fun k v hv => ?_⟩
  · simp
  · simp at hv

/-- No address is lost when the labels are distinct. -/
theorem losesNone_iff_nodup (list : List IfAddrs) :
    LosesNone list ↔ (labels numbered [] 0 (names list)).Nodup ∧
      repeats numbered [] 0 (names list) < 2 ^ 31 := by
  have hzip : (labels numbered [] 0 (names list)).length = (addresses list).length := by
    rw [length_labels, names, addresses, List.length_map, List.length_map]
  have hkeys := List.map_fst_zip hzip.le
  have hvalues := List.map_snd_zip hzip.ge
  have hsize : ((labels numbered [] 0 (names list)).zip (addresses list)).length =
      (pairs list).length := by
    rw [List.length_zip, hzip, Nat.min_self, addresses, List.length_map]
  have hrun := addressLoop_eq holds_empty (Nat.two_pow_pos 31) list
  unfold LosesNone getLocalIpAddressList
  simp only [hrun]
  constructor
  · rintro ⟨ret, hok, hlen, -⟩
    split_ifs at hok with hcount
    cases hok
    rw [← hsize, length_insertAll_iff, hkeys] at hlen
    exact ⟨hlen, hcount⟩
  · rintro ⟨hnodup, hcount⟩
    rw [if_pos hcount]
    rw [← hkeys] at hnodup
    refine ⟨_, rfl, ?_, ?_⟩
    · rw [← hsize]
      exact (length_insertAll_iff _).mpr hnodup
    · have hentries := entries_insertAll hnodup fun e _ => AList.notMem_empty e.1
      have hperm := congrArg (List.map Prod.snd) hentries
      simp only [List.map_map, AList.empty_entries, List.map_nil, List.append_nil] at hperm
      rw [List.map_reverse, hvalues] at hperm
      exact (List.Perm.of_eq hperm).trans (List.reverse_perm _)

/-- **When no address is lost.** For every list of interfaces: exactly when nothing that is made of
a repeated name and the counter is in use, and the counter can count the repeated names. -/
theorem getLocalIpAddressList_losesNone_iff (list : List IfAddrs) :
    LosesNone list ↔ KeepsApart numbered [] 0 (names list) ∧
      repeats numbered [] 0 (names list) < 2 ^ 31 := by
  rw [losesNone_iff_nodup, labels_nodup_iff]

/-- Names followed by numbers are the same only when one name is the other one followed by digits,
or when the numbers are the same. -/
theorem numbered_cases {a b : Bytes} {m n : ℕ} (h : numbered a m = numbered b n) :
    m = n ∨ ∃ d, d ≠ [] ∧ (∀ c ∈ d, isDigit c = true) ∧ (b = a ++ d ∨ a = b ++ d) := by
  rw [numbered, numbered, List.append_eq_append_iff] at h
  rcases h with ⟨d, hd, hdecimal⟩ | ⟨d, hd, hdecimal⟩
  · by_cases hnil : d = []
    · rw [hnil, List.nil_append] at hdecimal
      exact Or.inl (decimal_injective hdecimal)
    · exact Or.inr ⟨d, hnil, fun c hc => isDigit_of_mem_decimal (n := m) (by simp [hdecimal, hc]),
        Or.inl hd⟩
  · by_cases hnil : d = []
    · rw [hnil, List.nil_append] at hdecimal
      exact Or.inl (decimal_injective hdecimal).symm
    · exact Or.inr ⟨d, hnil, fun c hc => isDigit_of_mem_decimal (n := n) (by simp [hdecimal, hc]),
        Or.inr hd⟩

/-- Interfaces of which no name is another one followed by digits lose no address. -/
theorem losesNone_of_apart {list : List IfAddrs} (hlen : (pairs list).length < 2 ^ 31)
    (h : ∀ a ∈ names list, ∀ b ∈ names list, ∀ d, d ≠ [] → (∀ c ∈ d, isDigit c = true) →
      b ≠ a ++ d) : LosesNone list := by
  rw [losesNone_iff_nodup, labels_nodup_iff]
  refine ⟨keepsApart_of_apart (fun a ha b hb n heq => ?_) (fun a ha b hb m n heq => ?_), ?_⟩
  · have hne : decimal n ≠ [] := by simp [decimal]
    exact h a ha b hb _ hne (fun c hc => isDigit_of_mem_decimal hc) heq.symm
  · rcases numbered_cases heq with hmn | ⟨d, hne, hd, hb' | ha'⟩
    · exact hmn
    · exact absurd hb' (h a ha b hb d hne hd)
    · exact absurd ha' (h b hb a ha d hne hd)
  · have hle := (repeats_bounds numbered [] 0 (names list)).2
    rw [names, List.length_map, ← names, Nat.zero_add] at hle
    exact hle.trans_lt hlen

/-- The interface `eth1` with two addresses, and `eth11`. -/
def hiddenInterfaces : List IfAddrs :=
  [⟨lit "eth1", some (.inet ⟨lit "10.0.0.1", by decide⟩)⟩,
    ⟨lit "eth11", some (.inet ⟨lit "10.0.0.2", by decide⟩)⟩,
    ⟨lit "eth1", some (.inet6 ⟨lit "fe80::1", by decide⟩)⟩]

/-- The second address of `eth1` is stored under `eth11`. -/
theorem not_losesNone_hidden : ¬ LosesNone hiddenInterfaces := by
  rw [losesNone_iff_nodup]
  exact fun h => absurd h.1 (by decide)

end Interfaces

end SimpleServer
