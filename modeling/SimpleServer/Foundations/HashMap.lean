import SimpleServer.Foundations.Bytes
import Mathlib.Data.List.AList

/-!
# Maps keyed by strings

A `std::unordered_map` with string keys is an association list without repeated keys. The order
in which a loop over such a map meets its entries is unspecified; a `HashOrder` is one choice of
it, for every map at once.
-/

namespace Cxx

/-! ## Changes of a map -/

section Insert

variable {β : Type}

/-- `m.insert({k, v})`, which leaves a map that has the key as it is. -/
def insertNew (k : Bytes) (v : β) (m : AList fun _ : Bytes => β) : AList fun _ : Bytes => β :=
  if k ∈ m then m else m.insert k v

/-- `m[k] = v` for one pair after another. -/
def insertAll (m : AList fun _ : Bytes => β) (pairs : List (Bytes × β)) :
    AList fun _ : Bytes => β :=
  pairs.foldl (fun m e => m.insert e.1 e.2) m

/-- The value of a key in a list of pairs: the last one wins. -/
def lastOf (pairs : List (Bytes × β)) (k : Bytes) : Option β := pairs.reverse.lookup k

theorem lookup_insertAll (m : AList fun _ : Bytes => β) (pairs : List (Bytes × β)) (k : Bytes) :
    (insertAll m pairs).lookup k = (lastOf pairs k).or (m.lookup k) := by
  induction pairs using List.reverseRecOn with
  | nil => simp [insertAll, lastOf]
  | append_singleton pairs e ih =>
    have h : insertAll m (pairs ++ [e]) = (insertAll m pairs).insert e.1 e.2 := by
      simp [insertAll]
    rw [h, lastOf, List.reverse_concat, List.lookup_cons]
    by_cases hk : k = e.1
    · subst hk
      simp
    · rw [AList.lookup_insert_ne hk, ih, beq_eq_false_iff_ne.mpr hk, lastOf]

/-- Pairs with distinct keys are not overwritten. -/
theorem lastOf_eq_some_iff {pairs : List (Bytes × β)} (h : (pairs.map Prod.fst).Nodup) {k : Bytes}
    {v : β} : lastOf pairs k = some v ↔ (k, v) ∈ pairs := by
  rw [lastOf, List.lookup_eq_some_iff, ← List.mem_reverse]
  rw [← List.nodup_reverse, ← List.map_reverse] at h
  constructor
  · rintro ⟨l₁, l₂, hl, -⟩
    simp [hl]
  · intro hmem
    obtain ⟨l₁, l₂, hl⟩ := List.append_of_mem hmem
    refine ⟨l₁, l₂, hl, fun e he => ?_⟩
    rw [hl, List.map_append, List.map_cons, List.nodup_append] at h
    rw [bne_iff_ne]
    exact fun hk => h.2.2 e.1 (List.mem_map_of_mem he) k (by simp) hk.symm

/-- The order of pairs with distinct keys does not matter. -/
theorem lastOf_perm {pairs pairs' : List (Bytes × β)} (h : (pairs.map Prod.fst).Nodup)
    (hperm : pairs'.Perm pairs) (k : Bytes) : lastOf pairs' k = lastOf pairs k := by
  have h' : (pairs'.map Prod.fst).Nodup := (hperm.map Prod.fst).nodup_iff.mpr h
  apply Option.ext
  intro v
  rw [lastOf_eq_some_iff h', lastOf_eq_some_iff h, hperm.mem_iff]

theorem mem_insertAll {m : AList fun _ : Bytes => β} {pairs : List (Bytes × β)} {k : Bytes} :
    k ∈ insertAll m pairs ↔ k ∈ m ∨ k ∈ pairs.map Prod.fst := by
  induction pairs generalizing m with
  | nil => simp [insertAll]
  | cons e pairs ih =>
    have h : insertAll m (e :: pairs) = insertAll (m.insert e.1 e.2) pairs := rfl
    rw [h, ih, AList.mem_insert, List.map_cons, List.mem_cons]
    tauto

/-- Pairs with new keys, none of them twice, are all entries of the map. -/
theorem entries_insertAll {m : AList fun _ : Bytes => β} {pairs : List (Bytes × β)}
    (h : (pairs.map Prod.fst).Nodup) (hnew : ∀ e ∈ pairs, e.1 ∉ m) :
    ((insertAll m pairs).entries.map fun e => (e.1, e.2)) =
      pairs.reverse ++ m.entries.map fun e => (e.1, e.2) := by
  induction pairs generalizing m with
  | nil => rfl
  | cons e pairs ih =>
    rw [List.map_cons, List.nodup_cons] at h
    have hnew' : ∀ e' ∈ pairs, e'.1 ∉ m.insert e.1 e.2 := fun e' he' => by
      rw [AList.mem_insert, not_or]
      exact ⟨fun heq => h.1 (heq ▸ List.mem_map_of_mem he'), hnew e' (List.mem_cons_of_mem _ he')⟩
    have hstep : insertAll m (e :: pairs) = insertAll (m.insert e.1 e.2) pairs := rfl
    rw [hstep, ih h.2 hnew', AList.entries_insert_of_notMem (hnew e List.mem_cons_self)]
    simp

/-- A map has as many entries as pairs were stored in it when no key was stored twice. -/
theorem length_insertAll_iff (pairs : List (Bytes × β)) :
    (insertAll ∅ pairs).entries.length = pairs.length ↔ (pairs.map Prod.fst).Nodup := by
  constructor
  · intro hlen
    have hkeys : (insertAll ∅ pairs).keys.toFinset = (pairs.map Prod.fst).toFinset := by
      ext k
      rw [List.mem_toFinset, ← AList.mem_keys, mem_insertAll, List.mem_toFinset]
      simp
    have hcard := List.toFinset_card_of_nodup (insertAll ∅ pairs).keys_nodup
    rw [hkeys, AList.keys, List.keys, List.length_map, hlen, ← List.length_map Prod.fst] at hcard
    exact Multiset.toFinset_card_eq_card_iff_nodup.mp hcard
  · intro h
    have hentries := congrArg List.length (entries_insertAll h fun e _ => AList.notMem_empty e.1)
    simpa using hentries

end Insert

/-! ## Loops over a map -/

/-- The order in which loops over unordered maps meet the entries. -/
structure HashOrder where
  enum : {β : Type} → AList (fun _ : Bytes => β) → List (Bytes × β)
  perm : ∀ {β : Type} (m : AList fun _ : Bytes => β),
    (enum m).Perm (m.entries.map fun e => (e.1, e.2))

namespace HashOrder

/-- The order in which the entries stand in the list. -/
def listed : HashOrder where
  enum m := m.entries.map fun e => (e.1, e.2)
  perm _ := List.Perm.refl _

variable (order : HashOrder) {β : Type} {m : AList fun _ : Bytes => β} {k : Bytes} {v : β}

theorem mem_enum : (k, v) ∈ order.enum m ↔ m.lookup k = some v := by
  rw [(order.perm m).mem_iff, ← Option.mem_def, AList.mem_lookup_iff, List.mem_map]
  constructor
  · rintro ⟨⟨k', v'⟩, h, e⟩
    cases e
    exact h
  · intro h
    exact ⟨⟨k, v⟩, h, rfl⟩

theorem nodup_enum (m : AList fun _ : Bytes => β) : (order.enum m).Nodup := by
  rw [(order.perm m).nodup_iff]
  refine List.Nodup.of_map Prod.fst ?_
  rw [List.map_map]
  exact m.keys_nodup

/-- Two loops over maps with the same values meet the same entries. -/
theorem enum_perm (order' : HashOrder) {m' : AList fun _ : Bytes => β}
    (h : ∀ k, m.lookup k = m'.lookup k) : (order.enum m).Perm (order'.enum m') := by
  rw [List.perm_ext_iff_of_nodup (order.nodup_enum m) (order'.nodup_enum m')]
  rintro ⟨k, v⟩
  rw [mem_enum, mem_enum, h]

theorem mem_keys_enum : k ∈ (order.enum m).map Prod.fst ↔ k ∈ m := by
  rw [← AList.lookup_isSome, Option.isSome_iff_exists]
  simp only [← mem_enum order, List.mem_map, Prod.exists]
  constructor
  · rintro ⟨k', v, h, rfl⟩
    exact ⟨v, h⟩
  · rintro ⟨v, h⟩
    exact ⟨k, v, h, rfl⟩

/-- A loop that looks for a key finds what `find` does. -/
theorem find_key (m : AList fun _ : Bytes => β) (k : Bytes) :
    ((order.enum m).find? fun e => e.1 = k) = (m.lookup k).map fun v => (k, v) := by
  rcases h : (order.enum m).find? fun e => e.1 = k with _ | ⟨k', v⟩
  · cases hv : m.lookup k with
    | none =>
      rw [h]
      rfl
    | some v =>
      have := List.find?_eq_none.mp h (k, v) ((mem_enum order).mpr hv)
      simp at this
  · obtain rfl : k' = k := by simpa using List.find?_some h
    rw [h, (mem_enum order).mp (List.mem_of_find?_eq_some h), Option.map_some]

/-- An order in which a given key is met first. -/
def front (k : Bytes) : HashOrder where
  enum m :=
    (m.entries.map fun e => (e.1, e.2)).filter (fun e => e.1 = k) ++
      (m.entries.map fun e => (e.1, e.2)).filter fun e => !decide (e.1 = k)
  perm _ := List.filter_append_perm _ _

theorem enum_front (h : m.lookup k = some v) : ∃ rest, (front k).enum m = (k, v) :: rest := by
  have hmem : (k, v) ∈ (m.entries.map fun e => (e.1, e.2)).filter fun e => e.1 = k := by
    rw [List.mem_filter]
    exact ⟨(mem_enum listed).mpr h, by simp⟩
  rcases hl : (m.entries.map fun e => (e.1, e.2)).filter fun e => e.1 = k with _ | ⟨e, l⟩
  · rw [hl] at hmem
    simp at hmem
  · have he : e ∈ (m.entries.map fun e => (e.1, e.2)).filter fun e => e.1 = k := by simp [hl]
    rw [List.mem_filter, decide_eq_true_eq] at he
    obtain ⟨hentry, rfl⟩ := he
    have hv : m.lookup e.1 = some e.2 := (mem_enum listed).mp hentry
    rw [h, Option.some.injEq] at hv
    subst hv
    refine ⟨l ++ (m.entries.map fun e => (e.1, e.2)).filter fun e' => !decide (e'.1 = e.1), ?_⟩
    simp only [front, hl, List.cons_append]

end HashOrder

end Cxx
