import SimpleServer.WebSocket.Base64

/-!
# The bytes that `base64_encode` reads

The bound of the loop of `base64_encode` is a `size_t`, and its index has 32 bits. `base64Trace` is
the loop with a record of the places of the array that it reads. In an array of `2 ^ 32` bytes or
more every value of the index is a place of the array, so that the loop does not end
(`base64Trace_eq_none`). In a shorter one the index does not wrap, as three divides `2 ^ 32 - 1`,
and the bytes are read one after another (`base64Trace_eq`).
-/

namespace SimpleServer

open Cxx

/-- The places that one pass of the loop reads. -/
def groupPlaces (length : ℕ) (i : UInt32) : List ℕ :=
  let bytesLeft := length - i.toNat
  i.toNat :: ((if 1 < bytesLeft then [(i + 1).toNat] else []) ++
    if 2 < bytesLeft then [(i + 2).toNat] else [])

/-- The loop of `base64_encode` with the places read so far. -/
def base64Trace (data : Bytes) : ℕ → UInt32 → Bytes → List ℕ → Option (Bytes × List ℕ)
  | 0, _, _, _ => none
  | passes + 1, i, output, places =>
    if i.toNat < data.length then
      base64Trace data passes (i + 3) (output ++ base64Group data i)
        (places ++ groupPlaces data.length i)
    else some (output, places)

/-- The record changes nothing. -/
theorem map_fst_base64Trace (data : Bytes) (passes : ℕ) (i : UInt32) (output : Bytes)
    (places : List ℕ) :
    (base64Trace data passes i output places).map Prod.fst = base64Loop data passes i output := by
  induction passes generalizing i output places with
  | zero => rfl
  | succ passes ih =>
    rw [base64Trace, base64Loop]
    split_ifs
    · exact ih _ _ _
    · rfl

/-- What a pass writes depends on the bytes at these places alone. -/
theorem base64Group_congr {data data' : Bytes} {i : UInt32} (hlen : data.length = data'.length)
    (h : ∀ j ∈ groupPlaces data.length i, data[j]? = data'[j]?) :
    base64Group data i = base64Group data' i := by
  have hget : ∀ j ∈ groupPlaces data.length i, data.getD j 0 = data'.getD j 0 := fun j hj => by
    rw [List.getD_eq_getElem?_getD, List.getD_eq_getElem?_getD, h j hj]
  have h0 := hget i.toNat (by simp [groupPlaces])
  have h1 : 1 < data.length - i.toNat → data.getD (i + 1).toNat 0 = data'.getD (i + 1).toNat 0 :=
    fun hleft => hget _ (by simp [groupPlaces, hleft])
  have h2 : 2 < data.length - i.toNat → data.getD (i + 2).toNat 0 = data'.getD (i + 2).toNat 0 :=
    fun hleft => hget _ (by simp [groupPlaces, hleft])
  unfold base64Group
  rw [← hlen, h0]
  by_cases hone : 1 < data.length - i.toNat
  · by_cases htwo : 2 < data.length - i.toNat
    · simp only [if_pos hone, if_pos htwo, h1 hone, h2 htwo]
    · simp only [if_pos hone, if_neg htwo, h1 hone]
  · have htwo : ¬ 2 < data.length - i.toNat := by omega
    simp only [if_neg hone, if_neg htwo]

/-- Every value of the index is a place of a long array. -/
theorem base64Trace_eq_none {data : Bytes} (hlen : 2 ^ 32 ≤ data.length) (passes : ℕ) (i : UInt32)
    (output : Bytes) (places : List ℕ) : base64Trace data passes i output places = none := by
  induction passes generalizing i output places with
  | zero => rfl
  | succ passes ih =>
    have hi : i.toNat < data.length := lt_of_lt_of_le i.toNat_lt hlen
    rw [base64Trace, if_pos hi]
    exact ih _ _ _

/-- The places of a pass whose index does not wrap. -/
theorem groupPlaces_eq {length : ℕ} {i : UInt32} (hi : i.toNat < length)
    (hlt : i.toNat + 3 < 2 ^ 32) :
    groupPlaces length i = List.range' i.toNat (min 3 (length - i.toNat)) := by
  have h1 : (i + 1).toNat = i.toNat + 1 := toNat_index_add hlt (by decide)
  have h2 : (i + 2).toNat = i.toNat + 2 := toNat_index_add hlt (by decide)
  unfold groupPlaces
  rw [h1, h2]
  obtain hleft | hleft | hleft : length - i.toNat = 1 ∨ length - i.toNat = 2 ∨
      3 ≤ length - i.toNat := by omega
  · rw [hleft]
    rfl
  · rw [hleft]
    rfl
  · rw [Nat.min_eq_left hleft]
    simp only [if_pos (show 1 < length - i.toNat by omega),
      if_pos (show 2 < length - i.toNat by omega)]
    rfl

/-- The places of the passes that are left. -/
theorem range'_groupPlaces {i n : ℕ} :
    List.range' i (min 3 (n - i)) ++ List.range' (i + 3) (n - (i + 3)) =
      List.range' i (n - i) := by
  by_cases hleft : 3 ≤ n - i
  · have hrest : n - i = 3 + (n - (i + 3)) := by omega
    rw [Nat.min_eq_left hleft, hrest, ← List.range'_append_1]
  · have hrest : n - (i + 3) = 0 := by omega
    rw [Nat.min_eq_right (not_le.mp hleft).le, hrest, List.range'_zero, List.append_nil]

/-- The loop from an index that three divides. -/
theorem base64Trace_eq {data : Bytes} (hlen : data.length < 2 ^ 32) {passes : ℕ} {i : UInt32}
    (hi : i.toNat % 3 = 0) (hpasses : data.length ≤ i.toNat + passes) (output : Bytes)
    (places : List ℕ) : ∃ output', base64Trace data (passes + 1) i output places =
      some (output', places ++ List.range' i.toNat (data.length - i.toNat)) := by
  induction passes generalizing i output places with
  | zero =>
    have hrest : data.length - i.toNat = 0 := by omega
    rw [base64Trace, if_neg (by omega), hrest, List.range'_zero, List.append_nil]
    exact ⟨output, rfl⟩
  | succ passes ih =>
    rw [base64Trace]
    split_ifs with hlt
    · have hpass := lt_of_dvd_three hi hlt hlen
      have hadd : (i + 3).toNat = i.toNat + 3 := toNat_index_add hpass (by decide)
      obtain ⟨output', hrun⟩ := ih (i := i + 3) (by omega) (by omega) (output ++ base64Group data i)
        (places ++ groupPlaces data.length i)
      rw [hadd, groupPlaces_eq hlt hpass, List.append_assoc, range'_groupPlaces] at hrun
      refine ⟨output', ?_⟩
      rw [groupPlaces_eq hlt hpass]
      exact hrun
    · have hrest : data.length - i.toNat = 0 := by omega
      rw [hrest, List.range'_zero, List.append_nil]
      exact ⟨output, rfl⟩

/-- The loop ends, and has read every byte of the array once and nothing else. -/
def VisitsOnce (data : Bytes) : Prop :=
  ∃ passes output places, base64Trace data passes 0 [] [] = some (output, places) ∧
    places.Perm (List.range data.length)

/-- **When `base64_encode` ends.** For every array: its loop ends and visits each byte once exactly
when the array has fewer than `2 ^ 32` bytes. -/
theorem base64Trace_visitsOnce_iff (data : Bytes) : VisitsOnce data ↔ data.length < 2 ^ 32 := by
  constructor
  · rintro ⟨passes, output, places, hrun, -⟩
    by_contra hlen
    rw [base64Trace_eq_none (not_lt.mp hlen)] at hrun
    cases hrun
  · intro hlen
    have hpasses : data.length ≤ (0 : UInt32).toNat + data.length := Nat.le_add_left _ _
    obtain ⟨output, hrun⟩ := base64Trace_eq hlen rfl hpasses [] []
    refine ⟨data.length + 1, output, _, hrun, ?_⟩
    rw [List.nil_append, List.range_eq_range']
    exact List.Perm.refl _

/-- An array whose last index no `unsigned int` passes. -/
theorem not_base64Trace_visitsOnce : ¬ VisitsOnce (List.replicate (2 ^ 32) 0) := by
  rintro ⟨passes, output, places, hrun, -⟩
  rw [base64Trace_eq_none (List.length_replicate ..).ge] at hrun
  cases hrun

end SimpleServer
