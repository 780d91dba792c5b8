import SimpleServer.Foundations.Bytes

/-!
# What a descriptor's `recv` calls are answered

An `Inbox` lists the answers that the coming `recv` calls on a descriptor get: a segment of
bytes that has arrived, or a call that fails. A call takes at most the bytes it asks for, and
only from the first segment, so that the lists of segments are exactly the ways in which a
transport can cut a byte stream; on an empty list a call fails.

Two uses of `recv` are common: a call that must return all it asks for (`recvExact`) and a loop
that repeats the call until it has all (`recvAll`). On a list of non-empty segments followed by
an answer that stops, the first succeeds exactly when the first segment is long enough
(`recvExact_of_whole`, `recvExact_of_not_whole`) and the second exactly when all segments
together are (`recvAll_of_le`, `recvAll_of_lt`).
-/

namespace Cxx

/-- The answers that coming `recv` calls get; `none` is a call that returns `-1`. -/
abbrev Inbox := List (Option Bytes)

namespace Inbox

/-- `recv(fd, buffer, n, 0)`: the bytes stored, or `none` for `-1`. -/
def recv (n : ℕ) : Inbox → Option Bytes × Inbox
  | [] => (none, [])
  | none :: q => (none, q)
  | some s :: q =>
    if s.length ≤ n then (some s, q) else (some (s.take n), some (s.drop n) :: q)

/-- `recv(fd, buffer, n, MSG_PEEK)`. -/
def peek (n : ℕ) (q : Inbox) : Option Bytes := (recv n q).1

/-- A call of `recv` whose result is discarded unless it is `n`. -/
def recvExact (n : ℕ) (q : Inbox) : Option Bytes × Inbox :=
  match recv n q with
  | (some bs, q) => if bs.length = n then (some bs, q) else (none, q)
  | (none, q) => (none, q)

/-- The loop `while (read < n) { r = recv(fd, buffer + read, n - read, 0); if (r <= 0) fail; }`. -/
def recvAll (n : ℕ) (q : Inbox) : Option Bytes × Inbox :=
  if 0 < n then
    match recv n q with
    | (none, q) => (none, q)
    | (some bs, q) =>
      if _h : bs = [] then (none, q)
      else
        let r := recvAll (n - bs.length) q
        (r.1.map (bs ++ ·), r.2)
  else (some [], q)
termination_by n
decreasing_by
  have := List.length_pos_iff.mpr _h
  omega

theorem recv_length_le {n : ℕ} {q q' : Inbox} {bs : Bytes} (h : recv n q = (some bs, q')) :
    bs.length ≤ n := by
  rcases q with _ | ⟨_ | s, q⟩
  · simp [recv] at h
  · simp [recv] at h
  · rw [recv] at h
    split_ifs at h with hs
    · cases h
      exact hs
    · cases h
      simp

/-! ## Segments -/

/-- A read of `n` bytes at the start of `segs` gets them in one call. -/
def Whole (n : ℕ) : List Bytes → Prop
  | [] => n = 0
  | s :: _ => n ≤ s.length

instance (n : ℕ) : ∀ segs, Decidable (Whole n segs)
  | [] => inferInstanceAs (Decidable (n = 0))
  | s :: _ => inferInstanceAs (Decidable (n ≤ s.length))

/-- The segments left when `n` bytes have been taken. -/
def skip : ℕ → List Bytes → List Bytes
  | _, [] => []
  | n, s :: segs => if s.length ≤ n then skip (n - s.length) segs else s.drop n :: segs

/-- No segment is empty. -/
def Proper (segs : List Bytes) : Prop := ∀ s ∈ segs, s ≠ []

/-- A list of answers that gives no byte to the next call. -/
def Stops : Inbox → Prop
  | [] => True
  | none :: _ => True
  | some s :: _ => s = []

theorem Proper.cons_iff {s : Bytes} {segs : List Bytes} :
    Proper (s :: segs) ↔ s ≠ [] ∧ Proper segs := by
  simp [Proper]

/-- Every list of answers is a list of segments followed by an answer that stops. -/
theorem exists_segments (q : Inbox) :
    ∃ segs rest, q = segs.map some ++ rest ∧ Proper segs ∧ Stops rest := by
  induction q with
  | nil => exact ⟨[], [], rfl, by simp [Proper], trivial⟩
  | cons a q ih =>
    obtain ⟨segs, rest, rfl, hp, hs⟩ := ih
    cases a with
    | none => exact ⟨[], _, rfl, by simp [Proper], trivial⟩
    | some s =>
      by_cases h : s = []
      · exact ⟨[], _, rfl, by simp [Proper], h⟩
      · exact ⟨s :: segs, rest, rfl, Proper.cons_iff.mpr ⟨h, hp⟩, hs⟩

theorem flatten_skip (n : ℕ) (segs : List Bytes) :
    (skip n segs).flatten = segs.flatten.drop n := by
  induction segs generalizing n with
  | nil => simp [skip]
  | cons s segs ih =>
    rw [skip, List.flatten_cons, List.drop_append]
    split_ifs with h
    · rw [ih, List.drop_of_length_le h, List.nil_append]
    · rw [List.flatten_cons, show n - s.length = 0 by omega, List.drop_zero]

theorem Proper.skip {segs : List Bytes} (h : Proper segs) (n : ℕ) : Proper (skip n segs) := by
  induction segs generalizing n with
  | nil => simpa [Inbox.skip] using h
  | cons s segs ih =>
    obtain ⟨hs, h'⟩ := Proper.cons_iff.mp h
    rw [Inbox.skip]
    split_ifs with hn
    · exact ih h' _
    · refine Proper.cons_iff.mpr ⟨?_, h'⟩
      rw [ne_eq, List.drop_eq_nil_iff]
      omega

theorem skip_zero {segs : List Bytes} (h : Proper segs) : skip 0 segs = segs := by
  cases segs with
  | nil => rfl
  | cons s segs =>
    have := List.length_pos_iff.mpr (Proper.cons_iff.mp h).1
    rw [skip, if_neg (by omega), List.drop_zero]

theorem skip_add (m n : ℕ) (segs : List Bytes) : skip (m + n) segs = skip n (skip m segs) := by
  induction segs generalizing m with
  | nil => rfl
  | cons s segs ih =>
    by_cases hm : s.length ≤ m
    · rw [skip, if_pos (by omega), skip, if_pos hm, ← ih]
      congr 1
      omega
    · rw [skip, skip, if_neg hm, skip, List.length_drop]
      by_cases hn : s.length ≤ m + n
      · rw [if_pos hn, if_pos (by omega)]
        congr 1
        omega
      · rw [if_neg hn, if_neg (by omega), List.drop_drop]

theorem whole_zero (segs : List Bytes) : Whole 0 segs := by
  cases segs <;> simp [Whole]

theorem Whole.length_le {n : ℕ} {segs : List Bytes} (h : Whole n segs) :
    n ≤ segs.flatten.length := by
  cases segs with
  | nil => simp [show n = 0 from h]
  | cons s segs =>
    rw [List.flatten_cons, List.length_append]
    exact Nat.le_add_right_of_le h

/-- The segments left of a stream of which the bytes `rest` are left. -/
def Leaves (segs : List Bytes) (rest : Bytes) (left : List Bytes) : Prop :=
  ∃ n ≤ segs.flatten.length, left = skip n segs ∧ segs.flatten.drop n = rest

section Leaves

variable {segs left left' : List Bytes} {rest rest' : Bytes}

theorem leaves_refl (hp : Proper segs) : Leaves segs segs.flatten segs :=
  ⟨0, Nat.zero_le _, (skip_zero hp).symm, rfl⟩

theorem Leaves.flatten_eq (h : Leaves segs rest left) : left.flatten = rest := by
  obtain ⟨n, -, rfl, rfl⟩ := h
  exact flatten_skip n segs

theorem Leaves.proper (h : Leaves segs rest left) (hp : Proper segs) : Proper left := by
  obtain ⟨n, -, rfl, -⟩ := h
  exact hp.skip n

theorem Leaves.trans (h : Leaves segs rest left) (h' : Leaves left rest' left') :
    Leaves segs rest' left' := by
  have hflatten := h.flatten_eq
  obtain ⟨m, hm, rfl, rfl⟩ := h
  obtain ⟨n, hn, rfl, rfl⟩ := h'
  rw [hflatten, List.length_drop] at hn
  refine ⟨m + n, by omega, (skip_add m n segs).symm, ?_⟩
  rw [hflatten, List.drop_drop]

/-- How many bytes were taken is known from those left. -/
theorem Leaves.eq_skip (h : Leaves segs rest left) {taken : Bytes}
    (hbytes : segs.flatten = taken ++ rest) : left = skip taken.length segs := by
  obtain ⟨n, hn, rfl, rfl⟩ := h
  have hlen := congrArg List.length hbytes
  rw [List.length_append, List.length_drop] at hlen
  have heq : n = taken.length := by omega
  rw [heq]

end Leaves

/-! ## A stream in one segment -/

/-- A stream of which every call gets all the bytes that it asks for. -/
def single (s : Bytes) : List Bytes := if s = [] then [] else [s]

theorem proper_single (s : Bytes) : Proper (single s) := by
  unfold single
  split_ifs with h <;> simp [Proper, h]

@[simp] theorem flatten_single (s : Bytes) : (single s).flatten = s := by
  unfold single
  split_ifs with h <;> simp [h]

theorem skip_single (n : ℕ) (s : Bytes) : skip n (single s) = single (s.drop n) := by
  unfold single
  by_cases h : s = []
  · simp [h, skip]
  · rw [if_neg h, skip, skip]
    by_cases hn : s.length ≤ n
    · rw [if_pos hn, List.drop_of_length_le hn, if_pos rfl]
    · rw [if_neg hn, if_neg (by rw [List.drop_eq_nil_iff]; omega)]

theorem whole_single {n : ℕ} {s : Bytes} (h : n ≤ s.length) : Whole n (single s) := by
  unfold single
  split_ifs with hs
  · rw [hs, List.length_nil] at h
    exact Nat.le_zero.mp h
  · exact h

/-! ## Reads that need all their bytes -/

theorem recvExact_snd (n : ℕ) (q : Inbox) : (recvExact n q).2 = (recv n q).2 := by
  rw [recvExact]
  rcases recv n q with ⟨_ | bs, q'⟩
  · rfl
  · simp only
    split_ifs <;> rfl

theorem recvExact_of_whole {n : ℕ} (hn : 0 < n) {segs : List Bytes} (hp : Proper segs)
    (hw : Whole n segs) (rest : Inbox) :
    recvExact n (segs.map some ++ rest) =
      (some (segs.flatten.take n), (skip n segs).map some ++ rest) := by
  cases segs with
  | nil => exact absurd hw hn.ne'
  | cons s segs =>
    have hw : n ≤ s.length := hw
    rw [recvExact, List.map_cons, List.cons_append, recv, skip, List.flatten_cons,
      List.take_append_of_le_length hw]
    split_ifs with hs
    · have e : s.length = n := by omega
      rw [e, Nat.sub_self, skip_zero (Proper.cons_iff.mp hp).2, List.take_of_length_le hs]
      simp [e]
    · simp [hw]

theorem recvExact_of_not_whole {n : ℕ} {segs : List Bytes} (hw : ¬ Whole n segs) {rest : Inbox}
    (hr : Stops rest) : (recvExact n (segs.map some ++ rest)).1 = none := by
  cases segs with
  | nil =>
    have hn : n ≠ 0 := hw
    rcases rest with _ | ⟨_ | s, rest⟩
    · rfl
    · rfl
    · have hs : s = [] := hr
      simp [recvExact, recv, hs, hn.symm]
  | cons s segs =>
    have hw : ¬ n ≤ s.length := hw
    have hs : s.length ≤ n := by omega
    have e : s.length ≠ n := by omega
    simp [recvExact, recv, hs, e]

/-! ## Loops that read until they have all -/

theorem recvAll_zero (q : Inbox) : recvAll 0 q = (some [], q) := by
  rw [recvAll, if_neg (by omega)]

theorem recvAll_of_le {n : ℕ} {segs : List Bytes} (hp : Proper segs)
    (hn : n ≤ segs.flatten.length) (rest : Inbox) :
    recvAll n (segs.map some ++ rest) =
      (some (segs.flatten.take n), (skip n segs).map some ++ rest) := by
  induction segs generalizing n with
  | nil =>
    obtain rfl : n = 0 := by simpa using hn
    exact recvAll_zero _
  | cons s segs ih =>
    obtain ⟨hs, hp'⟩ := Proper.cons_iff.mp hp
    by_cases h0 : 0 < n
    · rw [recvAll, if_pos h0, List.map_cons, List.cons_append, recv, skip, List.flatten_cons]
      by_cases hle : s.length ≤ n
      · -- the whole segment is taken, and the loop goes on with the next one
        rw [List.flatten_cons, List.length_append] at hn
        have e := ih (n := n - s.length) hp' (by omega)
        simp only [if_pos hle, dif_neg hs, e, Option.map_some]
        rw [List.take_append, List.take_of_length_le hle]
      · -- the call returns all it asked for, and the loop ends
        have ht : (s.take n) ≠ [] := by
          rw [ne_eq, List.take_eq_nil_iff]
          rintro (rfl | h)
          · omega
          · exact hs h
        have e : n - (s.take n).length = 0 := by rw [List.length_take]; omega
        simp only [if_neg hle, dif_neg ht, e, recvAll_zero, Option.map_some]
        rw [List.append_nil, List.take_append_of_le_length (by omega)]
        rfl
    · obtain rfl : n = 0 := by omega
      rw [recvAll_zero, skip_zero hp, List.take_zero]

theorem recvAll_of_lt {n : ℕ} {segs : List Bytes} (hn : segs.flatten.length < n) {rest : Inbox}
    (hr : Stops rest) : (recvAll n (segs.map some ++ rest)).1 = none := by
  induction segs generalizing n with
  | nil =>
    have h0 : 0 < n := by simpa using hn
    rw [recvAll, if_pos h0]
    rcases rest with _ | ⟨_ | s, rest⟩
    · rfl
    · rfl
    · have hs : s = [] := hr
      simp [recv, hs]
  | cons s segs ih =>
    rw [List.flatten_cons, List.length_append] at hn
    have h0 : 0 < n := by omega
    have hle : s.length ≤ n := by omega
    rw [recvAll, if_pos h0, List.map_cons, List.cons_append, recv, if_pos hle]
    by_cases hs : s = []
    · simp [hs]
    · simp only [dif_neg hs]
      rw [ih (by omega), Option.map_none]

end Inbox

end Cxx
