import SimpleServer.Foundations.Bytes

/-!
# Lines up to an empty one

A text whose lines end with CRLF, read up to its first empty line: `headLines` gives the lines and
what stands behind the empty one. A text that ends before its empty line has a last line without a
CRLF. Lines that are written are read back (`headLines_append`).
-/

namespace Cxx

/-- The first line of a text, with what follows its CRLF. -/
def cutLine (s : Bytes) : Bytes × Bytes :=
  match find crlf s with
  | some n => (s.take n, s.drop (n + 2))
  | none => (s, [])

theorem length_cutLine (s : Bytes) : (cutLine s).1.length + (cutLine s).2.length ≤ s.length := by
  unfold cutLine
  split
  · rename_i n h
    have hlen := find_length_le h
    simp only [List.length_take, List.length_drop]
    omega
  · simp

/-- The lines before the first empty line, and what follows it. -/
def headLines (s : Bytes) : List Bytes × Bytes :=
  if _h : (cutLine s).1 = [] then ([], (cutLine s).2)
  else
    ((cutLine s).1 :: (headLines (cutLine s).2).1, (headLines (cutLine s).2).2)
termination_by s.length
decreasing_by
  have hlen := length_cutLine s
  have hpos := List.length_pos_iff.mpr _h
  omega

theorem headLines_of_eq_nil {s : Bytes} (h : (cutLine s).1 = []) :
    headLines s = ([], (cutLine s).2) := by
  rw [headLines, dif_pos h]

theorem headLines_of_ne_nil {s : Bytes} (h : (cutLine s).1 ≠ []) :
    headLines s = ((cutLine s).1 :: (headLines (cutLine s).2).1, (headLines (cutLine s).2).2) := by
  rw [headLines, dif_neg h]

/-- A line without a CR is the first one. -/
theorem cutLine_append {l : Bytes} (h : cr ∉ l) (s : Bytes) :
    cutLine (l ++ crlf ++ s) = (l, s) := by
  have hfind : find crlf (l ++ crlf ++ s) = some l.length := by
    have hskip : find crlf (l ++ (crlf ++ s)) = (find crlf (crlf ++ s)).map (· + l.length) :=
      find_append_of_notMem h (crlf ++ s)
    rw [List.append_assoc, hskip, find_self, Option.map_some, Nat.zero_add]
  have hdrop : (l ++ crlf ++ s).drop (l.length + 2) = s := by
    have hlen : (l ++ crlf).length = l.length + 2 := by simp [crlf]
    rw [← hlen, List.drop_left]
  rw [cutLine, hfind]
  simp only
  rw [hdrop, List.append_assoc, List.take_left]

/-- **Lines that are written are read back**, and what follows the empty line is left. -/
theorem headLines_append {ls : List Bytes} (h : ∀ l ∈ ls, l ≠ [] ∧ cr ∉ l) (s : Bytes) :
    headLines (ls.flatMap (· ++ crlf) ++ crlf ++ s) = (ls, s) := by
  induction ls with
  | nil =>
    have hcut : cutLine (crlf ++ s) = ([], s) := cutLine_append (l := []) (by simp) s
    rw [List.flatMap_nil, List.nil_append, headLines_of_eq_nil (by rw [hcut]), hcut]
  | cons l ls ih =>
    obtain ⟨hne, hcr⟩ := h l List.mem_cons_self
    have hsplit : (l :: ls).flatMap (· ++ crlf) ++ crlf ++ s =
        l ++ crlf ++ (ls.flatMap (· ++ crlf) ++ crlf ++ s) := by simp
    have hcut := cutLine_append hcr (ls.flatMap (· ++ crlf) ++ crlf ++ s)
    rw [hsplit, headLines_of_ne_nil (by rw [hcut]; exact hne), hcut]
    rw [ih fun l' hl' => h l' (List.mem_cons_of_mem _ hl')]

end Cxx
