import SimpleServer.Foundations.HashMap
import SimpleServer.Foundations.HeadLines
import SimpleServer.Foundations.Kernel
import SimpleServer.Http.Request

/-!
# The request of an echo client

How `cppws.cpp` reads an upgrade request: `read_line` calls `recv` for one byte at a time,
`split_by` cuts a line at its first `": "`, and `extract_request` collects the headers up to an
empty line. A line without `": "`, as the request line is one, and a header of the name `NOTHING`
are passed over.

`extractRequest_eq` says what is read of any stream whose lines are shorter than `2 ^ 31`, whatever
its segments are: the headers of its lines, of which the last one of a name counts, and nothing
behind its first empty line.
-/

namespace SimpleServer.Echo

open Cxx Inbox Posix Conn

/-! ## The functions -/

/-- At most `n` turns of the loop of `read_line`; when no byte waits, the call of `recv` returns
none, and the loop ends. -/
def readLineLoop : ℕ → Bytes → Inbox → Bytes × Inbox
  | 0, line, q => (line, (recv 1 q).2)
  | n + 1, line, q =>
    match recv 1 q with
    | (some (ch :: _), q) =>
      let line := line ++ [ch]
      if contains crlf line then (line.take (line.length - 2), q) else readLineLoop n line q
    | (_, q) => (line, q)

/-- `read_line`. -/
def readLine (q : Inbox) : Bytes × Inbox := readLineLoop (waiting q).length [] q

/-- `split_by`. -/
def splitBy (line where_ : Bytes) : Except Exn (Bytes × Bytes) :=
  let pos := posToInt (find where_ line)
  if toSizeT pos ≠ 2 ^ 64 - 1 then do
    let first := line.take (toSizeT pos)
    let second ← substr line ((toSizeT pos + where_.length) % 2 ^ 64) (some line.length)
    return (first, second)
  else return (lit "NOTHING", [])

/-- At most `n` turns of the loop of `extract_request`; when no byte waits, the line is empty, and
the loop ends. -/
def extractRequestLoop : ℕ → StringMap → Inbox → Except Exn (StringMap × Inbox)
  | 0, ret, q => .ok (ret, (readLine q).2)
  | n + 1, ret, q =>
    let (line, q) := readLine q
    if 0 < line.length then do
      let splitted ← splitBy line (lit ": ")
      if splitted.1 = lit "NOTHING" then extractRequestLoop n ret q
      else extractRequestLoop n (ret.insert splitted.1 splitted.2) q
    else .ok (ret, q)

/-- `extract_request`. -/
def extractRequest (q : Inbox) : Except Exn (StringMap × Inbox) :=
  extractRequestLoop (waiting q).length ∅ q

/-! ## A line -/

section Line

variable {segs : List Bytes} {line : Bytes}

/-- One byte of a stream. -/
theorem recv_one (hp : Proper segs) {ch : UInt8} {s : Bytes} (h : segs.flatten = ch :: s) :
    recv 1 (segs.map some) = (some [ch], (skip 1 segs).map some) ∧
      Leaves segs s (skip 1 segs) := by
  refine ⟨?_, 1, by rw [h]; simp, rfl, by rw [h]; rfl⟩
  cases segs with
  | nil => cases h
  | cons seg segs =>
    obtain ⟨hseg, hp'⟩ := Proper.cons_iff.mp hp
    obtain ⟨c, t, rfl⟩ := List.exists_cons_of_ne_nil hseg
    have hc : c = ch := by
      rw [List.flatten_cons, List.cons_append, List.cons.injEq] at h
      exact h.1
    subst hc
    cases t with
    | nil => simp [recv, skip, skip_zero hp']
    | cons d t => simp [recv, skip]

/-- A line that a byte completes ends with the CRLF. -/
theorem find_concat {ch : UInt8} (hline : contains crlf line = false)
    (hfound : contains crlf (line ++ [ch]) = true) :
    find crlf (line ++ [ch]) = some (line.length - 1) ∧ 0 < line.length := by
  obtain ⟨n, hn⟩ := Option.isSome_iff_exists.mp hfound
  have hlen := find_length_le hn
  have hcrlf : crlf.length = 2 := rfl
  rw [List.length_append, List.length_singleton] at hlen
  have hlast : ¬ n + 2 ≤ line.length := by
    intro hle
    obtain ⟨a, b, hab, rfl⟩ := exists_of_find hn
    rw [← Bool.not_eq_true, contains_iff] at hline
    apply hline
    have hb : b ≠ [] := by
      rintro rfl
      have hlength := congrArg List.length hab
      simp [crlf] at hlength
      omega
    obtain ⟨b', d, rfl⟩ := List.eq_nil_or_concat b |>.resolve_left hb
    rw [List.concat_eq_append, ← List.append_assoc] at hab
    rw [(List.append_inj' hab rfl).1]
    exact ⟨a, b', rfl⟩
  refine ⟨hn.trans (congrArg some ?_), ?_⟩ <;> omega

theorem readLineLoop_eq (hp : Proper segs) (hline : contains crlf line = false) {n : ℕ}
    (hn : n = segs.flatten.length) :
    ∃ left, readLineLoop n line (segs.map some) =
        ((cutLine (line ++ segs.flatten)).1, left.map some) ∧
      Leaves segs (cutLine (line ++ segs.flatten)).2 left := by
  induction n generalizing line segs with
  | zero =>
    have hnil : segs = [] := by
      cases segs with
      | nil => rfl
      | cons seg segs =>
        have hpos := List.length_pos_iff.mpr (Proper.cons_iff.mp hp).1
        rw [List.flatten_cons, List.length_append] at hn
        omega
    subst hnil
    have hnone : find crlf line = none := by simpa [contains] using hline
    have hcut : cutLine (line ++ List.flatten []) = (line, []) := by
      rw [cutLine, List.flatten_nil, List.append_nil, hnone]
    rw [hcut]
    exact ⟨[], rfl, leaves_refl hp⟩
  | succ n ih =>
    obtain ⟨ch, s, hs⟩ : ∃ ch s, segs.flatten = ch :: s :=
      List.exists_cons_of_length_eq_add_one hn.symm
    obtain ⟨hrecv, hskip⟩ := recv_one hp hs
    have hassoc : line ++ segs.flatten = line ++ [ch] ++ s := by rw [hs]; simp
    rw [readLineLoop, hrecv, hassoc]
    simp only
    cases hfound : contains crlf (line ++ [ch]) with
    | true =>
      obtain ⟨hfind, hpos⟩ := find_concat hline hfound
      have hcut : cutLine (line ++ [ch] ++ s) = ((line ++ [ch]).take (line.length - 1), s) := by
        have hlen : line.length - 1 + 2 = (line ++ [ch]).length := by
          rw [List.length_append, List.length_singleton]
          omega
        rw [cutLine, find_append_of_some hfind]
        simp only
        rw [hlen, List.drop_left, List.take_append_of_le_length (by omega)]
      rw [if_pos rfl, hcut]
      exact ⟨skip 1 segs, by simp, hskip⟩
    | false =>
      rw [if_neg (by simp), ← hskip.flatten_eq]
      rw [hs, List.length_cons] at hn
      have hlen : n = (skip 1 segs).flatten.length := by
        rw [hskip.flatten_eq]
        omega
      obtain ⟨left, hloop, hleft⟩ := ih (hp.skip 1) hfound hlen
      exact ⟨left, hloop, hskip.trans hleft⟩

/-- **A line is read** up to its CRLF, or to the end of the stream. -/
theorem readLine_eq (hp : Proper segs) :
    ∃ left, readLine (segs.map some) = ((cutLine segs.flatten).1, left.map some) ∧
      Leaves segs (cutLine segs.flatten).2 left := by
  have hline : contains crlf [] = false := by decide
  obtain ⟨left, hloop, hleft⟩ := readLineLoop_eq hp hline rfl
  refine ⟨left, ?_, hleft⟩
  rw [readLine, waiting_map_some]
  exact hloop

end Line

/-! ## The headers -/

/-- The header of a line. -/
def headerOf (line : Bytes) : Option (Bytes × Bytes) :=
  match find (lit ": ") line with
  | some n =>
    if line.take n = lit "NOTHING" then none else some (line.take n, line.drop (n + 2))
  | none => none

/-- A line is cut at its first `": "`. -/
theorem splitBy_eq {line : Bytes} (hlen : line.length < 2 ^ 31) :
    splitBy line (lit ": ") = .ok (match find (lit ": ") line with
      | some n => (line.take n, line.drop (n + 2))
      | none => (lit "NOTHING", [])) := by
  have hsize : (lit ": ").length = 2 := rfl
  unfold splitBy
  cases hfind : find (lit ": ") line with
  | none =>
    have hpos : toSizeT (posToInt none) = 2 ^ 64 - 1 := by decide
    simp only [hpos]
    rfl
  | some n =>
    have hn := find_length_le hfind
    have hpos : toSizeT (posToInt (some n)) = n := by
      rw [posToInt, toInt32_of_lt (by omega), toSizeT_of_nonneg (by omega) (by omega)]
      rfl
    have hmod : (n + 2) % 2 ^ 64 = n + 2 := Nat.mod_eq_of_lt (by omega)
    have htake : (line.drop (n + 2)).take line.length = line.drop (n + 2) :=
      List.take_of_length_le (by simp)
    simp only [hpos, hsize, hmod]
    rw [if_pos (by omega), substr, if_neg (by omega), ok_bind, Option.getD_some, htake]
    rfl

/-- What a line does to the headers. -/
theorem extractRequestLoop_line {segs : List Bytes} (hp : Proper segs) {n : ℕ} (ret : StringMap)
    (hlen : (cutLine segs.flatten).1.length < 2 ^ 31) (hne : (cutLine segs.flatten).1 ≠ []) :
    ∃ left, Leaves segs (cutLine segs.flatten).2 left ∧
      extractRequestLoop (n + 1) ret (segs.map some) =
        extractRequestLoop n (insertAll ret (headerOf (cutLine segs.flatten).1).toList)
          (left.map some) := by
  obtain ⟨left, hline, hleft⟩ := readLine_eq hp
  refine ⟨left, hleft, ?_⟩
  rw [extractRequestLoop, hline]
  simp only
  rw [if_pos (List.length_pos_iff.mpr hne), splitBy_eq hlen, ok_bind, headerOf]
  cases find (lit ": ") (cutLine segs.flatten).1 with
  | none => rfl
  | some m =>
    simp only
    split_ifs
    · rfl
    · rfl

theorem extractRequestLoop_eq {segs : List Bytes} (hp : Proper segs) {n : ℕ} (ret : StringMap)
    (hshort : ∀ l ∈ (headLines segs.flatten).1, l.length < 2 ^ 31)
    (hn : segs.flatten.length ≤ n) :
    ∃ left, Leaves segs (headLines segs.flatten).2 left ∧
      extractRequestLoop n ret (segs.map some) =
        .ok (insertAll ret ((headLines segs.flatten).1.filterMap headerOf), left.map some) := by
  induction n generalizing segs ret with
  | zero =>
    have hnil : segs.flatten = [] := List.length_eq_zero_iff.mp (Nat.le_zero.mp hn)
    obtain ⟨left, hline, hleft⟩ := readLine_eq hp
    have hcut : (cutLine segs.flatten).1 = [] := by
      rw [hnil]
      rfl
    rw [headLines_of_eq_nil hcut, extractRequestLoop, hline]
    exact ⟨left, hleft, rfl⟩
  | succ n ih =>
    by_cases hne : (cutLine segs.flatten).1 = []
    · obtain ⟨left, hline, hleft⟩ := readLine_eq hp
      rw [headLines_of_eq_nil hne, extractRequestLoop, hline, hne]
      exact ⟨left, hleft, rfl⟩
    · rw [headLines_of_ne_nil hne] at hshort
      obtain ⟨hlen, hshort'⟩ := List.forall_mem_cons.mp hshort
      obtain ⟨left, hleft, hstep⟩ := extractRequestLoop_line (n := n) hp ret hlen hne
      have hcut := length_cutLine segs.flatten
      have hpos := List.length_pos_iff.mpr hne
      have hflatten := hleft.flatten_eq
      rw [← hflatten] at hcut
      obtain ⟨left', hleft', hloop⟩ := ih (hleft.proper hp)
        (insertAll ret (headerOf (cutLine segs.flatten).1).toList) (hflatten ▸ hshort') (by omega)
      rw [hflatten] at hleft' hloop
      rw [headLines_of_ne_nil hne, hstep, hloop]
      refine ⟨left', hleft.trans hleft', ?_⟩
      rw [List.filterMap_cons, insertAll, insertAll, insertAll, ← List.foldl_append]
      cases headerOf (cutLine segs.flatten).1 <;> rfl

/-- **The headers of a stream**, whatever its segments are: those of its lines up to the first empty
one, the last of a name, and what stands behind the empty line is left. A line without `": "` and a
header of the name `NOTHING` are passed over. -/
theorem extractRequest_eq {segs : List Bytes} (hp : Proper segs)
    (hshort : ∀ l ∈ (headLines segs.flatten).1, l.length < 2 ^ 31) :
    ∃ left, Leaves segs (headLines segs.flatten).2 left ∧
      extractRequest (segs.map some) =
        .ok (insertAll ∅ ((headLines segs.flatten).1.filterMap headerOf), left.map some) := by
  rw [extractRequest, waiting_map_some]
  exact extractRequestLoop_eq hp ∅ hshort le_rfl

/-- A request in two segments, the cut inside a line, with two bytes behind it. -/
def cutRequest : List Bytes :=
  [lit "GET / HTTP/1.1\r\nUpgra", lit "de: websocket\r\nNOTHING: x\r\n\r\nHi"]

def cutLines : List Bytes :=
  [lit "GET / HTTP/1.1", lit "Upgrade: websocket", lit "NOTHING: x"]

theorem extractRequest_cutRequest :
    (∀ l ∈ (headLines cutRequest.flatten).1, l.length < 2 ^ 31) ∧
    ∃ left, Leaves cutRequest (headLines cutRequest.flatten).2 left ∧
      extractRequest (cutRequest.map some) =
        .ok (insertAll ∅ ((headLines cutRequest.flatten).1.filterMap headerOf), left.map some) := by
  have hp : Proper cutRequest := by
    unfold Proper
    decide
  have hflatten : cutRequest.flatten = cutLines.flatMap (· ++ crlf) ++ crlf ++ lit "Hi" := by
    decide
  have hlines : headLines cutRequest.flatten = (cutLines, lit "Hi") := by
    rw [hflatten]
    exact headLines_append (by decide) (lit "Hi")
  have hshort : ∀ l ∈ (headLines cutRequest.flatten).1, l.length < 2 ^ 31 := by
    rw [hlines]
    decide
  exact ⟨hshort, extractRequest_eq hp hshort⟩

end SimpleServer.Echo
