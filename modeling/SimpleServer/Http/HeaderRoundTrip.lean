import SimpleServer.Http.HeaderSection
import SimpleServer.Http.ResponseMessage

/-!
# Headers written and read back

`http_headers_to_response_string` writes one line for each header, and `parse_headers` reads such
lines. A value is cut out of its line behind the colon and one more byte, and five calls of
`erase` take blanks and line ends off it; on the line of a header that was written they take off
the CR alone (`trimValue_concat_cr`), whatever the value is.

`parseHeaders_responseString` says that the headers read are those written, the last value of a
repeated name winning.
-/

namespace SimpleServer

open Cxx Http

def tab : UInt8 := 9

/-- A name without a colon, and a value that does not start with a space or a tab, both without
CR and LF. A value may end with blanks: the CR of its line stands behind them. -/
structure Plain (pair : Bytes × Bytes) : Prop where
  colon_notMem : colon ∉ pair.1
  oneLine_name : OneLine pair.1
  oneLine_value : OneLine pair.2
  head_ne : ∀ c ∈ pair.2.head?, c ≠ space ∧ c ≠ tab

/-- The text with a first line, the lines of headers and an empty line. -/
def headerText (firstLine : Bytes) (pairs : List (Bytes × Bytes)) : Bytes :=
  firstLine ++ lf :: (responseString pairs ++ crlf)

/-! ## The line of a header -/

/-- The calls of `erase` on a value with the CR of its line end. -/
theorem trimValue_concat_cr {value : Bytes} (hline : OneLine value)
    (hhead : ∀ c ∈ value.head?, c ≠ space ∧ c ≠ tab) : trimValue (value ++ [cr]) = value := by
  cases value with
  | nil => decide
  | cons c t =>
    obtain ⟨hspace, htab⟩ := hhead c rfl
    have hc : c ≠ cr ∧ c ≠ lf :=
      ⟨fun h => hline.1 (by simp [h]), fun h => hline.2 (by simp [h])⟩
    -- nothing is erased in front, as the value has a first byte that is no blank
    have hblank : c ∉ lit " \t" := by
      rw [show lit " \t" = [space, tab] by decide]
      simp [hspace, htab]
    have hfront : (c :: t ++ [cr]).dropWhile (lit " \t").contains = c :: t ++ [cr] :=
      List.dropWhile_cons_of_neg (by simpa using hblank)
    -- the CR stands behind every blank at the end
    have hback : (c :: t ++ [cr]).rdropWhile (lit " \t").contains = c :: t ++ [cr] :=
      List.rdropWhile_concat_neg _ _ _ (by decide)
    have hcr : (c :: t ++ [cr]).dropWhile [cr].contains = c :: t ++ [cr] :=
      List.dropWhile_cons_of_neg (by simp [hc.1])
    have hlf : (c :: t ++ [cr]).dropWhile [lf].contains = c :: t ++ [cr] :=
      List.dropWhile_cons_of_neg (by simp [hc.2])
    rw [trimValue_eq, hfront, hback, hcr, hlf, List.rdropWhile_concat_pos _ _ _ (by decide),
      List.rdropWhile_eq_self_iff]
    intro hne hlast
    have hmem := List.getLast_mem hne
    generalize (c :: t).getLast hne = d at hlast hmem
    rcases List.mem_cons.mp (List.contains_iff_mem.mp hlast) with rfl | hlast
    · exact hline.1 hmem
    · exact hline.2 (List.mem_singleton.mp hlast ▸ hmem)

/-- The line of a header sets the name to the value. -/
theorem fieldOf_fieldLine {pair : Bytes × Bytes} (h : Plain pair) :
    fieldOf (fieldLine pair ++ [cr]) = some pair := by
  have e : fieldLine pair ++ [cr] = pair.1 ++ colon :: space :: (pair.2 ++ [cr]) := by
    rw [fieldLine, List.append_assoc, List.append_assoc]
    rfl
  rw [e, fieldOf_field h.colon_notMem, trimValue_concat_cr h.oneLine_value h.head_ne]

/-! ## All lines -/

/-- The lines behind the first one: those of the headers and the empty one, each with its CR. -/
theorem headerLines_headerText {firstLine : Bytes} {pairs : List (Bytes × Bytes)}
    (hfirst : lf ∉ firstLine) (h : ∀ pair ∈ pairs, Plain pair) :
    headerLines (headerText firstLine pairs) = pairs.map (fieldLine · ++ [cr]) ++ [[cr]] := by
  have hlf : ∀ line ∈ pairs.map fieldLine, lf ∉ line := by
    intro line hline
    obtain ⟨pair, hpair, rfl⟩ := List.mem_map.mp hline
    exact (((h pair hpair).oneLine_name.append (by decide)).append
      (h pair hpair).oneLine_value).2
  rw [headerLines, headerText, lines_append_lf hfirst, List.tail_cons, responseString_eq,
    lines_flatMap_crlf hlf, List.map_map, List.takeWhile_append_of_pos]
  · rfl
  · intro line hline
    obtain ⟨pair, -, rfl⟩ := List.mem_map.mp hline
    simp

theorem filterMap_fieldOf {pairs : List (Bytes × Bytes)} (h : ∀ pair ∈ pairs, Plain pair) :
    (pairs.map (fieldLine · ++ [cr]) ++ [[cr]]).filterMap fieldOf = pairs := by
  have hblank : [[cr]].filterMap fieldOf = [] := by decide
  rw [List.filterMap_append, hblank, List.append_nil, List.filterMap_map]
  exact (List.filterMap_congr fun pair hpair => fieldOf_fieldLine (h pair hpair)).trans
    (List.filterMap_some ..)

/-- What is read back is the pairs, set one after another. -/
theorem parseHeaders_headerText {firstLine : Bytes} {pairs : List (Bytes × Bytes)}
    (hfirst : lf ∉ firstLine) (h : ∀ pair ∈ pairs, Plain pair) :
    parseHeaders (headerText firstLine pairs) = .ok (insertAll ∅ pairs) := by
  have hlines := headerLines_headerText hfirst h
  have hloop := headerLoop_eq ∅ (lines (headerText firstLine pairs)).tail
  rw [← headerLines, hlines, filterMap_fieldOf h, if_neg] at hloop
  · exact hloop
  · rintro ⟨line, hline, hbroken⟩
    rcases List.mem_append.mp hline with hline | hline
    · obtain ⟨pair, -, rfl⟩ := List.mem_map.mp hline
      exact not_broken_cr _ hbroken
    · rw [List.mem_singleton.mp hline] at hbroken
      exact not_broken_cr [] hbroken

/-- **Headers written and read back.** For every first line and every list of plain pairs, the
map read sends each name to the value of its last pair; for a map of headers, in whatever order
they are written, it has the same values. -/
theorem parseHeaders_responseString (firstLine : Bytes) (hfirst : lf ∉ firstLine) :
    (∀ pairs : List (Bytes × Bytes), (∀ pair ∈ pairs, Plain pair) →
      ∃ headers, parseHeaders (firstLine ++ lf :: (responseString pairs ++ crlf)) = .ok headers ∧
        ∀ name, headers.lookup name = lastOf pairs name) ∧
    ∀ (order : HashOrder) (headers : StringMap),
      (∀ name value, headers.lookup name = some value → Plain (name, value)) →
      ∃ headers', parseHeaders
          (firstLine ++ lf :: (httpHeadersToResponseString order headers ++ crlf)) =
            .ok headers' ∧
        ∀ name, headers'.lookup name = headers.lookup name := by
  have hlookup : ∀ (pairs : List (Bytes × Bytes)) name,
      (insertAll ∅ pairs).lookup name = lastOf pairs name := fun pairs name => by
    rw [lookup_insertAll, AList.lookup_empty, Option.or_none]
  refine ⟨fun pairs h => ⟨_, parseHeaders_headerText hfirst h, hlookup pairs⟩,
    fun order headers h => ?_⟩
  have hplain : ∀ pair ∈ order.enum headers, Plain pair := fun pair hpair =>
    h pair.1 pair.2 ((order.mem_enum).mp hpair)
  refine ⟨_, parseHeaders_headerText hfirst hplain, fun name => ?_⟩
  have hnodup : ((order.enum headers).map Prod.fst).Nodup := by
    rw [((order.perm headers).map Prod.fst).nodup_iff, List.map_map]
    exact headers.keys_nodup
  apply Option.ext
  intro value
  rw [hlookup, ← order.mem_enum]
  exact lastOf_eq_some_iff hnodup

/-- A name that is repeated, with an empty value and one with a colon. -/
theorem parseHeaders_host :
    ∃ headers, parseHeaders (lit "GET / HTTP/1.1\r" ++ lf ::
        (responseString [(lit "Host", []), (lit "Host", lit "a:80")] ++ crlf)) = .ok headers ∧
      headers.lookup (lit "Host") = some (lit "a:80") := by
  have hplain : ∀ pair ∈ [(lit "Host", []), (lit "Host", lit "a:80")], Plain pair := by
    intro pair hpair
    rcases List.mem_pair.mp hpair with rfl | rfl <;>
      exact ⟨by decide, by decide, by decide, by decide +kernel⟩
  obtain ⟨headers, hparse, hlookup⟩ := (parseHeaders_responseString (lit "GET / HTTP/1.1\r")
    (by decide)).1 _ hplain
  exact ⟨headers, hparse, hlookup (lit "Host")⟩

end SimpleServer
