import SimpleServer.WebSocket.FrameStream

/-!
# Fragmented messages

A message may be sent in fragments: a text frame that is not final, continuation frames, and a
last one that is final. `read_frame` decodes the bit `fin` and never looks at it again, and it
takes a continuation frame for an unsupported one, so that the first fragment is returned as a
message of its own and the others are dropped (`map_textOf_frames`).
`readFrames_fragments_iff` says when this does no harm.
-/

namespace SimpleServer

open Cxx Inbox Rfc6455

/-- The opcode of the fragments behind the first one. -/
def continuationOpcode : Fin 16 := ⟨0, by decide⟩

/-- A text message in two or more fragments. -/
structure Fragments where
  first : Frame
  middle : List Frame
  last : Frame
  fin_first : first.fin = false
  opcode_first : first.opcode = textOpcode
  fin_middle : ∀ f ∈ middle, f.fin = false
  opcode_middle : ∀ f ∈ middle, f.opcode = continuationOpcode
  fin_last : last.fin = true
  opcode_last : last.opcode = continuationOpcode

namespace Fragments

def frames (fragments : Fragments) : List Frame :=
  fragments.first :: (fragments.middle ++ [fragments.last])

def message (fragments : Fragments) : Bytes := fragments.frames.flatMap Frame.payload

/-- Among the results of the calls, one for each frame, the message is the only one that is not
empty, and no call returns anything for a frame that is not final. -/
def Joined (fragments : Fragments) (results : List Bytes) : Prop :=
  results.filter (· ≠ []) = [fragments.message].filter (· ≠ []) ∧
    ∀ call ∈ fragments.frames.zip results, call.1.fin = false → call.2 = []

variable (fragments : Fragments)

/-- The first fragment is the text that is read. -/
theorem map_textOf_frames :
    fragments.frames.map textOf =
      fragments.first.payload :: List.replicate (fragments.middle.length + 1) [] := by
  have hfirst : textOf fragments.first = fragments.first.payload :=
    if_pos fragments.opcode_first
  have hlast : textOf fragments.last = [] := by
    apply if_neg
    rw [fragments.opcode_last]
    decide
  have hmiddle : fragments.middle.map textOf = List.replicate fragments.middle.length [] := by
    rw [List.eq_replicate_iff, List.length_map]
    refine ⟨rfl, fun text htext => ?_⟩
    obtain ⟨f, hf, rfl⟩ := List.mem_map.mp htext
    apply if_neg
    rw [fragments.opcode_middle f hf]
    decide
  rw [frames, List.map_cons, List.map_append, hfirst, hmiddle, List.map_singleton, hlast,
    List.replicate_succ']

theorem filter_map_textOf :
    (fragments.frames.map textOf).filter (· ≠ []) =
      [fragments.first.payload].filter (· ≠ []) := by
  rw [map_textOf_frames, ← List.singleton_append, List.filter_append,
    List.filter_replicate_of_neg (by simp), List.append_nil]

theorem filter_singleton_eq_iff {a b : Bytes} :
    [a].filter (· ≠ []) = [b].filter (· ≠ []) ↔ a = b := by
  rw [List.filter_singleton, List.filter_singleton]
  by_cases ha : a = [] <;> by_cases hb : b = [] <;> simp [ha, hb]

/-- The frames read one by one are the message when all of its text is in the first one. -/
theorem filter_eq_iff :
    (fragments.frames.map textOf).filter (· ≠ []) = [fragments.message].filter (· ≠ []) ↔
      fragments.first.payload = fragments.message := by
  rw [filter_map_textOf, filter_singleton_eq_iff]

theorem joined_iff : fragments.Joined (fragments.frames.map textOf) ↔ fragments.message = [] := by
  rw [Joined, filter_eq_iff]
  constructor
  · rintro ⟨heq, hzip⟩
    rw [← heq]
    have hmem : (fragments.first, fragments.first.payload) ∈
        fragments.frames.zip (fragments.frames.map textOf) := by
      rw [map_textOf_frames]
      exact List.mem_cons_self
    exact hzip _ hmem fragments.fin_first
  · intro hnil
    have hpayload : ∀ f ∈ fragments.frames, f.payload = [] := List.flatMap_eq_nil_iff.mp hnil
    refine ⟨(hpayload fragments.first List.mem_cons_self).trans hnil.symm, ?_⟩
    intro call hcall _
    obtain ⟨f, hf, htext⟩ := List.mem_map.mp (List.of_mem_zip hcall).2
    rw [← htext, textOf, hpayload f hf, ite_self]

end Fragments

/-- **When a fragmented message is not torn.** For every fragmented message, every further bytes
and all segments in which the fixed-size reads are whole: the results of the calls are the message
at its last frame and nothing before it if and only if the message is empty; the results that are
not empty are the message alone if and only if all of its text is in the first fragment. -/
theorem readFrames_fragments_iff (fragments : Fragments) (further : Bytes) (segs : List Bytes)
    (hp : Proper segs) (hbytes : segs.flatten = fragments.frames.flatMap Frame.wire ++ further)
    (hw : WholeReads fragments.frames segs) :
    ∃ (results : List Bytes) (left : List Bytes),
      readFrames fragments.frames.length (segs.map some) = .ok (results, left.map some) ∧
      left.flatten = further ∧
      (fragments.Joined results ↔ fragments.message = []) ∧
      (results.filter (· ≠ []) = [fragments.message].filter (· ≠ []) ↔
        fragments.first.payload = fragments.message) := by
  obtain ⟨left, hread, hleft⟩ := readFrames_frames fragments.frames further segs hp hbytes hw
  exact ⟨_, left, hread, hleft, fragments.joined_iff, fragments.filter_eq_iff⟩

/-- `Hel` and `lo` in two fragments, in one segment. -/
def helLo : Fragments where
  first := { textFrame (lit "Hel") (by decide) with fin := false }
  middle := []
  last := { textFrame (lit "lo") (by decide) with opcode := continuationOpcode }
  fin_first := rfl
  opcode_first := rfl
  fin_middle := by simp
  opcode_middle := by simp
  fin_last := rfl
  opcode_last := rfl

theorem readFrames_helLo :
    ∃ (results : List Bytes) (left : List Bytes),
      readFrames 2 ((single (helLo.frames.flatMap Frame.wire ++ [])).map some) =
        .ok (results, left.map some) ∧
      left.flatten = [] ∧ (helLo.Joined results ↔ helLo.message = []) ∧
      (results.filter (· ≠ []) = [helLo.message].filter (· ≠ []) ↔
        helLo.first.payload = helLo.message) :=
  readFrames_fragments_iff helLo [] _ (proper_single _) (flatten_single _)
    (wholeReads_single helLo.frames [])

/-- The first fragment is returned as a message. -/
theorem not_readFrames_fragments :
    ¬ ∀ (fragments : Fragments) (segs : List Bytes), Proper segs →
      segs.flatten = fragments.frames.flatMap Frame.wire → WholeReads fragments.frames segs →
      ∃ (results : List Bytes) (q : Inbox),
        readFrames fragments.frames.length (segs.map some) = .ok (results, q) ∧
          fragments.Joined results := by
  intro h
  have hbytes := flatten_single (helLo.frames.flatMap Frame.wire ++ [])
  have hw := wholeReads_single helLo.frames []
  obtain ⟨left, hread, -⟩ := readFrames_frames helLo.frames [] _ (proper_single _) hbytes hw
  rw [List.append_nil] at hbytes hw hread
  obtain ⟨results, q, hread', hjoined⟩ := h helLo _ (proper_single _) hbytes hw
  rw [hread] at hread'
  cases hread'
  exact absurd (helLo.joined_iff.mp hjoined) (by decide)

end SimpleServer
