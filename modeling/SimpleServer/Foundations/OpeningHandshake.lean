import SimpleServer.Foundations.Base64
import SimpleServer.Foundations.Message
import SimpleServer.Foundations.Sha1

/-!
# The opening handshake of RFC 6455

The answer to the nonce of a client (sections 1.3 and 4.2.2) and the checks of the client on it
(section 4.1): the status, the two fields of the upgrade, the accept value of its own nonce, and no
extension or protocol that it did not ask for. The answer as a message with these fields passes
them (`accepted_switching`), and its text is received as this message (`receive_switching`).
-/

namespace Rfc6455

open Cxx Http

/-- The identifier that is put behind a nonce. -/
def guid : Bytes := lit "258EAFA5-E914-47DA-95CA-C5AB0DC85B11"

/-- The accept value of a nonce. -/
def acceptValue (key : Bytes) : Bytes := Base64.encode (Sha1.digest (key ++ guid))

/-- The values of the fields of a name, whatever its case. -/
def fieldValues (name : Bytes) (m : Message) : List Bytes :=
  (m.fields.filter fun f => toLowerCase f.1 = toLowerCase name).map Prod.snd

/-- The checks of a client that sent the nonce `key` and asked for no extension and no protocol. -/
structure Accepted (key : Bytes) (m : Message) : Prop where
  status : lit "HTTP/1.1 101 " <+: m.startLine
  upgrade : (fieldValues (lit "Upgrade") m).map toLowerCase = [lit "websocket"]
  connection : (fieldValues (lit "Connection") m).map toLowerCase = [lit "upgrade"]
  accept : fieldValues (lit "Sec-WebSocket-Accept") m = [acceptValue key]
  extensions : fieldValues (lit "Sec-WebSocket-Extensions") m = []
  protocol : fieldValues (lit "Sec-WebSocket-Protocol") m = []

/-- The answer with an accept value. -/
def switching (value : Bytes) : Message where
  startLine := lit "HTTP/1.1 101 Switching Protocols"
  fields := [(lit "Upgrade", lit "websocket"), (lit "Connection", lit "Upgrade"),
    (lit "Sec-WebSocket-Accept", value)]
  body := []

/-- **The checks are passed by the accept value of the nonce alone.** -/
theorem accepted_switching {key value : Bytes} :
    Accepted key (switching value) ↔ value = acceptValue key := by
  have haccept : fieldValues (lit "Sec-WebSocket-Accept") (switching value) = [value] := rfl
  refine ⟨fun h => ?_, fun h => ?_⟩
  · rw [← List.singleton_inj, ← haccept, h.accept]
  · exact ⟨by change lit "HTTP/1.1 101 " <+: lit "HTTP/1.1 101 Switching Protocols"; decide, rfl,
      rfl, haccept.trans (congrArg (fun v => [v]) h), rfl, rfl⟩

/-- An encoding has neither CR nor LF. -/
theorem oneLine_encode (bs : Bytes) : OneLine (Base64.encode bs) := by
  obtain ⟨text, htext, hencode⟩ := Base64.exists_encode bs
  have hmem : ∀ c ∈ Base64.encode bs, c ∈ Base64.alphabet ∨ c = Base64.pad := by
    intro c hc
    rw [hencode, List.mem_append] at hc
    rcases hc with hc | hc
    · exact Or.inl (htext c hc)
    · exact Or.inr (List.eq_of_mem_replicate hc)
  have hcr : ¬ (cr ∈ Base64.alphabet ∨ cr = Base64.pad) := by decide
  have hlf : ¬ (lf ∈ Base64.alphabet ∨ lf = Base64.pad) := by decide
  exact ⟨fun h => hcr (hmem cr h), fun h => hlf (hmem lf h)⟩

theorem receive_switching {value : Bytes} (h : OneLine value) :
    receive (switching value).render = some (switching value) := by
  have hname : lit "Sec-WebSocket-Accept" ≠ [] ∧ colon ∉ lit "Sec-WebSocket-Accept" ∧
      OneLine (lit "Sec-WebSocket-Accept") := by decide
  have hstart : lit "HTTP/1.1 101 Switching Protocols" ≠ [] ∧
      OneLine (lit "HTTP/1.1 101 Switching Protocols") := by decide
  have hfields : FieldOk (lit "Upgrade", lit "websocket") ∧
      FieldOk (lit "Connection", lit "Upgrade") := by decide
  refine Message.receive_render ⟨hstart.1, hstart.2, fun f hf => ?_⟩
  simp only [switching, List.mem_cons, List.not_mem_nil, or_false] at hf
  rcases hf with rfl | rfl | rfl
  · exact hfields.1
  · exact hfields.2
  · exact ⟨hname.1, hname.2.1, hname.2.2, h⟩

end Rfc6455
