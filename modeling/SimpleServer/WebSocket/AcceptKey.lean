import SimpleServer.Foundations.OpeningHandshake
import SimpleServer.WebSocket.Digest
import SimpleServer.WebSocket.Handshake

/-!
# The handshake with the class `SHA1`

`get_accept_key` with the object it makes, whatever the memory of the object and of its array held
before: what it returns is the base64 form of the digest of the challenge and the magic string
(`getAcceptKeyHasher_eq`). A platform whose digest is that of the standard is therefore the one the
server runs on, and there a client receives the answer to its upgrade request as a message that
passes the checks of its protocol (`accepted_upgradeResponse`).
-/

namespace SimpleServer

open Cxx

/-! ## The key -/

/-- The words of a hash value in their order. -/
def wordsArray (w : Sha1.Words) : Vector UInt32 5 := ⟨#[w.a, w.b, w.c, w.d, w.e], rfl⟩

/-- A platform whose digest is the hash value of the standard. -/
def Platform.standard (platform : Platform) : Platform :=
  { platform with sha1 := fun message => wordsArray (Sha1.hash message) }

/-- `get_accept_key` with the object `hasher` and the array `hash`, before they are set. -/
def getAcceptKeyHasher (hasher : SHA1) (hash : Vector UInt32 5) (challenge : Bytes) :
    Except Exn Bytes := do
  let fullString := challenge ++ magicString
  let hasher ← (SHA1.construct hasher).input (inputBytes fullString)
  let (_, result) ← hasher.result
  let hash := hashBytes (result.getD hash)
  return (base64Encode hash).get (base64Encode_isSome (by rw [length_hashBytes]; norm_num))

theorem wordsArray_hashValue (H : Vector UInt32 5) : wordsArray (SHA1.hashValue H) = H := by
  apply Vector.ext
  intro i hi
  match i, hi with
  | 0, _ => rfl
  | 1, _ => rfl
  | 2, _ => rfl
  | 3, _ => rfl
  | 4, _ => rfl

/-- The bytes of a digest. -/
theorem hashBytes_wordsArray (w : Sha1.Words) : hashBytes (wordsArray w) = w.bytes := by
  rw [hashBytes_eq]
  rfl

theorem length_inputBytes_lt (s : Bytes) : (inputBytes s).length < 2 ^ 32 := by
  have hmod := Nat.mod_lt s.length (Nat.two_pow_pos 32)
  rw [inputBytes, List.length_take]
  omega

/-- The digest of one message, in an object of its own. -/
theorem result_input (memory : SHA1) {message : Bytes} (h : message.length < 2 ^ 61) :
    ∃ c c', (SHA1.construct memory).input message = .ok c ∧
      c.result = .ok (c', some (wordsArray (Sha1.hash message))) := by
  have hstart : SHA1.Represents (.absorbing []) (SHA1.construct memory) :=
    SHA1.absorbed_reset memory
  obtain ⟨c, hinput, hc⟩ := SHA1.input_eq hstart message
  have hfeed : SHA1.Hashing.feed (.absorbing []) message = .absorbing message := by
    cases message with
    | nil => rfl
    | cons b bs => exact if_pos (by simpa using h)
  rw [hfeed] at hc
  obtain ⟨c', hpad, hhash, -⟩ := SHA1.padMessage_eq hc
  refine ⟨c, { c' with computed := true }, hinput, ?_⟩
  rw [SHA1.result, if_neg (by simp [hc.corrupted]), if_neg (by simp [hc.computed]), hpad, ← hhash,
    wordsArray_hashValue]
  rfl

theorem getAcceptKey_standard (platform : Platform) (challenge : Bytes) :
    getAcceptKey platform.standard challenge =
      Base64.encode (Sha1.digest (inputBytes (challenge ++ magicString))) := by
  rw [getAcceptKey_eq]
  exact congrArg Base64.encode (hashBytes_wordsArray _)

/-- The key that the function makes is the one of the platform with the digest of the standard. -/
theorem getAcceptKeyHasher_standard (platform : Platform) (hasher : SHA1)
    (hash : Vector UInt32 5) (challenge : Bytes) :
    getAcceptKeyHasher hasher hash challenge = .ok (getAcceptKey platform.standard challenge) := by
  have hlt := length_inputBytes_lt (challenge ++ magicString)
  obtain ⟨c, c', hinput, hresult⟩ := result_input hasher (hlt.trans (by norm_num))
  rw [getAcceptKeyHasher, hinput, ok_bind, hresult, ok_bind]
  rfl

/-- **The accept key is the digest in base64**, for every challenge and whatever the memory of the
object and of the array held. -/
theorem getAcceptKeyHasher_eq (hasher : SHA1) (hash : Vector UInt32 5) (challenge : Bytes) :
    getAcceptKeyHasher hasher hash challenge =
      .ok (Base64.encode (Sha1.digest (inputBytes (challenge ++ magicString)))) := by
  rw [getAcceptKeyHasher_standard .plain, getAcceptKey_standard]

/-- An object whose memory holds what was there before. -/
def usedMemory : SHA1 where
  H := Vector.replicate 5 7
  lengthLow := 1
  lengthHigh := 2
  messageBlock := Vector.replicate 64 9
  messageBlockIndex := 63
  computed := true
  corrupted := true

-- The vector of the test `base64test.cpp`.
example : (getAcceptKeyHasher usedMemory (Vector.replicate 5 3)
    (lit "dGhlIHNhbXBsZSBub25jZQ==")).toOption = some (lit "s3pPLMBiTxaQ9kYGzzhZRbK+xOo=") := by
  decide +kernel

/-! ## The client -/

/-- The accept key of a challenge is its accept value, as long as its size is an `unsigned int`. -/
theorem getAcceptKey_acceptValue (platform : Platform) {challenge : Bytes}
    (h : challenge.length < 2 ^ 32 - 36) :
    getAcceptKey platform.standard challenge = Rfc6455.acceptValue challenge := by
  have hmagic : magicString.length = 36 := by decide
  rw [getAcceptKey_standard, inputBytes_of_lt]
  · rfl
  · rw [List.length_append, hmagic]
    omega

/-- The answer is the text of a message. -/
theorem upgradeResponse_eq (platform : Platform) (key : Bytes) :
    upgradeResponse platform key = (Rfc6455.switching (getAcceptKey platform key)).render := by
  have hhead : lit "HTTP/1.1 101 Switching Protocols\r\n" ++ lit "Upgrade: websocket\r\n" ++
      lit "Connection: Upgrade\r\n" ++ lit "Sec-WebSocket-Accept: " =
        lit "HTTP/1.1 101 Switching Protocols" ++ crlf ++
          (lit "Upgrade" ++ lit ": " ++ lit "websocket" ++ crlf) ++
          (lit "Connection" ++ lit ": " ++ lit "Upgrade" ++ crlf) ++
          (lit "Sec-WebSocket-Accept" ++ lit ": ") := by decide
  have hend : lit "\r\n\r\n" = crlf ++ crlf := by decide
  rw [upgradeResponse, hhead, hend]
  simp [Http.Message.render, Rfc6455.switching, Http.fieldLine]

/-- **A client accepts the answer to its own challenge, and no other**: the answer is received as a
message, which passes the checks of a client that sent `nonce` if and only if the nonce has the
accept value of the challenge that was answered. -/
theorem accepted_upgradeResponse (platform : Platform) (nonce : Bytes) {challenge : Bytes}
    (h : challenge.length < 2 ^ 32 - 36) :
    ∃ m, Http.receive (upgradeResponse platform.standard challenge) = some m ∧
      (Rfc6455.Accepted nonce m ↔ Rfc6455.acceptValue challenge = Rfc6455.acceptValue nonce) := by
  have hkey := getAcceptKey_acceptValue platform h
  refine ⟨Rfc6455.switching (Rfc6455.acceptValue challenge), ?_, Rfc6455.accepted_switching⟩
  rw [upgradeResponse_eq, hkey]
  exact Rfc6455.receive_switching (Rfc6455.oneLine_encode _)

theorem accepted_upgradeResponse_sample : sampleChallenge.length < 2 ^ 32 - 36 ∧
    ∃ m, Http.receive (upgradeResponse Platform.plain.standard sampleChallenge) = some m ∧
      (Rfc6455.Accepted sampleChallenge m ↔
        Rfc6455.acceptValue sampleChallenge = Rfc6455.acceptValue sampleChallenge) := by
  have h : sampleChallenge.length < 2 ^ 32 - 36 := by decide
  exact ⟨h, accepted_upgradeResponse .plain sampleChallenge h⟩

end SimpleServer
