import SimpleServer.Foundations.BigEndian
import SimpleServer.Http.Request
import SimpleServer.Foundations.HashMap
import SimpleServer.WebSocket.Base64

/-!
# The WebSocket handshake

The functions of `websocket_handler.cpp` behind the answer to an upgrade request: the key of the
request, the accept key with its base64 form, and the text of the answer. The class `SHA1` is a
function from byte strings to five words. The digest that `get_accept_key` encodes has 20 bytes,
and its accept key is the base64 form of these bytes, each word with the most significant byte
first (`getAcceptKey_decodes`).
-/

namespace SimpleServer

open Cxx

/-- What the server takes from outside its own code: the order of the loops over unordered maps,
the digest of the class `SHA1`, and `std::regex`, with `none` for a pattern whose constructor
throws and else the predicate that `std::regex_match` decides. -/
structure Platform where
  order : HashOrder
  sha1 : Bytes → Vector UInt32 5
  regex : Bytes → Option (Bytes → Bool)

/-- A platform that lists entries as they stand, gives the SHA-1 digest of the key
`dGhlIHNhbXBsZSBub25jZQ==` with the magic string, and has no regular expressions. -/
def Platform.plain : Platform where
  order := .listed
  sha1 := fun _ => #v[0xb37a4f2c, 0xc0624f16, 0x90f64606, 0xcf385945, 0xb2bec4ea]
  regex := fun _ => none

def magicString : Bytes := lit "258EAFA5-E914-47DA-95CA-C5AB0DC85B11"

/-! ## The accept key -/

/-- `htonl` on a little-endian host. -/
def htonl (x : UInt32) : UInt32 :=
  x <<< 24 ||| (x &&& (0xff00 : UInt32)) <<< 8 ||| (x >>> 8 &&& (0xff00 : UInt32)) ||| x >>> 24

/-- The bytes of a word in the memory of a little-endian host. -/
def memory (x : UInt32) : Bytes := (BigEndian.bytes 4 x.toNat).reverse

/-- The mask of the second byte. -/
theorem and_ff00 (n : ℕ) : n &&& 0xff00 = 2 ^ 8 * (n / 2 ^ 8 % 2 ^ 8) := Bits.and_mask n 8 8

/-- The number that `htonl` makes of four bytes. -/
theorem toNat_htonl {x : UInt32} {a b c d : UInt8} (h : x.toNat = BigEndian.value [a, b, c, d]) :
    (htonl x).toNat = BigEndian.value [d, c, b, a] := by
  have ha := a.toNat_lt
  have hb := b.toNat_lt
  have hc := c.toNat_lt
  have hd := d.toNat_lt
  have h1 : (x <<< 24).toNat = 2 ^ 24 * d.toNat := by
    rw [UInt32.toNat_shiftLeft, h]
    simp [BigEndian.value, Nat.shiftLeft_eq]
    omega
  have h2 : ((x &&& 0xff00) <<< 8).toNat = 2 ^ 16 * c.toNat := by
    rw [UInt32.toNat_shiftLeft, UInt32.toNat_and, h]
    simp only [UInt32.reduceToNat, and_ff00]
    simp [BigEndian.value, Nat.shiftLeft_eq]
    omega
  have h3 : (x >>> 8 &&& 0xff00).toNat = 2 ^ 8 * b.toNat := by
    rw [UInt32.toNat_and, UInt32.toNat_shiftRight, h]
    simp only [UInt32.reduceToNat, and_ff00]
    simp [BigEndian.value, Nat.shiftRight_eq_div_pow]
    omega
  have h4 : (x >>> 24).toNat = a.toNat := by
    rw [UInt32.toNat_shiftRight, h]
    simp [BigEndian.value, Nat.shiftRight_eq_div_pow]
    omega
  have hvalue : BigEndian.value [d, c, b, a] =
      2 ^ 24 * d.toNat + (2 ^ 16 * c.toNat + (2 ^ 8 * b.toNat + a.toNat)) := by
    simp [BigEndian.value]
    omega
  rw [htonl, UInt32.toNat_or, UInt32.toNat_or, UInt32.toNat_or, h1, h2, h3, h4, hvalue,
    Nat.or_assoc, Nat.or_assoc, ← Nat.two_pow_add_eq_or_of_lt ha,
    ← Nat.two_pow_add_eq_or_of_lt (b := 2 ^ 8 * b.toNat + a.toNat) (by omega),
    ← Nat.two_pow_add_eq_or_of_lt (by omega)]

/-- `htonl` turns a word so that it lies in memory with the most significant byte first. -/
theorem memory_htonl (x : UInt32) : memory (htonl x) = BigEndian.bytes 4 x.toNat := by
  obtain ⟨a, b, c, d, hbytes⟩ : ∃ a b c d, BigEndian.bytes 4 x.toNat = [a, b, c, d] :=
    ⟨_, _, _, _, rfl⟩
  have hvalue : x.toNat = BigEndian.value [a, b, c, d] := by
    rw [← hbytes, BigEndian.value_bytes x.toNat_lt]
  rw [memory, toNat_htonl hvalue, hbytes]
  exact congrArg List.reverse (BigEndian.bytes_value [d, c, b, a])

/-- The array `hash` that `get_accept_key` encodes. -/
def hashBytes (hash : Vector UInt32 5) : Bytes := (hash.map htonl).toList.flatMap memory

theorem hashBytes_eq (hash : Vector UInt32 5) :
    hashBytes hash = hash.toList.flatMap fun word => BigEndian.bytes 4 word.toNat := by
  rw [hashBytes, Vector.toList_map, List.flatMap_map]
  simp only [memory_htonl]

theorem length_hashBytes (hash : Vector UInt32 5) : (hashBytes hash).length = 20 := by
  have hmemory : ∀ x : UInt32, (memory x).length = 4 := fun x => by simp [memory]
  simp [hashBytes, List.length_flatMap, hmemory]

/-- The bytes that `Input` gets from a string whose size is converted to `unsigned int`. -/
def inputBytes (s : Bytes) : Bytes := s.take (s.length % 2 ^ 32)

/-- `get_accept_key`. -/
def getAcceptKey (platform : Platform) (challenge : Bytes) : Bytes :=
  let fullString := challenge ++ magicString
  let hash := hashBytes (platform.sha1 (inputBytes fullString))
  (base64Encode hash).get (base64Encode_isSome (by rw [length_hashBytes]; norm_num))

/-- The accept key is the encoding of the digest. -/
theorem getAcceptKey_eq (platform : Platform) (challenge : Bytes) :
    getAcceptKey platform challenge =
      Base64.encode (hashBytes (platform.sha1 (inputBytes (challenge ++ magicString)))) := by
  have hsize := length_hashBytes (platform.sha1 (inputBytes (challenge ++ magicString)))
  have hencode := base64Encode_eq (hsize.trans_lt (by norm_num))
  rw [getAcceptKey, Option.get_of_eq_some _ hencode]

theorem length_getAcceptKey (platform : Platform) (challenge : Bytes) :
    (getAcceptKey platform challenge).length = 28 := by
  rw [getAcceptKey_eq, Base64.length_encode, length_hashBytes]

/-- The input of the digest is the whole string when its size is an `unsigned int`. -/
theorem inputBytes_of_lt {s : Bytes} (h : s.length < 2 ^ 32) : inputBytes s = s := by
  rw [inputBytes, Nat.mod_eq_of_lt h, List.take_length]

/-- **What the accept key is.** For every challenge of fewer than `2 ^ 32 - 36` bytes: 28
characters, of which the last one alone is `=`, that are decoded to the five words of the digest of
the challenge and the magic string, each with its most significant byte first. -/
theorem getAcceptKey_decodes (platform : Platform) (challenge : Bytes)
    (h : challenge.length < 2 ^ 32 - 36) :
    (getAcceptKey platform challenge).length = 28 ∧
      (∃ text, getAcceptKey platform challenge = text ++ [61] ∧ 61 ∉ text) ∧
      Base64.decode (getAcceptKey platform challenge) =
        some ((platform.sha1 (challenge ++ magicString)).toList.flatMap fun word =>
          BigEndian.bytes 4 word.toNat) := by
  have hmagic : magicString.length = 36 := by decide
  have hinput : inputBytes (challenge ++ magicString) = challenge ++ magicString :=
    inputBytes_of_lt (by rw [List.length_append, hmagic]; omega)
  have hkey := getAcceptKey_eq platform challenge
  rw [hinput] at hkey
  have hsize := length_hashBytes (platform.sha1 (challenge ++ magicString))
  refine ⟨length_getAcceptKey platform challenge, ?_, ?_⟩
  · obtain ⟨text, htext, hencode⟩ :=
      Base64.exists_encode (hashBytes (platform.sha1 (challenge ++ magicString)))
    rw [hsize] at hencode
    exact ⟨text, hkey.trans hencode, fun hmem => Base64.pad_notMem_alphabet (htext _ hmem)⟩
  · rw [hkey, Base64.decode_encode, hashBytes_eq]

example : getAcceptKey .plain (lit "dGhlIHNhbXBsZSBub25jZQ==") =
    lit "s3pPLMBiTxaQ9kYGzzhZRbK+xOo=" := by
  decide +kernel

/-- Another challenge of a client. -/
def sampleChallenge : Bytes := lit "x3JJHMbDL1EzLkh9GBhXDw=="

/-- A platform that gives the digest of this challenge. -/
def Platform.sample : Platform :=
  { Platform.plain with
    sha1 := fun _ => #v[0x1d29ab73, 0x4b0c9585, 0x240069a6, 0xe4e3e91b, 0x61da1969] }

/-- The accept key of the sample. -/
theorem getAcceptKey_decodes_sample : sampleChallenge.length < 2 ^ 32 - 36 ∧
    (getAcceptKey .sample sampleChallenge).length = 28 ∧
    (∃ text, getAcceptKey .sample sampleChallenge = text ++ [61] ∧ 61 ∉ text) ∧
    Base64.decode (getAcceptKey .sample sampleChallenge) =
      some ([0x1d, 0x29, 0xab, 0x73, 0x4b, 0x0c, 0x95, 0x85, 0x24, 0x00, 0x69, 0xa6, 0xe4, 0xe3,
        0xe9, 0x1b, 0x61, 0xda, 0x19, 0x69]) := by
  have h : sampleChallenge.length < 2 ^ 32 - 36 := by decide
  obtain ⟨hlen, htext, hdecode⟩ := getAcceptKey_decodes .sample sampleChallenge h
  exact ⟨h, hlen, htext, hdecode.trans (by decide)⟩

example : getAcceptKey .sample sampleChallenge = lit "HSmrc0sMlYUkAGmm5OPpG2HaGWk=" := by
  decide +kernel

/-! ## The answer -/

/-- `find_websocket_key`. -/
def findWebsocketKey (platform : Platform) (headers : StringMap) : Bytes :=
  match (platform.order.enum headers).find?
      fun it => toLowerCase it.1 = lit "sec-websocket-key" with
  | some it => it.2
  | none => []

/-- `websocket_manager::is_websocket` on the headers of a request. -/
def isWebsocket (headers : StringMap) : Bool := (headers.lookup (lit "Upgrade")).isSome

/-- The local variable `response_transformed` of `add_new_connection_connection`. -/
def upgradeResponse (platform : Platform) (websocketKey : Bytes) : Bytes :=
  lit "HTTP/1.1 101 Switching Protocols\r\n" ++ lit "Upgrade: websocket\r\n" ++
    lit "Connection: Upgrade\r\n" ++ lit "Sec-WebSocket-Accept: " ++
    getAcceptKey platform websocketKey ++ lit "\r\n\r\n"

/-- The length of the answer, whatever the key is. -/
def upgradeSize : ℕ := 129

theorem length_upgradeResponse (platform : Platform) (websocketKey : Bytes) :
    (upgradeResponse platform websocketKey).length = upgradeSize := by
  rw [upgradeResponse, List.length_append, List.length_append, length_getAcceptKey]
  rfl

end SimpleServer
