import SealedStream.Cipher.Block
import SealedStream.Cipher.ChaCha20
import SealedStream.Cipher.Mode
/-!
# Authenticated ciphers

An authenticated cipher adds a keystream to the message and appends a tag of sixteen octets that
is computed from the ciphertext; both depend on the nonce.

* `SealScheme` is such a cipher under a key; `SealScheme.encrypt` and `SealScheme.decrypt` are
  made of its keystream and its tag.
* `Gcm.scheme` is the Galois/counter mode of NIST SP 800-38D over any block cipher.
* `chaChaPoly` and `xChaChaPoly` are the ciphers of RFC 8439 with nonces of 12 and 24 octets.
-/
namespace SealedStream

/-! ## Schemes -/

/-- An authenticated cipher under a key. -/
structure SealScheme where
  nonceSize : Nat
  /-- The first `n` octets of the keystream for a nonce. -/
  keystream : (nonce : Bytes) → (n : Nat) → Bytes
  tag : (nonce aad ciphertext : Bytes) → Bytes

namespace SealScheme

def tagSize : Nat := 16

/-- The nonce at the beginning of a string, if the string is long enough. -/
def nonceOf (s : SealScheme) (nonce : Bytes) : Except CipherError Bytes :=
  if nonce.length < s.nonceSize then .error (.nonce s.nonceSize nonce.length)
  else .ok (nonce.take s.nonceSize)

def mask (s : SealScheme) (nonce message : Bytes) : Bytes :=
  Bytes.xor message (s.keystream nonce message.length)

def encrypt (s : SealScheme) (nonce plaintext aad : Bytes) : Except CipherError Bytes := do
  let nonce ← s.nonceOf nonce
  let ciphertext := s.mask nonce plaintext
  return ciphertext ++ s.tag nonce aad ciphertext

/-- Open a sealed message, if its tag is that of its ciphertext. -/
def decrypt (s : SealScheme) (nonce sealed aad : Bytes) : Except CipherError Bytes := do
  let nonce ← s.nonceOf nonce
  let n := sealed.length
  if n < tagSize then throw .authentication
  let ciphertext := sealed.take (n - tagSize)
  if s.tag nonce aad ciphertext ≠ sealed.drop (n - tagSize) then throw .authentication
  return s.mask nonce ciphertext

instance : AeadMode SealScheme where
  nonceSize := nonceSize
  overhead _ := tagSize
  encrypt nonce plaintext aad s := (s.encrypt nonce plaintext aad, s)
  decrypt nonce ciphertext aad s := (s.decrypt nonce ciphertext aad, s)

end SealScheme

def zeroFill (bs : Bytes) : Bytes := bs ++ Bytes.zeros ((16 - bs.length % 16) % 16)

/-! ## Galois/counter mode -/

namespace Gcm

/-- An element of the field of `2 ^ 128` elements; the first bit is the highest of `hi`. -/
structure Element where
  hi : UInt64
  lo : UInt64

def Element.add (a b : Element) : Element := ⟨a.hi ^^^ b.hi, a.lo ^^^ b.lo⟩

/-- The product with the second element of the basis. -/
def Element.shift (a : Element) : Element :=
  let hi := a.hi >>> 1
  ⟨if a.lo &&& 1 = 1 then hi ^^^ 0xE100000000000000 else hi, (a.lo >>> 1) ||| (a.hi <<< 63)⟩

/-- `n` steps of a product: the sum so far, the second factor shifted so far, and the bits of the
first factor that are still to come. -/
def Element.mulBits : (n : Nat) → Element → Element → UInt64 → Element × Element
  | 0, z, v, _ => (z, v)
  | n + 1, z, v, x =>
    mulBits n (if x &&& 0x8000000000000000 = 0 then z else z.add v) v.shift (x <<< 1)

def Element.mul (a b : Element) : Element :=
  match mulBits 64 ⟨0, 0⟩ b a.hi with
  | (z, v) => (mulBits 64 z v a.lo).1

/-- The element whose octets are the first sixteen of a string. -/
def Element.ofBytes (bs : Bytes) : Element :=
  ⟨UInt64.ofNat (Bytes.toNatBE (bs.take 8)), UInt64.ofNat (Bytes.toNatBE ((bs.drop 8).take 8))⟩

def Element.bytes (a : Element) : Bytes :=
  Bytes.ofNatBE 8 a.hi.toNat ++ Bytes.ofNatBE 8 a.lo.toNat

/-- The hash of a string of whole blocks under the hash key `h`. -/
def ghash (h : Element) (bs : Bytes) : Element :=
  (bs.pieces 16).foldl (fun y block => (y.add (.ofBytes block)).mul h) ⟨0, 0⟩

/-- The block number `counter` for a nonce of 12 octets. -/
def block (cipher : BlockCipher) (nonce : Bytes) (counter : Nat) : Bytes :=
  (cipher.encrypt (.ofBytes (nonce ++ Bytes.ofNatBE 4 counter))).bytes

/-- The hashed string: associated data and ciphertext in whole blocks, and their lengths in
bits. -/
def hashed (aad ciphertext : Bytes) : Bytes :=
  zeroFill aad ++ zeroFill ciphertext ++ Bytes.ofNatBE 8 (8 * aad.length) ++
    Bytes.ofNatBE 8 (8 * ciphertext.length)

/-- Galois/counter mode. The first block masks the tag, the following ones are the keystream. -/
def scheme (cipher : BlockCipher) : SealScheme :=
  let h := Element.ofBytes (cipher.encrypt .zero).bytes
  { nonceSize := 12
    keystream := fun nonce n =>
      ((List.range ((n + 15) / 16)).flatMap fun i => block cipher nonce (i + 2)).take n
    tag := fun nonce aad ciphertext =>
      Bytes.xor (ghash h (hashed aad ciphertext)).bytes (block cipher nonce 1) }

end Gcm

/-! ## Poly1305 -/

namespace Poly1305

/-- The prime modulus, `2 ^ 130 - 5`. -/
def modulus : Nat := 0x3fffffffffffffffffffffffffffffffb

/-- The bits of the first half of a key that are used. -/
def clamp (r : Nat) : Nat := r &&& 0x0FFFFFFC0FFFFFFC0FFFFFFC0FFFFFFF

/-- The authenticator of a message under a key of 32 octets: a polynomial with the pieces of the
message as coefficients. -/
def tag (key message : Bytes) : Bytes :=
  let r := clamp (Bytes.toNatLE (key.take 16))
  let s := Bytes.toNatLE (key.drop 16)
  let sum := (message.pieces 16).foldl (fun a p => (a + Bytes.toNatLE (p ++ [1])) * r % modulus) 0
  Bytes.ofNatLE 16 (sum + s)

end Poly1305

/-! ## ChaCha20-Poly1305 -/

/-- What is authenticated: associated data and ciphertext in whole blocks, and their lengths. -/
def authenticated (aad ciphertext : Bytes) : Bytes :=
  zeroFill aad ++ zeroFill ciphertext ++ Bytes.ofNatLE 8 aad.length ++
    Bytes.ofNatLE 8 ciphertext.length

/-- ChaCha20-Poly1305. The first block is the key of the tag, the following ones are the
keystream. -/
def chaChaPoly (key : Bytes) : SealScheme where
  nonceSize := 12
  keystream nonce n := ChaCha20.keystream key nonce 1 n
  tag nonce aad ciphertext :=
    Poly1305.tag ((ChaCha20.block key nonce 0).take 32) (authenticated aad ciphertext)

/-- XChaCha20-Poly1305: ChaCha20-Poly1305 under a key that depends on the first 16 octets of the
nonce, with the other 8 as its nonce. -/
def xChaChaPoly (key : Bytes) : SealScheme :=
  let inner (nonce : Bytes) := chaChaPoly (ChaCha20.subkey key (nonce.take 16))
  let rest (nonce : Bytes) := Bytes.zeros 4 ++ nonce.drop 16
  { nonceSize := 24
    keystream := fun nonce n => (inner nonce).keystream (rest nonce) n
    tag := fun nonce aad ciphertext => (inner nonce).tag (rest nonce) aad ciphertext }

end SealedStream
