import SealedStream.Curve.X25519
import SealedStream.Entropy
import SealedStream.KeyHandle
import SealedStream.KeyStretch
/-!
# Key exchanges

A `KeyExchange` makes key material out of a public key and fresh randomness, and a value from
which the holder of the private key makes the same material: the public key of the other, fresh
pair. Both sides multiply the public key they have by the private one and stretch the product.

* `KeyExchange.generate` makes a pair of keys, `KeyExchange.loadPublic` and
  `KeyExchange.loadPrivate` read the two keys of one.
* `KeyExchange.encryptKey` and `KeyExchange.decryptKey` are the two sides; where they fail, the key
  material stays as it was.
-/
namespace SealedStream

/-- A way to agree on key material. -/
inductive KeyExchange where
  | x25519
  /-- A curve over a prime field, with the product whitened; `name` is that of its keys. -/
  | ecdh (curve : WeierstrassCurve) (name : String)
  deriving DecidableEq, Repr

/-- An action that fills key material, or fails. -/
abbrev Keying := ExceptT SuiteError (StateM KeyMaterial)

namespace KeyExchange

def keyName : KeyExchange → String
  | x25519 => "curve25519"
  | ecdh _ name => name

/-- What is shown of an exchange over a prime field with the given name. -/
def describeEcdh (name : String) : String := "EcdhKem \x7b name: " ++ Text.quote name ++ " \x7d"

/-! ## Fresh keys -/

/-- Draw one number: a scalar, or else the stream to go on with. -/
def tryScalar (c : WeierstrassCurve) (e : Entropy) : Entropy ⊕ c.Scalar × Entropy :=
  match e.fill c.width with
  | (bs, e) => if h : c.isScalar bs.toNatBE then .inr (⟨bs.toNatBE, h⟩, e) else .inl e

/-- Draw numbers until one is a scalar. From a stream that never gives one the search does not come
to an end, and nothing is said of its result. -/
def drawScalar (c : WeierstrassCurve) (e : Entropy) : c.Scalar × Entropy :=
  repeatM (m := Id) (tryScalar c) e

section
variable {c : WeierstrassCurve} {e : Entropy}

theorem drawScalar_of_isScalar (h : c.isScalar (e.fill c.width).1.toNatBE) :
    drawScalar c e = (⟨_, h⟩, (e.fill c.width).2) := by
  have hs : tryScalar c e = .inr (⟨_, h⟩, (e.fill c.width).2) := dif_pos h
  rw [drawScalar, repeatM_eq_of_monadTail, repeatM.body, hs]
  rfl

theorem drawScalar_of_not_isScalar (h : ¬ c.isScalar (e.fill c.width).1.toNatBE) :
    drawScalar c e = drawScalar c (e.fill c.width).2 := by
  have hs : tryScalar c e = .inl (e.fill c.width).2 := dif_neg h
  rw [drawScalar, repeatM_eq_of_monadTail, repeatM.body, hs]
  rfl

end

def drawX25519 (e : Entropy) : Bytes × Entropy :=
  match e.fill X25519.keyLen with
  | (bs, e) => (X25519.clamp bs, e)

def generate (x : KeyExchange) (e : Entropy) : KeyPair × Entropy :=
  match x with
  | x25519 =>
    match drawX25519 e with
    | (k, e) => (⟨X25519.publicKey k, k⟩, e)
  | ecdh c _ =>
    match drawScalar c e with
    | (k, e) => (⟨c.encode (c.publicPoint k.1), .ofNatBE c.width k.1⟩, e)

/-! ## Reading keys -/

/-- A text that says that octets have the wrong length. -/
def wrongLength (what : String) (expected got : Nat) : String :=
  what ++ " must be " ++ toString expected ++ " bytes, got " ++ toString got

def loadPublic (x : KeyExchange) (bs : Bytes) : Except SuiteError PublicKey :=
  match x with
  | x25519 =>
    if bs.length = X25519.keyLen then .ok ⟨x.keyName, .x25519 bs⟩
    else .error (.malformedKey (wrongLength "curve25519 public key" X25519.keyLen bs.length))
  | ecdh c name =>
    match c.decode? bs with
    | some q => .ok ⟨name, .point c q⟩
    | none => .error (.malformedKey ("invalid " ++ name ++ " point"))

def loadPrivate (x : KeyExchange) (bs : Bytes) : Except SuiteError PrivateKey :=
  match x with
  | x25519 =>
    if bs.length = X25519.keyLen then .ok ⟨x.keyName, .x25519 bs⟩
    else .error (.malformedKey (wrongLength "curve25519 private key" X25519.keyLen bs.length))
  | ecdh c name =>
    if bs.length ≠ c.width then
      .error (.malformedKey (wrongLength (name ++ " private key") c.width bs.length))
    else if c.isScalar bs.toNatBE then .ok ⟨name, .scalar c bs.toNatBE⟩
    else .error (.malformedKey (name ++ " scalar out of range"))

/-! ## The exchange -/

/-- Fill key material from the product of two keys for X25519, which is zero for a few points. -/
def deriveX25519 (scalar point : Bytes) : Keying Unit := do
  let secret := X25519.multiply scalar point
  if secret.all (· == 0) then throw (.keyExchangeFailed "low-order curve25519 point")
  modify (KeyStretch.derive secret)

/-- Fill key material from the product of two keys of a curve. -/
def deriveEcdh (c : WeierstrassCurve) (k : Nat) (q : CurvePoint) : Keying Unit :=
  modify (KeyStretch.deriveWhitened (c.encode (c.multiply k q)))

/-- Fill key material for the holder of a private key; the answer is what the holder needs. -/
def encryptKey (x : KeyExchange) (key : PublicKey) (e : Entropy) : Keying (Bytes × Entropy) :=
  match x with
  | x25519 => do
    let peer ← key.x25519 x.keyName
    let (k, e) := drawX25519 e
    deriveX25519 k peer
    return (X25519.publicKey k, e)
  | ecdh c name => do
    let peer ← key.point c name
    let (k, e) := drawScalar c e
    deriveEcdh c k.1 peer
    return (c.encode (c.publicPoint k.1), e)

/-- Fill key material from what the other side sent. -/
def decryptKey (x : KeyExchange) (exchange : Bytes) (key : PrivateKey) : Keying Unit :=
  match x with
  | x25519 => do
    let k ← key.x25519 x.keyName
    if exchange.length ≠ X25519.keyLen then
      throw (.malformedEncryptedKey
        (wrongLength "curve25519 ephemeral key" X25519.keyLen exchange.length))
    deriveX25519 k exchange
  | ecdh c name => do
    let k ← key.scalar c name
    match c.decode? exchange with
    | none => throw (.malformedEncryptedKey ("invalid " ++ name ++ " ephemeral point"))
    | some q => deriveEcdh c k q

end KeyExchange

def standardKeyExchanges : List (String × KeyExchange) := [
  ("curve25519", .x25519), ("fips_p256", .ecdh .p256 "fips_p256"),
  ("fips_p384", .ecdh .p384 "fips_p384"), ("fips_p521", .ecdh .p521 "fips_p521")]

end SealedStream
