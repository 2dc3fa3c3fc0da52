import SealedStream.KeyRing
import SealedStream.Registry
import SealedStream.Wire.Record
/-!
# Sessions

A session begins with the names of two algorithms and a key and ends as soon as there is a keyed
cipher.

* `Registry.startEncryption` also gives the preamble by which the other side finds the cipher.
* `Registry.startDecryption` finds it.
* A `Decrypter` is anything that gives a cipher for a preamble.
-/
namespace SealedStream

/-! ## Encryption -/

/-- What an encryption begins with. -/
structure EncryptionSession (M : Modes) where
  preamble : Preamble
  cipher : KeyedCipher M
  entropy : Entropy

def EncryptionSession.started {M : Modes} (s : EncryptionSession M) : Event :=
  .encryptionStarted s.preamble.pkAlgo s.preamble.encoding s.cipher.family
    s.preamble.exchange.length

/-- Begin an encryption with the named algorithms for the holder of a private key. -/
def Registry.startEncryption {M : Modes} (r : Registry M) (e : Entropy) (pkAlgo cipher : String)
    (key : PublicKey) : Except SuiteError (EncryptionSession M) := do
  let driver ← r.cipher cipher
  let x ← r.keyExchange pkAlgo
  match (x.encryptKey key e).run.run driver.material with
  | (.error err, _) => throw err
  | (.ok (exchange, entropy), material) =>
    let keyed ← driver.instantiate material .encrypt
    return { preamble := { exchange, pkAlgo, encoding := cipher }, cipher := keyed, entropy }

/-! ## Decryption -/

/-- What a decryption begins with. -/
structure DecryptionSession (M : Modes) where
  cipher : KeyedCipher M
  events : List Event := []

/-- A way to find the cipher for a preamble. -/
abbrev Decrypter (M : Modes) := Preamble → Except SuiteError (DecryptionSession M)

def Decrypter.direct {M : Modes} (cipher : KeyedCipher M) : Decrypter M := fun _ => .ok { cipher }

/-- Begin a decryption with the algorithms that a preamble names and a key from a ring. -/
def Registry.startDecryption {M : Modes} (r : Registry M) (ring : KeyRing) : Decrypter M :=
  fun p => do
    let driver ← r.cipher p.encoding
    let x ← r.keyExchange p.pkAlgo
    let (exchange, key) ← ring.find p.exchange p.pkAlgo
    match (x.decryptKey exchange key).run.run driver.material with
    | (.error err, _) => throw err
    | (.ok (), material) =>
      let cipher ← driver.instantiate material .decrypt
      return { cipher, events := [.decryptionStarted p.pkAlgo p.encoding cipher.family] }

end SealedStream
