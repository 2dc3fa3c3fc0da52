import SealedStream.Cipher.Aes
import SealedStream.Cipher.Chaining
import SealedStream.Cipher.Scripted
import SealedStream.Cipher.Sealing
/-!
# The standard ciphers

The ciphers that containers name, and what makes each of them of key material. `Modes.standard`
holds them and the scripted ciphers.

* `CipherDriver.cbc`, `CipherDriver.cfb`, `CipherDriver.ctr`, `CipherDriver.ofb` and
  `CipherDriver.gcm` are the AES ciphers with a key of a given length.
* `CipherDriver.sealing` are the authenticated ciphers.
* `standardCiphers` names all of them.
-/
namespace SealedStream

/-! ## Families -/

/-- The block ciphers. -/
inductive StandardBlock where
  | cbc (c : Cbc)
  | scripted (c : ScriptedBlock)

/-- The stream ciphers. -/
inductive StandardStream where
  | ctr (c : Ctr)
  | ofb (c : Ofb)
  | cfb (c : Cfb)
  | scripted (c : ScriptedStream)

/-- The authenticated ciphers. -/
inductive StandardAead where
  | scheme (s : SealScheme)
  | scripted (c : ScriptedAead)

instance : BlockMode StandardBlock where
  blockSize
    | .cbc c => BlockMode.blockSize c
    | .scripted c => BlockMode.blockSize c
  transform data
    | .cbc c => (BlockMode.transform data c).map id .cbc
    | .scripted c => (BlockMode.transform data c).map id .scripted

instance : StreamMode StandardStream where
  transform data
    | .ctr c => (StreamMode.transform data c).map id .ctr
    | .ofb c => (StreamMode.transform data c).map id .ofb
    | .cfb c => (StreamMode.transform data c).map id .cfb
    | .scripted c => (StreamMode.transform data c).map id .scripted

instance : AeadMode StandardAead where
  nonceSize
    | .scheme s => AeadMode.nonceSize s
    | .scripted c => AeadMode.nonceSize c
  overhead
    | .scheme s => AeadMode.overhead s
    | .scripted c => AeadMode.overhead c
  encrypt nonce plaintext aad
    | .scheme s => (AeadMode.encrypt nonce plaintext aad s).map id .scheme
    | .scripted c => (AeadMode.encrypt nonce plaintext aad c).map id .scripted
  decrypt nonce ciphertext aad
    | .scheme s => (AeadMode.decrypt nonce ciphertext aad s).map id .scheme
    | .scripted c => (AeadMode.decrypt nonce ciphertext aad c).map id .scripted

def Modes.standard : Modes := ⟨StandardBlock, StandardStream, StandardAead⟩

/-! ## Drivers -/

namespace CipherDriver

/-- A driver that refuses key material of other lengths than its own. -/
def ofLengths {M : Modes} (keyLen ivLen : Nat)
    (build : KeyMaterial → Direction → KeyedCipher M) : CipherDriver M where
  keyLen := keyLen
  ivLen := ivLen
  instantiate m d :=
    if m.key.length = keyLen ∧ m.iv.length = ivLen then .ok (build m d)
    else .error .invalidLength

def cbc (keyLen : Nat) : CipherDriver .standard :=
  ofLengths keyLen 16 fun m d => .block (.cbc ⟨Aes.cipher m.key, d, .ofBytes m.iv⟩)

def cfb (keyLen : Nat) : CipherDriver .standard :=
  ofLengths keyLen 16 fun m d => .stream (.cfb (.start (Aes.cipher m.key) d m.iv))

def ctr (keyLen : Nat) : CipherDriver .standard :=
  ofLengths keyLen 16 fun m _ => .stream (.ctr (.start (Aes.cipher m.key) m.iv))

def ofb (keyLen : Nat) : CipherDriver .standard :=
  ofLengths keyLen 16 fun m _ => .stream (.ofb (.start (Aes.cipher m.key) m.iv))

/-- An authenticated cipher, which takes no initialization vector from its key material. -/
def sealing (keyLen : Nat) (scheme : (key : Bytes) → SealScheme) : CipherDriver .standard where
  keyLen := keyLen
  ivLen := 0
  instantiate m _ :=
    if m.key.length = keyLen then .ok (.aead (.scheme (scheme m.key))) else .error .invalidLength

def gcm (keyLen : Nat) : CipherDriver .standard := sealing keyLen fun k => Gcm.scheme (Aes.cipher k)

end CipherDriver

def standardCiphers : List (String × CipherDriver .standard) := [
  ("aes-128/cbc", .cbc 16), ("aes-192/cbc", .cbc 24), ("aes-256/cbc", .cbc 32),
  ("aes-128/cfb", .cfb 16), ("aes-192/cfb", .cfb 24), ("aes-256/cfb", .cfb 32),
  ("aes-128/ctr", .ctr 16), ("aes-192/ctr", .ctr 24), ("aes-256/ctr", .ctr 32),
  ("aes-128/ofb", .ofb 16), ("aes-192/ofb", .ofb 24), ("aes-256/ofb", .ofb 32),
  ("aes-128/gcm", .gcm 16), ("aes-192/gcm", .gcm 24), ("aes-256/gcm", .gcm 32),
  ("chacha20-poly1305", .sealing 32 chaChaPoly), ("xchacha20-poly1305", .sealing 32 xChaChaPoly)]

/-! ## Scripted drivers -/

/-- A scripted cipher without its key. -/
inductive Script where
  | block (size : Nat)
  | stream
  | aead (nonceSize tagSize : Nat)
  deriving DecidableEq, Repr

/-- The scripted cipher with a key, failing at the given call. -/
def Script.start (s : Script) (key : UInt8) (failOn : Nat) (d : Direction) :
    KeyedCipher .standard :=
  match s with
  | .block size => .block (.scripted { size, key, failOn, direction := d })
  | .stream => .stream (.scripted { key, failOn })
  | .aead nonceSize tagSize => .aead (.scripted { nonceSize, tagSize, key, failOn })

/-- The driver of a scripted cipher. Its key is folded from the octets of the key material,
beginning with `key`; if there is a `refusal`, the driver refuses every key with it. -/
def CipherDriver.scripted (s : Script) (key : UInt8) (failOn keyLen ivLen : Nat)
    (refusal : Option String) : CipherDriver .standard where
  keyLen := keyLen
  ivLen := ivLen
  instantiate m d :=
    match refusal with
    | some text => .error (.cipherInit text)
    | none => .ok (s.start ((m.key ++ m.iv).foldl (fun k b => k * 31 + b) key) failOn d)

end SealedStream
