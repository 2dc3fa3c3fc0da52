import SealedStream.Failure.Cipher
import SealedStream.Failure.Suite
import SealedStream.KeyMaterial
/-!
# Keyed ciphers

A cipher that has its key belongs to one of three families, each a class of states: a
`BlockMode` transforms whole blocks, a `StreamMode` octets in any number, and an `AeadMode` seals
messages under a nonce. Every call gives the next state, also one that fails.

* `Outcome` is what a call comes to that transforms the data in a buffer in place; `BlockMode.crypt`
  and `StreamMode.crypt` give the data that it makes.
* `Modes` is a choice of a type for each family; everything about containers is said for all
  choices.
* `KeyedCipher` is a cipher of one of the families, and `CipherDriver` what makes one of key
  material.
-/
namespace SealedStream

/-- What a keyed cipher is to do. -/
inductive Direction where
  | encrypt
  | decrypt
  deriving DecidableEq, Repr

/-! ## Buffers -/

/-- What a call for the data in a buffer comes to: why it is refused, if it is, and what is in the
buffer then. -/
structure Outcome where
  refusal : Option CipherError
  buffer : Bytes

/-- The data that a call makes, or the reason for refusing it. -/
def Outcome.answer (o : Outcome) : Except CipherError Bytes :=
  match o.refusal with
  | none => .ok o.buffer
  | some e => .error e

theorem Outcome.buffer_of_answer {o : Outcome} {out : Bytes} (h : o.answer = .ok out) :
    o.buffer = out := by
  rw [answer] at h
  split at h <;> cases h
  rfl

/-! ## Families -/

/-- Ciphers that transform whole blocks, chained from call to call. -/
class BlockMode (β : Type) where
  blockSize : β → Nat
  /-- Transform the data in a buffer. -/
  transform : (buffer : Bytes) → β → Outcome × β

def BlockMode.crypt {β : Type} [BlockMode β] (data : Bytes) (c : β) :
    Except CipherError Bytes × β :=
  match transform data c with
  | (o, c) => (o.answer, c)

/-- Ciphers that transform octets in any number, going on from call to call. -/
class StreamMode (σ : Type) where
  /-- Transform the data in a buffer. -/
  transform : (buffer : Bytes) → σ → Outcome × σ

def StreamMode.crypt {σ : Type} [StreamMode σ] (data : Bytes) (c : σ) :
    Except CipherError Bytes × σ :=
  match transform data c with
  | (o, c) => (o.answer, c)

/-- Ciphers that seal each message under a nonce, together with associated data. -/
class AeadMode (α : Type) where
  nonceSize : α → Nat
  /-- What sealing adds to the length of a message. -/
  overhead : α → Nat
  encrypt : (nonce plaintext aad : Bytes) → α → Except CipherError Bytes × α
  decrypt : (nonce ciphertext aad : Bytes) → α → Except CipherError Bytes × α

/-- A type of ciphers for each family. -/
structure Modes where
  Block : Type
  Stream : Type
  Aead : Type
  [block : BlockMode Block]
  [stream : StreamMode Stream]
  [aead : AeadMode Aead]

attribute [instance] Modes.block Modes.stream Modes.aead

/-! ## Keyed ciphers -/

/-- A cipher with its key, of one of the families. -/
inductive KeyedCipher (M : Modes) where
  | block (c : M.Block)
  | stream (c : M.Stream)
  | aead (c : M.Aead)

namespace KeyedCipher
variable {M : Modes}

def family : KeyedCipher M → String
  | block _ => "block"
  | stream _ => "stream"
  | aead _ => "aead"

/-- What is shown of a keyed cipher: its family and its sizes. -/
def describe : KeyedCipher M → String
  | block c => "Block \x7b block_size: " ++ toString (BlockMode.blockSize c) ++ ", .. \x7d"
  | stream _ => "Stream \x7b .. \x7d"
  | aead c => "Aead \x7b nonce_size: " ++ toString (AeadMode.nonceSize c) ++ ", overhead: " ++
      toString (AeadMode.overhead c) ++ ", .. \x7d"

end KeyedCipher

/-! ## Drivers -/

/-- A cipher without a key. -/
structure CipherDriver (M : Modes) where
  keyLen : Nat
  ivLen : Nat
  /-- The cipher with the given key, or the reason for refusing it. -/
  instantiate : KeyMaterial → Direction → Except SuiteError (KeyedCipher M)

/-- Material of the lengths that a cipher wants, all zero. -/
def CipherDriver.material {M : Modes} (d : CipherDriver M) : KeyMaterial :=
  .zeroed d.keyLen d.ivLen

/-- Key material of other lengths than a cipher wants. -/
def SuiteError.invalidLength : SuiteError := .cipherInit "Invalid Length"

end SealedStream
