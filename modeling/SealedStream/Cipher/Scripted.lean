import SealedStream.Cipher.Mode
/-!
# Scripted ciphers

Ciphers that hide nothing and fail at a call laid down in advance, to see what a container makes
of any cipher. Their calls are counted from 1; a call number 0 never comes.

* `ScriptedBlock` adds its key to every octet, whatever the length.
* `ScriptedStream` adds its key and the position.
* `ScriptedAead` adds its key, and appends a checksum over nonce, message and associated data.
-/
namespace SealedStream

/-! ## Blocks -/

/-- Addition of a key to every octet. -/
structure ScriptedBlock where
  size : Nat
  key : UInt8
  failOn : Nat
  calls : Nat := 0
  direction : Direction

namespace ScriptedBlock

def shift (c : ScriptedBlock) (b : UInt8) : UInt8 :=
  match c.direction with
  | .encrypt => b + c.key
  | .decrypt => b - c.key

instance : BlockMode ScriptedBlock where
  blockSize := size
  transform data c :=
    let c' := { c with calls := c.calls + 1 }
    if c'.calls = c.failOn then (⟨some .encryption, data⟩, c')
    else (⟨none, data.map c.shift⟩, c')

end ScriptedBlock

/-! ## Streams -/

/-- Addition of a key and the position to every octet. -/
structure ScriptedStream where
  key : UInt8
  failOn : Nat
  calls : Nat := 0
  position : UInt8 := 0

namespace ScriptedStream

def step (key position b : UInt8) : UInt8 × UInt8 := (b ^^^ (key + position), position + 1)

instance : StreamMode ScriptedStream where
  transform data c :=
    let c' := { c with calls := c.calls + 1 }
    if c'.calls = c.failOn then (⟨some .encryption, data⟩, c')
    else
      let r := Bytes.transduce (step c.key) c.position data
      (⟨none, r.1⟩, { c' with position := r.2 })

end ScriptedStream

/-! ## Sealed messages -/

/-- Addition of a key to every octet, with a checksum. -/
structure ScriptedAead where
  nonceSize : Nat
  tagSize : Nat
  key : UInt8
  failOn : Nat
  calls : Nat := 0

namespace ScriptedAead

/-- The checksum of nonce, message and associated data. -/
def checksum (key : UInt8) (nonce message aad : Bytes) : UInt8 :=
  (nonce ++ message ++ aad).foldl (fun s b => s * 31 + b) key

def tag (c : ScriptedAead) (nonce message aad : Bytes) : Bytes :=
  List.replicate c.tagSize (checksum c.key nonce message aad)

instance : AeadMode ScriptedAead where
  nonceSize := nonceSize
  overhead := tagSize
  encrypt nonce plaintext aad c :=
    let c' := { c with calls := c.calls + 1 }
    if c'.calls = c.failOn then (.error .encryption, c')
    else (.ok (plaintext.map (· ^^^ c.key) ++ c.tag nonce plaintext aad), c')
  decrypt nonce ciphertext aad c :=
    let c' := { c with calls := c.calls + 1 }
    let n := ciphertext.length - c.tagSize
    let plaintext := (ciphertext.take n).map (· ^^^ c.key)
    if c'.calls = c.failOn ∨ ciphertext.length < c.tagSize ∨
        ciphertext.drop n ≠ c.tag nonce plaintext aad then (.error .authentication, c')
    else (.ok plaintext, c')

end ScriptedAead

end SealedStream
