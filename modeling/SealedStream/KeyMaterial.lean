import SealedStream.Bytes
/-!
# Key material

The key and the initialization vector of a cipher, as they are handed from a key exchange to the
cipher: of fixed lengths, and zero until they are filled.
-/
namespace SealedStream

/-- A key and an initialization vector. -/
structure KeyMaterial where
  key : Bytes
  iv : Bytes
  deriving DecidableEq, Repr

namespace KeyMaterial

def zeroed (keyLen ivLen : Nat) : KeyMaterial := ⟨Bytes.zeros keyLen, Bytes.zeros ivLen⟩

/-- The length of key and initialization vector together. -/
def size (m : KeyMaterial) : Nat := m.key.length + m.iv.length

def wipe (m : KeyMaterial) : KeyMaterial := zeroed m.key.length m.iv.length

def describe (m : KeyMaterial) : String :=
  "CipherBuffer \x7b key_len: " ++ toString m.key.length ++ ", iv_len: " ++
    toString m.iv.length ++ " \x7d"

end KeyMaterial

end SealedStream
