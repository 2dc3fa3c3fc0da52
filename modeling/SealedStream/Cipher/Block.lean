import SealedStream.Bytes
/-!
# Blocks

Blocks of sixteen octets, and the permutations of them that block ciphers are built of.
-/
namespace SealedStream

/-- Sixteen octets. -/
abbrev Block := Vector UInt8 16

namespace Block

/-- The first sixteen octets of a string; zeros where it has none. -/
def ofBytes (bs : Bytes) : Block :=
  let a := bs.toArray
  Vector.ofFn fun i => a.getD i 0

def bytes (b : Block) : Bytes := b.toList

def xor (a b : Block) : Block := a.zipWith (· ^^^ ·) b

def zero : Block := Vector.replicate 16 0

@[simp] theorem length_bytes (b : Block) : b.bytes.length = 16 := by simp [bytes]

@[simp] theorem ofBytes_bytes (b : Block) : ofBytes b.bytes = b := by
  ext i hi
  simp [ofBytes, bytes, Array.getD]

theorem bytes_ofBytes {bs : Bytes} (h : bs.length = 16) : (ofBytes bs).bytes = bs := by
  apply List.ext_getElem
  · simp [h]
  · intro i h₁ h₂
    simp [ofBytes, bytes, Array.getD, h₂]

@[simp] theorem xor_xor_cancel (a b : Block) : (a.xor b).xor b = a := by
  ext i hi
  rw [xor, xor, Vector.getElem_zipWith, Vector.getElem_zipWith, UInt8.xor_assoc, UInt8.xor_self,
    UInt8.xor_zero]

end Block

/-- A permutation of blocks and the way back. -/
structure BlockCipher where
  encrypt : Block → Block
  decrypt : Block → Block

end SealedStream
