import SealedStream.Cipher.Block
import SealedStream.Cipher.Mode
/-!
# Modes of block ciphers

The confidentiality modes of NIST SP 800-38A over any block cipher.

* `Cbc` chains whole blocks.
* `Ctr`, `Ofb` and `Cfb` go octet by octet: each has a step that transforms one octet, and a call
  is the run of that step (`Bytes.transduce`).
-/
namespace SealedStream

/-! ## CBC -/

/-- Cipher block chaining. -/
structure Cbc where
  cipher : BlockCipher
  direction : Direction
  /-- The last block of ciphertext, or the initialization vector. -/
  chain : Block

namespace Cbc

def step (c : Cbc) (b : Block) : Block × Cbc :=
  match c.direction with
  | .encrypt => let e := c.cipher.encrypt (b.xor c.chain); (e, { c with chain := e })
  | .decrypt => ((c.cipher.decrypt b).xor c.chain, { c with chain := b })

/-- Transform blocks, after the octets in `done`. -/
def blocksInto (done : Array UInt8) (c : Cbc) : List Bytes → Array UInt8 × Cbc
  | [] => (done, c)
  | b :: bs => let r := c.step (.ofBytes b); blocksInto (done ++ r.1.toArray) r.2 bs

/-- Transform whole blocks. Data of any other length is refused before anything is done to it, and
the chain stays. -/
def transform (data : Bytes) (c : Cbc) : Outcome × Cbc :=
  if data.length % 16 ≠ 0 then (⟨some (.blockAlignment data.length 16), data⟩, c)
  else
    let r := blocksInto #[] c (data.pieces 16)
    (⟨none, r.1.toList⟩, r.2)

instance : BlockMode Cbc where
  blockSize _ := 16
  transform := transform

end Cbc

/-! ## Keystreams -/

/-- A keystream that comes in blocks: what is left of the current block, and the state that gives
the next one. -/
structure Keystream (γ : Type) where
  state : γ
  left : Bytes := []

namespace Keystream

/-- The next octet of a keystream, the blocks coming from `next`. -/
def octet {γ : Type} (next : γ → Block × γ) (k : Keystream γ) : UInt8 × Keystream γ :=
  match k.left with
  | b :: left => (b, { k with left })
  | [] => let r := next k.state; (r.1[0], { state := r.2, left := r.1.bytes.tail })

end Keystream

/-- Counter mode. The low 128 bits of the counter are used, most significant octet first. -/
structure Ctr where
  cipher : BlockCipher
  keystream : Keystream Nat

namespace Ctr

/-- The block for a counter, and the next counter. -/
def next (cipher : BlockCipher) (counter : Nat) : Block × Nat :=
  (cipher.encrypt (.ofBytes (Bytes.ofNatBE 16 counter)), counter + 1)

def step (c : Ctr) (b : UInt8) : UInt8 × Ctr :=
  let r := c.keystream.octet (next c.cipher)
  (b ^^^ r.1, { c with keystream := r.2 })

def start (cipher : BlockCipher) (iv : Bytes) : Ctr := ⟨cipher, { state := iv.toNatBE }⟩

end Ctr

/-- Output feedback mode. The state is the last block of the keystream. -/
structure Ofb where
  cipher : BlockCipher
  keystream : Keystream Block

namespace Ofb

def next (cipher : BlockCipher) (b : Block) : Block × Block :=
  let e := cipher.encrypt b
  (e, e)

def step (c : Ofb) (b : UInt8) : UInt8 × Ofb :=
  let r := c.keystream.octet (next c.cipher)
  (b ^^^ r.1, { c with keystream := r.2 })

/-- Output feedback mode from an initialization vector. -/
def start (cipher : BlockCipher) (iv : Bytes) : Ofb := ⟨cipher, { state := .ofBytes iv }⟩

end Ofb

/-- Cipher feedback mode with whole blocks. -/
structure Cfb where
  cipher : BlockCipher
  direction : Direction
  /-- The ciphertext from which the next block of the keystream is made, last octet first. -/
  register : Bytes
  /-- What is left of the current block of the keystream. -/
  left : Bytes

namespace Cfb

def step (c : Cfb) (b : UInt8) : UInt8 × Cfb :=
  let put (k : UInt8) (left register : Bytes) : UInt8 × Cfb :=
    let a := b ^^^ k
    let sent := match c.direction with
      | .encrypt => a
      | .decrypt => b
    (a, { c with register := sent :: register, left })
  match c.left with
  | k :: left => put k left c.register
  | [] =>
    let e := c.cipher.encrypt (.ofBytes c.register.reverse)
    put e[0] e.bytes.tail []

/-- Cipher feedback mode from an initialization vector. -/
def start (cipher : BlockCipher) (direction : Direction) (iv : Bytes) : Cfb :=
  ⟨cipher, direction, iv.reverse, []⟩

end Cfb

instance : StreamMode Ctr where
  transform data c := let r := Bytes.transduce Ctr.step c data; (⟨none, r.1⟩, r.2)

instance : StreamMode Ofb where
  transform data c := let r := Bytes.transduce Ofb.step c data; (⟨none, r.1⟩, r.2)

instance : StreamMode Cfb where
  transform data c := let r := Bytes.transduce Cfb.step c data; (⟨none, r.1⟩, r.2)

end SealedStream
