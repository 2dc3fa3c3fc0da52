import SealedStream.Cipher.Mode
import SealedStream.NonceChain
import SealedStream.Padding
import SealedStream.Settings
import SealedStream.Wire.Record
/-!
# From plaintext to chunks

How plaintext is cut into pieces and how a piece becomes a chunk, for each family of ciphers.

* `Encoder` is the cipher of a container that is being written.
* `Encoder.plan` cuts what is pending: a block cipher takes whole blocks and leaves the rest
  pending up to the end, where it is filled up; the other ciphers take everything.
* `Encoder.encrypt` makes a chunk of a piece.
-/
namespace SealedStream

/-- The cipher of a container that is being written; an authenticated one goes with its nonces. -/
inductive Encoder (M : Modes) where
  | block (c : M.Block)
  | stream (c : M.Stream)
  | aead (c : M.Aead) (nonces : NonceChain)

/-- A piece of plaintext for one chunk. -/
structure Piece where
  data : Bytes
  /-- Does the piece go into the final chunk? -/
  last : Bool
  deriving DecidableEq, Repr

/-- What is to become of the pending plaintext. -/
structure Plan where
  pieces : List Piece
  rest : Bytes
  deriving DecidableEq, Repr

namespace Plan

/-- The plan for a block cipher: whole blocks, as many to a piece as `limit` allows but at least
one. At the end the rest is filled up to a block of its own. A block has an octet at least: there is
no plan with a block size of 0, by which nothing can be divided. -/
def blocks (size limit : Nat) (last : Bool) (pending : Bytes) : Plan :=
  let whole := pending.length - pending.length % size
  let width := max (limit - limit % size) size
  let pieces := (Bytes.pieces width (pending.take whole)).map fun data => { data, last := false }
  let rest := pending.drop whole
  if last then
    ⟨pieces ++ [{ data := rest ++ Padding.fill (size - rest.length), last := true }], []⟩
  else ⟨pieces, rest⟩

/-- The plan for other ciphers: everything, in pieces of `limit` octets. At the end there is a
piece even if nothing is pending. -/
def all (limit : Nat) (last : Bool) (pending : Bytes) : Plan :=
  let pieces := pending.pieces limit
  if last then
    ⟨(pieces.dropLast.map fun data => { data, last := false }) ++
      [{ data := pieces.getLast?.getD [], last := true }], []⟩
  else ⟨pieces.map fun data => { data, last := false }, []⟩

end Plan

namespace Encoder
variable {M : Modes}

/-- The encoder of a keyed cipher. The randomness is for the nonces. -/
def start (s : Settings) (e : Entropy) : KeyedCipher M → Encoder M
  | .block c => .block c
  | .stream c => .stream c
  | .aead c => .aead c (NonceChain.start (AeadMode.nonceSize c) s.associatedDataLen e).1

/-- `Encoder.start` with a checked sum. There is no encoder if a nonce and the associated data are
too long together. -/
def start? (s : Settings) (e : Entropy) : KeyedCipher M → Option (Encoder M)
  | .block c => some (.block c)
  | .stream c => some (.stream c)
  | .aead c => do
    let (nonces, _) ← NonceChain.start? (AeadMode.nonceSize c) s.associatedDataLen e
    return .aead c nonces

theorem eq_start_of_start? {s : Settings} {e : Entropy} {k : KeyedCipher M} {enc : Encoder M}
    (h : start? s e k = some enc) : enc = start s e k := by
  cases k with
  | block c => cases h; rfl
  | stream c => cases h; rfl
  | aead c =>
    obtain ⟨r, hr, h⟩ := Option.bind_eq_some_iff.1 h
    obtain ⟨-, rfl⟩ := NonceChain.start?_eq_some_iff.1 hr
    cases h
    rfl

/-- What is to become of the pending plaintext; `last` at the end of the plaintext. -/
def plan (limit : Nat) (last : Bool) (pending : Bytes) : Encoder M → Plan
  | .block c => .blocks (BlockMode.blockSize c) limit last pending
  | .stream _ | .aead .. => .all limit last pending

def encrypt (p : Piece) : Encoder M → Except CipherError Chunk × Encoder M
  | .block c =>
    match BlockMode.crypt p.data c with
    | (.ok data, c) => (.ok { last := p.last, data }, .block c)
    | (.error e, c) => (.error e, .block c)
  | .stream c =>
    match StreamMode.crypt p.data c with
    | (.ok data, c) => (.ok { last := p.last, data }, .stream c)
    | (.error e, c) => (.error e, .stream c)
  | .aead c nonces =>
    let nonces := nonces.advance
    match AeadMode.encrypt nonces.nonce p.data nonces.associatedData c with
    | (.ok data, c) => (.ok { last := p.last, nonce := nonces.octets, data }, .aead c nonces)
    | (.error e, c) => (.error e, .aead c nonces)

end Encoder

end SealedStream
