import SealedStream.Wire.Record
/-!
# Containers

A `Container` is a preamble and the chunks behind it. `Container.items` is how it is written;
`Container.read` reads one up to the end of its input, whether its last chunk is a final one or
not.
-/
namespace SealedStream

/-- A preamble and chunks. -/
structure Container where
  preamble : Preamble
  chunks : List Chunk

section
variable {ι : Type} [Input ι]

/-- `Chunk.readAll` with the chunks that were read already, the last one first. -/
def Chunk.readAllInto (limit : Nat) (done : List Chunk) (i : ι) :
    Except WireError (List Chunk) × ι :=
  match _h : (Chunk.nextDecoder limit).run i with
  | (.ok (some c), rest) => readAllInto limit (c :: done) rest
  | (.ok none, rest) => (.ok done.reverse, rest)
  | (.error e, rest) => (.error e, rest)
termination_by Input.remaining i
decreasing_by
  have h : Input.remaining ((Chunk.nextDecoder limit).run i).2 < Input.remaining i :=
    Chunk.remaining_nextDecoder_lt (c := c) (by rw [_h])
  rwa [_h] at h

def Chunk.readAll (limit : Nat) (i : ι) : Except WireError (List Chunk) × ι :=
  readAllInto limit [] i

end

namespace Container

def items (c : Container) : List Item := c.preamble.items ++ c.chunks.flatMap Chunk.items

def size (c : Container) : Nat := Item.totalSize c.items

/-- Read a container up to the end of the input, with fields of at most `limit` octets. -/
def read {ι : Type} [Input ι] (limit : Nat) (i : ι) : Except WireError Container × ι :=
  match (Preamble.decoder limit).run i with
  | (.error e, i) => (.error e, i)
  | (.ok preamble, i) =>
    match Chunk.readAll limit i with
    | (.error e, i) => (.error e, i)
    | (.ok chunks, i) => (.ok { preamble, chunks }, i)

end Container

end SealedStream
