import SealedStream.Wire.Decoder
import SealedStream.Wire.Item
/-!
# Records

A container is a `Preamble` and then a row of `Chunk`s, the last of which says so. Both are arrays
of three fields.

* `Preamble.items` and `Chunk.items` are the fields as they are written, `Preamble.size` and
  `Chunk.size` their number of octets.
* `Preamble.decoder`, `Chunk.decoder` read a record, `Chunk.nextDecoder` the next one if there is
  any; `remaining_nextDecoder_lt` says that a chunk takes at least one octet.
-/
namespace SealedStream

/-! ## Preambles -/

/-- The first record of a container: how its cipher and its key were agreed on. -/
structure Preamble where
  /-- The value from which the holder of the private key recovers the key. -/
  exchange : Bytes
  pkAlgo : String
  encoding : String

/-! ## Chunks -/

/-- A piece of the encrypted contents. -/
structure Chunk where
  /-- Is this the final chunk? -/
  last : Bool := false
  /-- The nonce and the associated data, if the cipher takes them. -/
  nonce : Bytes := []
  data : Bytes := []
  deriving DecidableEq

def Preamble.fieldCount : Nat := 3

def Chunk.fieldCount : Nat := 3

/-- The number of octets of a chunk with a nonce and data of the given lengths. -/
def chunkSize (nonceLen dataLen : Nat) : Nat :=
  2 + binHeaderSize nonceLen + nonceLen + binHeaderSize dataLen + dataLen

namespace Preamble

def items (p : Preamble) : List Item :=
  [.array fieldCount, .bin p.exchange, .str p.pkAlgo, .str p.encoding]

def size (p : Preamble) : Nat := Item.totalSize p.items

section
variable {ι : Type} [Input ι]

/-- Read a preamble with fields of at most `limit` octets. -/
def decoder (limit : Nat) : Decoder ι Preamble := do
  Decoder.array fieldCount
  let exchange ← Decoder.bytes limit
  let pkAlgo ← Decoder.text limit
  let encoding ← Decoder.text limit
  return { exchange, pkAlgo, encoding }

end

end Preamble

namespace Chunk

def items (c : Chunk) : List Item := [.array fieldCount, .bool c.last, .bin c.nonce, .bin c.data]

def size (c : Chunk) : Nat := chunkSize c.nonce.length c.data.length

theorem size_eq_totalSize (c : Chunk) : c.size = Item.totalSize c.items := by
  simp [size, chunkSize, items, fieldCount, Item.totalSize, Item.size, arrayHeaderSize]
  omega

section
variable {ι : Type} [Input ι]

/-- Read the fields of a chunk, of at most `limit` octets each, after its header. -/
def fieldsDecoder (limit : Nat) : Decoder ι Chunk := do
  let last ← Decoder.bool
  let nonce ← Decoder.bytes limit
  let data ← Decoder.bytes limit
  return { last, nonce, data }

def decoder (limit : Nat) : Decoder ι Chunk := do
  Decoder.array fieldCount
  fieldsDecoder limit

/-- Read the next chunk, or `none` where the input ends before one. -/
def nextDecoder (limit : Nat) : Decoder ι (Option Chunk) := do
  match ← Decoder.next? with
  | none => return none
  | some m =>
    Decoder.arrayAfter m fieldCount
    let c ← fieldsDecoder limit
    return some c

theorem bounded_fieldsDecoder (limit : Nat) :
    Decoder.Bounded (fieldsDecoder limit : Decoder ι Chunk) :=
  Decoder.bounded_bind Decoder.bounded_bool fun _ =>
    Decoder.bounded_bind (Decoder.bounded_bytes limit) fun _ =>
      Decoder.bounded_bind (Decoder.bounded_bytes limit) fun _ => Decoder.bounded_pure _

/-- A chunk takes at least one octet of its input. -/
theorem remaining_nextDecoder_lt {limit : Nat} {i : ι} {c : Chunk}
    (h : ((nextDecoder limit).run i).1 = .ok (some c)) :
    Input.remaining ((nextDecoder limit).run i).2 < Input.remaining i := by
  have hrest (m : UInt8) : Decoder.Bounded (do
      Decoder.arrayAfter m fieldCount
      let c ← fieldsDecoder limit
      return some c : Decoder ι (Option Chunk)) :=
    Decoder.bounded_bind (Decoder.bounded_arrayAfter m _) fun _ =>
      Decoder.bounded_bind (bounded_fieldsDecoder limit) fun _ => Decoder.bounded_pure _
  rcases hb : Input.readByte? i with ⟨r, i'⟩
  have hrun : (Decoder.next? : Decoder ι (Option UInt8)).run i =
      ((match r with | .ok b => .ok b | .error e => .error (.io e)), i') := by
    show Decoder.next? i = _
    simp only [Decoder.next?, ExceptT.mk, hb]
    cases r <;> rfl
  have hnext : (nextDecoder limit : Decoder ι (Option Chunk)).run i =
      (ExceptT.bindCont (fun a => match a with
        | none => (return none : Decoder ι (Option Chunk))
        | some m => do
          Decoder.arrayAfter m fieldCount
          let c ← fieldsDecoder limit
          return some c) ((Decoder.next? : Decoder ι (Option UInt8)).run i).1).run
        ((Decoder.next? : Decoder ι (Option UInt8)).run i).2 := rfl
  rw [hnext, hrun] at h ⊢
  match r, hb with
  | .error e, _ => cases h
  | .ok none, _ => cases h
  | .ok (some b), hb =>
    have h₁ := hrest b i'
    have h₂ := Input.remaining_readByte?_lt (i := i) (b := b) (by rw [hb])
    rw [hb] at h₂
    exact Nat.lt_of_le_of_lt h₁ h₂

end

end Chunk

end SealedStream
