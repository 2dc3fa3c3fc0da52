import SealedStream.Transport.Input
/-!
# Reading items

A `Decoder` reads from an input and may fail; the input keeps what was consumed. Every marker by
which MessagePack expresses a length is accepted, short or not; `bytesForm?` and `arrayForm?` list
them.

* `readBytes limit` refuses a field that is announced to be longer than `limit` before it reads
  the field.
* `Decoder.Bounded d` says that `d` gives nothing back to its input; every decoder here is bounded.
-/
namespace SealedStream

/-- A reader of items. -/
abbrev Decoder (ι : Type) := ExceptT WireError (StateM ι)

/-! ## Markers -/

/-- How a marker tells a length: by itself, or in so many octets that follow it. -/
inductive LengthForm where
  | known (len : Nat)
  | follows (width : Nat)
  deriving DecidableEq, Repr

/-- The markers of octet strings: nil, and texts and octet strings of every width. -/
def bytesForm? (marker : UInt8) : Option LengthForm :=
  if 0xA0 ≤ marker ∧ marker ≤ 0xBF then some (.known (marker - 0xA0).toNat)
  else if marker = 0xC0 then some (.known 0)
  else if marker = 0xC4 ∨ marker = 0xD9 then some (.follows 1)
  else if marker = 0xC5 ∨ marker = 0xDA then some (.follows 2)
  else if marker = 0xC6 ∨ marker = 0xDB then some (.follows 4)
  else none

def arrayForm? (marker : UInt8) : Option LengthForm :=
  if 0x90 ≤ marker ∧ marker ≤ 0x9F then some (.known (marker - 0x90).toNat)
  else if marker = 0xDC then some (.follows 2)
  else if marker = 0xDD then some (.follows 4)
  else none

/-! ## Decoders -/

namespace Decoder
variable {ι : Type} [Input ι]

def take (n : Nat) : Decoder ι Bytes := ExceptT.mk fun i =>
  match Input.readExact n i with
  | (.ok bs, i) => (.ok bs, i)
  | (.error e, i) => (.error (.io e), i)

def next? : Decoder ι (Option UInt8) := ExceptT.mk fun i =>
  match Input.readByte? i with
  | (.ok b, i) => (.ok b, i)
  | (.error e, i) => (.error (.io e), i)

def marker : Decoder ι UInt8 := do
  let bs ← take 1
  return bs.headD 0

def length : LengthForm → Decoder ι Nat
  | .known len => pure len
  | .follows width => do
    let bs ← take width
    return bs.toNatBE

/-- The length of the array that a marker begins. -/
def arrayLength (m : UInt8) : Decoder ι Nat :=
  match arrayForm? m with
  | some form => length form
  | none => throw (.unexpectedMarker "array" m)

/-- The rest of an array header with `expected` items, after its marker. -/
def arrayAfter (m : UInt8) (expected : Nat) : Decoder ι Unit := do
  let got ← arrayLength m
  if got ≠ expected then throw (.arrayLength expected got)

def array (expected : Nat) : Decoder ι Unit := do
  let m ← marker
  arrayAfter m expected

def bool : Decoder ι Bool := do
  let m ← marker
  if m = 0xC3 then return true
  else if m = 0xC2 then return false
  else throw (.unexpectedMarker "bool" m)

/-- The contents of an octet string or text, of at most `limit` octets. -/
def bytes (limit : Nat) : Decoder ι Bytes := do
  let m ← marker
  match bytesForm? m with
  | none => throw (.unexpectedMarker "bytes" m)
  | some form =>
    let len ← length form
    if limit < len then throw (.fieldTooLarge len limit)
    take len

def text (limit : Nat) : Decoder ι String := do
  let bs ← bytes limit
  match Utf8.decode bs with
  | .ok s => return s
  | .error defect => throw (.invalidUtf8 defect)

/-! ## Bounds -/

/-- A decoder that gives nothing back to its input. -/
def Bounded {α : Type} (d : Decoder ι α) : Prop :=
  ∀ i, Input.remaining (d.run i).2 ≤ Input.remaining i

theorem bounded_pure {α : Type} (a : α) : Bounded (pure a : Decoder ι α) :=
  fun _ => Nat.le_refl _

theorem bounded_throw {α : Type} (e : WireError) : Bounded (throw e : Decoder ι α) :=
  fun _ => Nat.le_refl _

theorem bounded_bind {α β : Type} {d : Decoder ι α} {f : α → Decoder ι β} (hd : Bounded d)
    (hf : ∀ a, Bounded (f a)) : Bounded (d >>= f) := by
  intro i
  have hi := hd i
  show Input.remaining ((ExceptT.bindCont f (d.run i).1).run (d.run i).2).2 ≤ _
  cases h : (d.run i).1 with
  | error e => exact hi
  | ok a => exact Nat.le_trans (hf a _) hi

theorem bounded_take (n : Nat) : Bounded (take n : Decoder ι Bytes) := by
  intro i
  have h := Input.remaining_readExact_le n i
  show Input.remaining (take n i).2 ≤ _
  simp only [take, ExceptT.mk]
  split <;> simp_all

theorem bounded_length (form : LengthForm) : Bounded (length form : Decoder ι Nat) := by
  cases form with
  | known len => exact bounded_pure len
  | follows width => exact bounded_bind (bounded_take width) fun _ => bounded_pure _

theorem bounded_marker : Bounded (marker : Decoder ι UInt8) :=
  bounded_bind (bounded_take 1) fun _ => bounded_pure _

theorem bounded_arrayAfter (m : UInt8) (n : Nat) : Bounded (arrayAfter m n : Decoder ι Unit) := by
  refine bounded_bind ?_ fun _ => ?_
  · unfold arrayLength; split
    · exact bounded_length _
    · exact bounded_throw _
  · split
    · exact bounded_throw _
    · exact bounded_pure _

theorem bounded_bool : Bounded (bool : Decoder ι Bool) := by
  refine bounded_bind bounded_marker fun _ => ?_
  split
  · exact bounded_pure _
  · split
    · exact bounded_pure _
    · exact bounded_throw _

theorem bounded_bytes (limit : Nat) : Bounded (bytes limit : Decoder ι Bytes) := by
  refine bounded_bind bounded_marker fun _ => ?_
  split
  · exact bounded_throw _
  · refine bounded_bind (bounded_length _) fun _ => ?_
    split
    · exact bounded_bind (bounded_throw _) fun _ => bounded_take _
    · exact bounded_take _

end Decoder

end SealedStream
