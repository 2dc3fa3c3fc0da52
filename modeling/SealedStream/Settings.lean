import SealedStream.Failure.Stream
import SealedStream.Text.Json
import SealedStream.Words
/-!
# Settings

The `Settings` of a container bound what is written into one chunk and what is accepted in one
field. `Settings.validate` refuses settings under which a reader would refuse what a writer with
the same settings writes. Settings are kept as JSON texts: `Settings.toJson` and
`Settings.ofJson?`.
-/
namespace SealedStream

/-- The settings under which a container is written and read. All are numbers of 64 bits. -/
structure Settings where
  maxFieldLen : Nat := 16777216
  maxChunkLen : Nat := 1048576
  /-- The length of what is authenticated beside each chunk. -/
  associatedDataLen : Nat := 0
  writeBufferCapacity : Nat := 8192
  maxFieldLen_le : maxFieldLen ≤ wordMax := by decide
  maxChunkLen_le : maxChunkLen ≤ wordMax := by decide
  associatedDataLen_le : associatedDataLen ≤ wordMax := by decide
  writeBufferCapacity_le : writeBufferCapacity ≤ wordMax := by decide
  deriving DecidableEq, Repr

instance : Inhabited Settings := ⟨{}⟩

namespace Settings

/-- What a cipher adds to a chunk at most: a tag, or the rest of a block. -/
def maxChunkOverhead : Nat := 16

def maxNonceLen : Nat := 24

/-- The sum of two numbers of 64 bits, or the largest one in its place. -/
def addSaturating (a b : Nat) : Nat := min (a + b) wordMax

/-- What is wrong with settings, if something is. -/
def fault? (s : Settings) : Option String :=
  if s.maxChunkLen = 0 then some "max_chunk_len must be positive"
  else if s.maxFieldLen = 0 then some "max_field_len must be positive"
  else if s.maxFieldLen < addSaturating s.maxChunkLen maxChunkOverhead then
    some "max_field_len must cover max_chunk_len plus the cipher overhead"
  else if s.maxFieldLen < addSaturating maxNonceLen s.associatedDataLen then
    some "max_field_len must cover the AEAD nonce plus associated data"
  else none

/-- Refuse settings that no container can be written and read under. -/
def validate (s : Settings) : Except StreamError Unit :=
  match s.fault? with
  | some reason => .error (.invalidConfig reason)
  | none => .ok ()

/-! ## Settings as JSON -/

/-- A number of 64 bits, written without sign, point or exponent. -/
def wordOfJson? : JsonValue → Option Nat
  | .number digits =>
    if digits.all Char.isDigit ∧ digits ≠ [] then
      let n := digits.foldl (fun n c => 10 * n + (c.toNat - '0'.toNat)) 0
      if n ≤ wordMax then some n else none
    else none
  | _ => none

def wordToJson (n : Nat) : JsonValue := .number (Nat.toDigits 10 n)

/-- The settings that can be named. -/
inductive Name where
  | maxFieldLen
  | maxChunkLen
  | associatedDataLen
  | writeBufferCapacity
  deriving DecidableEq, Repr

namespace Name

def text : Name → String
  | maxFieldLen => "max_field_len"
  | maxChunkLen => "max_chunk_len"
  | associatedDataLen => "associated_data_len"
  | writeBufferCapacity => "write_buffer_capacity"

def all : List Name := [maxFieldLen, maxChunkLen, associatedDataLen, writeBufferCapacity]

def ofText? (s : String) : Option Name := all.find? fun n => n.text == s

end Name

def get (s : Settings) : Name → Nat
  | .maxFieldLen => s.maxFieldLen
  | .maxChunkLen => s.maxChunkLen
  | .associatedDataLen => s.associatedDataLen
  | .writeBufferCapacity => s.writeBufferCapacity

theorem get_le (s : Settings) (name : Name) : s.get name ≤ wordMax :=
  match name with
  | .maxFieldLen => s.maxFieldLen_le
  | .maxChunkLen => s.maxChunkLen_le
  | .associatedDataLen => s.associatedDataLen_le
  | .writeBufferCapacity => s.writeBufferCapacity_le

/-- Give a setting another value, if that is a number of 64 bits. -/
def set (s : Settings) (name : Name) (n : Nat) : Settings :=
  if h : n ≤ wordMax then
    match name with
    | .maxFieldLen => { s with maxFieldLen := n, maxFieldLen_le := h }
    | .maxChunkLen => { s with maxChunkLen := n, maxChunkLen_le := h }
    | .associatedDataLen => { s with associatedDataLen := n, associatedDataLen_le := h }
    | .writeBufferCapacity => { s with writeBufferCapacity := n, writeBufferCapacity_le := h }
  else s

/-- Settings from members. A name that is none of the settings is passed over with its value;
`seen` are the settings that were named, and none may be named twice. -/
def ofMembers? (seen : List Name) (s : Settings) : List (List Nat × JsonValue) → Option Settings
  | [] => some s
  | (points, v) :: ms => do
    match Name.ofText? (← textOfPoints? points) with
    | none => ofMembers? seen s ms
    | some name =>
      if name ∈ seen then none
      else ofMembers? (name :: seen) (s.set name (← wordOfJson? v)) ms

/-- Settings from values in the order of the names. -/
def ofItems? (s : Settings) : List Name → List JsonValue → Option Settings
  | _, [] => some s
  | [], _ :: _ => none
  | name :: names, v :: vs => do ofItems? (s.set name (← wordOfJson? v)) names vs

/-- Settings from an object, or from an array in the order of the names. What is not given has its
default. -/
def ofJson? : JsonValue → Option Settings
  | .object members => ofMembers? [] default members
  | .array items => ofItems? default Name.all items
  | _ => none

def parse? (text : String) : Option Settings := (JsonValue.parse? text).bind ofJson?

def toJson (s : Settings) : JsonValue :=
  .object (Name.all.map fun n => (pointsOfText n.text, wordToJson (s.get n)))

end Settings

end SealedStream
