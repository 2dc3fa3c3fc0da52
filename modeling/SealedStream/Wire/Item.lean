import SealedStream.Transport.Output
/-!
# Items and how they are written

Records are built of the `Item`s of MessagePack: array headers, truth values, octet strings and
texts. An item is written with the shortest of its possible markers; an empty octet string is
written as nil.

* `Item.pieces` are the pieces in which an item goes to an output.
* `binHeaderSize` and `strHeaderSize` say what an item takes besides its contents;
  `size_pieces` says that this is what `Item.pieces` has.
-/
namespace SealedStream

/-- A part of a record. -/
inductive Item where
  | array (n : Nat)
  | bool (b : Bool)
  | bin (data : Bytes)
  | str (text : String)

/-! ## Sizes -/

/-- The number of octets before the contents of an octet string of length `len`. -/
def binHeaderSize (len : Nat) : Nat :=
  if len = 0 then 1 else if len ≤ 0xFF then 2 else if len ≤ 0xFFFF then 3 else 5

/-- The number of octets before the contents of a text of length `len`. -/
def strHeaderSize (len : Nat) : Nat :=
  if len ≤ 31 then 1 else if len ≤ 0xFF then 2 else if len ≤ 0xFFFF then 3 else 5

/-- The number of octets before the items of an array of length `n`. -/
def arrayHeaderSize (n : Nat) : Nat := if n ≤ 15 then 1 else if n ≤ 0xFFFF then 3 else 5

/-- The longest length that a marker can express. -/
def maxLength : Nat := 0xFFFFFFFF

/-! ## Pieces -/

namespace Item

/-- A marker and the length it announces, in so many octets. -/
def header (marker : UInt8) (width len : Nat) : List Bytes := [[marker], Bytes.ofNatBE width len]

def arrayPieces (n : Nat) : List Bytes :=
  if n ≤ 15 then [[0x90 ||| UInt8.ofNat n]]
  else if n ≤ 0xFFFF then header 0xDC 2 n
  else header 0xDD 4 n

def binPieces (data : Bytes) : List Bytes :=
  let len := data.length
  if len = 0 then [[0xC0]]
  else if len ≤ 0xFF then header 0xC4 1 len ++ [data]
  else if len ≤ 0xFFFF then header 0xC5 2 len ++ [data]
  else header 0xC6 4 len ++ [data]

def strPieces (data : Bytes) : List Bytes :=
  let len := data.length
  if len ≤ 31 then [[0xA0 ||| UInt8.ofNat len], data]
  else if len ≤ 0xFF then header 0xD9 1 len ++ [data]
  else if len ≤ 0xFFFF then header 0xDA 2 len ++ [data]
  else header 0xDB 4 len ++ [data]

/-- The length that an item has to express; a truth value has none. -/
def length : Item → Nat
  | array n => n
  | bool _ => 0
  | bin data => data.length
  | str text => (Utf8.encode text).length

/-- The pieces of an item. A length that no marker can express is refused. -/
def pieces (item : Item) : Except WireError (List Bytes) :=
  if maxLength < item.length then .error (.unencodable item.length)
  else
    .ok (match item with
      | array n => arrayPieces n
      | bool b => [[if b then 0xC3 else 0xC2]]
      | bin data => binPieces data
      | str text => strPieces (Utf8.encode text))

def size : Item → Nat
  | array n => arrayHeaderSize n
  | bool _ => 1
  | bin data => binHeaderSize data.length + data.length
  | str text => strHeaderSize (Utf8.encode text).length + (Utf8.encode text).length

def totalSize : List Item → Nat
  | [] => 0
  | item :: items => item.size + totalSize items

/-- An item that can be written has the size it is said to have. -/
theorem size_pieces {item : Item} {ps : List Bytes} (h : item.pieces = .ok ps) :
    ps.flatten.length = item.size := by
  unfold pieces at h
  split at h
  · cases h
  · cases h
    cases item with
    | array n =>
      simp only [arrayPieces, header, size, arrayHeaderSize]
      repeat' split
      all_goals simp
    | bool b => rfl
    | bin data =>
      simp only [binPieces, header, size, binHeaderSize]
      repeat' split
      all_goals simp only [List.flatten_append, List.flatten_cons, List.flatten_nil,
        List.length_append, List.length_cons, List.length_nil, Bytes.length_ofNatBE]
      all_goals omega
    | str text =>
      simp only [strPieces, header, size, strHeaderSize]
      repeat' split
      all_goals simp only [List.flatten_append, List.flatten_cons, List.flatten_nil,
        List.length_append, List.length_cons, List.length_nil, Bytes.length_ofNatBE]
      all_goals omega

end Item

/-! ## Writing -/

section
variable {τ : Type} [Output τ]

/-- Hand pieces to an output, up to the first failure. -/
def writePieces : List Bytes → τ → Except IoError Unit × τ
  | [], t => (.ok (), t)
  | p :: ps, t =>
    match Output.write p t with
    | (.ok (), t) => writePieces ps t
    | (.error e, t) => (.error e, t)

def writeItems : List Item → τ → Except WireError Unit × τ
  | [], t => (.ok (), t)
  | item :: items, t =>
    match item.pieces with
    | .error e => (.error e, t)
    | .ok ps =>
      match writePieces ps t with
      | (.ok (), t) => writeItems items t
      | (.error e, t) => (.error (.io e), t)

end

end SealedStream
