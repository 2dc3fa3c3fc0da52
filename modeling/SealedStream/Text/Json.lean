/-!
# JSON texts

The data format of RFC 8259: `JsonValue.parse?` reads a text and `JsonValue.render` writes one.

* A number is kept as it is written, so that nothing is lost before its reader looks at it.
* A string is kept as code points; an escape may put half of a surrogate pair among them. The name
  of a member is a text only if there is none (`textOfPoints?`).
* Reading goes by tokens: `JsonToken.lex?` cuts the text, `JsonValue.parseTokens?` nests them.
-/
namespace SealedStream

/-- A JSON value. -/
inductive JsonValue where
  | null
  | bool (b : Bool)
  | number (digits : List Char)
  | string (points : List Nat)
  | array (items : List JsonValue)
  | object (members : List (List Nat × JsonValue))

/-- A token of a JSON text. -/
inductive JsonToken where
  | null
  | bool (b : Bool)
  | number (digits : List Char)
  | string (points : List Nat)
  | comma
  | colon
  | arrayBegin
  | arrayEnd
  | objectBegin
  | objectEnd
  deriving DecidableEq

/-! ## Strings -/

def isHighSurrogate (n : Nat) : Bool := 0xD800 ≤ n && n ≤ 0xDBFF

def isLowSurrogate (n : Nat) : Bool := 0xDC00 ≤ n && n ≤ 0xDFFF

def joinSurrogates : List Nat → List Nat
  | h :: l :: r =>
    if isHighSurrogate h && isLowSurrogate l then
      (0x10000 + (h - 0xD800) * 0x400 + (l - 0xDC00)) :: joinSurrogates r
    else h :: joinSurrogates (l :: r)
  | r => r

/-- The text of code points, if there is no half of a surrogate pair among them. -/
def textOfPoints? (points : List Nat) : Option String :=
  if points.all Nat.isValidChar then some (String.ofList (points.map Char.ofNat)) else none

def pointsOfText (s : String) : List Nat := s.toList.map Char.toNat

namespace JsonToken

/-- The value of a hexadecimal digit of either case. -/
def hexValue? (c : Char) : Option Nat :=
  if '0' ≤ c ∧ c ≤ '9' then some (c.toNat - '0'.toNat)
  else if 'a' ≤ c ∧ c ≤ 'f' then some (c.toNat - 'a'.toNat + 10)
  else if 'A' ≤ c ∧ c ≤ 'F' then some (c.toNat - 'A'.toNat + 10)
  else none

/-- The code point that four hexadecimal digits escape. -/
def escapedPoint? (a b c d : Char) : Option Nat := do
  return 0x1000 * (← hexValue? a) + 0x100 * (← hexValue? b) + 0x10 * (← hexValue? c) +
    (← hexValue? d)

def unescape? (c : Char) : Option Nat :=
  match c with
  | '"' | '\\' | '/' => some c.toNat
  | 'b' => some 8
  | 'f' => some 12
  | 'n' => some 10
  | 'r' => some 13
  | 't' => some 9
  | _ => none

/-- The code points up to the closing quote, and what follows it. -/
def stringBody? : List Char → Option (List Nat × List Char)
  | [] => none
  | '"' :: r => some ([], r)
  | '\\' :: 'u' :: a :: b :: c :: d :: r =>
    match escapedPoint? a b c d, stringBody? r with
    | some n, some (ns, r) => some (n :: ns, r)
    | _, _ => none
  | '\\' :: e :: r =>
    match unescape? e, stringBody? r with
    | some n, some (ns, r) => some (n :: ns, r)
    | _, _ => none
  | c :: r =>
    if c < ' ' then none
    else
      match stringBody? r with
      | some (ns, r) => some (c.toNat :: ns, r)
      | none => none

/-! ## Numbers -/

/-- The digits at the beginning of a text, and what follows them. -/
def digits (cs : List Char) : List Char × List Char :=
  (cs.takeWhile Char.isDigit, cs.dropWhile Char.isDigit)

/-- The digits at the beginning of a text, where there must be some. -/
def someDigits? (cs : List Char) : Option (List Char × List Char) :=
  match digits cs with
  | ([], _) => none
  | r => some r

/-- The whole part of a number: no digit follows a leading zero. -/
def wholePart? (cs : List Char) : Option (List Char × List Char) :=
  match someDigits? cs with
  | some ('0' :: _ :: _, _) => none
  | r => r

def fractionPart? : List Char → Option (List Char × List Char)
  | '.' :: cs => (someDigits? cs).map fun r => ('.' :: r.1, r.2)
  | cs => some ([], cs)

/-- The part after the letter of an exponent, if there is one. -/
def exponentPart? : List Char → Option (List Char × List Char)
  | c :: cs =>
    if c = 'e' ∨ c = 'E' then
      match cs with
      | s :: ds =>
        if s = '+' ∨ s = '-' then (someDigits? ds).map fun r => (c :: s :: r.1, r.2)
        else (someDigits? (s :: ds)).map fun r => (c :: r.1, r.2)
      | [] => none
    else some ([], c :: cs)
  | [] => some ([], [])

def unsigned? (cs : List Char) : Option (List Char × List Char) := do
  let (whole, cs) ← wholePart? cs
  let (fraction, cs) ← fractionPart? cs
  let (exponent, cs) ← exponentPart? cs
  return (whole ++ fraction ++ exponent, cs)

/-! ## Tokens -/

def isBlank (c : Char) : Bool := c = ' ' || c = '\n' || c = '\t' || c = '\r'

/-- The token at the beginning of a text without leading blanks, and what follows it. -/
def next? : List Char → Option (JsonToken × List Char)
  | ',' :: r => some (.comma, r)
  | ':' :: r => some (.colon, r)
  | '[' :: r => some (.arrayBegin, r)
  | ']' :: r => some (.arrayEnd, r)
  | '\x7b' :: r => some (.objectBegin, r)
  | '\x7d' :: r => some (.objectEnd, r)
  | 'n' :: 'u' :: 'l' :: 'l' :: r => some (.null, r)
  | 't' :: 'r' :: 'u' :: 'e' :: r => some (.bool true, r)
  | 'f' :: 'a' :: 'l' :: 's' :: 'e' :: r => some (.bool false, r)
  | '"' :: r => (stringBody? r).map fun p => (.string (joinSurrogates p.1), p.2)
  | '-' :: r => (unsigned? r).map fun p => (.number ('-' :: p.1), p.2)
  | r => (unsigned? r).map fun p => (.number p.1, p.2)

/-- `lex?` of a text of at most `fuel` characters. -/
def lexWithin? : (fuel : Nat) → List Char → Option (List JsonToken)
  | _, [] => some []
  | 0, _ :: _ => none
  | fuel + 1, c :: r =>
    if isBlank c then lexWithin? fuel r
    else
      match next? (c :: r) with
      | some (t, r) => (lexWithin? fuel r).map (t :: ·)
      | none => none

/-- The tokens of a text. A token takes at least one character. -/
def lex? (cs : List Char) : Option (List JsonToken) := lexWithin? cs.length cs

end JsonToken

/-! ## Values -/

namespace JsonValue

mutual

/-- The value at the beginning of tokens, and what follows it; `fuel` bounds the number of tokens
it takes. -/
def parseValue? : (fuel : Nat) → List JsonToken → Option (JsonValue × List JsonToken)
  | 0, _ => none
  | fuel + 1, ts =>
    match ts with
    | .null :: r => some (.null, r)
    | .bool b :: r => some (.bool b, r)
    | .number ds :: r => some (.number ds, r)
    | .string ps :: r => some (.string ps, r)
    | .arrayBegin :: .arrayEnd :: r => some (.array [], r)
    | .arrayBegin :: r => (parseItems? fuel r).map fun p => (.array p.1, p.2)
    | .objectBegin :: .objectEnd :: r => some (.object [], r)
    | .objectBegin :: r => (parseMembers? fuel r).map fun p => (.object p.1, p.2)
    | _ => none

def parseItems? : (fuel : Nat) → List JsonToken → Option (List JsonValue × List JsonToken)
  | 0, _ => none
  | fuel + 1, ts =>
    match parseValue? fuel ts with
    | some (v, .comma :: r) => (parseItems? fuel r).map fun p => (v :: p.1, p.2)
    | some (v, .arrayEnd :: r) => some ([v], r)
    | _ => none

def parseMembers? : (fuel : Nat) → List JsonToken →
    Option (List (List Nat × JsonValue) × List JsonToken)
  | 0, _ => none
  | fuel + 1, ts =>
    match ts with
    | .string name :: .colon :: r =>
      match parseValue? fuel r with
      | some (v, .comma :: r) => (parseMembers? fuel r).map fun p => ((name, v) :: p.1, p.2)
      | some (v, .objectEnd :: r) => some ([(name, v)], r)
      | _ => none
    | _ => none

end

/-- The value that tokens form, if they form one and no more. -/
def parseTokens? (ts : List JsonToken) : Option JsonValue :=
  match parseValue? (2 * ts.length + 1) ts with
  | some (v, []) => some v
  | _ => none

def parse? (text : String) : Option JsonValue := (JsonToken.lex? text.toList).bind parseTokens?

/-! ## Writing -/

def hex4 (n : Nat) : List Char :=
  [n / 0x1000 % 16, n / 0x100 % 16, n / 0x10 % 16, n % 16].map Nat.digitChar

def renderPoint (n : Nat) : List Char :=
  if n = 0x22 then ['\\', '"']
  else if n = 0x5C then ['\\', '\\']
  else if n = 8 then ['\\', 'b']
  else if n = 12 then ['\\', 'f']
  else if n = 10 then ['\\', 'n']
  else if n = 13 then ['\\', 'r']
  else if n = 9 then ['\\', 't']
  else if n < 0x20 ∨ isHighSurrogate n ∨ isLowSurrogate n then '\\' :: 'u' :: hex4 n
  else [Char.ofNat n]

def renderString (points : List Nat) : List Char := '"' :: points.flatMap renderPoint ++ ['"']

mutual

def renderChars : JsonValue → List Char
  | .null => ['n', 'u', 'l', 'l']
  | .bool true => ['t', 'r', 'u', 'e']
  | .bool false => ['f', 'a', 'l', 's', 'e']
  | .number digits => digits
  | .string points => renderString points
  | .array items => '[' :: renderItems items ++ [']']
  | .object members => '\x7b' :: renderMembers members ++ ['\x7d']

def renderItems : List JsonValue → List Char
  | [] => []
  | [v] => renderChars v
  | v :: vs => renderChars v ++ ',' :: renderItems vs

def renderMembers : List (List Nat × JsonValue) → List Char
  | [] => []
  | [(name, v)] => renderString name ++ ':' :: renderChars v
  | (name, v) :: ms => renderString name ++ ':' :: renderChars v ++ ',' :: renderMembers ms

end

def render (v : JsonValue) : String := String.ofList v.renderChars

end JsonValue

end SealedStream
