import SealedStream.Bytes
/-!
# Texts as octets

`Utf8.encode` and `Utf8.decode` translate between texts and their UTF-8 octets. A string that is
no UTF-8 is diagnosed by `Utf8.defect?`, a machine that reads one octet at a time and stops at the
first octet that no character can hold there.

* `decode_encode`: decoding an encoded text gives the text.
* `encode_of_decode`: only the encoding of a text decodes to it.
-/
namespace SealedStream.Utf8

/-- Where the octets of a text stop being UTF-8. -/
structure Defect where
  /-- Length of the longest prefix that consists of whole characters. -/
  validUpTo : Nat
  /-- Number of octets of the broken character that could still have begun one, at least one;
  `none` if the string ends before its last character does. -/
  badLen : Option Nat
  deriving DecidableEq, Repr

/-- `invalid utf-8 sequence of 1 bytes from index 3`, or its form for a string that ends early. -/
def Defect.message (d : Defect) : String :=
  match d.badLen with
  | some n =>
    "invalid utf-8 sequence of " ++ toString n ++ " bytes from index " ++ toString d.validUpTo
  | none => "incomplete utf-8 byte sequence from index " ++ toString d.validUpTo

/-! ## The machine -/

/-- What may follow inside a character: the range of the next octet and the number of octets
after that one, each of which lies in `80..BF`. -/
structure Expect where
  low : UInt8
  high : UInt8
  more : Nat

/-- What may follow the first octet `b` of a character; `none` if `b` begins no character, and
`some none` if it is one. -/
def first (b : UInt8) : Option (Option Expect) :=
  if b < 0x80 then some none
  else if 0xC2 ≤ b ∧ b ≤ 0xDF then some (some ⟨0x80, 0xBF, 0⟩)
  else if b = 0xE0 then some (some ⟨0xA0, 0xBF, 1⟩)
  else if b = 0xED then some (some ⟨0x80, 0x9F, 1⟩)
  else if 0xE1 ≤ b ∧ b ≤ 0xEF then some (some ⟨0x80, 0xBF, 1⟩)
  else if b = 0xF0 then some (some ⟨0x90, 0xBF, 2⟩)
  else if 0xF1 ≤ b ∧ b ≤ 0xF3 then some (some ⟨0x80, 0xBF, 2⟩)
  else if b = 0xF4 then some (some ⟨0x80, 0x8F, 2⟩)
  else none

/-- What may follow an octet that met its expectation. -/
def Expect.next (e : Expect) : Option Expect :=
  match e.more with
  | 0 => none
  | n + 1 => some ⟨0x80, 0xBF, n⟩

/-- The defect of a string of which `seen` octets form whole characters and `part` more octets
form the beginning of one, after which `e` is expected. -/
def scan (seen part : Nat) (e : Option Expect) : Bytes → Option Defect
  | [] => e.map fun _ => ⟨seen, none⟩
  | b :: bs =>
    match e with
    | none =>
      match first b with
      | none => some ⟨seen, some 1⟩
      | some none => scan (seen + 1) 0 none bs
      | some (some e) => scan seen 1 (some e) bs
    | some e =>
      if e.low ≤ b ∧ b ≤ e.high then
        match e.next with
        | none => scan (seen + part + 1) 0 none bs
        | some e => scan seen (part + 1) (some e) bs
      else some ⟨seen, some part⟩

/-- The first defect of a string, if it is not UTF-8. -/
def defect? (bs : Bytes) : Option Defect := scan 0 0 none bs

/-! ## Encoding and decoding -/

def encode (s : String) : Bytes := s.toByteArray.data.toList

/-- The text with the given UTF-8 octets, or the first defect of the octets. -/
def decode (bs : Bytes) : Except Defect String :=
  if h : (ByteArray.mk bs.toArray).IsValidUTF8 then .ok (String.ofByteArray ⟨bs.toArray⟩ h)
  else .error ((defect? bs).getD ⟨0, none⟩)

@[simp] theorem decode_encode (s : String) : decode (encode s) = .ok s := by
  obtain ⟨⟨a⟩, h⟩ := s
  simp [decode, encode, h]

theorem encode_of_decode {bs : Bytes} {s : String} (h : decode bs = .ok s) : encode s = bs := by
  unfold decode at h
  split at h
  · cases h; simp [encode]
  · cases h

end SealedStream.Utf8
