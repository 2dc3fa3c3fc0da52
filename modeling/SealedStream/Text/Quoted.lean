import SealedStream.Text.Unprintable
/-!
# Quoted texts

How a name is shown inside a message: between double quotes, with everything escaped that would
not show.
-/
namespace SealedStream.Text

/-- The hexadecimal digits of `n`, without leading zeros, in lower case. -/
def hexDigits (n : Nat) : String := String.ofList (Nat.toDigits 16 n)

/-- How a character stands between double quotes: the quote, the backslash and the common controls
by a letter, other characters without a glyph by their number, all others as they are. -/
def escaped (c : Char) : String :=
  if c = '"' then "\\\""
  else if c = '\\' then "\\\\"
  else if c = '\n' then "\\n"
  else if c = '\r' then "\\r"
  else if c = '\t' then "\\t"
  else if c = '\x00' then "\\0"
  else if Unprintable.isUnprintable c then "\\u\x7b" ++ hexDigits c.toNat ++ "\x7d"
  else c.toString

def quote (s : String) : String := "\"" ++ String.join (s.toList.map escaped) ++ "\""

/-- `quote` on a list of texts, with the brackets and commas of a list. -/
def quoteList (ss : List String) : String := "[" ++ ", ".intercalate (ss.map quote) ++ "]"

end SealedStream.Text
