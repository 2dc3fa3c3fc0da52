import SealedStream.Event
/-!
# Padding

What fills the final block of a block cipher behind the plaintext: a zero octet, then runs of
octets that each tell the length of their run, all of 255 octets but the last.

* `Padding.fill n` is the padding of `n` octets.
* `Padding.strip` walks back over the runs of a block to the zero octet before them.
-/
namespace SealedStream.Padding

def runs (n : Nat) : Bytes :=
  if n ≤ 255 then List.replicate n (UInt8.ofNat n)
  else List.replicate 255 255 ++ runs (n - 255)

def fill (n : Nat) : Bytes := if n = 0 then [] else 0 :: runs (n - 1)

/-- What a final block holds. -/
structure Stripped where
  kept : Nat
  /-- The run that steps back to or past the beginning of the block, if one does. -/
  fault : Option Nat := none
  deriving DecidableEq, Repr

/-- Walk back over the octets of a block, the last one first. -/
def stripReversed : Bytes → Stripped
  | [] => ⟨0, none⟩
  | b :: bs =>
    if b = 0 then ⟨bs.length, none⟩
    else
      let rest := bs.drop (b.toNat - 1)
      if rest.isEmpty then ⟨0, some b.toNat⟩ else stripReversed rest
termination_by bs => bs.length
decreasing_by simp only [List.length_drop, List.length_cons]; omega

/-- The plaintext length of a final block. Padding that is no padding leaves nothing. -/
def strip (block : Bytes) : Stripped := stripReversed block.reverse

/-- What is reported of a final block of the given length. -/
def Stripped.events (s : Stripped) (len : Nat) : List Event :=
  s.fault.toList.map fun run => .paddingMalformed len run

end SealedStream.Padding
