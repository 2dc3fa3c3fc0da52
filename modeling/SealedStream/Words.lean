import SealedStream.Bytes
/-!
# Words

Words of 32 and 64 bits as the hash functions and stream ciphers use them: rotations, the change of
four words of a state (`onFour`), and vectors of words in little-endian order. Lengths are numbers
of 64 bits, of which sums may be too large (`addWord?`).
-/
namespace SealedStream

/-! ## Numbers of 64 bits -/

def wordMax : Nat := 0xFFFFFFFFFFFFFFFF

/-- The sum of two numbers of 64 bits, if it is one. -/
def addWord? (a b : Nat) : Option Nat := if a + b ≤ wordMax then some (a + b) else none

section
variable {a b : Nat}

theorem addWord?_eq (h : a + b ≤ wordMax) : addWord? a b = some (a + b) := if_pos h

theorem addWord?_eq_none_iff : addWord? a b = none ↔ wordMax < a + b := by
  rw [addWord?, ite_eq_right_iff, ← Nat.not_le]
  simp

end

/-! ## Rotations -/

/-- Rotate a word of 32 bits to the left by `k`, where `0 < k < 32`. -/
def rotl32 (x : UInt32) (k : UInt32) : UInt32 := (x <<< k) ||| (x >>> (32 - k))

/-- Rotate a word of 64 bits to the left by `k`, where `0 < k < 64`. -/
def rotl64 (x : UInt64) (k : UInt64) : UInt64 := (x <<< k) ||| (x >>> (64 - k))

/-- Rotate a word of 64 bits to the right by `k`, where `0 < k < 64`. -/
def rotr64 (x : UInt64) (k : UInt64) : UInt64 := (x >>> k) ||| (x <<< (64 - k))

/-! ## States of words -/

/-- Apply a function of four words to the words at four places. -/
def onFour {α : Type} {n : Nat} (f : α → α → α → α → α × α × α × α) (i j k l : Fin n)
    (v : Vector α n) : Vector α n :=
  match f (v.get i) (v.get j) (v.get k) (v.get l) with
  | (a, b, c, d) => (((v.set i a).set j b).set k c).set l d

/-- Numerals stand for the places of a state of sixteen words. -/
instance neZeroSixteen : @NeZero Nat Zero.ofOfNat0 16 := Nat.instNeZeroSucc

/-! ## Words and octets -/

namespace Bytes

/-- The word of 32 bits in the first four octets. -/
def word32 (bs : Bytes) : UInt32 := UInt32.ofNat (toNatLE (bs.take 4))

/-- The word of 64 bits in the first eight octets. -/
def word64 (bs : Bytes) : UInt64 := UInt64.ofNat (toNatLE (bs.take 8))

def words32 (n : Nat) (bs : Bytes) : Vector UInt32 n :=
  Vector.ofFn fun i => word32 (bs.drop (4 * i))

def words64 (n : Nat) (bs : Bytes) : Vector UInt64 n :=
  Vector.ofFn fun i => word64 (bs.drop (8 * i))

def ofWords32 (ws : List UInt32) : Bytes := ws.flatMap fun w => ofNatLE 4 w.toNat

def ofWords64 (ws : List UInt64) : Bytes := ws.flatMap fun w => ofNatLE 8 w.toNat

@[simp] theorem length_ofWords32 (ws : List UInt32) : (ofWords32 ws).length = 4 * ws.length := by
  induction ws with
  | nil => rfl
  | cons w ws ih => rw [ofWords32] at ih ⊢; simp [ih]; omega

@[simp] theorem length_ofWords64 (ws : List UInt64) : (ofWords64 ws).length = 8 * ws.length := by
  induction ws with
  | nil => rfl
  | cons w ws ih => rw [ofWords64] at ih ⊢; simp [ih]; omega

end Bytes

end SealedStream
