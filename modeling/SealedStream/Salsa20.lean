import SealedStream.Words
/-!
# Salsa20

The functions of the Salsa20 family that key stretching uses. Their state is a matrix of four by
four words, row by row.

* `Salsa20.doubleRound` is a round on the columns and then one on the rows.
* `Salsa20.hsalsa20` takes part of the words after twenty rounds.
* `Salsa20.core208` adds the words after eight rounds to those before them.
-/
namespace SealedStream.Salsa20

/-- A matrix of four by four words, row by row. -/
abbrev State := Vector UInt32 16

def quarter (a b c d : UInt32) : UInt32 × UInt32 × UInt32 × UInt32 :=
  let b := b ^^^ rotl32 (a + d) 7
  let c := c ^^^ rotl32 (b + a) 9
  let d := d ^^^ rotl32 (c + b) 13
  let a := a ^^^ rotl32 (d + c) 18
  (a, b, c, d)

/-- The quarter round on the words at four places. -/
def quarterRound (i j k l : Fin 16) (x : State) : State := onFour quarter i j k l x

/-- The quarter round on every column, each beginning on the diagonal. -/
def columnRound (x : State) : State :=
  quarterRound 15 3 7 11 (quarterRound 10 14 2 6 (quarterRound 5 9 13 1 (quarterRound 0 4 8 12 x)))

/-- The quarter round on every row, each beginning on the diagonal. -/
def rowRound (x : State) : State :=
  quarterRound 15 12 13 14 (quarterRound 10 11 8 9 (quarterRound 5 6 7 4 (quarterRound 0 1 2 3 x)))

def doubleRound (x : State) : State := rowRound (columnRound x)

def rounds : (n : Nat) → State → State
  | 0, x => x
  | n + 1, x => rounds n (doubleRound x)

/-- The state whose diagonal holds `constant`; `key` stands around `input`. -/
def arrange (input key constant : Bytes) : State :=
  Bytes.words32 16 (constant.take 4 ++ key.take 16 ++ (constant.drop 4).take 4 ++ input.take 16 ++
    (constant.drop 8).take 4 ++ (key.drop 16).take 16 ++ (constant.drop 12).take 4)

/-- The key of 32 octets that HSalsa20 derives from an input of 16, a key of 32 and a constant
of 16. -/
def hsalsa20 (input key constant : Bytes) : Bytes :=
  let x := rounds 10 (arrange input key constant)
  Bytes.ofWords32 ([0, 5, 10, 15, 6, 7, 8, 9].map x.get)

/-- The block of 64 octets that Salsa20/8 makes of a block. -/
def core208 (block : Bytes) : Bytes :=
  let x := block.words32 16
  Bytes.ofWords32 ((rounds 4 x).zipWith (· + ·) x).toList

@[simp] theorem length_hsalsa20 (input key constant : Bytes) :
    (hsalsa20 input key constant).length = 32 := by
  simp [hsalsa20]

@[simp] theorem length_core208 (block : Bytes) : (core208 block).length = 64 := by
  simp [core208]

end SealedStream.Salsa20
