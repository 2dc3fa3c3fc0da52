import SealedStream.Words
/-!
# ChaCha20

The stream cipher of RFC 8439 and the key derivation HChaCha20. The state is a matrix of four by
four words, row by row: the constant, the key in two rows, and a row of counter and nonce.
-/
namespace SealedStream.ChaCha20

/-- A matrix of four by four words, row by row. -/
abbrev State := Vector UInt32 16

def quarter (a b c d : UInt32) : UInt32 × UInt32 × UInt32 × UInt32 :=
  let a := a + b
  let d := rotl32 (d ^^^ a) 16
  let c := c + d
  let b := rotl32 (b ^^^ c) 12
  let a := a + b
  let d := rotl32 (d ^^^ a) 8
  let c := c + d
  let b := rotl32 (b ^^^ c) 7
  (a, b, c, d)

/-- The quarter round on the words at four places. -/
def quarterRound (i j k l : Fin 16) (x : State) : State := onFour quarter i j k l x

/-- A round on the columns and one on the diagonals. -/
def doubleRound (x : State) : State :=
  let x := quarterRound 3 7 11 15 (quarterRound 2 6 10 14 (quarterRound 1 5 9 13
    (quarterRound 0 4 8 12 x)))
  quarterRound 3 4 9 14 (quarterRound 2 7 8 13 (quarterRound 1 6 11 12 (quarterRound 0 5 10 15 x)))

def rounds : (n : Nat) → State → State
  | 0, x => x
  | n + 1, x => rounds n (doubleRound x)

/-- The state of a key of 32 octets and a last row of 16. -/
def arrange (key row : Bytes) : State :=
  Bytes.words32 16 (Bytes.ofString "expand 32-byte k" ++ key ++ row)

/-- The block number `counter` of a keystream with a nonce of 12 octets. -/
def block (key nonce : Bytes) (counter : Nat) : Bytes :=
  let x := arrange key (Bytes.ofNatLE 4 counter ++ nonce)
  Bytes.ofWords32 ((rounds 10 x).zipWith (· + ·) x).toList

/-- The first `n` octets of a keystream, from block number `counter` on. -/
def keystream (key nonce : Bytes) (counter n : Nat) : Bytes :=
  ((List.range ((n + 63) / 64)).flatMap fun i => block key nonce (counter + i)).take n

/-- The key of 32 octets that HChaCha20 derives from a key and an input of 16 octets. -/
def subkey (key input : Bytes) : Bytes :=
  let x := rounds 10 (arrange key input)
  Bytes.ofWords32 (x.toList.take 4 ++ x.toList.drop 12)

end SealedStream.ChaCha20
