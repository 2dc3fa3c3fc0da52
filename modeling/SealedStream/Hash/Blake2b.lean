import SealedStream.Words
/-!
# BLAKE2b

The hash function of RFC 7693, without a key. `Blake2b.digest n` is the digest of `n` octets,
`1 ≤ n ≤ 64`; the digests of different lengths are unrelated.
-/
namespace SealedStream.Blake2b

def iv : Vector UInt64 8 := #v[
  0x6a09e667f3bcc908, 0xbb67ae8584caa73b, 0x3c6ef372fe94f82b, 0xa54ff53a5f1d36f1,
  0x510e527fade682d1, 0x9b05688c2b3e6c1f, 0x1f83d9abfb41bd6b, 0x5be0cd19137e2179]

/-- The order in which each of the twelve rounds takes the words of a block, two for each mixing. -/
def schedule : List (List (Fin 16 × Fin 16)) := [
  [(0, 1), (2, 3), (4, 5), (6, 7), (8, 9), (10, 11), (12, 13), (14, 15)],
  [(14, 10), (4, 8), (9, 15), (13, 6), (1, 12), (0, 2), (11, 7), (5, 3)],
  [(11, 8), (12, 0), (5, 2), (15, 13), (10, 14), (3, 6), (7, 1), (9, 4)],
  [(7, 9), (3, 1), (13, 12), (11, 14), (2, 6), (5, 10), (4, 0), (15, 8)],
  [(9, 0), (5, 7), (2, 4), (10, 15), (14, 1), (11, 12), (6, 8), (3, 13)],
  [(2, 12), (6, 10), (0, 11), (8, 3), (4, 13), (7, 5), (15, 14), (1, 9)],
  [(12, 5), (1, 15), (14, 13), (4, 10), (0, 7), (6, 3), (9, 2), (8, 11)],
  [(13, 11), (7, 14), (12, 1), (3, 9), (5, 0), (15, 4), (8, 6), (2, 10)],
  [(6, 15), (14, 9), (11, 3), (0, 8), (12, 2), (13, 7), (1, 4), (10, 5)],
  [(10, 2), (8, 4), (7, 6), (1, 5), (15, 11), (9, 14), (3, 12), (13, 0)],
  [(0, 1), (2, 3), (4, 5), (6, 7), (8, 9), (10, 11), (12, 13), (14, 15)],
  [(14, 10), (4, 8), (9, 15), (13, 6), (1, 12), (0, 2), (11, 7), (5, 3)]]

/-- The places that are mixed in a round: the four columns, then the four diagonals. -/
def places : List (Fin 16 × Fin 16 × Fin 16 × Fin 16) := [
  (0, 4, 8, 12), (1, 5, 9, 13), (2, 6, 10, 14), (3, 7, 11, 15),
  (0, 5, 10, 15), (1, 6, 11, 12), (2, 7, 8, 13), (3, 4, 9, 14)]

def mix (x y a b c d : UInt64) : UInt64 × UInt64 × UInt64 × UInt64 :=
  let a := a + b + x
  let d := rotr64 (d ^^^ a) 32
  let c := c + d
  let b := rotr64 (b ^^^ c) 24
  let a := a + b + y
  let d := rotr64 (d ^^^ a) 16
  let c := c + d
  let b := rotr64 (b ^^^ c) 63
  (a, b, c, d)

/-- A round with the words `m` of a block in the order `s`. -/
def round (m v : Vector UInt64 16) (s : List (Fin 16 × Fin 16)) : Vector UInt64 16 :=
  (places.zip s).foldl
    (fun v r => match r with
      | ((i, j, k, l), (x, y)) => onFour (mix (m.get x) (m.get y)) i j k l v) v

/-- The chaining words after a block. `count` is the number of octets up to its end. -/
def compress (h : Vector UInt64 8) (block : Bytes) (count : Nat) (last : Bool) : Vector UInt64 8 :=
  let tweak : Vector UInt64 8 := #v[0, 0, 0, 0, UInt64.ofNat count, UInt64.ofNat (count >>> 64),
    if last then ~~~0 else 0, 0]
  let v := schedule.foldl (round (block.words64 16)) (h ++ iv.zipWith (· ^^^ ·) tweak)
  Vector.ofFn fun i : Fin 8 => h.get i ^^^ v.get (i.castAdd 8) ^^^ v.get (i.natAdd 8)

/-- The chaining words after the blocks of a message, of which `count` octets came before. -/
def absorb (h : Vector UInt64 8) (count : Nat) : List Bytes → Vector UInt64 8
  | [] => compress h (Bytes.zeros 128) count true
  | [block] =>
    compress h (block ++ Bytes.zeros (128 - block.length)) (count + block.length) true
  | block :: blocks => absorb (compress h block (count + 128) false) (count + 128) blocks

/-- The chaining words before the first block, for a digest of `n` octets. -/
def initial (n : Nat) : Vector UInt64 8 := iv.set 0 (iv[0] ^^^ 0x01010000 ^^^ UInt64.ofNat n)

def digest (n : Nat) (message : Bytes) : Bytes :=
  (Bytes.ofWords64 (absorb (initial n) 0 (message.pieces 128)).toList).take n

@[simp] theorem length_digest (n : Nat) (message : Bytes) :
    (digest n message).length = min n 64 := by
  simp [digest]

end SealedStream.Blake2b
