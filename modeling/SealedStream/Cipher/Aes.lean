import SealedStream.Cipher.Block
/-!
# AES

The block cipher of FIPS 197 with keys of 128, 192 and 256 bits. A block is a matrix of four by
four octets, column by column.

* `Aes.cipher` is the permutation under a key.
* `Aes.rounds` and `Aes.unrounds` run through the round keys in opposite orders.
-/
namespace SealedStream.Aes

/-! ## The field of 256 elements -/

def double (b : UInt8) : UInt8 := (b <<< 1) ^^^ (if b < 0x80 then 0 else 0x1B)

/-- `mul` by the lowest `n` bits of the first factor. -/
def mulBits : (n : Nat) → UInt8 → UInt8 → UInt8
  | 0, _, _ => 0
  | n + 1, a, b => (if a &&& 1 = 1 then b else 0) ^^^ mulBits n (a >>> 1) (double b)

def mul (a b : UInt8) : UInt8 := mulBits 8 a b

/-- The product of `n` pairs of equal factors, each the square of the pair before, from `a²` on. -/
def squares : (n : Nat) → UInt8 → UInt8
  | 0, _ => 1
  | n + 1, a => let a := mul a a; mul a (squares n a)

/-- The inverse of an element, which is its power 254; zero for zero. -/
def inverse (a : UInt8) : UInt8 := squares 7 a

/-! ## Substitution -/

/-- Rotate an octet to the left by `k`, where `0 < k < 8`. -/
def rotl (b k : UInt8) : UInt8 := (b <<< k) ||| (b >>> (8 - k))

def substitute (b : UInt8) : UInt8 :=
  let x := inverse b
  x ^^^ rotl x 1 ^^^ rotl x 2 ^^^ rotl x 3 ^^^ rotl x 4 ^^^ 0x63

def unsubstitute (b : UInt8) : UInt8 := inverse (rotl b 1 ^^^ rotl b 3 ^^^ rotl b 6 ^^^ 0x05)

def table (f : UInt8 → UInt8) : Vector UInt8 256 := Vector.ofFn fun i => f (UInt8.ofNat i)

def lookup (t : Vector UInt8 256) (b : UInt8) : UInt8 :=
  have := b.toNat_lt
  t[b.toNat]

theorem lookup_table (f : UInt8 → UInt8) (b : UInt8) : lookup (table f) b = f b := by
  simp [lookup, table]

def substituteTable : Vector UInt8 256 := table substitute

def unsubstituteTable : Vector UInt8 256 := table unsubstitute

def subBytes (s : Block) : Block := s.map (lookup substituteTable)

/-- Undo `subBytes`. -/
def unsubBytes (s : Block) : Block := s.map (lookup unsubstituteTable)

/-! ## Diffusion -/

def shiftRows (s : Block) : Block := Vector.ofFn fun i => s[(i.val + 4 * (i.val % 4)) % 16]

/-- Undo `shiftRows`. -/
def unshiftRows (s : Block) : Block := Vector.ofFn fun i => s[(i.val + 12 * (i.val % 4)) % 16]

/-- The octet `k` rows below that at place `i`, in the same column. -/
def below (s : Block) (i : Fin 16) (k : Nat) : UInt8 := s[i.val / 4 * 4 + (i.val + k) % 4]

def triple (b : UInt8) : UInt8 := double b ^^^ b

/-- Multiply every column by the polynomial with the coefficients 2, 3, 1, 1. -/
def mixColumns (s : Block) : Block := Vector.ofFn fun i =>
  double (below s i 0) ^^^ triple (below s i 1) ^^^ below s i 2 ^^^ below s i 3

/-- Undo `mixColumns`: multiply by the polynomial with the coefficients 14, 11, 13, 9. -/
def unmixColumns (s : Block) : Block := Vector.ofFn fun i =>
  let part (a : UInt8) (two four : Bool) : UInt8 :=
    double (double (double a)) ^^^ (if four then double (double a) else 0) ^^^
      (if two then double a else 0)
  let a := below s i 0
  let b := below s i 1
  let c := below s i 2
  let d := below s i 3
  part a true true ^^^ (part b true false ^^^ b) ^^^ (part c false true ^^^ c) ^^^
    (part d false false ^^^ d)

/-! ## Rounds -/

/-- Run a block through the round keys; the last round mixes no columns. -/
def rounds : List Block → Block → Block
  | [], s => s
  | [k], s => (shiftRows (subBytes s)).xor k
  | k :: ks, s => rounds ks ((mixColumns (shiftRows (subBytes s))).xor k)

/-- Undo `rounds`. -/
def unrounds : List Block → Block → Block
  | [], s => s
  | [k], s => unsubBytes (unshiftRows (s.xor k))
  | k :: ks, s => unsubBytes (unshiftRows (unmixColumns ((unrounds ks s).xor k)))

/-! ## Keys -/

/-- What is added to every word that begins a multiple of the key length. -/
def roundConstant : (n : Nat) → UInt8
  | 0 => 1
  | n + 1 => double (roundConstant n)

/-- The word after the words `ws`, for a key of `nk` words. -/
def nextWord (nk : Nat) (ws : Array Bytes) : Bytes :=
  let i := ws.size
  let last := ws.getD (i - 1) []
  let sub := List.map (lookup substituteTable)
  let mixed :=
    if i % nk = 0 then
      Bytes.xor (sub (last.drop 1 ++ last.take 1)) [roundConstant (i / nk - 1), 0, 0, 0]
    else if 6 < nk ∧ i % nk = 4 then sub last
    else last
  Bytes.xor (ws.getD (i - nk) []) mixed

def expandWords (nk : Nat) : (more : Nat) → Array Bytes → Array Bytes
  | 0, ws => ws
  | more + 1, ws => expandWords nk more (ws.push (nextWord nk ws))

/-- The round keys of a key of 16, 24 or 32 octets. -/
def expandKey (key : Bytes) : List Block :=
  let nk := key.length / 4
  let ws := expandWords nk (4 * (nk + 7) - nk) (key.pieces 4).toArray
  (Bytes.pieces 16 ws.toList.flatten).map Block.ofBytes

def cipher (key : Bytes) : BlockCipher :=
  match expandKey key with
  | [] => ⟨id, id⟩
  | k :: ks => ⟨fun b => rounds ks (b.xor k), fun b => (unrounds ks b).xor k⟩

end SealedStream.Aes
