/-!
# Arithmetic modulo a prime

* `Modular.bits` are the bits of a number, by which powers and multiples are built up.
* `Modular.pow` is the power, `Modular.inverse` the inverse by Fermat's theorem, and
  `Modular.sqrt?` the square root modulo a prime that is 3 modulo 4.
-/
namespace SealedStream.Modular

/-- The low `width` bits of a number, the highest one first. -/
def bits (width n : Nat) : List Bool := (List.range width).reverse.map n.testBit

def pow (p x n : Nat) : Nat :=
  (bits (n.log2 + 1) n).foldl (fun y bit => if bit then y * y % p * x % p else y * y % p) (1 % p)

/-- The inverse of `x` modulo a prime `p`, and 0 if there is none. -/
def inverse (p x : Nat) : Nat := pow p x (p - 2)

/-- A square root of `x` modulo `p`, if there is one; `p` is a prime that is 3 modulo 4. -/
def sqrt? (p x : Nat) : Option Nat :=
  let y := pow p x ((p + 1) / 4)
  if y * y % p = x % p then some y else none

end SealedStream.Modular
