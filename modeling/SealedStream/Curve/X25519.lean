import SealedStream.Bytes
import SealedStream.Curve.Modular
/-!
# X25519

The key exchange of RFC 7748 on the curve `y² = x³ + 486662 x² + x` over the integers modulo
`2 ^ 255 - 19`, where a point is known by its first coordinate alone.

* `X25519.multiply` is the multiple of a point, and `X25519.publicKey` that of the base point.
* `X25519.clamp` is what is done to the octets of a scalar before use.
-/
namespace SealedStream.X25519

def keyLen : Nat := 32

/-- The modulus of the field, `2 ^ 255 - 19`. -/
def modulus : Nat := 0x7fffffffffffffffffffffffffffffffffffffffffffffffffffffffffffffed

/-- Clear the three low bits and the highest one, and set the highest but one. -/
def clamp (k : Bytes) : Bytes :=
  (k.modify 0 (· &&& 248)).modify 31 fun b => (b &&& 127) ||| 64

/-! ## The ladder -/

/-- The first coordinate of a point as the quotient of two numbers. -/
structure Coordinate where
  x : Int
  z : Int

namespace Coordinate

def double (a : Coordinate) : Coordinate :=
  let s := (a.x + a.z) * (a.x + a.z) % modulus
  let d := (a.x - a.z) * (a.x - a.z) % modulus
  let e := s - d
  ⟨s * d % modulus, e * (s + 121665 * e) % modulus⟩

/-- The sum of two points whose difference has the coordinate `u`. -/
def add (u : Int) (a b : Coordinate) : Coordinate :=
  let f := (a.x + a.z) * (b.x - b.z) % modulus
  let g := (a.x - a.z) * (b.x + b.z) % modulus
  ⟨(f + g) * (f + g) % modulus, (f - g) * (f - g) % modulus * u % modulus⟩

/-- The quotient; that by zero is zero. -/
def value (a : Coordinate) : Nat :=
  (a.x % modulus).toNat * Modular.inverse modulus (a.z % modulus).toNat % modulus

end Coordinate

/-- From a multiple of a point and the next one: twice the former and the next one, or, if the bit
is set, the one between the two and the next one. -/
def ladderStep (u : Int) (s : Coordinate × Coordinate) (bit : Bool) : Coordinate × Coordinate :=
  let sum := s.1.add u s.2
  if bit then (sum, s.2.double) else (s.1.double, sum)

/-- The coordinate of the multiple by `k` of the point with the coordinate `u`. -/
def ladder (k u : Nat) : Nat :=
  ((Modular.bits 255 k).foldl (ladderStep u) (⟨1, 0⟩, ⟨u, 1⟩)).1.value

/-! ## Keys -/

/-- The multiple of a point by a scalar. The highest bit of the point is ignored. -/
def multiply (scalar point : Bytes) : Bytes :=
  .ofNatLE keyLen (ladder (clamp scalar).toNatLE (Bytes.toNatLE (point.modify 31 (· &&& 127))))

@[simp] theorem length_multiply (scalar point : Bytes) : (multiply scalar point).length = keyLen :=
  Bytes.length_ofNatLE _ _

def publicKey (scalar : Bytes) : Bytes := multiply scalar (.ofNatLE keyLen 9)

@[simp] theorem length_publicKey (scalar : Bytes) : (publicKey scalar).length = keyLen :=
  length_multiply _ _

end SealedStream.X25519
