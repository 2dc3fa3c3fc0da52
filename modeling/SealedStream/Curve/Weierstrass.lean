import SealedStream.Bytes
import SealedStream.Curve.Modular
/-!
# Elliptic curves over prime fields

* `WeierstrassCurve` is a curve `y² = x³ + a x + b` with a base point of prime order.
* `CurvePoint` is a point of a curve; `WeierstrassCurve.multiply` is the multiple of one. It is
  computed in Jacobian coordinates, which take a single division.
* `WeierstrassCurve.encode` and `WeierstrassCurve.decode?` are the octet strings of SEC 1.
-/
namespace SealedStream

/-- A curve over the integers modulo `p`, which is 3 modulo 4. -/
structure WeierstrassCurve where
  p : Nat
  a : Nat
  b : Nat
  baseX : Nat
  baseY : Nat
  order : Nat
  /-- The number of octets of a coordinate and of a scalar. -/
  width : Nat
  one_lt_order : 1 < order := by decide
  deriving DecidableEq, Repr

/-- A point of a curve. -/
inductive CurvePoint where
  | infinity
  | affine (x y : Nat)
  deriving DecidableEq, Repr

/-! ## Jacobian coordinates -/

/-- The point `(x / z², y / z³)`, at infinity if `z` is zero. -/
structure JacobianPoint where
  x : Int
  y : Int
  z : Int

namespace WeierstrassCurve
variable (c : WeierstrassCurve)

def double (q : JacobianPoint) : JacobianPoint :=
  let yy := q.y * q.y % c.p
  let zz := q.z * q.z % c.p
  let s := 4 * q.x * yy % c.p
  let m := (3 * q.x * q.x + c.a * zz * zz) % c.p
  let x := (m * m - 2 * s) % c.p
  ⟨x, (m * (s - x) - 8 * yy * yy) % c.p, 2 * q.y * q.z % c.p⟩

def add (q r : JacobianPoint) : JacobianPoint :=
  if q.z = 0 then r
  else if r.z = 0 then q
  else
    let qq := q.z * q.z % c.p
    let rr := r.z * r.z % c.p
    let u := q.x * rr % c.p
    let s := q.y * r.z * rr % c.p
    let h := (r.x * qq - u) % c.p
    let d := (r.y * q.z * qq - s) % c.p
    if h = 0 then if d = 0 then c.double q else ⟨1, 1, 0⟩
    else
      let hh := h * h % c.p
      let hhh := h * hh % c.p
      let v := u * hh % c.p
      let x := (d * d - hhh - 2 * v) % c.p
      ⟨x, (d * (v - x) - s * hhh) % c.p, q.z * r.z * h % c.p⟩

def toJacobian : CurvePoint → JacobianPoint
  | .infinity => ⟨1, 1, 0⟩
  | .affine x y => ⟨x, y, 1⟩

def ofJacobian (q : JacobianPoint) : CurvePoint :=
  if q.z = 0 then .infinity
  else
    let i : Int := Modular.inverse c.p q.z.toNat
    let ii := i * i % c.p
    .affine (q.x * ii % c.p).toNat (q.y * ii * i % c.p).toNat

/-! ## Multiples -/

def multiply (k : Nat) (q : CurvePoint) : CurvePoint :=
  let q := toJacobian q
  c.ofJacobian <| (Modular.bits (k.log2 + 1) k).foldl
    (fun r bit => if bit then c.add (c.double r) q else c.double r) ⟨1, 1, 0⟩

def base : CurvePoint := .affine c.baseX c.baseY

def publicPoint (k : Nat) : CurvePoint := c.multiply k c.base

def isScalar (k : Nat) : Bool := 0 < k && k < c.order

/-- A number that multiplies the base point to a point that is not at infinity. -/
def Scalar : Type := { k : Nat // c.isScalar k }

instance : Inhabited c.Scalar := ⟨1, by simp [isScalar, c.one_lt_order]⟩

/-! ## Octet strings -/

def square (x : Nat) : Nat := (x * x * x + c.a * x + c.b) % c.p

/-- A point as octets: both coordinates behind a tag. -/
def encode : CurvePoint → Bytes
  | .infinity => [0]
  | .affine x y => 4 :: (Bytes.ofNatBE c.width x ++ Bytes.ofNatBE c.width y)

/-- A coordinate, which is less than the modulus. -/
def coordinate? (bs : Bytes) : Option Nat :=
  let x := bs.toNatBE
  if bs.length = c.width ∧ x < c.p then some x else none

/-- The point with the coordinate `x` whose other one is chosen from the two possible ones, `y` and
`p - y`. -/
def lift? (x : Nat) (choose : Nat → Nat → Nat) : Option CurvePoint := do
  let y ← Modular.sqrt? c.p (c.square x)
  return .affine x (choose y ((c.p - y) % c.p))

/-- The point that octets tell, at infinity excepted. The tag 4 stands before both coordinates; 2
and 3 stand before the first one if the other one is even or odd, and 5 if it is the lesser one. -/
def decode? : Bytes → Option CurvePoint
  | [] => none
  | tag :: bs =>
    if tag = 4 then do
      let x ← c.coordinate? (bs.take c.width)
      let y ← c.coordinate? (bs.drop c.width)
      if y * y % c.p = c.square x then some (.affine x y) else none
    else if tag = 2 ∨ tag = 3 then do
      let x ← c.coordinate? bs
      c.lift? x fun y y' => if y % 2 = tag.toNat - 2 then y else y'
    else if tag = 5 then do
      let x ← c.coordinate? bs
      c.lift? x min
    else none

/-! ## The curves of FIPS 186 -/

/-- A curve with the coefficient `a = -3`. -/
def ofPrime (p b baseX baseY order width : Nat) (h : 1 < order := by decide) : WeierstrassCurve :=
  { p, a := p - 3, b, baseX, baseY, order, width, one_lt_order := h }

/-- The curve P-256 over the integers modulo `2 ^ 256 - 2 ^ 224 + 2 ^ 192 + 2 ^ 96 - 1`. -/
def p256 : WeierstrassCurve := ofPrime
  0xffffffff00000001000000000000000000000000ffffffffffffffffffffffff
  0x5ac635d8aa3a93e7b3ebbd55769886bc651d06b0cc53b0f63bce3c3e27d2604b
  0x6b17d1f2e12c4247f8bce6e563a440f277037d812deb33a0f4a13945d898c296
  0x4fe342e2fe1a7f9b8ee7eb4a7c0f9e162bce33576b315ececbb6406837bf51f5
  0xffffffff00000000ffffffffffffffffbce6faada7179e84f3b9cac2fc632551
  32

/-- The curve P-384 over the integers modulo `2 ^ 384 - 2 ^ 128 - 2 ^ 96 + 2 ^ 32 - 1`. -/
def p384 : WeierstrassCurve := ofPrime
  0xfffffffffffffffffffffffffffffffffffffffffffffffffffffffffffffffeffffffff0000000000000000ffffffff
  0xb3312fa7e23ee7e4988e056be3f82d19181d9c6efe8141120314088f5013875ac656398d8a2ed19d2a85c8edd3ec2aef
  0xaa87ca22be8b05378eb1c71ef320ad746e1d3b628ba79b9859f741e082542a385502f25dbf55296c3a545e3872760ab7
  0x3617de4a96262c6f5d9e98bf9292dc29f8f41dbd289a147ce9da3113b5f0b8c00a60b1ce1d7e819d7a431d7c90ea0e5f
  0xffffffffffffffffffffffffffffffffffffffffffffffffc7634d81f4372ddf581a0db248b0a77aecec196accc52973
  48

/-- The curve P-521 over the integers modulo `2 ^ 521 - 1`. -/
def p521 : WeierstrassCurve := ofPrime
  0x1ffffffffffffffffffffffffffffffffffffffffffffffffffffffffffffffffffffffffffffffffffffffffffffffffffffffffffffffffffffffffffffffffff
  0x051953eb9618e1c9a1f929a21a0b68540eea2da725b99b315f3b8b489918ef109e156193951ec7e937b1652c0bd3bb1bf073573df883d2c34f1ef451fd46b503f00
  0xc6858e06b70404e9cd9e3ecb662395b4429c648139053fb521f828af606b4d3dbaa14b5e77efe75928fe1dc127a2ffa8de3348b3c1856a429bf97e7e31c2e5bd66
  0x11839296a789a3bc0045c8a5fb42c7d1bd998f54449579b446817afbd17273e662c97ee72995ef42640c550b9013fad0761353c7086a272c24088be94769fd16650
  0x1fffffffffffffffffffffffffffffffffffffffffffffffffffffffffffffffffa51868783bf2f966b7fcc0148f709a5d03bb5c9b8899c47aebb6fb71e91386409
  66

end WeierstrassCurve

end SealedStream
