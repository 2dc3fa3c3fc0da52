import Mathlib
import SealedStream.Proofs.Curve.Certificate
/-!
# Cubics without a root

A point whose second coordinate is zero is a root of the cubic `x³ + a x + b` of its curve. In a
field of `p` elements every element is equal to its power `p`. So there is no root if the remainder
of `x ^ p - x` modulo the cubic has an inverse modulo the cubic.

* `WeierstrassCurve.Remainder` are polynomials modulo the cubic of a curve; `Remainder.value_mul`
  and `Remainder.value_power` say what they are at a root.
* `WeierstrassCurve.square_ne_zero_of_mem`: the cubics of the standard curves have no root.
-/
namespace SealedStream.WeierstrassCurve

/-- A polynomial modulo a cubic: its coefficients, the constant one first. -/
structure Remainder where
  r₀ : Int
  r₁ : Int
  r₂ : Int
  deriving DecidableEq

namespace Remainder

/-- The product modulo the cubic of a curve, where `x³` is `-a x - b`. -/
def mul (c : WeierstrassCurve) (u v : Remainder) : Remainder :=
  let w₃ := u.r₁ * v.r₂ + u.r₂ * v.r₁
  let w₄ := u.r₂ * v.r₂
  ⟨(u.r₀ * v.r₀ - c.b * w₃) % c.p, (u.r₀ * v.r₁ + u.r₁ * v.r₀ - c.a * w₃ - c.b * w₄) % c.p,
    (u.r₀ * v.r₂ + u.r₁ * v.r₁ + u.r₂ * v.r₀ - c.a * w₄) % c.p⟩

/-- The remainder of `x ^ n`. -/
def power (c : WeierstrassCurve) (n : Nat) : Remainder :=
  (Modular.bits (n.log2 + 1) n).foldl
    (fun r bit => if bit then mul c (mul c r r) ⟨0, 1, 0⟩ else mul c r r) ⟨1, 0, 0⟩

/-- Is `v` an inverse of `x ^ p - x` modulo the cubic? -/
def excludesRoots (c : WeierstrassCurve) (v : Remainder) : Bool :=
  let r := power c c.p
  mul c { r with r₁ := r.r₁ - 1 } v == ⟨1, 0, 0⟩

section
variable {c : WeierstrassCurve} {F : Type} [Field F]

/-- The value of a polynomial. -/
def value (u : Remainder) (x : F) : F := u.r₀ + u.r₁ * x + u.r₂ * x ^ 2

variable (hp : (c.p : F) = 0) {x : F} (hx : x ^ 3 + c.a * x + c.b = 0)
include hp hx

theorem value_mul (u v : Remainder) : (mul c u v).value x = u.value x * v.value x := by
  simp only [value, mul, Modular.cast_emod hp, Int.cast_sub, Int.cast_add, Int.cast_mul,
    Int.cast_natCast]
  linear_combination -(u.r₁ * v.r₂ + u.r₂ * v.r₁ + u.r₂ * v.r₂ * x) * hx

theorem value_power (n : Nat) : (power c n).value x = x ^ n := by
  refine @Modular.foldl_bits_log2 _ (fun m (r : Remainder) => r.value x = x ^ m) _ ?_ n _ ?_
  · intro m r b hr
    have hsq : (mul c r r).value x = x ^ (2 * m) := by rw [value_mul hp hx, hr, two_mul, pow_add]
    have hone : value ⟨0, 1, 0⟩ x = x := by simp [value]
    cases b with
    | false => simpa using hsq
    | true =>
      rw [if_pos rfl, value_mul hp hx, hsq, hone, Bool.toNat_true, pow_succ]
  · simp [value]

end

/-- **A cubic with such an inverse has no root.** -/
theorem ne_zero_of_excludesRoots {c : WeierstrassCurve} [Fact c.p.Prime] {v : Remainder}
    (h : excludesRoots c v = true) (x : ZMod c.p) : x ^ 3 + c.a * x + c.b ≠ 0 := by
  intro hx
  have hp : (c.p : ZMod c.p) = 0 := ZMod.natCast_self c.p
  have hpower := value_power hp hx c.p
  rw [ZMod.pow_card] at hpower
  have hzero : value { power c c.p with r₁ := (power c c.p).r₁ - 1 } x = 0 := by
    rw [value] at hpower ⊢
    push_cast
    linear_combination hpower
  have hone := value_mul hp hx { power c c.p with r₁ := (power c c.p).r₁ - 1 } v
  rw [beq_iff_eq.1 h, hzero, zero_mul] at hone
  simp [value] at hone

end Remainder

/-! ## The standard curves -/

/-- What shows that the cubic of P-256 has no root. -/
def inverse256 : Remainder where
  r₀ := 0xa969487079f1744798bf0de6fded091b66e9d328eb0645fe5d979d1339b7f47f
  r₁ := 0xa4a08891884100c13323460107a8d28eede4387fa3e6e9bfebec9f6d72d0b5cc
  r₂ := 0x4cde11cf86cb876cd59cf0115813c55af0ecd3cda667d98bb9a347a56aa74a6d

/-- What shows that the cubic of P-384 has no root. -/
def inverse384 : Remainder where
  r₀ := 0x95adec811ebe8d4b9e2b41150d78f91a619189a415583b8f5e01888da3353b61765cde8cd6c12846310c3f0c10aae682
  r₁ := 0x3581b884702fb0931c541a5cacefbe3bea864db86e01e048170560418dca3aa8689f246d9d11ccd2e145532dd48491af
  r₂ := 0x4efcebfdccd7cb25d1b864228f0c32d3a83ec026134ae4753bdff5d3f1fa20b278b31dc3487beb792024fe436f36b43a

/-- What shows that the cubic of P-521 has no root. -/
def inverse521 : Remainder where
  r₀ := 0x19e72e5691af1c1f1d3f2591c5ad09ec28f1c524714ca75db089cdb9151ca2289840d94ce56793c78b66ef3540572cc405cdc465d82e1a6f69d82c27053ff163aa6
  r₁ := 0xc15e4c9246ef30c73585fc1a490df170ef8e757f1f37e7a6cde9349746d8493ebb31a91aea6f35b910d943c96ba37d442ea7bb6d45c60ec76150edba53d1fc8264
  r₂ := 0x124521c5a63d25338751ea837916053183423f151d92bf4710ef90df9f8ccdf063f99af3ab0f0bd1843a16afc69f16b49b9890c324999f97e8e4650532aea382f92

theorem exists_excludesRoots {c : WeierstrassCurve} (hc : c ∈ [p256, p384, p521]) :
    ∃ v, Remainder.excludesRoots c v = true := by
  simp only [List.mem_cons, List.not_mem_nil, or_false] at hc
  rcases hc with rfl | rfl | rfl
  · exact ⟨inverse256, by decide +kernel⟩
  · exact ⟨inverse384, by decide +kernel⟩
  · exact ⟨inverse521, by decide +kernel⟩

/-- **The cubics of the standard curves have no root**, so no point of them has a second coordinate
that is zero. -/
theorem square_ne_zero_of_mem {c : WeierstrassCurve} (hc : c ∈ [p256, p384, p521])
    (hp : c.p.Prime) (x : Nat) : c.square x ≠ 0 := by
  have := Fact.mk hp
  obtain ⟨v, hv⟩ := exists_excludesRoots hc
  intro h
  have hx := Remainder.ne_zero_of_excludesRoots hv x
  have h₀ : ((c.square x : Nat) : ZMod c.p) = 0 := by rw [h, Nat.cast_zero]
  rw [square, ZMod.natCast_mod] at h₀
  push_cast at h₀
  refine hx ?_
  linear_combination h₀

end SealedStream.WeierstrassCurve
