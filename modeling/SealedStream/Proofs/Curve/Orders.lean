import Mathlib
import SealedStream.Proofs.Curve.Certificate
import SealedStream.Proofs.Curve.Weierstrass
/-!
# The orders of base points

A curve over a field with `s` elements has `2 * s + 1` points at most. If a point of a curve modulo
`n` has a prime order that is greater than twice the root of `n`, and if it has that order modulo
every prime divisor of `n`, then none of these is less than the root, and `n` is a prime. This proves
numbers prime whose predecessors cannot be factored far enough.

* `WeierstrassCurve.prime_of_certifies` is the criterion, `WeierstrassCurve.prime_order_521` the
  order it is needed for.
* `WeierstrassCurve.Valid` holds of the standard curves.
-/
namespace SealedStream.WeierstrassCurve

open WeierstrassCurve.Affine

/-! ## The number of points -/

section
variable {c : WeierstrassCurve} {s : Nat} [Fact s.Prime]

/-- The first coordinate of a point, and which of the two points with it. -/
def sign : (c.toAffine (ZMod s)).Point → Option (ZMod s × Bool)
  | .zero => none
  | .some x y _ => some (x, decide (y.val < (-y).val))

theorem sign_injective : Function.Injective (sign (c := c) (s := s)) := by
  intro P Q h
  cases P with
  | zero =>
    cases Q with
    | zero => rfl
    | some x₂ y₂ h₂ => cases h
  | some x₁ y₁ h₁ =>
    cases Q with
    | zero => cases h
    | some x₂ y₂ h₂ =>
      simp only [sign, Option.some.injEq, Prod.mk.injEq, decide_eq_decide] at h
      obtain ⟨rfl, hlt⟩ := h
      rcases Y_eq_of_X_eq h₁.1 h₂.1 rfl with rfl | hy
      · rfl
      · rw [negY_toAffine] at hy
        rw [hy, neg_neg] at hlt
        have hval : (-y₂).val = y₂.val := by omega
        have hneg := ZMod.val_injective s hval
        simp [hy, hneg]

theorem addOrderOf_le (Q : (c.toAffine (ZMod s)).Point) : addOrderOf Q ≤ 2 * s + 1 := by
  have := Finite.of_injective _ (sign_injective (c := c) (s := s))
  refine addOrderOf_le_card.trans ((Nat.card_le_card_of_injective _ sign_injective).trans_eq ?_)
  simp [Nat.card_eq_fintype_card, ZMod.card, Nat.mul_comm]

end

/-! ## The criterion -/

/-- A multiple of the base point of a curve, without any test. -/
def chain (c : WeierstrassCurve) (k : Nat) : JacobianPoint :=
  (Modular.bits k.log2 k).foldl
    (fun r bit => if bit then c.sum (c.double r) (toJacobian c.base) else c.double r)
    (toJacobian c.base)

/-- Does a curve show that its modulus is prime, if its order is? -/
def certifies (c : WeierstrassCurve) : Bool :=
  let r := c.chain (c.order - 1)
  1 < c.p && 4 * c.p < (c.order - 1) * (c.order - 1) &&
    Int.gcd (2 * c.baseY) c.p == 1 && c.baseY * c.baseY % c.p == c.square c.baseX &&
    Int.gcd r.z c.p == 1 && (r.x - c.baseX * r.z ^ 2) % c.p == 0 &&
    (r.y + c.baseY * r.z ^ 3) % c.p == 0

theorem Represents.chain {c : WeierstrassCurve} {F : Type} [Field F] [DecidableEq F] [NeZero c.p]
    (hp : (c.p : F) = 0) (h₂ : (2 : F) ≠ 0) {G : (c.toAffine F).Point}
    (hG : Represents (toJacobian c.base) G) {k : Nat} (hk : k ≠ 0)
    (hz : ((c.chain k).z : F) ≠ 0) : Represents (c.chain k) (k • G) := by
  refine @Modular.foldl_bits_of_ne_zero _ (fun m r => (r.z : F) ≠ 0 → Represents r (m • G))
    (fun r bit => if bit then c.sum (c.double r) (toJacobian c.base) else c.double r) ?_ k hk
    (toJacobian c.base) (fun _ => by rwa [one_nsmul]) hz
  intro m r b hr hz
  have hd (hz : ((c.double r).z : F) ≠ 0) : Represents (c.double r) ((2 * m) • G) := by
    rw [mul_nsmul', two_nsmul]
    refine (hr ?_).double hp h₂ (.inr hz)
    rw [(cast_double hp r).2.2] at hz
    exact right_ne_zero_of_mul hz
  cases b with
  | false => exact hd hz
  | true =>
    have hz' := hz
    rw [if_pos rfl, (cast_sum hp _ _).2.2] at hz'
    rw [Bool.toNat_true, add_nsmul, one_nsmul]
    exact (hd (left_ne_zero_of_mul (left_ne_zero_of_mul hz'))).sum hp hG hz

/-- Coordinates with the second one of the opposite sign are those of the opposite point. -/
theorem Represents.eq_neg {c : WeierstrassCurve} {F : Type} [Field F] {q : JacobianPoint}
    {Q : (c.toAffine F).Point} (hQ : Represents q Q) {x y : F} (h : (c.toAffine F).Nonsingular x y)
    (hz : (q.z : F) ≠ 0) (hx : (q.x : F) - x * q.z ^ 2 = 0) (hy : (q.y : F) + y * q.z ^ 3 = 0) :
    Q = -.some x y h := by
  cases hQ with
  | zero h₀ => simp [h₀] at hz
  | @some x₁ y₁ h₁ _ _ hx₁ hy₁ =>
    obtain rfl : x₁ = x := by
      refine mul_right_cancel₀ (pow_ne_zero 2 hz) ?_
      linear_combination hx - hx₁
    obtain rfl : y₁ = -y := by
      refine mul_right_cancel₀ (pow_ne_zero 3 hz) ?_
      linear_combination hy - hy₁
    simp

/-- The base point has its order modulo every prime divisor of the modulus. -/
theorem exists_addOrderOf {c : WeierstrassCurve} (hn : c.order.Prime) (h : c.certifies = true)
    {s : Nat} [hs : Fact s.Prime] (hsp : s ∣ c.p) :
    ∃ G : (c.toAffine (ZMod s)).Point, addOrderOf G = c.order := by
  simp only [certifies, Bool.and_eq_true, decide_eq_true_eq, beq_iff_eq] at h
  obtain ⟨⟨⟨⟨⟨⟨h₁, hlarge⟩, hbase⟩, hmem⟩, hz⟩, hx⟩, hy⟩ := h
  have := Fact.mk hn
  have := NeZero.mk (by omega : c.p ≠ 0)
  have hp : (c.p : ZMod s) = 0 := (ZMod.natCast_eq_zero_iff _ _).2 hsp
  have hzero {v : Int} (h : v % c.p = 0) : (v : ZMod s) = 0 := by
    rw [← Modular.cast_emod hp, h, Int.cast_zero]
  have hunit {v : Int} (h : Int.gcd v c.p = 1) : (v : ZMod s) ≠ 0 := by
    intro h₀
    have hdvd := Int.dvd_gcd ((ZMod.intCast_zmod_eq_zero_iff_dvd _ _).1 h₀)
      (Int.natCast_dvd_natCast.2 hsp)
    rw [h] at hdvd
    exact hs.out.one_lt.ne' (Nat.dvd_one.1 (by exact_mod_cast hdvd))
  have hy₂ : (2 * c.baseY : ZMod s) ≠ 0 := by exact_mod_cast hunit hbase
  have hns := nonsingular_of_square hp hy₂ hmem
  have hG : Represents (toJacobian c.base) (.some _ _ hns) :=
    .some hns (by simp [toJacobian, base]) (by simp [toJacobian, base])
      (by simp [toJacobian, base]) (by simp [toJacobian, base])
  have hne : c.order - 1 ≠ 0 := by
    intro h
    rw [h] at hlarge
    omega
  have hr := hG.chain hp (left_ne_zero_of_mul hy₂) hne (hunit hz)
  have hneg := hr.eq_neg hns (hunit hz) (by exact_mod_cast hzero hx) (by exact_mod_cast hzero hy)
  refine ⟨.some _ _ hns, addOrderOf_eq_prime ?_ (Point.some_ne_zero hns)⟩
  rw [← Nat.sub_add_cancel hn.one_lt.le, add_nsmul, hneg, one_nsmul, neg_add_cancel]

/-- **A point of large prime order proves the modulus prime.** -/
theorem prime_of_certifies {c : WeierstrassCurve} (hn : c.order.Prime) (h : c.certifies = true) :
    c.p.Prime := by
  have hc := h
  simp only [certifies, Bool.and_eq_true, decide_eq_true_eq] at hc
  obtain ⟨⟨⟨⟨⟨⟨h₁, hlarge⟩, -⟩, -⟩, -⟩, -⟩, -⟩ := hc
  by_contra hnp
  have := Fact.mk (Nat.minFac_prime h₁.ne')
  obtain ⟨G, hG⟩ := exists_addOrderOf hn h c.p.minFac_dvd
  have hle := addOrderOf_le G
  have hsq := Nat.minFac_sq_le_self (by omega) hnp
  rw [hG] at hle
  have hle : c.order - 1 ≤ 2 * c.p.minFac := by omega
  nlinarith

/-! ## The order of P-521 -/

/-- A curve modulo the order of P-521. -/
def certifying521 : WeierstrassCurve where
  p := p521.order
  a := 0x13662738c78a49560f39a2add1516cff124ffc0928808c4d2ee13f7ab5e4deda6488fa4c896bbd68a3248bf1075fe5f75d87407204beffe6146de51b1202af278f7
  b := 0x6cc4e718f1492ac1e73455ba2a2d9fe249ff8125101189a5dc27ef56bc9bdb4c96cdc309a9b87d7df911b21fa305b545e0ac5876df56607adf0133ab21c4ac8de5
  baseX := 0x14dbb33075fea66e1ddbb38f1afb142a4434e98d60081b89a96ff67bd144ae2310bd38dc0db2f6fa57a48a436144cb0fa2e992ba871027e3acc0cef96a1b81cd52e
  baseY := 0x10ce7f02a0abcf191a8b59c144032301e0ecf205fd6c8afe3a83acd0def0ac0314ae08df18802d5d7d1882f51a4c224fba85e1518c992f99de431bd1d1e4441896c
  order := 0x1db5cb2288ede429ce0fcfba2035174f5507e3dd26750e4626f598b58bef8f2b0f460fedd2f72713b926be809c5869a95c89d
  width := 66

/-- The order of the curve modulo that of P-521. -/
def certificates521 : List Certificate := [
  ⟨0xbbc79b, [15193]⟩,
  ⟨0x552ed328b53ad, [0xbbc79b, 780583]⟩,
  ⟨0x22308b4096bd5afd, [0x552ed328b53ad]⟩,
  ⟨0x239071d4e114022dc043c6f82c1a6b, [0x22308b4096bd5afd]⟩,
  ⟨0x446f45, [2531]⟩,
  ⟨0x335373d, [0x446f45]⟩,
  ⟨0x65de7e16dba4f, [0x335373d]⟩,
  ⟨0x12b26fb6d6570601f1d0c2fea0a04fdc5617eda2a6a14ce7ecacbacc970d,
    [0x239071d4e114022dc043c6f82c1a6b, 0x65de7e16dba4f]⟩,
  ⟨0x1db5cb2288ede429ce0fcfba2035174f5507e3dd26750e4626f598b58bef8f2b0f460fedd2f72713b926be809c5869a95c89d,
    [0x12b26fb6d6570601f1d0c2fea0a04fdc5617eda2a6a14ce7ecacbacc970d]⟩]

theorem prime_order_521 : p521.order.Prime := by
  have h : Certificate.validAll [] certificates521 = true := by decide +kernel
  have hn : certifying521.order.Prime :=
    Certificate.prime_of_validAll (by simp) h _ (by decide +kernel)
  have hc : certifying521.certifies = true := by decide +kernel
  exact prime_of_certifies hn hc

/-! ## The standard curves -/

/-- **The standard curves are valid.** -/
theorem valid_of_mem {c : WeierstrassCurve} (hc : c ∈ [p256, p384, p521]) : c.Valid := by
  simp only [List.mem_cons, List.not_mem_nil, or_false] at hc
  rcases hc with rfl | rfl | rfl
  · exact .of_checked prime_256.1 prime_256.2 (by decide +kernel)
  · exact .of_checked prime_384.1 prime_384.2 (by decide +kernel)
  · exact .of_checked prime_p_521 prime_order_521 (by decide +kernel)

end SealedStream.WeierstrassCurve
