import Mathlib
import SealedStream.Curve.Weierstrass
import SealedStream.Proofs.Curve.Powers
import SealedStream.Proofs.Numerals
/-!
# The group of a curve

Jacobian coordinates stand for points of a curve over a field in which the modulus is zero, and
doubling and adding them are what they are called in the group of the curve.

* `WeierstrassCurve.Represents` ties coordinates to a point. `Represents.double` and
  `Represents.sum` also hold where the modulus is no prime, as long as no last coordinate gets zero;
  `Represents.add` is about prime moduli and any two points.
* `WeierstrassCurve.multiply_coordinates`: multiples are multiples in the group.
* `WeierstrassCurve.Valid` is what a key exchange takes for granted of a curve. From it follows that
  products do not depend on who multiplies first (`Valid.multiply_comm`), and that multiples of the
  base point are read back (`Valid.decode?_encode_publicPoint`).
-/
namespace SealedStream.WeierstrassCurve

open WeierstrassCurve.Affine

/-- The curve over a field in which the modulus of the curve is zero. -/
@[simps]
def toAffine (c : WeierstrassCurve) (F : Type) [Field F] : WeierstrassCurve.Affine F :=
  ⟨0, 0, 0, c.a, c.b⟩

/-! ## Addition without tests -/

/-- How far two points differ in their first coordinates, as a multiple of both scales. -/
def run (c : WeierstrassCurve) (q r : JacobianPoint) : Int :=
  (r.x * (q.z * q.z % c.p) - q.x * (r.z * r.z % c.p) % c.p) % c.p

/-- How far two points differ in their second coordinates. -/
def rise (c : WeierstrassCurve) (q r : JacobianPoint) : Int :=
  (r.y * q.z * (q.z * q.z % c.p) - q.y * r.z * (r.z * r.z % c.p) % c.p) % c.p

/-- The sum of two points with different first coordinates. -/
def sum (c : WeierstrassCurve) (q r : JacobianPoint) : JacobianPoint :=
  let rr := r.z * r.z % c.p
  let u := q.x * rr % c.p
  let s := q.y * r.z * rr % c.p
  let h := c.run q r
  let d := c.rise q r
  let hh := h * h % c.p
  let hhh := h * hh % c.p
  let v := u * hh % c.p
  let x := (d * d - hhh - 2 * v) % c.p
  ⟨x, (d * (v - x) - s * hhh) % c.p, q.z * r.z * h % c.p⟩

theorem add_of_z_ne_zero {c : WeierstrassCurve} {q r : JacobianPoint} (hq : q.z ≠ 0)
    (hr : r.z ≠ 0) :
    c.add q r = if c.run q r = 0 then if c.rise q r = 0 then c.double q else ⟨1, 1, 0⟩
      else c.sum q r := by
  rw [add, if_neg hq, if_neg hr]
  rfl

section
variable {c : WeierstrassCurve} {F : Type} [Field F]

theorem negY_toAffine (x y : F) : (c.toAffine F).negY x y = -y := by
  simp

theorem addX_toAffine (x₁ x₂ l : F) : (c.toAffine F).addX x₁ x₂ l = l ^ 2 - x₁ - x₂ := by
  simp

theorem addY_toAffine (x₁ x₂ y₁ l : F) :
    (c.toAffine F).addY x₁ x₂ y₁ l = -(l * (l ^ 2 - x₁ - x₂ - x₁) + y₁) := by
  simp [addY]

section
variable (hp : (c.p : F) = 0)
include hp

/-- A point whose coordinates solve the equation is one of the curve, if it is not its own
opposite. -/
theorem nonsingular_of_square {x y : Nat} (hy : (2 * y : F) ≠ 0)
    (h : y * y % c.p = c.square x) : (c.toAffine F).Nonsingular x y := by
  have h := congrArg (fun n : Nat => ((n : Int) : F)) h
  simp only [square, Int.natCast_emod, Modular.cast_emod hp] at h
  push_cast at h
  rw [nonsingular_iff', equation_iff]
  simp only [toAffine_a₁, toAffine_a₂, toAffine_a₃, toAffine_a₄, toAffine_a₆]
  exact ⟨by linear_combination h, .inr (by simpa using hy)⟩

theorem cast_double (q : JacobianPoint) :
    let m : F := 3 * q.x ^ 2 + c.a * q.z ^ 4
    let x : F := m ^ 2 - 8 * q.x * q.y ^ 2
    ((c.double q).x : F) = x ∧
      ((c.double q).y : F) = m * (4 * q.x * q.y ^ 2 - x) - 8 * q.y ^ 4 ∧
      ((c.double q).z : F) = 2 * q.y * q.z := by
  simp only [double, Modular.cast_emod hp, Int.cast_mul, Int.cast_sub, Int.cast_add, Int.cast_ofNat,
    Int.cast_natCast]
  exact ⟨by ring, by ring, trivial⟩

theorem cast_run (q r : JacobianPoint) : (c.run q r : F) = r.x * q.z ^ 2 - q.x * r.z ^ 2 := by
  simp only [run, Modular.cast_emod hp, Int.cast_mul, Int.cast_sub]
  ring

theorem cast_rise (q r : JacobianPoint) : (c.rise q r : F) = r.y * q.z ^ 3 - q.y * r.z ^ 3 := by
  simp only [rise, Modular.cast_emod hp, Int.cast_mul, Int.cast_sub]
  ring

theorem cast_sum (q r : JacobianPoint) :
    let u : F := q.x * r.z ^ 2
    let h : F := c.run q r
    let d : F := c.rise q r
    let x : F := d ^ 2 - h ^ 3 - 2 * u * h ^ 2
    ((c.sum q r).x : F) = x ∧
      ((c.sum q r).y : F) = d * (u * h ^ 2 - x) - q.y * r.z ^ 3 * h ^ 3 ∧
      ((c.sum q r).z : F) = q.z * r.z * h := by
  simp only [sum, Modular.cast_emod hp, Int.cast_mul, Int.cast_sub, Int.cast_ofNat]
  exact ⟨by ring, by ring, trivial⟩

end

theorem emod_p_eq_zero_iff [CharP F c.p] (v : Int) :
    v % c.p = 0 ↔ ((v % c.p : Int) : F) = 0 := by
  rw [Modular.cast_emod (CharP.cast_eq_zero F c.p), CharP.intCast_eq_zero_iff F c.p,
    Int.dvd_iff_emod_eq_zero]

/-- The coordinates of a point of the curve. The last one is zero at infinity only, and there it is
zero as a number. -/
inductive Represents : JacobianPoint → (c.toAffine F).Point → Prop where
  | zero {q : JacobianPoint} (hz : q.z = 0) : Represents q 0
  | some {q : JacobianPoint} {x y : F} (h : (c.toAffine F).Nonsingular x y) (hpos : 0 ≤ q.z)
    (hz : (q.z : F) ≠ 0) (hx : (q.x : F) = x * q.z ^ 2) (hy : (q.y : F) = y * q.z ^ 3) :
    Represents q (.some x y h)

theorem Represents.z_eq_zero_iff {q : JacobianPoint} {Q : (c.toAffine F).Point}
    (h : Represents q Q) : q.z = 0 ↔ Q = 0 := by
  cases h with
  | zero hz => simp [hz]
  | some h _ hz =>
    have hne : q.z ≠ 0 := by
      intro h₀
      simp [h₀] at hz
    simp [hne]

section
variable [DecidableEq F] [NeZero c.p] {q r : JacobianPoint} {Q R : (c.toAffine F).Point}

theorem emod_p_nonneg (v : Int) : 0 ≤ v % c.p :=
  Int.emod_nonneg v (Nat.cast_ne_zero.2 (NeZero.ne c.p))

/-- **Doubling is doubling**, unless the last coordinate gets zero in the field only. -/
theorem Represents.double (hp : (c.p : F) = 0) (h₂ : (2 : F) ≠ 0) (h : Represents q Q)
    (hz : (c.double q).z = 0 ∨ ((c.double q).z : F) ≠ 0) : Represents (c.double q) (Q + Q) := by
  obtain ⟨hx₃, hy₃, hz₃⟩ := cast_double hp q
  cases h with
  | zero hz =>
    rw [add_zero]
    exact .zero (by simp [WeierstrassCurve.double, hz])
  | @some x y h _ hz₁ hx hy =>
    rw [hy] at hz₃
    by_cases hy₀ : y = 0
    · rw [Point.add_self_of_Y_eq (by simp [hy₀])]
      refine .zero (hz.resolve_right ?_)
      simp [hz₃, hy₀]
    · have hyy : 2 * y ≠ 0 := mul_ne_zero h₂ hy₀
      have hne : y ≠ (c.toAffine F).negY x y := by
        rw [negY_toAffine]
        intro h
        exact hyy (by linear_combination h)
      rw [Point.add_self_of_Y_ne hne]
      -- The slope of the tangent takes the place of the coefficient of the curve.
      obtain ⟨l, hl⟩ : ∃ l, (c.toAffine F).slope x x y y = l := ⟨_, rfl⟩
      have ha : (c.a : F) = l * (2 * y) - 3 * x ^ 2 := by
        rw [← hl, slope_of_Y_ne rfl hne, negY_toAffine, sub_neg_eq_add, ← two_mul,
          div_mul_cancel₀ _ hyy]
        simp
      refine .some _ (emod_p_nonneg _) ?_ ?_ ?_
      · rw [hz₃]
        simp [h₂, hy₀, hz₁]
      · rw [hx₃, hz₃, addX_toAffine, hl, hx, hy, ha]
        ring
      · rw [hy₃, hz₃, addY_toAffine, hl, hx, hy, ha]
        ring

/-- **The sum is the sum**, unless the last coordinate gets zero. -/
theorem Represents.sum (hp : (c.p : F) = 0) (hq : Represents q Q) (hr : Represents r R)
    (hz : ((c.sum q r).z : F) ≠ 0) : Represents (c.sum q r) (Q + R) := by
  obtain ⟨hx₃, hy₃, hz₃⟩ := cast_sum hp q r
  rw [cast_run hp, cast_rise hp] at hx₃ hy₃
  rw [cast_run hp] at hz₃
  cases hq with
  | zero hz₁ => simp [hz₃, hz₁] at hz
  | @some x₁ y₁ h₁ _ hz₁ hx₁ hy₁ =>
  cases hr with
  | zero hz₂ => simp [hz₃, hz₂] at hz
  | @some x₂ y₂ h₂ _ hz₂ hx₂ hy₂ =>
    have hne : x₁ ≠ x₂ := by
      rintro rfl
      rw [hz₃, hx₁, hx₂] at hz
      exact hz (by ring)
    rw [Point.add_of_X_ne hne]
    obtain ⟨l, hl⟩ : ∃ l, (c.toAffine F).slope x₁ x₂ y₁ y₂ = l := ⟨_, rfl⟩
    have hy : y₂ = y₁ - l * (x₁ - x₂) := by
      rw [← hl, slope_of_X_ne hne, div_mul_cancel₀ _ (sub_ne_zero.2 hne), sub_sub_cancel]
    refine .some _ (emod_p_nonneg _) hz ?_ ?_
    · rw [hx₃, hz₃, addX_toAffine, hl, hx₁, hy₁, hx₂, hy₂, hy]
      ring
    · rw [hy₃, hz₃, addY_toAffine, hl, hx₁, hy₁, hx₂, hy₂, hy]
      ring

/-! ## Addition -/

section
variable [CharP F c.p]

theorem Represents.twice (h₂ : (2 : F) ≠ 0) (h : Represents q Q) :
    Represents (c.double q) (Q + Q) := by
  refine h.double (CharP.cast_eq_zero F c.p) h₂ ?_
  rw [WeierstrassCurve.double]
  dsimp only
  rw [emod_p_eq_zero_iff (F := F)]
  exact em _

/-- **Addition is addition.** -/
theorem Represents.add (h₂ : (2 : F) ≠ 0) (hq : Represents q Q) (hr : Represents r R) :
    Represents (c.add q r) (Q + R) := by
  have hp : (c.p : F) = 0 := CharP.cast_eq_zero F c.p
  by_cases hq₀ : q.z = 0
  · rwa [WeierstrassCurve.add, if_pos hq₀, hq.z_eq_zero_iff.1 hq₀, zero_add]
  by_cases hr₀ : r.z = 0
  · rwa [WeierstrassCurve.add, if_neg hq₀, if_pos hr₀, hr.z_eq_zero_iff.1 hr₀, add_zero]
  rw [add_of_z_ne_zero hq₀ hr₀]
  have hdouble := hq.twice h₂
  have hsum := hq.sum hp hr
  cases hq with
  | zero hz₁ => exact absurd hz₁ hq₀
  | @some x₁ y₁ h₁ _ hz₁ hx₁ hy₁ =>
  cases hr with
  | zero hz₂ => exact absurd hz₂ hr₀
  | @some x₂ y₂ h₂ _ hz₂ hx₂ hy₂ =>
    have hz := mul_ne_zero hz₁ hz₂
    by_cases hrun : c.run q r = 0
    · have hx₀ := (emod_p_eq_zero_iff (F := F) _).1 hrun
      rw [← run, cast_run hp, hx₁, hx₂] at hx₀
      obtain rfl : x₁ = x₂ := by
        refine mul_right_cancel₀ (pow_ne_zero 2 hz) ?_
        linear_combination -hx₀
      rw [if_pos hrun]
      by_cases hrise : c.rise q r = 0
      · have hy₀ := (emod_p_eq_zero_iff (F := F) _).1 hrise
        rw [← rise, cast_rise hp, hy₁, hy₂] at hy₀
        obtain rfl : y₁ = y₂ := by
          refine mul_right_cancel₀ (pow_ne_zero 3 hz) ?_
          linear_combination -hy₀
        rw [if_pos hrise]
        exact hdouble
      · have hy : y₁ = (c.toAffine F).negY x₁ y₂ := by
          refine (Y_eq_of_X_eq h₁.1 h₂.1 rfl).resolve_left ?_
          rintro rfl
          refine hrise ((emod_p_eq_zero_iff (F := F) _).2 ?_)
          rw [← rise, cast_rise hp, hy₁, hy₂]
          ring
        rw [if_neg hrise, Point.add_of_Y_eq rfl hy]
        exact .zero rfl
    · rw [if_neg hrun]
      refine hsum ?_
      rw [(cast_sum hp q r).2.2]
      exact mul_ne_zero hz ((emod_p_eq_zero_iff (F := F) _).not.1 hrun)

/-! ## Multiples -/

theorem Represents.multiply (h₂ : (2 : F) ≠ 0) {q : CurvePoint}
    (hq : Represents (toJacobian q) Q) (k : Nat) :
    Represents ((Modular.bits (k.log2 + 1) k).foldl (fun r bit =>
      if bit then c.add (c.double r) (toJacobian q) else c.double r) ⟨1, 1, 0⟩) (k • Q) := by
  refine @Modular.foldl_bits_log2 _ (fun m r => Represents r (m • Q)) _ ?_ k _ ?_
  · intro m r b hr
    have hd := hr.twice h₂
    rw [← two_nsmul, ← mul_nsmul'] at hd
    cases b with
    | false => simpa using hd
    | true => simpa [add_nsmul] using hd.add h₂ hq
  · rw [zero_nsmul]
    exact .zero rfl

end

end

end

theorem two_ne_zero_of_lt {c : WeierstrassCurve} (h : 2 < c.p) : (2 : ZMod c.p) ≠ 0 := by
  exact_mod_cast (ZMod.natCast_eq_zero_iff 2 c.p).not.2 (Nat.not_dvd_of_pos_of_lt two_pos h)

section
variable {c : WeierstrassCurve} [Fact c.p.Prime]

/-- The coordinates of a point over the integers modulo the modulus of the curve. -/
def coordinates : (c.toAffine (ZMod c.p)).Point → CurvePoint
  | .zero => .infinity
  | .some x y _ => .affine x.val y.val

theorem coordinates_eq_infinity {Q : (c.toAffine (ZMod c.p)).Point} :
    coordinates Q = .infinity ↔ Q = 0 := by
  cases Q <;> simp [coordinates, Point.zero_def]

theorem represents_coordinates (Q : (c.toAffine (ZMod c.p)).Point) :
    Represents (toJacobian (coordinates Q)) Q := by
  cases Q with
  | zero => exact .zero rfl
  | some x y h =>
    refine .some h (by simp [toJacobian, coordinates]) ?_ ?_ ?_ <;> simp [toJacobian, coordinates]

theorem Represents.ofJacobian (h : c.p ≠ 2) {q : JacobianPoint}
    {Q : (c.toAffine (ZMod c.p)).Point} (hq : Represents q Q) :
    c.ofJacobian q = coordinates Q := by
  cases hq with
  | zero hz =>
    rw [WeierstrassCurve.ofJacobian, if_pos hz]
    rfl
  | @some x y h₁ hpos hz hx hy =>
    have hne : q.z ≠ 0 := by
      intro h₀
      simp [h₀] at hz
    have hcast : ((q.z.toNat : Nat) : ZMod c.p) = q.z := by
      rw [← Int.cast_natCast, Int.toNat_of_nonneg hpos]
    have hval {v : Int} {a : ZMod c.p} (h : (v : ZMod c.p) = a) : (v % c.p).toNat = a.val := by
      rw [← h, ← ZMod.val_intCast, Int.toNat_natCast]
    rw [WeierstrassCurve.ofJacobian, if_neg hne, coordinates]
    dsimp only
    congr 1
    · refine hval ?_
      simp only [Int.cast_mul, ZMod.intCast_mod, Int.cast_natCast, Modular.cast_inverse h, hcast,
        hx]
      field_simp
    · refine hval ?_
      simp only [Int.cast_mul, ZMod.intCast_mod, Int.cast_natCast, Modular.cast_inverse h, hcast,
        hy]
      field_simp

/-- **Multiples are multiples.** -/
theorem multiply_coordinates (h : 2 < c.p) (k : Nat) (Q : (c.toAffine (ZMod c.p)).Point) :
    c.multiply k (coordinates Q) = coordinates (k • Q) :=
  ((represents_coordinates Q).multiply (two_ne_zero_of_lt h) k).ofJacobian h.ne'

/-- Points are read back from their octets, that at infinity excepted. -/
theorem decode?_encode (h : c.p ≤ 256 ^ c.width)
    {Q : (c.toAffine (ZMod c.p)).Point} (hQ : Q ≠ 0) :
    c.decode? (c.encode (coordinates Q)) = some (coordinates Q) := by
  cases Q with
  | zero => exact absurd rfl hQ
  | some x y hxy =>
    have hcoord (v : ZMod c.p) : c.coordinate? (Bytes.ofNatBE c.width v.val) = some v.val := by
      have hlt := ZMod.val_lt v
      rw [coordinate?, Bytes.length_ofNatBE, Bytes.toNatBE_ofNatBE (hlt.trans_le h)]
      exact if_pos ⟨rfl, hlt⟩
    have hcurve : y.val * y.val % c.p = c.square x.val := by
      have he := (equation_iff _ _).1 hxy.1
      simp only [toAffine_a₁, toAffine_a₂, toAffine_a₃, toAffine_a₄, toAffine_a₆] at he
      refine (ZMod.natCast_eq_natCast_iff' _ _ _).1 ?_
      push_cast [ZMod.natCast_zmod_val]
      linear_combination he
    simp [coordinates, encode, decode?, hcoord, hcurve]

end

/-! ## Curves for a key exchange -/

theorem isScalar_iff {c : WeierstrassCurve} {k : Nat} :
    c.isScalar k = true ↔ 0 < k ∧ k < c.order := by
  simp only [isScalar, Bool.and_eq_true, decide_eq_true_eq]

/-- What a key exchange takes for granted of a curve: that it is one over a prime field, and that
the base point has a prime order. -/
structure Valid (c : WeierstrassCurve) : Prop where
  prime : c.p.Prime
  two_lt : 2 < c.p
  le_width : c.p ≤ 256 ^ c.width
  baseX_lt : c.baseX < c.p
  baseY_lt : c.baseY < c.p
  baseY_pos : 0 < c.baseY
  base_mem : c.baseY * c.baseY % c.p = c.square c.baseX
  prime_order : c.order.Prime
  order_le_width : c.order ≤ 256 ^ c.width
  multiply_order : c.publicPoint c.order = .infinity

/-- All of that but the primes. -/
def checked (c : WeierstrassCurve) : Bool :=
  2 < c.p && c.p ≤ 256 ^ c.width && c.order ≤ 256 ^ c.width && c.baseX < c.p && c.baseY < c.p &&
    0 < c.baseY && c.baseY * c.baseY % c.p == c.square c.baseX &&
    c.publicPoint c.order == .infinity

namespace Valid
variable {c : WeierstrassCurve}

theorem of_checked (hp : c.p.Prime) (hn : c.order.Prime) (h : c.checked = true) : c.Valid := by
  simp only [checked, Bool.and_eq_true, decide_eq_true_eq, beq_iff_eq] at h
  obtain ⟨⟨⟨⟨⟨⟨⟨h₂, hp'⟩, hn'⟩, hx⟩, hy⟩, hy₀⟩, hmem⟩, hord⟩ := h
  exact ⟨hp, h₂, hp', hx, hy, hy₀, hmem, hn, hn', hord⟩

theorem exists_base [hp : Fact c.p.Prime] (hc : c.Valid) :
    ∃ G : (c.toAffine (ZMod c.p)).Point,
      addOrderOf G = c.order ∧ ∀ k, c.publicPoint k = coordinates (k • G) := by
  have := Fact.mk hc.prime_order
  have h₂ := two_ne_zero_of_lt hc.two_lt
  have hy : (c.baseY : ZMod c.p) ≠ 0 := (ZMod.natCast_eq_zero_iff _ _).not.2
    (Nat.not_dvd_of_pos_of_lt hc.baseY_pos hc.baseY_lt)
  have hns := nonsingular_of_square (ZMod.natCast_self c.p) (mul_ne_zero h₂ hy) hc.base_mem
  have hbase : c.base = coordinates (.some _ _ hns) := by
    rw [base, coordinates, ZMod.val_natCast_of_lt hc.baseX_lt, ZMod.val_natCast_of_lt hc.baseY_lt]
  have hpub (k : Nat) : c.publicPoint k = coordinates (k • .some _ _ hns) := by
    rw [publicPoint, hbase, multiply_coordinates hc.two_lt]
  refine ⟨.some _ _ hns, addOrderOf_eq_prime ?_ (Point.some_ne_zero hns), hpub⟩
  rw [← coordinates_eq_infinity, ← hpub]
  exact hc.multiply_order

theorem multiply_comm (hc : c.Valid) (j k : Nat) :
    c.multiply j (c.publicPoint k) = c.multiply k (c.publicPoint j) := by
  have := Fact.mk hc.prime
  obtain ⟨G, -, hG⟩ := hc.exists_base
  rw [hG, hG, multiply_coordinates hc.two_lt, multiply_coordinates hc.two_lt, smul_comm]

theorem decode?_encode_publicPoint (hc : c.Valid) {k : Nat} (hk : c.isScalar k = true) :
    c.decode? (c.encode (c.publicPoint k)) = some (c.publicPoint k) := by
  have := Fact.mk hc.prime
  obtain ⟨G, hord, hG⟩ := hc.exists_base
  rw [hG]
  refine decode?_encode hc.le_width ?_
  intro h
  obtain ⟨hpos, hlt⟩ := isScalar_iff.1 hk
  exact Nat.not_dvd_of_pos_of_lt hpos hlt (hord ▸ addOrderOf_dvd_of_nsmul_eq_zero h)

end Valid

end SealedStream.WeierstrassCurve
