import Mathlib
import SealedStream.Curve.X25519
import SealedStream.Proofs.Curve.Certificate
import SealedStream.Proofs.Curve.Powers
import SealedStream.Proofs.Numerals
/-!
# The group of X25519

A quotient of two numbers stands for the first coordinate of a point of the curve, and the ladder
goes up through the multiples of the point.

* `Coordinate.Represents` ties a quotient to a point. `Represents.double` and `Represents.add` say
  that the formulas of the ladder double points and add two whose difference is known.
* `ladder_first`: the ladder multiplies. At zero, where the difference is of no use, it stays.
* `multiply_comm`: products do not depend on who multiplies first.
-/
namespace SealedStream.X25519

open WeierstrassCurve.Affine

/-- The curve over a field. -/
@[simps]
def curve (F : Type) [Field F] : WeierstrassCurve.Affine F := ⟨0, 486662, 0, 1, 0⟩

section
variable {F : Type} [Field F]

theorem eq_of_nonsingular {x y : F} (h : (curve F).Nonsingular x y) :
    y ^ 2 = x ^ 3 + 486662 * x ^ 2 + x := by
  simpa using (equation_iff _ _).1 h.1

variable [DecidableEq F]

/-! ## First coordinates -/

/-- The first coordinate of the double. -/
theorem exists_double {x y : F} (h : (curve F).Nonsingular x y) (hy : 2 * y ≠ 0) :
    ∃ x₂ y₂ h₂, Point.some x y h + .some x y h = .some x₂ y₂ h₂ ∧
      x₂ * (4 * y ^ 2) = (x ^ 2 - 1) ^ 2 := by
  have hne : y ≠ (curve F).negY x y := by
    simp only [negY, curve_a₁, curve_a₃]
    intro h
    exact hy (by linear_combination h)
  refine ⟨_, _, _, Point.add_self_of_Y_ne hne, ?_⟩
  have hl : (curve F).slope x x y y * (2 * y) = 3 * x ^ 2 + 2 * 486662 * x + 1 := by
    rw [slope_of_Y_ne rfl hne]
    simp only [negY, curve_a₁, curve_a₂, curve_a₃, curve_a₄]
    have hy₂ : y - (-y - 0 * x - 0) = 2 * y := by ring
    rw [hy₂, div_mul_cancel₀ _ hy]
    ring
  have hE := eq_of_nonsingular h
  simp only [addX, curve_a₁, curve_a₂]
  have hsq : (curve F).slope x x y y ^ 2 * (4 * y ^ 2) = (3 * x ^ 2 + 2 * 486662 * x + 1) ^ 2 := by
    rw [← hl]
    ring
  linear_combination hsq - 4 * (486662 + 2 * x) * hE

/-- Where a point and its opposite differ by a point that is not at zero, the square of the first
coordinate is not one. -/
theorem sq_sub_one_ne_zero_of_add_eq_neg {x y u v : F} {h : (curve F).Nonsingular x y}
    {hP : (curve F).Nonsingular u v} (hu : u ≠ 0)
    (hQ : Point.some x y h + .some u v hP = -.some x y h) : x ^ 2 - 1 ≠ 0 := by
  have hP' : Point.some u v hP = -(.some x y h + .some x y h) := by
    rw [neg_add, eq_neg_add_iff_add_eq, hQ]
  have hy : 2 * y ≠ 0 := by
    intro hy
    rw [Point.add_self_of_Y_eq, neg_zero] at hP'
    · exact absurd hP' (Point.some_ne_zero _)
    · simp only [negY, curve_a₁, curve_a₃]
      linear_combination hy
  obtain ⟨x₂, y₂, h₂, hd, hxx⟩ := exists_double h hy
  rw [hd, Point.neg_some, Point.some.injEq] at hP'
  intro h₀
  rw [h₀, ← hP'.1, zero_pow two_ne_zero, mul_eq_zero] at hxx
  rcases hxx with hxx | hxx
  · exact hu hxx
  · exact pow_ne_zero 2 hy (by linear_combination hxx)

/-- The first coordinates of the sum and of the difference of two points. -/
theorem exists_add {x₁ y₁ x₂ y₂ u v : F} {h₁ : (curve F).Nonsingular x₁ y₁}
    {h₂ : (curve F).Nonsingular x₂ y₂} {hP : (curve F).Nonsingular u v} (hx : x₁ ≠ x₂)
    (h : Point.some x₁ y₁ h₁ + .some u v hP = .some x₂ y₂ h₂) :
    ∃ x₃ y₃ h₃, Point.some x₁ y₁ h₁ + .some x₂ y₂ h₂ = .some x₃ y₃ h₃ ∧
      x₃ * u * (x₁ - x₂) ^ 2 = (x₁ * x₂ - 1) ^ 2 := by
  have hD : (x₁ - x₂) ^ 2 ≠ 0 := pow_ne_zero 2 (sub_ne_zero.2 hx)
  refine ⟨_, _, _, Point.add_of_X_ne hx, ?_⟩
  have hu : u * (x₁ - x₂) ^ 2 = (y₁ + y₂) ^ 2 - (486662 + x₁ + x₂) * (x₁ - x₂) ^ 2 := by
    have h := eq_sub_of_add_eq' h
    rw [sub_eq_add_neg, Point.neg_some, Point.add_of_X_ne (Ne.symm hx), Point.some.injEq] at h
    rw [h.1, slope_of_X_ne (Ne.symm hx)]
    simp only [addX, negY, curve_a₁, curve_a₂, curve_a₃]
    have hsub : x₂ - x₁ ≠ 0 := sub_ne_zero.2 (Ne.symm hx)
    field_simp
    ring
  have h₃ (x₃ : F) (h : x₃ * (x₁ - x₂) ^ 2 = (y₁ - y₂) ^ 2 - (486662 + x₁ + x₂) * (x₁ - x₂) ^ 2) :
      x₃ * u * (x₁ - x₂) ^ 2 = (x₁ * x₂ - 1) ^ 2 := by
    refine mul_right_cancel₀ hD ?_
    calc x₃ * u * (x₁ - x₂) ^ 2 * (x₁ - x₂) ^ 2
        = x₃ * (x₁ - x₂) ^ 2 * (u * (x₁ - x₂) ^ 2) := by ring
      _ = (y₁ ^ 2 - y₂ ^ 2) ^ 2 - 2 * (486662 + x₁ + x₂) * (x₁ - x₂) ^ 2 * (y₁ ^ 2 + y₂ ^ 2) +
            (486662 + x₁ + x₂) ^ 2 * (x₁ - x₂) ^ 4 := by
        rw [h, hu]
        ring
      _ = (x₁ * x₂ - 1) ^ 2 * (x₁ - x₂) ^ 2 := by
        rw [eq_of_nonsingular h₁, eq_of_nonsingular h₂]
        ring
  refine h₃ _ ?_
  rw [slope_of_X_ne hx]
  simp only [addX, curve_a₁, curve_a₂]
  have hsub : x₁ - x₂ ≠ 0 := sub_ne_zero.2 hx
  field_simp
  ring

end

/-! ## The ladder -/

section
variable {F : Type} [Field F] [CharP F modulus]

theorem cast_ne_zero {n : Nat} (h : 0 < n) (hn : n < modulus) : (n : F) ≠ 0 :=
  (CharP.cast_eq_zero_iff F modulus n).not.2 (Nat.not_dvd_of_pos_of_lt h hn)

theorem cast_two_ne_zero : (2 : F) ≠ 0 := mod_cast @cast_ne_zero F _ _ 2 (by decide) (by decide)

theorem cast_four_ne_zero : (4 : F) ≠ 0 := mod_cast @cast_ne_zero F _ _ 4 (by decide) (by decide)

/-- The square of the first coordinate of a point that is its own opposite is not one. -/
theorem sq_sub_one_ne_zero {x : F} (h : (curve F).Nonsingular x 0) : x ^ 2 - 1 ≠ 0 := by
  have hE := eq_of_nonsingular h
  intro h₁
  have hA : ((486660 * 486664 : Nat) : F) = 0 := by
    push_cast
    linear_combination (4 - (486662 - 2 * x) * (x + 486662)) * h₁ - (486662 - 2 * x) * hE
  exact cast_ne_zero (by decide) (by decide) hA

namespace Coordinate

/-- The quotient is the first coordinate of a point; it is that by zero at infinity. -/
inductive Represents : Coordinate → (curve F).Point → Prop where
  | zero {a : Coordinate} (hx : (a.x : F) ≠ 0) (hz : (a.z : F) = 0) : Represents a 0
  | some {a : Coordinate} {x y : F} (h : (curve F).Nonsingular x y) (hx : (a.x : F) = x * a.z)
    (hz : (a.z : F) ≠ 0) : Represents a (.some x y h)

theorem cast_double (a : Coordinate) :
    (a.double.x : F) = ((a.x : F) ^ 2 - a.z ^ 2) ^ 2 ∧
      (a.double.z : F) = 4 * a.x * a.z * (a.x ^ 2 + 486662 * a.x * a.z + a.z ^ 2) := by
  have hp : (modulus : F) = 0 := CharP.cast_eq_zero F modulus
  simp only [double, Modular.cast_emod hp, Int.cast_mul, Int.cast_sub, Int.cast_add,
    Int.cast_ofNat]
  exact ⟨by ring, by ring⟩

theorem cast_add (u : Int) (a b : Coordinate) :
    ((a.add u b).x : F) = 4 * (a.x * b.x - a.z * b.z) ^ 2 ∧
      ((a.add u b).z : F) = 4 * (a.z * b.x - a.x * b.z) ^ 2 * u := by
  have hp : (modulus : F) = 0 := CharP.cast_eq_zero F modulus
  simp only [add, Modular.cast_emod hp, Int.cast_mul, Int.cast_sub, Int.cast_add]
  exact ⟨by ring, by ring⟩

namespace Represents
variable [DecidableEq F] {a b : Coordinate} {Q R : (curve F).Point}

/-- **Doubling is doubling.** -/
theorem double (h : Represents a Q) : Represents a.double (Q + Q) := by
  obtain ⟨hx₂, hz₂⟩ := cast_double (F := F) a
  cases h with
  | zero hx hz =>
    rw [hz] at hx₂ hz₂
    rw [add_zero]
    refine .zero ?_ (by rw [hz₂]; ring)
    rw [hx₂]
    simpa using hx
  | @some x y h hx hz =>
    rw [hx] at hx₂ hz₂
    have hz₂ : (a.double.z : F) = 4 * y ^ 2 * a.z ^ 4 := by
      rw [hz₂, eq_of_nonsingular h]
      ring
    by_cases hy : y = 0
    · subst hy
      have hxz : (x * a.z) ^ 2 - a.z ^ 2 = (x ^ 2 - 1) * a.z ^ 2 := by ring
      rw [Point.add_self_of_Y_eq (by simp)]
      refine .zero ?_ (by rw [hz₂]; ring)
      rw [hx₂, hxz]
      exact pow_ne_zero 2 (mul_ne_zero (sq_sub_one_ne_zero h) (pow_ne_zero 2 hz))
    · obtain ⟨x₂, y₂, h₂, hQ, hxx⟩ := exists_double h (mul_ne_zero cast_two_ne_zero hy)
      rw [hQ]
      refine .some h₂ ?_ ?_
      · rw [hx₂, hz₂]
        linear_combination -a.z ^ 4 * hxx
      · rw [hz₂]
        exact mul_ne_zero (mul_ne_zero cast_four_ne_zero (pow_ne_zero 2 hy)) (pow_ne_zero 4 hz)

/-- The sum of opposite points is at infinity. -/
theorem add_opposite {x y u v : F} {h : (curve F).Nonsingular x y} {hP : (curve F).Nonsingular u v}
    {w : Int} (hu : u ≠ 0) (hQ : Point.some x y h + .some u v hP = -.some x y h)
    (hxa : (a.x : F) = x * a.z) (hza : (a.z : F) ≠ 0) (hxb : (b.x : F) = x * b.z)
    (hzb : (b.z : F) ≠ 0) : Represents (a.add w b) (0 : (curve F).Point) := by
  obtain ⟨hx, hz⟩ := cast_add (F := F) w a b
  have hne := sq_sub_one_ne_zero_of_add_eq_neg hu hQ
  have hsq : x * a.z * (x * b.z) - a.z * b.z = (x ^ 2 - 1) * (a.z * b.z) := by ring
  rw [hxa, hxb] at hx hz
  refine .zero ?_ ?_
  · rw [hx, hsq]
    simp [cast_four_ne_zero, hza, hzb, hne]
  · rw [hz]
    ring

/-- **Addition is addition**, if the difference of the points is known. -/
theorem add {u v : F} {hP : (curve F).Nonsingular u v} {w : Int} (hu : u ≠ 0) (hw : (w : F) = u)
    (ha : Represents a Q) (hb : Represents b R) (h : Q + .some u v hP = R) :
    Represents (a.add w b) (Q + R) := by
  have h₄ : (4 : F) ≠ 0 := cast_four_ne_zero
  obtain ⟨hx₃, hz₃⟩ := cast_add (F := F) w a b
  rw [hw] at hz₃
  cases ha with
  | zero hxa hza =>
    rw [hza] at hx₃ hz₃
    rw [zero_add] at h ⊢
    subst h
    cases hb with
    | some _ hxb hzb =>
    refine .some hP ?_ ?_
    · rw [hx₃, hz₃, hxb]
      ring
    · rw [hz₃]
      simp [h₄, hu, hxa, hzb]
  | @some x₁ y₁ h₁ hxa hza =>
    cases hb with
    | zero hxb hzb =>
      obtain ⟨rfl, rfl⟩ : x₁ = u ∧ y₁ = (curve F).negY u v := by
        rwa [add_eq_zero_iff_eq_neg, Point.neg_some, Point.some.injEq] at h
      rw [add_zero]
      refine .some h₁ ?_ ?_
      · rw [hx₃, hz₃, hxa, hzb]
        ring
      · rw [hz₃, hzb]
        simp [h₄, hu, hza, hxb]
    | @some x₂ y₂ h₂ hxb hzb =>
      by_cases hx : x₁ = x₂
      · subst hx
        rcases Y_eq_of_X_eq h₂.1 h₁.1 rfl with rfl | rfl
        · simp at h
        · rw [Point.add_of_Y_eq rfl (by simp)]
          exact add_opposite hu (h.trans (Point.neg_some h₁).symm) hxa hza hxb hzb
      · obtain ⟨x₃, y₃, h₃, hQ, hxx⟩ := exists_add hx h
        rw [hQ]
        refine .some h₃ ?_ ?_
        · rw [hx₃, hz₃, hxa, hxb]
          linear_combination -4 * a.z ^ 2 * b.z ^ 2 * hxx
        · have hD : a.z * (x₂ * b.z) - x₁ * a.z * b.z = (x₂ - x₁) * (a.z * b.z) := by ring
          rw [hz₃, hxa, hxb, hD]
          simp [h₄, hu, hza, hzb, sub_ne_zero.2 (Ne.symm hx)]

end Represents

/-- **The ladder climbs through the multiples.** Beside the multiple so far it keeps the next one,
so that their difference is known. -/
theorem Represents.ladder [DecidableEq F] {u v : F} {hP : (curve F).Nonsingular u v} {n : Nat}
    (hu : u ≠ 0) (hn : (n : F) = u) (w k : Nat) :
    Represents ((Modular.bits w k).foldl (ladderStep n) (⟨1, 0⟩, ⟨n, 1⟩)).1
      ((k % 2 ^ w) • Point.some u v hP) := by
  have hr := @Modular.foldl_bits _ (fun m (s : Coordinate × Coordinate) =>
    Represents s.1 (m • Point.some u v hP) ∧ Represents s.2 ((m + 1) • Point.some u v hP))
    (ladderStep n) ?_ w k 0 (⟨1, 0⟩, ⟨n, 1⟩) ?_
  · rw [Nat.zero_mul, Nat.zero_add] at hr
    exact hr.1
  · rintro m ⟨a, b⟩ bit ⟨ha, hb⟩
    have hsum := ha.add hu ((Int.cast_natCast n).trans hn) hb (succ_nsmul _ m).symm
    rw [← add_nsmul, ← add_assoc, ← two_mul] at hsum
    cases bit with
    | false =>
      have hda := ha.double
      rw [← add_nsmul, ← two_mul] at hda
      exact ⟨hda, hsum⟩
    | true =>
      have hdb := hb.double
      rw [← add_nsmul, ← two_mul, mul_add_one] at hdb
      exact ⟨hsum, hdb⟩
  · rw [zero_nsmul, zero_add, one_nsmul]
    exact ⟨.zero (by simp) (by simp), .some hP (by simp [hn]) (by simp)⟩

/-- The ladder does not leave zero. -/
theorem ladder_zero (w k : Nat) :
    let a := ((Modular.bits w k).foldl (ladderStep 0) (⟨1, 0⟩, ⟨0, 1⟩)).1
    (a.x : F) * a.z = 0 := by
  have hdouble {a : Coordinate} (h : (a.x : F) * a.z = 0) : (a.double.x : F) * a.double.z = 0 := by
    obtain ⟨hx, hz⟩ := cast_double (F := F) a
    rw [hx, hz]
    linear_combination (4 * ((a.x : F) ^ 2 - a.z ^ 2) ^ 2 *
      (a.x ^ 2 + 486662 * a.x * a.z + a.z ^ 2)) * h
  have hadd (a b : Coordinate) : ((a.add 0 b).x : F) * (a.add 0 b).z = 0 := by
    rw [(cast_add (F := F) 0 a b).2]
    simp
  have hr := @Modular.foldl_bits _ (fun _ (s : Coordinate × Coordinate) =>
    (s.1.x : F) * s.1.z = 0 ∧ (s.2.x : F) * s.2.z = 0) (ladderStep 0) ?_ w k 0
    (⟨1, 0⟩, ⟨0, 1⟩) (by simp)
  · exact hr.1
  · rintro m ⟨a, b⟩ bit ⟨ha, hb⟩
    cases bit with
    | false => exact ⟨hdouble ha, hadd a b⟩
    | true => exact ⟨hadd a b, hdouble hb⟩

end Coordinate

end

/-! ## Multiples -/

instance : Fact modulus.Prime := ⟨prime_modulus⟩

/-- The first coordinate of a point, which is zero at infinity. -/
def first : (curve (ZMod modulus)).Point → Nat
  | .zero => 0
  | .some x _ _ => x.val

theorem Coordinate.value_eq (a : Coordinate) :
    a.value = ((a.x : ZMod modulus) * (a.z : ZMod modulus)⁻¹).val := by
  have hcast (v : Int) : (((v % modulus).toNat : Nat) : ZMod modulus) = v := by
    rw [← Int.cast_natCast, Int.toNat_of_nonneg (Int.emod_nonneg _ (by decide)),
      ZMod.intCast_mod]
  rw [value, ← ZMod.val_natCast, Nat.cast_mul, Modular.cast_inverse (by decide), hcast, hcast]

theorem Coordinate.Represents.value {a : Coordinate} {Q : (curve (ZMod modulus)).Point}
    (h : Represents a Q) : a.value = first Q := by
  rw [value_eq]
  cases h with
  | zero _ hz => simp [hz, first]
  | some h hx hz => rw [hx, mul_inv_cancel_right₀ hz, first]

theorem ladder_zero (k : Nat) : ladder k 0 = 0 := by
  have h := Coordinate.ladder_zero (F := ZMod modulus) 255 k
  rw [ladder, Coordinate.value_eq]
  simpa using h

/-- Multiples of a point at zero are at zero, or at infinity. -/
theorem first_nsmul {P : (curve (ZMod modulus)).Point} (h : first P = 0) (n : Nat) :
    first (n • P) = 0 := by
  cases P with
  | zero => exact congrArg first (nsmul_zero n)
  | some x y hP =>
    obtain rfl : x = 0 := (ZMod.val_eq_zero x).1 h
    have hy : y = 0 := by simpa using eq_of_nonsingular hP
    have hd : Point.some 0 y hP + .some 0 y hP = 0 :=
      Point.add_self_of_Y_eq (by simp [hy])
    obtain ⟨m, rfl | rfl⟩ := n.even_or_odd'
    · rw [mul_nsmul, two_nsmul, hd, nsmul_zero]
      rfl
    · rw [add_nsmul, mul_nsmul, two_nsmul, hd, nsmul_zero, zero_add, one_nsmul]
      exact h

/-- **The ladder multiplies.** -/
theorem ladder_first (k : Nat) (P : (curve (ZMod modulus)).Point) :
    ladder k (first P) = first ((k % 2 ^ 255) • P) := by
  by_cases h₀ : first P = 0
  · rw [h₀, ladder_zero, first_nsmul h₀]
  · cases P with
    | zero => exact absurd rfl h₀
    | some x y h =>
      have hx : x ≠ 0 := (ZMod.val_eq_zero x).not.1 h₀
      exact (Coordinate.Represents.ladder hx (ZMod.natCast_zmod_val x) 255 k).value

/-! ## Keys -/

theorem modify_ofNatLE {w n : Nat} (h : n < 128 * 256 ^ w) :
    (Bytes.ofNatLE (w + 1) n).modify w (· &&& 127) = Bytes.ofNatLE (w + 1) n := by
  induction w generalizing n with
  | zero =>
    have hn : UInt8.ofNat n &&& 127 = UInt8.ofNat n := by
      rw [← UInt8.toNat_inj, UInt8.toNat_and, UInt8.toNat_ofNat']
      change n % 256 &&& 2 ^ 7 - 1 = n % 256
      rw [Nat.and_two_pow_sub_one_eq_mod]
      omega
    simp [Bytes.ofNatLE, hn]
  | succ w ih =>
    rw [Bytes.ofNatLE, List.modify_succ_cons, ih]
    rw [pow_succ] at h
    exact Nat.div_lt_of_lt_mul (by omega)

theorem multiply_first (k : Bytes) (P : (curve (ZMod modulus)).Point) :
    multiply k (.ofNatLE keyLen (first P)) =
      .ofNatLE keyLen (first (((clamp k).toNatLE % 2 ^ 255) • P)) := by
  have hlt : first P < modulus := by
    cases P with
    | zero => decide
    | some x y h => exact ZMod.val_lt x
  have hmod := modify_ofNatLE (hlt.trans (by decide : modulus < 128 * 256 ^ 31))
  rw [multiply, keyLen, hmod, Bytes.toNatLE_ofNatLE (hlt.trans (by decide)), ladder_first]

/-- The other coordinate of the base point. -/
def baseY : Nat := 0x20ae19a1b8a086b4e01edd2c7748d14c923d4d7e6d7c61b229e9c5a27eced3d9

theorem exists_base : ∃ G : (curve (ZMod modulus)).Point, first G = 9 := by
  have hE : baseY * baseY % modulus = (9 * 9 * 9 + 486662 * (9 * 9) + 9) % modulus := by
    decide +kernel
  have hE := (ZMod.natCast_eq_natCast_iff' _ _ _).2 hE
  have hy : (baseY : ZMod modulus) ≠ 0 := cast_ne_zero (by decide) (by decide)
  push_cast at hE
  have hns : (curve (ZMod modulus)).Nonsingular 9 baseY := by
    rw [nonsingular_iff', equation_iff]
    simp only [curve_a₁, curve_a₂, curve_a₃, curve_a₄, curve_a₆]
    refine ⟨by linear_combination hE, .inr ?_⟩
    simpa using ⟨cast_two_ne_zero, hy⟩
  refine ⟨.some _ _ hns, ?_⟩
  exact ZMod.val_natCast_of_lt (by decide : 9 < modulus)

/-- **Products do not depend on who multiplies first.** -/
theorem multiply_comm (j k : Bytes) : multiply j (publicKey k) = multiply k (publicKey j) := by
  obtain ⟨G, hG⟩ := exists_base
  rw [publicKey, publicKey, ← hG, multiply_first, multiply_first, multiply_first, multiply_first,
    smul_comm]

end SealedStream.X25519
