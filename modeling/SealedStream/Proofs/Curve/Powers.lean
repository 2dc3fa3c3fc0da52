import Mathlib
import SealedStream.Curve.Modular
/-!
# Powers modulo a number

* `Modular.foldl_bits`: what one more bit keeps, all bits of a number do. Powers and multiples are
  both built up so.
* `Modular.pow_eq` says that `Modular.pow` is the power, `Modular.cast_inverse` that
  `Modular.inverse` is the inverse.
-/
namespace SealedStream.Modular

theorem bits_succ (w n : Nat) : bits (w + 1) n = n.testBit w :: bits w n := by
  simp [bits, List.range_succ]

/-- **What one more bit keeps, all bits of a number do**: the number of the bits so far is doubled,
and the next bit added to it. -/
theorem foldl_bits {β : Type} {R : Nat → β → Prop} {step : β → Bool → β}
    (h : ∀ m s b, R m s → R (2 * m + b.toNat) (step s b)) (w n : Nat) {m : Nat} {s : β}
    (hs : R m s) : R (m * 2 ^ w + n % 2 ^ w) ((bits w n).foldl step s) := by
  induction w generalizing m s with
  | zero => simpa [bits, Nat.mod_one] using hs
  | succ w ih =>
    rw [bits_succ, List.foldl_cons]
    have hstep := ih (h m s (n.testBit w) hs)
    have hn : n % 2 ^ (w + 1) = (n.testBit w).toNat * 2 ^ w + n % 2 ^ w := by
      rw [Nat.mod_pow_succ, Nat.toNat_testBit, Nat.add_comm, Nat.mul_comm]
    have hm : m * 2 ^ (w + 1) + n % 2 ^ (w + 1) =
        (2 * m + (n.testBit w).toNat) * 2 ^ w + n % 2 ^ w := by
      rw [hn, pow_succ]
      ring
    rw [hm]
    exact hstep

theorem foldl_bits_log2 {β : Type} {R : Nat → β → Prop} {step : β → Bool → β}
    (h : ∀ m s b, R m s → R (2 * m + b.toNat) (step s b)) (n : Nat) {s : β} (hs : R 0 s) :
    R n ((bits (n.log2 + 1) n).foldl step s) := by
  have hr := foldl_bits h (n.log2 + 1) n hs
  rwa [Nat.zero_mul, Nat.zero_add, Nat.mod_eq_of_lt Nat.lt_log2_self] at hr

/-- The same from the highest bit on, which is one. -/
theorem foldl_bits_of_ne_zero {β : Type} {R : Nat → β → Prop} {step : β → Bool → β}
    (h : ∀ m s b, R m s → R (2 * m + b.toNat) (step s b)) {n : Nat} (hn : n ≠ 0) {s : β}
    (hs : R 1 s) : R n ((bits n.log2 n).foldl step s) := by
  have hle := Nat.log2_self_le hn
  have hlt := @Nat.lt_log2_self n
  have hone : 1 * 2 ^ n.log2 + n % 2 ^ n.log2 = n := by
    rw [pow_succ] at hlt
    rw [Nat.mod_eq_sub_mod hle, Nat.mod_eq_of_lt (by omega)]
    omega
  have hr := foldl_bits h n.log2 n hs
  rwa [hone] at hr

/-! ## Powers -/

/-- **The power is one.** -/
theorem pow_eq (p x n : Nat) : pow p x n = x ^ n % p := by
  refine @foldl_bits_log2 _ (fun m y => y = x ^ m % p) _ ?_ n _ (by rw [pow_zero])
  rintro m _ b rfl
  have hsq : x ^ m % p * (x ^ m % p) % p = x ^ (2 * m) % p := by
    rw [← Nat.mul_mod, ← pow_add, two_mul]
  cases b with
  | false =>
    simp only [Bool.false_eq_true, if_false, Bool.toNat_false, Nat.add_zero]
    exact hsq
  | true =>
    simp only [if_true, Bool.toNat_true]
    rw [hsq, pow_succ, Nat.mod_mul_mod]

theorem cast_pow (p x n : Nat) : (pow p x n : ZMod p) = (x : ZMod p) ^ n := by
  rw [pow_eq, ZMod.natCast_mod, Nat.cast_pow]

/-- **The inverse is one**, and that of zero is zero. -/
theorem cast_inverse {p : Nat} [hp : Fact p.Prime] (h : p ≠ 2) (x : Nat) :
    (inverse p x : ZMod p) = (x : ZMod p)⁻¹ := by
  have h₂ : 2 < p := lt_of_le_of_ne hp.out.two_le (Ne.symm h)
  rw [inverse, cast_pow]
  by_cases hx : (x : ZMod p) = 0
  · rw [hx, inv_zero, zero_pow (Nat.sub_ne_zero_of_lt h₂)]
  · have hf := ZMod.pow_card_sub_one_eq_one hx
    have hs : p - 1 = p - 2 + 1 := by omega
    rw [hs, pow_succ] at hf
    exact eq_inv_of_mul_eq_one_left hf

/-! ## Remainders -/

theorem cast_emod {F : Type} [Ring F] {p : Nat} (hp : (p : F) = 0) (v : Int) :
    ((v % p : Int) : F) = v := by
  have h := congrArg (Int.cast : Int → F) (Int.emod_add_mul_ediv v p)
  simpa [hp] using h

end SealedStream.Modular
