import Mathlib
import SealedStream.Cipher.Aes
/-!
# AES decryption undoes encryption

* `Aes.inverse_inverse`: the inverse of the inverse of an element of the field is the element. Every
  element but zero is a power of 3 (`exists_power`), and `inverse` multiplies exponents by 254.
* `Aes.unrounds_rounds`: the rounds are undone in the opposite order.
* `Aes.decrypt_encrypt` says so of a block under any key.
-/
namespace SealedStream.Aes

/-! ## The field of 256 elements -/

theorem double_xor (a b : UInt8) : double (a ^^^ b) = double a ^^^ double b := by
  -- doubling by shifts only, which all go through `^^^`
  have hall : ∀ n < 256, double (UInt8.ofNat n) = UInt8.ofNat n <<< 1 ^^^
      (UInt8.ofNat n >>> 7 ^^^ UInt8.ofNat n >>> 7 <<< 1 ^^^ UInt8.ofNat n >>> 7 <<< 3 ^^^
        UInt8.ofNat n >>> 7 <<< 4) := by
    decide +kernel
  have hd (b : UInt8) : double b = b <<< 1 ^^^
      (b >>> 7 ^^^ b >>> 7 <<< 1 ^^^ b >>> 7 <<< 3 ^^^ b >>> 7 <<< 4) := by
    have h := hall b.toNat b.toNat_lt
    rwa [UInt8.ofNat_toNat] at h
  simp only [hd, UInt8.shiftLeft_xor, UInt8.shiftRight_xor]
  ac_rfl

section
variable (n : Nat) (a b c : UInt8)

theorem mulBits_xor : mulBits n a (b ^^^ c) = mulBits n a b ^^^ mulBits n a c := by
  induction n generalizing a b c with
  | zero => rw [mulBits, mulBits, mulBits, UInt8.xor_self]
  | succ n ih =>
    rw [mulBits, mulBits, mulBits, double_xor, ih]
    by_cases h : a &&& 1 = 1
    · rw [if_pos h, if_pos h, if_pos h]
      ac_rfl
    · rw [if_neg h, if_neg h, if_neg h, UInt8.zero_xor, UInt8.zero_xor, UInt8.zero_xor]

theorem mulBits_double : mulBits n a (double b) = double (mulBits n a b) := by
  have hzero : double 0 = 0 := by decide
  induction n generalizing a b with
  | zero => rw [mulBits, mulBits, hzero]
  | succ n ih => rw [mulBits, mulBits, double_xor, ih, apply_ite double, hzero]

theorem mul_xor : mul a (b ^^^ c) = mul a b ^^^ mul a c := mulBits_xor 8 a b c

theorem mul_triple : mul a (triple b) = triple (mul a b) := by
  rw [triple, mul_xor]
  exact congrArg (· ^^^ mul a b) (mulBits_double 8 a b)

theorem mul_one : mul a 1 = a := by
  have hall : ∀ n < 256, mul (UInt8.ofNat n) 1 = UInt8.ofNat n := by decide +kernel
  have h := hall a.toNat a.toNat_lt
  rwa [UInt8.ofNat_toNat] at h

end

/-! ## Powers of 3 -/

/-- The power of 3 with exponent `i`. -/
def power (i : Nat) : UInt8 := triple^[i] 1

theorem mul_power (a : UInt8) (i : Nat) : mul a (power i) = triple^[i] a := by
  induction i with
  | zero => exact mul_one a
  | succ i ih =>
    rw [power, Function.iterate_succ_apply', mul_triple, Function.iterate_succ_apply']
    exact congrArg triple ih

theorem power_mul_power (i j : Nat) : mul (power i) (power j) = power (i + j) := by
  rw [mul_power, power, power, Nat.add_comm, Function.iterate_add_apply]

theorem squares_power (n i : Nat) : squares n (power i) = power ((2 ^ (n + 1) - 2) * i) := by
  induction n generalizing i with
  | zero => rw [pow_one, Nat.sub_self, Nat.zero_mul, squares, power, Function.iterate_zero_apply]
  | succ n ih =>
    have hp : 2 ≤ 2 ^ (n + 1) := Nat.le_self_pow n.succ_ne_zero 2
    rw [squares, power_mul_power, ih, power_mul_power]
    congr 1
    obtain ⟨k, hk⟩ := Nat.exists_eq_add_of_le hp
    have hk' : 2 ^ (n + 1 + 1) - 2 = 2 * k + 2 := by
      rw [pow_succ]
      omega
    rw [hk', hk, Nat.add_sub_cancel_left]
    ring

theorem isPeriodicPt_triple : Function.IsPeriodicPt triple 255 1 :=
  (by decide +kernel : triple^[255] 1 = 1)

theorem power_add (m i : Nat) : power (i + 255 * m) = power i := by
  rw [power, Function.iterate_add_apply, isPeriodicPt_triple.mul_const m]
  rfl

theorem inverse_power (i : Nat) : inverse (power i) = power (254 * i) := squares_power 7 i

theorem minimalPeriod_triple : Function.minimalPeriod triple 1 = 255 := by
  have hall : ∀ d ∈ Nat.divisors 255, triple^[d] 1 = 1 → d = 255 := by decide +kernel
  have hdvd := isPeriodicPt_triple.minimalPeriod_dvd
  exact hall _ (Nat.mem_divisors.2 ⟨hdvd, by decide⟩) (Function.isPeriodicPt_minimalPeriod triple 1)

theorem power_injOn : Set.InjOn power (Set.Iio 255) := by
  rw [← minimalPeriod_triple]
  exact Function.iterate_injOn_Iio_minimalPeriod

/-- Zero stays zero, and a power of 3 becomes one again. -/
theorem power_ne_zero (i : Nat) : power i ≠ 0 := by
  intro h0
  have hone : power (254 * i + i) = 1 := by
    have hi : 254 * i + i = 0 + 255 * i := by ring
    rw [hi, power_add]
    rfl
  have hzero : power (254 * i + i) = 0 := by
    rw [power, Function.iterate_add_apply]
    show triple^[254 * i] (power i) = 0
    rw [h0, Function.iterate_fixed (by decide : triple 0 = 0)]
  exact absurd (hone.symm.trans hzero) (by decide)

/-- **Every element but zero is a power of 3**, since there are 255 of either. -/
theorem exists_power {b : UInt8} (hb : b ≠ 0) : ∃ i, b = power i := by
  have hmem {b : UInt8} (hb : b ≠ 0) : b.toNat ∈ Finset.Icc 1 255 := by
    have hlt := b.toNat_lt
    have hne : b.toNat ≠ 0 := fun h0 => hb (UInt8.toNat_inj.1 h0)
    rw [Finset.mem_Icc]
    omega
  have hmaps : Set.MapsTo (fun i => (power i).toNat) (Finset.range 255) (Finset.Icc 1 255) :=
    fun i _ => hmem (power_ne_zero i)
  have hinj : Set.InjOn (fun i => (power i).toNat) (Finset.range 255) := by
    intro i hi j hj h
    rw [Finset.coe_range] at hi hj
    exact power_injOn hi hj (UInt8.toNat_inj.1 h)
  have hcard : (Finset.Icc 1 255).card ≤ (Finset.range 255).card := by
    rw [Finset.card_range, Nat.card_Icc]
  obtain ⟨i, -, hi⟩ := Finset.surjOn_of_injOn_of_card_le _ hmaps hinj hcard (hmem hb)
  exact ⟨i, (UInt8.toNat_inj.1 hi).symm⟩

theorem inverse_inverse (b : UInt8) : inverse (inverse b) = b := by
  by_cases hb : b = 0
  · rw [hb]
    rfl
  · obtain ⟨i, rfl⟩ := exists_power hb
    have hi : 254 * (254 * i) = i + 255 * (253 * i) := by ring
    rw [inverse_power, inverse_power, hi, power_add]

/-! ## Substitution -/

theorem unsubstitute_substitute (b : UInt8) : unsubstitute (substitute b) = b := by
  have hall : ∀ n < 256,
      let x := UInt8.ofNat n
      let y := x ^^^ rotl x 1 ^^^ rotl x 2 ^^^ rotl x 3 ^^^ rotl x 4 ^^^ 0x63
      rotl y 1 ^^^ rotl y 3 ^^^ rotl y 6 ^^^ 0x05 = x := by
    decide +kernel
  have h := hall (inverse b).toNat (inverse b).toNat_lt
  rw [UInt8.ofNat_toNat] at h
  rw [unsubstitute, substitute, h, inverse_inverse]

theorem unsubBytes_subBytes (s : Block) : unsubBytes (subBytes s) = s := by
  ext i hi
  rw [unsubBytes, subBytes, Vector.getElem_map, Vector.getElem_map, unsubstituteTable,
    substituteTable, lookup_table, lookup_table, unsubstitute_substitute]

/-! ## Diffusion -/

theorem unshiftRows_shiftRows (s : Block) : unshiftRows (shiftRows s) = s := by
  ext i hi
  simp only [unshiftRows, shiftRows, Vector.getElem_ofFn]
  congr 2
  omega

theorem below_lt (i : Fin 16) (k : Nat) : i.val / 4 * 4 + (i.val + k) % 4 < 16 := by omega

theorem below_ofFn (f : Fin 16 → UInt8) (i : Fin 16) (k : Nat) :
    below (Vector.ofFn f) i k = f ⟨i.val / 4 * 4 + (i.val + k) % 4, below_lt i k⟩ := by
  rw [below, Vector.getElem_ofFn]

theorem below_below (s : Block) {i : Nat} (hi : i < 16) (k l : Nat)
    (h : i / 4 * 4 + (i + k) % 4 < 16) :
    below s ⟨i / 4 * 4 + (i + k) % 4, h⟩ l = below s ⟨i, hi⟩ ((k + l) % 4) := by
  simp only [below]
  congr 1
  omega

theorem mul_unmix (b : UInt8) :
    mul 14 b = double b ^^^ double (double b) ^^^ double (double (double b)) ∧
      mul 11 b = b ^^^ double b ^^^ double (double (double b)) ∧
      mul 13 b = b ^^^ double (double b) ^^^ double (double (double b)) ∧
      mul 9 b = b ^^^ double (double (double b)) := by
  refine ⟨?_, ?_, ?_, ?_⟩ <;> simp +decide [mul, mulBits, UInt8.xor_assoc]

theorem getElem_unmixColumns (s : Block) {i : Nat} (hi : i < 16) :
    (unmixColumns s)[i] = mul 14 (below s ⟨i, hi⟩ 0) ^^^ mul 11 (below s ⟨i, hi⟩ 1) ^^^
      mul 13 (below s ⟨i, hi⟩ 2) ^^^ mul 9 (below s ⟨i, hi⟩ 3) := by
  simp only [unmixColumns, Vector.getElem_ofFn, mul_unmix, if_true, Bool.false_eq_true, if_false,
    UInt8.xor_zero]
  ac_rfl

/-- The polynomials by which `mixColumns` and `unmixColumns` multiply are inverse to each other:
what becomes of an octet in each of the four places. -/
theorem unmixed (b : UInt8) :
    mul 14 (double b) ^^^ mul 11 b ^^^ mul 13 b ^^^ mul 9 (triple b) = b ∧
      mul 14 (triple b) ^^^ mul 11 (double b) ^^^ mul 13 b ^^^ mul 9 b = 0 ∧
      mul 14 b ^^^ mul 11 (triple b) ^^^ mul 13 (double b) ^^^ mul 9 b = 0 ∧
      mul 14 b ^^^ mul 11 b ^^^ mul 13 (triple b) ^^^ mul 9 (double b) = 0 := by
  have hcomm (a b c : UInt8) : a ^^^ (b ^^^ c) = b ^^^ (a ^^^ c) := by ac_rfl
  have hcancel (a b : UInt8) : a ^^^ (a ^^^ b) = b := by
    rw [← UInt8.xor_assoc, UInt8.xor_self, UInt8.zero_xor]
  simp only [mul_unmix, triple, double_xor, UInt8.xor_assoc, UInt8.xor_comm, hcomm, hcancel,
    UInt8.xor_self, UInt8.xor_zero, and_self]

theorem unmixColumns_mixColumns (s : Block) : unmixColumns (mixColumns s) = s := by
  refine Vector.ext fun i hi => ?_
  have h0 : s[i] = below s ⟨i, hi⟩ 0 := by
    simp only [below]
    congr 1
    omega
  rw [h0, getElem_unmixColumns]
  simp only [mixColumns, below_ofFn, below_below s hi, Nat.reduceAdd, Nat.reduceMod]
  generalize below s ⟨i, hi⟩ 0 = a
  generalize below s ⟨i, hi⟩ 1 = b
  generalize below s ⟨i, hi⟩ 2 = c
  generalize below s ⟨i, hi⟩ 3 = d
  obtain ⟨ha, -⟩ := unmixed a
  obtain ⟨-, hb, -⟩ := unmixed b
  obtain ⟨-, -, hc, -⟩ := unmixed c
  obtain ⟨-, -, -, hd⟩ := unmixed d
  -- what becomes of `b`, `c` and `d` adds up to nothing
  calc
    _ = (mul 14 (double a) ^^^ mul 11 a ^^^ mul 13 a ^^^ mul 9 (triple a)) ^^^
          (mul 14 (triple b) ^^^ mul 11 (double b) ^^^ mul 13 b ^^^ mul 9 b) ^^^
          (mul 14 c ^^^ mul 11 (triple c) ^^^ mul 13 (double c) ^^^ mul 9 c) ^^^
          (mul 14 d ^^^ mul 11 d ^^^ mul 13 (triple d) ^^^ mul 9 (double d)) := by
      simp only [mul_xor]
      ac_rfl
    _ = a := by rw [ha, hb, hc, hd, UInt8.xor_zero, UInt8.xor_zero, UInt8.xor_zero]

/-! ## Rounds -/

theorem unrounds_rounds (ks : List Block) (s : Block) : unrounds ks (rounds ks s) = s := by
  induction ks generalizing s with
  | nil => rfl
  | cons k ks ih =>
    cases ks with
    | nil =>
      rw [rounds, unrounds, Block.xor_xor_cancel, unshiftRows_shiftRows, unsubBytes_subBytes]
    | cons k' ks =>
      rw [rounds, unrounds, ih, Block.xor_xor_cancel, unmixColumns_mixColumns,
        unshiftRows_shiftRows, unsubBytes_subBytes]
      · exact List.cons_ne_nil _ _
      · exact List.cons_ne_nil _ _

/-- **Decryption undoes encryption**, whatever the key. -/
theorem decrypt_encrypt (key : Bytes) (b : Block) :
    (cipher key).decrypt ((cipher key).encrypt b) = b := by
  rw [cipher]
  rcases expandKey key with - | ⟨k, ks⟩
  · rfl
  · exact (congrArg (Block.xor · k) (unrounds_rounds ks _)).trans (Block.xor_xor_cancel b k)

end SealedStream.Aes
