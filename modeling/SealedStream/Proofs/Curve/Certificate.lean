import Mathlib
import SealedStream.Curve.Weierstrass
import SealedStream.Curve.X25519
import SealedStream.Proofs.Curve.Powers
/-!
# Certificates of primality

The moduli of the curves and the orders of their base points are primes. A number `n` can be shown
to be one if enough of `n - 1` is factored: a power of two then has an order in every field whose
characteristic divides `n` that leaves no room for a proper divisor of `n`.

* `Certificate` is a number with primes that divide its predecessor; `Certificate.validAll` checks
  certificates of which each may use the numbers before it.
* `Certificate.prime_of_validAll` says that what is certified is prime.
-/
namespace SealedStream

/-- A power of two has the order `F` modulo every prime divisor of `n`, whose predecessor is thus
divided by `F`. -/
theorem dvd_sub_one_of_pow {n F s : Nat} (hF : 0 < F) (hn : F ∣ n - 1) (hpow : 2 ^ (n - 1) % n = 1)
    (hq : ∀ q, q.Prime → q ∣ F → Nat.Coprime (2 ^ ((n - 1) / q) % n - 1) n) (hs : s.Prime)
    (hsn : s ∣ n) : F ∣ s - 1 := by
  have := Fact.mk hs
  have hmod (m : Nat) : ((2 ^ m % n : Nat) : ZMod s) = 2 ^ m := by
    have h := (ZMod.natCast_eq_natCast_iff _ _ s).2 ((Nat.mod_modEq (2 ^ m) n).of_dvd hsn)
    rwa [Nat.cast_pow, Nat.cast_ofNat] at h
  have hne {m : Nat} (h : Nat.Coprime (2 ^ m % n - 1) n) : (2 : ZMod s) ^ m ≠ 1 := by
    intro h₁
    rw [← hmod] at h₁
    have hpos : 1 ≤ 2 ^ m % n := by
      by_contra h₀
      simp [Nat.lt_one_iff.1 (not_le.1 h₀)] at h₁
    have hdvd : s ∣ 2 ^ m % n - 1 := by
      rw [← ZMod.natCast_eq_zero_iff, Nat.cast_sub hpos, h₁, Nat.cast_one, sub_self]
    exact hs.one_lt.ne' (Nat.dvd_one.1 (h ▸ Nat.dvd_gcd hdvd hsn))
  obtain ⟨r, hr⟩ := hn
  have hord : orderOf ((2 : ZMod s) ^ r) = F := by
    refine orderOf_eq_of_pow_and_pow_div_prime hF ?_ ?_
    · rw [← pow_mul, mul_comm, ← hr]
      rw [← hmod, hpow, Nat.cast_one]
    · rintro q hqp ⟨t, rfl⟩
      have hdiv : (n - 1) / q = r * t := by
        rw [hr, mul_assoc, Nat.mul_div_cancel_left _ hqp.pos, mul_comm]
      rw [Nat.mul_div_cancel_left _ hqp.pos, ← pow_mul, ← hdiv]
      exact hne (hq q hqp (dvd_mul_right q t))
  rw [← hord]
  refine ZMod.orderOf_dvd_card_sub_one ?_
  intro h₀
  rw [h₀, orderOf_zero] at hord
  omega

theorem prime_of_pow {n F : Nat} (hn : 1 < n) (hdvd : F ∣ n - 1) (hF : n < F * F)
    (hpow : 2 ^ (n - 1) % n = 1)
    (hq : ∀ q, q.Prime → q ∣ F → Nat.Coprime (2 ^ ((n - 1) / q) % n - 1) n) : n.Prime := by
  by_contra hnp
  have hs := Nat.minFac_prime hn.ne'
  have hpos : 0 < F := by
    by_contra h
    simp [Nat.eq_zero_of_not_pos h] at hF
  have hle := Nat.le_of_dvd (Nat.sub_pos_of_lt hs.one_lt)
    (dvd_sub_one_of_pow hpos hdvd hpow hq hs n.minFac_dvd)
  have hsq := Nat.minFac_sq_le_self (by omega) hnp
  have hlt : F < n.minFac := by omega
  nlinarith

/-! ## Certificates -/

/-- A number, and primes whose product divides its predecessor and is greater than its root. -/
structure Certificate where
  n : Nat
  factors : List Nat

namespace Certificate

/-- Is a number below `2 ^ 20` a prime? All divisors up to the root are tried. -/
def isSmallPrime (n : Nat) : Bool :=
  1 < n && n < 0x100000 && (List.range 0x400).all fun d => d < 2 || n % d != 0 || d == n

/-- Does a certificate hold, given that the numbers in `proven` are primes? -/
def valid (proven : List Nat) (c : Certificate) : Bool :=
  1 < c.n && (c.n - 1) % c.factors.prod == 0 && c.n < c.factors.prod * c.factors.prod &&
    Modular.pow c.n 2 (c.n - 1) == 1 &&
    c.factors.all fun q => (isSmallPrime q || proven.contains q) &&
      Nat.gcd (Modular.pow c.n 2 ((c.n - 1) / q) - 1) c.n == 1

/-- Do certificates hold of which each may use the numbers before it? -/
def validAll : (proven : List Nat) → List Certificate → Bool
  | _, [] => true
  | proven, c :: cs => c.valid proven && validAll (c.n :: proven) cs

theorem prime_of_isSmallPrime {n : Nat} (h : isSmallPrime n = true) : n.Prime := by
  simp only [isSmallPrime, Bool.and_eq_true, decide_eq_true_eq, List.all_eq_true, List.mem_range,
    Bool.or_eq_true, bne_iff_ne, ne_eq, beq_iff_eq] at h
  obtain ⟨⟨h₁, h₂⟩, hall⟩ := h
  by_contra hnp
  have hsq := Nat.minFac_sq_le_self (by omega) hnp
  have hs := Nat.minFac_prime h₁.ne'
  have hlt : n.minFac < 0x400 := by
    by_contra hge
    nlinarith
  rcases hall _ hlt with (h | h) | h
  · exact absurd hs.two_le (by omega)
  · exact h (Nat.mod_eq_zero_of_dvd n.minFac_dvd)
  · exact hnp (h ▸ hs)

theorem prime_of_valid {proven : List Nat} {c : Certificate} (hp : ∀ q ∈ proven, q.Prime)
    (h : c.valid proven = true) : c.n.Prime := by
  simp only [valid, Bool.and_eq_true, decide_eq_true_eq, List.all_eq_true, beq_iff_eq,
    Bool.or_eq_true, List.contains_iff_mem, Modular.pow_eq] at h
  obtain ⟨⟨⟨⟨h₁, hdvd⟩, hF⟩, hpow⟩, hall⟩ := h
  refine prime_of_pow h₁ (Nat.dvd_of_mod_eq_zero hdvd) hF hpow ?_
  intro q hq hqF
  obtain ⟨x, hx, hqx⟩ := (Prime.dvd_prod_iff hq.prime).1 hqF
  obtain ⟨hx₁, hx₂⟩ := hall x hx
  have hxp : x.Prime := hx₁.elim prime_of_isSmallPrime (hp x)
  rw [(Nat.prime_dvd_prime_iff_eq hq hxp).1 hqx]
  exact hx₂

/-- **What is certified is prime.** -/
theorem prime_of_validAll {proven : List Nat} {cs : List Certificate}
    (hp : ∀ q ∈ proven, q.Prime) (h : validAll proven cs = true) :
    ∀ q ∈ cs.map Certificate.n, q.Prime := by
  induction cs generalizing proven with
  | nil => simp
  | cons c cs ih =>
    simp only [validAll, Bool.and_eq_true] at h
    have hc := prime_of_valid hp h.1
    rw [List.map_cons, List.forall_mem_cons]
    exact ⟨hc, ih (List.forall_mem_cons.2 ⟨hc, hp⟩) h.2⟩

end Certificate

/-! ## The numbers of the curves -/

/-- The modulus of X25519. -/
def X25519.certificates : List Certificate := [
  ⟨0x82d4b5, [991, 103]⟩,
  ⟨0x6d1cafa129d0b, [0x82d4b5, 127]⟩,
  ⟨0xa54d83af, [569003]⟩,
  ⟨0x10c9df5fc7, [0xa54d83af]⟩,
  ⟨0xe87c2a477b815a1793787395b23e1, [0x6d1cafa129d0b, 0x10c9df5fc7]⟩,
  ⟨0x70d382ab8b9939, [430751, 4153]⟩,
  ⟨0xabaf8c6b094fd0f32c2ccabab864dbecd99144679c1adf804898fb2042b,
    [0xe87c2a477b815a1793787395b23e1, 0x70d382ab8b9939]⟩,
  ⟨0x7fffffffffffffffffffffffffffffffffffffffffffffffffffffffffffffed,
    [0xabaf8c6b094fd0f32c2ccabab864dbecd99144679c1adf804898fb2042b]⟩]

theorem X25519.prime_modulus : modulus.Prime := by
  have h : Certificate.validAll [] certificates = true := by decide +kernel
  exact Certificate.prime_of_validAll (by simp) h _ (by decide +kernel)

namespace WeierstrassCurve

/-- The modulus of P-256 and the order of its base point. -/
def certificates256 : List Certificate := [
  ⟨0xa3b2bf8c32ceaf, [704251, 78283]⟩,
  ⟨0xf76c8ffcb, [3677, 197]⟩,
  ⟨0xa44e179dccf, [0xf76c8ffcb]⟩,
  ⟨0x22b559b5c816ae00f2378e18df38c5410ed597, [0xa3b2bf8c32ceaf, 0xa44e179dccf]⟩,
  ⟨0x926d1276e41fae13fdda5f78edb7802a76951509, [0x22b559b5c816ae00f2378e18df38c5410ed597]⟩,
  ⟨0xffffffff00000001000000000000000000000000ffffffffffffffffffffffff,
    [0x926d1276e41fae13fdda5f78edb7802a76951509]⟩,
  ⟨0xb6309a7, [155317]⟩,
  ⟨0x2e3802c35c7ed3b, [0xb6309a7, 3023]⟩,
  ⟨0x87b23e9d09d3e637b2aa341, [0x2e3802c35c7ed3b]⟩,
  ⟨0x3c936b, [104471]⟩,
  ⟨0xe95f681f97, [0x3c936b]⟩,
  ⟨0xffffffff00000000ffffffffffffffffbce6faada7179e84f3b9cac2fc632551,
    [0x87b23e9d09d3e637b2aa341, 0xe95f681f97]⟩]

/-- The modulus of P-384 and the order of its base point. -/
def certificates384 : List Certificate := [
  ⟨0x1fb97399, [363557]⟩,
  ⟨0x28dc22dab6f9, [0x1fb97399]⟩,
  ⟨0x788dfeed61e9c29d3cf, [0x28dc22dab6f9]⟩,
  ⟨0x4d6f0fac5c0e3050743c3537, [0x788dfeed61e9c29d3cf]⟩,
  ⟨0xae39e343cf1fecb5058777bbd, [0x4d6f0fac5c0e3050743c3537]⟩,
  ⟨0x10556d4e5b6afe30f884b3399b9, [0xae39e343cf1fecb5058777bbd]⟩,
  ⟨0x4be6ab2c80713e4d5142229baecfe3abc0f, [0x10556d4e5b6afe30f884b3399b9]⟩,
  ⟨0x8e5080f370d454d0f85c00e3e7c5cae209c3, [0x4be6ab2c80713e4d5142229baecfe3abc0f]⟩,
  ⟨0xeb2f301, [21407]⟩,
  ⟨0x650c9ef, [881, 211]⟩,
  ⟨0x1cb733b306cfe30dd1, [0xeb2f301, 0x650c9ef]⟩,
  ⟨0x23108c4e1b4108ec0ae7f9ac9f118677a6c53e44fd12fcacc07b805145240aae82349d3ce0e376778bd1,
    [0x8e5080f370d454d0f85c00e3e7c5cae209c3, 0x1cb733b306cfe30dd1]⟩,
  ⟨0xfffffffffffffffffffffffffffffffffffffffffffffffffffffffffffffffeffffffff0000000000000000ffffffff,
    [0x23108c4e1b4108ec0ae7f9ac9f118677a6c53e44fd12fcacc07b805145240aae82349d3ce0e376778bd1]⟩,
  ⟨0x1038119f, [421, 233]⟩,
  ⟨0x3537f9d1b9, [0x1038119f]⟩,
  ⟨0x15344d898fb7, [0x3537f9d1b9]⟩,
  ⟨0x1720b72947fc8b45d9, [0x15344d898fb7]⟩,
  ⟨0x4d4ccc69f97d91fa4d43bdf, [0x1720b72947fc8b45d9]⟩,
  ⟨0x39f9994f7b1e2d7bb9f2ce75, [0x4d4ccc69f97d91fa4d43bdf]⟩,
  ⟨0x9681fd, [881, 311]⟩,
  ⟨0x21f701ae83c3, [0x9681fd]⟩,
  ⟨0xc6bf5fd72f030f, [0x21f701ae83c3]⟩,
  ⟨0xa8c55f664384d6fe203ca16a45d7238cad2d61237ce2fa5933,
    [0x39f9994f7b1e2d7bb9f2ce75, 0xc6bf5fd72f030f]⟩,
  ⟨0x192a43d8f8a55b860e20c52b200024fbdd5c39850b80be9fa08e6156d781713c6b252c7,
    [0xa8c55f664384d6fe203ca16a45d7238cad2d61237ce2fa5933]⟩,
  ⟨0xffffffffffffffffffffffffffffffffffffffffffffffffc7634d81f4372ddf581a0db248b0a77aecec196accc52973,
    [0x192a43d8f8a55b860e20c52b200024fbdd5c39850b80be9fa08e6156d781713c6b252c7]⟩]

theorem prime_256 : p256.p.Prime ∧ p256.order.Prime := by
  have h : Certificate.validAll [] certificates256 = true := by decide +kernel
  have hp := Certificate.prime_of_validAll (by simp) h
  exact ⟨hp _ (by decide +kernel), hp _ (by decide +kernel)⟩

theorem prime_384 : p384.p.Prime ∧ p384.order.Prime := by
  have h : Certificate.validAll [] certificates384 = true := by decide +kernel
  have hp := Certificate.prime_of_validAll (by simp) h
  exact ⟨hp _ (by decide +kernel), hp _ (by decide +kernel)⟩

theorem prime_p_521 : p521.p.Prime := by
  have h : p521.p = mersenne 521 := by decide +kernel
  rw [h]
  exact lucas_lehmer_sufficiency 521 (by norm_num) (by norm_num)

end WeierstrassCurve

end SealedStream
