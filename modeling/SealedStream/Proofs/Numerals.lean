import Mathlib
import SealedStream.Bytes
/-!
# Numbers of a fixed width

`toNatLE_ofNatLE` and `toNatBE_ofNatBE` say that a number which fits into its octets is read back
from them, `ofNatLE_mod` that of any other number the octets hold the rest, and `ofNatLE_toNatLE`
and `ofNatBE_toNatBE` that every string is that of its number.
-/
namespace SealedStream.Bytes

theorem toNatLE_ofNatLE {w n : Nat} (h : n < 256 ^ w) : toNatLE (ofNatLE w n) = n := by
  induction w generalizing n with
  | zero => simp at h; simp [ofNatLE, h]
  | succ w ih =>
    have hq : n / 256 < 256 ^ w := Nat.div_lt_of_lt_mul (by rw [Nat.pow_succ] at h; omega)
    simp only [ofNatLE, toNatLE_cons, ih hq, UInt8.toNat_ofNat']
    omega

theorem toNatBE_ofNatBE {w n : Nat} (h : n < 256 ^ w) : toNatBE (ofNatBE w n) = n := by
  rw [ofNatBE, toNatBE_reverse, toNatLE_ofNatLE h]

theorem ofNatLE_toNatLE (bs : Bytes) : ofNatLE bs.length bs.toNatLE = bs := by
  induction bs with
  | nil => rfl
  | cons b bs ih =>
    have hb := b.toNat_lt
    have hq : (b.toNat + 256 * toNatLE bs) / 256 = toNatLE bs := by omega
    rw [List.length_cons, toNatLE_cons, ofNatLE, hq, ih]
    congr 1
    apply UInt8.toNat_inj.1
    rw [UInt8.toNat_ofNat']
    omega

theorem ofNatBE_toNatBE (bs : Bytes) : ofNatBE bs.length bs.toNatBE = bs := by
  have h := ofNatLE_toNatLE bs.reverse
  rw [← toNatBE_reverse, List.reverse_reverse, List.length_reverse] at h
  rw [ofNatBE, h, List.reverse_reverse]

theorem ofNatLE_mod (w n : Nat) : ofNatLE w (n % 256 ^ w) = ofNatLE w n := by
  induction w generalizing n with
  | zero => rfl
  | succ w ih =>
    have hq : n % 256 ^ (w + 1) / 256 = n / 256 % 256 ^ w := by
      rw [Nat.pow_succ', Nat.mod_mul_right_div_self]
    have hr : n % 256 ^ (w + 1) % 256 = n % 256 := by
      rw [Nat.pow_succ', Nat.mod_mul_right_mod]
    rw [ofNatLE, ofNatLE, hq, ih]
    congr 1
    apply UInt8.toNat_inj.1
    rw [UInt8.toNat_ofNat', UInt8.toNat_ofNat']
    exact hr

end SealedStream.Bytes
