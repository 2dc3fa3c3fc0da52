import Mathlib
import SealedStream.Proofs.Curve.Orders
import SealedStream.Proofs.Curve.Roots
/-!
# The octets of points

Which octets tell a point of a curve, and which point they tell.

* `WeierstrassCurve.Has` says that two numbers are the coordinates of a point.
* `WeierstrassCurve.Encodes` are the three ways to write a point as octets.
* `WeierstrassCurve.Readable` is what the reading of points takes for granted of a curve, and
  `Readable.of_mem` says that the standard curves have it.
* `Readable.decode?_eq_some_iff`: octets are read as a point just if they encode it.
* `Readable.exists_encodes_iff`: the points that are encoded are those of the group, but for zero.
-/
namespace SealedStream

/-! ## Square roots -/

namespace Modular

theorem lt_of_sqrt? {p x y : Nat} (hp : 0 < p) (h : sqrt? p x = some y) :
    y < p ∧ y * y % p = x % p := by
  rw [sqrt?] at h
  split_ifs at h with hy
  cases h
  refine ⟨?_, hy⟩
  rw [pow_eq]
  exact Nat.mod_lt _ hp

/-- Every square has a root. -/
theorem exists_sqrt? {p x z : Nat} [Fact p.Prime] (h₄ : p % 4 = 3) (hz : z * z % p = x % p) :
    ∃ y, sqrt? p x = some y := by
  have hx : (x : ZMod p) = z * z := by
    have h := (ZMod.natCast_eq_natCast_iff' _ _ _).2 hz
    rw [← h, Nat.cast_mul]
  have hexp : (p + 1) / 4 + (p + 1) / 4 = (p + 1) / 2 := by omega
  have hexp' : 2 * ((p + 1) / 2) = p + 1 := by omega
  have hroot : pow p x ((p + 1) / 4) * pow p x ((p + 1) / 4) % p = x % p := by
    rw [← ZMod.natCast_eq_natCast_iff', Nat.cast_mul, cast_pow, ← pow_add, hexp, hx, ← sq,
      ← pow_mul, hexp', pow_succ, ZMod.pow_card, sq]
  exact ⟨_, if_pos hroot⟩

end Modular

namespace WeierstrassCurve

open WeierstrassCurve.Affine

/-! ## Points and octets -/

/-- The coordinates of a point of the curve. -/
structure Has (c : WeierstrassCurve) (x y : Nat) : Prop where
  x_lt : x < c.p
  y_lt : y < c.p
  square : y * y % c.p = (x * x * x + c.a * x + c.b) % c.p

/-- The octets that encode a point: both coordinates behind the tag 4, or the first one behind 2 or
3, if the other one is even or odd, or behind 5, if the other one is the lesser one of two. -/
inductive Encodes (c : WeierstrassCurve) : CurvePoint → Bytes → Prop where
  | uncompressed {x y : Nat} (h : c.Has x y) :
    Encodes c (.affine x y) (4 :: (Bytes.ofNatBE c.width x ++ Bytes.ofNatBE c.width y))
  | compressed {x y : Nat} (h : c.Has x y) :
    Encodes c (.affine x y) (UInt8.ofNat (2 + y % 2) :: Bytes.ofNatBE c.width x)
  | compact {x y : Nat} (h : c.Has x y) (hy : y ≤ c.p - y) :
    Encodes c (.affine x y) (5 :: Bytes.ofNatBE c.width x)

theorem Encodes.has {c : WeierstrassCurve} {q : CurvePoint} {bs : Bytes} (h : c.Encodes q bs) :
    ∃ x y, q = .affine x y ∧ c.Has x y := by
  cases h with
  | uncompressed h => exact ⟨_, _, rfl, h⟩
  | compressed h => exact ⟨_, _, rfl, h⟩
  | compact h _ => exact ⟨_, _, rfl, h⟩

theorem Encodes.width_lt_length {c : WeierstrassCurve} {q : CurvePoint} {bs : Bytes}
    (h : c.Encodes q bs) : c.width < bs.length := by
  cases h <;> simp only [List.length_cons, List.length_append, Bytes.length_ofNatBE] <;> omega

/-- What the reading of points takes for granted of a curve: a root is found of every square, and no
point has a second coordinate that is zero, which would be its own opposite. -/
structure Readable (c : WeierstrassCurve) : Prop extends Valid c where
  mod_four : c.p % 4 = 3
  square_ne_zero : ∀ x, c.square x ≠ 0

theorem Readable.of_mem {c : WeierstrassCurve} (hc : c ∈ [p256, p384, p521]) : c.Readable := by
  have hv := valid_of_mem hc
  refine ⟨hv, ?_, square_ne_zero_of_mem hc hv.prime⟩
  simp only [List.mem_cons, List.not_mem_nil, or_false] at hc
  rcases hc with rfl | rfl | rfl <;> decide +kernel

namespace Readable
variable {c : WeierstrassCurve} (hc : c.Readable)
include hc

section
variable {x y y' : Nat}

theorem pos_of_has (h : c.Has x y) : 0 < y := by
  refine Nat.pos_of_ne_zero ?_
  rintro rfl
  exact hc.square_ne_zero x h.square.symm

theorem mod_two : c.p % 2 = 1 := by
  have h := hc.mod_four
  omega

/-- The second coordinates of two points with the same first one are equal or opposite. -/
theorem eq_or_eq_sub (h : c.Has x y) (h' : c.Has x y') : y' = y ∨ y' = c.p - y := by
  have := Fact.mk hc.prime
  have hsq : (y' : ZMod c.p) * y' = y * y := by
    have he := (ZMod.natCast_eq_natCast_iff' _ _ _).2 (h'.square.trans h.square.symm)
    push_cast at he
    exact he
  rcases mul_self_eq_mul_self_iff.1 hsq with he | he
  · left
    have hmod := (ZMod.natCast_eq_natCast_iff' _ _ _).1 he
    rwa [Nat.mod_eq_of_lt h'.y_lt, Nat.mod_eq_of_lt h.y_lt] at hmod
  · right
    have hpos := hc.pos_of_has h
    have hlt : c.p - y < c.p := Nat.sub_lt hc.prime.pos hpos
    have hneg : ((c.p - y : Nat) : ZMod c.p) = -y := by
      rw [Nat.cast_sub h.y_lt.le, ZMod.natCast_self, zero_sub]
    have hmod := (ZMod.natCast_eq_natCast_iff' _ _ _).1 (he.trans hneg.symm)
    rwa [Nat.mod_eq_of_lt h'.y_lt, Nat.mod_eq_of_lt hlt] at hmod

/-- The opposite point. -/
theorem has_sub (h : c.Has x y) : c.Has x (c.p - y) := by
  have hpos := hc.pos_of_has h
  refine ⟨h.x_lt, Nat.sub_lt hc.prime.pos hpos, ?_⟩
  rw [← h.square, ← ZMod.natCast_eq_natCast_iff', Nat.cast_mul, Nat.cast_mul,
    Nat.cast_sub h.y_lt.le, ZMod.natCast_self]
  ring

end

/-! ## Reading -/

theorem coordinate?_eq_some_iff {bs : Bytes} {x : Nat} :
    c.coordinate? bs = some x ↔ x < c.p ∧ bs = Bytes.ofNatBE c.width x := by
  rw [coordinate?]
  constructor
  · intro h
    split_ifs at h with hlt
    cases h
    refine ⟨hlt.2, ?_⟩
    rw [← hlt.1, Bytes.ofNatBE_toNatBE]
  · rintro ⟨hlt, rfl⟩
    have hn := Bytes.toNatBE_ofNatBE (hlt.trans_le hc.le_width)
    rw [hn]
    exact if_pos ⟨Bytes.length_ofNatBE _ _, hlt⟩

/-- What is chosen from, where there is a point with a first coordinate. -/
theorem exists_lift? {x y : Nat} (h : c.Has x y) :
    ∃ y', (y' = y ∨ y' = c.p - y) ∧
      ∀ choose, c.lift? x choose = some (.affine x (choose y' (c.p - y'))) := by
  have := Fact.mk hc.prime
  obtain ⟨y', hy⟩ := @Modular.exists_sqrt? c.p (c.square x) y _ hc.mod_four (by
    rw [h.square, WeierstrassCurve.square, Nat.mod_mod])
  obtain ⟨hlt, hsq⟩ := Modular.lt_of_sqrt? hc.prime.pos hy
  rw [WeierstrassCurve.square, Nat.mod_mod] at hsq
  have h' : c.Has x y' := ⟨h.x_lt, hlt, hsq⟩
  have hmod := Nat.mod_eq_of_lt (Nat.sub_lt hc.prime.pos (hc.pos_of_has h'))
  refine ⟨y', hc.eq_or_eq_sub h h', fun choose => ?_⟩
  rw [lift?, hy]
  exact congrArg (fun n => some (CurvePoint.affine x (choose y' n))) hmod

theorem has_of_lift? {x : Nat} {choose : Nat → Nat → Nat} {q : CurvePoint} (hx : x < c.p)
    (h : c.lift? x choose = some q) :
    ∃ y, c.Has x y ∧ q = .affine x (choose y (c.p - y)) := by
  obtain ⟨y, hy, hq⟩ := Option.bind_eq_some_iff.1 h
  obtain ⟨hlt, hsq⟩ := Modular.lt_of_sqrt? hc.prime.pos hy
  rw [WeierstrassCurve.square, Nat.mod_mod] at hsq
  have h' : c.Has x y := ⟨hx, hlt, hsq⟩
  have hmod := Nat.mod_eq_of_lt (Nat.sub_lt hc.prime.pos (hc.pos_of_has h'))
  rw [hmod] at hq
  cases hq
  exact ⟨y, h', rfl⟩

omit hc in
theorem decode?_of_sign {tag : UInt8} (ht : tag = 2 ∨ tag = 3) (bs : Bytes) :
    c.decode? (tag :: bs) = (c.coordinate? bs).bind fun x =>
      c.lift? x fun y y' => if y % 2 = tag.toNat - 2 then y else y' := by
  rcases ht with rfl | rfl <;> rfl

theorem encodes_of_decode? {bs : Bytes} {q : CurvePoint} (h : c.decode? bs = some q) :
    c.Encodes q bs := by
  rcases bs with _ | ⟨tag, bs⟩
  · cases h
  by_cases h₄ : tag = 4
  · subst h₄
    obtain ⟨x, hx, h⟩ := Option.bind_eq_some_iff.1 h
    obtain ⟨y, hy, h⟩ := Option.bind_eq_some_iff.1 h
    obtain ⟨hxlt, hxs⟩ := hc.coordinate?_eq_some_iff.1 hx
    obtain ⟨hylt, hys⟩ := hc.coordinate?_eq_some_iff.1 hy
    split_ifs at h with hsq
    cases h
    have hbs := List.take_append_drop c.width bs
    rw [hxs, hys] at hbs
    rw [← hbs]
    exact .uncompressed ⟨hxlt, hylt, hsq⟩
  by_cases h₂ : tag = 2 ∨ tag = 3
  · rw [decode?_of_sign h₂] at h
    obtain ⟨x, hx, hl⟩ := Option.bind_eq_some_iff.1 h
    obtain ⟨hxlt, rfl⟩ := hc.coordinate?_eq_some_iff.1 hx
    obtain ⟨y, hy, rfl⟩ := hc.has_of_lift? hxlt hl
    have hodd := hc.mod_two
    have hlt := hy.y_lt
    have htag : tag.toNat - 2 < 2 ∧ UInt8.ofNat (2 + (tag.toNat - 2)) = tag := by
      rcases h₂ with rfl | rfl <;> decide
    by_cases hpar : y % 2 = tag.toNat - 2
    · rw [if_pos hpar]
      have he := Encodes.compressed hy
      rwa [hpar, htag.2] at he
    · rw [if_neg hpar]
      have hpar' : (c.p - y) % 2 = tag.toNat - 2 := by omega
      have he := Encodes.compressed (hc.has_sub hy)
      rwa [hpar', htag.2] at he
  by_cases h₅ : tag = 5
  · subst h₅
    obtain ⟨x, hx, hl⟩ := Option.bind_eq_some_iff.1 h
    obtain ⟨hxlt, rfl⟩ := hc.coordinate?_eq_some_iff.1 hx
    obtain ⟨y, hy, rfl⟩ := hc.has_of_lift? hxlt hl
    have hlt := hy.y_lt
    rcases Nat.le_total y (c.p - y) with hle | hle
    · rw [min_eq_left hle]
      exact .compact hy hle
    · rw [min_eq_right hle]
      exact .compact (hc.has_sub hy) (by omega)
  · rw [decode?, if_neg h₄, if_neg h₂, if_neg h₅] at h
    cases h

theorem decode?_of_encodes {bs : Bytes} {q : CurvePoint} (h : c.Encodes q bs) :
    c.decode? bs = some q := by
  cases h with
  | @uncompressed x y h =>
    have hx := hc.coordinate?_eq_some_iff.2 ⟨h.x_lt, rfl⟩
    have hy := hc.coordinate?_eq_some_iff.2 ⟨h.y_lt, rfl⟩
    have hlen := Bytes.length_ofNatBE c.width x
    rw [decode?, if_pos rfl, List.take_left' hlen, List.drop_left' hlen, hx, hy]
    exact if_pos h.square
  | @compressed x y h =>
    have hx := hc.coordinate?_eq_some_iff.2 ⟨h.x_lt, rfl⟩
    have hodd := hc.mod_two
    have hlt := h.y_lt
    have htag : (UInt8.ofNat (2 + y % 2) = 2 ∨ UInt8.ofNat (2 + y % 2) = 3) ∧
        (UInt8.ofNat (2 + y % 2)).toNat - 2 = y % 2 := by
      rcases Nat.mod_two_eq_zero_or_one y with hy | hy <;> rw [hy] <;> decide
    obtain ⟨y', hy', hl⟩ := hc.exists_lift? h
    rw [decode?_of_sign htag.1, hx, Option.bind_some, hl, htag.2]
    rcases hy' with rfl | rfl
    · rw [if_pos rfl]
    · rw [if_neg (by omega), Nat.sub_sub_self hlt.le]
  | @compact x y h hle =>
    have hx := hc.coordinate?_eq_some_iff.2 ⟨h.x_lt, rfl⟩
    have hlt := h.y_lt
    obtain ⟨y', hy', hl⟩ := hc.exists_lift? h
    have hd : c.decode? (5 :: Bytes.ofNatBE c.width x) =
        (c.coordinate? (Bytes.ofNatBE c.width x)).bind fun x => c.lift? x min := rfl
    rw [hd, hx, Option.bind_some, hl]
    rcases hy' with rfl | rfl
    · rw [min_eq_left hle]
    · rw [Nat.sub_sub_self hlt.le, min_eq_right hle]

/-- **Octets are read as a point** just if they encode it. -/
theorem decode?_eq_some_iff {bs : Bytes} {q : CurvePoint} :
    c.decode? bs = some q ↔ c.Encodes q bs :=
  ⟨hc.encodes_of_decode?, hc.decode?_of_encodes⟩

/-! ## The group -/

/-- **The points that are encoded** are those of the group, but for zero. -/
theorem exists_encodes_iff [Fact c.p.Prime] {q : CurvePoint} :
    (∃ bs, c.Encodes q bs) ↔ ∃ Q : (c.toAffine (ZMod c.p)).Point, Q ≠ 0 ∧ coordinates Q = q := by
  constructor
  · rintro ⟨bs, h⟩
    obtain ⟨x, y, rfl, hxy⟩ := h.has
    have hy : (y : ZMod c.p) ≠ 0 := (ZMod.natCast_eq_zero_iff _ _).not.2
      (Nat.not_dvd_of_pos_of_lt (hc.pos_of_has hxy) hxy.y_lt)
    have hns := nonsingular_of_square (ZMod.natCast_self c.p)
      (mul_ne_zero (two_ne_zero_of_lt hc.two_lt) hy) hxy.square
    refine ⟨.some _ _ hns, Point.some_ne_zero hns, ?_⟩
    rw [coordinates, ZMod.val_natCast_of_lt hxy.x_lt, ZMod.val_natCast_of_lt hxy.y_lt]
  · rintro ⟨Q, hQ, rfl⟩
    exact ⟨_, hc.encodes_of_decode? (decode?_encode hc.le_width hQ)⟩

end Readable

end WeierstrassCurve

end SealedStream
