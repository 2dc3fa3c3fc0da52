import Mathlib
import SealedStream.Proofs.Cipher.Sealed
import SealedStream.Proofs.Faults
/-!
# What tells nonces apart

The nonces of a session, octet by octet and all of them together.

* `NonceChain.walk` is a step as a walk over the octets, which draws a word whenever nothing is left
  of the last one; `walk_eq` says that it is `NonceChain.advance`.
* `NonceChain.maskAt` is what step number `i` changes, in closed form, and `masks` what consecutive
  steps change together. Neither knows anything of the octets that are changed.
* `NonceChain.Stepped` is a chain after some steps. `stepped_iterate` says that every chain is one.
* `Sealer.RepeatsBy` says which chunks of a container have one nonce; `repeatsBy_requests` says so
  of all that a sealer writes.
* `nonce_differences` puts this together for two sessions with one seed.
-/
namespace SealedStream

/-! ## Exclusive or -/

namespace Bytes

theorem xor_comm (a b : Bytes) : xor a b = xor b a := List.zipWith_comm_of_comm UInt8.xor_comm

theorem xor_assoc (a b c : Bytes) : xor (xor a b) c = xor a (xor b c) := by
  induction a generalizing b c with
  | nil => rfl
  | cons x a ih =>
    rcases b with _ | ⟨y, b⟩
    · rfl
    rcases c with _ | ⟨z, c⟩
    · rfl
    exact congrArg₂ List.cons (UInt8.xor_assoc x y z) (ih b c)

theorem xor_self (a : Bytes) : xor a a = zeros a.length := by
  induction a with
  | nil => rfl
  | cons x a ih => exact congrArg₂ List.cons UInt8.xor_self ih

theorem xor_zeros (a : Bytes) : xor a (zeros a.length) = a := by
  induction a with
  | nil => rfl
  | cons x a ih => exact congrArg₂ List.cons UInt8.xor_zero ih

theorem take_xor (n : Nat) (a b : Bytes) : (xor a b).take n = xor (a.take n) (b.take n) :=
  List.take_zipWith

/-- A mask that changes nothing is zero. -/
theorem eq_xor_iff {a b : Bytes} (h : a.length = b.length) : a = xor a b ↔ b = zeros b.length := by
  constructor
  · intro ha
    have hb : xor (xor a a) b = xor a a := by rw [xor_assoc, ← ha]
    rwa [xor_self, h, xor_comm, xor_zeros] at hb
  · intro hb
    rw [hb, ← h, xor_zeros]

/-- What is masked alike differs as before. -/
theorem xor_xor_xor {a b c : Bytes} (hb : a.length = b.length) (hc : a.length = c.length) :
    xor (xor a c) (xor b c) = xor a b := by
  rw [xor_comm b c, xor_assoc, ← xor_assoc c c b, xor_self, ← hc, hb, xor_comm _ b, xor_zeros]

/-- A mask goes no farther than what is masked. -/
theorem xor_take_length (a b : Bytes) : xor a (b.take a.length) = xor a b := by
  have h := take_xor a.length a b
  rw [List.take_length] at h
  rw [← h, List.take_of_length_le]
  rw [length_xor]
  exact min_le_left _ _

theorem ofNatLE_eq_map (w n : Nat) :
    ofNatLE w n = (List.range w).map fun p => UInt8.ofNat (n / 256 ^ p) := by
  induction w generalizing n with
  | zero => rfl
  | succ w ih =>
    rw [ofNatLE, ih, List.range_succ_eq_map, List.map_cons, List.map_map, Nat.pow_zero, Nat.div_one]
    congr 1
    refine List.map_congr_left fun p _ => ?_
    rw [Function.comp_apply, Nat.div_div_eq_div_mul, ← Nat.pow_succ']

end Bytes

/-! ## Outputs of a mixer -/

namespace Mixer

/-- The state after `n` outputs. -/
def after (m : Mixer) (n : Nat) : Mixer := (fun m => m.next.2)^[n] m

/-- Output number `n`. -/
def output (m : Mixer) (n : Nat) : UInt64 := (m.after n).next.1

theorem after_add (m : Mixer) (i j : Nat) : m.after (i + j) = (m.after i).after j := by
  rw [after, Nat.add_comm, Function.iterate_add_apply]
  rfl

theorem output_after (m : Mixer) (i j : Nat) : (m.after i).output j = m.output (i + j) := by
  rw [output, output, after_add]

end Mixer

namespace NonceChain

/-! ## Octet by octet -/

/-- Where a walk over octets is: what is left of the last draw, how many octets that is, and the
mixer. -/
structure Walk where
  word : UInt64
  left : Nat
  mixer : Mixer

namespace Walk

/-- Draw a word if nothing is left of the last one. -/
def refill (w : Walk) : Walk :=
  if w.left = 0 then ⟨(draw w.mixer).1, 8, (draw w.mixer).2⟩ else w

/-- Change an octet. -/
def step (w : Walk) (b : UInt8) : UInt8 × Walk :=
  let w := w.refill
  (b ^^^ w.word.toUInt8, { w with word := w.word >>> 8, left := w.left - 1 })

/-- The mask of the next `n` octets, or a longer one, and the mixer behind them. -/
def ahead (w : Walk) (n : Nat) : Bytes × Mixer :=
  let rest := draws ((n - w.left + 7) / 8) w.mixer
  (Bytes.ofNatLE w.left w.word.toNat ++ rest.1, rest.2)

theorem ahead_refill (w : Walk) (n : Nat) : w.refill.ahead (n + 1) = w.ahead (n + 1) := by
  obtain ⟨word, left, mixer⟩ := w
  rw [refill]
  split_ifs with h
  · dsimp only at h
    subst h
    have hn : (n + 1 - 0 + 7) / 8 = (n + 1 - 8 + 7) / 8 + 1 := by omega
    rw [ahead, ahead, hn, draws]
    rfl
  · rfl

theorem left_refill (w : Walk) : w.refill.left ≠ 0 := by
  rw [refill]
  split_ifs with h
  · exact Nat.succ_ne_zero 7
  · exact h

/-- **The walk** changes the octets that are ahead, and leaves nothing of a draw for later. -/
theorem transduce_step (w : Walk) (bs : Bytes) :
    (Bytes.transduce step w bs).1 = Bytes.xor bs (w.ahead bs.length).1 ∧
      (Bytes.transduce step w bs).2.mixer = (w.ahead bs.length).2 := by
  induction bs generalizing w with
  | nil =>
    have hn : (0 - w.left + 7) / 8 = 0 := by omega
    rw [Bytes.transduce_nil, List.length_nil, ahead, hn]
    exact ⟨rfl, rfl⟩
  | cons b bs ih =>
    rw [List.length_cons, ← ahead_refill, Bytes.transduce_cons, step]
    generalize hw : w.refill = w'
    obtain ⟨word, left, mixer⟩ := w'
    obtain ⟨left, rfl⟩ := Nat.exists_eq_succ_of_ne_zero (hw ▸ w.left_refill)
    have hword : (word >>> 8).toNat = word.toNat / 256 := by
      rw [UInt64.toNat_shiftRight, Nat.shiftRight_eq_div_pow]
      rfl
    have hoctet : word.toUInt8 = UInt8.ofNat word.toNat := by
      apply UInt8.toNat_inj.1
      rw [UInt64.toNat_toUInt8, UInt8.toNat_ofNat']
    have hn : bs.length + 1 - (left + 1) = bs.length - left := Nat.add_sub_add_right _ _ _
    obtain ⟨h₁, h₂⟩ := ih ⟨word >>> 8, left, mixer⟩
    refine ⟨?_, ?_⟩
    · refine Eq.trans (congrArg (_ :: ·) h₁) ?_
      dsimp only [ahead, Nat.succ_eq_add_one]
      rw [hn, hword, hoctet, Bytes.ofNatLE, List.cons_append]
      rfl
    · refine h₂.trans ?_
      dsimp only [ahead, Nat.succ_eq_add_one]
      rw [hn]

end Walk

/-- A step, as a walk over the octets. -/
def walk (c : NonceChain) : NonceChain :=
  let r := Bytes.transduce Walk.step ⟨0, 0, c.mixer⟩ c.octets
  { c with octets := r.1, mixer := r.2.mixer }

/-- **A step is a walk over the octets.** -/
theorem walk_eq (c : NonceChain) : c.walk = c.advance := by
  obtain ⟨octets, nonceSize, mixer⟩ := c
  obtain ⟨h₁, h₂⟩ := Walk.transduce_step ⟨0, 0, mixer⟩ octets
  rw [walk, h₁, h₂]
  have hx := Bytes.xor_take_length octets (draws ((octets.length + 7) / 8) mixer).1
  exact congrArg (fun bs : Bytes => NonceChain.mk bs nonceSize _) hx.symm

/-! ## Masks in closed form -/

/-- The word that is drawn from an output. -/
def drawn (x : UInt64) : UInt64 := (x >>> 1) * 3

/-- Octet `p` of what step number `i` changes in a string of `len` octets. Each step has draws of
its own, as many as it takes, and each draw gives eight octets, the low one first. -/
def maskOctet (len : Nat) (m : Mixer) (i p : Nat) : UInt8 :=
  UInt8.ofNat ((drawn (m.output (i * (len ⌈/⌉ 8) + p / 8))).toNat / 256 ^ (p % 8))

/-- What step number `i` changes in a string of `len` octets. -/
def maskAt (len : Nat) (m : Mixer) (i : Nat) : Bytes := (List.range len).map (maskOctet len m i)

/-- What the `d` steps from step number `i` on change together. -/
def masks (len : Nat) (m : Mixer) (i : Nat) : (d : Nat) → Bytes
  | 0 => .zeros len
  | d + 1 => Bytes.xor (masks len m i d) (maskAt len m (i + d))

@[simp] theorem length_maskAt (len : Nat) (m : Mixer) (i : Nat) :
    (maskAt len m i).length = len := by
  rw [maskAt, List.length_map, List.length_range]

@[simp] theorem length_masks (len : Nat) (m : Mixer) (i d : Nat) :
    (masks len m i d).length = len := by
  induction d with
  | zero => exact Bytes.length_zeros len
  | succ d ih => rw [masks, Bytes.length_xor, ih, length_maskAt, min_self]

theorem draws_eq (n : Nat) (m : Mixer) :
    draws n m = ((List.range (8 * n)).map fun p =>
      UInt8.ofNat ((drawn (m.output (p / 8))).toNat / 256 ^ (p % 8)), m.after n) := by
  induction n generalizing m with
  | zero => rfl
  | succ n ih =>
    have hd : draw m = (drawn (m.output 0), m.after 1) := rfl
    have hlen : 8 * (n + 1) = 8 + 8 * n := by omega
    rw [draws, hd]
    dsimp only
    rw [ih, ← Mixer.after_add, Bytes.ofNatLE_eq_map, hlen, List.range_add, List.map_append,
      List.map_map, Nat.add_comm n 1]
    refine congrArg₂ Prod.mk (congrArg₂ _ ?_ ?_) rfl
    · refine List.map_congr_left fun p hp => ?_
      have hp := List.mem_range.1 hp
      rw [Nat.div_eq_of_lt hp, Nat.mod_eq_of_lt hp]
    · refine List.map_congr_left fun p _ => ?_
      rw [Function.comp_apply, Mixer.output_after, Nat.add_mod_left, Nat.add_div_left _ (by decide),
        Nat.add_comm 1]

/-- The mask of step number `i`, and the mixer behind it. -/
theorem mask_after (len : Nat) (m : Mixer) (i : Nat) :
    mask len (m.after (i * (len ⌈/⌉ 8))) = (maskAt len m i, m.after ((i + 1) * (len ⌈/⌉ 8))) := by
  have hw : len ⌈/⌉ 8 = (len + 7) / 8 := Nat.ceilDiv_eq_add_pred_div len 8
  have hle : len ≤ 8 * (len ⌈/⌉ 8) := by omega
  rw [mask, ← hw, draws_eq]
  dsimp only
  rw [← Mixer.after_add, Nat.add_mul, Nat.one_mul, ← List.map_take, List.take_range,
    min_eq_left hle]
  refine congrArg₂ Prod.mk (List.map_congr_left fun p _ => ?_) rfl
  rw [maskOctet, Mixer.output_after]

/-! ## Any number of steps -/

/-- A chain after `k` steps, that began with `first` and a mixer from `seed`: nonces of `n` octets
and `a` octets of associated data, changed by what `k` steps change, and the mixer behind all their
draws. -/
structure Stepped (n a : Nat) (seed : UInt64) (first : Bytes) (k : Nat) (c : NonceChain) :
    Prop where
  whole : c.nonce ++ c.associatedData = c.octets
  nonce : c.nonce.length = n
  associatedData : c.associatedData.length = a
  octets : c.octets = Bytes.xor first (masks (n + a) (.seeded seed) 0 k)
  mixer : c.mixer = (Mixer.seeded seed).after (k * ((n + a) ⌈/⌉ 8))

section
variable {n a : Nat} {c : NonceChain}

theorem Sized.iterate (h : Sized n a c) (k : Nat) : Sized n a (NonceChain.advance^[k] c) := by
  induction k with
  | zero => exact h
  | succ k ih =>
    rw [Function.iterate_succ_apply']
    exact ih.advance

/-- **What `d` steps do** to a chain whose mixer is at the beginning of step number `i`. -/
theorem iterate_advance {m : Mixer} {i : Nat} (h : Sized n a c)
    (hm : c.mixer = m.after (i * ((n + a) ⌈/⌉ 8))) (d : Nat) :
    (advance^[d] c).octets = Bytes.xor c.octets (masks (n + a) m i d) ∧
      (advance^[d] c).mixer = m.after ((i + d) * ((n + a) ⌈/⌉ 8)) := by
  induction d with
  | zero =>
    refine ⟨?_, hm⟩
    rw [masks, ← h.length, Bytes.xor_zeros]
    rfl
  | succ d ih =>
    obtain ⟨ho, hx⟩ := ih
    have hmask := mask_after (n + a) m (i + d)
    rw [Function.iterate_succ_apply', advance, (h.iterate d).length, hx, hmask, ho]
    exact ⟨Bytes.xor_assoc _ _ _, rfl⟩

/-- What the first `k` steps do. -/
theorem iterate_advance_first (h : Sized n a c) (k : Nat) :
    (advance^[k] c).octets = Bytes.xor c.octets (masks (n + a) c.mixer 0 k) ∧
      (advance^[k] c).mixer = c.mixer.after (k * ((n + a) ⌈/⌉ 8)) := by
  have hzero : c.mixer = c.mixer.after (0 * ((n + a) ⌈/⌉ 8)) := by
    rw [Nat.zero_mul]
    rfl
  have hk := iterate_advance h hzero k
  rwa [Nat.zero_add] at hk

/-- The seed that a chain takes from the entropy behind its octets. -/
def seed (n a : Nat) (e : Entropy) : UInt64 := (e.fill (n + a)).2.word.1

theorem stepped_iterate (n a : Nat) (e : Entropy) (k : Nat) :
    Stepped n a (seed n a e) (e.fill (n + a)).1 k (advance^[k] (start n a e).1) := by
  have hs := (sized_start n a e).iterate k
  obtain ⟨ho, hm⟩ := iterate_advance_first (sized_start n a e) k
  refine ⟨nonce_append_associatedData _, hs.length_nonce, ?_, ho, hm⟩
  rw [← hs.drop, List.length_drop, hs.length, Nat.add_sub_cancel_left]

/-- **Two chains with one mixer** always differ as they did at first. -/
theorem xor_iterate {c' : NonceChain} (h : Sized n a c) (h' : Sized n a c')
    (hm : c.mixer = c'.mixer) (k : Nat) :
    Bytes.xor (advance^[k] c).octets (advance^[k] c').octets = Bytes.xor c.octets c'.octets := by
  obtain ⟨ho, -⟩ := iterate_advance_first h k
  obtain ⟨ho', -⟩ := iterate_advance_first h' k
  rw [ho, ho', hm, Bytes.xor_xor_xor (h.length.trans h'.length.symm)]
  rw [length_masks, h.length]

/-- **Nonces are equal** where what is changed between them cancels out. -/
theorem nonce_iterate_eq_iff (n a : Nat) (e : Entropy) (i d : Nat) :
    (advance^[i] (start n a e).1).nonce = (advance^[i + d] (start n a e).1).nonce ↔
      (masks (n + a) (.seeded (seed n a e)) i d).take n = Bytes.zeros n := by
  have hs := (sized_start n a e).iterate i
  have hs' := (sized_start n a e).iterate (i + d)
  obtain ⟨ho, -⟩ := iterate_advance hs (stepped_iterate n a e i).mixer d
  rw [← Function.iterate_add_apply, Nat.add_comm d i] at ho
  have hl : ((masks (n + a) (.seeded (seed n a e)) i d).take n).length = n := by
    rw [List.length_take, length_masks]
    omega
  have hnonce := hs.length_nonce
  rw [← hs.take] at hnonce ⊢
  rw [← hs'.take, ho, Bytes.take_xor, Bytes.eq_xor_iff (hnonce.trans hl.symm), hl]

end

end NonceChain

/-! ## Sessions -/

/-- The chunks of an authenticated cipher have the strings of its chain, one after another. -/
theorem Encoder.Makes.nonce_eq {M : Modes} {A : M.Aead} {chain : NonceChain} {enc : Encoder M}
    {t : List (Piece × Chunk)} (h : Makes (.aead A chain) t enc) (i : Nat) (hi : i < t.length) :
    t[i].2.nonce = (NonceChain.advance^[i + 1] chain).octets := by
  induction t generalizing A chain i with
  | nil => cases hi
  | cons x t ih =>
    cases h with
    | cons he hs =>
      obtain ⟨data, A', -, rfl, rfl⟩ := encrypt_aead he
      cases i with
      | zero => rfl
      | succ i => exact ih hs i (Nat.lt_of_succ_lt_succ hi)

namespace Sealer

/-- Two chunks of a row have one nonce, of `n` octets, just where what the steps of the chain
between them change cancels out there. -/
def RepeatsBy (n a : Nat) (seed : UInt64) (t : List (Piece × Chunk)) : Prop :=
  ∀ i d (h : i + d < t.length), t[i].2.nonce.take n = t[i + d].2.nonce.take n ↔
    (NonceChain.masks (n + a) (.seeded seed) (i + 1) d).take n = Bytes.zeros n

section
variable {M : Modes} {s : Settings} {A : M.Aead} {e : Entropy}

theorem repeatsBy_makes {enc : Encoder M} {t : List (Piece × Chunk)}
    (h : Encoder.Makes (.start s e (.aead A)) t enc) :
    RepeatsBy (AeadMode.nonceSize A) s.associatedDataLen
      (NonceChain.seed (AeadMode.nonceSize A) s.associatedDataLen e) t := by
  intro i d hd
  generalize hn : AeadMode.nonceSize A = n
  have hs (k : Nat) := (NonceChain.sized_start n s.associatedDataLen e).iterate k
  have hiff := NonceChain.nonce_iterate_eq_iff n s.associatedDataLen e (i + 1) d
  rw [h.nonce_eq i ((Nat.le_add_right i d).trans_lt hd), h.nonce_eq (i + d) hd, hn, (hs _).take,
    (hs _).take, Nat.add_right_comm]
  exact hiff

/-- **What a sealer has written** that has not failed: chunks whose nonces repeat by the seed. -/
theorem repeatsBy_requests {σ : Type} [Sink σ] {p : Preamble} {sink : σ}
    {w : Sealer M (BufferedSink σ)} (hw : start s p (.aead A) e (s.buffered sink) = .ok w)
    (qs : List Request) (hn : ∀ cause, (w.requests qs).2.phase ≠ .failed cause) :
    ∃ t, (w.requests qs).2.output.taken = Container.octets ⟨p, t.map Prod.snd⟩ ∧
      RepeatsBy (AeadMode.nonceSize A) s.associatedDataLen
        (NonceChain.seed (AeadMode.nonceSize A) s.associatedDataLen e) t := by
  obtain ⟨t, ht⟩ := (start_written hw).2.requests qs hn
  exact ⟨t, ht.taken, repeatsBy_makes ht.makes⟩

end

end Sealer

open NonceChain in
/-- **The differences of nonces do not depend on the first string.** Take two entropies that may
differ in it, but go on with one seed. There is a chain unless the sum of the lengths is too large.
Then any number of steps, each of them a walk over the octets, keeps the lengths and changes the
first string by masks that depend on the seed and the length alone. So what two chains differ in is
always the same. The chunks of a session have equal nonces just where the masks between them cancel
out, whichever first string it has. -/
theorem nonce_differences {n a : Nat} {e e' : Entropy} (h : seed n a e = seed n a e') :
    (start? n a e = none ↔ wordMax < n + a) ∧
    (∀ {c rest c' rest'}, start? n a e = some (c, rest) → start? n a e' = some (c', rest') →
      ∀ k, walk^[k] c = advance^[k] c ∧
        Stepped n a (seed n a e) (e.fill (n + a)).1 k (advance^[k] c) ∧
        Bytes.xor (advance^[k] c).octets (advance^[k] c').octets =
          Bytes.xor (e.fill (n + a)).1 (e'.fill (n + a)).1) ∧
    ∀ {M : Modes} {s : Settings} {A : M.Aead}, AeadMode.nonceSize A = n →
      s.associatedDataLen = a →
      (∀ {first t enc}, Encoder.start? s e' (.aead A) = some first → Encoder.Makes first t enc →
        Sealer.RepeatsBy n a (seed n a e) t) ∧
      ∀ {σ : Type} [Sink σ] {p : Preamble} {sink : σ} {w : Sealer M (BufferedSink σ)},
        Sealer.start? s p (.aead A) e' (s.buffered sink) = some (.ok w) →
          ∀ qs : List Sealer.Request, (∀ cause, (w.requests qs).2.phase ≠ .failed cause) →
            ∃ t, (w.requests qs).2.output.taken = Container.octets ⟨p, t.map Prod.snd⟩ ∧
              Sealer.RepeatsBy n a (seed n a e) t := by
  refine ⟨start?_eq_none_iff, fun {c rest c' rest'} hc hc' k => ?_, ?_⟩
  · obtain rfl : (start n a e).1 = c := congrArg Prod.fst (start?_eq_some_iff.1 hc).2
    obtain rfl : (start n a e').1 = c' := congrArg Prod.fst (start?_eq_some_iff.1 hc').2
    refine ⟨?_, stepped_iterate n a e k, ?_⟩
    · rw [funext walk_eq]
    · exact xor_iterate (sized_start n a e) (sized_start n a e') (congrArg Mixer.seeded h) k
  · rintro M s A rfl rfl
    rw [h]
    refine ⟨fun hf hm => ?_, fun hw qs hn => ?_⟩
    · obtain rfl := Encoder.eq_start_of_start? hf
      exact Sealer.repeatsBy_makes hm
    · exact Sealer.repeatsBy_requests (Sealer.eq_start_of_start? hw).symm qs hn

open NonceChain in
/-- Two entropies that differ in their first four octets, and a session with the second one. -/
theorem nonce_differences_scripted :
    let e : Entropy := .scripted #[]
    let e' : Entropy := .scripted #[1, 2, 3, 4]
    (e.fill 4).1 ≠ (e'.fill 4).1 ∧
    (∃ c rest c' rest', start? 4 0 e = some (c, rest) ∧ start? 4 0 e' = some (c', rest') ∧
      ∀ k, Bytes.xor (advance^[k] c).octets (advance^[k] c').octets =
        Bytes.xor (e.fill 4).1 (e'.fill 4).1) ∧
    ∃ w t, @Sealer.start? .scripted _ _ .short ⟨[1], "x", "y"⟩ (.aead ⟨4, 2, 7, 0, 0⟩) e'
        (Settings.short.buffered ({} : ScriptedSink)) = some (.ok w) ∧
      (w.requests [.write (Bytes.zeros 20)]).2.output.taken =
        Container.octets ⟨⟨[1], "x", "y"⟩, t.map Prod.snd⟩ ∧
      Sealer.RepeatsBy 4 0 (seed 4 0 e) t := by
  intro e e'
  have hseed : seed 4 0 e = seed 4 0 e' := by decide +kernel
  obtain ⟨-, hk, hs⟩ := @nonce_differences 4 0 e e' hseed
  obtain ⟨w, hw⟩ : ∃ w, @Sealer.start? .scripted _ _ .short ⟨[1], "x", "y"⟩
      (.aead ⟨4, 2, 7, 0, 0⟩) e' (Settings.short.buffered ({} : ScriptedSink)) = some (.ok w) :=
    ⟨_, rfl⟩
  have hrun : (w.requests [.write (Bytes.zeros 20)]).2.phase.refusal?.isNone = true := by
    cases hw
    decide +kernel
  obtain ⟨t, ht, hr⟩ := (@hs .scripted .short ⟨4, 2, 7, 0, 0⟩ rfl rfl).2 hw
    [.write (Bytes.zeros 20)] fun cause hf => by
      rw [hf] at hrun
      cases hrun
  exact ⟨by decide, ⟨_, _, _, _, rfl, rfl, fun k => (hk rfl rfl k).2.2⟩, w, t, hw, ht, hr⟩

/-- Under settings that are accepted, a nonce of twelve octets and the associated data may be too
long together by one. Then there is no chain. -/
theorem NonceChain.no_chain_widest :
    let s : Settings := { maxFieldLen := wordMax, associatedDataLen := wordMax - 11 }
    s.validate = .ok () ∧ 12 ≤ Settings.maxNonceLen ∧ 12 + s.associatedDataLen = wordMax + 1 ∧
      ∀ e, start? 12 s.associatedDataLen e = none := by
  intro s
  exact ⟨rfl, by decide, by decide, start?_eq_none (by decide)⟩

end SealedStream
