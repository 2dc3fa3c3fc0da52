import Mathlib
import SealedStream.Proofs.Numerals
import SealedStream.Proofs.Traces
/-!
# The closed form of expansion

* `counterAt k` is the counter after `k` steps, `blockAt input j` the block number `j` and `blocks`
  the first blocks in the order in which they stand. `Exhausted` says when there is no room for
  another block.
* `expandFrom_blocks` says where the loop is after some blocks, `expand_of_long` what it leaves.
* `fills_expansion` puts together what becomes of secrets of any length.
-/
namespace SealedStream.KeyStretch

/-! ## Counters and blocks -/

/-- The counter after `k` steps: a number of 128 bits. -/
def counterAt (k : Nat) : Bytes := .ofNatLE 16 ((sigma16.toNatLE + k) % 2 ^ 128)

/-- The block number `j`, made of a window of the secret. The windows come from the end of the
secret to its beginning, again and again, every time with the next counter. -/
def blockAt (input : Bytes) (j : Nat) : Bytes :=
  let count := input.length / window
  Salsa20.hsalsa20 (windowBefore input (input.length - window * (j % count))) sigma32
    (counterAt (j / count))

/-- The first `n` blocks, the last one first. -/
def blocks (input : Bytes) : (n : Nat) → Bytes
  | 0 => []
  | j + 1 => blockAt input j ++ blocks input j

/-- After `j` blocks less than a window is left between the window that is next and the blocks:
`total - 32 * j < n - window * (j % (n / window)) + window` for a secret of `n` octets. -/
def Exhausted (n total j : Nat) : Prop :=
  total + window * (j % (n / window)) < n + window + 32 * j

instance (n total j : Nat) : Decidable (Exhausted n total j) := inferInstanceAs (Decidable (_ < _))

@[simp] theorem length_blocks (input : Bytes) (n : Nat) : (blocks input n).length = 32 * n := by
  induction n with
  | zero => rfl
  | succ j ih =>
    rw [blocks, List.length_append, ih, blockAt, Salsa20.length_hsalsa20]
    omega

theorem increment_eq (bs : Bytes) : increment bs = .ofNatLE bs.length (bs.toNatLE + 1) := by
  induction bs with
  | nil => rfl
  | cons b bs ih =>
    have hb := b.toNat_lt
    rw [increment, List.length_cons, Bytes.toNatLE_cons, Bytes.ofNatLE]
    by_cases h : b + 1 = 0
    · have hb' : (b.toNat + 1) % 2 ^ 8 = 0 :=
        (UInt8.toNat_add b 1).symm.trans (congrArg UInt8.toNat h)
      have hq : (b.toNat + 256 * Bytes.toNatLE bs + 1) / 256 = Bytes.toNatLE bs + 1 := by omega
      rw [if_pos h, hq, ih]
      congr 1
      apply UInt8.toNat_inj.1
      rw [UInt8.toNat_ofNat', UInt8.toNat_zero]
      omega
    · have hb' : b.toNat ≠ 255 := fun hb => h (UInt8.toNat_inj.1 (by rw [UInt8.toNat_add, hb]; rfl))
      have hq : (b.toNat + 256 * Bytes.toNatLE bs + 1) / 256 = Bytes.toNatLE bs := by omega
      rw [if_neg h, hq, Bytes.ofNatLE_toNatLE]
      congr 1
      apply UInt8.toNat_inj.1
      rw [UInt8.toNat_ofNat', UInt8.toNat_add, UInt8.toNat_one]
      omega

theorem counterAt_zero : counterAt 0 = sigma16 := by
  have hl : sigma16.length = 16 := rfl
  have h := Bytes.ofNatLE_toNatLE sigma16
  rw [hl] at h
  exact (Bytes.ofNatLE_mod 16 _).trans h

theorem increment_counterAt (k : Nat) : increment (counterAt k) = counterAt (k + 1) := by
  have hp : (2 : Nat) ^ 128 = 256 ^ 16 := by norm_num
  have hlt := Nat.mod_lt (sigma16.toNatLE + k) (by norm_num : 0 < 256 ^ 16)
  rw [increment_eq, counterAt, counterAt, hp, Bytes.length_ofNatLE, Bytes.toNatLE_ofNatLE hlt,
    ← Bytes.ofNatLE_mod 16 (_ % _ + 1), Nat.mod_add_mod, Nat.add_assoc]

/-! ## What a turn of the loop makes -/

section
variable {input counter tail : Bytes} {start stop : Nat}

theorem expandFrom_kept (hs : stop ≤ input.length) (hg : stop - start < window ∨ start < window) :
    expandFrom input counter start stop tail = input.take stop ++ tail := by
  rw [← output_expandFromTraced, expandFromTraced_kept hs hg]

theorem expandFrom_gap (hs : input.length < stop) (hg : stop - start < window) :
    expandFrom input counter start stop tail =
      input.take start ++ (Md5.digest (windowBefore input start)).take (stop - start) ++ tail := by
  rw [← output_expandFromTraced, expandFromTraced_gap hs hg]
  rfl

theorem expandFrom_again (hn : window ≤ input.length) (hs : input.length < stop)
    (hg : window ≤ stop - start) (hst : start < window) :
    expandFrom input counter start stop tail =
      expandFrom input (increment counter) input.length stop tail := by
  rw [← output_expandFromTraced, expandFromTraced_again hn hs hg hst, output_expandFromTraced]

theorem expandFrom_block (hg : window ≤ stop - start) (hst : window ≤ start) :
    expandFrom input counter start stop tail =
      expandFrom input counter (start - window) (stop - 32)
        (Salsa20.hsalsa20 (windowBefore input start) sigma32 counter ++ tail) := by
  rw [← output_expandFromTraced, expandFromTraced_block hg hst, output_expandFromTraced,
    output_windowCall]

/-- When the windows are used up, it makes no difference whether the loop ends at once or only after
it has begun again. -/
theorem expandFrom_usedUp (hst : start < window) (hn : start + window ≤ input.length) :
    expandFrom input counter start stop tail =
      expandFrom input (increment counter) input.length stop tail := by
  have hw : window = 16 := rfl
  by_cases hs : stop ≤ input.length
  · rw [expandFrom_kept hs (.inr hst), expandFrom_kept hs]
    left
    omega
  · exact expandFrom_again (by omega) (by omega) (by omega) hst

end

/-! ## What the loop makes -/

private theorem succ_div_mod_of_lt {count j : Nat} (h : j % count + 1 < count) :
    (j + 1) / count = j / count ∧ (j + 1) % count = j % count + 1 := by
  have hj : j + 1 = j % count + 1 + count * (j / count) := by
    have := Nat.mod_add_div j count
    omega
  rw [hj, Nat.add_mul_div_left _ _ (by omega), Nat.add_mul_mod_self_left, Nat.mod_eq_of_lt h,
    Nat.div_eq_of_lt h, Nat.zero_add]
  exact ⟨rfl, rfl⟩

private theorem succ_div_mod_of_ge {count j : Nat} (hc : 0 < count) (h : count ≤ j % count + 1) :
    (j + 1) / count = j / count + 1 ∧ (j + 1) % count = 0 := by
  have hlt := Nat.mod_lt j hc
  have hj : j + 1 = count * (j / count + 1) := by
    have := Nat.mod_add_div j count
    rw [Nat.mul_add, Nat.mul_one]
    omega
  rw [hj, Nat.mul_div_cancel_left _ hc, Nat.mul_mod_right]
  exact ⟨rfl, rfl⟩

section
variable {input : Bytes} {total : Nat} (hn : window ≤ input.length)
include hn

/-- The loop after `j` blocks. -/
theorem expandFrom_blocks {j : Nat} (h : ∀ i < j, ¬ Exhausted input.length total i) :
    let count := input.length / window
    32 * j ≤ total ∧ expandFrom input sigma16 input.length total [] =
      expandFrom input (counterAt (j / count)) (input.length - window * (j % count))
        (total - 32 * j) (blocks input j) := by
  intro count
  have hw : window = 16 := rfl
  have hc : 0 < count := Nat.div_pos hn (by decide)
  have hcn : window * count ≤ input.length := Nat.mul_div_le _ _
  induction j with
  | zero =>
    refine ⟨Nat.zero_le _, ?_⟩
    rw [Nat.zero_div, Nat.zero_mod, counterAt_zero]
    rfl
  | succ j ih =>
    obtain ⟨hle, he⟩ := ih fun i hi => h i (Nat.lt_succ_of_lt hi)
    have hx : ¬ total + window * (j % count) < input.length + window + 32 * j :=
      h j (Nat.lt_succ_self j)
    have hr := Nat.mod_lt j hc
    have hrn : window * (j % count) + window ≤ input.length :=
      (Nat.mul_le_mul_left window hr).trans hcn
    have hstop : 32 * (j + 1) ≤ total := by omega
    refine ⟨hstop, ?_⟩
    rw [he, expandFrom_block (by omega) (by omega), Nat.sub_sub, Nat.sub_sub]
    rcases Nat.lt_or_ge (j % count + 1) count with hlast | hlast
    · obtain ⟨hq, hm⟩ := succ_div_mod_of_lt hlast
      rw [hq, hm]
      rfl
    · -- the last window: the next block is made of the first one again
      obtain ⟨hq, hm⟩ := succ_div_mod_of_ge hc hlast
      have hlast : j % count + 1 = count := by omega
      have hall : window * (j % count) + window = window * count := by
        rw [← Nat.mul_succ, Nat.succ_eq_add_one, hlast]
      have hrest : input.length - window * count < window := by
        rw [Nat.sub_lt_iff_lt_add hcn, Nat.add_comm, ← Nat.mul_succ]
        exact Nat.lt_mul_div_succ _ (by decide)
      rw [expandFrom_usedUp (by omega) (by omega), increment_counterAt, hq, hm]
      rfl

theorem exists_exhausted : ∃ j, Exhausted input.length total j := by
  refine ⟨total, ?_⟩
  have hc := Nat.mod_lt total (Nat.div_pos hn (by decide))
  have hle := (Nat.mul_le_mul_left window hc.le).trans (Nat.mul_div_le input.length window)
  have hw : 0 < window := by decide
  rw [Exhausted]
  omega

/-- **A secret of a window at least** is kept as far as the blocks leave room for it; what is left
between it and the blocks is filled with octets of a digest of its last window. -/
theorem expand_of_long :
    ∃ count, IsLeast {j | Exhausted input.length total j} count ∧ 32 * count ≤ total ∧
      total - 32 * count < input.length + window ∧
      expand input total = input.take (total - 32 * count) ++
        (Md5.digest (windowBefore input input.length)).take (total - 32 * count - input.length) ++
        blocks input count := by
  have hw : window = 16 := rfl
  have hex : ∃ j, Exhausted input.length total j := exists_exhausted hn
  obtain ⟨hle, he⟩ := expandFrom_blocks hn fun i hi => Nat.find_min hex hi
  have hlast := Nat.find_spec hex
  refine ⟨Nat.find hex, ⟨hlast, fun j hj => Nat.find_min' hex hj⟩, hle, ?_⟩
  rw [expand_of_loop (.inl hn), he]
  generalize Nat.find hex = count at hle hlast ⊢
  rw [Exhausted] at hlast
  have hr := Nat.mod_lt count (Nat.div_pos hn (by decide : 0 < window))
  have hrn := (Nat.mul_le_mul_left window hr.le).trans (Nat.mul_div_le input.length window)
  refine ⟨by omega, ?_⟩
  rcases Nat.lt_or_ge input.length (total - 32 * count) with hs | hs
  · -- all of the secret is kept, so no window has been used under this counter
    have hfirst : window * (count % (input.length / window)) = 0 := by
      rcases Nat.eq_zero_or_pos (count % (input.length / window)) with h0 | h0
      · rw [h0, Nat.mul_zero]
      · have := Nat.le_mul_of_pos_right window h0
        omega
    rw [hfirst, Nat.sub_zero, expandFrom_gap hs (by omega), List.take_of_length_le hs.le,
      List.take_length]
  · rw [expandFrom_kept hs (by omega), Nat.sub_eq_zero_of_le hs, List.take_zero, List.append_nil]

end

/-! ## Secrets of any length -/

/-- A short secret is kept where the material hardly exceeds it. -/
theorem expand_of_near {input : Bytes} {total : Nat} (h : input.length < total)
    (hg : total - input.length < window) :
    expand input total = input ++ (Md5.digest (windowBefore input input.length)).take
      (total - input.length) := by
  rw [expand_of_loop (.inr hg), expandFrom_gap h hg, List.take_length, List.append_nil]

theorem windowBefore_of_short {input : Bytes} (h : input.length < window) :
    windowBefore input input.length = input := by
  rw [windowBefore, List.take_length, Nat.sub_eq_zero_of_le h.le, List.drop_zero]

theorem length_expand {input : Bytes} {total : Nat} (h : input.length < total) :
    (expand input total).length = total := by
  have hw : window = 16 := rfl
  have hlong {input : Bytes} (hn : window ≤ input.length) (ht : input.length < total) :
      (expand input total).length = total := by
    obtain ⟨count, -, hle, hgap, he⟩ := expand_of_long hn
    rw [he, List.length_append, List.length_append, List.length_take, List.length_take,
      Md5.length_digest, length_blocks]
    omega
  rcases Nat.lt_or_ge input.length window with hn | hn
  · rcases Nat.lt_or_ge (total - input.length) window with hg | hg
    · rw [expand_of_near h hg, List.length_append, List.length_take, Md5.length_digest]
      omega
    · rw [expand_of_short hn hg]
      by_cases ht : total = window
      · rw [if_pos ht, length_widen hn, ht]
      · rw [if_neg ht, hlong (length_widen hn).ge (by rw [length_widen hn]; omega)]
  · exact hlong hn h

/-- **The closed form of expansion.** A buffer that is longer than a secret is filled within bounds,
whatever it holds, and all of it. A secret of a window at least is kept as far as there is room for
it before the blocks, which are as few as leave less than a window; what is left in between is
filled with octets of a digest. A shorter secret is followed by octets of its digest if they
suffice; else it is filled up to a window by them, and that is expanded in its place. -/
theorem fills_expansion {input buffer : Bytes} (h : input.length < buffer.length) :
    let n := input.length
    let total := buffer.length
    (∀ result, Fills input buffer result ↔ result = expand input total) ∧
      (expand input total).length = total ∧
      (window ≤ n → ∃ count, IsLeast {j | Exhausted n total j} count ∧ 32 * count ≤ total ∧
        total - 32 * count < n + window ∧
        expand input total = input.take (total - 32 * count) ++
          (Md5.digest (windowBefore input n)).take (total - 32 * count - n) ++
          blocks input count) ∧
      (n < window → total - n < window →
        expand input total = input ++ (Md5.digest input).take (total - n)) ∧
      (n < window → window ≤ total - n → (widen input).length = window ∧
        expand input total =
          if total = window then widen input else expand (widen input) total) := by
  intro n total
  refine ⟨fun result => fills_iff h, length_expand h, fun hn => expand_of_long hn, ?_, ?_⟩
  · intro hn hg
    have he := expand_of_near h hg
    rwa [windowBefore_of_short hn] at he
  · intro hn hg
    exact ⟨length_widen hn, expand_of_short hn hg⟩

/-- A secret of one window: two blocks with different counters, and ten octets in between. -/
theorem fills_expansion_ninety :
    let input : Bytes := List.replicate 16 7
    Fills input (Bytes.zeros 90) (expand input 90) ∧
      expand input 90 = input ++ (Md5.digest input).take 10 ++
        (Salsa20.hsalsa20 input sigma32 (counterAt 1) ++
          Salsa20.hsalsa20 input sigma32 (counterAt 0)) := by
  intro input
  have hl : (Bytes.zeros 90).length = 90 := Bytes.length_zeros 90
  have hn : input.length = 16 := List.length_replicate
  obtain ⟨hf, -, hlong, -⟩ := @fills_expansion input (Bytes.zeros 90) (by omega)
  rw [hl, hn] at hlong
  rw [hl] at hf
  obtain ⟨count, hleast, -, -, he⟩ := hlong (by decide)
  have hcount : count = 2 := by
    refine hleast.unique ⟨(by decide : Exhausted 16 90 2), fun j hj => Nat.not_lt.1 fun hlt => ?_⟩
    have hnot : ∀ i < 2, ¬ Exhausted 16 90 i := by decide
    exact hnot j hlt hj
  have hwhole : windowBefore input 16 = input := rfl
  refine ⟨(hf _).2 rfl, ?_⟩
  rw [he, hcount, hwhole, blocks, blocks, blocks, blockAt, blockAt, hn, List.append_nil]
  rfl

end SealedStream.KeyStretch
