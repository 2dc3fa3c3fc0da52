import Mathlib
import SealedStream.Proofs.Cutting
import SealedStream.Proofs.Traces
/-!
# Hashing piece by piece

Shrinking and whitening as loops over a buffer, with every access checked, and what they leave in
it.

* `shrink?` fills a buffer with the digests of the pieces of a longer secret, `whiten?` replaces the
  blocks of a buffer in their place.
* `Cut` is a string in pieces of one width and what remains behind them. `Narrowest` is the digest
  that hashes the last piece.
* `shrink?_eq` and `whiten?_eq` say that the loops stay within bounds, and that they leave what
  `shrink` and `whiten` say; `shrink_eq` and `whiten_eq` give that piece by piece.
* `hashed_piecewise` puts this together.
-/
namespace SealedStream

namespace Bytes

/-- The first `n` octets of a string and the others, if it has as many. -/
def splitAt? (bs : Bytes) (n : Nat) : Option (Bytes × Bytes) :=
  if n ≤ bs.length then some (bs.take n, bs.drop n) else none

/-- A string with other octets in its place, which are as many. -/
def copy? (old new : Bytes) : Option Bytes := if new.length = old.length then some new else none

theorem splitAt?_eq {bs : Bytes} {n : Nat} (h : n ≤ bs.length) :
    bs.splitAt? n = some (bs.take n, bs.drop n) :=
  if_pos h

theorem copy?_eq {old new : Bytes} (h : new.length = old.length) : old.copy? new = some new :=
  if_pos h

end Bytes

namespace KeyStretch

/-! ## Pieces of one width -/

/-- A string in pieces of one width, and what remains. -/
structure Cut (width : Nat) (input : Bytes) (front : List Bytes) (last : Bytes) : Prop where
  width : ∀ piece ∈ front, piece.length = width
  whole : front.flatten ++ last = input

section
variable {width : Nat} {input last : Bytes} {front : List Bytes}

theorem Cut.nil (width : Nat) (last : Bytes) : Cut width last [] last := ⟨by simp, rfl⟩

theorem Cut.cons (hw : width ≤ input.length) (h : Cut width (input.drop width) front last) :
    Cut width input (input.take width :: front) last := by
  refine ⟨List.forall_mem_cons.2 ⟨List.length_take_of_le hw, h.width⟩, ?_⟩
  rw [List.flatten_cons, List.append_assoc, h.whole, List.take_append_drop]

theorem Cut.length_eq (h : Cut width input front last) :
    input.length = width * front.length + last.length := by
  have hsum : (front.map List.length).sum = front.length * width :=
    List.sum_eq_card_nsmul _ _ (by simpa using h.width) |>.trans (by simp)
  rw [← h.whole, List.length_append, List.length_flatten, hsum, Nat.mul_comm]

end

/-! ## The narrowest digest -/

/-- The digests that the last piece of a secret may be hashed by. -/
def digests : List Primitive := [.md5, .blake2b 32, .blake2b 48, .blake2b 64]

/-- The number of octets that a primitive gives. -/
def Primitive.size : Primitive → Nat
  | hsalsa20 _ => 32
  | md5 => 16
  | blake2b size => min size 64

theorem Primitive.length_run (d : Primitive) (input : Bytes) : (d.run input).length = d.size := by
  cases d with
  | hsalsa20 counter => exact Salsa20.length_hsalsa20 _ _ _
  | md5 => exact Md5.length_digest _
  | blake2b size => exact Blake2b.length_digest _ _

/-- The narrowest one of the digests that give `n` octets. -/
structure Narrowest (n : Nat) (d : Primitive) : Prop where
  mem : d ∈ digests
  le_size : n ≤ d.size
  least : ∀ d' ∈ digests, n ≤ d'.size → d.size ≤ d'.size

theorem narrowest_narrowestPrimitive {n : Nat} (h : n ≤ 64) :
    Narrowest n (narrowestPrimitive n) := by
  rw [narrowestPrimitive]
  split_ifs <;> constructor <;> simp [digests, Primitive.size] <;> omega

/-! ## Shrinking -/

/-- Fill a buffer with octets of a digest of the last piece. -/
def shrinkLast? (input buffer : Bytes) : Option Bytes := do
  let octets ← ((narrowestPrimitive buffer.length).run input).slice? 0 buffer.length
  buffer.copy? octets

/-- Fill as many chunks of a buffer as there are `more` pieces with their digests, and what is left
of it with octets of a digest of the rest. -/
def shrinkInto? (width : Nat) : (more : Nat) → (input buffer : Bytes) → Option Bytes
  | 0, input, buffer => shrinkLast? input buffer
  | more + 1, input, buffer => do
    let (head, tail) ← buffer.splitAt? chunk
    let (piece, rest) ← input.splitAt? width
    let head ← head.copy? (Blake2b.digest chunk piece)
    let tail ← shrinkInto? width more rest tail
    return head ++ tail

/-- Fill a buffer from a longer secret, with every access checked. -/
def shrink? (input buffer : Bytes) : Option Bytes :=
  let count := buffer.length ⌈/⌉ chunk
  if count = 0 then none else shrinkInto? (input.length / count) (count - 1) input buffer

theorem shrinkLast?_eq {input buffer : Bytes} (h : buffer.length ≤ 64) :
    shrinkLast? input buffer = some (narrowest input buffer.length) := by
  have hd := (narrowest_narrowestPrimitive h).le_size
  rw [← Primitive.length_run _ input] at hd
  have hc := output_narrowestCall input buffer.length
  rw [narrowestCall, Call.output] at hc
  rw [shrinkLast?, Bytes.slice?_eq (Nat.zero_le _) hd, List.drop_zero, hc]
  exact Bytes.copy?_eq (length_narrowest input h)

/-- **The loop** stays within bounds if there are octets for all pieces and room for all their
digests, and leaves what `shrinkFrom` says. -/
theorem shrinkInto?_eq {width more : Nat} {input buffer : Bytes} (hw : width * more ≤ input.length)
    (hlow : chunk * more ≤ buffer.length) (hup : buffer.length ≤ chunk * more + 64) :
    shrinkInto? width more input buffer =
      some (shrinkFrom width (buffer.length - chunk * more) more input) := by
  induction more generalizing input buffer with
  | zero => exact shrinkLast?_eq (by omega)
  | succ more ih =>
    rw [Nat.mul_succ] at hw hlow hup
    have hhead : (Blake2b.digest chunk (input.take width)).length = (buffer.take chunk).length := by
      rw [Blake2b.length_digest, List.length_take_of_le (by omega)]
      rfl
    have htail := @ih (input.drop width) (buffer.drop chunk)
      (by rw [List.length_drop]; omega) (by rw [List.length_drop]; omega)
      (by rw [List.length_drop]; omega)
    have hrest : (buffer.drop chunk).length - chunk * more =
        buffer.length - chunk * (more + 1) := by
      rw [List.length_drop, Nat.mul_succ]
      omega
    rw [shrinkInto?, Bytes.splitAt?_eq (by omega), Bytes.splitAt?_eq (by omega)]
    simp only [Option.bind_eq_bind, Option.bind_some, Bytes.copy?_eq hhead, htail, hrest]
    rfl

/-- The pieces that are hashed, and their digests. -/
theorem exists_cut_shrinkFrom {width n more : Nat} {input : Bytes}
    (hw : width * more ≤ input.length) :
    ∃ front last, front.length = more ∧ Cut width input front last ∧
      shrinkFrom width n more input =
        front.flatMap (Blake2b.digest chunk) ++ narrowest last n := by
  induction more generalizing input with
  | zero => exact ⟨[], input, rfl, .nil width input, rfl⟩
  | succ more ih =>
    rw [Nat.mul_succ] at hw
    obtain ⟨front, last, rfl, hc, hs⟩ := @ih (input.drop width) (by rw [List.length_drop]; omega)
    refine ⟨input.take width :: front, last, rfl, hc.cons (by omega), ?_⟩
    rw [shrinkFrom, hs, List.flatMap_cons, List.append_assoc]

section
variable {input buffer : Bytes} {total : Nat}

theorem ceilDiv_chunk (h : 0 < total) : total ⌈/⌉ chunk = (total - 1) / chunk + 1 := by
  have hc : chunk = 64 := rfl
  rw [Nat.ceilDiv_eq_add_pred_div, hc]
  omega

/-- All chunks but the last one leave at least one octet, and no more than a chunk. -/
theorem chunk_mul_lt (h : 0 < total) :
    0 < total ⌈/⌉ chunk ∧ chunk * (total ⌈/⌉ chunk - 1) < total ∧
      total ≤ chunk * (total ⌈/⌉ chunk - 1) + 64 := by
  have hc : chunk = 64 := rfl
  rw [ceilDiv_chunk h, Nat.add_sub_cancel, hc]
  omega

/-- Every piece has at least one octet, and so has what is left for the last one. -/
theorem width_pos (h : 0 < total) (hn : total < input.length) :
    0 < input.length / (total ⌈/⌉ chunk) ∧
      input.length / (total ⌈/⌉ chunk) * (total ⌈/⌉ chunk - 1) < input.length := by
  have hc : chunk = 64 := rfl
  obtain ⟨hcount, hlt, -⟩ := chunk_mul_lt h
  have hle : total ⌈/⌉ chunk ≤ input.length := by
    rw [hc] at hlt ⊢
    omega
  have hpos := Nat.div_pos hle hcount
  have hmul := Nat.div_mul_le_self input.length (total ⌈/⌉ chunk)
  have hlt := Nat.mul_lt_mul_of_pos_left (Nat.sub_lt hcount Nat.one_pos) hpos
  exact ⟨hpos, hlt.trans_le hmul⟩

theorem shrink_eq_shrinkFrom (h : 0 < total) :
    shrink input total = shrinkFrom (input.length / (total ⌈/⌉ chunk))
      (total - chunk * (total ⌈/⌉ chunk - 1)) (total ⌈/⌉ chunk - 1) input := by
  rw [ceilDiv_chunk h, Nat.add_sub_cancel]
  rfl

/-- **Shrinking** stays within bounds, whatever is in the buffer. -/
theorem shrink?_eq (h : 0 < buffer.length) (hn : buffer.length < input.length) :
    shrink? input buffer = some (shrink input buffer.length) := by
  obtain ⟨hcount, hlow, hup⟩ := chunk_mul_lt h
  rw [shrink_eq_shrinkFrom h, shrink?]
  exact (if_neg hcount.ne').trans (shrinkInto?_eq (width_pos h hn).2.le hlow.le hup)

/-- **Shrinking, piece by piece.** -/
theorem shrink_eq (h : 0 < total) (hn : total < input.length) :
    let count := total ⌈/⌉ chunk
    ∃ front last, front.length = count - 1 ∧ Cut (input.length / count) input front last ∧
      last ≠ [] ∧ shrink input total =
        front.flatMap (Blake2b.digest chunk) ++ narrowest last (total - chunk * (count - 1)) := by
  intro count
  have hlt := (width_pos h hn).2
  obtain ⟨front, last, hf, hc, hs⟩ := @exists_cut_shrinkFrom (input.length / count)
    (total - chunk * (count - 1)) _ _ hlt.le
  refine ⟨front, last, hf, hc, ?_, (shrink_eq_shrinkFrom h).trans hs⟩
  rintro rfl
  have hlen := hc.length_eq
  rw [hf, List.length_nil] at hlen
  exact hlt.ne' hlen

theorem length_shrink (h : 0 < total) : (shrink input total).length = total := by
  have hgen (width n more : Nat) (hn : n ≤ 64) (input : Bytes) :
      (shrinkFrom width n more input).length = chunk * more + n := by
    induction more generalizing input with
    | zero => rw [shrinkFrom, length_narrowest input hn, Nat.mul_zero, Nat.zero_add]
    | succ more ih =>
      rw [shrinkFrom, List.length_append, ih, Blake2b.length_digest, Nat.mul_succ]
      have hc : min chunk 64 = chunk := rfl
      omega
  obtain ⟨-, hlow, hup⟩ := chunk_mul_lt h
  rw [shrink_eq_shrinkFrom h, hgen _ _ _ (by omega), Nat.add_sub_cancel' hlow.le]

end

/-! ## Whitening -/

/-- Replace what is left of a buffer behind the whole blocks. -/
def whitenLast? (buffer : Bytes) : Option Bytes :=
  if buffer = [] then some buffer
  else do
    let octets ← (Blake2b.digest 64 buffer).slice? 0 buffer.length
    buffer.copy? octets

/-- Replace the first `count` blocks of a buffer and what is left of it. A block is transformed in
`scratch`, which holds the one before it until then. -/
def whitenInto? : (count : Nat) → (scratch buffer : Bytes) → Option Bytes
  | 0, _, buffer => whitenLast? buffer
  | count + 1, scratch, buffer => do
    let (head, tail) ← buffer.splitAt? chunk
    let scratch ← scratch.copy? head
    let scratch := Salsa20.core208 scratch
    let head ← head.copy? scratch
    let tail ← whitenInto? count scratch tail
    return head ++ tail

/-- Whiten a buffer in its place, with every access checked. -/
def whiten? (buffer : Bytes) : Option Bytes :=
  whitenInto? (buffer.length / chunk) (.zeros chunk) buffer

section
variable {buffer : Bytes}

theorem whiten_nil : whiten [] = [] := rfl

theorem whiten_of_lt (h : buffer.length < chunk) :
    whiten buffer = (Blake2b.digest 64 buffer).take buffer.length := by
  by_cases hb : buffer = []
  · rw [hb, whiten_nil, List.length_nil, List.take_zero]
  · rw [whiten, Bytes.pieces_eq_cons (by decide) hb, List.take_of_length_le h.le,
      List.drop_of_length_le h.le, Bytes.pieces_nil, List.flatMap_singleton, if_neg h.ne]

theorem whiten_of_le (h : chunk ≤ buffer.length) :
    whiten buffer = Salsa20.core208 (buffer.take chunk) ++ whiten (buffer.drop chunk) := by
  have hb : buffer ≠ [] := by
    rintro rfl
    exact absurd h (by decide)
  rw [whiten, Bytes.pieces_eq_cons (by decide) hb, List.flatMap_cons,
    if_pos (List.length_take_of_le h)]
  rfl

theorem whitenLast?_eq (h : buffer.length < chunk) : whitenLast? buffer = some (whiten buffer) := by
  have hd : buffer.length ≤ (Blake2b.digest 64 buffer).length := by
    rw [Blake2b.length_digest]
    exact h.le
  rw [whitenLast?]
  by_cases hb : buffer = []
  · rw [if_pos hb, hb, whiten_nil]
  · rw [if_neg hb, Bytes.slice?_eq (Nat.zero_le _) hd, whiten_of_lt h, List.drop_zero]
    exact Bytes.copy?_eq (List.length_take_of_le hd)

/-- What was transformed before has no influence on a block. -/
theorem whitenInto?_eq {count : Nat} {scratch : Bytes} (hs : scratch.length = chunk)
    (hc : buffer.length / chunk = count) :
    whitenInto? count scratch buffer = some (whiten buffer) := by
  induction count generalizing scratch buffer with
  | zero => exact whitenLast?_eq ((Nat.div_eq_zero_iff_lt (by decide)).1 hc)
  | succ count ih =>
    have hle : chunk ≤ buffer.length := (Nat.div_pos_iff.1 (by omega)).2
    have htake := List.length_take_of_le hle
    have hcore := Salsa20.length_core208 (buffer.take chunk)
    have hrest : (buffer.drop chunk).length / chunk = count := by
      rw [Nat.div_eq_sub_div (by decide) hle] at hc
      rw [List.length_drop]
      exact Nat.succ_injective hc
    have htail := ih hcore hrest
    rw [whitenInto?, Bytes.splitAt?_eq hle]
    simp only [Option.bind_eq_bind, Option.bind_some, Bytes.copy?_eq (htake.trans hs.symm),
      Bytes.copy?_eq (hcore.trans htake.symm), htail, whiten_of_le hle]
    rfl

/-- **Whitening** stays within bounds. -/
theorem whiten?_eq (buffer : Bytes) : whiten? buffer = some (whiten buffer) :=
  whitenInto?_eq (Bytes.length_zeros chunk) rfl

/-- **Whitening, block by block.** -/
theorem whiten_eq (material : Bytes) :
    ∃ blocks tail, Cut chunk material blocks tail ∧ tail.length < chunk ∧
      whiten material = blocks.flatMap Salsa20.core208 ++
        (Blake2b.digest 64 tail).take tail.length := by
  induction material using Bytes.pieces_induction (by decide : 0 < chunk) with
  | nil => exact ⟨[], [], .nil _ _, by decide, rfl⟩
  | cons material _ ih =>
    rcases Nat.lt_or_ge material.length chunk with h | h
    · exact ⟨[], material, .nil _ _, h, whiten_of_lt h⟩
    · obtain ⟨blocks, tail, hc, ht, hw⟩ := ih
      refine ⟨material.take chunk :: blocks, tail, hc.cons h, ht, ?_⟩
      rw [whiten_of_le h, hw, List.flatMap_cons, List.append_assoc]

theorem length_whiten (material : Bytes) : (whiten material).length = material.length := by
  induction material using Bytes.pieces_induction (by decide : 0 < chunk) with
  | nil => rfl
  | cons material _ ih =>
    have hchunk : chunk = 64 := rfl
    rcases Nat.lt_or_ge material.length chunk with h | h
    · rw [whiten_of_lt h, List.length_take, Blake2b.length_digest]
      omega
    · rw [whiten_of_le h, List.length_append, ih, Salsa20.length_core208, List.length_drop]
      omega

end

/-! ## Both -/

/-- **Shrinking and whitening go piece by piece.** A buffer that is shorter than a secret is filled
within bounds, whatever it holds. The secret is cut into as many pieces as the buffer has chunks,
begun ones included; none is empty, all but the last one have the same width, and together they are
the secret. The digests of all but the last one stand in the buffer, and behind them octets of the
narrowest digest of the last one that has enough. Whitening replaces every whole block of a buffer
by what becomes of that block alone, and what is left by as many octets of its digest. -/
theorem hashed_piecewise {input buffer : Bytes} (h : 0 < buffer.length)
    (hn : buffer.length < input.length) (material : Bytes) :
    let total := buffer.length
    let count := total ⌈/⌉ chunk
    let width := input.length / count
    let left := total - chunk * (count - 1)
    (shrink? input buffer = some (shrink input total) ∧ (shrink input total).length = total ∧
      1 ≤ width ∧
      ∃ front last d, front.length = count - 1 ∧ Cut width input front last ∧ last ≠ [] ∧
        Narrowest left d ∧
        shrink input total = front.flatMap (Blake2b.digest 64) ++ (d.run last).take left) ∧
    whiten? material = some (whiten material) ∧ (whiten material).length = material.length ∧
      ∃ blocks tail, Cut 64 material blocks tail ∧ tail.length < 64 ∧
        whiten material = blocks.flatMap Salsa20.core208 ++
          (Blake2b.digest 64 tail).take tail.length := by
  intro total count width left
  obtain ⟨front, last, hf, hc, hne, hs⟩ := shrink_eq h hn
  have hleft : left ≤ 64 := Nat.sub_le_iff_le_add'.2 (chunk_mul_lt h).2.2
  have hd := output_narrowestCall last left
  rw [narrowestCall, Call.output] at hd
  rw [← hd] at hs
  exact ⟨⟨shrink?_eq h hn, length_shrink h, (width_pos h hn).1, front, last, _, hf, hc, hne,
    narrowest_narrowestPrimitive hleft, hs⟩, whiten?_eq material, length_whiten material,
    whiten_eq material⟩

/-- Two pieces of fifty octets for a chunk and sixteen octets, and a block with six octets behind
it. -/
theorem hashed_piecewise_hundred :
    let input : Bytes := List.replicate 50 1 ++ List.replicate 50 2
    shrink? input (.zeros 80) =
        some (Blake2b.digest 64 (List.replicate 50 1) ++ Md5.digest (List.replicate 50 2)) ∧
      ∃ blocks tail, Cut 64 (Bytes.zeros 70) blocks tail ∧ blocks.length = 1 ∧
        tail.length = 6 := by
  intro input
  have hin : input.length = 100 := by simp [input]
  have hz (n : Nat) : (Bytes.zeros n).length = n := Bytes.length_zeros n
  obtain ⟨⟨hs, -, -, front, last, d, hf, hc, -, hd, he⟩, -, -, blocks, tail, hb, ht, -⟩ :=
    @hashed_piecewise input (.zeros 80) (by rw [hz]; decide) (by rw [hz, hin]; decide) (.zeros 70)
  rw [hz] at hs hf hc hd he
  have hwidth : input.length / (80 ⌈/⌉ chunk) = 50 := by rw [hin]; rfl
  have hleft : 80 - chunk * (80 ⌈/⌉ chunk - 1) = 16 := rfl
  rw [hwidth] at hc
  rw [hleft] at hd he
  obtain ⟨piece, rfl⟩ := List.length_eq_one_iff.1 hf
  have hpiece := hc.width piece (List.mem_singleton_self piece)
  have hwhole := hc.whole
  rw [List.flatten_singleton] at hwhole
  obtain ⟨rfl, rfl⟩ := List.append_inj hwhole (by rw [hpiece, List.length_replicate])
  have hmd5 : d = .md5 := by
    have hle := hd.least .md5 (by simp [digests]) le_rfl
    have hmem := hd.mem
    simp only [digests, List.mem_cons, List.not_mem_nil, or_false] at hmem
    rcases hmem with rfl | rfl | rfl | rfl
    · rfl
    all_goals exact absurd hle (by decide)
  refine ⟨?_, blocks, tail, hb, ?_⟩
  · rw [hs, he, hmd5, List.flatMap_singleton]
    exact congrArg _ (congrArg _ (List.take_of_length_le (Md5.length_digest _).le))
  · have hlen := hb.length_eq
    rw [hz] at hlen
    omega

end KeyStretch

end SealedStream
