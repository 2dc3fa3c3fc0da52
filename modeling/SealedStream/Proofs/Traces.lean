import Mathlib
import SealedStream.Proofs.Filling
/-!
# Material with its calls

What `resize` does once more, with a record of what is hashed on the way.

* A `Call` is a use of a `Primitive`; `Traced` is octets with the calls that they were made of.
* `expandFromTraced`, `expandTraced`, `shrinkFromTraced` and `traced` are the functions with their
  calls; `output_traced` says that the octets are those of `resize`.
* `expandFromTraced_kept`, `expandFromTraced_gap`, `expandFromTraced_again` and
  `expandFromTraced_block` are the turns of the loop that expands a secret.
-/
namespace SealedStream.KeyStretch

/-! ## Uses of primitives -/

/-- What secrets are hashed with. -/
inductive Primitive where
  | hsalsa20 (counter : Bytes)
  | md5
  | blake2b (size : Nat)

def Primitive.run : Primitive → Bytes → Bytes
  | hsalsa20 counter, input => Salsa20.hsalsa20 input sigma32 counter
  | md5, input => Md5.digest input
  | blake2b size, input => Blake2b.digest size input

/-- A use of a primitive, of which the first octets are kept. -/
structure Call where
  primitive : Primitive
  input : Bytes
  kept : Nat

/-- The octets that are kept of what a primitive gives. -/
def Call.output (c : Call) : Bytes := (c.primitive.run c.input).take c.kept

/-! ## Calls in their order -/

/-- Octets, and the calls that they were made of in their order. -/
structure Traced where
  output : Bytes
  calls : List Call

/-- The call that makes the block of a window. -/
def windowCall (input counter : Bytes) (start : Nat) : Call :=
  ⟨.hsalsa20 counter, windowBefore input start, 32⟩

/-- The call that makes the octets between the secret and the blocks. -/
def gapCall (input : Bytes) (start stop : Nat) : Call :=
  ⟨.md5, windowBefore input start, stop - start⟩

/-- `expandFrom` with its calls. -/
def expandFromTraced (input counter : Bytes) (start stop : Nat) (tail : Bytes) : Traced :=
  if stop - start < window then
    if stop ≤ input.length then ⟨input.take stop ++ tail, []⟩
    else
      let c := gapCall input start stop
      ⟨input.take start ++ c.output ++ tail, [c]⟩
  else if start < window then
    if stop ≤ input.length ∨ input.length < window then ⟨input.take stop ++ tail, []⟩
    else expandFromTraced input (increment counter) input.length stop tail
  else
    let c := windowCall input counter start
    let t := expandFromTraced input counter (start - window) (stop - 32) (c.output ++ tail)
    ⟨t.output, c :: t.calls⟩
termination_by (stop, if start < window then 1 else 0)
decreasing_by
  · have : ¬ input.length < window := by omega
    apply Prod.Lex.right
    simp [*]
  · apply Prod.Lex.left
    simp only [window] at *
    omega

/-- The call by which a short secret is filled up. -/
def widenCall (input : Bytes) : Call := ⟨.md5, input, window - input.length⟩

/-- `expand` with its calls. -/
def expandTraced (input : Bytes) (total : Nat) : Traced :=
  let n := input.length
  if n < window ∧ window ≤ total - n then
    let c := widenCall input
    let widened := input ++ c.output
    if total = window then ⟨widened, [c]⟩
    else
      let t := expandFromTraced widened sigma16 window total []
      ⟨t.output, c :: t.calls⟩
  else expandFromTraced input sigma16 n total []

/-- The narrowest digest that has `n ≤ 64` octets. -/
def narrowestPrimitive (n : Nat) : Primitive :=
  if n ≤ 16 then .md5
  else if n ≤ 32 then .blake2b 32
  else if n ≤ 48 then .blake2b 48
  else .blake2b 64

/-- The call for the last piece, of which `n` octets are kept. -/
def narrowestCall (piece : Bytes) (n : Nat) : Call := ⟨narrowestPrimitive n, piece, n⟩

/-- The call for a piece that is not the last one. -/
def pieceCall (piece : Bytes) : Call := ⟨.blake2b chunk, piece, chunk⟩

/-- `shrinkFrom` with its calls. -/
def shrinkFromTraced (width n : Nat) : (more : Nat) → Bytes → Traced
  | 0, input => let c := narrowestCall input n; ⟨c.output, [c]⟩
  | more + 1, input =>
    let c := pieceCall (input.take width)
    let t := shrinkFromTraced width n more (input.drop width)
    ⟨c.output ++ t.output, c :: t.calls⟩

/-- `resize` with its calls. -/
def traced (raw : Bytes) (total : Nat) : Traced :=
  if total = 0 then ⟨[], []⟩
  else if raw.length < total then expandTraced raw total
  else if total < raw.length then
    let more := (total - 1) / chunk
    shrinkFromTraced (raw.length / (more + 1)) (total - chunk * more) more raw
  else ⟨raw, []⟩

/-! ## What the calls make -/

theorem length_narrowest (piece : Bytes) {n : Nat} (hn : n ≤ 64) :
    (narrowest piece n).length = n := by
  rw [narrowest, List.length_take]
  split_ifs <;> simp <;> omega

section
variable (input counter tail : Bytes) (start stop : Nat)

theorem output_windowCall : (windowCall input counter start).output =
    Salsa20.hsalsa20 (windowBefore input start) sigma32 counter :=
  List.take_of_length_le (Salsa20.length_hsalsa20 _ _ _).le

theorem output_pieceCall : (pieceCall input).output = Blake2b.digest chunk input :=
  List.take_of_length_le (Blake2b.length_digest _ _).le

theorem output_narrowestCall (n : Nat) : (narrowestCall input n).output = narrowest input n := by
  rw [narrowestCall, Call.output, narrowestPrimitive, narrowest]
  split_ifs <;> rfl

theorem output_expandFromTraced : (expandFromTraced input counter start stop tail).output =
    expandFrom input counter start stop tail := by
  fun_induction expandFrom input counter start stop tail with
  | case1 counter start stop tail hg hs => rw [expandFromTraced, if_pos hg, if_pos hs]
  | case2 counter start stop tail hg hs =>
    rw [expandFromTraced, if_pos hg, if_neg hs]
    rfl
  | case3 counter start stop tail hg hst hs =>
    rw [expandFromTraced, if_neg hg, if_pos hst, if_pos hs]
  | case4 counter start stop tail hg hst hs ih =>
    rw [expandFromTraced, if_neg hg, if_pos hst, if_neg hs, ih]
  | case5 counter start stop tail hg hst block =>
    rename_i ih
    have hb : (windowCall input counter start).output = block := output_windowCall _ _ _
    rw [← hb] at ih ⊢
    rw [expandFromTraced, if_neg hg, if_neg hst]
    exact ih

theorem output_expandTraced (total : Nat) :
    (expandTraced input total).output = expand input total := by
  rw [expandTraced, expand]
  by_cases hn : input.length < window ∧ window ≤ total - input.length
  · rw [if_pos hn, if_pos hn]
    by_cases ht : total = window
    · rw [if_pos ht, if_pos ht]
      rfl
    · rw [if_neg ht, if_neg ht]
      exact output_expandFromTraced _ _ _ _ _
  · rw [if_neg hn, if_neg hn]
    exact output_expandFromTraced _ _ _ _ _

theorem output_shrinkFromTraced (width n more : Nat) :
    (shrinkFromTraced width n more input).output = shrinkFrom width n more input := by
  induction more generalizing input with
  | zero => exact output_narrowestCall input n
  | succ more ih => rw [shrinkFromTraced, shrinkFrom, ← ih, ← output_pieceCall]

/-- **The calls make the material.** -/
theorem output_traced (total : Nat) : (traced input total).output = resize input total := by
  rw [traced, resize]
  split_ifs
  · rfl
  · exact output_expandTraced input total
  · exact output_shrinkFromTraced _ _ _ _
  · rfl

end

/-! ## What a turn of the loop makes -/

section
variable {input counter tail : Bytes} {start stop : Nat}

theorem expandFromTraced_kept (hs : stop ≤ input.length)
    (hg : stop - start < window ∨ start < window) :
    expandFromTraced input counter start stop tail = ⟨input.take stop ++ tail, []⟩ := by
  rw [expandFromTraced]
  by_cases h : stop - start < window
  · rw [if_pos h, if_pos hs]
  · rw [if_neg h, if_pos (hg.resolve_left h), if_pos (.inl hs)]

theorem expandFromTraced_gap (hs : input.length < stop) (hg : stop - start < window) :
    expandFromTraced input counter start stop tail =
      ⟨input.take start ++ (gapCall input start stop).output ++ tail,
        [gapCall input start stop]⟩ := by
  rw [expandFromTraced, if_pos hg, if_neg (Nat.not_le.2 hs)]

theorem expandFromTraced_again (hn : window ≤ input.length) (hs : input.length < stop)
    (hg : window ≤ stop - start) (hst : start < window) :
    expandFromTraced input counter start stop tail =
      expandFromTraced input (increment counter) input.length stop tail := by
  rw [expandFromTraced, if_neg (Nat.not_lt.2 hg), if_pos hst, if_neg]
  exact not_or.2 ⟨Nat.not_le.2 hs, Nat.not_lt.2 hn⟩

theorem expandFromTraced_block (hg : window ≤ stop - start) (hst : window ≤ start) :
    let t := expandFromTraced input counter (start - window) (stop - 32)
      ((windowCall input counter start).output ++ tail)
    expandFromTraced input counter start stop tail =
      ⟨t.output, windowCall input counter start :: t.calls⟩ := by
  intro t
  conv_lhs => rw [expandFromTraced, if_neg (Nat.not_lt.2 hg), if_neg (Nat.not_lt.2 hst)]

end

section
variable {input : Bytes} {total : Nat}

theorem expandTraced_of_loop (h : window ≤ input.length ∨ total - input.length < window) :
    expandTraced input total = expandFromTraced input sigma16 input.length total [] := by
  refine if_neg ?_
  rwa [not_and_or, Nat.not_lt, Nat.not_le]

theorem expandTraced_of_short (hn : input.length < window) (hg : window ≤ total - input.length) :
    expandTraced input total =
      if total = window then ⟨widen input, [widenCall input]⟩
      else
        ⟨(expandFromTraced (widen input) sigma16 window total []).output,
          widenCall input :: (expandFromTraced (widen input) sigma16 window total []).calls⟩ :=
  if_pos ⟨hn, hg⟩

end

end SealedStream.KeyStretch
