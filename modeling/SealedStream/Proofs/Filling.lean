import Mathlib
import SealedStream.KeyStretch
/-!
# Filling a buffer in place

Expansion as a loop over a buffer. Every access and every difference is checked, so that a run which
leaves the bounds has no result.

* `Filling.turn` is a turn of the loop, and `Filling.Ends` a run of it that comes to an end.
  `Filling.Ready` holds before every turn.
* `Filling.Ready.ends`: the loop comes to an end with what `expandFrom` says.
* `Fills` is the whole of it, short secrets included; `fills_iff` says that it gives what `expand`
  says, whatever was in the buffer.
-/
namespace SealedStream

namespace Bytes

/-- The octets from place `i` up to place `j`, if a string has them. -/
def slice? (bs : Bytes) (i j : Nat) : Option Bytes :=
  if i ≤ j ∧ j ≤ bs.length then some ((bs.take j).drop i) else none

/-- A string with the octets from place `i` up to place `j`, if it has them, replaced by as many
others. -/
def overwrite? (bs : Bytes) (i j : Nat) (new : Bytes) : Option Bytes :=
  if i ≤ j ∧ j ≤ bs.length ∧ new.length = j - i then some (bs.take i ++ new ++ bs.drop j) else none

variable {bs new : Bytes} {i j : Nat}

theorem slice?_eq (hi : i ≤ j) (hj : j ≤ bs.length) :
    bs.slice? i j = some ((bs.take j).drop i) :=
  if_pos ⟨hi, hj⟩

theorem overwrite?_eq (hi : i ≤ j) (hj : j ≤ bs.length) (hn : new.length = j - i) :
    bs.overwrite? i j new = some (bs.take i ++ new ++ bs.drop j) :=
  if_pos ⟨hi, hj, hn⟩

end Bytes

namespace KeyStretch

/-! ## The loop -/

/-- A difference that is no less than zero. -/
def sub? (a b : Nat) : Option Nat := if b ≤ a then some (a - b) else none

theorem sub?_eq {a b : Nat} (h : b ≤ a) : sub? a b = some (a - b) := if_pos h

/-- Where the filling of a buffer is: the windows of the secret before `start` are still to be used
under this counter, and the octets of the buffer before `stop` are still to be filled. -/
structure Filling where
  counter : Bytes
  start : Nat
  stop : Nat
  buffer : Bytes

/-- The window of a secret that ends at `start`, or all up to there if that is less. -/
def before? (input : Bytes) (start : Nat) : Option Bytes :=
  if start < window then input.slice? 0 start
  else do
    let low ← sub? start window
    input.slice? low start

theorem before?_eq {input : Bytes} {start : Nat} (h : start ≤ input.length) :
    before? input start = some (windowBefore input start) := by
  rw [before?, windowBefore]
  by_cases hs : start < window
  · rw [if_pos hs, Bytes.slice?_eq (Nat.zero_le _) h, Nat.sub_eq_zero_of_le hs.le]
  · rw [if_neg hs, sub?_eq (Nat.not_lt.1 hs)]
    exact Bytes.slice?_eq (Nat.sub_le _ _) h

namespace Filling

/-- What a turn of the loop comes to. -/
inductive Turn where
  | again (f : Filling)
  | done (buffer : Bytes)

/-- A turn of the loop, with every access checked. -/
def turn (input : Bytes) (f : Filling) : Option Turn := do
  let gap ← sub? f.stop f.start
  if window ≤ gap then
    if f.start < window then
      if f.stop ≤ input.length then return .done f.buffer
      return .again { f with counter := increment f.counter, start := input.length }
    let piece ← before? input f.start
    let start ← sub? f.start window
    let stop ← sub? f.stop 32
    let block := Salsa20.hsalsa20 piece sigma32 f.counter
    let buffer ← f.buffer.overwrite? stop f.stop block
    return .again { f with start, stop, buffer }
  if f.stop ≤ input.length ∨ gap = 0 then return .done f.buffer
  let piece ← before? input f.start
  let octets ← (Md5.digest piece).slice? 0 gap
  let buffer ← f.buffer.overwrite? f.start f.stop octets
  return .done buffer

/-- The loop comes to an end within bounds, and leaves a buffer. -/
inductive Ends (input : Bytes) : Filling → Bytes → Prop where
  | done {f : Filling} {buffer : Bytes} (h : f.turn input = some (.done buffer)) :
    Ends input f buffer
  | again {f f' : Filling} {buffer : Bytes} (h : f.turn input = some (.again f'))
      (r : Ends input f' buffer) : Ends input f buffer

theorem Ends.unique {input a b : Bytes} {f : Filling} (ha : Ends input f a) (hb : Ends input f b) :
    a = b := by
  induction ha with
  | done h =>
    rcases hb with h' | ⟨h', -⟩
    · cases h.symm.trans h'
      rfl
    · cases h.symm.trans h'
  | again h r ih =>
    rcases hb with h' | ⟨h', r'⟩
    · cases h.symm.trans h'
    · cases h.symm.trans h'
      exact ih r'

/-- What holds before every turn: the places are in order, the secret stands at the beginning as far
as the buffer is not filled, and `tail` is what is filled. -/
structure Ready (input tail : Bytes) (f : Filling) : Prop where
  start_le_stop : f.start ≤ f.stop
  start_le : f.start ≤ input.length
  stop_le : f.stop ≤ f.buffer.length
  secret : input.take f.stop <+: f.buffer
  filled : f.buffer.drop f.stop = tail
  wide : window ≤ input.length ∨ f.stop - f.start < window

section
variable {input tail counter buffer : Bytes} {start stop : Nat}
  (h : Ready input tail ⟨counter, start, stop, buffer⟩)
include h

/-! ### What a turn comes to -/

theorem Ready.turn_kept (hs : stop ≤ input.length) (hg : stop - start < window ∨ start < window) :
    turn input ⟨counter, start, stop, buffer⟩ = some (.done (input.take stop ++ tail)) := by
  have hb : buffer = input.take stop ++ tail := by
    have hb := List.prefix_iff_eq_take.1 h.secret
    rw [List.length_take, min_eq_left hs] at hb
    rw [hb, ← h.filled, List.take_append_drop]
  rw [turn, sub?_eq h.start_le_stop, ← hb]
  rcases hg with hg | hg
  · simp [hs, Nat.not_le.2 hg]
  · simp [hs, hg]

theorem Ready.turn_gap (hs : input.length < stop) (hg : stop - start < window) :
    turn input ⟨counter, start, stop, buffer⟩ = some (.done (input.take start ++
      (Md5.digest (windowBefore input start)).take (stop - start) ++ tail)) := by
  have hw : window = 16 := rfl
  have hle : start ≤ input.length := h.start_le
  have hne : stop - start ≠ 0 := by omega
  have hbegin : buffer.take start = input.take start := by
    have hb := (List.take_prefix_take_left h.start_le_stop).trans h.secret
    rw [List.prefix_iff_eq_take, List.length_take, min_eq_left hle] at hb
    exact hb.symm
  have hoctets := @Bytes.slice?_eq (Md5.digest (windowBefore input start)) 0 (stop - start)
    (Nat.zero_le _) (by rw [Md5.length_digest]; omega)
  have hput := @Bytes.overwrite?_eq buffer
    ((Md5.digest (windowBefore input start)).take (stop - start)) start stop h.start_le_stop
    h.stop_le (by rw [List.length_take, Md5.length_digest]; omega)
  rw [turn, sub?_eq h.start_le_stop, ← hbegin, ← h.filled]
  simp [Nat.not_le.2 hg, Nat.not_le.2 hs, hne, before?_eq hle, hoctets, hput]

theorem Ready.turn_restart (hs : input.length < stop) (hg : window ≤ stop - start)
    (hst : start < window) :
    turn input ⟨counter, start, stop, buffer⟩ =
        some (.again ⟨increment counter, input.length, stop, buffer⟩) ∧
      Ready input tail ⟨increment counter, input.length, stop, buffer⟩ := by
  constructor
  · rw [turn, sub?_eq h.start_le_stop]
    simp [hg, hst, Nat.not_le.2 hs]
  · refine ⟨hs.le, le_rfl, h.stop_le, h.secret, h.filled, ?_⟩
    exact h.wide.imp_right fun hlt => absurd hg (Nat.not_le.2 hlt)

theorem Ready.turn_block (hg : window ≤ stop - start) (hst : window ≤ start) :
    ∃ buffer', turn input ⟨counter, start, stop, buffer⟩ =
        some (.again ⟨counter, start - window, stop - 32, buffer'⟩) ∧
      Ready input (Salsa20.hsalsa20 (windowBefore input start) sigma32 counter ++ tail)
        ⟨counter, start - window, stop - 32, buffer'⟩ := by
  have hw : window = 16 := rfl
  obtain ⟨hss, hsl, hsb, hsecret, hfilled, hwide⟩ := h
  dsimp only at hss hsl hsb hsecret hfilled hwide
  generalize hb : Salsa20.hsalsa20 (windowBefore input start) sigma32 counter = block
  have hl : block.length = stop - (stop - 32) := by
    rw [← hb, Salsa20.length_hsalsa20]
    omega
  have hput := Bytes.overwrite?_eq (Nat.sub_le stop 32) hsb hl
  refine ⟨buffer.take (stop - 32) ++ block ++ buffer.drop stop, ?_, ?_⟩
  · rw [turn, sub?_eq hss]
    simp [hg, Nat.not_lt.2 hst, before?_eq hsl, sub?_eq hst, @sub?_eq stop 32 (by omega), hb, hput]
  · have hl' : (buffer.take (stop - 32)).length = stop - 32 := by
      rw [List.length_take]
      omega
    constructor <;> dsimp only
    · omega
    · omega
    · rw [List.length_append, List.length_append, hl']
      omega
    · rw [List.append_assoc]
      refine List.IsPrefix.trans ?_ (List.prefix_append _ _)
      rw [List.prefix_take_iff]
      refine ⟨(List.take_prefix_take_left (Nat.sub_le stop 32)).trans hsecret, ?_⟩
      exact List.length_take_le _ _
    · rw [List.append_assoc, List.drop_left' hl', hfilled]
    · omega

end

/-- **The loop** comes to an end, and fills the buffer as `expandFrom` says. -/
theorem Ready.ends {input tail counter buffer : Bytes} {start stop : Nat}
    (h : Ready input tail ⟨counter, start, stop, buffer⟩) :
    Ends input ⟨counter, start, stop, buffer⟩ (expandFrom input counter start stop tail) := by
  fun_induction expandFrom input counter start stop tail generalizing buffer with
  | case1 counter start stop tail hg hs => exact .done (h.turn_kept hs (.inl hg))
  | case2 counter start stop tail hg hs => exact .done (h.turn_gap (Nat.not_le.1 hs) hg)
  | case3 counter start stop tail hg hst hs =>
    rcases hs with hs | hs
    · exact .done (h.turn_kept hs (.inr hst))
    · exact absurd (h.wide.resolve_left (Nat.not_le.2 hs)) hg
  | case4 counter start stop tail hg hst hs ih =>
    have hlt : input.length < stop := Nat.not_le.1 fun hle => hs (.inl hle)
    obtain ⟨ht, hr⟩ := h.turn_restart hlt (Nat.not_lt.1 hg) hst
    exact .again ht (ih hr)
  | case5 counter start stop tail hg hst block =>
    rename_i ih
    obtain ⟨buffer', ht, hr⟩ := h.turn_block (Nat.not_lt.1 hg) (Nat.not_lt.1 hst)
    exact .again ht (ih hr)

end Filling

/-! ## The whole buffer -/

/-- A short secret, filled up to a window with octets of its digest. -/
def widen (input : Bytes) : Bytes := input ++ (Md5.digest input).take (window - input.length)

/-- `widen`, with every access checked. -/
def widen? (input : Bytes) : Option Bytes := do
  let more ← sub? window input.length
  let octets ← (Md5.digest input).slice? 0 more
  return input ++ octets

/-- The filling of a buffer from a shorter secret comes to an end within bounds, and leaves `result`
in the buffer. -/
inductive Fills : (input buffer result : Bytes) → Prop where
  | loop {input buffer begun result : Bytes} {gap : Nat}
      (hg : sub? buffer.length input.length = some gap) (hn : window ≤ input.length ∨ gap < window)
      (hb : buffer.overwrite? 0 input.length input = some begun)
      (r : Filling.Ends input ⟨sigma16, input.length, buffer.length, begun⟩ result) :
    Fills input buffer result
  | copy {input buffer wide : Bytes} {gap : Nat} (hg : sub? buffer.length input.length = some gap)
      (hn : input.length < window) (hgap : window ≤ gap) (hw : widen? input = some wide)
      (hl : wide.length = buffer.length) : Fills input buffer wide
  | wide {input buffer wide result : Bytes} {gap : Nat}
      (hg : sub? buffer.length input.length = some gap) (hn : input.length < window)
      (hgap : window ≤ gap) (hw : widen? input = some wide) (hl : wide.length ≠ buffer.length)
      (r : Fills wide buffer result) : Fills input buffer result

section
variable {input buffer result : Bytes} {total : Nat}

theorem length_widen (h : input.length < window) : (widen input).length = window := by
  have hw : window = 16 := rfl
  rw [widen, List.length_append, List.length_take, Md5.length_digest]
  omega

theorem widen?_eq (h : input.length < window) : widen? input = some (widen input) := by
  have hl : window - input.length ≤ (Md5.digest input).length := by
    rw [Md5.length_digest]
    exact Nat.sub_le _ _
  rw [widen?, sub?_eq h.le]
  simp only [Option.bind_eq_bind, Option.bind_some, Bytes.slice?_eq (Nat.zero_le _) hl]
  rfl

theorem expand_of_loop (h : window ≤ input.length ∨ total - input.length < window) :
    expand input total = expandFrom input sigma16 input.length total [] := by
  refine if_neg ?_
  rwa [not_and_or, Nat.not_lt, Nat.not_le]

/-- A short secret is filled up first, where the material exceeds it by a window. -/
theorem expand_of_short (hn : input.length < window) (hg : window ≤ total - input.length) :
    expand input total = if total = window then widen input else expand (widen input) total := by
  have hl := length_widen hn
  rw [@expand_of_loop (widen input) total (.inl hl.ge), hl]
  exact if_pos ⟨hn, hg⟩

theorem fills_loop_iff (h : input.length < buffer.length)
    (hn : window ≤ input.length ∨ buffer.length - input.length < window) :
    Fills input buffer result ↔ result = expand input buffer.length := by
  have hb := @Bytes.overwrite?_eq buffer input 0 input.length (Nat.zero_le _) h.le rfl
  have hr : Filling.Ready input []
      ⟨sigma16, input.length, buffer.length,
        buffer.take 0 ++ input ++ buffer.drop input.length⟩ := by
    constructor <;> dsimp only
    · exact h.le
    · exact le_rfl
    · simp only [List.take_zero, List.nil_append, List.length_append, List.length_drop]
      omega
    · rw [List.take_of_length_le h.le, List.take_zero, List.nil_append]
      exact List.prefix_append _ _
    · refine List.drop_of_length_le ?_
      simp only [List.take_zero, List.nil_append, List.length_append, List.length_drop]
      omega
    · exact hn
  rw [expand_of_loop hn]
  constructor
  · rintro (⟨hg, -, hb', r⟩ | ⟨hg, hn', hgap, -, -⟩ | ⟨hg, hn', hgap, -, -, -⟩)
    · cases hb.symm.trans hb'
      exact r.unique hr.ends
    · cases (sub?_eq h.le).symm.trans hg
      omega
    · cases (sub?_eq h.le).symm.trans hg
      omega
  · rintro rfl
    exact .loop (sub?_eq h.le) hn hb hr.ends

/-- **Filling a buffer** ends within bounds with the material that `expand` says, whatever was in
the buffer. -/
theorem fills_iff (h : input.length < buffer.length) :
    Fills input buffer result ↔ result = expand input buffer.length := by
  by_cases hn : window ≤ input.length ∨ buffer.length - input.length < window
  · exact fills_loop_iff h hn
  · obtain ⟨hn, hg⟩ := not_or.1 hn
    have hn := Nat.not_le.1 hn
    have hg := Nat.not_lt.1 hg
    have hl := length_widen hn
    have hw := widen?_eq hn
    rw [expand_of_short hn hg]
    constructor
    · rintro (⟨hg', hn', -, -⟩ | ⟨hg', -, -, hw', hl'⟩ | ⟨hg', -, -, hw', hl', r⟩)
      · cases (sub?_eq h.le).symm.trans hg'
        omega
      · cases hw.symm.trans hw'
        rw [if_pos (hl'.symm.trans hl)]
      · cases hw.symm.trans hw'
        rw [if_neg fun ht => hl' (hl.trans ht.symm)]
        exact (fills_loop_iff (by omega) (.inl hl.ge)).1 r
    · intro hr
      by_cases ht : buffer.length = window
      · rw [if_pos ht] at hr
        subst hr
        exact .copy (sub?_eq h.le) hn hg hw (hl.trans ht.symm)
      · rw [if_neg ht] at hr
        refine .wide (sub?_eq h.le) hn hg hw (fun hl' => ht (hl'.symm.trans hl)) ?_
        exact (fills_loop_iff (by omega) (.inl hl.ge)).2 hr

end

end KeyStretch

end SealedStream
