import Mathlib
import SealedStream.Proofs.RoundTrip
/-!
# Padding is stripped from any block

* `Padding.strip_concat`: the last octet of a block decides where the walk goes on.
* `Padding.Reaches block n`: the walk over the runs of a block comes to stand behind its first `n`
  octets. `Padding.Stops` says where it ends, and `strip_eq_iff` that `Padding.strip` finds it.
* `Padding.strip_congr`: what is before the zero octet has no influence.
* `Padding.strip_padding`: what a reader gets of the final chunk under a block cipher.
-/
namespace SealedStream

namespace Padding

/-! ## The walk over the runs -/

/-- The last octet of a block is zero, or the length of a run that is in the block, or neither. -/
theorem strip_concat (bs : Bytes) (b : UInt8) :
    strip (bs ++ [b]) =
      if b = 0 then ⟨bs.length, none⟩
      else if b.toNat ≤ bs.length then strip (bs.take (bs.length + 1 - b.toNat))
      else ⟨0, some b.toNat⟩ := by
  rw [strip, List.reverse_append, List.reverse_singleton, List.singleton_append, stripReversed]
  by_cases hb : b = 0
  · rw [if_pos hb, if_pos hb, List.length_reverse]
  · have hpos : 0 < b.toNat := Nat.pos_of_ne_zero fun h => hb (UInt8.toNat_inj.1 h)
    rw [if_neg hb, if_neg hb]
    by_cases hle : b.toNat ≤ bs.length
    · have hne : (bs.reverse.drop (b.toNat - 1)).isEmpty = false := by
        rw [List.isEmpty_eq_false_iff, ← List.length_pos_iff, List.length_drop, List.length_reverse]
        omega
      have hn : bs.length - (b.toNat - 1) = bs.length + 1 - b.toNat := by omega
      simp only [hle, hne, Bool.false_eq_true, if_false, if_true]
      rw [List.drop_reverse, hn, strip]
    · have he : (bs.reverse.drop (b.toNat - 1)).isEmpty = true := by
        rw [List.isEmpty_iff, List.drop_eq_nil_iff, List.length_reverse]
        omega
      simp only [hle, he, if_true, if_false]

theorem strip_nil : strip [] = ⟨0, none⟩ := by
  rw [strip, List.reverse_nil, stripReversed]

/-- Stepping back over runs from the end of a block: the walk stands behind the first `n` octets. -/
inductive Reaches (block : Bytes) : Nat → Prop where
  | start : Reaches block block.length
  | back {n : Nat} {run : UInt8} (h : Reaches block (n + 1)) (hr : block[n]? = some run)
      (hne : run ≠ 0) (hle : run.toNat ≤ n) : Reaches block (n + 1 - run.toNat)

/-- Where the walk stops: at a zero octet, or at a run that steps to or past the beginning. -/
inductive Stops (block : Bytes) : Stripped → Prop where
  | empty (h : block = []) : Stops block ⟨0, none⟩
  | zero {n : Nat} (h : Reaches block (n + 1)) (hz : block[n]? = some 0) : Stops block ⟨n, none⟩
  | fault {n : Nat} {run : UInt8} (h : Reaches block (n + 1)) (hr : block[n]? = some run)
      (hlt : n < run.toNat) : Stops block ⟨0, some run.toNat⟩

section
variable {block : Bytes} {n : Nat} {s : Stripped}

theorem take_succ_eq {run : UInt8} (hr : block[n]? = some run) :
    block.take (n + 1) = block.take n ++ [run] ∧ (block.take n).length = n := by
  obtain ⟨hn, -⟩ := List.getElem?_eq_some_iff.1 hr
  rw [List.take_add_one, hr, List.length_take]
  exact ⟨rfl, min_eq_left hn.le⟩

/-- The walk goes on from where it stands as if the block ended there. -/
theorem Reaches.strip_eq (h : Reaches block n) : strip block = strip (block.take n) := by
  induction h with
  | start => rw [List.take_length]
  | @back n run _ hr hne hle ih =>
    obtain ⟨htake, hlen⟩ := take_succ_eq hr
    have hmin : min (n + 1 - run.toNat) n = n + 1 - run.toNat := by
      have hpos : 0 < run.toNat := Nat.pos_of_ne_zero fun h => hne (UInt8.toNat_inj.1 h)
      omega
    rw [ih, htake, strip_concat, if_neg hne, hlen, if_pos hle, List.take_take, hmin]

theorem Stops.strip_eq (h : Stops block s) : strip block = s := by
  cases h with
  | empty h => rw [h, strip_nil]
  | zero h hz =>
    obtain ⟨htake, hlen⟩ := take_succ_eq hz
    rw [h.strip_eq, htake, strip_concat, if_pos rfl, hlen]
  | @fault n run h hr hlt =>
    obtain ⟨htake, hlen⟩ := take_succ_eq hr
    have hne : run ≠ 0 := by
      rintro rfl
      exact absurd hlt (Nat.not_lt_zero n)
    rw [h.strip_eq, htake, strip_concat, if_neg hne, hlen, if_neg hlt.not_ge]

theorem Reaches.le_length (h : Reaches block n) : n ≤ block.length := by
  induction h with
  | start => exact le_rfl
  | back _ _ _ _ ih => omega

/-- Every step of the walk leaves less of the block, so that it stops. -/
theorem Reaches.exists_stops (h : Reaches block (n + 1)) : ∃ s, Stops block s := by
  induction n using Nat.strong_induction_on with
  | _ n ih =>
    obtain ⟨run, hr⟩ : ∃ run, block[n]? = some run :=
      ⟨_, List.getElem?_eq_getElem h.le_length⟩
    by_cases hz : run = 0
    · exact ⟨_, .zero h (hz ▸ hr)⟩
    · have hpos : 0 < run.toNat := Nat.pos_of_ne_zero fun h => hz (UInt8.toNat_inj.1 h)
      rcases Nat.lt_or_ge n run.toNat with hlt | hle
      · exact ⟨_, .fault h hr hlt⟩
      · have hb := h.back hr hz hle
        obtain ⟨m, hm⟩ : ∃ m, n + 1 - run.toNat = m + 1 := ⟨n - run.toNat, by omega⟩
        rw [hm] at hb
        exact ih m (by omega) hb

/-- **The padding of a block is stripped where the walk over its runs stops.** -/
theorem strip_eq_iff : strip block = s ↔ Stops block s := by
  refine ⟨?_, Stops.strip_eq⟩
  rintro rfl
  obtain ⟨s, hs⟩ : ∃ s, Stops block s := by
    rcases hb : block.length with _ | n
    · exact ⟨_, .empty (List.length_eq_zero_iff.1 hb)⟩
    · exact Reaches.exists_stops (hb ▸ Reaches.start)
  rw [hs.strip_eq]
  exact hs

/-- Something of a block is always padding. -/
theorem kept_lt (hb : block ≠ []) : (strip block).kept < block.length := by
  have hs : Stops block (strip block) := strip_eq_iff.1 rfl
  generalize strip block = s at hs
  cases hs with
  | empty h => exact absurd h hb
  | zero h _ => exact h.le_length
  | fault => exact List.length_pos_iff.2 hb

/-- Octets before which the walk stays have no influence on it. -/
theorem Reaches.congr {block' : Bytes} {k : Nat} (h : Reaches block n) (hk : k < n)
    (hl : block'.length = block.length) (hd : block'.drop k = block.drop k) :
    Reaches block' n := by
  induction h with
  | start => exact hl ▸ .start
  | @back n run h hr hne hle ih =>
    have hkn : k ≤ n := by omega
    have hr' : block'[n]? = some run := by
      rw [← hr, ← Nat.add_sub_cancel' hkn, ← List.getElem?_drop, ← List.getElem?_drop, hd]
    exact (ih (Nat.lt_succ_of_le hkn)).back hr' hne hle

/-- **What is before the zero octet has no influence.** -/
theorem strip_congr {block' : Bytes} (hb : block ≠ []) (h : strip block = ⟨n, none⟩)
    (hl : block'.length = block.length) (hd : block'.drop n = block.drop n) :
    strip block' = ⟨n, none⟩ := by
  cases strip_eq_iff.1 h with
  | empty hnil => exact absurd hnil hb
  | zero hr hz =>
    refine strip_eq_iff.2 (.zero (hr.congr (Nat.lt_succ_self n) hl hd) ?_)
    rw [← hz, ← Nat.add_zero n, ← List.getElem?_drop, ← List.getElem?_drop, hd]

end

end Padding

/-! ## The final chunk -/

namespace KeyedCipher
variable {M : Modes} {c c' : M.Block} {chunk : Chunk} {k : Nat}

/-- The final chunk of a container under a block cipher, of `k` blocks and one that is padded. -/
structure EndsPadded (c : M.Block) (k : Nat) (chunk : Chunk) : Prop where
  last : chunk.last = true
  pos : 0 < BlockMode.blockSize c
  length : chunk.data.length = (k + 1) * BlockMode.blockSize c

theorem EndsPadded.decryptBlocks_error (h : EndsPadded c k chunk) {e : CipherError}
    (hc : BlockMode.crypt chunk.data c = (.error e, c')) :
    decryptBlocks chunk c = ⟨.error e, .block c', []⟩ := by
  have hpos := h.pos
  have hdvd : chunk.data.length % BlockMode.blockSize c = 0 := by
    rw [h.length, Nat.mul_mod_left]
  rw [decryptBlocks]
  dsimp only
  rw [if_neg (by omega), hc]

theorem EndsPadded.decryptBlocks_ok (h : EndsPadded c k chunk) {out : Bytes}
    (hc : BlockMode.crypt chunk.data c = (.ok out, c')) (hl : out.length = chunk.data.length) :
    let stripped := Padding.strip (out.drop (k * BlockMode.blockSize c))
    decryptBlocks chunk c = ⟨.ok (out.take (k * BlockMode.blockSize c + stripped.kept)), .block c',
      stripped.events (BlockMode.blockSize c)⟩ := by
  have hpos := h.pos
  have hdvd : chunk.data.length % BlockMode.blockSize c = 0 := by
    rw [h.length, Nat.mul_mod_left]
  have hlen : out.length = k * BlockMode.blockSize c + BlockMode.blockSize c := by
    rw [hl, h.length, Nat.succ_mul]
  have hhead : out.length - BlockMode.blockSize c = k * BlockMode.blockSize c := by omega
  have hout : 0 < out.length := by omega
  rw [decryptBlocks]
  dsimp only
  rw [if_neg (by omega), hc]
  simp only [h.last, hout, hhead, and_self, if_true]

end KeyedCipher

namespace Opener
variable {M : Modes} {ι : Type} [Input ι] {o : Opener M ι} {c : M.Block} {chunk : Chunk} {rest : ι}
  {k : Nat}

/-- An opener that runs, has given out all plaintext, and finds a chunk next. -/
structure Finds (o : Opener M ι) (chunk : Chunk) : Prop where
  phase : o.phase = .running
  plaintext : o.plaintext = []
  next : (nextChunk o.limit o.input).1 = .ok chunk

/-- An opener that finds a chunk decrypts it, and what comes of a final one is all there is. -/
theorem Finds.contents_of_last (h : o.Finds chunk) (hlast : chunk.last = true) :
    let u := o.cipher.decryptChunk chunk
    match u.result with
    | .error e => o.contents = ⟨[], .failed (.cipher e)⟩
    | .ok plaintext => o.contents = ⟨plaintext, .finished⟩ ∧
        o.step.events.toList = o.events.toList ++ (u.events ++
          [.chunkOpened (o.chunks + 1) true plaintext.length, .openerFinished (o.chunks + 1)]) := by
  rcases hn : nextChunk o.limit o.input with ⟨r, input⟩
  have hr : r = .ok chunk := by rw [← h.next, hn]
  subst hr
  have hstep : o.step = ({ o with input } : Opener M ι).receive chunk := by rw [step, hn]
  rw [contents_step h.phase h.plaintext, hstep, receive]
  dsimp only
  rcases hu : (o.cipher.decryptChunk chunk).result with e | plaintext
  · rw [contents_of_phase (e := .failed (.cipher e)) rfl]
    simp only [fail, h.plaintext]
  · simp only [hlast, if_true]
    rw [contents_of_phase (e := .finished) rfl]
    refine ⟨rfl, ?_⟩
    simp

end Opener

/-- **Stripping padding off any block.** A block that was filled up is stripped to what it held. Of
any other block too, what is stripped is found by walking back over the runs: it is told to be
malformed exactly if a run steps to or past the beginning, and nothing is kept then; otherwise what
is before a zero octet is kept, whatever it is, and always less than the block. So a reader gets of
a final chunk of `k` blocks and one more at least the `k` blocks and not all of it, without a
failure unless the cipher fails. -/
theorem Padding.strip_padding :
    (∀ (content : Bytes) (size : Nat), content.length < size →
      (content ++ fill (size - content.length)).length = size ∧
      strip (content ++ fill (size - content.length)) = ⟨content.length, none⟩) ∧
    strip [] = ⟨0, none⟩ ∧
    (∀ block s, strip block = s ↔ Stops block s) ∧
    (∀ block, block ≠ [] → (strip block).kept < block.length) ∧
    (∀ block block' n, block ≠ [] → strip block = ⟨n, none⟩ → block'.length = block.length →
      block'.drop n = block.drop n → strip block' = ⟨n, none⟩) ∧
    ∀ {M : Modes} {ι : Type} [Input ι] (o : Opener M ι) (c : M.Block) (k : Nat) (chunk : Chunk),
      o.Finds chunk → o.cipher = .block c → KeyedCipher.EndsPadded c k chunk →
      (∀ e c', BlockMode.crypt chunk.data c = (.error e, c') →
        o.contents = ⟨[], .failed (.cipher e)⟩) ∧
      ∀ out c', BlockMode.crypt chunk.data c = (.ok out, c') → out.length = chunk.data.length →
        let size := BlockMode.blockSize c
        let stripped := strip (out.drop (k * size))
        let plaintext := out.take (k * size + stripped.kept)
        k * size ≤ plaintext.length ∧ plaintext.length < (k + 1) * size ∧
        (∀ ns, ∃ given : List Bytes, (o.reads ns).1 = given.map .ok ∧
          given.flatten = plaintext.take ns.sum) ∧
        o.step.events.toList = o.events.toList ++ (stripped.events size ++
          [.chunkOpened (o.chunks + 1) true plaintext.length, .openerFinished (o.chunks + 1)]) := by
  refine ⟨fun content size h => ⟨length_append_fill h.le, ?_⟩, strip_nil, fun _ _ => strip_eq_iff,
    fun _ => kept_lt, fun _ _ _ => strip_congr, ?_⟩
  · exact strip_append_fill content (Nat.sub_pos_of_lt h)
  intro M ι _ o c k chunk ho hcipher hc
  have hcontents := ho.contents_of_last hc.last
  simp only [hcipher, KeyedCipher.decryptChunk] at hcontents
  refine ⟨fun e c' he => ?_, fun out c' he hl => ?_⟩
  · rw [hc.decryptBlocks_error he] at hcontents
    exact hcontents
  · rw [hc.decryptBlocks_ok he hl] at hcontents
    obtain ⟨hoct, hevents⟩ := hcontents
    dsimp only
    -- the final block is not empty, and something of it is padding
    have hsucc : (k + 1) * BlockMode.blockSize c =
        k * BlockMode.blockSize c + BlockMode.blockSize c := Nat.succ_mul _ _
    have hlen : out.length = k * BlockMode.blockSize c + BlockMode.blockSize c := by
      rw [hl, hc.length, hsucc]
    have hblock : (out.drop (k * BlockMode.blockSize c)).length = BlockMode.blockSize c := by
      rw [List.length_drop, hlen, Nat.add_sub_cancel_left]
    have hkept := kept_lt (List.ne_nil_of_length_pos (hblock ▸ hc.pos))
    rw [hblock] at hkept
    refine ⟨?_, ?_, fun ns => ?_, hevents⟩
    · rw [List.length_take]
      omega
    · rw [List.length_take]
      omega
    · rw [Opener.reads_eq, hoct]
      exact Contents.answers_of_finished rfl ns

/-- A final chunk of eight octets, decrypted to a block and five octets more of which three are
padding. -/
theorem Padding.strip_padding_blocks :
    let chunk : Chunk := ⟨true, [], [10, 10, 10, 10, 6, 1, 3, 3]⟩
    let o : Opener .scripted Bytes :=
      { input := chunk.octets, cipher := .block ⟨4, 1, 0, 0, .decrypt⟩, preamble := ⟨[], "", ""⟩,
        limit := 64, events := #[] }
    strip ([9, 8] ++ fill 298) = ⟨2, none⟩ ∧ strip [5, 0, 2, 2] = ⟨1, none⟩ ∧
      strip [7, 0, 2, 2] = ⟨1, none⟩ ∧ (strip [3, 3, 3]).fault = some 3 ∧
      ∃ given : List Bytes, (o.reads [3, 9]).1 = given.map .ok ∧
        given.flatten = [9, 9, 9, 9, 5] := by
  intro chunk o
  obtain ⟨hfill, -, hiff, -, hcongr, hread⟩ := strip_padding
  have hwalk : strip [5, 0, 2, 2] = ⟨1, none⟩ := (hiff _ _).2 <|
    @Stops.zero _ 1 (@Reaches.back _ 3 2 .start rfl (by decide) (by decide)) rfl
  have hfault : strip [3, 3, 3] = ⟨0, some 3⟩ :=
    (hiff _ _).2 (@Stops.fault _ 2 3 .start rfl (by decide))
  refine ⟨(hfill [9, 8] 300 (by decide)).2, hwalk,
    hcongr _ [7, 0, 2, 2] 1 (by simp) hwalk rfl rfl, congrArg Stripped.fault hfault, ?_⟩
  have hpadded : @KeyedCipher.EndsPadded .scripted ⟨4, 1, 0, 0, .decrypt⟩ 1 chunk :=
    ⟨rfl, by decide, rfl⟩
  obtain ⟨-, -, hgiven, -⟩ :=
    (hread o _ 1 chunk ⟨rfl, rfl, rfl⟩ rfl hpadded).2 [9, 9, 9, 9, 5, 0, 2, 2] _ rfl rfl
  obtain ⟨given, hr, hf⟩ := hgiven [3, 9]
  have hkept : (strip [5, 0, 2, 2]).kept = 1 := congrArg Stripped.kept hwalk
  refine ⟨given, hr, hf.trans ?_⟩
  show (([9, 9, 9, 9, 5, 0, 2, 2] : Bytes).take (1 * 4 + (strip [5, 0, 2, 2]).kept)).take 12 = _
  rw [hkept]
  rfl

end SealedStream
