import Mathlib
import SealedStream.Opener
import SealedStream.Proofs.Transport
/-!
# Where records end

Every record tells by itself where it ends, in whichever of its forms it is written.

* `Decoder.Spans d bs a`: `d` reads `a` from `bs` and nothing behind it, and of a mere beginning of
  `bs` it asks for more. `Decoder.Delimits d`: whatever `d` reads, it reads so; and it blames its
  input for nothing but an end.
* `Preamble.delimits_decoder` and `Chunk.spans_nextDecoder` say so of records,
  `Opener.exists_nextChunk_eq` and `Opener.nextChunk_error` of the chunks of a container.
-/
namespace SealedStream

namespace Decoder
variable {α β : Type}

/-- `d` reads `a` from `bs`, whatever follows, and any beginning of `bs` ends too early for it. -/
structure Spans (d : Decoder Bytes α) (bs : Bytes) (a : α) : Prop where
  parses : Parses d bs a
  starves {k : Nat} (h : k < bs.length) : (d.run (bs.take k)).1 = .error (.io .unexpectedEof)

/-- What `d` reads it tells apart from what follows, and where its input fails it, it has ended. -/
structure Delimits (d : Decoder Bytes α) : Prop where
  spans {bs rest : Bytes} {a : α} (h : d.run bs = (.ok a, rest)) :
    ∃ used, bs = used ++ rest ∧ Spans d used a
  starved {bs : Bytes} {e : IoError} (h : (d.run bs).1 = .error (.io e)) : e = .unexpectedEof

/-! ## Steps of a decoder -/

theorem delimits_pure (a : α) : Delimits (pure a) where
  spans h := by
    cases h
    exact ⟨[], rfl, parses_pure a, fun h => absurd h (Nat.not_lt_zero _)⟩
  starved h := by cases h

theorem delimits_throw {e : WireError} (he : ∀ x, e ≠ .io x) :
    Delimits (throw e : Decoder Bytes α) where
  spans h := by cases h
  starved h := by
    cases h
    exact absurd rfl (he _)

/-- One step after another: the second one begins where the first one has ended. -/
theorem Spans.bind {d : Decoder Bytes α} {f : α → Decoder Bytes β} {bs cs : Bytes} {a : α} {b : β}
    (hd : Spans d bs a) (hf : Spans (f a) cs b) : Spans (d >>= f) (bs ++ cs) b where
  parses := hd.parses.bind hf.parses
  starves {k} hk := by
    rw [run_bind]
    -- what is missing begins in the octets of the first step, or behind them
    rcases lt_or_ge k bs.length with hlt | hle
    · have h := hd.starves hlt
      rw [List.take_append_of_le_length hlt.le]
      rcases hr : d.run (bs.take k) with ⟨r, rest⟩
      rw [hr] at h
      obtain rfl : r = .error _ := h
      rfl
    · rw [List.length_append] at hk
      rw [List.take_append, List.take_of_length_le hle, hd.parses]
      exact hf.starves (by omega)

theorem Delimits.bind {d : Decoder Bytes α} {f : α → Decoder Bytes β} (hd : Delimits d)
    (hf : ∀ a, Delimits (f a)) : Delimits (d >>= f) where
  spans {bs rest b} h := by
    rw [run_bind] at h
    rcases hr : d.run bs with ⟨e | a, mid⟩ <;> simp only [hr] at h
    · cases h
    · obtain ⟨used, rfl, hu⟩ := hd.spans hr
      obtain ⟨more, rfl, hm⟩ := (hf a).spans h
      exact ⟨used ++ more, (List.append_assoc ..).symm, hu.bind hm⟩
  starved {bs e} h := by
    rw [run_bind] at h
    rcases hr : d.run bs with ⟨e' | a, mid⟩ <;> simp only [hr] at h
    · cases h
      exact hd.starved (congrArg Prod.fst hr)
    · exact (hf a).starved h

theorem take_eq_of_lt {n : Nat} {bs : Bytes} (h : bs.length < n) :
    (take n).run bs = (.error (.io .unexpectedEof), []) := by
  have hr : Input.readExact n bs = (.error .unexpectedEof, []) := Bytes.readExact_of_lt h
  simp only [take, ExceptT.run, ExceptT.mk, hr]

theorem take_eq_of_le {n : Nat} {bs : Bytes} (h : n ≤ bs.length) :
    (take n).run bs = (.ok (bs.take n), bs.drop n) := by
  have hr : Input.readExact n bs = (.ok (bs.take n), bs.drop n) := Bytes.readExact_of_le h
  simp only [take, ExceptT.run, ExceptT.mk, hr]

theorem delimits_take (n : Nat) : Delimits (take n) where
  spans {bs rest a} h := by
    rcases lt_or_ge bs.length n with hlt | hle
    · rw [take_eq_of_lt hlt] at h
      cases h
    · rw [take_eq_of_le hle] at h
      cases h
      have hlen : (bs.take n).length = n := List.length_take_of_le hle
      refine ⟨bs.take n, (List.take_append_drop n bs).symm, ?_, fun {k} hk => ?_⟩
      · have hp := parses_take (bs.take n)
        rwa [hlen] at hp
      · have hk : ((bs.take n).take k).length < n := by
          rw [List.length_take]
          omega
        rw [take_eq_of_lt hk]
  starved {bs e} h := by
    rcases lt_or_ge bs.length n with hlt | hle
    · rw [take_eq_of_lt hlt] at h
      cases h
      rfl
    · rw [take_eq_of_le hle] at h
      cases h

/-! ## Items -/

theorem delimits_marker : Delimits marker := (delimits_take 1).bind fun _ => delimits_pure _

theorem delimits_length (form : LengthForm) : Delimits (length form) := by
  cases form with
  | known n => exact delimits_pure n
  | follows w => exact (delimits_take w).bind fun _ => delimits_pure _

theorem delimits_arrayAfter (m : UInt8) (n : Nat) : Delimits (arrayAfter m n) := by
  refine Delimits.bind ?_ fun got => ?_
  · unfold arrayLength
    cases arrayForm? m with
    | none => exact delimits_throw fun _ => WireError.noConfusion
    | some form => exact delimits_length form
  · split
    · exact delimits_throw fun _ => WireError.noConfusion
    · exact delimits_pure _

theorem delimits_array (n : Nat) : Delimits (array n) :=
  delimits_marker.bind fun m => delimits_arrayAfter m n

theorem delimits_bool : Delimits bool := by
  refine delimits_marker.bind fun m => ?_
  split
  · exact delimits_pure _
  · split
    · exact delimits_pure _
    · exact delimits_throw fun _ => WireError.noConfusion

theorem delimits_bytes (limit : Nat) : Delimits (bytes limit) := by
  refine delimits_marker.bind fun m => ?_
  cases bytesForm? m with
  | none => exact delimits_throw fun _ => WireError.noConfusion
  | some form =>
    refine (delimits_length form).bind fun len => ?_
    -- octets beyond the limit are refused before any of them is read
    split
    · exact (delimits_throw fun _ => WireError.noConfusion).bind fun _ => delimits_take len
    · exact delimits_take len

theorem delimits_text (limit : Nat) : Delimits (text limit) := by
  refine (delimits_bytes limit).bind fun bs => ?_
  cases Utf8.decode bs with
  | error defect => exact delimits_throw fun _ => WireError.noConfusion
  | ok s => exact delimits_pure s

end Decoder

/-! ## Records -/

open Decoder in
theorem Preamble.delimits_decoder (limit : Nat) : Delimits (decoder limit) :=
  (delimits_array _).bind fun _ => (delimits_bytes limit).bind fun _ => (delimits_text limit).bind
    fun _ => (delimits_text limit).bind fun _ => delimits_pure _

namespace Chunk
open Decoder

/-- A chunk behind its first octet. -/
def restDecoder (limit : Nat) (m : UInt8) : Decoder Bytes (Option Chunk) := do
  arrayAfter m fieldCount
  let c ← fieldsDecoder limit
  return some c

theorem delimits_restDecoder (limit : Nat) (m : UInt8) : Delimits (restDecoder limit m) :=
  (delimits_arrayAfter m _).bind fun _ =>
    (delimits_bool.bind fun _ => (delimits_bytes limit).bind fun _ => (delimits_bytes limit).bind
      fun _ => delimits_pure _).bind fun _ => delimits_pure _

theorem nextDecoder_cons (limit : Nat) (m : UInt8) (bs : Bytes) :
    (nextDecoder limit).run (m :: bs) = (restDecoder limit m).run bs := by
  rw [nextDecoder, run_bind]
  rfl

/-- **A chunk tells where it ends.** Of a mere beginning there is either nothing, which is no
chunk, or it ends too early. -/
theorem spans_nextDecoder {limit : Nat} {bs rest : Bytes} {c : Chunk}
    (h : (nextDecoder limit).run bs = (.ok (some c), rest)) :
    ∃ used, bs = used ++ rest ∧ Parses (nextDecoder limit) used (some c) ∧
      ∀ k < used.length, ((nextDecoder limit).run (used.take k)).1 =
        if k = 0 then .ok none else .error (.io .unexpectedEof) := by
  cases bs with
  | nil => cases h
  | cons m bs =>
    rw [nextDecoder_cons] at h
    obtain ⟨used, rfl, hs⟩ := (delimits_restDecoder limit m).spans h
    refine ⟨m :: used, rfl, fun tail => ?_, fun k hk => ?_⟩
    · rw [List.cons_append, nextDecoder_cons]
      exact hs.parses tail
    · cases k with
      | zero => rfl
      | succ k =>
        rw [List.take_succ_cons, nextDecoder_cons, if_neg (Nat.succ_ne_zero k)]
        exact hs.starves (Nat.lt_of_succ_lt_succ hk)

theorem starved_nextDecoder {limit : Nat} {bs : Bytes} {e : IoError}
    (h : ((nextDecoder limit).run bs).1 = .error (.io e)) : e = .unexpectedEof := by
  cases bs with
  | nil => cases h
  | cons m bs =>
    rw [nextDecoder_cons] at h
    exact (delimits_restDecoder limit m).starved h

end Chunk

/-! ## Chunks of a container -/

namespace Opener
variable {limit : Nat} {bs : Bytes}

/-- **A chunk is read from its own octets**, whatever follows, and cut short where some of them are
missing. -/
theorem exists_nextChunk_eq {rest : Bytes} {c : Chunk} (h : nextChunk limit bs = (.ok c, rest)) :
    ∃ used, bs = used ++ rest ∧ (∀ tail, nextChunk limit (used ++ tail) = (.ok c, tail)) ∧
      ∀ k < used.length, (nextChunk limit (used.take k)).1 = .error .truncated := by
  have hr : (Chunk.nextDecoder limit).run bs = (.ok (some c), rest) := by
    unfold nextChunk at h
    split at h <;> cases h
    assumption
  obtain ⟨used, hb, hp, hs⟩ := Chunk.spans_nextDecoder hr
  refine ⟨used, hb, fun tail => ?_, fun k hk => ?_⟩
  · rw [nextChunk, hp tail]
  · have h := hs k hk
    rcases hr : (Chunk.nextDecoder limit).run (used.take k) with ⟨r, i⟩
    rw [hr] at h
    obtain rfl : r = _ := h
    rw [nextChunk, hr]
    split_ifs <;> rfl

/-- There is no other reason not to read a chunk than that the string ends or that the chunk is
malformed. -/
theorem nextChunk_error {cause : StreamError} (h : (nextChunk limit bs).1 = .error cause) :
    cause = .truncated ∨ ∃ e, cause = .wire e := by
  unfold nextChunk at h
  split at h <;> cases h
  · exact .inl rfl
  · next e _ hr =>
    cases e with
    | io e =>
      obtain rfl := Chunk.starved_nextDecoder (congrArg Prod.fst hr)
      exact .inl rfl
    | unexpectedMarker | arrayLength | fieldTooLarge | invalidUtf8 | unencodable =>
      exact .inr ⟨_, rfl⟩

end Opener

end SealedStream
