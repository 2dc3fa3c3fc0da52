import Mathlib
import SealedStream.Proofs.Numerals
import SealedStream.Wire.Container
/-!
# Reading what was written

* `Item.octets`, `Chunk.octets`, `Preamble.octets` and `Container.octets` are what is written of
  an item, a record, a container.
* `Decoder.Parses d bs a`: `d` reads `a` from `bs`, whatever follows, and consumes exactly `bs`.
  `Decoder.Fails d bs e`: `d` fails with `e` on `bs`, whatever follows.
* `Chunk.parses_nextDecoder` and `Preamble.parses_decoder`: a record whose fields are within the
  limit is read back. `Chunk.fails_nextDecoder` and `Preamble.fails_decoder`: one with a field
  beyond it is refused.
-/
namespace SealedStream

/-! ## What is written -/

namespace Item

/-- The octets of an item. -/
def octets (item : Item) : Bytes :=
  match item.pieces with
  | .ok ps => ps.flatten
  | .error _ => []

/-- An item whose length a marker can express. -/
def Encodable (item : Item) : Prop := item.length ≤ maxLength

theorem pieces_eq_ok_iff {item : Item} {ps : List Bytes} (h : item.pieces = .ok ps) :
    item.Encodable ∧ ps.flatten = item.octets := by
  refine ⟨?_, by simp [octets, h]⟩
  by_contra hlt
  rw [Encodable, not_le] at hlt
  simp [pieces, hlt] at h

theorem Encodable.pieces_eq {item : Item} (h : item.Encodable) :
    ∃ ps, item.pieces = .ok ps ∧ ps.flatten = item.octets := by
  have hlt : ¬ maxLength < item.length := not_lt.2 h
  unfold octets pieces
  rw [if_neg hlt]
  exact ⟨_, rfl, rfl⟩

end Item

/-- The octets of a chunk. -/
def Chunk.octets (c : Chunk) : Bytes := c.items.flatMap Item.octets

/-- The octets of a preamble. -/
def Preamble.octets (p : Preamble) : Bytes := p.items.flatMap Item.octets

/-- The octets of a container. -/
def Container.octets (c : Container) : Bytes := c.items.flatMap Item.octets

theorem Container.octets_eq (c : Container) :
    c.octets = c.preamble.octets ++ c.chunks.flatMap Chunk.octets := by
  rw [octets, items, List.flatMap_append, List.flatMap_assoc]
  rfl

/-- A chunk whose fields can be written. -/
def Chunk.Encodable (c : Chunk) : Prop := c.nonce.length ≤ maxLength ∧ c.data.length ≤ maxLength

instance (c : Chunk) : Decidable c.Encodable := inferInstanceAs (Decidable (_ ∧ _))

/-- A preamble whose fields can be written. -/
def Preamble.Encodable (p : Preamble) : Prop :=
  p.exchange.length ≤ maxLength ∧ (Utf8.encode p.pkAlgo).length ≤ maxLength ∧
    (Utf8.encode p.encoding).length ≤ maxLength

instance (p : Preamble) : Decidable p.Encodable := inferInstanceAs (Decidable (_ ∧ _ ∧ _))

theorem Chunk.encodable_iff (c : Chunk) : (∀ i ∈ c.items, i.Encodable) ↔ c.Encodable := by
  simp [items, Item.Encodable, Item.length, fieldCount, Chunk.Encodable, maxLength]

theorem Preamble.encodable_iff (p : Preamble) : (∀ i ∈ p.items, i.Encodable) ↔ p.Encodable := by
  simp [items, Item.Encodable, Item.length, fieldCount, Preamble.Encodable, maxLength]

/-! ## Reading a given string -/

namespace Decoder
variable {α β : Type}

theorem run_bind {ι : Type} (d : Decoder ι α) (f : α → Decoder ι β) (i : ι) :
    (d >>= f).run i = match d.run i with
      | (.ok a, i) => (f a).run i
      | (.error e, i) => (.error e, i) := by
  show (ExceptT.bindCont f (d.run i).1).run (d.run i).2 = _
  rcases d.run i with ⟨_ | _, _⟩ <;> rfl

/-- `d` reads `a` from `bs`, whatever follows. -/
def Parses (d : Decoder Bytes α) (bs : Bytes) (a : α) : Prop :=
  ∀ rest, d.run (bs ++ rest) = (.ok a, rest)

/-- `d` fails on `bs`, whatever follows. -/
def Fails (d : Decoder Bytes α) (bs : Bytes) (e : WireError) : Prop :=
  ∀ rest, (d.run (bs ++ rest)).1 = .error e

theorem parses_pure (a : α) : Parses (pure a) [] a := fun _ => rfl

theorem fails_throw (bs : Bytes) (e : WireError) : Fails (throw e : Decoder Bytes α) bs e :=
  fun _ => rfl

theorem Parses.bind {d : Decoder Bytes α} {f : α → Decoder Bytes β} {bs cs : Bytes} {a : α} {b : β}
    (hd : Parses d bs a) (hf : Parses (f a) cs b) : Parses (d >>= f) (bs ++ cs) b := by
  intro rest
  rw [run_bind, List.append_assoc, hd]
  exact hf rest

/-- A first reader that consumes nothing of its own. -/
theorem Parses.bind_nil {d : Decoder Bytes α} {f : α → Decoder Bytes β} {cs : Bytes} {a : α} {b : β}
    (hd : Parses d [] a) (hf : Parses (f a) cs b) : Parses (d >>= f) cs b := hd.bind hf

/-- A last step that consumes nothing of its own. -/
theorem Parses.bind_pure {d : Decoder Bytes α} {f : α → β} {bs : Bytes} {a : α}
    (hd : Parses d bs a) : Parses (d >>= fun a => pure (f a)) bs (f a) := by
  have h := hd.bind (f := fun a => pure (f a)) (parses_pure (f a))
  rwa [List.append_nil] at h

theorem Parses.bind_fails {d : Decoder Bytes α} {f : α → Decoder Bytes β} {bs cs : Bytes} {a : α}
    {e : WireError} (hd : Parses d bs a) (hf : Fails (f a) cs e) :
    Fails (d >>= f) (bs ++ cs) e := by
  intro rest
  rw [run_bind, List.append_assoc, hd]
  exact hf rest

theorem Fails.bind {d : Decoder Bytes α} {f : α → Decoder Bytes β} {bs : Bytes} {e : WireError}
    (hd : Fails d bs e) (cs : Bytes) : Fails (d >>= f) (bs ++ cs) e := by
  intro rest
  have h := hd (cs ++ rest)
  rw [run_bind, List.append_assoc]
  rcases hr : d.run (bs ++ (cs ++ rest)) with ⟨_ | _, _⟩
  · rw [hr] at h
    cases h
    rfl
  · rw [hr] at h
    cases h

/-- A failure of the first reader is one of both. -/
theorem Fails.bind_nil {d : Decoder Bytes α} {f : α → Decoder Bytes β} {bs : Bytes} {e : WireError}
    (hd : Fails d bs e) : Fails (d >>= f) bs e := by
  have h := hd.bind (f := f) []
  rwa [List.append_nil] at h

/-! ## Parts of items -/

theorem parses_take (bs : Bytes) : Parses (take bs.length) bs bs := by
  intro rest
  have h : Input.readExact bs.length (bs ++ rest) = (.ok bs, rest) := by
    show Bytes.readExact bs.length (bs ++ rest) = _
    simp [Bytes.readExact]
  simp only [take, ExceptT.run, ExceptT.mk, h]

theorem parses_marker (m : UInt8) : Parses marker [m] m := (parses_take [m]).bind_pure

theorem parses_next? (m : UInt8) : Parses next? [m] (some m) := fun _ => rfl

theorem parses_known (n : Nat) : Parses (length (.known n)) [] n := parses_pure n

theorem parses_follows {w n : Nat} (h : n < 256 ^ w) :
    Parses (length (.follows w)) (Bytes.ofNatBE w n) n := by
  have hp := (parses_take (Bytes.ofNatBE w n)).bind_pure (f := Bytes.toNatBE)
  rwa [Bytes.toNatBE_ofNatBE h, Bytes.length_ofNatBE] at hp

theorem bytesForm?_short {n : Nat} (h : n ≤ 31) :
    bytesForm? (0xA0 ||| UInt8.ofNat n) = some (.known n) := by
  interval_cases n <;> rfl

/-- The contents after a header are read if they are within the limit. -/
theorem parses_bytes_of_form {m : UInt8} {form : LengthForm} {limit : Nat} {header data : Bytes}
    (hm : bytesForm? m = some form) (hl : Parses (length form) header data.length)
    (h : data.length ≤ limit) : Parses (bytes limit) ([m] ++ (header ++ data)) data := by
  refine (parses_marker m).bind ?_
  simp only [hm]
  refine hl.bind ?_
  rw [if_neg (not_lt.2 h)]
  exact parses_take data

/-- The contents after a header are refused if they are beyond the limit. -/
theorem fails_bytes_of_form {m : UInt8} {form : LengthForm} {limit len : Nat} {header : Bytes}
    (hm : bytesForm? m = some form) (hl : Parses (length form) header len) (h : limit < len)
    (data : Bytes) : Fails (bytes limit) ([m] ++ (header ++ data)) (.fieldTooLarge len limit) := by
  refine (parses_marker m).bind_fails ?_
  simp only [hm]
  refine hl.bind_fails ?_
  rw [if_pos h]
  exact (fails_throw [] _).bind data

end Decoder

/-! ## Items -/

namespace Item
open Decoder

/-- An octet string or a text begins with a marker and a header that tell its length. -/
theorem exists_header {item : Item} {data : Bytes} (he : item.Encodable)
    (hi : item = .bin data ∨ ∃ s, item = .str s ∧ Utf8.encode s = data) :
    ∃ m form header, bytesForm? m = some form ∧ Parses (Decoder.length form) header data.length ∧
      item.octets = [m] ++ (header ++ data) := by
  obtain ⟨ps, hp, ho⟩ := he.pieces_eq
  have hlt : ¬ maxLength < item.length := not_lt.2 he
  unfold pieces at hp
  rw [if_neg hlt, Except.ok.injEq] at hp
  rw [← ho, ← hp]
  rcases hi with rfl | ⟨s, rfl, rfl⟩
  · simp only [Item.length, maxLength] at hlt
    simp only [binPieces]
    split_ifs with h₀ h₁ h₂
    · obtain rfl := List.length_eq_zero_iff.1 h₀
      exact ⟨0xC0, _, [], rfl, parses_known 0, rfl⟩
    · exact ⟨0xC4, _, _, rfl, parses_follows (w := 1) (by omega), by simp [header]⟩
    · exact ⟨0xC5, _, _, rfl, parses_follows (w := 2) (by omega), by simp [header]⟩
    · exact ⟨0xC6, _, _, rfl, parses_follows (w := 4) (by omega), by simp [header]⟩
  · simp only [Item.length, maxLength] at hlt
    simp only [strPieces]
    split_ifs with h₀ h₁ h₂
    · exact ⟨_, _, [], bytesForm?_short h₀, parses_known _, by simp⟩
    · exact ⟨0xD9, _, _, rfl, parses_follows (w := 1) (by omega), by simp [header]⟩
    · exact ⟨0xDA, _, _, rfl, parses_follows (w := 2) (by omega), by simp [header]⟩
    · exact ⟨0xDB, _, _, rfl, parses_follows (w := 4) (by omega), by simp [header]⟩

theorem parses_bin {data : Bytes} {limit : Nat} (he : data.length ≤ maxLength)
    (h : data.length ≤ limit) : Parses (Decoder.bytes limit) (bin data).octets data := by
  obtain ⟨m, form, header, hm, hl, ho⟩ := @exists_header (.bin data) data he (.inl rfl)
  rw [ho]
  exact parses_bytes_of_form hm hl h

theorem fails_bin {data : Bytes} {limit : Nat} (he : data.length ≤ maxLength)
    (h : limit < data.length) :
    Fails (Decoder.bytes limit) (bin data).octets (.fieldTooLarge data.length limit) := by
  obtain ⟨m, form, header, hm, hl, ho⟩ := @exists_header (.bin data) data he (.inl rfl)
  rw [ho]
  exact fails_bytes_of_form hm hl h data

theorem parses_str {s : String} {limit : Nat} (he : (Utf8.encode s).length ≤ maxLength)
    (h : (Utf8.encode s).length ≤ limit) : Parses (Decoder.text limit) (str s).octets s := by
  obtain ⟨m, form, header, hm, hl, ho⟩ := @exists_header (.str s) _ he (.inr ⟨s, rfl, rfl⟩)
  rw [ho]
  rw [← List.append_nil ([m] ++ _)]
  refine (parses_bytes_of_form hm hl h).bind ?_
  rw [Utf8.decode_encode]
  exact parses_pure s

theorem fails_str {s : String} {limit : Nat} (he : (Utf8.encode s).length ≤ maxLength)
    (h : limit < (Utf8.encode s).length) :
    Fails (Decoder.text limit) (str s).octets (.fieldTooLarge (Utf8.encode s).length limit) := by
  obtain ⟨m, form, header, hm, hl, ho⟩ := @exists_header (.str s) _ he (.inr ⟨s, rfl, rfl⟩)
  rw [ho]
  exact (fails_bytes_of_form hm hl h _).bind_nil

theorem parses_bool (b : Bool) : Parses Decoder.bool (bool b).octets b := by
  cases b <;> exact fun _ => rfl

theorem octets_array : (array 3).octets = [0x93] := rfl

theorem parses_arrayAfter : Parses (arrayAfter 0x93 3) [] () := fun _ => rfl

theorem parses_array : Parses (Decoder.array 3) (array 3).octets () :=
  (parses_marker 0x93).bind parses_arrayAfter

end Item

/-! ## Records -/

namespace Chunk
open Decoder

/-- The length of the first field of a chunk that is longer than a limit. -/
def excess? (limit : Nat) (c : Chunk) : Option Nat :=
  if limit < c.nonce.length then some c.nonce.length
  else if limit < c.data.length then some c.data.length
  else none

theorem excess?_eq_none_iff {limit : Nat} {c : Chunk} :
    c.excess? limit = none ↔ c.nonce.length ≤ limit ∧ c.data.length ≤ limit := by
  unfold excess?
  split_ifs <;> simp <;> omega

theorem octets_eq (c : Chunk) :
    c.octets = [0x93] ++ ((Item.bool c.last).octets ++ ((Item.bin c.nonce).octets ++
      (Item.bin c.data).octets)) := by
  simp [octets, items, fieldCount, Item.octets_array]

/-- **A chunk is read back** if its fields are within the limit. -/
theorem parses_nextDecoder {limit : Nat} {c : Chunk} (he : c.Encodable)
    (h : c.excess? limit = none) : Parses (nextDecoder limit) c.octets (some c) := by
  obtain ⟨hn, hd⟩ := excess?_eq_none_iff.1 h
  rw [octets_eq]
  refine (parses_next? 0x93).bind (Item.parses_arrayAfter.bind_nil ?_)
  refine Parses.bind_pure (a := c) ?_
  refine (Item.parses_bool c.last).bind ((Item.parses_bin he.1 hn).bind ?_)
  exact (Item.parses_bin he.2 hd).bind_pure

/-- **A chunk is refused** if a field of it is beyond the limit. -/
theorem fails_nextDecoder {limit len : Nat} {c : Chunk} (he : c.Encodable)
    (h : c.excess? limit = some len) :
    Fails (nextDecoder limit) c.octets (.fieldTooLarge len limit) := by
  rw [octets_eq]
  refine (parses_next? 0x93).bind_fails ?_
  refine @Parses.bind_fails _ _ _ _ [] _ _ _ Item.parses_arrayAfter ?_
  refine Fails.bind_nil ?_
  refine (Item.parses_bool c.last).bind_fails ?_
  unfold excess? at h
  split_ifs at h with hn hd
  · cases h
    exact (Item.fails_bin he.1 hn).bind _
  · cases h
    refine (Item.parses_bin he.1 (not_lt.1 hn)).bind_fails ?_
    exact (Item.fails_bin he.2 hd).bind_nil

end Chunk

namespace Preamble
open Decoder

/-- The length of the first field of a preamble that is longer than a limit. -/
def excess? (limit : Nat) (p : Preamble) : Option Nat :=
  if limit < p.exchange.length then some p.exchange.length
  else if limit < (Utf8.encode p.pkAlgo).length then some (Utf8.encode p.pkAlgo).length
  else if limit < (Utf8.encode p.encoding).length then some (Utf8.encode p.encoding).length
  else none

theorem excess?_eq_none_iff {limit : Nat} {p : Preamble} :
    p.excess? limit = none ↔ p.exchange.length ≤ limit ∧ (Utf8.encode p.pkAlgo).length ≤ limit ∧
      (Utf8.encode p.encoding).length ≤ limit := by
  unfold excess?
  split_ifs <;> simp <;> omega

theorem octets_eq (p : Preamble) :
    p.octets = (Item.array 3).octets ++ ((Item.bin p.exchange).octets ++
      ((Item.str p.pkAlgo).octets ++ (Item.str p.encoding).octets)) := by
  simp [octets, items, fieldCount]

/-- **A preamble is read back** if its fields are within the limit. -/
theorem parses_decoder {limit : Nat} {p : Preamble} (he : p.Encodable)
    (h : p.excess? limit = none) : Parses (decoder limit) p.octets p := by
  obtain ⟨hx, hk, hc⟩ := excess?_eq_none_iff.1 h
  rw [octets_eq]
  refine Item.parses_array.bind ((Item.parses_bin he.1 hx).bind ?_)
  exact (Item.parses_str he.2.1 hk).bind (Item.parses_str he.2.2 hc).bind_pure

/-- **A preamble is refused** if a field of it is beyond the limit. -/
theorem fails_decoder {limit len : Nat} {p : Preamble} (he : p.Encodable)
    (h : p.excess? limit = some len) :
    Fails (decoder limit) p.octets (.fieldTooLarge len limit) := by
  rw [octets_eq]
  refine Item.parses_array.bind_fails ?_
  unfold excess? at h
  split_ifs at h with hx hk hc
  · cases h
    exact (Item.fails_bin he.1 hx).bind _
  · cases h
    refine (Item.parses_bin he.1 (not_lt.1 hx)).bind_fails ?_
    exact (Item.fails_str he.2.1 hk).bind _
  · cases h
    refine (Item.parses_bin he.1 (not_lt.1 hx)).bind_fails ?_
    refine (Item.parses_str he.2.1 (not_lt.1 hk)).bind_fails ?_
    exact (Item.fails_str he.2.2 hc).bind_nil

end Preamble

end SealedStream
