import Mathlib
import SealedStream.Proofs.Chunking
/-!
# What is written is read back

* `Reading` is a kind of item that a reader asks for, and `Reading.all` a row of them.
* `Item.WrittenAs items bs`: every output that does not fail takes exactly `bs` for the items.
* `Item.reads_written`: items, records and containers are written in as many octets as their sizes
  say, and read back from them, whatever follows.
-/
namespace SealedStream

/-! ## Reading items -/

/-- A kind of item that a reader asks for: an array of whatever length, or of the given one, a truth
value, an octet string or a text. -/
inductive Reading where
  | array
  | arrayOf (n : Nat)
  | bool
  | bytes
  | text

namespace Reading

/-- Does an item answer a reader? -/
def Suits : Reading → Item → Prop
  | array, .array _ => True
  | arrayOf n, .array m => m = n
  | bool, .bool _ => True
  | bytes, .bin _ => True
  | text, .str _ => True
  | _, _ => False

section
variable {ι : Type} [Input ι]

/-- Read what is asked for, with contents of at most `limit` octets. -/
def decoder (limit : Nat) : Reading → Decoder ι Item
  | array => do
    let m ← Decoder.marker
    let n ← Decoder.arrayLength m
    return .array n
  | arrayOf n => do
    Decoder.array n
    return .array n
  | bool => do
    let b ← Decoder.bool
    return .bool b
  | bytes => do
    let data ← Decoder.bytes limit
    return .bin data
  | text => do
    let s ← Decoder.text limit
    return .str s

/-- Read one item after another. -/
def all (limit : Nat) : List Reading → Decoder ι (List Item)
  | [] => pure []
  | r :: rs => do
    let item ← r.decoder limit
    let items ← all limit rs
    return item :: items

end

end Reading

/-! ## Items -/

namespace Item
open Decoder

/-- An item whose contents are within a limit; a length alone is not limited. -/
def Within (limit : Nat) : Item → Prop
  | array _ | bool _ => True
  | bin data => data.length ≤ limit
  | str text => (Utf8.encode text).length ≤ limit

instance (item : Item) : Decidable item.Encodable := inferInstanceAs (Decidable (_ ≤ _))

instance (limit : Nat) (item : Item) : Decidable (item.Within limit) :=
  match item with
  | array _ | bool _ => isTrue trivial
  | bin data => inferInstanceAs (Decidable (data.length ≤ limit))
  | str text => inferInstanceAs (Decidable ((Utf8.encode text).length ≤ limit))

theorem arrayForm?_short {n : Nat} (h : n ≤ 15) :
    arrayForm? (0x90 ||| UInt8.ofNat n) = some (.known n) := by
  interval_cases n <;> rfl

/-- An array begins with a marker and a header that tell its length. -/
theorem exists_arrayHeader {n : Nat} (h : n ≤ maxLength) :
    ∃ m form header, arrayForm? m = some form ∧ Parses (Decoder.length form) header n ∧
      (array n).octets = [m] ++ header := by
  have he : (array n).Encodable := h
  have hlt : ¬ maxLength < (array n).length := not_lt.2 h
  obtain ⟨ps, hp, ho⟩ := he.pieces_eq
  rw [pieces, if_neg hlt, Except.ok.injEq] at hp
  rw [← ho, ← hp]
  simp only [maxLength] at h
  simp only [arrayPieces]
  split_ifs with h₀ h₁
  · exact ⟨_, _, [], arrayForm?_short h₀, parses_known n, rfl⟩
  · exact ⟨0xDC, _, _, rfl, parses_follows (w := 2) (by omega), by simp [header]⟩
  · exact ⟨0xDD, _, _, rfl, parses_follows (w := 4) (by omega), by simp [header]⟩

theorem parses_arrayLength {n : Nat} (h : n ≤ maxLength) :
    Parses (marker >>= fun m => arrayLength m) (array n).octets n := by
  obtain ⟨m, form, header, hm, hl, ho⟩ := exists_arrayHeader h
  rw [ho]
  refine (parses_marker m).bind ?_
  simpa only [arrayLength, hm] using hl

/-- **An item is read back** by every reader that it suits. -/
theorem parses_decoder {limit : Nat} {item : Item} {r : Reading} (he : item.Encodable)
    (hw : item.Within limit) (hr : r.Suits item) :
    Parses (r.decoder limit) item.octets item := by
  cases item with
  | array n =>
    have he : n ≤ maxLength := he
    cases r with
    | array =>
      have h := (parses_arrayLength he).bind_pure (f := Item.array)
      simpa only [Reading.decoder, bind_assoc] using h
    | arrayOf k =>
      obtain rfl : n = k := hr
      obtain ⟨m, form, header, hm, hl, ho⟩ := exists_arrayHeader he
      rw [ho]
      refine Parses.bind_pure (a := ()) (f := fun _ => Item.array n) ?_
      refine (parses_marker m).bind ?_
      simp only [arrayAfter, arrayLength, hm]
      rw [← List.append_nil header]
      refine hl.bind ?_
      rw [if_neg (not_not.2 rfl)]
      exact parses_pure ()
    | bool | bytes | text => exact hr.elim
  | bool b =>
    cases r with
    | bool => exact (parses_bool b).bind_pure
    | array | arrayOf | bytes | text => exact hr.elim
  | bin data =>
    cases r with
    | bytes => exact (parses_bin he hw).bind_pure
    | array | arrayOf | bool | text => exact hr.elim
  | str text =>
    cases r with
    | text => exact (parses_str he hw).bind_pure
    | array | arrayOf | bool | bytes => exact hr.elim

/-- **Items are read back** one after another. -/
theorem parses_all {limit : Nat} {items : List Item} {rs : List Reading}
    (h : List.Forall₂ Reading.Suits rs items) (he : ∀ i ∈ items, i.Encodable)
    (hw : ∀ i ∈ items, i.Within limit) :
    Parses (Reading.all limit rs) (items.flatMap octets) items := by
  induction h with
  | nil => exact parses_pure []
  | @cons r item rs items hr _ ih =>
    rw [List.forall_mem_cons] at he hw
    rw [List.flatMap_cons]
    exact (parses_decoder he.1 hw.1 hr).bind ((ih he.2 hw.2).bind_pure (f := (item :: ·)))

theorem length_octets {item : Item} (h : item.Encodable) : item.octets.length = item.size := by
  obtain ⟨ps, hp, ho⟩ := h.pieces_eq
  rw [← ho, size_pieces hp]

theorem length_flatMap_octets {items : List Item} (h : ∀ i ∈ items, i.Encodable) :
    (items.flatMap octets).length = totalSize items := by
  induction items with
  | nil => rfl
  | cons item items ih =>
    rw [List.forall_mem_cons] at h
    rw [List.flatMap_cons, List.length_append, length_octets h.1, ih h.2, totalSize]

/-- Every output that does not fail takes the octets `bs` for the items, and nothing else. -/
def WrittenAs (items : List Item) (bs : Bytes) : Prop :=
  ∀ {τ : Type} [Output τ] [Lossless τ] {o : τ}, Output.Reliable o →
    ∃ o', writeItems items o = (.ok (), o') ∧ Lossless.taken o' = Lossless.taken o ++ bs

theorem writtenAs_octets {items : List Item} (h : ∀ i ∈ items, i.Encodable) :
    WrittenAs items (items.flatMap octets) := by
  intro τ _ _ o ho
  obtain ⟨o', hw, -⟩ := writeItems_reliable h ho
  exact ⟨o', hw, (taken_writeItems hw).2⟩

end Item

/-- Items are written in `n` octets, from which `d` reads `a`, whatever follows. -/
def Item.Returns {α : Type} (items : List Item) (n : Nat) (d : Decoder Bytes α) (a : α) : Prop :=
  ∃ bs, WrittenAs items bs ∧ bs.length = n ∧ Decoder.Parses d bs a

namespace Item
open Decoder

theorem returns_of_parses {α : Type} {items : List Item} {d : Decoder Bytes α} {a : α}
    (he : ∀ i ∈ items, i.Encodable) (h : Parses d (items.flatMap octets) a) :
    Returns items (totalSize items) d a :=
  ⟨_, writtenAs_octets he, length_flatMap_octets he, h⟩

/-- **Items are returned** to the readers that they suit. -/
theorem returns_all {limit : Nat} {items : List Item} {rs : List Reading}
    (h : List.Forall₂ Reading.Suits rs items)
    (hs : ∀ i ∈ items, i.Encodable ∧ i.Within limit) :
    Returns items (totalSize items) (Reading.all limit rs) items :=
  returns_of_parses (fun i hi => (hs i hi).1)
    (parses_all h (fun i hi => (hs i hi).1) fun i hi => (hs i hi).2)

/-- What stands before the contents of an octet string or a text takes the rest of the size. -/
theorem exists_writtenAs_header {item : Item} {data : Bytes} {n : Nat} (he : item.Encodable)
    (hi : item = .bin data ∨ ∃ s, item = .str s ∧ Utf8.encode s = data)
    (hn : item.size = n + data.length) :
    ∃ header, header.length = n ∧ WrittenAs [item] (header ++ data) := by
  obtain ⟨m, form, header, -, -, ho⟩ := exists_header he hi
  have hw := @writtenAs_octets [item] (List.forall_mem_singleton.2 he)
  have hl := length_octets he
  rw [ho, ← List.append_assoc, hn, List.length_append] at hl
  rw [List.flatMap_singleton, ho, ← List.append_assoc] at hw
  exact ⟨[m] ++ header, Nat.add_right_cancel hl, hw⟩

theorem exists_binHeader {data : Bytes} (h : data.length ≤ maxLength) :
    ∃ header, header.length = binHeaderSize data.length ∧
      WrittenAs [.bin data] (header ++ data) :=
  exists_writtenAs_header h (.inl rfl) rfl

theorem exists_strHeader {s : String} (h : (Utf8.encode s).length ≤ maxLength) :
    ∃ header, header.length = strHeaderSize (Utf8.encode s).length ∧
      WrittenAs [.str s] (header ++ Utf8.encode s) :=
  @exists_writtenAs_header (.str s) _ _ h (.inr ⟨s, rfl, rfl⟩) rfl

end Item

/-! ## Records -/

/-- A preamble whose fields can be written and are within the limit. -/
def Preamble.Fit (limit : Nat) (p : Preamble) : Prop := p.Encodable ∧ p.excess? limit = none

instance (limit : Nat) (p : Preamble) : Decidable (p.Fit limit) :=
  inferInstanceAs (Decidable (_ ∧ _))

/-- A chunk whose fields can be written and are within the limit. -/
def Chunk.Fit (limit : Nat) (c : Chunk) : Prop := c.Encodable ∧ c.excess? limit = none

instance (limit : Nat) (c : Chunk) : Decidable (c.Fit limit) :=
  inferInstanceAs (Decidable (_ ∧ _))

theorem Preamble.returns_decoder {limit : Nat} {p : Preamble} (h : p.Fit limit) :
    Item.Returns p.items p.size (decoder limit) p :=
  Item.returns_of_parses (p.encodable_iff.2 h.1) (parses_decoder h.1 h.2)

open Decoder in
theorem Chunk.parses_decoder {limit : Nat} {c : Chunk} (h : c.Fit limit) :
    Parses (decoder limit) c.octets c := by
  obtain ⟨hn, hd⟩ := excess?_eq_none_iff.1 h.2
  rw [octets_eq]
  refine Item.parses_array.bind ((Item.parses_bool c.last).bind ?_)
  exact (Item.parses_bin h.1.1 hn).bind (Item.parses_bin h.1.2 hd).bind_pure

theorem Chunk.returns_decoder {limit : Nat} {c : Chunk} (h : c.Fit limit) :
    Item.Returns c.items c.size (decoder limit) c := by
  rw [size_eq_totalSize]
  exact Item.returns_of_parses (c.encodable_iff.2 h.1) (parses_decoder h)

theorem Chunk.returns_nextDecoder {limit : Nat} {c : Chunk} (h : c.Fit limit) :
    Item.Returns c.items c.size (nextDecoder limit) (some c) := by
  rw [size_eq_totalSize]
  exact Item.returns_of_parses (c.encodable_iff.2 h.1) (parses_nextDecoder h.1 h.2)

theorem Item.totalSize_append (xs ys : List Item) :
    totalSize (xs ++ ys) = totalSize xs + totalSize ys := by
  induction xs with
  | nil => simp [totalSize]
  | cons x xs ih => simp only [List.cons_append, totalSize, ih, Nat.add_assoc]

theorem Container.size_eq (c : Container) :
    c.size = c.preamble.size + (c.chunks.map Chunk.size).sum := by
  rw [size, items, Item.totalSize_append]
  congr 1
  induction c.chunks with
  | nil => rfl
  | cons x xs ih =>
    rw [List.flatMap_cons, Item.totalSize_append, List.map_cons, List.sum_cons, ih,
      x.size_eq_totalSize]

/-- **Containers are read back** up to the end. -/
theorem Container.exists_writtenAs {limit : Nat} {c : Container} (hp : c.preamble.Fit limit)
    (hc : ∀ x ∈ c.chunks, x.Fit limit) :
    ∃ bs, Item.WrittenAs c.items bs ∧
      bs.length = c.preamble.size + (c.chunks.map Chunk.size).sum ∧ read limit bs = (.ok c, []) := by
  have he : ∀ i ∈ c.items, i.Encodable := by
    intro i hi
    rcases List.mem_append.1 hi with hi | hi
    · exact c.preamble.encodable_iff.2 hp.1 i hi
    · obtain ⟨x, hx, hi⟩ := List.mem_flatMap.1 hi
      exact x.encodable_iff.2 (hc x hx).1 i hi
  refine ⟨_, Item.writtenAs_octets he, ?_, read_octets_of_limit hp.1 hp.2 hc⟩
  rw [Item.length_flatMap_octets he, ← c.size_eq, size]

/-- **What is written is read back.** Take items, records or a container whose lengths can be
expressed and whose contents are within a limit. Every output that does not fail takes them, in
exactly as many octets as their sizes say, and every reader that they suit, whatever follows, reads
them and nothing else; a container is read up to the end of its input. Before the contents of octet
strings and of texts there are as many octets as the sizes of their headers say. -/
theorem Item.reads_written (limit : Nat) :
    (∀ items rs, List.Forall₂ Reading.Suits rs items →
      (∀ i ∈ items, i.Encodable ∧ i.Within limit) →
      Returns items (totalSize items) (Reading.all limit rs) items) ∧
    (∀ data : Bytes, data.length ≤ maxLength → ∃ header,
      header.length = binHeaderSize data.length ∧ WrittenAs [.bin data] (header ++ data)) ∧
    (∀ s, (Utf8.encode s).length ≤ maxLength → ∃ header,
      header.length = strHeaderSize (Utf8.encode s).length ∧
        WrittenAs [.str s] (header ++ Utf8.encode s)) ∧
    (∀ p : Preamble, p.Fit limit → Returns p.items p.size (Preamble.decoder limit) p) ∧
    (∀ c : Chunk, c.Fit limit →
      Returns c.items (chunkSize c.nonce.length c.data.length) (Chunk.decoder limit) c ∧
      Returns c.items (chunkSize c.nonce.length c.data.length) (Chunk.nextDecoder limit) (some c)) ∧
    ∀ c : Container, c.preamble.Fit limit → (∀ x ∈ c.chunks, x.Fit limit) →
      ∃ bs, WrittenAs c.items bs ∧
        bs.length = c.preamble.size + (c.chunks.map Chunk.size).sum ∧
        Container.read limit bs = (.ok c, []) := by
  refine ⟨fun _ _ => returns_all, fun _ => exists_binHeader, fun _ => exists_strHeader,
    fun _ => Preamble.returns_decoder, ?_, fun _ => Container.exists_writtenAs⟩
  intro c hc
  exact ⟨Chunk.returns_decoder hc, Chunk.returns_nextDecoder hc⟩

/-- Items of several widths, the empty string and a container with a limit of four octets. -/
theorem Item.reads_written_widths :
    Returns [.array 70000, .bool true, .bin [], .str "ab", .array 16] 13
      (Reading.all 4 [.array, .bool, .bytes, .text, .arrayOf 16])
      [.array 70000, .bool true, .bin [], .str "ab", .array 16] ∧
    Returns [.array 3, .bool true, .bin [], .bin [7, 8]] 7 (Chunk.nextDecoder 4)
      (some ⟨true, [], [7, 8]⟩) ∧
    ∃ bs, WrittenAs (Container.items ⟨⟨[1], "x", "y"⟩, [⟨false, [], [5]⟩, ⟨true, [], []⟩]⟩) bs ∧
      bs.length = 18 ∧
      Container.read 4 bs = (.ok ⟨⟨[1], "x", "y"⟩, [⟨false, [], [5]⟩, ⟨true, [], []⟩]⟩, []) := by
  obtain ⟨hall, -, -, -, hchunk, hcontainer⟩ := reads_written 4
  refine ⟨hall _ _ ?_ (by decide), (hchunk ⟨true, [], [7, 8]⟩ (by decide)).2,
    hcontainer _ (by decide) (by decide)⟩
  exact .cons trivial (.cons trivial (.cons trivial (.cons trivial (.cons rfl .nil))))

end SealedStream
