import Mathlib
import SealedStream.Proofs.Delimiting
import SealedStream.Proofs.Rereading
/-!
# The grammar of records

Which strings are records, said without a decoder.

* `Field.Header h n`: the octets `h` announce a field of `n` octets. `Field limit bs data`: the
  string `bs` is a field with the contents `data`, which the limit allows.
* `Chunk.Written limit bs c` and `Preamble.Written limit bs p`: the string `bs` is a record.
  `Chunk.Leads limit bs` and `Preamble.Leads limit bs`: it is what stands before a field of one.
* `Decoder.Accepts d F`: the decoder `d` reads `a` from a string exactly if the string begins with
  one that `F` allows for `a`, and it reads no further. `Accepts.bind` puts such laws together.
* `Decoder.accepts_records`: the decoders of records accept this grammar and nothing else.
-/
namespace SealedStream

/-! ## Records as strings -/

/-- The octets before the contents of a field: a marker that tells the length by itself, or a marker
and then the length in one, two or four octets, the most significant one first. -/
inductive Field.Header : Bytes → Nat → Prop where
  | nil : Header [0xC0] 0
  | short {n : Nat} (h : n ≤ 31) : Header [0xA0 + UInt8.ofNat n] n
  | one {m : UInt8} (hm : m = 0xC4 ∨ m = 0xD9) (a : UInt8) : Header [m, a] a.toNat
  | two {m : UInt8} (hm : m = 0xC5 ∨ m = 0xDA) (a b : UInt8) :
      Header [m, a, b] (256 * a.toNat + b.toNat)
  | four {m : UInt8} (hm : m = 0xC6 ∨ m = 0xDB) (a b c d : UInt8) :
      Header [m, a, b, c, d] (256 * (256 * (256 * a.toNat + b.toNat) + c.toNat) + d.toNat)

/-- A field: a header, and as many octets as it announces, which are not more than the limit. -/
inductive Field (limit : Nat) : Bytes → Bytes → Prop where
  | mk {header data : Bytes} (hh : Field.Header header data.length) (hl : data.length ≤ limit) :
      Field limit (header ++ data) data

/-- The octets before the three fields of a record. -/
inductive TripleHeader : Bytes → Prop where
  | short : TripleHeader [0x93]
  | two : TripleHeader [0xDC, 0, 3]
  | four : TripleHeader [0xDD, 0, 0, 0, 3]

/-- A truth value is written as one octet. -/
def markOf (b : Bool) : UInt8 := if b then 0xC3 else 0xC2

/-- A string that is a chunk. -/
inductive Chunk.Written (limit : Nat) : Bytes → Chunk → Prop where
  | mk {h n d : Bytes} {c : Chunk} (hh : TripleHeader h) (hn : Field limit n c.nonce)
      (hd : Field limit d c.data) : Written limit (h ++ ([markOf c.last] ++ (n ++ d))) c

/-- A string that is a preamble. -/
inductive Preamble.Written (limit : Nat) : Bytes → Preamble → Prop where
  | mk {h x k e : Bytes} {p : Preamble} (hh : TripleHeader h) (hx : Field limit x p.exchange)
      (hk : Field limit k (Utf8.encode p.pkAlgo)) (he : Field limit e (Utf8.encode p.encoding)) :
      Written limit (h ++ (x ++ (k ++ e))) p

/-- What stands before a field of a chunk that holds octets. -/
inductive Chunk.Leads (limit : Nat) : Bytes → Prop where
  | nonce {h : Bytes} {b : Bool} (hh : TripleHeader h) : Leads limit (h ++ [markOf b])
  | data {h n nonce : Bytes} {b : Bool} (hh : TripleHeader h) (hn : Field limit n nonce) :
      Leads limit (h ++ ([markOf b] ++ n))

/-- What stands before a field of a preamble. -/
inductive Preamble.Leads (limit : Nat) : Bytes → Prop where
  | exchange {h : Bytes} (hh : TripleHeader h) : Leads limit h
  | pkAlgo {h x exchange : Bytes} (hh : TripleHeader h) (hx : Field limit x exchange) :
      Leads limit (h ++ x)
  | encoding {h x k exchange : Bytes} {pkAlgo : String} (hh : TripleHeader h)
      (hx : Field limit x exchange) (hk : Field limit k (Utf8.encode pkAlgo)) :
      Leads limit (h ++ (x ++ k))

/-- The octets that tell a length behind a marker. -/
def LengthForm.Tells : LengthForm → Bytes → Nat → Prop
  | .known k, bs, n => bs = [] ∧ n = k
  | .follows w, bs, n => bs.length = w ∧ n = bs.toNatBE

namespace Decoder
variable {α β : Type}

/-! ## Decoders and grammars -/

/-- `d` reads `a` from a string exactly if the string begins with one that `F` allows for `a`, and
reads no further. -/
structure Accepts (d : Decoder Bytes α) (F : Bytes → α → Prop) : Prop where
  run_iff {bs rest : Bytes} {a : α} :
    d.run bs = (.ok a, rest) ↔ ∃ used, bs = used ++ rest ∧ F used a

section
variable {d : Decoder Bytes α} {F G : Bytes → α → Prop}

theorem Accepts.parses (h : Accepts d F) {bs : Bytes} {a : α} (hf : F bs a) : Parses d bs a :=
  fun _ => h.run_iff.2 ⟨bs, rfl, hf⟩

theorem Accepts.congr (h : Accepts d F) (hg : ∀ bs a, F bs a ↔ G bs a) : Accepts d G := by
  constructor
  intro bs rest a
  simp only [h.run_iff, hg]

theorem accepts_pure (a : α) : Accepts (pure a) fun bs b => bs = [] ∧ b = a := by
  refine ⟨fun {bs rest b} => ⟨?_, ?_⟩⟩
  · intro h
    cases h
    exact ⟨[], rfl, rfl, rfl⟩
  · rintro ⟨_, rfl, rfl, rfl⟩
    rfl

theorem accepts_throw (e : WireError) : Accepts (throw e : Decoder Bytes α) fun _ _ => False := by
  refine ⟨fun {bs rest b} => ⟨?_, ?_⟩⟩
  · intro h
    cases h
  · rintro ⟨_, _, h⟩
    exact h.elim

/-- One decoder after another accepts what the first one accepts, and behind it what the second one
does. -/
theorem Accepts.bind {f : α → Decoder Bytes β} {G : α → Bytes → β → Prop} (hd : Accepts d F)
    (hf : ∀ a, Accepts (f a) (G a)) :
    Accepts (d >>= f) fun bs b => ∃ xs ys a, bs = xs ++ ys ∧ F xs a ∧ G a ys b := by
  refine ⟨fun {bs rest b} => ?_⟩
  rw [run_bind]
  constructor
  · intro h
    rcases hr : d.run bs with ⟨e | a, mid⟩ <;> simp only [hr] at h
    · cases h
    · obtain ⟨xs, rfl, hx⟩ := hd.run_iff.1 hr
      obtain ⟨ys, rfl, hy⟩ := (hf a).run_iff.1 h
      exact ⟨xs ++ ys, (List.append_assoc ..).symm, xs, ys, a, rfl, hx, hy⟩
  · rintro ⟨_, rfl, xs, ys, a, rfl, hx, hy⟩
    rw [List.append_assoc, hd.parses hx]
    exact (hf a).parses hy rest

/-- A last step that reads nothing of its own. -/
theorem Accepts.bind_pure (hd : Accepts d F) (f : α → β) :
    Accepts (d >>= fun a => pure (f a)) fun bs b => ∃ a, F bs a ∧ b = f a := by
  refine (hd.bind fun a => accepts_pure (f a)).congr fun bs b => ?_
  constructor
  · rintro ⟨xs, _, a, rfl, hx, rfl, rfl⟩
    exact ⟨a, by simpa using hx, rfl⟩
  · rintro ⟨a, hx, rfl⟩
    exact ⟨bs, [], a, by simp, hx, rfl, rfl⟩

end

/-! ## Items -/

theorem accepts_take (n : Nat) : Accepts (take n) fun bs a => bs.length = n ∧ a = bs := by
  refine ⟨fun {bs rest a} => ⟨?_, ?_⟩⟩
  · intro h
    rcases lt_or_ge bs.length n with hlt | hle
    · rw [take_eq_of_lt hlt] at h
      cases h
    · rw [take_eq_of_le hle] at h
      cases h
      exact ⟨bs.take n, (List.take_append_drop n bs).symm, List.length_take_of_le hle, rfl⟩
  · rintro ⟨_, rfl, rfl, rfl⟩
    exact parses_take a rest

theorem accepts_marker : Accepts marker fun bs m => bs = [m] := by
  refine ((accepts_take 1).bind_pure (·.headD 0)).congr fun bs m => ?_
  constructor
  · rintro ⟨_, ⟨hl, rfl⟩, rfl⟩
    obtain ⟨m, rfl⟩ := List.length_eq_one_iff.1 hl
    rfl
  · rintro rfl
    exact ⟨[m], ⟨rfl, rfl⟩, rfl⟩

theorem accepts_length (form : LengthForm) : Accepts (length form) form.Tells := by
  cases form with
  | known k => exact accepts_pure k
  | follows w =>
    refine ((accepts_take w).bind_pure Bytes.toNatBE).congr fun bs n => ?_
    constructor
    · rintro ⟨_, ⟨hl, rfl⟩, rfl⟩
      exact ⟨hl, rfl⟩
    · rintro ⟨hl, rfl⟩
      exact ⟨bs, ⟨hl, rfl⟩, rfl⟩

theorem accepts_arrayAfter (m : UInt8) (n : Nat) :
    Accepts (arrayAfter m n) fun bs _ => ∃ form, arrayForm? m = some form ∧ form.Tells bs n := by
  have hlen : Accepts (arrayLength m) fun bs k => ∃ form, arrayForm? m = some form ∧
      form.Tells bs k := by
    unfold arrayLength
    cases arrayForm? m with
    | none => exact (accepts_throw _).congr fun bs k => by simp
    | some form => exact (accepts_length form).congr fun bs k => by simp
  have hrest (k : Nat) : Accepts (if k ≠ n then throw (.arrayLength n k) else pure ())
      fun bs _ => bs = [] ∧ k = n := by
    split
    · next h => exact (accepts_throw _).congr fun bs _ => by simp [h]
    · next h => exact (accepts_pure ()).congr fun bs _ => by simpa using fun _ => not_not.1 h
  refine (hlen.bind hrest).congr fun bs _ => ?_
  constructor
  · rintro ⟨xs, _, k, rfl, ⟨form, hf, ht⟩, rfl, rfl⟩
    exact ⟨form, hf, by simpa using ht⟩
  · rintro ⟨form, hf, ht⟩
    exact ⟨bs, [], n, by simp, ⟨form, hf, ht⟩, rfl, rfl⟩

theorem accepts_array (n : Nat) : Accepts (array n) fun bs _ =>
    ∃ m ys form, bs = m :: ys ∧ arrayForm? m = some form ∧ form.Tells ys n := by
  refine (accepts_marker.bind fun m => accepts_arrayAfter m n).congr fun bs _ => ?_
  constructor
  · rintro ⟨_, ys, m, rfl, rfl, form, hf, ht⟩
    exact ⟨m, ys, form, rfl, hf, ht⟩
  · rintro ⟨m, ys, form, rfl, hf, ht⟩
    exact ⟨[m], ys, m, rfl, rfl, form, hf, ht⟩

theorem accepts_bool : Accepts bool fun bs b => bs = [markOf b] := by
  have hrest (m : UInt8) : Accepts
      (if m = 0xC3 then pure true else if m = 0xC2 then pure false
        else throw (.unexpectedMarker "bool" m))
      fun bs b => bs = [] ∧ m = markOf b := by
    split
    · next h => exact (accepts_pure true).congr fun bs b => by cases b <;> simp [markOf, h]
    · split
      · next h => exact (accepts_pure false).congr fun bs b => by cases b <;> simp [markOf, h]
      · next h₁ h₂ => exact (accepts_throw _).congr fun bs b => by cases b <;> simp [markOf, *]
  refine (accepts_marker.bind hrest).congr fun bs b => ?_
  constructor
  · rintro ⟨_, _, m, rfl, rfl, rfl, rfl⟩
    rfl
  · rintro rfl
    exact ⟨_, [], _, rfl, rfl, rfl, rfl⟩

end Decoder

/-! ## Markers -/

/-- Between two markers that tell lengths by themselves the lengths count on. -/
theorem eq_add_of_toNat_sub {m low : UInt8} {n : Nat} (h : n = (m - low).toNat) :
    m = low + UInt8.ofNat n := by
  rw [h, UInt8.ofNat_toNat]
  exact (add_sub_cancel low m).symm

theorem toNat_sub_le {m low high : UInt8} (h : low ≤ m ∧ m ≤ high) :
    (m - low).toNat ≤ high.toNat - low.toNat := by
  rw [UInt8.toNat_sub_of_le _ _ h.1]
  exact Nat.sub_le_sub_right (UInt8.le_iff_toNat_le.1 h.2) _

theorem Bytes.toNatBE_two (a b : UInt8) : Bytes.toNatBE [a, b] = 256 * a.toNat + b.toNat := by
  simp [Bytes.toNatBE]

theorem Bytes.toNatBE_four (a b c d : UInt8) : Bytes.toNatBE [a, b, c, d] =
    256 * (256 * (256 * a.toNat + b.toNat) + c.toNat) + d.toNat := by
  simp [Bytes.toNatBE]

theorem Bytes.length_eq_four {bs : Bytes} (h : bs.length = 4) : ∃ a b c d, bs = [a, b, c, d] := by
  obtain ⟨a, bs, rfl⟩ := List.exists_cons_of_length_eq_add_one h
  obtain ⟨b, c, d, rfl⟩ := List.length_eq_three.1 (Nat.succ.inj h)
  exact ⟨a, b, c, d, rfl⟩

/-- The arrays of three items begin with a header for three. -/
theorem tripleHeader_iff {bs : Bytes} : TripleHeader bs ↔
    ∃ m ys form, bs = m :: ys ∧ arrayForm? m = some form ∧ form.Tells ys 3 := by
  constructor
  · rintro (_ | _ | _)
    · exact ⟨0x93, [], .known 3, rfl, rfl, rfl, rfl⟩
    · exact ⟨0xDC, [0, 3], .follows 2, rfl, rfl, rfl, rfl⟩
    · exact ⟨0xDD, [0, 0, 0, 3], .follows 4, rfl, rfl, rfl, rfl⟩
  · rintro ⟨m, ys, form, rfl, hf, ht⟩
    unfold arrayForm? at hf
    split_ifs at hf with h₁ h₂ h₃ <;> cases hf
    · obtain ⟨rfl, h⟩ := ht
      obtain rfl : m = 0x93 := eq_add_of_toNat_sub h
      exact .short
    · obtain ⟨hl, h⟩ := ht
      obtain ⟨a, b, rfl⟩ := List.length_eq_two.1 hl
      rw [Bytes.toNatBE_two] at h
      obtain rfl : a = 0 := UInt8.toNat_inj.1 (by simp; omega)
      obtain rfl : b = 3 := UInt8.toNat_inj.1 (by simp at h ⊢; omega)
      subst h₂
      exact .two
    · obtain ⟨hl, h⟩ := ht
      obtain ⟨a, b, c, d, rfl⟩ := Bytes.length_eq_four hl
      rw [Bytes.toNatBE_four] at h
      obtain rfl : a = 0 := UInt8.toNat_inj.1 (by simp; omega)
      obtain rfl : b = 0 := UInt8.toNat_inj.1 (by simp; omega)
      obtain rfl : c = 0 := UInt8.toNat_inj.1 (by simp at h ⊢; omega)
      obtain rfl : d = 3 := UInt8.toNat_inj.1 (by simp at h ⊢; omega)
      subst h₃
      exact .four

theorem Field.header_iff {bs : Bytes} {n : Nat} : Field.Header bs n ↔
    ∃ m ys form, bs = m :: ys ∧ bytesForm? m = some form ∧ form.Tells ys n := by
  constructor
  · intro h
    cases h with
    | nil => exact ⟨0xC0, [], .known 0, rfl, rfl, rfl, rfl⟩
    | short h =>
      refine ⟨_, [], .known n, rfl, ?_, rfl, rfl⟩
      interval_cases n <;> rfl
    | one hm a =>
      refine ⟨_, [a], .follows 1, rfl, ?_, rfl, by simp [Bytes.toNatBE]⟩
      rcases hm with rfl | rfl <;> rfl
    | two hm a b =>
      refine ⟨_, [a, b], .follows 2, rfl, ?_, rfl, (Bytes.toNatBE_two a b).symm⟩
      rcases hm with rfl | rfl <;> rfl
    | four hm a b c d =>
      refine ⟨_, [a, b, c, d], .follows 4, rfl, ?_, rfl, (Bytes.toNatBE_four a b c d).symm⟩
      rcases hm with rfl | rfl <;> rfl
  · rintro ⟨m, ys, form, rfl, hf, ht⟩
    unfold bytesForm? at hf
    split_ifs at hf with h₁ h₂ h₃ h₄ h₅ <;> cases hf <;> obtain ⟨hl, h⟩ := ht
    · subst hl
      rw [eq_add_of_toNat_sub h]
      have hle := toNat_sub_le h₁
      exact .short (h ▸ hle.trans (by decide))
    · subst hl h h₂
      exact .nil
    · obtain ⟨a, rfl⟩ := List.length_eq_one_iff.1 hl
      obtain rfl : n = a.toNat := by simpa [Bytes.toNatBE] using h
      exact .one h₃ a
    · obtain ⟨a, b, rfl⟩ := List.length_eq_two.1 hl
      rw [h, Bytes.toNatBE_two]
      exact .two h₄ a b
    · obtain ⟨a, b, c, d, rfl⟩ := Bytes.length_eq_four hl
      rw [h, Bytes.toNatBE_four]
      exact .four h₅ a b c d

namespace Decoder

theorem accepts_bytes (limit : Nat) : Accepts (bytes limit) (Field limit) := by
  refine (accepts_marker.bind (G := fun m bs data => ∃ form header, bytesForm? m = some form ∧
    bs = header ++ data ∧ form.Tells header data.length ∧ data.length ≤ limit) fun m => ?_).congr
    fun bs data => ?_
  · cases bytesForm? m with
    | none => exact (accepts_throw _).congr fun bs data => by simp
    | some form =>
      refine ((accepts_length form).bind (G := fun n bs data =>
        bs.length = n ∧ data = bs ∧ n ≤ limit) fun n => ?_).congr fun bs data => ?_
      · -- octets beyond the limit are refused before any of them is read
        split
        · next h =>
          refine ((accepts_throw _).bind fun _ => accepts_take n).congr fun bs data => ?_
          simp [not_le.2 h]
        · next h =>
          refine (accepts_take n).congr fun bs data => ?_
          simp [not_lt.1 h]
      · constructor
        · rintro ⟨header, _, n, rfl, ht, rfl, rfl, hl⟩
          exact ⟨form, header, rfl, rfl, ht, hl⟩
        · rintro ⟨_, header, ⟨⟩, rfl, ht, hl⟩
          exact ⟨header, data, _, rfl, ht, rfl, rfl, hl⟩
  · constructor
    · rintro ⟨_, _, m, rfl, rfl, form, header, hf, rfl, ht, hl⟩
      exact .mk (Field.header_iff.2 ⟨m, header, form, rfl, hf, ht⟩) hl
    · rintro ⟨hh, hl⟩
      obtain ⟨m, header, form, rfl, hf, ht⟩ := Field.header_iff.1 hh
      exact ⟨[m], header ++ data, m, rfl, rfl, form, header, hf, rfl, ht, hl⟩

theorem accepts_text (limit : Nat) :
    Accepts (text limit) fun bs s => Field limit bs (Utf8.encode s) := by
  refine ((accepts_bytes limit).bind (G := fun data bs s => bs = [] ∧ data = Utf8.encode s)
    fun data => ?_).congr fun bs s => ?_
  · cases hd : Utf8.decode data with
    | error defect =>
      refine (accepts_throw _).congr fun bs s => ?_
      simp only [false_iff]
      rintro ⟨-, rfl⟩
      rw [Utf8.decode_encode] at hd
      cases hd
    | ok t =>
      obtain rfl := Utf8.encode_of_decode hd
      refine (accepts_pure t).congr fun bs s => and_congr_right fun _ => ?_
      constructor
      · rintro rfl
        rfl
      · intro h
        rw [h, Utf8.decode_encode] at hd
        exact (Except.ok.inj hd)
  · constructor
    · rintro ⟨_, _, _, rfl, hf, rfl, rfl⟩
      simpa using hf
    · intro hf
      exact ⟨bs, [], _, by simp, hf, rfl, rfl⟩

end Decoder

/-! ## Records -/

section
open Decoder
variable {limit : Nat}

theorem accepts_tripleHeader : Accepts (array 3) fun bs _ => TripleHeader bs :=
  (accepts_array 3).congr fun _ _ => tripleHeader_iff.symm

theorem TripleHeader.parses {h : Bytes} (hh : TripleHeader h) : Parses (array 3) h () :=
  accepts_tripleHeader.parses hh

theorem Chunk.accepts_decoder (limit : Nat) : Accepts (decoder limit) (Written limit) := by
  refine (accepts_tripleHeader.bind fun _ => accepts_bool.bind fun last =>
    (accepts_bytes limit).bind fun nonce => (accepts_bytes limit).bind_pure fun data =>
      (⟨last, nonce, data⟩ : Chunk)).congr fun bs c => ?_
  constructor
  · rintro ⟨h, _, _, rfl, hh, _, _, last, rfl, rfl, n, d, nonce, rfl, hn, data, hd, rfl⟩
    exact .mk (c := ⟨last, nonce, data⟩) hh hn hd
  · rintro ⟨hh, hn, hd⟩
    exact ⟨_, _, (), rfl, hh, _, _, c.last, rfl, rfl, _, _, c.nonce, rfl, hn, c.data, hd, rfl⟩

theorem Preamble.accepts_decoder (limit : Nat) : Accepts (decoder limit) (Written limit) := by
  refine (accepts_tripleHeader.bind fun _ => (accepts_bytes limit).bind fun exchange =>
    (accepts_text limit).bind fun pkAlgo => (accepts_text limit).bind_pure fun encoding =>
      (⟨exchange, pkAlgo, encoding⟩ : Preamble)).congr fun bs p => ?_
  constructor
  · rintro ⟨h, _, _, rfl, hh, x, _, exchange, rfl, hx, k, e, pkAlgo, rfl, hk, encoding, he, rfl⟩
    exact .mk hh hx hk he
  · rintro ⟨hh, hx, hk, he⟩
    exact ⟨_, _, (), rfl, hh, _, _, p.exchange, rfl, hx, _, _, p.pkAlgo, rfl, hk, p.encoding, he,
      rfl⟩

/-- **The next chunk is a chunk** wherever there is anything, failures included. -/
theorem Chunk.run_nextDecoder {bs : Bytes} (h : bs ≠ []) :
    (nextDecoder limit).run bs =
      (((decoder limit).run bs).1.map some, ((decoder limit).run bs).2) := by
  obtain ⟨m, bs, rfl⟩ := List.exists_cons_of_ne_nil h
  have hd : (decoder limit).run (m :: bs) =
      (arrayAfter m fieldCount >>= fun _ => fieldsDecoder limit).run bs := by
    have hm : marker.run (m :: bs) = (.ok m, bs) := parses_marker m bs
    rw [decoder, array, bind_assoc, run_bind, hm]
  rw [nextDecoder_cons, restDecoder, hd, run_bind, run_bind]
  rcases (arrayAfter m fieldCount).run bs with ⟨_ | _, rest⟩
  · rfl
  · dsimp only
    rw [run_bind]
    rcases (fieldsDecoder limit).run rest with ⟨_ | _, _⟩ <;> rfl

theorem Chunk.run_nextDecoder_eq_none_iff {bs rest : Bytes} :
    (nextDecoder limit).run bs = (.ok none, rest) ↔ bs = [] ∧ rest = [] := by
  constructor
  · intro h
    by_cases hb : bs = []
    · subst hb
      cases h
      exact ⟨rfl, rfl⟩
    · rw [run_nextDecoder hb] at h
      rcases hr : ((decoder limit).run bs).1 with _ | _ <;> rw [hr] at h <;> cases h
  · rintro ⟨rfl, rfl⟩
    rfl

/-! ## Fields beyond the limit -/

/-- **A field is refused by its header** if that announces more than the limit. -/
theorem Field.Header.fails_bytes {header : Bytes} {len : Nat} (h : Field.Header header len)
    (hl : limit < len) : Fails (bytes limit) header (.fieldTooLarge len limit) := by
  obtain ⟨m, ys, form, rfl, hm, ht⟩ := Field.header_iff.1 h
  simpa using fails_bytes_of_form hm ((accepts_length form).parses ht) hl []

theorem Field.Header.fails_text {header : Bytes} {len : Nat} (h : Field.Header header len)
    (hl : limit < len) : Fails (text limit) header (.fieldTooLarge len limit) :=
  (h.fails_bytes hl).bind_nil

/-- A chunk is refused by the header of a field. -/
theorem Chunk.Leads.fails_decoder {lead header : Bytes} {len : Nat} (hlead : Chunk.Leads limit lead)
    (h : Field.Header header len) (hl : limit < len) :
    Fails (Chunk.decoder limit) (lead ++ header) (.fieldTooLarge len limit) := by
  cases hlead with
  | nonce hh =>
    rw [List.append_assoc]
    refine hh.parses.bind_fails ((accepts_bool.parses rfl).bind_fails ?_)
    exact (h.fails_bytes hl).bind_nil
  | data hh hn =>
    rw [List.append_assoc, List.append_assoc]
    refine hh.parses.bind_fails ((accepts_bool.parses rfl).bind_fails ?_)
    exact ((accepts_bytes limit).parses hn).bind_fails (h.fails_bytes hl).bind_nil

/-- A preamble is refused by the header of a field. -/
theorem Preamble.Leads.fails_decoder {lead header : Bytes} {len : Nat}
    (hlead : Preamble.Leads limit lead) (h : Field.Header header len) (hl : limit < len) :
    Fails (Preamble.decoder limit) (lead ++ header) (.fieldTooLarge len limit) := by
  cases hlead with
  | exchange hh =>
    exact hh.parses.bind_fails (h.fails_bytes hl).bind_nil
  | pkAlgo hh hx =>
    rw [List.append_assoc]
    refine hh.parses.bind_fails ?_
    exact ((accepts_bytes limit).parses hx).bind_fails (h.fails_text hl).bind_nil
  | encoding hh hx hk =>
    rw [List.append_assoc, List.append_assoc]
    refine hh.parses.bind_fails ?_
    refine ((accepts_bytes limit).parses hx).bind_fails ?_
    exact ((accepts_text limit).parses hk).bind_fails (h.fails_text hl).bind_nil

/-! ## Records that were read -/

/-- No header announces more than can be written. -/
theorem Field.Header.le_maxLength {header : Bytes} {len : Nat} (h : Field.Header header len) :
    len ≤ maxLength := by
  unfold maxLength
  cases h with
  | nil => exact Nat.zero_le _
  | short h => exact h.trans (by decide)
  | one hm a =>
    have ha := a.toNat_lt
    omega
  | two hm a b =>
    have ha := a.toNat_lt
    have hb := b.toNat_lt
    omega
  | four hm a b c d =>
    have ha := a.toNat_lt
    have hb := b.toNat_lt
    have hc := c.toNat_lt
    have hd := d.toNat_lt
    omega

theorem Field.length_le {bs data : Bytes} (h : Field limit bs data) :
    data.length ≤ maxLength ∧ data.length ≤ limit := by
  obtain ⟨hh, hl⟩ := h
  exact ⟨hh.le_maxLength, hl⟩

theorem Chunk.Written.fit {bs : Bytes} {c : Chunk} (h : Chunk.Written limit bs c) :
    c.Fit limit := by
  obtain ⟨-, hn, hd⟩ := h
  exact ⟨⟨hn.length_le.1, hd.length_le.1⟩,
    excess?_eq_none_iff.2 ⟨hn.length_le.2, hd.length_le.2⟩⟩

theorem Preamble.Written.fit {bs : Bytes} {p : Preamble} (h : Preamble.Written limit bs p) :
    p.Fit limit := by
  obtain ⟨-, hx, hk, he⟩ := h
  exact ⟨⟨hx.length_le.1, hk.length_le.1, he.length_le.1⟩,
    excess?_eq_none_iff.2 ⟨hx.length_le.2, hk.length_le.2, he.length_le.2⟩⟩

end

/-- **The decoders of records accept the grammar and nothing else.** Under every limit a chunk or a
preamble is read from a string exactly if the string begins with one, and nothing behind it is
touched. The next chunk is read as a chunk wherever there is anything, and there is none exactly
where there is nothing. A field is refused once its header announces more than the limit, whether
anything follows or not. What was read can be written again, and is then read as the same. -/
theorem Decoder.accepts_records (limit : Nat) :
    Accepts (Chunk.decoder limit) (Chunk.Written limit) ∧
    Accepts (Preamble.decoder limit) (Preamble.Written limit) ∧
    (∀ bs : Bytes, bs ≠ [] → (Chunk.nextDecoder limit).run bs =
      (((Chunk.decoder limit).run bs).1.map some, ((Chunk.decoder limit).run bs).2)) ∧
    (∀ bs rest : Bytes, (Chunk.nextDecoder limit).run bs = (.ok none, rest) ↔ bs = [] ∧ rest = []) ∧
    (∀ header len, Field.Header header len → limit < len →
      Fails (bytes limit) header (.fieldTooLarge len limit) ∧
      Fails (text limit) header (.fieldTooLarge len limit) ∧
      (∀ lead, Chunk.Leads limit lead →
        Fails (Chunk.decoder limit) (lead ++ header) (.fieldTooLarge len limit)) ∧
      ∀ lead, Preamble.Leads limit lead →
        Fails (Preamble.decoder limit) (lead ++ header) (.fieldTooLarge len limit)) ∧
    (∀ (bs rest : Bytes) c, (Chunk.decoder limit).run bs = (.ok c, rest) →
      Item.Returns c.items c.size (Chunk.decoder limit) c) ∧
    ∀ (bs rest : Bytes) p, (Preamble.decoder limit).run bs = (.ok p, rest) →
      Item.Returns p.items p.size (Preamble.decoder limit) p := by
  refine ⟨Chunk.accepts_decoder limit, Preamble.accepts_decoder limit,
    fun _ => Chunk.run_nextDecoder, fun _ _ => Chunk.run_nextDecoder_eq_none_iff, ?_, ?_, ?_⟩
  · intro header len hh hl
    exact ⟨hh.fails_bytes hl, hh.fails_text hl, fun _ h => h.fails_decoder hh hl,
      fun _ h => h.fails_decoder hh hl⟩
  · intro bs rest c h
    obtain ⟨used, -, hw⟩ := (Chunk.accepts_decoder limit).run_iff.1 h
    exact Chunk.returns_decoder hw.fit
  · intro bs rest p h
    obtain ⟨used, -, hw⟩ := (Preamble.accepts_decoder limit).run_iff.1 h
    exact Preamble.returns_decoder hw.fit

/-- A chunk in wide forms: it is read from what it begins, refused under a limit of one octet, and
written again. -/
theorem Decoder.accepts_records_wide :
    let bs : Bytes := [0xDC, 0, 3, 0xC2, 0xA0, 0xDA, 0, 2, 7, 8, 9]
    (Chunk.decoder 2).run bs = (.ok ⟨false, [], [7, 8]⟩, [9]) ∧
    (Chunk.nextDecoder 2).run bs = (.ok (some ⟨false, [], [7, 8]⟩), [9]) ∧
    Fails (Chunk.decoder 1) ([0xDC, 0, 3, 0xC2, 0xA0] ++ [0xDA, 0, 2]) (.fieldTooLarge 2 1) ∧
    Item.Returns (Chunk.items ⟨false, [], [7, 8]⟩) 7 (Chunk.decoder 2) ⟨false, [], [7, 8]⟩ := by
  obtain ⟨hchunk, -, hnext, -, -, hreturn, -⟩ := accepts_records 2
  obtain ⟨-, -, -, -, hlong, -, -⟩ := accepts_records 1
  have hempty {limit : Nat} : Field limit [0xA0] [] :=
    @Field.mk limit [0xA0] [] (.short (Nat.zero_le 31)) (Nat.zero_le limit)
  intro bs
  have hread : (Chunk.decoder 2).run bs = (.ok ⟨false, [], [7, 8]⟩, [9]) :=
    hchunk.run_iff.2 ⟨_, rfl, .mk (c := ⟨false, [], [7, 8]⟩) .two hempty
      (.mk (.two (.inr rfl) 0 2) (by decide))⟩
  refine ⟨hread, ?_, ?_, hreturn _ _ _ hread⟩
  · rw [hnext _ (by simp), hread]
    rfl
  · exact (hlong _ 2 (.two (.inr rfl) 0 2) (by decide)).2.2.1 _ (.data (b := false) .two hempty)

end SealedStream
