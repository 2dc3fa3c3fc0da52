import Mathlib
import SealedStream.Text.Json
/-!
# What JSON texts say

The grammar of RFC 8259, said without a parser, and that the parser reads it.

* `JsonValue.Numeral`, `JsonValue.Quoted` and `JsonValue.Text` say how numbers, strings and values
  are written; `JsonValue.Padded v cs` that the text `cs` is the value `v` among blanks.
* `JsonToken.Lexes w ts`: the characters `w` are cut into the tokens `ts`, whatever follows that
  does not go on with a number.
* `JsonValue.Nests ts v`: the tokens `ts` form the value `v`.
* `JsonValue.parse?_of_padded` puts both together.
-/
namespace SealedStream

/-! ## The grammar -/

namespace JsonValue

/-- Nothing but blanks. -/
def Blanks (b : List Char) : Prop := ∀ c ∈ b, c = ' ' ∨ c = '\n' ∨ c = '\t' ∨ c = '\r'

/-- A row of digits. -/
structure Digits (ds : List Char) : Prop where
  ne_nil : ds ≠ []
  isDigit : ∀ c ∈ ds, c.isDigit = true

inductive Fraction : List Char → Prop where
  | none : Fraction []
  | some {ds : List Char} (h : Digits ds) : Fraction ('.' :: ds)

inductive Exponent : List Char → Prop where
  | none : Exponent []
  | some {e : Char} {sign ds : List Char} (he : e = 'e' ∨ e = 'E')
      (hs : sign = [] ∨ sign = ['+'] ∨ sign = ['-']) (h : Digits ds) : Exponent (e :: (sign ++ ds))

/-- A number. There is no leading zero, but for the number zero before a point. -/
inductive Numeral : List Char → Prop where
  | mk {sign whole fraction exponent : List Char} (hs : sign = [] ∨ sign = ['-'])
      (hw : Digits whole) (hz : whole.head? = some '0' → whole = ['0']) (hf : Fraction fraction)
      (he : Exponent exponent) : Numeral (sign ++ (whole ++ fraction ++ exponent))

/-- The characters that have a short escape, by its letter. -/
def escapes : List (Char × Nat) :=
  [('"', 0x22), ('\\', 0x5C), ('/', 0x2F), ('b', 8), ('f', 12), ('n', 10), ('r', 13), ('t', 9)]

/-- A hexadecimal digit of either case. -/
inductive HexDigit : Char → Nat → Prop where
  | lower {k : Nat} (h : k < 16) : HexDigit (Nat.digitChar k) k
  | upper {k : Nat} (h : k < 16) : HexDigit (Nat.digitChar k).toUpper k

/-- How a code point is written in a string, or half of a surrogate pair. -/
inductive Spelling : Nat → List Char → Prop where
  | plain {c : Char} (h : ' ' ≤ c) (hq : c ≠ '"') (hb : c ≠ '\\') : Spelling c.toNat [c]
  | short {e : Char} {n : Nat} (h : (e, n) ∈ escapes) : Spelling n ['\\', e]
  | hex {a b c d : Char} {i j k l : Nat} (ha : HexDigit a i) (hb : HexDigit b j)
      (hc : HexDigit c k) (hd : HexDigit d l) :
      Spelling (0x1000 * i + 0x100 * j + 0x10 * k + l) ['\\', 'u', a, b, c, d]

/-- What stands between quotes. -/
inductive Body : List Nat → List Char → Prop where
  | nil : Body [] []
  | cons {n : Nat} {ns : List Nat} {w cs : List Char} (h : Spelling n w) (hs : Body ns cs) :
      Body (n :: ns) (w ++ cs)

/-- A string: two halves of a surrogate pair, one behind the other, are one code point. -/
inductive Quoted : List Nat → List Char → Prop where
  | mk {ns : List Nat} {cs : List Char} (h : Body ns cs) :
      Quoted (joinSurrogates ns) ('"' :: (cs ++ ['"']))

mutual

/-- A value, without blanks around it. -/
inductive Text : JsonValue → List Char → Prop where
  | null : Text .null ['n', 'u', 'l', 'l']
  | true : Text (.bool true) ['t', 'r', 'u', 'e']
  | false : Text (.bool false) ['f', 'a', 'l', 's', 'e']
  | number {w : List Char} (h : Numeral w) : Text (.number w) w
  | string {ps : List Nat} {w : List Char} (h : Quoted ps w) : Text (.string ps) w
  | noItems {b : List Char} (hb : Blanks b) : Text (.array []) ('[' :: (b ++ [']']))
  | array {vs : List JsonValue} {w : List Char} (h : Items vs w) :
      Text (.array vs) ('[' :: (w ++ [']']))
  | noMembers {b : List Char} (hb : Blanks b) : Text (.object []) ('\x7b' :: (b ++ ['\x7d']))
  | object {ms : List (List Nat × JsonValue)} {w : List Char} (h : Members ms w) :
      Text (.object ms) ('\x7b' :: (w ++ ['\x7d']))

/-- A value among blanks. -/
inductive Padded : JsonValue → List Char → Prop where
  | mk {v : JsonValue} {b w b' : List Char} (hb : Blanks b) (h : Text v w) (hb' : Blanks b') :
      Padded v (b ++ (w ++ b'))

/-- Values between commas. -/
inductive Items : List JsonValue → List Char → Prop where
  | last {v : JsonValue} {w : List Char} (h : Padded v w) : Items [v] w
  | cons {v : JsonValue} {vs : List JsonValue} {w ws : List Char} (h : Padded v w)
      (hs : Items vs ws) : Items (v :: vs) (w ++ ',' :: ws)

/-- A name and a value. -/
inductive Member : List Nat × JsonValue → List Char → Prop where
  | mk {name : List Nat} {v : JsonValue} {b q b' w : List Char} (hb : Blanks b)
      (hq : Quoted name q) (hb' : Blanks b') (h : Padded v w) :
      Member (name, v) (b ++ (q ++ (b' ++ ':' :: w)))

/-- Members between commas. -/
inductive Members : List (List Nat × JsonValue) → List Char → Prop where
  | last {m : List Nat × JsonValue} {w : List Char} (h : Member m w) : Members [m] w
  | cons {m : List Nat × JsonValue} {ms : List (List Nat × JsonValue)} {w ws : List Char}
      (h : Member m w) (hs : Members ms ws) : Members (m :: ms) (w ++ ',' :: ws)

end

end JsonValue

/-! ## Numbers -/

namespace JsonToken
open JsonValue

/-- Characters that do not go on with a number. -/
def Free (r : List Char) : Prop := ∀ c ∈ r.head?, c.isDigit = false ∧ c ≠ '.' ∧ c ≠ 'e' ∧ c ≠ 'E'

theorem free_nil : Free [] := by simp [Free]

theorem free_mark {c : Char} (hc : c ∈ [',', ':', ']', '\x7d']) (r : List Char) :
    Free (c :: r) := by
  rintro _ ⟨⟩
  simp only [List.mem_cons, List.not_mem_nil, or_false] at hc
  rcases hc with rfl | rfl | rfl | rfl <;> decide

theorem free_blanks {b r : List Char} (hb : Blanks b) (hr : Free r) : Free (b ++ r) := by
  cases b with
  | nil => exact hr
  | cons c b =>
    rintro _ ⟨⟩
    rcases hb c List.mem_cons_self with rfl | rfl | rfl | rfl <;> decide

section
variable {ds r : List Char} (hd : Digits ds) (hr : ∀ c ∈ r.head?, c.isDigit = false)
include hd hr

theorem digits_append : digits (ds ++ r) = (ds, r) := by
  have hstop : r.takeWhile Char.isDigit = [] ∧ r.dropWhile Char.isDigit = r := by
    cases r with
    | nil => exact ⟨rfl, rfl⟩
    | cons c r =>
      have hc := hr c rfl
      exact ⟨List.takeWhile_cons_of_neg (by simp [hc]), List.dropWhile_cons_of_neg (by simp [hc])⟩
  rw [digits, List.takeWhile_append_of_pos hd.isDigit, List.dropWhile_append_of_pos hd.isDigit,
    hstop.1, hstop.2, List.append_nil]

theorem someDigits?_append : someDigits? (ds ++ r) = some (ds, r) := by
  rw [someDigits?, digits_append hd hr]
  cases ds with
  | nil => exact absurd rfl hd.ne_nil
  | cons c ds => rfl

theorem wholePart?_append (hz : ds.head? = some '0' → ds = ['0']) :
    wholePart? (ds ++ r) = some (ds, r) := by
  rw [wholePart?, someDigits?_append hd hr]
  split
  · next h =>
    cases h
    cases hz rfl
  · rfl

end

/-! ### Whole numbers -/

section
variable {fraction exponent r : List Char} (he : Exponent exponent) (hr : Free r)
include he hr

theorem head_exponent : ∀ c ∈ (exponent ++ r).head?, c.isDigit = false ∧ c ≠ '.' := by
  rcases he with - | ⟨he, hs, h⟩
  · exact fun c hc => ⟨(hr c hc).1, (hr c hc).2.1⟩
  · rintro _ ⟨⟩
    rcases he with rfl | rfl <;> decide

theorem exponentPart?_append : exponentPart? (exponent ++ r) = some (exponent, r) := by
  have hdigit : ∀ c ∈ r.head?, c.isDigit = false := fun c hc => (hr c hc).1
  rcases he with - | ⟨he, hs, h⟩
  · cases r with
    | nil => rfl
    | cons c r =>
      obtain ⟨-, -, h₁, h₂⟩ := hr c rfl
      simp [exponentPart?, h₁, h₂]
  · next e sign ds =>
    obtain ⟨d, ds', rfl⟩ := List.exists_cons_of_ne_nil h.ne_nil
    have hsome := someDigits?_append h hdigit
    have hd : d ≠ '+' ∧ d ≠ '-' := by
      have hd := h.isDigit d List.mem_cons_self
      constructor <;> rintro rfl <;> exact absurd hd (by decide)
    rcases hs with rfl | rfl | rfl <;>
      simp_all [exponentPart?]

theorem head_fraction (hf : Fraction fraction) :
    ∀ c ∈ (fraction ++ (exponent ++ r)).head?, c.isDigit = false := by
  rcases hf with - | h
  · exact fun c hc => (head_exponent he hr c hc).1
  · rintro _ ⟨⟩
    decide

theorem fractionPart?_append (hf : Fraction fraction) :
    fractionPart? (fraction ++ (exponent ++ r)) = some (fraction, exponent ++ r) := by
  have hstop := head_exponent he hr
  rcases hf with - | h
  · rw [List.nil_append, fractionPart?]
    intro cs heq
    rw [heq] at hstop
    exact (hstop _ rfl).2 rfl
  · rw [List.cons_append, fractionPart?, someDigits?_append h fun c hc => (hstop c hc).1]
    rfl

end

theorem next?_of_isDigit {c : Char} (hc : c.isDigit = true) (r : List Char) :
    next? (c :: r) = (unsigned? (c :: r)).map fun p => (.number p.1, p.2) := by
  rw [next?.eq_def]
  split <;> first
    | rfl
    | next heq =>
      injection heq with h
      subst h
      exact absurd hc (by decide)

/-- **A number** is a token, whatever follows that does not go on with it. -/
theorem next?_numeral {w r : List Char} (hw : Numeral w) (hr : Free r) :
    next? (w ++ r) = some (.number w, r) := by
  obtain ⟨hs, hd, hz, hf, he⟩ := hw
  next sign whole fraction exponent =>
  have hu : unsigned? ((whole ++ fraction ++ exponent) ++ r) =
      some (whole ++ fraction ++ exponent, r) := by
    rw [List.append_assoc, List.append_assoc, unsigned?,
      wholePart?_append hd (head_fraction he hr hf) hz]
    simp only [Option.bind_eq_bind, Option.bind_some, fractionPart?_append he hr hf,
      exponentPart?_append he hr]
    rfl
  rcases hs with rfl | rfl
  · obtain ⟨d, ds, rfl⟩ := List.exists_cons_of_ne_nil hd.ne_nil
    have hnext := next?_of_isDigit (hd.isDigit d List.mem_cons_self)
      (ds ++ fraction ++ exponent ++ r)
    exact hnext.trans (congrArg (Option.map _) hu)
  · exact congrArg (Option.map _) hu

/-! ## Strings -/

theorem hexValue?_of_hexDigit {c : Char} {k : Nat} (h : HexDigit c k) : hexValue? c = some k := by
  rcases h with h | h
  · exact (by decide : ∀ k < 16, hexValue? (Nat.digitChar k) = some k) k h
  · exact (by decide : ∀ k < 16, hexValue? (Nat.digitChar k).toUpper = some k) k h

theorem stringBody?_short {e : Char} {n : Nat} (h : (e, n) ∈ escapes) (cs : List Char) :
    stringBody? ('\\' :: e :: cs) = (stringBody? cs).map fun p => (n :: p.1, p.2) := by
  have he : e ≠ 'u' ∧ unescape? e = some n :=
    (by decide : ∀ x ∈ escapes, x.1 ≠ 'u' ∧ unescape? x.1 = some x.2) (e, n) h
  rw [stringBody?.eq_def]
  split
  · next heq => cases heq
  · next heq => exact absurd (List.cons.inj heq).1 (by decide)
  · next heq => exact absurd (List.cons.inj (List.cons.inj heq).2).1 he.1
  · next heq =>
    obtain ⟨rfl, rfl⟩ := List.cons.inj (List.cons.inj heq).2
    rw [he.2]
    rcases stringBody? cs with _ | ⟨ns, r⟩ <;> rfl
  · next hne heq =>
    obtain ⟨rfl, rfl⟩ := List.cons.inj heq
    exact (hne e cs rfl rfl).elim

/-- One character more, as it is written. -/
theorem stringBody?_append {n : Nat} {w : List Char} (h : Spelling n w) (cs : List Char) :
    stringBody? (w ++ cs) = (stringBody? cs).map fun p => (n :: p.1, p.2) := by
  cases h with
  | @plain c h hq hb =>
    rw [List.singleton_append, stringBody?.eq_def]
    split
    · next heq => cases heq
    · next heq => exact absurd (List.cons.inj heq).1 hq
    · next heq => exact absurd (List.cons.inj heq).1 hb
    · next heq => exact absurd (List.cons.inj heq).1 hb
    · next heq =>
      obtain ⟨rfl, rfl⟩ := List.cons.inj heq
      rw [if_neg (not_lt.2 h)]
      rcases stringBody? cs with _ | ⟨ns, r⟩ <;> rfl
  | short h => exact stringBody?_short h cs
  | hex ha hb hc hd =>
    simp only [List.cons_append, List.nil_append, stringBody?, escapedPoint?,
      hexValue?_of_hexDigit ha, hexValue?_of_hexDigit hb, hexValue?_of_hexDigit hc,
      hexValue?_of_hexDigit hd]
    rcases stringBody? cs with _ | ⟨ns, r⟩ <;> rfl

theorem stringBody?_body {ns : List Nat} {cs : List Char} (h : Body ns cs) (r : List Char) :
    stringBody? (cs ++ '"' :: r) = some (ns, r) := by
  induction h with
  | nil => rfl
  | cons h _ ih => rw [List.append_assoc, stringBody?_append h, ih]; rfl

/-- **A string** is a token. -/
theorem next?_quoted {ps : List Nat} {w : List Char} (h : Quoted ps w) (r : List Char) :
    next? (w ++ r) = some (.string ps, r) := by
  obtain ⟨h⟩ := h
  have hbody := stringBody?_body h r
  rw [List.cons_append, List.append_assoc]
  exact congrArg (Option.map _) hbody

/-! ## Tokens -/

/-- A text is cut into tokens, with as much fuel as it has characters or more. -/
def Reads (cs : List Char) (ts : List JsonToken) : Prop :=
  ∀ fuel, cs.length ≤ fuel → lexWithin? fuel cs = some ts

/-- Characters are cut into tokens, whatever follows that does not go on with a number. -/
def Lexes (w : List Char) (ts : List JsonToken) : Prop :=
  ∀ r us, Free r → Reads r us → Reads (w ++ r) (ts ++ us)

theorem Reads.lex? {cs : List Char} {ts : List JsonToken} (h : Reads cs ts) : lex? cs = some ts :=
  h cs.length le_rfl

theorem reads_nil : Reads [] [] := fun fuel _ => by cases fuel <;> rfl

theorem Reads.blanks {r b : List Char} {us : List JsonToken} (hr : Reads r us) (hb : Blanks b) :
    Reads (b ++ r) us := by
  induction b with
  | nil => exact hr
  | cons c b ih =>
    obtain ⟨hc, hb⟩ := List.forall_mem_cons.1 hb
    have hblank : isBlank c = true := by rcases hc with rfl | rfl | rfl | rfl <;> rfl
    intro fuel hf
    obtain _ | fuel := fuel
    · exact absurd hf (Nat.not_succ_le_zero _)
    · rw [List.cons_append, lexWithin?, if_pos hblank]
      exact ih hb fuel (Nat.le_of_succ_le_succ hf)

/-- One token more. -/
theorem Reads.token {c : Char} {w r : List Char} {t : JsonToken} {us : List JsonToken}
    (hr : Reads r us) (hc : isBlank c = false) (h : next? (c :: (w ++ r)) = some (t, r)) :
    Reads (c :: (w ++ r)) (t :: us) := by
  intro fuel hf
  obtain _ | fuel := fuel
  · exact absurd hf (Nat.not_succ_le_zero _)
  · rw [List.length_cons, List.length_append] at hf
    rw [lexWithin?, hc, if_neg Bool.false_ne_true, h]
    exact congrArg (Option.map _) (hr fuel (by omega))

theorem Reads.mark {c : Char} {t : JsonToken} {r : List Char} {us : List JsonToken}
    (hr : Reads r us) (hc : isBlank c = false) (h : ∀ r, next? (c :: r) = some (t, r)) :
    Reads (c :: r) (t :: us) :=
  hr.token (w := []) hc (h r)

theorem lexes_word {c : Char} {w : List Char} {t : JsonToken} (hc : isBlank c = false)
    (h : ∀ r, next? (c :: (w ++ r)) = some (t, r)) : Lexes (c :: w) [t] :=
  fun r _ _ hr => hr.token hc (h r)

theorem lexes_quoted {ps : List Nat} {w : List Char} (h : Quoted ps w) : Lexes w [.string ps] := by
  intro r us _ hus
  have hnext := next?_quoted h r
  obtain ⟨h⟩ := h
  exact hus.token rfl hnext

theorem isBlank_of_isDigit {c : Char} (h : c.isDigit = true) : isBlank c = false := by
  simp only [isBlank, Bool.or_eq_false_iff, decide_eq_false_iff_not]
  refine ⟨⟨⟨?_, ?_⟩, ?_⟩, ?_⟩ <;> rintro rfl <;> exact absurd h (by decide)

theorem lexes_numeral {w : List Char} (h : Numeral w) : Lexes w [.number w] := by
  intro r us hr hus
  have hnext := next?_numeral h hr
  obtain ⟨hs, hd, hz, hf, he⟩ := h
  next sign whole fraction exponent =>
  rcases hs with rfl | rfl
  · obtain ⟨d, ds, rfl⟩ := List.exists_cons_of_ne_nil hd.ne_nil
    exact hus.token (isBlank_of_isDigit (hd.isDigit d List.mem_cons_self)) hnext
  · exact hus.token rfl hnext

theorem lexes_blanks {b : List Char} (hb : Blanks b) : Lexes b [] := fun _ _ _ hr => hr.blanks hb

section
variable {w w' : List Char} {ts us : List JsonToken} (h : Lexes w ts)
include h

theorem Lexes.behind {b : List Char} (hb : Blanks b) : Lexes (b ++ w) ts := by
  intro r us hr hus
  rw [List.append_assoc]
  exact (h r us hr hus).blanks hb

theorem Lexes.append (h' : Lexes w' us) (hfree : ∀ r, Free r → Free (w' ++ r)) :
    Lexes (w ++ w') (ts ++ us) := by
  intro r vs hr hvs
  rw [List.append_assoc, List.append_assoc]
  exact h _ _ (hfree r hr) (h' r vs hr hvs)

theorem Lexes.mark {c : Char} {t : JsonToken} (hc : isBlank c = false)
    (ht : ∀ r, next? (c :: r) = some (t, r)) : Lexes (c :: w) (t :: ts) :=
  fun r us hr hus => (h r us hr hus).mark hc ht

theorem Lexes.brackets : Lexes ('[' :: (w ++ [']'])) (.arrayBegin :: (ts ++ [.arrayEnd])) :=
  (h.append (lexes_word rfl fun _ => rfl) fun _ _ => free_mark (by decide) _).mark rfl fun _ => rfl

theorem Lexes.braces :
    Lexes ('\x7b' :: (w ++ ['\x7d'])) (.objectBegin :: (ts ++ [.objectEnd])) :=
  (h.append (lexes_word rfl fun _ => rfl) fun _ _ => free_mark (by decide) _).mark rfl fun _ => rfl

theorem Lexes.comma (h' : Lexes w' us) : Lexes (w ++ ',' :: w') (ts ++ .comma :: us) :=
  h.append (h'.mark rfl fun _ => rfl) fun _ _ => free_mark (by decide) _

end

end JsonToken

/-! ## Values -/

namespace JsonValue
open JsonToken

/-- Tokens form a value, whatever follows them. -/
def Nests (ts : List JsonToken) (v : JsonValue) : Prop :=
  ∀ fuel r, 2 * ts.length ≤ fuel → parseValue? fuel (ts ++ r) = some (v, r)

/-- Tokens form the values of an array, up to its end. -/
def NestsItems (ts : List JsonToken) (vs : List JsonValue) : Prop :=
  ∀ fuel r, 2 * ts.length + 1 ≤ fuel → parseItems? fuel (ts ++ .arrayEnd :: r) = some (vs, r)

/-- Tokens form the members of an object, up to its end. -/
def NestsMembers (ts : List JsonToken) (ms : List (List Nat × JsonValue)) : Prop :=
  ∀ fuel r, 2 * ts.length + 1 ≤ fuel → parseMembers? fuel (ts ++ .objectEnd :: r) = some (ms, r)

theorem nests_single {t : JsonToken} {v : JsonValue}
    (h : ∀ fuel r, parseValue? (fuel + 1) (t :: r) = some (v, r)) : Nests [t] v := by
  intro fuel r hf
  obtain _ | fuel := fuel
  · exact absurd hf (by simp)
  · exact h fuel r

theorem nests_noItems : Nests [.arrayBegin, .arrayEnd] (.array []) := by
  intro fuel r hf
  obtain _ | fuel := fuel
  · exact absurd hf (by simp)
  · rfl

theorem nests_noMembers : Nests [.objectBegin, .objectEnd] (.object []) := by
  intro fuel r hf
  obtain _ | fuel := fuel
  · exact absurd hf (by simp)
  · rfl

section
variable {ts us : List JsonToken} {v : JsonValue}

theorem Nests.last (h : Nests ts v) : NestsItems ts [v] := by
  intro fuel r hf
  obtain _ | fuel := fuel
  · exact absurd hf (by simp)
  · rw [parseItems?, h fuel _ (by omega)]

theorem Nests.item (h : Nests ts v) {vs : List JsonValue} (hs : NestsItems us vs) :
    NestsItems (ts ++ .comma :: us) (v :: vs) := by
  intro fuel r hf
  obtain _ | fuel := fuel
  · exact absurd hf (by simp)
  · rw [List.length_append, List.length_cons] at hf
    rw [List.append_assoc, parseItems?, h fuel _ (by omega), List.cons_append]
    dsimp only
    rw [hs fuel r (by omega)]
    rfl

theorem parseItems?_arrayEnd (fuel : Nat) (r : List JsonToken) :
    parseItems? fuel (.arrayEnd :: r) = none := by
  obtain _ | _ | fuel := fuel <;> rfl

theorem NestsItems.array {vs : List JsonValue} (h : NestsItems ts vs) :
    Nests (.arrayBegin :: (ts ++ [.arrayEnd])) (.array vs) := by
  intro fuel r hf
  obtain _ | fuel := fuel
  · exact absurd hf (by simp)
  · rw [List.length_cons, List.length_append] at hf
    have hitems := h fuel r (by omega)
    rw [List.cons_append, List.append_assoc, parseValue?]
    · exact congrArg (Option.map _) hitems
    · rintro rest (hrest : ts ++ .arrayEnd :: r = .arrayEnd :: rest)
      rw [hrest, parseItems?_arrayEnd] at hitems
      cases hitems

theorem Nests.lastMember (h : Nests ts v) (name : List Nat) :
    NestsMembers (.string name :: .colon :: ts) [(name, v)] := by
  intro fuel r hf
  obtain _ | fuel := fuel
  · exact absurd hf (by simp)
  · rw [List.length_cons, List.length_cons] at hf
    rw [List.cons_append, List.cons_append, parseMembers?, h fuel _ (by omega)]

theorem Nests.member (h : Nests ts v) (name : List Nat) {ms : List (List Nat × JsonValue)}
    (hs : NestsMembers us ms) :
    NestsMembers (.string name :: .colon :: (ts ++ .comma :: us)) ((name, v) :: ms) := by
  intro fuel r hf
  obtain _ | fuel := fuel
  · exact absurd hf (by simp)
  · rw [List.length_cons, List.length_cons, List.length_append, List.length_cons] at hf
    rw [List.cons_append, List.cons_append, List.append_assoc, parseMembers?,
      h fuel _ (by omega), List.cons_append]
    dsimp only
    rw [hs fuel r (by omega)]
    rfl

theorem parseMembers?_objectEnd (fuel : Nat) (r : List JsonToken) :
    parseMembers? fuel (.objectEnd :: r) = none := by
  obtain _ | fuel := fuel <;> rfl

theorem NestsMembers.object {ms : List (List Nat × JsonValue)} (h : NestsMembers ts ms) :
    Nests (.objectBegin :: (ts ++ [.objectEnd])) (.object ms) := by
  intro fuel r hf
  obtain _ | fuel := fuel
  · exact absurd hf (by simp)
  · rw [List.length_cons, List.length_append] at hf
    have hmembers := h fuel r (by omega)
    rw [List.cons_append, List.append_assoc, parseValue?]
    · exact congrArg (Option.map _) hmembers
    · rintro rest (hrest : ts ++ .objectEnd :: r = .objectEnd :: rest)
      rw [hrest, parseMembers?_objectEnd] at hmembers
      cases hmembers

end

/-! ## Texts -/

mutual

/-- The text of a value is cut into tokens that form it. -/
theorem Text.nests : ∀ {v w}, Text v w → ∃ ts, Lexes w ts ∧ Nests ts v
  | _, _, .null => ⟨_, lexes_word rfl fun _ => rfl, nests_single fun _ _ => rfl⟩
  | _, _, .true => ⟨_, lexes_word rfl fun _ => rfl, nests_single fun _ _ => rfl⟩
  | _, _, .false => ⟨_, lexes_word rfl fun _ => rfl, nests_single fun _ _ => rfl⟩
  | _, _, .number h => ⟨_, lexes_numeral h, nests_single fun _ _ => rfl⟩
  | _, _, .string h => ⟨_, lexes_quoted h, nests_single fun _ _ => rfl⟩
  | _, _, .noItems hb => ⟨_, (lexes_blanks hb).brackets, nests_noItems⟩
  | _, _, .array h => by
    obtain ⟨ts, hl, hn⟩ := h.nests
    exact ⟨_, hl.brackets, hn.array⟩
  | _, _, .noMembers hb => ⟨_, (lexes_blanks hb).braces, nests_noMembers⟩
  | _, _, .object h => by
    obtain ⟨ts, hl, hn⟩ := h.nests
    exact ⟨_, hl.braces, hn.object⟩

theorem Padded.nests : ∀ {v w}, Padded v w → ∃ ts, Lexes w ts ∧ Nests ts v
  | _, _, .mk hb h hb' => by
    obtain ⟨ts, hl, hn⟩ := h.nests
    have hl' := (hl.append (lexes_blanks hb') fun _ => free_blanks hb').behind hb
    rw [List.append_nil] at hl'
    exact ⟨ts, hl', hn⟩

theorem Items.nests : ∀ {vs w}, Items vs w → ∃ ts, Lexes w ts ∧ NestsItems ts vs
  | _, _, .last h => by
    obtain ⟨ts, hl, hn⟩ := h.nests
    exact ⟨ts, hl, hn.last⟩
  | _, _, .cons h hs => by
    obtain ⟨ts, hl, hn⟩ := h.nests
    obtain ⟨us, hl', hns⟩ := hs.nests
    exact ⟨_, hl.comma hl', hn.item hns⟩

theorem Member.nests : ∀ {m w}, Member m w →
    ∃ ts, Lexes w (.string m.1 :: .colon :: ts) ∧ Nests ts m.2
  | _, _, .mk hb hq hb' h => by
    obtain ⟨ts, hl, hn⟩ := h.nests
    refine ⟨ts, ?_, hn⟩
    have hcolon := (hl.mark (c := ':') rfl fun _ => rfl).behind hb'
    refine ((lexes_quoted hq).append hcolon fun r _ => ?_).behind hb
    rw [List.append_assoc]
    exact free_blanks hb' (free_mark (by decide) _)

theorem Members.nests : ∀ {ms w}, Members ms w → ∃ ts, Lexes w ts ∧ NestsMembers ts ms
  | _, _, .last h => by
    obtain ⟨ts, hl, hn⟩ := h.nests
    exact ⟨_, hl, hn.lastMember _⟩
  | _, _, .cons h hs => by
    obtain ⟨ts, hl, hn⟩ := h.nests
    obtain ⟨us, hl', hns⟩ := hs.nests
    exact ⟨_, hl.comma hl', hn.member _ hns⟩

end

/-- **A text of a value is read as that value.** -/
theorem parse?_of_padded {v : JsonValue} {text : String} (h : Padded v text.toList) :
    parse? text = some v := by
  obtain ⟨ts, hl, hn⟩ := h.nests
  have hlex := (hl [] [] free_nil reads_nil).lex?
  have hvalue := hn (2 * ts.length + 1) [] (Nat.le_succ _)
  rw [List.append_nil, List.append_nil] at hlex
  rw [List.append_nil] at hvalue
  rw [parse?, hlex, Option.bind_some, parseTokens?, hvalue]

/-! ## What is written -/

/-- The digits of a number have no leading zero. -/
theorem toDigits_of_head {n : Nat} (h : (Nat.toDigits 10 n).head? = some '0') :
    Nat.toDigits 10 n = ['0'] := by
  induction n using Nat.strong_induction_on with
  | _ n ih =>
    rcases lt_or_ge n 10 with hlt | hge
    · rw [Nat.toDigits_of_lt_base hlt] at h ⊢
      rw [Option.some.inj h]
    · rw [Nat.toDigits_of_base_le (by decide) hge,
        List.head?_append_of_ne_nil _ Nat.toDigits_ne_nil] at h
      have hzero := @Nat.ofDigitChars_ten_toDigits (n / 10)
      rw [ih (n / 10) (by omega) h] at hzero
      exact absurd hzero (by omega : 0 ≠ n / 10)

/-- A number in decimal digits. -/
theorem numeral_toDigits (n : Nat) : Numeral (Nat.toDigits 10 n) := by
  have hd : Digits (Nat.toDigits 10 n) :=
    ⟨Nat.toDigits_ne_nil, fun c hc => Nat.isDigit_of_mem_toDigits (by decide) le_rfl hc⟩
  have h := Numeral.mk (.inl rfl) hd toDigits_of_head .none .none
  rwa [List.append_nil, List.append_nil] at h

theorem spelling_hex4 {n : Nat} (h : n < 0x10000) : Spelling n ('\\' :: 'u' :: hex4 n) := by
  have hd (m : Nat) : HexDigit (Nat.digitChar (m % 16)) (m % 16) :=
    .lower (Nat.mod_lt m (by decide))
  have hs := Spelling.hex (hd (n / 0x1000)) (hd (n / 0x100)) (hd (n / 0x10)) (hd n)
  have hn : 0x1000 * (n / 0x1000 % 16) + 0x100 * (n / 0x100 % 16) + 0x10 * (n / 0x10 % 16) +
      n % 16 = n := by omega
  rwa [hn] at hs

/-- A character is no half of a surrogate pair. -/
theorem not_surrogate_toNat (c : Char) :
    isHighSurrogate c.toNat = false ∧ isLowSurrogate c.toNat = false := by
  have hc : c.toNat < 0xD800 ∨ 0xDFFF < c.toNat ∧ c.toNat < 0x110000 := c.valid
  simp only [isHighSurrogate, isLowSurrogate, Bool.and_eq_false_iff, decide_eq_false_iff_not]
  omega

theorem spelling_toNat (c : Char) : Spelling c.toNat (renderPoint c.toNat) := by
  obtain ⟨hh, hl⟩ := not_surrogate_toNat c
  rw [renderPoint, hh, hl]
  split_ifs with h₁ h₂ h₃ h₄ h₅ h₆ h₇ h₈
  · exact h₁ ▸ .short (by decide)
  · exact h₂ ▸ .short (by decide)
  · exact h₃ ▸ .short (by decide)
  · exact h₄ ▸ .short (by decide)
  · exact h₅ ▸ .short (by decide)
  · exact h₆ ▸ .short (by decide)
  · exact h₇ ▸ .short (by decide)
  · exact spelling_hex4 (by simp only [or_false] at h₈; omega)
  · rw [Char.ofNat_toNat]
    refine .plain (Char.le_def.2 (UInt32.le_iff_toNat_le.2 ?_)) ?_ ?_
    · exact not_lt.1 fun h => h₈ (.inl h)
    · rintro rfl
      exact h₁ rfl
    · rintro rfl
      exact h₂ rfl

theorem joinSurrogates_toNat (cs : List Char) :
    joinSurrogates (cs.map Char.toNat) = cs.map Char.toNat := by
  induction cs with
  | nil => rfl
  | cons c cs ih =>
    cases cs with
    | nil => rfl
    | cons d cs =>
      rw [List.map_cons, List.map_cons, joinSurrogates, (not_surrogate_toNat c).1]
      exact congrArg (c.toNat :: ·) ih

/-- The code points of a text, between quotes. -/
theorem quoted_text (s : String) : Quoted (pointsOfText s) (renderString (pointsOfText s)) := by
  have hbody (cs : List Char) :
      Body (cs.map Char.toNat) ((cs.map Char.toNat).flatMap renderPoint) := by
    induction cs with
    | nil => exact .nil
    | cons c cs ih => exact .cons (spelling_toNat c) ih
  have h := Quoted.mk (hbody s.toList)
  rwa [joinSurrogates_toNat] at h

theorem padded_text {v : JsonValue} {w : List Char} (h : Text v w) : Padded v w := by
  have hb : Blanks [] := by simp [Blanks]
  have hp := Padded.mk hb h hb
  rwa [List.append_nil] at hp

theorem member_render {m : List Nat × JsonValue} (hq : Quoted m.1 (renderString m.1))
    (h : Text m.2 m.2.renderChars) : Member m (renderString m.1 ++ ':' :: m.2.renderChars) :=
  have hb : Blanks [] := by simp [Blanks]
  .mk hb hq hb (padded_text h)

theorem members_render {m : List Nat × JsonValue} {ms : List (List Nat × JsonValue)}
    (h : ∀ x ∈ m :: ms, Quoted x.1 (renderString x.1) ∧ Text x.2 x.2.renderChars) :
    Members (m :: ms) (renderMembers (m :: ms)) := by
  induction ms generalizing m with
  | nil =>
    obtain ⟨hq, ht⟩ := h m List.mem_cons_self
    exact .last (member_render hq ht)
  | cons m' ms ih =>
    obtain ⟨⟨hq, ht⟩, hs⟩ := List.forall_mem_cons.1 h
    exact .cons (member_render hq ht) (ih hs)

/-- **An object** is written as a text of it, if its names and its values are. -/
theorem padded_object {ms : List (List Nat × JsonValue)}
    (h : ∀ m ∈ ms, Quoted m.1 (renderString m.1) ∧ Text m.2 m.2.renderChars) :
    Padded (.object ms) (JsonValue.object ms).render.toList := by
  rw [render, String.toList_ofList]
  refine padded_text ?_
  cases ms with
  | nil => exact .noMembers (b := []) (by simp [Blanks])
  | cons m ms => exact .object (members_render h)

end JsonValue

end SealedStream
