import Mathlib
import SealedStream.Proofs.JsonTexts
import SealedStream.Settings
/-!
# Settings as texts

* `Settings.IsWord v n`: the value `v` is the number `n` of 64 bits.
* `Settings.Gives ms given`: of the members `ms` of an object the settings in `given` are given, and
  all others have names that are no setting.
* `Settings.Overridden s given s'`: the settings `s'` are as given, and otherwise as `s`.
  `Settings.ofMembers?_gives` says that this becomes of such members, one after another.
* `Settings.read_as_written`: settings are read as they are written, and otherwise as they are
  given, wherever that stands and whatever stands beside it.
-/
namespace SealedStream.Settings
open JsonValue (Digits Padded)

/-! ## One setting -/

@[ext]
theorem ext_get {s s' : Settings} (h : ∀ name, s.get name = s'.get name) : s = s' := by
  obtain ⟨a, b, c, d, _, _, _, _⟩ := s
  obtain ⟨a', b', c', d', _, _, _, _⟩ := s'
  obtain rfl : a = a' := h .maxFieldLen
  obtain rfl : b = b' := h .maxChunkLen
  obtain rfl : c = c' := h .associatedDataLen
  obtain rfl : d = d' := h .writeBufferCapacity
  rfl

theorem get_set (s : Settings) (name other : Name) {n : Nat} (h : n ≤ wordMax) :
    (s.set name n).get other = if other = name then n else s.get other := by
  rw [set, dif_pos h]
  cases name <;> cases other <;> rfl

theorem Name.ofText?_text (name : Name) : ofText? name.text = some name := by
  cases name <;> decide

theorem Name.ofText?_eq_none {key : String} (h : ∀ name : Name, name.text ≠ key) :
    ofText? key = none := by
  rw [ofText?, List.find?_eq_none]
  exact fun name _ => by simpa using h name

theorem textOfPoints?_pointsOfText (s : String) : textOfPoints? (pointsOfText s) = some s := by
  have hvalid : (pointsOfText s).all Nat.isValidChar = true := by
    rw [pointsOfText, List.all_map, List.all_eq_true]
    exact fun c _ => decide_eq_true c.valid
  have hchars : (pointsOfText s).map Char.ofNat = s.toList := by
    rw [pointsOfText, List.map_map]
    exact (List.map_congr_left fun c _ => Char.ofNat_toNat c).trans (List.map_id _)
  rw [textOfPoints?, if_pos hvalid, hchars, String.ofList_toList]

/-- A whole number of 64 bits, in decimal digits. -/
inductive IsWord : JsonValue → Nat → Prop where
  | mk {ds : List Char} {n : Nat} (hd : Digits ds) (hn : Nat.ofDigitChars 10 ds 0 = n)
      (hw : n ≤ wordMax) : IsWord (.number ds) n

theorem IsWord.le {v : JsonValue} {n : Nat} (h : IsWord v n) : n ≤ wordMax := by
  obtain ⟨-, -, hw⟩ := h
  exact hw

theorem IsWord.wordOfJson?_eq {v : JsonValue} {n : Nat} (h : IsWord v n) :
    wordOfJson? v = some n := by
  obtain ⟨hd, rfl, hw⟩ := h
  rw [Settings.wordOfJson?, if_pos ⟨List.all_eq_true.2 hd.isDigit, hd.ne_nil⟩]
  exact if_pos hw

theorem isWord_wordToJson {n : Nat} (h : n ≤ wordMax) : IsWord (wordToJson n) n :=
  .mk ⟨Nat.toDigits_ne_nil, fun _ hc => Nat.isDigit_of_mem_toDigits (by decide) le_rfl hc⟩
    Nat.ofDigitChars_ten_toDigits h

/-! ## Members -/

/-- What the members of an object give of settings. -/
inductive Gives : List (List Nat × JsonValue) → List (Name × Nat) → Prop where
  | nil : Gives [] []
  | known {name : Name} {v : JsonValue} {n : Nat} {ms : List (List Nat × JsonValue)}
      {given : List (Name × Nat)} (h : IsWord v n) (hs : Gives ms given) :
      Gives ((pointsOfText name.text, v) :: ms) ((name, n) :: given)
  | unknown {key : String} {v : JsonValue} {ms : List (List Nat × JsonValue)}
      {given : List (Name × Nat)} (h : ∀ name : Name, name.text ≠ key) (hs : Gives ms given) :
      Gives ((pointsOfText key, v) :: ms) given

/-- Settings that are as given, and otherwise as others are. -/
structure Overridden (s : Settings) (given : List (Name × Nat)) (s' : Settings) : Prop where
  named {name : Name} {n : Nat} (h : (name, n) ∈ given) : s'.get name = n
  other {name : Name} (h : name ∉ given.map Prod.fst) : s'.get name = s.get name

/-- Settings do not depend on the order in which they are given. -/
theorem Overridden.unique {s s₁ s₂ : Settings} {given₁ given₂ : List (Name × Nat)}
    (h₁ : Overridden s given₁ s₁) (h₂ : Overridden s given₂ s₂) (hp : given₁.Perm given₂) :
    s₁ = s₂ := by
  ext name
  by_cases hn : name ∈ given₁.map Prod.fst
  · obtain ⟨⟨_, n⟩, hm, rfl⟩ := List.mem_map.1 hn
    rw [h₁.named hm, h₂.named (hp.mem_iff.1 hm)]
  · rw [h₁.other hn, h₂.other (mt (hp.map Prod.fst).mem_iff.2 hn)]

/-- **What becomes of members**, where no setting is given twice. -/
theorem ofMembers?_gives {ms : List (List Nat × JsonValue)} {given : List (Name × Nat)}
    (h : Gives ms given) {seen : List Name} (hn : (given.map Prod.fst).Nodup)
    (hs : ∀ name ∈ given.map Prod.fst, name ∉ seen) (s : Settings) :
    ∃ s', ofMembers? seen s ms = some s' ∧ Overridden s given s' := by
  induction h generalizing seen s with
  | nil => exact ⟨s, rfl, fun h => (by cases h), fun _ => rfl⟩
  | @known name v n ms given hv _ ih =>
    obtain ⟨hname, hseen⟩ := List.forall_mem_cons.1 hs
    obtain ⟨hnew, hn⟩ := List.nodup_cons.1 hn
    have hs' : ∀ other ∈ given.map Prod.fst, other ∉ name :: seen := by
      intro other ho hm
      rcases List.mem_cons.1 hm with rfl | hm
      · exact hnew ho
      · exact hseen other ho hm
    obtain ⟨s', hof, hover⟩ := ih hn hs' (s.set name n)
    refine ⟨s', ?_, fun {other m} hm => ?_, fun {other} ho => ?_⟩
    · simp only [ofMembers?, textOfPoints?_pointsOfText, Name.ofText?_text, hv.wordOfJson?_eq,
        Option.bind_eq_bind, Option.bind_some, if_neg hname, hof]
    · rcases List.mem_cons.1 hm with hm | hm
      · cases hm
        rw [hover.other hnew, get_set s name name hv.le, if_pos rfl]
      · exact hover.named hm
    · rw [List.map_cons, List.mem_cons, not_or] at ho
      rw [hover.other ho.2, get_set s name other hv.le, if_neg ho.1]
  | unknown hk _ ih =>
    obtain ⟨s', hof, hover⟩ := ih hn hs s
    refine ⟨s', ?_, hover⟩
    simp only [ofMembers?, textOfPoints?_pointsOfText, Name.ofText?_eq_none hk,
      Option.bind_eq_bind, Option.bind_some, hof]

/-! ## Texts -/

theorem gives_toJson (s : Settings) (names : List Name) :
    Gives (names.map fun n => (pointsOfText n.text, wordToJson (s.get n)))
      (names.map fun n => (n, s.get n)) := by
  induction names with
  | nil => exact .nil
  | cons n names ih => exact .known (isWord_wordToJson (s.get_le n)) ih

theorem padded_toJson (s : Settings) : Padded s.toJson s.toJson.render.toList := by
  refine JsonValue.padded_object fun m hm => ?_
  obtain ⟨name, -, rfl⟩ := List.mem_map.1 hm
  exact ⟨JsonValue.quoted_text _, .number (JsonValue.numeral_toDigits _)⟩

/-- A text of an object is read as the settings that it gives. -/
theorem parse?_gives {ms : List (List Nat × JsonValue)} {given : List (Name × Nat)} {text : String}
    (h : Gives ms given) (hn : (given.map Prod.fst).Nodup)
    (ht : Padded (.object ms) text.toList) :
    ∃ s, parse? text = some s ∧ Overridden {} given s := by
  rw [parse?, JsonValue.parse?_of_padded ht]
  exact ofMembers?_gives h hn (by simp) {}

theorem parse?_render (s : Settings) : parse? s.toJson.render = some s := by
  have hgives := gives_toJson s Name.all
  have hnames : ((Name.all.map fun n => (n, s.get n)).map Prod.fst).Nodup := by
    rw [List.map_map]
    exact (by decide : (Name.all.map id).Nodup)
  obtain ⟨s', hs', hover⟩ := parse?_gives hgives hnames (padded_toJson s)
  have hself : s' = s := by
    ext name
    exact hover.named (List.mem_map_of_mem (by cases name <;> decide))
  rw [hs', hself]

/-- **Settings are read as they are written.** A text of an object in which no setting is given
twice is read as settings with the given numbers, and with the defaults for all that are not given.
It makes no difference in which order they are given and what stands beside them under other
names. -/
theorem read_as_written :
    (∀ s : Settings, parse? s.toJson.render = some s) ∧
    ∀ {ms : List (List Nat × JsonValue)} {given : List (Name × Nat)} {text : String},
      Gives ms given → (given.map Prod.fst).Nodup → Padded (.object ms) text.toList →
      (∃ s, parse? text = some s ∧ Overridden {} given s) ∧
      ∀ {ms' : List (List Nat × JsonValue)} {given' : List (Name × Nat)} {text' : String},
        Gives ms' given' → given'.Perm given → Padded (.object ms') text'.toList →
        parse? text' = parse? text := by
  refine ⟨parse?_render, fun {ms given text} h hn ht => ?_⟩
  obtain ⟨s, hs, hover⟩ := parse?_gives h hn ht
  refine ⟨⟨s, hs, hover⟩, fun {ms' given' text'} h' hp ht' => ?_⟩
  have hn' : (given'.map Prod.fst).Nodup := (hp.map Prod.fst).nodup_iff.2 hn
  obtain ⟨s', hs', hover'⟩ := parse?_gives h' hn' ht'
  rw [hs, hs', hover'.unique hover hp]

/-- A setting behind a member of another name, and the same one alone. -/
theorem read_as_written_sample :
    let extra : List Nat × JsonValue := (pointsOfText "extra", .array [.null, .object []])
    let chunk : List Nat × JsonValue := (pointsOfText "max_chunk_len", wordToJson 65536)
    (∃ s, parse? (JsonValue.object [extra, chunk]).render = some s ∧ s.get .maxChunkLen = 65536 ∧
      s.get .maxFieldLen = 16777216) ∧
    parse? (JsonValue.object [chunk]).render = parse? (JsonValue.object [extra, chunk]).render := by
  intro extra chunk
  have hword : IsWord (wordToJson 65536) 65536 := isWord_wordToJson (by decide)
  have hchunk : Gives [chunk] [(.maxChunkLen, 65536)] := @Gives.known .maxChunkLen _ _ _ _ hword .nil
  have hextra : Gives [extra, chunk] [(.maxChunkLen, 65536)] :=
    .unknown (fun name => by cases name <;> decide) hchunk
  have hvalue : JsonValue.Text extra.2 extra.2.renderChars :=
    .array (.cons (JsonValue.padded_text .null) (.last (JsonValue.padded_text
      (.noMembers (b := []) (by simp [JsonValue.Blanks])))))
  have hpad {ms : List (List Nat × JsonValue)} (h : ∀ m ∈ ms, m = extra ∨ m = chunk) :
      Padded (.object ms) (JsonValue.object ms).render.toList := by
    refine JsonValue.padded_object fun m hm => ?_
    rcases h m hm with rfl | rfl
    · exact ⟨JsonValue.quoted_text _, hvalue⟩
    · exact ⟨JsonValue.quoted_text _, .number (JsonValue.numeral_toDigits _)⟩
  obtain ⟨⟨s, hs, hover⟩, hsame⟩ := read_as_written.2 hextra (by decide) (hpad (by simp))
  exact ⟨⟨s, hs, hover.named (by simp), hover.other (by simp)⟩,
    hsame hchunk (.refl _) (hpad (by simp))⟩

end SealedStream.Settings
