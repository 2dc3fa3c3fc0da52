import Mathlib
import SealedStream.Proofs.Encoding
import SealedStream.Proofs.Transport
import SealedStream.Sealer
/-!
# What a sealer writes

* `Sealer.Call` is what a caller asks of a sealer before the end, `Sealer.feed` a row of calls and
  `Sealer.complete` a row of calls and then the end.
* `Sealer.emitAll_ok_iff` and `Sealer.encode_ok_iff` say when chunks are written and what becomes of
  the sealer.
* `Sealer.complete_ok`: a container that was completed consists of the chunks of the pieces of its
  plaintext, however the plaintext came. `Sealer.complete_reliable`: it is completed if the output
  does not fail and the encoder makes all chunks.
-/
namespace SealedStream

/-! ## Writing items -/

section
variable {τ : Type} [Output τ]

theorem writeItems_cons_ok {item : Item} {items : List Item} {o o' : τ} :
    writeItems (item :: items) o = (.ok (), o') ↔ ∃ ps o₁, item.pieces = .ok ps ∧
      writePieces ps o = (.ok (), o₁) ∧ writeItems items o₁ = (.ok (), o') := by
  constructor
  · intro h
    rw [writeItems] at h
    rcases hp : item.pieces with e | ps <;> rw [hp] at h
    · cases h
    · rcases hw : writePieces ps o with ⟨e | _, o₁⟩ <;> simp only [hw] at h
      · cases h
      · exact ⟨ps, o₁, rfl, hw, h⟩
  · rintro ⟨ps, o₁, hp, hw, h⟩
    simp only [writeItems, hp, hw, h]

theorem writeItems_append_ok {xs ys : List Item} {o o' : τ} :
    writeItems (xs ++ ys) o = (.ok (), o') ↔
      ∃ o₁, writeItems xs o = (.ok (), o₁) ∧ writeItems ys o₁ = (.ok (), o') := by
  induction xs generalizing o with
  | nil =>
    constructor
    · exact fun h => ⟨o, rfl, h⟩
    · rintro ⟨_, h₁, h⟩
      cases h₁
      exact h
  | cons x xs ih =>
    simp only [List.cons_append, writeItems_cons_ok, ih]
    constructor
    · rintro ⟨ps, o₁, hp, hw, o₂, h₁, h₂⟩
      exact ⟨o₂, ⟨ps, o₁, hp, hw, h₁⟩, h₂⟩
    · rintro ⟨o₂, ⟨ps, o₁, hp, hw, h₁⟩, h₂⟩
      exact ⟨ps, o₁, hp, hw, o₂, h₁, h₂⟩

theorem taken_writePieces [Lossless τ] {ps : List Bytes} {o o' : τ}
    (h : writePieces ps o = (.ok (), o')) :
    Lossless.taken o' = Lossless.taken o ++ ps.flatten := by
  induction ps generalizing o with
  | nil =>
    cases h
    simp
  | cons p ps ih =>
    rcases hw : Output.write p o with ⟨e | _, o₁⟩ <;> rw [writePieces, hw] at h
    · cases h
    · rw [ih h, Lossless.taken_write hw, List.append_assoc, List.flatten_cons]

/-- What was written of items, and that all of them can be written. -/
theorem taken_writeItems [Lossless τ] {items : List Item} {o o' : τ}
    (h : writeItems items o = (.ok (), o')) :
    (∀ i ∈ items, i.Encodable) ∧
      Lossless.taken o' = Lossless.taken o ++ items.flatMap Item.octets := by
  induction items generalizing o with
  | nil =>
    cases h
    simp
  | cons item items ih =>
    obtain ⟨ps, o₁, hp, hw, h⟩ := writeItems_cons_ok.1 h
    obtain ⟨he, ho⟩ := Item.pieces_eq_ok_iff hp
    obtain ⟨hes, ht⟩ := ih h
    refine ⟨List.forall_mem_cons.2 ⟨he, hes⟩, ?_⟩
    rw [ht, taken_writePieces hw, ho, List.append_assoc, List.flatMap_cons]

theorem writePieces_reliable (ps : List Bytes) {o : τ} (h : Output.Reliable o) :
    ∃ o', writePieces ps o = (.ok (), o') ∧ Output.Reliable o' := by
  induction ps generalizing o with
  | nil => exact ⟨o, rfl, h⟩
  | cons p ps ih =>
    obtain ⟨o₁, hw, h₁⟩ := Output.neverFails_reliable.write p h
    obtain ⟨o', hs, h'⟩ := ih h₁
    exact ⟨o', by simp only [writePieces, hw, hs], h'⟩

/-- Items that can be written are, by an output that does not fail. -/
theorem writeItems_reliable {items : List Item} (hs : ∀ i ∈ items, i.Encodable) {o : τ}
    (h : Output.Reliable o) : ∃ o', writeItems items o = (.ok (), o') ∧ Output.Reliable o' := by
  induction items generalizing o with
  | nil => exact ⟨o, rfl, h⟩
  | cons item items ih =>
    obtain ⟨he, hes⟩ := List.forall_mem_cons.1 hs
    obtain ⟨ps, hp, -⟩ := he.pieces_eq
    obtain ⟨o₁, hw, h₁⟩ := writePieces_reliable ps h
    obtain ⟨o', hr, h'⟩ := ih hes h₁
    exact ⟨o', writeItems_cons_ok.2 ⟨ps, o₁, hp, hw, hr⟩, h'⟩

end

namespace Sealer
variable {M : Modes} {τ : Type} [Output τ]

/-! ## Writing chunks -/

theorem emit_ok_iff {p : Piece} {w w' : Sealer M τ} :
    w.emit p = (.ok (), w') ↔ ∃ c enc o, w.encoder.encrypt p = (.ok c, enc) ∧
      writeItems c.items w.output = (.ok (), o) ∧
      w' = { w with encoder := enc, output := o, chunks := w.chunks + 1 } := by
  obtain ⟨output, encoder, maxChunkLen, pending, phase, chunks, plaintextLen, events⟩ := w
  constructor
  · intro h
    rcases hc : encoder.encrypt p with ⟨e | c, enc⟩ <;> simp only [emit, hc] at h
    · cases h
    · rcases hw : writeItems c.items output with ⟨e | _, o⟩ <;> simp only [hw] at h <;> cases h
      exact ⟨c, enc, o, rfl, hw, rfl⟩
  · rintro ⟨c, enc, o, hc, hw, rfl⟩
    simp only [emit, hc, hw]

/-- **When the chunks of pieces are written**, and what becomes of the sealer. -/
theorem emitAll_ok_iff {ps : List Piece} {w w' : Sealer M τ} :
    w.emitAll ps = (.ok (), w') ↔ ∃ t enc o, t.map Prod.fst = ps ∧ w.encoder.Makes t enc ∧
      writeItems (t.flatMap fun x => x.2.items) w.output = (.ok (), o) ∧
      w' = { w with encoder := enc, output := o, chunks := w.chunks + t.length } := by
  induction ps generalizing w with
  | nil =>
    constructor
    · intro h
      cases h
      exact ⟨[], _, _, rfl, .nil _, rfl, rfl⟩
    · rintro ⟨t, enc, o, ht, hm, hw, rfl⟩
      obtain rfl := List.map_eq_nil_iff.1 ht
      cases hm
      cases hw
      rfl
  | cons p ps ih =>
    constructor
    · intro h
      rw [emitAll] at h
      rcases he : w.emit p with ⟨e | _, w₁⟩ <;> simp only [he] at h
      · cases h
      · obtain ⟨c, enc₁, o₁, hc, hw₁, rfl⟩ := emit_ok_iff.1 he
        obtain ⟨t, enc, o, rfl, hm, hw, rfl⟩ := ih.1 h
        refine ⟨(p, c) :: t, enc, o, rfl, .cons hc hm, ?_, ?_⟩
        · exact writeItems_append_ok.2 ⟨o₁, hw₁, hw⟩
        · rw [List.length_cons, Nat.add_right_comm, Nat.add_assoc]
    · rintro ⟨t, enc, o, ht, hm, hw, rfl⟩
      obtain ⟨⟨q, c⟩, t, rfl, rfl, hts⟩ := List.map_eq_cons_iff.1 ht
      rcases hm with - | ⟨hc, hm⟩
      obtain ⟨o₁, hw₁, hw⟩ := writeItems_append_ok.1 hw
      have he := emit_ok_iff.2 ⟨c, _, o₁, hc, hw₁, rfl⟩
      simp only [emitAll, he]
      refine ih.2 ⟨t, enc, o, hts, hm, hw, ?_⟩
      rw [List.length_cons, Nat.add_right_comm, Nat.add_assoc]

theorem encode_ok_iff {last : Bool} {w w' : Sealer M τ} :
    w.encode last = (.ok (), w') ↔ ∃ t enc o,
      t.map Prod.fst = (w.encoder.plan w.maxChunkLen last w.pending).pieces ∧
      w.encoder.Makes t enc ∧
      writeItems (t.flatMap fun x => x.2.items) w.output = (.ok (), o) ∧
      w' = { w with
        encoder := enc, output := o, chunks := w.chunks + t.length,
        pending := (w.encoder.plan w.maxChunkLen last w.pending).rest,
        events := w.events.push (.chunksSealed (w.chunks + t.length) last) } := by
  constructor
  · intro h
    rw [encode] at h
    rcases he : w.emitAll (w.encoder.plan w.maxChunkLen last w.pending).pieces with ⟨e | _, w₁⟩ <;>
      simp only [he] at h <;> cases h
    obtain ⟨t, enc, o, ht, hm, hw, rfl⟩ := emitAll_ok_iff.1 he
    exact ⟨t, enc, o, ht, hm, hw, rfl⟩
  · rintro ⟨t, enc, o, ht, hm, hw, rfl⟩
    have he := emitAll_ok_iff.2 ⟨t, enc, o, ht, hm, hw, rfl⟩
    simp only [encode, he]

/-! ## Calls -/

/-- What a caller asks of a sealer before the end. -/
inductive Call where
  | write (data : Bytes)
  | flush

/-- The plaintext of a call. -/
def Call.data : Call → Bytes
  | write data => data
  | flush => []

/-- Do a call. -/
def call : Call → Sealer M τ → Except IoError Unit × Sealer M τ
  | .write data, w =>
    match w.write data with
    | (.ok _, w) => (.ok (), w)
    | (.error e, w) => (.error e, w)
  | .flush, w => w.flush

/-- Do calls, up to the first failure. -/
def feed : List Call → Sealer M τ → Except IoError Unit × Sealer M τ
  | [], w => (.ok (), w)
  | c :: cs, w =>
    match w.call c with
    | (.ok (), w) => feed cs w
    | (.error e, w) => (.error e, w)

/-- Do calls and then finish the container. -/
def complete (cs : List Call) (w : Sealer M τ) : Except StreamError Unit × Sealer M τ :=
  match w.feed cs with
  | (.ok (), w) => w.finish
  | (.error e, w) => (.error (.io e), w)

/-- A sealer that is open, and whose pending plaintext gives no further pieces. -/
structure Settled (w : Sealer M τ) : Prop where
  phase : w.phase = .running
  pending : w.encoder.plan w.maxChunkLen false w.pending = ⟨[], w.pending⟩

/-- A call writes the chunks that its plaintext gives, or it writes nothing and gives none. -/
theorem call_ok_iff {c : Call} {w w' : Sealer M τ} (hw : w.Settled) :
    w.call c = (.ok (), w') ↔
      (∃ data, c = .write data ∧ data ≠ [] ∧
        encode false { w with pending := w.pending ++ data
                              plaintextLen := w.plaintextLen + data.length } = (.ok (), w')) ∨
      (c = .write [] ∧ w' = w) ∨
      ∃ o, c = .flush ∧ Output.flush w.output = (.ok (), o) ∧ w' = { w with output := o } := by
  have hr : w.phase.refusal? = none := by rw [hw.phase]; rfl
  cases c with
  | write data =>
    by_cases hd : data = []
    · subst hd
      simp only [call, write, hr]
      constructor
      · intro h
        cases h
        exact .inr (.inl ⟨trivial, rfl⟩)
      · rintro (⟨data, hc, hne, -⟩ | ⟨-, rfl⟩ | ⟨o, hc, -⟩)
        · cases hc
          exact absurd rfl hne
        · rfl
        · cases hc
    · have hlen : data.length ≠ 0 := fun h => hd (List.length_eq_zero_iff.1 h)
      simp only [call, write, hr, if_neg hlen]
      constructor
      · intro h
        refine .inl ⟨data, rfl, hd, ?_⟩
        split at h
        · next he =>
          split at he
          · next hx =>
            cases he
            cases h
            exact hx
          · cases he
        · cases h
      · rintro (⟨_, hc, -, he⟩ | ⟨hc, -⟩ | ⟨o, hc, -⟩)
        · cases hc
          simp only [he]
        · cases hc
          exact absurd rfl hd
        · cases hc
  | flush =>
    simp only [call, flush, hr]
    constructor
    · intro h
      rcases hf : Output.flush w.output with ⟨e | _, o⟩ <;> rw [hf] at h <;> cases h
      exact .inr (.inr ⟨o, trivial, rfl, rfl⟩)
    · rintro (⟨data, hc, -⟩ | ⟨hc, -⟩ | ⟨o, -, hf, rfl⟩)
      · cases hc
      · cases hc
      · rw [hf]

theorem complete_ok_iff {cs : List Call} {w w' : Sealer M τ} :
    w.complete cs = (.ok (), w') ↔ ∃ w₁, w.feed cs = (.ok (), w₁) ∧ w₁.finish = (.ok (), w') := by
  constructor
  · intro h
    rw [complete] at h
    rcases hf : w.feed cs with ⟨e | _, w₁⟩ <;> simp only [hf] at h
    · cases h
    · exact ⟨w₁, rfl, h⟩
  · rintro ⟨w₁, hf, h⟩
    simp only [complete, hf, h]

theorem close_ok_iff {w w' : Sealer M τ} (hw : w.phase = .running) :
    w.close = (.ok (), w') ↔ ∃ w₁ o, w.encode true = (.ok (), w₁) ∧
      Output.flush w₁.output = (.ok (), o) ∧
      w' = { w₁ with output := o, phase := .ended
                     events := w₁.events.push (.sealerClosed w₁.chunks w₁.plaintextLen) } := by
  have hr : w.phase.refusal? = none := by rw [hw]; rfl
  simp only [close, hr, encodeLast]
  constructor
  · intro h
    rcases hc : w.encode true with ⟨e | _, w₁⟩ <;> simp only [hc] at h
    · cases h
    · rcases hf : Output.flush w₁.output with ⟨e | _, o⟩ <;> simp only [hf] at h <;> cases h
      exact ⟨w₁, o, rfl, hf, rfl⟩
  · rintro ⟨w₁, o, hc, hf, rfl⟩
    simp only [hc, hf]

theorem finish_ok_iff {w w' : Sealer M τ} (hw : w.phase = .running) :
    w.finish = (.ok (), w') ↔ ∃ w₁ o, w.close = (.ok (), w₁) ∧
      Output.drain w₁.output = (.ok (), o) ∧ w' = { w₁ with output := o } := by
  simp only [finish, hw, Phase.isEnded, Bool.false_eq_true, if_false]
  constructor
  · intro h
    rcases hc : w.close with ⟨e | _, w₁⟩ <;> simp only [hc] at h
    · cases h
    · rcases hd : Output.drain w₁.output with ⟨e | _, o⟩ <;> simp only [hd] at h <;> cases h
      exact ⟨w₁, o, rfl, hd, rfl⟩
  · rintro ⟨w₁, o, hc, hd, rfl⟩
    simp only [hc, hd]

/-! ## What calls write -/

/-- Between two states of a sealer the chunks of a transcript were written, and nothing else. -/
structure Wrote [Lossless τ] (w : Sealer M τ) (t : List (Piece × Chunk)) (w' : Sealer M τ) :
    Prop where
  makes : w.encoder.Makes t w'.encoder
  encodable : ∀ x ∈ t, x.2.Encodable
  taken : Lossless.taken w'.output = Lossless.taken w.output ++ t.flatMap fun x => x.2.octets
  maxChunkLen : w'.maxChunkLen = w.maxChunkLen

theorem Wrote.trans [Lossless τ] {w₁ w₂ w₃ : Sealer M τ} {t u : List (Piece × Chunk)}
    (h : Wrote w₁ t w₂) (h' : Wrote w₂ u w₃) : Wrote w₁ (t ++ u) w₃ where
  makes := h.makes.append h'.makes
  encodable x hx := (List.mem_append.1 hx).elim (h.encodable x) (h'.encodable x)
  taken := by rw [h'.taken, h.taken, List.append_assoc, List.flatMap_append]
  maxChunkLen := h'.maxChunkLen.trans h.maxChunkLen

theorem octets_flatMap_items (t : List (Piece × Chunk)) :
    (t.flatMap fun x => x.2.items).flatMap Item.octets = t.flatMap fun x => x.2.octets :=
  List.flatMap_assoc

theorem encodable_flatMap_items {t : List (Piece × Chunk)} :
    (∀ i ∈ t.flatMap fun x => x.2.items, i.Encodable) ↔ ∀ x ∈ t, x.2.Encodable := by
  simp only [List.mem_flatMap, ← Chunk.encodable_iff]
  exact ⟨fun h x hx i hi => h i ⟨x, hx, hi⟩, fun h i ⟨x, hx, hi⟩ => h x hx i hi⟩

theorem encode_ok [Lossless τ] {last : Bool} {w w' : Sealer M τ}
    (h : w.encode last = (.ok (), w')) : ∃ t, Wrote w t w' ∧ w'.phase = w.phase ∧
      w.encoder.plan w.maxChunkLen last w.pending = ⟨t.map Prod.fst, w'.pending⟩ := by
  obtain ⟨t, enc, o, ht, hm, hw, rfl⟩ := encode_ok_iff.1 h
  obtain ⟨he, ho⟩ := taken_writeItems hw
  refine ⟨t, ⟨hm, encodable_flatMap_items.1 he, ?_, rfl⟩, rfl, by rw [ht]⟩
  rw [ho, octets_flatMap_items]

theorem encode_reliable {last : Bool} {w : Sealer M τ} {enc : Encoder M}
    {t : List (Piece × Chunk)} (hr : Output.Reliable w.output) (hm : w.encoder.Makes t enc)
    (ht : t.map Prod.fst = (w.encoder.plan w.maxChunkLen last w.pending).pieces)
    (he : ∀ x ∈ t, x.2.Encodable) :
    ∃ w', w.encode last = (.ok (), w') ∧ Output.Reliable w'.output ∧ w'.phase = w.phase ∧
      w'.encoder = enc ∧ w'.maxChunkLen = w.maxChunkLen ∧
      w'.pending = (w.encoder.plan w.maxChunkLen last w.pending).rest := by
  obtain ⟨o, hw, hr⟩ := writeItems_reliable (encodable_flatMap_items.2 he) hr
  exact ⟨_, encode_ok_iff.2 ⟨t, enc, o, ht, hm, hw, rfl⟩, hr, rfl, rfl, rfl, rfl⟩

/-- What a call writes: the chunks that are due now that its plaintext came. -/
theorem call_ok [Lossless τ] {c : Call} {w w' : Sealer M τ} (hw : w.Settled)
    (h : w.call c = (.ok (), w')) : ∃ t, Wrote w t w' ∧ w'.phase = .running ∧
      w.encoder.plan w.maxChunkLen false (w.pending ++ c.data) = ⟨t.map Prod.fst, w'.pending⟩ := by
  rcases (call_ok_iff hw).1 h with ⟨data, rfl, -, he⟩ | ⟨rfl, rfl⟩ | ⟨o, rfl, hf, rfl⟩
  · obtain ⟨t, hwr, hp, hpl⟩ := encode_ok he
    exact ⟨t, ⟨hwr.makes, hwr.encodable, hwr.taken, hwr.maxChunkLen⟩, hp.trans hw.phase, hpl⟩
  · refine ⟨[], ⟨.nil _, by simp, by simp, rfl⟩, hw.phase, ?_⟩
    simpa [Call.data] using hw.pending
  · refine ⟨[], ⟨.nil _, by simp, ?_, rfl⟩, hw.phase, ?_⟩
    · simpa using Lossless.taken_flush hf
    · simpa [Call.data] using hw.pending

theorem call_reliable {c : Call} {w : Sealer M τ} {enc : Encoder M} {t : List (Piece × Chunk)}
    (hw : w.Settled) (hr : Output.Reliable w.output) (hm : w.encoder.Makes t enc)
    (ht : t.map Prod.fst = (w.encoder.plan w.maxChunkLen false (w.pending ++ c.data)).pieces)
    (he : ∀ x ∈ t, x.2.Encodable) :
    ∃ w', w.call c = (.ok (), w') ∧ Output.Reliable w'.output ∧ w'.phase = .running ∧
      w'.encoder = enc ∧ w'.maxChunkLen = w.maxChunkLen ∧
      w'.pending = (w.encoder.plan w.maxChunkLen false (w.pending ++ c.data)).rest := by
  have hnil (hd : c.data = []) : w.encoder = enc ∧
      w.pending = (w.encoder.plan w.maxChunkLen false (w.pending ++ c.data)).rest := by
    rw [hd, List.append_nil, hw.pending] at ht ⊢
    obtain rfl := List.map_eq_nil_iff.1 ht
    cases hm
    exact ⟨rfl, rfl⟩
  cases c with
  | write data =>
    by_cases hd : data = []
    · subst hd
      exact ⟨w, (call_ok_iff hw).2 (.inr (.inl ⟨rfl, rfl⟩)), hr, hw.phase, (hnil rfl).1, rfl,
        (hnil rfl).2⟩
    · obtain ⟨w', hx, hr, hp, h⟩ := @encode_reliable M τ _ false
        { w with pending := w.pending ++ data, plaintextLen := w.plaintextLen + data.length }
        enc t hr hm ht he
      exact ⟨w', (call_ok_iff hw).2 (.inl ⟨data, rfl, hd, hx⟩), hr, hp.trans hw.phase, h⟩
  | flush =>
    obtain ⟨o, hf, hr⟩ := Output.neverFails_reliable.flush hr
    exact ⟨_, (call_ok_iff hw).2 (.inr (.inr ⟨o, rfl, hf, rfl⟩)), hr, hw.phase, (hnil rfl).1, rfl,
      (hnil rfl).2⟩

/-! ## Whole containers -/

section
variable {plan : (limit : Nat) → (last : Bool) → Bytes → Plan} {Suits : Piece → Prop}
  {Goes : Piece → Chunk → Prop} {I : Encoder M → Prop} (hI : Encoder.Keeps plan Suits Goes I)
include hI

omit [Output τ] in
/-- After a call a sealer is settled again, and its encoder kept its property. -/
theorem settled_of_call {w w' : Sealer M τ} {t : List (Piece × Chunk)} {data : Bytes}
    (hi : I w.encoder) (hm : w.encoder.Makes t w'.encoder) (hl : w'.maxChunkLen = w.maxChunkLen)
    (hp : w'.phase = .running)
    (ht : plan w.maxChunkLen false (w.pending ++ data) = ⟨t.map Prod.fst, w'.pending⟩)
    (hs : ∀ p ∈ (plan w.maxChunkLen false (w.pending ++ data)).pieces, Suits p) :
    w'.Settled ∧ I w'.encoder := by
  have hi' : I w'.encoder := by
    refine (hm.keeps hI hi fun x hx => hs x.1 ?_).2
    rw [ht]
    exact List.mem_map_of_mem hx
  refine ⟨⟨hp, ?_⟩, hi'⟩
  have hr := w.encoder.plan_rest w.maxChunkLen (w.pending ++ data)
  rw [hI.plan hi, hI.plan hi, ht] at hr
  rw [hI.plan hi', hl, hr]

theorem feed_ok [Lossless τ] {cs : List Call} {w w' : Sealer M τ} (hw : w.Settled)
    (hi : I w.encoder)
    (hs : ∀ p ∈ Plan.session (plan w.maxChunkLen) w.pending (cs.map Call.data), Suits p)
    (h : w.feed cs = (.ok (), w')) :
    ∃ t, Wrote w t w' ∧ w'.phase = .running ∧ I w'.encoder ∧
      Plan.session (plan w.maxChunkLen) w.pending (cs.map Call.data) =
        t.map Prod.fst ++ (plan w.maxChunkLen true w'.pending).pieces := by
  induction cs generalizing w with
  | nil =>
    cases h
    exact ⟨[], ⟨.nil _, by simp, by simp, rfl⟩, hw.phase, hi, rfl⟩
  | cons c cs ih =>
    rw [feed] at h
    rcases hc : w.call c with ⟨e | _, w₁⟩ <;> simp only [hc] at h
    · cases h
    · obtain ⟨t, hwr, hp, ht⟩ := call_ok hw hc
      rw [hI.plan hi] at ht
      simp only [List.map_cons, Plan.session] at hs ⊢
      obtain ⟨hw₁, hi₁⟩ := settled_of_call hI hi hwr.makes hwr.maxChunkLen hp ht
        fun p hp => hs p (List.mem_append_left _ hp)
      rw [ht] at hs ⊢
      rw [← hwr.maxChunkLen] at hs ⊢
      obtain ⟨u, hwr', hp', hi', hu⟩ := ih hw₁ hi₁ (fun p hp => hs p (List.mem_append_right _ hp)) h
      refine ⟨t ++ u, hwr.trans hwr', hp', hi', ?_⟩
      rw [hu, List.map_append, List.append_assoc]

theorem feed_reliable {cs : List Call} {w : Sealer M τ} {enc : Encoder M}
    {t : List (Piece × Chunk)} (hw : w.Settled) (hi : I w.encoder)
    (hs : ∀ x ∈ t, Suits x.1) (hr : Output.Reliable w.output) (hm : w.encoder.Makes t enc)
    (ht : t.map Prod.fst = Plan.session (plan w.maxChunkLen) w.pending (cs.map Call.data))
    (he : ∀ x ∈ t, x.2.Encodable) :
    ∃ w' u, w.feed cs = (.ok (), w') ∧ Output.Reliable w'.output ∧ w'.phase = .running ∧
      I w'.encoder ∧ w'.encoder.Makes u enc ∧ (∀ x ∈ u, x.2.Encodable) ∧
      u.map Prod.fst = (plan w'.maxChunkLen true w'.pending).pieces := by
  induction cs generalizing w t with
  | nil => exact ⟨w, t, rfl, hr, hw.phase, hi, hm, he, ht⟩
  | cons c cs ih =>
    simp only [List.map_cons, Plan.session] at ht
    obtain ⟨t, u, rfl, ht, hu⟩ := List.map_eq_append_iff.1 ht
    obtain ⟨enc₁, hm₁, hm₂⟩ := hm.of_append
    rw [← hI.plan hi] at ht
    obtain ⟨w₁, hc, hr, hp, rfl, hl, hpend⟩ := call_reliable hw hr hm₁ ht
      fun x hx => he x (List.mem_append_left _ hx)
    rw [hI.plan hi] at ht hpend
    have hpl : plan w.maxChunkLen false (w.pending ++ c.data) = ⟨t.map Prod.fst, w₁.pending⟩ := by
      rw [ht, hpend]
    obtain ⟨hw₁, hi₁⟩ := settled_of_call hI hi hm₁ hl hp hpl fun p hp => by
      rw [← ht] at hp
      obtain ⟨x, hx, rfl⟩ := List.mem_map.1 hp
      exact hs x (List.mem_append_left _ hx)
    rw [← hpend, ← hl] at hu
    obtain ⟨w', v, hf, h⟩ := ih hw₁ hi₁ (fun x hx => hs x (List.mem_append_right _ hx)) hr hm₂ hu
      fun x hx => he x (List.mem_append_right _ hx)
    exact ⟨w', v, by simp only [feed, hc, hf], h⟩

/-- **A container that was completed** consists of the chunks of the pieces of its plaintext,
however the plaintext came. -/
theorem complete_ok [Lossless τ] {cs : List Call} {w w' : Sealer M τ} (hw : w.Settled)
    (hi : I w.encoder)
    (hs : ∀ p ∈ Plan.session (plan w.maxChunkLen) w.pending (cs.map Call.data), Suits p)
    (h : w.complete cs = (.ok (), w')) :
    ∃ t, t.map Prod.fst = Plan.session (plan w.maxChunkLen) w.pending (cs.map Call.data) ∧
      w.encoder.Makes t w'.encoder ∧ (∀ x ∈ t, x.2.Encodable ∧ Goes x.1 x.2) ∧
      Lossless.arrived w'.output = Lossless.taken w.output ++ t.flatMap fun x => x.2.octets := by
  obtain ⟨w₁, hf, h⟩ := complete_ok_iff.1 h
  obtain ⟨t, hwr, hp, hi₁, ht⟩ := feed_ok hI hw hi hs hf
  obtain ⟨w₂, o, hc, hd, rfl⟩ := (finish_ok_iff hp).1 h
  obtain ⟨w₃, o', hx, hfl, rfl⟩ := (close_ok_iff hp).1 hc
  obtain ⟨u, hwr', -, hu⟩ := encode_ok hx
  rw [hI.plan hi₁, hwr.maxChunkLen] at hu
  rw [hu, ← List.map_append] at ht
  have hall := hwr.trans hwr'
  have hgo := (hall.makes.keeps hI hi fun x hx => hs _ (ht ▸ List.mem_map_of_mem hx)).1
  refine ⟨t ++ u, ht.symm, hall.makes, fun x hx => ⟨hall.encodable x hx, hgo x hx⟩, ?_⟩
  rw [← hall.taken, ← Lossless.taken_flush hfl]
  exact (Lossless.arrived_drain hd).trans (Lossless.taken_drain hd)

/-- **A container is completed** if the encoder makes all chunks of its plaintext and the output
does not fail. -/
theorem complete_reliable {cs : List Call} {w : Sealer M τ} {enc : Encoder M}
    {t : List (Piece × Chunk)} (hw : w.Settled) (hi : I w.encoder)
    (hs : ∀ x ∈ t, Suits x.1) (hr : Output.Reliable w.output) (hm : w.encoder.Makes t enc)
    (ht : t.map Prod.fst = Plan.session (plan w.maxChunkLen) w.pending (cs.map Call.data))
    (he : ∀ x ∈ t, x.2.Encodable) : ∃ w', w.complete cs = (.ok (), w') := by
  obtain ⟨w₁, u, hf, hr, hp, hi₁, hm, he, hu⟩ := feed_reliable hI hw hi hs hr hm ht he
  rw [← hI.plan hi₁] at hu
  obtain ⟨w₂, hx, hr, -⟩ := encode_reliable hr hm hu he
  obtain ⟨o, hfl, hr⟩ := Output.neverFails_reliable.flush hr
  obtain ⟨o', hd, -⟩ := Output.neverFails_reliable.drain hr
  have hc := (close_ok_iff hp).2 ⟨w₂, o, hx, hfl, rfl⟩
  exact ⟨_, complete_ok_iff.2 ⟨w₁, hf, (finish_ok_iff hp).2 ⟨_, o', hc, hd, rfl⟩⟩⟩

end

/-! ## From the beginning -/

/-- The chunks of a container beside their pieces, as the calls make them. -/
def transcript (s : Settings) (e : Entropy) (k : KeyedCipher M) (cs : List Call) :
    List (Piece × Chunk) :=
  (Encoder.start s e k).transcript
    ((Encoder.start s e k).pieces s.maxChunkLen (cs.map Call.data))

/-- A sealer that has written a preamble and nothing else. -/
structure Begun (s : Settings) (e : Entropy) (k : KeyedCipher M) (w : Sealer M τ) : Prop where
  encoder : w.encoder = .start s e k
  maxChunkLen : w.maxChunkLen = s.maxChunkLen
  pending : w.pending = []
  phase : w.phase = .running

omit [Output τ] in
theorem Begun.settled {s : Settings} {e : Entropy} {k : KeyedCipher M} {w : Sealer M τ}
    (h : Begun s e k w) : w.Settled :=
  ⟨h.phase, by rw [h.pending, Encoder.plan_nil]⟩

section
variable {s : Settings} {p : Preamble} {k : KeyedCipher M} {e : Entropy} {output : τ}

theorem start_ok [Lossless τ] {w : Sealer M τ} (h : start s p k e output = .ok w) :
    s.validate = .ok () ∧ p.Encodable ∧ Begun s e k w ∧
      Lossless.taken w.output = Lossless.taken output ++ p.octets := by
  rw [start] at h
  rcases hv : s.validate with cause | _ <;> simp only [hv] at h
  · cases h
  · rcases hw : writeItems p.items output with ⟨cause | _, o⟩ <;> simp only [hw] at h <;> cases h
    obtain ⟨he, ht⟩ := taken_writeItems hw
    exact ⟨rfl, p.encodable_iff.1 he, ⟨rfl, rfl, rfl, rfl⟩, ht⟩

theorem start_reliable (hs : s.validate = .ok ()) (he : p.Encodable)
    (hr : Output.Reliable output) :
    ∃ w, start s p k e output = .ok w ∧ Begun s e k w ∧ Output.Reliable w.output := by
  obtain ⟨o, hw, hr⟩ := writeItems_reliable (p.encodable_iff.2 he) hr
  simp only [start, hs, hw]
  exact ⟨_, rfl, ⟨rfl, rfl, rfl, rfl⟩, hr⟩

/-- A container for a session begins with the preamble of the session. -/
theorem begin_ok [Lossless τ] {r : Registry M} {pkAlgo cipher : String} {key : PublicKey}
    {w : Sealer M τ} (h : begin r s e pkAlgo cipher key output = .ok w) :
    ∃ session, r.startEncryption e pkAlgo cipher key = .ok session ∧ s.validate = .ok () ∧
      session.preamble.Encodable ∧ Begun s session.entropy session.cipher w ∧
      Lossless.taken w.output = Lossless.taken output ++ session.preamble.octets := by
  rw [begin] at h
  rcases hs : s.validate with cause | _ <;> simp only [hs] at h
  · cases h
  rcases he : r.startEncryption e pkAlgo cipher key with cause | session <;>
    simp only [he, ofSession] at h
  · cases h
  rcases hst : start s session.preamble session.cipher session.entropy output with u | w₁ <;>
    simp only [hst] at h <;> cases h
  obtain ⟨-, hx, hb, ht⟩ := start_ok hst
  exact ⟨session, rfl, rfl, hx, ⟨hb.encoder, hb.maxChunkLen, hb.pending, hb.phase⟩, ht⟩

theorem begin_reliable {r : Registry M} {pkAlgo cipher : String} {key : PublicKey}
    {session : EncryptionSession M} (hs : s.validate = .ok ())
    (hse : r.startEncryption e pkAlgo cipher key = .ok session)
    (he : session.preamble.Encodable) (hr : Output.Reliable output) :
    ∃ w, begin r s e pkAlgo cipher key output = .ok w ∧
      Begun s session.entropy session.cipher w ∧ Output.Reliable w.output := by
  obtain ⟨w, hw, hb, hr⟩ := @start_reliable M τ _ s session.preamble session.cipher
    session.entropy output hs he hr
  simp only [begin, hs, hse, ofSession, hw]
  exact ⟨_, rfl, ⟨hb.encoder, hb.maxChunkLen, hb.pending, hb.phase⟩, hr⟩

variable {plan : (limit : Nat) → (last : Bool) → Bytes → Plan} {Suits : Piece → Prop}
  {Goes : Piece → Chunk → Prop} {I : Encoder M → Prop} (hI : Encoder.Keeps plan Suits Goes I)
  (hi : I (.start s e k))
include hI hi

omit [Output τ] in
/-- The pieces of a plaintext, by the plan that all encoders have in common. -/
theorem pieces_start (ds : List Bytes) : (Encoder.start s e k).pieces s.maxChunkLen ds =
    Plan.session (plan s.maxChunkLen) [] ds := by
  have hp : (fun last pending => (Encoder.start s e k).plan s.maxChunkLen last pending) =
      plan s.maxChunkLen := by
    funext last pending
    exact hI.plan hi
  rw [Encoder.pieces, hp]

/-- **What a completed container consists of**: its preamble, and the chunks of its transcript. -/
theorem container_ok [Lossless τ] {cs : List Call} {w w' : Sealer M τ} (hb : Begun s e k w)
    (ht : Lossless.taken w.output = Lossless.taken output ++ p.octets)
    (hs : ∀ q ∈ Plan.session (plan s.maxChunkLen) [] (cs.map Call.data), Suits q)
    (h : w.complete cs = (.ok (), w')) :
    (transcript s e k cs).map Prod.fst = Plan.session (plan s.maxChunkLen) [] (cs.map Call.data) ∧
      (Encoder.start s e k).Makes (transcript s e k cs) w'.encoder ∧
      (∀ x ∈ transcript s e k cs, x.2.Encodable ∧ Goes x.1 x.2) ∧
      Lossless.arrived w'.output = Lossless.taken output ++
        Container.octets ⟨p, (transcript s e k cs).map Prod.snd⟩ := by
  have hc := @complete_ok M τ _ plan Suits Goes I hI _ cs w w' hb.settled
  rw [hb.encoder, hb.maxChunkLen, hb.pending] at hc
  obtain ⟨t, hp, hm, hx, ha⟩ := hc hi hs h
  have htr : transcript s e k cs = t := by
    rw [transcript, pieces_start hI hi, ← hp, hm.transcript_eq]
  rw [htr]
  refine ⟨hp, hm, hx, ?_⟩
  rw [ha, ht, Container.octets_eq, List.flatMap_map, List.append_assoc]

/-- **A container is completed**, whatever the calls, if all its chunks can be made and written. -/
theorem container_reliable {cs : List Call} {t : List (Piece × Chunk)} {enc : Encoder M}
    {w : Sealer M τ} (hb : Begun s e k w) (hr : Output.Reliable w.output)
    (hm : (Encoder.start s e k).Makes t enc)
    (ht : t.map Prod.fst = Plan.session (plan s.maxChunkLen) [] (cs.map Call.data))
    (hs : ∀ x ∈ t, Suits x.1) (hx : ∀ x ∈ t, x.2.Encodable) :
    ∃ w', w.complete cs = (.ok (), w') := by
  have hc := @complete_reliable M τ _ plan Suits Goes I hI cs w enc t hb.settled
  rw [hb.encoder, hb.maxChunkLen, hb.pending] at hc
  exact hc hi hs hr hm ht hx

end

end Sealer

end SealedStream
