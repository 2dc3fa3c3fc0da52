import Mathlib
import SealedStream.Proofs.Chunking
/-!
# Sealers before sinks that fail

What a sealer makes of its requests before any sink is compared with what it makes of them before
a sink that does not fail.

* `Output.Preserves P`: a property of outputs that every operation keeps, whatever its answer; then
  so does everything that is asked of a sealer. What a sink has accepted is never taken back
  (`BufferedSink.preserves_accepted`).
* `Behind`: of two writers the one has taken no more than the other one, and nothing less as long as
  it does not fail. Steps one after another are put together by `Behind.andThen`.
* `Sealer.Same`: two sealers go on alike. `Sealer.Trails`: the one goes on as the other one does, or
  it has failed and writes no more. Every request keeps that (`request_trails`), and so do all of
  them (`requests_trails`) and the end (`finish_trails`).
-/
namespace SealedStream

/-! ## What every operation of an output keeps -/

/-- A property of outputs that every operation keeps, whatever its answer is. -/
structure Output.Preserves {τ : Type} [Output τ] (P : τ → Prop) : Prop where
  write (bs : Bytes) {t : τ} (h : P t) : P (Output.write bs t).2
  flush {t : τ} (h : P t) : P (Output.flush t).2
  drain {t : τ} (h : P t) : P (Output.drain t).2

theorem Output.preserves_reliable {τ : Type} [Output τ] :
    Output.Preserves (@Output.Reliable τ _) where
  write bs t h := by
    obtain ⟨t', hw, h'⟩ := neverFails_reliable.write bs h
    rwa [hw]
  flush h := by
    obtain ⟨t', hw, h'⟩ := neverFails_reliable.flush h
    rwa [hw]
  drain h := by
    obtain ⟨t', hw, h'⟩ := neverFails_reliable.drain h
    rwa [hw]

theorem Bytes.prefix_of_eq {as bs : Bytes} (h : as = bs) : as <+: bs := h ▸ List.prefix_rfl

/-! ## One step after another -/

/-- Go on after a step that did not fail. -/
def andThen {ε α : Type} (x : Except ε Unit × α) (f : α → Except ε Unit × α) : Except ε Unit × α :=
  match x with
  | (.error e, a) => (.error e, a)
  | (.ok (), a) => f a

/-- What both steps keep. -/
theorem andThen_preserves {ε α : Type} {Q : α → Prop} {x : Except ε Unit × α}
    {f : α → Except ε Unit × α} (hx : Q x.2) (hf : ∀ {a}, Q a → Q (f a).2) : Q (andThen x f).2 := by
  rcases x with ⟨e | _, a⟩
  · exact hx
  · exact hf hx

theorem writePieces_cons {τ : Type} [Output τ] (p : Bytes) (ps : List Bytes) (t : τ) :
    writePieces (p :: ps) t = andThen (Output.write p t) (writePieces ps) := by
  rw [writePieces]
  rcases Output.write p t with ⟨e | _, t'⟩ <;> rfl

/-! ## The operations of a sealer -/

theorem Phase.refusal?_eq_none_iff {p : Phase} : p.refusal? = none ↔ p = .running := by
  cases p <;> simp [refusal?]

namespace Sealer
variable {M : Modes} {τ : Type} [Output τ] {w : Sealer M τ}

theorem emitAll_cons (p : Piece) (ps : List Piece) :
    w.emitAll (p :: ps) = andThen (w.emit p) (emitAll ps) := by
  rw [emitAll]
  rcases w.emit p with ⟨e | _, w'⟩ <;> rfl

/-- What remains of `encode` behind the chunks. -/
def encoded (last : Bool) (rest : Bytes) (w : Sealer M τ) : Except StreamError Unit × Sealer M τ :=
  (.ok (), { w with pending := rest, events := w.events.push (.chunksSealed w.chunks last) })

theorem encode_eq (last : Bool) : w.encode last =
    andThen (w.emitAll (w.encoder.plan w.maxChunkLen last w.pending).pieces)
      (encoded last (w.encoder.plan w.maxChunkLen last w.pending).rest) := by
  rw [encode]
  rcases w.emitAll (w.encoder.plan w.maxChunkLen last w.pending).pieces with ⟨e | _, w'⟩ <;> rfl

omit [Output τ] in
/-- Have the output pass something on; its failure is one of the sealer. -/
def passOn (f : τ → Except IoError Unit × τ) (w : Sealer M τ) :
    Except StreamError Unit × Sealer M τ :=
  match f w.output with
  | (.error e, output) => (.error (.io e), { w with output })
  | (.ok (), output) => (.ok (), { w with output })

omit [Output τ] in
theorem passOn_snd (f : τ → Except IoError Unit × τ) :
    (w.passOn f).2 = { w with output := (f w.output).2 } := by
  rw [passOn]
  rcases f w.output with ⟨e | _, o⟩ <;> rfl

theorem encodeLast_eq : w.encodeLast = andThen (w.encode true) (passOn Output.flush) := by
  rw [encodeLast]
  rcases w.encode true with ⟨e | _, w'⟩ <;> rfl

/-- Plaintext for a sealer on which more is to be written. -/
def taking (data : Bytes) (w : Sealer M τ) : Sealer M τ :=
  { w with pending := w.pending ++ data, plaintextLen := w.plaintextLen + data.length }

theorem write_of_running {data : Bytes} (hw : w.phase = .running) (hd : data ≠ []) :
    w.write data = match (w.taking data).encode false with
      | (.ok (), w) => (.ok data.length, w)
      | (.error cause, w) => (.error cause.toSharedIo, { w with phase := .failed cause }) := by
  have hr : w.phase.refusal? = none := by rw [hw]; rfl
  have hlen : data.length ≠ 0 := fun h => hd (List.length_eq_zero_iff.1 h)
  unfold write
  split
  · next h => cases hr.symm.trans h
  · exact if_neg hlen

theorem close_of_running (hw : w.phase = .running) :
    w.close = match w.encodeLast with
      | (.ok (), w) => (.ok (), { w with
          phase := .ended, events := w.events.push (.sealerClosed w.chunks w.plaintextLen) })
      | (.error cause, w) =>
        (.error (.io cause.toSharedIo), { w with phase := .failed cause }) := by
  have hr : w.phase.refusal? = none := by rw [hw]; rfl
  unfold close
  split
  · next h => cases hr.symm.trans h
  · rfl

theorem request_write_snd (data : Bytes) : (w.request (.write data)).2 = (w.write data).2 := by
  rw [request]
  rcases w.write data with ⟨e | n, w'⟩ <;> rfl

theorem request_flush_snd : (w.request .flush).2 = w.flush.2 := by
  rw [request]
  rcases w.flush with ⟨e | _, w'⟩ <;> rfl

theorem request_close_snd : (w.request .close).2 = w.close.2 := by
  rw [request]
  rcases w.close with ⟨e | _, w'⟩ <;> rfl

theorem finish_of_failed {cause : StreamError} (h : w.phase = .failed cause) :
    w.finish = (.error (.io cause.toSharedIo), w) := by
  simp only [finish, h]

theorem finish_of_ended (h : w.phase = .ended) : w.finish = w.passOn Output.drain := by
  obtain ⟨output, encoder, maxChunkLen, pending, phase, chunks, plaintextLen, events⟩ := w
  subst (h : phase = .ended)
  rfl

theorem finish_of_running (h : w.phase = .running) :
    w.finish = andThen w.close (passOn Output.drain) := by
  obtain ⟨output, encoder, maxChunkLen, pending, phase, chunks, plaintextLen, events⟩ := w
  subst (h : phase = .running)
  unfold finish
  rcases close _ with ⟨e | _, w'⟩ <;> rfl

end Sealer

namespace Output.Preserves
variable {M : Modes} {τ : Type} [Output τ] {P : τ → Prop} (hP : Output.Preserves P)
include hP

theorem writePieces (ps : List Bytes) {t : τ} (h : P t) : P (writePieces ps t).2 := by
  induction ps generalizing t with
  | nil => exact h
  | cons p ps ih =>
    rw [writePieces_cons]
    exact andThen_preserves (hP.write p h) ih

theorem writeItems (items : List Item) {t : τ} (h : P t) : P (writeItems items t).2 := by
  induction items generalizing t with
  | nil => exact h
  | cons item items ih =>
    rw [SealedStream.writeItems]
    cases item.pieces with
    | error e => exact h
    | ok ps =>
      have hw := hP.writePieces ps h
      dsimp only
      rcases hr : SealedStream.writePieces ps t with ⟨e | _, t'⟩ <;> rw [hr] at hw
      · exact hw
      · exact ih hw

theorem emit (p : Piece) {w : Sealer M τ} (h : P w.output) : P (w.emit p).2.output := by
  obtain ⟨output, encoder, maxChunkLen, pending, phase, chunks, plaintextLen, events⟩ := w
  rw [Sealer.emit]
  rcases encoder.encrypt p with ⟨e | c, enc⟩
  · exact h
  · have hw := hP.writeItems c.items h
    dsimp only at hw ⊢
    rcases hr : SealedStream.writeItems c.items output with ⟨e | _, o⟩ <;> rw [hr] at hw <;>
      exact hw

theorem emitAll (ps : List Piece) {w : Sealer M τ} (h : P w.output) :
    P (w.emitAll ps).2.output := by
  induction ps generalizing w with
  | nil => exact h
  | cons p ps ih =>
    rw [Sealer.emitAll_cons]
    exact andThen_preserves (Q := fun w : Sealer M τ => P w.output) (hP.emit p h) ih

theorem encode (last : Bool) {w : Sealer M τ} (h : P w.output) : P (w.encode last).2.output := by
  rw [Sealer.encode_eq]
  exact andThen_preserves (Q := fun w : Sealer M τ => P w.output) (hP.emitAll _ h) id

theorem encodeLast {w : Sealer M τ} (h : P w.output) : P w.encodeLast.2.output := by
  rw [Sealer.encodeLast_eq]
  refine andThen_preserves (Q := fun w : Sealer M τ => P w.output) (hP.encode true h)
    fun {w} h => ?_
  rw [Sealer.passOn_snd]
  exact hP.flush h

theorem close {w : Sealer M τ} (h : P w.output) : P w.close.2.output := by
  rw [Sealer.close]
  cases w.phase.refusal? with
  | some e => exact h
  | none =>
    have hw := hP.encodeLast h
    dsimp only
    rcases hr : w.encodeLast with ⟨e | _, w'⟩ <;> rw [hr] at hw <;> exact hw

theorem request (q : Sealer.Request) {w : Sealer M τ} (h : P w.output) :
    P (w.request q).2.output := by
  rcases hp : w.phase.refusal? with _ | e
  · have hw := w.phase.refusal?_eq_none_iff.1 hp
    cases q with
    | write data =>
      rw [Sealer.request_write_snd]
      by_cases hd : data = []
      · rwa [hd, Sealer.write_nil hw]
      · have he := hP.encode false (w := w.taking data) h
        rw [Sealer.write_of_running hw hd]
        rcases hr : (w.taking data).encode false with ⟨cause | _, w'⟩ <;> rw [hr] at he <;> exact he
    | flush =>
      rw [Sealer.request_flush_snd]
      simp only [Sealer.flush, hp]
      exact hP.flush h
    | close =>
      rw [Sealer.request_close_snd]
      exact hP.close h
  · obtain ⟨_, hq, -⟩ := Sealer.request_of_refusal hp q
    rwa [hq]

theorem requests (qs : List Sealer.Request) {w : Sealer M τ} (h : P w.output) :
    P (w.requests qs).2.output := by
  induction qs generalizing w with
  | nil => exact h
  | cons q qs ih => exact ih (hP.request q h)

theorem passOn_drain {w : Sealer M τ} (h : P w.output) : P (w.passOn Output.drain).2.output := by
  rw [Sealer.passOn_snd]
  exact hP.drain h

theorem finish {w : Sealer M τ} (h : P w.output) : P w.finish.2.output := by
  cases hp : w.phase with
  | failed cause => rwa [Sealer.finish_of_failed hp]
  | ended =>
    rw [Sealer.finish_of_ended hp]
    exact hP.passOn_drain h
  | running =>
    rw [Sealer.finish_of_running hp]
    exact andThen_preserves (Q := fun w : Sealer M τ => P w.output) (hP.close h) hP.passOn_drain

end Output.Preserves

/-! ## Sinks with a buffer -/

section
variable {σ : Type} [Sink σ]

theorem le_accepted_drive (stalled : String) (bs : Bytes) (s : σ) (accepted : Array UInt8) :
    accepted.toList <+: (drive stalled bs s accepted).accepted.toList := by
  fun_induction drive stalled bs s accepted with
  | case1 | case2 | case5 => exact List.prefix_rfl
  | case3 bs s accepted hb n s' hw ih =>
    refine List.IsPrefix.trans ?_ ih
    simp
  | case4 bs s accepted hb s' hw ih => exact ih

namespace BufferedSink

omit [Sink σ] in
theorem accepted_le_taken (b : BufferedSink σ) : b.accepted.toList <+: b.taken :=
  List.prefix_append ..

theorem accepted_drain (b : BufferedSink σ) : b.accepted.toList <+: b.drain.2.accepted.toList :=
  le_accepted_drive ..

/-- What the sink has accepted after the buffer is emptied, or as much of it as could be. -/
theorem accepted_drain_le_taken (b : BufferedSink σ) :
    (Output.drain b).2.accepted.toList <+: b.taken := by
  have ht : (Output.drain b).2.taken = b.taken := b.taken_drain_eq
  rw [← ht]
  exact accepted_le_taken _

/-- A sink that does not fail has accepted everything in the end. -/
theorem accepted_drain_eq {b : BufferedSink σ} (h : Output.Reliable b) :
    (Output.drain b).2.accepted.toList = b.taken := by
  obtain ⟨b', hd, -⟩ := Output.neverFails_reliable.drain h
  rw [hd]
  exact (Lossless.arrived_drain hd).trans (Lossless.taken_drain hd)

theorem accepted_flush (b : BufferedSink σ) : b.accepted.toList <+: b.flush.2.accepted.toList := by
  have h := b.accepted_drain
  rw [flush]
  rcases hd : b.drain with ⟨e | _, b'⟩ <;> rw [hd] at h <;> exact h

theorem taken_flush_eq (b : BufferedSink σ) : b.flush.2.taken = b.taken := by
  have h := b.taken_drain_eq
  rw [flush]
  rcases hd : b.drain with ⟨e | _, b'⟩ <;> rw [hd] at h <;> exact h

theorem buffer_of_flush {b b' : BufferedSink σ} (h : b.flush = (.ok (), b')) :
    b'.buffer = #[] := by
  simp only [flush] at h
  split at h
  · cases h
  · next hd =>
    simp only [Prod.mk.injEq] at h
    obtain ⟨-, rfl⟩ := h
    exact (buffer_of_drain hd :)

/-- Making room for a piece. -/
theorem before_write {n : Nat} {r : Except IoError Unit} {b b₁ : BufferedSink σ}
    (hd : (if b.capacity - b.buffer.size < n then b.drain else (.ok (), b)) = (r, b₁)) :
    b.accepted.toList <+: b₁.accepted.toList ∧ b₁.taken = b.taken := by
  split at hd
  · have h₁ := b.accepted_drain
    have h₂ := b.taken_drain_eq
    rw [hd] at h₁ h₂
    exact ⟨h₁, h₂⟩
  · cases hd
    exact ⟨List.prefix_rfl, rfl⟩

theorem accepted_write (bs : Bytes) (b : BufferedSink σ) :
    b.accepted.toList <+: (b.write bs).2.accepted.toList := by
  simp only [write]
  split
  · exact List.prefix_rfl
  · split
    · next hd => exact (before_write hd).1
    · next hd =>
      split
      · exact (before_write hd).1.trans (le_accepted_drive ..)
      · exact (before_write hd).1

/-- What is taken of a piece is a beginning of it, whatever the answer is. -/
theorem taken_write_eq (bs : Bytes) (b : BufferedSink σ) :
    ∃ some, some <+: bs ∧ (b.write bs).2.taken = b.taken ++ some := by
  simp only [write]
  split
  · exact ⟨bs, List.prefix_rfl, by simp [taken]⟩
  · split
    · next hd => exact ⟨[], List.nil_prefix, by rw [List.append_nil, (before_write hd).2]⟩
    · next hlt _ b₁ hd =>
      obtain ⟨ht, he, hc⟩ := emptied_before hlt hd
      rw [← ht]
      split
      · next hle =>
        have hd := accepted_drive "failed to write whole buffer" bs b₁.sink b₁.accepted
        rcases he (hc ▸ hle) with hb | rfl
        · obtain ⟨some, hs⟩ := le_accepted_drive "failed to write whole buffer" bs b₁.sink
            b₁.accepted
          rw [← hs, List.append_assoc] at hd
          refine ⟨some, ⟨_, List.append_cancel_left hd⟩, ?_⟩
          simp [taken, hb, hs]
        · refine ⟨[], List.nil_prefix, ?_⟩
          simp [taken, drive]
      · exact ⟨bs, List.prefix_rfl, by simp [taken]⟩

/-- Nothing that the sink has accepted is taken back. -/
theorem preserves_accepted (bs : Bytes) :
    Output.Preserves fun b : BufferedSink σ => bs <+: b.accepted.toList where
  write cs b h := h.trans (b.accepted_write cs)
  flush {b} h := h.trans b.accepted_flush
  drain {b} h := h.trans b.accepted_drain

/-- Nothing that is taken is lost. -/
theorem preserves_taken (bs : Bytes) :
    Output.Preserves fun b : BufferedSink σ => bs <+: b.taken where
  write cs b h := by
    obtain ⟨some, -, hs⟩ := b.taken_write_eq cs
    exact h.trans ⟨some, hs.symm⟩
  flush {b} h := b.taken_flush_eq.symm ▸ h
  drain {b} h := b.taken_drain_eq.symm ▸ h

end BufferedSink

end

/-! ## One writer behind another -/

/-- Steps of two writers: what the one has taken the other one has taken too, and as long as the one
does not fail the other one does not, and they stay related. -/
structure Behind {ε α β : Type} (taken : α → Bytes) (taken' : β → Bytes) (R : α → β → Prop)
    (x : Except ε Unit × α) (y : Except ε Unit × β) : Prop where
  taken : taken x.2 <+: taken' y.2
  ok (h : x.1 = .ok ()) : y.1 = .ok () ∧ R x.2 y.2

section
variable {ε α β : Type} {taken : α → Bytes} {taken' : β → Bytes} {R : α → β → Prop}

theorem Behind.of_error {x : Except ε Unit × α} {y : Except ε Unit × β} {e : ε}
    (hx : x.1 = .error e) (h : taken x.2 <+: taken' y.2) : Behind taken taken' R x y :=
  ⟨h, fun hok => by cases hx.symm.trans hok⟩

/-- **Steps one after another**: once the one writer has failed, the other one goes on alone. -/
theorem Behind.andThen {x : Except ε Unit × α} {y : Except ε Unit × β}
    {f : α → Except ε Unit × α} {g : β → Except ε Unit × β} (h : Behind taken taken' R x y)
    (hf : ∀ {a b}, R a b → Behind taken taken' R (f a) (g b))
    (hg : ∀ b, taken' b <+: taken' (g b).2) :
    Behind taken taken' R (andThen x f) (andThen y g) := by
  obtain ⟨ht, hok⟩ := h
  rcases x with ⟨e | _, a⟩
  · refine .of_error rfl ?_
    rcases y with ⟨e' | _, b⟩
    · exact ht
    · exact ht.trans (hg b)
  · rcases y with ⟨e' | _, b⟩
    · cases (hok rfl).1
    · exact hf (hok rfl).2

end

section
variable {σ ρ : Type} [Sink σ] [Sink ρ] {t : BufferedSink σ} {u : BufferedSink ρ}

/-- Outputs that have taken the same, the second of them one that does not fail. -/
structure BufferedSink.Same (t : BufferedSink σ) (u : BufferedSink ρ) : Prop where
  taken : t.taken = u.taken
  reliable : Output.Reliable u

theorem write_behind (bs : Bytes) (h : t.Same u) :
    Behind BufferedSink.taken BufferedSink.taken BufferedSink.Same (Output.write bs t)
      (Output.write bs u) := by
  obtain ⟨u', hu, hr⟩ := Output.neverFails_reliable.write bs h.reliable
  have htu := BufferedSink.taken_of_write hu
  rcases ht : Output.write bs t with ⟨e | _, t'⟩ <;> rw [hu]
  · -- a piece that fails may have been taken in part
    obtain ⟨some, hle, hs⟩ := t.taken_write_eq bs
    have hs : t'.taken = t.taken ++ some := (congrArg (·.2.taken) ht).symm.trans hs
    refine .of_error rfl ?_
    rw [hs, htu, h.taken]
    exact (List.prefix_append_right_inj _).2 hle
  · have ht : t'.taken = u'.taken := by rw [BufferedSink.taken_of_write ht, htu, h.taken]
    exact ⟨Bytes.prefix_of_eq ht, fun _ => ⟨rfl, ht, hr⟩⟩

theorem writePieces_behind (ps : List Bytes) (h : t.Same u) :
    Behind BufferedSink.taken BufferedSink.taken BufferedSink.Same (writePieces ps t)
      (writePieces ps u) := by
  induction ps generalizing t u with
  | nil => exact ⟨Bytes.prefix_of_eq h.taken, fun _ => ⟨rfl, h⟩⟩
  | cons p ps ih =>
    rw [writePieces_cons, writePieces_cons]
    exact (write_behind p h).andThen ih
      fun b => (BufferedSink.preserves_taken _).writePieces ps List.prefix_rfl

theorem writeItems_behind (items : List Item) (h : t.Same u) :
    Behind BufferedSink.taken BufferedSink.taken BufferedSink.Same (writeItems items t)
      (writeItems items u) := by
  induction items generalizing t u with
  | nil => exact ⟨Bytes.prefix_of_eq h.taken, fun _ => ⟨rfl, h⟩⟩
  | cons item items ih =>
    rw [writeItems, writeItems]
    rcases item.pieces with e | ps
    · exact .of_error rfl (Bytes.prefix_of_eq h.taken)
    · -- not by `Behind.andThen`: the failure of a piece becomes one of its item
      have hb := writePieces_behind ps h
      obtain ⟨u₁, hw, -⟩ := writePieces_reliable ps h.reliable
      have hle := (BufferedSink.preserves_taken _).writeItems items (t := u₁) List.prefix_rfl
      dsimp only
      rw [hw] at hb ⊢
      rcases hr : writePieces ps t with ⟨e | _, t₁⟩ <;> rw [hr] at hb
      · exact .of_error rfl (hb.taken.trans hle)
      · exact ih (hb.ok rfl).2

namespace Sealer
variable {M : Modes} {w : Sealer M (BufferedSink σ)} {r : Sealer M (BufferedSink ρ)}

/-- What was written to the output of a sealer. -/
def taken (w : Sealer M (BufferedSink σ)) : Bytes := w.output.taken

/-- Sealers that go on alike: nothing has been lost before either sink, and the second one does not
fail. -/
structure Same (w : Sealer M (BufferedSink σ)) (r : Sealer M (BufferedSink ρ)) : Prop where
  encoder : w.encoder = r.encoder
  maxChunkLen : w.maxChunkLen = r.maxChunkLen
  pending : w.pending = r.pending
  phase : w.phase = r.phase
  output : w.output.Same r.output

omit [Sink σ] in
theorem Same.prefix_taken (h : Same w r) : w.taken <+: r.taken := Bytes.prefix_of_eq h.output.taken

omit [Sink σ] in
theorem Same.behind {ε : Type} (h : Same w r) :
    Behind taken taken Same ((.ok () : Except ε Unit), w) (.ok (), r) :=
  ⟨h.prefix_taken, fun _ => ⟨rfl, h⟩⟩

theorem emit_behind (p : Piece) (h : Same w r) : Behind taken taken Same (w.emit p) (r.emit p) := by
  obtain ⟨o, enc, limit, pending, phase, chunks, len, events⟩ := w
  obtain ⟨o', enc', limit', pending', phase', chunks', len', events'⟩ := r
  obtain ⟨he, hl, hp, hph, ho⟩ := h
  dsimp only at he hl hp hph ho
  subst he hl hp hph
  rw [emit, emit]
  rcases enc.encrypt p with ⟨e | c, enc₁⟩
  · exact .of_error rfl (Bytes.prefix_of_eq ho.taken)
  · have hb := writeItems_behind c.items ho
    dsimp only
    rcases hx : writeItems c.items o with ⟨e | _, o₁⟩ <;>
      rcases hy : writeItems c.items o' with ⟨e' | _, o₁'⟩ <;> rw [hx, hy] at hb
    · exact .of_error rfl hb.taken
    · exact .of_error rfl hb.taken
    · cases (hb.ok rfl).1
    · exact Same.behind ⟨rfl, rfl, rfl, rfl, (hb.ok rfl).2⟩

theorem emitAll_behind (ps : List Piece) (h : Same w r) :
    Behind taken taken Same (w.emitAll ps) (r.emitAll ps) := by
  induction ps generalizing w r with
  | nil => exact h.behind
  | cons p ps ih =>
    rw [emitAll_cons, emitAll_cons]
    exact (emit_behind p h).andThen ih
      fun b => (BufferedSink.preserves_taken _).emitAll ps List.prefix_rfl

theorem encode_behind (last : Bool) (h : Same w r) :
    Behind taken taken Same (w.encode last) (r.encode last) := by
  rw [encode_eq, encode_eq, h.encoder, h.maxChunkLen, h.pending]
  refine (emitAll_behind _ h).andThen (fun h => ?_) fun _ => List.prefix_rfl
  exact Same.behind ⟨h.encoder, h.maxChunkLen, rfl, h.phase, h.output⟩

/-- A flush loses nothing, whether it fails or not. -/
theorem Same.flush (h : Same w r) : Same { w with output := (Output.flush w.output).2 }
    { r with output := (Output.flush r.output).2 } :=
  ⟨h.encoder, h.maxChunkLen, h.pending, h.phase,
    w.output.taken_flush_eq.trans (h.output.taken.trans r.output.taken_flush_eq.symm),
    Output.preserves_reliable.flush h.output.reliable⟩

theorem flush_behind (h : Same w r) :
    Behind taken taken Same (w.passOn Output.flush) (r.passOn Output.flush) := by
  have hs := h.flush
  rw [← passOn_snd, ← passOn_snd] at hs
  refine ⟨hs.prefix_taken, fun _ => ⟨?_, hs⟩⟩
  obtain ⟨o, ho, -⟩ := Output.neverFails_reliable.flush h.output.reliable
  simp only [passOn, ho]

theorem encodeLast_behind (h : Same w r) :
    Behind taken taken Same w.encodeLast r.encodeLast := by
  rw [encodeLast_eq, encodeLast_eq]
  refine (encode_behind true h).andThen flush_behind fun b => ?_
  rw [passOn_snd]
  exact Bytes.prefix_of_eq b.output.taken_flush_eq.symm

/-! ### Requests -/

/-- A sealer behind one whose sink does not fail: it goes on as that one does, or it has failed and
will not write any more. -/
structure Trails (w : Sealer M (BufferedSink σ)) (r : Sealer M (BufferedSink ρ)) : Prop where
  taken : w.taken <+: r.taken
  reliable : Output.Reliable r.output
  same (h : ∀ cause, w.phase ≠ .failed cause) : Same w r

omit [Sink σ] in
theorem Same.trails (h : Same w r) : Trails w r :=
  ⟨h.prefix_taken, h.output.reliable, fun _ => h⟩

omit [Sink σ] in
theorem Trails.of_failed {cause : StreamError} (hf : w.phase = .failed cause)
    (ht : w.taken <+: r.taken) (hr : Output.Reliable r.output) : Trails w r :=
  ⟨ht, hr, fun h => (h cause hf).elim⟩

omit [Sink σ] in
/-- The two ways to be behind. -/
theorem Trails.cases (h : Trails w r) : Same w r ∨ ∃ cause, w.phase = .failed cause := by
  by_cases hf : ∃ cause, w.phase = .failed cause
  · exact .inr hf
  · exact .inl (h.same (not_exists.1 hf))

theorem write_trails (data : Bytes) (h : Same w r) (hw : w.phase = .running) :
    Trails (w.write data).2 (r.write data).2 := by
  have hw' : r.phase = .running := h.phase.symm.trans hw
  by_cases hd : data = []
  · rw [hd, write_nil hw, write_nil hw']
    exact h.trails
  · have hb := encode_behind (w := w.taking data) (r := r.taking data) false
      ⟨h.encoder, h.maxChunkLen, congrArg (· ++ data) h.pending, h.phase, h.output⟩
    have hr := Output.preserves_reliable.encode false (w := r.taking data) h.output.reliable
    rw [write_of_running hw hd, write_of_running hw' hd]
    rcases hx : (w.taking data).encode false with ⟨cause | _, w₁⟩ <;>
      rcases hy : (r.taking data).encode false with ⟨cause' | _, r₁⟩ <;>
      rw [hx, hy] at hb <;> rw [hy] at hr
    · exact .of_failed rfl hb.taken hr
    · exact .of_failed rfl hb.taken hr
    · cases (hb.ok rfl).1
    · exact (hb.ok rfl).2.trails

theorem flush_trails (h : Same w r) (hw : w.phase = .running) : Trails w.flush.2 r.flush.2 := by
  have hs := h.flush
  have hr : w.phase.refusal? = none := by rw [hw]; rfl
  have hr' : r.phase.refusal? = none := by rw [← h.phase, hr]
  simp only [flush, hr, hr']
  exact hs.trails

theorem close_trails (h : Same w r) (hw : w.phase = .running) : Trails w.close.2 r.close.2 := by
  have hb := encodeLast_behind h
  have hr := Output.preserves_reliable.encodeLast h.output.reliable
  rw [close_of_running hw, close_of_running (h.phase.symm.trans hw)]
  rcases hx : w.encodeLast with ⟨cause | _, w₁⟩ <;>
    rcases hy : r.encodeLast with ⟨cause' | _, r₁⟩ <;> rw [hx, hy] at hb <;> rw [hy] at hr
  · exact .of_failed rfl hb.taken hr
  · exact .of_failed rfl hb.taken hr
  · cases (hb.ok rfl).1
  · have hs := (hb.ok rfl).2
    exact Same.trails ⟨hs.encoder, hs.maxChunkLen, hs.pending, rfl, hs.output⟩

/-- **Through a request** a sealer stays behind one whose sink does not fail. -/
theorem request_trails (q : Request) (h : Trails w r) :
    Trails (w.request q).2 (r.request q).2 := by
  rcases h.cases with hs | ⟨cause, hf⟩
  · rcases hp : w.phase.refusal? with _ | e
    · have hw := Phase.refusal?_eq_none_iff.1 hp
      cases q with
      | write data =>
        rw [request_write_snd, request_write_snd]
        exact write_trails data hs hw
      | flush =>
        rw [request_flush_snd, request_flush_snd]
        exact flush_trails hs hw
      | close =>
        rw [request_close_snd, request_close_snd]
        exact close_trails hs hw
    · obtain ⟨_, hq, -⟩ := request_of_refusal hp q
      obtain ⟨_, hq', -⟩ := request_of_refusal (hs.phase ▸ hp) q
      rwa [hq, hq']
  · -- the one whose sink does not fail goes on alone
    obtain ⟨_, hq, -⟩ := @request_of_refusal M _ _ w (.io cause.toSharedIo) (by rw [hf]; rfl) q
    rw [hq]
    exact .of_failed hf
      (h.taken.trans ((BufferedSink.preserves_taken _).request q List.prefix_rfl))
      (Output.preserves_reliable.request q h.reliable)

/-- **Through any requests** a sealer stays behind one whose sink does not fail. -/
theorem requests_trails (qs : List Request) (h : Trails w r) :
    Trails (w.requests qs).2 (r.requests qs).2 := by
  induction qs generalizing w r with
  | nil => exact h
  | cons q qs ih => exact ih (request_trails q h)

theorem Trails.drain_left (h : Trails w r) : Trails (w.passOn Output.drain).2 r := by
  have ht := w.output.taken_drain_eq
  rw [passOn_snd]
  refine ⟨(Bytes.prefix_of_eq ht).trans h.taken, h.reliable, fun hn => ?_⟩
  have hs := h.same hn
  exact ⟨hs.encoder, hs.maxChunkLen, hs.pending, hs.phase, ht.trans hs.output.taken,
    hs.output.reliable⟩

omit [Sink σ] in
theorem Trails.drain_right (h : Trails w r) : Trails w (r.passOn Output.drain).2 := by
  have ht := r.output.taken_drain_eq
  have hr := Output.preserves_reliable.drain h.reliable
  rw [passOn_snd]
  refine ⟨h.taken.trans (Bytes.prefix_of_eq ht.symm), hr, fun hn => ?_⟩
  have hs := h.same hn
  exact ⟨hs.encoder, hs.maxChunkLen, hs.pending, hs.phase, hs.output.taken.trans ht.symm, hr⟩

/-- **Through the end** too. -/
theorem finish_trails (h : Trails w r) : Trails w.finish.2 r.finish.2 := by
  rcases h.cases with hs | ⟨cause, hf⟩
  · cases hw : w.phase with
    | failed cause =>
      rwa [finish_of_failed hw, finish_of_failed (hs.phase ▸ hw)]
    | ended =>
      rw [finish_of_ended hw, finish_of_ended (hs.phase ▸ hw)]
      exact h.drain_right.drain_left
    | running =>
      have hc := close_trails hs hw
      rw [finish_of_running hw, finish_of_running (hs.phase ▸ hw)]
      rcases hx : w.close with ⟨e | _, w₁⟩ <;> rcases hy : r.close with ⟨e' | _, r₁⟩ <;>
        rw [hx, hy] at hc
      · exact hc
      · exact hc.drain_right
      · exact hc.drain_left
      · exact hc.drain_right.drain_left
  · rw [finish_of_failed hf]
    exact .of_failed hf (h.taken.trans ((BufferedSink.preserves_taken _).finish List.prefix_rfl))
      (Output.preserves_reliable.finish h.reliable)

/-- What a sink has accepted, before and after the sealer is given up, is a beginning of what a sink
that does not fail accepts. -/
theorem Trails.accepted (h : Trails w r) :
    w.output.accepted.toList <+: r.abandon.accepted.toList ∧
      w.abandon.accepted.toList <+: r.abandon.accepted.toList := by
  rw [show r.abandon.accepted.toList = r.taken from BufferedSink.accepted_drain_eq h.reliable]
  exact ⟨w.output.accepted_le_taken.trans h.taken,
    w.output.accepted_drain_le_taken.trans h.taken⟩

/-! ## The beginning -/

/-- The output of a container that is given up as soon as it was begun. -/
def startOutput {τ : Type} [Output τ] : Except (FailedStart τ) (Sealer M τ) → τ
  | .error u => u.output
  | .ok w => w.abandon

section
variable {s : Settings} {p : Preamble} {k : KeyedCipher M} {e : Entropy} {sink : σ} {ideal : ρ}
  (hi : Sink.Reliable ideal)
include hi

/-- A sealer that is begun goes on as one before a sink that does not fail. -/
theorem start_same (hw : start s p k e (s.buffered sink) = .ok w) :
    ∃ r, start s p k e (s.buffered ideal) = .ok r ∧ Same w r := by
  have hb := writeItems_behind p.items (t := s.buffered sink) (u := s.buffered ideal)
    ⟨rfl, BufferedSink.reliable hi⟩
  rw [start] at hw ⊢
  rcases hv : s.validate with cause | _ <;> simp only [hv] at hw ⊢
  · cases hw
  · rcases hx : writeItems p.items (s.buffered sink) with ⟨cause | _, o⟩ <;>
      rw [hx] at hb <;> simp only [hx] at hw <;> cases hw
    obtain ⟨hok, hs⟩ := hb.ok rfl
    rcases hy : writeItems p.items (s.buffered ideal) with ⟨cause | _, o'⟩ <;> rw [hy] at hok hs
    · cases hok
    · exact ⟨_, rfl, rfl, rfl, rfl, rfl, hs⟩

/-- One that could not be begun has written no more than a sink that does not fail accepts. -/
theorem accepted_start_le {u : FailedStart (BufferedSink σ)}
    (hu : start s p k e (s.buffered sink) = .error u) : u.output.accepted.toList <+:
      (startOutput (start s p k e (s.buffered ideal))).accepted.toList := by
  have hr : Output.Reliable (s.buffered ideal) := BufferedSink.reliable hi
  have hb := writeItems_behind p.items (t := s.buffered sink) (u := s.buffered ideal) ⟨rfl, hr⟩
  have he := BufferedSink.accepted_drain_eq (Output.preserves_reliable.writeItems p.items hr)
  rw [start] at hu ⊢
  rcases hv : s.validate with cause | _ <;> simp only [hv] at hu ⊢
  · cases hu
    exact List.nil_prefix
  · rcases hx : writeItems p.items (s.buffered sink) with ⟨cause | _, o⟩ <;>
      rw [hx] at hb <;> simp only [hx] at hu <;> cases hu
    have hle := o.accepted_drain_le_taken.trans hb.taken
    rcases hy : writeItems p.items (s.buffered ideal) with ⟨cause | _, o'⟩ <;>
      rw [hy] at hle he <;> rw [← he] at hle <;> exact hle

end

end Sealer

end

end SealedStream
