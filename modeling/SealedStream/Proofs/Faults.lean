import Mathlib
import SealedStream.Proofs.Trailing
/-!
# Sealing before a sink that fails

* `Plan.Covers`: a plan that loses no plaintext; every plan of an encoder is one.
* `Sealer.Refuses w cause`: whatever is asked of the sealer, it answers with `cause` and stays as it
  is. `refuses_of_error`: so it is after the first failure.
* `Sealer.Written`: what a sealer has written as long as it has not failed. `Written.request` and
  `Written.requests` say what requests add, `Written.complete` what is there after the end.
* `Sealer.accepted_requests`: before any sink, a beginning of the container arrives and nothing
  else, and after an end that does not fail all of it.
-/
namespace SealedStream

/-! ## Plans keep the plaintext -/

/-- A plan that loses no plaintext: all of it is in the pieces or stays pending, and at the end
there is only padding behind it. -/
structure Plan.Covers (last : Bool) (pending : Bytes) (plan : Plan) : Prop where
  data : ∃ n, plan.pieces.flatMap Piece.data ++ plan.rest = pending ++ Padding.fill n ∧
    (last = false → n = 0)
  rest (h : last = true) : plan.rest = []

namespace Plan

theorem flatMap_data_row (cs : List Bytes) (c : Bytes) :
    (Piece.row cs c).flatMap Piece.data = cs.flatten ++ c := by
  rw [List.flatMap_def, Piece.map_data_row, List.flatten_append, List.flatten_singleton]

theorem flatMap_data_map (cs : List Bytes) :
    (cs.map fun data => (⟨data, false⟩ : Piece)).flatMap Piece.data = cs.flatten := by
  rw [List.flatMap_map, List.flatMap_def, List.map_id']

theorem covers_all {limit : Nat} (hl : 0 < limit) (last : Bool) (pending : Bytes) :
    Covers last pending (all limit last pending) := by
  refine ⟨⟨0, ?_, fun _ => rfl⟩, fun _ => rest_all last pending⟩
  rw [rest_all, List.append_nil, Padding.fill, if_pos rfl, List.append_nil]
  cases last with
  | false => exact (flatMap_data_map _).trans (Bytes.flatten_pieces hl pending)
  | true =>
    obtain ⟨cs, c, h, hf, -⟩ := all_true hl pending
    rw [h, flatMap_data_row, hf]

theorem covers_blocks (size limit : Nat) (last : Bool) (pending : Bytes) :
    Covers last pending (blocks size limit last pending) := by
  have hzero : Padding.fill 0 = [] := rfl
  rcases Nat.eq_zero_or_pos size with rfl | hs
  · -- there are no blocks then, and everything waits for the end
    cases last with
    | false => exact ⟨⟨0, by simp [blocks, hzero], fun _ => rfl⟩, fun h => by cases h⟩
    | true => exact ⟨⟨0, by simp [blocks, hzero], fun _ => rfl⟩, fun _ => rfl⟩
  · obtain ⟨cs, rest, h₁, h₂, hf, -⟩ := @blocks_false size limit hs pending
    cases last with
    | false =>
      rw [h₁]
      refine ⟨⟨0, ?_, fun _ => rfl⟩, fun h => by cases h⟩
      rw [flatMap_data_map, hf, hzero, List.append_nil]
    | true =>
      rw [h₂]
      refine ⟨⟨size - rest.length, ?_, fun h => by cases h⟩, fun _ => rfl⟩
      rw [flatMap_data_row, List.append_nil, ← List.append_assoc, hf]

end Plan

theorem Encoder.covers_plan {M : Modes} (enc : Encoder M) {limit : Nat} (hl : 0 < limit)
    (last : Bool) (pending : Bytes) : Plan.Covers last pending (enc.plan limit last pending) := by
  cases enc with
  | block c => exact Plan.covers_blocks _ limit last pending
  | stream c => exact Plan.covers_all hl last pending
  | aead c nonces => exact Plan.covers_all hl last pending

namespace Sealer

/-! ## What is kept after a failure -/

section
variable {M : Modes} {τ : Type} [Output τ] {w w' : Sealer M τ}

/-- Whatever is asked of the sealer, it answers with one failure and stays as it is. -/
structure Refuses (w : Sealer M τ) (cause : StreamError) : Prop where
  answers (qs : List Request) :
    ∀ a ∈ (w.requests qs).1, ∃ e, a = .error e ∧ e.innermost = cause
  unchanged (qs : List Request) : (w.requests qs).2 = w

theorem refuses_of_refusal {e : StreamError} (h : w.phase.refusal? = some e) :
    w.Refuses e.innermost := by
  have hstep (q : Request) := request_of_refusal h q
  refine ⟨fun qs => ?_, fun qs => ?_⟩
  · induction qs with
    | nil => simp [requests]
    | cons q qs ih =>
      obtain ⟨e', hq, he⟩ := hstep q
      rw [requests, hq]
      exact List.forall_mem_cons.2 ⟨⟨e', rfl, he⟩, ih⟩
  · induction qs with
    | nil => rfl
    | cons q qs ih =>
      obtain ⟨e', hq, -⟩ := hstep q
      rw [requests, hq]
      exact ih

/-- A request on an open sealer that fails: only after a flush the sealer stays open. -/
theorem request_error {q : Request} {e : StreamError} (hw : w.phase = .running)
    (h : w.request q = (.error e, w')) :
    (q = .flush ∧ w' = { w with output := (Output.flush w.output).2 }) ∨
      q ≠ .flush ∧ ∃ cause, w'.phase = .failed cause ∧ cause.innermost = e.innermost := by
  cases q with
  | write data =>
    refine .inr ⟨by simp, ?_⟩
    by_cases hd : data = []
    · rw [hd, request, write_nil hw] at h
      cases h
    · rw [request, write_of_running hw hd] at h
      rcases hx : (w.taking data).encode false with ⟨cause | _, w₁⟩ <;> rw [hx] at h <;> cases h
      exact ⟨cause, rfl, (StreamError.innermost_io_carrying ..).symm⟩
  | flush =>
    have hr : w.phase.refusal? = none := by rw [hw]; rfl
    refine .inl ⟨rfl, ?_⟩
    simp only [request, flush, hr] at h
    rcases hf : Output.flush w.output with ⟨e | _, o⟩ <;> rw [hf] at h <;> cases h
    rfl
  | close =>
    refine .inr ⟨by simp, ?_⟩
    rw [request, close_of_running hw] at h
    rcases hx : w.encodeLast with ⟨cause | _, w₁⟩ <;> rw [hx] at h <;> cases h
    exact ⟨cause, rfl, (StreamError.innermost_io_carrying ..).symm⟩

/-- **The first failure is kept**: once a write or the end has failed, everything fails with what
failed first, and no chunk is written any more. -/
theorem refuses_of_error {q : Request} {e : StreamError} (hw : w.phase = .running)
    (hq : q ≠ .flush) (h : w.request q = (.error e, w')) :
    w'.Refuses e.innermost ∧ ∃ e', w'.finish = (.error e', w') ∧ e'.innermost = e.innermost := by
  obtain ⟨hf, -⟩ | ⟨-, cause, hp, he⟩ := request_error hw h
  · exact absurd hf hq
  · have hc : (StreamError.io cause.toSharedIo).innermost = e.innermost :=
      (StreamError.innermost_io_carrying ..).trans he
    have hr := @refuses_of_refusal M τ _ w' (.io cause.toSharedIo) (by rw [hp]; rfl)
    rw [hc] at hr
    exact ⟨hr, _, finish_of_failed hp, hc⟩

theorem phase_close (h : w.close = (.ok (), w')) : w.phase = .running ∧ w'.phase = .ended := by
  rcases hp : w.phase.refusal? with _ | e
  · have hw := Phase.refusal?_eq_none_iff.1 hp
    obtain ⟨_, _, -, -, rfl⟩ := (close_ok_iff hw).1 h
    exact ⟨hw, rfl⟩
  · simp only [close, hp] at h
    cases h

end

/-! ## What has been written -/

/-- The plaintext of a request, if it was taken. -/
def Request.answered : Request → Except StreamError Nat → Bytes
  | q, .ok _ => q.data
  | _, .error _ => []

/-- The plaintext that was taken in answered requests. -/
def Request.allAnswered (qs : List Request) (as : List (Except StreamError Nat)) : Bytes :=
  (List.zipWith answered qs as).flatten

section
variable {M : Modes} {σ : Type} [Sink σ] {w w' : Sealer M (BufferedSink σ)} {p : Preamble}
  {enc : Encoder M} {plaintext : Bytes} {t : List (Piece × Chunk)}

/-- What a sealer has written that has not failed: its preamble and the chunks of a transcript, with
the plaintext that was taken but for what is pending. After the end nothing waits any more. -/
structure Written (p : Preamble) (enc : Encoder M) (plaintext : Bytes) (t : List (Piece × Chunk))
    (w : Sealer M (BufferedSink σ)) : Prop where
  makes : enc.Makes t w.encoder
  encodable : ∀ x ∈ t, x.2.Encodable
  taken : w.output.taken = Container.octets ⟨p, t.map Prod.snd⟩
  counted : w.chunks = t.length
  marked : Encoder.Marked w.phase.isEnded t
  plaintext : ∃ n, t.flatMap (·.1.data) ++ w.pending = plaintext ++ Padding.fill n ∧
    (w.phase = .running → n = 0)
  maxChunkLen : 0 < w.maxChunkLen
  ended (h : w.phase = .ended) : w.pending = [] ∧ w.output.buffer = #[]

theorem buffer_of_request_close {a : Nat} (h : w.request .close = (.ok a, w')) :
    w'.output.buffer = #[] := by
  rw [request] at h
  rcases hc : w.close with ⟨e | _, w₁⟩ <;> rw [hc] at h <;> cases h
  obtain ⟨_, _, -, hf, rfl⟩ := (close_ok_iff (phase_close hc).1).1 hc
  exact BufferedSink.buffer_of_flush hf

omit [Sink σ] in
/-- The chunks of a request that was answered are made of its plaintext and of what was pending. -/
theorem covers_request {q : Request} {u : List (Piece × Chunk)} (hl : 0 < w.maxChunkLen)
    (hpl : w.encoder.plan w.maxChunkLen q.isClose (w.pending ++ q.data) =
          ⟨u.map Prod.fst, w'.pending⟩ ∨
        q.isClose = false ∧ q.data = [] ∧ u = [] ∧ w'.pending = w.pending) :
    Plan.Covers q.isClose (w.pending ++ q.data) ⟨u.map Prod.fst, w'.pending⟩ := by
  rcases hpl with hpl | ⟨hc, hd, rfl, hp⟩
  · rw [← hpl]
    exact w.encoder.covers_plan hl _ _
  · rw [hc, hd, hp, List.append_nil]
    exact ⟨⟨0, (List.append_nil _).symm, fun _ => rfl⟩, fun h => by cases h⟩

/-- What was written of a request that was answered. -/
theorem Written.append (h : Written p enc plaintext t w) {q : Request}
    {u : List (Piece × Chunk)} (hw : w.phase = .running) (hg : Grew w u w')
    (hm : Encoder.Marked q.isClose u) (hp : w'.phase = if q.isClose then .ended else .running)
    (hc : Plan.Covers q.isClose (w.pending ++ q.data) ⟨u.map Prod.fst, w'.pending⟩)
    (hb : q.isClose = true → w'.output.buffer = #[]) :
    Written p enc (plaintext ++ q.data) (t ++ u) w' := by
  have hmt := h.marked
  rw [hw] at hmt
  have hend : w'.phase.isEnded = q.isClose := by rw [hp]; cases q.isClose <;> rfl
  refine ⟨h.makes.append hg.makes, ?_, ?_, ?_, ?_, ?_, hg.maxChunkLen ▸ h.maxChunkLen, fun he => ?_⟩
  · exact fun x hx => (List.mem_append.1 hx).elim (h.encodable x) (hg.encodable x)
  · refine (Eq.trans hg.taken (congrArg (· ++ _) h.taken)).trans ?_
    simp only [Container.octets_eq, List.map_append, List.flatMap_append, List.flatMap_map,
      List.append_assoc]
  · rw [hg.chunks, h.counted, List.length_append]
  · rw [hend]
    exact hmt.append hm
  · obtain ⟨n, hd, hn⟩ := hc.data
    obtain ⟨m, hd', hm⟩ := h.plaintext
    obtain rfl := hm hw
    refine ⟨n, ?_, fun hr => hn ?_⟩
    · rw [List.flatMap_map] at hd
      rw [List.flatMap_append, List.append_assoc, hd, ← List.append_assoc, ← List.append_assoc, hd']
      simp [Padding.fill]
    · rw [← hend, hr]
      rfl
  · have hq : q.isClose = true := by rw [← hend, he]; rfl
    exact ⟨hc.rest hq, hb hq⟩

/-- **What a request adds.** -/
theorem Written.request (h : Written p enc plaintext t w) {q : Request}
    {a : Except StreamError Nat} (hr : w.request q = (a, w'))
    (hn : ∀ cause, w'.phase ≠ .failed cause) :
    ∃ t', Written p enc (plaintext ++ q.answered a) t' w' := by
  rcases hp : w.phase.refusal? with _ | e
  · have hw := Phase.refusal?_eq_none_iff.1 hp
    rcases a with e | n
    · obtain ⟨rfl, rfl⟩ | ⟨-, cause, hf, -⟩ := request_error hw hr
      · -- a flush that fails, and nothing is lost
        refine ⟨t, ⟨h.makes, h.encodable, ?_, h.counted, h.marked, ?_, h.maxChunkLen, ?_⟩⟩
        · exact w.output.taken_flush_eq.trans h.taken
        · rw [Request.answered, List.append_nil]
          exact h.plaintext
        · intro he
          cases hw.symm.trans he
      · exact absurd hf (hn cause)
    · obtain ⟨-, u, hg, hm, hph, hpl⟩ := request_ok hw hr
      have hcov := covers_request h.maxChunkLen hpl
      refine ⟨t ++ u, h.append hw hg hm hph hcov fun hc => ?_⟩
      obtain rfl := Request.isClose_iff.1 hc
      exact buffer_of_request_close hr
  · obtain ⟨e', hq, -⟩ := request_of_refusal hp q
    rw [hq] at hr
    cases hr
    rw [Request.answered, List.append_nil]
    exact ⟨t, h⟩

/-- **What requests add**, unless one of them fails for good. -/
theorem Written.requests (h : Written p enc plaintext t w) (qs : List Request)
    (hn : ∀ cause, (w.requests qs).2.phase ≠ .failed cause) :
    ∃ t', Written p enc (plaintext ++ Request.allAnswered qs (w.requests qs).1) t'
      (w.requests qs).2 := by
  induction qs generalizing w plaintext t with
  | nil =>
    refine ⟨t, ?_⟩
    rw [Sealer.requests, Request.allAnswered, List.zipWith_nil_left, List.flatten_nil,
      List.append_nil]
    exact h
  | cons q qs ih =>
    rcases hr : w.request q with ⟨a, w₁⟩
    simp only [Sealer.requests, hr] at hn ⊢
    have hn₁ (cause : StreamError) : w₁.phase ≠ .failed cause := by
      -- a sealer that had failed would have stayed as it is
      intro hf
      refine hn cause ?_
      rw [(@refuses_of_refusal M _ _ w₁ (.io cause.toSharedIo) (by rw [hf]; rfl)).unchanged qs, hf]
    obtain ⟨t₁, h₁⟩ := h.request hr hn₁
    obtain ⟨t', h'⟩ := ih h₁ hn
    refine ⟨t', ?_⟩
    rw [Request.allAnswered, List.zipWith_cons_cons, List.flatten_cons, ← List.append_assoc]
    exact h'

/-- After the end there is nothing left to pass on. -/
theorem drain_of_ended (hb : w.output.buffer = #[]) :
    w.passOn Output.drain = (.ok (), w) := by
  obtain ⟨⟨sink, accepted, buffer, capacity⟩, encoder, maxChunkLen, pending, phase, chunks,
    plaintextLen, events⟩ := w
  dsimp only at hb
  subst hb
  simp only [passOn, Output.drain, BufferedSink.drain]
  rw [drive]
  rfl

theorem Written.close (h : Written p enc plaintext t w) (hc : w.close = (.ok (), w')) :
    ∃ t', Written p enc plaintext t' w' := by
  have hp := (phase_close hc).2
  have hr : w.request .close = (.ok 0, w') := by rw [Sealer.request, hc]
  obtain ⟨t', h'⟩ := h.request hr fun cause hf => by cases hp.symm.trans hf
  rw [Request.answered, Request.data, List.append_nil] at h'
  exact ⟨t', h'⟩

theorem Written.finish (h : Written p enc plaintext t w) (hf : w.finish = (.ok (), w')) :
    w'.phase = .ended ∧ ∃ t', Written p enc plaintext t' w' := by
  cases hp : w.phase with
  | failed cause =>
    rw [finish_of_failed hp] at hf
    cases hf
  | ended =>
    rw [finish_of_ended hp, drain_of_ended (h.ended hp).2] at hf
    cases hf
    exact ⟨hp, t, h⟩
  | running =>
    rw [finish_of_running hp] at hf
    rcases hc : w.close with ⟨e | _, w₁⟩ <;> simp only [hc, andThen] at hf
    · cases hf
    · obtain ⟨t', h'⟩ := h.close hc
      have hp' := (phase_close hc).2
      rw [drain_of_ended (h'.ended hp').2] at hf
      cases hf
      exact ⟨hp', t', h'⟩

/-- The sink has a complete container: it is parsed into the preamble and the records that were
counted, the last one of them and no other is the final one, and they were made of the plaintext. -/
structure Complete (p : Preamble) (enc : Encoder M) (plaintext : Bytes)
    (t : List (Piece × Chunk)) (w : Sealer M (BufferedSink σ)) : Prop where
  makes : enc.Makes t w.encoder
  accepted : w.output.accepted.toList = Container.octets ⟨p, t.map Prod.snd⟩
  parsed : Container.read maxLength w.output.accepted.toList = (.ok ⟨p, t.map Prod.snd⟩, [])
  counted : w.chunks = t.length
  marked : ∃ u x, t = u ++ [x] ∧ (∀ y ∈ u, y.2.last = false) ∧ x.2.last = true
  plaintext : ∃ n, t.flatMap (·.1.data) = plaintext ++ Padding.fill n

omit [Sink σ] in
theorem Written.complete (h : Written p enc plaintext t w) (hp : p.Encodable)
    (he : w.phase = .ended) : Complete p enc plaintext t w := by
  obtain ⟨hpend, hbuf⟩ := h.ended he
  have hacc : w.output.accepted.toList = Container.octets ⟨p, t.map Prod.snd⟩ := by
    have ht := h.taken
    rwa [BufferedSink.taken, hbuf, List.append_nil] at ht
  have hm := h.marked
  rw [he] at hm
  refine ⟨h.makes, hacc, ?_, h.counted, hm, ?_⟩
  · rw [hacc]
    refine Container.read_octets hp fun c hc => ?_
    obtain ⟨x, hx, rfl⟩ := List.mem_map.1 hc
    exact h.encodable x hx
  · obtain ⟨n, hd, -⟩ := h.plaintext
    rw [hpend, List.append_nil] at hd
    exact ⟨n, hd⟩

omit [Sink σ] in
theorem Begun.written {s : Settings} {k : KeyedCipher M} {e : Entropy} (hw : Begun s e k w)
    (hl : 0 < s.maxChunkLen) (ht : w.output.taken = p.octets) (hc : w.chunks = 0) :
    Written p (.start s e k) [] [] w where
  makes := hw.encoder ▸ .nil _
  encodable := by simp
  taken := by rw [ht, Container.octets_eq]; simp
  counted := hc
  marked := by rw [hw.phase]; simp [Phase.isEnded, Encoder.Marked]
  plaintext := ⟨0, by rw [hw.pending]; rfl, fun _ => rfl⟩
  maxChunkLen := hw.maxChunkLen ▸ hl
  ended h := by cases hw.phase.symm.trans h

theorem start_written {s : Settings} {k : KeyedCipher M} {e : Entropy} {sink : σ}
    (hw : start s p k e (s.buffered sink) = .ok w) :
    p.Encodable ∧ Written p (.start s e k) [] [] w := by
  obtain ⟨hv, hp, hb, ht⟩ := start_ok hw
  exact ⟨hp, hb.written (s.maxChunkLen_pos hv) ht (chunks_start hw)⟩

/-! ## Sinks that fail -/

/-- What is kept for good: after a write or an end that fails, everything fails with what failed
first, and after an end that does not, everything is refused. -/
structure Latches (w : Sealer M (BufferedSink σ)) : Prop where
  failed {q : Request} {e : StreamError} {w' : Sealer M (BufferedSink σ)} (hw : w.phase = .running)
    (hq : q ≠ .flush) (h : w.request q = (.error e, w')) :
    w'.Refuses e.innermost ∧ ∃ e', w'.finish = (.error e', w') ∧ e'.innermost = e.innermost
  closed {w' : Sealer M (BufferedSink σ)} (h : w.close = (.ok (), w')) :
    w'.Refuses .closed ∧ w'.finish = (.ok (), w')

theorem latches (w : Sealer M (BufferedSink σ)) : w.Latches where
  failed := refuses_of_error
  closed {w'} h := by
    have hp := (phase_close h).2
    have hr : w.request .close = (.ok 0, w') := by rw [Sealer.request, h]
    refine ⟨refuses_of_refusal (by rw [hp]; rfl), ?_⟩
    rw [finish_of_ended hp, drain_of_ended (buffer_of_request_close hr)]

variable {ρ : Type} [Sink ρ] {r : Sealer M (BufferedSink ρ)}

/-- What holds of a sealer before a sink beside one before a sink that does not fail. The sink has
accepted a beginning of what that one accepts, whether or not the sealer is finished or given up,
and goes on from there; once the sealer was closed it has a complete container. -/
structure Faithful (p : Preamble) (enc : Encoder M) (plaintext : Bytes)
    (w : Sealer M (BufferedSink σ)) (r : Sealer M (BufferedSink ρ)) : Prop where
  accepted : w.output.accepted.toList <+: r.abandon.accepted.toList
  abandoned : w.abandon.accepted.toList <+: r.abandon.accepted.toList
  finished : w.finish.2.output.accepted.toList <+: r.finish.2.abandon.accepted.toList
  finished_abandoned : w.finish.2.abandon.accepted.toList <+: r.finish.2.abandon.accepted.toList
  grows (qs : List Request) :
    w.output.accepted.toList <+: (w.requests qs).2.output.accepted.toList
  closed {w' : Sealer M (BufferedSink σ)} (h : w.close = (.ok (), w')) :
    w'.output.accepted.toList = r.close.2.abandon.accepted.toList ∧
      ∃ t, Complete p enc plaintext t w'
  completed {w' : Sealer M (BufferedSink σ)} (h : w.finish = (.ok (), w')) :
    w'.output.accepted.toList = r.finish.2.abandon.accepted.toList ∧
      ∃ t, Complete p enc plaintext t w'

omit [Sink σ] in
/-- Before a sink that has a complete container, nothing is behind any more. -/
theorem Trails.accepted_eq (h : Trails w r) (hp : w.phase = .ended)
    (hb : w.output.buffer = #[]) : w.output.accepted.toList = r.abandon.accepted.toList := by
  have hs := h.same fun cause hf => by cases hp.symm.trans hf
  rw [show r.abandon.accepted.toList = r.output.taken from
    BufferedSink.accepted_drain_eq h.reliable, ← hs.output.taken, BufferedSink.taken, hb,
    List.append_nil]

theorem faithful (h : Trails w r) (hp : p.Encodable)
    (hw : (∀ cause, w.phase ≠ .failed cause) → ∃ t, Written p enc plaintext t w) :
    Faithful p enc plaintext w r := by
  have hf := finish_trails h
  refine ⟨h.accepted.1, h.accepted.2, hf.accepted.1, hf.accepted.2,
    fun qs => (BufferedSink.preserves_accepted _).requests qs List.prefix_rfl, fun {w'} hc => ?_,
    fun {w'} hc => ?_⟩
  · obtain ⟨hrun, hend⟩ := phase_close hc
    obtain ⟨t, hwr⟩ := hw fun cause hf => by cases hrun.symm.trans hf
    obtain ⟨t', hwr'⟩ := hwr.close hc
    have ht := request_trails .close h
    rw [request_close_snd, request_close_snd, hc] at ht
    exact ⟨ht.accepted_eq hend (hwr'.ended hend).2, t', hwr'.complete hp hend⟩
  · have hrun (cause : StreamError) : w.phase ≠ .failed cause := by
      intro hf
      rw [finish_of_failed hf] at hc
      cases hc
    obtain ⟨t, hwr⟩ := hw hrun
    obtain ⟨hend, t', hwr'⟩ := hwr.finish hc
    rw [hc] at hf
    exact ⟨hf.accepted_eq hend (hwr'.ended hend).2, t', hwr'.complete hp hend⟩

/-- **Sealing before a sink that fails.** Take any cipher, any sink and any requests, whatever the
answers are, and beside it the same cipher and the same requests before a sink that does not fail.
At every moment, also after the sealer is given up, the sink has accepted a beginning of what the
other sink accepts. When the sealer is closed or finished, the sink has the complete container.
After the first write or end that fails, everything fails with what failed first, and the sealer
stays as it is; after the end everything is refused. -/
theorem accepted_requests {ideal : ρ} (hi : Sink.Reliable ideal) (s : Settings) (p : Preamble)
    (k : KeyedCipher M) (e : Entropy) (sink : σ) :
    (∀ u, start s p k e (s.buffered sink) = .error u → u.output.accepted.toList <+:
        (startOutput (start s p k e (s.buffered ideal))).accepted.toList) ∧
      ∀ w, start s p k e (s.buffered sink) = .ok w →
        ∃ r, start s p k e (s.buffered ideal) = .ok r ∧ ∀ qs : List Request,
          Faithful p (.start s e k) (Request.allAnswered qs (w.requests qs).1)
            (w.requests qs).2 (r.requests qs).2 ∧
          (w.requests qs).2.Latches := by
  refine ⟨fun u hu => accepted_start_le hi hu, fun w hw => ?_⟩
  obtain ⟨r, hr, hs⟩ := start_same hi hw
  obtain ⟨hp, hwr⟩ := start_written hw
  exact ⟨r, hr, fun qs =>
    ⟨faithful (requests_trails qs hs.trails) hp fun hn => hwr.requests qs hn, latches _⟩⟩

end

/-- A cipher for blocks that refuses its second call, before a sink that refuses its twentieth
octet: the refusal of the cipher is kept. -/
theorem accepted_requests_refused :
    ∃ w r, @start .scripted _ _ .short ⟨[1], "x", "y"⟩ (.block ⟨4, 7, 2, 0, .encrypt⟩)
        (.scripted #[]) (Settings.short.buffered ({ failAt := some 19 } : ScriptedSink)) = .ok w ∧
      @start .scripted _ _ .short ⟨[1], "x", "y"⟩ (.block ⟨4, 7, 2, 0, .encrypt⟩)
        (.scripted #[]) (Settings.short.buffered ({} : ScriptedSink)) = .ok r ∧
      let qs := [.write [1, 2, 3, 4, 5], .write [6, 7, 8]]
      @Faithful .scripted _ _ _ _ ⟨[1], "x", "y"⟩
        (.start .short (.scripted #[]) (.block ⟨4, 7, 2, 0, .encrypt⟩))
        [1, 2, 3, 4, 5] (w.requests qs).2 (r.requests qs).2 ∧
      (w.requests qs).2.Refuses (.cipher .encryption) := by
  obtain ⟨r, hr, hq⟩ := (@accepted_requests .scripted ScriptedSink _ ScriptedSink _ {}
    ScriptedSink.reliable .short ⟨[1], "x", "y"⟩ (.block ⟨4, 7, 2, 0, .encrypt⟩) (.scripted #[])
    { failAt := some 19 }).2 _ rfl
  refine ⟨_, r, rfl, hr, (hq [.write [1, 2, 3, 4, 5], .write [6, 7, 8]]).1, ?_⟩
  have h := (hq [.write [1, 2, 3, 4, 5]]).2.failed (q := .write [6, 7, 8]) rfl (by simp) rfl
  exact h.1

end Sealer

end SealedStream
