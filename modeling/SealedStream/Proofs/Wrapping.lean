import SealedStream.Proofs.Classification
import SealedStream.Proofs.Faults
import SealedStream.Proofs.Opening
/-!
# Failures within failures

A failure of a stream travels through a transport as one of that transport, and may be wrapped so
many times over, by transports of any kind.

* `StreamError.wrapped` puts wraps around a failure, and `IoError.Within` are the failures of
  transports that a failure passes through.
* `StreamError.LooksLike`: two failures are the same to a caller, however they are asked.
* `StreamError.PassedOn` is what a row of streams makes of a failure when each one keeps it and
  reports it to the next. The wraps then are all of its kind (`PassedOn.eq_wrapped`).
* `Sealer.Reports`, `Opener.Reports`: a stream reports what it keeps, at once and whenever it is
  asked.

`StreamError.wrapped_transparent` puts these together.
-/
namespace SealedStream

/-! ## Wraps -/

/-- A wrap around a failure of a stream: a failure of a transport that carries it. -/
structure Wrap where
  kind : IoKind
  /-- Does a stream keep the failure? -/
  shared : Bool

namespace StreamError

/-- A failure with wraps around it, the last of them outermost. -/
def wrapped (e : StreamError) (ws : List Wrap) : StreamError :=
  ws.foldl (fun e w => .io (.carrying w.kind w.shared e)) e

theorem wrapped_concat (e : StreamError) (ws : List Wrap) (w : Wrap) :
    e.wrapped (ws ++ [w]) = .io (.carrying w.kind w.shared (e.wrapped ws)) := by
  rw [wrapped, List.foldl_append]
  rfl

@[simp] theorem innermost_wrapped (e : StreamError) (ws : List Wrap) :
    (e.wrapped ws).innermost = e.innermost := by
  induction ws generalizing e with
  | nil => rfl
  | cons w ws ih => exact (ih _).trans (innermost_io_carrying ..)

end StreamError

/-- A failure of a stream is one of a transport, or passes through one on the way to the first. -/
inductive IoError.Within (x : IoError) : StreamError → Prop
  | here : Within x (.io x)
  | under {kind : IoKind} {shared : Bool} {cause : StreamError} (h : Within x cause) :
    Within x (.io (.carrying kind shared cause))

theorem IoError.Within.innermost {x : IoError} {e : StreamError} (h : x.Within e) :
    (StreamError.io x).innermost = e.innermost := by
  induction h with
  | here => rfl
  | under _ ih => exact ih.trans (StreamError.innermost_io_carrying ..).symm

namespace Failure

theorem verdict_congr {e u : StreamError} (h : u.innermost = e.innermost) :
    (stream u).verdict = (stream e).verdict := by
  rw [← verdict_innermost, h, verdict_innermost]

theorem verdict_ofIo (x : IoError) : (ofIo x).verdict = (stream (.io x)).verdict := by
  cases x with
  | plain kind text => rfl
  | carrying kind shared cause =>
    have hc : (stream cause).verdict = (stream (.io (.carrying kind shared cause))).verdict :=
      (verdict_congr (StreamError.innermost_io_carrying ..)).symm
    cases shared with
    | true => exact hc
    | false => exact hc

theorem ofIo_of_cause? {x : IoError} (h : x.cause? = none) : ofIo x = .stream (.io x) := by
  cases x with
  | plain kind text => rfl
  | carrying kind shared cause => cases h

end Failure

namespace StreamError

/-- What was first carries nothing. -/
theorem cause?_of_innermost {x : IoError} :
    ∀ {e : StreamError}, e.innermost = .io x → x.cause? = none
  | .io (.carrying kind shared cause), h => by
    rw [innermost_io_carrying] at h
    exact cause?_of_innermost h
  | .io (.plain kind text), h => by
    cases h
    rfl

/-- A caller who is given `u` learns the same as one who is given `e`, from `u` itself and from
every failure of a transport that it passes through. -/
structure LooksLike (u e : StreamError) : Prop where
  innermost : u.innermost = e.innermost
  isIntegrityError : u.isIntegrityError = e.isIntegrityError
  /-- The failure that was first is found at once. -/
  again : u.innermost.innermost = u.innermost
  /-- It carries none. -/
  bare {x : IoError} (h : u.innermost = .io x) : x.cause? = none
  verdict : (Failure.stream u).verdict = (Failure.stream e).verdict
  within {x : IoError} (h : x.Within u) : (Failure.ofIo x).verdict = (Failure.stream e).verdict

theorem looksLike_of_innermost {e u : StreamError} (h : u.innermost = e.innermost) :
    u.LooksLike e where
  innermost := h
  isIntegrityError := by rw [StreamError.isIntegrityError, StreamError.isIntegrityError, h]
  again := innermost_innermost u
  bare := cause?_of_innermost
  verdict := Failure.verdict_congr h
  within hx := (Failure.verdict_ofIo _).trans (Failure.verdict_congr (hx.innermost.trans h))

/-! ## Failures that are passed on -/

/-- A failure that streams pass on, each one to the next as a failure of the transport of that.
They may keep it or not. -/
inductive PassedOn (e : StreamError) : StreamError → Prop
  | refl : PassedOn e e
  | kept {u : StreamError} (h : PassedOn e u) : PassedOn e (.io u.toSharedIo)
  | given {u : StreamError} (h : PassedOn e u) : PassedOn e (.io u.toIo)

theorem kind_toIo (e : StreamError) : e.toIo.kind = e.ioKind := by
  cases e <;> rfl

theorem PassedOn.ioKind {e u : StreamError} (h : PassedOn e u) : u.ioKind = e.ioKind := by
  induction h with
  | refl => rfl
  | kept _ ih => exact ih
  | given _ ih => exact (kind_toIo _).trans ih

/-- What a stream makes of a failure of its transport has the kind of that, also where it is taken
for a container cut short. -/
theorem ioKind_ofRecord (x : IoError) : (ofRecord (.io x)).ioKind = x.kind := by
  by_cases hx : x.kind = .unexpectedEof
  · simp [ofRecord, WireError.isEof, hx, StreamError.ioKind]
  · simp [ofRecord, WireError.isEof, hx, ofWire, StreamError.ioKind]

theorem io_toIo (e : StreamError) :
    .io e.toIo = e ∨ .io e.toIo = e.wrapped [⟨e.ioKind, false⟩] := by
  cases e with
  | io x => exact .inl rfl
  | _ => exact .inr rfl

/-- All wraps around a failure that is passed on are of its kind. -/
theorem PassedOn.eq_wrapped {e u : StreamError} (h : PassedOn e u) :
    ∃ ws : List Wrap, u = e.wrapped ws ∧ ∀ w ∈ ws, w.kind = e.ioKind := by
  have hstep {u : StreamError} {ws : List Wrap} (shared : Bool) (hu : PassedOn e u)
      (he : u = e.wrapped ws) (hk : ∀ w ∈ ws, w.kind = e.ioKind) :
      ∃ ws : List Wrap, u.wrapped [⟨u.ioKind, shared⟩] = e.wrapped ws ∧
        ∀ w ∈ ws, w.kind = e.ioKind := by
    refine ⟨ws ++ [⟨u.ioKind, shared⟩], ?_, ?_⟩
    · rw [wrapped_concat, ← he]
      rfl
    · exact List.forall_mem_append.2 ⟨hk, List.forall_mem_singleton.2 hu.ioKind⟩
  induction h with
  | refl => exact ⟨[], rfl, by simp⟩
  | kept hu ih =>
    obtain ⟨ws, he, hk⟩ := ih
    exact hstep true hu he hk
  | @given u hu ih =>
    obtain ⟨ws, he, hk⟩ := ih
    rcases io_toIo u with h | h
    · exact ⟨ws, h.trans he, hk⟩
    · rw [h]
      exact hstep false hu he hk

end StreamError

/-! ## What streams report -/

namespace Sealer
variable {M : Modes} {τ : Type} [Output τ] {w w' : Sealer M τ} {e u : StreamError}

/-- A failed sealer answers every request with the failure that it keeps. -/
theorem request_of_failed (h : w.phase = .failed u) (q : Request) :
    w.request q = (.error (.io u.toSharedIo), w) := by
  have hr : w.phase.refusal? = some (.io u.toSharedIo) := by rw [h]; rfl
  cases q with
  | write data => simp only [request, write, hr, StreamError.toIo]
  | flush => simp only [request, flush, hr, StreamError.toIo]
  | close => simp only [request, close, hr]

/-- What leaves an open sealer failed is answered with the failure that it keeps from then on. -/
theorem request_error_of_running {q : Request} (hw : w.phase = .running)
    (h : w.request q = (.error e, w')) (hf : w'.phase = .failed u) : e = .io u.toSharedIo := by
  cases q with
  | write data =>
    by_cases hd : data = []
    · rw [request, hd, write_nil hw] at h
      cases h
    · rw [request, write_of_running hw hd] at h
      rcases hx : (w.taking data).encode false with ⟨cause | _, w₁⟩ <;> rw [hx] at h <;> cases h
      cases hf
      rfl
  | flush =>
    have hr : w.phase.refusal? = none := by rw [hw]; rfl
    simp only [request, flush, hr] at h
    rcases hx : Output.flush w.output with ⟨x | _, o⟩ <;> rw [hx] at h <;> cases h
    cases hw.symm.trans hf
  | close =>
    rw [request, close_of_running hw] at h
    rcases hx : w.encodeLast with ⟨cause | _, w₁⟩ <;> rw [hx] at h <;> cases h
    cases hf
    rfl

theorem request_error_eq {q : Request} (h : w.request q = (.error e, w'))
    (hf : w'.phase = .failed u) : e = .io u.toSharedIo := by
  rcases hp : w.phase with _ | _ | cause
  · exact request_error_of_running hp h hf
  · obtain ⟨e', hq, -⟩ := request_of_refusal (e := .closed) (by rw [hp]; rfl) q
    cases hq.symm.trans h
    cases hp.symm.trans hf
  · cases (request_of_failed hp q).symm.trans h
    cases hp.symm.trans hf
    rfl

theorem finish_error_eq (h : w.finish = (.error e, w')) (hf : w'.phase = .failed u) :
    e = .io u.toSharedIo := by
  -- what passes the output on does not fail the sealer, whatever comes of it
  have hdrain {w₁ : Sealer M τ} (hd : w₁.passOn Output.drain = (.error e, w')) :
      w₁.phase = .failed u := by
    have hs := w₁.passOn_snd Output.drain
    rw [hd] at hs
    cases hs
    exact hf
  rcases hp : w.phase with _ | _ | cause
  · rw [finish_of_running hp] at h
    rcases hc : w.close with ⟨e' | _, w₁⟩ <;> rw [hc] at h
    · cases h
      exact request_error_of_running (q := .close) hp (by rw [request, hc]) hf
    · cases (phase_close hc).2.symm.trans (hdrain h)
  · rw [finish_of_ended hp] at h
    cases hp.symm.trans (hdrain h)
  · rw [finish_of_failed hp] at h
    cases h
    cases hp.symm.trans hf
    rfl

/-- Sealers that keep a failure report it, and report nothing else. -/
structure Reports (M : Modes) (τ : Type) [Output τ] (u : StreamError) : Prop where
  /-- What leaves a sealer failed is answered with the failure that it keeps. -/
  first {w w' : Sealer M τ} {q : Request} {e : StreamError}
    (h : w.request q = (.error e, w') ∨ w.finish = (.error e, w')) (hf : w'.phase = .failed u) :
    e = .io u.toSharedIo
  /-- So is all that is asked of it from then on, and it stays as it is. -/
  again {w : Sealer M τ} (hf : w.phase = .failed u) :
    (∀ q, w.request q = (.error (.io u.toSharedIo), w)) ∧
      w.finish = (.error (.io u.toSharedIo), w)

theorem reports (M : Modes) (τ : Type) [Output τ] (u : StreamError) : Reports M τ u where
  first h hf := h.elim (request_error_eq · hf) (finish_error_eq · hf)
  again hf := ⟨request_of_failed hf, finish_of_failed hf⟩

end Sealer

namespace Opener
variable {M : Modes} {ι : Type} [Input ι] {o o' : Opener M ι} {x : IoError}

theorem readInto_error {done : Array UInt8} {n : Nat} (h : readInto done n o = (.error x, o')) :
    ∃ u, o'.phase = .failed u ∧ x = u.toSharedIo := by
  fun_induction readInto done n o with
  | case1 => cases h
  | case2 done n o hn hp given ih => exact ih h
  | case3 done n o hn hp hr ih => exact ih h
  | case4 => cases h
  | case5 done n o hn hp cause hc =>
    split at h <;> cases h
    exact ⟨cause, hc, rfl⟩

theorem readAllInto_error {done : Array UInt8} {bs : Bytes}
    (h : readAllInto done o = (bs, .error x, o')) :
    ∃ u, o'.phase = .failed u ∧ x = u.toSharedIo := by
  fun_induction readAllInto done o with
  | case1 done o all hr ih => exact ih h
  | case2 => cases h
  | case3 done o all cause hc =>
    cases h
    exact ⟨cause, hc, rfl⟩

theorem read_of_failed {u : StreamError} (hf : o.phase = .failed u) (hp : o.plaintext = [])
    {n : Nat} (hn : 0 < n) : o.read n = (.error u.toSharedIo, o) := by
  have hne : ¬ o.plaintext ≠ [] := not_not.2 hp
  rw [read, readInto, if_neg hn.ne', if_neg hne]
  split
  · next hr => cases hf.symm.trans hr
  · next he => cases hf.symm.trans he
  · next cause hc =>
    cases hf.symm.trans hc
    rfl

theorem readAll_of_failed {u : StreamError} (hf : o.phase = .failed u) (hp : o.plaintext = []) :
    o.readAll = ([], .error u.toSharedIo, o) := by
  have ho : { o with plaintext := [] } = o := emptied_of_nil hp
  rw [readAll, readAllInto]
  split
  · next hr => cases hf.symm.trans hr
  · next he => cases hf.symm.trans he
  · next cause hc =>
    cases hf.symm.trans hc
    rw [ho, hp]
    rfl

/-- Openers that keep a failure report it, and report nothing else. -/
structure Reports (M : Modes) (ι : Type) [Input ι] (u : StreamError) : Prop where
  /-- A read that leaves an opener failed and fails is answered with the failure that it keeps. -/
  first {o o' : Opener M ι} {n : Nat} {bs : Bytes} {x : IoError}
    (h : o.read n = (.error x, o') ∨ o.readAll = (bs, .error x, o')) (hf : o'.phase = .failed u) :
    x = u.toSharedIo
  /-- So is every read from then on, once all plaintext is given out. -/
  again {o : Opener M ι} (hf : o.phase = .failed u) (hp : o.plaintext = []) :
    (∀ n, 0 < n → o.read n = (.error u.toSharedIo, o)) ∧
      o.readAll = ([], .error u.toSharedIo, o)

theorem reports (M : Modes) (ι : Type) [Input ι] (u : StreamError) : Reports M ι u where
  first {o o' n bs x} h hf := by
    obtain ⟨u', hu', rfl⟩ : ∃ u', o'.phase = .failed u' ∧ x = u'.toSharedIo :=
      h.elim readInto_error readAllInto_error
    cases hu'.symm.trans hf
    rfl
  again hf hp := ⟨fun _ => read_of_failed hf hp, readAll_of_failed hf hp⟩

end Opener

/-! ## Wraps are transparent -/

namespace StreamError

/-- **Wraps are transparent**: however often a failure is wrapped, by transports of whatever kind,
it looks like what it was, and a failure of a transport that carries none stays what it is. What
streams keep and pass on to one another has the kind of the first failure at every depth, and under
that kind they report it, at once and whenever they are asked. -/
theorem wrapped_transparent {M : Modes} {τ ι : Type} [Output τ] [Input ι] (e : StreamError) :
    (∀ ws : List Wrap, (e.wrapped ws).LooksLike e) ∧
      (∀ x : IoError, x.cause? = none → Failure.ofIo x = .stream (.io x)) ∧
      (∀ x : IoError, (ofWire (.io x)).ioKind = x.kind ∧ (ofRecord (.io x)).ioKind = x.kind) ∧
      ∀ u, PassedOn e u →
        (∃ ws : List Wrap, u = e.wrapped ws ∧ ∀ w ∈ ws, w.kind = e.ioKind) ∧
          u.toSharedIo.kind = e.ioKind ∧ Sealer.Reports M τ u ∧ Opener.Reports M ι u := by
  refine ⟨fun ws => ?_, fun x hx => Failure.ofIo_of_cause? hx, fun x => ⟨rfl, ioKind_ofRecord x⟩,
    fun u hu => ⟨hu.eq_wrapped, hu.ioKind, Sealer.reports M τ u, Opener.reports M ι u⟩⟩
  exact looksLike_of_innermost (innermost_wrapped e ws)

/-- The disk is full. -/
def diskFull : StreamError := .io (.plain .storageFull (some "disk full"))

end StreamError

/-- A sealer that has failed because the stream it writes to reported a full disk. -/
def Sealer.stalled : Sealer .scripted (Array UInt8) where
  output := #[]
  encoder := .stream ⟨3, 0, 0, 0⟩
  maxChunkLen := 1
  phase := .failed (.io StreamError.diskFull.toSharedIo)
  events := #[]

/-- An opener that has failed because the stream it reads from reported a full disk. -/
def Opener.stalled : Opener .scripted Bytes where
  input := []
  cipher := .stream ⟨3, 0, 0, 0⟩
  preamble := ⟨[1], "x", "y"⟩
  limit := 64
  phase := .failed (.io StreamError.diskFull.toSharedIo)
  events := #[]

/-- A full disk, behind two transports and behind two streams. -/
theorem StreamError.wrapped_transparent_diskFull :
    (diskFull.wrapped [⟨.brokenPipe, true⟩, ⟨.other, false⟩]).LooksLike diskFull ∧
      (∃ x : IoError, Sealer.stalled.request .flush = (.error (.io x), Sealer.stalled) ∧
        x.kind = .storageFull) ∧
      ∃ x : IoError, Opener.stalled.read 1 = (.error x, Opener.stalled) ∧ x.kind = .storageFull := by
  obtain ⟨hl, -, -, hp⟩ := @wrapped_transparent .scripted (Array UInt8) Bytes _ _ diskFull
  obtain ⟨-, hk, hw, ho⟩ := hp _ (.kept .refl)
  have hflush := (@hw.again Sealer.stalled rfl).1 .flush
  have hread := (@ho.again Opener.stalled rfl rfl).1 1 Nat.one_pos
  exact ⟨hl _, ⟨_, hflush, hk⟩, _, hread, hk⟩

end SealedStream
