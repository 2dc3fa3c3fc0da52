import SealedStream.Encoder
import SealedStream.Phase
import SealedStream.Session
import SealedStream.Transport.Output
/-!
# Writing containers

A `Sealer` writes a container to an output while the plaintext comes in.

* `Sealer.start` writes the preamble for a session that has begun, `Sealer.start?` does so with a
  checked length; `Sealer.begin` begins a session.
* `Sealer.write` takes plaintext, `Sealer.flush` passes on what was written.
* `Sealer.close` writes the final chunk. `Sealer.finish` does so where it is still to do, and
  `Sealer.abandon` does not.
-/
namespace SealedStream

/-- A container that is being written. -/
structure Sealer (M : Modes) (τ : Type) where
  output : τ
  encoder : Encoder M
  maxChunkLen : Nat
  pending : Bytes := []
  phase : Phase := .running
  chunks : Nat := 0
  plaintextLen : Nat := 0
  events : Array Event

/-- A container that could not be begun. -/
structure FailedStart (τ : Type) where
  cause : StreamError
  output : τ
  events : Array Event := #[]

/-- An output before a sink, with the buffer that the settings ask for. A buffer of `2 ^ 63` octets
or more cannot be had from any memory, although such settings are accepted: there is no output with
it, and no container. -/
def Settings.buffered {σ : Type} (s : Settings) (sink : σ) : BufferedSink σ :=
  { sink, capacity := s.writeBufferCapacity }

namespace Sealer
variable {M : Modes} {τ : Type} [Output τ]

/-! ## Beginning -/

/-- Begin a container with a cipher that has its key. An output that fails is given up. The string
of the nonces is to be of a length that there is, see `Sealer.start?`. -/
def start (s : Settings) (p : Preamble) (cipher : KeyedCipher M) (e : Entropy) (output : τ) :
    Except (FailedStart τ) (Sealer M τ) :=
  match s.validate with
  | .error cause => .error { cause, output }
  | .ok () =>
    match writeItems p.items output with
    | (.error cause, output) =>
      .error { cause := .ofWire cause, output := (Output.drain output).2 }
    | (.ok (), output) =>
      .ok { output, encoder := .start s e cipher, maxChunkLen := s.maxChunkLen,
            events := #[.sealerOpened p.pkAlgo p.encoding] }

/-- `Sealer.start` with a checked sum: under settings that are accepted there may still be no
container, because a nonce and the associated data are too long together. -/
def start? (s : Settings) (p : Preamble) (cipher : KeyedCipher M) (e : Entropy) (output : τ) :
    Option (Except (FailedStart τ) (Sealer M τ)) :=
  match s.validate with
  | .error cause => some (.error { cause, output })
  | .ok () => do
    let encoder ← Encoder.start? s e cipher
    match writeItems p.items output with
    | (.error cause, output) =>
      return .error { cause := .ofWire cause, output := (Output.drain output).2 }
    | (.ok (), output) =>
      return .ok { output, encoder, maxChunkLen := s.maxChunkLen,
                   events := #[.sealerOpened p.pkAlgo p.encoding] }

theorem eq_start_of_start? {s : Settings} {p : Preamble} {k : KeyedCipher M} {e : Entropy}
    {output : τ} {r : Except (FailedStart τ) (Sealer M τ)} (h : start? s p k e output = some r) :
    r = start s p k e output := by
  rw [start?] at h
  rw [start]
  split at h
  · cases h
    rfl
  · obtain ⟨enc, henc, h⟩ := Option.bind_eq_some_iff.1 h
    obtain rfl := Encoder.eq_start_of_start? henc
    split at h <;> cases h <;> rfl

def ofSession (s : Settings) (session : EncryptionSession M) (output : τ) :
    Except (FailedStart τ) (Sealer M τ) :=
  match start s session.preamble session.cipher session.entropy output with
  | .error u => .error { u with events := #[session.started] ++ u.events }
  | .ok sealer => .ok { sealer with events := #[session.started] ++ sealer.events }

/-- Begin a session and a container for it. Nothing is drawn or looked up under settings that are
refused. -/
def begin (r : Registry M) (s : Settings) (e : Entropy) (pkAlgo cipher : String) (key : PublicKey)
    (output : τ) : Except (FailedStart τ) (Sealer M τ) :=
  match s.validate with
  | .error cause => .error { cause, output }
  | .ok () =>
    match r.startEncryption e pkAlgo cipher key with
    | .error cause => .error { cause := .suite cause, output }
    | .ok session => ofSession s session output

/-! ## Writing chunks -/

def emit (p : Piece) : Sealer M τ → Except StreamError Unit × Sealer M τ
  | { output, encoder, maxChunkLen, pending, phase, chunks, plaintextLen, events } =>
    match encoder.encrypt p with
    | (.error e, encoder) => (.error (.cipher e),
        { output, encoder, maxChunkLen, pending, phase, chunks, plaintextLen, events })
    | (.ok c, encoder) =>
      match writeItems c.items output with
      | (.error e, output) => (.error (.ofWire e),
          { output, encoder, maxChunkLen, pending, phase, chunks, plaintextLen, events })
      | (.ok (), output) => (.ok (),
          { output, encoder, maxChunkLen, pending, phase, chunks := chunks + 1, plaintextLen,
            events })

/-- Write the chunks of pieces, up to the first failure. -/
def emitAll : List Piece → Sealer M τ → Except StreamError Unit × Sealer M τ
  | [], s => (.ok (), s)
  | p :: ps, s =>
    match s.emit p with
    | (.error e, s) => (.error e, s)
    | (.ok (), s) => emitAll ps s

/-- Write the chunks that the pending plaintext gives. -/
def encode (last : Bool) (s : Sealer M τ) : Except StreamError Unit × Sealer M τ :=
  let plan := s.encoder.plan s.maxChunkLen last s.pending
  match emitAll plan.pieces s with
  | (.error e, s) => (.error e, s)
  | (.ok (), s) =>
    (.ok (), { s with pending := plan.rest, events := s.events.push (.chunksSealed s.chunks last) })

/-! ## Operations -/

def fail (cause : StreamError) (s : Sealer M τ) : IoError × Sealer M τ :=
  (cause.toSharedIo, { s with phase := .failed cause })

/-- Take plaintext; the answer is its length. An empty piece changes nothing. -/
def write (data : Bytes) (s : Sealer M τ) : Except IoError Nat × Sealer M τ :=
  match s.phase.refusal? with
  | some e => (.error e.toIo, s)
  | none =>
    let n := data.length
    if n = 0 then (.ok 0, s)
    else
      match { s with pending := s.pending ++ data, plaintextLen := s.plaintextLen + n }.encode
          false with
      | (.ok (), s) => (.ok n, s)
      | (.error cause, s) =>
        match s.fail cause with
        | (e, s) => (.error e, s)

/-- Pass on what was written. A failure is not kept. -/
def flush (s : Sealer M τ) : Except IoError Unit × Sealer M τ :=
  match s.phase.refusal? with
  | some e => (.error e.toIo, s)
  | none =>
    match Output.flush s.output with
    | (r, output) => (r, { s with output })

/-- `close` without what follows from it: the final chunk, and a flush. -/
def encodeLast (s : Sealer M τ) : Except StreamError Unit × Sealer M τ :=
  match s.encode true with
  | (.error e, s) => (.error e, s)
  | (.ok (), s) =>
    match Output.flush s.output with
    | (.error e, output) => (.error (.io e), { s with output })
    | (.ok (), output) => (.ok (), { s with output })

/-- Write the final chunk and pass everything on. -/
def close (s : Sealer M τ) : Except StreamError Unit × Sealer M τ :=
  match s.phase.refusal? with
  | some e => (.error e, s)
  | none =>
    match s.encodeLast with
    | (.ok (), s) =>
      (.ok (), { s with phase := .ended
                        events := s.events.push (.sealerClosed s.chunks s.plaintextLen) })
    | (.error cause, s) =>
      match s.fail cause with
      | (e, s) => (.error (.io e), s)

/-- Close the container if it is still open, and pass everything on. -/
def finish (s : Sealer M τ) : Except StreamError Unit × Sealer M τ :=
  match s.phase with
  | .failed cause => (.error (.io cause.toSharedIo), s)
  | .running | .ended =>
    match if s.phase.isEnded then (.ok (), s) else s.close with
    | (.error e, s) => (.error e, s)
    | (.ok (), s) =>
      match Output.drain s.output with
      | (.error e, output) => (.error (.io e), { s with output })
      | (.ok (), output) => (.ok (), { s with output })

/-- The output of a container that is given up, after an attempt to pass on what was written. -/
def abandon (s : Sealer M τ) : τ := (Output.drain s.output).2

end Sealer

end SealedStream
