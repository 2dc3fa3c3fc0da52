import SealedStream.Failure.Stream
/-!
# Outputs

Where containers are written to.

* A `Sink` accepts as much as it likes of what it is offered, or interrupts, or fails; `patience`
  bounds its interruptions in a row.
* An `Output` takes whole pieces. Memory (`Array UInt8`) is one that takes everything; a
  `BufferedSink` collects small pieces before it offers them to its sink.
* `drive` offers octets to a sink until all are accepted or the sink fails, and keeps account of
  what was accepted; `accepted_drive` is its law: nothing is lost, doubled or reordered.
-/
namespace SealedStream

/-! ## Sinks -/

/-- The answer of a sink to an offer. -/
inductive WriteAnswer where
  /-- The first `n` of the offered octets were accepted. -/
  | accepted (n : Nat)
  | interrupted
  | failed (e : IoError)

/-- A device that takes octets as it likes. -/
class Sink (σ : Type) where
  write : Bytes → σ → WriteAnswer × σ
  /-- Ask for everything accepted to be made final. -/
  flush : σ → Except IoError Unit × σ
  /-- A bound on the number of interruptions in a row. -/
  patience : σ → Nat
  patience_interrupted {bs : Bytes} {s s' : σ} (h : write bs s = (.interrupted, s')) :
    patience s' < patience s

/-! ## Outputs -/

/-- A taker of whole pieces. -/
class Output (τ : Type) where
  write : Bytes → τ → Except IoError Unit × τ
  /-- Pass everything on that was taken, and ask for it to be made final. -/
  flush : τ → Except IoError Unit × τ
  drain : τ → Except IoError Unit × τ

/-- Memory takes everything at once. -/
instance : Output (Array UInt8) where
  write bs a := (.ok (), a ++ bs)
  flush a := (.ok (), a)
  drain a := (.ok (), a)

/-! ## Driving a sink -/

/-- How an attempt to hand octets to a sink ended. -/
structure Driven (σ : Type) where
  result : Except IoError Unit
  rest : Bytes
  sink : σ
  /-- The octets that the sink has accepted up to now. -/
  accepted : Array UInt8

section
variable {σ : Type} [Sink σ]

/-- Offer octets to a sink until it has accepted all of them or fails. Interrupted offers are
repeated; a sink that accepts nothing has failed, with the text `stalled`. -/
def drive (stalled : String) (bs : Bytes) (s : σ) (accepted : Array UInt8) : Driven σ :=
  if bs = [] then ⟨.ok (), [], s, accepted⟩
  else
    match _h : Sink.write bs s with
    | (.accepted 0, s) => ⟨.error (.plain .writeZero (some stalled)), bs, s, accepted⟩
    | (.accepted (n + 1), s) =>
      drive stalled (bs.drop (n + 1)) s (accepted ++ bs.take (n + 1))
    | (.interrupted, s) => drive stalled bs s accepted
    | (.failed e, s) => ⟨.error e, bs, s, accepted⟩
termination_by (bs.length, Sink.patience s)
decreasing_by
  · apply Prod.Lex.left
    have : 0 < bs.length := List.length_pos_iff.2 (by assumption)
    simp only [List.length_drop]
    omega
  · exact Prod.Lex.right _ (Sink.patience_interrupted (by assumption))

/-- Nothing is lost, doubled or reordered between a caller and a sink. -/
theorem accepted_drive (stalled : String) (bs : Bytes) (s : σ) (accepted : Array UInt8) :
    (drive stalled bs s accepted).accepted.toList ++ (drive stalled bs s accepted).rest =
      accepted.toList ++ bs := by
  fun_induction drive stalled bs s accepted with
  | case1 => rfl
  | case2 => rfl
  | case3 bs s accepted _ n s' _ ih => rw [ih]; simp
  | case4 bs s accepted _ s' _ ih => exact ih
  | case5 => rfl

/-- A sink that did not fail has accepted everything. -/
theorem rest_drive {stalled : String} {bs : Bytes} {s : σ} {accepted : Array UInt8}
    (h : (drive stalled bs s accepted).result = .ok ()) :
    (drive stalled bs s accepted).rest = [] := by
  fun_induction drive stalled bs s accepted with
  | case1 => rfl
  | case2 => cases h
  | case3 bs s accepted _ n s' _ ih => exact ih h
  | case4 bs s accepted _ s' _ ih => exact ih h
  | case5 => cases h

end

/-! ## Buffered sinks -/

/-- A sink with the octets that were not offered to it yet. -/
structure BufferedSink (σ : Type) where
  sink : σ
  /-- The octets that the sink has accepted up to now. -/
  accepted : Array UInt8 := #[]
  buffer : Array UInt8 := #[]
  /-- Once the buffer would reach this size, it is emptied. -/
  capacity : Nat

namespace BufferedSink
variable {σ : Type} [Sink σ]

/-- Empty the buffer into the sink. If the sink fails, what it did not accept stays. -/
def drain (b : BufferedSink σ) : Except IoError Unit × BufferedSink σ :=
  match b with
  | ⟨sink, accepted, buffer, capacity⟩ =>
    let d := drive "failed to write the buffered data" buffer.toList sink accepted
    (d.result, ⟨d.sink, d.accepted, d.rest.toArray, capacity⟩)

/-- Take a piece. A piece that leaves room in the buffer is kept there; for a longer one the
buffer is emptied first, and a piece that would fill a buffer of its own is offered directly. -/
def write (bs : Bytes) (b : BufferedSink σ) : Except IoError Unit × BufferedSink σ :=
  let room := b.capacity - b.buffer.size
  let len := bs.length
  if len < room then (.ok (), { b with buffer := b.buffer ++ bs })
  else
    match if room < len then b.drain else (.ok (), b) with
    | (.error e, b) => (.error e, b)
    | (.ok (), b) =>
      if b.capacity ≤ len then
        let d := drive "failed to write whole buffer" bs b.sink b.accepted
        (d.result, { b with sink := d.sink, accepted := d.accepted })
      else (.ok (), { b with buffer := b.buffer ++ bs })

/-- Empty the buffer into the sink and flush the sink. -/
def flush (b : BufferedSink σ) : Except IoError Unit × BufferedSink σ :=
  match b.drain with
  | (.error e, b) => (.error e, b)
  | (.ok (), b) =>
    match Sink.flush b.sink with
    | (result, s) => (result, { b with sink := s })

instance : Output (BufferedSink σ) where
  write := write
  flush := flush
  drain := drain

end BufferedSink

end SealedStream
