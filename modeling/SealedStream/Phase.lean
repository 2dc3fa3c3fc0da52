import SealedStream.Failure.Stream
/-!
# Phases

A stream runs until it is ended or fails. A failure is kept: whatever is asked of the stream
afterwards is answered with it.
-/
namespace SealedStream

/-- Where a stream is in its life. -/
inductive Phase where
  | running
  | ended
  | failed (cause : StreamError)

/-- The failure by which a stream in a phase answers everything. -/
def Phase.refusal? : Phase → Option StreamError
  | running => none
  | ended => some .closed
  | failed cause => some (.io cause.toSharedIo)

def Phase.isEnded : Phase → Bool
  | ended => true
  | _ => false

end SealedStream
