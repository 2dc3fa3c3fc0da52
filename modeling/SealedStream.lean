import SealedStream.Failure
import SealedStream.Opener
import SealedStream.Proofs.Cutting
import SealedStream.Proofs.Opening
import SealedStream.Sealer
import SealedStream.Transport.Scripted
import SealedStream.Wire.Container
import SealedStream.Proofs.Encoding
import SealedStream.Proofs.Sealing
import SealedStream.Proofs.RoundTrip
import SealedStream.Proofs.FieldLimits
import SealedStream.Proofs.Integrity
import SealedStream.Proofs.Delimiting
import SealedStream.Proofs.Decoding
import SealedStream.Proofs.Truncation
import SealedStream.Proofs.Chunking
import SealedStream.Proofs.Trailing
import SealedStream.Proofs.Faults
import SealedStream.Proofs.Grammar
import SealedStream.Proofs.Rereading
import SealedStream.Proofs.Partition
import SealedStream.Proofs.Curve.Powers
import SealedStream.Proofs.Agreement
import SealedStream.Proofs.Curve.Certificate
import SealedStream.Proofs.Curve.Orders
import SealedStream.Proofs.Curve.Ladder
import SealedStream.Proofs.Filling
import SealedStream.Proofs.Traces
import SealedStream.Proofs.Coverage
import SealedStream.Proofs.Cipher.Calls
import SealedStream.Proofs.KeyLookup
import SealedStream.Proofs.Cipher.Sealed
import SealedStream.Proofs.Padding
import SealedStream.Proofs.Classification
import SealedStream.Proofs.Wrapping
import SealedStream.Proofs.Piecewise
import SealedStream.Proofs.Placement
import SealedStream.Proofs.Nonces
import SealedStream.Proofs.Curve.Roots
import SealedStream.Proofs.Curve.Encodings
import SealedStream.Proofs.Exchange
import SealedStream.Proofs.Registrations
import SealedStream.Proofs.WordSums
import SealedStream.Proofs.SalsaRounds
import SealedStream.Proofs.SettingsTexts
