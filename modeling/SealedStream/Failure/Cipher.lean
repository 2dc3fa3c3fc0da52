/-!
# Failures of a keyed cipher

`CipherError` lists what can go wrong while a keyed cipher transforms the data of one chunk.
-/
namespace SealedStream

/-- Why a keyed cipher refused a call. -/
inductive CipherError where
  /-- The data of a block cipher is no whole number of blocks. -/
  | blockAlignment (len blockSize : Nat)
  | nonce (expected got : Nat)
  /-- A sealed message does not carry the tag of its contents. -/
  | authentication
  | encryption
  deriving DecidableEq, Repr

def CipherError.message : CipherError → String
  | .blockAlignment len blockSize =>
    "Block Alignment Error: " ++ toString len ++ " bytes is not a multiple of the " ++
      toString blockSize ++ "-byte block"
  | .nonce expected got =>
    "Nonce Error: expected at least " ++ toString expected ++ " bytes, got " ++ toString got
  | .authentication => "message authentication failed"
  | .encryption => "encryption failed"

end SealedStream
