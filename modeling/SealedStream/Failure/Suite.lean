import SealedStream.Text.Quoted
/-!
# Failures of an algorithm suite

`SuiteError` lists what can go wrong between the choice of two algorithms and the keyed cipher
that comes of it: look-ups, keys and the key exchange.
-/
namespace SealedStream

/-- Why no keyed cipher came of two algorithm names and a key. -/
inductive SuiteError where
  | unknownCipher (name : String)
  /-- No key exchange is registered under the name. -/
  | unknownPkAlgorithm (name : String)
  /-- A key handle holds a key of another algorithm. -/
  | invalidKeyObject (detail : String)
  /-- The bytes of a public or private key are refused. -/
  | malformedKey (detail : String)
  /-- The bytes of an opaque key-exchange value are refused. -/
  | malformedEncryptedKey (detail : String)
  | duplicateAlgorithm (name : String)
  | noPrivateKey (pkAlgo : String)
  | keyExchangeFailed (detail : String)
  | cipherInit (detail : String)
  deriving DecidableEq, Repr

namespace SuiteError

def message : SuiteError → String
  | .unknownCipher name => "Unknown Cipher Algorithm: " ++ name
  | .unknownPkAlgorithm name => "Unknown Public Key Algorithm: " ++ name
  | .invalidKeyObject detail => "Invalid Private/Public Key Object: " ++ detail
  | .malformedKey detail => "Malformed Private/Public Key: " ++ detail
  | .malformedEncryptedKey detail => "Malformed Encrypted Key: " ++ detail
  | .duplicateAlgorithm name => "algorithm " ++ Text.quote name ++ " is already registered"
  | .noPrivateKey pkAlgo => "no private key available for " ++ pkAlgo
  | .keyExchangeFailed detail => "key exchange failed: " ++ detail
  | .cipherInit detail => "cipher initialization failed: " ++ detail

def isUnknownAlgorithm : SuiteError → Bool
  | .unknownCipher _ | .unknownPkAlgorithm _ => true
  | _ => false

/-- Was a key, or the bytes of one, refused or missing? -/
def isKeyError : SuiteError → Bool
  | .invalidKeyObject _ | .malformedKey _ | .malformedEncryptedKey _ | .noPrivateKey _ => true
  | _ => false

end SuiteError

end SealedStream
