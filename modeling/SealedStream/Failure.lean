import SealedStream.Failure.Stream
/-!
# Failures as a caller sees them

`Failure` unites the failures of every layer for a caller who wants to know what to do about one
and not where it arose. Whatever route a failure took, its classification looks at the failure
that was first.

* `Failure.suiteError?` is the suite failure behind a failure, if there is one.
* `Failure.isIntegrityError` says that the container is to blame.
* `Failure.suggestion` is the advice to the caller.
-/
namespace SealedStream

/-- A failure of any layer. -/
inductive Failure where
  | stream (e : StreamError)
  /-- A failure that the stream it arose in keeps and reports again. -/
  | latched (e : StreamError)
  | suite (e : SuiteError)
  | cipher (e : CipherError)
  | wire (e : WireError)

namespace Failure

/-- A transport failure as a failure: the stream failure it carries, if any. -/
def ofIo : IoError → Failure
  | .carrying _ true cause => .latched cause
  | .carrying _ false cause => .stream cause
  | e => .stream (.io e)

def message : Failure → String
  | .stream e | .latched e => "Stream error: " ++ e.message
  | .suite e => "Algorithm suite error: " ++ e.message
  | .cipher e => "Cipher error: " ++ e.message
  | .wire e => "Wire format error: " ++ e.message

/-- The stream failure behind a failure, looked through to the first one. -/
def streamError? : Failure → Option StreamError
  | .stream e | .latched e => some e.innermost
  | _ => none

def suiteError? : Failure → Option SuiteError
  | .suite e => some e
  | f =>
    match f.streamError? with
    | some (.suite e) => some e
    | _ => none

/-- Was an algorithm looked up that is not registered? -/
def isUnknownAlgorithm (f : Failure) : Bool := f.suiteError?.any SuiteError.isUnknownAlgorithm

def isKeyError (f : Failure) : Bool := f.suiteError?.any SuiteError.isKeyError

/-- Did the failure arise before there was a keyed cipher? -/
def isSuiteError (f : Failure) : Bool := f.suiteError?.isSome

/-- Was the container cut short, malformed or changed? -/
def isIntegrityError : Failure → Bool
  | .cipher _ | .wire _ => true
  | f => f.streamError?.any StreamError.isIntegrityError

/-- What the caller can do about a suite failure. -/
def adviceOnSuite : SuiteError → Option String
  | .unknownCipher _ | .unknownPkAlgorithm _ =>
    some "Check the identifier and the enabled cargo features"
  | .noPrivateKey _ => some "Add a private key for this algorithm to the key-ring"
  | .invalidKeyObject _ => some "Load the key through the same algorithm used for the session"
  | _ => none

def suggestion (f : Failure) : Option String :=
  match f.suiteError? with
  | some e => adviceOnSuite e
  | none =>
    if f.isIntegrityError then
      some "The container is corrupted or was encrypted for a different key"
    else
      match f.streamError? with
      | some .closed => some "Create a new writer for each container"
      | _ => none

end Failure

end SealedStream
