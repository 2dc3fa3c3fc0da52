import SealedStream.Failure.Cipher
import SealedStream.Failure.Kind
import SealedStream.Failure.Suite
import SealedStream.Text.Utf8
/-!
# Failures of a stream

Three kinds of failure hold one another: a transport failure may carry the failure of another
stream, a malformed record may be due to the transport, and a stream fails for either reason.

* `IoError` is a failure of a transport, `WireError` one of reading or writing records, and
  `StreamError` one of a whole container.
* `StreamError.innermost` looks through transport failures for the failure that was first;
  `innermost_innermost` says that it finds it at once.
* `StreamError.isIntegrityError` tells a damaged container from other trouble.
-/
namespace SealedStream

mutual

/-- A failure of a transport. -/
inductive IoError where
  /-- A failure with a text of its own, or with the text of its kind. -/
  | plain (kind : IoKind) (text : Option String)
  /-- A failure on behalf of a stream that had failed; `shared` if the stream keeps the cause. -/
  | carrying (kind : IoKind) (shared : Bool) (cause : StreamError)

/-- A failure to read or write a record. -/
inductive WireError where
  | io (e : IoError)
  /-- An item begins with a marker that no `expected` item begins with. -/
  | unexpectedMarker (expected : String) (found : UInt8)
  | arrayLength (expected got : Nat)
  | fieldTooLarge (len max : Nat)
  | invalidUtf8 (defect : Utf8.Defect)
  | unencodable (len : Nat)

/-- A failure to write or read a container. -/
inductive StreamError where
  | suite (e : SuiteError)
  | cipher (e : CipherError)
  | wire (e : WireError)
  | io (e : IoError)
  | truncated
  | closed
  | invalidConfig (reason : String)

end

/-! ## Texts -/

mutual

/-- The text of a transport failure: that of its cause, if it carries one. -/
def IoError.message : IoError → String
  | .plain kind text => text.getD kind.text
  | .carrying _ _ cause => cause.message

def WireError.message : WireError → String
  | .io e => "IO error: " ++ e.message
  | .unexpectedMarker expected found =>
    let digits := Text.hexDigits found.toNat
    "unexpected marker 0x" ++ (if digits.length < 2 then "0" ++ digits else digits) ++
      " while decoding " ++ expected
  | .arrayLength expected got =>
    "record has " ++ toString got ++ " fields, expected " ++ toString expected
  | .fieldTooLarge len max =>
    "field of " ++ toString len ++ " bytes exceeds the limit of " ++ toString max ++ " bytes"
  | .invalidUtf8 defect => "field is not valid UTF-8: " ++ defect.message
  | .unencodable len => "field of " ++ toString len ++ " bytes cannot be encoded"

def StreamError.message : StreamError → String
  | .suite e => "Suite error: " ++ e.message
  | .cipher e => "Cipher error: " ++ e.message
  | .wire e => "Wire format error: " ++ e.message
  | .io e => "IO error: " ++ e.message
  | .truncated => "stream ended before the final chunk"
  | .closed => "stream is closed"
  | .invalidConfig reason => "invalid codec configuration: " ++ reason

end

/-! ## Transport failures -/

namespace IoError

def kind : IoError → IoKind
  | .plain kind _ => kind
  | .carrying kind _ _ => kind

/-- The stream failure that a transport failure carries. -/
def cause? : IoError → Option StreamError
  | .plain _ _ => none
  | .carrying _ _ cause => some cause

def unexpectedEof : IoError := .plain .unexpectedEof (some "failed to fill whole buffer")

end IoError

namespace WireError

def isEof : WireError → Bool
  | .io e => e.kind == .unexpectedEof
  | _ => false

end WireError

/-! ## Stream failures -/

namespace StreamError

/-- A record failure as a stream failure; that of the transport stays one of the transport. -/
def ofWire : WireError → StreamError
  | .io e => .io e
  | e => .wire e

/-- The failure that was first: transport failures are looked through while they carry one. -/
def innermost : StreamError → StreamError
  | .io (.carrying _ _ cause) => cause.innermost
  | e => e

/-- Did the container fail a check of its framing or its contents? -/
def isIntegrityError (e : StreamError) : Bool :=
  match e.innermost with
  | .cipher _ | .wire _ | .truncated | .suite (.malformedEncryptedKey _) => true
  | _ => false

/-- The kind under which a stream failure travels through a transport. -/
def ioKind : StreamError → IoKind
  | .io e => e.kind
  | .truncated => .unexpectedEof
  | .closed => .brokenPipe
  | .invalidConfig _ => .invalidInput
  | .suite _ | .cipher _ | .wire _ => .invalidData

/-- A failure that its stream keeps, as a transport failure. -/
def toSharedIo (e : StreamError) : IoError := .carrying e.ioKind true e

/-- A failure that its stream does not keep, as a transport failure: that of a transport stays
what it is. -/
def toIo : StreamError → IoError
  | .io e => e
  | e => .carrying e.ioKind false e

@[simp] theorem innermost_io_carrying (kind : IoKind) (shared : Bool) (e : StreamError) :
    (StreamError.io (.carrying kind shared e)).innermost = e.innermost := by
  rw [innermost]

@[simp] theorem innermost_innermost : ∀ e : StreamError, e.innermost.innermost = e.innermost
  | .io (.carrying _ _ cause) => by simp [innermost_innermost cause]
  | .io (.plain _ _) | .suite _ | .cipher _ | .wire _ | .truncated | .closed
  | .invalidConfig _ => rfl

end StreamError

end SealedStream
