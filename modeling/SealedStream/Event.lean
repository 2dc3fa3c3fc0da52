import SealedStream.Failure.Stream
/-!
# Events

What a container operation reports about its course, besides its result. An `Event` says what
happened; `Event.level`, `Event.message` and `Event.fields` say how it is shown in a log.
-/
namespace SealedStream

/-- How much an event matters. -/
inductive Level where
  | trace
  | debug
  | warn
  deriving DecidableEq, Repr

/-- A value in an event. -/
inductive EventValue where
  | nat (n : Nat)
  | bool (b : Bool)
  | text (s : String)
  deriving DecidableEq, Repr

/-- Something that happened. -/
inductive Event where
  | registryBuilt (ciphers pkAlgorithms : Nat)
  /-- A key exchange gave a cipher to encrypt with. -/
  | encryptionStarted (pkAlgo cipher family : String) (exchangeLen : Nat)
  /-- A key exchange gave a cipher to decrypt with. -/
  | decryptionStarted (pkAlgo cipher family : String)
  | sealerOpened (pkAlgo cipher : String)
  /-- A call wrote its chunks, `chunks` so far. -/
  | chunksSealed (chunks : Nat) (last : Bool)
  | sealerClosed (chunks plaintextLen : Nat)
  | openerOpened (pkAlgo cipher : String)
  /-- The chunk number `chunk` gave `len` bytes of plaintext. -/
  | chunkOpened (chunk : Nat) (last : Bool) (len : Nat)
  | openerFinished (chunks : Nat)
  | openerFailed (error : String)
  /-- The padding of a final block of `len` bytes steps back by `run` from where it cannot. -/
  | paddingMalformed (len run : Nat)
  deriving DecidableEq, Repr

namespace Event

def level : Event → Level
  | .paddingMalformed .. => .warn
  | .chunksSealed .. | .chunkOpened .. => .trace
  | _ => .debug

def message : Event → String
  | .registryBuilt .. => "registry built"
  | .encryptionStarted .. => "encryption session started"
  | .decryptionStarted .. => "decryption session started"
  | .sealerOpened .. => "stream writer opened"
  | .chunksSealed .. => "chunks encoded"
  | .sealerClosed .. => "stream writer closed"
  | .openerOpened .. => "stream reader opened"
  | .chunkOpened .. => "chunk decoded"
  | .openerFinished .. => "stream reader finished"
  | .openerFailed .. => "stream reader failed"
  | .paddingMalformed .. => "malformed block padding, dropping final block"

def fields : Event → List (String × EventValue)
  | .registryBuilt ciphers pkAlgorithms =>
    [("ciphers", .nat ciphers), ("pk_algorithms", .nat pkAlgorithms)]
  | .encryptionStarted pkAlgo cipher family exchangeLen =>
    [("pk_algo", .text pkAlgo), ("cipher", .text cipher), ("family", .text family),
      ("opaque_len", .nat exchangeLen)]
  | .decryptionStarted pkAlgo cipher family =>
    [("pk_algo", .text pkAlgo), ("cipher", .text cipher), ("family", .text family)]
  | .sealerOpened pkAlgo cipher | .openerOpened pkAlgo cipher =>
    [("pk_algo", .text pkAlgo), ("cipher", .text cipher)]
  | .chunksSealed chunks last => [("chunks", .nat chunks), ("last", .bool last)]
  | .sealerClosed chunks plaintextLen =>
    [("chunks", .nat chunks), ("plaintext_len", .nat plaintextLen)]
  | .chunkOpened chunk last len => [("chunk", .nat chunk), ("last", .bool last), ("len", .nat len)]
  | .openerFinished chunks => [("chunks", .nat chunks)]
  | .openerFailed error => [("error", .text error)]
  | .paddingMalformed len run => [("len", .nat len), ("run", .nat run)]

end Event

end SealedStream
