import SealedStream.Bytes
import SealedStream.Curve.Weierstrass
import SealedStream.Failure.Suite
/-!
# Keys

Keys are handed around together with the name of the algorithm they were loaded for. The name is
what a key ring goes by; whether a key is of the right kind shows when it is used.

* `KeyPair` are the octets of two keys that belong together.
* `PublicKey` and `PrivateKey` are keys as they are used. A handle may also hold a number, which
  is no key of any algorithm.
-/
namespace SealedStream

/-- The octets of a public key and the private one. -/
structure KeyPair where
  publicKey : Bytes
  privateKey : Bytes
  deriving DecidableEq, Repr

def KeyPair.describe (k : KeyPair) : String :=
  "KeyPair \x7b public: " ++ toString k.publicKey.length ++ ", private: \"[REDACTED]\" \x7d"

def SuiteError.foreignKey (role expected : String) : SuiteError :=
  .invalidKeyObject (role ++ " key is not a " ++ expected ++ " key")

/-! ## Public keys -/

/-- What a handle of a public key holds. -/
inductive PublicObject where
  | x25519 (u : Bytes)
  | point (curve : WeierstrassCurve) (q : CurvePoint)
  | number (n : Nat)
  deriving DecidableEq, Repr

/-- A public key. -/
structure PublicKey where
  algorithm : String
  object : PublicObject
  deriving DecidableEq, Repr

namespace PublicKey

def x25519 (k : PublicKey) (expected : String) : Except SuiteError Bytes :=
  match k.object with
  | .x25519 u => .ok u
  | _ => .error (.foreignKey "public" expected)

def point (k : PublicKey) (curve : WeierstrassCurve) (expected : String) :
    Except SuiteError CurvePoint :=
  match k.object with
  | .point c q => if c = curve then .ok q else .error (.foreignKey "public" expected)
  | _ => .error (.foreignKey "public" expected)

def number (k : PublicKey) (expected : String) : Except SuiteError Nat :=
  match k.object with
  | .number n => .ok n
  | _ => .error (.foreignKey "public" expected)

def describe (k : PublicKey) : String :=
  "PublicKey \x7b algorithm: " ++ Text.quote k.algorithm ++ ", .. \x7d"

end PublicKey

/-! ## Private keys -/

/-- What a handle of a private key holds. -/
inductive PrivateObject where
  | x25519 (k : Bytes)
  | scalar (curve : WeierstrassCurve) (k : Nat)
  | number (n : Nat)
  deriving DecidableEq, Repr

/-- A private key. -/
structure PrivateKey where
  algorithm : String
  object : PrivateObject
  deriving DecidableEq, Repr

namespace PrivateKey

def x25519 (k : PrivateKey) (expected : String) : Except SuiteError Bytes :=
  match k.object with
  | .x25519 s => .ok s
  | _ => .error (.foreignKey "private" expected)

def scalar (k : PrivateKey) (curve : WeierstrassCurve) (expected : String) :
    Except SuiteError Nat :=
  match k.object with
  | .scalar c s => if c = curve then .ok s else .error (.foreignKey "private" expected)
  | _ => .error (.foreignKey "private" expected)

def number (k : PrivateKey) (expected : String) : Except SuiteError Nat :=
  match k.object with
  | .number n => .ok n
  | _ => .error (.foreignKey "private" expected)

def describe (k : PrivateKey) : String :=
  "PrivateKey \x7b algorithm: " ++ Text.quote k.algorithm ++ ", key: \"[REDACTED]\" \x7d"

end PrivateKey

end SealedStream
