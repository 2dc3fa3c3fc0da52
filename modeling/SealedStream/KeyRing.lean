import SealedStream.KeyHandle
import SealedStream.NameTable
/-!
# Key rings

A `KeyRing` finds the private key for a received exchange value, and may put another exchange
value in its place.

* `KeyRing.single` always gives the same key.
* `AlgorithmKeys` holds a key for each algorithm, `AlgorithmKeys.ring` finds them.
* `KeyRing.translating` knows the exchange values behind the received ones.
-/
namespace SealedStream

/-- A way to find a private key. -/
structure KeyRing where
  /-- The exchange value and the key for a received exchange value and an algorithm. -/
  find : (exchange : Bytes) → (pkAlgo : String) → Except SuiteError (Bytes × PrivateKey)

def KeyRing.single (k : PrivateKey) : KeyRing := ⟨fun exchange _ => .ok (exchange, k)⟩

/-- The key ring that puts the value that a received one is paired with in its place; of several
pairs the first one counts. -/
def KeyRing.translating (pairs : List (Bytes × Bytes)) (k : PrivateKey) : KeyRing :=
  ⟨fun exchange pkAlgo =>
    match pairs.lookup exchange with
    | some exchange => .ok (exchange, k)
    | none => .error (.malformedEncryptedKey ("unknown key id for " ++ pkAlgo))⟩

/-- A private key for each of some algorithms. -/
structure AlgorithmKeys where
  table : NameTable PrivateKey := {}

namespace AlgorithmKeys

/-- Add a key under the algorithm it bears, in place of the one that is there. -/
def insert (ks : AlgorithmKeys) (k : PrivateKey) : AlgorithmKeys := ⟨ks.table.insert k.algorithm k⟩

def contains (ks : AlgorithmKeys) (pkAlgo : String) : Bool := (ks.table.get? pkAlgo).isSome

def size (ks : AlgorithmKeys) : Nat := ks.table.size

def key (ks : AlgorithmKeys) (pkAlgo : String) : Except SuiteError PrivateKey :=
  match ks.table.get? pkAlgo with
  | some k => .ok k
  | none => .error (.noPrivateKey pkAlgo)

def ring (ks : AlgorithmKeys) : KeyRing :=
  ⟨fun exchange pkAlgo => do
    let k ← ks.key pkAlgo
    return (exchange, k)⟩

end AlgorithmKeys

end SealedStream
