import SealedStream.Cipher.Standard
import SealedStream.Event
import SealedStream.KeyExchange
import SealedStream.NameTable
/-!
# Registries

A `Registry` knows ciphers and key exchanges by name. `Registry.standard` holds the standard
algorithms.

A name is given once and for all, but a cipher and a key exchange may share one. A registration is
an action on a registry (`Registry.addCipher`, `Registry.addKeyExchange`), and `Registry.attempt`
gives how it ends and the registry behind it. `Registry.registerCipher` and
`Registry.registerKeyExchange` give the registry where it is made.
-/
namespace SealedStream

/-- Ciphers and key exchanges by name. -/
structure Registry (M : Modes) where
  ciphers : NameTable (CipherDriver M) := {}
  keyExchanges : NameTable KeyExchange := {}

namespace Registry
variable {M : Modes}

/-! ## Registering -/

/-- Something to register, with its name. -/
inductive Registration (M : Modes) where
  | cipher (name : String) (d : CipherDriver M)
  | keyExchange (name : String) (x : KeyExchange)

/-- An action on a registry, which may be refused. -/
abbrev Registering (M : Modes) := ExceptT SuiteError (StateM (Registry M))

def addCipher (name : String) (d : CipherDriver M) : Registering M Unit := do
  if (← get).ciphers.contains name then throw (.duplicateAlgorithm name)
  modify fun r => { r with ciphers := r.ciphers.insert name d }

def addKeyExchange (name : String) (x : KeyExchange) : Registering M Unit := do
  if (← get).keyExchanges.contains name then throw (.duplicateAlgorithm name)
  modify fun r => { r with keyExchanges := r.keyExchanges.insert name x }

def add : Registration M → Registering M Unit
  | .cipher name d => addCipher name d
  | .keyExchange name x => addKeyExchange name x

/-- How a registration ends, and the registry behind it. -/
def attempt (r : Registry M) (a : Registration M) : Except SuiteError Unit × Registry M :=
  (add a).run.run r

/-- A name that is taken is refused before the registry is changed. -/
theorem attempt_cipher (r : Registry M) (name : String) (d : CipherDriver M) :
    r.attempt (.cipher name d) =
      if r.ciphers.contains name then (.error (.duplicateAlgorithm name), r)
      else (.ok (), { r with ciphers := r.ciphers.insert name d }) :=
  apply_ite (fun x : Registering M Unit => x.run.run r) _ _ _

theorem attempt_keyExchange (r : Registry M) (name : String) (x : KeyExchange) :
    r.attempt (.keyExchange name x) =
      if r.keyExchanges.contains name then (.error (.duplicateAlgorithm name), r)
      else (.ok (), { r with keyExchanges := r.keyExchanges.insert name x }) :=
  apply_ite (fun x : Registering M Unit => x.run.run r) _ _ _

/-- The registry behind a registration that is made. -/
def register (r : Registry M) (a : Registration M) : Except SuiteError (Registry M) :=
  match r.attempt a with
  | (.ok (), r) => .ok r
  | (.error e, _) => .error e

def registerCipher (r : Registry M) (name : String) (d : CipherDriver M) :
    Except SuiteError (Registry M) := r.register (.cipher name d)

def registerKeyExchange (r : Registry M) (name : String) (x : KeyExchange) :
    Except SuiteError (Registry M) := r.register (.keyExchange name x)

/-- What is reported when a registry is complete. -/
def built (r : Registry M) : Event := .registryBuilt r.ciphers.size r.keyExchanges.size

/-! ## Looking up -/

def cipher (r : Registry M) (name : String) : Except SuiteError (CipherDriver M) :=
  match r.ciphers.get? name with
  | some d => .ok d
  | none => .error (.unknownCipher name)

def keyExchange (r : Registry M) (name : String) : Except SuiteError KeyExchange :=
  match r.keyExchanges.get? name with
  | some x => .ok x
  | none => .error (.unknownPkAlgorithm name)

def describe (r : Registry M) : String :=
  "Registry \x7b ciphers: " ++ Text.quoteList r.ciphers.names ++ ", pk_algorithms: " ++
    Text.quoteList r.keyExchanges.names ++ " \x7d"

/-! ## Keys -/

/-- A fresh pair of keys for the key exchange with a name. -/
def generateKeyPair (r : Registry M) (pkAlgo : String) (e : Entropy) :
    Except SuiteError (KeyPair × Entropy) := do
  let x ← r.keyExchange pkAlgo
  return x.generate e

/-- Read a public key for the key exchange with a name. -/
def loadPublic (r : Registry M) (pkAlgo : String) (bs : Bytes) : Except SuiteError PublicKey := do
  let x ← r.keyExchange pkAlgo
  x.loadPublic bs

/-- Read a private key for the key exchange with a name. -/
def loadPrivate (r : Registry M) (pkAlgo : String) (bs : Bytes) :
    Except SuiteError PrivateKey := do
  let x ← r.keyExchange pkAlgo
  x.loadPrivate bs

def standard : Registry .standard := ⟨.ofList standardCiphers, .ofList standardKeyExchanges⟩

end Registry

end SealedStream
