import SealedStream.Entropy
/-!
# Nonces

Each chunk of an authenticated container has a nonce and associated data of its own. A
`NonceChain` is a random string of both together; before each chunk it is changed by the output of
a `Mixer`.

* `NonceChain.start?` is a chain of given lengths, if their sum is a number of 64 bits.
* `NonceChain.mask` is what one step changes, which depends on the mixer and the length alone.
* `NonceChain.advance` is the step.
-/
namespace SealedStream

/-- The nonce and the associated data of a chunk, and the generator that changes them. -/
structure NonceChain where
  octets : Bytes
  nonceSize : Nat
  mixer : Mixer

namespace NonceChain

/-- A chain that takes its first string and its seed from the entropy, if the sum of the lengths is
not too large. -/
def start (nonceSize associatedLen : Nat) (e : Entropy) : NonceChain × Entropy :=
  match e.fill (nonceSize + associatedLen) with
  | (octets, e) =>
    match e.word with
    | (seed, e) => ({ octets, nonceSize, mixer := .seeded seed }, e)

/-- `NonceChain.start` with a checked sum: where it is too large, there is no chain. -/
def start? (nonceSize associatedLen : Nat) (e : Entropy) : Option (NonceChain × Entropy) := do
  let len ← addWord? nonceSize associatedLen
  let (octets, e) := e.fill len
  let (seed, e) := e.word
  return ({ octets, nonceSize, mixer := .seeded seed }, e)

theorem start?_eq {n a : Nat} (h : n + a ≤ wordMax) (e : Entropy) :
    start? n a e = some (start n a e) := by
  rw [start?, addWord?_eq h]
  rfl

theorem start?_eq_none {n a : Nat} (h : wordMax < n + a) (e : Entropy) : start? n a e = none := by
  rw [start?, addWord?_eq_none_iff.2 h]
  rfl

theorem start?_eq_some_iff {n a : Nat} {e : Entropy} {r : NonceChain × Entropy} :
    start? n a e = some r ↔ n + a ≤ wordMax ∧ start n a e = r := by
  rcases Nat.lt_or_ge wordMax (n + a) with hlt | hle
  · simp [start?_eq_none hlt, Nat.not_le.2 hlt]
  · simp [start?_eq hle, hle]

theorem start?_eq_none_iff {n a : Nat} {e : Entropy} : start? n a e = none ↔ wordMax < n + a := by
  rw [Option.eq_none_iff_forall_ne_some]
  simp [start?_eq_some_iff]

/-- A draw from the mixer: its upper 63 bits, three times. -/
def draw (m : Mixer) : UInt64 × Mixer :=
  match m.next with
  | (w, m) => ((w >>> 1) * 3, m)

def draws : (n : Nat) → Mixer → Bytes × Mixer
  | 0, m => ([], m)
  | n + 1, m =>
    match draw m with
    | (w, m) =>
      match draws n m with
      | (bs, m) => (Bytes.ofNatLE 8 w.toNat ++ bs, m)

/-- What a step changes in a string of length `len`: the octets of as many draws as it takes. -/
def mask (len : Nat) (m : Mixer) : Bytes × Mixer :=
  match draws ((len + 7) / 8) m with
  | (bs, m) => (bs.take len, m)

def advance (c : NonceChain) : NonceChain :=
  match mask c.octets.length c.mixer with
  | (bs, mixer) => { c with octets := Bytes.xor c.octets bs, mixer }

def nonce (c : NonceChain) : Bytes := c.octets.take c.nonceSize

def associatedData (c : NonceChain) : Bytes := c.octets.drop c.nonceSize

@[simp] theorem nonce_append_associatedData (c : NonceChain) :
    c.nonce ++ c.associatedData = c.octets := List.take_append_drop _ _

end NonceChain

end SealedStream
