import SealedStream.Words
/-!
# Randomness

* `Entropy` is an endless stream of random octets, read from a position on. All that is random in
  a session comes from one.
* `Mixer` is the generator xoshiro256++, seeded with one word. Its output is no secret: it only
  tells nonces apart.
-/
namespace SealedStream

/-! ## Entropy -/

/-- An endless stream of octets, and how many of them were used. -/
structure Entropy where
  octet : Nat → UInt8
  position : Nat := 0
  deriving Inhabited

namespace Entropy

def fill (n : Nat) (e : Entropy) : Bytes × Entropy :=
  ((List.range n).map fun i => e.octet (e.position + i), { e with position := e.position + n })

/-- The next word of 64 bits, least significant octet first. -/
def word (e : Entropy) : UInt64 × Entropy :=
  match e.fill 8 with
  | (bs, e) => (UInt64.ofNat bs.toNatLE, e)

/-- The stream of a script; behind the script come the high octets of the multiples of the golden
ratio. -/
def scripted (script : Array UInt8) : Entropy where
  octet p :=
    match script[p]? with
    | some b => b
    | none => ((UInt64.ofNat (p + 1) * 0x9E3779B97F4A7C15) >>> 56).toUInt8

@[simp] theorem length_fill (n : Nat) (e : Entropy) : (e.fill n).1.length = n := by simp [fill]

end Entropy

/-! ## Mixer -/

/-- The state of xoshiro256++. -/
structure Mixer where
  s0 : UInt64
  s1 : UInt64
  s2 : UInt64
  s3 : UInt64
  deriving DecidableEq, Repr

namespace Mixer

/-- The next state of the PCG32 generator that spreads a seed. -/
def spread (state : UInt64) : UInt64 := state * 6364136223846793005 + 11634580027462260723

/-- The output of PCG32 in a state. -/
def spreadWord (state : UInt64) : UInt32 :=
  let x := (((state >>> 18) ^^^ state) >>> 27).toUInt32
  let r := (state >>> 59).toUInt32
  (x >>> r) ||| (x <<< ((32 - r) % 32))

/-- Two outputs of PCG32 as one word, the first one lower, and the state after them. -/
def spreadPair (state : UInt64) : UInt64 × UInt64 :=
  let s := spread state
  let t := spread s
  ((spreadWord s).toUInt64 ||| ((spreadWord t).toUInt64 <<< 32), t)

def seeded (seed : UInt64) : Mixer :=
  match spreadPair seed with
  | (s0, seed) =>
    match spreadPair seed with
    | (s1, seed) =>
      match spreadPair seed with
      | (s2, seed) => ⟨s0, s1, s2, (spreadPair seed).1⟩

def next (m : Mixer) : UInt64 × Mixer :=
  let out := rotl64 (m.s0 + m.s3) 23 + m.s0
  let t := m.s1 <<< 17
  let s2 := m.s2 ^^^ m.s0
  let s3 := m.s3 ^^^ m.s1
  let s1 := m.s1 ^^^ s2
  let s0 := m.s0 ^^^ s3
  (out, ⟨s0, s1, s2 ^^^ t, rotl64 s3 45⟩)

end Mixer

end SealedStream
