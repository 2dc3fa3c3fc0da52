import SealedStream.Padding
import SealedStream.Phase
import SealedStream.Session
import SealedStream.Settings
import SealedStream.Transport.Input
/-!
# Reading containers

An `Opener` reads a container from an input, a chunk at a time and only as far as plaintext is
asked for.

* `KeyedCipher.decryptChunk` is the plaintext of a chunk, for each family of ciphers.
* `Opener.start` reads the preamble.
* `Opener.step` reads the next chunk. Plaintext from before a failure is given out before the
  failure shows.
* `Opener.read` and `Opener.readAll` give out plaintext.
-/
namespace SealedStream

/-! ## Decrypting a chunk -/

/-- What comes of a chunk. -/
structure DecryptedChunk (M : Modes) where
  result : Except CipherError Bytes
  cipher : KeyedCipher M
  events : List Event := []

namespace KeyedCipher
variable {M : Modes}

/-- The plaintext of a chunk for a block cipher. The last block of the final chunk is padded. -/
def decryptBlocks (chunk : Chunk) (c : M.Block) : DecryptedChunk M :=
  let size := BlockMode.blockSize c
  let len := chunk.data.length
  if size = 0 ∨ len % size ≠ 0 then ⟨.error (.blockAlignment len size), .block c, []⟩
  else
    match BlockMode.crypt chunk.data c with
    | (.error e, c) => ⟨.error e, .block c, []⟩
    | (.ok data, c) =>
      if chunk.last ∧ 0 < data.length then
        let head := data.length - size
        let stripped := Padding.strip (data.drop head)
        ⟨.ok (data.take (head + stripped.kept)), .block c, stripped.events size⟩
      else ⟨.ok data, .block c, []⟩

/-- The plaintext of a chunk. The nonce of a chunk for an authenticated cipher is followed by the
associated data. -/
def decryptChunk (chunk : Chunk) : KeyedCipher M → DecryptedChunk M
  | .block c => decryptBlocks chunk c
  | .stream c =>
    match StreamMode.crypt chunk.data c with
    | (r, c) => ⟨r, .stream c, []⟩
  | .aead c =>
    let size := AeadMode.nonceSize c
    let got := chunk.nonce.length
    if got < size then ⟨.error (.nonce size got), .aead c, []⟩
    else
      match AeadMode.decrypt (chunk.nonce.take size) chunk.data (chunk.nonce.drop size) c with
      | (r, c) => ⟨r, .aead c, []⟩

end KeyedCipher

/-! ## Openers -/

/-- A container that is being read. -/
structure Opener (M : Modes) (ι : Type) where
  input : ι
  cipher : KeyedCipher M
  preamble : Preamble
  limit : Nat
  plaintext : Bytes := []
  phase : Phase := .running
  chunks : Nat := 0
  events : Array Event

/-- A failure to read a record, as one of the container: an end inside a record cuts it short. -/
def StreamError.ofRecord (e : WireError) : StreamError := if e.isEof then .truncated else .ofWire e

namespace Opener
variable {M : Modes} {ι : Type}

/-! ## Taking a chunk -/

def fail (cause : StreamError) (o : Opener M ι) : Opener M ι :=
  { o with phase := .failed cause, events := o.events.push (.openerFailed cause.message) }

def receive (c : Chunk) (o : Opener M ι) : Opener M ι :=
  let u := o.cipher.decryptChunk c
  let o := { o with cipher := u.cipher, events := o.events ++ u.events }
  match u.result with
  | .error e => o.fail (.cipher e)
  | .ok plaintext =>
    let chunks := o.chunks + 1
    let events := o.events.push (.chunkOpened chunks c.last plaintext.length)
    if c.last then
      { o with plaintext, chunks, phase := .ended, events := events.push (.openerFinished chunks) }
    else { o with plaintext, chunks, events }

theorem input_receive (c : Chunk) (o : Opener M ι) : (o.receive c).input = o.input := by
  unfold receive
  dsimp only
  split
  · rfl
  · split <;> rfl

variable [Input ι]

/-! ## Beginning -/

/-- Begin to read a container with the cipher that a decrypter finds for its preamble. -/
def start (s : Settings) (decrypter : Decrypter M) (input : ι) :
    Except StreamError (Opener M ι) := do
  s.validate
  match (Preamble.decoder s.maxFieldLen).run input with
  | (.error e, _) => throw (.ofRecord e)
  | (.ok preamble, input) =>
    match decrypter preamble with
    | .error e => throw (.suite e)
    | .ok session =>
      let opened := Event.openerOpened preamble.pkAlgo preamble.encoding
      return { input, cipher := session.cipher, preamble, limit := s.maxFieldLen,
               events := (session.events ++ [opened]).toArray }

/-! ## Chunks -/

/-- The next chunk; there has to be one. -/
def nextChunk (limit : Nat) (input : ι) : Except StreamError Chunk × ι :=
  match (Chunk.nextDecoder limit).run input with
  | (.ok (some c), input) => (.ok c, input)
  | (.ok none, input) => (.error .truncated, input)
  | (.error e, input) => (.error (.ofRecord e), input)

/-- Read the next chunk, once all plaintext is given out. -/
def step (o : Opener M ι) : Opener M ι :=
  match nextChunk o.limit o.input with
  | (.error cause, input) => { o with input }.fail cause
  | (.ok c, input) => { o with input }.receive c

/-- A bound on the number of steps that an opener can still do. -/
def stepsLeft (o : Opener M ι) : Nat :=
  match o.phase with
  | .running => Input.remaining o.input + 1
  | _ => 0

theorem remaining_nextChunk_lt {limit : Nat} {i i' : ι} {c : Chunk}
    (h : nextChunk limit i = (.ok c, i')) : Input.remaining i' < Input.remaining i := by
  unfold nextChunk at h
  split at h
  · next hr =>
    cases h
    have h : Input.remaining ((Chunk.nextDecoder limit).run i).2 < Input.remaining i :=
      Chunk.remaining_nextDecoder_lt (c := c) (by rw [hr])
    rwa [hr] at h
  · cases h
  · cases h

theorem stepsLeft_le (o : Opener M ι) : o.stepsLeft ≤ Input.remaining o.input + 1 := by
  unfold stepsLeft
  split <;> simp

theorem stepsLeft_step_lt {o : Opener M ι} (h : o.phase = .running) :
    o.step.stepsLeft < o.stepsLeft := by
  have ho : o.stepsLeft = Input.remaining o.input + 1 := by rw [stepsLeft, h]
  rw [ho, step]
  split
  · exact Nat.succ_pos _
  · next c input hc =>
    have h₁ := remaining_nextChunk_lt hc
    have h₂ := stepsLeft_le ({ o with input }.receive c)
    rw [input_receive] at h₂
    exact Nat.lt_of_le_of_lt h₂ (Nat.succ_lt_succ h₁)

/-! ## Reading -/

/-- `read` with the octets that were given out already. -/
def readInto (done : Array UInt8) (n : Nat) (o : Opener M ι) :
    Except IoError Bytes × Opener M ι :=
  if n = 0 then (.ok done.toList, o)
  else if o.plaintext ≠ [] then
    let given := o.plaintext.take n
    readInto (done ++ given) (n - given.length) { o with plaintext := o.plaintext.drop n }
  else
    match _h : o.phase with
    | .running => readInto done n o.step
    | .ended => (.ok done.toList, o)
    | .failed cause => (if done.isEmpty then .error cause.toSharedIo else .ok done.toList, o)
termination_by (n, o.stepsLeft)
decreasing_by
  · apply Prod.Lex.left
    have : 0 < o.plaintext.length := List.length_pos_iff.2 (by assumption)
    rw [List.length_take]
    omega
  · exact Prod.Lex.right _ (stepsLeft_step_lt _h)

/-- The next octets of the plaintext: `n` of them, or fewer where the container ends or fails. The
failure shows where there are none. -/
def read (n : Nat) (o : Opener M ι) : Except IoError Bytes × Opener M ι := readInto #[] n o

/-- `readAll` with the octets that were given out already. -/
def readAllInto (done : Array UInt8) (o : Opener M ι) :
    Bytes × Except IoError Unit × Opener M ι :=
  let all := done ++ o.plaintext
  match _h : o.phase with
  | .running => readAllInto all { o with plaintext := [] }.step
  | .ended => (all.toList, .ok (), { o with plaintext := [] })
  | .failed cause => (all.toList, .error cause.toSharedIo, { o with plaintext := [] })
termination_by o.stepsLeft
decreasing_by
  exact stepsLeft_step_lt (o := { o with plaintext := [] }) _h

/-- All further plaintext, and the failure that ends it, if one does. -/
def readAll (o : Opener M ι) : Bytes × Except IoError Unit × Opener M ι := readAllInto #[] o

end Opener

end SealedStream
