import SealedStream.Failure.Stream
/-!
# Inputs

Where containers are read from.

* A `Source` answers each request with some octets, or with an interruption or a failure. It is
  finite: `remaining` bounds the octets still to come and `patience` the interruptions in a row.
* An `Input` hands out octets in the amounts that are asked for. Octet strings are inputs, and so
  is a `BufferedSource`, which asks its source for a buffer's worth at a time.
* `BufferedSource.readExact` repeats interrupted requests; its length law is
  `BufferedSource.remaining_readExact_le`.
-/
namespace SealedStream

/-! ## Sources -/

/-- The answer of a source to a request. -/
inductive ReadAnswer where
  /-- Some octets; none at the end. -/
  | data (bs : Bytes)
  | interrupted
  | failed (e : IoError)

/-- A finite supply of octets that answers requests as it likes. -/
class Source (σ : Type) where
  read : (n : Nat) → σ → ReadAnswer × σ
  /-- A bound on the number of octets still to come. -/
  remaining : σ → Nat
  /-- A bound on the number of interruptions in a row. -/
  patience : σ → Nat
  length_le {n : Nat} {s s' : σ} {bs : Bytes} (h : read n s = (.data bs, s')) : bs.length ≤ n
  remaining_data {n : Nat} {s s' : σ} {bs : Bytes} (h : read n s = (.data bs, s')) :
    bs.length + remaining s' ≤ remaining s
  remaining_interrupted {n : Nat} {s s' : σ} (h : read n s = (.interrupted, s')) :
    remaining s' ≤ remaining s
  patience_interrupted {n : Nat} {s s' : σ} (h : read n s = (.interrupted, s')) :
    patience s' < patience s
  remaining_failed {n : Nat} {s s' : σ} {e : IoError} (h : read n s = (.failed e, s')) :
    remaining s' ≤ remaining s

/-! ## Inputs -/

/-- A supply of octets in the amounts that are asked for. -/
class Input (ι : Type) where
  readExact : (n : Nat) → ι → Except IoError Bytes × ι
  readByte? : ι → Except IoError (Option UInt8) × ι
  /-- A bound on the number of octets still to come. -/
  remaining : ι → Nat
  remaining_readExact_le (n : Nat) (i : ι) : remaining (readExact n i).2 ≤ remaining i
  remaining_readByte?_le (i : ι) : remaining (readByte? i).2 ≤ remaining i
  remaining_readByte?_lt {i : ι} {b : UInt8} (h : (readByte? i).1 = .ok (some b)) :
    remaining (readByte? i).2 < remaining i

/-- The next `n` octets of a string. If there are fewer, all of them are lost. -/
def Bytes.readExact (n : Nat) (bs : Bytes) : Except IoError Bytes × Bytes :=
  let piece := bs.take n
  if piece.length = n then (.ok piece, bs.drop n) else (.error .unexpectedEof, [])

def Bytes.readByte? : Bytes → Except IoError (Option UInt8) × Bytes
  | [] => (.ok none, [])
  | b :: bs => (.ok (some b), bs)

/-- A string is an input: itself. -/
instance : Input Bytes where
  readExact := Bytes.readExact
  readByte? := Bytes.readByte?
  remaining := List.length
  remaining_readExact_le n bs := by
    unfold Bytes.readExact
    dsimp only
    split <;> simp
  remaining_readByte?_le bs := by cases bs <;> simp [Bytes.readByte?]
  remaining_readByte?_lt {bs b} h := by
    cases bs with
    | nil => simp [Bytes.readByte?] at h
    | cons c bs => simp [Bytes.readByte?]

/-! ## Buffered sources -/

/-- A source with the octets that it gave and that were not asked for yet. -/
structure BufferedSource (σ : Type) where
  source : σ
  buffer : Bytes := []

namespace BufferedSource
variable {σ : Type} [Source σ]

def capacity : Nat := 8192

/-- The octets still to come, those in the buffer included. -/
def remaining (b : BufferedSource σ) : Nat := b.buffer.length + Source.remaining b.source

/-- At most `n` octets: from the buffer while it holds any; else from the source, by way of the
buffer unless a whole buffer or more is asked for. -/
def readSome (n : Nat) (b : BufferedSource σ) : ReadAnswer × BufferedSource σ :=
  if b.buffer ≠ [] then (.data (b.buffer.take n), { b with buffer := b.buffer.drop n })
  else if capacity ≤ n then
    match Source.read n b.source with
    | (answer, s) => (answer, { source := s })
  else
    match Source.read capacity b.source with
    | (.data bs, s) => (.data (bs.take n), { source := s, buffer := bs.drop n })
    | (answer, s) => (answer, { source := s })

theorem readSome_data {n : Nat} {b b' : BufferedSource σ} {bs : Bytes}
    (h : readSome n b = (.data bs, b')) :
    bs.length ≤ n ∧ bs.length + b'.remaining ≤ b.remaining := by
  unfold readSome at h
  split at h
  · cases h
    simp only [remaining, List.length_take, List.length_drop]
    omega
  · next hb =>
    have hb : b.buffer.length = 0 := by simpa using hb
    split at h
    · split at h
      · next a s hr =>
        cases h
        have h₁ := Source.length_le hr
        have h₂ := Source.remaining_data hr
        simp only [remaining, List.length_nil, hb]
        omega
    · split at h
      · next bs' s hr =>
        cases h
        have h₂ := Source.remaining_data hr
        simp only [remaining, List.length_take, List.length_drop, hb]
        omega
      · next a s hne _ =>
        cases h
        exact (hne bs rfl).elim

theorem readSome_interrupted {n : Nat} {b b' : BufferedSource σ}
    (h : readSome n b = (.interrupted, b')) :
    b'.remaining ≤ b.remaining ∧ Source.patience b'.source < Source.patience b.source := by
  unfold readSome at h
  split at h
  · cases h
  · next hb =>
    have hb : b.buffer.length = 0 := by simpa using hb
    split at h
    · split at h
      · next a s hr =>
        cases h
        have h₁ := Source.remaining_interrupted hr
        have h₂ := Source.patience_interrupted hr
        simp only [remaining, List.length_nil, hb]
        omega
    · split at h
      · cases h
      · next a s _ hr =>
        cases h
        have h₁ := Source.remaining_interrupted hr
        have h₂ := Source.patience_interrupted hr
        simp only [remaining, List.length_nil, hb]
        omega

theorem readSome_failed {n : Nat} {b b' : BufferedSource σ} {e : IoError}
    (h : readSome n b = (.failed e, b')) : b'.remaining ≤ b.remaining := by
  unfold readSome at h
  split at h
  · cases h
  · next hb =>
    have hb : b.buffer.length = 0 := by simpa using hb
    split at h
    · split at h
      · next a s hr =>
        cases h
        have h₁ := Source.remaining_failed hr
        simp only [remaining, List.length_nil, hb]
        omega
    · split at h
      · cases h
      · next a s _ hr =>
        cases h
        have h₁ := Source.remaining_failed hr
        simp only [remaining, List.length_nil, hb]
        omega

/-- `readExact` with the octets that were read already; `n` are missing. -/
def readExactInto (done : Array UInt8) (n : Nat) (b : BufferedSource σ) :
    Except IoError Bytes × BufferedSource σ :=
  if n = 0 then (.ok done.toList, b)
  else
    match _h : readSome n b with
    | (.data [], b) => (.error .unexpectedEof, b)
    | (.data (c :: cs), b) => readExactInto (done ++ (c :: cs)) (n - (c :: cs).length) b
    | (.interrupted, b) => readExactInto done n b
    | (.failed e, b) => (.error e, b)
termination_by (n, Source.patience b.source)
decreasing_by
  · apply Prod.Lex.left
    simp only [List.length_cons]
    omega
  · exact Prod.Lex.right _ (readSome_interrupted (by assumption)).2

/-- The next `n` octets. Interrupted requests are repeated; a failure, or the end, loses the
octets that came before it. -/
def readExact (n : Nat) (b : BufferedSource σ) : Except IoError Bytes × BufferedSource σ :=
  readExactInto #[] n b

def readByte? (b : BufferedSource σ) : Except IoError (Option UInt8) × BufferedSource σ :=
  match _h : readSome 1 b with
  | (.data [], b) => (.ok none, b)
  | (.data (c :: _), b) => (.ok (some c), b)
  | (.interrupted, b) => readByte? b
  | (.failed e, b) => (.error e, b)
termination_by Source.patience b.source
decreasing_by exact (readSome_interrupted (by assumption)).2

theorem remaining_readExactInto_le (done : Array UInt8) (n : Nat) (b : BufferedSource σ) :
    (readExactInto done n b).2.remaining ≤ b.remaining := by
  fun_induction readExactInto done n b with
  | case1 => exact Nat.le_refl _
  | case2 done n b _ b' h => have := (readSome_data h).2; simp at this; exact this
  | case3 done n b _ c cs b' h ih => have := (readSome_data h).2; omega
  | case4 done n b _ b' h ih => have := (readSome_interrupted h).1; omega
  | case5 done n b _ e b' h => exact readSome_failed h

theorem remaining_readExact_le (n : Nat) (b : BufferedSource σ) :
    (readExact n b).2.remaining ≤ b.remaining :=
  remaining_readExactInto_le #[] n b

theorem remaining_readByte?_le (b : BufferedSource σ) :
    (readByte? b).2.remaining ≤ b.remaining := by
  fun_induction readByte? b with
  | case1 b b' h => have := (readSome_data h).2; simp at this; exact this
  | case2 b c cs b' h =>
    have := (readSome_data h).2
    simp only [List.length_cons] at this
    show b'.remaining ≤ _
    omega
  | case3 b b' h ih => have := (readSome_interrupted h).1; omega
  | case4 b e b' h => exact readSome_failed h

theorem remaining_readByte?_lt {b : BufferedSource σ} {c : UInt8}
    (h : (readByte? b).1 = .ok (some c)) : (readByte? b).2.remaining < b.remaining := by
  fun_induction readByte? b with
  | case1 b b' h' => simp at h
  | case2 b c cs b' h' =>
    have := (readSome_data h').2
    simp only [List.length_cons] at this
    show b'.remaining < _
    omega
  | case3 b b' h' ih => have := (readSome_interrupted h').1; have := ih h; omega
  | case4 b e b' h' => simp at h

instance : Input (BufferedSource σ) where
  readExact := readExact
  readByte? := readByte?
  remaining := remaining
  remaining_readExact_le := remaining_readExact_le
  remaining_readByte?_le := remaining_readByte?_le
  remaining_readByte?_lt := remaining_readByte?_lt

end BufferedSource

end SealedStream
