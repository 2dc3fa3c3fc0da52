import SealedStream.Transport.Input
import SealedStream.Transport.Output
/-!
# Scripted devices

Sources and sinks whose faults are laid down in advance, to see what a stream makes of them.

* `ScriptedSource` gives the octets of a string in portions, and may fail at a position or
  interrupt every other request.
* `ScriptedSink` accepts octets in portions, and may fail or stall at a position.

A device that is to interrupt forever would never be answered; it fails instead.
-/
namespace SealedStream

/-- The answer to a request that a device is to refuse: an interruption if there is an end to
them, else a failure of the given kind and text. -/
def refusalKind (kind : IoKind) (times : Option Nat) : Option IoKind :=
  if kind = .interrupted ∧ times.isSome then none else some kind

/-! ## Sources -/

/-- A source with laid down faults. -/
structure ScriptedSource where
  rest : Bytes
  given : Nat := 0
  maxRead : Option Nat := none
  failAt : Option Nat := none
  /-- How many more requests fail there; `none` if all do. -/
  fails : Option Nat := none
  kind : IoKind := .connectionReset
  /-- Is every other request interrupted, beginning with the first? -/
  interrupts : Bool := false
  /-- Is the next request one of those? -/
  odd : Bool := true

namespace ScriptedSource

/-- The number of octets before the position where requests fail, if they still do. -/
def room (s : ScriptedSource) : Option Nat :=
  if s.fails = some 0 then none else s.failAt.map (· - s.given)

/-- The answer to a request for `n` octets that is not interrupted. -/
def answer (n : Nat) (s : ScriptedSource) : ReadAnswer × ScriptedSource :=
  match s.room with
  | some 0 =>
    let s' := { s with fails := s.fails.map (· - 1), odd := true }
    match refusalKind s.kind s.fails with
    | some kind => (.failed (.plain kind (some "source failed")), s')
    | none => (.interrupted, s')
  | room =>
    let n := min n (min (s.maxRead.getD n) (room.getD n))
    let bs := s.rest.take n
    (.data bs, { s with rest := s.rest.drop n, given := s.given + bs.length, odd := true })

def read (n : Nat) (s : ScriptedSource) : ReadAnswer × ScriptedSource :=
  if s.interrupts && s.odd then (.interrupted, { s with odd := false }) else s.answer n

/-- A bound on the number of interruptions in a row. -/
def patience (s : ScriptedSource) : Nat :=
  2 * s.fails.getD 0 + if s.interrupts && s.odd then 1 else 0

theorem answer_data {n : Nat} {s s' : ScriptedSource} {bs : Bytes}
    (h : s.answer n = (.data bs, s')) :
    bs.length ≤ n ∧ bs.length + s'.rest.length ≤ s.rest.length := by
  unfold answer at h
  split at h
  · dsimp only at h; split at h <;> cases h
  · cases h
    simp only [List.length_take, List.length_drop]
    omega

theorem answer_interrupted {n : Nat} {s s' : ScriptedSource}
    (h : s.answer n = (.interrupted, s')) :
    s'.rest.length ≤ s.rest.length ∧ s'.patience < 2 * s.fails.getD 0 := by
  unfold answer at h
  split at h
  · next hr =>
    dsimp only at h
    split at h
    · cases h
    · next hk =>
      cases h
      refine ⟨Nat.le_refl _, ?_⟩
      cases hf : s.fails with
      | none => simp [refusalKind, hf] at hk
      | some f =>
        have : f ≠ 0 := by rintro rfl; simp [room, hf] at hr
        simp only [patience, Option.map_some, Option.getD_some]
        split <;> omega
  · cases h

theorem answer_failed {n : Nat} {s s' : ScriptedSource} {e : IoError}
    (h : s.answer n = (.failed e, s')) : s'.rest.length ≤ s.rest.length := by
  unfold answer at h
  split at h
  · dsimp only at h; split at h <;> cases h; exact Nat.le_refl _
  · cases h

instance : Source ScriptedSource where
  read := read
  remaining s := s.rest.length
  patience := patience
  length_le {n s s' bs} h := by
    unfold read at h; split at h
    · cases h
    · exact (answer_data h).1
  remaining_data {n s s' bs} h := by
    unfold read at h; split at h
    · cases h
    · exact (answer_data h).2
  remaining_interrupted {n s s'} h := by
    unfold read at h; split at h
    · cases h; exact Nat.le_refl _
    · exact (answer_interrupted h).1
  patience_interrupted {n s s'} h := by
    unfold read at h; split at h
    · next hs => cases h; simp [patience, hs]
    · next hs =>
      have := (answer_interrupted h).2
      simp only [patience, hs] at this ⊢
      simpa using this
  remaining_failed {n s s' e} h := by
    unfold read at h; split at h
    · cases h
    · exact answer_failed h

end ScriptedSource

/-! ## Sinks -/

/-- A sink with laid down faults. -/
structure ScriptedSink where
  accepted : Nat := 0
  maxWrite : Option Nat := none
  failAt : Option Nat := none
  /-- How many more offers fail there; `none` if all do. -/
  fails : Option Nat := none
  kind : IoKind := .connectionReset
  /-- Are offers met with nothing accepted where they would fail? -/
  stalls : Bool := false
  flushFails : Nat := 0
  flushes : Nat := 0

namespace ScriptedSink

/-- The number of octets before the position where offers fail, if they still do. -/
def room (s : ScriptedSink) : Option Nat :=
  if s.fails = some 0 then none else s.failAt.map (· - s.accepted)

def write (bs : Bytes) (s : ScriptedSink) : WriteAnswer × ScriptedSink :=
  match s.room with
  | some 0 =>
    let s' := { s with fails := s.fails.map (· - 1) }
    if s.stalls then (.accepted 0, s')
    else
      match refusalKind s.kind s.fails with
      | some kind => (.failed (.plain kind (some "sink failed")), s')
      | none => (.interrupted, s')
  | room =>
    let bs := match s.maxWrite with
      | some n => bs.take n
      | none => bs
    let bs := match room with
      | some n => bs.take n
      | none => bs
    let n := bs.length
    (.accepted n, { s with accepted := s.accepted + n })

def flush (s : ScriptedSink) : Except IoError Unit × ScriptedSink :=
  if s.flushFails = 0 then (.ok (), { s with flushes := s.flushes + 1 })
  else (.error (.plain s.kind (some "flush failed")),
    { s with flushes := s.flushes + 1, flushFails := s.flushFails - 1 })

instance : Sink ScriptedSink where
  write := write
  flush := flush
  patience s := s.fails.getD 0
  patience_interrupted {bs s s'} h := by
    unfold write at h
    split at h
    · next hr =>
      dsimp only at h
      split at h
      · cases h
      · split at h
        · cases h
        · next hk =>
          cases h
          cases hf : s.fails with
          | none => simp [refusalKind, hf] at hk
          | some f =>
            have : f ≠ 0 := by rintro rfl; simp [room, hf] at hr
            simp only [Option.map_some, Option.getD_some]
            omega
    · cases h

end ScriptedSink

end SealedStream
