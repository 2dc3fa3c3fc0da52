import SealedStream.Failure
/-!
# Routes to a classification

A failure of a layer may reach the caller as it is, or as the failure of a stream that took it
over. `Failure` classifies both.

* `StreamError.Damage` says which failures the container is to blame for, and
  `StreamError.isIntegrityError_iff` how the check of a stream's failure compares to it.
* `Failure.Verdict` is all that a caller learns about a failure. For a failure of a stream it is
  that of the failure that was first (`Failure.verdict_innermost`).
* `LayerFailure.verdict_direct_eq_iff` lists the failures for which the two routes part, and those
  for which either of them blames the wrong side.
-/
namespace SealedStream

/-! ## Damage -/

namespace StreamError

@[simp] theorem isIntegrityError_io_carrying (kind : IoKind) (shared : Bool) (e : StreamError) :
    (StreamError.io (.carrying kind shared e)).isIntegrityError = e.isIntegrityError := by
  rw [isIntegrityError, isIntegrityError, innermost_io_carrying]

/-- The container is to blame. For a failure of a transport, under whatever name, it is so only if
it carries such a failure. -/
inductive Damage : StreamError → Prop
  | cipher (e : CipherError) : Damage (.cipher e)
  | encryptedKey (detail : String) : Damage (.suite (.malformedEncryptedKey detail))
  | record {e : WireError} (h : ∀ x, e ≠ .io x) : Damage (.wire e)
  | transportRecord {x : IoError} (h : Damage (.io x)) : Damage (.wire (.io x))
  | truncated : Damage .truncated
  | carried {kind : IoKind} {shared : Bool} {cause : StreamError} (h : Damage cause) :
    Damage (.io (.carrying kind shared cause))

theorem damage_wire_io {x : IoError} : Damage (.wire (.io x)) ↔ Damage (.io x) := by
  constructor
  · rintro (_ | _ | h | h)
    · exact absurd rfl (h x)
    · exact h
  · exact .transportRecord

theorem ofWire_of_ne_io {e : WireError} (h : ∀ x, e ≠ .io x) : ofWire e = .wire e := by
  cases e with
  | io x => exact absurd rfl (h x)
  | _ => rfl

theorem damage_innermost : ∀ {e : StreamError}, Damage e.innermost ↔ Damage e
  | .io (.carrying kind shared cause) => by
    rw [innermost_io_carrying, damage_innermost]
    exact ⟨.carried, fun | .carried h => h⟩
  | .io (.plain _ _) | .suite _ | .cipher _ | .wire _ | .truncated | .closed
  | .invalidConfig _ => .rfl

theorem Damage.isIntegrityError {e : StreamError} (h : e.Damage) : e.isIntegrityError = true := by
  induction h with
  | carried _ ih => rwa [isIntegrityError_io_carrying]
  | _ => rfl

/-- The first failure is one of a transport that was left among those of records, and the container
is not to blame for it. `ofWire` leaves none there. -/
def Stray (e : StreamError) : Prop := ∃ x, e.innermost = .wire (.io x) ∧ ¬ Damage (.io x)

theorem Stray.isIntegrityError {e : StreamError} (h : e.Stray) : e.isIntegrityError = true := by
  obtain ⟨x, hx, -⟩ := h
  rw [StreamError.isIntegrityError, hx]

theorem Stray.not_damage {e : StreamError} (h : e.Stray) : ¬ e.Damage := by
  obtain ⟨x, hx, hn⟩ := h
  rwa [← damage_innermost, hx, damage_wire_io]

/-- The check of a stream's failure finds all damage, and nothing else but strays. -/
theorem isIntegrityError_iff {e : StreamError} :
    e.isIntegrityError = true ↔ e.Damage ∨ e.Stray := by
  refine ⟨fun h => ?_, fun h => h.elim Damage.isIntegrityError Stray.isIntegrityError⟩
  rw [← damage_innermost, Stray]
  rw [isIntegrityError] at h
  split at h
  next c hc => exact .inl (hc ▸ .cipher c)
  next w hw =>
    rw [hw]
    cases w with
    | io x =>
      by_cases hx : Damage (.io x)
      · exact .inl (.transportRecord hx)
      · exact .inr ⟨x, rfl, hx⟩
    | _ => exact .inl (.record (by simp))
  next ht => exact .inl (ht ▸ .truncated)
  next detail hs => exact .inl (hs ▸ .encryptedKey detail)
  next => cases h

end StreamError

/-! ## Verdicts -/

namespace Failure

/-- What a caller learns about a failure. -/
structure Verdict where
  unknownAlgorithm : Bool
  keyError : Bool
  suiteError : Bool
  integrityError : Bool
  suggestion : Option String
  deriving DecidableEq, Repr

def verdict (f : Failure) : Verdict where
  unknownAlgorithm := f.isUnknownAlgorithm
  keyError := f.isKeyError
  suiteError := f.isSuiteError
  integrityError := f.isIntegrityError
  suggestion := f.suggestion

/-- The verdict on a container that fails a check. -/
def Verdict.damaged : Verdict where
  unknownAlgorithm := false
  keyError := false
  suiteError := false
  integrityError := true
  suggestion := some "The container is corrupted or was encrypted for a different key"

theorem verdict_innermost (e : StreamError) :
    (stream e.innermost).verdict = (stream e).verdict := by
  simp [verdict, isUnknownAlgorithm, isKeyError, isSuiteError, isIntegrityError, suggestion,
    suiteError?, streamError?, StreamError.isIntegrityError]

/-- For a failure of the suite the verdict adds to that failure only whom it blames. -/
theorem verdict_of_suiteError {f : Failure} {s : SuiteError} (h : f.suiteError? = some s) :
    f.verdict = { unknownAlgorithm := s.isUnknownAlgorithm, keyError := s.isKeyError,
                  suiteError := true, integrityError := f.isIntegrityError,
                  suggestion := adviceOnSuite s } := by
  simp [verdict, isUnknownAlgorithm, isKeyError, isSuiteError, suggestion, h]

theorem verdict_eq_damaged_iff {f : Failure} :
    f.verdict = .damaged ↔ f.suiteError? = none ∧ f.isIntegrityError = true := by
  rcases hs : f.suiteError? with _ | s
  · by_cases hi : f.isIntegrityError = true <;>
      simp [verdict, Verdict.damaged, isUnknownAlgorithm, isKeyError, isSuiteError, suggestion,
        hs, hi]
  · simp [verdict_of_suiteError hs, Verdict.damaged]

theorem suiteError?_stream_eq_some {e : StreamError} {s : SuiteError} :
    (stream e).suiteError? = some s ↔ e.innermost = .suite s := by
  cases h : e.innermost <;> simp [suiteError?, streamError?, h]

theorem isIntegrityError_stream (e : StreamError) :
    (stream e).isIntegrityError = e.isIntegrityError := by
  simp [isIntegrityError, streamError?, StreamError.isIntegrityError]

end Failure

/-! ## The two routes -/

/-- A failure of one of the layers below streams. -/
inductive LayerFailure where
  | suite (e : SuiteError)
  | cipher (e : CipherError)
  | wire (e : WireError)

namespace LayerFailure

/-- The failure as the caller gets it from its layer. -/
def direct : LayerFailure → Failure
  | suite e => .suite e
  | cipher e => .cipher e
  | wire e => .wire e

/-- The failure of a stream that takes the failure over. -/
def toStream : LayerFailure → StreamError
  | suite e => .suite e
  | cipher e => .cipher e
  | wire e => .ofWire e

/-- The failure as the caller gets it from a stream. -/
def routed (l : LayerFailure) : Failure := .stream l.toStream

/-- The container is to blame: for a failure of a cipher, a malformed record or a malformed
encrypted key, and for a failure of a transport if it carries such a one. -/
inductive Damage : LayerFailure → Prop
  | cipher (e : CipherError) : Damage (.cipher e)
  | encryptedKey (detail : String) : Damage (.suite (.malformedEncryptedKey detail))
  | record {e : WireError} (h : ∀ x, e ≠ .io x) : Damage (.wire e)
  | transport {x : IoError} (h : (StreamError.io x).Damage) : Damage (.wire (.io x))

/-- The failures that have another verdict as failures of a stream. -/
inductive Diverges : LayerFailure → Prop
  | encryptedKey (detail : String) : Diverges (.suite (.malformedEncryptedKey detail))
  | transport {x : IoError} (h : ¬ (StreamError.io x).Damage) (hs : ¬ (StreamError.io x).Stray) :
    Diverges (.wire (.io x))
  | carriedKey {x : IoError} {detail : String}
    (h : (StreamError.io x).innermost = .suite (.malformedEncryptedKey detail)) :
    Diverges (.wire (.io x))

/-- The failures for which the wrong side is blamed before they are failures of a stream. -/
inductive Misjudged : LayerFailure → Prop
  | encryptedKey (detail : String) : Misjudged (.suite (.malformedEncryptedKey detail))
  | transport {x : IoError} (h : ¬ (StreamError.io x).Damage) : Misjudged (.wire (.io x))

theorem damage_toStream {l : LayerFailure} : l.toStream.Damage ↔ l.Damage := by
  constructor
  · cases l with
    | suite e =>
      rintro (_ | detail)
      exact .encryptedKey detail
    | cipher e => exact fun _ => .cipher e
    | wire e =>
      cases e with
      | io x => exact .transport
      | _ => exact fun _ => .record (by simp)
  · rintro (e | detail | @⟨e, h⟩ | h)
    · exact .cipher e
    · exact .encryptedKey detail
    · rw [toStream, StreamError.ofWire_of_ne_io h]
      exact .record h
    · exact h

/-- A failure of the suite is never an integrity error before it is one of a stream; nothing else
changes. -/
theorem verdict_direct_suite (s : SuiteError) :
    (suite s).direct.verdict = { (suite s).routed.verdict with integrityError := false } := by
  rw [@Failure.verdict_of_suiteError (suite s).direct s rfl,
    @Failure.verdict_of_suiteError (suite s).routed s rfl]
  rfl

theorem verdict_suite_eq_iff {s : SuiteError} :
    (suite s).direct.verdict = (suite s).routed.verdict ↔ ¬ (suite s).Diverges := by
  have hs : (suite s).Diverges ↔ (suite s).routed.isIntegrityError = true := by
    rw [routed, Failure.isIntegrityError_stream]
    constructor
    · rintro ⟨⟩
      rfl
    · cases s with
      | malformedEncryptedKey detail => exact fun _ => .encryptedKey detail
      | _ => nofun
  rw [hs, verdict_direct_suite, Bool.not_eq_true]
  refine ⟨fun h => (congrArg Failure.Verdict.integrityError h).symm, fun h => ?_⟩
  rw [← h]
  rfl

theorem verdict_wire_io_eq_iff {x : IoError} :
    (wire (.io x)).direct.verdict = (wire (.io x)).routed.verdict ↔
      ¬ (wire (.io x)).Diverges := by
  -- before a stream takes it over, every failure of a record is taken for damage
  have hd : (wire (.io x)).direct.verdict = .damaged := rfl
  rw [hd, eq_comm, Failure.verdict_eq_damaged_iff, routed, Failure.isIntegrityError_stream]
  constructor
  · rintro ⟨hs, hi⟩ (_ | ⟨hn, hst⟩ | h)
    · exact (StreamError.isIntegrityError_iff.1 hi).elim hn hst
    · rw [toStream, StreamError.ofWire, Failure.suiteError?_stream_eq_some.2 h] at hs
      cases hs
  · intro h
    have hi : (StreamError.io x).isIntegrityError = true := by
      rw [StreamError.isIntegrityError_iff]
      by_cases hn : (StreamError.io x).Damage
      · exact .inl hn
      · by_cases hst : (StreamError.io x).Stray
        · exact .inr hst
        · exact absurd (.transport hn hst) h
    -- of the failures of the suite only one counts as damage
    refine ⟨Option.eq_none_iff_forall_ne_some.2 fun s hs => ?_, hi⟩
    have hx := Failure.suiteError?_stream_eq_some.1 hs
    rw [toStream, StreamError.ofWire] at hx
    rw [StreamError.isIntegrityError, hx] at hi
    cases s with
    | malformedEncryptedKey detail => exact h (.carriedKey hx)
    | _ => cases hi

theorem isIntegrityError_direct_iff {l : LayerFailure} :
    (l.direct.isIntegrityError = true ↔ l.Damage) ↔ ¬ l.Misjudged := by
  cases l with
  | suite s =>
    have hf : (suite s).direct.isIntegrityError = false := rfl
    rw [hf]
    constructor
    · rintro h (detail | -)
      cases h.2 (.encryptedKey detail)
    · intro h
      refine ⟨nofun, ?_⟩
      rintro (_ | detail)
      exact absurd (.encryptedKey detail) h
  | cipher e => exact iff_of_true (iff_of_true rfl (.cipher e)) nofun
  | wire e =>
    have ht : (wire e).direct.isIntegrityError = true := rfl
    rw [ht]
    cases e with
    | io x =>
      constructor
      · rintro h (_ | hx)
        obtain _ | _ | hr | hd := h.1 rfl
        · exact hr x rfl
        · exact hx hd
      · intro h
        refine iff_of_true rfl ?_
        by_cases hx : (StreamError.io x).Damage
        · exact .transport hx
        · exact absurd (.transport hx) h
    | _ => exact iff_of_true (iff_of_true rfl (.record (by simp))) nofun

/-- **When a failure is classified alike on both routes**: unless it diverges, being a malformed
encrypted key or a failure of a transport that carries no failure of a container or carries one of
such a key. The right side is blamed for all failures but the misjudged, if the layer reports them,
and for all but the strays, if a stream does. -/
theorem verdict_direct_eq_iff (l : LayerFailure) :
    (l.direct.verdict = l.routed.verdict ↔ ¬ l.Diverges) ∧
      ((l.direct.isIntegrityError = true ↔ l.Damage) ↔ ¬ l.Misjudged) ∧
      ((l.routed.isIntegrityError = true ↔ l.Damage) ↔ ¬ l.toStream.Stray) := by
  refine ⟨?_, isIntegrityError_direct_iff, ?_⟩
  · cases l with
    | suite s => exact verdict_suite_eq_iff
    | cipher e => exact iff_of_true rfl nofun
    | wire e =>
      cases e with
      | io x => exact verdict_wire_io_eq_iff
      | _ => exact iff_of_true rfl nofun
  · have hs : l.toStream.Stray → ¬ l.Damage := fun h hd => h.not_damage (damage_toStream.2 hd)
    rw [routed, Failure.isIntegrityError_stream, StreamError.isIntegrityError_iff, damage_toStream]
    exact ⟨fun h hst => hs hst (h.1 (.inr hst)), fun h => or_iff_left h⟩

/-- A pipe that breaks while a record is read or written is taken for damage, and as the failure of
a stream it is not; for the octets of an encrypted key it is the other way round. -/
theorem verdict_direct_ne_broken_pipe :
    (wire (.io (.plain .brokenPipe (some "pipe broke")))).direct.verdict = .damaged ∧
      (wire (.io (.plain .brokenPipe (some "pipe broke")))).routed.verdict =
        { unknownAlgorithm := false, keyError := false, suiteError := false,
          integrityError := false, suggestion := none } ∧
      ¬ (wire (.io (.plain .brokenPipe (some "pipe broke")))).Damage ∧
      (suite (.malformedEncryptedKey "not a point")).direct.isIntegrityError = false ∧
      (suite (.malformedEncryptedKey "not a point")).routed.isIntegrityError = true ∧
      (suite (.malformedEncryptedKey "not a point")).Damage := by
  refine ⟨rfl, rfl, ?_, rfl, rfl, .encryptedKey _⟩
  rintro (_ | _ | h | ⟨⟨⟩⟩)
  exact h _ rfl

end LayerFailure

end SealedStream
