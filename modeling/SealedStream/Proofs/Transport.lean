import Mathlib
import SealedStream.Proofs.Framing
import SealedStream.Transport.Scripted
/-!
# Reliable transports

* `Input.Supplies i bs`: the input `i` hands out the octets of `bs` and then ends, in whatever
  portions they come. A string supplies itself (`supplies_self`), and so does a buffer before a
  source that does not fail (`BufferedSource.supplies`).
* `Decoder.Tracks d d'`: on an input that supplies a string, `d` does what `d'` does on the string.
  Every decoder of a record tracks itself.
* `Lossless τ`: an output of type `τ` that does not fail loses nothing. `Output.Reliable t`: the
  output `t` does not fail, whatever is written to it.
-/
namespace SealedStream

/-! ## Sources and inputs -/

/-- A relation between sources and strings that every request keeps: the source gives the octets
of the string, in portions of its own choice, and does not fail. -/
structure Source.Mirrors {σ : Type} [Source σ] (R : σ → Bytes → Prop) : Prop where
  data {n : Nat} {s s' : σ} {bs ds : Bytes} (hn : 0 < n) (h : R s bs)
    (hr : Source.read n s = (.data ds, s')) :
    ∃ rest, bs = ds ++ rest ∧ R s' rest ∧ (ds = [] → bs = [])
  interrupted {n : Nat} {s s' : σ} {bs : Bytes} (h : R s bs)
    (hr : Source.read n s = (.interrupted, s')) : R s' bs
  failed {n : Nat} {s s' : σ} {bs : Bytes} {e : IoError} (h : R s bs) :
    Source.read n s ≠ (.failed e, s')

/-- The source gives the octets of a string and does not fail. -/
def Source.Supplies {σ : Type} [Source σ] (s : σ) (bs : Bytes) : Prop :=
  ∃ R : σ → Bytes → Prop, Source.Mirrors R ∧ R s bs

/-- A relation between inputs and strings that every request keeps: the input answers as the string
does. -/
structure Input.Mirrors {ι : Type} [Input ι] (R : ι → Bytes → Prop) : Prop where
  readExact (n : Nat) {i : ι} {bs : Bytes} (h : R i bs) :
    (Input.readExact n i).1 = (Bytes.readExact n bs).1 ∧
      R (Input.readExact n i).2 (Bytes.readExact n bs).2
  readByte? {i : ι} {bs : Bytes} (h : R i bs) :
    (Input.readByte? i).1 = (Bytes.readByte? bs).1 ∧
      R (Input.readByte? i).2 (Bytes.readByte? bs).2

/-- The input answers every request as a string does. -/
def Input.Supplies {ι : Type} [Input ι] (i : ι) (bs : Bytes) : Prop :=
  ∃ R : ι → Bytes → Prop, Input.Mirrors R ∧ R i bs

theorem Input.supplies_self (bs : Bytes) : Input.Supplies bs bs :=
  ⟨Eq, ⟨fun _ _ _ h => by subst h; exact ⟨rfl, rfl⟩, fun h => by subst h; exact ⟨rfl, rfl⟩⟩, rfl⟩

theorem Input.mirrors_supplies {ι : Type} [Input ι] : Input.Mirrors (@Input.Supplies ι _) where
  readExact n _ _ := fun ⟨R, hR, h⟩ => ⟨(hR.readExact n h).1, R, hR, (hR.readExact n h).2⟩
  readByte? := fun ⟨R, hR, h⟩ => ⟨(hR.readByte? h).1, R, hR, (hR.readByte? h).2⟩

namespace Bytes

theorem readExact_of_le {n : Nat} {bs : Bytes} (h : n ≤ bs.length) :
    readExact n bs = (.ok (bs.take n), bs.drop n) := by
  simp [readExact, h]

theorem readExact_of_lt {n : Nat} {bs : Bytes} (h : bs.length < n) :
    readExact n bs = (.error .unexpectedEof, []) := by
  simp [readExact, h.ne, h.le]

end Bytes

/-! ## Buffered sources -/

namespace BufferedSource
variable {σ : Type} [Source σ] {R : σ → Bytes → Prop}

/-- The octets in the buffer and behind them those of the source. -/
def Holds (R : σ → Bytes → Prop) (b : BufferedSource σ) (bs : Bytes) : Prop :=
  ∃ rest, bs = b.buffer ++ rest ∧ R b.source rest

variable (hR : Source.Mirrors R)
include hR

theorem holds_of_readSome_data {n : Nat} {b b' : BufferedSource σ} {bs ds : Bytes} (hn : 0 < n)
    (h : Holds R b bs) (hr : b.readSome n = (.data ds, b')) :
    ∃ rest, bs = ds ++ rest ∧ Holds R b' rest ∧ (ds = [] → bs = []) := by
  obtain ⟨tail, rfl, ht⟩ := h
  unfold readSome at hr
  split at hr
  · next hb =>
    cases hr
    refine ⟨b.buffer.drop n ++ tail, ?_, ⟨tail, rfl, ht⟩, fun h => ?_⟩
    · rw [← List.append_assoc, List.take_append_drop]
    · simp [hn.ne', hb] at h
  · next hb =>
    rw [not_not.1 hb, List.nil_append]
    split at hr
    · split at hr
      next s hs =>
      cases hr
      obtain ⟨rest, h₁, h₂, h₃⟩ := hR.data hn ht hs
      exact ⟨rest, h₁, ⟨rest, rfl, h₂⟩, h₃⟩
    · split at hr
      · next fs s hs =>
        cases hr
        obtain ⟨rest, rfl, h₂, h₃⟩ := hR.data (by decide) ht hs
        refine ⟨fs.drop n ++ rest, ?_, ⟨rest, rfl, h₂⟩, fun h => h₃ ?_⟩
        · rw [← List.append_assoc, List.take_append_drop]
        · simpa [hn.ne'] using h
      · next hne _ =>
        cases hr
        exact (hne _ rfl).elim

theorem holds_of_readSome_interrupted {n : Nat} {b b' : BufferedSource σ} {bs : Bytes}
    (h : Holds R b bs) (hr : b.readSome n = (.interrupted, b')) : Holds R b' bs := by
  obtain ⟨tail, rfl, ht⟩ := h
  unfold readSome at hr
  split at hr
  · cases hr
  · next hb =>
    rw [not_not.1 hb, List.nil_append]
    split at hr <;> split at hr
    · next s hs =>
      cases hr
      exact ⟨tail, rfl, hR.interrupted ht hs⟩
    · cases hr
    · next s _ hs =>
      cases hr
      exact ⟨tail, rfl, hR.interrupted ht hs⟩

theorem readSome_ne_failed {n : Nat} {b b' : BufferedSource σ} {bs : Bytes} {e : IoError}
    (h : Holds R b bs) : b.readSome n ≠ (.failed e, b') := by
  obtain ⟨tail, -, ht⟩ := h
  intro hr
  unfold readSome at hr
  split at hr
  · cases hr
  · split at hr <;> split at hr
    · next hs =>
      cases hr
      exact hR.failed ht hs
    · cases hr
    · next hs =>
      cases hr
      exact hR.failed ht hs

theorem holds_readExactInto {done : Array UInt8} {n : Nat} {b : BufferedSource σ} {bs : Bytes}
    (h : Holds R b bs) :
    (readExactInto done n b).1 = (Bytes.readExact n bs).1.map (done.toList ++ ·) ∧
      Holds R (readExactInto done n b).2 (Bytes.readExact n bs).2 := by
  fun_induction readExactInto done n b generalizing bs with
  | case1 => simpa [Bytes.readExact, Except.map] using h
  | case2 done n b hn b' hr =>
    obtain ⟨rest, hb, hh, he⟩ := holds_of_readSome_data hR (Nat.pos_of_ne_zero hn) h hr
    obtain rfl := he rfl
    obtain rfl : [] = rest := hb
    rw [Bytes.readExact_of_lt (by simp; omega)]
    exact ⟨rfl, hh⟩
  | case3 done n b hn c cs b' hr ih =>
    obtain ⟨rest, rfl, hh, -⟩ := holds_of_readSome_data hR (Nat.pos_of_ne_zero hn) h hr
    have hl := (readSome_data hr).1
    obtain ⟨h₁, h₂⟩ := ih hh
    by_cases hlt : rest.length < n - (c :: cs).length
    · rw [Bytes.readExact_of_lt hlt] at h₁ h₂
      rw [Bytes.readExact_of_lt (by rw [List.length_append]; omega)]
      exact ⟨h₁, h₂⟩
    · rw [Bytes.readExact_of_le (not_lt.1 hlt)] at h₁ h₂
      rw [Bytes.readExact_of_le (by rw [List.length_append]; omega), List.take_append,
        List.drop_append, List.take_of_length_le hl, List.drop_of_length_le hl]
      refine ⟨?_, h₂⟩
      rw [h₁]
      simp [Except.map]
  | case4 done n b hn b' hr ih => exact ih (holds_of_readSome_interrupted hR h hr)
  | case5 done n b hn e b' hr => exact (readSome_ne_failed hR h hr).elim

theorem holds_readByte? {b : BufferedSource σ} {bs : Bytes} (h : Holds R b bs) :
    b.readByte?.1 = (Bytes.readByte? bs).1 ∧ Holds R b.readByte?.2 (Bytes.readByte? bs).2 := by
  fun_induction readByte? b with
  | case1 b b' hr =>
    obtain ⟨rest, hb, hh, he⟩ := holds_of_readSome_data hR one_pos h hr
    obtain rfl := he rfl
    obtain rfl : [] = rest := hb
    exact ⟨rfl, hh⟩
  | case2 b c cs b' hr =>
    obtain ⟨rest, rfl, hh, -⟩ := holds_of_readSome_data hR one_pos h hr
    have hl := (readSome_data hr).1
    obtain rfl : cs = [] := List.length_eq_zero_iff.1 (by simpa using hl)
    exact ⟨rfl, hh⟩
  | case3 b b' hr ih => exact ih (holds_of_readSome_interrupted hR h hr)
  | case4 b e b' hr => exact (readSome_ne_failed hR h hr).elim

end BufferedSource

/-- **A buffer before a source that does not fail** supplies what the source does, whatever the
portions in which the source gives it. -/
theorem BufferedSource.supplies {σ : Type} [Source σ] {s : σ} {bs : Bytes}
    (h : Source.Supplies s bs) : Input.Supplies (BufferedSource.mk s []) bs := by
  obtain ⟨R, hR, hs⟩ := h
  refine ⟨Holds R, ⟨fun n i bs h => ?_, fun h => holds_readByte? hR h⟩, bs, rfl, hs⟩
  obtain ⟨h₁, h₂⟩ := @holds_readExactInto σ _ R hR #[] n _ _ h
  refine ⟨h₁.trans ?_, h₂⟩
  rcases (Bytes.readExact n bs).1 with _ | _ <;> rfl

/-! ## Decoders on reliable inputs -/

namespace Decoder
variable {ι α β : Type} [Input ι]

/-- On an input that supplies a string, `d` does what `d'` does on the string. -/
def Tracks (d : Decoder ι α) (d' : Decoder Bytes α) : Prop :=
  ∀ i bs, Input.Supplies i bs →
    (d.run i).1 = (d'.run bs).1 ∧ Input.Supplies (d.run i).2 (d'.run bs).2

theorem tracks_pure (a : α) : Tracks (pure a : Decoder ι α) (pure a) := fun _ _ h => ⟨rfl, h⟩

theorem tracks_throw (e : WireError) : Tracks (throw e : Decoder ι α) (throw e) :=
  fun _ _ h => ⟨rfl, h⟩

theorem Tracks.bind {d : Decoder ι α} {d' : Decoder Bytes α} {f : α → Decoder ι β}
    {g : α → Decoder Bytes β} (hd : Tracks d d') (hf : ∀ a, Tracks (f a) (g a)) :
    Tracks (d >>= f) (d' >>= g) := by
  intro i bs h
  obtain ⟨h₁, h₂⟩ := hd i bs h
  rw [run_bind, run_bind]
  rcases hr : d.run i with ⟨r, i'⟩
  rcases hs : d'.run bs with ⟨r', bs'⟩
  rw [hr, hs] at h₁ h₂
  obtain rfl : r = r' := h₁
  cases r with
  | error e => exact ⟨rfl, h₂⟩
  | ok a => exact hf a i' bs' h₂

theorem tracks_take (n : Nat) : Tracks (take n : Decoder ι Bytes) (take n) := by
  intro i bs h
  obtain ⟨h₁, h₂⟩ := Input.mirrors_supplies.readExact n h
  simp only [take, ExceptT.run, ExceptT.mk]
  rcases hr : Input.readExact n i with ⟨r, i'⟩
  rcases hs : Input.readExact n bs with ⟨r', bs'⟩
  rw [hr, show Bytes.readExact n bs = _ from hs] at h₁ h₂
  obtain rfl : r = r' := h₁
  cases r <;> exact ⟨rfl, h₂⟩

theorem tracks_next? : Tracks (next? : Decoder ι (Option UInt8)) next? := by
  intro i bs h
  obtain ⟨h₁, h₂⟩ := Input.mirrors_supplies.readByte? h
  simp only [next?, ExceptT.run, ExceptT.mk]
  rcases hr : Input.readByte? i with ⟨r, i'⟩
  rcases hs : Input.readByte? bs with ⟨r', bs'⟩
  rw [hr, show Bytes.readByte? bs = _ from hs] at h₁ h₂
  obtain rfl : r = r' := h₁
  cases r <;> exact ⟨rfl, h₂⟩

theorem tracks_marker : Tracks (marker : Decoder ι UInt8) marker :=
  (tracks_take 1).bind fun _ => tracks_pure _

theorem tracks_length (form : LengthForm) : Tracks (length form : Decoder ι Nat) (length form) := by
  cases form with
  | known n => exact tracks_pure n
  | follows w => exact (tracks_take w).bind fun _ => tracks_pure _

theorem tracks_arrayAfter (m : UInt8) (n : Nat) :
    Tracks (arrayAfter m n : Decoder ι Unit) (arrayAfter m n) := by
  refine Tracks.bind ?_ fun got => ?_
  · unfold arrayLength
    cases arrayForm? m with
    | none => exact tracks_throw _
    | some form => exact tracks_length form
  · split
    · exact tracks_throw _
    · exact tracks_pure _

theorem tracks_array (n : Nat) : Tracks (array n : Decoder ι Unit) (array n) :=
  tracks_marker.bind fun m => tracks_arrayAfter m n

theorem tracks_bool : Tracks (bool : Decoder ι Bool) bool := by
  refine tracks_marker.bind fun m => ?_
  split
  · exact tracks_pure _
  · split
    · exact tracks_pure _
    · exact tracks_throw _

theorem tracks_bytes (limit : Nat) : Tracks (bytes limit : Decoder ι Bytes) (bytes limit) := by
  refine tracks_marker.bind fun m => ?_
  cases bytesForm? m with
  | none => exact tracks_throw _
  | some form =>
    refine (tracks_length form).bind fun len => ?_
    split
    · exact (tracks_throw _).bind fun _ => tracks_take len
    · exact tracks_take len

theorem tracks_text (limit : Nat) : Tracks (text limit : Decoder ι String) (text limit) := by
  refine (tracks_bytes limit).bind fun bs => ?_
  cases Utf8.decode bs with
  | error defect => exact tracks_throw _
  | ok s => exact tracks_pure s

end Decoder

open Decoder in
theorem Preamble.tracks_decoder {ι : Type} [Input ι] (limit : Nat) :
    Tracks (decoder limit : Decoder ι Preamble) (decoder limit) :=
  (tracks_array _).bind fun _ => (tracks_bytes limit).bind fun _ => (tracks_text limit).bind
    fun _ => (tracks_text limit).bind fun _ => tracks_pure _

open Decoder in
theorem Chunk.tracks_nextDecoder {ι : Type} [Input ι] (limit : Nat) :
    Tracks (nextDecoder limit : Decoder ι (Option Chunk)) (nextDecoder limit) := by
  refine tracks_next?.bind fun m => ?_
  cases m with
  | none => exact tracks_pure _
  | some m =>
    refine (tracks_arrayAfter m _).bind fun _ => Tracks.bind ?_ fun _ => tracks_pure _
    exact tracks_bool.bind fun _ => (tracks_bytes limit).bind fun _ =>
      (tracks_bytes limit).bind fun _ => tracks_pure _

/-! ## Sinks and outputs -/

/-- An output that accounts for what it takes: where it does not fail, nothing is lost, and after it
is emptied everything has arrived. -/
class Lossless (τ : Type) [Output τ] where
  taken : τ → Bytes
  /-- The octets that have arrived where they are to go. -/
  arrived : τ → Bytes
  taken_write {bs : Bytes} {t t' : τ} (h : Output.write bs t = (.ok (), t')) :
    taken t' = taken t ++ bs
  taken_flush {t t' : τ} (h : Output.flush t = (.ok (), t')) : taken t' = taken t
  taken_drain {t t' : τ} (h : Output.drain t = (.ok (), t')) : taken t' = taken t
  arrived_drain {t t' : τ} (h : Output.drain t = (.ok (), t')) : arrived t' = taken t'

/-- A property of outputs that every operation keeps, none of them failing. -/
structure Output.NeverFails {τ : Type} [Output τ] (I : τ → Prop) : Prop where
  write (bs : Bytes) {t : τ} (h : I t) : ∃ t', Output.write bs t = (.ok (), t') ∧ I t'
  flush {t : τ} (h : I t) : ∃ t', Output.flush t = (.ok (), t') ∧ I t'
  drain {t : τ} (h : I t) : ∃ t', Output.drain t = (.ok (), t') ∧ I t'

/-- The output does not fail, whatever is asked of it. -/
def Output.Reliable {τ : Type} [Output τ] (t : τ) : Prop := ∃ I : τ → Prop, NeverFails I ∧ I t

theorem Output.neverFails_reliable {τ : Type} [Output τ] :
    Output.NeverFails (@Output.Reliable τ _) where
  write bs _ := fun ⟨I, hI, h⟩ => (hI.write bs h).imp fun _ ⟨h₁, h₂⟩ => ⟨h₁, I, hI, h₂⟩
  flush := fun ⟨I, hI, h⟩ => (hI.flush h).imp fun _ ⟨h₁, h₂⟩ => ⟨h₁, I, hI, h₂⟩
  drain := fun ⟨I, hI, h⟩ => (hI.drain h).imp fun _ ⟨h₁, h₂⟩ => ⟨h₁, I, hI, h₂⟩

/-- A property of sinks that every operation keeps: an offer is accepted in part at least or met
with an interruption, and no flush fails. -/
structure Sink.NeverFails {σ : Type} [Sink σ] (I : σ → Prop) : Prop where
  accepted {bs : Bytes} {s s' : σ} {n : Nat} (hb : bs ≠ []) (h : I s)
    (hw : Sink.write bs s = (.accepted n, s')) : 0 < n ∧ I s'
  interrupted {bs : Bytes} {s s' : σ} (h : I s) (hw : Sink.write bs s = (.interrupted, s')) : I s'
  failed {bs : Bytes} {s s' : σ} {e : IoError} (h : I s) : Sink.write bs s ≠ (.failed e, s')
  flush {s : σ} (h : I s) : ∃ s', Sink.flush s = (.ok (), s') ∧ I s'

/-- The sink accepts everything in the end. -/
def Sink.Reliable {σ : Type} [Sink σ] (s : σ) : Prop := ∃ I : σ → Prop, NeverFails I ∧ I s

/-- Memory accounts for everything at once. -/
instance : Lossless (Array UInt8) where
  taken := Array.toList
  arrived := Array.toList
  taken_write h := by cases h; simp
  taken_flush h := by cases h; rfl
  taken_drain h := by cases h; rfl
  arrived_drain h := by cases h; rfl

theorem Output.reliable_memory (a : Array UInt8) : Output.Reliable a :=
  ⟨fun _ => True, ⟨fun _ _ _ => ⟨_, rfl, trivial⟩, fun _ => ⟨_, rfl, trivial⟩,
    fun _ => ⟨_, rfl, trivial⟩⟩, trivial⟩

namespace BufferedSink
variable {σ : Type} [Sink σ]

/-- What the sink has accepted and what waits in the buffer. -/
def taken (b : BufferedSink σ) : Bytes := b.accepted.toList ++ b.buffer.toList

theorem taken_drain_eq (b : BufferedSink σ) : b.drain.2.taken = b.taken := by
  simp only [drain, taken]
  exact accepted_drive _ _ _ _

theorem buffer_of_drain {b b' : BufferedSink σ} (h : b.drain = (.ok (), b')) :
    b'.buffer = #[] := by
  simp only [drain, Prod.mk.injEq] at h
  obtain ⟨hr, rfl⟩ := h
  simpa using rest_drive hr

theorem taken_of_drain {b b' : BufferedSink σ} {r : Except IoError Unit} (h : b.drain = (r, b')) :
    b'.taken = b.taken := by
  rw [← taken_drain_eq b, h]

/-- Before a longer piece is taken the buffer is emptied first unless the piece just fits, and a
piece that is offered directly never goes past octets that wait. -/
theorem emptied_before {bs : Bytes} {b b₁ : BufferedSink σ}
    (hlt : ¬ bs.length < b.capacity - b.buffer.size)
    (hd : (if b.capacity - b.buffer.size < bs.length then b.drain else (.ok (), b)) =
      (.ok (), b₁)) :
    b₁.taken = b.taken ∧ (b.capacity ≤ bs.length → b₁.buffer = #[] ∨ bs = []) ∧
      b₁.capacity = b.capacity := by
  split at hd
  · refine ⟨taken_of_drain hd, fun _ => .inl (buffer_of_drain hd), ?_⟩
    simp only [drain, Prod.mk.injEq] at hd
    rw [← hd.2]
  · cases hd
    refine ⟨rfl, fun hc => ?_, rfl⟩
    rw [← Array.size_eq_zero_iff, ← List.length_eq_zero_iff]
    omega

theorem taken_of_write {bs : Bytes} {b b' : BufferedSink σ} (h : b.write bs = (.ok (), b')) :
    b'.taken = b.taken ++ bs := by
  simp only [write] at h
  split at h
  · cases h
    simp [taken]
  · split at h
    · cases h
    · next hlt _ b₁ hd =>
      obtain ⟨ht, he, hc⟩ := emptied_before hlt hd
      split at h
      · next hle =>
        simp only [Prod.mk.injEq] at h
        obtain ⟨hr, rfl⟩ := h
        have hd := accepted_drive "failed to write whole buffer" bs b₁.sink b₁.accepted
        rw [rest_drive hr, List.append_nil] at hd
        rw [← ht]
        rcases he (hc ▸ hle) with hb | rfl
        · simp [taken, hb, hd]
        · simp [taken, hd]
      · cases h
        rw [← ht]
        simp [taken]

theorem taken_of_flush {b b' : BufferedSink σ} (h : b.flush = (.ok (), b')) :
    b'.taken = b.taken := by
  simp only [flush] at h
  split at h
  · cases h
  · next hd =>
    simp only [Prod.mk.injEq] at h
    obtain ⟨-, rfl⟩ := h
    exact (taken_of_drain hd :)

/-- **A buffer before any sink** loses nothing while nothing fails. -/
instance : Lossless (BufferedSink σ) where
  taken := taken
  arrived b := b.accepted.toList
  taken_write := taken_of_write
  taken_flush := taken_of_flush
  taken_drain := taken_of_drain
  arrived_drain {t t'} h := by
    have hb := buffer_of_drain h
    simp [taken, hb]

variable {I : σ → Prop} (hI : Sink.NeverFails I)
include hI

theorem drive_ok (stalled : String) (bs : Bytes) {s : σ} (h : I s) (accepted : Array UInt8) :
    (drive stalled bs s accepted).result = .ok () ∧ I (drive stalled bs s accepted).sink := by
  fun_induction drive stalled bs s accepted with
  | case1 => exact ⟨rfl, h⟩
  | case2 bs s accepted hb s' hw => exact absurd (hI.accepted hb h hw).1 (lt_irrefl 0)
  | case3 bs s accepted hb n s' hw ih => exact ih (hI.accepted hb h hw).2
  | case4 bs s accepted hb s' hw ih => exact ih (hI.interrupted h hw)
  | case5 bs s accepted hb e s' hw => exact absurd hw (hI.failed h)

theorem drain_ok {b : BufferedSink σ} (h : I b.sink) :
    ∃ b', b.drain = (.ok (), b') ∧ I b'.sink := by
  obtain ⟨hr, hs⟩ := drive_ok hI "failed to write the buffered data" b.buffer.toList h b.accepted
  refine ⟨_, Prod.ext hr rfl, hs⟩

theorem write_ok (bs : Bytes) {b : BufferedSink σ} (h : I b.sink) :
    ∃ b', b.write bs = (.ok (), b') ∧ I b'.sink := by
  simp only [write]
  split
  · exact ⟨_, rfl, h⟩
  · have hd : ∃ b₁, (if b.capacity - b.buffer.size < bs.length then b.drain else (.ok (), b)) =
        (.ok (), b₁) ∧ I b₁.sink := by
      split
      · exact drain_ok hI h
      · exact ⟨b, rfl, h⟩
    obtain ⟨b₁, hd, h₁⟩ := hd
    rw [hd]
    dsimp only
    split
    · obtain ⟨hr, hs⟩ := drive_ok hI "failed to write whole buffer" bs h₁ b₁.accepted
      exact ⟨_, Prod.ext hr rfl, hs⟩
    · exact ⟨_, rfl, h₁⟩

theorem flush_ok {b : BufferedSink σ} (h : I b.sink) :
    ∃ b', b.flush = (.ok (), b') ∧ I b'.sink := by
  obtain ⟨b₁, hd, h₁⟩ := drain_ok hI h
  obtain ⟨s, hs, h₂⟩ := hI.flush h₁
  refine ⟨{ b₁ with sink := s }, ?_, h₂⟩
  simp only [flush, hd, hs]

omit hI in
/-- **A buffer before a sink that does not fail** does not fail. -/
theorem reliable {b : BufferedSink σ} (h : Sink.Reliable b.sink) : Output.Reliable b := by
  obtain ⟨I, hI, hs⟩ := h
  exact ⟨fun b => I b.sink, ⟨write_ok hI, flush_ok hI, drain_ok hI⟩, hs⟩

end BufferedSink

/-- A scripted sink without faults accepts everything. -/
theorem ScriptedSink.reliable : Sink.Reliable ({} : ScriptedSink) := by
  have hwrite {bs : Bytes} {s : ScriptedSink} (hf : s.failAt = none) (hm : s.maxWrite = none) :
      Sink.write bs s = (.accepted bs.length, { s with accepted := s.accepted + bs.length }) := by
    have hr : s.room = none := by simp [room, hf]
    show write bs s = _
    simp only [write, hr, hm]
  refine ⟨fun s => s.failAt = none ∧ s.maxWrite = none ∧ s.flushFails = 0,
    ⟨?_, ?_, ?_, ?_⟩, rfl, rfl, rfl⟩
  · rintro bs s s' n hb ⟨hf, hm, hl⟩ h
    rw [hwrite hf hm] at h
    cases h
    exact ⟨List.length_pos_iff.2 hb, hf, hm, hl⟩
  · rintro bs s s' ⟨hf, hm, -⟩ h
    rw [hwrite hf hm] at h
    cases h
  · rintro bs s s' e ⟨hf, hm, -⟩ h
    rw [hwrite hf hm] at h
    cases h
  · rintro s ⟨hf, hm, hl⟩
    refine ⟨{ s with flushes := s.flushes + 1 }, ?_, hf, hm, hl⟩
    show flush s = _
    rw [flush, if_pos hl]

end SealedStream
