import Mathlib
import SealedStream.Opener
import SealedStream.Proofs.Transport
/-!
# What a container gives to its reader

* `Contents` are the octets that a container still gives and how it ends; `Contents.answers` are
  the answers to requests for them.
* `Opener.contents` are those of an opener. They do not depend on how they are asked for:
  `reads_eq` says that the answers to any requests are those of the contents.
* `Contents.ofChunks` are those of a row of chunks under a cipher, one chunk after another.
  `Opener.contents_eq` says that an opener gives them, and `Opener.start_eq` how it begins.
-/
namespace SealedStream

/-! ## Contents -/

/-- How a container ends. -/
inductive Ending where
  | finished
  | failed (cause : StreamError)

/-- The answer to a request at the end. -/
def Ending.answer : Ending → Except IoError Bytes
  | finished => .ok []
  | failed cause => .error cause.toSharedIo

/-- The phase of an opener at the end. -/
def Ending.phase : Ending → Phase
  | finished => .ended
  | failed cause => .failed cause

/-- The octets that are still to come, and the end behind them. -/
structure Contents where
  octets : Bytes
  ending : Ending

namespace Contents

/-- Contents with more octets before them. -/
def prepend (bs : Bytes) (c : Contents) : Contents := ⟨bs ++ c.octets, c.ending⟩

/-- What is left after `n` octets. -/
def after (n : Nat) (c : Contents) : Contents := ⟨c.octets.drop n, c.ending⟩

/-- The answer to a request for `n` octets: that many, or all that are left. The end shows where
none are. -/
def answer (n : Nat) (c : Contents) : Except IoError Bytes :=
  if n ≠ 0 ∧ c.octets = [] then c.ending.answer else .ok (c.octets.take n)

/-- The answers to requests, one after another. -/
def answers : List Nat → Contents → List (Except IoError Bytes)
  | [], _ => []
  | n :: ns, c => c.answer n :: answers ns (c.after n)

@[simp] theorem prepend_nil (c : Contents) : c.prepend [] = c := rfl

@[simp] theorem prepend_prepend (a b : Bytes) (c : Contents) :
    (c.prepend b).prepend a = c.prepend (a ++ b) := by
  simp [prepend]

@[simp] theorem after_zero (c : Contents) : c.after 0 = c := rfl

@[simp] theorem after_after (m n : Nat) (c : Contents) : (c.after m).after n = c.after (m + n) := by
  simp [after]

theorem after_prepend (n : Nat) (bs : Bytes) (c : Contents) :
    (c.prepend bs).after n = (c.after (n - bs.length)).prepend (bs.drop n) := by
  simp [after, prepend, List.drop_append]

/-- Without a failure every request is met, and what is given are the first octets. -/
theorem answers_of_finished {c : Contents} (h : c.ending = .finished) (ns : List Nat) :
    ∃ given : List Bytes, c.answers ns = given.map .ok ∧
      given.flatten = c.octets.take ns.sum := by
  induction ns generalizing c with
  | nil => exact ⟨[], rfl, by simp⟩
  | cons n ns ih =>
    obtain ⟨given, h₁, h₂⟩ := ih (c := c.after n) h
    refine ⟨c.octets.take n :: given, ?_, ?_⟩
    · rw [answers, h₁, List.map_cons]
      congr 1
      unfold answer
      split_ifs with hn
      · simp [h, Ending.answer, hn.2]
      · rfl
    · rw [List.flatten_cons, h₂, List.sum_cons, List.take_add]
      rfl

end Contents

namespace Opener
variable {M : Modes} {ι : Type} [Input ι]

/-! ## Contents of an opener -/

/-- An opener whose plaintext at hand was given out. -/
def emptied (o : Opener M ι) : Opener M ι := { o with plaintext := [] }

omit [Input ι] in
@[simp] theorem phase_emptied (o : Opener M ι) : o.emptied.phase = o.phase := rfl

omit [Input ι] in
@[simp] theorem plaintext_emptied (o : Opener M ι) : o.emptied.plaintext = [] := rfl

omit [Input ι] in
theorem emptied_of_nil {o : Opener M ι} (h : o.plaintext = []) : o.emptied = o := by
  cases o
  simp only at h
  subst h
  rfl

/-- What an opener still gives: the plaintext of all chunks up to the end. -/
def contents (o : Opener M ι) : Contents :=
  match _h : o.phase with
  | .running => o.emptied.step.contents.prepend o.plaintext
  | .ended => ⟨o.plaintext, .finished⟩
  | .failed cause => ⟨o.plaintext, .failed cause⟩
termination_by o.stepsLeft
decreasing_by exact stepsLeft_step_lt (o := o.emptied) _h

theorem contents_running {o : Opener M ι} (h : o.phase = .running) :
    o.contents = o.emptied.step.contents.prepend o.plaintext := by
  rw [contents]
  split <;> simp_all

theorem contents_of_phase {o : Opener M ι} {e : Ending} (h : o.phase = e.phase) :
    o.contents = ⟨o.plaintext, e⟩ := by
  rw [contents]
  cases e <;> split <;> simp_all [Ending.phase]

theorem contents_eq_prepend (o : Opener M ι) :
    o.contents = o.emptied.contents.prepend o.plaintext := by
  rcases hp : o.phase with _ | _ | cause
  · rw [contents_running hp, contents_running (o := o.emptied) hp]
    rfl
  · rw [contents_of_phase (e := .finished) hp,
      contents_of_phase (o := o.emptied) (e := .finished) hp]
    simp [Contents.prepend]
  · rw [contents_of_phase (e := .failed cause) hp,
      contents_of_phase (o := o.emptied) (e := .failed cause) hp]
    simp [Contents.prepend]

/-- The plaintext at hand is all that changes when some of it is given out. -/
theorem contents_given (o : Opener M ι) (bs : Bytes) :
    { o with plaintext := bs }.contents = o.emptied.contents.prepend bs :=
  contents_eq_prepend { o with plaintext := bs }

theorem contents_step {o : Opener M ι} (h : o.phase = .running) (hp : o.plaintext = []) :
    o.contents = o.step.contents := by
  rw [contents_running h, hp, Contents.prepend_nil, emptied_of_nil hp]

/-! ## Requests -/

/-- Requests for octets, one after another. -/
def reads : List Nat → Opener M ι → List (Except IoError Bytes) × Opener M ι
  | [], o => ([], o)
  | n :: ns, o =>
    match o.read n with
    | (r, o) => (r :: (reads ns o).1, (reads ns o).2)

theorem readInto_eq (done : Array UInt8) (n : Nat) (o : Opener M ι) :
    (readInto done n o).2.contents = o.contents.after n ∧
      (readInto done n o).1 = if n ≠ 0 ∧ o.contents.octets = [] ∧ done = #[] then
        o.contents.ending.answer else .ok (done.toList ++ o.contents.octets.take n) := by
  fun_induction readInto done n o with
  | case1 => simp
  | case2 done n o hn hp given ih =>
    obtain ⟨h₁, h₂⟩ := ih
    have hlen : given.length = min n o.plaintext.length := List.length_take
    have hg : done ++ given ≠ #[] := fun h => by
      simpa [given, hn, hp] using congrArg Array.toList h
    rw [contents_given o (o.plaintext.drop n)] at h₁ h₂
    rw [h₁, h₂, contents_eq_prepend o, Contents.after_prepend, Contents.after_prepend,
      if_neg fun h => hg h.2.2, if_neg fun h => hp (List.append_eq_nil_iff.1 h.2.1).1]
    -- either the request ends within the plaintext at hand, or it takes all of it
    rcases le_total n o.plaintext.length with hle | hle
    · rw [hlen, min_eq_left hle, Nat.sub_self, Nat.sub_eq_zero_of_le hle]
      simp [given, Contents.prepend, List.take_append, Nat.sub_eq_zero_of_le hle]
    · rw [hlen, min_eq_right hle, List.drop_of_length_le hle]
      simp [given, Contents.prepend, List.take_append, List.take_of_length_le hle]
  | case3 done n o hn hp h ih =>
    rw [contents_step h (not_not.1 hp)]
    exact ih
  | case4 done n o hn hp h =>
    rw [contents_of_phase (e := .finished) h, not_not.1 hp]
    refine ⟨by simp [Contents.after], ?_⟩
    split_ifs with hd
    · simp [Ending.answer, hd.2.2]
    · simp
  | case5 done n o hn hp cause h =>
    rw [contents_of_phase (e := .failed cause) h, not_not.1 hp]
    refine ⟨by simp [Contents.after], ?_⟩
    by_cases hd : done = #[]
    · simp [hd, hn, Ending.answer]
    · simp [hd]

theorem read_eq (n : Nat) (o : Opener M ι) :
    (o.read n).1 = o.contents.answer n ∧ (o.read n).2.contents = o.contents.after n := by
  obtain ⟨h₁, h₂⟩ := readInto_eq #[] n o
  refine ⟨h₂.trans ?_, h₁⟩
  simp [Contents.answer]

/-- **However an opener is asked, it answers from its contents**: with the next octets while there
are any, and then with its end. -/
theorem reads_eq (ns : List Nat) (o : Opener M ι) : (o.reads ns).1 = o.contents.answers ns := by
  induction ns generalizing o with
  | nil => rfl
  | cons n ns ih =>
    obtain ⟨h₁, h₂⟩ := read_eq n o
    simp only [reads, Contents.answers, ih, h₁, h₂]

theorem phase_readInto (done : Array UInt8) (n : Nat) (o : Opener M ι)
    (h : o.contents.octets.length < n) :
    (readInto done n o).2.phase = o.contents.ending.phase := by
  fun_induction readInto done n o with
  | case1 => exact absurd h (Nat.not_lt_zero _)
  | case2 done n o hn hp given ih =>
    have hlen : given.length = min n o.plaintext.length := List.length_take
    have hc := contents_eq_prepend o
    rw [hc] at h ⊢
    rw [contents_given o (o.plaintext.drop n)] at ih
    simp only [Contents.prepend, List.length_append, List.length_drop] at h ih ⊢
    exact ih (by omega)
  | case3 done n o hn hp hr ih =>
    rw [contents_step hr (not_not.1 hp)] at h ⊢
    exact ih h
  | case4 done n o hn hp he => rw [contents_of_phase (e := .finished) he]; exact he
  | case5 done n o hn hp cause he => rw [contents_of_phase (e := .failed cause) he]; exact he

theorem phase_readInto_of_end {e : Ending} (done : Array UInt8) (n : Nat) (o : Opener M ι)
    (h : o.phase = e.phase) : (readInto done n o).2.phase = e.phase := by
  fun_induction readInto done n o with
  | case1 => exact h
  | case2 done n o hn hp given ih => exact ih h
  | case3 done n o hn hp hr ih => cases e <;> cases hr.symm.trans h
  | case4 => exact h
  | case5 => exact h

theorem phase_reads_of_end {e : Ending} (ns : List Nat) (o : Opener M ι) (h : o.phase = e.phase) :
    (o.reads ns).2.phase = e.phase := by
  induction ns generalizing o with
  | nil => exact h
  | cons n ns ih => exact ih _ (phase_readInto_of_end #[] n o h)

/-- An opener that is asked for more than there is comes to its end. -/
theorem phase_reads (ns : List Nat) (o : Opener M ι) (h : o.contents.octets.length < ns.sum) :
    (o.reads ns).2.phase = o.contents.ending.phase := by
  induction ns generalizing o with
  | nil => simp at h
  | cons n ns ih =>
    by_cases hn : o.contents.octets.length < n
    · exact phase_reads_of_end ns _ (phase_readInto #[] n o hn)
    · have hc := (read_eq n o).2
      have h' : (o.read n).2.contents.octets.length < ns.sum := by
        rw [hc, Contents.after, List.length_drop]
        rw [List.sum_cons] at h
        omega
      rw [reads, ih _ h', hc]
      rfl

end Opener

/-! ## Contents of chunks -/

/-- The contents of a row of chunks, with fields of at most `limit` octets, under a cipher. -/
def Contents.ofChunks {M : Modes} (limit : Nat) : List Chunk → KeyedCipher M → Contents
  | [], _ => ⟨[], .failed .truncated⟩
  | c :: cs, k =>
    match c.excess? limit with
    | some len => ⟨[], .failed (.wire (.fieldTooLarge len limit))⟩
    | none =>
      let u := k.decryptChunk c
      match u.result with
      | .error e => ⟨[], .failed (.cipher e)⟩
      | .ok bs => if c.last then ⟨bs, .finished⟩ else (ofChunks limit cs u.cipher).prepend bs

/-- A row of chunks is decrypted: `KeyedCipher.Reads k cs bss k'` if the cipher `k` makes the
plaintexts `bss` of the chunks `cs`, and is `k'` after that. -/
inductive KeyedCipher.Reads {M : Modes} :
    KeyedCipher M → List Chunk → List Bytes → KeyedCipher M → Prop where
  | nil (k : KeyedCipher M) : Reads k [] [] k
  | cons {k k' : KeyedCipher M} {c : Chunk} {cs : List Chunk} {bs : Bytes} {bss : List Bytes}
      (h : (k.decryptChunk c).result = .ok bs) (hs : Reads (k.decryptChunk c).cipher cs bss k') :
      Reads k (c :: cs) (bs :: bss) k'

namespace KeyedCipher.Reads
variable {M : Modes} {k k' : KeyedCipher M} {cs : List Chunk} {bss : List Bytes} {limit : Nat}

/-- The contents of chunks that are decrypted, none of them the final one. -/
theorem ofChunks_append (h : Reads k cs bss k')
    (hc : ∀ c ∈ cs, c.last = false ∧ c.excess? limit = none) (ds : List Chunk) :
    Contents.ofChunks limit (cs ++ ds) k = (Contents.ofChunks limit ds k').prepend bss.flatten := by
  induction h with
  | nil => rfl
  | @cons k k' c cs bs bss h hs ih =>
    obtain ⟨hl, he⟩ := hc c (by simp)
    have ih := ih fun c hm => hc c (by simp [hm])
    simp only [List.cons_append, Contents.ofChunks, he, h, hl, ih, Bool.false_eq_true, if_false,
      Contents.prepend_prepend, List.flatten_cons]

end KeyedCipher.Reads

namespace Opener
variable {M : Modes} {ι : Type} [Input ι]

/-! ## The next chunk -/

theorem nextChunk_of_parses {limit : Nat} {c : Chunk} {i : ι} {rest : Bytes} (he : c.Encodable)
    (hx : c.excess? limit = none) (h : Input.Supplies i (c.octets ++ rest)) :
    ∃ i', nextChunk limit i = (.ok c, i') ∧ Input.Supplies i' rest := by
  obtain ⟨h₁, h₂⟩ := Chunk.tracks_nextDecoder limit i _ h
  rw [Chunk.parses_nextDecoder he hx rest] at h₁ h₂
  rcases hr : (Chunk.nextDecoder limit).run i with ⟨r, i'⟩
  rw [hr] at h₁ h₂
  obtain rfl : r = .ok (some c) := h₁
  refine ⟨i', ?_, h₂⟩
  rw [nextChunk, hr]

theorem nextChunk_of_excess {limit len : Nat} {c : Chunk} {i : ι} {rest : Bytes} (he : c.Encodable)
    (hx : c.excess? limit = some len) (h : Input.Supplies i (c.octets ++ rest)) :
    (nextChunk limit i).1 = .error (.wire (.fieldTooLarge len limit)) := by
  obtain ⟨h₁, -⟩ := Chunk.tracks_nextDecoder limit i _ h
  rw [Chunk.fails_nextDecoder he hx rest] at h₁
  rcases hr : (Chunk.nextDecoder limit).run i with ⟨r, i'⟩
  rw [hr] at h₁
  obtain rfl : r = .error _ := h₁
  rw [nextChunk, hr]
  rfl

theorem nextChunk_of_nil {limit : Nat} {i : ι} (h : Input.Supplies i []) :
    (nextChunk limit i).1 = .error .truncated := by
  obtain ⟨h₁, -⟩ := Chunk.tracks_nextDecoder limit i _ h
  rcases hr : (Chunk.nextDecoder limit).run i with ⟨r, i'⟩
  rw [hr] at h₁
  obtain rfl : r = .ok none := h₁
  rw [nextChunk, hr]

/-! ## From the container to its contents -/

theorem contents_of_nextChunk_error {o : Opener M ι} {e : StreamError} (hp : o.phase = .running)
    (h : (nextChunk o.limit o.input).1 = .error e) :
    o.contents = ⟨o.plaintext, .failed e⟩ := by
  rw [contents_running hp, step]
  rcases hn : nextChunk o.emptied.limit o.emptied.input with ⟨r, i'⟩
  obtain rfl : r = .error e := by rw [← h]; exact (congrArg Prod.fst hn).symm
  rw [contents_of_phase (e := .failed e) rfl]
  simp [Contents.prepend, fail]

/-- **An opener gives the contents of the chunks that its input supplies.** -/
theorem contents_eq {cs : List Chunk} (hcs : ∀ c ∈ cs, c.Encodable) {o : Opener M ι}
    (hp : o.phase = .running) (h : Input.Supplies o.input (cs.flatMap Chunk.octets)) :
    o.contents = (Contents.ofChunks o.limit cs o.cipher).prepend o.plaintext := by
  induction cs generalizing o with
  | nil =>
    rw [contents_of_nextChunk_error hp (nextChunk_of_nil h)]
    simp [Contents.ofChunks, Contents.prepend]
  | cons c cs ih =>
    have he := hcs c (by simp)
    rw [List.flatMap_cons] at h
    rcases hx : c.excess? o.limit with _ | len
    · obtain ⟨i', hn, hs⟩ := nextChunk_of_parses he hx h
      have hn : nextChunk o.emptied.limit o.emptied.input = (.ok c, i') := hn
      rw [contents_running hp, step, hn]
      simp only [Contents.ofChunks, hx, receive]
      rcases hr : (o.emptied.cipher.decryptChunk c).result with e | bs
      · have hr' : (o.cipher.decryptChunk c).result = .error e := hr
        simp only [hr']
        rw [contents_of_phase (e := .failed (.cipher e)) rfl]
        rfl
      · have hr' : (o.cipher.decryptChunk c).result = .ok bs := hr
        simp only [hr']
        split_ifs with hl
        · rw [contents_of_phase (e := .finished) rfl]
        · rw [ih fun c hm => hcs c (by simp [hm])]
          · rfl
          · exact hp
          · exact hs
    · rw [contents_of_nextChunk_error hp (nextChunk_of_excess he hx h)]
      simp [Contents.ofChunks, hx, Contents.prepend]

/-! ## Beginning -/

/-- An opener that has read a preamble and nothing else. -/
structure Begun (s : Settings) (p : Preamble) (k : KeyedCipher M) (rest : Bytes)
    (o : Opener M ι) : Prop where
  preamble : o.preamble = p
  cipher : o.cipher = k
  limit : o.limit = s.maxFieldLen
  plaintext : o.plaintext = []
  phase : o.phase = .running
  input : Input.Supplies o.input rest

/-- How an opener begins to read a container whose preamble has the octets `p.octets`. -/
theorem start_eq {s : Settings} {p : Preamble} {decrypter : Decrypter M} {i : ι} {rest : Bytes}
    (hs : s.validate = .ok ()) (he : p.Encodable)
    (h : Input.Supplies i (p.octets ++ rest)) :
    (∀ len, p.excess? s.maxFieldLen = some len →
      start s decrypter i = .error (.wire (.fieldTooLarge len s.maxFieldLen))) ∧
    (p.excess? s.maxFieldLen = none →
      (∀ e, decrypter p = .error e → start s decrypter i = .error (.suite e)) ∧
      ∀ session, decrypter p = .ok session →
        ∃ o, start s decrypter i = .ok o ∧ Begun s p session.cipher rest o) := by
  obtain ⟨h₁, h₂⟩ := Preamble.tracks_decoder s.maxFieldLen i _ h
  rcases hr : (Preamble.decoder s.maxFieldLen).run i with ⟨r, i'⟩
  rw [hr] at h₁ h₂
  refine ⟨fun len hx => ?_, fun hx => ?_⟩
  · rw [Preamble.fails_decoder he hx rest] at h₁
    obtain rfl : r = .error _ := h₁
    simp only [start, hs, hr]
    rfl
  · rw [Preamble.parses_decoder he hx rest] at h₁ h₂
    obtain rfl : r = .ok p := h₁
    refine ⟨fun e hd => ?_, fun session hd => ?_⟩
    · simp only [start, hs, hr, hd]
      rfl
    · have hs' : Input.Supplies i' rest := h₂
      let o : Opener M ι :=
        { input := i', cipher := session.cipher, preamble := p, limit := s.maxFieldLen,
          events := (session.events ++ [Event.openerOpened p.pkAlgo p.encoding]).toArray }
      refine ⟨o, ?_, rfl, rfl, rfl, rfl, rfl, hs'⟩
      simp only [start, hs, hr, hd]
      rfl

/-- **What an opener gives of a container**: the contents of its chunks, under the cipher that the
decrypter finds for its preamble. -/
theorem start_contents {s : Settings} {p : Preamble} {cs : List Chunk} {decrypter : Decrypter M}
    {session : DecryptionSession M} {i : ι} (hs : s.validate = .ok ()) (he : p.Encodable)
    (hx : p.excess? s.maxFieldLen = none) (hcs : ∀ c ∈ cs, c.Encodable)
    (h : Input.Supplies i (Container.octets ⟨p, cs⟩)) (hd : decrypter p = .ok session) :
    ∃ o, start s decrypter i = .ok o ∧ o.preamble = p ∧
      o.contents = Contents.ofChunks s.maxFieldLen cs session.cipher := by
  rw [Container.octets_eq] at h
  obtain ⟨o, ho, hb⟩ := ((start_eq hs he h).2 hx).2 session hd
  refine ⟨o, ho, hb.preamble, ?_⟩
  rw [contents_eq hcs hb.phase hb.input, hb.limit, hb.cipher, hb.plaintext, Contents.prepend_nil]

end Opener

end SealedStream
