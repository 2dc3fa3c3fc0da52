import Mathlib
import SealedStream.Cipher.Scripted
import SealedStream.Proofs.Delimiting
import SealedStream.Proofs.Opening
import SealedStream.Proofs.RoundTrip
/-!
# A container is opened chunk by chunk

* A `Place` is a point between two chunks. `Place.decode` decodes the chunks from there one after
  another, until the final one is decoded or one cannot be: a `Decoding`.
* `Opener.Along limit p given wanted front back o`: of the chunks from `p` the opener `o` has
  decoded `front` and not `back`, has given out the first `given` octets, and has decoded nothing
  that is not wanted for the first `wanted`. `Along.step` says so of one more chunk, `Along.reads`
  of any requests.
* `Opener.reads_decode`: whatever is asked of an opener, it answers from the decoding.
-/
namespace SealedStream

/-! ## Decodings -/

/-- A point between two chunks: the octets behind it, and the cipher for them. -/
structure Place (M : Modes) where
  rest : Bytes
  cipher : KeyedCipher M

/-- A chunk that was decoded, and the place behind it. -/
structure Decoded (M : Modes) where
  plaintext : Bytes
  next : Place M

/-- The plaintext of chunks. -/
def Decoded.octets {M : Modes} (ds : List (Decoded M)) : Bytes := ds.flatMap plaintext

/-- What comes of one chunk. -/
inductive Attempt (M : Modes) where
  | failed (cause : StreamError) (stop : Place M)
  | decoded (d : Decoded M) (last : Bool)

/-- What comes of all chunks: those that were decoded, the end, and the place where it shows. -/
structure Decoding (M : Modes) where
  chunks : List (Decoded M)
  ending : Ending
  stop : Place M

namespace Decoding
variable {M : Modes}

/-- The plaintext of a container. -/
def octets (d : Decoding M) : Bytes := Decoded.octets d.chunks

/-- A decoding with a chunk before it. -/
def cons (c : Decoded M) (d : Decoding M) : Decoding M := { d with chunks := c :: d.chunks }

end Decoding

namespace Decoded
variable {M : Modes} {ds es : List (Decoded M)}

@[simp] theorem octets_nil : octets ([] : List (Decoded M)) = [] := rfl

@[simp] theorem octets_cons (d : Decoded M) : octets (d :: ds) = d.plaintext ++ octets ds := rfl

@[simp] theorem octets_append : octets (ds ++ es) = octets ds ++ octets es := List.flatMap_append

end Decoded

namespace Place
variable {M : Modes} {limit : Nat} {p : Place M}

/-- Decode the next chunk. -/
def attempt (limit : Nat) (p : Place M) : Attempt M :=
  match Opener.nextChunk limit p.rest with
  | (.error cause, rest) => .failed cause ⟨rest, p.cipher⟩
  | (.ok c, rest) =>
    let u := p.cipher.decryptChunk c
    match u.result with
    | .error e => .failed (.cipher e) ⟨rest, u.cipher⟩
    | .ok plaintext => .decoded ⟨plaintext, ⟨rest, u.cipher⟩⟩ c.last

theorem length_attempt_lt {d : Decoded M} {last : Bool} (h : p.attempt limit = .decoded d last) :
    d.next.rest.length < p.rest.length := by
  unfold attempt at h
  split at h
  · cases h
  · next c rest hc =>
    dsimp only at h
    split at h <;> cases h
    exact Opener.remaining_nextChunk_lt hc

/-- Decode chunks, until the final one is decoded or one cannot be. -/
def decode (limit : Nat) (p : Place M) : Decoding M :=
  match _h : p.attempt limit with
  | .failed cause stop => ⟨[], .failed cause, stop⟩
  | .decoded d true => ⟨[d], .finished, d.next⟩
  | .decoded d false => (decode limit d.next).cons d
termination_by p.rest.length
decreasing_by exact length_attempt_lt _h

theorem decode_of_failed {cause : StreamError} {stop : Place M}
    (h : p.attempt limit = .failed cause stop) : p.decode limit = ⟨[], .failed cause, stop⟩ := by
  rw [decode]
  split <;> simp_all

theorem decode_of_last {d : Decoded M} (h : p.attempt limit = .decoded d true) :
    p.decode limit = ⟨[d], .finished, d.next⟩ := by
  rw [decode]
  split <;> simp_all

theorem decode_of_decoded {d : Decoded M} (h : p.attempt limit = .decoded d false) :
    p.decode limit = (d.next.decode limit).cons d := by
  rw [decode]
  split <;> simp_all

/-- What keeps a chunk from being decoded carries no other failure. -/
theorem innermost_attempt {cause : StreamError} {stop : Place M}
    (h : p.attempt limit = .failed cause stop) : cause.innermost = cause := by
  unfold attempt at h
  split at h
  · next hn =>
    cases h
    rcases Opener.nextChunk_error (congrArg Prod.fst hn) with rfl | ⟨e, rfl⟩ <;> rfl
  · dsimp only at h
    split at h <;> cases h
    rfl

theorem innermost_decode {cause : StreamError} (h : (p.decode limit).ending = .failed cause) :
    cause.innermost = cause := by
  fun_induction decode limit p with
  | case1 p cause' stop ha =>
    cases h
    exact innermost_attempt ha
  | case2 => cases h
  | case3 p d ha ih => exact ih h

/-- A container that is finished has a final chunk. -/
theorem chunks_ne_nil_of_finished (h : (p.decode limit).ending = .finished) :
    (p.decode limit).chunks ≠ [] := by
  fun_induction decode limit p with
  | case1 => cases h
  | case2 => exact List.cons_ne_nil _ _
  | case3 => exact List.cons_ne_nil _ _

/-- The place behind chunks that were decoded from `p` on. -/
def after (p : Place M) (front : List (Decoded M)) : Place M := (front.map Decoded.next).getLastD p

@[simp] theorem after_nil (p : Place M) : p.after [] = p := rfl

@[simp] theorem after_concat (p : Place M) (front : List (Decoded M)) (d : Decoded M) :
    p.after (front ++ [d]) = d.next := by
  simp [after]

end Place

theorem Ending.phase_injective : Function.Injective Ending.phase := by
  rintro (_ | e) (_ | e') h <;> cases h <;> rfl

/-- How an end shows to someone who asks for octets: as no octets, or as a failure whose cause is
the one at the end. -/
def Ending.Shows : Ending → Except IoError Bytes → Prop
  | .finished, r => r = .ok []
  | .failed cause, r => ∃ e, r = .error e ∧ (StreamError.io e).innermost = cause

theorem Ending.shows_answer {e : Ending}
    (h : ∀ cause, e = .failed cause → cause.innermost = cause) : e.Shows e.answer := by
  cases e with
  | finished => rfl
  | failed cause => exact ⟨_, rfl, (StreamError.innermost_io_carrying ..).trans (h cause rfl)⟩

/-- Octets are asked for and none are given only where a container is finished. -/
theorem Contents.answer_eq_nil_iff {c : Contents} {n : Nat} (hn : 0 < n) :
    c.answer n = .ok [] ↔ c.octets = [] ∧ c.ending = .finished := by
  unfold answer
  split_ifs with h
  · cases c.ending <;> simp [Ending.answer, h.2]
  · have ho : c.octets ≠ [] := fun ho => h ⟨hn.ne', ho⟩
    simp [ho, hn.ne']

namespace Opener
variable {M : Modes} {ι : Type} [Input ι] {limit : Nat} {p : Place M} {o : Opener M ι}
  {given wanted : Nat} {front back : List (Decoded M)}

/-! ## An opener along a container -/

/-- The opener stands at a place. -/
structure At (p : Place M) (o : Opener M ι) : Prop where
  input : Input.Supplies o.input p.rest
  cipher : o.cipher = p.cipher

/-- **What an opener has done of a container.** Of the chunks from `p` on it has decoded those in
front, each of them for the sake of the first `wanted` octets, and `given` octets are given out.
While it runs it stands behind the chunks in front and has not read further. -/
structure Along (limit : Nat) (p : Place M) (given wanted : Nat) (front back : List (Decoded M))
    (o : Opener M ι) : Prop where
  limit_eq : o.limit = limit
  chunks : (p.decode limit).chunks = front ++ back
  count : o.chunks = front.length
  plaintext : o.plaintext = (Decoded.octets front).drop given
  needed (init : List (Decoded M)) (d : Decoded M) (h : front = init ++ [d]) :
    (Decoded.octets init).length < wanted
  running (h : o.phase = .running) :
    o.At (p.after front) ∧ given ≤ (Decoded.octets front).length ∧
      (p.after front).decode limit = ⟨back, (p.decode limit).ending, (p.decode limit).stop⟩
  stopped (h : o.phase ≠ .running) :
    o.At (p.decode limit).stop ∧ o.phase = (p.decode limit).ending.phase ∧ back = [] ∧
      ((p.decode limit).ending ≠ .finished → (Decoded.octets front).length < wanted)

/-- An opener that has read no chunk yet. -/
theorem along_of_begun (hl : o.limit = limit) (hc : o.chunks = 0) (ht : o.plaintext = [])
    (hp : o.phase = .running) (hat : o.At p) :
    Along limit p 0 0 [] (p.decode limit).chunks o where
  limit_eq := hl
  chunks := rfl
  count := hc
  plaintext := ht
  needed init d h := by simp at h
  running _ := ⟨hat, Nat.zero_le _, rfl⟩
  stopped h := absurd hp h

namespace Along

/-- More may be wanted. -/
theorem mono (h : o.Along limit p given wanted front back) {m : Nat} (hle : wanted ≤ m) :
    o.Along limit p given m front back where
  limit_eq := h.limit_eq
  chunks := h.chunks
  count := h.count
  plaintext := h.plaintext
  needed init d hf := (h.needed init d hf).trans_le hle
  running := h.running
  stopped hp :=
    let ⟨hat, hph, hb, hw⟩ := h.stopped hp
    ⟨hat, hph, hb, fun hn => (hw hn).trans_le hle⟩

/-- Plaintext at hand is given out. -/
theorem give (h : o.Along limit p given wanted front back) (n : Nat) :
    ({ o with plaintext := o.plaintext.drop n } : Opener M ι).Along limit p
      (given + min n o.plaintext.length) wanted front back where
  limit_eq := h.limit_eq
  chunks := h.chunks
  count := h.count
  plaintext := by
    show o.plaintext.drop n = _
    rw [h.plaintext, List.drop_drop, List.length_drop]
    rcases le_total n ((Decoded.octets front).length - given) with hle | hle
    · rw [min_eq_left hle]
    · rw [min_eq_right hle, List.drop_of_length_le (by omega), List.drop_of_length_le (by omega)]
  needed := h.needed
  running hp :=
    let ⟨hat, hle, hd⟩ := h.running hp
    ⟨⟨hat.input, hat.cipher⟩, by rw [h.plaintext, List.length_drop]; omega, hd⟩
  stopped hp :=
    let ⟨hat, hrest⟩ := h.stopped hp
    ⟨⟨hat.input, hat.cipher⟩, hrest⟩

end Along

/-! ## One more chunk -/

/-- An input that supplies a string gives the chunks of the string. -/
theorem tracks_nextChunk (limit : Nat) {i : ι} {bs : Bytes} (h : Input.Supplies i bs) :
    (nextChunk limit i).1 = (nextChunk limit bs).1 ∧
      Input.Supplies (nextChunk limit i).2 (nextChunk limit bs).2 := by
  obtain ⟨h₁, h₂⟩ := Chunk.tracks_nextDecoder limit i bs h
  rcases hr : (Chunk.nextDecoder limit).run i with ⟨r, i'⟩
  rcases hs : (Chunk.nextDecoder limit).run bs with ⟨r', bs'⟩
  rw [hr, hs] at h₁ h₂
  obtain rfl : r = r' := h₁
  rw [nextChunk, nextChunk, hr, hs]
  rcases r with e | _ | c <;> exact ⟨rfl, h₂⟩

/-- What an opener makes of the next chunk is what comes of it. -/
theorem step_of_attempt (hl : o.limit = limit) (ht : o.plaintext = []) (hp : o.phase = .running)
    (hat : o.At p) :
    o.step.limit = limit ∧
    match p.attempt limit with
    | .failed cause stop =>
      o.step.phase = .failed cause ∧ o.step.plaintext = [] ∧ o.step.chunks = o.chunks ∧
        o.step.At stop
    | .decoded d last =>
      o.step.phase = (if last then .ended else .running) ∧ o.step.plaintext = d.plaintext ∧
        o.step.chunks = o.chunks + 1 ∧ o.step.At d.next := by
  obtain ⟨h₁, h₂⟩ := tracks_nextChunk limit hat.input
  rcases hn : nextChunk limit p.rest with ⟨r, rest⟩
  rcases hn' : nextChunk limit o.input with ⟨r', i'⟩
  rw [hn, hn'] at h₁ h₂
  obtain rfl : r' = r := h₁
  have h₂ : Input.Supplies i' rest := h₂
  subst hl
  rw [step, Place.attempt, hn, hn']
  cases r' with
  | error cause => exact ⟨rfl, rfl, ht, rfl, h₂, hat.cipher⟩
  | ok c =>
    simp only [receive, hat.cipher]
    cases hr : (p.cipher.decryptChunk c).result with
    | error e => exact ⟨rfl, rfl, ht, rfl, h₂, rfl⟩
    | ok plaintext =>
      cases hlast : c.last with
      | true => exact ⟨rfl, rfl, rfl, rfl, h₂, rfl⟩
      | false => exact ⟨rfl, hp, rfl, rfl, h₂, rfl⟩

namespace Along

/-- **One more chunk**, when all plaintext is given out and more is wanted. -/
theorem step (h : o.Along limit p given wanted front back) (ht : o.plaintext = [])
    (hp : o.phase = .running) (hw : given < wanted) :
    ∃ front' back', o.step.Along limit p given wanted front' back' := by
  obtain ⟨hat, hle, hd⟩ := h.running hp
  have hlen : (Decoded.octets front).length = given :=
    le_antisymm (List.drop_eq_nil_iff.1 (h.plaintext.symm.trans ht)) hle
  obtain ⟨hl, hs⟩ := step_of_attempt h.limit_eq ht hp hat
  rcases ha : (p.after front).attempt limit with ⟨cause, stop⟩ | ⟨c, last⟩ <;> rw [ha] at hs
  · obtain ⟨hph, htx, hc, hst⟩ := hs
    rw [Place.decode_of_failed ha, Decoding.mk.injEq] at hd
    obtain ⟨rfl, he, hstop⟩ := hd
    refine ⟨front, [], hl, h.chunks, hc.trans h.count, ?_, h.needed, fun hr => ?_, fun _ => ?_⟩
    · rw [htx, List.drop_eq_nil_iff.2 hlen.le]
    · cases hph.symm.trans hr
    · rw [← hstop, ← he, hlen]
      exact ⟨hst, hph, rfl, fun _ => hw⟩
  · obtain ⟨hph, htx, hc, hst⟩ := hs
    -- the chunk moves from the back to the front
    have hmove : o.step.plaintext = (Decoded.octets (front ++ [c])).drop given ∧
        o.step.chunks = (front ++ [c]).length ∧ ∀ init d, front ++ [c] = init ++ [d] →
          (Decoded.octets init).length < wanted := by
      refine ⟨?_, by simp [hc, h.count], fun init d hi => ?_⟩
      · simp [htx, ← hlen]
      · obtain ⟨rfl, -⟩ := List.append_inj_left' hi rfl
        exact hlen ▸ hw
    obtain ⟨htx, hc, hn⟩ := hmove
    cases last with
    | true =>
      rw [Place.decode_of_last ha, Decoding.mk.injEq] at hd
      obtain ⟨rfl, he, hstop⟩ := hd
      refine ⟨front ++ [c], [], hl, ?_, hc, htx, hn, fun hr => ?_, fun _ => ?_⟩
      · rw [List.append_nil, h.chunks]
      · cases hph.symm.trans hr
      · rw [← hstop, ← he]
        exact ⟨hst, hph, rfl, fun hne => absurd rfl hne⟩
    | false =>
      rw [Place.decode_of_decoded ha, Decoding.cons, Decoding.mk.injEq] at hd
      obtain ⟨rfl, he, hstop⟩ := hd
      refine ⟨front ++ [c], (c.next.decode limit).chunks, hl, ?_, hc, htx, hn, fun _ => ?_,
        fun hne => absurd hph hne⟩
      · rw [h.chunks, List.append_assoc, List.singleton_append]
      · rw [Place.after_concat, ← he, ← hstop]
        refine ⟨hst, ?_, rfl⟩
        rw [Decoded.octets_append, List.length_append]
        omega

/-! ## Requests -/

/-- A request: what it wants is given out or there is no more. -/
theorem readInto (done : Array UInt8) (n total : Nat) (ht : given + n = total)
    (h : o.Along limit p given total front back) :
    ∃ front' back', (readInto done n o).2.Along limit p total total front' back' := by
  fun_induction Opener.readInto done n o generalizing given front back with
  | case1 done o => exact ⟨front, back, ht ▸ h⟩
  | case2 done n o hn hp now =>
    rename_i ih
    refine ih ?_ (h.give n)
    have hlen : now.length = min n o.plaintext.length := List.length_take
    omega
  | case3 done n o hn hp hr ih =>
    obtain ⟨front', back', h'⟩ := h.step (not_not.1 hp) hr (by omega)
    exact ih ht h'
  | case4 done n o hn hp he | case5 done n o hn hp cause he =>
    have hlen := List.drop_eq_nil_iff.1 (h.plaintext.symm.trans (not_not.1 hp))
    refine ⟨front, back, h.limit_eq, h.chunks, h.count, ?_, h.needed, fun hr => ?_, h.stopped⟩
    · rw [not_not.1 hp, List.drop_eq_nil_iff.2 (by omega)]
    · cases he.symm.trans hr

/-- **Any requests**: what they want is given out or there is no more, and no chunk is decoded that
they do not want. -/
theorem reads (ns : List Nat) (h : o.Along limit p given given front back) :
    ∃ front' back',
      (o.reads ns).2.Along limit p (given + ns.sum) (given + ns.sum) front' back' := by
  induction ns generalizing o given front back with
  | nil => exact ⟨front, back, h⟩
  | cons n ns ih =>
    obtain ⟨front', back', h'⟩ := (h.mono (Nat.le_add_right given n)).readInto #[] n _ rfl
    obtain ⟨front', back', h'⟩ := ih h'
    rw [List.sum_cons, ← Nat.add_assoc]
    exact ⟨front', back', h'⟩

/-- What is still to come are the octets of the container behind those that are given out. -/
theorem contents (h : o.Along limit p given wanted front back) :
    o.contents = ⟨(p.decode limit).octets.drop given, (p.decode limit).ending⟩ := by
  have hoct {front back} (hc : (p.decode limit).chunks = front ++ back) :
      (p.decode limit).octets = Decoded.octets front ++ Decoded.octets back := by
    rw [Decoding.octets, hc, Decoded.octets_append]
  fun_induction Opener.contents o generalizing given wanted front back with
  | case1 o hr ih =>
    obtain ⟨-, hle, -⟩ := h.running hr
    have hlen : o.plaintext.length = (Decoded.octets front).length - given := by
      rw [h.plaintext, List.length_drop]
    have he := h.give o.plaintext.length
    rw [min_self, List.drop_length] at he
    obtain ⟨front', back', h'⟩ :=
      (he.mono (m := given + o.plaintext.length + wanted + 1) (by omega)).step rfl hr (by omega)
    rw [ih h', hoct h.chunks, h.plaintext, Contents.prepend, List.length_drop,
      Nat.add_sub_cancel' hle, List.drop_left, List.drop_append_of_le_length hle]
  | case2 o he | case3 o cause he =>
    obtain ⟨-, hph, rfl, -⟩ := h.stopped (by simp [he])
    rw [hoct h.chunks, Decoded.octets_nil, List.append_nil, h.plaintext]
    congr 1
    exact Ending.phase_injective (he.symm.trans hph)

/-- A request for octets is answered with the next ones, and with the end where there are none;
without octets only if the final chunk was decoded. -/
theorem read (h : o.Along limit p given wanted front back) {n : Nat} (hn : 0 < n) :
    (given < (p.decode limit).octets.length →
      (o.read n).1 = .ok (((p.decode limit).octets.drop given).take n)) ∧
    ((p.decode limit).octets.length ≤ given → (p.decode limit).ending.Shows (o.read n).1) ∧
    ((o.read n).1 = .ok [] →
      (p.decode limit).ending = .finished ∧ (p.decode limit).octets.length ≤ given) := by
  rw [(read_eq n o).1, h.contents, Contents.answer_eq_nil_iff hn, List.drop_eq_nil_iff]
  refine ⟨fun hlt => if_neg fun h => ?_, fun hle => ?_, And.symm⟩
  · exact absurd (List.drop_eq_nil_iff.1 h.2) hlt.not_ge
  · rw [Contents.answer, if_pos ⟨hn.ne', List.drop_eq_nil_iff.2 hle⟩]
    exact Ending.shows_answer fun cause => Place.innermost_decode

end Along

theorem readInto_zero (done : Array UInt8) (o : Opener M ι) :
    readInto done 0 o = (.ok done.toList, o) := by
  rw [readInto, if_pos rfl]

/-- An opener that has come to its end is not changed by requests, up to the plaintext at hand. -/
theorem readInto_of_phase (done : Array UInt8) (n : Nat) (o : Opener M ι)
    (h : o.phase ≠ .running) :
    (readInto done n o).2 = { o with plaintext := o.plaintext.drop n } := by
  fun_induction readInto done n o with
  | case1 done o => rfl
  | case2 done n o hn hp now ih =>
    have hlen : now.length = min n o.plaintext.length := List.length_take
    rw [ih h, List.drop_drop, hlen]
    congr 1
    rcases le_total n o.plaintext.length with hle | hle
    · rw [min_eq_left hle, Nat.sub_self, Nat.add_zero]
    · rw [List.drop_of_length_le hle, List.drop_of_length_le (hle.trans (Nat.le_add_right _ _))]
  | case3 done n o hn hp hr ih => exact absurd hr h
  | case4 done n o hn hp he | case5 done n o hn hp cause he =>
    cases o
    obtain rfl := not_not.1 hp
    simp

theorem reads_of_phase (ns : List Nat) (o : Opener M ι) (h : o.phase ≠ .running) :
    (o.reads ns).2 = { o with plaintext := o.plaintext.drop ns.sum } := by
  induction ns generalizing o with
  | nil => rfl
  | cons n ns ih =>
    have hr : (o.read n).2 = { o with plaintext := o.plaintext.drop n } :=
      readInto_of_phase #[] n o h
    calc (o.reads (n :: ns)).2 = (reads ns (o.read n).2).2 := rfl
      _ = { o with plaintext := (o.plaintext.drop n).drop ns.sum } := by
        rw [hr]
        exact ih _ h
      _ = { o with plaintext := o.plaintext.drop (n :: ns).sum } := by
        rw [List.drop_drop, List.sum_cons]

/-! ## From the first octet on -/

/-- What comes of an input depends on the string that it supplies alone. -/
theorem start_of_supplies {s : Settings} {decrypter : Decrypter M} {i : ι} {bs : Bytes}
    (hs : s.validate = .ok ()) (hi : Input.Supplies i bs) :
    match (Preamble.decoder s.maxFieldLen).run bs with
    | (.error e, _) => start s decrypter i = .error (.ofRecord e)
    | (.ok pre, rest) =>
      match decrypter pre with
      | .error e => start s decrypter i = .error (.suite e)
      | .ok session => ∃ o, start s decrypter i = .ok o ∧ o.chunks = 0 ∧
          Begun s pre session.cipher rest o := by
  obtain ⟨h₁, h₂⟩ := Preamble.tracks_decoder s.maxFieldLen i bs hi
  rcases hr : (Preamble.decoder s.maxFieldLen).run bs with ⟨r, rest⟩
  rcases hr' : (Preamble.decoder s.maxFieldLen).run i with ⟨r', i'⟩
  rw [hr, hr'] at h₁ h₂
  obtain rfl : r' = r := h₁
  cases r' with
  | error e =>
    simp only [start, hs, hr']
    rfl
  | ok pre =>
    cases hd : decrypter pre with
    | error e =>
      simp only [start, hs, hr', hd]
      rfl
    | ok session =>
      simp only [start, hs, hr', hd]
      exact ⟨_, rfl, rfl, rfl, rfl, rfl, rfl, rfl, h₂⟩

/-- How an opener begins along a container. -/
theorem start_along {s : Settings} {decrypter : Decrypter M} {i : ι} {c rest : Bytes}
    {pre : Preamble} {session : DecryptionSession M} (hs : s.validate = .ok ())
    (hi : Input.Supplies i c) (hc : (Preamble.decoder s.maxFieldLen).run c = (.ok pre, rest))
    (hd : decrypter pre = .ok session) :
    ∃ o, start s decrypter i = .ok o ∧ o.preamble = pre ∧ o.cipher = session.cipher ∧
      Input.Supplies o.input rest ∧ ∃ front back,
        o.Along s.maxFieldLen ⟨rest, session.cipher⟩ 0 0 front back := by
  have h := @start_of_supplies M ι _ s decrypter i _ hs hi
  simp only [hc, hd] at h
  obtain ⟨o, ho, hch, hb⟩ := h
  exact ⟨o, ho, hb.preamble, hb.cipher, hb.input, _, _,
    along_of_begun hb.limit hch hb.plaintext hb.phase ⟨hb.input, hb.cipher⟩⟩

/-- **An opener answers from the chunks of its container**, decoded one after another. Whatever
the octets behind the preamble are and whatever was asked for, every further request is answered
with as many of the next octets as there are, and with the end where there are none; without
octets only if the final chunk was decoded. A request for nothing changes nothing. No chunk is
decoded before its plaintext is wanted, and nothing is read behind the chunk at the end. -/
theorem reads_decode {s : Settings} {decrypter : Decrypter M} {i : ι} {c rest : Bytes}
    {pre : Preamble} {session : DecryptionSession M} (hs : s.validate = .ok ())
    (hi : Input.Supplies i c) (hc : (Preamble.decoder s.maxFieldLen).run c = (.ok pre, rest))
    (hd : decrypter pre = .ok session) :
    ∃ o, start s decrypter i = .ok o ∧ o.preamble = pre ∧
      ∀ ns : List Nat,
        let p : Place M := ⟨rest, session.cipher⟩
        let d := p.decode s.maxFieldLen
        let o' := (o.reads ns).2
        (∀ n, 0 < n →
          (ns.sum < d.octets.length →
            (o'.read n).1 = .ok ((d.octets.drop ns.sum).take n)) ∧
          (d.octets.length ≤ ns.sum → d.ending.Shows (o'.read n).1) ∧
          ((o'.read n).1 = .ok [] → d.ending = .finished ∧ d.octets.length ≤ ns.sum)) ∧
        o'.read 0 = (.ok [], o') ∧
        (∃ front back, o'.Along s.maxFieldLen p ns.sum ns.sum front back) ∧
        (o'.phase ≠ .running → ∀ ms,
          (o'.reads ms).2 = { o' with plaintext := o'.plaintext.drop ms.sum }) := by
  obtain ⟨o, ho, hpre, -, -, front, back, hal⟩ := start_along hs hi hc hd
  refine ⟨o, ho, hpre, fun ns => ?_⟩
  obtain ⟨front, back, hal⟩ := hal.reads ns
  rw [Nat.zero_add] at hal
  exact ⟨fun n hn => hal.read hn, readInto_zero _ _, ⟨front, back, hal⟩, fun hp ms =>
    reads_of_phase ms _ hp⟩

/-- Two octets, a chunk without any, and a final chunk that is not made of whole blocks. -/
def misaligned : List Chunk := [⟨false, [], [8, 9]⟩, ⟨false, [], []⟩, ⟨true, [], [7]⟩]

theorem decode_misaligned :
    let d := (@Place.mk .scripted (misaligned.flatMap Chunk.octets)
      (.block ⟨2, 7, 0, 0, .decrypt⟩)).decode Settings.short.maxFieldLen
    d.octets = [1, 2] ∧ d.ending = .failed (.cipher (.blockAlignment 1 2)) := by
  intro d
  have hd : d = _ := Place.decode_of_decoded rfl
  rw [Place.decode_of_decoded rfl, Place.decode_of_failed rfl] at hd
  rw [hd]
  exact ⟨rfl, rfl⟩

/-- A request that wants more than there is gives what there is; the failure shows after that. -/
theorem reads_decode_misaligned :
    ∃ o, @start .scripted _ _ .short (.direct (.block ⟨2, 7, 0, 0, .decrypt⟩))
        (Preamble.octets ⟨[1], "x", "y"⟩ ++ misaligned.flatMap Chunk.octets) = .ok o ∧
      ((o.reads [1]).2.read 5).1 = .ok [2] ∧
      (Ending.failed (.cipher (.blockAlignment 1 2))).Shows ((o.reads [1, 5]).2.read 3).1 := by
  obtain ⟨o, ho, -, h⟩ := @reads_decode .scripted Bytes _ .short
    (.direct (.block ⟨2, 7, 0, 0, .decrypt⟩)) _ _ _ _ _ rfl (Input.supplies_self _)
    (@Preamble.parses_decoder 64 ⟨[1], "x", "y"⟩ (by decide) (by decide)
      (misaligned.flatMap Chunk.octets)) rfl
  obtain ⟨hoct, hend⟩ := decode_misaligned
  have h₁ := (h [1]).1 5 (by decide)
  have h₂ := (h [1, 5]).1 3 (by decide)
  dsimp only at h₁ h₂ hoct hend
  rw [hoct] at h₁ h₂
  rw [hend] at h₂
  exact ⟨o, ho, h₁.1 (by decide), h₂.2.1 (by decide)⟩

end Opener

end SealedStream
