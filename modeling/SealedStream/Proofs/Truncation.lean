import Mathlib
import SealedStream.Proofs.Decoding
/-!
# Containers that are cut short or go on

Take a container that a reader has come to the end of.

* `Place.Ends limit p used`: from `p` on the container is finished after the octets `used`, whatever
  follows them, and it is cut short where some of them are missing; `Place.ends` says so of every
  container that is finished.
* `Opener.Along.unique`: openers along containers with the same plaintexts are in the same phase
  after the same requests.
* `Opener.reads_take`: what follows the end of a container does not show, and of a container that
  is cut short its reader gives the chunks that are complete, and then nothing but the cut.
-/
namespace SealedStream

/-- An input supplies one string. -/
theorem Input.Supplies.unique {ι : Type} [Input ι] {i : ι} {as bs : Bytes}
    (ha : Input.Supplies i as) (hb : Input.Supplies i bs) : as = bs := by
  have hle {as bs : Bytes} (ha : Input.Supplies i as) (hb : Input.Supplies i bs) :
      as.length ≤ bs.length ∧ as = bs.take as.length := by
    have h₁ := (Input.mirrors_supplies.readExact as.length ha).1
    have h₂ := (Input.mirrors_supplies.readExact as.length hb).1
    rw [h₁, Bytes.readExact_of_le le_rfl, List.take_length] at h₂
    rcases lt_or_ge bs.length as.length with hlt | hle
    · rw [Bytes.readExact_of_lt hlt] at h₂
      cases h₂
    · rw [Bytes.readExact_of_le hle] at h₂
      exact ⟨hle, Except.ok.inj h₂⟩
  obtain ⟨h₁, h₂⟩ := hle ha hb
  rw [h₂, List.take_of_length_le (hle hb ha).1]

/-! ## The octets of a decoding -/

namespace Decoding
variable {M : Modes}

/-- The plaintexts of the chunks. -/
def plaintexts (d : Decoding M) : List Bytes := d.chunks.map Decoded.plaintext

theorem octets_eq_flatten (d : Decoding M) : d.octets = d.plaintexts.flatten :=
  List.flatMap_def ..

@[simp] theorem plaintexts_cons (c : Decoded M) (d : Decoding M) :
    (d.cons c).plaintexts = c.plaintext :: d.plaintexts := rfl

end Decoding

namespace Place
variable {M : Modes} {limit : Nat} {p : Place M}

/-- A chunk that is decoded is decoded from its own octets. -/
theorem exists_attempt_eq {d : Decoded M} {last : Bool} (h : p.attempt limit = .decoded d last) :
    ∃ used, p.rest = used ++ d.next.rest ∧
      (∀ tail, (Place.mk (used ++ tail) p.cipher).attempt limit =
        .decoded ⟨d.plaintext, ⟨tail, d.next.cipher⟩⟩ last) ∧
      ∀ k < used.length, ∃ stop,
        (Place.mk (used.take k) p.cipher).attempt limit = .failed .truncated stop := by
  unfold attempt at h
  rcases hn : Opener.nextChunk limit p.rest with ⟨e | c, rest⟩ <;> rw [hn] at h
  · cases h
  · dsimp only at h
    split at h
    · cases h
    · next bs hr =>
      cases h
      obtain ⟨used, hb, hok, hcut⟩ := Opener.exists_nextChunk_eq hn
      refine ⟨used, hb, fun tail => ?_, fun k hk => ?_⟩
      · simp only [attempt, hok tail, hr]
      · have h := hcut k hk
        rcases hn' : Opener.nextChunk limit (used.take k) with ⟨r, i⟩
        rw [hn'] at h
        obtain rfl : r = _ := h
        exact ⟨_, by simp only [attempt, hn']; rfl⟩

/-- The octets behind a chunk are fewer than those behind the place that it was decoded from. -/
theorem length_lt_of_mem_decode {c : Decoded M} (h : c ∈ (p.decode limit).chunks) :
    c.next.rest.length < p.rest.length := by
  fun_induction decode limit p with
  | case1 => cases h
  | case2 p d ha =>
    obtain rfl := List.mem_singleton.1 h
    exact length_attempt_lt ha
  | case3 p d ha ih =>
    rcases List.mem_cons.1 h with rfl | hm
    · exact length_attempt_lt ha
    · exact (ih hm).trans (length_attempt_lt ha)

/-- The chunks that are complete within the first `k` octets. -/
def within (limit : Nat) (k : Nat) (p : Place M) : List Bytes :=
  ((p.decode limit).chunks.filter fun c => p.rest.length ≤ k + c.next.rest.length).map
    Decoded.plaintext

/-- From the place on the container is finished after the octets `used`, whatever follows them. Of
a beginning of them those chunks are left that are complete, and the rest is missing. -/
structure Ends (limit : Nat) (p : Place M) (used : Bytes) : Prop where
  rest : p.rest = used ++ (p.decode limit).stop.rest
  extended (tail : Bytes) :
    let d := (Place.mk (used ++ tail) p.cipher).decode limit
    d.plaintexts = (p.decode limit).plaintexts ∧ d.ending = .finished ∧ d.stop.rest = tail
  cut {k : Nat} (h : k < used.length) :
    let d := (Place.mk (used.take k) p.cipher).decode limit
    d.plaintexts = p.within limit k ∧ d.ending = .failed .truncated

/-- Within the first chunk no chunk is complete. -/
theorem within_of_lt {k : Nat} {used rest : Bytes} (hr : p.rest = used ++ rest)
    (hc : ∀ c ∈ (p.decode limit).chunks, c.next.rest.length ≤ rest.length) (hk : k < used.length) :
    p.within limit k = [] := by
  rw [within, List.map_eq_nil_iff, List.filter_eq_nil_iff]
  intro c hm
  have hle := hc c hm
  rw [hr, List.length_append, decide_eq_true_eq]
  omega

/-- Behind the first chunk it is complete, and so are those that are within what follows. -/
theorem within_of_le {k : Nat} {d : Decoded M} {used : Bytes}
    (ha : p.attempt limit = .decoded d false) (hr : p.rest = used ++ d.next.rest)
    (hk : used.length ≤ k) :
    p.within limit k = d.plaintext :: d.next.within limit (k - used.length) := by
  have hc : (p.decode limit).chunks = d :: (d.next.decode limit).chunks := by
    rw [decode_of_decoded ha]
    rfl
  have hd : p.rest.length ≤ k + d.next.rest.length := by
    rw [hr, List.length_append]
    omega
  rw [within, within, hc, List.filter_cons, if_pos (decide_eq_true hd), List.map_cons]
  congr 2
  refine List.filter_congr fun c _ => ?_
  rw [hr, List.length_append, decide_eq_decide]
  omega

theorem ends_of_last {d : Decoded M} (ha : p.attempt limit = .decoded d true) :
    ∃ used, p.Ends limit used := by
  obtain ⟨used, hr, hok, hcut⟩ := exists_attempt_eq ha
  have hd := decode_of_last ha
  refine ⟨used, by rw [hd]; exact hr, fun tail => ?_, fun {k} hk => ?_⟩
  · rw [decode_of_last (hok tail), hd]
    exact ⟨rfl, rfl, rfl⟩
  · obtain ⟨stop, hs⟩ := hcut k hk
    rw [decode_of_failed hs, within_of_lt hr (fun c hm => ?_) hk]
    · exact ⟨rfl, rfl⟩
    · rw [hd] at hm
      rw [List.mem_singleton.1 hm]

theorem Ends.decoded {d : Decoded M} {more : Bytes} (ha : p.attempt limit = .decoded d false)
    (h : d.next.Ends limit more) : ∃ used, p.Ends limit used := by
  obtain ⟨used, hr, hok, hcut⟩ := exists_attempt_eq ha
  have hd := decode_of_decoded ha
  refine ⟨used ++ more, ?_, fun tail => ?_, fun {k} hk => ?_⟩
  · rw [hd, hr, List.append_assoc]
    exact congrArg (used ++ ·) h.rest
  · obtain ⟨h₁, h₂, h₃⟩ := h.extended tail
    rw [List.append_assoc, decode_of_decoded (hok _), hd]
    exact ⟨congrArg (d.plaintext :: ·) h₁, h₂, h₃⟩
  · rcases lt_or_ge k used.length with hlt | hle
    · obtain ⟨stop, hs⟩ := hcut k hlt
      rw [List.take_append_of_le_length hlt.le, decode_of_failed hs,
        within_of_lt hr (fun c hm => ?_) hlt]
      · exact ⟨rfl, rfl⟩
      · rw [hd] at hm
        rcases List.mem_cons.1 hm with rfl | hm
        · exact le_rfl
        · exact (length_lt_of_mem_decode hm).le
    · rw [List.length_append] at hk
      obtain ⟨h₁, h₂⟩ := h.cut (k := k - used.length) (by omega)
      rw [List.take_append, List.take_of_length_le hle, decode_of_decoded (hok _),
        within_of_le ha hr hle, ← h₁]
      exact ⟨rfl, h₂⟩

/-- **A container that is finished tells where it ends.** -/
theorem ends (h : (p.decode limit).ending = .finished) : ∃ used, p.Ends limit used := by
  fun_induction decode limit p with
  | case1 => cases h
  | case2 p d ha => exact ends_of_last ha
  | case3 p d ha ih => exact (ih h).elim fun _ hmore => hmore.decoded ha

end Place

namespace Opener
variable {M : Modes} {ι κ : Type} [Input ι] [Input κ] {limit : Nat}

/-! ## Openers along the same plaintexts -/

namespace Along
variable {p q : Place M} {o : Opener M ι} {o' : Opener M κ} {given : Nat}
  {front back front' back' : List (Decoded M)}

/-- No more chunks are decoded than have the plaintext that is wanted. -/
theorem length_le (h : o.Along limit p given given front back)
    (h' : o'.Along limit q given given front' back')
    (hp : (p.decode limit).plaintexts = (q.decode limit).plaintexts) :
    front.length ≤ front'.length := by
  by_contra! hlt
  rw [Decoding.plaintexts, Decoding.plaintexts, h.chunks, h'.chunks, List.map_append,
    List.map_append] at hp
  obtain rfl | ⟨init, d, rfl⟩ := List.eq_nil_or_concat' front
  · exact absurd hlt (Nat.not_lt_zero _)
  have hpre : front'.map Decoded.plaintext <+: init.map Decoded.plaintext := by
    refine List.prefix_of_prefix_length_le ⟨_, hp.symm⟩
      ⟨d.plaintext :: back.map Decoded.plaintext, ?_⟩ ?_
    · simp
    · simp at hlt ⊢
      omega
  -- what the other opener has decoded is not enough for it, and yet it has stopped
  have hlen : (Decoded.octets front').length < given := by
    obtain ⟨more, hm⟩ := hpre
    refine lt_of_le_of_lt ?_ (h.needed init d rfl)
    rw [Decoded.octets, Decoded.octets, List.flatMap_def, List.flatMap_def, ← hm]
    simp
  have hstop : o'.phase ≠ .running := fun hr => absurd (h'.running hr).2.1 hlen.not_ge
  obtain ⟨-, -, rfl, -⟩ := h'.stopped hstop
  have := congrArg List.length hp
  simp only [List.length_append, List.length_map, List.length_nil] at this hlt
  omega

theorem runs (h : o.Along limit p given given front back)
    (h' : o'.Along limit q given given front' back')
    (hp : (p.decode limit).plaintexts = (q.decode limit).plaintexts)
    (he : (p.decode limit).ending = (q.decode limit).ending) (hr : o.phase = .running) :
    o'.phase = .running := by
  by_contra hstop
  obtain ⟨-, -, rfl, hw⟩ := h'.stopped hstop
  obtain ⟨-, hle, hd⟩ := h.running hr
  have hlen := le_antisymm (h.length_le h' hp) (h'.length_le h hp.symm)
  rw [Decoding.plaintexts, Decoding.plaintexts, h.chunks, h'.chunks, List.append_nil] at hp
  obtain rfl : back = [] := by
    have := congrArg List.length hp
    simp only [List.length_append, List.length_map] at this
    exact List.length_eq_zero_iff.1 (by omega)
  -- all chunks are decoded, and still the end is to come: then it is a failure
  have hne : (p.decode limit).ending ≠ .finished := fun hf =>
    Place.chunks_ne_nil_of_finished (p := p.after front) (by rw [hd]; exact hf) (by rw [hd])
  have hoct : Decoded.octets front = Decoded.octets front' := by
    rw [Decoded.octets, Decoded.octets, List.flatMap_def, List.flatMap_def, ← hp, List.append_nil]
  exact absurd (hoct ▸ hle) (hw (he ▸ hne)).not_ge

/-- **Openers along the same plaintexts** are in the same phase after the same requests. -/
theorem unique (h : o.Along limit p given given front back)
    (h' : o'.Along limit q given given front' back')
    (hp : (p.decode limit).plaintexts = (q.decode limit).plaintexts)
    (he : (p.decode limit).ending = (q.decode limit).ending) :
    o.phase = o'.phase ∧ o.chunks = o'.chunks := by
  refine ⟨?_, ?_⟩
  · by_cases hr : o.phase = .running
    · rw [hr, runs h h' hp he hr]
    · have hr' : o'.phase ≠ .running := fun hr' => hr (runs h' h hp.symm he.symm hr')
      rw [(h.stopped hr).2.1, (h'.stopped hr').2.1, he]
  · rw [h.count, h'.count]
    exact le_antisymm (h.length_le h' hp) (h'.length_le h hp.symm)

/-- What follows the end of a container does not show. -/
theorem reads_extended {used suffix : Bytes} (h : o.Along limit p 0 0 front back)
    (hends : p.Ends limit used) (hfin : (p.decode limit).ending = .finished)
    (h' : o'.Along limit ⟨used ++ suffix, p.cipher⟩ 0 0 front' back') (ms : List Nat) :
    (o'.reads ms).1 = (o.reads ms).1 ∧ (o'.reads ms).2.phase = (o.reads ms).2.phase ∧
      (o'.reads ms).2.chunks = (o.reads ms).2.chunks ∧
      ((o'.reads ms).2.phase = .ended → Input.Supplies (o'.reads ms).2.input suffix) := by
  obtain ⟨hp, he, hstop⟩ := hends.extended suffix
  obtain ⟨front₁, back₁, h₁⟩ := h.reads ms
  obtain ⟨front₂, back₂, h₂⟩ := h'.reads ms
  rw [Nat.zero_add] at h₁ h₂
  obtain ⟨hph, hch⟩ := h₂.unique h₁ hp (he.trans hfin.symm)
  refine ⟨?_, hph, hch, fun hend => ?_⟩
  · rw [reads_eq, reads_eq, h.contents, h'.contents, Decoding.octets_eq_flatten,
      Decoding.octets_eq_flatten, hp, he, hfin]
  · have hin := (h₂.stopped (by simp [hend])).1.input
    rwa [hstop] at hin

/-- Of a container that is cut short the complete chunks are given, and then the cut shows. -/
theorem reads_cut {used : Bytes} {k : Nat} (hends : p.Ends limit used) (hk : k < used.length)
    (h : o.Along limit ⟨used.take k, p.cipher⟩ 0 0 front back) (ms : List Nat) :
    (o.reads ms).1 = Contents.answers ms ⟨(p.within limit k).flatten, .failed .truncated⟩ ∧
      (o.reads ms).2.phase ≠ .ended := by
  obtain ⟨hp, he⟩ := hends.cut hk
  refine ⟨?_, fun hend => ?_⟩
  · rw [reads_eq, h.contents, Decoding.octets_eq_flatten, hp, he, List.drop_zero]
  · obtain ⟨front₁, back₁, h₁⟩ := h.reads ms
    have hph := (h₁.stopped (by simp [hend])).2.1
    rw [hend, he] at hph
    cases hph

end Along

/-! ## From the first octet on -/

/-- How an opener has begun. -/
theorem begun_of_start {s : Settings} {decrypter : Decrypter M} {i : ι} {bs : Bytes}
    {o : Opener M ι} (hi : Input.Supplies i bs) (ho : start s decrypter i = .ok o) :
    s.validate = .ok () ∧ ∃ pre rest session,
      (Preamble.decoder s.maxFieldLen).run bs = (.ok pre, rest) ∧ decrypter pre = .ok session := by
  have hs : s.validate = .ok () := by
    cases hv : s.validate with
    | ok => rfl
    | error e =>
      rw [start, hv] at ho
      cases ho
  refine ⟨hs, ?_⟩
  have h := @start_of_supplies M ι _ s decrypter i _ hs hi
  rcases hr : (Preamble.decoder s.maxFieldLen).run bs with ⟨e | pre, rest⟩ <;> rw [hr] at h
  · cases ho.symm.trans h
  · dsimp only at h
    cases hd : decrypter pre with
    | error e =>
      rw [hd] at h
      cases ho.symm.trans h
    | ok session => exact ⟨pre, rest, session, rfl, hd⟩

/-- **A container tells where it ends.** Take a container of which a reader has come to the end
after `n` octets. Whatever follows these, a reader gives the same and comes to its end behind
them. Of fewer octets it makes nothing if they do not hold the whole preamble, whatever the
decrypter would do; else it gives the plaintexts of the chunks that are complete, and then nothing
but the cut. -/
theorem reads_take {s : Settings} {decrypter : Decrypter M} {i : ι} {c : Bytes} {o : Opener M ι}
    {ns : List Nat} {n : Nat} (hi : Input.Supplies i c) (ho : start s decrypter i = .ok o)
    (hph : (o.reads ns).2.phase = .ended) (hn : n ≤ c.length)
    (hr : Input.Supplies (o.reads ns).2.input (c.drop n)) :
    (∀ (suffix : Bytes) {κ : Type} [Input κ] (j : κ), Input.Supplies j (c.take n ++ suffix) →
      ∃ o', start s decrypter j = .ok o' ∧ o'.preamble = o.preamble ∧ ∀ ms,
        (o'.reads ms).1 = (o.reads ms).1 ∧ (o'.reads ms).2.phase = (o.reads ms).2.phase ∧
        (o'.reads ms).2.chunks = (o.reads ms).2.chunks ∧
        ((o'.reads ms).2.phase = .ended → Input.Supplies (o'.reads ms).2.input suffix)) ∧
    ∃ e ≤ n, Input.Supplies o.input (c.drop e) ∧
      ∀ k < n, ∀ {κ : Type} [Input κ] (j : κ), Input.Supplies j (c.take k) →
        (k < e → ∀ decrypter' : Decrypter M, start s decrypter' j = .error .truncated) ∧
        (e ≤ k → ∃ o', start s decrypter j = .ok o' ∧ o'.preamble = o.preamble ∧ ∀ ms,
          (o'.reads ms).1 = Contents.answers ms
            ⟨((Place.mk (c.drop e) o.cipher).within s.maxFieldLen (k - e)).flatten,
              .failed .truncated⟩ ∧
          (o'.reads ms).2.phase ≠ .ended) := by
  obtain ⟨hs, pre, rest, session, hc, hd⟩ := begun_of_start hi ho
  obtain ⟨o₁, ho₁, hpre, hcipher, hin, front, back, hal⟩ := start_along hs hi hc hd
  cases ho.symm.trans ho₁
  obtain ⟨used, rfl, hspan⟩ := (Preamble.delimits_decoder _).spans hc
  -- the place where the container is finished is the one behind `n` octets
  obtain ⟨front₁, back₁, hend⟩ := hal.reads ns
  obtain ⟨hat, hfin, -, -⟩ := hend.stopped (by simp [hph])
  have hfin := Ending.phase_injective (hfin.symm.trans hph : _ = Ending.finished.phase)
  obtain ⟨more, hmore⟩ := Place.ends hfin
  have hdrop := hr.unique hat.input
  have hrest : rest = more ++ _ := hmore.rest
  have hlen : n = used.length + more.length := by
    have h := congrArg List.length hdrop
    rw [List.length_drop] at h
    have h' := congrArg List.length hrest
    rw [List.length_append] at h' hn h
    omega
  have htake : (used ++ rest).take n = used ++ more := by
    rw [hrest, ← List.append_assoc, hlen, ← List.length_append, List.take_left]
  refine ⟨fun suffix κ _ j hj => ?_, used.length, by omega, by rwa [List.drop_left],
    fun k hk κ _ j hj => ⟨fun hlt decrypter' => ?_, fun hle => ?_⟩⟩
  · rw [htake, List.append_assoc] at hj
    obtain ⟨o', ho', hpre', -, -, front', back', hal'⟩ :=
      start_along hs hj (hspan.parses (more ++ suffix)) hd
    exact ⟨o', ho', hpre'.trans hpre.symm, hal.reads_extended hmore hfin hal'⟩
  · rw [List.take_append_of_le_length hlt.le] at hj
    have h := @start_of_supplies M κ _ s decrypter' j _ hs hj
    have hstarve := hspan.starves hlt
    rcases hrun : (Preamble.decoder s.maxFieldLen).run (used.take k) with ⟨r, i'⟩
    rw [hrun] at h hstarve
    obtain rfl : r = _ := hstarve
    exact h
  · have hcut : (used ++ rest).take k = used ++ more.take (k - used.length) := by
      rw [List.take_append, List.take_of_length_le hle, hrest,
        List.take_append_of_le_length (by omega)]
    rw [hcut] at hj
    obtain ⟨o', ho', hpre', -, -, front', back', hal'⟩ :=
      start_along hs hj (hspan.parses (more.take (k - used.length))) hd
    refine ⟨o', ho', hpre'.trans hpre.symm, ?_⟩
    rw [List.drop_left, hcipher]
    exact Along.reads_cut hmore (by omega) hal'

/-- Two chunks of three octets in all. -/
def sample : Container := ⟨⟨[1], "x", "y"⟩, [⟨false, [], [8, 9]⟩, ⟨true, [], [7]⟩]⟩

theorem decode_sample :
    let d := (@Place.mk .scripted (sample.octets.drop 8 ++ [255]) (.stream ⟨3, 0, 0, 0⟩)).decode
      Settings.short.maxFieldLen
    d.octets.length = 3 ∧ d.ending = .finished ∧ d.stop.rest = [255] := by
  intro d
  have hd : d = _ := Place.decode_of_decoded rfl
  rw [Place.decode_of_last rfl] at hd
  rw [hd]
  exact ⟨rfl, rfl, rfl⟩

/-- The sample with other octets behind it, and the sample without its last octet. -/
theorem reads_take_sample :
    ∃ o, @start .scripted _ _ .short (.direct (.stream ⟨3, 0, 0, 0⟩)) (sample.octets ++ [255]) =
        .ok o ∧ (o.reads [9]).2.phase = .ended ∧
      (∃ o', @start .scripted _ _ .short (.direct (.stream ⟨3, 0, 0, 0⟩))
          (sample.octets ++ [1, 2]) = .ok o' ∧ (o'.reads [9]).2.phase = .ended ∧
        Input.Supplies (o'.reads [9]).2.input [1, 2]) ∧
      ∃ o', @start .scripted _ _ .short (.direct (.stream ⟨3, 0, 0, 0⟩))
          (sample.octets.take 20) = .ok o' ∧ (o'.reads [9, 1]).2.phase ≠ .ended := by
  obtain ⟨o, ho, -, -, hin, front, back, hal⟩ := @start_along .scripted Bytes _ .short
    (.direct (.stream ⟨3, 0, 0, 0⟩)) _ _ _ _ _ rfl (Input.supplies_self _)
    (@Preamble.parses_decoder 64 ⟨[1], "x", "y"⟩ (by decide) (by decide)
      (sample.octets.drop 8 ++ [255])) rfl
  obtain ⟨hoct, hfin, hstop⟩ := decode_sample
  have hph : (o.reads [9]).2.phase = .ended := by
    rw [phase_reads [9] o, hal.contents]
    · exact congrArg Ending.phase hfin
    · rw [hal.contents]
      exact hoct.trans_lt (by decide)
  obtain ⟨front', back', hal'⟩ := hal.reads [9]
  have hrest := (hal'.stopped (by simp [hph])).1.input
  obtain ⟨hext, e, -, he, hcut⟩ := @reads_take .scripted Bytes _ .short
    (.direct (.stream ⟨3, 0, 0, 0⟩)) _ (sample.octets ++ [255]) o [9] 21 (Input.supplies_self _) ho
    hph (by decide) (hstop ▸ hrest)
  obtain ⟨o₁, h₁, -, hr₁⟩ := hext [1, 2] (sample.octets ++ [1, 2]) (Input.supplies_self _)
  have he8 : e ≤ 20 := by
    have h : 22 - e = 14 := (List.length_drop ..).symm.trans (congrArg List.length (he.unique hin))
    omega
  obtain ⟨o₂, h₂, -, hr₂⟩ := (hcut 20 (by decide) (sample.octets.take 20)
    (Input.supplies_self _)).2 he8
  exact ⟨o, ho, hph, ⟨o₁, h₁, (hr₁ [9]).2.1.trans hph,
    (hr₁ [9]).2.2.2 ((hr₁ [9]).2.1.trans hph)⟩, o₂, h₂, (hr₂ [9, 1]).2⟩

end Opener

end SealedStream
