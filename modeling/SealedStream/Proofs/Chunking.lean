import Mathlib
import SealedStream.Cipher.Scripted
import SealedStream.Proofs.RoundTrip
/-!
# What chunks a sealer writes

* `Sealer.Request` is what a caller asks of a sealer, `Sealer.request` and `Sealer.requests` its
  answers; requests go on after a failure.
* `Plan.Cuts plan pending qs us rest`: the pieces `us` that requests `qs` are cut into, each
  request with its own. `Cuts.blocks` and `Cuts.all` are the two ways of cutting.
* `Sealer.Grew` are the chunks that were written between two states of a sealer, and their number;
  `requests_ok` says which these are.
* `KeyedCipher.InPlace` are the ciphers that leave lengths as they are. `Sealer.records_requests`:
  what the records of a container look like at every moment, for each family of ciphers.
-/
namespace SealedStream

/-! ## Pieces of a string -/

namespace Bytes
variable {n : Nat}

/-- There are as many pieces as it takes. -/
theorem length_pieces (hn : 0 < n) (bs : Bytes) :
    (pieces n bs).length = (bs.length + n - 1) / n := by
  induction bs using pieces_induction hn with
  | nil =>
    rw [pieces_nil, List.length_nil, List.length_nil, Nat.zero_add, Nat.div_eq_of_lt (by omega)]
  | cons bs hb ih =>
    have hpos := List.length_pos_iff.2 hb
    rw [pieces_eq_cons hn hb, List.length_cons, ih, List.length_drop]
    rcases le_total bs.length n with hle | hle
    · rw [Nat.sub_eq_zero_of_le hle, Nat.zero_add, Nat.div_eq_of_lt (by omega)]
      exact (Nat.div_eq_of_lt_le (by omega) (by omega)).symm
    · rw [← Nat.add_div_right _ hn]
      congr 1
      omega

theorem ne_nil_of_mem_pieces (hn : 0 < n) {bs p : Bytes} (h : p ∈ pieces n bs) : p ≠ [] := by
  induction bs using pieces_induction hn with
  | nil => cases h
  | cons bs hb ih =>
    rw [pieces_eq_cons hn hb, List.mem_cons] at h
    rcases h with rfl | h
    · simp [hb, hn.ne']
    · exact ih h

end Bytes

/-! ## Pieces of blocks -/

/-- The number of octets in the pieces before the final one. -/
def Piece.whole (ps : List Piece) : Nat := ((ps.filter (!·.last)).map (·.data.length)).sum

theorem Piece.whole_append (ps qs : List Piece) : whole (ps ++ qs) = whole ps + whole qs := by
  simp [whole]

theorem Piece.whole_map (cs : List Bytes) :
    whole (cs.map fun data => { data, last := false }) = cs.flatten.length := by
  rw [whole, List.filter_eq_self.2 (by simp), List.map_map, List.length_flatten]
  rfl

/-- The same number by the chunks, where these are as long as their pieces. -/
theorem Piece.whole_map_fst {t : List (Piece × Chunk)} (hl : ∀ x ∈ t, x.2.last = x.1.last)
    (hd : ∀ x ∈ t, x.2.data.length = x.1.data.length) :
    whole (t.map Prod.fst) = ((t.filter (!·.2.last)).map (·.2.data.length)).sum := by
  have hf : t.filter (!·.2.last) = t.filter (!·.1.last) :=
    List.filter_congr fun x hx => by rw [hl x hx]
  rw [whole, List.filter_map, List.map_map, hf]
  exact congrArg List.sum (List.map_congr_left fun x hx => (hd x (List.mem_filter.1 hx).1).symm)

/-- A piece of whole blocks: not empty and of as many blocks as the limit has room for, or of one;
the final one is one block. -/
structure Piece.OfBlocks (size limit : Nat) (p : Piece) : Prop where
  aligned : size ∣ p.data.length
  bounded (h : p.last = false) :
    0 < p.data.length ∧ p.data.length ≤ max size (size * (limit / size))
  final (h : p.last = true) : p.data.length = size

/-- A piece before the final one, if it is made of whole blocks. -/
theorem Plan.ofBlocks_of_mem {size limit : Nat} (hs : 0 < size) {last : Bool} {pending : Bytes}
    {p : Piece} (hp : p ∈ (blocks size limit last pending).pieces) (hl : p.last = false)
    (hd : size ∣ p.data.length) : p.OfBlocks size limit := by
  have hw : 0 < max (limit - limit % size) size := lt_max_of_lt_right hs
  have hmem : p.data ∈ Bytes.pieces (max (limit - limit % size) size)
      (pending.take (pending.length - pending.length % size)) := by
    unfold blocks at hp
    cases last with
    | false =>
      obtain ⟨data, hm, rfl⟩ := List.mem_map.1 hp
      exact hm
    | true =>
      rcases List.mem_append.1 hp with hp | hp
      · obtain ⟨data, hm, rfl⟩ := List.mem_map.1 hp
        exact hm
      · rw [List.mem_singleton.1 hp] at hl
        cases hl
  refine ⟨hd, fun _ => ⟨List.length_pos_iff.2 (Bytes.ne_nil_of_mem_pieces hw hmem), ?_⟩,
    fun h => by simp [hl] at h⟩
  have hle := Bytes.length_le_of_mem_pieces hw hmem
  have hdiv := Nat.div_add_mod limit size
  omega

/-- What is cut into blocks: the whole blocks of what is pending, and at the end the rest in a block
of its own. -/
theorem Plan.blocks_spec {size limit : Nat} (hs : 0 < size) (last : Bool) (pending : Bytes) :
    Piece.whole (blocks size limit last pending).pieces = size * (pending.length / size) ∧
      (blocks size limit last pending).rest.length =
        (if last then 0 else pending.length % size) ∧
      ∀ p ∈ (blocks size limit last pending).pieces, p.OfBlocks size limit := by
  obtain ⟨cs, rest, h₁, h₂, hf, hr, hx⟩ := @blocks_false size limit hs pending
  have hlen : cs.flatten.length + rest.length = pending.length := by
    rw [← hf, List.length_append]
  obtain ⟨m, hm⟩ : size ∣ cs.flatten.length := Bytes.dvd_length_flatten fun x h => (hx x h).1
  have hdiv : pending.length / size = m ∧ pending.length % size = rest.length := by
    rw [← hlen, hm, Nat.mul_add_div hs, Nat.div_eq_of_lt hr, Nat.mul_add_mod, Nat.mod_eq_of_lt hr]
    exact ⟨rfl, rfl⟩
  rw [hdiv.1, hdiv.2, ← hm]
  cases last with
  | false =>
    rw [h₁]
    refine ⟨Piece.whole_map cs, rfl, fun p hp => ?_⟩
    obtain ⟨x, hm, rfl⟩ := List.mem_map.1 hp
    exact @ofBlocks_of_mem size limit hs false pending _ (by rw [h₁]; exact hp) rfl (hx x hm).1
  | true =>
    rw [h₂]
    refine ⟨?_, rfl, fun p hp => ?_⟩
    · rw [Piece.row, Piece.whole_append, Piece.whole_map]
      rfl
    · rcases Piece.mem_row.1 hp with ⟨x, hm, rfl⟩ | rfl
      · exact @ofBlocks_of_mem size limit hs true pending _ (by rw [h₂]; exact hp) rfl (hx x hm).1
      · have hl := Padding.length_append_fill hr.le
        exact ⟨dvd_of_eq hl.symm, fun h => (by cases h), fun _ => hl⟩

/-! ## Containers are parsed -/

theorem Chunk.readAllInto_octets {limit : Nat} {cs : List Chunk}
    (hcs : ∀ c ∈ cs, c.Encodable ∧ c.excess? limit = none) (done : List Chunk) :
    readAllInto limit done (cs.flatMap octets) = (.ok (done.reverse ++ cs), []) := by
  induction cs generalizing done with
  | nil =>
    rw [readAllInto, List.append_nil]
    rfl
  | cons c cs ih =>
    obtain ⟨he, hx⟩ := hcs c List.mem_cons_self
    have hr := parses_nextDecoder he hx (cs.flatMap octets)
    rw [readAllInto, List.flatMap_cons]
    split
    · next c' rest h =>
      cases hr.symm.trans h
      rw [ih (fun c hc => hcs c (List.mem_cons_of_mem _ hc)) (c :: done)]
      simp
    · next h => cases hr.symm.trans h
    · next h => cases hr.symm.trans h

/-- **A container is parsed** into its preamble and its chunks, if their fields are within the
limit. -/
theorem Container.read_octets_of_limit {limit : Nat} {c : Container} (hp : c.preamble.Encodable)
    (hx : c.preamble.excess? limit = none)
    (hcs : ∀ x ∈ c.chunks, x.Encodable ∧ x.excess? limit = none) :
    read limit c.octets = (.ok c, []) := by
  have hr := Preamble.parses_decoder hp hx (c.chunks.flatMap Chunk.octets)
  have hall := Chunk.readAllInto_octets hcs []
  simp only [octets_eq, read, hr, Chunk.readAll, hall]
  rfl

/-- Under the greatest limit every container is parsed that could be written. -/
theorem Container.read_octets {c : Container} (hp : c.preamble.Encodable)
    (hcs : ∀ x ∈ c.chunks, x.Encodable) : read maxLength c.octets = (.ok c, []) :=
  read_octets_of_limit hp (Preamble.excess?_eq_none_iff.2 hp) fun x hx =>
    ⟨hcs x hx, Chunk.excess?_eq_none_iff.2 (hcs x hx)⟩

/-! ## Requests -/

/-- What a caller asks of a sealer. -/
inductive Sealer.Request where
  | write (data : Bytes)
  | flush
  | close
  deriving DecidableEq

namespace Sealer.Request

/-- The plaintext of a request. -/
def data : Request → Bytes
  | write data => data
  | flush | close => []

/-- Does a request end the plaintext? -/
def isClose : Request → Bool
  | close => true
  | write _ | flush => false

theorem isClose_iff {q : Request} : q.isClose = true ↔ q = close := by
  cases q <;> simp [isClose]

/-- The pieces of a request that takes all octets at once: as many as it takes, none of them empty
and none the final one; nothing for a flush; and an empty final one for the end. -/
def Fits (limit : Nat) : Request → List Piece → Prop
  | write data, ps => ps.length = (data.length + limit - 1) / limit ∧
      ps.flatMap Piece.data = data ∧
      ∀ p ∈ ps, p.last = false ∧ 1 ≤ p.data.length ∧ p.data.length ≤ limit
  | flush, ps => ps = []
  | close, ps => ps = [⟨[], true⟩]

end Sealer.Request

/-! ## How requests are cut -/

namespace Plan
open Sealer

/-- The pieces that requests are cut into, each request with its own:
`Cuts plan pending qs pss rest` if `pending` is pending before the requests and `rest` after them.
Only the last one may be the end. -/
inductive Cuts (plan : (last : Bool) → Bytes → Plan) :
    Bytes → List Request → List (List Piece) → Bytes → Prop where
  | nil (pending : Bytes) : Cuts plan pending [] [] pending
  | cons {pending rest rest' : Bytes} {q : Request} {qs : List Request} {ps : List Piece}
      {pss : List (List Piece)} (h : plan q.isClose (pending ++ q.data) = ⟨ps, rest⟩)
      (hq : q.isClose = true → qs = []) (hs : Cuts plan rest qs pss rest') :
      Cuts plan pending (q :: qs) (ps :: pss) rest'

theorem fits_all {limit : Nat} (hl : 0 < limit) (q : Request) :
    q.Fits limit (all limit q.isClose q.data).pieces := by
  cases q with
  | write data =>
    refine ⟨?_, ?_, fun p hp => ?_⟩
    · exact (List.length_map ..).trans (Bytes.length_pieces hl data)
    · refine Eq.trans ?_ (Bytes.flatten_pieces hl data)
      rw [List.flatMap_def]
      exact congrArg List.flatten ((List.map_map ..).trans (List.map_id _))
    · obtain ⟨bs, hb, rfl⟩ := List.mem_map.1 hp
      exact ⟨rfl, List.length_pos_iff.2 (Bytes.ne_nil_of_mem_pieces hl hb),
        Bytes.length_le_of_mem_pieces hl hb⟩
  | flush => rfl
  | close => rfl

/-- **Where all octets are taken at once** nothing is pending, and every request has pieces of its
own. -/
theorem Cuts.all {limit : Nat} (hl : 0 < limit) {qs : List Request} {pss : List (List Piece)}
    {pending rest : Bytes} (h : Cuts (all limit) pending qs pss rest) (hp : pending = []) :
    rest = [] ∧ List.Forall₂ (Request.Fits limit) qs pss := by
  induction h with
  | nil => exact ⟨hp, .nil⟩
  | @cons pending rest rest' q qs ps pss h hq hs ih =>
    subst hp
    rw [List.nil_append] at h
    have hrest := @rest_all limit q.isClose q.data
    rw [h] at hrest
    obtain ⟨hr, hf⟩ := ih hrest
    refine ⟨hr, .cons ?_ hf⟩
    have hfit := fits_all hl q
    rwa [h] at hfit

/-- **Where whole blocks are taken** the pieces before the final one are made of the whole blocks of
the plaintext, and less than a block is pending. -/
theorem Cuts.blocks {size limit : Nat} (hs : 0 < size) {qs : List Request}
    {pss : List (List Piece)} {pending rest : Bytes}
    (h : Cuts (blocks size limit) pending qs pss rest) (hp : pending.length < size) :
    Piece.whole pss.flatten =
        size * ((pending.length + (qs.map (·.data.length)).sum) / size) ∧
      rest.length < size ∧ ∀ p ∈ pss.flatten, p.OfBlocks size limit := by
  induction h with
  | nil => simpa [Piece.whole, Nat.div_eq_of_lt hp] using hp
  | @cons pending rest rest' q qs ps pss h hq hs' ih =>
    obtain ⟨h₁, h₂, h₃⟩ := @blocks_spec size limit hs q.isClose (pending ++ q.data)
    rw [h] at h₁ h₂ h₃
    rw [List.length_append] at h₁ h₂
    have hlt : rest.length < size := by
      have hmod := Nat.mod_lt (pending.length + q.data.length) hs
      dsimp only at h₂
      split_ifs at h₂ <;> omega
    obtain ⟨h₁', h₂', h₃'⟩ := ih hlt
    refine ⟨?_, h₂', fun p hp => ?_⟩
    · rw [List.flatten_cons, Piece.whole_append, h₁, h₁', List.map_cons, List.sum_cons,
        ← Nat.add_assoc, ← Nat.mul_add]
      congr 1
      dsimp only at h₂
      split_ifs at h₂ with hc
      · rw [hq hc, h₂]
        simp
      · conv_rhs => rw [← Nat.div_add_mod (pending.length + q.data.length) size, Nat.add_assoc,
          Nat.mul_add_div hs]
        rw [h₂]
    · rw [List.flatten_cons, List.mem_append] at hp
      exact hp.elim (h₃ p) (h₃' p)

end Plan

/-! ## Marks -/

/-- Before the end no chunk is marked as the final one, and after it the last one is. -/
def Encoder.Marked : (closed : Bool) → List (Piece × Chunk) → Prop
  | false, t => ∀ x ∈ t, x.2.last = false
  | true, t => ∃ u x, t = u ++ [x] ∧ (∀ y ∈ u, y.2.last = false) ∧ x.2.last = true

theorem Encoder.Marked.append {closed : Bool} {t u : List (Piece × Chunk)} (ht : Marked false t)
    (hu : Marked closed u) : Marked closed (t ++ u) := by
  cases closed with
  | false => exact fun x hx => (List.mem_append.1 hx).elim (ht x) (hu x)
  | true =>
    obtain ⟨v, x, rfl, hv, hx⟩ := hu
    exact ⟨t ++ v, x, (List.append_assoc ..).symm,
      fun y hy => (List.mem_append.1 hy).elim (ht y) (hv y), hx⟩

/-- The chunks of what is due are marked. -/
theorem Encoder.Makes.marked {M : Modes} {enc enc' enc₀ : Encoder M} {t : List (Piece × Chunk)}
    {limit : Nat} {last : Bool} {pending : Bytes} (h : enc.Makes t enc')
    (ht : t.map Prod.fst = (enc₀.plan limit last pending).pieces) : Marked last t := by
  cases last with
  | false =>
    intro x hx
    have hp : x.1 ∈ (enc₀.plan limit false pending).pieces := ht ▸ List.mem_map_of_mem hx
    rw [h.last_eq x hx]
    cases enc₀ <;> obtain ⟨data, -, hd⟩ := List.mem_map.1 hp <;> rw [← hd]
  | true =>
    cases enc₀ <;> exact h.of_row ht

/-- The failure that was first is the same behind a transport. -/
theorem StreamError.innermost_io_toIo (e : StreamError) :
    (StreamError.io e.toIo).innermost = e.innermost := by
  cases e <;> rfl

namespace Sealer
variable {M : Modes} {τ : Type} [Output τ]

/-! ## Answers to requests -/

/-- Do a request; the answer is the number of octets that were taken. -/
def request : Request → Sealer M τ → Except StreamError Nat × Sealer M τ
  | .write data, w =>
    match w.write data with
    | (.ok n, w) => (.ok n, w)
    | (.error e, w) => (.error (.io e), w)
  | .flush, w =>
    match w.flush with
    | (.ok (), w) => (.ok 0, w)
    | (.error e, w) => (.error (.io e), w)
  | .close, w =>
    match w.close with
    | (.ok (), w) => (.ok 0, w)
    | (.error e, w) => (.error e, w)

/-- Do requests, one after another, whatever the answers are. -/
def requests : List Request → Sealer M τ → List (Except StreamError Nat) × Sealer M τ
  | [], w => ([], w)
  | q :: qs, w =>
    match w.request q with
    | (r, w) => (r :: (requests qs w).1, (requests qs w).2)

theorem write_nil {w : Sealer M τ} (hw : w.phase = .running) : w.write [] = (.ok 0, w) := by
  simp only [write, hw, Phase.refusal?]
  rfl

theorem write_length {w w' : Sealer M τ} {data : Bytes} {n : Nat}
    (h : w.write data = (.ok n, w')) : n = data.length := by
  unfold write at h
  split at h
  · cases h
  · dsimp only at h
    split_ifs at h with hn
    · cases h
      exact hn.symm
    · split at h <;> cases h
      rfl

/-- A sealer that does not run refuses everything, for one reason. -/
theorem request_of_refusal {w : Sealer M τ} {e : StreamError} (h : w.phase.refusal? = some e)
    (q : Request) : ∃ e', w.request q = (.error e', w) ∧ e'.innermost = e.innermost := by
  cases q with
  | write data =>
    refine ⟨_, ?_, e.innermost_io_toIo⟩
    simp only [request, write, h]
  | flush =>
    refine ⟨_, ?_, e.innermost_io_toIo⟩
    simp only [request, flush, h]
  | close =>
    refine ⟨e, ?_, rfl⟩
    simp only [request, close, h]

theorem chunks_start {s : Settings} {p : Preamble} {k : KeyedCipher M} {e : Entropy} {output : τ}
    {w : Sealer M τ} (h : start s p k e output = .ok w) : w.chunks = 0 := by
  rw [start] at h
  rcases hv : s.validate with cause | _ <;> simp only [hv] at h
  · cases h
  · rcases hi : writeItems p.items output with ⟨cause | _, o⟩ <;> simp only [hi] at h <;> cases h
    rfl

/-! ## What requests write -/

/-- Between two states of a sealer the chunks of a transcript were written, and counted. -/
structure Grew [Lossless τ] (w : Sealer M τ) (t : List (Piece × Chunk)) (w' : Sealer M τ) : Prop
    extends Wrote w t w' where
  chunks : w'.chunks = w.chunks + t.length

section
variable [Lossless τ] {w w' : Sealer M τ}

theorem Grew.refl (w : Sealer M τ) : Grew w [] w := ⟨⟨.nil _, by simp, by simp, rfl⟩, rfl⟩

theorem Grew.trans {w₁ w₂ w₃ : Sealer M τ} {t u : List (Piece × Chunk)} (h : Grew w₁ t w₂)
    (h' : Grew w₂ u w₃) : Grew w₁ (t ++ u) w₃ where
  toWrote := h.toWrote.trans h'.toWrote
  chunks := by rw [h'.chunks, h.chunks, List.length_append, Nat.add_assoc]

theorem encode_grew {last : Bool} (h : w.encode last = (.ok (), w')) : ∃ t, Grew w t w' ∧
    w'.phase = w.phase ∧ w.encoder.plan w.maxChunkLen last w.pending =
      ⟨t.map Prod.fst, w'.pending⟩ := by
  obtain ⟨t, hw, hp, hpl⟩ := encode_ok h
  obtain ⟨u, enc, o, hu, -, -, rfl⟩ := encode_ok_iff.1 h
  have hlen := congrArg List.length hu
  rw [hpl, List.length_map, List.length_map] at hlen
  exact ⟨t, ⟨hw, congrArg (w.chunks + ·) hlen⟩, hp, hpl⟩

/-- What a request writes: the chunks that are due now that its plaintext came, if some came. -/
theorem request_ok {q : Request} {n : Nat} (hw : w.phase = .running)
    (h : w.request q = (.ok n, w')) :
    n = q.data.length ∧ ∃ t, Grew w t w' ∧ Encoder.Marked q.isClose t ∧
      w'.phase = (if q.isClose then .ended else .running) ∧
      (w.encoder.plan w.maxChunkLen q.isClose (w.pending ++ q.data) =
          ⟨t.map Prod.fst, w'.pending⟩ ∨
        q.isClose = false ∧ q.data = [] ∧ t = [] ∧ w'.pending = w.pending) := by
  have hr : w.phase.refusal? = none := by rw [hw]; rfl
  cases q with
  | write data =>
    rcases hx : w.write data with ⟨e | m, w₁⟩ <;> simp only [request, hx] at h <;> cases h
    refine ⟨write_length hx, ?_⟩
    by_cases hd : data.length = 0
    · obtain rfl := List.length_eq_zero_iff.1 hd
      rw [write_nil hw] at hx
      cases hx
      exact ⟨[], .refl w, by simp [Encoder.Marked, Request.isClose], hw, .inr ⟨rfl, rfl, rfl, rfl⟩⟩
    · simp only [write, hr, if_neg hd] at hx
      split at hx <;> cases hx
      next he =>
      obtain ⟨t, hg, hp, hpl⟩ := encode_grew he
      exact ⟨t, ⟨⟨hg.makes, hg.encodable, hg.taken, hg.maxChunkLen⟩, hg.chunks⟩,
        hg.makes.marked (congrArg Plan.pieces hpl).symm, hp.trans hw, .inl hpl⟩
  | flush =>
    rcases hx : w.flush with ⟨e | _, w₁⟩ <;> simp only [request, hx] at h <;> cases h
    simp only [flush, hr] at hx
    rcases hf : Output.flush w.output with ⟨e | _, o⟩ <;> rw [hf] at hx <;> cases hx
    exact ⟨rfl, [], ⟨⟨.nil _, by simp, by simpa using Lossless.taken_flush hf, rfl⟩, rfl⟩,
      by simp [Encoder.Marked, Request.isClose], hw, .inr ⟨rfl, rfl, rfl, rfl⟩⟩
  | close =>
    rcases hx : w.close with ⟨e | _, w₁⟩ <;> simp only [request, hx] at h <;> cases h
    obtain ⟨w₁, o, he, hf, rfl⟩ := (close_ok_iff hw).1 hx
    obtain ⟨t, hg, -, hpl⟩ := encode_grew he
    refine ⟨rfl, t, ⟨⟨hg.makes, hg.encodable, ?_, hg.maxChunkLen⟩, hg.chunks⟩,
      hg.makes.marked (congrArg Plan.pieces hpl).symm, rfl, .inl ?_⟩
    · exact (Lossless.taken_flush hf).trans hg.taken
    · rw [Request.data, List.append_nil]
      exact hpl

end

section
variable {plan : (limit : Nat) → (last : Bool) → Bytes → Plan} {Suits : Piece → Prop}
  {Goes : Piece → Chunk → Prop} {I : Encoder M → Prop} (hI : Encoder.Keeps plan Suits Goes I)
  (hs : ∀ limit last pending, ∀ p ∈ (plan limit last pending).pieces, Suits p)
include hI hs

/-- **What requests write** that are all answered: the chunks of the pieces that the requests are
cut into. -/
theorem requests_ok [Lossless τ] {qs : List Request} {w : Sealer M τ} (hw : w.Settled)
    (hi : I w.encoder) (hq : ∀ r ∈ (w.requests qs).1, ∃ n, r = .ok n) :
    (w.requests qs).1 = qs.map (fun q => .ok q.data.length) ∧
      (w.requests qs).2.phase = (if .close ∈ qs then .ended else .running) ∧
      ∃ us : List (List (Piece × Chunk)), Grew w us.flatten (w.requests qs).2 ∧
        Encoder.Marked (decide (.close ∈ qs)) us.flatten ∧
        Plan.Cuts (plan w.maxChunkLen) w.pending qs (us.map (List.map Prod.fst))
          (w.requests qs).2.pending := by
  induction qs generalizing w with
  | nil => exact ⟨rfl, hw.phase, [], .refl w, by simp [Encoder.Marked], .nil _⟩
  | cons q qs ih =>
    rcases hr : w.request q with ⟨r, w₁⟩
    simp only [requests, hr] at hq ⊢
    obtain ⟨⟨n, rfl⟩, hqs⟩ := List.forall_mem_cons.1 hq
    obtain ⟨rfl, t, hg, hmk, hp, hpl⟩ := request_ok hw.phase hr
    have hpl : plan w.maxChunkLen q.isClose (w.pending ++ q.data) =
        ⟨t.map Prod.fst, w₁.pending⟩ := by
      rw [← hI.plan hi]
      rcases hpl with hpl | ⟨hc, hd, rfl, hpend⟩
      · exact hpl
      · rw [hc, hd, List.append_nil, hw.pending, hpend]
        rfl
    have hcons {us : List (List (Piece × Chunk))} {rest : Bytes} (hc : q.isClose = true → qs = [])
        (hcuts : Plan.Cuts (plan w.maxChunkLen) w₁.pending qs (us.map (List.map Prod.fst)) rest) :
        Plan.Cuts (plan w.maxChunkLen) w.pending (q :: qs) ((t :: us).map (List.map Prod.fst))
          rest := .cons hpl hc hcuts
    cases hc : q.isClose with
    | true =>
      -- after the end nothing is answered
      rw [hc] at hp hmk
      obtain rfl : qs = [] := by
        rcases qs with _ | ⟨q', qs⟩
        · rfl
        · obtain ⟨e, he, -⟩ := request_of_refusal (e := .closed) (by rw [hp]; rfl) q'
          simp [requests, he] at hqs
      obtain rfl := Request.isClose_iff.1 hc
      refine ⟨rfl, ?_, [t], by simpa [requests] using hg, by simpa using hmk,
        hcons (fun _ => rfl) (.nil _)⟩
      rw [if_pos List.mem_cons_self]
      exact hp
    | false =>
      rw [hc] at hp hmk hpl
      have hne : Request.close ≠ q := fun h => by simp [← h, Request.isClose] at hc
      obtain ⟨hw₁, hi₁⟩ := settled_of_call hI hi hg.makes hg.maxChunkLen hp hpl fun p => hs _ _ _ p
      obtain ⟨h₁, h₂, us, h₃, h₄, h₅⟩ := ih hw₁ hi₁ hqs
      rw [hg.maxChunkLen] at h₅
      refine ⟨by rw [h₁, List.map_cons], by simp [h₂, hne], t :: us, hg.trans h₃, ?_,
        hcons (by simp [hc]) h₅⟩
      simpa [hne] using hmk.append h₄

/-- What the records of a container are when all requests are answered: the preamble and the chunks
of pieces, none of them the final one before the end, and the last one after it. -/
structure Recorded [Lossless τ] (p : Preamble) (enc : Encoder M) (qs : List Request)
    (t : List (Piece × Chunk)) (w : Sealer M τ) : Prop where
  makes : enc.Makes t w.encoder
  parsed : Container.read maxLength (Lossless.taken w.output) = (.ok ⟨p, t.map Prod.snd⟩, [])
  counted : w.chunks = t.length
  before (h : .close ∉ qs) :
    w.phase = .running ∧ (∀ x ∈ t, x.2.last = false) ∧ w.write [] = (.ok 0, w)
  after (h : .close ∈ qs) : w.phase = .ended ∧
    ∃ u x, t = u ++ [x] ∧ (∀ y ∈ u, y.2.last = false) ∧ x.2.last = true

/-- **What was written since the beginning** when all requests are answered. -/
theorem records_ok [Lossless τ] {s : Settings} {p : Preamble} {k : KeyedCipher M} {e : Entropy}
    {output : τ} {w : Sealer M τ} {qs : List Request} (hi : I (.start s e k))
    (ho : Lossless.taken output = [])
    (hw : start s p k e output = .ok w) (hq : ∀ r ∈ (w.requests qs).1, ∃ n, r = .ok n) :
    (w.requests qs).1 = qs.map (fun q => .ok q.data.length) ∧
      ∃ us : List (List (Piece × Chunk)),
        Recorded p (.start s e k) qs us.flatten (w.requests qs).2 ∧
        Plan.Cuts (plan s.maxChunkLen) [] qs (us.map (List.map Prod.fst))
          (w.requests qs).2.pending := by
  obtain ⟨-, he, hb, ht⟩ := start_ok hw
  obtain ⟨hans, hp, us, hg, hmk, hc⟩ := requests_ok hI hs hb.settled (hb.encoder ▸ hi) hq
  rw [hb.maxChunkLen, hb.pending] at hc
  have hrun (hn : .close ∉ qs) : (w.requests qs).2.phase = .running := by rw [hp, if_neg hn]
  have hoct : Lossless.taken (w.requests qs).2.output =
      Container.octets ⟨p, us.flatten.map Prod.snd⟩ := by
    rw [hg.taken, ht, ho, List.nil_append, Container.octets_eq, List.flatMap_map]
  refine ⟨hans, us, ⟨hb.encoder ▸ hg.makes, ?_, ?_, fun hn => ⟨hrun hn, ?_, write_nil (hrun hn)⟩,
    fun hcl => ⟨by rw [hp, if_pos hcl], ?_⟩⟩, hc⟩
  · rw [hoct]
    refine Container.read_octets he fun c hc => ?_
    obtain ⟨x, hx, rfl⟩ := List.mem_map.1 hc
    exact hg.encodable x hx
  · rw [hg.chunks, chunks_start hw, Nat.zero_add]
  · rwa [decide_eq_false hn] at hmk
  · rwa [decide_eq_true hcl] at hmk

end

end Sealer

/-! ## Ciphers that leave lengths as they are -/

/-- A property of ciphers for blocks of `size` octets that every call for whole blocks keeps: what
it answers is as long as what it was asked for. -/
structure BlockMode.InPlace {β : Type} [BlockMode β] (size : Nat) (I : β → Prop) : Prop where
  blockSize {c : β} (h : I c) : BlockMode.blockSize c = size
  crypt {c c' : β} {data out : Bytes} (h : I c) (hd : size ∣ data.length)
    (hr : BlockMode.crypt data c = (.ok out, c')) : out.length = data.length ∧ I c'

/-- A property of stream ciphers that every call keeps: what it answers is as long as what it was
asked for. -/
structure StreamMode.InPlace {σ : Type} [StreamMode σ] (I : σ → Prop) : Prop where
  crypt {c c' : σ} {data out : Bytes} (h : I c) (hr : StreamMode.crypt data c = (.ok out, c')) :
    out.length = data.length ∧ I c'

/-- Ciphers that leave lengths as they are, as far as they transform octets in place: those for
blocks, which have at least one octet, and stream ciphers. -/
inductive KeyedCipher.InPlace {M : Modes} : KeyedCipher M → Prop where
  | block {size : Nat} {I : M.Block → Prop} {c : M.Block} (hI : BlockMode.InPlace size I) (h : I c)
      (hpos : 1 ≤ size) : InPlace (.block c)
  | stream {I : M.Stream → Prop} {c : M.Stream} (hI : StreamMode.InPlace I) (h : I c) :
      InPlace (.stream c)
  | aead (c : M.Aead) : InPlace (.aead c)

/-- Every chunk of a cipher that transforms octets in place is as long as its piece. -/
def Encoder.GoesInPlace (p : Piece) (c : Chunk) : Prop :=
  c.nonce = [] ∧ c.data.length = p.data.length

section
open Encoder
variable {M : Modes}

theorem BlockMode.InPlace.keeps {size : Nat} {I : M.Block → Prop} (hI : BlockMode.InPlace size I) :
    Keeps (Plan.blocks size) (fun p => size ∣ p.data.length) GoesInPlace
      (fun enc => ∃ b, enc = .block b ∧ I b) where
  plan := by
    rintro limit last pending _ ⟨b, rfl, h⟩
    rw [Encoder.plan, hI.blockSize h]
  encrypt := by
    rintro _ _ p c ⟨b, rfl, h⟩ hp he
    obtain ⟨data, b', hc, rfl, rfl⟩ := encrypt_block he
    obtain ⟨hl, h'⟩ := hI.crypt h hp hc
    exact ⟨⟨rfl, hl⟩, b', rfl, h'⟩

theorem StreamMode.InPlace.keeps {I : M.Stream → Prop} (hI : StreamMode.InPlace I) :
    Keeps Plan.all (fun _ => True) GoesInPlace (fun enc => ∃ c, enc = .stream c ∧ I c) where
  plan := by
    rintro limit last pending _ ⟨c, rfl, -⟩
    rfl
  encrypt := by
    rintro _ _ p c ⟨s, rfl, h⟩ - he
    obtain ⟨data, s', hc, rfl, rfl⟩ := encrypt_stream he
    obtain ⟨hl, h'⟩ := hI.crypt h hc
    exact ⟨⟨rfl, hl⟩, s', rfl, h'⟩

end

/-- What the records of a container look like, for each family of ciphers; `us` are the pieces of
each request with their chunks. -/
def KeyedCipher.Shaped {M : Modes} (s : Settings) (qs : List Sealer.Request)
    (us : List (List (Piece × Chunk))) (pending : Bytes) : KeyedCipher M → Prop
  | .block c =>
    let size := BlockMode.blockSize c
    pending.length < size ∧
    ((us.flatten.filter (!·.2.last)).map (·.2.data.length)).sum =
      size * ((qs.map (·.data.length)).sum / size) ∧
    ∀ x ∈ us.flatten, x.2.nonce = [] ∧ size ∣ x.2.data.length ∧
      (x.2.last = false → 0 < x.2.data.length ∧
        x.2.data.length ≤ max size (size * (s.maxChunkLen / size))) ∧
      (x.2.last = true → x.2.data.length = size)
  | .stream _ => pending = [] ∧
    List.Forall₂ (fun q u => q.Fits s.maxChunkLen (u.map Prod.fst)) qs us ∧
    ∀ x ∈ us.flatten, x.2.nonce = [] ∧ x.2.data.length = x.1.data.length
  | .aead c => pending = [] ∧
    List.Forall₂ (fun q u => q.Fits s.maxChunkLen (u.map Prod.fst)) qs us ∧
    ∀ x ∈ us.flatten, x.2.nonce.length = AeadMode.nonceSize c + s.associatedDataLen

/-- **The records of a container at every moment.** Take settings that are accepted, a cipher of any
family and any requests that are all answered. What was written is the preamble and the records
that were counted, of which none is the final one before the end and the last one is after it.
Every request was answered with the length of its plaintext, and an empty one changes nothing. The
records are of the shape that the family of the cipher gives them. -/
theorem Sealer.records_requests {M : Modes} {τ : Type} [Output τ] [Lossless τ] {s : Settings}
    {p : Preamble} {k : KeyedCipher M} {e : Entropy} {output : τ} {w : Sealer M τ}
    {qs : List Request} (hk : k.InPlace) (ho : Lossless.taken output = [])
    (hw : start s p k e output = .ok w) (hq : ∀ r ∈ (w.requests qs).1, ∃ n, r = .ok n) :
    (w.requests qs).1 = qs.map (fun q => .ok q.data.length) ∧
      ∃ us : List (List (Piece × Chunk)),
        Recorded p (.start s e k) qs us.flatten (w.requests qs).2 ∧
        k.Shaped s qs us (w.requests qs).2.pending := by
  have hlen := s.maxChunkLen_pos (start_ok hw).1
  cases hk with
  | @block size I c hI h hpos =>
    obtain ⟨hans, us, hr, hc⟩ := records_ok hI.keeps
      (fun limit last pending p hp => ((Plan.blocks_spec hpos last pending).2.2 p hp).aligned)
      ⟨c, rfl, h⟩ ho hw hq
    obtain ⟨hwhole, hrest, hof⟩ := hc.blocks hpos hpos
    rw [← List.map_flatten] at hwhole hof
    have hof (x : Piece × Chunk) (hx : x ∈ us.flatten) := hof x.1 (List.mem_map_of_mem hx)
    have hgo := (hr.makes.keeps hI.keeps ⟨c, rfl, h⟩
      fun x hx => (hof x hx).aligned).1
    have hlast := hr.makes.last_eq
    rw [Piece.whole_map_fst hlast fun x hx => (hgo x hx).2, List.length_nil, Nat.zero_add] at hwhole
    refine ⟨hans, us, hr, ?_⟩
    simp only [KeyedCipher.Shaped, hI.blockSize h]
    refine ⟨hrest, hwhole, fun x hx => ?_⟩
    obtain ⟨hal, hb, hf⟩ := hof x hx
    rw [(hgo x hx).2, hlast x hx]
    exact ⟨(hgo x hx).1, hal, hb, hf⟩
  | @stream I c hI h =>
    obtain ⟨hans, us, hr, hc⟩ := records_ok hI.keeps
      (fun _ _ _ _ _ => trivial) ⟨c, rfl, h⟩ ho hw hq
    obtain ⟨hrest, hfit⟩ := hc.all hlen rfl
    have hgo := (hr.makes.keeps hI.keeps ⟨c, rfl, h⟩ fun _ _ => trivial).1
    exact ⟨hans, us, hr, hrest, List.forall₂_map_right_iff.1 hfit, hgo⟩
  | aead c =>
    obtain ⟨hans, us, hr, hc⟩ := records_ok (Encoder.keeps_aead _ _)
      (fun _ _ _ _ _ => trivial) (Encoder.isAead_start s e c) ho hw hq
    obtain ⟨hrest, hfit⟩ := hc.all hlen rfl
    have hgo := (hr.makes.keeps (Encoder.keeps_aead _ _) (Encoder.isAead_start s e c)
      fun _ _ => trivial).1
    exact ⟨hans, us, hr, hrest, List.forall₂_map_right_iff.1 hfit, hgo⟩

theorem ScriptedBlock.inPlace (size : Nat) :
    BlockMode.InPlace size fun c : ScriptedBlock => c.size = size where
  blockSize h := h
  crypt {c c' data out} h _ hr := by
    simp only [BlockMode.crypt, BlockMode.transform] at hr
    split_ifs at hr <;> cases hr
    exact ⟨List.length_map .., h⟩

theorem exists_ok_of_all {rs : List (Except StreamError Nat)} (h : rs.all Except.isOk = true) :
    ∀ r ∈ rs, ∃ n, r = .ok n := by
  rintro (_ | n) hr
  · cases List.all_eq_true.1 h _ hr
  · exact ⟨n, rfl⟩

/-- Seventeen octets in blocks of four, at most two of them to a record. -/
theorem Sealer.records_requests_blocks :
    ∃ w, @start .scripted (Array UInt8) _ .short ⟨[1], "x", "y"⟩
        (.block ⟨4, 7, 0, 0, .encrypt⟩) (.scripted #[]) #[] = .ok w ∧
      let qs := [.write [1, 2, 3, 4, 5], .write [], .flush, .write (Bytes.zeros 12), .close]
      (w.requests qs).1 = [.ok 5, .ok 0, .ok 0, .ok 12, .ok 0] ∧
      ∃ us : List (List (Piece × Chunk)),
        ((us.flatten.filter (!·.2.last)).map (·.2.data.length)).sum = 16 ∧
        (w.requests qs).2.chunks = us.flatten.length ∧ (w.requests qs).2.phase = .ended := by
  refine ⟨_, rfl, ?_⟩
  obtain ⟨hans, us, hr, -, hsum, -⟩ := @records_requests .scripted (Array UInt8) _ _ .short
    ⟨[1], "x", "y"⟩ (.block ⟨4, 7, 0, 0, .encrypt⟩) (.scripted #[]) #[] _
    [.write [1, 2, 3, 4, 5], .write [], .flush, .write (Bytes.zeros 12), .close]
    (.block (ScriptedBlock.inPlace 4) rfl (by decide)) rfl rfl
    (exists_ok_of_all (by decide +kernel))
  exact ⟨hans, us, hsum, hr.counted, (hr.after (by decide)).1⟩

end SealedStream
