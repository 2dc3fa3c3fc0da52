import Mathlib
import SealedStream.Proofs.Filling
import SealedStream.Proofs.StandardAlgorithms
import SealedStream.Proofs.Trailing
/-!
# Sums of 64 bits

Lengths are numbers of 64 bits. Here a session is done again with every sum, difference and
remainder of lengths and every access to a string checked, so that it has no result where a number
gets too large or a place is out of range.

* `Bytes.cuts?` cuts a string at places that are computed; `cuts?_eq` says that it gives
  `Bytes.pieces`.
* `Plan.blocks?`, `Plan.all?` and `Encoder.encrypt?` are a checked plan and a checked chunk, and
  `Sealer.encode?` is what a sealer does with them; it begins with `Sealer.start?`.
* `KeyedCipher.Bounded` are ciphers whose sizes stay within bounds, and `Encoder.Fits` is what every
  chunk keeps. `Encoder.encrypt?_eq` is the step, `Sealer.fits_requests` the run.
* `Settings.maxFieldLen_eq`: under which settings that are accepted a sum is too large.
* `Sealer.checked_requests` puts this together for everything that a sealer does.
-/
namespace SealedStream

open KeyStretch (sub? sub?_eq)

/-! ## Checked numbers -/

/-- A remainder of a division by a number that is not zero. -/
def rem? (a b : Nat) : Option Nat := if b = 0 then none else some (a % b)

theorem rem?_eq {a b : Nat} (h : 0 < b) : rem? a b = some (a % b) := if_neg h.ne'

/-- The largest multiple of `size` up to `n`. -/
def roundDown? (n size : Nat) : Option Nat := do sub? n (← rem? n size)

theorem roundDown?_eq {n size : Nat} (h : 0 < size) : roundDown? n size = some (n - n % size) := by
  rw [roundDown?, rem?_eq h]
  exact sub?_eq (Nat.mod_le n size)

theorem mapM_eq_map {α β : Type} {f : α → Option β} {g : α → β} {l : List α}
    (h : ∀ x ∈ l, f x = some (g x)) : l.mapM f = some (l.map g) := by
  induction l with
  | nil => rfl
  | cons x l ih =>
    obtain ⟨hx, hl⟩ := List.forall_mem_cons.1 h
    rw [List.mapM_cons, hx, ih hl]
    rfl

/-! ## Checked pieces -/

namespace Bytes

/-- Where pieces of `n` octets begin in a string of length `len`. -/
def starts (n len : Nat) : List Nat := List.range' 0 (len ⌈/⌉ n) n

/-- The piece that begins at `start`, up to `start + n` or up to the end. -/
def pieceAt? (n : Nat) (bs : Bytes) (start : Nat) : Option Bytes := do
  let stop ← addWord? start n
  bs.slice? start (min stop bs.length)

/-- Pieces of `n` octets, one after another. -/
def cuts? (n : Nat) (bs : Bytes) : Option (List Bytes) :=
  if n = 0 then none else (starts n bs.length).mapM (bs.pieceAt? n)

variable {n : Nat}

theorem lt_of_mem_starts (hn : 0 < n) {len i : Nat} (h : i ∈ starts n len) :
    i < len ∧ (i = 0 ∨ n ≤ i) := by
  obtain ⟨k, hk, rfl⟩ := List.mem_range'.1 h
  rw [Nat.ceilDiv_eq_add_pred_div, Nat.lt_div_iff_mul_lt hn] at hk
  rw [Nat.zero_add, Nat.mul_comm]
  refine ⟨by omega, ?_⟩
  rcases Nat.eq_zero_or_pos k with rfl | hpos
  · exact .inl (Nat.zero_mul n)
  · exact .inr (Nat.le_mul_of_pos_left n hpos)

/-- The pieces, by the places at which they begin. -/
theorem pieces_eq_map (hn : 0 < n) (bs : Bytes) :
    pieces n bs = (starts n bs.length).map fun i => (bs.take (min (i + n) bs.length)).drop i := by
  induction bs using pieces_induction hn with
  | nil => rw [List.length_nil, starts, zero_ceilDiv]; rfl
  | cons bs hb ih =>
    have hpos := List.length_pos_iff.2 hb
    have hceil : bs.length ⌈/⌉ n = (bs.length - n) ⌈/⌉ n + 1 := by
      rw [Nat.ceilDiv_eq_add_pred_div, Nat.ceilDiv_eq_add_pred_div, ← Nat.add_div_right _ hn]
      rcases le_total n bs.length with hle | hle
      · congr 1
        omega
      · have hone {m : Nat} (h₁ : n ≤ m) (h₂ : m < 2 * n) : m / n = 1 :=
          Nat.div_eq_of_lt_le (by omega) (by omega)
        rw [hone (by omega) (by omega), hone (by omega) (by omega)]
    have hstarts : starts n bs.length = 0 :: (starts n (bs.length - n)).map (n + ·) := by
      rw [starts, hceil, List.range'_succ, starts, List.map_add_range', Nat.add_zero, Nat.zero_add]
    rw [pieces_eq_cons hn hb, ih, hstarts, List.map_cons, List.map_map, List.length_drop]
    refine congrArg₂ List.cons ?_ (List.map_congr_left fun i _ => ?_)
    · rw [List.drop_zero, Nat.zero_add, ← List.take_eq_take_min]
    · rw [Function.comp_apply, List.drop_take, List.drop_take, List.drop_drop]
      congr 1
      omega

/-- **No sum is too large where a string is cut**: the first piece may go as far as numbers do, and
the place where any other piece begins is no less than its length. -/
theorem cuts?_eq (hn : 0 < n) (hw : n ≤ wordMax) {bs : Bytes}
    (hb : bs.length < 2 ^ 63) : bs.cuts? n = some (bs.pieces n) := by
  have hmax : wordMax = 2 ^ 64 - 1 := rfl
  rw [cuts?, if_neg hn.ne', pieces_eq_map hn]
  refine mapM_eq_map fun i hi => ?_
  obtain ⟨hlt, hi⟩ := lt_of_mem_starts hn hi
  rw [pieceAt?, addWord?_eq (by omega)]
  exact slice?_eq (by omega) (by omega)

end Bytes

/-! ## Checked plans -/

namespace Plan

/-- `Plan.blocks`, checked. -/
def blocks? (size limit : Nat) (last : Bool) (pending : Bytes) : Option Plan := do
  let whole ← roundDown? pending.length size
  let width := max (← roundDown? limit size) size
  let pieces ← (← pending.slice? 0 whole).cuts? width
  let pieces := pieces.map fun data => { data, last := false }
  let rest ← pending.slice? whole pending.length
  if last then
    let gap ← sub? size rest.length
    return ⟨pieces ++ [{ data := rest ++ Padding.fill gap, last := true }], []⟩
  else return ⟨pieces, rest⟩

/-- `Plan.all`, checked. -/
def all? (limit : Nat) (last : Bool) (pending : Bytes) : Option Plan := do
  let pieces ← pending.cuts? limit
  if last then
    return ⟨(pieces.dropLast.map fun data => { data, last := false }) ++
      [{ data := pieces.getLast?.getD [], last := true }], []⟩
  else return ⟨pieces.map fun data => { data, last := false }, []⟩

section
variable {limit : Nat} (hw : limit ≤ wordMax) {pending : Bytes}
  (hp : pending.length < 2 ^ 63)
include hw hp

theorem blocks?_eq {size : Nat} (hs : 0 < size) (hsw : size ≤ wordMax) (last : Bool) :
    blocks? size limit last pending = some (blocks size limit last pending) := by
  have hmod := Nat.mod_le pending.length size
  have hlt := Nat.mod_lt pending.length hs
  have hwhole : (pending.take (pending.length - pending.length % size)).length < 2 ^ 63 :=
    (List.length_take_le' _ _).trans_lt hp
  have hcut := Bytes.cuts?_eq (n := max (limit - limit % size) size) (lt_max_of_lt_right hs)
    (by omega) hwhole
  have hrest : pending.slice? (pending.length - pending.length % size) pending.length =
      some (pending.drop (pending.length - pending.length % size)) := by
    rw [Bytes.slice?_eq (by omega) le_rfl, List.take_length]
  have hgap : sub? size (pending.drop (pending.length - pending.length % size)).length = some _ :=
    sub?_eq (by rw [List.length_drop]; omega)
  rw [blocks?, roundDown?_eq hs, roundDown?_eq hs]
  simp only [bind, Option.bind, Bytes.slice?_eq (Nat.zero_le _) (Nat.sub_le pending.length _),
    List.drop_zero, hcut, hrest, hgap]
  cases last <;> rfl

theorem all?_eq (hl : 0 < limit) (last : Bool) :
    all? limit last pending = some (all limit last pending) := by
  rw [all?, Bytes.cuts?_eq hl hw hp]
  cases last <;> rfl

end

/-! ### How long pieces are -/

theorem length_le_of_mem_flatten {cs : List Bytes} {x bs : Bytes} (hx : x ∈ cs)
    (h : cs.flatten = bs) : x.length ≤ bs.length :=
  h ▸ (List.sublist_flatten_of_mem hx).length_le

theorem length_le_of_mem_all {limit : Nat} (hl : 0 < limit) {last : Bool} {pending : Bytes}
    {p : Piece} (hp : p ∈ (all limit last pending).pieces) : p.data.length ≤ pending.length := by
  cases last with
  | false =>
    obtain ⟨x, hx, rfl⟩ := List.mem_map.1 hp
    exact length_le_of_mem_flatten hx (Bytes.flatten_pieces hl pending)
  | true =>
    obtain ⟨cs, c, h, hf, -⟩ := all_true hl pending
    rw [h] at hp
    have hx : p.data ∈ cs ++ [c] := Piece.map_data_row cs c ▸ List.mem_map_of_mem hp
    exact length_le_of_mem_flatten hx (by rw [List.flatten_append, List.flatten_singleton, hf])

theorem length_le_of_mem_blocks {size limit : Nat} (hs : 0 < size) {last : Bool} {pending : Bytes}
    {p : Piece} (hp : p ∈ (blocks size limit last pending).pieces) :
    p.data.length ≤ max pending.length size := by
  obtain ⟨cs, rest, h₁, h₂, hf, hr, -⟩ := @blocks_false size limit hs pending
  have hmem {x : Bytes} (hx : x ∈ cs) : x.length ≤ max pending.length size :=
    le_max_of_le_left (length_le_of_mem_flatten (List.mem_append_left [rest] hx)
      (by rw [List.flatten_append, List.flatten_singleton, hf]))
  cases last with
  | false =>
    rw [h₁] at hp
    obtain ⟨x, hx, rfl⟩ := List.mem_map.1 hp
    exact hmem hx
  | true =>
    rw [h₂, Piece.mem_row] at hp
    rcases hp with ⟨x, hx, rfl⟩ | rfl
    · exact hmem hx
    · exact le_max_of_le_right (Padding.length_append_fill hr.le).le

end Plan

/-! ## Checked chunks -/

namespace NonceChain

/-- `NonceChain.nonce`, checked. -/
def nonce? (c : NonceChain) : Option Bytes := c.octets.slice? 0 c.nonceSize

/-- `NonceChain.associatedData`, checked. -/
def associatedData? (c : NonceChain) : Option Bytes := c.octets.slice? c.nonceSize c.octets.length

variable {n a : Nat} {c : NonceChain} (h : Sized n a c)
include h

theorem Sized.nonce?_eq : c.nonce? = some c.nonce := by
  have hlen : c.nonceSize ≤ c.octets.length := by rw [h.nonceSize, h.length]; omega
  exact Bytes.slice?_eq (Nat.zero_le _) hlen

theorem Sized.associatedData?_eq : c.associatedData? = some c.associatedData := by
  have hlen : c.nonceSize ≤ c.octets.length := by rw [h.nonceSize, h.length]; omega
  rw [associatedData?, Bytes.slice?_eq hlen le_rfl, List.take_length]
  rfl

end NonceChain

/-- Ciphers whose sizes are within the bounds that settings make room for, whatever calls they have
answered. -/
structure KeyedCipher.Bounded {M : Modes} (I : KeyedCipher M → Prop) : Prop where
  blockSize {c : M.Block} (h : I (.block c)) :
    1 ≤ BlockMode.blockSize c ∧ BlockMode.blockSize c ≤ Settings.maxChunkOverhead
  crypt {c : M.Block} (h : I (.block c)) (data : Bytes) : I (.block (BlockMode.crypt data c).2)
  nonceSize {c : M.Aead} (h : I (.aead c)) : AeadMode.nonceSize c ≤ Settings.maxNonceLen
  overhead {c : M.Aead} (h : I (.aead c)) : AeadMode.overhead c ≤ Settings.maxChunkOverhead
  encrypt {c : M.Aead} (h : I (.aead c)) (nonce plaintext aad : Bytes) :
    I (.aead (AeadMode.encrypt nonce plaintext aad c).2)

namespace Encoder
variable {M : Modes}

/-- `Encoder.plan`, checked. -/
def plan? (limit : Nat) (last : Bool) (pending : Bytes) : Encoder M → Option Plan
  | .block c => Plan.blocks? (BlockMode.blockSize c) limit last pending
  | .stream _ | .aead .. => Plan.all? limit last pending

/-- `Encoder.encrypt`, checked. There is to be room for what sealing adds. -/
def encrypt? (p : Piece) : Encoder M → Option (Except CipherError Chunk × Encoder M)
  | .aead c nonces => do
    let nonces := nonces.advance
    let nonce ← nonces.nonce?
    let associated ← nonces.associatedData?
    let _ ← addWord? p.data.length (AeadMode.overhead c)
    match AeadMode.encrypt nonce p.data associated c with
    | (.ok data, c) => return (.ok { last := p.last, nonce := nonces.octets, data }, .aead c nonces)
    | (.error e, c) => return (.error e, .aead c nonces)
  | enc => some (enc.encrypt p)

/-- An encoder with a cipher of the family `I`, and a chain of which the nonces have `n` octets and
the associated data has `a`. -/
def Fits (I : KeyedCipher M → Prop) (n a : Nat) : Encoder M → Prop
  | .block c => I (.block c)
  | .stream _ => True
  | .aead c nonces => I (.aead c) ∧ nonces.Sized n a

theorem fits_start {I : KeyedCipher M → Prop} (s : Settings) (e : Entropy) {k : KeyedCipher M}
    (hk : I k) : ∃ n, (start s e k).Fits I n s.associatedDataLen := by
  cases k with
  | block c => exact ⟨0, hk⟩
  | stream c => exact ⟨0, trivial⟩
  | aead c => exact ⟨_, hk, NonceChain.sized_start _ _ e⟩

/-- An encoder begins within bounds, unless the string of its nonces would be too long. -/
theorem start?_eq (s : Settings) (e : Entropy) (k : KeyedCipher M) :
    (start? s e k = none ∧
      ∃ c, k = .aead c ∧ wordMax < AeadMode.nonceSize c + s.associatedDataLen) ∨
    (start? s e k = some (start s e k) ∧
      ∀ c, k = .aead c → AeadMode.nonceSize c + s.associatedDataLen ≤ wordMax) := by
  cases k with
  | block c => exact .inr ⟨rfl, fun c h => by cases h⟩
  | stream c => exact .inr ⟨rfl, fun c h => by cases h⟩
  | aead c =>
    rcases lt_or_ge wordMax (AeadMode.nonceSize c + s.associatedDataLen) with hlt | hle
    · refine .inl ⟨?_, c, rfl, hlt⟩
      rw [start?, NonceChain.start?_eq_none hlt]
      rfl
    · refine .inr ⟨?_, fun c' h => by cases h; exact hle⟩
      rw [start?, NonceChain.start?_eq hle]
      rfl

variable {I : KeyedCipher M → Prop} (hI : KeyedCipher.Bounded I) {n a : Nat} {enc : Encoder M}
  (h : enc.Fits I n a)
include hI h

/-- What a chunk keeps, also one that fails. -/
theorem Fits.encrypt (p : Piece) : (enc.encrypt p).2.Fits I n a := by
  cases enc with
  | block c =>
    have hc := hI.crypt h p.data
    rw [Encoder.encrypt]
    rcases hr : BlockMode.crypt p.data c with ⟨e | data, c'⟩ <;> rw [hr] at hc <;> exact hc
  | stream c =>
    rw [Encoder.encrypt]
    rcases StreamMode.crypt p.data c with ⟨e | data, c'⟩ <;> trivial
  | aead c nonces =>
    have hc := hI.encrypt h.1 nonces.advance.nonce p.data nonces.advance.associatedData
    dsimp only [Encoder.encrypt]
    rcases hr : AeadMode.encrypt nonces.advance.nonce p.data nonces.advance.associatedData c with
      ⟨e | data, c'⟩ <;> rw [hr] at hc <;> exact ⟨hc, h.2.advance⟩

/-- **A chunk** is made within bounds. -/
theorem encrypt?_eq {p : Piece}
    (hp : p.data.length + Settings.maxChunkOverhead ≤ wordMax) :
    enc.encrypt? p = some (enc.encrypt p) := by
  cases enc with
  | block c => rfl
  | stream c => rfl
  | aead c nonces =>
    have hover := hI.overhead h.1
    have hsum := (Nat.add_le_add_left hover p.data.length).trans hp
    dsimp only [encrypt?, Encoder.encrypt]
    rw [h.2.advance.nonce?_eq, h.2.advance.associatedData?_eq, addWord?_eq hsum]
    dsimp only [bind, Option.bind]
    rcases AeadMode.encrypt nonces.advance.nonce p.data nonces.advance.associatedData c with
      ⟨e | data, c'⟩ <;> rfl

/-- **A plan** is made within bounds. -/
theorem plan?_eq {limit : Nat} (hl : 0 < limit) (hw : limit ≤ wordMax) (last : Bool)
    {pending : Bytes} (hp : pending.length < 2 ^ 63) :
    enc.plan? limit last pending = some (enc.plan limit last pending) := by
  cases enc with
  | block c =>
    obtain ⟨hpos, hle⟩ := hI.blockSize h
    exact Plan.blocks?_eq hw hp hpos (hle.trans (by decide)) last
  | stream c => exact Plan.all?_eq hw hp hl last
  | aead c nonces => exact Plan.all?_eq hw hp hl last

/-- The pieces of a plan are no longer than what is pending, or than a block. -/
theorem length_le_of_mem_plan {limit : Nat} (hl : 0 < limit) {last : Bool} {pending : Bytes}
    {p : Piece} (hp : p ∈ (enc.plan limit last pending).pieces) :
    p.data.length ≤ max pending.length Settings.maxChunkOverhead := by
  cases enc with
  | block c =>
    obtain ⟨hpos, hle⟩ := hI.blockSize h
    refine (Plan.length_le_of_mem_blocks hpos hp).trans ?_
    omega
  | stream c => exact le_max_of_le_left (Plan.length_le_of_mem_all hl hp)
  | aead c nonces => exact le_max_of_le_left (Plan.length_le_of_mem_all hl hp)

end Encoder

/-! ## Checked operations -/

namespace Sealer
variable {M : Modes} {τ : Type} [Output τ]

/-- `Sealer.emit`, checked. -/
def emit? (p : Piece) (w : Sealer M τ) : Option (Except StreamError Unit × Sealer M τ) := do
  match ← w.encoder.encrypt? p with
  | (.error e, encoder) => return (.error (.cipher e), { w with encoder })
  | (.ok c, encoder) =>
    match writeItems c.items w.output with
    | (.error e, output) => return (.error (.ofWire e), { w with encoder, output })
    | (.ok (), output) => return (.ok (), { w with encoder, output, chunks := w.chunks + 1 })

/-- `Sealer.emitAll`, checked. -/
def emitAll? : List Piece → Sealer M τ → Option (Except StreamError Unit × Sealer M τ)
  | [], w => some (.ok (), w)
  | p :: ps, w => do
    match ← w.emit? p with
    | (.error e, w) => return (.error e, w)
    | (.ok (), w) => emitAll? ps w

/-- `Sealer.encode`, checked. -/
def encode? (last : Bool) (w : Sealer M τ) : Option (Except StreamError Unit × Sealer M τ) := do
  let plan ← w.encoder.plan? w.maxChunkLen last w.pending
  match ← emitAll? plan.pieces w with
  | (.error e, w) => return (.error e, w)
  | (.ok (), w) =>
    return (.ok (), { w with
      pending := plan.rest, events := w.events.push (.chunksSealed w.chunks last) })

/-! ### What every request keeps -/

/-- A sealer with an encoder that fits, under a limit on its chunks. -/
structure Fits (I : KeyedCipher M → Prop) (n a limit : Nat) (w : Sealer M τ) : Prop where
  encoder : w.encoder.Fits I n a
  maxChunkLen : w.maxChunkLen = limit

theorem fits_of_start {I : KeyedCipher M → Prop} {n a : Nat} {s : Settings} {p : Preamble}
    {k : KeyedCipher M} {e : Entropy} {output : τ} {w : Sealer M τ}
    (hfit : (Encoder.start s e k).Fits I n a) (h : start s p k e output = .ok w) :
    w.Fits I n a s.maxChunkLen := by
  rw [start] at h
  rcases hs : s.validate with cause | _ <;> simp only [hs] at h
  · cases h
  · rcases hr : writeItems p.items output with ⟨cause | _, o⟩ <;> simp only [hr] at h <;> cases h
    exact ⟨hfit, rfl⟩

section
variable {I : KeyedCipher M → Prop} (hI : KeyedCipher.Bounded I) {n a limit : Nat}
  {w : Sealer M τ} (h : w.Fits I n a limit)
include hI h

theorem fits_emit (p : Piece) : (w.emit p).2.Fits I n a limit := by
  have he := h.encoder.encrypt hI p
  rw [emit]
  rcases hc : w.encoder.encrypt p with ⟨e | c, enc⟩ <;> rw [hc] at he
  · exact ⟨he, h.maxChunkLen⟩
  · dsimp only
    rcases writeItems c.items w.output with ⟨e | _, o⟩ <;> exact ⟨he, h.maxChunkLen⟩

theorem fits_emitAll (ps : List Piece) : (w.emitAll ps).2.Fits I n a limit := by
  induction ps generalizing w with
  | nil => exact h
  | cons p ps ih =>
    rw [emitAll_cons]
    exact andThen_preserves (fits_emit hI h p) ih

theorem fits_encode (last : Bool) : (w.encode last).2.Fits I n a limit := by
  rw [encode_eq]
  exact andThen_preserves (fits_emitAll hI h _) fun h => ⟨h.encoder, h.maxChunkLen⟩

theorem fits_close : w.close.2.Fits I n a limit := by
  rcases hp : w.phase.refusal? with _ | e
  · have hlast : w.encodeLast.2.Fits I n a limit := by
      rw [encodeLast_eq]
      refine andThen_preserves (fits_encode hI h true) fun h => ?_
      rw [passOn_snd]
      exact ⟨h.encoder, h.maxChunkLen⟩
    rw [close_of_running (Phase.refusal?_eq_none_iff.1 hp)]
    rcases hr : w.encodeLast with ⟨e | _, w'⟩ <;> rw [hr] at hlast <;>
      exact ⟨hlast.encoder, hlast.maxChunkLen⟩
  · simp only [close, hp]
    exact h

theorem fits_write (data : Bytes) : (w.write data).2.Fits I n a limit := by
  rcases hp : w.phase.refusal? with _ | e
  · have hw := Phase.refusal?_eq_none_iff.1 hp
    by_cases hd : data = []
    · rw [hd, write_nil hw]
      exact h
    · have htaking : (w.taking data).Fits I n a limit := ⟨h.encoder, h.maxChunkLen⟩
      have he := fits_encode hI htaking false
      rw [write_of_running hw hd]
      rcases hr : (w.taking data).encode false with ⟨e | _, w'⟩ <;> rw [hr] at he <;>
        exact ⟨he.encoder, he.maxChunkLen⟩
  · simp only [write, hp]
    exact h

/-- **What a request keeps.** -/
theorem fits_request (q : Request) : (w.request q).2.Fits I n a limit := by
  cases q with
  | write data =>
    rw [request_write_snd]
    exact fits_write hI h data
  | flush =>
    rw [request_flush_snd, flush]
    rcases w.phase.refusal? with _ | e
    · exact ⟨h.encoder, h.maxChunkLen⟩
    · exact h
  | close =>
    rw [request_close_snd]
    exact fits_close hI h

/-- **What requests keep**, whatever the answers are. -/
theorem fits_requests (qs : List Request) : (w.requests qs).2.Fits I n a limit := by
  induction qs generalizing w with
  | nil => exact h
  | cons q qs ih => exact ih (fits_request hI h q)

/-! ### Within bounds -/

theorem emit?_eq {p : Piece}
    (hp : p.data.length + Settings.maxChunkOverhead ≤ wordMax) :
    w.emit? p = some (w.emit p) := by
  obtain ⟨output, encoder, maxChunkLen, pending, phase, chunks, plaintextLen, events⟩ := w
  rw [emit?, Encoder.encrypt?_eq hI h.encoder hp, emit]
  dsimp only [bind, Option.bind]
  rcases encoder.encrypt p with ⟨e | c, enc⟩
  · rfl
  · dsimp only
    rcases writeItems c.items output with ⟨e | _, o⟩ <;> rfl

theorem emitAll?_eq {ps : List Piece}
    (hp : ∀ p ∈ ps, p.data.length + Settings.maxChunkOverhead ≤ wordMax) :
    w.emitAll? ps = some (w.emitAll ps) := by
  induction ps generalizing w with
  | nil => rfl
  | cons p ps ih =>
    obtain ⟨hp, hps⟩ := List.forall_mem_cons.1 hp
    have he := fits_emit hI h p
    rw [emitAll?, emit?_eq hI h hp, emitAll]
    dsimp only [bind, Option.bind]
    rcases hr : w.emit p with ⟨e | _, w'⟩ <;> rw [hr] at he
    · rfl
    · exact ih he hps

/-- **What is pending is made into chunks within bounds.** -/
theorem encode?_eq (hl : 0 < limit) (hw : limit ≤ wordMax) (last : Bool)
    (hp : w.pending.length < 2 ^ 63) : w.encode? last = some (w.encode last) := by
  have hmax : wordMax = 2 ^ 64 - 1 := rfl
  have hover : Settings.maxChunkOverhead = 16 := rfl
  have hplan := Encoder.plan?_eq hI h.encoder hl hw last hp
  have hall := @emitAll?_eq M τ _ I hI n a limit w h (w.encoder.plan limit last w.pending).pieces
    fun p hm => by
      have hle := Encoder.length_le_of_mem_plan hI h.encoder hl hm
      omega
  rw [encode?, h.maxChunkLen, hplan, encode, h.maxChunkLen]
  dsimp only [bind, Option.bind]
  rw [hall]
  rcases w.emitAll (w.encoder.plan limit last w.pending).pieces with ⟨e | _, w'⟩ <;> rfl

end

end Sealer

/-! ## Settings near the largest number -/

/-- Where settings are accepted under which a nonce and associated data are too long together, there
is no limit on fields. -/
theorem Settings.maxFieldLen_eq {s : Settings} (hs : s.validate = .ok ()) {n : Nat}
    (hn : n ≤ maxNonceLen) (h : wordMax < n + s.associatedDataLen) : s.maxFieldLen = wordMax := by
  unfold validate fault? at hs
  split_ifs at hs with h₁ h₂ h₃ h₄
  rw [not_lt, addSaturating, min_eq_right (by omega)] at h₄
  exact le_antisymm s.maxFieldLen_le h₄

/-- The ciphers that the standard ciphers make are within bounds. -/
theorem KeyedCipher.bounded_standard : Bounded IsStandard where
  blockSize := by
    rintro _ ⟨c⟩
    exact (by decide : 1 ≤ 16 ∧ 16 ≤ Settings.maxChunkOverhead)
  crypt := by
    rintro _ ⟨c⟩ data
    exact .block _
  nonceSize := by
    rintro _ (- | - | h)
    exact h.nonceSize
  overhead := by
    rintro _ (- | - | h)
    exact le_rfl
  encrypt := by
    rintro _ (- | - | h) nonce plaintext aad
    exact .aead h

namespace Sealer

/-- There is no session where the string of the nonces would be too long. -/
theorem start?_eq_none {M : Modes} {τ : Type} [Output τ] {s : Settings} {c : M.Aead} {p : Preamble}
    {e : Entropy} {output : τ} (hs : s.validate = .ok ())
    (hlt : wordMax < AeadMode.nonceSize c + s.associatedDataLen) :
    start? s p (.aead c) e output = none := by
  simp only [start?, hs, Encoder.start?, NonceChain.start?_eq_none hlt]
  rfl

theorem start?_eq_some {M : Modes} {τ : Type} [Output τ] {s : Settings} {k : KeyedCipher M}
    {e : Entropy} (hs : s.validate = .ok ())
    (h : Encoder.start? s e k = some (.start s e k)) (p : Preamble) (output : τ) :
    start? s p k e output = some (start s p k e output) := by
  simp only [start?, hs, h, start]
  dsimp only [bind, Option.bind]
  rcases writeItems p.items output with ⟨cause | _, o⟩ <;> rfl

/-- **Which sums are of 64 bits** under settings that are accepted, for ciphers whose sizes are
within bounds: all of them but the first one, of the length of a nonce and the length of associated
data. This one is too large just where there is no limit on fields and it is beyond all numbers of
64 bits; then there is no session. Otherwise a session begins as it should, and after any requests
the string of the nonces is as long as a nonce and the associated data. So a nonce can be cut off,
and what is pending is made into chunks with all sums of 64 bits and all accesses in range, however
much comes in up to `2 ^ 63` octets. -/
theorem checked_requests {M : Modes} {I : KeyedCipher M → Prop} (hI : KeyedCipher.Bounded I)
    {τ : Type} [Output τ] {s : Settings} (hs : s.validate = .ok ()) {k : KeyedCipher M} (hk : I k)
    (p : Preamble) (e : Entropy) (output : τ) :
    (start? s p k e output = none ↔ s.maxFieldLen = wordMax ∧
      ∃ c, k = .aead c ∧ wordMax < AeadMode.nonceSize c + s.associatedDataLen) ∧
    ∀ r, start? s p k e output = some r → r = start s p k e output ∧
      ∀ w, r = .ok w → ∀ qs : List Request,
        (∀ c chain, (w.requests qs).2.encoder = .aead c chain →
          chain.octets.length = chain.nonceSize + s.associatedDataLen) ∧
        ∀ (data : Bytes) (last : Bool),
          ((w.requests qs).2.pending ++ data).length < 2 ^ 63 →
          ((w.requests qs).2.taking data).encode? last =
            some (((w.requests qs).2.taking data).encode last) := by
  obtain ⟨-, c, rfl, hlt⟩ | ⟨hsome, hle⟩ := Encoder.start?_eq s e k
  · rw [start?_eq_none hs hlt]
    have hmax := Settings.maxFieldLen_eq hs (hI.nonceSize hk) hlt
    exact ⟨⟨fun _ => ⟨hmax, c, rfl, hlt⟩, fun _ => rfl⟩, fun r hr => by cases hr⟩
  · rw [start?_eq_some hs hsome]
    have hno : some (start s p k e output) = none ↔ s.maxFieldLen = wordMax ∧
        ∃ c, k = .aead c ∧ wordMax < AeadMode.nonceSize c + s.associatedDataLen := by
      constructor
      · rintro ⟨⟩
      · rintro ⟨-, c, hc, hlt⟩
        exact absurd hlt (hle c hc).not_gt
    refine ⟨hno, ?_⟩
    rintro _ ⟨⟩
    refine ⟨rfl, fun w hstart qs => ?_⟩
    obtain ⟨n, hfit⟩ := Encoder.fits_start s e hk
    have hrun := fits_requests hI (fits_of_start hfit hstart) qs
    refine ⟨fun c chain he => ?_, fun data last hp => ?_⟩
    · have hchain := hrun.encoder
      rw [he] at hchain
      rw [hchain.2.nonceSize, hchain.2.length]
    · have htaking : ((w.requests qs).2.taking data).Fits I n s.associatedDataLen s.maxChunkLen :=
        ⟨hrun.encoder, hrun.maxChunkLen⟩
      exact encode?_eq hI htaking (Settings.maxChunkLen_pos hs) s.maxChunkLen_le last hp

/-- A cipher of scripted sizes, with a limit on chunks that is no limit, and what it makes of twenty
octets and then of three. -/
theorem checked_requests_scripted :
    let s : Settings := { maxFieldLen := wordMax, maxChunkLen := wordMax,
                          associatedDataLen := 4 }
    ∃ w : Sealer .scripted (Array UInt8),
      start? s ⟨[1], "x", "y"⟩ (.aead (⟨4, 2, 7, 0, 0⟩ : ScriptedAead)) (.scripted #[]) #[] =
        some (.ok w) ∧
      (∀ c chain, (w.requests [.write (Bytes.zeros 20)]).2.encoder = .aead c chain →
        chain.octets.length = chain.nonceSize + 4) ∧
      ((w.requests [.write (Bytes.zeros 20)]).2.taking [1, 2, 3]).encode? true =
        some (((w.requests [.write (Bytes.zeros 20)]).2.taking [1, 2, 3]).encode true) := by
  intro s
  let I : KeyedCipher .scripted → Prop := fun k =>
    ∃ c : ScriptedAead, k = .aead c ∧ c.nonceSize ≤ 24 ∧ c.tagSize ≤ 16
  have hI : KeyedCipher.Bounded I := by
    refine ⟨?_, ?_, ?_, ?_, ?_⟩
    · rintro _ ⟨c, hc, -⟩
      cases hc
    · rintro _ ⟨c, hc, -⟩
      cases hc
    · rintro _ ⟨c, hc, hn, -⟩
      cases hc
      exact hn
    · rintro _ ⟨c, hc, -, ho⟩
      cases hc
      exact ho
    · rintro c ⟨_, hc, h⟩ nonce plaintext aad
      cases hc
      have henc : (AeadMode.encrypt nonce plaintext aad c).2 =
          ({ c with calls := c.calls + 1 } : ScriptedAead) := by
        simp only [AeadMode.encrypt]
        split_ifs <;> rfl
      exact ⟨_, congrArg KeyedCipher.aead henc, h⟩
  have hs : s.validate = .ok () := rfl
  obtain ⟨-, hsome⟩ := checked_requests hI hs ⟨⟨4, 2, 7, 0, 0⟩, rfl, by decide⟩
    ⟨[1], "x", "y"⟩ (.scripted #[]) (#[] : Array UInt8)
  obtain ⟨w, hw⟩ : ∃ w : Sealer .scripted (Array UInt8), start? s ⟨[1], "x", "y"⟩
      (.aead (⟨4, 2, 7, 0, 0⟩ : ScriptedAead)) (.scripted #[]) #[] = some (.ok w) := ⟨_, rfl⟩
  obtain ⟨-, hrun⟩ := hsome _ hw
  obtain ⟨hlen, henc⟩ := hrun w rfl [.write (Bytes.zeros 20)]
  refine ⟨w, hw, hlen, henc [1, 2, 3] true ?_⟩
  cases hw
  decide +kernel

/-- Settings that are accepted, with as much associated data as makes the string of a nonce of
twelve octets too long by one. There is no session with ChaCha20-Poly1305. -/
theorem checked_widest :
    let s : Settings := { maxFieldLen := wordMax,
                          associatedDataLen := wordMax - 11 }
    let c : StandardAead := .scheme (chaChaPoly (Bytes.zeros 32))
    s.validate = .ok () ∧ (∀ name, s.get name ≤ wordMax) ∧
      AeadMode.nonceSize c ≤ Settings.maxNonceLen ∧
      AeadMode.overhead c ≤ Settings.maxChunkOverhead ∧
      AeadMode.nonceSize c + s.associatedDataLen = wordMax + 1 ∧
      KeyedCipher.Bounded KeyedCipher.IsStandard ∧ KeyedCipher.IsStandard (.aead c) ∧
      @start? .standard _ _ s ⟨[1], "x", "y"⟩ (.aead c) (.scripted #[]) (#[] : Array UInt8) =
        none := by
  intro s c
  exact ⟨rfl, s.get_le, by decide, by decide, by decide, KeyedCipher.bounded_standard,
    .aead (isStandard_chaChaPoly _), start?_eq_none rfl (by decide)⟩

end Sealer

end SealedStream
