import Mathlib
import SealedStream.Proofs.Cutting
import SealedStream.Proofs.Framing
/-!
# How pieces become chunks

* `Settings.Accepts`: a chunk that is within the limits of the settings if it can be written.
* `NonceChain.Sized`: what all the nonces and associated data of a container have in common.
* `Encoder.Makes enc t enc'`: an encoder `enc` makes the chunks of the transcript `t` of their
  pieces, one after another, and is `enc'` after that. `Encoder.transcript` computes it.
* `Encoder.Keeps`: what one chunk keeps. `Makes.keeps` is what all of them keep.
* `Encoder.pieces` are the pieces of a plaintext that comes in parts.
-/
namespace SealedStream

/-! ## Room for chunks -/

namespace Settings
variable {s : Settings} (hs : s.validate = .ok ())
include hs

theorem maxChunkLen_pos : 0 < s.maxChunkLen := by
  unfold validate fault? at hs
  split_ifs at hs with h₁
  exact Nat.pos_of_ne_zero h₁

/-- There is room for the data of a chunk that can be written. -/
theorem data_le {n : Nat} (hn : n ≤ maxLength) (h : n ≤ s.maxChunkLen + maxChunkOverhead) :
    n ≤ s.maxFieldLen := by
  unfold validate fault? at hs
  split_ifs at hs with h₁ h₂ h₃ h₄
  rw [not_lt, addSaturating, min_le_iff] at h₃
  have hw : maxLength ≤ wordMax := by decide
  omega

/-- There is room for the nonce of a chunk that can be written. -/
theorem nonce_le {n : Nat} (hn : n ≤ maxLength) (h : n ≤ maxNonceLen + s.associatedDataLen) :
    n ≤ s.maxFieldLen := by
  unfold validate fault? at hs
  split_ifs at hs with h₁ h₂ h₃ h₄
  rw [not_lt, addSaturating, min_le_iff] at h₄
  have hw : maxLength ≤ wordMax := by decide
  omega

end Settings

/-- A reader under the settings accepts the chunk, if it can be written. -/
def Settings.Accepts (s : Settings) (c : Chunk) : Prop :=
  c.Encodable → c.excess? s.maxFieldLen = none

/-! ## Nonces -/

namespace NonceChain

theorem length_draws (n : Nat) (m : Mixer) : (draws n m).1.length = 8 * n := by
  induction n generalizing m with
  | zero => rfl
  | succ n ih =>
    rw [draws, List.length_append, Bytes.length_ofNatLE, ih]
    omega

theorem length_mask (len : Nat) (m : Mixer) : (mask len m).1.length = len := by
  rw [mask, List.length_take, length_draws]
  omega

/-- A chain whose nonces have `n` octets and whose associated data has `a`. -/
structure Sized (n a : Nat) (c : NonceChain) : Prop where
  nonceSize : c.nonceSize = n
  length : c.octets.length = n + a

variable {n a : Nat} {c : NonceChain}

theorem sized_start (n a : Nat) (e : Entropy) : Sized n a (start n a e).1 :=
  ⟨rfl, Entropy.length_fill _ _⟩

theorem Sized.advance (h : Sized n a c) : Sized n a c.advance := by
  refine ⟨h.nonceSize, ?_⟩
  show (Bytes.xor c.octets (mask c.octets.length c.mixer).1).length = n + a
  rw [Bytes.length_xor, length_mask, min_self, h.length]

theorem Sized.take (h : Sized n a c) : c.octets.take n = c.nonce := by rw [nonce, h.nonceSize]

theorem Sized.drop (h : Sized n a c) : c.octets.drop n = c.associatedData := by
  rw [associatedData, h.nonceSize]

theorem Sized.length_nonce (h : Sized n a c) : c.nonce.length = n := by
  rw [nonce, List.length_take, h.nonceSize, h.length]
  omega

end NonceChain

namespace Encoder
variable {M : Modes}

/-! ## One chunk -/

theorem encrypt_block {p : Piece} {b : M.Block} {c : Chunk} {enc : Encoder M}
    (h : (block b).encrypt p = (.ok c, enc)) :
    ∃ data b', BlockMode.crypt p.data b = (.ok data, b') ∧ c = ⟨p.last, [], data⟩ ∧
      enc = .block b' := by
  rcases hc : BlockMode.crypt p.data b with ⟨e | data, b'⟩ <;> rw [encrypt, hc] at h <;> cases h
  exact ⟨data, b', rfl, rfl, rfl⟩

theorem encrypt_stream {p : Piece} {s : M.Stream} {c : Chunk} {enc : Encoder M}
    (h : (stream s).encrypt p = (.ok c, enc)) :
    ∃ data s', StreamMode.crypt p.data s = (.ok data, s') ∧ c = ⟨p.last, [], data⟩ ∧
      enc = .stream s' := by
  rcases hc : StreamMode.crypt p.data s with ⟨e | data, s'⟩ <;> rw [encrypt, hc] at h <;> cases h
  exact ⟨data, s', rfl, rfl, rfl⟩

theorem encrypt_stream_of {p : Piece} {s s' : M.Stream} {data : Bytes}
    (h : StreamMode.crypt p.data s = (.ok data, s')) :
    (stream s).encrypt p = (.ok ⟨p.last, [], data⟩, .stream s') := by
  rw [encrypt, h]

theorem encrypt_aead {p : Piece} {a : M.Aead} {chain : NonceChain} {c : Chunk} {enc : Encoder M}
    (h : (aead a chain).encrypt p = (.ok c, enc)) :
    ∃ data a', AeadMode.encrypt chain.advance.nonce p.data chain.advance.associatedData a =
        (.ok data, a') ∧ c = ⟨p.last, chain.advance.octets, data⟩ ∧
      enc = .aead a' chain.advance := by
  rcases hc : AeadMode.encrypt chain.advance.nonce p.data chain.advance.associatedData a with
    ⟨e | data, a'⟩ <;> simp only [encrypt, hc] at h <;> cases h
  exact ⟨data, a', rfl, rfl, rfl⟩

/-- The chunk of the last piece is the final one, and no other. -/
theorem last_of_encrypt {p : Piece} {c : Chunk} {enc enc' : Encoder M}
    (h : enc.encrypt p = (.ok c, enc')) : c.last = p.last := by
  cases enc with
  | block b =>
    obtain ⟨_, _, -, rfl, -⟩ := encrypt_block h
    rfl
  | stream s =>
    obtain ⟨_, _, -, rfl, -⟩ := encrypt_stream h
    rfl
  | aead a chain =>
    obtain ⟨_, _, -, rfl, -⟩ := encrypt_aead h
    rfl

/-! ## All chunks -/

/-- The chunks that an encoder makes of pieces, each beside its piece, up to the first refusal. -/
def transcript : List Piece → Encoder M → List (Piece × Chunk)
  | [], _ => []
  | p :: ps, enc =>
    match enc.encrypt p with
    | (.error _, _) => []
    | (.ok c, enc) => (p, c) :: transcript ps enc

/-- An encoder makes the chunks of a transcript: `Makes enc t enc'` if it is `enc'` after that. -/
inductive Makes : Encoder M → List (Piece × Chunk) → Encoder M → Prop where
  | nil (enc : Encoder M) : Makes enc [] enc
  | cons {enc enc₁ enc₂ : Encoder M} {p : Piece} {c : Chunk} {t : List (Piece × Chunk)}
      (h : enc.encrypt p = (.ok c, enc₁)) (hs : Makes enc₁ t enc₂) : Makes enc ((p, c) :: t) enc₂

namespace Makes
variable {enc enc₁ enc₂ : Encoder M} {t u : List (Piece × Chunk)}

theorem single {p : Piece} {c : Chunk} (h : enc.encrypt p = (.ok c, enc₁)) :
    Makes enc [(p, c)] enc₁ := cons h (nil _)

theorem append (h : Makes enc t enc₁) (h' : Makes enc₁ u enc₂) : Makes enc (t ++ u) enc₂ := by
  induction h with
  | nil => exact h'
  | cons he _ ih => exact cons he (ih h')

theorem of_append (h : Makes enc (t ++ u) enc₂) : ∃ enc₁, Makes enc t enc₁ ∧ Makes enc₁ u enc₂ := by
  induction t generalizing enc with
  | nil => exact ⟨enc, nil enc, h⟩
  | cons x t ih =>
    cases h with
    | cons he hs =>
      obtain ⟨enc₁, h₁, h₂⟩ := ih hs
      exact ⟨enc₁, cons he h₁, h₂⟩

/-- What an encoder makes is what it was to make. -/
theorem transcript_eq (h : Makes enc t enc₁) : enc.transcript (t.map Prod.fst) = t := by
  induction h with
  | nil => rfl
  | cons he _ ih => simp only [List.map_cons, transcript, he, ih]

theorem last_eq (h : Makes enc t enc₁) : ∀ x ∈ t, x.2.last = x.1.last := by
  induction h with
  | nil => simp
  | cons he _ ih =>
    intro x hx
    rcases List.mem_cons.1 hx with rfl | hx
    · exact last_of_encrypt he
    · exact ih x hx

/-- Of the chunks of a row of pieces the last one is the final one, and no other. -/
theorem of_row (h : Makes enc t enc₁) {cs : List Bytes} {c : Bytes}
    (ht : t.map Prod.fst = Piece.row cs c) :
    ∃ u x, t = u ++ [x] ∧ (∀ y ∈ u, y.2.last = false) ∧ x.2.last = true := by
  obtain ⟨u, v, rfl, hu, hv⟩ := List.map_eq_append_iff.1 ht
  obtain ⟨x, rfl, hx⟩ := List.map_eq_singleton_iff.1 hv
  refine ⟨u, x, rfl, fun y hy => ?_, ?_⟩
  · have hp : y.1 ∈ cs.map fun data => (⟨data, false⟩ : Piece) := hu ▸ List.mem_map_of_mem hy
    obtain ⟨data, -, hp⟩ := List.mem_map.1 hp
    rw [h.last_eq y (List.mem_append_left _ hy), ← hp]
  · rw [h.last_eq x (List.mem_append_right _ (List.mem_singleton_self x)), hx]

end Makes

/-! ## What is kept from chunk to chunk -/

/-- A property of encoders that all chunks of suitable pieces keep: the plans are always the same,
and every chunk goes with its piece. -/
structure Keeps (plan : (limit : Nat) → (last : Bool) → Bytes → Plan) (Suits : Piece → Prop)
    (Goes : Piece → Chunk → Prop) (I : Encoder M → Prop) : Prop where
  plan {limit : Nat} {last : Bool} {pending : Bytes} {enc : Encoder M} (h : I enc) :
    enc.plan limit last pending = plan limit last pending
  encrypt {enc enc' : Encoder M} {p : Piece} {c : Chunk} (h : I enc) (hp : Suits p)
    (he : enc.encrypt p = (.ok c, enc')) : Goes p c ∧ I enc'

/-- **What one chunk keeps, all of them do.** -/
theorem Makes.keeps {plan : (limit : Nat) → (last : Bool) → Bytes → Plan} {Suits : Piece → Prop}
    {Goes : Piece → Chunk → Prop} {I : Encoder M → Prop} {enc enc' : Encoder M}
    {t : List (Piece × Chunk)} (h : Makes enc t enc') (hI : Keeps plan Suits Goes I) (hi : I enc)
    (ht : ∀ x ∈ t, Suits x.1) : (∀ x ∈ t, Goes x.1 x.2) ∧ I enc' := by
  induction h with
  | nil => exact ⟨by simp, hi⟩
  | cons he _ ih =>
    obtain ⟨hg, hi⟩ := hI.encrypt hi (ht _ List.mem_cons_self) he
    obtain ⟨hgs, hi⟩ := ih hi fun x hx => ht x (List.mem_cons_of_mem _ hx)
    refine ⟨fun x hx => ?_, hi⟩
    rcases List.mem_cons.1 hx with rfl | hx
    · exact hg
    · exact hgs x hx

/-- Encoders that refuse no piece make the chunks of any pieces. -/
theorem exists_makes {Goes : Piece → Chunk → Prop} {I : Encoder M → Prop}
    (h : ∀ enc, I enc → ∀ p, ∃ c enc', enc.encrypt p = (.ok c, enc') ∧ Goes p c ∧ I enc')
    {enc : Encoder M} (hi : I enc) (ps : List Piece) :
    ∃ t enc', t.map Prod.fst = ps ∧ enc.Makes t enc' ∧ ∀ x ∈ t, Goes x.1 x.2 := by
  induction ps generalizing enc with
  | nil => exact ⟨[], enc, rfl, .nil _, by simp⟩
  | cons p ps ih =>
    obtain ⟨c, enc₁, he, hg, hi⟩ := h enc hi p
    obtain ⟨t, enc', rfl, hm, ht⟩ := ih hi
    exact ⟨(p, c) :: t, enc', rfl, .cons he hm, List.forall_mem_cons.2 ⟨hg, ht⟩⟩

/-- The encoders of an authenticated cipher with nonces of `n` octets and `a` octets of associated
data. -/
def IsAead (n a : Nat) (enc : Encoder M) : Prop :=
  ∃ c chain, enc = .aead c chain ∧ NonceChain.Sized n a chain

/-- Every chunk of an authenticated cipher has a nonce and associated data of the same lengths. -/
theorem keeps_aead (n a : Nat) :
    Keeps Plan.all (fun _ => True) (fun _ c => c.nonce.length = n + a)
      (IsAead n a : Encoder M → Prop) where
  plan := by
    rintro limit last pending _ ⟨c, chain, rfl, -⟩
    rfl
  encrypt := by
    rintro _ _ p c ⟨a, chain, rfl, hs⟩ - he
    obtain ⟨data, a', -, rfl, rfl⟩ := encrypt_aead he
    exact ⟨hs.advance.length, a', _, rfl, hs.advance⟩

theorem isAead_start (s : Settings) (e : Entropy) (c : M.Aead) :
    IsAead (AeadMode.nonceSize c) s.associatedDataLen (start s e (.aead c)) :=
  ⟨c, _, rfl, NonceChain.sized_start _ _ _⟩

/-! ## Pieces of a whole plaintext -/

/-- The pieces of a plaintext that comes in parts. -/
def pieces (limit : Nat) (enc : Encoder M) (ds : List Bytes) : List Piece :=
  Plan.session (fun last pending => enc.plan limit last pending) [] ds

theorem plan_rest (enc : Encoder M) (limit : Nat) (pending : Bytes) :
    enc.plan limit false (enc.plan limit false pending).rest =
      ⟨[], (enc.plan limit false pending).rest⟩ := by
  cases enc with
  | block b => exact Plan.blocks_rest pending
  | stream s => rfl
  | aead a chain => rfl

theorem plan_nil (enc : Encoder M) (limit : Nat) : enc.plan limit false [] = ⟨[], []⟩ := by
  cases enc with
  | block b => simp [plan, Plan.blocks]
  | stream s => rfl
  | aead a chain => rfl

end Encoder

end SealedStream
