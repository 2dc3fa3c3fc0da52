import Mathlib
import SealedStream.Cipher.Scripted
import SealedStream.Proofs.Opening
import SealedStream.Proofs.Sealing
/-!
# What an authenticated cipher protects

* `AeadMode.Opens`: a cipher opens what was sealed in a container, and nothing else.
* `Opener.reads_replaced`: contents end at a chunk whose nonce or data was replaced.
* `Opener.reads_rearranged`: chunks may be dropped, repeated and put in another order, and any of
  them may be marked as the final one.
* `Ledger` is an ideal cipher, which lists what it may open.
-/
namespace SealedStream

/-! ## Ciphers that open nothing else -/

/-- What an authenticated cipher is given of a chunk: not whether it is the final one. -/
def Chunk.fields (c : Chunk) : Bytes × Bytes := (c.nonce, c.data)

/-- The nonce of `size` octets of a chunk, its data and the associated data behind the nonce. -/
def Chunk.triple (size : Nat) (c : Chunk) : Bytes × Bytes × Bytes :=
  (c.nonce.take size, c.data, c.nonce.drop size)

theorem Chunk.fields_eq_iff {c d : Chunk} :
    c.fields = d.fields ↔ c.nonce = d.nonce ∧ c.data = d.data := Prod.mk_inj

theorem Chunk.triple_eq_iff {size : Nat} {c d : Chunk} :
    c.triple size = d.triple size ↔ c.fields = d.fields := by
  rw [fields_eq_iff]
  constructor
  · intro h
    have h₁ : c.nonce.take size = d.nonce.take size := congrArg Prod.fst h
    have h₂ : c.nonce.drop size = d.nonce.drop size := congrArg (fun x => x.2.2) h
    refine ⟨?_, congrArg (fun x => x.2.1) h⟩
    rw [← List.take_append_drop size c.nonce, h₁, h₂, List.take_append_drop]
  · rintro ⟨hn, hd⟩
    rw [triple, triple, hn, hd]

/-- The fields of the chunks of a transcript. -/
abbrev emitted (t : List (Piece × Chunk)) : List (Bytes × Bytes) := t.map fun x => x.2.fields

theorem fields_mem_emitted {t : List (Piece × Chunk)} {x : Piece × Chunk} (hx : x ∈ t) :
    x.2.fields ∈ emitted t := List.mem_map.2 ⟨x, hx, rfl⟩

/-- A property of ciphers with nonces of `size` octets that decryption keeps: a chunk of the
transcript gives its piece, and everything else is refused. -/
structure AeadMode.Opens {α : Type} [AeadMode α] (size : Nat) (t : List (Piece × Chunk))
    (I : α → Prop) : Prop where
  nonceSize {d : α} (h : I d) : AeadMode.nonceSize d = size
  genuine {d : α} {x : Piece × Chunk} (h : I d) (hx : x ∈ t) :
    ∃ d', AeadMode.decrypt (x.2.nonce.take size) x.2.data (x.2.nonce.drop size) d =
      (.ok x.1.data, d') ∧ I d'
  forged {d : α} {nonce data aad : Bytes} (h : I d)
    (hn : (nonce, data, aad) ∉ t.map fun x => x.2.triple size) :
    ∃ d', AeadMode.decrypt nonce data aad d = (.error .authentication, d') ∧ I d'

/-- The plaintext of the chunk of a transcript with the given fields. -/
def plaintextIn (t : List (Piece × Chunk)) (f : Bytes × Bytes) : Bytes :=
  ((t.find? fun x => x.2.fields = f).map fun x => x.1.data).getD []

theorem exists_plaintextIn {t : List (Piece × Chunk)} {f : Bytes × Bytes} (h : f ∈ emitted t) :
    ∃ x ∈ t, x.2.fields = f ∧ plaintextIn t f = x.1.data := by
  obtain ⟨y, hy, hf⟩ := List.mem_map.1 h
  rcases hx : t.find? fun x => x.2.fields = f with _ | x
  · have hn := List.find?_eq_none.1 hx y hy
    exact absurd (decide_eq_true hf) hn
  · have hp := List.find?_some hx
    refine ⟨x, List.mem_of_find?_eq_some hx, of_decide_eq_true hp, ?_⟩
    rw [plaintextIn, hx]
    rfl

namespace AeadMode.Opens
variable {M : Modes} {size : Nat} {t : List (Piece × Chunk)} {I : M.Aead → Prop} {d : M.Aead}
  (h : Opens size t I) (hd : I d)
include h hd

/-- The plaintext of a chunk of the transcript is that of its piece. -/
theorem plaintextIn_fields {x : Piece × Chunk} (hx : x ∈ t) :
    plaintextIn t x.2.fields = x.1.data := by
  obtain ⟨y, hy, hf, hp⟩ := exists_plaintextIn (fields_mem_emitted hx)
  obtain ⟨d₁, h₁, -⟩ := h.genuine hd hx
  obtain ⟨d₂, h₂, -⟩ := h.genuine hd hy
  obtain ⟨hn, hdata⟩ := Chunk.fields_eq_iff.1 hf
  rw [hn, hdata, h₁] at h₂
  rw [hp]
  exact (Except.ok.inj (congrArg Prod.fst h₂)).symm

variable (hl : ∀ x ∈ t, size ≤ x.2.nonce.length)
include hl

/-- A chunk with the fields of one of the transcript is opened. -/
theorem decryptChunk_genuine {c : Chunk} (hc : c.fields ∈ emitted t) :
    ((KeyedCipher.aead d).decryptChunk c).result = .ok (plaintextIn t c.fields) ∧
      ∃ d', ((KeyedCipher.aead d).decryptChunk c).cipher = .aead d' ∧ I d' := by
  obtain ⟨x, hx, hf, hp⟩ := exists_plaintextIn hc
  obtain ⟨d', hx', hi⟩ := h.genuine hd hx
  obtain ⟨hn, hdata⟩ := Chunk.fields_eq_iff.1 hf
  have hlt : ¬ c.nonce.length < size := by
    rw [← hn]
    exact (hl x hx).not_gt
  rw [hn, hdata] at hx'
  simp only [KeyedCipher.decryptChunk, h.nonceSize hd, hlt, if_false, hx', hp]
  exact ⟨trivial, d', rfl, hi⟩

omit hl in
theorem decryptChunk_forged {c : Chunk} (hc : c.fields ∉ emitted t) :
    ((KeyedCipher.aead d).decryptChunk c).result = .error
      (if c.nonce.length < size then .nonce size c.nonce.length else .authentication) := by
  by_cases hlt : c.nonce.length < size
  · simp only [KeyedCipher.decryptChunk, h.nonceSize hd, hlt, if_true]
  · have hn : c.triple size ∉ t.map fun x => x.2.triple size := by
      intro hm
      obtain ⟨x, hx, he⟩ := List.mem_map.1 hm
      exact hc (List.mem_map.2 ⟨x, hx, Chunk.triple_eq_iff.1 he⟩)
    obtain ⟨d', hx', -⟩ := h.forged hd hn
    simp only [KeyedCipher.decryptChunk, h.nonceSize hd, hlt, if_false, hx']

/-- Chunks with fields of the transcript are opened one after another, in any order. -/
theorem reads {cs : List Chunk} (hcs : ∀ c ∈ cs, c.fields ∈ emitted t) :
    ∃ d', (KeyedCipher.aead d).Reads cs ((cs.map Chunk.fields).map (plaintextIn t)) (.aead d') ∧
      I d' := by
  induction cs generalizing d with
  | nil => exact ⟨d, .nil _, hd⟩
  | cons c cs ih =>
    obtain ⟨hr, d₁, hk, hi⟩ := h.decryptChunk_genuine hd hl (hcs c List.mem_cons_self)
    obtain ⟨d', hs, hi⟩ := ih hi fun x hx => hcs x (List.mem_cons_of_mem _ hx)
    exact ⟨d', .cons hr (hk ▸ hs), hi⟩

end AeadMode.Opens

/-! ## Contents of chunks that are opened -/

/-- A chunk behind which a reader looks for another one. -/
def Chunk.Passes (limit : Nat) (c : Chunk) : Prop := c.last = false ∧ c.excess? limit = none

/-- How far a reader comes with chunks that it can open: `Ends limit cs front e` if it takes the
chunks `front` of `cs` and then ends with `e`. -/
inductive Chunk.Ends (limit : Nat) : (cs front : List Chunk) → Ending → Prop where
  | finished {body back : List Chunk} {c : Chunk} (hb : ∀ d ∈ body, d.Passes limit)
      (hc : c.last = true) (hx : c.excess? limit = none) :
      Ends limit (body ++ c :: back) (body ++ [c]) .finished
  | truncated {cs : List Chunk} (hb : ∀ d ∈ cs, d.Passes limit) :
      Ends limit cs cs (.failed .truncated)
  | excess {body back : List Chunk} {c : Chunk} {len : Nat} (hb : ∀ d ∈ body, d.Passes limit)
      (hx : c.excess? limit = some len) :
      Ends limit (body ++ c :: back) body (.failed (.wire (.fieldTooLarge len limit)))

namespace Chunk.Ends
variable {limit : Nat} {c : Chunk} {cs front : List Chunk} {e : Ending}

theorem cons (h : Ends limit cs front e) (hc : c.Passes limit) :
    Ends limit (c :: cs) (c :: front) e := by
  cases h with
  | finished hb hl hx => exact .finished (List.forall_mem_cons.2 ⟨hc, hb⟩) hl hx
  | truncated hb => exact .truncated (List.forall_mem_cons.2 ⟨hc, hb⟩)
  | excess hb hx => exact .excess (List.forall_mem_cons.2 ⟨hc, hb⟩) hx

/-- A reader that does not finish has found the container damaged. -/
theorem isIntegrityError {cause : StreamError} (h : Ends limit cs front (.failed cause)) :
    cause.isIntegrityError = true := by
  cases h <;> rfl

end Chunk.Ends

/-- The contents of chunks with fields of the transcript. -/
theorem Contents.ofChunks_genuine {M : Modes} {size limit : Nat} {t : List (Piece × Chunk)}
    {I : M.Aead → Prop} {d : M.Aead} (h : AeadMode.Opens size t I) (hd : I d)
    (hl : ∀ x ∈ t, size ≤ x.2.nonce.length) {cs : List Chunk}
    (hcs : ∀ c ∈ cs, c.fields ∈ emitted t) :
    ∃ front e, Chunk.Ends limit cs front e ∧
      ofChunks limit cs (.aead d) = ⟨(front.map Chunk.fields).flatMap (plaintextIn t), e⟩ := by
  -- decryption may change the cipher, so the induction is for every cipher with the property
  induction cs generalizing d with
  | nil => exact ⟨[], _, .truncated (by simp), rfl⟩
  | cons c cs ih =>
    rcases hx : c.excess? limit with _ | len
    · obtain ⟨hr, d₁, hk, hi⟩ := h.decryptChunk_genuine hd hl (hcs c List.mem_cons_self)
      rcases hlast : c.last with _ | _
      · obtain ⟨front, e, he, hc⟩ := ih hi fun x hm => hcs x (List.mem_cons_of_mem _ hm)
        refine ⟨c :: front, e, he.cons ⟨hlast, hx⟩, ?_⟩
        simp only [ofChunks, hx, hr, hlast, hk, hc, Bool.false_eq_true, if_false]
        rfl
      · refine ⟨[c], _, .finished (List.forall_mem_nil _) hlast hx, ?_⟩
        simp only [ofChunks, hx, hr, hlast, if_true]
        simp
    · refine ⟨[], _, .excess (List.forall_mem_nil _) hx, ?_⟩
      simp only [ofChunks, hx]
      rfl

/-- The contents of chunks of the transcript behind which a chunk with other fields comes. -/
theorem Contents.ofChunks_forged {M : Modes} {size limit : Nat} {t : List (Piece × Chunk)}
    {I : M.Aead → Prop} {d : M.Aead} (h : AeadMode.Opens size t I) (hd : I d)
    (hl : ∀ x ∈ t, size ≤ x.2.nonce.length) {u : List (Piece × Chunk)} (hu : ∀ x ∈ u, x ∈ t)
    (hux : ∀ x ∈ u, x.2.Passes limit) {c : Chunk}
    (hc : c.fields ∉ emitted t) (hx : c.excess? limit = none) (cs : List Chunk) :
    ofChunks limit (u.map Prod.snd ++ c :: cs) (.aead d) =
      ⟨u.flatMap fun x => x.1.data, .failed (.cipher
        (if c.nonce.length < size then .nonce size c.nonce.length else .authentication))⟩ := by
  have hcs : ∀ c ∈ u.map Prod.snd, c.fields ∈ emitted t := by
    intro c hc
    obtain ⟨x, hx, rfl⟩ := List.mem_map.1 hc
    exact fields_mem_emitted (hu x hx)
  obtain ⟨d', hr, hi⟩ := h.reads hd hl hcs
  have hp : ((u.map Prod.snd).map Chunk.fields).map (plaintextIn t) = u.map fun x => x.1.data := by
    rw [List.map_map, List.map_map]
    exact List.map_congr_left fun x hx => h.plaintextIn_fields hd (hu x hx)
  rw [hr.ofChunks_append (List.forall_mem_map.2 hux), hp]
  simp only [ofChunks, hx, h.decryptChunk_forged hi hc, prepend]
  rw [List.append_nil, List.flatMap_def]

/-! ## Containers of authenticated ciphers -/

namespace Sealer
variable {M : Modes} {τ : Type} [Output τ] [Lossless τ] {s : Settings} {p : Preamble} {a : M.Aead}
  {e : Entropy} {output : τ} {w w' : Sealer M τ} {calls : List Call}

/-- The chunks of a completed container whose chunks were sealed with an authenticated cipher. -/
structure SealedAead (size : Nat) (t : List (Piece × Chunk)) (plaintext : Bytes) : Prop where
  encodable : ∀ x ∈ t, x.2.Encodable
  nonce : ∀ x ∈ t, size ≤ x.2.nonce.length
  plaintext : (t.flatMap fun x => x.1.data) = plaintext
  last : ∀ x ∈ t.dropLast, x.2.last = false

theorem complete_aead (h : start s p (.aead a) e output = .ok w)
    (h' : w.complete calls = (.ok (), w')) :
    p.Encodable ∧
      SealedAead (AeadMode.nonceSize a) (transcript s e (.aead a) calls)
        (calls.flatMap Call.data) ∧
      Lossless.arrived w'.output = Lossless.taken output ++
        Container.octets ⟨p, (transcript s e (.aead a) calls).map Prod.snd⟩ := by
  obtain ⟨hs, he, hb, ht⟩ := start_ok h
  have hi := Encoder.isAead_start s e a
  obtain ⟨hp, hm, hx, ha⟩ :=
    container_ok (Encoder.keeps_aead _ _) hi hb ht (fun _ _ => trivial) h'
  obtain ⟨cs, c, hrow, hdata, -⟩ :=
    Plan.session_all (Settings.maxChunkLen_pos hs) (calls.map Call.data)
  rw [hrow] at hp
  refine ⟨he, ⟨fun x hm => (hx x hm).1, fun x hm => ?_, ?_, fun x hm' => ?_⟩, ha⟩
  · rw [(hx x hm).2]
    exact Nat.le_add_right _ _
  · have hd := congrArg (fun ps => (ps.map Piece.data).flatten) hp
    rw [Piece.map_data_row, List.flatten_append, List.flatten_singleton, hdata] at hd
    rw [List.flatMap_def, List.flatMap_def, ← hd, List.map_map]
    rfl
  · obtain ⟨u, y, ht, hu, -⟩ := hm.of_row hp
    rw [ht, List.dropLast_concat] at hm'
    exact hu x hm'

end Sealer

/-! ## An ideal cipher -/

/-- A cipher that leaves messages as they are, and opens those that it lists. -/
structure Ledger where
  size : Nat
  entries : List (Bytes × Bytes × Bytes) := []

instance : AeadMode Ledger where
  nonceSize l := l.size
  overhead _ := 0
  encrypt nonce plaintext aad l :=
    (.ok plaintext, { l with entries := (nonce, plaintext, aad) :: l.entries })
  decrypt nonce ciphertext aad l :=
    (if (nonce, ciphertext, aad) ∈ l.entries then .ok ciphertext else .error .authentication, l)

/-- The scripted ciphers, and ledgers. -/
abbrev Modes.ledger : Modes := ⟨ScriptedBlock, ScriptedStream, Ledger⟩

namespace Ledger

/-- The ledger that lists the chunks of a transcript. -/
def ofTranscript (size : Nat) (t : List (Piece × Chunk)) : Ledger :=
  ⟨size, t.map fun x => x.2.triple size⟩

theorem opens {size : Nat} {t : List (Piece × Chunk)} (h : ∀ x ∈ t, x.2.data = x.1.data) :
    AeadMode.Opens size t (· = ofTranscript size t) where
  nonceSize := by
    rintro _ rfl
    rfl
  genuine := by
    rintro _ x rfl hx
    have hm : x.2.triple size ∈ (ofTranscript size t).entries :=
      List.mem_map.2 ⟨x, hx, rfl⟩
    exact ⟨_, Prod.ext ((if_pos hm).trans (congrArg Except.ok (h x hx))) rfl, rfl⟩
  forged := by
    rintro _ nonce data aad rfl hn
    exact ⟨_, Prod.ext (if_neg hn) rfl, rfl⟩

theorem exists_complete {s : Settings} (hs : s.validate = .ok ()) (hd : s.maxChunkLen ≤ maxLength)
    {p : Preamble} (hp : p.Encodable) {l : Ledger}
    (hn : l.size + s.associatedDataLen ≤ maxLength) (e : Entropy) (calls : List Sealer.Call) :
    ∃ w w', @Sealer.start .ledger _ _ s p (.aead l) e (#[] : Array UInt8) = .ok w ∧
      w.complete calls = (.ok (), w') ∧
      ∀ x ∈ @Sealer.transcript .ledger s e (.aead l) calls, x.2.data = x.1.data := by
  have hi := @Encoder.isAead_start .ledger s e l
  obtain ⟨w, hw, hb, hr⟩ := @Sealer.start_reliable .ledger _ _ s p (.aead l) e _ hs hp
    (Output.reliable_memory #[])
  obtain ⟨t, enc, ht, hm, hx⟩ := @Encoder.exists_makes .ledger (fun p c => c.data = p.data)
    (Encoder.IsAead l.size s.associatedDataLen) (by
      rintro _ ⟨c, chain, rfl, hc⟩ p
      exact ⟨_, _, rfl, rfl, _, _, rfl, hc.advance⟩) _ hi
    (Plan.session (Plan.all s.maxChunkLen) [] (calls.map Sealer.Call.data))
  have hk := @Encoder.keeps_aead .ledger l.size s.associatedDataLen
  have henc : ∀ x ∈ t, x.2.Encodable := by
    intro x hmem
    obtain ⟨hg, -⟩ := hm.keeps hk hi fun _ _ => trivial
    have hle : x.1.data.length ≤ s.maxChunkLen :=
      Plan.length_le_of_mem_session_all (Settings.maxChunkLen_pos hs)
        (ht ▸ List.mem_map_of_mem hmem)
    refine ⟨(hg x hmem).trans_le hn, ?_⟩
    rw [hx x hmem]
    exact hle.trans hd
  obtain ⟨w', h⟩ := Sealer.container_reliable hk hi hb hr hm ht (fun _ _ => trivial) henc
  refine ⟨w, w', hw, h, ?_⟩
  rw [Sealer.transcript, Sealer.pieces_start hk hi, ← ht, hm.transcript_eq]
  exact hx

end Ledger

/-- Settings under which every octet has a chunk of its own. -/
def Settings.octetwise : Settings :=
  (((default : Settings).set .maxFieldLen 64).set .maxChunkLen 1).set .associatedDataLen 1

/-- The preamble of a container that is sealed with a ledger. -/
def Preamble.ledger : Preamble := ⟨[1, 2, 3], "curve25519", "ledger"⟩

/-- The chunks of a plaintext of two octets. -/
def Ledger.pair : List (Piece × Chunk) :=
  @Sealer.transcript .ledger .octetwise (.scripted #[]) (.aead ⟨2, []⟩) [.write [1, 2]]

/-- These chunks, each of them marked as the final one. -/
def Ledger.marked : List Chunk := pair.map fun x => { x.2 with last := true }

/-- The decrypter that opens these chunks. -/
def Ledger.decrypter : Decrypter .ledger := .direct (.aead (ofTranscript 2 pair))

theorem Ledger.decrypter_eq (p : Preamble) :
    decrypter p = .ok { cipher := .aead (ofTranscript 2 pair) } := rfl

theorem Ledger.exists_complete_pair :
    ∃ w w', @Sealer.start .ledger _ _ .octetwise .ledger (.aead ⟨2, []⟩) (.scripted #[])
        (#[] : Array UInt8) = .ok w ∧
      w.complete [.write [1, 2]] = (.ok (), w') ∧ ∀ x ∈ pair, x.2.data = x.1.data :=
  @exists_complete .octetwise rfl (by decide) .ledger (by decide) ⟨2, []⟩ (by decide) _ _

theorem Ledger.opens_pair : AeadMode.Opens 2 pair (· = ofTranscript 2 pair) := by
  obtain ⟨-, -, -, -, h⟩ := exists_complete_pair
  exact opens h

namespace Opener
variable {M : Modes} {τ ι : Type} [Output τ] [Lossless τ] [Input ι] {s r : Settings} {p : Preamble}
  {a d : M.Aead} {e : Entropy} {output : τ} {w w' : Sealer M τ} {calls : List Sealer.Call}
  {decrypter : Decrypter M} {session : DecryptionSession M} {I : M.Aead → Prop} {input : ι}
  {t : List (Piece × Chunk)}

/-- **A replaced chunk ends the contents.** Take a completed container of an authenticated cipher,
and a reader whose cipher opens what was sealed in it and nothing else. Where the nonce or the data
of a chunk is replaced, so that no chunk of the container has both, the reader gives the plaintext
of the chunks before it, and then always fails. -/
theorem reads_replaced (hw : Sealer.start s p (.aead a) e output = .ok w)
    (hw' : w.complete calls = (.ok (), w')) (htr : Sealer.transcript s e (.aead a) calls = t)
    (hr : r.validate = .ok ()) (hx : p.excess? r.maxFieldLen = none)
    (hI : AeadMode.Opens (AeadMode.nonceSize a) t I) (hd : decrypter p = .ok session)
    (hc : session.cipher = .aead d) (hi : I d) {n : Nat} (hn : n < t.length)
    (hl : ∀ x ∈ t.take n, x.2.excess? r.maxFieldLen = none) {c : Chunk} (he : c.Encodable)
    (hcx : c.excess? r.maxFieldLen = none) (hf : c.fields ∉ emitted t)
    (hin : Input.Supplies input (Container.octets ⟨p, (t.map Prod.snd).set n c⟩)) :
    Lossless.arrived w'.output = Lossless.taken output ++ Container.octets ⟨p, t.map Prod.snd⟩ ∧
      ∃ o given cause, start r decrypter input = .ok o ∧ o.preamble = p ∧
        given = (t.take n).flatMap (fun x => x.1.data) ∧
        cause = .cipher (if c.nonce.length < AeadMode.nonceSize a then
          .nonce (AeadMode.nonceSize a) c.nonce.length else .authentication) ∧
        ∀ ns, (o.reads ns).1 = Contents.answers ns ⟨given, .failed cause⟩ ∧
          (given.length < ns.sum → (o.reads ns).2.phase = .failed cause) := by
  obtain ⟨hpe, ht, ha⟩ := Sealer.complete_aead hw hw'
  rw [htr] at ht ha
  -- what comes behind the replaced chunk is never read
  have hset : (t.map Prod.snd).set n c =
      (t.take n).map Prod.snd ++ c :: (t.drop (n + 1)).map Prod.snd := by
    rw [List.set_eq_take_append_cons_drop, if_pos (by rwa [List.length_map]), List.map_take,
      List.map_drop]
  have hall : ∀ x ∈ (t.map Prod.snd).set n c, x.Encodable := by
    intro x hm
    rcases List.mem_or_eq_of_mem_set hm with hm | rfl
    · obtain ⟨y, hy, rfl⟩ := List.mem_map.1 hm
      exact ht.encodable y hy
    · exact he
  have hpass : ∀ x ∈ t.take n, x.2.Passes r.maxFieldLen := by
    intro x hm
    refine ⟨ht.last x ?_, hl x hm⟩
    rw [List.dropLast_eq_take]
    exact List.take_subset_take_left _ (by omega) hm
  obtain ⟨o, ho, hpre, hcont⟩ := start_contents hr hpe hx hall hin hd
  rw [hset, hc, Contents.ofChunks_forged hI hi ht.nonce (fun x hm => List.mem_of_mem_take hm) hpass
    hf hcx] at hcont
  refine ⟨ha, o, _, _, ho, hpre, rfl, rfl, fun ns => ⟨?_, fun hlt => ?_⟩⟩
  · rw [reads_eq, hcont]
  · rw [phase_reads ns o (hcont ▸ hlt), hcont]
    rfl

/-- The second of two octets is replaced. -/
theorem reads_replaced_ledger :
    ∃ w w', @Sealer.start .ledger _ _ .octetwise .ledger (.aead ⟨2, []⟩) (.scripted #[])
        (#[] : Array UInt8) = .ok w ∧
      w.complete [.write [1, 2]] = (.ok (), w') ∧
      ∃ o, @start .ledger _ _ .octetwise Ledger.decrypter
          (Container.octets ⟨.ledger, (Ledger.pair.map Prod.snd).set 1 ⟨false, [0, 0, 0], [9]⟩⟩) =
            .ok o ∧
        ∀ ns, (o.reads ns).1 =
          Contents.answers ns ⟨[1], .failed (.cipher .authentication)⟩ := by
  obtain ⟨w, w', hw, hw', -⟩ := Ledger.exists_complete_pair
  obtain ⟨-, o, given, cause, ho, -, hg, hc, hr⟩ := reads_replaced (r := .octetwise)
    (t := Ledger.pair) (n := 1) (c := ⟨false, [0, 0, 0], [9]⟩) hw hw' rfl rfl (by decide)
    Ledger.opens_pair (Ledger.decrypter_eq _) rfl rfl (by decide +kernel) (by decide +kernel)
    (by decide) (by decide) (by decide +kernel) (Input.supplies_self _)
  have hgiven : given = [1] := hg.trans (by decide +kernel)
  refine ⟨w, w', hw, hw', o, ho, fun ns => ?_⟩
  rw [(hr ns).1, hgiven, hc]
  rfl

/-- **Authenticated chunks may be rearranged.** Take a completed container of an authenticated
cipher, and a reader whose cipher opens what was sealed in it and nothing else. Of any chunks that
have the nonce and the data of chunks of the container, the reader gives the plaintexts as they
come, up to the first one that is marked as the final one; that is the whole plaintext where they
are those of the container. Where none is marked, or one is too long before it, the reader then
always fails. -/
theorem reads_rearranged (hw : Sealer.start s p (.aead a) e output = .ok w)
    (hw' : w.complete calls = (.ok (), w')) (htr : Sealer.transcript s e (.aead a) calls = t)
    (hr : r.validate = .ok ()) (hx : p.excess? r.maxFieldLen = none)
    (hI : AeadMode.Opens (AeadMode.nonceSize a) t I) (hd : decrypter p = .ok session)
    (hc : session.cipher = .aead d) (hi : I d) {cs : List Chunk}
    (hcs : ∀ c ∈ cs, c.fields ∈ emitted t)
    (hin : Input.Supplies input (Container.octets ⟨p, cs⟩)) :
    Lossless.arrived w'.output = Lossless.taken output ++ Container.octets ⟨p, t.map Prod.snd⟩ ∧
      ∃ o front ending given, start r decrypter input = .ok o ∧ o.preamble = p ∧
        Chunk.Ends r.maxFieldLen cs front ending ∧
        given = (front.map Chunk.fields).flatMap (plaintextIn t) ∧
        (∀ ns, (o.reads ns).1 = Contents.answers ns ⟨given, ending⟩ ∧
          (given.length < ns.sum → (o.reads ns).2.phase = ending.phase)) ∧
        (front.map Chunk.fields = emitted t → given = calls.flatMap Sealer.Call.data) ∧
        ∀ cause, ending = .failed cause → cause.isIntegrityError = true := by
  obtain ⟨hpe, ht, ha⟩ := Sealer.complete_aead hw hw'
  rw [htr] at ht ha
  have hall : ∀ c ∈ cs, c.Encodable := by
    intro c hm
    obtain ⟨x, hx, hf⟩ := List.mem_map.1 (hcs c hm)
    obtain ⟨hn, hdata⟩ := Chunk.fields_eq_iff.1 hf
    have hxe := ht.encodable x hx
    rwa [Chunk.Encodable, hn, hdata] at hxe
  obtain ⟨o, ho, hpre, hcont⟩ := start_contents hr hpe hx hall hin hd
  obtain ⟨front, ending, hends, hof⟩ :=
    @Contents.ofChunks_genuine _ _ r.maxFieldLen _ _ _ hI hi ht.nonce _ hcs
  rw [hc, hof] at hcont
  refine ⟨ha, o, front, ending, _, ho, hpre, hends, rfl, fun ns => ⟨?_, fun hlt => ?_⟩,
    fun hf => ?_, fun cause hcause => ?_⟩
  · rw [reads_eq, hcont]
  · rw [phase_reads ns o (hcont ▸ hlt), hcont]
  · rw [hf, List.flatMap_map, ← ht.plaintext]
    exact List.flatMap_congr fun x hm => hI.plaintextIn_fields hi hm
  · subst hcause
    exact hends.isIntegrityError

/-- Two octets that are put in another order, and a final chunk that is dropped. -/
theorem reads_rearranged_ledger :
    ∃ w w', @Sealer.start .ledger _ _ .octetwise .ledger (.aead ⟨2, []⟩) (.scripted #[])
        (#[] : Array UInt8) = .ok w ∧
      w.complete [.write [1, 2]] = (.ok (), w') ∧
      ∃ o front ending, @start .ledger _ _ .octetwise Ledger.decrypter
          (Container.octets ⟨.ledger, (Ledger.pair.map Prod.snd).dropLast.reverse⟩) = .ok o ∧
        Chunk.Ends 64 (Ledger.pair.map Prod.snd).dropLast.reverse front ending ∧
        ∀ ns, (o.reads ns).1 = Contents.answers ns
          ⟨(front.map Chunk.fields).flatMap (plaintextIn Ledger.pair), ending⟩ := by
  obtain ⟨w, w', hw, hw', -⟩ := Ledger.exists_complete_pair
  have hcs : ∀ c ∈ (Ledger.pair.map Prod.snd).dropLast.reverse, c.fields ∈ emitted Ledger.pair := by
    decide +kernel
  obtain ⟨-, o, front, ending, given, ho, -, hends, rfl, hr, -⟩ := reads_rearranged
    (r := .octetwise) hw hw' rfl rfl (by decide) Ledger.opens_pair (Ledger.decrypter_eq _) rfl rfl
    hcs (Input.supplies_self _)
  exact ⟨w, w', hw, hw', o, front, ending, ho, hends, fun ns => (hr ns).1⟩

/-- Where every chunk is marked as the final one, the reader finishes without the second octet. -/
theorem ended_of_marked_ledger :
    ∃ w w', @Sealer.start .ledger _ _ .octetwise .ledger (.aead ⟨2, []⟩) (.scripted #[])
        (#[] : Array UInt8) = .ok w ∧
      w.complete [.write [1, 2]] = (.ok (), w') ∧
      AeadMode.Opens 2 Ledger.pair (· = Ledger.ofTranscript 2 Ledger.pair) ∧
      (∀ c ∈ Ledger.marked, c.fields ∈ emitted Ledger.pair) ∧
      ∃ o, @start .ledger _ _ .octetwise Ledger.decrypter
          (Container.octets ⟨.ledger, Ledger.marked⟩) = .ok o ∧
        (o.reads [2]).1 = [.ok [1]] ∧ (o.reads [2]).2.phase = .ended := by
  obtain ⟨w, w', hw, hw', -⟩ := Ledger.exists_complete_pair
  have ht : Sealer.SealedAead 2 Ledger.pair [1, 2] := (Sealer.complete_aead hw hw').2.1
  have hf : ∀ c ∈ Ledger.marked, c.fields ∈ emitted Ledger.pair :=
    List.forall_mem_map.2 fun x hx => fields_mem_emitted hx
  have he : ∀ c ∈ Ledger.marked, c.Encodable := List.forall_mem_map.2 ht.encodable
  obtain ⟨o, ho, -, hcont⟩ := start_contents (s := .octetwise) rfl (by decide) (by decide) he
    (Input.supplies_self _) (Ledger.decrypter_eq .ledger)
  obtain ⟨c, cs, hm⟩ := List.exists_cons_of_ne_nil (show Ledger.marked ≠ [] by decide +kernel)
  obtain ⟨hl, hx, hp⟩ :
      c.last = true ∧ c.excess? 64 = none ∧ plaintextIn Ledger.pair c.fields = [1] := by
    have h : ∀ c ∈ Ledger.marked.head?, c.last = true ∧ c.excess? 64 = none ∧
        plaintextIn Ledger.pair c.fields = [1] := by decide +kernel
    exact h c (by rw [hm]; rfl)
  have hdec := (@AeadMode.Opens.decryptChunk_genuine .ledger _ _ _ _ Ledger.opens_pair rfl
    ht.nonce _ (hf c (hm ▸ List.mem_cons_self))).1
  have hcont : o.contents = ⟨[1], .finished⟩ := by
    have hlim : Settings.octetwise.maxFieldLen = 64 := rfl
    rw [hcont, hm]
    simp only [Contents.ofChunks, hlim, hx, hdec, hp, hl, if_true]
  refine ⟨w, w', hw, hw', Ledger.opens_pair, hf, o, ho, ?_, ?_⟩
  · rw [reads_eq, hcont]
    rfl
  · rw [phase_reads [2] o (by rw [hcont]; decide), hcont]
    rfl

end Opener

end SealedStream
