import Mathlib
import SealedStream.Cipher.Scripted
import SealedStream.Proofs.Opening
import SealedStream.Proofs.Sealing
/-!
# Containers are read back

* `BlockMode.Undoes`, `StreamMode.Undoes`, `AeadMode.Undoes`: what one cipher makes of the data of
  a call, the other one undoes in the same call. `KeyedCipher.Inverse` says so of keyed ciphers.
* `Encoder.Undone`: a chunk that an encoder makes gives its piece back. `Undone.reads` says so of
  all chunks of a plaintext.
* `Sealer.reads_complete`: what is sealed with one of two inverse ciphers is opened with the other
  one, however it is written and however it is read.
-/
namespace SealedStream

/-! ## Inverse ciphers -/

/-- A relation between ciphers for blocks of `size` octets that every call for whole blocks keeps:
the second cipher undoes what the first one does. -/
structure BlockMode.Undoes {β : Type} [BlockMode β] (size : Nat) (R : β → β → Prop) : Prop where
  blockSize {e d : β} (h : R e d) : BlockMode.blockSize e = size ∧ BlockMode.blockSize d = size
  crypt {e d : β} {data : Bytes} (h : R e d) (hd : size ∣ data.length) :
    ∃ sealed e' d', BlockMode.crypt data e = (.ok sealed, e') ∧ sealed.length = data.length ∧
      BlockMode.crypt sealed d = (.ok data, d') ∧ R e' d'

/-- A relation between stream ciphers that every call keeps: the second cipher undoes what the
first one does. -/
structure StreamMode.Undoes {σ : Type} [StreamMode σ] (R : σ → σ → Prop) : Prop where
  crypt {e d : σ} (data : Bytes) (h : R e d) :
    ∃ sealed e' d', StreamMode.crypt data e = (.ok sealed, e') ∧ sealed.length = data.length ∧
      StreamMode.crypt sealed d = (.ok data, d') ∧ R e' d'

/-- A relation between authenticated ciphers with nonces of `size` octets that every call keeps:
the second cipher opens what the first one seals, which is longer by `overhead` octets. -/
structure AeadMode.Undoes {α : Type} [AeadMode α] (size overhead : Nat) (R : α → α → Prop) :
    Prop where
  nonceSize {e d : α} (h : R e d) : AeadMode.nonceSize e = size ∧ AeadMode.nonceSize d = size
  crypt {e d : α} {nonce : Bytes} (data aad : Bytes) (h : R e d) (hn : nonce.length = size) :
    ∃ sealed e' d', AeadMode.encrypt nonce data aad e = (.ok sealed, e') ∧
      sealed.length = data.length + overhead ∧
      AeadMode.decrypt nonce sealed aad d = (.ok data, d') ∧ R e' d'

/-- What one keyed cipher makes of the chunks of a container, the other one undoes, and the
settings have room for it. -/
inductive KeyedCipher.Inverse {M : Modes} (s : Settings) :
    KeyedCipher M → KeyedCipher M → Prop where
  | block {size : Nat} {R : M.Block → M.Block → Prop} {e d : M.Block}
      (hR : BlockMode.Undoes size R) (h : R e d) (hpos : 1 ≤ size) (hs : size ≤ s.maxFieldLen) :
      Inverse s (.block e) (.block d)
  | stream {R : M.Stream → M.Stream → Prop} {e d : M.Stream}
      (hR : StreamMode.Undoes R) (h : R e d) : Inverse s (.stream e) (.stream d)
  | aead {size overhead : Nat} {R : M.Aead → M.Aead → Prop} {e d : M.Aead}
      (hR : AeadMode.Undoes size overhead R) (h : R e d)
      (hd : s.maxChunkLen + overhead ≤ s.maxFieldLen)
      (hn : size + s.associatedDataLen ≤ s.maxFieldLen) : Inverse s (.aead e) (.aead d)

/-- A scripted block cipher that does not fail is undone by itself in the other direction. -/
theorem ScriptedBlock.undoes (size : Nat) (key : UInt8) :
    BlockMode.Undoes size fun e d : ScriptedBlock => ∃ calls : Nat,
      e = ⟨size, key, 0, calls, .encrypt⟩ ∧ d = ⟨size, key, 0, calls, .decrypt⟩ where
  blockSize := by
    rintro _ _ ⟨calls, rfl, rfl⟩
    exact ⟨rfl, rfl⟩
  crypt := by
    rintro _ _ data ⟨calls, rfl, rfl⟩ -
    refine ⟨data.map (· + key), _, _, rfl, List.length_map .., ?_, ⟨calls + 1, rfl, rfl⟩⟩
    have hm : (data.map (· + key)).map (shift ⟨size, key, 0, calls + 1, .decrypt⟩) = data := by
      rw [List.map_map]
      refine (List.map_congr_left fun b _ => ?_).trans (List.map_id data)
      exact add_sub_cancel_right b key
    exact Prod.ext (congrArg Except.ok hm) rfl

namespace Encoder
variable {M : Modes}

/-! ## Chunks give their pieces back -/

/-- A relation between encoders and ciphers that every chunk of a suitable piece keeps: the encoder
makes the chunk, and the cipher makes the plaintext of the piece of it. -/
structure Undone (s : Settings) (plan : (limit : Nat) → (last : Bool) → Bytes → Plan)
    (Suits : Piece → Prop) (plain : Piece → Bytes) (J : Encoder M → KeyedCipher M → Prop) :
    Prop where
  plan {limit : Nat} {last : Bool} {pending : Bytes} {enc : Encoder M} {k : KeyedCipher M}
    (h : J enc k) : enc.plan limit last pending = plan limit last pending
  encrypt {enc : Encoder M} {k : KeyedCipher M} {p : Piece} (h : J enc k) (hp : Suits p) :
    ∃ c enc', enc.encrypt p = (.ok c, enc') ∧ s.Accepts c ∧
      (k.decryptChunk c).result = .ok (plain p) ∧ J enc' (k.decryptChunk c).cipher

section
variable {s : Settings} {plan : (limit : Nat) → (last : Bool) → Bytes → Plan}
  {Suits : Piece → Prop} {plain : Piece → Bytes} {J : Encoder M → KeyedCipher M → Prop}
  (hJ : Undone s plan Suits plain J)
include hJ

theorem Undone.keeps : Keeps plan Suits (fun _ _ => True) (fun enc => ∃ k, J enc k) where
  plan := fun ⟨_, h⟩ => hJ.plan h
  encrypt := by
    rintro enc enc' p c ⟨k, h⟩ hp he
    obtain ⟨c₁, enc₁, he₁, -, -, h₁⟩ := hJ.encrypt h hp
    rw [he₁] at he
    cases he
    exact ⟨trivial, _, h₁⟩

/-- **All chunks give their pieces back.** -/
theorem Undone.reads {ps : List Piece} {enc : Encoder M} {k : KeyedCipher M} (h : J enc k)
    (hp : ∀ p ∈ ps, Suits p) :
    ∃ t enc' k', t.map Prod.fst = ps ∧ enc.Makes t enc' ∧
      k.Reads (t.map Prod.snd) (ps.map plain) k' ∧
      ∀ x ∈ t, s.Accepts x.2 := by
  induction ps generalizing enc k with
  | nil => exact ⟨[], enc, k, rfl, .nil _, .nil _, by simp⟩
  | cons p ps ih =>
    obtain ⟨c, enc₁, he, hx, hr, h₁⟩ := hJ.encrypt h (hp p List.mem_cons_self)
    obtain ⟨t, enc', k', rfl, hm, hs, hxs⟩ := ih h₁ fun q hq => hp q (List.mem_cons_of_mem _ hq)
    exact ⟨(p, c) :: t, enc', k', rfl, .cons he hm, .cons hr hs, List.forall_mem_cons.2 ⟨hx, hxs⟩⟩

end

/-! ### Streams -/

/-- A piece of the length of a chunk. -/
def SuitsAll (s : Settings) (p : Piece) : Prop := p.data.length ≤ s.maxChunkLen

theorem undone_stream {s : Settings} (hs : s.validate = .ok ()) {R : M.Stream → M.Stream → Prop}
    (hR : StreamMode.Undoes R) :
    Undone s Plan.all (SuitsAll s) Piece.data
      (fun enc k => ∃ e d, enc = .stream e ∧ k = (.stream d : KeyedCipher M) ∧ R e d) where
  plan := by
    rintro limit last pending _ _ ⟨e, d, rfl, rfl, -⟩
    rfl
  encrypt := by
    rintro _ _ p ⟨e, d, rfl, rfl, h⟩ hp
    obtain ⟨data, e', d', he, hl, hd, h'⟩ := hR.crypt p.data h
    refine ⟨⟨p.last, [], data⟩, .stream e', by rw [encrypt, he], fun hx => ?_, ?_⟩
    · refine Chunk.excess?_eq_none_iff.2 ⟨Nat.zero_le _, ?_⟩
      exact s.data_le hs hx.2 ((hl.trans_le hp).trans (Nat.le_add_right _ _))
    · simp only [KeyedCipher.decryptChunk, hd]
      exact ⟨trivial, e', d', rfl, rfl, h'⟩

/-! ### Authenticated ciphers -/

theorem undone_aead {s : Settings} {size overhead : Nat} {R : M.Aead → M.Aead → Prop}
    (hR : AeadMode.Undoes size overhead R) (hd : s.maxChunkLen + overhead ≤ s.maxFieldLen)
    (hn : size + s.associatedDataLen ≤ s.maxFieldLen) :
    Undone s Plan.all (SuitsAll s) Piece.data
      (fun enc k => ∃ e d chain, enc = .aead e chain ∧ k = (.aead d : KeyedCipher M) ∧ R e d ∧
        NonceChain.Sized size s.associatedDataLen chain) where
  plan := by
    rintro limit last pending _ _ ⟨e, d, chain, rfl, rfl, -⟩
    rfl
  encrypt := by
    rintro _ _ p ⟨e, d, chain, rfl, rfl, h, hc⟩ hp
    have hc' := hc.advance
    obtain ⟨data, e', d', he, hl, hx, h'⟩ :=
      hR.crypt p.data chain.advance.associatedData h hc'.length_nonce
    refine ⟨⟨p.last, chain.advance.octets, data⟩, .aead e' chain.advance, ?_, fun _ => ?_, ?_⟩
    · simp only [encrypt, he]
    · refine Chunk.excess?_eq_none_iff.2 ⟨hc'.length.trans_le hn, ?_⟩
      exact (hl.trans_le (Nat.add_le_add_right hp _)).trans hd
    · have hlt : ¬ chain.advance.octets.length < size := by
        rw [hc'.length]
        omega
      simp only [KeyedCipher.decryptChunk, (hR.nonceSize h).2, hlt, if_false, hc'.take, hc'.drop,
        hx]
      exact ⟨trivial, e', d', _, rfl, rfl, h', hc'⟩

/-! ### Blocks -/

/-- A piece of whole blocks, and of one block that is filled up in the end. -/
structure SuitsBlocks (s : Settings) (size : Nat) (p : Piece) : Prop where
  aligned : size ∣ p.data.length
  length : p.data.length ≤ max s.maxChunkLen size
  padded : p.last = true → ∃ rest : Bytes, rest.length < size ∧
    p.data = rest ++ Padding.fill (size - rest.length)

/-- The plaintext of a piece of blocks. -/
def plainBlocks (p : Piece) : Bytes :=
  if p.last then p.data.take (Padding.strip p.data).kept else p.data

theorem plainBlocks_padded {size : Nat} {rest : Bytes} (h : rest.length < size) :
    plainBlocks ⟨rest ++ Padding.fill (size - rest.length), true⟩ = rest := by
  simp only [plainBlocks, if_true]
  rw [Padding.strip_append_fill rest (by omega), List.take_left]

theorem undone_block {s : Settings} (hs : s.validate = .ok ()) {size : Nat}
    {R : M.Block → M.Block → Prop} (hR : BlockMode.Undoes size R) (hpos : 1 ≤ size)
    (hf : size ≤ s.maxFieldLen) :
    Undone s (Plan.blocks size) (SuitsBlocks s size) plainBlocks
      (fun enc k => ∃ e d, enc = .block e ∧ k = (.block d : KeyedCipher M) ∧ R e d) where
  plan := by
    rintro limit last pending _ _ ⟨e, d, rfl, rfl, h⟩
    rw [plan, (hR.blockSize h).1]
  encrypt := by
    rintro _ _ p ⟨e, d, rfl, rfl, h⟩ hp
    obtain ⟨data, e', d', he, hl, hd, h'⟩ := hR.crypt h hp.aligned
    refine ⟨⟨p.last, [], data⟩, .block e', by rw [encrypt, he], fun hx => ?_, ?_⟩
    · refine Chunk.excess?_eq_none_iff.2 ⟨Nat.zero_le _, ?_⟩
      show data.length ≤ s.maxFieldLen
      rcases le_max_iff.1 (hl.trans_le hp.length) with hle | hle
      · exact s.data_le hs hx.2 (hle.trans (Nat.le_add_right _ _))
      · exact hle.trans hf
    · have hal : ¬ (size = 0 ∨ data.length % size ≠ 0) := by
        rw [hl, Nat.mod_eq_zero_of_dvd hp.aligned]
        omega
      simp only [KeyedCipher.decryptChunk, KeyedCipher.decryptBlocks, (hR.blockSize h).2, hal,
        if_false, hd]
      rcases hlast : p.last with _ | _
      · simp only [Bool.false_eq_true, false_and, if_false, plainBlocks, hlast]
        exact ⟨trivial, e', d', rfl, rfl, h'⟩
      · obtain ⟨rest, hr, hdata⟩ := hp.padded hlast
        have hlen : p.data.length = size := hdata ▸ Padding.length_append_fill hr.le
        have hpl : plainBlocks p = p.data.take (Padding.strip p.data).kept := by
          rw [plainBlocks, if_pos hlast]
        have hlt : 0 < size := hpos
        simp only [true_and, hlt, if_true, hlen, Nat.sub_self, List.drop_zero, Nat.zero_add, hpl]
        exact ⟨e', d', rfl, rfl, h'⟩

end Encoder

/-! ## Whole containers -/

/-- Chunks that are decrypted, of which the last one is the final one. -/
theorem KeyedCipher.Reads.ofChunks_row {M : Modes} {limit : Nat} {k k' : KeyedCipher M} {c : Chunk}
    {cs : List Chunk} {bss : List Bytes} (h : Reads k (cs ++ [c]) bss k')
    (hcs : ∀ x ∈ cs, x.last = false) (hc : c.last = true)
    (hx : ∀ x ∈ cs ++ [c], x.excess? limit = none) :
    Contents.ofChunks limit (cs ++ [c]) k = ⟨bss.flatten, .finished⟩ := by
  induction cs generalizing k bss with
  | nil =>
    rcases h with - | ⟨hr, hs⟩
    cases hs
    simp only [List.nil_append, Contents.ofChunks, hx c (by simp), hr, hc, if_true]
    simp
  | cons d ds ih =>
    rcases h with - | ⟨hr, hs⟩
    have hi := ih hs (fun x hm => hcs x (List.mem_cons_of_mem _ hm))
      fun x hm => hx x (List.mem_cons_of_mem _ hm)
    simp only [List.cons_append, Contents.ofChunks, hx d (by simp), hr, hcs d (by simp), hi,
      Bool.false_eq_true, if_false, Contents.prepend, List.flatten_cons]

namespace KeyedCipher.Inverse
variable {M : Modes} {s : Settings} {enc dec : KeyedCipher M}

/-- What inverse ciphers make of a plaintext that comes in parts: chunks that are read back. -/
theorem reads (h : enc.Inverse s dec) (hs : s.validate = .ok ()) (e : Entropy) (ds : List Bytes) :
    ∃ plan Suits plain J, Encoder.Undone s plan Suits plain J ∧ J (.start s e enc) dec ∧
      ∃ cs c, Plan.session (plan s.maxChunkLen) [] ds = Piece.row cs c ∧
        (∀ p ∈ Piece.row cs c, Suits p) ∧
        ((Piece.row cs c).map plain).flatten = ds.flatten := by
  have hpos := s.maxChunkLen_pos hs
  cases h with
  | @block size R e d hR hr hsize hf =>
    obtain ⟨cs, rest, hp, hd, hlt, -⟩ := @Plan.session_blocks size s.maxChunkLen hsize [] ds
    refine ⟨_, _, _, _, Encoder.undone_block hs hR hsize hf, ⟨e, d, rfl, rfl, hr⟩, cs, _, hp,
      fun p hm => ?_, ?_⟩
    · obtain ⟨hal, hle⟩ := Plan.length_le_of_mem_session_blocks hsize (hp ▸ hm)
      refine ⟨hal, hle, fun hl => ?_⟩
      rcases Piece.mem_row.1 hm with ⟨data, -, rfl⟩ | rfl
      · cases hl
      · exact ⟨rest, hlt, rfl⟩
    · rw [List.nil_append] at hd
      rw [← hd, Piece.row, List.map_append, List.flatten_append, List.map_map]
      congr 1
      · congr 1
        exact List.map_id _
      · simp [Encoder.plainBlocks_padded hlt]
  | @stream R e d hR hr =>
    obtain ⟨cs, c, hp, hd, -⟩ := Plan.session_all hpos ds
    refine ⟨_, _, _, _, Encoder.undone_stream hs hR, ⟨e, d, rfl, rfl, hr⟩, cs, c, hp, ?_, ?_⟩
    · exact fun p hm => Plan.length_le_of_mem_session_all hpos (hp ▸ hm)
    · rw [Piece.map_data_row, List.flatten_append, List.flatten_singleton, hd]
  | @aead size overhead R e d hR hr hd hn =>
    obtain ⟨cs, c, hp, hdata, -⟩ := Plan.session_all hpos ds
    have hsized := NonceChain.sized_start size s.associatedDataLen ‹Entropy›
    refine ⟨_, _, _, _, Encoder.undone_aead hR hd hn, ⟨e, d, _, rfl, rfl, hr, ?_⟩, cs, c, hp, ?_,
      ?_⟩
    · rw [(hR.nonceSize hr).1]
      exact hsized
    · exact fun p hm => Plan.length_le_of_mem_session_all hpos (hp ▸ hm)
    · rw [Piece.map_data_row, List.flatten_append, List.flatten_singleton, hdata]

end KeyedCipher.Inverse

/-- The chunks of a row of pieces, of which the final one is the last, are read back. -/
theorem Contents.ofChunks_transcript {M : Modes} {limit : Nat} {k k' : KeyedCipher M}
    {enc enc' : Encoder M} {t : List (Piece × Chunk)} {cs : List Bytes} {c : Bytes}
    {bss : List Bytes} (hm : enc.Makes t enc') (ht : t.map Prod.fst = Piece.row cs c)
    (h : k.Reads (t.map Prod.snd) bss k') (hx : ∀ x ∈ t, x.2.excess? limit = none) :
    ofChunks limit (t.map Prod.snd) k = ⟨bss.flatten, .finished⟩ := by
  obtain ⟨u, x, rfl, hu, hxl⟩ := hm.of_row ht
  rw [List.map_append, List.map_singleton] at h ⊢
  refine h.ofChunks_row (List.forall_mem_map.2 hu) hxl ?_
  rw [← List.map_singleton, ← List.map_append]
  exact List.forall_mem_map.2 hx

/-- The scripted ciphers. -/
abbrev Modes.scripted : Modes := ⟨ScriptedBlock, ScriptedStream, ScriptedAead⟩

/-- Settings under which the chunks are short. -/
def Settings.short : Settings :=
  ((default : Settings).set .maxFieldLen 64).set .maxChunkLen 9

/-- **What is sealed is opened again.** Take settings that are accepted, a preamble within their
limits, inverse ciphers and a sink that does not fail. Then every plaintext is sealed, however it
comes, and a reader under the same settings whose decrypter answers with the inverse cipher gives
back the preamble and the plaintext, however it is asked. -/
theorem Sealer.reads_complete {M : Modes} {σ : Type} [Sink σ] {s : Settings} {p : Preamble}
    {enc dec : KeyedCipher M} {sink : σ} (hs : s.validate = .ok ()) (he : p.Encodable)
    (hx : p.excess? s.maxFieldLen = none) (hi : enc.Inverse s dec) (hk : Sink.Reliable sink)
    (e : Entropy) (calls : List Call) (hc : ∀ x ∈ transcript s e enc calls, x.2.Encodable) :
    ∃ w w', start s p enc e (s.buffered sink) = .ok w ∧ w.complete calls = (.ok (), w') ∧
      ∀ {ι : Type} [Input ι] (i : ι) (decrypter : Decrypter M) (session : DecryptionSession M),
        Input.Supplies i (Lossless.arrived w'.output) → decrypter p = .ok session →
        session.cipher = dec →
        ∃ o, Opener.start s decrypter i = .ok o ∧ o.preamble = p ∧ ∀ ns : List Nat,
          (∃ given : List Bytes, (o.reads ns).1 = given.map .ok ∧
            given.flatten = (calls.flatMap Call.data).take ns.sum) ∧
          ((calls.flatMap Call.data).length < ns.sum → (o.reads ns).2.phase = .ended) := by
  obtain ⟨plan, Suits, plain, J, hJ, hj, cs, c, hp, hsuits, hplain⟩ :=
    hi.reads hs e (calls.map Call.data)
  obtain ⟨t, enc', k', ht, hm, hr, hw⟩ := hJ.reads hj hsuits
  have htr : transcript s e enc calls = t := by
    rw [transcript, pieces_start hJ.keeps ⟨_, hj⟩, hp, ← ht, hm.transcript_eq]
  rw [htr] at hc
  have hst : ∀ x ∈ t, Suits x.1 := fun x hm => hsuits _ (ht ▸ List.mem_map_of_mem hm)
  obtain ⟨w, h, hb, hrel⟩ := start_reliable hs he (@BufferedSink.reliable σ _ (s.buffered sink) hk)
  obtain ⟨w', h'⟩ := container_reliable hJ.keeps ⟨_, hj⟩ hb hrel hm (ht.trans hp.symm) hst hc
  refine ⟨w, w', h, h', fun {ι} _ i decrypter session hin hd hcipher => ?_⟩
  obtain ⟨-, -, -, htk⟩ := start_ok h
  obtain ⟨-, -, -, ha⟩ := container_ok hJ.keeps ⟨_, hj⟩ hb htk (hp ▸ hsuits) h'
  have ha : Lossless.arrived w'.output = Container.octets ⟨p, t.map Prod.snd⟩ := htr ▸ ha
  have hcs : ∀ c ∈ t.map Prod.snd, c.Encodable := by
    intro c hm
    obtain ⟨x, hx, rfl⟩ := List.mem_map.1 hm
    exact hc x hx
  obtain ⟨o, ho, hpre, hcont⟩ := Opener.start_contents hs he hx hcs (ha ▸ hin) hd
  have hcont : o.contents = ⟨calls.flatMap Call.data, .finished⟩ := by
    rw [hcont, hcipher, Contents.ofChunks_transcript hm ht hr fun x hx => hw x hx (hc x hx), hplain]
    rfl
  refine ⟨o, ho, hpre, fun ns => ⟨?_, fun hn => ?_⟩⟩
  · rw [Opener.reads_eq, hcont]
    exact Contents.answers_of_finished rfl ns
  · rw [Opener.phase_reads ns o (hcont ▸ hn), hcont]
    rfl

/-- A plaintext of six octets that comes in parts, sealed in blocks of four octets. -/
theorem Sealer.reads_complete_scripted :
    ∃ w w', @start .scripted _ _ .short ⟨[1, 2, 3], "curve25519", "scripted"⟩
        (.block ⟨4, 7, 0, 0, .encrypt⟩) (.scripted #[])
        (Settings.short.buffered ({} : ScriptedSink)) = .ok w ∧
      w.complete [.write [1, 2, 3, 4, 5], .flush, .write [], .write [6]] = (.ok (), w') ∧
      ∃ o, @Opener.start .scripted _ _ .short
          (.direct (.block ⟨4, 7, 0, 0, .decrypt⟩)) (Lossless.arrived w'.output) = .ok o ∧
        (∃ given : List Bytes, (o.reads [2, 0, 9]).1 = given.map .ok ∧
          given.flatten = [1, 2, 3, 4, 5, 6]) ∧
        (o.reads [2, 0, 9]).2.phase = .ended := by
  obtain ⟨w, w', h, h', hr⟩ := @reads_complete .scripted ScriptedSink _ .short
    ⟨[1, 2, 3], "curve25519", "scripted"⟩
    (.block ⟨4, 7, 0, 0, .encrypt⟩) (.block ⟨4, 7, 0, 0, .decrypt⟩) {} rfl (by decide) (by decide)
    (.block (ScriptedBlock.undoes 4 7) ⟨0, rfl, rfl⟩ (by decide) (by decide))
    ScriptedSink.reliable (.scripted #[])
    [.write [1, 2, 3, 4, 5], .flush, .write [], .write [6]] (by decide +kernel)
  obtain ⟨o, ho, -, ha⟩ := hr (Lossless.arrived w'.output)
    (.direct (.block ⟨4, 7, 0, 0, .decrypt⟩)) _ (Input.supplies_self _) rfl rfl
  exact ⟨w, w', h, h', o, ho, (ha [2, 0, 9]).1, (ha [2, 0, 9]).2 (by decide)⟩

end SealedStream
