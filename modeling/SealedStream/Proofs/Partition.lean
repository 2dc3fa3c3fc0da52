import Mathlib
import SealedStream.Proofs.Chunking
/-!
# Where plaintext is parted makes no difference

* `CipherCall.answers` are the answers to consecutive calls of a cipher, put together.
* `CipherCall.Seamless`: two consecutive calls answer like one call for all octets;
  `Seamless.answers_iff` says so of any number of calls.
* `KeyedCipher.Seals k plaintext out`: a keyed cipher makes `out` of a plaintext at once, padded if
  it takes blocks.
* `Sealer.Job` is all that a container is made of besides its cipher. `Job.gives_iff` says what the
  data of its chunks makes up, and `Sealer.gives_alike` that it is the same for any two jobs with
  one plaintext.
-/
namespace SealedStream

/-! ## Consecutive calls -/

/-- What a cipher does in a call: its answer, and the next state. -/
abbrev CipherCall (σ : Type) := Bytes → σ → Except CipherError Bytes × σ

namespace CipherCall
variable {σ : Type} {f : CipherCall σ}

/-- The answers to consecutive calls, put together, up to the first refusal. -/
def answers (f : CipherCall σ) : List Bytes → σ → Except CipherError Bytes
  | [], _ => .ok []
  | d :: ds, c =>
    match f d c with
    | (.error e, _) => .error e
    | (.ok out, c) => (answers f ds c).map (out ++ ·)

theorem answers_cons_iff {d out : Bytes} {ds : List Bytes} {c : σ} :
    f.answers (d :: ds) c = .ok out ↔
      ∃ x c' y, f d c = (.ok x, c') ∧ f.answers ds c' = .ok y ∧ x ++ y = out := by
  rw [answers]
  constructor
  · intro h
    rcases hf : f d c with ⟨e | x, c'⟩ <;> simp only [hf] at h
    · cases h
    · rcases ha : f.answers ds c' with e | y <;> rw [ha] at h <;> cases h
      exact ⟨x, c', y, rfl, ha, rfl⟩
  · rintro ⟨x, c', y, hf, ha, rfl⟩
    simp only [hf, ha]
    rfl

theorem answers_singleton_iff {d out : Bytes} {c : σ} :
    f.answers [d] c = .ok out ↔ (f d c).1 = .ok out := by
  rw [answers_cons_iff]
  constructor
  · rintro ⟨x, c', y, hf, ha, rfl⟩
    cases ha
    rw [hf, List.append_nil]
  · intro h
    exact ⟨out, (f d c).2, [], Prod.ext h rfl, rfl, List.append_nil out⟩

/-- A property of ciphers that every call for whole units of `size` octets keeps: what it answers
is as long as what it was asked for, and two consecutive calls answer like one call for all
octets. -/
structure Seamless (f : CipherCall σ) (size : Nat) (I : σ → Prop) : Prop where
  call {c c' : σ} {data out : Bytes} (h : I c) (hd : size ∣ data.length)
    (hr : f data c = (.ok out, c')) : out.length = data.length ∧ I c'
  append_iff {c : σ} {d e out : Bytes} (h : I c) (hd : size ∣ d.length) (he : size ∣ e.length) :
    (f (d ++ e) c).1 = .ok out ↔ f.answers [d, e] c = .ok out

/-- **Any number of consecutive calls** answers like one call for all octets. -/
theorem Seamless.answers_iff {size : Nat} {I : σ → Prop} (hf : f.Seamless size I) {ds : List Bytes}
    {c : σ} (h : I c) (hne : ds ≠ []) (hd : ∀ d ∈ ds, size ∣ d.length) {out : Bytes} :
    f.answers ds c = .ok out ↔ (f ds.flatten c).1 = .ok out := by
  induction ds generalizing c out with
  | nil => exact absurd rfl hne
  | cons d ds ih =>
    obtain ⟨hd, hds⟩ := List.forall_mem_cons.1 hd
    by_cases hnil : ds = []
    · subst hnil
      rw [answers_singleton_iff, List.flatten_singleton]
    · have hfl : size ∣ ds.flatten.length := by
        rw [List.length_flatten]
        refine List.dvd_sum fun n hn => ?_
        obtain ⟨x, hx, rfl⟩ := List.mem_map.1 hn
        exact hds x hx
      rw [List.flatten_cons, hf.append_iff h hd hfl, answers_cons_iff, answers_cons_iff]
      -- behind the first call the calls that remain answer like one
      constructor
      · rintro ⟨x, c', y, hx, hy, rfl⟩
        have h' := (hf.call h hd hx).2
        exact ⟨x, c', y, hx, answers_singleton_iff.2 ((ih h' hnil hds).1 hy), rfl⟩
      · rintro ⟨x, c', y, hx, hy, rfl⟩
        have h' := (hf.call h hd hx).2
        exact ⟨x, c', y, hx, (ih h' hnil hds).2 (answers_singleton_iff.1 hy), rfl⟩

end CipherCall

/-! ## Chunks of consecutive calls -/

namespace Encoder
variable {M : Modes} {σ : Type}

/-- Encoders that make the data of a chunk by a call for the data of its piece, and nothing else. -/
def Calls (f : CipherCall σ) (mk : σ → Encoder M) : Prop :=
  ∀ p s c enc, (mk s).encrypt p = (.ok c, enc) ↔
    ∃ data s', f p.data s = (.ok data, s') ∧ c = ⟨p.last, [], data⟩ ∧ enc = mk s'

theorem calls_block : Calls BlockMode.crypt (block : M.Block → Encoder M) := by
  intro p b c enc
  constructor
  · exact encrypt_block
  · rintro ⟨data, b', h, rfl, rfl⟩
    rw [encrypt, h]

theorem calls_stream : Calls StreamMode.crypt (stream : M.Stream → Encoder M) := by
  intro p s c enc
  constructor
  · exact encrypt_stream
  · rintro ⟨data, s', h, rfl, rfl⟩
    exact encrypt_stream_of h

/-- The data of the chunks of pieces are the answers to consecutive calls. -/
theorem Calls.makes_iff {f : CipherCall σ} {mk : σ → Encoder M} (hm : Calls f mk)
    {ps : List Piece} {s : σ} {out : Bytes} :
    (∃ t enc, t.map Prod.fst = ps ∧ (mk s).Makes t enc ∧ (t.flatMap fun x => x.2.data) = out) ↔
      f.answers (ps.map Piece.data) s = .ok out := by
  induction ps generalizing s out with
  | nil =>
    constructor
    · rintro ⟨t, enc, ht, -, rfl⟩
      obtain rfl := List.map_eq_nil_iff.1 ht
      rfl
    · intro h
      cases h
      exact ⟨[], mk s, rfl, .nil _, rfl⟩
  | cons p ps ih =>
    rw [List.map_cons, CipherCall.answers_cons_iff]
    constructor
    · rintro ⟨t, enc, ht, hmk, rfl⟩
      obtain ⟨⟨q, c⟩, t, rfl, rfl, hts⟩ := List.map_eq_cons_iff.1 ht
      rcases hmk with - | ⟨he, hmk⟩
      obtain ⟨data, s', hf, rfl, rfl⟩ := (hm _ _ _ _).1 he
      exact ⟨data, s', _, hf, ih.1 ⟨t, enc, hts, hmk, rfl⟩, rfl⟩
    · rintro ⟨x, s', y, hf, hy, rfl⟩
      obtain ⟨t, enc, rfl, hmk, rfl⟩ := ih.2 hy
      exact ⟨(p, ⟨p.last, [], x⟩) :: t, enc, rfl, .cons ((hm _ _ _ _).2 ⟨x, s', hf, rfl, rfl⟩) hmk,
        rfl⟩

end Encoder

/-! ## Plaintext at once -/

/-- A plaintext with what fills its last block up; there is always at least one octet of that. -/
def Padding.toBlocks (size : Nat) (plaintext : Bytes) : Bytes :=
  plaintext ++ fill (size - plaintext.length % size)

namespace Plan
variable {limit : Nat}

/-- The pieces of a plaintext that comes in parts are the plaintext and its padding, where whole
blocks are taken. -/
theorem data_session_blocks {size : Nat} (hs : 0 < size) (ds : List Bytes) :
    (session (blocks size limit) [] ds).map Piece.data ≠ [] ∧
      ((session (blocks size limit) [] ds).map Piece.data).flatten =
        Padding.toBlocks size ds.flatten := by
  obtain ⟨cs, rest, h, hf, hr, hx⟩ := @session_blocks size limit hs [] ds
  rw [List.nil_append] at hf
  rw [h, Piece.map_data_row]
  refine ⟨by simp, ?_⟩
  -- the whole blocks leave what the length leaves
  have hmod : rest.length = ds.flatten.length % size := by
    have hdvd : size ∣ cs.flatten.length := Bytes.dvd_length_flatten fun x hm => (hx x hm).1
    rw [← hf, List.length_append, Nat.add_mod, Nat.mod_eq_zero_of_dvd hdvd, Nat.zero_add,
      Nat.mod_mod, Nat.mod_eq_of_lt hr]
  rw [List.flatten_append, List.flatten_singleton, ← List.append_assoc, hf, hmod, Padding.toBlocks]

/-- The pieces of a plaintext that comes in parts are the plaintext, where all octets are taken. -/
theorem data_session_all (hl : 0 < limit) (ds : List Bytes) :
    (session (all limit) [] ds).map Piece.data ≠ [] ∧
      ((session (all limit) [] ds).map Piece.data).flatten = ds.flatten := by
  obtain ⟨cs, c, h, hf, -⟩ := session_all hl ds
  rw [h, Piece.map_data_row]
  refine ⟨by simp, ?_⟩
  rw [List.flatten_append, List.flatten_singleton, hf]

end Plan

namespace KeyedCipher
variable {M : Modes}

/-- A cipher makes `out` of a plaintext in one call, padded if it takes blocks. -/
def Seals (plaintext out : Bytes) : KeyedCipher M → Prop
  | .block c =>
    (BlockMode.crypt (Padding.toBlocks (BlockMode.blockSize c) plaintext) c).1 = .ok out
  | .stream c => (StreamMode.crypt plaintext c).1 = .ok out
  | .aead _ => False

/-- The number of octets that a cipher takes at a time, at least. -/
def unit : KeyedCipher M → Nat
  | .block c => BlockMode.blockSize c
  | .stream _ | .aead _ => 1

/-- Ciphers for blocks, of at least one octet, and stream ciphers that answer consecutive calls like
one call. -/
inductive Seamless : KeyedCipher M → Prop where
  | block {size : Nat} {I : M.Block → Prop} {c : M.Block}
      (hI : CipherCall.Seamless BlockMode.crypt size I)
      (hb : ∀ {c}, I c → BlockMode.blockSize c = size) (h : I c) (hpos : 1 ≤ size) :
      Seamless (.block c)
  | stream {I : M.Stream → Prop} {c : M.Stream}
      (hI : CipherCall.Seamless StreamMode.crypt 1 I) (h : I c) : Seamless (.stream c)

theorem Seals.unique {k : KeyedCipher M} {plaintext out₁ out₂ : Bytes}
    (h₁ : k.Seals plaintext out₁) (h₂ : k.Seals plaintext out₂) : out₁ = out₂ := by
  cases k with
  | block c => exact Except.ok.inj (h₁.symm.trans h₂)
  | stream c => exact Except.ok.inj (h₁.symm.trans h₂)
  | aead c => exact h₁.elim

/-- **The chunks of a plaintext that comes in parts**: they can be made exactly if the cipher takes
the plaintext at once, and their data makes up what it answers. -/
theorem Seamless.makes {k : KeyedCipher M} (hk : k.Seamless) {s : Settings}
    (hs : s.validate = .ok ()) (e : Entropy) (ds : List Bytes) :
    ∃ plan Suits I, Encoder.Keeps plan Suits Encoder.GoesInPlace I ∧ I (.start s e k) ∧
      (∀ p ∈ Plan.session (plan s.maxChunkLen) [] ds,
        Suits p ∧ p.data.length ≤ max s.maxChunkLen k.unit) ∧
      ∀ out, (∃ t enc, t.map Prod.fst = Plan.session (plan s.maxChunkLen) [] ds ∧
        (Encoder.start s e k).Makes t enc ∧ (t.flatMap fun x => x.2.data) = out) ↔
          k.Seals ds.flatten out := by
  cases hk with
  | @block size I c hI hb h hpos =>
    have hin : BlockMode.InPlace size I := ⟨hb, hI.call⟩
    have hlen {p : Piece} (hp : p ∈ Plan.session (Plan.blocks size s.maxChunkLen) [] ds) :=
      Plan.length_le_of_mem_session_blocks hpos hp
    obtain ⟨hne, hf⟩ := @Plan.data_session_blocks s.maxChunkLen size hpos ds
    refine ⟨_, _, _, hin.keeps, ⟨c, rfl, h⟩, fun p hp => ?_, fun out => ?_⟩
    · rw [unit, hb h]
      exact hlen hp
    · refine Encoder.calls_block.makes_iff.trans ?_
      rw [hI.answers_iff h hne, hf, Seals, hb h]
      intro d hd
      obtain ⟨p, hp, rfl⟩ := List.mem_map.1 hd
      exact (hlen hp).1
  | @stream I c hI h =>
    have hin : StreamMode.InPlace I := ⟨fun h hr => hI.call h (one_dvd _) hr⟩
    have hpos := s.maxChunkLen_pos hs
    obtain ⟨hne, hf⟩ := Plan.data_session_all hpos ds
    refine ⟨_, _, _, hin.keeps, ⟨c, rfl, h⟩, fun p hp => ⟨trivial, ?_⟩, fun out => ?_⟩
    · exact (Plan.length_le_of_mem_session_all hpos hp).trans (le_max_left _ _)
    · refine Encoder.calls_stream.makes_iff.trans ?_
      rw [hI.answers_iff h hne fun _ _ => one_dvd _, hf, Seals]

end KeyedCipher

/-! ## Whole containers -/

namespace Sealer
variable {M : Modes} {σ : Type} [Sink σ]

/-- All that a container is made of besides its cipher. -/
structure Job (σ : Type) where
  settings : Settings
  preamble : Preamble
  entropy : Entropy
  sink : σ
  calls : List Call

namespace Job

/-- The plaintext, in whatever parts it comes. -/
def plaintext (j : Job σ) : Bytes := j.calls.flatMap Call.data

/-- A job whose settings are accepted, whose preamble can be written and whose sink does not fail. -/
structure Admissible (j : Job σ) : Prop where
  settings : j.settings.validate = .ok ()
  preamble : j.preamble.Encodable
  sink : Sink.Reliable j.sink

/-- The chunks of a job can be written. -/
def Expressible (k : KeyedCipher M) (j : Job σ) : Prop :=
  ∀ x ∈ transcript j.settings j.entropy k j.calls, x.2.Encodable

/-- A job is completed; what arrives is a container with its preamble, and the data of the chunks
makes up `out`. -/
def Gives (k : KeyedCipher M) (out : Bytes) (j : Job σ) : Prop :=
  ∃ w w' chunks, start j.settings j.preamble k j.entropy (j.settings.buffered j.sink) = .ok w ∧
    w.complete j.calls = (.ok (), w') ∧
    Container.read maxLength (Lossless.arrived w'.output) = (.ok ⟨j.preamble, chunks⟩, []) ∧
    chunks.flatMap Chunk.data = out

variable {k : KeyedCipher M} {j : Job σ} {out : Bytes}

/-- **What a job gives** is what the cipher makes of the plaintext at once. -/
theorem gives_iff (hk : k.Seamless) (hj : j.Admissible) :
    j.Gives k out ↔ k.Seals j.plaintext out ∧ j.Expressible k := by
  obtain ⟨plan, Suits, I, hI, hi, hp, hmakes⟩ :=
    hk.makes hj.settings j.entropy (j.calls.map Call.data)
  constructor
  · rintro ⟨w, w', chunks, hw, hc, hr, rfl⟩
    obtain ⟨-, hpre, hb, ht⟩ := start_ok hw
    obtain ⟨hps, hm, hx, ha⟩ := container_ok hI hi hb ht (fun q hq => (hp q hq).1) hc
    have hx : ∀ x ∈ transcript j.settings j.entropy k j.calls, x.2.Encodable :=
      fun x h => (hx x h).1
    have hread := @Container.read_octets
      ⟨j.preamble, (transcript j.settings j.entropy k j.calls).map Prod.snd⟩ hpre
      (List.forall_mem_map.2 hx)
    have ha : Lossless.arrived w'.output = Container.octets
        ⟨j.preamble, (transcript j.settings j.entropy k j.calls).map Prod.snd⟩ := ha
    rw [ha, hread] at hr
    cases hr
    refine ⟨(hmakes _).1 ⟨_, _, hps, hm, ?_⟩, hx⟩
    rw [List.flatMap_map]
  · rintro ⟨hs, hx⟩
    obtain ⟨t, enc, hps, hm, rfl⟩ := (hmakes out).2 hs
    have htr : transcript j.settings j.entropy k j.calls = t := by
      rw [transcript, pieces_start hI hi, ← hps, hm.transcript_eq]
    rw [Expressible, htr] at hx
    obtain ⟨w, hw, hb, hrel⟩ := start_reliable hj.settings hj.preamble
      (@BufferedSink.reliable σ _ (j.settings.buffered j.sink) hj.sink)
    obtain ⟨w', hc⟩ := container_reliable hI hi hb hrel hm hps
      (fun x h => (hp _ (hps ▸ List.mem_map_of_mem h)).1) hx
    obtain ⟨-, -, -, ht⟩ := start_ok hw
    obtain ⟨-, -, -, ha⟩ := container_ok hI hi hb ht (fun q hq => (hp q hq).1) hc
    have ha : Lossless.arrived w'.output = Container.octets ⟨j.preamble, t.map Prod.snd⟩ := htr ▸ ha
    refine ⟨w, w', t.map Prod.snd, hw, hc, ?_, List.flatMap_map ..⟩
    rw [ha]
    exact Container.read_octets hj.preamble (List.forall_mem_map.2 hx)

/-- The chunks can be written where settings and cipher leave room for no longer ones. -/
theorem expressible (hk : k.Seamless) (hj : j.Admissible) (hs : k.Seals j.plaintext out)
    (hl : max j.settings.maxChunkLen k.unit ≤ maxLength) : j.Expressible k := by
  obtain ⟨plan, Suits, I, hI, hi, hp, hmakes⟩ :=
    hk.makes hj.settings j.entropy (j.calls.map Call.data)
  obtain ⟨t, enc, hps, hm, -⟩ := (hmakes out).2 hs
  have hmem {x : Piece × Chunk} (h : x ∈ t) := hp _ (hps ▸ List.mem_map_of_mem h)
  have hgo := (hm.keeps hI hi fun x h => (hmem h).1).1
  rw [Expressible, transcript, pieces_start hI hi, ← hps, hm.transcript_eq]
  intro x h
  obtain ⟨hn, hd⟩ := hgo x h
  refine ⟨?_, ?_⟩
  · rw [hn]
    exact Nat.zero_le _
  · rw [hd]
    exact (hmem h).2.trans hl

end Job

/-- **Where the plaintext is parted makes no difference.** Take a cipher for blocks or a stream
cipher that answers consecutive calls like one, and two jobs with the same plaintext, each with its
own settings, preamble, randomness, sink and calls. If both are completed, the data of their chunks
makes up the same string, and this is what the cipher makes of the plaintext at once, padded if it
takes blocks. If the cipher makes something of it, then every such job is completed whose chunks
are not longer than can be written. -/
theorem gives_alike {M : Modes} {k : KeyedCipher M} (hk : k.Seamless) {σ₁ σ₂ : Type} [Sink σ₁]
    [Sink σ₂] {j₁ : Job σ₁} {j₂ : Job σ₂} (h₁ : j₁.Admissible) (h₂ : j₂.Admissible)
    (hd : j₁.plaintext = j₂.plaintext) :
    (∀ out₁ out₂, j₁.Gives k out₁ → j₂.Gives k out₂ →
      out₁ = out₂ ∧ k.Seals j₁.plaintext out₁) ∧
    ∀ out, k.Seals j₁.plaintext out →
      (j₁.Gives k out ↔ j₁.Expressible k) ∧ (j₂.Gives k out ↔ j₂.Expressible k) ∧
      (max j₁.settings.maxChunkLen k.unit ≤ maxLength → j₁.Gives k out) ∧
      (max j₂.settings.maxChunkLen k.unit ≤ maxLength → j₂.Gives k out) := by
  constructor
  · intro out₁ out₂ hg₁ hg₂
    have hs₁ := ((Job.gives_iff hk h₁).1 hg₁).1
    have hs₂ := ((Job.gives_iff hk h₂).1 hg₂).1
    rw [← hd] at hs₂
    exact ⟨hs₁.unique hs₂, hs₁⟩
  · intro out hs₁
    have hs₂ := hs₁
    rw [hd] at hs₂
    refine ⟨⟨fun h => ((Job.gives_iff hk h₁).1 h).2, fun h => (Job.gives_iff hk h₁).2 ⟨hs₁, h⟩⟩,
      ⟨fun h => ((Job.gives_iff hk h₂).1 h).2, fun h => (Job.gives_iff hk h₂).2 ⟨hs₂, h⟩⟩,
      fun hl => ?_, fun hl => ?_⟩
    · exact (Job.gives_iff hk h₁).2 ⟨hs₁, Job.expressible hk h₁ hs₁ hl⟩
    · exact (Job.gives_iff hk h₂).2 ⟨hs₂, Job.expressible hk h₂ hs₂ hl⟩

end Sealer

namespace ScriptedBlock

theorem crypt_of_failOn {c : ScriptedBlock} (h : c.failOn = 0) (data : Bytes) :
    BlockMode.crypt data c = (.ok (data.map c.shift), { c with calls := c.calls + 1 }) := by
  simp only [BlockMode.crypt, BlockMode.transform, h, Nat.succ_ne_zero, if_false]
  rfl

/-- A scripted block cipher that does not fail answers consecutive calls like one. -/
theorem seamless (size : Nat) :
    CipherCall.Seamless BlockMode.crypt size fun c : ScriptedBlock =>
      c.size = size ∧ c.failOn = 0 where
  call {c c' data out} h _ hr := by
    rw [crypt_of_failOn h.2] at hr
    cases hr
    exact ⟨List.length_map .., h⟩
  append_iff {c d e out} h _ _ := by
    have h' : ({ c with calls := c.calls + 1 } : ScriptedBlock).failOn = 0 := h.2
    rw [CipherCall.answers_cons_iff, crypt_of_failOn h.2, List.map_append, Except.ok.injEq]
    constructor
    · rintro rfl
      refine ⟨_, _, _, crypt_of_failOn h.2 d, CipherCall.answers_singleton_iff.2 ?_, rfl⟩
      rw [crypt_of_failOn h']
      rfl
    · rintro ⟨x, c', y, hx, hy, rfl⟩
      rw [crypt_of_failOn h.2] at hx
      cases hx
      rw [CipherCall.answers_singleton_iff, crypt_of_failOn h'] at hy
      cases hy
      rfl

end ScriptedBlock

/-- Six octets in blocks of four, that come in different parts and go into chunks of different
lengths. -/
theorem Sealer.gives_alike_scripted :
    let k : KeyedCipher .scripted := .block ⟨4, 7, 0, 0, .encrypt⟩
    let j₁ : Job ScriptedSink := ⟨.short, ⟨[1], "x", "y"⟩, .scripted #[], {},
      [.write [1, 2, 3, 4, 5], .flush, .write [6]]⟩
    let j₂ : Job ScriptedSink := ⟨{ maxFieldLen := 64, maxChunkLen := 3, writeBufferCapacity := 5 },
      ⟨[2], "z", ""⟩, .scripted #[8], {}, [.write [1], .write [], .write [2, 3, 4, 5, 6]]⟩
    j₁.Gives k [8, 9, 10, 11, 12, 13, 7, 8] ∧ j₂.Gives k [8, 9, 10, 11, 12, 13, 7, 8] := by
  intro k j₁ j₂
  have hk : k.Seamless := .block (ScriptedBlock.seamless 4) (·.1) ⟨rfl, rfl⟩ (by decide)
  have hs : k.Seals j₁.plaintext [8, 9, 10, 11, 12, 13, 7, 8] := by
    show Except.ok ((Padding.toBlocks 4 [1, 2, 3, 4, 5, 6]).map (· + 7)) = _
    simp [Padding.toBlocks, Padding.fill, Padding.runs]
  obtain ⟨-, h⟩ := @gives_alike .scripted k hk ScriptedSink ScriptedSink _ _ j₁ j₂
    ⟨rfl, by decide, ScriptedSink.reliable⟩ ⟨rfl, by decide, ScriptedSink.reliable⟩ rfl
  obtain ⟨-, -, h₁, h₂⟩ := h [8, 9, 10, 11, 12, 13, 7, 8] hs
  exact ⟨h₁ (by decide), h₂ (by decide)⟩

end SealedStream
