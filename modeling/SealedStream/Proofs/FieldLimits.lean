import Mathlib
import SealedStream.Proofs.Opening
import SealedStream.Proofs.Sealing
import SealedStream.Proofs.StandardAlgorithms
/-!
# Limits on fields

* `Encoder.keeps_standard`: the chunks that a standard cipher makes are within the limits of the
  settings.
* `Contents.ending_ofChunks`: how chunks within the limits may end.
* `Opener.isFieldTooLarge_iff`: when a reader refuses a container that was written with the standard
  algorithms under the same settings, for a field that is too long.
-/
namespace SealedStream

/-! ## Chunks of standard ciphers -/

namespace Encoder
variable {s : Settings} (hs : s.validate = .ok ())
include hs

theorem keeps_cbc :
    Keeps (Plan.blocks 16) (fun p => p.data.length ≤ max s.maxChunkLen 16)
      (fun _ c => s.Accepts c) fun enc : Encoder .standard => ∃ c : Cbc, enc = .block (.cbc c) where
  plan := by
    rintro limit last pending _ ⟨c, rfl⟩
    rfl
  encrypt := by
    rintro _ _ p _ ⟨c, rfl⟩ hp he
    obtain ⟨data, b, hc, rfl, rfl⟩ := encrypt_block he
    have hc : (BlockMode.crypt p.data c).map id StandardBlock.cbc = (.ok data, b) := hc
    obtain ⟨hd, rfl⟩ := Prod.mk.inj hc
    have hl : data.length = p.data.length :=
      Outcome.buffer_of_answer hd ▸ Cbc.length_transform p.data c
    refine ⟨fun hx => Chunk.excess?_eq_none_iff.2 ⟨Nat.zero_le _, ?_⟩, _, rfl⟩
    -- where the limit is shorter than a block, a chunk still holds a block
    refine Settings.data_le hs hx.2 ((hl.trans_le hp).trans ?_)
    exact max_le (Nat.le_add_right _ _) (Nat.le_add_left _ _)

theorem keeps_stream :
    Keeps Plan.all (fun p => p.data.length ≤ s.maxChunkLen) (fun _ c => s.Accepts c)
      fun enc : Encoder .standard => ∃ c : StandardStream, c.IsStandard ∧ enc = .stream c where
  plan := by
    rintro limit last pending _ ⟨c, -, rfl⟩
    rfl
  encrypt := by
    rintro _ _ p _ ⟨c, hstd, rfl⟩ hp he
    obtain ⟨data, c', hc, rfl, rfl⟩ := encrypt_stream he
    obtain ⟨out, c₁, h₁, hl, hstd⟩ := StandardStream.crypt_eq hstd p.data
    obtain ⟨h, rfl⟩ := Prod.mk.inj (h₁.symm.trans hc)
    cases h
    refine ⟨fun hx => Chunk.excess?_eq_none_iff.2 ⟨Nat.zero_le _, ?_⟩, _, hstd, rfl⟩
    exact Settings.data_le hs hx.2 ((hl.trans_le hp).trans (Nat.le_add_right _ _))

theorem keeps_scheme {scheme : SealScheme} (hsch : scheme.IsStandard) :
    Keeps Plan.all (fun p => p.data.length ≤ s.maxChunkLen) (fun _ c => s.Accepts c)
      fun enc : Encoder .standard => ∃ chain, enc = .aead (.scheme scheme) chain ∧
        NonceChain.Sized scheme.nonceSize s.associatedDataLen chain where
  plan := by
    rintro limit last pending _ ⟨chain, rfl, -⟩
    rfl
  encrypt := by
    rintro _ _ p _ ⟨chain, rfl, hsz⟩ hp he
    obtain ⟨data, a', hc, rfl, rfl⟩ := encrypt_aead he
    have hc : (scheme.encrypt chain.advance.nonce p.data chain.advance.associatedData,
        StandardAead.scheme scheme) = (.ok data, a') := hc
    obtain ⟨hd, rfl⟩ := Prod.mk.inj hc
    refine ⟨fun hx => Chunk.excess?_eq_none_iff.2 ⟨?_, ?_⟩, _, rfl, hsz.advance⟩
    · refine Settings.nonce_le hs hx.1 (hsz.advance.length.trans_le ?_)
      exact Nat.add_le_add_right hsch.nonceSize _
    · exact Settings.data_le hs hx.2 ((hsch.length_encrypt hd).trans (Nat.add_le_add_right hp _))

/-- **The chunks of a standard cipher are accepted** by a reader under the same settings. -/
theorem keeps_standard {k : KeyedCipher .standard} (hk : k.IsStandard) (e : Entropy) :
    ∃ plan Suits I, Keeps plan Suits (fun _ c => s.Accepts c) I ∧ I (.start s e k) ∧
      ∀ ds, ∀ p ∈ Plan.session (plan s.maxChunkLen) [] ds, Suits p := by
  have hpos := Settings.maxChunkLen_pos hs
  cases hk with
  | block c =>
    exact ⟨_, _, _, keeps_cbc hs, ⟨c, rfl⟩, fun ds p hp =>
      (Plan.length_le_of_mem_session_blocks (by decide) hp).2⟩
  | stream h =>
    exact ⟨_, _, _, keeps_stream hs, ⟨_, h, rfl⟩, fun ds p =>
      Plan.length_le_of_mem_session_all hpos⟩
  | aead h =>
    exact ⟨_, _, _, keeps_scheme hs h, ⟨_, rfl, NonceChain.sized_start _ _ _⟩, fun ds p =>
      Plan.length_le_of_mem_session_all hpos⟩

end Encoder

/-! ## Containers in counter mode -/

/-- A standard stream cipher refuses no piece, and its chunks are as long as the pieces. -/
theorem Encoder.exists_makes_stream {c : StandardStream} (hc : c.IsStandard) (ps : List Piece) :
    ∃ t enc, t.map Prod.fst = ps ∧ (stream c : Encoder .standard).Makes t enc ∧
      ∀ x ∈ t, x.2.nonce = [] ∧ x.2.data.length = x.1.data.length := by
  refine @exists_makes .standard (fun p c => c.nonce = [] ∧ c.data.length = p.data.length)
    (fun enc => ∃ c : StandardStream, c.IsStandard ∧ enc = .stream c) ?_ _ ⟨c, hc, rfl⟩ ps
  rintro _ ⟨c, hc, rfl⟩ p
  obtain ⟨out, c₁, hx, hl, hc₁⟩ := StandardStream.crypt_eq hc p.data
  exact ⟨_, _, @encrypt_stream_of .standard p c _ _ hx, ⟨rfl, hl⟩, c₁, hc₁, rfl⟩

/-- With X25519 and counter mode every container is completed. -/
theorem Sealer.exists_complete_ctr {s : Settings} (hs : s.validate = .ok ())
    (hl : s.maxChunkLen ≤ maxLength) {e : Entropy} (name : String) {u : Bytes}
    (hu : (X25519.multiply (KeyExchange.drawX25519 e).1 u).all (· == 0) = false)
    (calls : List Call) :
    ∃ w w', begin .standard s e "curve25519" "aes-128/ctr" ⟨name, .x25519 u⟩ (#[] : Array UInt8) =
        .ok w ∧ w.complete calls = (.ok (), w') := by
  obtain ⟨session, hse, hp, c, hc⟩ := @Registry.startEncryption_ctr e name u hu
  have he : session.preamble.Encodable := by
    have hpk : (Utf8.encode "curve25519").length ≤ maxLength := by decide
    have hen : (Utf8.encode "aes-128/ctr").length ≤ maxLength := by decide
    rw [hp]
    exact ⟨(X25519.length_publicKey _).trans_le (by decide), hpk, hen⟩
  obtain ⟨w, hw, hb, hr⟩ := begin_reliable hs hse he (Output.reliable_memory #[])
  rw [hc] at hb
  obtain ⟨t, enc, ht, hm, hx⟩ := Encoder.exists_makes_stream (c := .ctr c) trivial
    (Plan.session (Plan.all s.maxChunkLen) [] (calls.map Call.data))
  have hle : ∀ x ∈ t, x.1.data.length ≤ s.maxChunkLen := fun x hm =>
    Plan.length_le_of_mem_session_all (Settings.maxChunkLen_pos hs) (ht ▸ List.mem_map_of_mem hm)
  have henc : ∀ x ∈ t, x.2.Encodable := by
    intro x hm
    obtain ⟨hn, hd⟩ := hx x hm
    rw [Chunk.Encodable, hn, hd]
    exact ⟨Nat.zero_le _, (hle x hm).trans hl⟩
  obtain ⟨w', h⟩ :=
    container_reliable (Encoder.keeps_stream hs) ⟨.ctr c, trivial, rfl⟩ hb hr hm ht hle henc
  exact ⟨w, w', hw, h⟩

/-! ## How contents end -/

/-- Chunks within the limit may end in every way but one. -/
theorem Contents.ending_ofChunks {M : Modes} {limit : Nat} {cs : List Chunk}
    (h : ∀ c ∈ cs, c.excess? limit = none) (k : KeyedCipher M) :
    (ofChunks limit cs k).ending = .finished ∨ (ofChunks limit cs k).ending = .failed .truncated ∨
      ∃ e, (ofChunks limit cs k).ending = .failed (.cipher e) := by
  induction cs generalizing k with
  | nil => exact .inr (.inl rfl)
  | cons c cs ih =>
    have hc := h c List.mem_cons_self
    simp only [ofChunks, hc]
    rcases (k.decryptChunk c).result with e | bs
    · exact .inr (.inr ⟨e, rfl⟩)
    · by_cases hl : c.last
      · simp only [hl, if_true]
        exact .inl trivial
      · simp only [hl]
        exact ih (fun d hd => h d (List.mem_cons_of_mem _ hd)) _

/-- A request fails only as the contents end. -/
theorem Contents.of_error_mem_answers {e : IoError} {ns : List Nat} {c : Contents}
    (h : .error e ∈ c.answers ns) : ∃ cause, c.ending = .failed cause ∧ e = cause.toSharedIo := by
  induction ns generalizing c with
  | nil => cases h
  | cons n ns ih =>
    rcases List.mem_cons.1 h with h | h
    · rw [answer] at h
      split_ifs at h
      rcases hc : c.ending with _ | cause <;> rw [hc] at h <;> cases h
      exact ⟨cause, rfl, rfl⟩
    · exact @ih (c.after n) h

/-! ## Containers under the same settings -/

/-- A failure that was first a field too long. -/
def StreamError.IsFieldTooLarge (e : StreamError) : Prop :=
  ∃ len max, e.innermost = .wire (.fieldTooLarge len max)

/-- What was written with the standard algorithms: a preamble of which only the exchange value may
be beyond the limit, and chunks within it. -/
structure Container.Standard (s : Settings) (c : Container) : Prop where
  preamble : c.preamble.Encodable
  exchange : c.preamble.exchange.length ≤ KeyExchange.maxExchangeLen
  excess : c.preamble.excess? s.maxFieldLen =
    if s.maxFieldLen < c.preamble.exchange.length then some c.preamble.exchange.length else none
  chunks : ∀ x ∈ c.chunks, x.Encodable ∧ x.excess? s.maxFieldLen = none

theorem Sealer.written_standard {s : Settings} {e : Entropy} {pkAlgo cipher : String}
    {key : PublicKey} {τ : Type} [Output τ] [Lossless τ] {output : τ} {w w' : Sealer .standard τ}
    {calls : List Call} (hb : Sealer.begin .standard s e pkAlgo cipher key output = .ok w)
    (hw : w.complete calls = (.ok (), w')) :
    ∃ session chunks, Registry.standard.startEncryption e pkAlgo cipher key = .ok session ∧
      s.validate = .ok () ∧ Container.Standard s ⟨session.preamble, chunks⟩ ∧
      Lossless.arrived w'.output =
        Lossless.taken output ++ Container.octets ⟨session.preamble, chunks⟩ := by
  obtain ⟨session, hse, hs, he, hbegun, ht⟩ := begin_ok hb
  obtain ⟨hstd, hlen, hpk, hen⟩ := Registry.startEncryption_standard hse
  obtain ⟨plan, Suits, I, hI, hk, hsuits⟩ := Encoder.keeps_standard hs hstd session.entropy
  obtain ⟨-, -, hx, ha⟩ := container_ok hI hk hbegun ht (hsuits _) hw
  refine ⟨session, _, hse, hs, ⟨he, hlen, ?_, fun c hc => ?_⟩, ha⟩
  · rw [Preamble.excess?, if_neg (not_lt.2 (Settings.nonce_le hs he.2.1 (hpk.trans ?_))),
      if_neg (not_lt.2 (Settings.nonce_le hs he.2.2 (hen.trans ?_)))] <;>
    exact Nat.le_add_right _ _
  · obtain ⟨x, hm, rfl⟩ := List.mem_map.1 hc
    exact ⟨(hx x hm).1, (hx x hm).2 (hx x hm).1⟩

namespace Opener
variable {s : Settings} {c : Container} {ι : Type} [Input ι] {i : ι}
  {decrypter : Decrypter .standard}

/-- An exchange value beyond the limit is refused. -/
theorem start_of_exchange_gt (hs : s.validate = .ok ()) (hc : c.Standard s)
    (hi : Input.Supplies i c.octets) (hlt : s.maxFieldLen < c.preamble.exchange.length) :
    start s decrypter i =
      .error (.wire (.fieldTooLarge c.preamble.exchange.length s.maxFieldLen)) := by
  rw [Container.octets_eq] at hi
  refine (start_eq hs hc.preamble hi).1 _ ?_
  rw [hc.excess, if_pos hlt]

/-- Where the exchange value is within the limit, nothing is refused for its length. -/
theorem not_isFieldTooLarge_of_exchange_le (hs : s.validate = .ok ()) (hc : c.Standard s)
    (hi : Input.Supplies i c.octets) (hle : c.preamble.exchange.length ≤ s.maxFieldLen) :
    (∀ err, start s decrypter i = .error err → ¬ err.IsFieldTooLarge) ∧
      ∀ o, start s decrypter i = .ok o → ∀ ns err, .error err ∈ (o.reads ns).1 →
        ¬ (StreamError.io err).IsFieldTooLarge := by
  have hp : c.preamble.excess? s.maxFieldLen = none := by rw [hc.excess, if_neg (not_lt.2 hle)]
  rcases hd : decrypter c.preamble with cause | found
  · have hi' := hi
    rw [Container.octets_eq] at hi'
    have hst := ((start_eq hs hc.preamble hi').2 hp).1 cause hd
    rw [hst]
    refine ⟨?_, fun o ho => by cases ho⟩
    rintro err he ⟨len, max, htoo⟩
    cases he
    cases htoo
  · obtain ⟨o, ho, -, hcont⟩ := start_contents hs hc.preamble hp (fun x hx => (hc.chunks x hx).1)
      hi hd
    rw [ho]
    refine ⟨fun err he => (by cases he), fun o' ho' ns err hm => ?_⟩
    cases ho'
    rintro ⟨len, max, htoo⟩
    rw [reads_eq, hcont] at hm
    obtain ⟨cause, hcause, rfl⟩ := Contents.of_error_mem_answers hm
    rw [StreamError.toSharedIo, StreamError.innermost_io_carrying] at htoo
    have hend := Contents.ending_ofChunks (fun x hx => (hc.chunks x hx).2) found.cipher
    rw [hcause] at hend
    rcases hend with h | h | ⟨e, h⟩ <;> cases h <;> cases htoo

/-- **When a field is too long for the settings it was written with.** A reader refuses what was
written with the standard algorithms under the same settings just where the exchange value of the
preamble is beyond the limit, and it refuses no chunk. -/
theorem isFieldTooLarge_iff {e : Entropy} {pkAlgo cipher : String} {key : PublicKey} {τ : Type}
    [Output τ] [Lossless τ] {output : τ} {w w' : Sealer .standard τ} {calls : List Sealer.Call}
    (ho : Lossless.taken output = [])
    (hb : Sealer.begin .standard s e pkAlgo cipher key output = .ok w)
    (hw : w.complete calls = (.ok (), w')) (hi : Input.Supplies i (Lossless.arrived w'.output)) :
    ∃ session, Registry.standard.startEncryption e pkAlgo cipher key = .ok session ∧
      session.preamble.exchange.length ≤ KeyExchange.maxExchangeLen ∧
      ((∃ err, start s decrypter i = .error err ∧ err.IsFieldTooLarge) ↔
        s.maxFieldLen < session.preamble.exchange.length) ∧
      ∀ o, start s decrypter i = .ok o → ∀ ns err, .error err ∈ (o.reads ns).1 →
        ¬ (StreamError.io err).IsFieldTooLarge := by
  obtain ⟨session, chunks, hse, hs, hc, ha⟩ := Sealer.written_standard hb hw
  rw [ho, List.nil_append] at ha
  rw [ha] at hi
  refine ⟨session, hse, hc.exchange, ?_⟩
  rcases lt_or_ge s.maxFieldLen session.preamble.exchange.length with hlt | hle
  · have hst := @start_of_exchange_gt s _ ι _ i decrypter hs hc hi hlt
    refine ⟨⟨fun _ => hlt, fun _ => ⟨_, hst, _, _, rfl⟩⟩, fun o ho => ?_⟩
    rw [hst] at ho
    cases ho
  · obtain ⟨h₁, h₂⟩ := @not_isFieldTooLarge_of_exchange_le s _ ι _ i decrypter hs hc hi hle
    refine ⟨⟨fun ⟨err, he, htoo⟩ => absurd htoo (h₁ err he), fun hlt => absurd hlt hle.not_gt⟩, h₂⟩

end Opener

/-! ### Narrow settings -/

/-- Settings under which every exchange value is too long. -/
def Settings.narrow : Settings :=
  ((default : Settings).set .maxFieldLen 24).set .maxChunkLen 1

/-- The keys of the receiver. -/
def KeyExchange.receiver : KeyPair := (x25519.generate (.scripted #[1])).1

namespace Opener

theorem exists_complete_narrow : ∃ w w', Sealer.begin .standard .narrow (.scripted #[]) "curve25519"
      "aes-128/ctr" ⟨"curve25519", .x25519 KeyExchange.receiver.publicKey⟩ (#[] : Array UInt8) =
        .ok w ∧
    w.complete [.write [1, 2]] = (.ok (), w') :=
  Sealer.exists_complete_ctr rfl (by decide) _ (by decide +kernel) _

/-- Two octets in counter mode. -/
theorem isFieldTooLarge_iff_narrow : ∃ w w', Sealer.begin .standard .narrow (.scripted #[])
      "curve25519" "aes-128/ctr" ⟨"curve25519", .x25519 KeyExchange.receiver.publicKey⟩
        (#[] : Array UInt8) = .ok w ∧
    w.complete [.write [1, 2]] = (.ok (), w') ∧
    ∃ session, Registry.standard.startEncryption (.scripted #[]) "curve25519" "aes-128/ctr"
        ⟨"curve25519", .x25519 KeyExchange.receiver.publicKey⟩ = .ok session ∧
      session.preamble.exchange.length ≤ KeyExchange.maxExchangeLen ∧
      ((∃ err, start .narrow (Registry.standard.startDecryption (.single
            ⟨"curve25519", .x25519 KeyExchange.receiver.privateKey⟩))
          (Lossless.arrived w'.output) = .error err ∧ err.IsFieldTooLarge) ↔
        Settings.narrow.maxFieldLen < session.preamble.exchange.length) := by
  obtain ⟨w, w', hb, hw⟩ := exists_complete_narrow
  obtain ⟨session, hse, hlen, hiff, -⟩ := isFieldTooLarge_iff rfl hb hw (Input.supplies_self _)
  exact ⟨w, w', hb, hw, session, hse, hlen, hiff⟩

/-- Valid settings may make a reader refuse what was written under them. -/
theorem start_narrow : Settings.narrow.validate = .ok () ∧
    ∃ w w', Sealer.begin .standard .narrow (.scripted #[]) "curve25519" "aes-128/ctr"
        ⟨"curve25519", .x25519 KeyExchange.receiver.publicKey⟩ (#[] : Array UInt8) = .ok w ∧
      w.complete [.write [1, 2]] = (.ok (), w') ∧
      start .narrow (Registry.standard.startDecryption (.single
          ⟨"curve25519", .x25519 KeyExchange.receiver.privateKey⟩)) (Lossless.arrived w'.output) =
        .error (.wire (.fieldTooLarge 32 24)) := by
  obtain ⟨w, w', hb, hw⟩ := exists_complete_narrow
  obtain ⟨session, chunks, hse, hs, hc, ha⟩ := Sealer.written_standard hb hw
  have hlen : session.preamble.exchange.length = 32 := by
    obtain ⟨session', hse', hp, -⟩ := @Registry.startEncryption_ctr (.scripted #[]) "curve25519"
      KeyExchange.receiver.publicKey (by decide +kernel)
    cases hse'.symm.trans hse
    rw [hp]
    exact X25519.length_publicKey _
  have ht : Lossless.taken (#[] : Array UInt8) = [] := rfl
  rw [ht, List.nil_append] at ha
  refine ⟨hs, w, w', hb, hw, ?_⟩
  rw [start_of_exchange_gt hs hc (ha ▸ Input.supplies_self _) (by rw [hlen]; decide), hlen]
  rfl

end Opener

end SealedStream
