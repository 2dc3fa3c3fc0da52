import Mathlib
import SealedStream.Proofs.Cutting
import SealedStream.Session
/-!
# What the standard algorithms have in common

* `NameTable.mem_of_get?_ofList`: what a table of given entries finds is among the entries.
* `Cbc.length_transform`, `StandardStream.crypt_eq` and `SealScheme.IsStandard.length_encrypt`: how
  long the data of a chunk gets.
* `KeyedCipher.IsStandard` are the keyed ciphers that the standard ciphers make.
* `KeyExchange.length_le_of_encryptKey`: how long the value gets that goes into a preamble.
* `Registry.startEncryption_standard` says all this of a session.
-/
namespace SealedStream

/-! ## Tables -/

/-- A table of given entries finds the last one with a name. -/
theorem NameTable.get?_ofList {α : Type} (entries : List (String × α)) (name : String) :
    (ofList entries).get? name = entries.reverse.lookup name := by
  have hfold (t : NameTable α) : (entries.foldl (fun t e => t.insert e.1 e.2) t).get? name =
      (entries.reverse.lookup name).or (t.get? name) := by
    induction entries generalizing t with
    | nil => rfl
    | cons e es ih =>
      rw [List.foldl_cons, ih, get?_insert, List.reverse_cons, List.lookup_append, Option.or_assoc]
      congr 1
      obtain ⟨n, a⟩ := e
      by_cases hn : name = n
      · rw [if_pos hn, hn, List.lookup_cons_self]
        rfl
      · rw [if_neg hn, List.lookup_cons, beq_eq_false_iff_ne.2 hn]
        rfl
  rw [ofList, hfold]
  exact Option.or_none

theorem NameTable.mem_of_get?_ofList {α : Type} {entries : List (String × α)} {name : String}
    {a : α} (h : (ofList entries).get? name = some a) : (name, a) ∈ entries := by
  rw [get?_ofList, List.lookup_eq_some_iff] at h
  obtain ⟨l₁, l₂, h, -⟩ := h
  rw [← List.mem_reverse, h]
  exact List.mem_append_right _ List.mem_cons_self

/-! ## Lengths -/

theorem Cbc.size_blocksInto {bs : Bytes} (h : 16 ∣ bs.length) (done : Array UInt8) (c : Cbc) :
    (blocksInto done c (bs.pieces 16)).1.size = done.size + bs.length := by
  induction bs using Bytes.pieces_induction (by decide : 0 < 16) generalizing done c with
  | nil => rfl
  | cons bs hb ih =>
    have hpos := List.length_pos_iff.2 hb
    have hd : 16 ∣ (bs.drop 16).length := by
      rw [List.length_drop]
      omega
    rw [Bytes.pieces_eq_cons (by decide) hb, blocksInto, ih hd, Array.size_append,
      Vector.size_toArray, List.length_drop]
    omega

/-- A buffer keeps its length, also one that is refused. -/
theorem Cbc.length_transform (data : Bytes) (c : Cbc) :
    (c.transform data).1.buffer.length = data.length := by
  rw [transform]
  by_cases hd : data.length % 16 ≠ 0
  · rw [if_pos hd]
  · rw [if_neg hd]
    dsimp only
    rw [Array.length_toList, size_blocksInto (Nat.dvd_of_mod_eq_zero (not_not.1 hd))]
    exact Nat.zero_add _

/-- A stream cipher that is not scripted. -/
def StandardStream.IsStandard : StandardStream → Prop
  | .scripted _ => False
  | _ => True

theorem StandardStream.crypt_eq {c : StandardStream} (hc : c.IsStandard) (data : Bytes) :
    ∃ out c', StreamMode.crypt data c = (.ok out, c') ∧ out.length = data.length ∧
      c'.IsStandard := by
  rcases c with c | c | c | c
  · exact ⟨_, .ctr _, rfl, Bytes.length_transduce _ _ _, trivial⟩
  · exact ⟨_, .ofb _, rfl, Bytes.length_transduce _ _ _, trivial⟩
  · exact ⟨_, .cfb _, rfl, Bytes.length_transduce _ _ _, trivial⟩
  · exact hc.elim

/-- A scheme whose nonces and tags are no longer than those that the settings make room for. -/
structure SealScheme.IsStandard (s : SealScheme) : Prop where
  nonceSize : s.nonceSize ≤ Settings.maxNonceLen
  tag (nonce aad ciphertext : Bytes) : (s.tag nonce aad ciphertext).length ≤ tagSize

theorem SealScheme.IsStandard.length_encrypt {s : SealScheme} (hs : s.IsStandard)
    {nonce data aad out : Bytes} (h : s.encrypt nonce data aad = .ok out) :
    out.length ≤ data.length + tagSize := by
  rw [encrypt] at h
  rcases hn : s.nonceOf nonce with e | nonce' <;> rw [hn] at h <;> cases h
  have hm : (s.mask nonce' data).length ≤ data.length := by
    rw [mask, Bytes.length_xor]
    exact min_le_left _ _
  rw [List.length_append]
  exact Nat.add_le_add hm (hs.tag _ _ _)

theorem isStandard_gcm (c : BlockCipher) : (Gcm.scheme c).IsStandard where
  nonceSize := (by decide : 12 ≤ Settings.maxNonceLen)
  tag nonce aad ciphertext := by
    refine (Bytes.length_xor _ _).trans_le ((min_le_left _ _).trans ?_)
    simp [Gcm.Element.bytes, SealScheme.tagSize]

theorem isStandard_chaChaPoly (key : Bytes) : (chaChaPoly key).IsStandard where
  nonceSize := (by decide : 12 ≤ Settings.maxNonceLen)
  tag _ _ _ := (Bytes.length_ofNatLE _ _).le

theorem isStandard_xChaChaPoly (key : Bytes) : (xChaChaPoly key).IsStandard where
  nonceSize := (by decide : 24 ≤ Settings.maxNonceLen)
  tag _ _ _ := (Bytes.length_ofNatLE _ _).le

/-! ## Keyed ciphers -/

/-- The keyed ciphers that the standard ciphers make. -/
inductive KeyedCipher.IsStandard : KeyedCipher .standard → Prop where
  | block (c : Cbc) : IsStandard (.block (.cbc c))
  | stream {c : StandardStream} (h : c.IsStandard) : IsStandard (.stream c)
  | aead {s : SealScheme} (h : s.IsStandard) : IsStandard (.aead (.scheme s))

/-- A driver that makes standard ciphers. -/
def CipherDriver.IsStandard (d : CipherDriver .standard) : Prop :=
  ∀ m dir k, d.instantiate m dir = .ok k → k.IsStandard

namespace CipherDriver

theorem instantiate_ofLengths {M : Modes} {keyLen ivLen : Nat}
    {build : KeyMaterial → Direction → KeyedCipher M} {m : KeyMaterial}
    (h : m.key.length = keyLen ∧ m.iv.length = ivLen) (dir : Direction) :
    (ofLengths keyLen ivLen build).instantiate m dir = .ok (build m dir) :=
  if_pos h

theorem isStandard_ofLengths {keyLen ivLen : Nat}
    {build : KeyMaterial → Direction → KeyedCipher .standard}
    (h : ∀ m dir, (build m dir).IsStandard) : (ofLengths keyLen ivLen build).IsStandard := by
  intro m dir k hk
  simp only [ofLengths] at hk
  split_ifs at hk
  cases hk
  exact h m dir

theorem isStandard_sealing {keyLen : Nat} {scheme : Bytes → SealScheme}
    (h : ∀ key, (scheme key).IsStandard) : (sealing keyLen scheme).IsStandard := by
  intro m dir k hk
  simp only [sealing] at hk
  split_ifs at hk
  cases hk
  exact .aead (h _)

/-- **Every standard cipher makes standard keyed ciphers.** -/
theorem isStandard_of_mem {x : String × CipherDriver .standard} (hx : x ∈ standardCiphers) :
    x.2.IsStandard := by
  have hcbc (n : Nat) : (cbc n).IsStandard := isStandard_ofLengths fun _ _ => .block _
  have hcfb (n : Nat) : (cfb n).IsStandard := isStandard_ofLengths fun _ _ => .stream trivial
  have hctr (n : Nat) : (ctr n).IsStandard := isStandard_ofLengths fun _ _ => .stream trivial
  have hofb (n : Nat) : (ofb n).IsStandard := isStandard_ofLengths fun _ _ => .stream trivial
  have hgcm (n : Nat) : (gcm n).IsStandard := isStandard_sealing fun _ => isStandard_gcm _
  have hcha : (sealing 32 chaChaPoly).IsStandard := isStandard_sealing isStandard_chaChaPoly
  have hxch : (sealing 32 xChaChaPoly).IsStandard := isStandard_sealing isStandard_xChaChaPoly
  revert x
  simp only [standardCiphers, List.forall_mem_cons, List.not_mem_nil, false_implies,
    forall_true_iff, and_true, *]

end CipherDriver

/-! ## Key exchanges -/

/-- The length of the longest exchange value of a key exchange. -/
def KeyExchange.exchangeLen : KeyExchange → Nat
  | x25519 => X25519.keyLen
  | ecdh c _ => 1 + 2 * c.width

theorem WeierstrassCurve.length_encode_le (c : WeierstrassCurve) (q : CurvePoint) :
    (c.encode q).length ≤ 1 + 2 * c.width := by
  cases q with
  | infinity => exact Nat.le_add_right 1 _
  | affine x y =>
    rw [encode, List.length_cons, List.length_append, Bytes.length_ofNatBE, Bytes.length_ofNatBE]
    omega

theorem Keying.run_bind {α β : Type} (x : Keying α) (f : α → Keying β) (m : KeyMaterial) :
    (x >>= f).run.run m = match x.run.run m with
      | (.ok a, m) => (f a).run.run m
      | (.error e, m) => (.error e, m) := by
  show (ExceptT.bindCont f (x.run.run m).1).run (x.run.run m).2 = _
  rcases x.run.run m with ⟨_ | _, _⟩ <;> rfl

theorem Keying.bind_ok {α β : Type} {x : Keying α} {f : α → Keying β} {m m' : KeyMaterial} {b : β}
    (h : (x >>= f).run.run m = (.ok b, m')) :
    ∃ a m₁, x.run.run m = (.ok a, m₁) ∧ (f a).run.run m₁ = (.ok b, m') := by
  rw [run_bind] at h
  rcases hr : x.run.run m with ⟨e | a, m₁⟩ <;> rw [hr] at h
  · cases h
  · exact ⟨a, m₁, rfl, h⟩

/-- A value that the holder of the private key needs is no longer than the exchange says. -/
theorem KeyExchange.length_le_of_encryptKey {x : KeyExchange} {key : PublicKey} {e e' : Entropy}
    {m m' : KeyMaterial} {exchange : Bytes}
    (h : (x.encryptKey key e).run.run m = (.ok (exchange, e'), m')) :
    exchange.length ≤ x.exchangeLen := by
  cases x with
  | x25519 =>
    obtain ⟨peer, m₁, -, h⟩ := Keying.bind_ok h
    obtain ⟨-, m₂, -, h⟩ := Keying.bind_ok h
    cases h
    exact (Bytes.length_ofNatLE _ _).le
  | ecdh c name =>
    obtain ⟨peer, m₁, -, h⟩ := Keying.bind_ok h
    obtain ⟨-, m₂, -, h⟩ := Keying.bind_ok h
    cases h
    exact c.length_encode_le _

namespace KeyStretch

theorem length_overlay (new old : Bytes) : (overlay new old).length = old.length := by
  rw [overlay, List.length_append, List.length_take, List.length_drop]
  omega

theorem length_fill (material : Bytes) (m : KeyMaterial) :
    (fill material m).key.length = m.key.length ∧ (fill material m).iv.length = m.iv.length :=
  ⟨length_overlay _ _, length_overlay _ _⟩

theorem length_derive (raw : Bytes) (m : KeyMaterial) :
    (derive raw m).key.length = m.key.length ∧ (derive raw m).iv.length = m.iv.length := by
  unfold derive
  split_ifs <;> exact length_fill _ _

theorem length_deriveWhitened (raw : Bytes) (m : KeyMaterial) :
    (deriveWhitened raw m).key.length = m.key.length ∧
      (deriveWhitened raw m).iv.length = m.iv.length :=
  length_fill _ _

end KeyStretch

/-- A product that is not zero fills the key material. -/
theorem KeyExchange.run_deriveX25519 {k p : Bytes} {m : KeyMaterial}
    (h : (X25519.multiply k p).all (· == 0) = false) :
    (deriveX25519 k p).run.run m = (.ok (), KeyStretch.derive (X25519.multiply k p) m) := by
  unfold deriveX25519
  generalize X25519.multiply k p = secret at h ⊢
  simp only [h]
  rfl

theorem KeyExchange.encryptKey_x25519 (name : String) (u : Bytes) (e : Entropy) :
    encryptKey .x25519 ⟨name, .x25519 u⟩ e = (deriveX25519 (drawX25519 e).1 u >>= fun _ =>
      pure (X25519.publicKey (drawX25519 e).1, (drawX25519 e).2)) := by
  have h : encryptKey .x25519 ⟨name, .x25519 u⟩ e = (pure u >>= fun peer =>
      deriveX25519 (drawX25519 e).1 peer >>= fun _ =>
        pure (X25519.publicKey (drawX25519 e).1, (drawX25519 e).2)) := rfl
  rw [h, pure_bind]

theorem KeyExchange.run_encryptKey_x25519 {name : String} {u : Bytes} {e : Entropy}
    {m : KeyMaterial} (h : (X25519.multiply (drawX25519 e).1 u).all (· == 0) = false) :
    (encryptKey .x25519 ⟨name, .x25519 u⟩ e).run.run m =
      (.ok (X25519.publicKey (drawX25519 e).1, (drawX25519 e).2),
        KeyStretch.derive (X25519.multiply (drawX25519 e).1 u) m) := by
  rw [encryptKey_x25519, Keying.run_bind, run_deriveX25519 h]
  rfl

/-! ## Sessions -/

/-- The longest exchange value of the standard key exchanges. -/
def KeyExchange.maxExchangeLen : Nat := 133

theorem exchangeLen_le_of_mem {x : String × KeyExchange} (hx : x ∈ standardKeyExchanges) :
    x.2.exchangeLen ≤ KeyExchange.maxExchangeLen := by
  have h : ∀ x ∈ standardKeyExchanges, x.2.exchangeLen ≤ KeyExchange.maxExchangeLen := by
    decide +kernel
  exact h x hx

/-- The names of the standard algorithms are short. -/
theorem length_standardNames :
    (∀ x ∈ standardCiphers, (Utf8.encode x.1).length ≤ Settings.maxNonceLen) ∧
      ∀ x ∈ standardKeyExchanges, (Utf8.encode x.1).length ≤ Settings.maxNonceLen := by
  decide +kernel

namespace Registry
variable {M : Modes} {r : Registry M}

theorem cipher_eq_ok {name : String} {d : CipherDriver M} :
    r.cipher name = .ok d ↔ r.ciphers.get? name = some d := by
  rw [cipher]
  cases r.ciphers.get? name <;> simp

theorem keyExchange_eq_ok {name : String} {x : KeyExchange} :
    r.keyExchange name = .ok x ↔ r.keyExchanges.get? name = some x := by
  rw [keyExchange]
  cases r.keyExchanges.get? name <;> simp

/-- An encryption that begins has found its algorithms, has filled key material and has keyed the
cipher with it. -/
theorem startEncryption_ok {e : Entropy} {pkAlgo name : String} {key : PublicKey}
    {session : EncryptionSession M} (h : r.startEncryption e pkAlgo name key = .ok session) :
    ∃ d x material, r.cipher name = .ok d ∧ r.keyExchange pkAlgo = .ok x ∧
      (x.encryptKey key e).run.run d.material =
        (.ok (session.preamble.exchange, session.entropy), material) ∧
      d.instantiate material .encrypt = .ok session.cipher ∧
      session.preamble.pkAlgo = pkAlgo ∧ session.preamble.encoding = name := by
  rw [startEncryption] at h
  rcases hd : r.cipher name with _ | d <;> rw [hd] at h
  · cases h
  rcases hx : r.keyExchange pkAlgo with _ | x <;> rw [hx] at h
  · cases h
  simp only [bind, Except.bind] at h
  rcases hr : (x.encryptKey key e).run.run d.material with ⟨err | ⟨exchange, entropy⟩, material⟩ <;>
    rw [hr] at h
  · cases h
  simp only at h
  rcases hk : d.instantiate material .encrypt with err | keyed <;> rw [hk] at h <;> cases h
  exact ⟨d, x, material, rfl, rfl, hr, hk, rfl, rfl⟩

end Registry

/-- **A session with the standard algorithms** has a standard cipher and a preamble of short
fields. -/
theorem Registry.startEncryption_standard {e : Entropy} {pkAlgo cipher : String} {key : PublicKey}
    {session : EncryptionSession .standard}
    (h : standard.startEncryption e pkAlgo cipher key = .ok session) :
    session.cipher.IsStandard ∧
      session.preamble.exchange.length ≤ KeyExchange.maxExchangeLen ∧
      (Utf8.encode session.preamble.pkAlgo).length ≤ Settings.maxNonceLen ∧
      (Utf8.encode session.preamble.encoding).length ≤ Settings.maxNonceLen := by
  obtain ⟨d, x, material, hd, hx, hr, hk, rfl, rfl⟩ := startEncryption_ok h
  have hd := NameTable.mem_of_get?_ofList (cipher_eq_ok.1 hd)
  have hx := NameTable.mem_of_get?_ofList (keyExchange_eq_ok.1 hx)
  have hlen := (KeyExchange.length_le_of_encryptKey hr).trans (exchangeLen_le_of_mem hx)
  exact ⟨CipherDriver.isStandard_of_mem hd _ _ _ hk, hlen, length_standardNames.2 _ hx,
    length_standardNames.1 _ hd⟩

theorem Registry.cipher_ctr : standard.cipher "aes-128/ctr" = .ok (.ctr 16) := by
  rw [cipher_eq_ok, show standard.ciphers.get? "aes-128/ctr" = _ from NameTable.get?_ofList _ _]
  rfl

theorem Registry.keyExchange_standard (name : String) :
    standard.keyExchanges.get? name = standardKeyExchanges.reverse.lookup name :=
  NameTable.get?_ofList _ _

/-- A session of X25519 and counter mode, with a public key that is no point of low order. -/
theorem Registry.startEncryption_ctr {e : Entropy} {name : String} {u : Bytes}
    (hu : (X25519.multiply (KeyExchange.drawX25519 e).1 u).all (· == 0) = false) :
    ∃ session, standard.startEncryption e "curve25519" "aes-128/ctr" ⟨name, .x25519 u⟩ =
        .ok session ∧
      session.preamble =
        ⟨X25519.publicKey (KeyExchange.drawX25519 e).1, "curve25519", "aes-128/ctr"⟩ ∧
      ∃ c, session.cipher = .stream (.ctr c) := by
  have hx : standard.keyExchange "curve25519" = .ok .x25519 := by
    rw [keyExchange_eq_ok, keyExchange_standard]
    rfl
  have hl : _ = 16 ∧ _ = 16 := KeyStretch.length_derive
    (X25519.multiply (KeyExchange.drawX25519 e).1 u) (.zeroed 16 16)
  have hm : (CipherDriver.ctr 16).material = .zeroed 16 16 := rfl
  simp only [startEncryption, cipher_ctr, hx, bind, Except.bind]
  rw [hm, KeyExchange.run_encryptKey_x25519 hu]
  simp only [CipherDriver.ctr]
  rw [CipherDriver.instantiate_ofLengths hl]
  exact ⟨_, rfl, rfl, _, rfl⟩

end SealedStream
