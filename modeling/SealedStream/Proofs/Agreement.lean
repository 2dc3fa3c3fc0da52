import Mathlib
import SealedStream.Proofs.Curve.Ladder
import SealedStream.Proofs.Curve.Orders
import SealedStream.Proofs.StandardAlgorithms
/-!
# Both sides of a session agree

What one side makes of a fresh public key, the holder of the private key makes of what that side
sends, so that both key their ciphers alike.

* `KeyExchange.drawScalar_eq` says where a search for a scalar ends.
* `KeyExchange.load_generate` says that fresh keys are read back.
* `KeyExchange.run_decryptKey` says that both sides of an exchange fill the same key material. It
  rests on the group of the curve: a product does not depend on who multiplies first, and a multiple
  of the base point is read from the octets that tell it.
* `Registry.sides_agree` says so of sessions.
-/
namespace SealedStream

namespace KeyExchange

/-- A key exchange over one of the standard curves. -/
inductive IsStandard : KeyExchange → Prop where
  | x25519 : IsStandard .x25519
  | ecdh {c : WeierstrassCurve} (hc : c ∈ [.p256, .p384, .p521]) (name : String) :
    IsStandard (.ecdh c name)

/-! ## Fresh keys -/

section
variable {c : WeierstrassCurve} {e : Entropy}

/-- Number `i` of those that are drawn. -/
def drawn (c : WeierstrassCurve) (e : Entropy) (i : Nat) : Nat :=
  (Entropy.fill c.width { e with position := e.position + i * c.width }).1.toNatBE

theorem drawn_zero : drawn c e 0 = (e.fill c.width).1.toNatBE := by
  rw [drawn, Nat.zero_mul]
  rfl

theorem drawn_succ (i : Nat) : drawn c e (i + 1) = drawn c (e.fill c.width).2 i := by
  rw [drawn, drawn, Nat.succ_mul, Nat.add_comm (i * c.width), ← Nat.add_assoc]
  rfl

/-- **A search for a scalar ends at the first number that is one**, and takes nothing from behind
it. -/
theorem drawScalar_eq {i : Nat} (h : c.isScalar (drawn c e i))
    (hi : ∀ j < i, ¬ c.isScalar (drawn c e j)) :
    drawScalar c e = (⟨drawn c e i, h⟩, { e with position := e.position + (i + 1) * c.width }) := by
  induction i generalizing e with
  | zero =>
    rw [drawScalar_of_isScalar (drawn_zero ▸ h), Nat.zero_add, Nat.one_mul]
    exact Prod.ext (Subtype.ext drawn_zero.symm) rfl
  | succ i ih =>
    have hrest := ih (drawn_succ i ▸ h) fun j hj => drawn_succ j ▸ hi (j + 1) (Nat.succ_lt_succ hj)
    rw [drawScalar_of_not_isScalar (drawn_zero ▸ hi 0 i.succ_pos), hrest]
    have hp : e.position + c.width + (i + 1) * c.width = e.position + (i + 1 + 1) * c.width := by
      rw [Nat.succ_mul (i + 1), Nat.add_assoc, Nat.add_comm c.width]
    exact Prod.ext (Subtype.ext (drawn_succ i).symm) (congrArg (Entropy.mk e.octet) hp)

end

theorem length_drawX25519 (e : Entropy) : (drawX25519 e).1.length = X25519.keyLen := by
  simp [drawX25519, X25519.clamp]

/-- The handles of a fresh pair of keys. -/
def handles (x : KeyExchange) (e : Entropy) : PublicKey × PrivateKey :=
  match x with
  | x25519 =>
    let k := (drawX25519 e).1
    (⟨x.keyName, .x25519 (X25519.publicKey k)⟩, ⟨x.keyName, .x25519 k⟩)
  | ecdh c name =>
    let k := (drawScalar c e).1.1
    (⟨name, .point c (c.publicPoint k)⟩, ⟨name, .scalar c k⟩)

section
variable {x : KeyExchange}

/-- **Fresh keys are read back.** -/
theorem load_generate (hx : x.IsStandard) (e : Entropy) :
    x.loadPublic (x.generate e).1.publicKey = .ok (x.handles e).1 ∧
      x.loadPrivate (x.generate e).1.privateKey = .ok (x.handles e).2 := by
  cases hx with
  | x25519 =>
    constructor
    · simp only [loadPublic, generate, X25519.length_publicKey, if_true]
      rfl
    · simp only [loadPrivate, generate, length_drawX25519, if_true]
      rfl
  | @ecdh c hc name =>
    have hc := WeierstrassCurve.valid_of_mem hc
    have hk := (drawScalar c e).1.2
    constructor
    · simp only [loadPublic, generate, hc.decode?_encode_publicPoint hk]
      rfl
    · have hlt := (WeierstrassCurve.isScalar_iff.1 hk).2.trans_le hc.order_le_width
      simp only [loadPrivate, generate, Bytes.length_ofNatBE, ne_eq, not_true_eq_false, if_false,
        Bytes.toNatBE_ofNatBE hlt, hk, if_true]
      rfl

/-! ## The exchange -/

theorem decryptKey_x25519 (name : String) (k : Bytes) {exchange : Bytes}
    (h : exchange.length = X25519.keyLen) :
    decryptKey .x25519 exchange ⟨name, .x25519 k⟩ = deriveX25519 k exchange := by
  have hb : decryptKey .x25519 exchange ⟨name, .x25519 k⟩ = (pure k >>= fun k =>
      if exchange.length ≠ X25519.keyLen then
        (throw (.malformedEncryptedKey
          (wrongLength "curve25519 ephemeral key" X25519.keyLen exchange.length)) : Keying Unit) >>=
          fun _ => deriveX25519 k exchange
      else deriveX25519 k exchange) := rfl
  rw [hb, pure_bind, if_neg (not_not.2 h)]

theorem encryptKey_ecdh (c : WeierstrassCurve) (name name' : String) (q : CurvePoint)
    (e : Entropy) :
    encryptKey (.ecdh c name) ⟨name', .point c q⟩ e =
      (deriveEcdh c (drawScalar c e).1.1 q >>= fun _ =>
        pure (c.encode (c.publicPoint (drawScalar c e).1.1), (drawScalar c e).2)) := by
  have h : PublicKey.point ⟨name', .point c q⟩ c name = .ok q := if_pos rfl
  simp only [encryptKey, h]
  rfl

theorem decryptKey_ecdh {c : WeierstrassCurve} (name name' : String) (k : Nat) {q : CurvePoint}
    {exchange : Bytes} (h : c.decode? exchange = some q) :
    decryptKey (.ecdh c name) exchange ⟨name', .scalar c k⟩ = deriveEcdh c k q := by
  have hs : PrivateKey.scalar ⟨name', .scalar c k⟩ c name = .ok k := if_pos rfl
  simp only [decryptKey, hs]
  rw [h]
  rfl

/-- **Both sides fill the same key material.** -/
theorem run_decryptKey (hx : x.IsStandard) {e e₁ e₂ : Entropy} {m material : KeyMaterial}
    {exchange : Bytes}
    (h : (x.encryptKey (x.handles e).1 e₁).run.run m = (.ok (exchange, e₂), material)) :
    (x.decryptKey exchange (x.handles e).2).run.run m = (.ok (), material) := by
  cases hx with
  | x25519 =>
    rw [handles, encryptKey_x25519] at h
    obtain ⟨⟨⟩, m₂, hd, h⟩ := Keying.bind_ok h
    cases h
    rw [handles, decryptKey_x25519 _ _ (X25519.length_publicKey _), deriveX25519,
      ← X25519.multiply_comm]
    exact hd
  | @ecdh c hc name =>
    have hc := WeierstrassCurve.valid_of_mem hc
    have hk := (drawScalar c e₁).1.2
    rw [handles, encryptKey_ecdh] at h
    obtain ⟨⟨⟩, m₂, hd, h⟩ := Keying.bind_ok h
    cases h
    rw [handles, decryptKey_ecdh _ _ _ (hc.decode?_encode_publicPoint hk), deriveEcdh,
      ← hc.multiply_comm]
    exact hd

end

end KeyExchange

/-! ## Sessions -/

namespace Registry
variable {M : Modes} {r : Registry M}

section
variable {pkAlgo : String} {x : KeyExchange} (hx : r.keyExchange pkAlgo = .ok x)
include hx

theorem generateKeyPair_eq (e : Entropy) : r.generateKeyPair pkAlgo e = .ok (x.generate e) := by
  rw [generateKeyPair, hx]
  rfl

theorem loadPublic_eq (bs : Bytes) : r.loadPublic pkAlgo bs = x.loadPublic bs := by
  rw [Registry.loadPublic, hx]
  rfl

theorem loadPrivate_eq (bs : Bytes) : r.loadPrivate pkAlgo bs = x.loadPrivate bs := by
  rw [Registry.loadPrivate, hx]
  rfl

end

/-- With a point of the curve an encryption fails only if the cipher refuses its key material. -/
theorem startEncryption_ecdh {pkAlgo name : String} {c : WeierstrassCurve} {keyName : String}
    {d : CipherDriver M} (hx : r.keyExchange pkAlgo = .ok (.ecdh c keyName))
    (hd : r.cipher name = .ok d) (e : Entropy) (algorithm : String) (q : CurvePoint) :
    let k := (KeyExchange.drawScalar c e).1.1
    let rest := (KeyExchange.drawScalar c e).2
    r.startEncryption e pkAlgo name ⟨algorithm, .point c q⟩ =
      (d.instantiate (KeyStretch.deriveWhitened (c.encode (c.multiply k q)) d.material)
        .encrypt).map fun keyed => ⟨⟨c.encode (c.publicPoint k), pkAlgo, name⟩, keyed, rest⟩ := by
  simp only [startEncryption, hd, hx, bind, Except.bind, KeyExchange.encryptKey_ecdh]
  show (d.instantiate _ .encrypt).bind _ = _
  cases d.instantiate _ .encrypt <;> rfl

/-- A decryption keys its cipher with the material that the key exchange fills. -/
theorem startDecryption_eq {ring : KeyRing} {p : Preamble} {d : CipherDriver M} {x : KeyExchange}
    {exchange : Bytes} {key : PrivateKey} {material : KeyMaterial}
    (hd : r.cipher p.encoding = .ok d) (hx : r.keyExchange p.pkAlgo = .ok x)
    (hr : ring.find p.exchange p.pkAlgo = .ok (exchange, key))
    (h : (x.decryptKey exchange key).run.run d.material = (.ok (), material)) :
    r.startDecryption ring p = (d.instantiate material .decrypt).map fun k =>
      ⟨k, [.decryptionStarted p.pkAlgo p.encoding k.family]⟩ := by
  simp only [startDecryption, hd, hx, hr, bind, Except.bind, h]
  cases d.instantiate material .decrypt <;> rfl

/-- **Both sides of a session key their ciphers alike.** A fresh pair of keys is read back. A
session that begins with the public key names the two algorithms, and with the private key, found
for the exchange value or for one that a key ring puts it in the place of, the same driver is given
the same key material in the other direction. -/
theorem sides_agree {pkAlgo name : String} {x : KeyExchange} {d : CipherDriver M}
    (hx : r.keyExchange pkAlgo = .ok x) (hs : x.IsStandard) (hd : r.cipher name = .ok d)
    (e e₁ : Entropy) :
    ∃ keys rest pub priv, r.generateKeyPair pkAlgo e = .ok (keys, rest) ∧
      r.loadPublic pkAlgo keys.publicKey = .ok pub ∧
      r.loadPrivate pkAlgo keys.privateKey = .ok priv ∧
      ∀ session, r.startEncryption e₁ pkAlgo name pub = .ok session →
        session.preamble.pkAlgo = pkAlgo ∧ session.preamble.encoding = name ∧
        ∃ material,
          (x.encryptKey pub e₁).run.run d.material =
            (.ok (session.preamble.exchange, session.entropy), material) ∧
          d.instantiate material .encrypt = .ok session.cipher ∧
          ∀ (ring : KeyRing) (received : Bytes),
            ring.find received pkAlgo = .ok (session.preamble.exchange, priv) →
            (x.decryptKey session.preamble.exchange priv).run.run d.material = (.ok (), material) ∧
            r.startDecryption ring { session.preamble with exchange := received } =
              (d.instantiate material .decrypt).map fun k =>
                ⟨k, [.decryptionStarted pkAlgo name k.family]⟩ := by
  obtain ⟨hpub, hpriv⟩ := KeyExchange.load_generate hs e
  refine ⟨(x.generate e).1, (x.generate e).2, (x.handles e).1, (x.handles e).2,
    generateKeyPair_eq hx e, (loadPublic_eq hx _).trans hpub, (loadPrivate_eq hx _).trans hpriv, ?_⟩
  intro session h
  obtain ⟨d', x', material, hd', hx', hrun, hk, rfl, rfl⟩ := startEncryption_ok h
  obtain rfl := Except.ok.inj (hd.symm.trans hd')
  obtain rfl := Except.ok.inj (hx.symm.trans hx')
  refine ⟨rfl, rfl, material, hrun, hk, ?_⟩
  intro ring received hring
  have hrun' := KeyExchange.run_decryptKey hs hrun
  exact ⟨hrun', @startDecryption_eq _ _ ring { session.preamble with exchange := received } _ _ _
    _ _ hd hx hring hrun'⟩

/-- A session over P-256 in counter mode, and a key ring that knows it by another value. -/
theorem sides_agree_ctr :
    ∃ keys rest pub priv session found,
      standard.generateKeyPair "fips_p256" (.scripted #[1]) = .ok (keys, rest) ∧
      standard.loadPublic "fips_p256" keys.publicKey = .ok pub ∧
      standard.loadPrivate "fips_p256" keys.privateKey = .ok priv ∧
      standard.startEncryption (.scripted #[2]) "fips_p256" "aes-128/ctr" pub = .ok session ∧
      standard.startDecryption (.translating [([3], session.preamble.exchange)] priv)
        { session.preamble with exchange := [3] } = .ok found ∧
      found.cipher = session.cipher := by
  have hx : standard.keyExchange "fips_p256" = .ok (.ecdh .p256 "fips_p256") := by
    rw [keyExchange_eq_ok, keyExchange_standard]
    rfl
  have hs : (KeyExchange.ecdh .p256 "fips_p256").IsStandard := .ecdh (by simp) _
  obtain ⟨keys, rest, pub, priv, hg, hpub, hpriv, h⟩ :=
    sides_agree hx hs cipher_ctr (.scripted #[1]) (.scripted #[2])
  obtain ⟨session, hse⟩ : ∃ session, standard.startEncryption (.scripted #[2]) "fips_p256"
      "aes-128/ctr" pub = .ok session := by
    have hkeys : (KeyExchange.generate _ _).1 = keys :=
      congrArg Prod.fst (Except.ok.inj ((generateKeyPair_eq hx _).symm.trans hg))
    rw [loadPublic_eq hx, ← hkeys, (KeyExchange.load_generate hs _).1, Except.ok.injEq] at hpub
    have hl (secret : Bytes) : _ = 16 ∧ _ = 16 :=
      KeyStretch.length_deriveWhitened secret (CipherDriver.ctr 16).material
    rw [← hpub, KeyExchange.handles]
    dsimp only
    rw [startEncryption_ecdh hx cipher_ctr,
      show (CipherDriver.ctr 16).instantiate _ .encrypt = _ from
        CipherDriver.instantiate_ofLengths (hl _) .encrypt]
    exact ⟨_, rfl⟩
  obtain ⟨-, -, material, -, hk, hring⟩ := h session hse
  have hdec := (hring (.translating [([3], session.preamble.exchange)] priv) [3] rfl).2
  have hsame : (CipherDriver.ctr 16).instantiate material .decrypt = .ok session.cipher := hk
  rw [hsame] at hdec
  exact ⟨keys, rest, pub, priv, session, _, hg, hpub, hpriv, hse, hdec, rfl⟩

end Registry

end SealedStream
