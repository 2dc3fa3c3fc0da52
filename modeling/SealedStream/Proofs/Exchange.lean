import Mathlib
import SealedStream.Proofs.Agreement
import SealedStream.Proofs.Curve.Encodings
/-!
# How key exchanges fail

What a key exchange does with any handle, any octets and any key material.

* `KeyExchange.HoldsPrivate` and `KeyExchange.HoldsPublic` are the objects of an exchange, and
  `KeyExchange.Tells` the octets that tell a public one. `KeyExchange.Shares` is the secret that a
  private object and a public one make.
* `KeyExchange.Encrypts` and `KeyExchange.Decrypts` say how the two sides end: in one of the ways
  that they list, and with the key material as it was if they fail.
* `encrypts_iff` and `decrypts_iff` say that both sides end in these ways and in no others.
* `keying_ends` puts this together for the standard exchanges.
-/
namespace SealedStream.KeyExchange

/-! ## Keys and secrets -/

/-- The private objects of an exchange. -/
inductive HoldsPrivate : KeyExchange → PrivateObject → Prop where
  | x25519 (k : Bytes) : HoldsPrivate .x25519 (.x25519 k)
  | ecdh (c : WeierstrassCurve) (name : String) (k : Nat) :
    HoldsPrivate (.ecdh c name) (.scalar c k)

/-- The public objects of an exchange. -/
inductive HoldsPublic : KeyExchange → PublicObject → Prop where
  | x25519 (u : Bytes) : HoldsPublic .x25519 (.x25519 u)
  | ecdh (c : WeierstrassCurve) (name : String) (q : CurvePoint) :
    HoldsPublic (.ecdh c name) (.point c q)

/-- The octets that tell a public object: any of the right length, or an encoding of a point. -/
inductive Tells : KeyExchange → Bytes → PublicObject → Prop where
  | x25519 {bs : Bytes} (h : bs.length = 32) : Tells .x25519 bs (.x25519 bs)
  | ecdh {c : WeierstrassCurve} {name : String} {bs : Bytes} {q : CurvePoint}
    (h : c.Encodes q bs) : Tells (.ecdh c name) bs (.point c q)

/-- The secret that a private object and a public one make. -/
inductive Shares : KeyExchange → PrivateObject → PublicObject → Bytes → Prop where
  | x25519 (k u : Bytes) : Shares .x25519 (.x25519 k) (.x25519 u) (X25519.multiply k u)
  | ecdh (c : WeierstrassCurve) (name : String) (k : Nat) (q : CurvePoint) :
    Shares (.ecdh c name) (.scalar c k) (.point c q) (c.encode (c.multiply k q))

/-- A secret that an exchange refuses. -/
def Refuses : KeyExchange → Bytes → Prop
  | x25519, secret => secret = Bytes.zeros 32
  | ecdh .., _ => False

/-- Key material that is filled from a secret. -/
def fill : KeyExchange → Bytes → KeyMaterial → KeyMaterial
  | x25519 => KeyStretch.derive
  | ecdh .. => KeyStretch.deriveWhitened

def refusal : SuiteError := .keyExchangeFailed "low-order curve25519 point"

/-- The failure for octets that tell no public object. -/
def malformed (exchange : Bytes) : KeyExchange → SuiteError
  | x25519 => .malformedEncryptedKey (wrongLength "curve25519 ephemeral key" 32 exchange.length)
  | ecdh _ name => .malformedEncryptedKey ("invalid " ++ name ++ " ephemeral point")

section
variable {x : KeyExchange} {o : PrivateObject} {peer : PublicObject} {bs secret : Bytes}

theorem Tells.holdsPublic (h : x.Tells bs peer) : x.HoldsPublic peer := by
  cases h with
  | x25519 h => exact .x25519 bs
  | ecdh h => exact .ecdh _ _ _

theorem exists_shares (ho : x.HoldsPrivate o) (hp : x.HoldsPublic peer) :
    ∃ secret, x.Shares o peer secret := by
  cases ho with
  | x25519 k =>
    cases hp with
    | x25519 u => exact ⟨_, .x25519 k u⟩
  | ecdh c name k =>
    cases hp with
    | ecdh _ _ q => exact ⟨_, .ecdh c name k q⟩

theorem holdsPrivate_handles (x : KeyExchange) (e : Entropy) :
    x.HoldsPrivate (x.handles e).2.object := by
  cases x with
  | x25519 => exact .x25519 _
  | ecdh c name => exact .ecdh c name _

end

/-! ## The ends of an exchange -/

/-- The ends of an encryption: the handle is one of another exchange, the secret is refused, or the
key material is filled. -/
inductive Encrypts (x : KeyExchange) (key : PublicKey) (e : Entropy) (m : KeyMaterial) :
    Except SuiteError (Bytes × Entropy) × KeyMaterial → Prop where
  | foreign (h : ¬ x.HoldsPublic key.object) :
    Encrypts x key e m (.error (.foreignKey "public" x.keyName), m)
  | refused {secret : Bytes} (hs : x.Shares (x.handles e).2.object key.object secret)
    (hr : x.Refuses secret) : Encrypts x key e m (.error refusal, m)
  | filled {secret : Bytes} (hs : x.Shares (x.handles e).2.object key.object secret)
    (hr : ¬ x.Refuses secret) :
    Encrypts x key e m (.ok ((x.generate e).1.publicKey, (x.generate e).2), x.fill secret m)

/-- The ends of a decryption: the handle is one of another exchange, the octets tell no public
object, the secret is refused, or the key material is filled. -/
inductive Decrypts (x : KeyExchange) (exchange : Bytes) (key : PrivateKey) (m : KeyMaterial) :
    Except SuiteError Unit × KeyMaterial → Prop where
  | foreign (h : ¬ x.HoldsPrivate key.object) :
    Decrypts x exchange key m (.error (.foreignKey "private" x.keyName), m)
  | malformed (hk : x.HoldsPrivate key.object) (h : ∀ peer, ¬ x.Tells exchange peer) :
    Decrypts x exchange key m (.error (x.malformed exchange), m)
  | refused {peer : PublicObject} {secret : Bytes} (hp : x.Tells exchange peer)
    (hs : x.Shares key.object peer secret) (hr : x.Refuses secret) :
    Decrypts x exchange key m (.error refusal, m)
  | filled {peer : PublicObject} {secret : Bytes} (hp : x.Tells exchange peer)
    (hs : x.Shares key.object peer secret) (hr : ¬ x.Refuses secret) :
    Decrypts x exchange key m (.ok (), x.fill secret m)

/-! ## Runs -/

theorem run_deriveX25519_of_zero {k u : Bytes} {m : KeyMaterial}
    (h : X25519.multiply k u = Bytes.zeros 32) :
    (deriveX25519 k u).run.run m = (.error refusal, m) := by
  have hall : (Bytes.zeros 32).all (· == 0) = true := by decide
  rw [deriveX25519, h]
  simp only [hall]
  rfl

theorem run_deriveX25519_of_ne {k u : Bytes} {m : KeyMaterial}
    (h : X25519.multiply k u ≠ Bytes.zeros 32) :
    (deriveX25519 k u).run.run m = (.ok (), KeyStretch.derive (X25519.multiply k u) m) := by
  refine run_deriveX25519 (Bool.eq_false_iff.2 fun hall => h ?_)
  rw [Bytes.zeros, List.eq_replicate_iff]
  refine ⟨X25519.length_multiply k u, fun b hb => ?_⟩
  exact beq_iff_eq.1 (List.all_eq_true.1 hall b hb)

section
variable {x : KeyExchange} {m : KeyMaterial}

theorem run_encryptKey_foreign {key : PublicKey} (h : ¬ x.HoldsPublic key.object) (e : Entropy) :
    (x.encryptKey key e).run.run m = (.error (.foreignKey "public" x.keyName), m) := by
  obtain ⟨algorithm, object⟩ := key
  cases x with
  | x25519 =>
    cases object with
    | x25519 u => exact absurd (.x25519 u) h
    | point c q => rfl
    | number n => rfl
  | ecdh c name =>
    cases object with
    | x25519 u => rfl
    | point c' q =>
      have hne : c' ≠ c := by
        rintro rfl
        exact h (.ecdh _ _ q)
      have hp : PublicKey.point ⟨algorithm, .point c' q⟩ c name =
          .error (.foreignKey "public" name) := if_neg hne
      simp only [encryptKey, hp]
      rfl
    | number n => rfl

theorem run_decryptKey_foreign {key : PrivateKey} (h : ¬ x.HoldsPrivate key.object)
    (exchange : Bytes) :
    (x.decryptKey exchange key).run.run m = (.error (.foreignKey "private" x.keyName), m) := by
  obtain ⟨algorithm, object⟩ := key
  cases x with
  | x25519 =>
    cases object with
    | x25519 k => exact absurd (.x25519 k) h
    | scalar c k => rfl
    | number n => rfl
  | ecdh c name =>
    cases object with
    | x25519 k => rfl
    | scalar c' k =>
      have hne : c' ≠ c := by
        rintro rfl
        exact h (.ecdh _ _ k)
      have hs : PrivateKey.scalar ⟨algorithm, .scalar c' k⟩ c name =
          .error (.foreignKey "private" name) := if_neg hne
      simp only [decryptKey, hs]
      rfl
    | number n => rfl

theorem run_decryptKey_malformed (hx : x.IsStandard) {exchange : Bytes} {key : PrivateKey}
    (hk : x.HoldsPrivate key.object) (h : ∀ peer, ¬ x.Tells exchange peer) :
    (x.decryptKey exchange key).run.run m = (.error (x.malformed exchange), m) := by
  obtain ⟨algorithm, object⟩ := key
  cases hx with
  | x25519 =>
    cases hk with
    | x25519 k =>
      have hl : exchange.length ≠ X25519.keyLen := fun hl => h _ (.x25519 hl)
      have hk : PrivateKey.x25519 ⟨algorithm, .x25519 k⟩ (keyName .x25519) = .ok k := rfl
      simp only [decryptKey, hk, if_pos hl]
      rfl
  | @ecdh c hc name =>
    cases hk with
    | ecdh _ _ k =>
      have hnone : c.decode? exchange = none := by
        refine Option.eq_none_iff_forall_ne_some.2 fun q hq => h (.point c q) (.ecdh ?_)
        exact (WeierstrassCurve.Readable.of_mem hc).encodes_of_decode? hq
      have hs : PrivateKey.scalar ⟨algorithm, .scalar c k⟩ c name = .ok k := if_pos rfl
      simp only [decryptKey, hs]
      rw [hnone]
      rfl

/-- **An encryption** ends in the way that is listed. -/
theorem Encrypts.run {key : PublicKey} {e : Entropy}
    {r : Except SuiteError (Bytes × Entropy) × KeyMaterial} (h : Encrypts x key e m r) :
    (x.encryptKey key e).run.run m = r := by
  cases h with
  | foreign h => exact run_encryptKey_foreign h e
  | refused hs hr =>
    obtain ⟨algorithm, object⟩ := key
    cases x with
    | x25519 =>
      cases hs with
      | x25519 _ u => rw [encryptKey_x25519, Keying.run_bind, run_deriveX25519_of_zero hr]
    | ecdh c name => cases hr
  | filled hs hr =>
    obtain ⟨algorithm, object⟩ := key
    cases x with
    | x25519 =>
      cases hs with
      | x25519 _ u =>
        rw [encryptKey_x25519, Keying.run_bind, run_deriveX25519_of_ne hr]
        rfl
    | ecdh c name =>
      cases hs with
      | ecdh _ _ _ q =>
        rw [encryptKey_ecdh]
        rfl

/-- **A decryption** ends in the way that is listed. -/
theorem Decrypts.run (hx : x.IsStandard) {exchange : Bytes} {key : PrivateKey}
    {r : Except SuiteError Unit × KeyMaterial} (h : Decrypts x exchange key m r) :
    (x.decryptKey exchange key).run.run m = r := by
  cases h with
  | foreign h => exact run_decryptKey_foreign h exchange
  | malformed hk h => exact run_decryptKey_malformed hx hk h
  | refused hp hs hr =>
    obtain ⟨algorithm, object⟩ := key
    cases hx with
    | x25519 =>
      cases hp with
      | x25519 hl =>
        cases hs with
        | x25519 k _ => rw [decryptKey_x25519 _ _ hl, run_deriveX25519_of_zero hr]
    | ecdh hc name => cases hr
  | filled hp hs hr =>
    obtain ⟨algorithm, object⟩ := key
    cases hx with
    | x25519 =>
      cases hp with
      | x25519 hl =>
        cases hs with
        | x25519 k _ =>
          rw [decryptKey_x25519 _ _ hl, run_deriveX25519_of_ne hr]
          rfl
    | @ecdh c hc name =>
      cases hp with
      | ecdh he =>
        cases hs with
        | ecdh _ _ k q =>
          have hd := (WeierstrassCurve.Readable.of_mem hc).decode?_of_encodes he
          rw [decryptKey_ecdh _ _ _ hd]
          rfl

theorem encrypts_iff {key : PublicKey} {e : Entropy}
    {r : Except SuiteError (Bytes × Entropy) × KeyMaterial} :
    (x.encryptKey key e).run.run m = r ↔ Encrypts x key e m r := by
  refine ⟨?_, Encrypts.run⟩
  rintro rfl
  obtain ⟨r, hr⟩ : ∃ r, Encrypts x key e m r := by
    by_cases hk : x.HoldsPublic key.object
    · obtain ⟨secret, hs⟩ := exists_shares (x.holdsPrivate_handles e) hk
      by_cases hr : x.Refuses secret
      · exact ⟨_, .refused hs hr⟩
      · exact ⟨_, .filled hs hr⟩
    · exact ⟨_, .foreign hk⟩
  rwa [hr.run]

theorem decrypts_iff (hx : x.IsStandard) {exchange : Bytes} {key : PrivateKey}
    {r : Except SuiteError Unit × KeyMaterial} :
    (x.decryptKey exchange key).run.run m = r ↔ Decrypts x exchange key m r := by
  refine ⟨?_, Decrypts.run hx⟩
  rintro rfl
  obtain ⟨r, hr⟩ : ∃ r, Decrypts x exchange key m r := by
    by_cases hk : x.HoldsPrivate key.object
    · by_cases hp : ∃ peer, x.Tells exchange peer
      · obtain ⟨peer, hp⟩ := hp
        obtain ⟨secret, hs⟩ := exists_shares hk hp.holdsPublic
        by_cases hr : x.Refuses secret
        · exact ⟨_, .refused hp hs hr⟩
        · exact ⟨_, .filled hp hs hr⟩
      · exact ⟨_, .malformed hk (not_exists.1 hp)⟩
    · exact ⟨_, .foreign hk⟩
  rwa [hr.run hx]

/-! ## Reasons -/

/-- The reasons for the answer of a decryption, of which the first one that holds counts. -/
structure Reasons (x : KeyExchange) (exchange : Bytes) (key : PrivateKey)
    (answer : Except SuiteError Unit) : Prop where
  foreign : (∃ t, answer = .error (.invalidKeyObject t)) ↔ ¬ x.HoldsPrivate key.object
  malformed : (∃ t, answer = .error (.malformedEncryptedKey t)) ↔
    x.HoldsPrivate key.object ∧ ∀ peer, ¬ x.Tells exchange peer
  refused : (∃ t, answer = .error (.keyExchangeFailed t)) ↔
    ∃ peer secret, x.Tells exchange peer ∧ x.Shares key.object peer secret ∧ x.Refuses secret
  filled : answer = .ok () ↔
    ∃ peer secret, x.Tells exchange peer ∧ x.Shares key.object peer secret ∧ ¬ x.Refuses secret

theorem exists_malformed_eq (x : KeyExchange) (exchange : Bytes) :
    ∃ t, x.malformed exchange = .malformedEncryptedKey t := by
  cases x <;> exact ⟨_, rfl⟩

theorem Decrypts.reasons (hx : x.IsStandard) {exchange : Bytes} {key : PrivateKey}
    {r : Except SuiteError Unit × KeyMaterial} (h : Decrypts x exchange key m r) :
    Reasons x exchange key r.1 := by
  obtain ⟨t, ht⟩ := x.exists_malformed_eq exchange
  -- whatever holds makes a run of its own, and there is only one
  have heq {r' : Except SuiteError Unit × KeyMaterial} (h' : Decrypts x exchange key m r') :
      r.1 = r'.1 := congrArg Prod.fst ((h.run hx).symm.trans (h'.run hx))
  constructor <;> constructor
  · rintro ⟨t', hr⟩
    cases h with
    | foreign hf => exact hf
    | malformed => simp [ht] at hr
    | refused => cases hr
    | filled => cases hr
  · exact fun hf => ⟨_, heq (.foreign hf)⟩
  · rintro ⟨t', hr⟩
    cases h with
    | foreign => cases hr
    | malformed hk hn => exact ⟨hk, hn⟩
    | refused => cases hr
    | filled => cases hr
  · rintro ⟨hk, hn⟩
    exact ⟨t, (heq (.malformed hk hn)).trans (congrArg Except.error ht)⟩
  · rintro ⟨t', hr⟩
    cases h with
    | foreign => cases hr
    | malformed => simp [ht] at hr
    | refused hp hs hz => exact ⟨_, _, hp, hs, hz⟩
    | filled => cases hr
  · rintro ⟨peer, secret, hp, hs, hz⟩
    exact ⟨_, heq (.refused hp hs hz)⟩
  · intro hr
    cases h with
    | foreign => cases hr
    | malformed => cases hr
    | refused => cases hr
    | filled hp hs hz => exact ⟨_, _, hp, hs, hz⟩
  · rintro ⟨peer, secret, hp, hs, hz⟩
    exact heq (.filled hp hs hz)

/-- An encryption that fails leaves the key material as it was. -/
theorem eq_of_encryptKey_error {key : PublicKey} {e : Entropy} {m' : KeyMaterial} {err : SuiteError}
    (h : (x.encryptKey key e).run.run m = (.error err, m')) : m' = m := by
  cases encrypts_iff.1 h <;> rfl

/-- A decryption that fails leaves the key material as it was. -/
theorem eq_of_decryptKey_error (hx : x.IsStandard) {exchange : Bytes} {key : PrivateKey}
    {m' : KeyMaterial} {err : SuiteError}
    (h : (x.decryptKey exchange key).run.run m = (.error err, m')) : m' = m := by
  cases (decrypts_iff hx).1 h <;> rfl

/-! ## Handles -/

theorem loadPublic_eq_ok_iff (hx : x.IsStandard) {bs : Bytes} {key : PublicKey} :
    x.loadPublic bs = .ok key ↔ ∃ peer, x.Tells bs peer ∧ key = ⟨x.keyName, peer⟩ := by
  constructor
  · intro h
    cases hx with
    | x25519 =>
      rw [loadPublic] at h
      split_ifs at h with hl
      cases h
      exact ⟨_, .x25519 hl, rfl⟩
    | @ecdh c hc name =>
      rw [loadPublic] at h
      rcases hd : c.decode? bs with _ | q <;> rw [hd] at h
      · cases h
      · cases h
        exact ⟨_, .ecdh ((WeierstrassCurve.Readable.of_mem hc).encodes_of_decode? hd), rfl⟩
  · rintro ⟨peer, ht, rfl⟩
    cases hx with
    | x25519 =>
      cases ht with
      | x25519 hl => exact if_pos hl
    | ecdh hc name =>
      cases ht with
      | ecdh he =>
        rw [loadPublic, (WeierstrassCurve.Readable.of_mem hc).decode?_of_encodes he]
        rfl

theorem holdsPrivate_of_loadPrivate {bs : Bytes} {key : PrivateKey}
    (h : x.loadPrivate bs = .ok key) : x.HoldsPrivate key.object := by
  cases x with
  | x25519 =>
    rw [loadPrivate] at h
    split_ifs at h
    cases h
    exact .x25519 bs
  | ecdh c name =>
    rw [loadPrivate] at h
    split_ifs at h
    cases h
    exact .ecdh c name _

end

/-! ## Both sides -/

/-- **How a key exchange ends.** Take one over a standard curve, any handle, any octets and any key
material. Both sides end in one of the ways that are listed, and a failure leaves the key material
as it was. A decryption fails for a handle of another exchange, whatever the octets are; otherwise
for octets that tell no public key, and otherwise for a secret that is zero, if the exchange refuses
that. The handles that an exchange loads are its own, and public ones hold what the octets tell. For
a curve over a prime field it makes no difference which octets of a point are sent. These points
are those of the group but for zero, and the secret is made of the multiple there. -/
theorem keying_ends {x : KeyExchange} (hx : x.IsStandard) :
    (∀ key e m r, (x.encryptKey key e).run.run m = r ↔ Encrypts x key e m r) ∧
    (∀ exchange key m r, (x.decryptKey exchange key).run.run m = r ↔
      Decrypts x exchange key m r) ∧
    (∀ key e m err m', (x.encryptKey key e).run.run m = (.error err, m') → m' = m) ∧
    (∀ exchange key m err m', (x.decryptKey exchange key).run.run m = (.error err, m') → m' = m) ∧
    (∀ exchange key m, Reasons x exchange key ((x.decryptKey exchange key).run.run m).1) ∧
    (∀ bs key, x.loadPublic bs = .ok key ↔ ∃ peer, x.Tells bs peer ∧ key = ⟨x.keyName, peer⟩) ∧
    (∀ bs key, x.loadPrivate bs = .ok key → x.HoldsPrivate key.object) ∧
    ∀ c name, x = .ecdh c name →
      (∀ q bs bs', c.Encodes q bs → c.Encodes q bs' →
        ∀ key m, (x.decryptKey bs key).run.run m = (x.decryptKey bs' key).run.run m) ∧
      ∃ _ : Fact c.p.Prime, ∀ q, (∃ bs, c.Encodes q bs) ↔
        ∃ Q : (c.toAffine (ZMod c.p)).Point, Q ≠ 0 ∧ WeierstrassCurve.coordinates Q = q ∧
          ∀ k, c.multiply k q = WeierstrassCurve.coordinates (k • Q) := by
  refine ⟨fun key e m r => encrypts_iff, fun exchange key m r => decrypts_iff hx,
    fun key e m err m' => eq_of_encryptKey_error, fun exchange key m err m' =>
    eq_of_decryptKey_error hx, fun exchange key m => ((decrypts_iff hx).1 rfl).reasons hx,
    fun bs key => loadPublic_eq_ok_iff hx, fun bs key => holdsPrivate_of_loadPrivate, ?_⟩
  rintro c name rfl
  cases hx with
  | ecdh hc _ =>
    have hr := WeierstrassCurve.Readable.of_mem hc
    have hp := Fact.mk hr.prime
    refine ⟨?_, hp, fun q => hr.exists_encodes_iff.trans ⟨?_, ?_⟩⟩
    · intro q bs bs' h h' key m
      simp only [decryptKey, hr.decode?_of_encodes h, hr.decode?_of_encodes h']
    · rintro ⟨Q, hQ, rfl⟩
      exact ⟨Q, hQ, rfl, fun k => WeierstrassCurve.multiply_coordinates hr.two_lt k Q⟩
    · rintro ⟨Q, hQ, hq, -⟩
      exact ⟨Q, hQ, hq⟩

/-- Two encodings of one point of P-256, octets that are none, and a handle of another exchange. -/
theorem keying_ends_p256 :
    let key : PrivateKey := ⟨"fips_p256", .scalar .p256 1⟩
    let m : KeyMaterial := .zeroed 16 16
    (decryptKey (.ecdh .p256 "fips_p256") (WeierstrassCurve.p256.encode WeierstrassCurve.p256.base)
        key).run.run m =
      (decryptKey (.ecdh .p256 "fips_p256")
        (3 :: Bytes.ofNatBE 32 WeierstrassCurve.p256.baseX) key).run.run m ∧
    (decryptKey (.ecdh .p256 "fips_p256") [4] key).run.run m =
      (.error (.malformedEncryptedKey "invalid fips_p256 ephemeral point"), m) ∧
    (decryptKey (.ecdh .p256 "fips_p256") [4] ⟨"curve25519", .number 7⟩).run.run m =
      (.error (.invalidKeyObject "private key is not a fips_p256 key"), m) := by
  intro key m
  obtain ⟨-, hdec, -, -, -, -, -, hpoints⟩ :=
    @keying_ends (.ecdh .p256 "fips_p256") (.ecdh (by simp) _)
  have hbase : WeierstrassCurve.p256.Has WeierstrassCurve.p256.baseX
      WeierstrassCurve.p256.baseY := by
    constructor <;> decide +kernel
  have hodd : UInt8.ofNat (2 + WeierstrassCurve.p256.baseY % 2) = 3 := by decide +kernel
  have hshort := WeierstrassCurve.Encodes.compressed hbase
  rw [hodd] at hshort
  refine ⟨?_, ?_, ?_⟩
  · exact (hpoints _ _ rfl).1 _ _ _ (.uncompressed hbase) hshort key m
  · refine (hdec [4] key m _).2 (.malformed (.ecdh _ _ 1) fun peer h => ?_)
    rcases h with _ | h
    exact absurd h.width_lt_length (by decide)
  · exact (hdec [4] _ m _).2 (.foreign fun h => by cases h)

end SealedStream.KeyExchange
