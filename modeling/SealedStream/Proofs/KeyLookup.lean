import Mathlib
import SealedStream.Proofs.Agreement
/-!
# Keys by the names they were loaded under

A registry knows a key exchange by the name it was registered under, and a key exchange marks the
keys it reads with a name of its own (`KeyExchange.keyName`). A preamble gives the first name, a
ring of keys for algorithms goes by the second.

* `Registry.registerAll` makes registrations in turn, `Registry.keyExchange_registerAll` says which
  key exchanges are found after them.
* `AlgorithmKeys.find_ofKeys` says which key a ring finds: the last one that is marked with the
  name.
* `Registry.FindsByName`: the keys that were loaded through a registry are found by the names they
  were loaded under.
* `Registry.findsByName_iff`: this is so of the registries all of whose key exchanges have their own
  names, and so of `Registry.standard`. `Registry.found_by_name` says it of registrations, and that
  such a ring keys the cipher for what was encrypted for a key in it.
-/
namespace SealedStream

namespace Registry

/-! ## Registrations -/

variable {M : Modes}

/-- Make registrations in turn, up to the first that is refused. -/
def registerAll (r : Registry M) (rs : List (Registration M)) : Except SuiteError (Registry M) :=
  rs.foldlM register r

section
variable {r r' : Registry M}

theorem register_cipher_ok {name : String} {d : CipherDriver M}
    (h : r.register (.cipher name d) = .ok r') :
    r.ciphers.get? name = none ∧ r' = { r with ciphers := r.ciphers.insert name d } := by
  rw [register, attempt_cipher, NameTable.contains] at h
  cases hn : r.ciphers.get? name with
  | some d' => simp [hn] at h
  | none => simpa [hn, eq_comm] using h

theorem register_keyExchange_ok {name : String} {x : KeyExchange}
    (h : r.register (.keyExchange name x) = .ok r') :
    r.keyExchanges.get? name = none ∧
      r' = { r with keyExchanges := r.keyExchanges.insert name x } := by
  rw [register, attempt_keyExchange, NameTable.contains] at h
  cases hn : r.keyExchanges.get? name with
  | some x' => simp [hn] at h
  | none => simpa [hn, eq_comm] using h

/-- A registration adds what it names and takes nothing away. -/
theorem keyExchange_register {a : Registration M} (h : r.register a = .ok r') (name : String)
    (x : KeyExchange) :
    r'.keyExchange name = .ok x ↔ r.keyExchange name = .ok x ∨ a = .keyExchange name x := by
  cases a with
  | cipher n d =>
    obtain ⟨-, rfl⟩ := register_cipher_ok h
    simp [keyExchange_eq_ok]
  | keyExchange n y =>
    obtain ⟨hn, rfl⟩ := register_keyExchange_ok h
    rw [keyExchange_eq_ok, keyExchange_eq_ok, NameTable.get?_insert]
    by_cases hname : name = n
    · subst hname
      simp [hn]
    · simp [hname, Ne.symm hname]

/-- What is found after a row of registrations was there before or is one of them. -/
theorem keyExchange_registerAll {rs : List (Registration M)} (h : r.registerAll rs = .ok r')
    (name : String) (x : KeyExchange) :
    r'.keyExchange name = .ok x ↔
      r.keyExchange name = .ok x ∨ Registration.keyExchange name x ∈ rs := by
  induction rs generalizing r with
  | nil =>
    cases h
    simp
  | cons a rs ih =>
    rw [registerAll, List.foldlM_cons] at h
    cases ha : r.register a with
    | error err => rw [ha] at h; cases h
    | ok r₁ =>
      rw [ha] at h
      rw [ih h, keyExchange_register ha, List.mem_cons, or_assoc, @eq_comm _ a]

end

end Registry

/-! ## Rings -/

/-- The last value under a name. -/
def lastUnder {α : Type} (name : String) (entries : List (String × α)) : Option α :=
  entries.reverse.lookup name

namespace AlgorithmKeys

/-- Keys put in one after the other. -/
def ofKeys (ks : List PrivateKey) : AlgorithmKeys := ks.foldl insert {}

/-- What a ring answers if it has the given key for an algorithm, or none. -/
def answer (exchange : Bytes) (pkAlgo : String) :
    Option PrivateKey → Except SuiteError (Bytes × PrivateKey)
  | some k => .ok (exchange, k)
  | none => .error (.noPrivateKey pkAlgo)

/-- Keys with the names they are marked with. -/
def marked (ks : List PrivateKey) : List (String × PrivateKey) := ks.map fun k => (k.algorithm, k)

theorem table_ofKeys (ks : List PrivateKey) : (ofKeys ks).table = .ofList (marked ks) := by
  have hfold (t : AlgorithmKeys) : (ks.foldl insert t).table =
      (marked ks).foldl (fun t e => t.insert e.1 e.2) t.table := by
    induction ks generalizing t with
    | nil => rfl
    | cons k ks ih => exact ih (t.insert k)
  exact hfold {}

/-- A ring finds the last key that is marked with a name. -/
theorem find_ofKeys (ks : List PrivateKey) (exchange : Bytes) (pkAlgo : String) :
    (ofKeys ks).ring.find exchange pkAlgo =
      answer exchange pkAlgo (lastUnder pkAlgo (marked ks)) := by
  rw [lastUnder, ← NameTable.get?_ofList, ← table_ofKeys]
  simp only [ring, key]
  cases (ofKeys ks).table.get? pkAlgo <;> rfl

theorem answer_inj {exchange : Bytes} {pkAlgo : String} {k k' : Option PrivateKey} :
    answer exchange pkAlgo k = answer exchange pkAlgo k' ↔ k = k' := by
  cases k <;> cases k' <;> simp [answer]

end AlgorithmKeys

/-! ## Marks -/

namespace KeyExchange

/-- There are keys to read. -/
def Loadable (x : KeyExchange) : Prop := ∃ bs k, x.loadPrivate bs = .ok k

theorem algorithm_loadPrivate {x : KeyExchange} {bs : Bytes} {k : PrivateKey}
    (h : x.loadPrivate bs = .ok k) : k.algorithm = x.keyName := by
  cases x with
  | x25519 =>
    rw [loadPrivate] at h
    split at h <;> cases h
    rfl
  | ecdh c name =>
    rw [loadPrivate] at h
    split at h
    · cases h
    · split at h <;> cases h
      rfl

theorem IsStandard.loadable {x : KeyExchange} (hx : x.IsStandard) : x.Loadable :=
  ⟨_, _, (load_generate hx (.scripted #[])).2⟩

end KeyExchange

/-! ## Loaded keys -/

namespace Registry
variable {M : Modes} {r : Registry M}

/-- Each key was loaded under the name that it stands with. -/
def Loaded (r : Registry M) (loads : List (String × PrivateKey)) : Prop :=
  ∀ l ∈ loads, ∃ bs, r.loadPrivate l.1 bs = .ok l.2

theorem loaded_nil : r.Loaded [] := by simp [Loaded]

theorem loaded_cons {name : String} {k : PrivateKey} {loads : List (String × PrivateKey)} :
    r.Loaded ((name, k) :: loads) ↔ (∃ bs, r.loadPrivate name bs = .ok k) ∧ r.Loaded loads :=
  List.forall_mem_cons

/-- The ring of loaded keys. -/
def ringOf (loads : List (String × PrivateKey)) : KeyRing :=
  (AlgorithmKeys.ofKeys (loads.map Prod.snd)).ring

/-- Of the keys in a ring, the one last loaded under a name is found by that name. -/
def FindsByName (r : Registry M) : Prop :=
  ∀ loads, r.Loaded loads → ∀ exchange name,
    (ringOf loads).find exchange name = AlgorithmKeys.answer exchange name (lastUnder name loads)

/-- A key is marked by the key exchange with the name it was loaded under. -/
theorem algorithm_loadPrivate {name : String} {bs : Bytes} {k : PrivateKey}
    (h : r.loadPrivate name bs = .ok k) :
    ∃ x, r.keyExchange name = .ok x ∧ x.loadPrivate bs = .ok k ∧ k.algorithm = x.keyName := by
  cases hx : r.keyExchange name with
  | error err => simp [Registry.loadPrivate, hx, bind, Except.bind] at h
  | ok x =>
    rw [loadPrivate_eq hx] at h
    exact ⟨x, rfl, h, KeyExchange.algorithm_loadPrivate h⟩

/-- **Keys are found by the names they were loaded under if the key exchanges have their own
names.** -/
theorem findsByName_iff :
    r.FindsByName ↔ ∀ name x, r.keyExchange name = .ok x → x.Loadable → x.keyName = name := by
  constructor
  · rintro hr name x hx ⟨bs, k, hk⟩
    have hl : r.Loaded [(name, k)] :=
      loaded_cons.2 ⟨⟨bs, (loadPrivate_eq hx bs).trans hk⟩, loaded_nil⟩
    have hfind := hr _ hl [] name
    rw [ringOf, AlgorithmKeys.find_ofKeys, AlgorithmKeys.answer_inj] at hfind
    rw [← KeyExchange.algorithm_loadPrivate hk]
    by_contra hne
    simp [AlgorithmKeys.marked, lastUnder, List.lookup_cons, beq_eq_false_iff_ne.2 (Ne.symm hne)]
      at hfind
  · intro hr loads hl exchange name
    have hmark : ∀ l ∈ loads, (l.2.algorithm, l.2) = l := by
      intro l hm
      obtain ⟨bs, hbs⟩ := hl l hm
      obtain ⟨x, hx, hload, hk⟩ := algorithm_loadPrivate hbs
      rw [hk, hr l.1 x hx ⟨bs, l.2, hload⟩]
    have hmarked : AlgorithmKeys.marked (loads.map Prod.snd) = loads := by
      rw [AlgorithmKeys.marked, List.map_map]
      exact (List.map_congr_left hmark).trans (List.map_id loads)
    rw [ringOf, AlgorithmKeys.find_ofKeys, hmarked]

theorem findsByName_standard : standard.FindsByName := by
  have hall : ∀ e ∈ standardKeyExchanges, e.2.keyName = e.1 := by decide
  refine findsByName_iff.2 fun name x hx _ => ?_
  exact hall _ (NameTable.mem_of_get?_ofList (keyExchange_eq_ok.1 hx))

/-! ## Decryption -/

/-- A ring that finds the private key begins the decryption of what was encrypted for the public
one. -/
theorem startDecryption_fresh {pkAlgo name : String} {x : KeyExchange} {d : CipherDriver M}
    (hx : r.keyExchange pkAlgo = .ok x) (hs : x.IsStandard) (hd : r.cipher name = .ok d)
    {e e₁ rest : Entropy} {keys : KeyPair} {pub : PublicKey} {priv : PrivateKey}
    {session : EncryptionSession M} (hg : r.generateKeyPair pkAlgo e = .ok (keys, rest))
    (hpub : r.loadPublic pkAlgo keys.publicKey = .ok pub)
    (hpriv : r.loadPrivate pkAlgo keys.privateKey = .ok priv)
    (hse : r.startEncryption e₁ pkAlgo name pub = .ok session) {ring : KeyRing}
    (hring : ring.find session.preamble.exchange pkAlgo = .ok (session.preamble.exchange, priv)) :
    ∃ material, d.instantiate material .encrypt = .ok session.cipher ∧
      r.startDecryption ring session.preamble = (d.instantiate material .decrypt).map fun k =>
        ⟨k, [.decryptionStarted pkAlgo name k.family]⟩ := by
  have hkeys : (x.generate e).1 = keys :=
    congrArg Prod.fst (Except.ok.inj ((generateKeyPair_eq hx e).symm.trans hg))
  obtain ⟨hpub', hpriv'⟩ := KeyExchange.load_generate hs e
  rw [hkeys] at hpub' hpriv'
  obtain rfl := Except.ok.inj (((loadPublic_eq hx _).trans hpub').symm.trans hpub)
  obtain rfl := Except.ok.inj (((loadPrivate_eq hx _).trans hpriv').symm.trans hpriv)
  obtain ⟨d', x', material, hd', hx', hrun, hk, rfl, rfl⟩ := startEncryption_ok hse
  obtain rfl := Except.ok.inj (hd.symm.trans hd')
  obtain rfl := Except.ok.inj (hx.symm.trans hx')
  exact ⟨material, hk, startDecryption_eq hd hx hring (KeyExchange.run_decryptKey hs hrun)⟩

end Registry

namespace CipherDriver

/-- Key material that is taken for encryption is taken for decryption. -/
def BothWays {M : Modes} (d : CipherDriver M) : Prop :=
  ∀ m k, d.instantiate m .encrypt = .ok k → ∃ k', d.instantiate m .decrypt = .ok k'

theorem bothWays_ofLengths {M : Modes} (keyLen ivLen : Nat)
    (build : KeyMaterial → Direction → KeyedCipher M) : (ofLengths keyLen ivLen build).BothWays := by
  intro m k h
  by_cases hm : m.key.length = keyLen ∧ m.iv.length = ivLen
  · exact ⟨build m .decrypt, if_pos hm⟩
  · cases (if_neg hm).symm.trans h

theorem bothWays_sealing (keyLen : Nat) (scheme : Bytes → SealScheme) :
    (sealing keyLen scheme).BothWays :=
  fun _ k h => ⟨k, h⟩

theorem bothWays_of_mem {x : String × CipherDriver .standard} (hx : x ∈ standardCiphers) :
    x.2.BothWays := by
  revert x
  simp only [standardCiphers, List.forall_mem_cons, cbc, cfb, ctr, ofb, gcm, bothWays_ofLengths,
    bothWays_sealing, List.not_mem_nil, false_implies, forall_true_iff, and_true]

end CipherDriver

namespace Registry
variable {M : Modes} {r : Registry M}

/-- **Which keys a ring finds, whatever was registered.** A ring finds the last key that is marked
with a name, and the mark of a key is the own name of the key exchange that it was loaded with. So
keys are found by the names they were loaded under exactly if each key exchange that can read a key
was registered under its own name. Then the holder of a private key that was loaded under the name
in a preamble keys the cipher as the other side did, unless a later key was loaded under that
name; so the decryption begins if the cipher takes in both directions what it takes in one, as all
standard ciphers do (`CipherDriver.bothWays_of_mem`). -/
theorem found_by_name {rs : List (Registration M)} (h : registerAll {} rs = .ok r) :
    (∀ loads, r.Loaded loads →
      (∀ l ∈ loads, ∃ x, Registration.keyExchange l.1 x ∈ rs ∧ l.2.algorithm = x.keyName) ∧
      ∀ exchange name, (ringOf loads).find exchange name = AlgorithmKeys.answer exchange name
        (lastUnder name (AlgorithmKeys.marked (loads.map Prod.snd)))) ∧
    (r.FindsByName ↔
      ∀ name x, Registration.keyExchange name x ∈ rs → x.Loadable → x.keyName = name) ∧
    (r.FindsByName → ∀ {pkAlgo name : String} {x : KeyExchange} {d : CipherDriver M},
      Registration.keyExchange pkAlgo x ∈ rs → x.IsStandard → r.cipher name = .ok d →
      ∀ {e e₁ rest : Entropy} {keys : KeyPair} {pub : PublicKey} {priv : PrivateKey}
        {session : EncryptionSession M},
        r.generateKeyPair pkAlgo e = .ok (keys, rest) →
        r.loadPublic pkAlgo keys.publicKey = .ok pub →
        r.loadPrivate pkAlgo keys.privateKey = .ok priv →
        r.startEncryption e₁ pkAlgo name pub = .ok session →
        ∀ loads, r.Loaded loads → lastUnder pkAlgo loads = some priv →
          ∃ material, d.instantiate material .encrypt = .ok session.cipher ∧
            r.startDecryption (ringOf loads) session.preamble =
              ((d.instantiate material .decrypt).map fun k =>
                ⟨k, [.decryptionStarted pkAlgo name k.family]⟩) ∧
            (d.BothWays →
              ∃ found, r.startDecryption (ringOf loads) session.preamble = .ok found)) := by
  have hreg (name : String) (x : KeyExchange) :
      r.keyExchange name = .ok x ↔ Registration.keyExchange name x ∈ rs :=
    (keyExchange_registerAll h name x).trans (or_iff_right (by rintro ⟨⟩))
  refine ⟨fun loads hl => ⟨fun l hm => ?_, fun exchange name => ?_⟩, ?_, ?_⟩
  · obtain ⟨bs, hbs⟩ := hl l hm
    obtain ⟨x, hx, -, hk⟩ := algorithm_loadPrivate hbs
    exact ⟨x, (hreg _ _).1 hx, hk⟩
  · exact AlgorithmKeys.find_ofKeys _ exchange name
  · simp only [findsByName_iff, hreg]
  · intro hr pkAlgo name x d hx hs hd e e₁ rest keys pub priv session hg hpub hpriv hse loads hl
      hlast
    have hfind : (ringOf loads).find session.preamble.exchange pkAlgo =
        .ok (session.preamble.exchange, priv) := by
      rw [hr loads hl, hlast]
      rfl
    obtain ⟨material, hk, hdec⟩ :=
      startDecryption_fresh ((hreg _ _).2 hx) hs hd hg hpub hpriv hse hfind
    refine ⟨material, hk, hdec, fun hboth => ?_⟩
    obtain ⟨k, hk'⟩ := hboth _ _ hk
    exact ⟨_, hdec.trans (congrArg _ hk')⟩

/-- With fresh keys of a standard curve a session in counter mode begins. -/
theorem exists_session_ctr {r : Registry .standard} {pkAlgo name keyName : String}
    {c : WeierstrassCurve} (hx : r.keyExchange pkAlgo = .ok (.ecdh c keyName))
    (hc : c ∈ [.p256, .p384, .p521]) (hd : r.cipher name = .ok (.ctr 16)) (e e₁ : Entropy) :
    ∃ keys rest pub priv session, r.generateKeyPair pkAlgo e = .ok (keys, rest) ∧
      r.loadPublic pkAlgo keys.publicKey = .ok pub ∧
      r.loadPrivate pkAlgo keys.privateKey = .ok priv ∧
      r.startEncryption e₁ pkAlgo name pub = .ok session := by
  obtain ⟨hpub, hpriv⟩ := KeyExchange.load_generate (.ecdh hc keyName) e
  obtain ⟨session, hse⟩ : ∃ session, r.startEncryption e₁ pkAlgo name
      ((KeyExchange.ecdh c keyName).handles e).1 = .ok session := by
    have hl (secret : Bytes) : _ = 16 ∧ _ = 16 :=
      KeyStretch.length_deriveWhitened secret (CipherDriver.ctr 16).material
    rw [KeyExchange.handles]
    dsimp only
    rw [startEncryption_ecdh hx hd, show (CipherDriver.ctr 16).instantiate _ .encrypt = _ from
      CipherDriver.instantiate_ofLengths (hl _) .encrypt]
    exact ⟨_, rfl⟩
  exact ⟨((KeyExchange.ecdh c keyName).generate e).1, ((KeyExchange.ecdh c keyName).generate e).2,
    _, _, session, generateKeyPair_eq hx e, (loadPublic_eq hx _).trans hpub,
    (loadPrivate_eq hx _).trans hpriv, hse⟩

/-- Two keys of P-256, of which the second one is found and keys the cipher of a session. -/
theorem found_by_name_p256 :
    ∃ (r : Registry .standard) (keys : KeyPair) (rest : Entropy) (pub : PublicKey)
      (old priv : PrivateKey) (session : EncryptionSession .standard)
      (found : DecryptionSession .standard),
      registerAll {} [.cipher "aes-128/ctr" (.ctr 16),
        .keyExchange "fips_p256" (.ecdh .p256 "fips_p256")] = .ok r ∧
      r.FindsByName ∧
      r.generateKeyPair "fips_p256" (.scripted #[1]) = .ok (keys, rest) ∧
      r.loadPublic "fips_p256" keys.publicKey = .ok pub ∧
      r.loadPrivate "fips_p256" keys.privateKey = .ok priv ∧
      r.startEncryption (.scripted #[2]) "fips_p256" "aes-128/ctr" pub = .ok session ∧
      r.Loaded [("fips_p256", old), ("fips_p256", priv)] ∧
      r.startDecryption (ringOf [("fips_p256", old), ("fips_p256", priv)]) session.preamble =
        .ok found ∧
      found.cipher = session.cipher := by
  obtain ⟨r, h⟩ : ∃ r : Registry .standard, registerAll {} [.cipher "aes-128/ctr" (.ctr 16),
      .keyExchange "fips_p256" (.ecdh .p256 "fips_p256")] = .ok r := ⟨_, rfl⟩
  obtain ⟨-, hiff, hdec⟩ := found_by_name h
  have hd : r.cipher "aes-128/ctr" = .ok (.ctr 16) := by
    cases h
    rfl
  have hx : r.keyExchange "fips_p256" = .ok (.ecdh .p256 "fips_p256") := by
    cases h
    rfl
  have hs : (KeyExchange.ecdh .p256 "fips_p256").IsStandard := .ecdh (by simp) _
  have hr : r.FindsByName := hiff.2 fun name x hm _ => by
    simp only [List.mem_cons, reduceCtorEq, Registration.keyExchange.injEq, List.not_mem_nil,
      or_false, false_or] at hm
    rw [hm.1, hm.2]
    rfl
  obtain ⟨_, _, _, old, _, -, -, hold, -⟩ := exists_session_ctr hx (by simp) hd (.scripted #[3])
    (.scripted #[2])
  obtain ⟨keys, rest, pub, priv, session, hg, hpub, hpriv, hse⟩ :=
    exists_session_ctr hx (by simp) hd (.scripted #[1]) (.scripted #[2])
  have hl : r.Loaded [("fips_p256", old), ("fips_p256", priv)] :=
    loaded_cons.2 ⟨⟨_, hold⟩, loaded_cons.2 ⟨⟨_, hpriv⟩, loaded_nil⟩⟩
  obtain ⟨material, hk, hfound, -⟩ := hdec hr (by simp) hs hd hg hpub hpriv hse _ hl rfl
  have hsame : (CipherDriver.ctr 16).instantiate material .decrypt = .ok session.cipher := hk
  rw [hsame] at hfound
  exact ⟨r, keys, rest, pub, old, priv, session, _, h, hr, hg, hpub, hpriv, hse, hl, hfound, rfl⟩

/-- A key of X25519 that was loaded under another name is not found by it, and nothing encrypted
under that name is decrypted with it. -/
theorem not_found_by_name :
    ∃ (r : Registry .standard) (k : PrivateKey),
      registerAll {} [.cipher "aes-128/ctr" (.ctr 16), .keyExchange "work" .x25519] = .ok r ∧
      r.loadPrivate "work" (List.replicate 32 0) = .ok k ∧
      r.Loaded [("work", k)] ∧ lastUnder "work" [("work", k)] = some k ∧
      (∀ exchange, (ringOf [("work", k)]).find exchange "work" = .error (.noPrivateKey "work")) ∧
      (∀ exchange, r.startDecryption (ringOf [("work", k)]) ⟨exchange, "work", "aes-128/ctr"⟩ =
        .error (.noPrivateKey "work")) ∧
      ¬ r.FindsByName := by
  obtain ⟨r, h⟩ : ∃ r : Registry .standard, registerAll {} [.cipher "aes-128/ctr" (.ctr 16),
      .keyExchange "work" .x25519] = .ok r := ⟨_, rfl⟩
  have hd : r.cipher "aes-128/ctr" = .ok (.ctr 16) := by
    cases h
    rfl
  have hx : r.keyExchange "work" = .ok .x25519 := by
    cases h
    rfl
  have hk : r.loadPrivate "work" (List.replicate 32 0) =
      .ok ⟨"curve25519", .x25519 (List.replicate 32 0)⟩ := by
    rw [loadPrivate_eq hx]
    rfl
  have hl : r.Loaded [("work", ⟨"curve25519", .x25519 (List.replicate 32 0)⟩)] :=
    loaded_cons.2 ⟨⟨_, hk⟩, loaded_nil⟩
  have hfind (exchange : Bytes) :
      (ringOf [("work", ⟨"curve25519", .x25519 (List.replicate 32 0)⟩)]).find exchange "work" =
        .error (.noPrivateKey "work") := by
    rw [ringOf, AlgorithmKeys.find_ofKeys]
    rfl
  refine ⟨r, _, h, hk, hl, rfl, hfind, fun exchange => ?_, fun hr => ?_⟩
  · simp only [startDecryption, hd, hx, hfind, bind, Except.bind]
  · have hname := findsByName_iff.1 hr "work" .x25519 hx KeyExchange.IsStandard.x25519.loadable
    exact absurd hname (by decide)

end Registry

end SealedStream
