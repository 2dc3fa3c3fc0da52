import Mathlib
import SealedStream.Proofs.StandardAlgorithms
/-!
# Sealed messages

What an authenticated cipher opens is what it seals, and nothing else.

* `SealScheme.Sized` are the schemes whose keystreams and tags are as long as they have to be. Under
  such a scheme masking undoes itself (`Sized.mask_mask`), and `Sized.decrypt_eq_ok_iff` says that a
  string is opened exactly to the plaintext that is sealed to it.
* `AeadMode.OpensSealed` says of a cipher with its key when it opens a string, and what it answers
  when it does not.
* `opens_sealed` says so of the standard authenticated ciphers.
-/
namespace SealedStream

/-! ## Keystreams -/

namespace Bytes

/-- Masking twice with one keystream gives the message back. -/
theorem xor_xor_cancel {a b : Bytes} (h : a.length ≤ b.length) : xor (xor a b) b = a := by
  induction a generalizing b with
  | nil => rfl
  | cons x a ih =>
    cases b with
    | nil => cases h
    | cons y b =>
      have hhead : x ^^^ y ^^^ y = x := by rw [UInt8.xor_assoc, UInt8.xor_self, UInt8.xor_zero]
      have htail : xor (xor a b) b = a := ih (Nat.le_of_succ_le_succ h)
      exact congrArg₂ List.cons hhead htail

/-- Blocks of `width` octets, as many as are needed for `n` octets, and cut there. -/
theorem length_take_flatMap {width : Nat} (hw : 0 < width) {block : Nat → Bytes}
    (hb : ∀ i, (block i).length = width) (n : Nat) :
    (((List.range ((n + (width - 1)) / width)).flatMap block).take n).length = n := by
  have hlen : ((List.range ((n + (width - 1)) / width)).flatMap block).length =
      (n + (width - 1)) / width * width := by
    simp [List.length_flatMap, hb]
  have hdiv := Nat.div_add_mod (n + (width - 1)) width
  have hmod := Nat.mod_lt (n + (width - 1)) hw
  rw [Nat.mul_comm] at hdiv
  rw [List.length_take, hlen]
  omega

end Bytes

theorem ChaCha20.length_block (key nonce : Bytes) (counter : Nat) :
    (block key nonce counter).length = 64 := by
  simp [block]

theorem ChaCha20.length_keystream (key nonce : Bytes) (counter n : Nat) :
    (keystream key nonce counter n).length = n :=
  Bytes.length_take_flatMap (by decide) (fun i => length_block key nonce (counter + i)) n

theorem Gcm.length_block (cipher : BlockCipher) (nonce : Bytes) (counter : Nat) :
    (block cipher nonce counter).length = 16 :=
  Block.length_bytes _

/-! ## Schemes -/

namespace SealScheme

/-- A scheme whose keystreams are as long as the messages, with tags of one length. -/
structure Sized (s : SealScheme) : Prop where
  keystream (nonce : Bytes) (n : Nat) : (s.keystream nonce n).length = n
  tag (nonce aad ciphertext : Bytes) : (s.tag nonce aad ciphertext).length = tagSize

theorem sized_gcm (cipher : BlockCipher) : (Gcm.scheme cipher).Sized where
  keystream nonce n :=
    Bytes.length_take_flatMap (by decide) (fun i => Gcm.length_block cipher nonce (i + 2)) n
  tag nonce aad ciphertext := by
    refine (Bytes.length_xor _ _).trans ?_
    rw [Gcm.length_block]
    simp [Gcm.Element.bytes, tagSize]

theorem sized_chaChaPoly (key : Bytes) : (chaChaPoly key).Sized where
  keystream nonce n := ChaCha20.length_keystream key nonce 1 n
  tag _ _ _ := Bytes.length_ofNatLE _ _

theorem sized_xChaChaPoly (key : Bytes) : (xChaChaPoly key).Sized where
  keystream _ n := ChaCha20.length_keystream _ _ 1 n
  tag _ _ _ := Bytes.length_ofNatLE _ _

/-! ## Opening -/

section
variable {s : SealScheme} {nonce : Bytes}

theorem nonceOf_of_lt (h : nonce.length < s.nonceSize) :
    s.nonceOf nonce = .error (.nonce s.nonceSize nonce.length) :=
  if_pos h

theorem nonceOf_of_le (h : s.nonceSize ≤ nonce.length) :
    s.nonceOf nonce = .ok (nonce.take s.nonceSize) :=
  if_neg h.not_gt

theorem encrypt_eq (h : s.nonceSize ≤ nonce.length) (plaintext aad : Bytes) :
    s.encrypt nonce plaintext aad = .ok (s.mask (nonce.take s.nonceSize) plaintext ++
      s.tag (nonce.take s.nonceSize) aad (s.mask (nonce.take s.nonceSize) plaintext)) := by
  rw [encrypt, nonceOf_of_le h]
  rfl

theorem decrypt_eq (h : s.nonceSize ≤ nonce.length) (sealed aad : Bytes) :
    s.decrypt nonce sealed aad =
      if tagSize ≤ sealed.length ∧ s.tag (nonce.take s.nonceSize) aad
          (sealed.take (sealed.length - tagSize)) = sealed.drop (sealed.length - tagSize) then
        .ok (s.mask (nonce.take s.nonceSize) (sealed.take (sealed.length - tagSize)))
      else .error .authentication := by
  have hbind {ε α β : Type} (a : α) (f : α → Except ε β) : (Except.ok a >>= f) = f a := rfl
  rw [decrypt, nonceOf_of_le h, hbind]
  by_cases hl : sealed.length < tagSize
  · have hle : ¬ tagSize ≤ sealed.length := hl.not_ge
    simp only [hl, hle, if_true, false_and, if_false]
    rfl
  · have hle : tagSize ≤ sealed.length := not_lt.1 hl
    by_cases ht : s.tag (nonce.take s.nonceSize) aad (sealed.take (sealed.length - tagSize)) =
        sealed.drop (sealed.length - tagSize)
    · simp only [hl, hle, ht, ne_eq, not_true_eq_false, and_self, if_false, if_true]
      rfl
    · simp only [hl, hle, ht, ne_eq, not_false_eq_true, true_and, if_true, if_false]
      rfl

/-- A string that is not opened is refused as not authentic. -/
theorem decrypt_eq_error (h : s.nonceSize ≤ nonce.length) {sealed aad : Bytes}
    (hs : ∀ plaintext, s.decrypt nonce sealed aad ≠ .ok plaintext) :
    s.decrypt nonce sealed aad = .error .authentication := by
  rw [decrypt_eq h] at hs ⊢
  split_ifs at hs ⊢ with hc
  · exact absurd rfl (hs _)
  · rfl

end

namespace Sized
variable {s : SealScheme} (hs : s.Sized)
include hs

theorem length_mask (nonce message : Bytes) : (s.mask nonce message).length = message.length := by
  rw [mask, Bytes.length_xor, hs.keystream, min_self]

theorem mask_mask (nonce message : Bytes) : s.mask nonce (s.mask nonce message) = message := by
  have hlen : message.length ≤ (s.keystream nonce message.length).length :=
    (hs.keystream _ _).ge
  rw [mask, hs.length_mask, mask, Bytes.xor_xor_cancel hlen]

/-- **A string is opened to a plaintext exactly if the plaintext is sealed to the string.** -/
theorem decrypt_eq_ok_iff {nonce : Bytes} (h : s.nonceSize ≤ nonce.length)
    {sealed aad plaintext : Bytes} :
    s.decrypt nonce sealed aad = .ok plaintext ↔ s.encrypt nonce plaintext aad = .ok sealed := by
  rw [decrypt_eq h, encrypt_eq h]
  generalize nonce.take s.nonceSize = nonce
  constructor
  · intro hd
    split_ifs at hd with hc
    obtain ⟨hl, ht⟩ := hc
    cases hd
    rw [hs.mask_mask, ht, List.take_append_drop]
  · intro he
    cases he
    have hl : (s.mask nonce plaintext ++ s.tag nonce aad (s.mask nonce plaintext)).length - tagSize =
        (s.mask nonce plaintext).length := by
      rw [List.length_append, hs.tag, Nat.add_sub_cancel]
    have hle : tagSize ≤
        (s.mask nonce plaintext ++ s.tag nonce aad (s.mask nonce plaintext)).length := by
      rw [List.length_append, hs.tag]
      exact Nat.le_add_left _ _
    rw [hl, List.take_left, List.drop_left, if_pos ⟨hle, rfl⟩, hs.mask_mask]

theorem length_encrypt {nonce : Bytes} (h : s.nonceSize ≤ nonce.length) (plaintext aad : Bytes) :
    ∃ sealed, s.encrypt nonce plaintext aad = .ok sealed ∧
      sealed.length = plaintext.length + tagSize :=
  ⟨_, encrypt_eq h plaintext aad, by rw [List.length_append, hs.length_mask, hs.tag]⟩

/-- The tag of a sealed message is the only one that is taken with its ciphertext. -/
theorem tag_unique {nonce : Bytes} (h : s.nonceSize ≤ nonce.length)
    {plaintext plaintext' aad ciphertext tag tag' : Bytes} (ht : tag.length = tagSize)
    (ht' : tag'.length = tagSize)
    (he : s.encrypt nonce plaintext aad = .ok (ciphertext ++ tag))
    (he' : s.encrypt nonce plaintext' aad = .ok (ciphertext ++ tag')) : tag' = tag := by
  rw [encrypt_eq h, Except.ok.injEq] at he he'
  obtain ⟨rfl, rfl⟩ := List.append_inj' he ((hs.tag _ _ _).trans ht.symm)
  obtain ⟨hm, rfl⟩ := List.append_inj' he' ((hs.tag _ _ _).trans ht'.symm)
  rw [hm]

end Sized

end SealScheme

/-! ## Ciphers -/

/-- What a cipher with its key opens, and what it answers to anything else. Sealing and opening
leave the cipher as it is. -/
structure AeadMode.OpensSealed {α : Type} [AeadMode α] (c : α) : Prop where
  /-- A nonce that is too short is refused before anything else is looked at. -/
  short {nonce : Bytes} (h : nonce.length < nonceSize c) (data aad : Bytes) :
    encrypt nonce data aad c = (.error (.nonce (nonceSize c) nonce.length), c) ∧
      decrypt nonce data aad c = (.error (.nonce (nonceSize c) nonce.length), c)
  /-- Only the first octets of a nonce matter. -/
  front {nonce nonce' : Bytes} (h : nonceSize c ≤ nonce.length) (h' : nonceSize c ≤ nonce'.length)
    (he : nonce.take (nonceSize c) = nonce'.take (nonceSize c)) (data aad : Bytes) :
    encrypt nonce data aad c = encrypt nonce' data aad c ∧
      decrypt nonce data aad c = decrypt nonce' data aad c
  seals {nonce : Bytes} (h : nonceSize c ≤ nonce.length) (plaintext aad : Bytes) :
    ∃ sealed, encrypt nonce plaintext aad c = (.ok sealed, c) ∧
      sealed.length = plaintext.length + overhead c
  opens_iff {nonce : Bytes} (h : nonceSize c ≤ nonce.length) (sealed aad plaintext : Bytes) :
    decrypt nonce sealed aad c = (.ok plaintext, c) ↔
      encrypt nonce plaintext aad c = (.ok sealed, c)
  /-- What no plaintext is sealed to is not authentic. -/
  refuses {nonce : Bytes} (h : nonceSize c ≤ nonce.length) {sealed aad : Bytes}
    (hs : ∀ plaintext, encrypt nonce plaintext aad c ≠ (.ok sealed, c)) :
    decrypt nonce sealed aad c = (.error .authentication, c)
  /-- There is no room for a tag. -/
  refuses_short {nonce : Bytes} (h : nonceSize c ≤ nonce.length) {sealed aad : Bytes}
    (hs : sealed.length < overhead c) :
    decrypt nonce sealed aad c = (.error .authentication, c)
  /-- Nothing of a sealed message was changed but its tag. -/
  refuses_tag {nonce : Bytes} (h : nonceSize c ≤ nonce.length)
    {plaintext aad ciphertext tag tag' : Bytes}
    (he : encrypt nonce plaintext aad c = (.ok (ciphertext ++ tag), c))
    (ht : tag.length = overhead c) (ht' : tag'.length = overhead c) (hne : tag' ≠ tag) :
    decrypt nonce (ciphertext ++ tag') aad c = (.error .authentication, c)

/-- A scheme of which both lengths are right opens what it seals and nothing else. -/
theorem SealScheme.Sized.opensSealed {s : SealScheme} (hs : s.Sized) :
    AeadMode.OpensSealed (StandardAead.scheme s) := by
  -- the calls of the cipher are those of the scheme, which they leave as it is
  have henc (nonce data aad : Bytes) : AeadMode.encrypt nonce data aad (StandardAead.scheme s) =
      (s.encrypt nonce data aad, .scheme s) := rfl
  have hdec (nonce data aad : Bytes) : AeadMode.decrypt nonce data aad (StandardAead.scheme s) =
      (s.decrypt nonce data aad, .scheme s) := rfl
  have hsize : AeadMode.nonceSize (StandardAead.scheme s) = s.nonceSize := rfl
  have hover : AeadMode.overhead (StandardAead.scheme s) = tagSize := rfl
  have hrefuse {nonce sealed aad : Bytes} (h : s.nonceSize ≤ nonce.length)
      (hn : ∀ plaintext, s.encrypt nonce plaintext aad ≠ .ok sealed) :
      s.decrypt nonce sealed aad = .error .authentication :=
    decrypt_eq_error h fun plaintext hd => hn plaintext ((hs.decrypt_eq_ok_iff h).1 hd)
  constructor <;> simp only [henc, hdec, hsize, hover, Prod.mk.injEq, and_true, ne_eq]
  case short =>
    intro nonce h data aad
    rw [encrypt, decrypt, nonceOf_of_lt h]
    exact ⟨rfl, rfl⟩
  case front =>
    intro nonce nonce' h h' he data aad
    rw [encrypt_eq h, encrypt_eq h', decrypt_eq h, decrypt_eq h', he]
    exact ⟨rfl, rfl⟩
  case seals =>
    intro nonce h plaintext aad
    exact hs.length_encrypt h plaintext aad
  case opens_iff =>
    intro nonce h sealed aad plaintext
    exact hs.decrypt_eq_ok_iff h
  case refuses =>
    intro nonce h sealed aad hn
    exact hrefuse h hn
  case refuses_short =>
    intro nonce h sealed aad hl
    refine hrefuse h fun plaintext he => ?_
    obtain ⟨sealed', he', hlen⟩ := hs.length_encrypt h plaintext aad
    cases he.symm.trans he'
    omega
  case refuses_tag =>
    intro nonce h plaintext aad ciphertext tag tag' he ht ht' hne
    exact hrefuse h fun plaintext' he' => hne (hs.tag_unique h ht ht' he he')

/-! ## The standard ciphers -/

/-- The authenticated ciphers among the standard ones: their names, and the lengths of their keys
and nonces. -/
def sealingCiphers : List (String × Nat × Nat) := [
  ("aes-128/gcm", 16, 12), ("aes-192/gcm", 24, 12), ("aes-256/gcm", 32, 12),
  ("chacha20-poly1305", 32, 12), ("xchacha20-poly1305", 32, 24)]

/-- The driver of an authenticated cipher, and the scheme that it makes of a key. -/
theorem exists_sealing {name : String} {keyLen nonceSize : Nat}
    (h : (name, keyLen, nonceSize) ∈ sealingCiphers) :
    ∃ scheme, Registry.standard.cipher name = .ok (.sealing keyLen scheme) ∧
      ∀ key, (scheme key).Sized ∧ (scheme key).nonceSize = nonceSize := by
  have hall : Registry.standard.ciphers = .ofList standardCiphers := rfl
  simp only [Registry.cipher_eq_ok, hall, NameTable.get?_ofList]
  have hgcm (key : Bytes) : (Gcm.scheme (Aes.cipher key)).Sized := SealScheme.sized_gcm _
  simp only [sealingCiphers, List.mem_cons, Prod.mk.injEq, List.not_mem_nil, or_false] at h
  rcases h with ⟨rfl, rfl, rfl⟩ | ⟨rfl, rfl, rfl⟩ | ⟨rfl, rfl, rfl⟩ | ⟨rfl, rfl, rfl⟩ |
    ⟨rfl, rfl, rfl⟩
  · exact ⟨_, rfl, fun key => ⟨hgcm key, rfl⟩⟩
  · exact ⟨_, rfl, fun key => ⟨hgcm key, rfl⟩⟩
  · exact ⟨_, rfl, fun key => ⟨hgcm key, rfl⟩⟩
  · exact ⟨_, rfl, fun key => ⟨SealScheme.sized_chaChaPoly key, rfl⟩⟩
  · exact ⟨_, rfl, fun key => ⟨SealScheme.sized_xChaChaPoly key, rfl⟩⟩

/-- **The standard authenticated ciphers open what they seal, and nothing else.** Take any of the
five with any key of its length, in either direction. Every message is sealed, to a string that is
longer by sixteen octets. A string is opened to a plaintext exactly if the plaintext is sealed to it
under the same nonce and associated data, and is refused as not authentic otherwise: so are strings
without room for a tag, and sealed messages with another tag. Of a nonce only the first octets
matter, and one that is too short is refused before anything else. -/
theorem opens_sealed {name : String} {keyLen nonceSize : Nat}
    (h : (name, keyLen, nonceSize) ∈ sealingCiphers) :
    ∃ d, Registry.standard.cipher name = .ok d ∧ d.keyLen = keyLen ∧
      ∀ m : KeyMaterial, m.key.length = d.keyLen →
        ∃ c, (∀ dir, d.instantiate m dir = .ok (.aead c)) ∧
          AeadMode.nonceSize c = nonceSize ∧ AeadMode.overhead c = 16 ∧
          AeadMode.OpensSealed c := by
  obtain ⟨scheme, hd, hs⟩ := exists_sealing h
  refine ⟨_, hd, rfl, fun m hm => ?_⟩
  obtain ⟨hsized, hsize⟩ := hs m.key
  exact ⟨.scheme (scheme m.key), fun _ => if_pos hm, hsize, rfl, hsized.opensSealed⟩

/-- A message under a nonce with an octet to spare. It is opened again, under the nonce without that
octet too; not with a last octet changed, not when cut to fifteen octets, and not under a nonce of
23 octets. -/
theorem opens_sealed_xchacha :
    let nonce : Bytes := List.replicate 25 7
    ∃ d c ciphertext tag, Registry.standard.cipher "xchacha20-poly1305" = .ok d ∧
      d.instantiate ⟨List.replicate 32 1, []⟩ .encrypt = .ok (.aead c) ∧
      d.instantiate ⟨List.replicate 32 1, []⟩ .decrypt = .ok (.aead c) ∧ tag.length = 16 ∧
      AeadMode.encrypt nonce [1, 2, 3] [4] c = (.ok (ciphertext ++ tag), c) ∧
      AeadMode.decrypt (nonce.take 24) (ciphertext ++ tag) [4] c = (.ok [1, 2, 3], c) ∧
      AeadMode.decrypt nonce (ciphertext ++ tag.map (· + 1)) [4] c =
        (.error .authentication, c) ∧
      AeadMode.decrypt nonce (List.replicate 15 0) [4] c = (.error .authentication, c) ∧
      AeadMode.decrypt (nonce.take 23) (ciphertext ++ tag) [4] c = (.error (.nonce 24 23), c) := by
  intro nonce
  obtain ⟨d, hd, hk, h⟩ := opens_sealed (by simp [sealingCiphers] :
    ("xchacha20-poly1305", 32, 24) ∈ sealingCiphers)
  obtain ⟨c, hc, hsize, hover, h⟩ := h ⟨List.replicate 32 1, []⟩ hk.symm
  have hn : AeadMode.nonceSize c ≤ nonce.length := hsize.trans_le (by decide)
  have hn' : AeadMode.nonceSize c ≤ (nonce.take 24).length := hsize.trans_le (by decide)
  obtain ⟨sealed, hs, hl⟩ := h.seals hn [1, 2, 3] [4]
  have hl : sealed.length = 19 := by rw [hl, hover]; rfl
  have htag : (sealed.drop 3).length = 16 := by rw [List.length_drop, hl]
  have hne : (sealed.drop 3).map (· + 1) ≠ sealed.drop 3 := by
    obtain ⟨b, bs, hb⟩ := List.exists_cons_of_length_pos (htag ▸ (by decide) :
      0 < (sealed.drop 3).length)
    rw [hb, List.map_cons]
    intro he
    have hnat := congrArg UInt8.toNat (List.cons.inj he).1
    rw [UInt8.toNat_add] at hnat
    have hlt := b.toNat_lt
    have hone : (1 : UInt8).toNat = 1 := rfl
    omega
  rw [← List.take_append_drop 3 sealed] at hs
  have hopen := (h.opens_iff hn _ _ _).2 hs
  rw [(h.front hn hn' (by rw [hsize]; rfl) _ _).2] at hopen
  refine ⟨d, c, sealed.take 3, sealed.drop 3, hd, hc _, hc _, htag, hs, hopen, ?_, ?_, ?_⟩
  · exact h.refuses_tag hn hs (htag.trans hover.symm)
      ((List.length_map _).trans (htag.trans hover.symm)) hne
  · exact h.refuses_short hn (hover ▸ by decide)
  · have hshort : (nonce.take 23).length < AeadMode.nonceSize c := hsize ▸ by decide
    rw [(h.short hshort _ _).2, hsize]
    rfl

end SealedStream
