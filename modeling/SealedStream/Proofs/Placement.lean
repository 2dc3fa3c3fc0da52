import Mathlib
import SealedStream.Proofs.Expansion
import SealedStream.Proofs.Piecewise
import SealedStream.Proofs.StandardAlgorithms
/-!
# Where a secret comes to stand

Filling key material from a secret, with every access checked, and what the key and the
initialization vector are then.

* `Resizes` is the resizing of a secret into a buffer, of whatever length they are, and `Passes` the
  filling of key material through such a buffer. `Derives` leaves the buffer out where the secret
  has the right length by itself.
* `derives_iff` and `passes_iff` say that there always is a result, and that it is the one which
  `derive` and `deriveWhitened` say.
* `Placed` relates key material to the string that it was filled from, `Places` says what follows
  for all the key material that is filled from one secret.
* `key_placement` puts this together.
-/
namespace SealedStream.KeyStretch

/-! ## With every access checked -/

/-- Resizing a secret into a buffer stays within bounds, and leaves `result` in the buffer. -/
inductive Resizes (raw : Bytes) : (buffer result : Bytes) → Prop where
  | empty : Resizes raw [] []
  | expand {buffer result : Bytes} (hn : raw.length < buffer.length) (r : Fills raw buffer result) :
    Resizes raw buffer result
  | shrink {buffer result : Bytes} (hb : buffer ≠ []) (hn : buffer.length < raw.length)
      (r : shrink? raw buffer = some result) : Resizes raw buffer result
  | copy {buffer result : Bytes} (hb : buffer ≠ []) (hn : raw.length = buffer.length)
      (r : buffer.copy? raw = some result) : Resizes raw buffer result

/-- Fill the key from the beginning of a string, and then the initialization vector from there. -/
def fill? (material : Bytes) (m : KeyMaterial) : Option KeyMaterial := do
  let keyLen := min m.key.length material.length
  let octets ← material.slice? 0 keyLen
  let key ← m.key.overwrite? 0 keyLen octets
  let ivLen := min m.iv.length keyLen
  let octets ← material.slice? 0 ivLen
  let iv ← m.iv.overwrite? 0 ivLen octets
  return ⟨key, iv⟩

/-- A secret is resized into a buffer of the size of the key material, which is filled from what
`treat?` makes of the buffer. -/
inductive Passes (treat? : Bytes → Option Bytes) (raw : Bytes) (m m' : KeyMaterial) : Prop where
  | intro {material treated : Bytes} (r : Resizes raw (.zeros m.size) material)
      (ht : treat? material = some treated) (hf : fill? treated m = some m')

/-- A secret of the right length fills the key material at once. -/
inductive Derives (raw : Bytes) (m m' : KeyMaterial) : Prop where
  | exact (hn : raw.length = m.size) (hf : fill? raw m = some m')
  | resized (hn : raw.length ≠ m.size) (r : Passes some raw m m')

section
variable {raw buffer result material new old : Bytes} {m m' : KeyMaterial}

theorem resize_of_lt {total : Nat} (hn : raw.length < total) :
    resize raw total = expand raw total := by
  rw [resize, if_neg (Nat.ne_zero_of_lt hn), if_pos hn]

theorem resize_of_gt {total : Nat} (ht : 0 < total) (hn : total < raw.length) :
    resize raw total = shrink raw total := by
  rw [resize, if_neg ht.ne', if_neg hn.not_gt, if_pos hn]

theorem resize_self (raw : Bytes) : resize raw raw.length = raw := by
  by_cases h : raw = []
  · rw [h]
    rfl
  · rw [resize, if_neg fun hz => h (List.length_eq_zero_iff.1 hz), if_neg (lt_irrefl _),
      if_neg (lt_irrefl _)]

/-- **Resizing** ends within bounds with the material that `resize` says, whatever was in the
buffer. -/
theorem resizes_iff : Resizes raw buffer result ↔ result = resize raw buffer.length := by
  constructor
  · rintro (_ | ⟨hn, r⟩ | ⟨hb, hn, r⟩ | ⟨hb, hn, r⟩)
    · rfl
    · rw [resize_of_lt hn]
      exact (fills_iff hn).1 r
    · have hpos := List.length_pos_iff.2 hb
      rw [resize_of_gt hpos hn]
      exact Option.some_injective _ (r.symm.trans (shrink?_eq hpos hn))
    · rw [← hn, resize_self]
      exact Option.some_injective _ (r.symm.trans (Bytes.copy?_eq hn))
  · rintro rfl
    by_cases hb : buffer = []
    · rw [hb]
      exact .empty
    · have hpos := List.length_pos_iff.2 hb
      rcases lt_trichotomy raw.length buffer.length with hn | hn | hn
      · exact .expand hn ((fills_iff hn).2 (resize_of_lt hn))
      · rw [← hn, resize_self]
        exact .copy hb hn (Bytes.copy?_eq hn)
      · rw [resize_of_gt hpos hn]
        exact .shrink hb hn (shrink?_eq hpos hn)

theorem length_resize (raw : Bytes) (total : Nat) : (resize raw total).length = total := by
  rcases Nat.eq_zero_or_pos total with rfl | hpos
  · rfl
  · rcases lt_trichotomy raw.length total with hn | rfl | hn
    · rw [resize_of_lt hn, length_expand hn]
    · rw [resize_self]
    · rw [resize_of_gt hpos hn, length_shrink hpos]

/-! ## Filling -/

theorem overlay_of_le (h : old.length ≤ new.length) : overlay new old = new.take old.length := by
  rw [overlay, List.drop_of_length_le h, List.append_nil]

theorem take_overlay (new old : Bytes) :
    (overlay new old).take (min old.length new.length) = new.take old.length := by
  have hl : (new.take old.length).length = min old.length new.length := List.length_take
  rw [overlay, ← hl, List.take_left]

theorem drop_overlay (new old : Bytes) :
    (overlay new old).drop new.length = old.drop new.length := by
  rcases Nat.le_total new.length old.length with h | h
  · rw [overlay, List.take_of_length_le h, List.drop_left]
  · rw [List.drop_of_length_le h, List.drop_of_length_le]
    rw [length_overlay]
    exact h

theorem fill?_eq (h : m.key.length ≤ material.length) :
    fill? material m = some (fill material m) := by
  have hk : min m.key.length material.length = m.key.length := min_eq_left h
  have hi : min m.iv.length m.key.length ≤ material.length := (min_le_right _ _).trans h
  have hkey := @Bytes.overwrite?_eq m.key (material.take m.key.length) 0 m.key.length
    (Nat.zero_le _) le_rfl (List.length_take_of_le h)
  have hiv := @Bytes.overwrite?_eq m.iv (material.take (min m.iv.length m.key.length)) 0 _
    (Nat.zero_le _) (min_le_left _ _) (List.length_take_of_le hi)
  have hlen : (material.take m.key.length).length = m.key.length := List.length_take_of_le h
  have hdrop : m.iv.drop (min m.iv.length m.key.length) = m.iv.drop m.key.length := by
    rcases Nat.le_total m.iv.length m.key.length with hle | hle
    · rw [min_eq_left hle, List.drop_length, List.drop_of_length_le hle]
    · rw [min_eq_right hle]
  rw [fill?, fill, overlay_of_le h, overlay, hlen, List.take_take]
  simp only [hk, Bytes.slice?_eq (Nat.zero_le _) h, Bytes.slice?_eq (Nat.zero_le _) hi,
    List.drop_zero, Option.bind_eq_bind, Option.bind_some, hkey, hiv, hdrop, List.take_zero,
    List.nil_append, List.drop_length, List.append_nil]
  rfl

theorem derive_eq_fill (raw : Bytes) (m : KeyMaterial) :
    derive raw m = fill (resize raw m.size) m := by
  rw [derive]
  split_ifs with hn
  · rw [← hn, resize_self]
  · rfl

/-- **Key material is filled** from what becomes of the buffer, whenever that is long enough. -/
theorem passes_iff {treat? : Bytes → Option Bytes} {treated : Bytes}
    (ht : treat? (resize raw m.size) = some treated) (hl : m.key.length ≤ treated.length) :
    Passes treat? raw m m' ↔ m' = fill treated m := by
  have hz : (Bytes.zeros m.size).length = m.size := Bytes.length_zeros _
  constructor
  · rintro ⟨r, ht', hf⟩
    have hr := resizes_iff.1 r
    rw [hz] at hr
    subst hr
    cases ht.symm.trans ht'
    exact Option.some_injective _ (hf.symm.trans (fill?_eq hl))
  · rintro rfl
    refine .intro (resizes_iff.2 rfl) ?_ (fill?_eq hl)
    rw [hz]
    exact ht

theorem key_le_size (m : KeyMaterial) : m.key.length ≤ m.size := Nat.le_add_right _ _

theorem passes_some_iff : Passes some raw m m' ↔ m' = derive raw m := by
  rw [derive_eq_fill]
  exact passes_iff rfl (by rw [length_resize]; exact key_le_size m)

theorem passes_whiten?_iff : Passes whiten? raw m m' ↔ m' = deriveWhitened raw m :=
  passes_iff (whiten?_eq _) (by rw [length_whiten, length_resize]; exact key_le_size m)

/-- **Filling key material** ends within bounds, and a secret of the right length makes no
exception. -/
theorem derives_iff : Derives raw m m' ↔ m' = derive raw m := by
  constructor
  · rintro (⟨hn, hf⟩ | ⟨-, r⟩)
    · have hl : m.key.length ≤ raw.length := (key_le_size m).trans hn.ge
      rw [derive, if_pos hn]
      exact Option.some_injective _ (hf.symm.trans (fill?_eq hl))
    · exact passes_some_iff.1 r
  · rintro rfl
    by_cases hn : raw.length = m.size
    · rw [derive, if_pos hn]
      exact .exact hn (fill?_eq ((key_le_size m).trans hn.ge))
    · exact .resized hn (passes_some_iff.2 rfl)

end

/-! ## Places -/

/-- Key material `m'` that was filled from a string, `m` being there before. The key is the
beginning of the string, the initialization vector repeats the key, and what goes beyond is as it
was. -/
structure Placed (material : Bytes) (m m' : KeyMaterial) : Prop where
  key_length : m'.key.length = m.key.length
  iv_length : m'.iv.length = m.iv.length
  key : m'.key = material.take m.key.length
  iv : m'.iv.take (min m.iv.length m.key.length) = m'.key.take (min m.iv.length m.key.length)
  rest : m'.iv.drop m.key.length = m.iv.drop m.key.length

/-- What `f` makes of key material, where it fills it from a string that depends on nothing but the
size, and the new material of given lengths that is filled so. -/
structure Places (material : Nat → Bytes) (f : KeyMaterial → KeyMaterial)
    (new : (keyLen ivLen : Nat) → KeyMaterial) : Prop where
  placed : ∀ m, Placed (material m.size) m (f m)
  agree : ∀ m₁ m₂, m₁.size = m₂.size → ∀ n ≤ min m₁.key.length m₂.key.length,
    (f m₁).key.take n = (f m₂).key.take n
  fresh : ∀ key key' iv, key.length = key'.length → f ⟨key, iv⟩ = f ⟨key', iv⟩
  filled : ∀ keyLen ivLen, new keyLen ivLen = f (.zeroed keyLen ivLen)
  zero : ∀ keyLen ivLen, (new keyLen ivLen).iv.drop keyLen = Bytes.zeros (ivLen - keyLen)

theorem placed_fill {material : Bytes} {m : KeyMaterial} (h : m.key.length ≤ material.length) :
    Placed material m (fill material m) where
  key_length := (length_fill material m).1
  iv_length := (length_fill material m).2
  key := overlay_of_le h
  iv := by
    have hl : (material.take m.key.length).length = m.key.length := List.length_take_of_le h
    have ht := take_overlay (material.take m.key.length) m.iv
    rw [hl] at ht
    rw [fill, overlay_of_le h]
    refine ht.trans ?_
    rw [List.take_take, List.take_take, min_assoc, min_self]
  rest := by
    have hd := drop_overlay (material.take m.key.length) m.iv
    rwa [List.length_take_of_le h] at hd

theorem places_fill {material : Nat → Bytes} {f : KeyMaterial → KeyMaterial}
    (hl : ∀ n, (material n).length = n) (hf : ∀ m, f m = fill (material m.size) m) :
    Places material f fun keyLen ivLen => f (.zeroed keyLen ivLen) := by
  have hkey (m : KeyMaterial) : m.key.length ≤ (material m.size).length := by
    rw [hl]
    exact key_le_size m
  have hplaced (m : KeyMaterial) : Placed (material m.size) m (f m) := by
    rw [hf]
    exact placed_fill (hkey m)
  refine ⟨hplaced, ?_, ?_, fun _ _ => rfl, ?_⟩
  · intro m₁ m₂ hs n hn
    obtain ⟨h₁, h₂⟩ := le_min_iff.1 hn
    rw [(hplaced m₁).key, (hplaced m₂).key, hs, List.take_take, List.take_take, min_eq_left h₁,
      min_eq_left h₂]
  · intro key key' iv hlen
    have hsize : KeyMaterial.size ⟨key, iv⟩ = KeyMaterial.size ⟨key', iv⟩ :=
      congrArg (· + iv.length) hlen
    have h := hkey ⟨key, iv⟩
    have h' := hkey ⟨key', iv⟩
    rw [hf, hf, fill, fill, overlay_of_le h, overlay_of_le h', hsize]
    dsimp only
    rw [hlen]
  · intro keyLen ivLen
    have hrest := (hplaced (.zeroed keyLen ivLen)).rest
    rw [KeyMaterial.zeroed, Bytes.length_zeros] at hrest
    exact hrest.trans List.drop_replicate

/-- **Where a secret comes to stand.** Whatever the secret and the key material, filling it ends
within bounds and in one way. It makes no difference that a secret of the right length is not copied
to a buffer first. The key is the beginning of the resized secret, or of the whitened one, and the
initialization vector repeats the key; what goes beyond the key stays, and is zero where a key and
an initialization vector are made of a secret.
So the keys that one secret gives for the same size agree as far as both go, and what was in a key
before has no influence. -/
theorem key_placement (raw : Bytes) :
    (∀ n, (resize raw n).length = n ∧ (whiten (resize raw n)).length = n) ∧
    (∀ m m', (Derives raw m m' ↔ m' = derive raw m) ∧
      (Passes some raw m m' ↔ m' = derive raw m) ∧
      (Passes whiten? raw m m' ↔ m' = deriveWhitened raw m)) ∧
    Places (resize raw) (derive raw) (stretch raw) ∧
    Places (fun n => whiten (resize raw n)) (deriveWhitened raw) (stretchWhitened raw) := by
  have hw (n : Nat) : (whiten (resize raw n)).length = n := by rw [length_whiten, length_resize]
  refine ⟨fun n => ⟨length_resize raw n, hw n⟩, fun m m' => ?_, ?_, ?_⟩
  · exact ⟨derives_iff, passes_some_iff, passes_whiten?_iff⟩
  · exact places_fill (length_resize raw) (derive_eq_fill raw)
  · exact places_fill hw fun m => rfl

end SealedStream.KeyStretch
