import Mathlib
import SealedStream.Proofs.Traces
/-!
# No octet of a secret is lost

* `Collision` says that two computations come to the same octets at one place, of different inputs.
  `traced_agree`: two secrets with the same material are the same, or there is a collision.
* `Survives` says that an octet stays where it is or goes into a call whose octets are part of the
  material; `traced_survives` says so of every octet.
* `resize_agree` puts this together.
-/
namespace SealedStream.KeyStretch

/-! ## Collisions -/

/-- A primitive gives the same octets, at least one, for two inputs of one length. -/
structure Call.Collide (c c' : Call) : Prop where
  primitive : c.primitive = c'.primitive
  kept : c.kept = c'.kept
  length : c.input.length = c'.input.length
  input : c.input ≠ c'.input
  output : c.output = c'.output
  ne_nil : c.output ≠ []

/-- At one place of two rows of calls there are two that collide. -/
def Collision (cs cs' : List Call) : Prop :=
  ∃ (i : Nat) (c c' : Call), cs[i]? = some c ∧ cs'[i]? = some c' ∧ c.Collide c'

theorem Collision.head {c c' : Call} (h : c.Collide c') (cs cs' : List Call) :
    Collision (c :: cs) (c' :: cs') :=
  ⟨0, c, c', rfl, rfl, h⟩

theorem Collision.tail {cs cs' : List Call} (h : Collision cs cs') (c c' : Call) :
    Collision (c :: cs) (c' :: cs') := by
  obtain ⟨i, a, b, ha, hb, hab⟩ := h
  exact ⟨i + 1, a, b, ha, hb, hab⟩

/-! ## Two secrets with the same material -/

theorem length_windowBefore (input : Bytes) (start : Nat) :
    (windowBefore input start).length = min start input.length - (start - window) := by
  rw [windowBefore, List.length_drop, List.length_take]

/-- A beginning is one that is shorter by a window, and the window. -/
theorem take_eq_take_append (input : Bytes) (start : Nat) :
    input.take start = input.take (start - window) ++ windowBefore input start := by
  conv_lhs => rw [← List.take_append_drop (start - window) (input.take start)]
  rw [List.take_take, Nat.min_eq_left (Nat.sub_le _ _), windowBefore]

theorem windowCall_output_ne_nil (input counter : Bytes) (start : Nat) :
    (windowCall input counter start).output ≠ [] := by
  rw [output_windowCall]
  refine List.ne_nil_of_length_pos ?_
  rw [Salsa20.length_hsalsa20]
  decide

/-- The last piece gives at least one octet, and as many as the widest digest has at most. -/
theorem last_le {total : Nat} (ht : 0 < total) :
    0 < total - chunk * ((total - 1) / chunk) ∧ total - chunk * ((total - 1) / chunk) ≤ 64 := by
  have hc : chunk = 64 := rfl
  rw [hc]
  omega

theorem length_pieceCall (piece : Bytes) : (pieceCall piece).output.length = 64 := by
  rw [output_pieceCall, Blake2b.length_digest]
  rfl

theorem pieceCall_output_ne_nil (piece : Bytes) : (pieceCall piece).output ≠ [] :=
  List.ne_nil_of_length_pos (by rw [length_pieceCall]; decide)

theorem narrowestCall_output_ne_nil (piece : Bytes) {n : Nat} (hpos : 0 < n) (hn : n ≤ 64) :
    (narrowestCall piece n).output ≠ [] := by
  refine List.ne_nil_of_length_pos ?_
  rwa [output_narrowestCall, length_narrowest piece hn]

/-- Two calls with one output are of one input, or they collide. -/
theorem Call.eq_or_collide {c c' : Call} (hp : c.primitive = c'.primitive) (hk : c.kept = c'.kept)
    (hl : c.input.length = c'.input.length) (h : c.output = c'.output) (hne : c.output ≠ []) :
    c.input = c'.input ∨ c.Collide c' := by
  by_cases hx : c.input = c'.input
  · exact .inl hx
  · exact .inr ⟨hp, hk, hl, hx, h, hne⟩

section
variable {r r' : Bytes} (hl : r.length = r'.length)
include hl

theorem windowCall_agree {counter : Bytes} {start : Nat}
    (h : (windowCall r counter start).output = (windowCall r' counter start).output) :
    windowBefore r start = windowBefore r' start ∨
      (windowCall r counter start).Collide (windowCall r' counter start) := by
  have hlen : (windowBefore r start).length = (windowBefore r' start).length := by
    rw [length_windowBefore, length_windowBefore, hl]
  exact @Call.eq_or_collide (windowCall r counter start) (windowCall r' counter start) rfl rfl hlen
    h (windowCall_output_ne_nil r counter start)

/-- **Two runs of the loop** for secrets of one length that come to the same octets: before the
windows that were used the secrets agree, or somewhere calls collide. -/
theorem expandFromTraced_agree {counter tail tail' : Bytes} {start stop : Nat}
    (hn : window ≤ r.length ∨ stop - start < window) (hs : start ≤ stop)
    (hsl : start ≤ r.length) (ht : tail.length = tail'.length)
    (h : (expandFromTraced r counter start stop tail).output =
      (expandFromTraced r' counter start stop tail').output) :
    tail = tail' ∧ (r.take start = r'.take start ∨
      Collision (expandFromTraced r counter start stop tail).calls
        (expandFromTraced r' counter start stop tail').calls) := by
  have hw : window = 16 := rfl
  have htake {start stop : Nat} (hs : start ≤ stop) (h : r.take stop = r'.take stop) :
      r.take start = r'.take start := by
    have h := congrArg (List.take start) h
    rwa [List.take_take, List.take_take, Nat.min_eq_left hs] at h
  fun_induction expandFrom r counter start stop tail generalizing tail' with
  | case1 counter start stop tail hg hst =>
    rw [expandFromTraced_kept hst (.inl hg), expandFromTraced_kept (hl ▸ hst) (.inl hg)] at h
    obtain ⟨he, rfl⟩ := List.append_inj' h ht
    exact ⟨rfl, .inl (htake hs he)⟩
  | case2 counter start stop tail hg hst =>
    have hst := Nat.not_le.1 hst
    rw [expandFromTraced_gap hst hg, expandFromTraced_gap (hl ▸ hst) hg] at h
    obtain ⟨he, rfl⟩ := List.append_inj' h ht
    refine ⟨rfl, .inl (List.append_inj_left he ?_)⟩
    rw [List.length_take, List.length_take, hl]
  | case3 counter start stop tail hg hlow hst =>
    have hst := hst.resolve_right (Nat.not_lt.2 (hn.resolve_right hg))
    rw [expandFromTraced_kept hst (.inr hlow), expandFromTraced_kept (hl ▸ hst) (.inr hlow)] at h
    obtain ⟨he, rfl⟩ := List.append_inj' h ht
    exact ⟨rfl, .inl (htake hs he)⟩
  | case4 counter start stop tail hg hlow hst ih =>
    obtain ⟨hst, hn⟩ := not_or.1 hst
    have hst := Nat.not_le.1 hst
    have hn := Nat.not_lt.1 hn
    have hg := Nat.not_lt.1 hg
    rw [expandFromTraced_again hn hst hg hlow,
      expandFromTraced_again (hl ▸ hn) (hl ▸ hst) hg hlow, ← hl] at h ⊢
    obtain ⟨rfl, h⟩ := ih (.inl hn) hst.le le_rfl ht h
    exact ⟨rfl, h.imp_left (htake hsl)⟩
  | case5 counter start stop tail hg hlow block =>
    rename_i ih
    have hg := Nat.not_lt.1 hg
    have hlow := Nat.not_lt.1 hlow
    have hb : block = (windowCall r counter start).output :=
      (output_windowCall r counter start).symm
    rw [hb] at ih
    rw [expandFromTraced_block hg hlow, expandFromTraced_block hg hlow] at h ⊢
    dsimp only at h ⊢
    have hlen : (windowCall r counter start).output.length =
        (windowCall r' counter start).output.length := by
      rw [output_windowCall, output_windowCall, Salsa20.length_hsalsa20, Salsa20.length_hsalsa20]
    obtain ⟨htail, h⟩ := ih (.inl (by omega)) (by omega) (by omega)
      (by rw [List.length_append, List.length_append, hlen, ht]) h
    obtain ⟨hblock, rfl⟩ := List.append_inj htail hlen
    refine ⟨rfl, ?_⟩
    rcases h with h | h
    · -- the secrets agree before this window, so they agree in it too, or its call collides
      rcases windowCall_agree hl hblock with hw | hc
      · left
        rw [take_eq_take_append r, take_eq_take_append r', h, hw]
      · exact .inr (Collision.head hc _ _)
    · exact .inr (Collision.tail h _ _)

theorem expandTraced_agree {total : Nat} (ht : r.length < total)
    (h : (expandTraced r total).output = (expandTraced r' total).output) :
    r = r' ∨ Collision (expandTraced r total).calls (expandTraced r' total).calls := by
  by_cases hn : window ≤ r.length ∨ total - r.length < window
  · rw [expandTraced_of_loop hn, expandTraced_of_loop (hl ▸ hn), ← hl] at h ⊢
    obtain ⟨-, h⟩ := expandFromTraced_agree hl hn ht.le le_rfl rfl h
    refine h.imp_left fun h => ?_
    rwa [List.take_length, hl, List.take_length] at h
  · rw [not_or, Nat.not_le, Nat.not_lt] at hn
    obtain ⟨hn, hg⟩ := hn
    have hn' : r'.length < window := hl ▸ hn
    have hw := length_widen hn
    have hw' := length_widen hn'
    have hback (h : widen r = widen r') : r = r' := List.append_inj_left h hl
    rw [expandTraced_of_short hn hg, expandTraced_of_short hn' (hl ▸ hg)] at h ⊢
    by_cases htw : total = window
    · simp only [if_pos htw] at h ⊢
      exact .inl (hback h)
    · simp only [if_neg htw] at h ⊢
      obtain ⟨-, h | h⟩ := expandFromTraced_agree (hw.trans hw'.symm) (.inl hw.ge) (by omega) hw.ge
        (rfl : ([] : Bytes).length = ([] : Bytes).length) h
      · rw [List.take_of_length_le hw.le, List.take_of_length_le hw'.le] at h
        exact .inl (hback h)
      · exact .inr (Collision.tail h _ _)

theorem shrinkFromTraced_agree {width n more : Nat} (hpos : 0 < n) (hn : n ≤ 64)
    (h : (shrinkFromTraced width n more r).output = (shrinkFromTraced width n more r').output) :
    r = r' ∨ Collision (shrinkFromTraced width n more r).calls
      (shrinkFromTraced width n more r').calls := by
  induction more generalizing r r' with
  | zero =>
    have hc := @Call.eq_or_collide (narrowestCall r n) (narrowestCall r' n) rfl rfl hl h
      (narrowestCall_output_ne_nil r hpos hn)
    exact hc.imp_right fun hc => Collision.head hc [] []
  | succ more ih =>
    rw [shrinkFromTraced, shrinkFromTraced] at h ⊢
    dsimp only at h ⊢
    obtain ⟨hhead, htail⟩ := List.append_inj h
      ((length_pieceCall _).trans (length_pieceCall _).symm)
    have hld : (r.drop width).length = (r'.drop width).length := by
      rw [List.length_drop, List.length_drop, hl]
    have hlt : (r.take width).length = (r'.take width).length := by
      rw [List.length_take, List.length_take, hl]
    rcases ih hld htail with hd | hc
    · rcases @Call.eq_or_collide (pieceCall (r.take width)) (pieceCall (r'.take width)) rfl rfl hlt
        hhead (pieceCall_output_ne_nil _) with ht | hc
      · left
        have ht : r.take width = r'.take width := ht
        rw [← List.take_append_drop width r, ← List.take_append_drop width r', ht, hd]
      · exact .inr (Collision.head hc _ _)
    · exact .inr (Collision.tail hc _ _)

theorem traced_agree {total : Nat} (ht : 0 < total)
    (h : (traced r total).output = (traced r' total).output) :
    r = r' ∨ Collision (traced r total).calls (traced r' total).calls := by
  rw [traced, traced, ← hl] at h ⊢
  simp only [if_neg ht.ne'] at h ⊢
  by_cases hlt : r.length < total
  · simp only [if_pos hlt] at h ⊢
    exact expandTraced_agree hl hlt h
  · simp only [if_neg hlt] at h ⊢
    by_cases hgt : total < r.length
    · simp only [if_pos hgt] at h ⊢
      exact shrinkFromTraced_agree hl (last_le ht).1 (last_le ht).2 h
    · simp only [if_neg hgt] at h ⊢
      exact .inl h

end

/-! ## The octets of a secret -/

/-- The octet at place `p` of a secret of `n` octets is not changed. -/
def Kept (n p : Nat) (f : Bytes → Traced) : Prop :=
  ∀ r : Bytes, r.length = n → (f r).output[p]? = r[p]?

/-- The octet at place `p` of a secret of `n` octets goes into a call, at one place for all secrets,
and what the call gives is part of the material. -/
def Covered (n p : Nat) (f : Bytes → Traced) : Prop :=
  ∃ i k : Nat, ∀ r : Bytes, r.length = n → ∃ c, (f r).calls[i]? = some c ∧ c.input[k]? = r[p]? ∧
    c.output ≠ [] ∧ c.output <:+: (f r).output

/-- An octet makes a difference to the material, as far as the primitives can tell. -/
def Survives (n p : Nat) (f : Bytes → Traced) : Prop := Kept n p f ∨ Covered n p f

section
variable {n p : Nat} {f g : Bytes → Traced}

theorem Survives.congr (hg : Survives n p g) (h : ∀ r : Bytes, r.length = n → f r = g r) :
    Survives n p f := by
  rcases hg with hg | ⟨i, k, hg⟩
  · left
    intro r hr
    rw [h r hr, hg r hr]
  · right
    refine ⟨i, k, fun r hr => ?_⟩
    rw [h r hr]
    exact hg r hr

theorem Covered.head (c : Bytes → Call) (k : Nat)
    (h : ∀ r : Bytes, r.length = n → (∃ cs, (f r).calls = c r :: cs) ∧ (c r).input[k]? = r[p]? ∧
      (c r).output ≠ [] ∧ (c r).output <:+: (f r).output) : Covered n p f := by
  refine ⟨0, k, fun r hr => ?_⟩
  obtain ⟨⟨cs, hcs⟩, hk, hne, hin⟩ := h r hr
  exact ⟨c r, by rw [hcs]; rfl, hk, hne, hin⟩

/-- What goes into a call of a computation goes into a call of one that begins with another call. -/
theorem Covered.tail {n' p' : Nat} (hg : Covered n' p' g) (s : Bytes → Bytes)
    (h : ∀ r : Bytes, r.length = n → (s r).length = n' ∧ (s r)[p']? = r[p]? ∧
      (∃ c, (f r).calls = c :: (g (s r)).calls) ∧ (g (s r)).output <:+: (f r).output) :
    Covered n p f := by
  obtain ⟨i, k, hg⟩ := hg
  refine ⟨i + 1, k, fun r hr => ?_⟩
  obtain ⟨hl, hp, ⟨c, hc⟩, hin⟩ := h r hr
  obtain ⟨c', hi, hk, hne, hin'⟩ := hg (s r) hl
  exact ⟨c', by rw [hc]; exact hi, hk.trans hp, hne, hin'.trans hin⟩

end

theorem suffix_expandFromTraced (input counter : Bytes) (start stop : Nat) (tail : Bytes) :
    tail <:+ (expandFromTraced input counter start stop tail).output := by
  rw [output_expandFromTraced]
  fun_induction expandFrom input counter start stop tail with
  | case1 counter start stop tail hg hs => exact List.suffix_append _ _
  | case2 counter start stop tail hg hs => exact List.suffix_append _ _
  | case3 counter start stop tail hg hst hs => exact List.suffix_append _ _
  | case4 counter start stop tail hg hst hs ih => exact ih
  | case5 counter start stop tail hg hst block =>
    rename_i ih
    exact (List.suffix_append block tail).trans ih

theorem getElem?_take_append {r x : Bytes} {p stop : Nat} (hp : p < stop) (hs : stop ≤ r.length) :
    (r.take stop ++ x)[p]? = r[p]? := by
  rw [List.getElem?_append_left, List.getElem?_take_of_lt hp]
  rwa [List.length_take_of_le hs]

theorem getElem?_windowBefore {r : Bytes} {p start : Nat} (hl : start - window ≤ p)
    (hp : p < start) : (windowBefore r start)[p - (start - window)]? = r[p]? := by
  rw [windowBefore, List.getElem?_drop, Nat.add_sub_cancel' hl, List.getElem?_take_of_lt hp]

theorem expandFromTraced_survives {p : Nat} {r₀ counter t₀ : Bytes} {start stop : Nat}
    (hn : window ≤ r₀.length ∨ stop - start < window) (hs : start ≤ stop)
    (hsl : start ≤ r₀.length) (hp : p < start) (tail : Bytes → Bytes) :
    Survives r₀.length p fun r => expandFromTraced r counter start stop (tail r) := by
  have hw : window = 16 := rfl
  have hkept {counter : Bytes} {start stop : Nat} (hst : stop ≤ r₀.length)
      (hg : stop - start < window ∨ start < window) (hp : p < stop) (tail : Bytes → Bytes) :
      Survives r₀.length p fun r => expandFromTraced r counter start stop (tail r) := by
    left
    intro r hr
    have hst : stop ≤ r.length := hr ▸ hst
    dsimp only
    rw [expandFromTraced_kept hst hg]
    exact getElem?_take_append hp hst
  fun_induction expandFrom r₀ counter start stop t₀ generalizing tail with
  | case1 counter start stop _ hg hst => exact hkept hst (.inl hg) (by omega) tail
  | case2 counter start stop _ hg hst =>
    left
    intro r hr
    dsimp only
    rw [expandFromTraced_gap (by omega) hg, List.append_assoc]
    exact getElem?_take_append hp (hr ▸ hsl)
  | case3 counter start stop _ hg hlow hst =>
    have hst := hst.resolve_right (Nat.not_lt.2 (hn.resolve_right hg))
    exact hkept hst (.inr hlow) (by omega) tail
  | case4 counter start stop _ hg hlow hst ih =>
    obtain ⟨hst, hn⟩ := not_or.1 hst
    refine (ih (.inl (Nat.not_lt.1 hn)) (Nat.not_le.1 hst).le le_rfl (by omega) tail).congr ?_
    intro r hr
    rw [expandFromTraced_again (by omega) (by omega) (by omega) hlow, hr]
  | case5 counter start stop _ hg hlow block =>
    rename_i ih
    have hg := Nat.not_lt.1 hg
    have hlow := Nat.not_lt.1 hlow
    by_cases hp' : p < start - window
    · rcases ih (.inl (by omega)) (by omega) (by omega) hp' fun r =>
        (windowCall r counter start).output ++ tail r with h | h
      · left
        intro r hr
        dsimp only
        rw [expandFromTraced_block hg hlow]
        exact h r hr
      · right
        refine h.tail id fun r hr => ?_
        rw [expandFromTraced_block hg hlow]
        exact ⟨hr, rfl, ⟨_, rfl⟩, List.infix_rfl⟩
    · right
      refine Covered.head (windowCall · counter start) (p - (start - window)) fun r hr => ?_
      rw [expandFromTraced_block hg hlow]
      refine ⟨⟨_, rfl⟩, getElem?_windowBefore (Nat.not_lt.1 hp') hp,
        windowCall_output_ne_nil r counter start, ?_⟩
      exact (List.prefix_append _ _).isInfix.trans (suffix_expandFromTraced _ _ _ _ _).isInfix

theorem expandTraced_survives {n p total : Nat} (ht : n < total) (hp : p < n) :
    Survives n p fun r => expandTraced r total := by
  have hw : window = 16 := rfl
  have hz (n : Nat) : (Bytes.zeros n).length = n := Bytes.length_zeros n
  by_cases hn : window ≤ n ∨ total - n < window
  · have hs := @expandFromTraced_survives p (.zeros n) sigma16 [] n total
    rw [hz] at hs
    refine (hs hn ht.le le_rfl hp fun _ => []).congr fun r hr => ?_
    rw [expandTraced_of_loop (hr ▸ hn), hr]
  · rw [not_or, Nat.not_le, Nat.not_lt] at hn
    obtain ⟨hn, hg⟩ := hn
    have hkeep {r : Bytes} (hr : r.length = n) : (widen r)[p]? = r[p]? :=
      List.getElem?_append_left (hr ▸ hp)
    by_cases htw : total = window
    · left
      intro r hr
      dsimp only
      rw [expandTraced_of_short (hr ▸ hn) (hr ▸ hg), if_pos htw]
      exact hkeep hr
    · have hs := @expandFromTraced_survives p (.zeros window) sigma16 [] window total
      rw [hz] at hs
      rcases hs (.inl le_rfl) (by omega) le_rfl (by omega) fun _ => [] with h | h
      · left
        intro r hr
        have hr' : r.length < window := hr ▸ hn
        dsimp only
        rw [expandTraced_of_short hr' (hr ▸ hg), if_neg htw]
        exact (h (widen r) (length_widen hr')).trans (hkeep hr)
      · right
        refine h.tail widen fun r hr => ?_
        have hr' : r.length < window := hr ▸ hn
        rw [expandTraced_of_short hr' (hr ▸ hg), if_neg htw]
        exact ⟨length_widen hr', hkeep hr, ⟨_, rfl⟩, List.infix_rfl⟩

theorem shrinkFromTraced_covered {n p width last more : Nat} (hpos : 0 < last) (hlast : last ≤ 64)
    (hp : p < n) : Covered n p fun r => shrinkFromTraced width last more r := by
  induction more generalizing n p with
  | zero =>
    refine Covered.head (narrowestCall · last) p fun r hr => ?_
    exact ⟨⟨[], rfl⟩, rfl, narrowestCall_output_ne_nil r hpos hlast, List.infix_rfl⟩
  | succ more ih =>
    by_cases hw : p < width
    · refine Covered.head (fun r => pieceCall (r.take width)) p fun r hr => ?_
      refine ⟨⟨_, rfl⟩, List.getElem?_take_of_lt hw, pieceCall_output_ne_nil _, ?_⟩
      exact (List.prefix_append _ _).isInfix
    · have hg : Covered (n - width) (p - width) fun r => shrinkFromTraced width last more r :=
        ih (by omega)
      refine hg.tail (List.drop width) fun r hr => ?_
      refine ⟨?_, ?_, ⟨_, rfl⟩, (List.suffix_append _ _).isInfix⟩
      · rw [List.length_drop, hr]
      · rw [List.getElem?_drop, Nat.add_sub_cancel' (Nat.not_lt.1 hw)]

theorem traced_survives {n p total : Nat} (ht : 0 < total) (hp : p < n) :
    Survives n p fun r => traced r total := by
  rcases Nat.lt_trichotomy n total with hlt | rfl | hgt
  · refine (expandTraced_survives hlt hp).congr fun r hr => ?_
    rw [traced, if_neg ht.ne', if_pos (hr ▸ hlt)]
  · left
    intro r hr
    dsimp only
    rw [traced, if_neg ht.ne', if_neg hr.not_lt, if_neg hr.not_gt]
  · have hs : Survives n p fun r =>
        shrinkFromTraced (n / ((total - 1) / chunk + 1))
          (total - chunk * ((total - 1) / chunk)) ((total - 1) / chunk) r :=
      .inr (shrinkFromTraced_covered (last_le ht).1 (last_le ht).2 hp)
    refine hs.congr fun r hr => ?_
    rw [traced, if_neg ht.ne', if_neg (by omega), if_pos (by omega), hr]

/-- **No octet of a secret is lost.** Material of at least one octet is made by the calls of a
computation. If two secrets of one length come to the same material, then they are the same, or at
one place of the two computations a primitive gives the same octets for different inputs of one
length. Every octet of a secret stays where it is, or goes into a call that gives a part of the
material. -/
theorem resize_agree {total : Nat} (ht : 0 < total) :
    (∀ raw, (traced raw total).output = resize raw total) ∧
      (∀ r r' : Bytes, r.length = r'.length → resize r total = resize r' total →
        r = r' ∨ Collision (traced r total).calls (traced r' total).calls) ∧
      ∀ n p, p < n → Survives n p fun r => traced r total := by
  refine ⟨fun raw => output_traced raw total, ?_, fun n p hp => traced_survives ht hp⟩
  intro r r' hl h
  rw [← output_traced, ← output_traced] at h
  exact traced_agree hl ht h

/-- Two secrets of two octets with the same first octet of a digest. -/
theorem resize_agree_octet :
    let r : Bytes := [4, 0]
    let r' : Bytes := [20, 0]
    r.length = r'.length ∧ resize r 1 = resize r' 1 ∧
      Collision (traced r 1).calls (traced r' 1).calls ∧
      ∀ p < 2, Survives 2 p fun r => traced r 1 := by
  intro r r'
  have h : resize r 1 = resize r' 1 := by decide +kernel
  obtain ⟨-, hagree, hsurvives⟩ := resize_agree (by decide : 0 < 1)
  have hne : r ≠ r' := by decide
  exact ⟨rfl, h, (hagree r r' rfl h).resolve_left hne, hsurvives 2⟩

end SealedStream.KeyStretch
