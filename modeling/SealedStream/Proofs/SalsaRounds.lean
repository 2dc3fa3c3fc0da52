import Mathlib
import SealedStream.Proofs.Numerals
import SealedStream.Salsa20
/-!
# The rounds of Salsa20

How a double round is put together from quarter rounds, and that nothing is lost in it.

* `Four` are four places of a state. What is changed at separate places may be changed in any
  order (`Four.changeAll_perm`), each change sees the words from before (`Four.read_changeAll`), and
  it may as well be made where a permutation puts the words (`Four.permute_changeAll`).
* `Salsa20.rows` and `Salsa20.columns` are the places that the two halves of a double round change.
* `Salsa20.mix` is one step of a quarter round in place, which a second one undoes. A quarter round
  is four of them (`Salsa20.quarterRound_eq_mix`), so it is a bijection, and so are rounds in any
  number (`Salsa20.bijective_rounds`).
* `Bytes.words32_ofWords32` and `Bytes.ofWords32_words32`: words are read back from their octets,
  and octets are those of the words read from them.
-/
namespace SealedStream

/-! ## Changes at four places -/

/-- Four places of a state. -/
structure Four (n : Nat) where
  i : Fin n
  j : Fin n
  k : Fin n
  l : Fin n
  deriving DecidableEq

namespace Four
variable {α : Type} {n : Nat}

def toList (q : Four n) : List (Fin n) := [q.i, q.j, q.k, q.l]

def map (σ : Fin n → Fin n) (q : Four n) : Four n := ⟨σ q.i, σ q.j, σ q.k, σ q.l⟩

def read (q : Four n) (v : Vector α n) : α × α × α × α :=
  (v.get q.i, v.get q.j, v.get q.k, v.get q.l)

/-- The function of four words, of the words together. -/
def together (f : α → α → α → α → α × α × α × α) (w : α × α × α × α) : α × α × α × α :=
  f w.1 w.2.1 w.2.2.1 w.2.2.2

def change (f : α → α → α → α → α × α × α × α) (q : Four n) (v : Vector α n) : Vector α n :=
  onFour f q.i q.j q.k q.l v

def changeAll (f : α → α → α → α → α × α × α × α) (qs : List (Four n)) (v : Vector α n) :
    Vector α n :=
  qs.foldl (fun v q => q.change f v) v

/-- The state whose word at each place is that at its image. -/
def permute (σ : Fin n → Fin n) (v : Vector α n) : Vector α n := .ofFn fun m => v.get (σ m)

/-- No place is among the places twice. -/
def Apart (qs : List (Four n)) : Prop := (qs.flatMap toList).Nodup

instance (qs : List (Four n)) : Decidable (Apart qs) := inferInstanceAs (Decidable (List.Nodup _))

section
variable {f : α → α → α → α → α × α × α × α} {p q : Four n} {qs ps : List (Four n)}
  {v w : Vector α n} {m : Fin n}

theorem eq_of_get (h : ∀ m, v.get m = w.get m) : v = w := Vector.ext fun m hm => h ⟨m, hm⟩

theorem get_set (v : Vector α n) (i m : Fin n) (a : α) :
    (v.set i a i.isLt).get m = if i = m then a else v.get m := by
  rw [Vector.get_eq_getElem, Vector.getElem_set, Vector.get_eq_getElem]
  simp only [Fin.ext_iff]

theorem read_congr (h : ∀ m ∈ q.toList, v.get m = w.get m) : q.read v = q.read w := by
  simp only [toList, List.forall_mem_cons] at h
  obtain ⟨hi, hj, hk, hl, -⟩ := h
  rw [read, read, hi, hj, hk, hl]

theorem get_eq_of_read (h : q.read v = q.read w) (hm : m ∈ q.toList) : v.get m = w.get m := by
  simp only [read, Prod.mk.injEq] at h
  obtain ⟨hi, hj, hk, hl⟩ := h
  simp only [toList, List.mem_cons, List.not_mem_nil, or_false] at hm
  rcases hm with rfl | rfl | rfl | rfl <;> assumption

theorem eq_of_read (h : q.read v = q.read w) (hn : ∀ m ∉ q.toList, v.get m = w.get m) : v = w := by
  refine eq_of_get fun m => ?_
  by_cases hm : m ∈ q.toList
  · exact get_eq_of_read h hm
  · exact hn m hm

theorem get_change_of_notMem (hm : m ∉ q.toList) : (q.change f v).get m = v.get m := by
  simp only [toList, List.mem_cons, List.not_mem_nil, or_false, not_or, @eq_comm _ m] at hm
  obtain ⟨hi, hj, hk, hl⟩ := hm
  simp only [change, onFour, get_set, if_neg hi, if_neg hj, if_neg hk, if_neg hl]

theorem read_change (hq : q.toList.Nodup) : q.read (q.change f v) = together f (q.read v) := by
  simp only [toList, List.nodup_cons, List.mem_cons, List.not_mem_nil, or_false, not_or] at hq
  obtain ⟨⟨hij, hik, hil⟩, ⟨hjk, hjl⟩, hkl, -⟩ := hq
  simp only [read, change, onFour, get_set, if_true, if_neg (Ne.symm hij), if_neg (Ne.symm hik),
    if_neg (Ne.symm hil), if_neg (Ne.symm hjk), if_neg (Ne.symm hjl), if_neg (Ne.symm hkl)]
  rfl

theorem read_change_of_disjoint (h : q.toList.Disjoint p.toList) :
    p.read (q.change f v) = p.read v :=
  read_congr fun _ hm => get_change_of_notMem fun hq => h hq hm

/-- **Changes at separate places** may be made in either order. -/
theorem change_comm (hp : p.toList.Nodup) (hq : q.toList.Nodup) (h : p.toList.Disjoint q.toList) :
    p.change f (q.change f v) = q.change f (p.change f v) := by
  refine p.eq_of_read ?_ fun m hm => ?_
  · rw [read_change hp, read_change_of_disjoint h.symm, read_change_of_disjoint h.symm,
      read_change hp]
  · rw [get_change_of_notMem hm]
    by_cases hmq : m ∈ q.toList
    · refine get_eq_of_read ?_ hmq
      rw [read_change hq, read_change hq, read_change_of_disjoint h]
    · rw [get_change_of_notMem hmq, get_change_of_notMem hmq, get_change_of_notMem hm]

/-! ### Changes one after another -/

theorem apart_cons : Apart (q :: qs) ↔
    q.toList.Nodup ∧ Apart qs ∧ ∀ p ∈ qs, q.toList.Disjoint p.toList := by
  rw [Apart, List.flatMap_cons, List.nodup_append']
  refine and_congr_right fun _ => and_congr_right fun _ => ?_
  simp only [List.disjoint_left, List.mem_flatMap]
  exact ⟨fun h p hp m hm hmp => h hm ⟨p, hp, hmp⟩, fun h m hm ⟨p, hp, hmp⟩ => h p hp hm hmp⟩

theorem Apart.nodup (h : Apart qs) (hq : q ∈ qs) : q.toList.Nodup :=
  (List.nodup_flatMap.1 h).1 q hq

theorem Apart.disjoint (h : Apart qs) (hp : p ∈ qs) (hq : q ∈ qs) (hne : p ≠ q) :
    p.toList.Disjoint q.toList := by
  have hsymm : Std.Symm (Function.onFun List.Disjoint (@toList n)) :=
    ⟨fun _ _ hd => List.Disjoint.symm hd⟩
  exact (List.nodup_flatMap.1 h).2.forall hp hq hne

/-- **The order of changes at separate places** does not matter. -/
theorem changeAll_perm (h : Apart qs) (hp : qs.Perm ps) : changeAll f qs v = changeAll f ps v := by
  refine hp.foldl_eq' (fun p hp q hq v => ?_) v
  by_cases hpq : p = q
  · rw [hpq]
  · exact change_comm (h.nodup hq) (h.nodup hp) (h.disjoint hq hp (Ne.symm hpq))

theorem read_changeAll_of_disjoint (h : ∀ p ∈ qs, p.toList.Disjoint q.toList) :
    q.read (changeAll f qs v) = q.read v := by
  induction qs generalizing v with
  | nil => rfl
  | cons p qs ih =>
    obtain ⟨hp, hqs⟩ := List.forall_mem_cons.1 h
    exact (ih hqs).trans (read_change_of_disjoint hp)

/-- **Each change sees the words from before.** -/
theorem read_changeAll (h : Apart qs) (hq : q ∈ qs) :
    q.read (changeAll f qs v) = together f (q.read v) := by
  induction qs generalizing v with
  | nil => cases hq
  | cons p qs ih =>
    obtain ⟨hp, hqs, hd⟩ := apart_cons.1 h
    rcases List.mem_cons.1 hq with rfl | hq
    · exact (read_changeAll_of_disjoint fun p hm => (hd p hm).symm).trans (read_change hp)
    · refine (ih hqs hq).trans ?_
      rw [read_change_of_disjoint (hd q hq)]

/-! ### Permuted states -/

variable {σ : Fin n → Fin n} (hσ : σ.Involutive)
include hσ

theorem permute_permute : permute σ (permute σ v) = v :=
  eq_of_get fun m => by rw [permute, Vector.get_ofFn, permute, Vector.get_ofFn, hσ]

theorem map_map (q : Four n) : (q.map σ).map σ = q := by
  obtain ⟨i, j, k, l⟩ := q
  simp only [map, hσ i, hσ j, hσ k, hσ l]

theorem permute_change (hq : q.toList.Nodup) :
    permute σ (q.change f v) = (q.map σ).change f (permute σ v) := by
  have hread (q : Four n) (v : Vector α n) : q.read (permute σ v) = (q.map σ).read v := by
    simp only [read, map, permute, Vector.get_ofFn]
  have hmap : (q.map σ).toList = q.toList.map σ := rfl
  refine (q.map σ).eq_of_read ?_ fun m hm => ?_
  · rw [read_change (hmap ▸ hq.map hσ.injective), hread, hread, map_map hσ, read_change hq]
  · have hm' : σ m ∉ q.toList := fun hmem => hm (hmap ▸ List.mem_map.2 ⟨_, hmem, hσ m⟩)
    rw [get_change_of_notMem hm, permute, permute, Vector.get_ofFn, Vector.get_ofFn,
      get_change_of_notMem hm']

/-- **Changes may be made where a permutation puts the words.** -/
theorem permute_changeAll (h : ∀ q ∈ qs, q.toList.Nodup) :
    permute σ (changeAll f qs v) =
      changeAll f (qs.map (map σ)) (permute σ v) := by
  induction qs generalizing v with
  | nil => rfl
  | cons q qs ih =>
    obtain ⟨hq, hqs⟩ := List.forall_mem_cons.1 h
    refine (ih hqs).trans ?_
    rw [permute_change hσ hq]
    rfl

end

end Four

/-! ## Words and octets -/

namespace Bytes

theorem word32_ofNatLE (w : UInt32) (bs : Bytes) : word32 (ofNatLE 4 w.toNat ++ bs) = w := by
  have hw : w.toNat < 256 ^ 4 := w.toNat_lt
  rw [word32, List.take_left' (length_ofNatLE 4 _), toNatLE_ofNatLE hw, UInt32.ofNat_toNat]

theorem ofNatLE_word32 {bs : Bytes} (h : 4 ≤ bs.length) :
    ofNatLE 4 (word32 bs).toNat = bs.take 4 := by
  have hl : (bs.take 4).length = 4 := List.length_take_of_le h
  have hn := ofNatLE_mod 4 (toNatLE (bs.take 4))
  have hbs := ofNatLE_toNatLE (bs.take 4)
  rw [hl] at hbs
  rw [word32, UInt32.toNat_ofNat']
  exact hn.trans hbs

theorem ofWords32_cons (w : UInt32) (ws : List UInt32) :
    ofWords32 (w :: ws) = ofNatLE 4 w.toNat ++ ofWords32 ws := List.flatMap_cons

theorem toList_words32_succ (n : Nat) (bs : Bytes) :
    (words32 (n + 1) bs).toList = word32 bs :: (words32 n (bs.drop 4)).toList := by
  rw [words32, Vector.toList_ofFn, List.ofFn_succ, words32, Vector.toList_ofFn]
  refine congrArg (List.cons _) (congrArg List.ofFn (funext fun i => ?_))
  rw [List.drop_drop, Fin.val_succ, Nat.mul_add, Nat.mul_one, Nat.add_comm]

theorem toList_words32_ofWords32 (ws : List UInt32) :
    (words32 ws.length (ofWords32 ws)).toList = ws := by
  induction ws with
  | nil => rfl
  | cons w ws ih =>
    rw [List.length_cons, toList_words32_succ, ofWords32_cons, word32_ofNatLE,
      List.drop_left' (length_ofNatLE 4 _), ih]

/-- **Words are read back from their octets.** -/
theorem words32_ofWords32 {n : Nat} (v : Vector UInt32 n) : words32 n (ofWords32 v.toList) = v := by
  have h := toList_words32_ofWords32 v.toList
  rw [Vector.length_toList] at h
  exact Vector.toList_inj.1 h

/-- **Octets are those of the words that are read from them.** -/
theorem ofWords32_words32 {n : Nat} {bs : Bytes} (h : bs.length = 4 * n) :
    ofWords32 (words32 n bs).toList = bs := by
  induction n generalizing bs with
  | zero =>
    rw [List.length_eq_zero_iff.1 h]
    rfl
  | succ n ih =>
    have hd : (bs.drop 4).length = 4 * n := by
      rw [List.length_drop]
      omega
    rw [toList_words32_succ, ofWords32_cons, ofNatLE_word32 (by omega), ih hd,
      List.take_append_drop]

end Bytes

namespace Salsa20

/-! ## Places -/

/-- The place in a row and in a column of the matrix. -/
def place (r c : Fin 4) : Fin 16 := ⟨4 * r + c, by omega⟩

/-- The places of a row, beginning on the diagonal and going around. -/
def row (r : Fin 4) : Four 16 := ⟨place r r, place r (r + 1), place r (r + 2), place r (r + 3)⟩

/-- The places of a column, beginning on the diagonal and going around. -/
def column (c : Fin 4) : Four 16 := ⟨place c c, place (c + 1) c, place (c + 2) c, place (c + 3) c⟩

def rows : List (Four 16) := [row 0, row 1, row 2, row 3]

def columns : List (Four 16) := [column 0, column 1, column 2, column 3]

/-- The place across the diagonal. -/
def across (m : Fin 16) : Fin 16 := ⟨4 * (m % 4) + m / 4, by omega⟩

def transpose (x : State) : State := Four.permute across x

theorem across_across : Function.Involutive across := by
  have h : ∀ m, across (across m) = m := by decide
  exact h

theorem apart_rows : Four.Apart rows := by decide

theorem apart_columns : Four.Apart columns := by decide

theorem rowRound_eq (x : State) : rowRound x = Four.changeAll quarter rows x := rfl

theorem columnRound_eq (x : State) : columnRound x = Four.changeAll quarter columns x := rfl

theorem transpose_transpose (x : State) : transpose (transpose x) = x :=
  Four.permute_permute across_across

theorem get_transpose (x : State) (r c : Fin 4) :
    (transpose x).get (place r c) = x.get (place c r) := by
  have h : ∀ r c, across (place r c) = place c r := by decide
  rw [transpose, Four.permute, Vector.get_ofFn, h]

/-- **A round on the columns** is one on the rows of the transposed matrix. -/
theorem columnRound_eq_transpose (x : State) :
    columnRound x = transpose (rowRound (transpose x)) := by
  have hmap : rows.map (Four.map across) = columns := by decide
  rw [rowRound_eq, transpose, Four.permute_changeAll across_across fun q hq => apart_rows.nodup hq,
    hmap, ← transpose, transpose_transpose, columnRound_eq]

/-! ## A quarter round in place -/

/-- A step of a quarter round: one word is mixed with the sum of two others. -/
def mix (i j k : Fin 16) (r : UInt32) (x : State) : State :=
  x.set i (x.get i ^^^ rotl32 (x.get j + x.get k) r)

/-- A step that does not read the word it changes is undone by another one. -/
theorem mix_mix {i j k : Fin 16} (hj : i ≠ j) (hk : i ≠ k) (r : UInt32) :
    Function.Involutive (mix i j k r) := by
  intro x
  refine Four.eq_of_get fun m => ?_
  simp only [mix, Four.get_set, if_neg hj, if_neg hk, if_true, UInt32.xor_assoc, UInt32.xor_self,
    UInt32.xor_zero]
  split_ifs with hm
  · rw [hm]
  · rfl

/-- **A quarter round is four steps in place.** -/
theorem quarterRound_eq_mix {q : Four 16} (h : q.toList.Nodup) (x : State) :
    quarterRound q.i q.j q.k q.l x =
      mix q.i q.l q.k 18 (mix q.l q.k q.j 13 (mix q.k q.j q.i 9 (mix q.j q.i q.l 7 x))) := by
  obtain ⟨i, j, k, l⟩ := q
  simp only [Four.toList, List.nodup_cons, List.mem_cons, List.not_mem_nil, or_false, not_or] at h
  obtain ⟨⟨hij, hik, hil⟩, ⟨hjk, hjl⟩, hkl, -⟩ := h
  refine Four.eq_of_get fun m => ?_
  simp only [quarterRound, onFour, quarter, mix, Four.get_set, if_true, if_neg hjk, if_neg hjl,
    if_neg hkl, if_neg (Ne.symm hij), if_neg (Ne.symm hik), if_neg (Ne.symm hil),
    if_neg (Ne.symm hjk), if_neg (Ne.symm hkl)]
  by_cases hm : i = m
  · subst hm
    simp only [if_true, if_neg (Ne.symm hij), if_neg (Ne.symm hik), if_neg (Ne.symm hil)]
  · simp only [if_neg hm]

theorem bijective_quarterRound {q : Four 16} (h : q.toList.Nodup) :
    Function.Bijective (q.change quarter) := by
  have hmix (x : State) : q.change quarter x = _ := quarterRound_eq_mix h x
  simp only [Four.toList, List.nodup_cons, List.mem_cons, List.not_mem_nil, or_false, not_or] at h
  obtain ⟨⟨hij, hik, hil⟩, ⟨hjk, hjl⟩, hkl, -⟩ := h
  rw [funext hmix]
  exact (mix_mix hil hik 18).bijective.comp <|
    (mix_mix (Ne.symm hkl) (Ne.symm hjl) 13).bijective.comp <|
    (mix_mix (Ne.symm hjk) (Ne.symm hik) 9).bijective.comp (mix_mix (Ne.symm hij) hjl 7).bijective

/-! ## Rounds -/

/-- A round of quarter rounds at separate places, which make up the matrix. The quarter rounds may
come in any order, since each of them sees the words from before the round. -/
structure IsRound (qs : List (Four 16)) (f : State → State) : Prop where
  apart : Four.Apart qs
  covers : ∀ m, ∃ q ∈ qs, m ∈ q.toList
  eq_changeAll : ∀ ps, ps.Perm qs → ∀ x, f x = Four.changeAll quarter ps x
  read : ∀ q ∈ qs, ∀ x, q.read (f x) = Four.together quarter (q.read x)
  bijective : Function.Bijective f

theorem IsRound.of_apart {qs : List (Four 16)} (h : Four.Apart qs)
    (hc : ∀ m, ∃ q ∈ qs, m ∈ q.toList) : IsRound qs (Four.changeAll quarter qs) where
  apart := h
  covers := hc
  eq_changeAll _ hp _ := Four.changeAll_perm h hp.symm
  read _ hq _ := Four.read_changeAll h hq
  bijective := by
    have hq := fun q (hq : q ∈ qs) => h.nodup hq
    clear h hc
    induction qs with
    | nil => exact Function.bijective_id
    | cons q qs ih =>
      obtain ⟨hq, hqs⟩ := List.forall_mem_cons.1 hq
      exact (ih hqs).comp (bijective_quarterRound hq)

theorem isRound_rows : IsRound rows rowRound := .of_apart apart_rows (by decide)

theorem isRound_columns : IsRound columns columnRound := .of_apart apart_columns (by decide)

theorem bijective_doubleRound : Function.Bijective doubleRound :=
  isRound_rows.bijective.comp isRound_columns.bijective

theorem rounds_eq_iterate (n : Nat) (x : State) : rounds n x = doubleRound^[n] x := by
  induction n generalizing x with
  | zero => rfl
  | succ n ih => exact ih (doubleRound x)

theorem bijective_rounds (n : Nat) : Function.Bijective (rounds n) := by
  rw [funext (rounds_eq_iterate n)]
  exact bijective_doubleRound.iterate n

/-- The words of a block after `core208`: those after eight rounds, added to those before. -/
theorem words32_core208 (block : Bytes) : (core208 block).words32 16 =
    (rounds 4 (block.words32 16)).zipWith (· + ·) (block.words32 16) :=
  Bytes.words32_ofWords32 _

/-- **What the rounds of Salsa20 are made of.** A double round is a round on the columns and then
one on the rows, and a round on the columns is one on the rows of the transposed matrix. Each of the
two makes its quarter rounds at separate places, so in any order. A quarter round is a bijection
wherever its places are, since it is four steps in place of which each is undone by itself; hence so
are double rounds in any number, among them the ten of HSalsa20 and the four of Salsa20/8. Salsa20/8
adds the words before to those after its rounds, and words and octets are those of each other. -/
theorem round_structure :
    (∀ x, doubleRound x = rowRound (columnRound x)) ∧
    (∀ x, columnRound x = transpose (rowRound (transpose x))) ∧
    (∀ x r c, (transpose x).get (place r c) = x.get (place c r)) ∧
    IsRound columns columnRound ∧ IsRound rows rowRound ∧
    (∀ q : Four 16, q.toList.Nodup → Function.Bijective (q.change quarter) ∧
      ∀ x, q.change quarter x =
        mix q.i q.l q.k 18 (mix q.l q.k q.j 13 (mix q.k q.j q.i 9 (mix q.j q.i q.l 7 x)))) ∧
    Function.Bijective doubleRound ∧
    (∀ n, Function.Bijective (rounds n) ∧ ∀ x, rounds n x = doubleRound^[n] x) ∧
    (∀ input key constant, hsalsa20 input key constant = Bytes.ofWords32
      ([0, 5, 10, 15, 6, 7, 8, 9].map (rounds 10 (arrange input key constant)).get)) ∧
    (∀ block, (core208 block).length = 64 ∧ (core208 block).words32 16 =
      (rounds 4 (block.words32 16)).zipWith (· + ·) (block.words32 16)) ∧
    (∀ x : State, (Bytes.ofWords32 x.toList).words32 16 = x) ∧
    ∀ block : Bytes, block.length = 64 → Bytes.ofWords32 (block.words32 16).toList = block :=
  ⟨fun _ => rfl, columnRound_eq_transpose, get_transpose, isRound_columns, isRound_rows,
    fun _ hq => ⟨bijective_quarterRound hq, quarterRound_eq_mix hq⟩, bijective_doubleRound,
    fun n => ⟨bijective_rounds n, rounds_eq_iterate n⟩, fun _ _ _ => rfl,
    fun block => ⟨length_core208 block, words32_core208 block⟩, Bytes.words32_ofWords32,
    fun _ hb => Bytes.ofWords32_words32 hb⟩

end Salsa20

end SealedStream
