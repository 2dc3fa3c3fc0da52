import Mathlib
import SealedStream.Encoder
/-!
# How plaintext is cut

* `Bytes.flatten_pieces`: the pieces of a string make it up.
* `Padding.strip_append_fill`: what is filled up can be found again.
* `Plan.session` are the pieces of a plaintext that comes in parts. `session_blocks` and
  `session_all` say that they make up the plaintext, however it comes.
-/
namespace SealedStream

/-! ## Pieces of a string -/

namespace Bytes
variable {n : Nat}

theorem pieces_induction (hn : 0 < n) {P : Bytes → Prop} (nil : P [])
    (cons : ∀ bs, bs ≠ [] → P (bs.drop n) → P bs) (bs : Bytes) : P bs := by
  induction h : bs.length using Nat.strong_induction_on generalizing bs with
  | _ len ih =>
    by_cases hb : bs = []
    · exact hb ▸ nil
    · have hlt : (bs.drop n).length < len := by
        have hpos := List.length_pos_iff.2 hb
        rw [List.length_drop]
        omega
      exact cons bs hb (ih _ hlt _ rfl)

theorem flatten_pieces (hn : 0 < n) (bs : Bytes) : (pieces n bs).flatten = bs := by
  induction bs using pieces_induction hn with
  | nil => rfl
  | cons bs hb ih => rw [pieces_eq_cons hn hb, List.flatten_cons, ih, List.take_append_drop]

theorem length_le_of_mem_pieces (hn : 0 < n) {bs p : Bytes} (h : p ∈ pieces n bs) :
    p.length ≤ n := by
  induction bs using pieces_induction hn with
  | nil => cases h
  | cons bs hb ih =>
    rw [pieces_eq_cons hn hb, List.mem_cons] at h
    rcases h with rfl | h
    · exact List.length_take_le _ _
    · exact ih h

theorem dvd_length_of_mem_pieces {size : Nat} (hn : 0 < n) (hd : size ∣ n) {bs p : Bytes}
    (hb : size ∣ bs.length) (h : p ∈ pieces n bs) : size ∣ p.length := by
  induction bs using pieces_induction hn with
  | nil => cases h
  | cons bs hne ih =>
    rw [pieces_eq_cons hn hne, List.mem_cons] at h
    rcases h with rfl | h
    · rw [List.length_take]
      rcases min_choice n bs.length with hm | hm <;> rw [hm] <;> assumption
    · exact ih (by rw [List.length_drop]; exact Nat.dvd_sub hb hd) h

theorem dvd_length_flatten {size : Nat} {cs : List Bytes} (h : ∀ x ∈ cs, size ∣ x.length) :
    size ∣ cs.flatten.length := by
  rw [List.length_flatten]
  refine List.dvd_sum fun n hn => ?_
  obtain ⟨x, hx, rfl⟩ := List.mem_map.1 hn
  exact h x hx

theorem pieces_ne_nil (hn : 0 < n) {bs : Bytes} (hb : bs ≠ []) : pieces n bs ≠ [] := by
  rw [pieces_eq_cons hn hb]
  exact List.cons_ne_nil _ _

end Bytes

/-! ## Padding -/

namespace Padding

@[simp] theorem length_runs (n : Nat) : (runs n).length = n := by
  fun_induction runs n with
  | case1 n h => simp
  | case2 n h ih =>
    rw [List.length_append, ih, List.length_replicate]
    omega

@[simp] theorem length_fill (n : Nat) : (fill n).length = n := by
  unfold fill
  split_ifs with h
  · rw [h]
    rfl
  · rw [List.length_cons, length_runs]
    omega

/-- Octets that are filled up have the length up to which they are. -/
theorem length_append_fill {bs : Bytes} {n : Nat} (h : bs.length ≤ n) :
    (bs ++ fill (n - bs.length)).length = n := by
  rw [List.length_append, length_fill, Nat.add_sub_cancel' h]

theorem stripReversed_run {n : Nat} (h₀ : 0 < n) (h : n ≤ 255) {bs : Bytes} (hb : bs ≠ []) :
    stripReversed (List.replicate n (UInt8.ofNat n) ++ bs) = stripReversed bs := by
  obtain ⟨m, rfl⟩ : ∃ m, n = m + 1 := ⟨n - 1, by omega⟩
  have hm : (UInt8.ofNat (m + 1)).toNat = m + 1 := by
    rw [UInt8.toNat_ofNat']
    omega
  have hne : UInt8.ofNat (m + 1) ≠ 0 := fun h₀ => by
    rw [h₀] at hm
    cases hm
  rw [List.replicate_succ, List.cons_append, stripReversed, if_neg hne, hm]
  simp [hb]

theorem stripReversed_runs (n : Nat) {bs : Bytes} (hb : bs ≠ []) :
    stripReversed ((runs n).reverse ++ bs) = stripReversed bs := by
  fun_induction runs n generalizing bs with
  | case1 n h =>
    rw [List.reverse_replicate]
    rcases Nat.eq_zero_or_pos n with rfl | hn
    · rfl
    · exact stripReversed_run hn h hb
  | case2 n h ih =>
    rw [List.reverse_append, List.append_assoc, ih (List.append_ne_nil_of_right_ne_nil _ hb),
      List.reverse_replicate]
    exact @stripReversed_run 255 (by decide) le_rfl bs hb

/-- **Padding is found again**, and what is before it. -/
theorem strip_append_fill (bs : Bytes) {n : Nat} (hn : 0 < n) :
    strip (bs ++ fill n) = ⟨bs.length, none⟩ := by
  rw [strip, fill, if_neg hn.ne', List.reverse_append, List.reverse_cons, List.append_assoc,
    stripReversed_runs _ (by simp)]
  simp [stripReversed]

end Padding

/-! ## Plans -/

/-- Pieces of which the final one is the last. -/
def Piece.row (cs : List Bytes) (c : Bytes) : List Piece :=
  cs.map (fun data => { data, last := false }) ++ [{ data := c, last := true }]

theorem Piece.mem_row {cs : List Bytes} {c : Bytes} {p : Piece} :
    p ∈ row cs c ↔ (∃ data ∈ cs, p = ⟨data, false⟩) ∨ p = ⟨c, true⟩ := by
  simp [row, eq_comm]

theorem Piece.map_data_row (cs : List Bytes) (c : Bytes) : (row cs c).map data = cs ++ [c] := by
  rw [row, List.map_append, List.map_map]
  congr 1
  exact List.map_id cs

namespace Plan

/-- The pieces of a plaintext that comes in parts, where `plan` says what is to become of what is
pending. -/
def session (plan : (last : Bool) → Bytes → Plan) (pending : Bytes) : List Bytes → List Piece
  | [] => (plan true pending).pieces
  | d :: ds =>
    let p := plan false (pending ++ d)
    p.pieces ++ session plan p.rest ds

/-! ### All octets at once -/

section
variable {limit : Nat}

theorem rest_all (last : Bool) (pending : Bytes) : (all limit last pending).rest = [] := by
  cases last <;> rfl

variable (hl : 0 < limit)
include hl

theorem all_true (pending : Bytes) :
    ∃ cs c, (all limit true pending).pieces = Piece.row cs c ∧ cs.flatten ++ c = pending ∧
      ∀ x ∈ cs ++ [c], x.length ≤ limit := by
  refine ⟨_, _, rfl, ?_⟩
  by_cases hp : pending = []
  · subst hp
    simp
  · have hne := Bytes.pieces_ne_nil hl hp
    have hd : (Bytes.pieces limit pending).dropLast ++
        [(Bytes.pieces limit pending).getLast?.getD []] = Bytes.pieces limit pending := by
      rw [List.getLast?_eq_some_getLast hne]
      exact List.dropLast_append_getLast hne
    have hf := congrArg List.flatten hd
    rw [List.flatten_append, List.flatten_singleton, Bytes.flatten_pieces hl] at hf
    refine ⟨hf, fun x hx => ?_⟩
    rw [hd] at hx
    exact Bytes.length_le_of_mem_pieces hl hx

/-- **The pieces make up the plaintext** where all octets are taken at once. -/
theorem session_all (ds : List Bytes) :
    ∃ cs c, session (all limit) [] ds = Piece.row cs c ∧ cs.flatten ++ c = ds.flatten ∧
      ∀ x ∈ cs ++ [c], x.length ≤ limit := by
  induction ds with
  | nil => exact all_true hl []
  | cons d ds ih =>
    obtain ⟨cs, c, h, hf, hx⟩ := ih
    refine ⟨Bytes.pieces limit d ++ cs, c, ?_, ?_, ?_⟩
    · rw [session, rest_all, h, List.nil_append]
      simp [all, Piece.row]
    · rw [List.flatten_append, Bytes.flatten_pieces hl, List.append_assoc, hf, List.flatten_cons]
    · intro x hm
      rw [List.append_assoc, List.mem_append] at hm
      rcases hm with hm | hm
      · exact Bytes.length_le_of_mem_pieces hl hm
      · exact hx x hm

theorem length_le_of_mem_session_all {ds : List Bytes} {p : Piece}
    (hp : p ∈ session (all limit) [] ds) : p.data.length ≤ limit := by
  obtain ⟨cs, c, h, -, hx⟩ := session_all hl ds
  rw [h] at hp
  refine hx p.data ?_
  rw [← Piece.map_data_row]
  exact List.mem_map_of_mem hp

end

/-! ### Blocks -/

section
variable {size limit : Nat}

theorem blocks_rest (pending : Bytes) :
    blocks size limit false (blocks size limit false pending).rest =
      ⟨[], (blocks size limit false pending).rest⟩ := by
  have hlen : pending.length - (pending.length - pending.length % size) = pending.length % size :=
    Nat.sub_sub_self (Nat.mod_le _ _)
  simp [blocks, hlen]

variable (hs : 0 < size)
include hs

/-- The whole blocks and the rest make up what is pending. -/
theorem blocks_false (pending : Bytes) :
    ∃ cs rest,
      blocks size limit false pending = ⟨cs.map fun data => { data, last := false }, rest⟩ ∧
      blocks size limit true pending =
        ⟨Piece.row cs (rest ++ Padding.fill (size - rest.length)), []⟩ ∧
      cs.flatten ++ rest = pending ∧ rest.length < size ∧
      ∀ x ∈ cs, size ∣ x.length ∧ x.length ≤ max limit size := by
  have hw : 0 < max (limit - limit % size) size := lt_max_of_lt_right hs
  have hdw : size ∣ max (limit - limit % size) size := by
    rcases max_choice (limit - limit % size) size with h | h <;> rw [h]
    exact Nat.dvd_sub_mod limit
  have hlen : (pending.take (pending.length - pending.length % size)).length =
      pending.length - pending.length % size := by
    rw [List.length_take]
    omega
  refine ⟨_, _, rfl, rfl, ?_, ?_, fun x hx => ⟨?_, ?_⟩⟩
  · rw [Bytes.flatten_pieces hw, List.take_append_drop]
  · rw [List.length_drop, Nat.sub_sub_self (Nat.mod_le _ _)]
    exact Nat.mod_lt _ hs
  · exact Bytes.dvd_length_of_mem_pieces hw hdw (by rw [hlen]; exact Nat.dvd_sub_mod _) hx
  · have hle := Bytes.length_le_of_mem_pieces hw hx
    omega

/-- **The pieces make up the plaintext** where whole blocks are taken: all of it is in the pieces
but the last and the beginning of the last, which is filled up to a block. -/
theorem session_blocks (pending : Bytes) (ds : List Bytes) :
    ∃ cs rest, session (blocks size limit) pending ds =
        Piece.row cs (rest ++ Padding.fill (size - rest.length)) ∧
      cs.flatten ++ rest = pending ++ ds.flatten ∧ rest.length < size ∧
      ∀ x ∈ cs, size ∣ x.length ∧ x.length ≤ max limit size := by
  induction ds generalizing pending with
  | nil =>
    obtain ⟨cs, rest, -, h, hf, hr, hx⟩ := @blocks_false size limit hs pending
    refine ⟨cs, rest, ?_, by simpa using hf, hr, hx⟩
    rw [session, h]
  | cons d ds ih =>
    obtain ⟨cs, rest, h, -, hf, hr, hx⟩ := @blocks_false size limit hs (pending ++ d)
    obtain ⟨cs', rest', h', hf', hr', hx'⟩ := ih rest
    refine ⟨cs ++ cs', rest', ?_, ?_, hr', ?_⟩
    · rw [session, h, h']
      simp [Piece.row]
    · rw [List.flatten_append, List.append_assoc, hf', ← List.append_assoc, hf, List.flatten_cons,
        List.append_assoc]
    · intro x hm
      rw [List.mem_append] at hm
      exact hm.elim (hx x) (hx' x)

theorem length_le_of_mem_session_blocks {pending : Bytes} {ds : List Bytes} {p : Piece}
    (hp : p ∈ session (blocks size limit) pending ds) :
    size ∣ p.data.length ∧ p.data.length ≤ max limit size := by
  obtain ⟨cs, rest, h, -, hr, hx⟩ := @session_blocks size limit hs pending ds
  rw [h, Piece.mem_row] at hp
  rcases hp with ⟨data, hd, rfl⟩ | rfl
  · exact hx data hd
  · have hl := Padding.length_append_fill hr.le
    exact ⟨dvd_of_eq hl.symm, hl.le.trans (le_max_right _ _)⟩

end

end Plan

end SealedStream
