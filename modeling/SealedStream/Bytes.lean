/-!
# Byte strings

The octet strings that every other module computes with, as lists of octets.

* `Bytes.ofNatLE`, `Bytes.ofNatBE`, `Bytes.toNatLE`, `Bytes.toNatBE`: numbers of a fixed width in
  either byte order.
* `Bytes.pieces n`: the cut of a string into pieces of `n` octets, the last one possibly shorter;
  `pieces_eq_cons` is its recursive equation.
* `Bytes.transduce`: the run of a machine that turns one octet into one octet. `transduce_append`
  says that a run may be interrupted between any two octets and resumed.
-/
namespace SealedStream

/-- A string of octets. -/
abbrev Bytes := List UInt8

namespace Bytes

def zeros (n : Nat) : Bytes := List.replicate n 0

/-- Octet-wise exclusive or, as long as the shorter operand. -/
def xor (a b : Bytes) : Bytes := List.zipWith (· ^^^ ·) a b

/-- The octets of an ASCII or UTF-8 text. -/
def ofString (s : String) : Bytes := s.toUTF8.data.toList

/-! ## Numbers -/

/-- The number whose octets are `bs`, least significant first. -/
def toNatLE (bs : Bytes) : Nat := bs.foldr (fun b n => b.toNat + 256 * n) 0

/-- The number whose octets are `bs`, most significant first. -/
def toNatBE (bs : Bytes) : Nat := bs.foldl (fun n b => 256 * n + b.toNat) 0

/-- The `width` low octets of `n`, least significant first. -/
def ofNatLE : (width n : Nat) → Bytes
  | 0, _ => []
  | w + 1, n => UInt8.ofNat n :: ofNatLE w (n / 256)

/-- The `width` low octets of `n`, most significant first. -/
def ofNatBE (width n : Nat) : Bytes := (ofNatLE width n).reverse

@[simp] theorem length_zeros (n : Nat) : (zeros n).length = n := by simp [zeros]

@[simp] theorem length_xor (a b : Bytes) : (xor a b).length = min a.length b.length := by
  simp [xor]

@[simp] theorem length_ofNatLE (w n : Nat) : (ofNatLE w n).length = w := by
  induction w generalizing n with
  | zero => rfl
  | succ w ih => simp [ofNatLE, ih]

@[simp] theorem length_ofNatBE (w n : Nat) : (ofNatBE w n).length = w := by simp [ofNatBE]

@[simp] theorem toNatLE_nil : toNatLE [] = 0 := rfl

@[simp] theorem toNatLE_cons (b : UInt8) (bs : Bytes) :
    toNatLE (b :: bs) = b.toNat + 256 * toNatLE bs := rfl

theorem toNatBE_reverse (bs : Bytes) : toNatBE bs.reverse = toNatLE bs := by
  rw [toNatBE, toNatLE, List.foldl_reverse]
  congr 1
  funext b n
  omega

/-! ## Pieces -/

/-- `pieces` with the pieces found so far; `fuel` bounds their number by the length. -/
def piecesAux (n : Nat) : (fuel : Nat) → Bytes → Array Bytes → Array Bytes
  | 0, _, done => done
  | _ + 1, [], done => done
  | fuel + 1, b :: bs, done => piecesAux n fuel ((b :: bs).drop n) (done.push ((b :: bs).take n))

/-- Consecutive pieces of `n` octets, the last one possibly shorter; no piece is empty. -/
def pieces (n : Nat) (bs : Bytes) : List Bytes := (piecesAux n bs.length bs #[]).toList

@[simp] theorem pieces_nil (n : Nat) : pieces n [] = [] := rfl

private theorem piecesAux_toList (n : Nat) (fuel : Nat) (bs : Bytes) (done : Array Bytes) :
    (piecesAux n fuel bs done).toList = done.toList ++ (piecesAux n fuel bs #[]).toList := by
  induction fuel generalizing bs done with
  | zero => simp [piecesAux]
  | succ fuel ih =>
    cases bs with
    | nil => simp [piecesAux]
    | cons b bs => rw [piecesAux, piecesAux, ih, ih _ (#[].push _)]; simp

private theorem piecesAux_fuel {n : Nat} (hn : 0 < n) {fuel fuel' : Nat} {bs : Bytes}
    (h : bs.length ≤ fuel) (h' : bs.length ≤ fuel') (done : Array Bytes) :
    piecesAux n fuel bs done = piecesAux n fuel' bs done := by
  induction fuel generalizing fuel' bs done with
  | zero =>
    have : bs = [] := List.length_eq_zero_iff.1 (by omega)
    subst this; cases fuel' <;> rfl
  | succ fuel ih =>
    cases bs with
    | nil => cases fuel' <;> rfl
    | cons b bs =>
      cases fuel' with
      | zero => simp at h'
      | succ fuel' =>
        simp only [List.length_cons] at h h'
        rw [piecesAux, piecesAux]
        exact ih (by simp only [List.length_drop, List.length_cons]; omega)
          (by simp only [List.length_drop, List.length_cons]; omega) _

/-- The first piece is the first `n` octets, the others are the pieces of the rest. -/
theorem pieces_eq_cons {n : Nat} (hn : 0 < n) {bs : Bytes} (hb : bs ≠ []) :
    pieces n bs = bs.take n :: pieces n (bs.drop n) := by
  cases bs with
  | nil => exact absurd rfl hb
  | cons b bs =>
    rw [pieces, List.length_cons, piecesAux, piecesAux_toList, pieces,
      @piecesAux_fuel n hn _ ((b :: bs).drop n).length _
        (by simp only [List.length_drop, List.length_cons]; omega) (Nat.le_refl _)]
    simp

/-! ## Machines over octets -/

/-- `transduce` with the octets answered so far. -/
def transduceInto {σ : Type} (step : σ → UInt8 → UInt8 × σ) (done : Array UInt8) (s : σ) :
    Bytes → Array UInt8 × σ
  | [] => (done, s)
  | b :: bs => let r := step s b; transduceInto step (done.push r.1) r.2 bs

/-- Feed `bs` to the machine `step` from state `s`, octet by octet; the octets it answers and the
state it ends in. -/
def transduce {σ : Type} (step : σ → UInt8 → UInt8 × σ) (s : σ) (bs : Bytes) : Bytes × σ :=
  let r := transduceInto step #[] s bs
  (r.1.toList, r.2)

section
variable {σ : Type} (step : σ → UInt8 → UInt8 × σ)

private theorem transduceInto_eq (s : σ) (done : Array UInt8) (bs : Bytes) :
    transduceInto step done s bs =
      (done ++ (transduce step s bs).1, (transduce step s bs).2) := by
  induction bs generalizing s done with
  | nil => simp [transduce, transduceInto]
  | cons b bs ih =>
    simp only [transduce, transduceInto]
    rw [ih, ih _ (#[].push _)]
    simp

@[simp] theorem transduce_nil (s : σ) : transduce step s [] = ([], s) := rfl

theorem transduce_cons (s : σ) (b : UInt8) (bs : Bytes) :
    transduce step s (b :: bs) =
      ((step s b).1 :: (transduce step (step s b).2 bs).1, (transduce step (step s b).2 bs).2) := by
  simp only [transduce, transduceInto]
  rw [transduceInto_eq]
  simp [transduce]

/-- A run may be interrupted between any two octets and resumed. -/
theorem transduce_append (s : σ) (a b : Bytes) :
    transduce step s (a ++ b) =
      ((transduce step s a).1 ++ (transduce step (transduce step s a).2 b).1,
        (transduce step (transduce step s a).2 b).2) := by
  induction a generalizing s with
  | nil => simp
  | cons x a ih => simp [transduce_cons, ih]

@[simp] theorem length_transduce (s : σ) (bs : Bytes) :
    (transduce step s bs).1.length = bs.length := by
  induction bs generalizing s with
  | nil => rfl
  | cons b bs ih => simp [transduce_cons, ih]

end

end Bytes

end SealedStream
