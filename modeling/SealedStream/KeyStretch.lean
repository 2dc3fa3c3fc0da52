import SealedStream.Hash.Blake2b
import SealedStream.Hash.Md5
import SealedStream.KeyMaterial
import SealedStream.Salsa20
/-!
# Key stretching

A shared secret has the length that the key exchange gives it, and a cipher wants a key and an
initialization vector of lengths of its own. `KeyStretch.resize` makes material of any length from
a secret of any length.

* `expand` keeps a shorter secret and fills up behind it, from the end towards the secret, with
  HSalsa20 of the windows of the secret.
* `shrink` hashes a longer secret piece by piece.
* `whiten` hides the structure of a secret that is no random string, block by block.
* `derive` and `deriveWhitened` fill key material; the initialization vector repeats the key.
-/
namespace SealedStream.KeyStretch

/-- The width of the part of a secret that is expanded at a time. -/
def window : Nat := 16

def chunk : Nat := 64

/-- The first `n` octets of a text that is repeated without end; the text is not empty. -/
def repeated (text : String) (n : Nat) : Bytes :=
  (List.replicate n (Bytes.ofString text)).flatten.take n

def sigma16 : Bytes := repeated "Expand 16-bytes key!" 16

def sigma32 : Bytes := repeated "Expand 32-bytes key!" 32

/-- The next counter, least significant octet first. -/
def increment : Bytes → Bytes
  | [] => []
  | b :: bs => if b + 1 = 0 then 0 :: increment bs else (b + 1) :: bs

/-! ## Longer material -/

/-- The window of a secret that ends at `stop`, or all up to there if that is less. -/
def windowBefore (input : Bytes) (stop : Nat) : Bytes := (input.take stop).drop (stop - window)

/-- Fill the octets before `stop`, those from there on being `tail`. The windows of the secret
before `start` are still to be used under this counter. -/
def expandFrom (input counter : Bytes) (start stop : Nat) (tail : Bytes) : Bytes :=
  if stop - start < window then
    if stop ≤ input.length then input.take stop ++ tail
    else input.take start ++ (Md5.digest (windowBefore input start)).take (stop - start) ++ tail
  else if start < window then
    if stop ≤ input.length ∨ input.length < window then input.take stop ++ tail
    else expandFrom input (increment counter) input.length stop tail
  else
    let block := Salsa20.hsalsa20 (windowBefore input start) sigma32 counter
    expandFrom input counter (start - window) (stop - 32) (block ++ tail)
termination_by (stop, if start < window then 1 else 0)
decreasing_by
  · have : ¬ input.length < window := by omega
    apply Prod.Lex.right
    simp [*]
  · apply Prod.Lex.left
    simp only [window] at *
    omega

/-- Material of `total` octets from a shorter secret. A secret that is shorter than a window by
itself is first filled up to one, unless the material hardly exceeds it. -/
def expand (input : Bytes) (total : Nat) : Bytes :=
  let n := input.length
  if n < window ∧ window ≤ total - n then
    let widened := input ++ (Md5.digest input).take (window - n)
    if total = window then widened else expandFrom widened sigma16 window total []
  else expandFrom input sigma16 n total []

/-! ## Shorter material -/

/-- `n ≤ 64` octets from a piece, by the narrowest digest that has them. -/
def narrowest (piece : Bytes) (n : Nat) : Bytes :=
  (if n ≤ 16 then Md5.digest piece
    else if n ≤ 32 then Blake2b.digest 32 piece
    else if n ≤ 48 then Blake2b.digest 48 piece
    else Blake2b.digest 64 piece).take n

/-- The digests of `more` pieces of the given width, and `n` octets from the rest. -/
def shrinkFrom (width n : Nat) : (more : Nat) → Bytes → Bytes
  | 0, input => narrowest input n
  | more + 1, input =>
    Blake2b.digest chunk (input.take width) ++ shrinkFrom width n more (input.drop width)

/-- Material of `total > 0` octets from a longer secret. -/
def shrink (input : Bytes) (total : Nat) : Bytes :=
  let more := (total - 1) / chunk
  shrinkFrom (input.length / (more + 1)) (total - chunk * more) more input

/-! ## Material of any length -/

def resize (raw : Bytes) (total : Nat) : Bytes :=
  if total = 0 then []
  else if raw.length < total then expand raw total
  else if total < raw.length then shrink raw total
  else raw

/-- Every whole block through Salsa20/8, what is left through BLAKE2b. -/
def whiten (material : Bytes) : Bytes :=
  (material.pieces chunk).flatMap fun block =>
    if block.length = chunk then Salsa20.core208 block
    else (Blake2b.digest 64 block).take block.length

/-! ## Filling key material -/

/-- `old` with its beginning replaced by as much of `new` as there is room for. -/
def overlay (new old : Bytes) : Bytes := new.take old.length ++ old.drop new.length

/-- Key material with its key taken from the beginning of `material`, and its initialization
vector from the beginning of that key; what goes beyond the key stays as it was. -/
def fill (material : Bytes) (m : KeyMaterial) : KeyMaterial :=
  ⟨overlay material m.key, overlay (material.take m.key.length) m.iv⟩

def derive (raw : Bytes) (m : KeyMaterial) : KeyMaterial :=
  if raw.length = m.size then fill raw m else fill (resize raw m.size) m

/-- Fill key material from a secret whose structure is to be hidden. -/
def deriveWhitened (raw : Bytes) (m : KeyMaterial) : KeyMaterial :=
  fill (whiten (resize raw m.size)) m

/-- A key and an initialization vector from a secret. -/
def stretch (raw : Bytes) (keyLen ivLen : Nat) : KeyMaterial :=
  derive raw (.zeroed keyLen ivLen)

/-- A key and an initialization vector from a secret whose structure is to be hidden. -/
def stretchWhitened (raw : Bytes) (keyLen ivLen : Nat) : KeyMaterial :=
  deriveWhitened raw (.zeroed keyLen ivLen)

end SealedStream.KeyStretch
