import Mathlib
import SealedStream.Proofs.Cipher.Aes
import SealedStream.Proofs.Partition
import SealedStream.Proofs.StandardAlgorithms
/-!
# Calls of ciphers that go on

What calls do to the data in buffers, with ciphers that go on from call to call.

* `BufferCall.run` is a row of calls, those that are refused among them. `BufferCall.Flows` are the
  calls that transform whole units by one function, wherever they are parted; `Flows.run_eq` says
  what a row of them comes to.
* `Cbc.Turned` and `Cfb.Turned` relate a cipher to the one that undoes it; counter mode and output
  feedback undo themselves.
* `KeyedCipher.calls?` are calls of a keyed cipher, and `KeyedCipher.Undone` says that another one
  undoes them.
* `calls_undone` says so of the standard ciphers.
-/
namespace SealedStream

/-! ## Rows of calls -/

namespace Outcome

/-- Whole units are replaced by as many octets; for other data there is a refusal. -/
inductive Fits (size : Nat) : Bytes → Outcome → Prop where
  | taken {data out : Bytes} (h : size ∣ data.length) (hl : out.length = data.length) :
    Fits size data ⟨none, out⟩
  | refused {data : Bytes} (h : ¬ size ∣ data.length) :
    Fits size data ⟨some (.blockAlignment data.length size), data⟩

theorem Fits.eq_of_dvd {size : Nat} {data : Bytes} {o : Outcome} (ho : Fits size data o)
    (h : size ∣ data.length) : ∃ out, o = ⟨none, out⟩ := by
  rcases ho with - | hn
  · exact ⟨_, rfl⟩
  · exact absurd h hn

theorem Fits.eq_of_not_dvd {size : Nat} {data : Bytes} {o : Outcome} (ho : Fits size data o)
    (h : ¬ size ∣ data.length) : o = ⟨some (.blockAlignment data.length size), data⟩ := by
  rcases ho with hd | -
  · exact absurd hd h
  · rfl

/-- What the buffers of the calls hold that were not refused. -/
def made (os : List Outcome) : Bytes := (os.filter (·.refusal.isNone)).flatMap buffer

end Outcome

/-- Calls of a cipher for the data in a buffer. -/
abbrev BufferCall (σ : Type) := (buffer : Bytes) → σ → Outcome × σ

namespace BufferCall
variable {σ : Type}

/-- What the buffers hold for calls that are for whole units. -/
def whole (size : Nat) (ds : List Bytes) : Bytes := (ds.filter (size ∣ ·.length)).flatten

theorem whole_of_dvd {size : Nat} {d : Bytes} (h : size ∣ d.length) (ds : List Bytes) :
    whole size (d :: ds) = d ++ whole size ds := by
  rw [whole, List.filter_cons_of_pos (by simpa using h), List.flatten_cons, whole]

theorem whole_of_not_dvd {size : Nat} {d : Bytes} (h : ¬ size ∣ d.length) (ds : List Bytes) :
    whole size (d :: ds) = whole size ds := by
  rw [whole, List.filter_cons_of_neg (by simpa using h), whole]

theorem dvd_length_whole (size : Nat) (ds : List Bytes) : size ∣ (whole size ds).length := by
  refine Bytes.dvd_length_flatten fun d hd => ?_
  simpa using (List.mem_filter.1 hd).2

/-- What a row of calls comes to, and the state behind it. -/
def run (f : BufferCall σ) : List Bytes → σ → List Outcome × σ
  | [], c => ([], c)
  | d :: ds, c =>
    let r := f d c
    let rs := run f ds r.2
    (r.1 :: rs.1, rs.2)

/-- Calls that transform whole units of `size` octets by one function, wherever they are parted.
Other data is refused, and stays in the buffer. -/
structure Flows (f : BufferCall σ) (size : Nat) (g : σ → Bytes → Bytes × σ) : Prop where
  refused {c : σ} {data : Bytes} (h : ¬ size ∣ data.length) :
    f data c = (⟨some (.blockAlignment data.length size), data⟩, c)
  taken {c : σ} {data : Bytes} (h : size ∣ data.length) :
    f data c = (⟨none, (g c data).1⟩, (g c data).2)
  length {c : σ} {data : Bytes} (h : size ∣ data.length) : (g c data).1.length = data.length
  nil (c : σ) : g c [] = ([], c)
  append {c : σ} {d e : Bytes} (hd : size ∣ d.length) (he : size ∣ e.length) :
    g c (d ++ e) = ((g c d).1 ++ (g (g c d).2 e).1, (g (g c d).2 e).2)

/-- **A row of calls** transforms all whole units like one call, and what is refused makes no
difference. -/
theorem Flows.run_eq {f : BufferCall σ} {size : Nat} {g : σ → Bytes → Bytes × σ}
    (hf : f.Flows size g) (ds : List Bytes) (c : σ) :
    (f.run ds c).2 = (g c (whole size ds)).2 ∧
      List.Forall₂ (Outcome.Fits size) ds (f.run ds c).1 ∧
      Outcome.made (f.run ds c).1 = (g c (whole size ds)).1 := by
  induction ds generalizing c with
  | nil =>
    have hn : g c (whole size []) = ([], c) := hf.nil c
    rw [run, hn]
    exact ⟨rfl, .nil, rfl⟩
  | cons d ds ih =>
    by_cases hd : size ∣ d.length
    · obtain ⟨hs, hfit, hm⟩ := ih (g c d).2
      rw [run, hf.taken hd, whole_of_dvd hd, hf.append hd (dvd_length_whole size ds)]
      refine ⟨hs, .cons (.taken hd (hf.length hd)) hfit, ?_⟩
      rw [← hm]
      rfl
    · obtain ⟨hs, hfit, hm⟩ := ih c
      rw [run, hf.refused hd, whole_of_not_dvd hd]
      exact ⟨hs, .cons (.refused hd) hfit, hm⟩

end BufferCall

/-! ## Octets -/

namespace Bytes
variable {σ : Type}

theorem flows_transduce {f : BufferCall σ} {step : σ → UInt8 → UInt8 × σ}
    (h : ∀ data c, f data c = (⟨none, (transduce step c data).1⟩, (transduce step c data).2)) :
    f.Flows 1 (transduce step) where
  refused hn := absurd (one_dvd _) hn
  taken _ := h _ _
  length _ := length_transduce step _ _
  nil := transduce_nil step
  append _ _ := transduce_append step _ _ _

/-- What a machine makes, another one undoes if every step does. -/
theorem transduce_undo {step step' : σ → UInt8 → UInt8 × σ} {R : σ → σ → Prop}
    (hstep : ∀ {c c'} b, R c c' →
      (step' c' (step c b).1).1 = b ∧ R (step c b).2 (step' c' (step c b).1).2)
    {c c' : σ} (h : R c c') (data : Bytes) :
    (transduce step' c' (transduce step c data).1).1 = data := by
  induction data generalizing c c' with
  | nil => rfl
  | cons b data ih =>
    obtain ⟨hb, h'⟩ := hstep b h
    rw [transduce_cons, transduce_cons, hb, ih h']

end Bytes

private theorem xor_xor_cancel (b k : UInt8) : b ^^^ k ^^^ k = b := by
  rw [UInt8.xor_assoc, UInt8.xor_self, UInt8.xor_zero]

theorem Ctr.step_undo {c c' : Ctr} (b : UInt8) (h : c = c') :
    (c'.step (c.step b).1).1 = b ∧ (c.step b).2 = (c'.step (c.step b).1).2 := by
  subst h
  exact ⟨xor_xor_cancel b _, rfl⟩

theorem Ofb.step_undo {c c' : Ofb} (b : UInt8) (h : c = c') :
    (c'.step (c.step b).1).1 = b ∧ (c.step b).2 = (c'.step (c.step b).1).2 := by
  subst h
  exact ⟨xor_xor_cancel b _, rfl⟩

/-- A cipher and the same cipher in the other direction. -/
def Cfb.Turned (c c' : Cfb) : Prop :=
  c.direction = .encrypt ∧ c' = { c with direction := .decrypt }

/-- Both directions put the ciphertext into the register. -/
theorem Cfb.step_undo {c c' : Cfb} (b : UInt8) (h : Turned c c') :
    (c'.step (c.step b).1).1 = b ∧ Turned (c.step b).2 (c'.step (c.step b).1).2 := by
  obtain ⟨cipher, direction, register, left⟩ := c
  obtain ⟨rfl, rfl⟩ := h
  cases left with
  | nil => exact ⟨xor_xor_cancel b _, rfl, rfl⟩
  | cons k left => exact ⟨xor_xor_cancel b k, rfl, rfl⟩

/-! ## Blocks -/

namespace Cbc

/-- Transform whole blocks. -/
def blocks (c : Cbc) (data : Bytes) : Bytes × Cbc :=
  let r := blocksInto #[] c (data.pieces 16)
  (r.1.toList, r.2)

theorem blocksInto_eq (done : Array UInt8) (c : Cbc) (bs : List Bytes) :
    blocksInto done c bs = (done ++ (blocksInto #[] c bs).1, (blocksInto #[] c bs).2) := by
  induction bs generalizing done c with
  | nil => rw [blocksInto, blocksInto, Array.append_empty]
  | cons b bs ih =>
    rw [blocksInto, blocksInto, ih, ih (#[] ++ _), Array.empty_append, Array.append_assoc]

theorem blocks_nil (c : Cbc) : c.blocks [] = ([], c) := rfl

theorem blocks_append {b : Bytes} (hb : b.length = 16) (c : Cbc) (data : Bytes) :
    c.blocks (b ++ data) =
      ((c.step (.ofBytes b)).1.bytes ++ ((c.step (.ofBytes b)).2.blocks data).1,
      ((c.step (.ofBytes b)).2.blocks data).2) := by
  have hne : b ++ data ≠ [] := by
    intro h
    rw [(List.append_eq_nil_iff.1 h).1] at hb
    cases hb
  rw [blocks, Bytes.pieces_eq_cons (by decide) hne, List.take_left' hb, List.drop_left' hb,
    blocksInto, blocksInto_eq, Array.empty_append, Array.toList_append]
  rfl

end Cbc

/-- Induction over the blocks of a string. -/
theorem Bytes.blocks_induction {P : (data : Bytes) → 16 ∣ data.length → Prop}
    (nil : P [] (dvd_zero 16))
    (append : ∀ (b data : Bytes) (_ : b.length = 16) (hd : 16 ∣ data.length)
      (h : 16 ∣ (b ++ data).length), P data hd → P (b ++ data) h) (data : Bytes)
    (h : 16 ∣ data.length) : P data h := by
  induction data using pieces_induction (by decide : 0 < 16) with
  | nil => exact nil
  | cons data hne ih =>
    have hle := Nat.le_of_dvd (List.length_pos_iff.2 hne) h
    have hd : 16 ∣ (data.drop 16).length := by
      rw [List.length_drop]
      exact Nat.dvd_sub h dvd_rfl
    have happ := append (data.take 16) (data.drop 16) (List.length_take_of_le hle) hd
    simp only [List.take_append_drop] at happ
    exact happ h (ih hd)

namespace Cbc

theorem flows : BufferCall.Flows transform 16 blocks where
  refused h := if_pos fun h' => h (Nat.dvd_of_mod_eq_zero h')
  taken h := if_neg (not_not.2 (Nat.mod_eq_zero_of_dvd h))
  length {c data} h := by
    induction data, h using Bytes.blocks_induction generalizing c with
    | nil => rfl
    | append b data hb _ _ ih =>
      rw [blocks_append hb, List.length_append, List.length_append, ih, hb, Block.length_bytes]
  nil := blocks_nil
  append {c d e} hd _ := by
    induction d, hd using Bytes.blocks_induction generalizing c with
    | nil => rfl
    | append b d hb _ _ ih =>
      rw [List.append_assoc, blocks_append hb, ih, blocks_append hb, List.append_assoc]

/-- A cipher and the same cipher in the other direction, which undoes the permutation. -/
def Turned (c c' : Cbc) : Prop :=
  c.direction = .encrypt ∧ c' = { c with direction := .decrypt } ∧
    ∀ b, c.cipher.decrypt (c.cipher.encrypt b) = b

theorem step_undo {c c' : Cbc} (b : Block) (h : Turned c c') :
    (c'.step (c.step b).1).1 = b ∧ Turned (c.step b).2 (c'.step (c.step b).1).2 := by
  obtain ⟨cipher, direction, chain⟩ := c
  obtain ⟨rfl, rfl, hc⟩ := h
  refine ⟨?_, rfl, rfl, hc⟩
  show (cipher.decrypt (cipher.encrypt (b.xor chain))).xor chain = b
  rw [hc, Block.xor_xor_cancel]

theorem blocks_undo {c c' : Cbc} (h : Turned c c') {data : Bytes} (hd : 16 ∣ data.length) :
    (c'.blocks (c.blocks data).1).1 = data := by
  induction data, hd using Bytes.blocks_induction generalizing c c' with
  | nil => rfl
  | append b data hb _ _ ih =>
    obtain ⟨hs, h'⟩ := step_undo (.ofBytes b) h
    rw [blocks_append hb, blocks_append (Block.length_bytes _), Block.ofBytes_bytes, hs, ih h',
      Block.bytes_ofBytes hb]

end Cbc

/-! ## Keyed ciphers -/

namespace KeyedCipher
variable {M : Modes}

/-- A call of a keyed cipher for the data in a buffer; authenticated ciphers have no such calls. -/
def call? (data : Bytes) : KeyedCipher M → Option (Outcome × KeyedCipher M)
  | .block c => some ((BlockMode.transform data c).map id .block)
  | .stream c => some ((StreamMode.transform data c).map id .stream)
  | .aead _ => none

/-- A row of calls. -/
def calls? : List Bytes → KeyedCipher M → Option (List Outcome × KeyedCipher M)
  | [], k => some ([], k)
  | d :: ds, k => do
    let (o, k) ← k.call? d
    let (os, k) ← calls? ds k
    return (o :: os, k)

/-- Whatever the row of calls of a keyed cipher whose whole units make up `data`: all of them fit,
what they make is `out`, and they leave the cipher `k'`. -/
def Makes (size : Nat) (k : KeyedCipher M) (data out : Bytes) (k' : KeyedCipher M) : Prop :=
  ∀ ds, BufferCall.whole size ds = data → ∃ os, k.calls? ds = some (os, k') ∧
    List.Forall₂ (Outcome.Fits size) ds os ∧ Outcome.made os = out

/-- After any row of calls, one that is not for whole units is refused, and leaves the buffer and
the cipher as they were. -/
def Refuses (size : Nat) (k : KeyedCipher M) : Prop :=
  ∀ ds os k' data, k.calls? ds = some (os, k') → ¬ size ∣ data.length →
    k'.call? data = some (⟨some (.blockAlignment data.length size), data⟩, k')

section
variable {σ : Type} {f : BufferCall σ} {size : Nat} {g : σ → Bytes → Bytes × σ}
  {wrap : σ → KeyedCipher M}
  (hw : ∀ data c, (wrap c).call? data = some ((f data c).1, wrap (f data c).2))
include hw

theorem calls?_eq (ds : List Bytes) (c : σ) :
    (wrap c).calls? ds = some ((f.run ds c).1, wrap (f.run ds c).2) := by
  induction ds generalizing c with
  | nil => rfl
  | cons d ds ih =>
    rw [calls?, hw]
    simp only [Option.bind_eq_bind, Option.bind_some, ih]
    rfl

theorem makes (hf : f.Flows size g) (c : σ) (data : Bytes) :
    (wrap c).Makes size data (g c data).1 (wrap (g c data).2) := by
  rintro ds rfl
  obtain ⟨hs, hfit, hm⟩ := hf.run_eq ds c
  exact ⟨(f.run ds c).1, hs ▸ calls?_eq hw ds c, hfit, hm⟩

theorem refuses (hf : f.Flows size g) (c : σ) : (wrap c).Refuses size := by
  intro ds os k' data hk hd
  rw [calls?_eq hw] at hk
  cases hk
  rw [hw, hf.refused hd]

end

/-- The calls of one keyed cipher make as many octets of whole units, wherever they are parted, and
the calls of another one make the units of them again; both refuse other data. -/
structure Undone (size : Nat) (enc dec : KeyedCipher M) : Prop where
  refuses : enc.Refuses size ∧ dec.Refuses size
  makes (data : Bytes) (h : size ∣ data.length) : ∃ out enc' dec', out.length = data.length ∧
    enc.calls? [data] = some ([⟨none, out⟩], enc') ∧ enc.Makes size data out enc' ∧
    dec.Makes size out data dec'

theorem undone_of_flows {σ : Type} {f : BufferCall σ} {size : Nat} {g : σ → Bytes → Bytes × σ}
    (wrap : σ → KeyedCipher M)
    (hw : ∀ data c, (wrap c).call? data = some ((f data c).1, wrap (f data c).2))
    (hf : f.Flows size g) {c c' : σ}
    (h : ∀ data : Bytes, size ∣ data.length → (g c' (g c data).1).1 = data) :
    Undone size (wrap c) (wrap c') where
  refuses := ⟨refuses hw hf c, refuses hw hf c'⟩
  makes data hd := by
    have hback := makes hw hf c' (g c data).1
    rw [h data hd] at hback
    refine ⟨_, _, _, hf.length hd, ?_, makes hw hf c data, hback⟩
    rw [calls?_eq hw, BufferCall.run, hf.taken hd]
    rfl

/-- Stream ciphers that go octet by octet, where every step is undone. -/
theorem undone_stream {σ : Type} {step : σ → UInt8 → UInt8 × σ} {R : σ → σ → Prop}
    (wrap : σ → M.Stream)
    (hw : ∀ data c, StreamMode.transform data (wrap c) =
      (⟨none, (Bytes.transduce step c data).1⟩, wrap (Bytes.transduce step c data).2))
    (hstep : ∀ {c c'} b, R c c' →
      (step c' (step c b).1).1 = b ∧ R (step c b).2 (step c' (step c b).1).2)
    {c c' : σ} (h : R c c') : Undone 1 (.stream (wrap c)) (.stream (wrap c') : KeyedCipher M) := by
  let f : BufferCall σ := fun data c =>
    (⟨none, (Bytes.transduce step c data).1⟩, (Bytes.transduce step c data).2)
  have hcall (data : Bytes) (c : σ) : call? data (.stream (wrap c) : KeyedCipher M) =
      some ((f data c).1, .stream (wrap (f data c).2)) := by
    rw [call?, hw]
    rfl
  refine undone_of_flows (fun c => .stream (wrap c)) hcall (Bytes.flows_transduce fun _ _ => rfl) ?_
  intro data _
  exact Bytes.transduce_undo hstep h data

end KeyedCipher

/-! ## The standard ciphers -/

/-- The modes of the standard ciphers that go on from call to call. -/
inductive ChainMode where
  | cbc
  | cfb
  | ctr
  | ofb

namespace ChainMode

/-- A call is for a multiple of so many octets. -/
def unit : ChainMode → Nat
  | cbc => 16
  | cfb | ctr | ofb => 1

/-- The cipher with keys of so many octets. -/
def driver (keyLen : Nat) : ChainMode → CipherDriver .standard
  | cbc => .cbc keyLen
  | cfb => .cfb keyLen
  | ctr => .ctr keyLen
  | ofb => .ofb keyLen

/-- The name of the cipher with keys of so many bits. -/
def name (bits : Nat) (mode : ChainMode) : String :=
  let text := match mode with
    | cbc => "cbc"
    | cfb => "cfb"
    | ctr => "ctr"
    | ofb => "ofb"
  "aes-" ++ toString bits ++ "/" ++ text

theorem cipher_name {bits : Nat} (hb : bits ∈ [128, 192, 256]) (mode : ChainMode) :
    Registry.standard.cipher (mode.name bits) = .ok (mode.driver (bits / 8)) := by
  rw [Registry.cipher_eq_ok]
  have hall : Registry.standard.ciphers = .ofList standardCiphers := rfl
  rw [hall, NameTable.get?_ofList]
  simp only [List.mem_cons, List.not_mem_nil, or_false] at hb
  rcases hb with rfl | rfl | rfl <;> cases mode <;> rfl

theorem undone_driver (keyLen : Nat) (mode : ChainMode) {m : KeyMaterial}
    (h : m.key.length = keyLen ∧ m.iv.length = 16) :
    ∃ enc dec, (mode.driver keyLen).instantiate m .encrypt = .ok enc ∧
      (mode.driver keyLen).instantiate m .decrypt = .ok dec ∧ enc.Undone mode.unit dec := by
  have hof {build : KeyMaterial → Direction → KeyedCipher .standard} :=
    @CipherDriver.instantiate_ofLengths .standard keyLen 16 build m h
  cases mode with
  | cbc =>
    have ht : Cbc.Turned ⟨Aes.cipher m.key, .encrypt, .ofBytes m.iv⟩
        ⟨Aes.cipher m.key, .decrypt, .ofBytes m.iv⟩ := ⟨rfl, rfl, Aes.decrypt_encrypt m.key⟩
    refine ⟨_, _, hof .encrypt, hof .decrypt, ?_⟩
    exact KeyedCipher.undone_of_flows (M := .standard) (fun c => .block (StandardBlock.cbc c))
      (fun _ _ => rfl) Cbc.flows fun _ hd => Cbc.blocks_undo ht hd
  | cfb =>
    refine ⟨_, _, hof .encrypt, hof .decrypt, ?_⟩
    exact KeyedCipher.undone_stream (M := .standard) StandardStream.cfb (fun _ _ => rfl)
      Cfb.step_undo ⟨rfl, rfl⟩
  | ctr =>
    refine ⟨_, _, hof .encrypt, hof .decrypt, ?_⟩
    exact KeyedCipher.undone_stream (M := .standard) StandardStream.ctr (fun _ _ => rfl)
      Ctr.step_undo rfl
  | ofb =>
    refine ⟨_, _, hof .encrypt, hof .decrypt, ?_⟩
    exact KeyedCipher.undone_stream (M := .standard) StandardStream.ofb (fun _ _ => rfl)
      Ofb.step_undo rfl

end ChainMode

/-- **The standard ciphers that go on from call to call** undo what they do, and it makes no
difference for either direction where the calls part the data. Take any of the twelve, and key
material of its lengths. The cipher for encryption makes one string of any whole units, as long as
they are, whether they come in one call or in a row of calls, and is left in one state; the cipher
for decryption makes the units of that string again, in whatever calls it comes. A call that is not
for whole units is refused, with the length and the unit, and leaves the buffer and the state as
they were; a row of calls goes on behind it as if it had not been. -/
theorem calls_undone {bits : Nat} (hb : bits ∈ [128, 192, 256]) (mode : ChainMode) :
    ∃ d, Registry.standard.cipher (mode.name bits) = .ok d ∧ d.keyLen = bits / 8 ∧ d.ivLen = 16 ∧
      ∀ m : KeyMaterial, m.key.length = d.keyLen → m.iv.length = d.ivLen →
        ∃ enc dec, d.instantiate m .encrypt = .ok enc ∧ d.instantiate m .decrypt = .ok dec ∧
          enc.Undone mode.unit dec := by
  refine ⟨mode.driver (bits / 8), mode.cipher_name hb, ?_, ?_, ?_⟩
  · cases mode <;> rfl
  · cases mode <;> rfl
  · intro m hk hi
    refine mode.undone_driver (bits / 8) ⟨hk.trans ?_, hi.trans ?_⟩
    · cases mode <;> rfl
    · cases mode <;> rfl

/-- Two blocks, with a call for three octets between them that is refused; decrypted in one call,
and behind another one that is refused. -/
theorem calls_undone_cbc :
    let m : KeyMaterial := ⟨List.replicate 32 1, List.replicate 16 36⟩
    let b : Bytes := List.replicate 16 97
    let refused : Outcome := ⟨some (.blockAlignment 3 16), [1, 2, 3]⟩
    ∃ d enc dec x y enc' dec', Registry.standard.cipher "aes-256/cbc" = .ok d ∧
      d.instantiate m .encrypt = .ok enc ∧ d.instantiate m .decrypt = .ok dec ∧
      enc.calls? [b, [1, 2, 3], b] = some ([⟨none, x⟩, refused, ⟨none, y⟩], enc') ∧
      enc.calls? [b ++ b] = some ([⟨none, x ++ y⟩], enc') ∧
      dec.calls? [[1, 2, 3], x ++ y] = some ([refused, ⟨none, b ++ b⟩], dec') := by
  intro m b refused
  obtain ⟨d, hd, hk, hi, h⟩ := calls_undone (by decide : 256 ∈ [128, 192, 256]) .cbc
  obtain ⟨enc, dec, he, hdec, -, h⟩ := h m (hk ▸ rfl) (hi ▸ rfl)
  obtain ⟨out, enc', dec', hl, hone, hmakes, hback⟩ := h (b ++ b) (by decide)
  have hl : out.length = 32 := hl
  -- the row of three calls
  obtain ⟨os, hrow, hfit, hmade⟩ := hmakes [b, [1, 2, 3], b] (by decide)
  rcases hfit with - | ⟨h₁, - | ⟨h₂, - | ⟨h₃, - | -⟩⟩⟩
  obtain ⟨x, rfl⟩ := h₁.eq_of_dvd (by decide)
  obtain rfl : _ = refused := h₂.eq_of_not_dvd (by decide)
  obtain ⟨y, rfl⟩ := h₃.eq_of_dvd (by decide)
  obtain rfl : x ++ (y ++ []) = out := hmade
  rw [List.append_nil] at hone hback hl
  -- the row of two calls
  have hdvd : 16 ∣ (x ++ y).length := hl ▸ (by decide)
  have hw : BufferCall.whole 16 [[1, 2, 3], x ++ y] = x ++ y := by
    rw [BufferCall.whole_of_not_dvd (by decide), BufferCall.whole_of_dvd hdvd]
    exact List.append_nil _
  obtain ⟨os, hrow', hfit, hmade⟩ := hback _ hw
  rcases hfit with - | ⟨h₁, - | ⟨h₂, - | -⟩⟩
  obtain rfl : _ = refused := h₁.eq_of_not_dvd (by decide)
  obtain ⟨z, rfl⟩ := h₂.eq_of_dvd hdvd
  obtain rfl : z = b ++ b := (List.append_nil z).symm.trans hmade
  exact ⟨d, enc, dec, x, y, enc', dec', hd, he, hdec, hrow, hone, hrow'⟩

end SealedStream
