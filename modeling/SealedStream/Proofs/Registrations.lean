import Mathlib
import SealedStream.Proofs.KeyLookup
/-!
# Names are given once

What a registry knows after registrations of which some may have been refused.

* `NameTable.addNew` is an insertion that leaves alone what a table has. After a row of them a table
  has under each name the first value (`NameTable.get?_addAll`), and its names are in order
  (`NameTable.Ordered.addAll`).
* `Registration.slot` is the place that a registration asks for: a name in one of the tables.
* `Registry.IsPart` is what the registrations for one table have to do with those for a slot.
* `Registry.attempt_of_has` and `Registry.register_of_not_has` are a registration, refused or made,
  and `Registry.attemptAll` is a row of them. `Registry.attemptAll_eq` is what a row does, which is
  done to the two tables apart.
* `Registry.Knows` says what a registry knows after registrations. `Registry.first_registered` says
  that of every row of registrations, and which of them are refused.
-/
namespace SealedStream

/-! ## Tables -/

namespace NameTable
variable {α : Type} {t : NameTable α} {n : String} {a : α}

/-- The names are strictly increasing. -/
def Ordered (t : NameTable α) : Prop := t.names.Pairwise (· < ·)

theorem ordered_empty : ({} : NameTable α).Ordered := List.Pairwise.nil

theorem notMem_names_iff : n ∉ t.names ↔ t.get? n = none := by
  rw [get?, List.lookup_eq_none_iff, names, List.mem_map]
  push Not
  exact forall₂_congr fun e _ => by rw [bne_iff_ne, ne_comm]

theorem contains_iff : t.contains n ↔ n ∈ t.names := by
  rw [← not_iff_not, notMem_names_iff, contains, Bool.not_eq_true, Option.isSome_eq_false_iff,
    Option.isNone_iff_eq_none]

theorem mem_names_insert {m : String} : m ∈ (t.insert n a).names ↔ m = n ∨ m ∈ t.names := by
  rw [← not_iff_not, not_or, notMem_names_iff, notMem_names_iff, get?_insert]
  by_cases hm : m = n
  · simp [hm]
  · simp [hm]

theorem Ordered.insert (h : t.Ordered) (n : String) (a : α) : (t.insert n a).Ordered := by
  obtain ⟨es⟩ := t
  induction es with
  | nil => exact List.pairwise_singleton _ _
  | cons e es ih =>
    obtain ⟨m, b⟩ := e
    obtain ⟨hm, hes⟩ := List.pairwise_cons.1 h
    simp only [Ordered, names, NameTable.insert, insertEntry]
    split_ifs with hlt heq
    · refine List.pairwise_cons.2 ⟨fun x hx => ?_, h⟩
      rcases List.mem_cons.1 hx with rfl | hx
      · exact hlt
      · exact hlt.trans (hm x hx)
    · subst heq
      exact h
    · refine List.pairwise_cons.2 ⟨fun x hx => ?_, ih hes⟩
      rcases (@mem_names_insert α ⟨es⟩ n a x).1 hx with rfl | hx
      · exact lt_of_le_of_ne (not_lt.1 hlt) (Ne.symm heq)
      · exact hm x hx

/-! ### What is new -/

/-- Put a value under a name that the table does not have. -/
def addNew (t : NameTable α) (e : String × α) : NameTable α :=
  if t.contains e.1 then t else t.insert e.1 e.2

def addAll (t : NameTable α) (es : List (String × α)) : NameTable α := es.foldl addNew t

theorem addNew_of_mem (h : n ∈ t.names) (a : α) : t.addNew (n, a) = t := if_pos (contains_iff.2 h)

theorem addNew_of_notMem (h : n ∉ t.names) (a : α) : t.addNew (n, a) = t.insert n a :=
  if_neg (mt contains_iff.1 h)

theorem get?_addNew (e : String × α) :
    (t.addNew e).get? n = (t.get? n).or (if n = e.1 then some e.2 else none) := by
  obtain ⟨m, a⟩ := e
  cases hm : t.get? m with
  | none =>
    rw [addNew_of_notMem (notMem_names_iff.2 hm), get?_insert]
    by_cases hn : n = m
    · simp [hn, hm]
    · simp [hn]
  | some b =>
    have hmem : m ∈ t.names := not_not.1 fun hn => by simp [notMem_names_iff.1 hn] at hm
    rw [addNew_of_mem hmem]
    by_cases hn : n = m
    · simp [hn, hm]
    · simp [hn]

/-- **Of several values for one name the first one counts**, and what was there before. -/
theorem get?_addAll (es : List (String × α)) :
    (t.addAll es).get? n = (t.get? n).or (es.lookup n) := by
  induction es generalizing t with
  | nil => exact Option.or_none.symm
  | cons e es ih =>
    obtain ⟨m, b⟩ := e
    refine ih.trans ?_
    rw [get?_addNew, Option.or_assoc, List.lookup_cons]
    by_cases hn : n = m
    · simp [hn]
    · simp [hn, beq_eq_false_iff_ne.2 hn]

theorem mem_names_addAll {es : List (String × α)} :
    n ∈ (t.addAll es).names ↔ n ∈ t.names ∨ n ∈ es.map Prod.fst := by
  rw [← not_iff_not, not_or, notMem_names_iff, notMem_names_iff, get?_addAll, Option.or_eq_none_iff,
    List.lookup_eq_none_iff, List.mem_map]
  push Not
  exact and_congr_right fun _ => forall₂_congr fun e _ => by rw [bne_iff_ne, ne_comm]

theorem Ordered.addAll (h : t.Ordered) (es : List (String × α)) : (t.addAll es).Ordered := by
  induction es generalizing t with
  | nil => exact h
  | cons e es ih =>
    refine ih ?_
    by_cases hn : e.1 ∈ t.names
    · rwa [addNew_of_mem hn]
    · rw [addNew_of_notMem hn]
      exact h.insert _ _

/-- Values under names that are all new and differ. -/
theorem addAll_eq_foldl {es : List (String × α)} (hd : (es.map Prod.fst).Nodup)
    (ht : ∀ e ∈ es, e.1 ∉ t.names) : t.addAll es = es.foldl (fun t e => t.insert e.1 e.2) t := by
  induction es generalizing t with
  | nil => rfl
  | cons e es ih =>
    obtain ⟨hne, hes⟩ := List.forall_mem_cons.1 ht
    obtain ⟨he, hd⟩ := List.nodup_cons.1 hd
    have hadd : t.addNew e = t.insert e.1 e.2 := addNew_of_notMem hne e.2
    rw [addAll, List.foldl_cons, List.foldl_cons, hadd]
    refine ih hd fun e' he' hmem => ?_
    rcases mem_names_insert.1 hmem with heq | hmem
    · exact he (heq ▸ List.mem_map_of_mem he')
    · exact hes e' he' hmem

end NameTable

/-! ## Registrations -/

/-- A place for a registration: a name in one of the tables. -/
inductive Slot where
  | cipher (name : String)
  | keyExchange (name : String)
  deriving DecidableEq

namespace Registry

namespace Registration
variable {M : Modes}

def name : Registration M → String
  | .cipher name _ | .keyExchange name _ => name

def slot : Registration M → Slot
  | .cipher name _ => .cipher name
  | .keyExchange name _ => .keyExchange name

def cipher? : Registration M → Option (String × CipherDriver M)
  | .cipher name d => some (name, d)
  | .keyExchange .. => none

def keyExchange? : Registration M → Option (String × KeyExchange)
  | .cipher .. => none
  | .keyExchange name x => some (name, x)

/-- The first registration for a slot. -/
def first? (s : Slot) (rs : List (Registration M)) : Option (Registration M) :=
  rs.find? fun a => a.slot = s

end Registration

open Registration

section
variable {M : Modes} {r : Registry M} {rs : List (Registration M)} {name : String}

theorem first?_cons (s : Slot) (a : Registration M) :
    first? s (a :: rs) = if a.slot = s then some a else first? s rs := by
  by_cases hs : a.slot = s
  · simp [first?, hs]
  · simp [first?, hs]

/-- `part` takes out the registrations for one of the tables: those that `make` makes, for the
slots `place`. -/
structure IsPart {α : Type} (part : Registration M → Option (String × α))
    (make : String → α → Registration M) (place : String → Slot) : Prop where
  eq_some_iff {a : Registration M} {n : String} {v : α} : part a = some (n, v) ↔ a = make n v
  slot_eq_iff {a : Registration M} {n : String} : a.slot = place n ↔ ∃ v, a = make n v

theorem isPart_cipher : IsPart (M := M) cipher? .cipher .cipher where
  eq_some_iff {a _ _} := by cases a <;> simp [cipher?]
  slot_eq_iff {a _} := by cases a <;> simp [slot]

theorem isPart_keyExchange : IsPart (M := M) keyExchange? .keyExchange .keyExchange where
  eq_some_iff {a _ _} := by cases a <;> simp [keyExchange?]
  slot_eq_iff {a _} := by cases a <;> simp [slot]

section
variable {α : Type} {part : Registration M → Option (String × α)}
  {make : String → α → Registration M} {place : String → Slot} (h : IsPart part make place)
include h

/-- What is found under a name in a part is the first registration for its slot. -/
theorem IsPart.lookup (rs : List (Registration M)) (name : String) :
    ((rs.filterMap part).lookup name).map (make name) = first? (place name) rs := by
  induction rs with
  | nil => rfl
  | cons a rs ih =>
    rw [first?_cons, ← ih]
    by_cases hs : a.slot = place name
    · obtain ⟨v, rfl⟩ := h.slot_eq_iff.1 hs
      rw [if_pos hs, List.filterMap_cons_some (h.eq_some_iff.2 rfl), List.lookup_cons_self,
        Option.map_some]
    · rw [if_neg hs]
      cases hp : part a with
      | none => rw [List.filterMap_cons_none hp]
      | some e =>
        obtain ⟨n, v⟩ := e
        have hn : name ≠ n := fun heq => hs (h.slot_eq_iff.2 ⟨v, heq ▸ h.eq_some_iff.1 hp⟩)
        rw [List.filterMap_cons_some hp, List.lookup_cons, beq_eq_false_iff_ne.2 hn]

theorem IsPart.mem_names (rs : List (Registration M)) (name : String) :
    name ∈ (rs.filterMap part).map Prod.fst ↔ place name ∈ rs.map slot := by
  simp only [List.mem_map, List.mem_filterMap, h.slot_eq_iff]
  constructor
  · rintro ⟨⟨n, v⟩, ⟨a, ha, hp⟩, rfl⟩
    exact ⟨a, ha, v, h.eq_some_iff.1 hp⟩
  · rintro ⟨a, ha, v, hv⟩
    exact ⟨(name, v), ⟨a, ha, h.eq_some_iff.2 hv⟩, rfl⟩

end

theorem filterMap_filter_isSome {α β : Type} (f : α → Option β) (l : List α) :
    (l.filter fun a => (f a).isSome).filterMap f = l.filterMap f := by
  rw [List.filterMap_filter]
  refine List.filterMap_congr fun a _ => ?_
  cases f a <;> rfl

/-! ## Registries -/

/-- Is there something in a slot? -/
def Has (r : Registry M) : Slot → Prop
  | .cipher name => name ∈ r.ciphers.names
  | .keyExchange name => name ∈ r.keyExchanges.names

def attemptAll (r : Registry M) (rs : List (Registration M)) : Registry M :=
  rs.foldl (fun r a => (r.attempt a).2) r

/-- **A registration for a slot that is not free** is refused and changes nothing. -/
theorem attempt_of_has {a : Registration M} (h : r.Has a.slot) :
    r.attempt a = (.error (.duplicateAlgorithm a.name), r) := by
  cases a with
  | cipher n d => exact (attempt_cipher r n d).trans (if_pos (NameTable.contains_iff.2 h))
  | keyExchange n x => exact (attempt_keyExchange r n x).trans (if_pos (NameTable.contains_iff.2 h))

/-- A registration for a slot that is free is made. -/
theorem register_of_not_has {a : Registration M} (h : ¬ r.Has a.slot) :
    r.register a = .ok (r.attempt a).2 ∧ (r.attempt a).1 = .ok () := by
  cases a with
  | cipher n d =>
    rw [register, attempt_cipher, if_neg (mt NameTable.contains_iff.1 h)]
    exact ⟨rfl, rfl⟩
  | keyExchange n x =>
    rw [register, attempt_keyExchange, if_neg (mt NameTable.contains_iff.1 h)]
    exact ⟨rfl, rfl⟩

theorem attempt_snd (a : Registration M) : (r.attempt a).2 =
    ⟨r.ciphers.addAll a.cipher?.toList, r.keyExchanges.addAll a.keyExchange?.toList⟩ := by
  cases a with
  | cipher n d =>
    rw [attempt_cipher]
    by_cases hn : r.ciphers.contains n <;>
      simp [hn, cipher?, keyExchange?, NameTable.addAll, NameTable.addNew]
  | keyExchange n x =>
    rw [attempt_keyExchange]
    by_cases hn : r.keyExchanges.contains n <;>
      simp [hn, cipher?, keyExchange?, NameTable.addAll, NameTable.addNew]

/-- **What a row of registrations does** is done to the two tables apart. -/
theorem attemptAll_eq (r : Registry M) (rs : List (Registration M)) : r.attemptAll rs =
    ⟨r.ciphers.addAll (rs.filterMap cipher?),
      r.keyExchanges.addAll (rs.filterMap keyExchange?)⟩ := by
  induction rs generalizing r with
  | nil => rfl
  | cons a rs ih =>
    rw [attemptAll, List.foldl_cons, attempt_snd]
    refine (ih _).trans ?_
    cases a <;> rfl

theorem ciphers_attemptAll (r : Registry M) (rs : List (Registration M)) :
    (r.attemptAll (rs.filter (·.cipher?.isSome))).ciphers = (r.attemptAll rs).ciphers := by
  rw [attemptAll_eq, attemptAll_eq, filterMap_filter_isSome]

theorem keyExchanges_attemptAll (r : Registry M) (rs : List (Registration M)) :
    (r.attemptAll (rs.filter (·.keyExchange?.isSome))).keyExchanges =
      (r.attemptAll rs).keyExchanges := by
  rw [attemptAll_eq, attemptAll_eq, filterMap_filter_isSome]

theorem attemptAll_append (r : Registry M) (rs later : List (Registration M)) :
    r.attemptAll (rs ++ later) = (r.attemptAll rs).attemptAll later := List.foldl_append

theorem has_attemptAll {s : Slot} : (r.attemptAll rs).Has s ↔ r.Has s ∨ s ∈ rs.map slot := by
  rw [attemptAll_eq]
  cases s with
  | cipher name =>
    exact NameTable.mem_names_addAll.trans (or_congr_right (isPart_cipher.mem_names rs name))
  | keyExchange name =>
    exact NameTable.mem_names_addAll.trans (or_congr_right (isPart_keyExchange.mem_names rs name))

/-- Registrations for slots that are all free and differ are all made. -/
theorem registerAll_eq_attemptAll (hd : (rs.map slot).Nodup) (hr : ∀ a ∈ rs, ¬ r.Has a.slot) :
    r.registerAll rs = .ok (r.attemptAll rs) := by
  induction rs generalizing r with
  | nil => rfl
  | cons a rs ih =>
    obtain ⟨hfree, hrs⟩ := List.forall_mem_cons.1 hr
    obtain ⟨ha, hd⟩ := List.nodup_cons.1 hd
    rw [registerAll, List.foldlM_cons, (register_of_not_has hfree).1]
    refine ih hd fun b hb hhas => ?_
    rcases (@has_attemptAll _ r [a] _).1 hhas with hhas | heq
    · exact hrs b hb hhas
    · rw [List.map_singleton, List.mem_singleton] at heq
      exact ha (heq ▸ List.mem_map_of_mem hb)

end

/-! ## What a registry knows -/

section
variable {M : Modes} {r : Registry M} {rs later : List (Registration M)}

/-- What is known after registrations: each name is that of the first registration for it in its
table, and names that no registration was for are unknown. -/
structure Knows (r : Registry M) (rs : List (Registration M)) : Prop where
  cipher : ∀ name d, r.cipher name = .ok d ↔ first? (.cipher name) rs = some (.cipher name d)
  unknownCipher : ∀ name e, r.cipher name = .error e ↔
    e = .unknownCipher name ∧ .cipher name ∉ rs.map slot
  cipherNames : r.ciphers.Ordered ∧ ∀ name, name ∈ r.ciphers.names ↔ .cipher name ∈ rs.map slot
  keyExchange : ∀ name x,
    r.keyExchange name = .ok x ↔ first? (.keyExchange name) rs = some (.keyExchange name x)
  unknownPkAlgorithm : ∀ name e, r.keyExchange name = .error e ↔
    e = .unknownPkAlgorithm name ∧ .keyExchange name ∉ rs.map slot
  keyExchangeNames : r.keyExchanges.Ordered ∧
    ∀ name, name ∈ r.keyExchanges.names ↔ .keyExchange name ∈ rs.map slot

theorem cipher_eq_error {name : String} {e : SuiteError} :
    r.cipher name = .error e ↔ e = .unknownCipher name ∧ ¬ r.Has (.cipher name) := by
  rw [Registry.cipher, Has, NameTable.notMem_names_iff]
  cases r.ciphers.get? name <;> simp [eq_comm]

theorem keyExchange_eq_error {name : String} {e : SuiteError} :
    r.keyExchange name = .error e ↔
      e = .unknownPkAlgorithm name ∧ ¬ r.Has (.keyExchange name) := by
  rw [Registry.keyExchange, Has, NameTable.notMem_names_iff]
  cases r.keyExchanges.get? name <;> simp [eq_comm]

/-- **What a registry knows** that was empty at first. -/
theorem knows_attemptAll (rs : List (Registration M)) :
    (attemptAll {} rs).Knows rs := by
  have hhas (s : Slot) : (attemptAll {} rs).Has s ↔ s ∈ rs.map slot :=
    has_attemptAll.trans (or_iff_right (by cases s <;> exact List.not_mem_nil))
  refine ⟨fun name d => ?_, fun name e => ?_, ⟨?_, fun name => hhas (.cipher name)⟩,
    fun name x => ?_, fun name e => ?_, ⟨?_, fun name => hhas (.keyExchange name)⟩⟩
  · rw [cipher_eq_ok, attemptAll_eq, NameTable.get?_addAll, ← isPart_cipher.lookup]
    cases (rs.filterMap cipher?).lookup name <;> simp [NameTable.get?]
  · rw [cipher_eq_error, hhas]
  · rw [attemptAll_eq]
    exact NameTable.ordered_empty.addAll _
  · rw [keyExchange_eq_ok, attemptAll_eq, NameTable.get?_addAll, ← isPart_keyExchange.lookup]
    cases (rs.filterMap keyExchange?).lookup name <;> simp [NameTable.get?]
  · rw [keyExchange_eq_error, hhas]
  · rw [attemptAll_eq]
    exact NameTable.ordered_empty.addAll _

end

/-! ## The standard registry -/

/-- The registrations of the standard algorithms. -/
def standardRegistrations : List (Registration .standard) :=
  (standardCiphers.map fun e => .cipher e.1 e.2) ++
    standardKeyExchanges.map fun e => .keyExchange e.1 e.2

theorem nodup_standardRegistrations : (standardRegistrations.map slot).Nodup := by decide

theorem attemptAll_standard : attemptAll {} standardRegistrations = standard := by
  have hc : standardRegistrations.filterMap cipher? = standardCiphers := rfl
  have hx : standardRegistrations.filterMap keyExchange? = standardKeyExchanges := rfl
  have hcd : (standardCiphers.map Prod.fst).Nodup := by decide
  have hxd : (standardKeyExchanges.map Prod.fst).Nodup := by decide
  rw [attemptAll_eq, hc, hx, NameTable.addAll_eq_foldl hcd fun _ _ => List.not_mem_nil,
    NameTable.addAll_eq_foldl hxd fun _ _ => List.not_mem_nil]
  rfl

/-- The registries to begin with, and what was registered for them. -/
inductive Begins : {M : Modes} → Registry M → List (Registration M) → Prop
  | empty {M : Modes} : Begins ({} : Registry M) []
  | standard : Begins Registry.standard standardRegistrations

theorem Begins.registerAll_eq {M : Modes} {r₀ : Registry M} {past : List (Registration M)}
    (h : Begins r₀ past) : registerAll {} past = .ok r₀ ∧ attemptAll {} past = r₀ := by
  cases h with
  | empty => exact ⟨rfl, rfl⟩
  | standard =>
    have hall := @registerAll_eq_attemptAll .standard {} _ nodup_standardRegistrations
      fun a _ => by cases a <;> exact List.not_mem_nil
    rw [attemptAll_standard] at hall
    exact ⟨hall, attemptAll_standard⟩

/-- **The first registration for a name counts.** Take any registrations on a registry that is empty
or standard, which itself was made by registrations of which none was refused. A further one is
refused just if there was one for the same name in the same table, made or refused, and then changes
nothing. The registry finds under each name what was first registered in that table, knows no other
names, and lists its names in order. Registrations that follow change nothing that is found, and
either table is as if there had been no registrations for the other one. -/
theorem first_registered {M : Modes} {r₀ : Registry M} {past : List (Registration M)}
    (h : Begins r₀ past) (rs : List (Registration M)) :
    registerAll {} past = .ok r₀ ∧
    (∀ a, (∀ e, ((r₀.attemptAll rs).attempt a).1 = .error e ↔
        e = .duplicateAlgorithm a.name ∧ a.slot ∈ (past ++ rs).map slot) ∧
      (a.slot ∈ (past ++ rs).map slot →
        ((r₀.attemptAll rs).attempt a).2 = r₀.attemptAll rs)) ∧
    (r₀.attemptAll rs).Knows (past ++ rs) ∧
    (∀ later, (∀ name d, (r₀.attemptAll rs).cipher name = .ok d →
        (r₀.attemptAll (rs ++ later)).cipher name = .ok d) ∧
      ∀ name x, (r₀.attemptAll rs).keyExchange name = .ok x →
        (r₀.attemptAll (rs ++ later)).keyExchange name = .ok x) ∧
    (r₀.attemptAll (rs.filter (·.cipher?.isSome))).ciphers = (r₀.attemptAll rs).ciphers ∧
    (r₀.attemptAll (rs.filter (·.keyExchange?.isSome))).keyExchanges =
      (r₀.attemptAll rs).keyExchanges := by
  obtain ⟨hall, rfl⟩ := h.registerAll_eq
  have hknows (rs : List (Registration M)) :
      (attemptAll (attemptAll {} past) rs).Knows (past ++ rs) := by
    rw [← attemptAll_append]
    exact knows_attemptAll _
  have hhas (s : Slot) :
      (attemptAll (attemptAll {} past) rs).Has s ↔ s ∈ (past ++ rs).map slot := by
    cases s with
    | cipher name => exact (hknows rs).cipherNames.2 name
    | keyExchange name => exact (hknows rs).keyExchangeNames.2 name
  have hfirst {s : Slot} {a : Registration M} (later : List (Registration M))
      (ha : first? s (past ++ rs) = some a) : first? s (past ++ (rs ++ later)) = some a := by
    rw [first?, ← List.append_assoc, List.find?_append]
    exact Option.or_eq_some_iff.2 (.inl ha)
  refine ⟨hall, fun a => ⟨fun e => ?_, fun ha => ?_⟩, hknows rs, fun later => ⟨fun name d hd => ?_,
    fun name x hx => ?_⟩, ciphers_attemptAll _ rs, keyExchanges_attemptAll _ rs⟩
  · rw [← hhas]
    by_cases hs : (attemptAll (attemptAll {} past) rs).Has a.slot
    · rw [attempt_of_has hs]
      simp [hs, eq_comm]
    · rw [(register_of_not_has hs).2]
      simp [hs]
  · rw [attempt_of_has ((hhas _).2 ha)]
  · exact ((hknows _).cipher name d).2 (hfirst later (((hknows rs).cipher name d).1 hd))
  · exact ((hknows _).keyExchange name x).2 (hfirst later (((hknows rs).keyExchange name x).1 hx))

/-- A cipher that takes the name of a standard one is refused, and one with the name of a standard
key exchange is not. -/
theorem first_registered_gcm :
    let late : Registration .standard := .cipher "aes-128/gcm" (.ctr 16)
    let rs : List (Registration .standard) := [late, .cipher "curve25519" (.ctr 32)]
    Begins Registry.standard standardRegistrations ∧
    ((standard.attemptAll rs).attempt late).1 = .error (.duplicateAlgorithm "aes-128/gcm") ∧
    ((standard.attemptAll rs).attempt late).2 = standard.attemptAll rs ∧
    (standard.attemptAll rs).cipher "aes-128/gcm" = .ok (.gcm 16) ∧
    (standard.attemptAll rs).cipher "curve25519" = .ok (.ctr 32) ∧
    (standard.attemptAll rs).keyExchange "curve25519" = .ok .x25519 ∧
    (standard.attemptAll rs).cipher "rot13" = .error (.unknownCipher "rot13") := by
  intro late rs
  obtain ⟨-, hattempt, hknows, -⟩ := first_registered Begins.standard rs
  have hlate : late.slot ∈ (standardRegistrations ++ rs).map slot := by decide
  obtain ⟨herr, hsame⟩ := hattempt late
  exact ⟨.standard, (herr _).2 ⟨rfl, hlate⟩, hsame hlate, (hknows.cipher _ _).2 rfl,
    (hknows.cipher _ _).2 rfl, (hknows.keyExchange _ _).2 rfl,
    (hknows.unknownCipher _ _).2 ⟨rfl, by decide⟩⟩

end Registry

end SealedStream
