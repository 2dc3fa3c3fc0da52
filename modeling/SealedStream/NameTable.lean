/-!
# Tables by name

A `NameTable` holds a value for each of some names, in the order of the names. `get?_insert` says
what is found after an insertion.
-/
namespace SealedStream

/-- Values by name. -/
structure NameTable (α : Type) where
  entries : List (String × α) := []

namespace NameTable
variable {α : Type}

def get? (t : NameTable α) (name : String) : Option α := t.entries.lookup name

def names (t : NameTable α) : List String := t.entries.map (·.1)

def size (t : NameTable α) : Nat := t.entries.length

def contains (t : NameTable α) (name : String) : Bool := (t.get? name).isSome

def insertEntry (name : String) (a : α) : List (String × α) → List (String × α)
  | [] => [(name, a)]
  | (n, b) :: es =>
    if name < n then (name, a) :: (n, b) :: es
    else if name = n then (name, a) :: es
    else (n, b) :: insertEntry name a es

/-- Put a value under a name, in place of the one that is there. -/
def insert (t : NameTable α) (name : String) (a : α) : NameTable α := ⟨insertEntry name a t.entries⟩

/-- The table with the given entries; of several under one name the last one counts. -/
def ofList (entries : List (String × α)) : NameTable α :=
  entries.foldl (fun t e => t.insert e.1 e.2) {}

private theorem lookup_cons (m : String) (b : α) (es : List (String × α)) (n : String) :
    ((m, b) :: es).lookup n = if n = m then some b else es.lookup n := by
  split
  · next h => subst h; rw [List.lookup_cons_self]
  · next h => rw [List.lookup_cons, beq_eq_false_iff_ne.2 h]

theorem get?_insert (t : NameTable α) (name : String) (a : α) (n : String) :
    (t.insert name a).get? n = if n = name then some a else t.get? n := by
  obtain ⟨es⟩ := t
  simp only [get?, insert]
  induction es with
  | nil => simp [insertEntry, lookup_cons]
  | cons e es ih =>
    obtain ⟨m, b⟩ := e
    rw [insertEntry]
    split
    · rw [lookup_cons]
    · split
      · next h => subst h; simp only [lookup_cons]; split <;> rfl
      · next h =>
        simp only [lookup_cons, ih]
        split
        · next h' => subst h'; rw [if_neg (Ne.symm h)]
        · rfl

end NameTable

end SealedStream
