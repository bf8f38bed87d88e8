/-!
# Tables

A finite map as a list of entries in ascending order of their keys, so a table is listed in order
and two tables with the same entries are equal.

* `Table.get?_insert`: what an insertion does to the lookup.
* `Table.get?_erase`: what a removal does to the lookup.
-/

namespace MicroC

/-- A finite map from keys to values. -/
structure Table (κ α : Type) where
  entries : List (κ × α)
deriving Repr

namespace Table

variable {κ α : Type}

/-- The table without entries. -/
def empty : Table κ α := ⟨[]⟩

instance : Inhabited (Table κ α) := ⟨empty⟩

def size (t : Table κ α) : Nat := t.entries.length

def isEmpty (t : Table κ α) : Bool := t.entries.isEmpty

section Lookup

variable [DecidableEq κ]

/-- The value of a key. -/
def get? (t : Table κ α) (k : κ) : Option α := t.entries.lookup k

def contains (t : Table κ α) (k : κ) : Bool := (t.get? k).isSome

/-- Drops the entry of a key. -/
def erase (t : Table κ α) (k : κ) : Table κ α := ⟨t.entries.filter (·.1 != k)⟩

@[simp] theorem get?_empty (k : κ) : (empty : Table κ α).get? k = none := rfl

theorem lookup_cons_ite (j k : κ) (a : α) (es : List (κ × α)) :
    ((k, a) :: es).lookup j = if j = k then some a else es.lookup j := by
  by_cases h : j = k
  · simp [h]
  · rw [List.lookup_cons, if_neg h, beq_false_of_ne h]

theorem get?_erase (t : Table κ α) (k j : κ) :
    (t.erase k).get? j = if j = k then none else t.get? j := by
  obtain ⟨es⟩ := t
  simp only [get?, erase]
  induction es with
  | nil => simp
  | cons e es ih =>
    obtain ⟨i, a⟩ := e
    rw [lookup_cons_ite, List.filter_cons]
    by_cases hik : i = k
    · rw [if_neg (by simp [hik]), ih]
      by_cases hjk : j = k <;> simp [hjk, hik]
    · by_cases hji : j = i <;> simp_all [lookup_cons_ite]

end Lookup

section Insert

variable [DecidableEq κ] [LT κ] [DecidableLT κ]

/-- Puts an entry in its place; an entry with the same key is replaced. -/
def insertEntry (k : κ) (a : α) : List (κ × α) → List (κ × α)
  | [] => [(k, a)]
  | e :: es =>
    if k = e.1 then (k, a) :: es
    else if k < e.1 then (k, a) :: e :: es
    else e :: insertEntry k a es

/-- Gives a key a value. -/
def insert (t : Table κ α) (k : κ) (a : α) : Table κ α := ⟨insertEntry k a t.entries⟩

theorem lookup_insertEntry (k j : κ) (a : α) (es : List (κ × α)) :
    (insertEntry k a es).lookup j = if j = k then some a else es.lookup j := by
  induction es with
  | nil => simp [insertEntry, lookup_cons_ite]
  | cons e es ih =>
    obtain ⟨i, b⟩ := e
    unfold insertEntry
    by_cases hk : k = i
    · subst hk
      by_cases h : j = k <;> simp [lookup_cons_ite, h]
    · by_cases hj : j = k <;> by_cases hlt : k < i <;> simp_all [lookup_cons_ite]

/-- A key has the value inserted last. -/
theorem get?_insert (t : Table κ α) (k j : κ) (a : α) :
    (t.insert k a).get? j = if j = k then some a else t.get? j :=
  lookup_insertEntry k j a t.entries

@[simp] theorem get?_insert_self (t : Table κ α) (k : κ) (a : α) :
    (t.insert k a).get? k = some a := by
  simp [get?_insert]

end Insert

end Table

end MicroC
