/-!
# Finite tables

A table maps keys to values.  It keeps its keys in the order in which they were
first inserted, and a second insertion under a key replaces the value in place.
-/

namespace GlslCompose

structure Table (κ α : Type) where
  entries : List (κ × α)
deriving DecidableEq, Repr

namespace Table

variable {κ α : Type} [DecidableEq κ]

def empty : Table κ α := ⟨[]⟩

instance : Inhabited (Table κ α) := ⟨empty⟩

def keys (table : Table κ α) : List κ := table.entries.map Prod.fst

def size (table : Table κ α) : Nat := table.entries.length

def find? (key : κ) : List (κ × α) → Option α
  | [] => none
  | (other, value) :: entries => if other = key then some value else find? key entries

def get? (table : Table κ α) (key : κ) : Option α := find? key table.entries

def contains (table : Table κ α) (key : κ) : Bool := (table.get? key).isSome

def insertEntry (key : κ) (value : α) : List (κ × α) → List (κ × α)
  | [] => [(key, value)]
  | (other, old) :: entries =>
      if other = key then (key, value) :: entries
      else (other, old) :: insertEntry key value entries

def insert (table : Table κ α) (key : κ) (value : α) : Table κ α :=
  ⟨insertEntry key value table.entries⟩

def erase (table : Table κ α) (key : κ) : Table κ α :=
  ⟨table.entries.filter fun entry => entry.1 ≠ key⟩

/-! ## Lookups -/

@[simp] theorem get?_empty (key : κ) : (empty : Table κ α).get? key = none := rfl

theorem find?_insertEntry (key : κ) (value : α) (entries : List (κ × α)) (other : κ) :
    find? other (insertEntry key value entries) =
      if key = other then some value else find? other entries := by
  induction entries with
  | nil => rfl
  | cons entry entries ih =>
      obtain ⟨first, old⟩ := entry
      by_cases hfirst : first = key
      · subst hfirst
        by_cases hother : first = other <;> simp [insertEntry, find?, hother]
      · rw [insertEntry, if_neg hfirst]
        by_cases hother : first = other
        · have hkey : ¬key = other := fun h => hfirst (hother.trans h.symm)
          simp [find?, hother, hkey]
        · simp [find?, hother, ih]

@[simp] theorem get?_insert (table : Table κ α) (key : κ) (value : α) (other : κ) :
    (table.insert key value).get? other =
      if key = other then some value else table.get? other :=
  find?_insertEntry key value table.entries other

theorem mem_of_find? {key : κ} {value : α} {entries : List (κ × α)}
    (hfind : find? key entries = some value) : (key, value) ∈ entries := by
  induction entries with
  | nil => simp [find?] at hfind
  | cons entry entries ih =>
      obtain ⟨other, old⟩ := entry
      rw [find?] at hfind
      split at hfind
      · rename_i hother
        cases hother
        cases hfind
        exact List.mem_cons_self
      · exact List.mem_cons_of_mem _ (ih hfind)

theorem mem_of_get? {table : Table κ α} {key : κ} {value : α}
    (hget : table.get? key = some value) : (key, value) ∈ table.entries :=
  mem_of_find? hget

theorem find?_filter_ne (key : κ) (entries : List (κ × α)) (other : κ) :
    find? other (entries.filter fun entry => entry.1 ≠ key) =
      if key = other then none else find? other entries := by
  induction entries with
  | nil => simp [find?]
  | cons entry entries ih =>
      obtain ⟨first, old⟩ := entry
      by_cases hfirst : first = key
      · subst hfirst
        rw [List.filter_cons_of_neg (by simp), ih]
        by_cases hother : first = other <;> simp [find?, hother]
      · rw [List.filter_cons_of_pos (by simpa using hfirst)]
        by_cases hother : first = other
        · have hkey : ¬key = other := fun h => hfirst (hother.trans h.symm)
          simp [find?, hother, hkey]
        · simp only [find?, if_neg hother]
          exact ih

@[simp] theorem get?_erase (table : Table κ α) (key other : κ) :
    (table.erase key).get? other = if key = other then none else table.get? other :=
  find?_filter_ne key table.entries other

end Table

end GlslCompose
