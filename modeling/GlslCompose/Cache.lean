import GlslCompose.Table
import GlslCompose.Text.Basic

/-!
# Caches

A cache keeps compiled texts under keys and counts how often a lookup finds one.
-/

namespace GlslCompose

structure Cache (κ : Type) where
  entries : Table κ Text
  hits : Nat
  misses : Nat
deriving DecidableEq, Repr

namespace Cache

variable {κ : Type} [DecidableEq κ]

def empty : Cache κ := { entries := Table.empty, hits := 0, misses := 0 }

instance : Inhabited (Cache κ) := ⟨empty⟩

def get? (cache : Cache κ) (key : κ) : Option Text := cache.entries.get? key

def contains (cache : Cache κ) (key : κ) : Bool := cache.entries.contains key

def size (cache : Cache κ) : Nat := cache.entries.size

def isEmpty (cache : Cache κ) : Bool := cache.entries.entries.isEmpty

def lookup (cache : Cache κ) (key : κ) : Option Text × Cache κ :=
  match cache.get? key with
  | some text => (some text, { cache with hits := cache.hits + 1 })
  | none => (none, { cache with misses := cache.misses + 1 })

def insert (cache : Cache κ) (key : κ) (text : Text) : Cache κ :=
  { cache with entries := cache.entries.insert key text }

@[simp] theorem get?_empty (key : κ) : (empty : Cache κ).get? key = none := rfl

@[simp] theorem get?_insert (cache : Cache κ) (key : κ) (text : Text) (other : κ) :
    (cache.insert key text).get? other = if key = other then some text else cache.get? other :=
  Table.get?_insert cache.entries key text other

@[simp] theorem fst_lookup (cache : Cache κ) (key : κ) :
    (cache.lookup key).1 = cache.get? key := by
  unfold lookup
  split
  · rename_i hget
    exact hget.symm
  · rename_i hget
    exact hget.symm

@[simp] theorem get?_lookup (cache : Cache κ) (key other : κ) :
    (cache.lookup key).2.get? other = cache.get? other := by
  unfold lookup
  split <;> rfl

end Cache

end GlslCompose
