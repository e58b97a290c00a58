import GlslCompose.Define.Value
import GlslCompose.Interner

/-!
# Define sets

A define set maps macro names to values.  Its entries stand in ascending order of
their keys' symbols, so a set lists its defines in the order in which the names
were first seen, and equal sets are equal lists.
-/

namespace GlslCompose

structure DefineSet where
  entries : List (Symbol × Symbol)
deriving DecidableEq, Repr

namespace DefineSet

def empty : DefineSet := ⟨[]⟩

instance : Inhabited DefineSet := ⟨empty⟩

def size (set : DefineSet) : Nat := set.entries.length

def isEmpty (set : DefineSet) : Bool := set.entries.isEmpty

def toList (set : DefineSet) : List (Text × Text) :=
  set.entries.map fun entry => (entry.1.text, entry.2.text)

def find? (name : Text) : List (Symbol × Symbol) → Option Symbol
  | [] => none
  | (key, value) :: entries => if key.text = name then some value else find? name entries

def get? (set : DefineSet) (name : Text) : Option Text :=
  (find? name set.entries).map Symbol.text

def contains (set : DefineSet) (name : Text) : Bool := (set.get? name).isSome

def insertEntry (key value : Symbol) : List (Symbol × Symbol) → List (Symbol × Symbol)
  | [] => [(key, value)]
  | (other, old) :: entries =>
      if key.rank = other.rank then (key, value) :: entries
      else if key.rank < other.rank then (key, value) :: (other, old) :: entries
      else (other, old) :: insertEntry key value entries

def insert (set : DefineSet) (key value : Symbol) : DefineSet :=
  ⟨insertEntry key value set.entries⟩

def erase (set : DefineSet) (name : Text) : DefineSet :=
  ⟨set.entries.filter fun entry => entry.1.text ≠ name⟩

/-- Both sets together; where both define a name, the second one counts. -/
def merge (set other : DefineSet) : DefineSet :=
  other.entries.foldl (fun merged entry => merged.insert entry.1 entry.2) set

/-! ## Defining names by text -/

def set (defines : DefineSet) (name value : Text) (interner : Interner) :
    DefineSet × Interner :=
  let (key, interner) := interner.intern name
  let (symbol, interner) := interner.intern value
  (defines.insert key symbol, interner)

def define (defines : DefineSet) (name : Text) (value : DefineValue) (interner : Interner) :
    DefineSet × Interner :=
  defines.set name value.toText interner

def defineAll (defines : DefineSet) (pairs : List (Text × DefineValue)) (interner : Interner) :
    DefineSet × Interner :=
  pairs.foldl (fun (defines, interner) (name, value) => defines.define name value interner)
    (defines, interner)

def ofList (pairs : List (Text × DefineValue)) (interner : Interner) : DefineSet × Interner :=
  empty.defineAll pairs interner

def ofMember? (name : Text) (json : Json) : Option (Text × DefineValue) :=
  (DefineValue.ofJson? json).map fun value => (name, value)

def defineMembers (defines : DefineSet) (members : List (Text × Json)) (interner : Interner) :
    DefineSet × Interner :=
  defines.defineAll (members.filterMap fun (name, json) => ofMember? name json) interner

/-! ## Hashes -/

/-- What a hash function makes of the set, told by the set's entries in their order. -/
def hashBy {Hash : Type} (hash : List (Symbol × Symbol) → Hash) (set : DefineSet) : Hash :=
  hash set.entries

/-- The entries themselves, which every hash reads. -/
def fingerprint (set : DefineSet) : List (Symbol × Symbol) := set.hashBy id

end DefineSet

end GlslCompose
