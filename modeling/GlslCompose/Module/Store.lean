import GlslCompose.Json.Basic
import GlslCompose.Module.Builtin
import GlslCompose.ModulePath
import GlslCompose.Table

/-!
# The module store

The store holds the raw source of every module under its normalized path.
Modules can be added one at a time or as a tree, a JSON object whose string
leaves are the sources and whose keys make up the paths.
-/

namespace GlslCompose

structure ModuleStore where
  modules : Table Text Text
deriving DecidableEq, Repr

namespace ModuleStore

def empty : ModuleStore := ⟨Table.empty⟩

instance : Inhabited ModuleStore := ⟨empty⟩

def add (store : ModuleStore) (path source : Text) : ModuleStore :=
  ⟨store.modules.insert (ModulePath.normalize path) source⟩

def addAll (store : ModuleStore) (modules : List (Text × Text)) : ModuleStore :=
  modules.foldl (fun store (path, source) => store.add path source) store

def addBuiltins (store : ModuleStore) : ModuleStore := store.addAll BuiltinModules.all

def source? (store : ModuleStore) (path : Text) : Option Text := store.modules.get? path

def contains (store : ModuleStore) (path : Text) : Bool := store.modules.contains path

def remove (store : ModuleStore) (path : Text) : Option Text × ModuleStore :=
  let path := ModulePath.normalize path
  (store.source? path, ⟨store.modules.erase path⟩)

def size (store : ModuleStore) : Nat := store.modules.size

def isEmpty (store : ModuleStore) : Bool := store.modules.entries.isEmpty

def paths (store : ModuleStore) : List Text := store.modules.keys.mergeSort Text.le

/-! ## Trees -/

mutual

def leaves (keys : List Text) : Json → List (List Text × Text)
  | .string source => [(keys, source)]
  | .object members => memberLeaves keys members
  | _ => []

def memberLeaves (keys : List Text) : List (Text × Json) → List (List Text × Text)
  | [] => []
  | (key, value) :: members => leaves (keys ++ [key]) value ++ memberLeaves keys members

end

/-- Adds every string leaf of an object under its keys joined by slashes.  A tree
that is no object adds nothing. -/
def addTree (store : ModuleStore) (tree : Json) : ModuleStore :=
  match tree with
  | .object members =>
      store.addAll ((memberLeaves [] members).map fun (keys, source) =>
        (ModulePath.join keys, source))
  | _ => store

end ModuleStore

end GlslCompose
