import GlslCompose.Library.Basic

/-!
# What is done to a library

All that can be done to a library from outside is an operation, so what has happened to a
library is a list of operations.  A result about some of them alone asks for that with a
predicate.
-/

namespace GlslCompose

inductive Operation where
  | compile (name : Option Text) (source : Text)
  | get (path : Text)
  | process (name : Option Text) (source : Text) (overrides : DefineSet)
  | preprocess (source : Text)
  | isCached (source : Text)
  | clearCache
  | define (name : Text) (value : DefineValue)
  | undefine (name : Text)
  | defineAll (pairs : List (Text × DefineValue))
  | mergeDefines (defines : DefineSet)
  | makeDefines (pairs : List (Text × DefineValue))
  /-- The registry lies open, and can be edited in any way. -/
  | editRegistry (edit : DefineSet → DefineSet)
  | add (path source : Text)
  | addTree (tree : Json)
  | addStage (stage : Stage)

namespace Operation

def IsQuery : Operation → Prop
  | compile _ _ | get _ => True
  | _ => False

def ComposesUnit : Operation → Prop
  | compile _ _ | get _ | process _ _ _ => True
  | _ => False

theorem IsQuery.composesUnit {operation : Operation} (h : operation.IsQuery) :
    operation.ComposesUnit := by
  cases operation with
  | compile | get => trivial
  | _ => exact h.elim

end Operation

namespace Library

def afterOperation (library : Library) : Operation → Library
  | .compile name source => (library.compile name source).2
  | .get path => (library.get path).2
  | .process name source overrides => (library.process name source overrides).2
  | .preprocess _ | .isCached _ => library
  | .clearCache => library.clearCache
  | .define name value => library.define name value
  | .undefine name => (library.undefine name).2
  | .defineAll pairs => library.defineAll pairs
  | .mergeDefines defines => library.mergeDefines defines
  | .makeDefines pairs => (library.makeDefines pairs).2
  | .editRegistry edit => { library with registry := edit library.registry }
  | .add path source => library.add path source
  | .addTree tree => library.addTree tree
  | .addStage stage => library.addStage stage

def afterOperations (library : Library) (operations : List Operation) : Library :=
  operations.foldl afterOperation library

variable (library : Library) {operation : Operation} {operations : List Operation}

@[simp] theorem afterOperations_append (operations more : List Operation) :
    library.afterOperations (operations ++ more) =
      (library.afterOperations operations).afterOperations more :=
  List.foldl_append ..

theorem cache_afterOperation_cases (operation : Operation) :
    operation.ComposesUnit ∨ operation = .clearCache ∨
      (library.afterOperation operation).cache = library.cache := by
  cases operation with
  | compile | get | process => exact .inl trivial
  | clearCache => exact .inr (.inl rfl)
  | _ => exact .inr (.inr rfl)

theorem toComposer_of_composesUnit (h : operation.ComposesUnit) :
    (library.afterOperation operation).toComposer = library.toComposer := by
  cases operation with
  | compile | get | process => rfl
  | _ => exact h.elim

theorem toComposer_of_composeUnits (h : ∀ operation ∈ operations, operation.ComposesUnit) :
    (library.afterOperations operations).toComposer = library.toComposer := by
  induction operations generalizing library with
  | nil => rfl
  | cons operation operations ih =>
      obtain ⟨hfirst, hrest⟩ := List.forall_mem_cons.mp h
      exact (ih (library.afterOperation operation) hrest).trans
        (library.toComposer_of_composesUnit hfirst)

end Library

end GlslCompose
