import GlslCompose.Condition.Pass
import GlslCompose.Library.Composer

/-!
# Libraries

A library is a composer together with what changes from call to call: the cache
of compiled units and the interner of define names and values.
-/

namespace GlslCompose

structure Library extends Composer where
  cache : UnitCache
  interner : Interner

namespace Library

def ofSettings (settings : Settings) : Library :=
  let modules :=
    if settings.includeBuiltins then ModuleStore.empty.addBuiltins else ModuleStore.empty
  let (registry, interner) :=
    DefineSet.empty.defineMembers settings.defines Interner.empty.preload
  { precision := settings.precision
    version := settings.version
    maxIncludeDepth := settings.maxIncludeDepth
    cacheKey := settings.cacheKey
    modules := modules.addTree settings.modules
    registry
    stages := []
    cache := .empty
    interner }

/-! ## Modules, defines and stages -/

def add (library : Library) (path source : Text) : Library :=
  { library with modules := library.modules.add path source }

def addTree (library : Library) (tree : Json) : Library :=
  { library with modules := library.modules.addTree tree }

def define (library : Library) (name : Text) (value : DefineValue) : Library :=
  let (registry, interner) := library.registry.define name value library.interner
  { library with registry, interner }

def defineAll (library : Library) (pairs : List (Text × DefineValue)) : Library :=
  let (registry, interner) := library.registry.defineAll pairs library.interner
  { library with registry, interner }

def undefine (library : Library) (name : Text) : Bool × Library :=
  (library.registry.contains name, { library with registry := library.registry.erase name })

def mergeDefines (library : Library) (defines : DefineSet) : Library :=
  { library with registry := library.registry.merge defines }

def makeDefines (library : Library) (pairs : List (Text × DefineValue)) : DefineSet × Library :=
  let (defines, interner) := DefineSet.ofList pairs library.interner
  (defines, { library with interner })

def addStage (library : Library) (stage : Stage) : Library :=
  { library with stages := library.stages ++ [stage] }

/-! ## Compilation -/

def assemble {α : Type} (library : Library) (assembly : Assembly α) :
    Except ComposeError α × Library :=
  let (result, cache) := assembly library.cache
  (result, { library with cache })

def compile (library : Library) (name : Option Text) (source : Text) :
    Except ComposeError (Option Text) × Library :=
  library.assemble (library.toComposer.compile (some (name.getD Composer.anonymousName)) source)

def get (library : Library) (path : Text) : Except ComposeError (Option Text) × Library :=
  library.assemble (library.toComposer.get path)

def process (library : Library) (name : Option Text) (source : Text) (overrides : DefineSet) :
    Except ComposeError Text × Library :=
  library.assemble (library.toComposer.process name source overrides)

def preprocess (library : Library) (source : Text) : Except ComposeError Text :=
  (((ConditionalPass.ofVersion library.version).defineAll library.registry.toList).run source).1

def isCached (library : Library) (source : Text) : Bool :=
  library.cache.contains (library.toComposer.unitKey source)

def clearCache (library : Library) : Library := { library with cache := .empty }

end Library

end GlslCompose
