import GlslCompose.Define.Injection
import GlslCompose.Module.Store
import GlslCompose.Settings.Basic
import GlslCompose.Unit.Assembly
import GlslCompose.Unit.Guard
import GlslCompose.Unit.Include
import GlslCompose.Unit.Layout
import GlslCompose.Unit.Precision

/-!
# Composing units

A unit is composed in steps: its name guard is removed, the defines in force are
injected, the includes are replaced by the compiled text of their modules, the
stages work on the result, and precision statement and line layout are put in
order.  A module that is included is itself a unit, compiled in the same way.

How deep includes may nest is a number of levels that each include uses up, so
composing ends also where modules include each other.
-/

namespace GlslCompose

structure Environment where
  precision : Text
  version : GlslVersion
  maxIncludeDepth : Nat
  cacheKey : CacheKeyPolicy
  modules : ModuleStore
  registry : DefineSet

structure StageInput extends Environment where
  stageCount : Nat
  overrides : DefineSet

/-- A stage gives a new source, or nothing to leave the source as it is.  It is a pure
function of the source and its input: how many units are cached, and which ones, is out of
its sight. -/
abbrev Stage := StageInput → Text → Option Text

structure Composer extends Environment where
  stages : List Stage

/-- How the text of an included module is had, given its path and the trail that
leads into it.  There may be no such module. -/
abbrev Fetch := Text → IncludeTrail → Assembly (Option Text)

namespace Composer

def anonymousName : Text := "<anonymous>".toList

def toolingMarker : Text := "#define GLSLIFY 1\n".toList

def unitDirectory : Option Text → Text
  | none => ModulePath.root
  | some name =>
      if name = [] ∨ name = anonymousName then ModulePath.root else ModulePath.directory name

/-- Replaces an include by its module.  Without a way to fetch, the includes are
nested too deep. -/
def expandInclude (composer : Composer) (fetch : Option Fetch) (directory : Text)
    (trail : IncludeTrail) (line : Nat) (argument : Text) : Assembly Text :=
  match Include.path directory argument with
  | .error refusal => Assembly.fail (.includeSyntax refusal.found refusal.expected trail)
  | .ok path =>
      match fetch with
      | none => Assembly.fail (.includeDepthExceeded path composer.maxIncludeDepth trail)
      | some fetch => do
          match ← fetch path (trail.push path line) with
          | some text => return text
          | none => Assembly.fail (.includeNotFound path argument trail)

def expandToken (composer : Composer) (fetch : Option Fetch) (directory : Text)
    (trail : IncludeTrail) (token : Token) : Assembly Text :=
  match Include.request token with
  | .nothing => return []
  | .keep text => return text
  | .fetch argument => composer.expandInclude fetch directory trail token.line argument

def expandTokens (composer : Composer) (fetch : Option Fetch) (directory : Text)
    (trail : IncludeTrail) : List Token → Assembly Text
  | [] => return []
  | token :: tokens => do
      let text ← composer.expandToken fetch directory trail token
      let more ← composer.expandTokens fetch directory trail tokens
      return text ++ more

def stageInput (composer : Composer) (overrides : DefineSet) : StageInput where
  toEnvironment := composer.toEnvironment
  stageCount := composer.stages.length
  overrides := overrides

def runStages (composer : Composer) (overrides : DefineSet) (source : Text) : Text :=
  composer.stages.foldl
    (fun source stage => (stage (composer.stageInput overrides) source).getD source) source

def processWith (composer : Composer) (fetch : Option Fetch) (name : Option Text)
    (source : Text) (overrides : DefineSet) (trail : IncludeTrail) : Assembly Text := do
  let injected := (composer.registry.merge overrides).inject source
  let tokens := Token.tokenize composer.version injected
  let assembled ← composer.expandTokens fetch (unitDirectory name) trail tokens
  return (composer.runStages overrides assembled).replaceFirst toolingMarker []

def unitKey (composer : Composer) (source : Text) : UnitKey where
  source := source
  defines :=
    match composer.cacheKey with
    | .source => none
    | .sourceAndDefines => some composer.registry

def finishUnit (composer : Composer) (processed : Text) : Text :=
  Layout.finalizeLines (Precision.inject composer.precision processed) ++ ['\n']

def compileWith (composer : Composer) (fetch : Option Fetch) (name : Option Text)
    (source : Text) (trail : IncludeTrail) : Assembly (Option Text) := do
  if source = [] then return none
  let key := composer.unitKey source
  match ← Assembly.lookup key with
  | some text => return some text
  | none =>
      let processed ← composer.processWith fetch name (NameGuard.remove source) .empty trail
      let text := composer.finishUnit processed
      Assembly.store key text
      return some text

def fetchWith (composer : Composer)
    (compile : Option Text → Text → IncludeTrail → Assembly (Option Text)) : Fetch :=
  fun path trail =>
    let path := ModulePath.normalize path
    match composer.modules.source? path with
    | none => return none
    | some source => compile (some path) source trail

def compileUnit (composer : Composer) :
    (levels : Nat) → Option Text → Text → IncludeTrail → Assembly (Option Text)
  | 0, name, source, trail => composer.compileWith none name source trail
  | levels + 1, name, source, trail =>
      composer.compileWith (some (composer.fetchWith (composer.compileUnit levels)))
        name source trail

def fetch? (composer : Composer) : (levels : Nat) → Option Fetch
  | 0 => none
  | levels + 1 => some (composer.fetchWith (composer.compileUnit levels))

/-! ## Whole units -/

def compile (composer : Composer) (name : Option Text) (source : Text) :
    Assembly (Option Text) :=
  composer.compileUnit composer.maxIncludeDepth name source []

def get (composer : Composer) (path : Text) : Assembly (Option Text) :=
  composer.fetchWith (composer.compileUnit composer.maxIncludeDepth) path []

def process (composer : Composer) (name : Option Text) (source : Text)
    (overrides : DefineSet) : Assembly Text :=
  composer.processWith (composer.fetch? composer.maxIncludeDepth) name source overrides []

end Composer

end GlslCompose
