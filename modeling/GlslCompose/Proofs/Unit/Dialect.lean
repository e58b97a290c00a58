import GlslCompose.Proofs.Condition.Dialect
import GlslCompose.Proofs.Unit.Cycle

/-!
# Units in both dialects

A token list asks for the same modules in both dialects, for what it asks for stands in its
directives.  So two libraries that differ in their dialect alone compose the same units, and
their caches stay the same from call to call, if their stages do not look at the dialect either.
-/

namespace GlslCompose

/-! ## What tokens ask for -/

namespace Token

def asks (token : Token) : Include.Request × Nat := (Include.request token, token.line)

private theorem Becomes.asks_eq {token other : Token} (h : token.Becomes other) :
    token.asks = other.asks := by
  have hkind := h.kind
  rw [asks, asks, h.line, Include.request, Include.request, h.text]
  generalize token.kind = kind at hkind ⊢
  generalize other.kind = newer at hkind ⊢
  cases hkind with
  | same => rfl
  | reserved => rfl
  | builtin => rfl

private theorem map_asks_of_becomes {tokens others : List Token}
    (h : List.Forall₂ Becomes tokens others) : tokens.map asks = others.map asks := by
  induction h with
  | nil => rfl
  | cons hfirst _ ih => rw [List.map_cons, List.map_cons, hfirst.asks_eq, ih]

private theorem map_asks_tokenize (first second : GlslVersion) (source : Text) :
    (tokenize first source).map asks = (tokenize second source).map asks := by
  have hdialects := map_asks_of_becomes (forall₂_becomes_tokenize source)
  cases first <;> cases second
  · rfl
  · exact hdialects
  · exact hdialects.symm
  · rfl

end Token

/-! ## Composers -/

def Stage.IgnoresVersion (stage : Stage) : Prop :=
  ∀ (input : StageInput) (version : GlslVersion) (source : Text),
    stage { input with version } source = stage input source

namespace Composer

def withVersion (composer : Composer) (version : GlslVersion) : Composer :=
  { composer with version }

variable {composer : Composer} (version : GlslVersion)

private theorem expandTokens_of_asks_eq {tokens others : List Token}
    (h : tokens.map Token.asks = others.map Token.asks) (fetch : Option Fetch)
    (directory : Text) (trail : IncludeTrail) :
    composer.expandTokens fetch directory trail tokens =
      composer.expandTokens fetch directory trail others := by
  induction tokens generalizing others with
  | nil =>
      rw [List.map_nil, eq_comm, List.map_eq_nil_iff] at h
      rw [h]
  | cons token tokens ih =>
      rw [List.map_cons, eq_comm, List.map_eq_cons_iff] at h
      obtain ⟨other, rest, rfl, hasks, hrest⟩ := h
      obtain ⟨hrequest, hline⟩ := Prod.mk.inj hasks
      rw [expandTokens, expandTokens, ih hrest.symm, expandToken, expandToken, hrequest, hline]

private theorem expandTokens_withVersion (fetch : Option Fetch) (directory : Text)
    (trail : IncludeTrail) (tokens : List Token) :
    (composer.withVersion version).expandTokens fetch directory trail tokens =
      composer.expandTokens fetch directory trail tokens := by
  induction tokens with
  | nil => rfl
  | cons token tokens ih =>
      rw [expandTokens, expandTokens, ih]
      rfl

variable (hstages : ∀ stage ∈ composer.stages, Stage.IgnoresVersion stage)

include hstages

private theorem runStages_withVersion (overrides : DefineSet) (source : Text) :
    (composer.withVersion version).runStages overrides source =
      composer.runStages overrides source := by
  refine List.foldl_ext _ _ source fun text stage hmem => ?_
  have hsame := hstages stage hmem (composer.stageInput overrides) version text
  exact congrArg (Option.getD · text) hsame

private theorem processWith_withVersion (fetch : Option Fetch) (name : Option Text) (source : Text)
    (overrides : DefineSet) (trail : IncludeTrail) :
    (composer.withVersion version).processWith fetch name source overrides trail =
      composer.processWith fetch name source overrides trail := by
  have hregistry : (composer.withVersion version).registry = composer.registry := rfl
  have hversion : (composer.withVersion version).version = version := rfl
  unfold processWith
  simp only [hregistry, hversion, expandTokens_withVersion, runStages_withVersion version hstages,
    expandTokens_of_asks_eq (Token.map_asks_tokenize version composer.version _)]

private theorem compileWith_withVersion (fetch : Option Fetch) (name : Option Text) (source : Text)
    (trail : IncludeTrail) :
    (composer.withVersion version).compileWith fetch name source trail =
      composer.compileWith fetch name source trail := by
  unfold compileWith
  simp only [processWith_withVersion version hstages]
  rfl

private theorem compileUnit_withVersion (levels : Nat) :
    (composer.withVersion version).compileUnit levels = composer.compileUnit levels := by
  induction levels with
  | zero =>
      funext name source trail
      exact compileWith_withVersion version hstages none name source trail
  | succ levels ih =>
      funext name source trail
      rw [compileUnit, compileUnit, ih]
      exact compileWith_withVersion version hstages _ name source trail

private theorem fetch?_withVersion (levels : Nat) :
    (composer.withVersion version).fetch? levels = composer.fetch? levels := by
  cases levels with
  | zero => rfl
  | succ levels =>
      rw [fetch?, fetch?, compileUnit_withVersion version hstages]
      rfl

end Composer

/-! ## Libraries -/

namespace Library

open Composer

def withVersion (library : Library) (version : GlslVersion) : Library :=
  { library with version }

def outcomes (library : Library) : List Operation → List Outcome
  | [] => []
  | operation :: operations =>
      library.resultOf operation :: (library.afterOperation operation).outcomes operations

private theorem stages_of_composesUnit (library : Library) {operation : Operation}
    (h : operation.ComposesUnit) : (library.afterOperation operation).stages = library.stages :=
  congrArg Composer.stages (library.toComposer_of_composesUnit h)

private theorem assemble_withVersion {α : Type} (library : Library) (version : GlslVersion)
    {assembly other : Assembly α} (h : assembly = other) :
    (library.withVersion version).assemble assembly =
      ((library.assemble other).1, (library.assemble other).2.withVersion version) := by
  rw [h]
  rfl

section

variable {library : Library} (hstages : ∀ stage ∈ library.stages, Stage.IgnoresVersion stage)
  (version : GlslVersion)

include hstages

private theorem compile_withVersion (name : Option Text) (source : Text) :
    (library.withVersion version).compile name source =
      ((library.compile name source).1, (library.compile name source).2.withVersion version) := by
  refine library.assemble_withVersion version ?_
  have hcompile := compileUnit_withVersion version hstages library.maxIncludeDepth
  exact congrFun (congrFun (congrFun hcompile _) source) []

private theorem get_withVersion (path : Text) :
    (library.withVersion version).get path =
      ((library.get path).1, (library.get path).2.withVersion version) := by
  refine library.assemble_withVersion version ?_
  have hcompile := compileUnit_withVersion version hstages library.maxIncludeDepth
  exact congrArg (fun compile => library.toComposer.fetchWith compile path []) hcompile

private theorem process_withVersion (name : Option Text) (source : Text) (overrides : DefineSet) :
    (library.withVersion version).process name source overrides =
      ((library.process name source overrides).1,
        (library.process name source overrides).2.withVersion version) := by
  refine library.assemble_withVersion version ?_
  have hfetch := fetch?_withVersion version hstages library.maxIncludeDepth
  exact (processWith_withVersion version hstages _ name source overrides []).trans
    (congrArg (fun fetch => library.toComposer.processWith fetch name source overrides []) hfetch)

private theorem operation_withVersion {operation : Operation} (h : operation.ComposesUnit) :
    (library.withVersion version).resultOf operation = library.resultOf operation ∧
      (library.withVersion version).afterOperation operation =
        (library.afterOperation operation).withVersion version := by
  cases operation with
  | compile name source =>
      rw [resultOf, resultOf, afterOperation, afterOperation,
        compile_withVersion hstages version name source]
      exact ⟨rfl, rfl⟩
  | get path =>
      rw [resultOf, resultOf, afterOperation, afterOperation, get_withVersion hstages version path]
      exact ⟨rfl, rfl⟩
  | process name source overrides =>
      rw [resultOf, resultOf, afterOperation, afterOperation,
        process_withVersion hstages version name source overrides]
      exact ⟨rfl, rfl⟩
  | _ => exact h.elim

private theorem operations_withVersion {operations : List Operation}
    (h : ∀ operation ∈ operations, operation.ComposesUnit) :
    (library.withVersion version).outcomes operations = library.outcomes operations ∧
      (library.withVersion version).afterOperations operations =
        (library.afterOperations operations).withVersion version := by
  induction operations generalizing library with
  | nil => exact ⟨rfl, rfl⟩
  | cons operation operations ih =>
      obtain ⟨hfirst, hrest⟩ := List.forall_mem_cons.mp h
      obtain ⟨hresult, hafter⟩ := operation_withVersion hstages version hfirst
      have hnext : ∀ stage ∈ (library.afterOperation operation).stages,
          Stage.IgnoresVersion stage := by
        rwa [library.stages_of_composesUnit hfirst]
      obtain ⟨houtcomes, hfinal⟩ := ih hnext hrest
      constructor
      · rw [outcomes, outcomes, hresult, hafter, houtcomes]
      · exact (congrArg (fun next => afterOperations next operations) hafter).trans hfinal

end

def DiffersInVersion (library other : Library) : Prop :=
  other = library.withVersion other.version

/-- The dialect decides how some words are classed, and nothing that is composed or
preprocessed shows it. -/
theorem outcomes_of_differsInVersion {library other : Library}
    (hstages : ∀ stage ∈ library.stages, Stage.IgnoresVersion stage)
    (hother : library.DiffersInVersion other) {pass twin : ConditionalPass}
    (hsymbols : pass.symbols = twin.symbols) {operations : List Operation}
    (hunits : ∀ operation ∈ operations, operation.ComposesUnit) (source : Text) :
    List.Forall₂ Token.Becomes (Token.tokenize .es100 source) (Token.tokenize .es300 source) ∧
      (library.outcomes operations = other.outcomes operations ∧
        (library.afterOperations operations).DiffersInVersion
          (other.afterOperations operations)) ∧
      (pass.run source).1 = (twin.run source).1 ∧
      (pass.run source).2.symbols = (twin.run source).2.symbols := by
  obtain ⟨houtcomes, hafter⟩ := operations_withVersion hstages other.version hunits
  refine ⟨Token.forall₂_becomes_tokenize source, ⟨?_, ?_⟩,
    ConditionalPass.run_of_symbols_eq hsymbols source⟩
  · rw [hother]
    exact houtcomes.symm
  · rw [hother, DiffersInVersion, hafter]
    rfl

def texelStage : Stage := fun input source => some (source ++ "\n// ".toList ++ input.precision)

def texelLibrary : Library :=
  ((ofSettings { includeBuiltins := false }).add "texel".toList
    "uvec4 texelFetch;".toList).addStage texelStage

def texelSource : Text := "#if texelFetch\n#include <texel>\n#endif\nuvec4 at;".toList

def texelCalls : List Operation :=
  [.get "texel".toList, .compile none texelSource, .process none texelSource .empty]

def texelTexts : List Text :=
  [["precision mediump float;", "uvec4 texelFetch;", "// mediump float", ""],
    ["precision mediump float;", "#if texelFetch", "uvec4 texelFetch;", "// mediump float",
      "#endif", "uvec4 at;", "// mediump float", ""],
    ["#if texelFetch", "precision mediump float;", "uvec4 texelFetch;", "// mediump float", "",
      "#endif", "uvec4 at;", "// mediump float"]].map fun rows =>
        Text.unlines (rows.map String.toList)

def texelPass (version : GlslVersion) : ConditionalPass where
  version := version
  symbols := Table.empty.insert "texelFetch".toList ['1']

set_option maxRecDepth 10000 in
/-- Words that are reserved or built in only in the newer dialect are used in both. -/
theorem outcomes_of_differsInVersion_texel :
    (∀ operation ∈ texelCalls, operation.ComposesUnit) ∧
    texelLibrary.outcomes texelCalls = texelTexts.map (fun text => .ok (some text)) ∧
    (texelLibrary.withVersion .es300).outcomes texelCalls = texelLibrary.outcomes texelCalls ∧
    ((texelPass .es300).run texelSource).1 = ((texelPass .es100).run texelSource).1 := by
  have hstages : ∀ stage ∈ texelLibrary.stages, Stage.IgnoresVersion stage := by
    intro stage hmem
    rw [List.mem_singleton.mp hmem]
    exact fun _ _ _ => rfl
  have hunits : ∀ operation ∈ texelCalls, operation.ComposesUnit := by
    simp [texelCalls, Operation.ComposesUnit]
  have hversion : texelLibrary.DiffersInVersion (texelLibrary.withVersion .es300) := rfl
  have hsymbols : (texelPass .es300).symbols = (texelPass .es100).symbols := rfl
  obtain ⟨-, ⟨houtcomes, -⟩, hrun, -⟩ :=
    outcomes_of_differsInVersion hstages hversion hsymbols hunits texelSource
  exact ⟨hunits, by decide +kernel, houtcomes.symm, hrun⟩

end Library

end GlslCompose
