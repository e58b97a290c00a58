import GlslCompose.Proofs.Cache.Account
import GlslCompose.Proofs.Define.Placement
import GlslCompose.Proofs.Module.StorePath
import GlslCompose.Proofs.Unit.Absence
import GlslCompose.Proofs.Unit.Comments
import GlslCompose.Proofs.Unit.Inclusion

/-!
# Including what has been registered

A module is stored under its path as it is written, but for repeated slashes, and an include
resolves the path that it names.  A unit that includes a module under the path of its
registration has the text of the module in it if this is a store path.  Otherwise the include
looks in another place, and is reported as not found if there is nothing.
-/

namespace GlslCompose

namespace Composer

open Include (expansion)
open Token (IsWhole tokenize)

variable {composer : Composer}

/-! ## A unit that is an include -/

section IncludeLine

variable {path : Text}

private theorem lastPreamble?_includeLine (hpath : '\n' ∉ path) :
    DefineSet.lastPreamble? (Directive.includeLine path) = none := by
  have hline : DefineSet.isPreamble (Directive.includeLine path) = false := by
    rw [DefineSet.isPreamble, Directive.name?_includeLine]
    decide
  rw [DefineSet.lastPreamble?, Text.linesWithEnds_of_not_mem
    (Directive.newline_not_mem_includeLine hpath) (List.cons_ne_nil _ _)]
  simp [DefineSet.splitPreamble, hline]

private theorem unitTokens_includeLine (hpath : '\n' ∉ path) :
    composer.unitTokens (Directive.includeLine path) =
      tokenize composer.version (composer.registry.block ++ Directive.includeLine path) := by
  have hinject : composer.registry.inject (Directive.includeLine path) = _ :=
    DefineSet.inject_of_lastPreamble?_eq_none (lastPreamble?_includeLine hpath)
  rw [unitTokens, NameGuard.remove_of_eachMark (Token.eachMark_includeLine hpath), ← hinject]
  rfl

variable (hpath : '\n' ∉ path) (hblock : IsWhole composer.version composer.registry.block)
  (hnone : includeArguments (tokenize composer.version composer.registry.block) = [])

include hpath hblock hnone

private theorem includeArguments_unitTokens_includeLine :
    includeArguments (composer.unitTokens (Directive.includeLine path)) =
      [Directive.includeArgument path] := by
  rw [unitTokens_includeLine hpath, includeArguments_append hblock, hnone, List.nil_append,
    Token.includeArguments_includeLine hpath]

private theorem expansion_unitTokens_includeLine (fetched : Text → Text) :
    expansion fetched (composer.unitTokens (Directive.includeLine path)) =
      ownText composer.version composer.registry.block ++
        fetched (Directive.includeArgument path) := by
  have hexpanded : Token.expanded composer.version fetched _ = _ :=
    hblock.expanded_append (Directive.includeLine path)
  rw [Token.expanded_includeLine hpath] at hexpanded
  rw [unitTokens_includeLine hpath]
  exact hexpanded.trans (congrArg (· ++ _) (expansion_eq_of_includeArguments hnone))

end IncludeLine

private theorem exists_reaches {tokens : List Token} {argument : Text} {others : List Text}
    (h : includeArguments tokens = argument :: others) (directory : Text) (work : Workspace) :
    ∃ line, composer.Reaches (.expand directory tokens) work ⟨directory, line, argument, work⟩ := by
  induction tokens with
  | nil => cases h
  | cons token tokens ih =>
      cases hrequest : Include.request token with
      | nothing =>
          rw [includeArguments_cons_of_none (by rw [requestedArgument?, hrequest])] at h
          obtain ⟨line, hreaches⟩ := ih h
          exact ⟨line, .drop hrequest hreaches⟩
      | keep text =>
          rw [includeArguments_cons_of_none (by rw [requestedArgument?, hrequest])] at h
          obtain ⟨line, hreaches⟩ := ih h
          exact ⟨line, .keep hrequest hreaches⟩
      | fetch found =>
          rw [includeArguments_cons_of_fetch hrequest] at h
          obtain ⟨rfl, -⟩ := List.cons.inj h
          let site : Site := ⟨directory, token.line, found, work⟩
          have hhere : composer.Reaches site.task work site := .here
          exact ⟨token.line, .first hrequest hhere⟩

/-! ## A unit without includes -/

def standaloneText (composer : Composer) (source : Text) : Text :=
  composer.unitText (expansion (fun _ => []) (composer.unitTokens source))

private theorem exists_compileUnit_gives (composer : Composer) {source : Text}
    (hsource : source ≠ [])
    (hincludes : includeArguments (composer.unitTokens source) = []) (cache : UnitCache) :
    ∃ text, (cache.get? (composer.unitKey source) = none → text = composer.standaloneText source) ∧
      ∃ holds : UnitCache → Prop,
        (∀ later : UnitCache, (∀ key, later.get? key = cache.get? key) → holds later) ∧
        ∀ levels name trail,
          (composer.compileUnit levels name source trail).Gives holds (some text) := by
  cases hget : cache.get? (composer.unitKey source) with
  | none =>
      refine ⟨composer.standaloneText source, fun _ => rfl,
        CachesOnly (composer.unitKey source) (composer.standaloneText source),
        fun later hlater found hfound => ?_, fun levels name trail => ?_⟩
      · rw [hlater, hget] at hfound
        cases hfound
      · rw [compileUnit_eq_compileWith]
        refine compileWith_gives hsource (expandTokens_gives fun argument hmem => ?_)
        rw [hincludes] at hmem
        cases hmem
  | some text =>
      refine ⟨text, nofun, fun later => later.get? (composer.unitKey source) = some text,
        fun later hlater => (hlater _).trans hget, fun levels name trail later hlater => ?_⟩
      rw [compileUnit_eq_compileWith, compileWith_hit hsource hlater]
      exact ⟨_, (Cache.get?_lookup _ _ _).trans hlater, rfl⟩

end Composer

namespace Library

open Composer Directive ModulePath

variable {library : Library} {path source text : Text} {holds : UnitCache → Prop}

/-! ## The module by itself -/

private theorem get_of_gives (hmodule : library.modules.source? (normalize path) = some source)
    (hholds : holds library.cache)
    (hgives : ∀ levels name trail,
      (library.toComposer.compileUnit levels name source trail).Gives holds (some text)) :
    (library.get path).1 = .ok (some text) := by
  have hfetch : (library.toComposer.get path).Gives holds (some text) :=
    fetchWith_gives hmodule (hgives _ _ _)
  obtain ⟨after, -, hrun⟩ := hfetch library.cache hholds
  exact congrArg Prod.fst hrun

@[simp] theorem source?_add (library : Library) (path source other : Text) :
    (library.add path source).modules.source? other =
      if normalize path = other then some source else library.modules.source? other :=
  Table.get?_insert _ _ _ _

private theorem lacks_add_iff (source : Text) {other : Text} (hcanonical : IsCanonical other)
    (hother : other ≠ normalize path) :
    (library.add path source).toComposer.Lacks other ↔ library.toComposer.Lacks other := by
  unfold Lacks
  rw [source?_add, normalize_of_isCanonical hcanonical, if_neg hother.symm]

/-! ## The module in an include -/

section IncludeLine

variable (library) (hpath : '\n' ∉ path) (hdepth : 0 < library.maxIncludeDepth)
  (hblock : Token.IsWhole library.version library.registry.block)
  (hnone : includeArguments (Token.tokenize library.version library.registry.block) = [])
  (hcached : library.isCached (includeLine path) = false)

include hpath hdepth hblock hnone hcached

private theorem compile_includeLine_of_gives
    (hmodule : library.modules.source? (Include.relativeTo root path) = some source)
    (hholds : ∀ later : UnitCache, (∀ key, later.get? key = library.cache.get? key) → holds later)
    (hgives : ∀ levels name trail,
      (library.toComposer.compileUnit levels name source trail).Gives holds (some text))
    (name : Option Text) :
    (library.compile name (includeLine path)).1 =
      .ok (some (library.toComposer.unitText
        (ownText library.version library.registry.block ++ text))) := by
  have hnormal := normalize_of_isCanonical (Include.isCanonical_relativeTo root path)
  obtain ⟨levels, hlevels⟩ := Nat.exists_eq_add_of_le' hdepth
  rw [← expansion_unitTokens_includeLine hpath hblock hnone fun _ => text]
  refine compile_of_gives (get?_of_isCached hcached) (hholds _ fun key => Cache.get?_lookup _ _ _)
    (List.cons_ne_nil _ _) (expandTokens_gives fun argument hmem line => ?_)
  rw [includeArguments_unitTokens_includeLine hpath hblock hnone, List.mem_singleton] at hmem
  rw [hlevels, hmem]
  exact expandInclude_gives (Include.path_bracketed _ path)
    (fetchWith_gives (by rw [hnormal, hmodule]) (hgives levels _ _))

private theorem compile_includeLine_eq_notFound_iff (name : Option Text) :
    (library.compile name (includeLine path)).1 =
        .error (.includeNotFound (Include.relativeTo root path) (includeArgument path) []) ↔
      library.toComposer.Lacks (Include.relativeTo root path) := by
  obtain ⟨outcome, after, log, hruns, hresult, -⟩ :=
    library.exists_runs (.compile name (includeLine path)) trivial
  obtain ⟨line, hreaches⟩ := exists_reaches
    (includeArguments_unitTokens_includeLine hpath hblock hnone)
    (unitDirectory (some (name.getD anonymousName)))
    (Workspace.look ⟨library.cache, []⟩ (library.toComposer.unitKey (includeLine path)))
  have hcompile : (library.compile name (includeLine path)).1 = outcome := hresult
  rw [hcompile]
  refine hruns.eq_notFound_iff ⟨Include.path_bracketed _ path, ?_⟩
    (.built (List.cons_ne_nil _ _) (get?_of_isCached hcached) hreaches)
  exact hdepth

end IncludeLine

/-- A module without includes has one text after it has been added.  Under the path with which
it was added, an include has this text in its place if it is a store path; otherwise it looks
in another place, and is not found exactly if it finds nothing there. -/
theorem compile_includeLine_add (htrim : path.trim = path) (hpath : '\n' ∉ path)
    (hsource : source ≠ [])
    (hincludes : includeArguments (library.toComposer.unitTokens source) = [])
    (hdepth : 0 < library.maxIncludeDepth)
    (hblock : Token.IsWhole library.version library.registry.block)
    (hnone : includeArguments (Token.tokenize library.version library.registry.block) = [])
    (hcached : library.isCached (includeLine path) = false) (name : Option Text) :
    ∃ text, ((library.add path source).get path).1 = .ok (some text) ∧
      (library.isCached source = false →
        text = (library.add path source).toComposer.standaloneText source) ∧
      (IsStorePath path → ((library.add path source).compile name (includeLine path)).1 =
        .ok (some ((library.add path source).toComposer.unitText
          (ownText library.version library.registry.block ++ text)))) ∧
      (¬IsStorePath path → ∃ other, other ≠ normalize path ∧
        (∀ directory, Include.path directory (includeArgument path) = .ok other) ∧
        (((library.add path source).compile name (includeLine path)).1 =
            .error (.includeNotFound other (includeArgument path) []) ↔
          library.toComposer.Lacks other)) := by
  have hmodule : (library.add path source).modules.source? (normalize path) = some source := by
    rw [source?_add, if_pos rfl]
  obtain ⟨text, hown, holds, hholds, hgives⟩ :=
    exists_compileUnit_gives (library.add path source).toComposer hsource hincludes library.cache
  refine ⟨text, get_of_gives hmodule (hholds library.cache fun _ => rfl) hgives,
    fun huncached => hown (get?_of_isCached huncached), fun hstore => ?_, fun hstore =>
    ⟨Include.relativeTo root path, mt (relativeTo_root_eq_iff htrim).mp hstore,
      fun directory => Include.path_bracketed directory path, ?_⟩⟩
  · rw [← (relativeTo_root_eq_iff htrim).mpr hstore] at hmodule
    exact compile_includeLine_of_gives (library.add path source) hpath hdepth hblock hnone hcached
      hmodule hholds hgives name
  · rw [← lacks_add_iff source (Include.isCanonical_relativeTo root path)
      (mt (relativeTo_root_eq_iff htrim).mp hstore)]
    exact compile_includeLine_eq_notFound_iff (library.add path source) hpath hdepth hblock hnone
      hcached name

def floatSource : Text := "float a;".toList

def sizedLibrary : Library :=
  (ofSettings { includeBuiltins := false }).define "SIZE".toList (.integer 4)

/-- Slashes may be repeated, but the extension must be left out. -/
theorem compile_includeLine_add_floatSource :
    (Text.trim "mesh//tint".toList = "mesh//tint".toList ∧ '\n' ∉ "mesh//tint".toList) ∧
    (Text.trim "tint.glsl".toList = "tint.glsl".toList ∧ '\n' ∉ "tint.glsl".toList) ∧
    floatSource ≠ [] ∧ includeArguments (sizedLibrary.toComposer.unitTokens floatSource) = [] ∧
    0 < sizedLibrary.maxIncludeDepth ∧
    Token.IsWhole sizedLibrary.version sizedLibrary.registry.block ∧
    includeArguments (Token.tokenize sizedLibrary.version sizedLibrary.registry.block) = [] ∧
    sizedLibrary.isCached (includeLine "mesh//tint".toList) = false ∧
    sizedLibrary.isCached (includeLine "tint.glsl".toList) = false ∧
    (IsStorePath "mesh//tint".toList ∧
      ∃ text, ((sizedLibrary.add "mesh//tint".toList floatSource).get "mesh//tint".toList).1 =
          .ok (some text) ∧
        ((sizedLibrary.add "mesh//tint".toList floatSource).compile none
          (includeLine "mesh//tint".toList)).1 =
          .ok (some ((sizedLibrary.add "mesh//tint".toList floatSource).toComposer.unitText
            (ownText sizedLibrary.version sizedLibrary.registry.block ++ text)))) ∧
    ¬IsStorePath "tint.glsl".toList ∧
      ((sizedLibrary.add "tint.glsl".toList floatSource).compile none
        (includeLine "tint.glsl".toList)).1 =
        .error (.includeNotFound "tint".toList "<tint.glsl>".toList []) := by
  have htrim : Text.trim "mesh//tint".toList = "mesh//tint".toList ∧
      '\n' ∉ "mesh//tint".toList := by decide +kernel
  have htrim' : Text.trim "tint.glsl".toList = "tint.glsl".toList ∧
      '\n' ∉ "tint.glsl".toList := by decide +kernel
  have hsource : floatSource ≠ [] := by decide +kernel
  have hincludes : includeArguments (sizedLibrary.toComposer.unitTokens floatSource) = [] := by
    decide +kernel
  have hdepth : 0 < sizedLibrary.maxIncludeDepth := by decide +kernel
  have hblock : Token.IsWhole sizedLibrary.version sizedLibrary.registry.block :=
    .inr ⟨"#define SIZE 4".toList, by decide +kernel, by decide +kernel, by decide +kernel⟩
  have hnone : includeArguments
      (Token.tokenize sizedLibrary.version sizedLibrary.registry.block) = [] := by decide +kernel
  have hcached : sizedLibrary.isCached (includeLine "mesh//tint".toList) = false := by
    decide +kernel
  have hcached' : sizedLibrary.isCached (includeLine "tint.glsl".toList) = false := by
    decide +kernel
  have hstore : IsStorePath "mesh//tint".toList :=
    (relativeTo_root_eq_iff htrim.1).mp (by decide +kernel)
  have hstore' : ¬IsStorePath "tint.glsl".toList :=
    mt (relativeTo_root_eq_iff htrim'.1).mpr (by decide +kernel)
  obtain ⟨text, hget, -, hfound, -⟩ := compile_includeLine_add htrim.1 htrim.2 hsource hincludes
    hdepth hblock hnone hcached none
  obtain ⟨-, -, -, -, hmissing⟩ := compile_includeLine_add htrim'.1 htrim'.2 hsource hincludes
    hdepth hblock hnone hcached' none
  obtain ⟨other, -, hpath, hlacks⟩ := hmissing hstore'
  have hother : other = "tint".toList := by
    have hresolved : Include.path [] (includeArgument "tint.glsl".toList) = .ok "tint".toList := by
      decide +kernel
    exact Except.ok.inj ((hpath []).symm.trans hresolved)
  subst hother
  exact ⟨htrim, htrim', hsource, hincludes, hdepth, hblock, hnone, hcached, hcached',
    ⟨hstore, text, hget, hfound hstore⟩, hstore', hlacks.mpr (by decide +kernel)⟩

def spellings : List Text := ["lib.glsl", "/lib", "lib/", "./lib"].map String.toList

def veiledSource : Text := "/*\n#version 300 es\n#include <mist>\n*/".toList

/-- Under each of the spellings, an include looks for `lib`, and this is not where the module is
stored.  A module that is stored there is not included either where there is no room, where a
define goes on over the include line, where the unit has been compiled before, and where a define
lays an include of the module bare. -/
theorem compile_includeLine_add_spellings :
    (∀ path ∈ spellings,
      ((bareLibrary.add path floatSource).compile none (includeLine path)).1 =
        .error (.includeNotFound "lib".toList (includeArgument path) [])) ∧
    (({ bareLibrary with maxIncludeDepth := 0 }.add "lib".toList floatSource).compile none
      (includeLine "lib".toList)).1 = .error (.includeDepthExceeded "lib".toList 0 []) ∧
    (((bareLibrary.define "OVER".toList (.text ['\\'])).add "lib".toList floatSource).compile none
      (includeLine "lib".toList)).1 =
        .ok (some "precision mediump float;\n#define OVER \\\n#include <lib>\n".toList) ∧
    ((((bareLibrary.add "lib".toList "float b;".toList).compile none
      (includeLine "lib".toList)).2.add "lib".toList floatSource).compile none
      (includeLine "lib".toList)).1 =
        .ok (some "precision mediump float;\nfloat b;\n".toList) ∧
    includeArguments (Token.tokenize bareLibrary.version veiledSource) = [] ∧
    (((bareLibrary.define "CLOSE".toList (.text ['*', '/'])).add "lib".toList veiledSource).compile
      none (includeLine "lib".toList)).1 =
        .error (.includeNotFound "mist".toList "<mist>".toList [⟨"lib".toList, 2⟩]) := by
  refine ⟨?_, ?_, ?_, ?_, ?_, ?_⟩ <;> decide +kernel

end Library

end GlslCompose
