import GlslCompose.Proofs.Cache.Operation
import GlslCompose.Proofs.Cache.Soundness
import Mathlib.Tactic.Common

/-!
# Units in more than one place

A cached unit is found by its source alone, wherever it stands, but its quoted
includes are relative to its directory.  So the cache is transparent as long as
no two units that the calls reach have the same source and an include that names
different modules in their directories; where there are two such units, the later
one gets the text of the earlier one.
-/

namespace GlslCompose

namespace Composer

def unit? (composer : Composer) : Operation → Option (Option Text × Text)
  | .compile name source => some (some (name.getD anonymousName), source)
  | .get path =>
      (composer.modules.source? (ModulePath.normalize path)).map fun source =>
        (some (ModulePath.normalize path), source)
  | _ => none

/-- The units that are asked for, with everything that they include. -/
inductive Reached (composer : Composer) (queries : List Operation) :
    Option Text → Text → Prop where
  | asked {query : Operation} {name : Option Text} {source : Text} (hquery : query ∈ queries)
      (hunit : composer.unit? query = some (name, source)) :
      Reached composer queries name source
  | included {name : Option Text} {source argument path inner : Text}
      (hunit : Reached composer queries name source)
      (hargument : argument ∈ includeArguments (composer.unitTokens source))
      (hmodule : composer.included? (unitDirectory name) argument = some (path, inner)) :
      Reached composer queries (some path) inner

theorem Reached.mem_of_closed {composer : Composer} {queries : List Operation}
    {units : List (Option Text × Text)}
    (hasked : ∀ query ∈ queries, ∀ asked ∈ composer.unit? query, asked ∈ units)
    (hclosed : ∀ including ∈ units,
      ∀ argument ∈ includeArguments (composer.unitTokens including.2),
      ∀ target ∈ composer.included? (unitDirectory including.1) argument,
        (some target.1, target.2) ∈ units)
    {name : Option Text} {source : Text} (h : composer.Reached queries name source) :
    (name, source) ∈ units := by
  induction h with
  | asked hquery hunit => exact hasked _ hquery _ hunit
  | included _ hargument hmodule ih => exact hclosed _ ih _ hargument _ hmodule

private theorem coherent_of_closed {composer : Composer} {queries : List Operation}
    (units : List (Option Text × Text))
    (hasked : ∀ query ∈ queries, ∀ asked ∈ composer.unit? query, asked ∈ units)
    (hclosed : ∀ including ∈ units,
      ∀ argument ∈ includeArguments (composer.unitTokens including.2),
      ∀ target ∈ composer.included? (unitDirectory including.1) argument,
        (some target.1, target.2) ∈ units)
    (hagree : ∀ first ∈ units, ∀ second ∈ units, first.2 = second.2 →
      composer.Agree (unitDirectory first.1) (unitDirectory second.1)
        (includeArguments (composer.unitTokens first.2))) :
    composer.Coherent (.anyOf (composer.Reached queries)) := by
  intro _ source place other _ hplace hother
  exact hagree _ (hplace.mem_of_closed hasked hclosed) _ (hother.mem_of_closed hasked hclosed) rfl

def reachedFamily (composer : Composer) (queries : List Operation) :
    UnitFamily (.anyOf (composer.Reached queries)) where
  Has other name source := other = composer ∧ composer.Reached queries name source
  placed := fun ⟨_, hreached⟩ => hreached
  included := by
    rintro other name source ⟨rfl, hreached⟩ argument hargument path inner hmodule
    exact ⟨rfl, .included hreached hargument hmodule⟩
  exchange := by
    rintro first second name place source inner text ⟨rfl, _⟩ ⟨rfl, _⟩ hkey htext
    have hsource : source = inner := congrArg UnitKey.source hkey
    subst hsource
    exact htext

end Composer

namespace Library

variable {library : Library} {queries : List Operation}

private theorem sound_query {query : Operation} (hmem : query ∈ queries) (hquery : query.IsQuery)
    (hsound : (library.toComposer.reachedFamily queries).Sound library.cache) :
    (library.toComposer.reachedFamily queries).Sound (library.afterOperation query).cache := by
  cases query with
  | compile name source => exact (UnitFamily.sound_compile hsound ⟨rfl, .asked hmem rfl⟩).1
  | get path =>
      refine UnitFamily.sound_get hsound fun source hsource => ⟨rfl, .asked hmem ?_⟩
      simp [Composer.unit?, hsource]
  | _ => exact hquery.elim

private theorem sound_queries {asked : List Operation} (hasked : ∀ query ∈ asked, query ∈ queries)
    (hqueries : ∀ query ∈ asked, query.IsQuery)
    (hsound : (library.toComposer.reachedFamily queries).Sound library.cache) :
    (library.toComposer.reachedFamily queries).Sound (library.afterOperations asked).cache := by
  induction asked generalizing library with
  | nil => exact hsound
  | cons query asked ih =>
      obtain ⟨hfirst, hrest⟩ := List.forall_mem_cons.mp hqueries
      have hnext := sound_query (hasked query List.mem_cons_self) hfirst hsound
      rw [← library.toComposer_of_composesUnit hfirst.composesUnit] at hnext ⊢
      exact ih (fun other hmem => hasked other (List.mem_cons_of_mem query hmem)) hrest hnext

/-- Clearing the cache changes no text, unless two of the units that were reached have
the same source and an include that names different modules in their directories. -/
theorem compile_eq_compile_clearCache {name : Option Text} {source : Text}
    {cached fresh : Option Text} (hempty : library.cache = .empty)
    (hqueries : ∀ query ∈ queries, query.IsQuery)
    (hcoherent : library.toComposer.Coherent
      (.anyOf (library.toComposer.Reached (queries ++ [.compile name source]))))
    (hcached : ((library.afterOperations queries).compile name source).1 = .ok cached)
    (hfresh : ((library.afterOperations queries).clearCache.compile name source).1 = .ok fresh) :
    cached = fresh := by
  by_cases hsource : source = []
  · subst hsource
    rw [compile_nil] at hcached hfresh
    cases hcached
    cases hfresh
    rfl
  · obtain ⟨text, rfl⟩ := Option.isSome_iff_exists.mp (isSome_of_compile hsource hcached)
    obtain ⟨other, rfl⟩ := Option.isSome_iff_exists.mp (isSome_of_compile hsource hfresh)
    have hlast : Operation.compile name source ∈ queries ++ [.compile name source] := by simp
    have hstart : (library.toComposer.reachedFamily (queries ++ [.compile name source])).Sound
        library.cache := by
      rw [hempty]
      exact UnitFamily.sound_empty _
    have hafter := sound_queries
      (fun query hmem => List.mem_append_left [.compile name source] hmem) hqueries hstart
    have hcomposer := library.toComposer_of_composeUnits fun query hmem =>
      (hqueries query hmem).composesUnit
    have hhas : (library.toComposer.reachedFamily (queries ++ [.compile name source])).Has
        (library.afterOperations queries).toComposer (some (name.getD Composer.anonymousName))
        source := ⟨hcomposer, .asked hlast rfl⟩
    have hclean : (library.toComposer.reachedFamily (queries ++ [.compile name source])).Sound
        (library.afterOperations queries).clearCache.cache := UnitFamily.sound_empty _
    have htext := (UnitFamily.sound_compile hafter hhas).2 _ hcached text rfl
    have hother := (UnitFamily.sound_compile hclean hhas).2 _ hfresh other rfl
    rw [hcomposer] at htext
    have hclear : (library.afterOperations queries).clearCache.toComposer = library.toComposer :=
      hcomposer
    rw [hclear] at hother
    rw [htext.unique hcoherent hother]

/-! ## A library with two directories -/

def twoColors : Library :=
  ((ofSettings { includeBuiltins := false }).add "mesh/color".toList "vec4 a;".toList).add
    "tint/color".toList "vec4 b;".toList

def colorUser : Text := "#include \"color\"".toList

def lightUser : Text := "#include <mesh/light>\nvoid main() \x7b\x7d".toList

def withLight : Library := twoColors.add "mesh/light".toList colorUser

def lightUnits : List (Option Text × Text) :=
  [(some "mesh/light".toList, colorUser), (some "tint/main".toList, lightUser),
    (some "mesh/color".toList, "vec4 a;".toList)]

set_option maxRecDepth 10000 in
/-- A quoted include of a cached module is the same in every unit that reaches it. -/
theorem compile_eq_compile_clearCache_lightUser :
    withLight.cache = .empty ∧
    (∀ query ∈ [Operation.get "mesh/light".toList], query.IsQuery) ∧
    withLight.toComposer.Coherent (.anyOf (withLight.toComposer.Reached
      ([.get "mesh/light".toList] ++ [.compile (some "tint/main".toList) lightUser]))) ∧
    ∃ cached fresh : Text,
      ((withLight.afterOperations [.get "mesh/light".toList]).compile
        (some "tint/main".toList) lightUser).1 = .ok (some cached) ∧
      ((withLight.afterOperations [.get "mesh/light".toList]).clearCache.compile
        (some "tint/main".toList) lightUser).1 = .ok (some fresh) ∧
      some cached = some fresh := by
  have hqueries : ∀ query ∈ [Operation.get "mesh/light".toList], query.IsQuery :=
    List.forall_mem_singleton.mpr trivial
  have hcoherent : withLight.toComposer.Coherent (.anyOf (withLight.toComposer.Reached
      ([.get "mesh/light".toList] ++ [.compile (some "tint/main".toList) lightUser]))) :=
    Composer.coherent_of_closed lightUnits (by decide +kernel) (by decide +kernel)
      (by decide +kernel)
  have hcached : ((withLight.afterOperations [.get "mesh/light".toList]).compile
      (some "tint/main".toList) lightUser).1 =
        .ok (some "precision mediump float;\nvec4 a;\nvoid main() \x7b\x7d\n".toList) := by
    decide +kernel
  have hfresh : ((withLight.afterOperations [.get "mesh/light".toList]).clearCache.compile
      (some "tint/main".toList) lightUser).1 =
        .ok (some "precision mediump float;\nvec4 a;\nvoid main() \x7b\x7d\n".toList) := by
    decide +kernel
  exact ⟨rfl, hqueries, hcoherent, _, _, hcached, hfresh,
    compile_eq_compile_clearCache rfl hqueries hcoherent hcached hfresh⟩

set_option maxRecDepth 10000 in
/-- The second unit gets the color of the directory in which the first one stands. -/
theorem compile_ne_compile_clearCache_colorUser :
    twoColors.cache = .empty ∧
    ((twoColors.afterOperations [.compile (some "mesh/main".toList) colorUser]).compile
      (some "tint/main".toList) colorUser).1 =
        .ok (some "precision mediump float;\nvec4 a;\n".toList) ∧
    ((twoColors.afterOperations [.compile (some "mesh/main".toList) colorUser]).clearCache.compile
      (some "tint/main".toList) colorUser).1 =
        .ok (some "precision mediump float;\nvec4 b;\n".toList) := by
  decide +kernel

end Library

end GlslCompose
