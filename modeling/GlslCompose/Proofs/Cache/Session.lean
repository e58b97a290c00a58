import GlslCompose.Proofs.Cache.Operation
import GlslCompose.Proofs.Cache.Soundness
import Mathlib.Tactic.Common

/-!
# Sessions without quoted includes

A session is any order of calls on a library whose settings, modules and stages
stay as they are.  If no unit has a quoted include, no text depends on a place,
and every compiled text is the one that the unit's derivation gives it under the
defines of that moment.  Defines may change only if they are a part of the cache
key.
-/

namespace GlslCompose

namespace Composer

def IsLocationFree (composer : Composer) (source : Text) : Prop :=
  ∀ argument ∈ includeArguments (composer.unitTokens source), argument.head? ≠ some '"'

instance (composer : Composer) (source : Text) : Decidable (composer.IsLocationFree source) :=
  inferInstanceAs (Decidable (∀ argument ∈ includeArguments (composer.unitTokens source),
    argument.head? ≠ some '"'))

def HasLocationFreeModules (composer : Composer) : Prop :=
  ∀ entry ∈ composer.modules.modules.entries, composer.IsLocationFree entry.2

instance (composer : Composer) : Decidable composer.HasLocationFreeModules :=
  inferInstanceAs (Decidable (∀ entry ∈ composer.modules.modules.entries,
    composer.IsLocationFree entry.2))

theorem included?_eq_of_head? (composer : Composer) {argument : Text}
    (hhead : argument.head? ≠ some '"') (first second : Text) :
    composer.included? first argument = composer.included? second argument := by
  have hpath : Include.path first argument = Include.path second argument := by
    cases argument with
    | nil => rfl
    | cons opening rest =>
        have hopening : opening ≠ '"' := fun heq => hhead (by rw [heq]; rfl)
        simp [Include.path, Include.form?, hopening]
  unfold included?
  rw [hpath]

theorem IsLocationFree.compiles_anywhere {composer : Composer} {source text : Text}
    (hfree : composer.IsLocationFree source) {name : Option Text}
    (htext : composer.Compiles .exact name source text) (place : Option Text) :
    composer.Compiles .exact place source text := by
  obtain ⟨hsource, _, assembled, rfl, hexpands, rfl⟩ := htext
  refine ⟨hsource, place, assembled, rfl, hexpands.change_directory ?_, rfl⟩
  intro argument hargument
  exact composer.included?_eq_of_head? (hfree argument hargument) _ _

theorem HasLocationFreeModules.included {composer : Composer}
    (hmodules : composer.HasLocationFreeModules) {directory argument path inner : Text}
    (hmodule : composer.included? directory argument = some (path, inner)) :
    composer.IsLocationFree inner := by
  unfold included? at hmodule
  split at hmodule
  · cases hmodule
  · obtain ⟨source, hsource, hpair⟩ := Option.map_eq_some_iff.mp hmodule
    cases hpair
    exact hmodules _ (Table.mem_of_get? hsource)

/-! ## Composers of one session -/

/-- The composers differ at most in their defines, and not even in these unless the
defines are a part of the cache key. -/
structure Varies (base composer : Composer) : Prop where
  rest : composer = { base with registry := composer.registry }
  registry : base.cacheKey = .source → composer.registry = base.registry

theorem varies_refl (base : Composer) : base.Varies base := ⟨rfl, fun _ => rfl⟩

theorem Varies.cacheKey {base composer : Composer} (h : base.Varies composer) :
    composer.cacheKey = base.cacheKey := by
  rw [h.rest]

theorem Varies.with_registry {base composer : Composer} (h : base.Varies composer)
    (hpolicy : composer.cacheKey = .sourceAndDefines) (registry : DefineSet) :
    base.Varies { composer with registry } := by
  constructor
  · rw [h.rest]
  · intro hsource
    rw [h.cacheKey, hsource] at hpolicy
    cases hpolicy

private theorem Varies.eq_of_unitKey_eq {base first second : Composer} (hfirst : base.Varies first)
    (hsecond : base.Varies second) {source inner : Text}
    (hkey : first.unitKey source = second.unitKey inner) : source = inner ∧ first = second := by
  have hsource : source = inner := congrArg UnitKey.source hkey
  have hdefines := congrArg UnitKey.defines hkey
  have hregistry : first.registry = second.registry := by
    cases hpolicy : base.cacheKey with
    | source => rw [hfirst.registry hpolicy, hsecond.registry hpolicy]
    | sourceAndDefines =>
        simp only [unitKey, hfirst.cacheKey, hsecond.cacheKey, hpolicy] at hdefines
        exact Option.some.inj hdefines
  refine ⟨hsource, ?_⟩
  rw [hfirst.rest, hsecond.rest, hregistry]

def locationFreeFamily (base : Composer) : UnitFamily .exact where
  Has composer _ source :=
    base.Varies composer ∧ composer.HasLocationFreeModules ∧ composer.IsLocationFree source
  placed := fun _ => rfl
  included := by
    rintro composer name source ⟨hvaries, hmodules, _⟩ argument _ path inner hmodule
    exact ⟨hvaries, hmodules, hmodules.included hmodule⟩
  exchange := by
    rintro first second name place source inner text ⟨hfirst, _, hfree⟩ ⟨hsecond, _⟩ hkey htext
    obtain ⟨rfl, rfl⟩ := hfirst.eq_of_unitKey_eq hsecond hkey
    exact hfree.compiles_anywhere htext place

end Composer

/-! ## Operations of a session -/

namespace Library

/-- A session changes neither the modules nor the stages, and the registry only where its
defines are a part of the key. -/
def Allows (library : Library) : Operation → Prop
  | .compile _ source =>
      library.toComposer.HasLocationFreeModules ∧ library.toComposer.IsLocationFree source
  | .get _ | .process _ _ _ => library.toComposer.HasLocationFreeModules
  | .preprocess _ | .isCached _ | .clearCache | .makeDefines _ => True
  | .define _ _ | .undefine _ => library.cacheKey = .sourceAndDefines
  | .defineAll _ | .mergeDefines _ | .editRegistry _ | .add _ _ | .addTree _ | .addStage _ => False

instance (library : Library) : (operation : Operation) → Decidable (library.Allows operation)
  | .compile _ source => inferInstanceAs (Decidable
      (library.toComposer.HasLocationFreeModules ∧ library.toComposer.IsLocationFree source))
  | .get _ | .process _ _ _ =>
      inferInstanceAs (Decidable library.toComposer.HasLocationFreeModules)
  | .preprocess _ | .isCached _ | .clearCache | .makeDefines _ => inferInstanceAs (Decidable True)
  | .define _ _ | .undefine _ => inferInstanceAs (Decidable (_ = _))
  | .defineAll _ | .mergeDefines _ | .editRegistry _ | .add _ _ | .addTree _ | .addStage _ =>
      inferInstanceAs (Decidable False)

def Permits (library : Library) : List Operation → Prop
  | [] => True
  | operation :: operations =>
      library.Allows operation ∧ (library.afterOperation operation).Permits operations

def decidePermits (library : Library) :
    (operations : List Operation) → Decidable (library.Permits operations)
  | [] => inferInstanceAs (Decidable True)
  | operation :: operations =>
      have := (library.afterOperation operation).decidePermits operations
      inferInstanceAs (Decidable
        (library.Allows operation ∧ (library.afterOperation operation).Permits operations))

instance (library : Library) (operations : List Operation) :
    Decidable (library.Permits operations) :=
  library.decidePermits operations

@[simp] private theorem permits_append (library : Library) (operations more : List Operation) :
    library.Permits (operations ++ more) ↔
      library.Permits operations ∧ (library.afterOperations operations).Permits more := by
  induction operations generalizing library with
  | nil => simp [Permits, afterOperations]
  | cons operation operations ih =>
      simp only [List.cons_append, Permits, ih, and_assoc]
      rfl

/-! ## What a session keeps -/

/-- The library has a composer of the session, and its cache is sound. -/
structure InSession (base : Composer) (library : Library) : Prop where
  varies : base.Varies library.toComposer
  sound : base.locationFreeFamily.Sound library.cache

variable {base : Composer} {library : Library}

theorem InSession.afterOperation (hsession : InSession base library) {operation : Operation}
    (hallowed : library.Allows operation) :
    InSession base (library.afterOperation operation) := by
  obtain ⟨hvaries, hsound⟩ := hsession
  cases operation with
  | compile name source =>
      exact ⟨hvaries, (UnitFamily.sound_compile hsound ⟨hvaries, hallowed⟩).1⟩
  | get path =>
      refine ⟨hvaries, UnitFamily.sound_get hsound fun source hsource => ?_⟩
      exact ⟨hvaries, hallowed, hallowed _ (Table.mem_of_get? hsource)⟩
  | process name source overrides =>
      refine ⟨hvaries, UnitFamily.sound_process hsound name source overrides ?_⟩
      intro argument _ target inner hmodule
      exact ⟨hvaries, hallowed, Composer.HasLocationFreeModules.included hallowed hmodule⟩
  | preprocess | isCached | makeDefines => exact ⟨hvaries, hsound⟩
  | clearCache => exact ⟨hvaries, UnitFamily.sound_empty _⟩
  | define | undefine => exact ⟨hvaries.with_registry hallowed _, hsound⟩
  | defineAll | mergeDefines | editRegistry | add | addTree | addStage => exact hallowed.elim

theorem InSession.afterOperations (hsession : InSession base library)
    {operations : List Operation} (hpermits : library.Permits operations) :
    InSession base (library.afterOperations operations) := by
  induction operations generalizing library with
  | nil => exact hsession
  | cons operation operations ih =>
      obtain ⟨hallowed, hrest⟩ := hpermits
      exact ih (hsession.afterOperation hallowed) hrest

/-- In a session without quoted includes, a unit compiles only to the text that its
derivation gives it under the defines in force, read at any place. -/
theorem compiles_iff_of_compile {operations : List Operation} {name : Option Text}
    {source text : Text} (hempty : library.cache = .empty)
    (hpermits : library.Permits (operations ++ [.compile name source]))
    (hcompile : ((library.afterOperations operations).compile name source).1 = .ok (some text))
    (place : Option Text) (other : Text) :
    (library.afterOperations operations).toComposer.Compiles .exact place source other ↔
      other = text := by
  obtain ⟨hbefore, ⟨hmodules, hfree⟩, _⟩ := (library.permits_append operations _).mp hpermits
  have hstart : InSession library.toComposer library := by
    refine ⟨library.toComposer.varies_refl, ?_⟩
    rw [hempty]
    exact UnitFamily.sound_empty _
  obtain ⟨hvaries, hsound⟩ := hstart.afterOperations hbefore
  have hhas : library.toComposer.locationFreeFamily.Has
      (library.afterOperations operations).toComposer (some (name.getD Composer.anonymousName))
      source := ⟨hvaries, hmodules, hfree⟩
  have htext := (UnitFamily.sound_compile hsound hhas).2 _ hcompile text rfl
  have hplace := hfree.compiles_anywhere htext place
  constructor
  · intro hother
    exact hother.unique (Composer.coherent_exact _) hplace
  · rintro rfl
    exact hplace

def noiseLibrary : Library :=
  ((ofSettings { includeBuiltins := false, cacheKey := .sourceAndDefines }).add
    "lib/noise".toList "#include <lib/hash>\nfloat noise();".toList).add
    "lib/hash".toList "float hash();".toList

def noiseUser : Text := "#include <lib/noise>\nvoid main() \x7b\x7d".toList

def noiseOperations : List Operation :=
  [.define "MODE".toList (.integer 1), .compile none noiseUser, .get "lib/hash".toList,
    .define "MODE".toList (.integer 2)]

def noiseText : Text := Text.unlines (["precision mediump float;", "#define MODE 2",
  "#define MODE 2", "#define MODE 2", "float hash();", "float noise();",
  "void main() \x7b\x7d", ""].map String.toList)

set_option maxRecDepth 10000 in
/-- A change of the defines is seen in the text of every module. -/
theorem compiles_iff_of_compile_noiseUser :
    noiseLibrary.cache = .empty ∧
    noiseLibrary.Permits (noiseOperations ++ [.compile none noiseUser]) ∧
    ((noiseLibrary.afterOperations noiseOperations).compile none noiseUser).1 =
      .ok (some noiseText) ∧
    ∀ place other, (noiseLibrary.afterOperations noiseOperations).toComposer.Compiles .exact place
      noiseUser other ↔ other = noiseText := by
  have hpermits : noiseLibrary.Permits (noiseOperations ++ [.compile none noiseUser]) := by
    decide +kernel
  have hcompile : ((noiseLibrary.afterOperations noiseOperations).compile none noiseUser).1 =
      .ok (some noiseText) := by
    decide +kernel
  exact ⟨rfl, hpermits, hcompile, compiles_iff_of_compile rfl hpermits hcompile⟩

end Library

end GlslCompose
