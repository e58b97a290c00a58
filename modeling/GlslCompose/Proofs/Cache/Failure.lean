import GlslCompose.Proofs.Cache.History
import Mathlib.Data.List.Chain

/-!
# Compiles that fail

A compile that fails keeps what it has stored before the failure, but it stores no unit on
the way down to the failure: a unit is stored only once everything that it asks for is, and
each of these units asks for the next one.  So the same compile meets the same failure
again, and now all that it includes before is in the cache.
-/

namespace GlslCompose

def ComposeError.trail : ComposeError → IncludeTrail
  | .includeSyntax _ _ trail | .includeNotFound _ _ trail | .includeDepthExceeded _ _ trail =>
      trail
  | .directive _ _ | .expression _ _ | .programCreation _ => []

/-! ## Caches with the same entries -/

namespace Cache

variable {κ : Type} [DecidableEq κ]

@[simp] private theorem entries_lookup (cache : Cache κ) (key : κ) :
    (cache.lookup key).2.entries = cache.entries := by
  unfold lookup
  split <;> rfl

private theorem get?_of_entries {first second : Cache κ} (h : first.entries = second.entries)
    (key : κ) :
    first.get? key = second.get? key :=
  congrArg (fun entries => entries.get? key) h

end Cache

namespace Composer

private theorem covers_of_entries {composer : Composer} {small large : UnitCache}
    (h : small.entries = large.entries) : composer.Covers small large :=
  covers_of_growsTo fun key _ hget => (Cache.get?_of_entries h key).symm.trans hget

variable {composer : Composer} {cache : UnitCache} {unit source : Text} {units : List Text}

/-! ## Units in progress -/

def Asks (composer : Composer) (unit next : Text) : Prop :=
  ∃ argument ∈ includeArguments (composer.unitTokens unit), ∃ directory path,
    composer.included? directory argument = some (path, next)

private theorem Asks.isStored {next directory : Text} (h : composer.Asks unit next)
    (hfree : composer.IsLocationFree unit)
    (hserved : (Task.expand directory (composer.unitTokens unit)).IsServed composer cache) :
    composer.IsStored cache next := by
  obtain ⟨argument, hargument, place, path, hmodule⟩ := h
  obtain ⟨target, htarget, -, hstored⟩ := hserved argument hargument
  rw [composer.included?_eq_of_head? (hfree argument hargument) directory place, hmodule] at htarget
  cases htarget
  exact hstored

/-- The task is a part of the work on the unit. -/
def Task.IsAskedBy (composer : Composer) (unit : Text) : Task → Prop
  | .expand _ tokens => ∀ argument ∈ includeArguments tokens,
      argument ∈ includeArguments (composer.unitTokens unit)
  | .include _ _ argument => argument ∈ includeArguments (composer.unitTokens unit)
  | .fetch path => ∀ source ∈ composer.modules.source? (ModulePath.normalize path),
      composer.Asks unit source
  | .compile _ source => composer.Asks unit source

private theorem Task.isAskedBy_fetch {directory argument path : Text} {line : Nat}
    (h : (Task.include directory line argument).IsAskedBy composer unit)
    (hpath : Include.path directory argument = .ok path) :
    (Task.fetch path).IsAskedBy composer unit := by
  intro source hsource
  refine ⟨argument, h, directory, ModulePath.normalize path, ?_⟩
  rw [included?_of_path hpath, hsource]
  rfl

private theorem Task.not_onChain_include {directory argument : Text} {line : Nat} :
    ¬(Task.include directory line argument).OnChain composer [] unit := by
  rintro (hfalse | ⟨_, hframe, _⟩)
  · exact hfalse
  · cases hframe

/-- The units that are being expanded, the innermost first, with none of them stored. -/
structure InProgress (composer : Composer) (cache : UnitCache) (units : List Text) : Prop where
  asks : units.IsChain fun inner outer => composer.Asks outer inner
  isLocationFree : ∀ unit ∈ units, composer.IsLocationFree unit
  not_isStored : ∀ unit ∈ units, ¬composer.IsStored cache unit

theorem InProgress.lookup (h : composer.InProgress cache units) (key : UnitKey) :
    composer.InProgress (cache.lookup key).2 units where
  asks := h.asks
  isLocationFree := h.isLocationFree
  not_isStored unit hunit := mt (isStored_lookup cache key).mp (h.not_isStored unit hunit)

theorem InProgress.tail (h : composer.InProgress cache (source :: units)) :
    composer.InProgress cache units where
  asks := h.asks.tail
  isLocationFree := (List.forall_mem_cons.mp h.isLocationFree).2
  not_isStored := (List.forall_mem_cons.mp h.not_isStored).2

theorem InProgress.singleton (hfree : composer.IsLocationFree source)
    (hstored : ¬composer.IsStored cache source) : composer.InProgress cache [source] where
  asks := .singleton source
  isLocationFree := List.forall_mem_singleton.mpr hfree
  not_isStored := List.forall_mem_singleton.mpr hstored

theorem InProgress.cons (h : composer.InProgress cache (unit :: units))
    (hasks : composer.Asks unit source) (hfree : composer.IsLocationFree source)
    (hstored : ¬composer.IsStored cache source) :
    composer.InProgress cache (source :: unit :: units) where
  asks := .cons_cons hasks h.asks
  isLocationFree := List.forall_mem_cons.mpr ⟨hfree, h.isLocationFree⟩
  not_isStored := List.forall_mem_cons.mpr ⟨hstored, h.not_isStored⟩

private theorem InProgress.exists_asks (h : composer.InProgress cache (source :: units))
    (hunit : unit ∈ units) : ∃ next ∈ source :: units, composer.Asks unit next := by
  induction units generalizing source with
  | nil => cases hunit
  | cons outer units ih =>
      rcases List.mem_cons.mp hunit with rfl | hrest
      · exact ⟨source, List.mem_cons_self, (List.isChain_cons_cons.mp h.asks).1⟩
      · obtain ⟨next, hnext, hasks⟩ := ih h.tail hrest
        exact ⟨next, List.mem_cons_of_mem source hnext, hasks⟩

private theorem InProgress.not_mem_of_isServed (h : composer.InProgress cache (source :: units))
    {directory : Text}
    (hserved : (Task.expand directory (composer.unitTokens source)).IsServed composer cache) :
    source ∉ units := by
  intro hunit
  obtain ⟨next, hnext, hasks⟩ := h.exists_asks hunit
  exact h.not_isStored next hnext
    (hasks.isStored (h.isLocationFree source List.mem_cons_self) hserved)

theorem InProgress.store (h : composer.InProgress cache (source :: units)) {directory : Text}
    (hserved : (Task.expand directory (composer.unitTokens source)).IsServed composer cache)
    (text : Text) : composer.InProgress (cache.insert (composer.unitKey source) text) units where
  asks := h.tail.asks
  isLocationFree := h.tail.isLocationFree
  not_isStored unit hunit hstored := by
    rcases (isStored_insert _ _ _).mp hstored with rfl | hbefore
    · exact h.not_mem_of_isServed hserved hunit
    · exact h.tail.not_isStored unit hunit hbefore

namespace Runs

variable {task : Task} {work after : Workspace} {outcome : Outcome} {log : List IncludeTrail}

/-! ## What a run leaves unstored -/

private theorem inProgress (h : composer.Runs task work outcome after log)
    (hmodules : composer.HasLocationFreeModules)
    (hasked : task.IsAskedBy composer unit) (hfree : task.IsLocationFree composer)
    (hunits : composer.InProgress work.cache (unit :: units)) :
    composer.InProgress after.cache (unit :: units) := by
  induction h generalizing unit units with
  | nil | refused | tooDeep | absent | empty => exact hunits
  | drop hrequest _ ih =>
      have hnone := requestedArgument?_of_nothing hrequest
      exact ih ((forall_includeArguments_of_none hnone _).mp hasked)
        ((forall_includeArguments_of_none hnone _).mp hfree) hunits
  | keep hrequest _ ih =>
      have hnone := requestedArgument?_of_keep hrequest
      exact ih ((forall_includeArguments_of_none hnone _).mp hasked)
        ((forall_includeArguments_of_none hnone _).mp hfree) hunits
  | replaced hrequest _ _ ihInclude ihRest =>
      obtain ⟨hargument, hrest⟩ := (forall_includeArguments_of_fetch hrequest _).mp hasked
      obtain ⟨hargumentFree, hrestFree⟩ := (forall_includeArguments_of_fetch hrequest _).mp hfree
      exact ihRest hrest hrestFree (ihInclude hargument hargumentFree hunits)
  | stopped hrequest _ ih =>
      exact ih ((forall_includeArguments_of_fetch hrequest _).mp hasked).1
        ((forall_includeArguments_of_fetch hrequest _).mp hfree).1 hunits
  | failed hpath _ _ ih | missing hpath _ _ ih | included hpath _ _ ih =>
      exact ih (Task.isAskedBy_fetch hasked hpath) trivial hunits
  | present hsource _ ih =>
      exact ih (hasked _ hsource) (hmodules _ (Table.mem_of_get? hsource)) hunits
  | hit => exact hunits.lookup _
  | broken _ hget _ ih =>
      have hinner := hunits.cons hasked hfree (not_isStored_of_get? hget)
      exact (ih (fun _ hmem => hmem) hfree (hinner.lookup _)).tail
  | built _ hget hexpand ih =>
      have hinner := hunits.cons hasked hfree (not_isStored_of_get? hget)
      exact (ih (fun _ hmem => hmem) hfree (hinner.lookup _)).store (hexpand.isServed rfl) _

private theorem not_isStored_of_expand {directory : Text}
    (h : composer.Runs (.expand directory (composer.unitTokens source))
      (work.look (composer.unitKey source)) outcome after log)
    (hmodules : composer.HasLocationFreeModules) (hfree : composer.IsLocationFree source)
    (hget : work.cache.get? (composer.unitKey source) = none) :
    ¬composer.IsStored after.cache source := by
  have hunits := InProgress.singleton hfree (not_isStored_of_get? hget)
  exact (h.inProgress hmodules (fun _ hmem => hmem) hfree (hunits.lookup _)).not_isStored source
    List.mem_cons_self

private theorem not_isStored_of_error {error : ComposeError}
    (h : composer.Runs task work outcome after log) (herror : outcome = .error error)
    (hmodules : composer.HasLocationFreeModules) (hfree : task.IsLocationFree composer) :
    ∃ frames, error.trail = work.stack ++ frames ∧
      ∀ unit, task.OnChain composer frames unit → ¬composer.IsStored after.cache unit := by
  induction h with
  | nil | included | absent | empty | hit | built => cases herror
  | drop hrequest _ ih =>
      have hnone := requestedArgument?_of_nothing hrequest
      exact ih herror ((forall_includeArguments_of_none hnone _).mp hfree)
  | keep hrequest _ ih =>
      have hnone := requestedArgument?_of_keep hrequest
      exact ih (Outcome.eq_error_of_prepend herror)
        ((forall_includeArguments_of_none hnone _).mp hfree)
  | replaced hrequest hinclude _ _ ih =>
      rw [← hinclude.stack_of_ok rfl]
      exact ih (Outcome.eq_error_of_prepend herror)
        ((forall_includeArguments_of_fetch hrequest _).mp hfree).2
  | stopped hrequest _ ih =>
      exact ih herror ((forall_includeArguments_of_fetch hrequest _).mp hfree).1
  | refused | tooDeep =>
      cases herror
      exact ⟨[], (List.append_nil _).symm, fun _ hchain => absurd hchain Task.not_onChain_include⟩
  | missing _ _ hfetch =>
      cases herror
      refine ⟨[], ?_, fun _ hchain => absurd hchain Task.not_onChain_include⟩
      simp [ComposeError.trail, hfetch.stack_of_ok rfl]
  | failed hpath _ _ ih =>
      -- The frame that was pushed is the first behind the stack.
      obtain ⟨frames, htrail, hchain⟩ := ih herror trivial
      rw [Workspace.stack_push, List.append_assoc] at htrail
      refine ⟨_, htrail, ?_⟩
      rintro unit (hfalse | ⟨frame, hframe, hunit⟩)
      · cases hfalse
      · rcases List.mem_cons.mp hframe with rfl | hframe
        · exact hchain unit (.inl hunit)
        · exact hchain unit (.inr ⟨frame, hframe, hunit⟩)
  | present hsource _ ih =>
      obtain ⟨frames, htrail, hchain⟩ := ih herror (hmodules _ (Table.mem_of_get? hsource))
      refine ⟨frames, htrail, ?_⟩
      rintro unit (hunit | hframe)
      · exact hchain unit (.inl (Option.some_inj.mp (hsource.symm.trans hunit)))
      · exact hchain unit (.inr hframe)
  | broken _ hget hexpand ih =>
      obtain ⟨frames, htrail, hchain⟩ := ih herror hfree
      refine ⟨frames, htrail, ?_⟩
      rintro unit (rfl | hframe)
      · exact hexpand.not_isStored_of_expand hmodules hfree hget
      · exact hchain unit (.inr hframe)

/-! ## The same run once more -/

private theorem exists_hit {directory argument text : Text} {line : Nat}
    (h : composer.Runs (.include directory line argument) work (.ok (some text)) after log)
    {warm : UnitCache}
    (hserved : (Task.include directory line argument).IsServed composer warm) :
    ∃ other left more, composer.Runs (.include directory line argument) ⟨warm, work.stack⟩
      (.ok (some other)) left more ∧ left.cache.entries = warm.entries := by
  cases h with
  | included hpath hroom _ =>
      obtain ⟨source, hsource, hne, hstored⟩ := (Task.isServed_include_iff hpath).mp hserved
      obtain ⟨other, hget⟩ := Option.isSome_iff_exists.mp hstored
      exact ⟨other, _, _, .included hpath hroom (.present hsource (.hit hne hget)),
        warm.entries_lookup _⟩

theorem nothing {path : Text} (h : composer.Runs (.fetch path) work (.ok none) after log)
    (other : Workspace) : composer.Runs (.fetch path) other (.ok none) other [] := by
  cases h with
  | absent hsource => exact .absent hsource
  | present hsource hcompile =>
      cases hcompile with
      | empty => exact .present hsource .empty

/-- With what a run that fails has left in the cache, the same run fails in the same way and
stores nothing. -/
theorem exists_failure {error : ComposeError}
    (h : composer.Runs task work outcome after log) (herror : outcome = .error error)
    (hmodules : composer.HasLocationFreeModules) (hfree : task.IsLocationFree composer)
    {warm : UnitCache} (hwarm : warm.entries = after.cache.entries) :
    ∃ left more, composer.Runs task ⟨warm, work.stack⟩ (.error error) left more ∧
      left.cache.entries = warm.entries := by
  induction h generalizing warm with
  | nil | included | absent | empty | hit | built => cases herror
  | drop hrequest _ ih =>
      have hnone := requestedArgument?_of_nothing hrequest
      obtain ⟨left, more, hruns, hleft⟩ :=
        ih herror ((forall_includeArguments_of_none hnone _).mp hfree) hwarm
      exact ⟨left, more, .drop hrequest hruns, hleft⟩
  | keep hrequest _ ih =>
      have hnone := requestedArgument?_of_keep hrequest
      obtain ⟨left, more, hruns, hleft⟩ := ih (Outcome.eq_error_of_prepend herror)
        ((forall_includeArguments_of_none hnone _).mp hfree) hwarm
      exact ⟨left, more, .keep hrequest hruns, hleft⟩
  | replaced hrequest hinclude hrest _ ih =>
      have hserved := (hinclude.isServed rfl).mono hrest.covers
      have hhit := hinclude.exists_hit (hserved.mono (covers_of_entries hwarm.symm))
      obtain ⟨other, ⟨cache, stack⟩, log, hfound, hcache⟩ := hhit
      cases hfound.stack_of_ok rfl
      obtain ⟨left, more, hruns, hleft⟩ := ih (Outcome.eq_error_of_prepend herror)
        ((forall_includeArguments_of_fetch hrequest _).mp hfree).2 (hcache.trans hwarm)
      rw [hinclude.stack_of_ok rfl] at hruns
      exact ⟨left, _, .replaced hrequest hfound hruns, hleft.trans hcache⟩
  | stopped hrequest _ ih =>
      obtain ⟨left, more, hruns, hleft⟩ :=
        ih herror ((forall_includeArguments_of_fetch hrequest _).mp hfree).1 hwarm
      cases herror
      exact ⟨left, more, .stopped hrequest hruns, hleft⟩
  | refused hpath =>
      cases herror
      exact ⟨_, _, .refused hpath, rfl⟩
  | tooDeep hpath hdeep =>
      cases herror
      exact ⟨_, _, .tooDeep hpath hdeep, rfl⟩
  | failed hpath hroom _ ih =>
      cases herror
      obtain ⟨left, more, hruns, hleft⟩ := ih rfl trivial hwarm
      exact ⟨left, _, .failed hpath hroom hruns, hleft⟩
  | missing hpath hroom hfetch =>
      cases herror
      rename_i path line work _ _ _
      have hagain : (Workspace.mk warm work.stack).stack.length < composer.maxIncludeDepth := hroom
      have hruns := Runs.missing hpath hagain (hfetch.nothing (Workspace.push _ path line))
      rw [Workspace.pop_push] at hruns
      rw [Workspace.stack_pop, hfetch.stack_of_ok rfl, ← Workspace.stack_pop, Workspace.pop_push]
      exact ⟨_, _, hruns, rfl⟩
  | present hsource _ ih =>
      obtain ⟨left, more, hruns, hleft⟩ :=
        ih herror (hmodules _ (Table.mem_of_get? hsource)) hwarm
      exact ⟨left, more, .present hsource hruns, hleft⟩
  | broken hsource hget hexpand ih =>
      -- The unit was not stored when it failed, so the second run has to walk it again.
      rename_i source _ _ _ _
      have hnone : warm.get? (composer.unitKey source) = none := by
        rw [Cache.get?_of_entries hwarm]
        exact Option.not_isSome_iff_eq_none.mp (hexpand.not_isStored_of_expand hmodules hfree hget)
      obtain ⟨left, more, hruns, hleft⟩ := ih herror hfree ((warm.entries_lookup _).trans hwarm)
      cases herror
      exact ⟨left, more, .broken hsource hnone hruns, hleft.trans (warm.entries_lookup _)⟩

end Runs

end Composer

/-! ## Libraries -/

namespace Library

open Composer

variable {library : Library} {name : Option Text} {source : Text} {error : ComposeError}

structure FailsAgain (library : Library) (name : Option Text) (source : Text)
    (error : ComposeError) : Prop where
  /-- Modules and defines are as they were, and the cache has lost nothing. -/
  after : ∃ cache, (library.compile name source).2 = { library with cache } ∧
    library.cache.GrowsTo cache
  source_not_cached : (library.compile name source).2.isCached source = false
  frames_not_cached : ∀ frame ∈ error.trail,
    ∀ unit ∈ library.modules.source? (ModulePath.normalize frame.path),
      (library.compile name source).2.isCached unit = false
  repeated : ((library.compile name source).2.compile name source).1 = .error error
  /-- The second compile finds all that the first one has stored, and stores nothing. -/
  entries_eq : ((library.compile name source).2.compile name source).2.cache.entries =
    (library.compile name source).2.cache.entries

/-- Without quoted includes, a compile that fails stores neither the unit nor any module that
its error names, and it fails in the same way when it is repeated. -/
theorem failsAgain_of_compile (hmodules : library.toComposer.HasLocationFreeModules)
    (hfree : library.toComposer.IsLocationFree source)
    (herror : (library.compile name source).1 = .error error) :
    library.FailsAgain name source error := by
  obtain ⟨outcome, after, log, hruns, hresult, hafter⟩ :=
    library.exists_runs (.compile name source) trivial
  have houtcome : outcome = .error error := hresult.symm.trans herror
  have hleft : (library.compile name source).2 = { library with cache := after.cache } := hafter
  obtain ⟨frames, htrail, hchain⟩ := hruns.not_isStored_of_error houtcome hmodules hfree
  rw [List.nil_append] at htrail
  obtain ⟨left, more, hagain, hentries⟩ :=
    hruns.exists_failure houtcome hmodules hfree rfl
  obtain ⟨other, last, rest, hsecond, hother, hlast⟩ :=
    { library with cache := after.cache }.exists_runs (.compile name source) trivial
  obtain ⟨rfl, rfl, -⟩ := hagain.unique hsecond
  have hcached : ∀ unit, ¬library.toComposer.IsStored after.cache unit →
      { library with cache := after.cache }.isCached unit = false :=
    fun unit hunit => Bool.eq_false_iff.mpr hunit
  constructor
  · exact ⟨after.cache, hleft, hruns.growsTo⟩
  · rw [hleft]
    exact hcached source (hchain source (.inl rfl))
  · intro frame hframe unit hunit
    rw [hleft]
    exact hcached unit (hchain unit (.inr ⟨frame, htrail ▸ hframe, hunit⟩))
  · rw [hleft]
    exact hother
  · rw [hleft]
    exact (congrArg (·.cache.entries) hlast).trans hentries

/-! ## A unit with an absent module below a sibling -/

def brokenLibrary : Library :=
  ((ofSettings { includeBuiltins := false }).add "sibling".toList "float s;".toList).add
    "outer".toList "#include <sibling>\n#include <absent>".toList

def brokenUser : Text := "#include <sibling>\n#include <outer>".toList

def absentFault : ComposeError :=
  .includeNotFound "absent".toList "<absent>".toList [⟨"outer".toList, 2⟩]

set_option maxRecDepth 10000 in
theorem failsAgain_of_compile_brokenUser :
    brokenLibrary.FailsAgain none brokenUser absentFault ∧
    (brokenLibrary.compile none brokenUser).2.isCached "float s;".toList = true := by
  obtain ⟨hmodules, hfree, herror, hsibling⟩ :
      brokenLibrary.toComposer.HasLocationFreeModules ∧
      brokenLibrary.toComposer.IsLocationFree brokenUser ∧
      (brokenLibrary.compile none brokenUser).1 = .error absentFault ∧
      (brokenLibrary.compile none brokenUser).2.isCached "float s;".toList = true := by
    decide +kernel
  exact ⟨failsAgain_of_compile hmodules hfree herror, hsibling⟩

end Library

end GlslCompose
