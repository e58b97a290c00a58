import GlslCompose.Proofs.Cache.Session
import GlslCompose.Proofs.Unit.Levels
import Mathlib.Logic.Relation

/-!
# Include cycles

Modules may include each other in a circle.  A unit that leads into one has no
derivation, so without quoted includes it never gets a text, and the stack grows
until the limit stops it.
-/

namespace GlslCompose

open Relation

namespace Composer

variable {composer : Composer}

/-- The module at one path includes the other path. -/
def Leads (composer : Composer) (path next : Text) : Prop :=
  ∃ line, (Task.fetch path).Targets composer next line

def Task.ReachesCycle (composer : Composer) (task : Task) : Prop :=
  ∃ path line target, task.Targets composer path line ∧
    ReflTransGen composer.Leads path target ∧ TransGen composer.Leads target target

/-! ## Derivations are finite -/

theorem HasTarget.of_cons {directory : Text} {token : Token} {tokens : List Token} {path : Text}
    {line : Nat} (h : HasTarget directory (token :: tokens) path line) :
    (∃ argument, Include.request token = .fetch argument ∧
      Include.path directory argument = .ok path) ∨ HasTarget directory tokens path line := by
  obtain ⟨found, hmem, argument, hrequest, hline, hpath⟩ := h
  rcases List.mem_cons.mp hmem with rfl | hmem
  · exact .inl ⟨argument, hrequest, hpath⟩
  · exact .inr ⟨found, hmem, argument, hrequest, hline, hpath⟩

theorem included?_of_path {directory argument path : Text}
    (hpath : Include.path directory argument = .ok path) :
    composer.included? directory argument =
      (composer.modules.source? (ModulePath.normalize path)).map fun source =>
        (ModulePath.normalize path, source) := by
  rw [included?, hpath]

private theorem Expands.acc {directory : Text} {tokens : List Token} {text : Text}
    (h : composer.Expands .exact directory tokens text) {path : Text} {line : Nat}
    (htarget : HasTarget directory tokens path line) :
    Acc (fun next path => composer.Leads path next) path := by
  induction h generalizing path line with
  | nil =>
      obtain ⟨token, hmem, _⟩ := htarget
      cases hmem
  | drop hrequest _ ih | keep hrequest _ ih =>
      rcases htarget.of_cons with ⟨argument, hfetch, _⟩ | hrest
      · rw [hrequest] at hfetch
        cases hfetch
      · exact ih hrest
  | fetch hrequest hmodule _ hplace _ _ ihInner ihRest =>
      rcases htarget.of_cons with ⟨argument, hfetch, hpath⟩ | hrest
      · cases hrequest.symm.trans hfetch
        rw [included?_of_path hpath] at hmodule
        obtain ⟨source, hsource, hpair⟩ := Option.map_eq_some_iff.mp hmodule
        cases hpair
        cases hplace
        -- Whatever the module leads to stands in its own tokens.
        refine Acc.intro path ?_
        rintro next ⟨number, inner, hinner, -, hnext⟩
        cases hsource.symm.trans hinner
        exact ihInner hnext
      · exact ihRest hrest

private theorem not_transGen_of_acc {path : Text}
    (h : Acc (fun next path => composer.Leads path next) path) :
    ¬TransGen composer.Leads path path := by
  induction h with
  | intro path _ ih =>
      intro hcycle
      obtain ⟨next, hnext, hback⟩ := TransGen.head'_iff.mp hcycle
      exact ih next hnext (TransGen.tail' hback hnext)

private theorem acc_of_reflTransGen {path target : Text}
    (h : Acc (fun next path => composer.Leads path next) path)
    (hreach : ReflTransGen composer.Leads path target) :
    Acc (fun next path => composer.Leads path next) target := by
  induction hreach with
  | refl => exact h
  | tail _ hnext ih => exact ih.inv hnext

private theorem Expands.not_reachesCycle {directory : Text} {tokens : List Token} {text : Text}
    (h : composer.Expands .exact directory tokens text) :
    ¬(Task.expand directory tokens).ReachesCycle composer := by
  rintro ⟨path, line, target, htarget, hreach, hcycle⟩
  exact not_transGen_of_acc (acc_of_reflTransGen (h.acc htarget) hreach) hcycle

private theorem Compiles.not_reachesCycle {name : Option Text} {source text : Text}
    (h : composer.Compiles .exact name source text) :
    ¬(Task.compile name source).ReachesCycle composer := by
  rintro ⟨path, line, target, ⟨-, htarget⟩, hcycle⟩
  obtain ⟨_, _, assembled, rfl, hexpands, -⟩ := h
  exact hexpands.not_reachesCycle ⟨path, line, target, htarget, hcycle⟩

end Composer

/-! ## Operations that compose a unit -/

open Composer

namespace Operation

/-- What there is to do.  An operation that composes no unit has nothing to expand. -/
def task (composer : Composer) : Operation → Task
  | .compile name source => .compile (some (name.getD anonymousName)) source
  | .get path => .fetch path
  | .process name source overrides =>
      .expand (unitDirectory name) (composer.tokensWith overrides source)
  | _ => .expand ModulePath.root []

def conclude (composer : Composer) : Operation → Outcome → Outcome
  | .process _ _ overrides, outcome => outcome.map (Option.map (composer.stagedText overrides))
  | _, outcome => outcome

private theorem isOk_conclude (operation : Operation) (composer : Composer) (found : Option Text) :
    ∃ value, operation.conclude composer (.ok found) = .ok value := by
  cases operation <;> exact ⟨_, rfl⟩

end Operation

namespace Library

def resultOf (library : Library) : Operation → Outcome
  | .compile name source => (library.compile name source).1
  | .get path => (library.get path).1
  | .process name source overrides => (library.process name source overrides).1.map some
  | _ => .ok none

private theorem map_some_map_map (staged : Text → Text) (result : Except ComposeError Text) :
    (result.map staged).map some = (result.map some).map (Option.map staged) := by
  cases result <;> rfl

private theorem exists_runs_of_simulates {library : Library} {α : Type} {assembly : Assembly α}
    {given : α → Option Text} {task : Task}
    (h : library.toComposer.Simulates assembly given task []) :
    ∃ after log, library.toComposer.Runs task ⟨library.cache, []⟩
        ((library.assemble assembly).1.map given) after log ∧
      (library.assemble assembly).2 = { library with cache := after.cache } := by
  obtain ⟨after, log, hruns, hcache⟩ := h library.cache
  refine ⟨after, log, hruns, ?_⟩
  rw [hcache]
  rfl

theorem exists_runs (library : Library) (operation : Operation) (h : operation.ComposesUnit) :
    ∃ outcome after log,
      library.toComposer.Runs (operation.task library.toComposer) ⟨library.cache, []⟩ outcome after
        log ∧
      library.resultOf operation = operation.conclude library.toComposer outcome ∧
      library.afterOperation operation = { library with cache := after.cache } := by
  have hroom : library.toComposer.HasRoom
      (library.toComposer.fetch? library.maxIncludeDepth) [] :=
    hasRoom_fetch? library.maxIncludeDepth (Nat.zero_add _)
  have hcompile : ∀ name source,
      library.toComposer.Simulates
        (library.toComposer.compileUnit library.maxIncludeDepth name source []) id
        (.compile name source) [] := by
    intro name source
    rw [compileUnit_eq_compileWith]
    exact simulates_compileWith hroom name source
  cases operation with
  | compile name source =>
      obtain ⟨after, log, hruns, hafter⟩ :=
        exists_runs_of_simulates (hcompile (some (name.getD anonymousName)) source)
      rw [Except.map_id] at hruns
      exact ⟨_, after, log, hruns, rfl, hafter⟩
  | get path =>
      obtain ⟨after, log, hruns, hafter⟩ :=
        exists_runs_of_simulates (simulates_fetchWith hcompile path)
      rw [Except.map_id] at hruns
      exact ⟨_, after, log, hruns, rfl, hafter⟩
  | process name source overrides =>
      obtain ⟨after, log, hruns, hafter⟩ := exists_runs_of_simulates (simulates_expandTokens hroom
        (unitDirectory name) (library.toComposer.tokensWith overrides source))
      have hprocess := library.toComposer.processWith_apply
        (library.toComposer.fetch? library.maxIncludeDepth) name source overrides [] library.cache
      refine ⟨_, after, log, hruns, ?_, ?_⟩
      · rw [resultOf, Library.process, assemble, Composer.process, hprocess]
        exact map_some_map_map _ _
      · rw [← hafter, afterOperation, Library.process, assemble, Composer.process,
          hprocess]
        rfl
  | _ => exact h.elim

private theorem not_reachesCycle_of_compileUnit {library : Library} {name found : Option Text}
    {source : Text} (hempty : library.cache = .empty)
    (hmodules : library.toComposer.HasLocationFreeModules)
    (hfree : library.toComposer.IsLocationFree source)
    (hfound : (library.toComposer.compileUnit library.maxIncludeDepth name source []
      library.cache).1 = .ok found) :
    ¬(Task.compile name source).ReachesCycle library.toComposer := by
  intro hcycle
  have hsource : source ≠ [] := by
    obtain ⟨path, line, target, ⟨hsource, -⟩, -⟩ := hcycle
    exact hsource
  have hsome := (library.toComposer.compileUnit_ensures_isSome library.maxIncludeDepth name
    hsource [] library.cache trivial).2 found hfound
  obtain ⟨text, rfl⟩ := Option.isSome_iff_exists.mp hsome
  have hhas : library.toComposer.locationFreeFamily.Has library.toComposer name source :=
    ⟨library.toComposer.varies_refl, hmodules, hfree⟩
  have hsound : library.toComposer.locationFreeFamily.Sound library.cache := by
    rw [hempty]
    exact UnitFamily.sound_empty _
  have hcompiles := (UnitFamily.compileUnit_ensures library.maxIncludeDepth hhas []
    library.cache hsound).2 (some text) hfound text rfl
  exact hcompiles.not_reachesCycle hcycle

private theorem not_reachesCycle_of_process {library : Library} {name : Option Text}
    {source text : Text} {overrides : DefineSet} (hempty : library.cache = .empty)
    (hmodules : library.toComposer.HasLocationFreeModules)
    (htext : (library.process name source overrides).1 = .ok text) :
    ¬(Task.expand (unitDirectory name)
      (library.toComposer.tokensWith overrides source)).ReachesCycle library.toComposer := by
  have hsound : library.toComposer.locationFreeFamily.Sound library.cache := by
    rw [hempty]
    exact UnitFamily.sound_empty _
  have hfetch : ∀ how ∈ library.toComposer.fetch? library.maxIncludeDepth,
      library.toComposer.locationFreeFamily.Fetches library.toComposer how :=
    UnitFamily.fetch?_fetches library.maxIncludeDepth
  obtain ⟨assembled, hexpands, -⟩ := (UnitFamily.processWith_ensures hfetch name source overrides []
    (fun argument _ target inner hmodule =>
      ⟨library.toComposer.varies_refl, hmodules, hmodules.included hmodule⟩)
    library.cache hsound).2 text htext
  exact hexpands.not_reachesCycle

private theorem not_reachesCycle_of_resultOf {library : Library} {operation : Operation}
    (hunit : operation.ComposesUnit) (hempty : library.cache = .empty)
    (hallowed : library.Allows operation) {found : Option Text}
    (hresult : library.resultOf operation = .ok found) :
    ¬(operation.task library.toComposer).ReachesCycle library.toComposer := by
  cases operation with
  | compile name source =>
      exact not_reachesCycle_of_compileUnit hempty hallowed.1 hallowed.2 hresult
  | get path =>
      rintro ⟨next, line, target, ⟨source, hsource, hne, htarget⟩, hcycle⟩
      have hfetched : library.toComposer.get path = library.toComposer.compileUnit
          library.maxIncludeDepth (some (ModulePath.normalize path)) source [] := by
        simp only [Composer.get, fetchWith, hsource]
      rw [resultOf, Library.get, assemble, hfetched] at hresult
      have hfree := hallowed _ (Table.mem_of_get? hsource)
      exact not_reachesCycle_of_compileUnit hempty hallowed hfree hresult
        ⟨next, line, target, ⟨hne, htarget⟩, hcycle⟩
  | process name source overrides =>
      rw [resultOf] at hresult
      cases hprocess : (library.process name source overrides).1 with
      | error error =>
          rw [hprocess] at hresult
          cases hresult
      | ok text => exact not_reachesCycle_of_process hempty hallowed hprocess
  | _ => exact hunit.elim

/-! ## The limit -/

/-- What the limit makes of an operation: how its run ends, and how high the stack gets. -/
structure IsLimited (library : Library) (operation : Operation) (outcome : Outcome)
    (after : Workspace) (log : List IncludeTrail) : Prop where
  result : library.resultOf operation = operation.conclude library.toComposer outcome
  afterOperation : library.afterOperation operation = { library with cache := after.cache }
  length_le : ∀ stack ∈ log, stack.length ≤ library.maxIncludeDepth
  restored : ∀ found, outcome = .ok found → after.stack = []
  reports : ∀ path limit trail, outcome = .error (.includeDepthExceeded path limit trail) →
    (operation.task library.toComposer).Reports library.toComposer [] path limit trail
  acyclic : library.cache = .empty → library.Allows operation →
    (operation.task library.toComposer).ReachesCycle library.toComposer →
    ∀ found, outcome ≠ .ok found

/-- Whatever the modules, the cache, the limit and the defines are, every operation that composes
a unit has a run with one stack that ends, and every such run is the operation's, stays within
the limit, and fails where includes go round in a circle. -/
theorem runs_limited (library : Library) {operation : Operation} (h : operation.ComposesUnit) :
    (∃ outcome after log, library.toComposer.Runs (operation.task library.toComposer)
      ⟨library.cache, []⟩ outcome after log) ∧
    ∀ outcome after log, library.toComposer.Runs (operation.task library.toComposer)
      ⟨library.cache, []⟩ outcome after log → library.IsLimited operation outcome after log := by
  obtain ⟨outcome, after, log, hruns, hresult, hafter⟩ := library.exists_runs operation h
  refine ⟨⟨outcome, after, log, hruns⟩, fun other after' log' hother => ?_⟩
  obtain ⟨rfl, rfl, rfl⟩ := hruns.unique hother
  exact {
    result := hresult
    afterOperation := hafter
    length_le := fun stack hmem => hruns.length_le_of_mem_log (Nat.zero_le _) hmem
    restored := fun found hok => hruns.stack_of_ok hok
    reports := fun path limit trail herror =>
      hruns.reports_of_depthExceeded (Nat.zero_le _) herror
    acyclic := fun hempty hallowed hcycle found hok => by
      subst hok
      obtain ⟨value, hvalue⟩ := operation.isOk_conclude library.toComposer found
      exact not_reachesCycle_of_resultOf h hempty hallowed (hresult.trans hvalue) hcycle }

def loopLibrary : Library :=
  (ofSettings { includeBuiltins := false, maxIncludeDepth := 2 }).add "loop".toList
    "#include <loop>".toList

def loopCall : Operation := .compile none "#include <loop>".toList

def loopFault : ComposeError :=
  .includeDepthExceeded "loop".toList 2 [⟨"loop".toList, 1⟩, ⟨"loop".toList, 1⟩]

private theorem leads_loop : loopLibrary.toComposer.Leads "loop".toList "loop".toList :=
  ⟨1, "#include <loop>".toList, by decide +kernel, by decide,
    ⟨.preprocessor, "#include <loop>".toList, 1⟩, by decide +kernel, "<loop>".toList,
    by decide +kernel, rfl, by decide +kernel⟩

private theorem reachesCycle_loopCall :
    (loopCall.task loopLibrary.toComposer).ReachesCycle loopLibrary.toComposer := by
  refine ⟨"loop".toList, 1, "loop".toList, ⟨by decide, ?_⟩, .refl, .single leads_loop⟩
  exact ⟨⟨.preprocessor, "#include <loop>".toList, 1⟩, by decide +kernel, "<loop>".toList,
    by decide +kernel, rfl, by decide +kernel⟩

theorem runs_limited_loopCall :
    loopCall.ComposesUnit ∧ loopLibrary.cache = .empty ∧ loopLibrary.Allows loopCall ∧
    (loopCall.task loopLibrary.toComposer).ReachesCycle loopLibrary.toComposer ∧
    loopLibrary.resultOf loopCall = .error loopFault ∧
    ∃ after log, loopLibrary.toComposer.Runs (loopCall.task loopLibrary.toComposer)
        ⟨loopLibrary.cache, []⟩ (.error loopFault) after log ∧
      loopLibrary.IsLimited loopCall (.error loopFault) after log := by
  have hunit : loopCall.ComposesUnit := trivial
  have hallowed : loopLibrary.Allows loopCall := by decide +kernel
  have hresult : loopLibrary.resultOf loopCall = .error loopFault := by decide +kernel
  refine ⟨hunit, rfl, hallowed, reachesCycle_loopCall, hresult, ?_⟩
  obtain ⟨⟨outcome, after, log, hruns⟩, hlimited⟩ := runs_limited loopLibrary hunit
  have houtcome : outcome = .error loopFault :=
    (hlimited outcome after log hruns).result.symm.trans hresult
  subst houtcome
  exact ⟨after, log, hruns, hlimited _ after log hruns⟩

end Library

end GlslCompose
