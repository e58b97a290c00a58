import GlslCompose.Proofs.Unit.Cycle

/-!
# Includes that are not found

An include is reported as not found where nothing is registered under its path, and also
where the registered text is empty, since the empty source has no compiled text.  These are
the only two cases.  An include fails so by itself: a call that comes to such an include ends
with its report, and no report has another origin.
-/

namespace GlslCompose

namespace Composer

variable {composer : Composer}

def Lacks (composer : Composer) (path : Text) : Prop :=
  composer.modules.source? (ModulePath.normalize path) = none ∨
    composer.modules.source? (ModulePath.normalize path) = some []

instance (path : Text) : Decidable (composer.Lacks path) := inferInstanceAs (Decidable (_ ∨ _))

/-- An include directive with the cache and the stack that a run has when it comes to it. -/
structure Site where
  directory : Text
  line : Nat
  argument : Text
  work : Workspace

namespace Site

def task (site : Site) : Task := .include site.directory site.line site.argument

/-- The include is well formed and names the path, and the limit allows one more level. -/
structure Allows (composer : Composer) (site : Site) (path : Text) : Prop where
  path_eq : Include.path site.directory site.argument = .ok path
  room : site.work.stack.length < composer.maxIncludeDepth

def notFound (site : Site) (path : Text) : ComposeError :=
  .includeNotFound path site.argument site.work.stack

end Site

/-- The run of the task comes to the include, with whatever has been done before. -/
inductive Reaches (composer : Composer) : Task → Workspace → Site → Prop where
  | here {site : Site} : Reaches composer site.task site.work site
  | drop {directory : Text} {token : Token} {tokens : List Token} {work : Workspace} {site : Site}
      (hrequest : Include.request token = .nothing)
      (h : Reaches composer (.expand directory tokens) work site) :
      Reaches composer (.expand directory (token :: tokens)) work site
  | keep {directory : Text} {token : Token} {tokens : List Token} {work : Workspace} {site : Site}
      {text : Text} (hrequest : Include.request token = .keep text)
      (h : Reaches composer (.expand directory tokens) work site) :
      Reaches composer (.expand directory (token :: tokens)) work site
  | first {directory : Text} {token : Token} {tokens : List Token} {work : Workspace}
      {site : Site} {argument : Text} (hrequest : Include.request token = .fetch argument)
      (h : Reaches composer (.include directory token.line argument) work site) :
      Reaches composer (.expand directory (token :: tokens)) work site
  | later {directory : Text} {token : Token} {tokens : List Token} {work mid : Workspace}
      {site : Site} {argument text : Text} {log : List IncludeTrail}
      (hrequest : Include.request token = .fetch argument)
      (hinclude : Runs composer (.include directory token.line argument) work (.ok (some text))
        mid log)
      (h : Reaches composer (.expand directory tokens) mid site) :
      Reaches composer (.expand directory (token :: tokens)) work site
  | within {directory argument path : Text} {line : Nat} {work : Workspace} {site : Site}
      (hpath : Include.path directory argument = .ok path)
      (hroom : work.stack.length < composer.maxIncludeDepth)
      (h : Reaches composer (.fetch path) (work.push path line) site) :
      Reaches composer (.include directory line argument) work site
  | present {path source : Text} {work : Workspace} {site : Site}
      (hsource : composer.modules.source? (ModulePath.normalize path) = some source)
      (h : Reaches composer (.compile (some (ModulePath.normalize path)) source) work site) :
      Reaches composer (.fetch path) work site
  | built {name : Option Text} {source : Text} {work : Workspace} {site : Site}
      (hsource : source ≠ []) (hget : work.cache.get? (composer.unitKey source) = none)
      (h : Reaches composer (.expand (unitDirectory name) (composer.unitTokens source))
        (work.look (composer.unitKey source)) site) :
      Reaches composer (.compile name source) work site

namespace Runs

variable {task : Task} {work after : Workspace} {outcome : Outcome} {log : List IncludeTrail}

/-! ## One include -/

theorem isSome_of_compile {name found : Option Text} {source : Text} (hsource : source ≠ [])
    (h : composer.Runs (.compile name source) work (.ok found) after log) : found.isSome := by
  cases h with
  | empty => exact absurd rfl hsource
  | hit | built => rfl

private theorem fetch_eq_none_iff {path : Text}
    (h : composer.Runs (.fetch path) work outcome after log) :
    outcome = .ok none ↔ composer.Lacks path := by
  cases h with
  | absent hsource => exact ⟨fun _ => .inl hsource, fun _ => rfl⟩
  | @present _ source _ _ _ _ hsource hcompile =>
      constructor
      · rintro rfl
        by_cases hempty : source = []
        · exact .inr (hempty ▸ hsource)
        · cases isSome_of_compile hempty hcompile
      · rintro (habsent | hempty)
        · rw [hsource] at habsent
          cases habsent
        · cases hsource.symm.trans hempty
          cases hcompile with
          | empty => rfl
          | hit hne | built hne | broken hne => exact absurd rfl hne

private theorem lacks_of_notFound (h : composer.Runs task work outcome after log)
    {path argument : Text}
    {trail : IncludeTrail} (herror : outcome = .error (.includeNotFound path argument trail)) :
    composer.Lacks path := by
  induction h with
  | nil | refused | tooDeep | included | absent | empty | hit | built => cases herror
  | drop _ _ ih | stopped _ _ ih | failed _ _ _ ih | present _ _ ih | broken _ _ _ ih =>
      exact ih herror
  | keep _ _ ih | replaced _ _ _ _ ih => exact ih (Outcome.eq_error_of_prepend herror)
  | missing _ _ hfetch =>
      cases herror
      exact hfetch.fetch_eq_none_iff.mp rfl

private theorem site_eq_notFound_iff {site : Site} {path : Text} (hsite : site.Allows composer path)
    (h : composer.Runs site.task site.work outcome after log) :
    outcome = .error (site.notFound path) ↔ composer.Lacks path := by
  constructor
  · exact fun herror => h.lacks_of_notFound herror
  · intro hlacks
    have hpath := hsite.path_eq
    cases h with
    | refused hrefused =>
        rw [hpath] at hrefused
        cases hrefused
    | tooDeep _ hdeep => exact absurd hsite.room (Nat.not_lt_of_le hdeep)
    | failed hpath' _ hfetch =>
        cases hpath.symm.trans hpath'
        cases hfetch.fetch_eq_none_iff.mpr hlacks
    | included hpath' _ hfetch =>
        cases hpath.symm.trans hpath'
        cases hfetch.fetch_eq_none_iff.mpr hlacks
    | missing hpath' _ hfetch =>
        cases hpath.symm.trans hpath'
        have hstack := hfetch.stack_of_ok rfl
        rw [Workspace.stack_pop, hstack, Workspace.stack_push, List.dropLast_concat]
        rfl

/-! ## From an include to the whole run -/

private theorem exists_at_site {site : Site} (hreaches : composer.Reaches task work site)
    (h : composer.Runs task work outcome after log) :
    ∃ result after' log', composer.Runs site.task site.work result after' log' ∧
      ∀ error, result = .error error → outcome = .error error := by
  induction hreaches generalizing outcome after log with
  | here => exact ⟨outcome, after, log, h, fun _ herror => herror⟩
  | drop hrequest _ ih =>
      cases h with
      | drop _ hrest => exact ih hrest
      | keep hother | replaced hother | stopped hother => cases hrequest.symm.trans hother
  | keep hrequest _ ih =>
      cases h with
      | keep _ hrest =>
          obtain ⟨result, after', log', hsite, herrors⟩ := ih hrest
          exact ⟨result, after', log', hsite, fun error herror => by rw [herrors error herror]; rfl⟩
      | drop hother | replaced hother | stopped hother => cases hrequest.symm.trans hother
  | first hrequest _ ih =>
      cases h with
      | replaced hother hinclude =>
          cases hrequest.symm.trans hother
          obtain ⟨result, after', log', hsite, herrors⟩ := ih hinclude
          refine ⟨result, after', log', hsite, fun error herror => ?_⟩
          cases herrors error herror
      | stopped hother hinclude =>
          cases hrequest.symm.trans hother
          exact ih hinclude
      | drop hother | keep hother => cases hrequest.symm.trans hother
  | later hrequest hbefore _ ih =>
      cases h with
      | replaced hother hinclude hrest =>
          cases hrequest.symm.trans hother
          obtain ⟨-, rfl, -⟩ := hinclude.unique hbefore
          obtain ⟨result, after', log', hsite, herrors⟩ := ih hrest
          exact ⟨result, after', log', hsite, fun error herror => by rw [herrors error herror]; rfl⟩
      | stopped hother hinclude =>
          cases hrequest.symm.trans hother
          obtain ⟨hok, -⟩ := hinclude.unique hbefore
          cases hok
      | drop hother | keep hother => cases hrequest.symm.trans hother
  | within hpath hroom _ ih =>
      cases h with
      | refused hother => cases hpath.symm.trans hother
      | tooDeep _ hdeep => exact absurd hroom (Nat.not_lt_of_le hdeep)
      | failed hother _ hfetch =>
          cases hpath.symm.trans hother
          exact ih hfetch
      | missing hother _ hfetch | included hother _ hfetch =>
          cases hpath.symm.trans hother
          obtain ⟨result, after', log', hsite, herrors⟩ := ih hfetch
          refine ⟨result, after', log', hsite, fun error herror => ?_⟩
          cases herrors error herror
  | present hsource _ ih =>
      cases h with
      | absent hother => cases hsource.symm.trans hother
      | present hother hcompile =>
          cases hsource.symm.trans hother
          exact ih hcompile
  | built hsource hget _ ih =>
      cases h with
      | empty => exact absurd rfl hsource
      | hit _ hother => cases hget.symm.trans hother
      | built _ _ hexpand =>
          obtain ⟨result, after', log', hsite, herrors⟩ := ih hexpand
          refine ⟨result, after', log', hsite, fun error herror => ?_⟩
          cases herrors error herror
      | broken _ _ hexpand => exact ih hexpand

/-- The whole run ends with the report of an include that is reached exactly if there is
nothing for it to include. -/
theorem eq_notFound_iff {site : Site} {path : Text} (hsite : site.Allows composer path)
    (hreaches : composer.Reaches task work site) (h : composer.Runs task work outcome after log) :
    outcome = .error (site.notFound path) ↔ composer.Lacks path := by
  obtain ⟨result, after', log', hruns, herrors⟩ := h.exists_at_site hreaches
  constructor
  · exact fun herror => h.lacks_of_notFound herror
  · exact fun hlacks => herrors _ ((hruns.site_eq_notFound_iff hsite).mpr hlacks)

end Runs

end Composer

/-! ## Libraries -/

open Composer

@[simp] private theorem Operation.conclude_eq_error_iff (operation : Operation)
    (composer : Composer) (outcome : Outcome) (error : ComposeError) :
    operation.conclude composer outcome = .error error ↔ outcome = .error error := by
  cases operation with
  | process name source overrides =>
      cases outcome with
      | error reason => exact Iff.rfl
      | ok found => exact ⟨nofun, nofun⟩
  | _ => exact Iff.rfl

namespace Library

/-- Every include that is reached, that is well formed and that the limit allows fails as not
found, by itself and so for the whole operation, exactly where its path has no module or an
empty one; and a path gives no text in exactly those cases. -/
theorem includeNotFound_iff_lacks (library : Library) :
    (∀ (operation : Operation) (site : Site) (path : Text), operation.ComposesUnit →
      library.toComposer.Reaches (operation.task library.toComposer) ⟨library.cache, []⟩ site →
      site.Allows library.toComposer path →
      (∃ outcome after log, library.toComposer.Runs site.task site.work outcome after log ∧
        (outcome = .error (site.notFound path) ↔ library.toComposer.Lacks path)) ∧
      (library.resultOf operation = .error (site.notFound path) ↔
        library.toComposer.Lacks path)) ∧
    ∀ path, (library.get path).1 = .ok none ↔ library.toComposer.Lacks path := by
  constructor
  · intro operation site path hunit hreaches hsite
    obtain ⟨outcome, after, log, hruns, hresult, -⟩ := library.exists_runs operation hunit
    obtain ⟨result, after', log', hinclude, -⟩ := hruns.exists_at_site hreaches
    refine ⟨⟨result, after', log', hinclude, hinclude.site_eq_notFound_iff hsite⟩, ?_⟩
    rw [hresult, Operation.conclude_eq_error_iff]
    exact hruns.eq_notFound_iff hsite hreaches
  · intro path
    obtain ⟨outcome, after, log, hruns, hresult, -⟩ := library.exists_runs (.get path) trivial
    have hget : (library.get path).1 = outcome := hresult
    rw [hget]
    exact hruns.fetch_eq_none_iff

def hollowLibrary : Library :=
  ((ofSettings { includeBuiltins := false }).add "hollow".toList []).add "outer".toList
    "#include <hollow>".toList

def hollowCall : Operation := .compile none "#include <outer>".toList

def hollowSite : Site where
  directory := unitDirectory (some "outer".toList)
  line := 1
  argument := "<hollow>".toList
  work := (((⟨hollowLibrary.cache, []⟩ : Workspace).look
    (hollowLibrary.toComposer.unitKey "#include <outer>".toList)).push "outer".toList 1).look
    (hollowLibrary.toComposer.unitKey "#include <hollow>".toList)

private theorem reaches_hollowSite : hollowLibrary.toComposer.Reaches
    (hollowCall.task hollowLibrary.toComposer) ⟨hollowLibrary.cache, []⟩ hollowSite := by
  have houter : hollowLibrary.toComposer.unitTokens "#include <outer>".toList =
      [⟨.preprocessor, "#include <outer>".toList, 1⟩, ⟨.eof, [], 1⟩] := by decide +kernel
  have hhollow : hollowLibrary.toComposer.unitTokens "#include <hollow>".toList =
      [⟨.preprocessor, "#include <hollow>".toList, 1⟩, ⟨.eof, [], 1⟩] := by decide +kernel
  have hnormal : ModulePath.normalize "outer".toList = "outer".toList := by decide +kernel
  have hsource : hollowLibrary.toComposer.modules.source? (ModulePath.normalize "outer".toList) =
      some "#include <hollow>".toList := by decide +kernel
  have hfirst : Include.request ⟨.preprocessor, "#include <outer>".toList, 1⟩ =
      .fetch "<outer>".toList := by decide +kernel
  have hsecond : Include.request ⟨.preprocessor, "#include <hollow>".toList, 1⟩ =
      .fetch "<hollow>".toList := by decide +kernel
  have hpath : Include.path ModulePath.root "<outer>".toList = .ok "outer".toList := by
    decide +kernel
  have hhere : hollowLibrary.toComposer.Reaches hollowSite.task hollowSite.work hollowSite := .here
  refine .built (by decide) (by decide +kernel) ?_
  rw [houter]
  refine .first hfirst (.within hpath (by decide) (.present hsource ?_))
  refine .built (by decide) (by decide +kernel) ?_
  rw [hhollow, hnormal]
  exact .first hsecond hhere

theorem includeNotFound_iff_lacks_hollowSite :
    hollowCall.ComposesUnit ∧
    hollowLibrary.toComposer.Reaches (hollowCall.task hollowLibrary.toComposer)
      ⟨hollowLibrary.cache, []⟩ hollowSite ∧
    hollowSite.Allows hollowLibrary.toComposer "hollow".toList ∧
    hollowLibrary.resultOf hollowCall = .error (.includeNotFound "hollow".toList
      "<hollow>".toList [⟨"outer".toList, 1⟩]) := by
  have hallowed : hollowSite.Allows hollowLibrary.toComposer "hollow".toList :=
    ⟨by decide +kernel, by decide⟩
  refine ⟨trivial, reaches_hollowSite, hallowed, ?_⟩
  exact ((includeNotFound_iff_lacks hollowLibrary).1 hollowCall hollowSite _ trivial
    reaches_hollowSite hallowed).2.mpr (by decide +kernel)

/-- The empty module is registered, and still it is not found. -/
theorem notFound_of_registered_hollow :
    hollowLibrary.toComposer.modules.source? "hollow".toList = some [] ∧
    (hollowLibrary.compile none "#include <hollow>".toList).1 =
      .error (.includeNotFound "hollow".toList "<hollow>".toList []) ∧
    (hollowLibrary.get "hollow".toList).1 = .ok none := by
  decide +kernel

end Library

end GlslCompose
