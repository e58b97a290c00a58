import GlslCompose.Proofs.Define.Shift
import GlslCompose.Proofs.Unit.Cycle

/-!
# Lines in the trail of an error

The trail of an include error is followed here to the sources that the units were given:
every frame stands for the include at which a unit stops, and the line that it names is the
line of this include in the unit's source, but counted with the block of defines in place.
-/

namespace GlslCompose

open Text

/-- The trail of includes in progress, for the errors that report one. -/
def ComposeError.trail? : ComposeError → Option IncludeTrail
  | .includeSyntax _ _ trail | .includeNotFound _ _ trail | .includeDepthExceeded _ _ trail =>
      some trail
  | .directive _ _ | .expression _ _ | .programCreation _ => none

namespace Composer

variable {composer : Composer} {error : ComposeError}

private theorem name?_of_fetch {token : Token} {argument : Text}
    (h : Include.request token = .fetch argument) :
    token.kind = .preprocessor ∧ Directive.name? token.text = some Directive.includeName := by
  unfold Include.request at h
  split at h
  · cases h
  · cases h
  · cases h
  · rename_i hkind
    refine ⟨hkind, ?_⟩
    unfold Include.requestOfDirective at h
    split at h
    · cases h
    · rename_i name hname
      split at h
      · cases h
      · split at h
        · rename_i hinclude
          rw [hname, hinclude]
        · cases h
  · cases h

private theorem exists_line_of_unitTokens (hdefines : composer.registry.HasNoIncludes)
    {source : Text} {before after : List Token} {token : Token} {argument : Text}
    (htokens : composer.unitTokens source = before ++ token :: after)
    (hrequest : Include.request token = .fetch argument) :
    ∃ line, source.StandsOn line token.text ∧
      token.line = composer.registry.injectedLine (NameGuard.remove source) line := by
  obtain ⟨hkind, hname⟩ := name?_of_fetch hrequest
  obtain ⟨rest, htext, hafter⟩ := Token.exists_splitDirective htokens hkind
  obtain ⟨body, hbody⟩ : ∃ body, token.text = '#' :: body := ⟨_, htext⟩
  have hrest : restOfLine (Token.concat after) = [] := by
    rw [hafter, Token.restOfLine_splitDirective]
  have hpartition := Token.tokensFrom_isPartition composer.version 1
    (composer.registry.inject (NameGuard.remove source))
  have hinject : composer.registry.inject (NameGuard.remove source) =
      Token.concat before ++ ('#' :: body ++ Token.concat after) := by
    rw [← hbody, ← Token.concat_cons, ← Token.concat_append, ← htokens]
    exact hpartition.concat_eq.symm
  rw [hbody] at hname
  obtain ⟨line, hstands, hline⟩ :=
    DefineSet.exists_line_of_inject hdefines hname hrest hinject
  obtain ⟨guard, hguard⟩ := NameGuard.exists_append source
  refine ⟨line, ?_, ?_⟩
  · rw [hguard, hbody]
    exact hstands.append guard
  · rw [hpartition.line_eq before token after htokens, ← hline, Nat.add_comm]

/-! ## Traces -/

/-- The tokens in front of an include are expanded, and the include is next. -/
structure ComesTo (composer : Composer) (directory : Text) (tokens : List Token)
    (work : Workspace) (token : Token) (argument : Text) (mid : Workspace) : Prop where
  request : Include.request token = .fetch argument
  split : ∃ before after, tokens = before ++ token :: after ∧
    ∃ text log, composer.Runs (.expand directory before) work (.ok (some text)) mid log

/-- The frames with which the task fails.  Every frame is the include at which the unit
stops, on the line that it has in the unit's source when the defines are in it. -/
inductive Traces (composer : Composer) (error : ComposeError) :
    Task → Workspace → IncludeTrail → Prop where
  | last {directory argument : Text} {line : Nat} {work after : Workspace}
      {log : List IncludeTrail}
      (hfails : composer.Runs (.include directory line argument) work (.error error) after log) :
      Traces composer error (.include directory line argument) work []
  | enter {directory argument path : Text} {line : Nat} {work : Workspace}
      {frames : IncludeTrail} (hpath : Include.path directory argument = .ok path)
      (h : Traces composer error (.fetch path) (work.push path line) frames) :
      Traces composer error (.include directory line argument) work (⟨path, line⟩ :: frames)
  | module {path source : Text} {work : Workspace} {frames : IncludeTrail}
      (hsource : composer.modules.source? (ModulePath.normalize path) = some source)
      (h : Traces composer error (.compile (some (ModulePath.normalize path)) source) work
        frames) :
      Traces composer error (.fetch path) work frames
  | stop {name : Option Text} {source argument : Text} {token : Token} {line : Nat}
      {work mid : Workspace} {frames : IncludeTrail}
      (hcomes : composer.ComesTo (unitDirectory name) (composer.unitTokens source)
        (work.look (composer.unitKey source)) token argument mid)
      (hstands : source.StandsOn line token.text)
      (hline : token.line = composer.registry.injectedLine (NameGuard.remove source) line)
      (h : Traces composer error (.include (unitDirectory name) token.line argument) mid
        frames) :
      Traces composer error (.compile name source) work frames

theorem ComesTo.cons {directory : Text} {tokens : List Token} {first token : Token}
    {argument : Text} {work next mid : Workspace}
    (h : composer.ComesTo directory tokens next token argument mid)
    (hfirst : ∀ (more : Text) (after : Workspace) (rest : List IncludeTrail)
      (before : List Token), composer.Runs (.expand directory before) next (.ok (some more)) after
        rest → ∃ text log, composer.Runs (.expand directory (first :: before)) work
          (.ok (some text)) after log) :
    composer.ComesTo directory (first :: tokens) work token argument mid := by
  obtain ⟨before, after, rfl, more, rest, hruns⟩ := h.split
  exact ⟨h.request, first :: before, after, rfl, hfirst more mid rest before hruns⟩

def Task.IsTraced (composer : Composer) (error : ComposeError) (task : Task) (work : Workspace)
    (frames : IncludeTrail) : Prop :=
  match task with
  | .expand directory tokens => ∃ token argument mid,
      composer.ComesTo directory tokens work token argument mid ∧
        composer.Traces error (.include directory token.line argument) mid frames
  | task => composer.Traces error task work frames

namespace Runs

variable {task : Task} {work after : Workspace} {outcome : Outcome} {log : List IncludeTrail}

private theorem isTraced_of_error (hdefines : composer.registry.HasNoIncludes)
    (h : composer.Runs task work outcome after log) (herror : outcome = .error error)
    {trail : IncludeTrail} (htrail : error.trail? = some trail) :
    ∃ frames, trail = work.stack ++ frames ∧ task.IsTraced composer error work frames := by
  induction h with
  | nil | included | absent | empty | hit | built => cases herror
  | drop hrequest _ ih =>
      obtain ⟨frames, hframes, token, argument, mid, hcomes, htraces⟩ := ih herror
      refine ⟨frames, hframes, token, argument, mid, ?_, htraces⟩
      exact hcomes.cons fun _ _ _ _ hruns => ⟨_, _, .drop hrequest hruns⟩
  | keep hrequest _ ih =>
      obtain ⟨frames, hframes, token, argument, mid, hcomes, htraces⟩ :=
        ih (Outcome.eq_error_of_prepend herror)
      refine ⟨frames, hframes, token, argument, mid, ?_, htraces⟩
      exact hcomes.cons fun _ _ _ _ hruns => ⟨_, _, .keep hrequest hruns⟩
  | replaced hrequest hinclude _ _ ih =>
      obtain ⟨frames, hframes, token, argument, mid, hcomes, htraces⟩ :=
        ih (Outcome.eq_error_of_prepend herror)
      rw [hinclude.stack_of_ok rfl] at hframes
      refine ⟨frames, hframes, token, argument, mid, ?_, htraces⟩
      exact hcomes.cons fun _ _ _ _ hruns => ⟨_, _, .replaced hrequest hinclude hruns⟩
  | stopped hrequest _ ih =>
      obtain ⟨frames, hframes, htraces⟩ := ih herror
      exact ⟨frames, hframes, _, _, _,
        ⟨hrequest, [], _, rfl, [], [], .nil⟩, htraces⟩
  | refused hpath =>
      cases herror
      cases htrail
      exact ⟨[], (List.append_nil _).symm, .last (.refused hpath)⟩
  | tooDeep hpath hdeep =>
      cases herror
      cases htrail
      exact ⟨[], (List.append_nil _).symm, .last (.tooDeep hpath hdeep)⟩
  | missing hpath hroom hfetch =>
      cases herror
      cases htrail
      refine ⟨[], ?_, .last (.missing hpath hroom hfetch)⟩
      rw [Workspace.stack_pop, hfetch.stack_of_ok rfl, Workspace.stack_push,
        List.dropLast_concat, List.append_nil]
  | failed hpath hroom _ ih =>
      obtain ⟨frames, hframes, htraces⟩ := ih herror
      exact ⟨_ :: frames, hframes.trans (List.append_assoc _ _ _), .enter hpath htraces⟩
  | present hsource _ ih =>
      obtain ⟨frames, hframes, htraces⟩ := ih herror
      exact ⟨frames, hframes, .module hsource htraces⟩
  | broken _ _ _ ih =>
      obtain ⟨frames, hframes, token, argument, mid, hcomes, htraces⟩ := ih herror
      obtain ⟨before, more, htokens, -⟩ := hcomes.split
      obtain ⟨line, hstands, hline⟩ :=
        exists_line_of_unitTokens hdefines htokens hcomes.request
      exact ⟨frames, hframes, .stop hcomes hstands hline htraces⟩

end Runs

end Composer

namespace Library

open Composer

/-- A compile that fails with an include error fails at an include of the unit, and the frames
of the error are the includes at which the units stop, from the outermost on.  Each names the
line of its include in the source of its unit, counted with the block of defines in place. -/
theorem traces_of_compile {library : Library} (hdefines : library.registry.HasNoIncludes)
    {name : Option Text} {source : Text} {error : ComposeError} {trail : IncludeTrail}
    (herror : (library.compile name source).1 = .error error)
    (htrail : error.trail? = some trail) :
    library.toComposer.Traces error (.compile (some (name.getD anonymousName)) source)
      ⟨library.cache, []⟩ trail := by
  obtain ⟨outcome, after, log, hruns, hresult, -⟩ :=
    library.exists_runs (.compile name source) trivial
  have houtcome : outcome = .error error := hresult.symm.trans herror
  obtain ⟨frames, hframes, htraces⟩ := hruns.isTraced_of_error hdefines houtcome htrail
  rw [hframes]
  exact htraces

def taggedLibrary : Library :=
  (((ofSettings { includeBuiltins := false }).define "FOO".toList (.integer 1)).define
    "BAR".toList (.integer 2)).add "a".toList "float x;\n#include <missing>".toList

def taggedUser : Text := "#version 100\n#include <a>".toList

def taggedFault (line : Nat) : ComposeError :=
  .includeNotFound "missing".toList "<missing>".toList [⟨"a".toList, line⟩]

/-- The include stands on the second line of the unit, below the version line, and is counted
two lines further down. -/
theorem traces_of_compile_taggedUser :
    taggedLibrary.registry.HasNoIncludes ∧
    (taggedLibrary.compile none taggedUser).1 = .error (taggedFault 4) ∧
    (taggedFault 4).trail? = some [⟨"a".toList, 4⟩] ∧
    taggedLibrary.toComposer.Traces (taggedFault 4) (.compile (some anonymousName) taggedUser)
      ⟨taggedLibrary.cache, []⟩ [⟨"a".toList, 4⟩] := by
  have hdefines : taggedLibrary.registry.HasNoIncludes := by decide +kernel
  have herror : (taggedLibrary.compile none taggedUser).1 = .error (taggedFault 4) := by
    decide +kernel
  exact ⟨hdefines, herror, rfl, traces_of_compile hdefines herror rfl⟩

/-- The unit has one line, and the error places its include on the third. -/
theorem compile_singleInclude :
    Text.lines "#include <a>".toList = ["#include <a>".toList] ∧
    (taggedLibrary.compile none "#include <a>".toList).1 = .error (taggedFault 3) := by
  decide +kernel

end Library

end GlslCompose
