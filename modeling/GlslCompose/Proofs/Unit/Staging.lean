import GlslCompose.Library.Stages
import GlslCompose.Proofs.Unit.Cycle
import GlslCompose.Proofs.Unit.Expansion

/-!
# Stages run once for each unit

The stages see the text of a unit once, when all its includes are expanded.  A module is a
unit of its own: its text goes through the stages before it is included, and once more as a
part of the unit that includes it.  Without stages a composer takes the same course, with the
same includes, the same units in the cache and the same failures.
-/

namespace GlslCompose

namespace Composer

variable {composer : Composer}

def withoutStages (composer : Composer) : Composer := { composer with stages := [] }

private theorem unitText_eq_of_unchanged {assembled : Text}
    (h : composer.runStages .empty assembled = assembled) :
    composer.unitText assembled = composer.withoutStages.unitText assembled := by
  rw [unitText, stagedText, h]
  rfl

/-! ## Two texts from the same modules -/

/-- The tokens become one text with the stages and one without, from the same modules.  A module
may be read at any place where its source is registered.  The parts are the texts of the
included modules as the stages find them, inner modules first. -/
inductive ExpandsBoth (composer : Composer) :
    Text → List Token → Text → Text → List Text → Prop where
  | nil {directory : Text} : ExpandsBoth composer directory [] [] [] []
  | drop {directory : Text} {token : Token} {tokens : List Token} {staged plain : Text}
      {parts : List Text} (hrequest : Include.request token = .nothing)
      (hrest : ExpandsBoth composer directory tokens staged plain parts) :
      ExpandsBoth composer directory (token :: tokens) staged plain parts
  | keep {directory : Text} {token : Token} {tokens : List Token} {text staged plain : Text}
      {parts : List Text} (hrequest : Include.request token = .keep text)
      (hrest : ExpandsBoth composer directory tokens staged plain parts) :
      ExpandsBoth composer directory (token :: tokens) (text ++ staged) (text ++ plain) parts
  | fetch {directory : Text} {token : Token} {tokens : List Token}
      {argument path place source inner plainInner staged plain : Text}
      {innerParts parts : List Text} (hrequest : Include.request token = .fetch argument)
      (hmodule : composer.included? directory argument = some (path, source))
      (hsource : source ≠ []) (hplace : composer.modules.source? place = some source)
      (hinner : ExpandsBoth composer (unitDirectory (some place)) (composer.unitTokens source)
        inner plainInner innerParts)
      (hrest : ExpandsBoth composer directory tokens staged plain parts) :
      ExpandsBoth composer directory (token :: tokens) (composer.unitText inner ++ staged)
        (composer.withoutStages.unitText plainInner ++ plain) (innerParts ++ inner :: parts)

def CompilesBoth (composer : Composer) (source text plainText : Text) : Prop :=
  source ≠ [] ∧ ∃ place inner plainInner parts, composer.modules.source? place = some source ∧
    composer.ExpandsBoth (unitDirectory (some place)) (composer.unitTokens source) inner
      plainInner parts ∧
    text = composer.unitText inner ∧ plainText = composer.withoutStages.unitText plainInner

namespace ExpandsBoth

variable {directory staged plain : Text} {tokens : List Token} {parts : List Text}

private theorem parts_eq_nil (h : composer.ExpandsBoth directory tokens staged plain parts)
    (hnone : includeArguments tokens = []) : parts = [] := by
  induction h with
  | nil => rfl
  | drop hrequest _ ih | keep hrequest _ ih =>
      refine ih ?_
      rwa [includeArguments_cons_of_none (by rw [requestedArgument?, hrequest])] at hnone
  | fetch hrequest =>
      rw [includeArguments_cons_of_fetch hrequest] at hnone
      cases hnone

private theorem staged_eq (h : composer.ExpandsBoth directory tokens staged plain parts)
    (hparts : ∀ part ∈ parts, composer.runStages .empty part = part) : staged = plain := by
  induction h with
  | nil => rfl
  | drop _ _ ih => exact ih hparts
  | keep _ _ ih => rw [ih hparts]
  | fetch _ _ _ _ _ _ ihInner ihRest =>
      obtain ⟨hinner, hpart, hrest⟩ : _ ∧ _ ∧ _ := by
        simpa only [List.forall_mem_append, List.forall_mem_cons] using hparts
      rw [unitText_eq_of_unchanged hpart, ihInner hinner, ihRest hrest]

end ExpandsBoth

/-! ## Two runs -/

def Task.Becomes (composer : Composer) : Task → Text → Text → Prop
  | .expand directory tokens, text, plainText =>
      ∃ parts, composer.ExpandsBoth directory tokens text plainText parts
  | .include directory _ argument, text, plainText =>
      ∃ path source, composer.included? directory argument = some (path, source) ∧
        composer.CompilesBoth source text plainText
  | .fetch path, text, plainText =>
      ∃ source, composer.modules.source? (ModulePath.normalize path) = some source ∧
        composer.CompilesBoth source text plainText
  | .compile _ source, text, plainText => composer.CompilesBoth source text plainText

def Task.IsModular (composer : Composer) : Task → Prop
  | .compile name source => ∃ path, name = some path ∧ composer.modules.source? path = some source
  | _ => True

/-- The stacks are the same, and so are the units in the caches. -/
structure Corresponds (composer : Composer) (work other : Workspace) : Prop where
  stack_eq : other.stack = work.stack
  entries : ∀ source, Option.Rel (composer.CompilesBoth source)
    (work.cache.get? (composer.unitKey source)) (other.cache.get? (composer.unitKey source))

namespace Corresponds

variable {work other : Workspace}

theorem push (h : composer.Corresponds work other) (path : Text) (line : Nat) :
    composer.Corresponds (work.push path line) (other.push path line) :=
  ⟨congrArg (·.push path line) h.stack_eq, h.entries⟩

theorem pop (h : composer.Corresponds work other) : composer.Corresponds work.pop other.pop :=
  ⟨congrArg List.dropLast h.stack_eq, h.entries⟩

theorem look (h : composer.Corresponds work other) (key : UnitKey) :
    composer.Corresponds (work.look key) (other.look key) := by
  refine ⟨h.stack_eq, fun source => ?_⟩
  simp only [Workspace.look, Cache.get?_lookup]
  exact h.entries source

private theorem exists_of_get? (h : composer.Corresponds work other) {source text : Text}
    (hget : work.cache.get? (composer.unitKey source) = some text) :
    ∃ plainText, other.cache.get? (composer.unitKey source) = some plainText ∧
      composer.CompilesBoth source text plainText := by
  have hentry := h.entries source
  rw [hget] at hentry
  generalize other.cache.get? (composer.unitKey source) = found at hentry
  cases hentry with
  | some hcompiles => exact ⟨_, rfl, hcompiles⟩

theorem get?_eq_none (h : composer.Corresponds work other) {source : Text}
    (hget : work.cache.get? (composer.unitKey source) = none) :
    other.cache.get? (composer.unitKey source) = none := by
  have hentry := h.entries source
  rw [hget] at hentry
  generalize other.cache.get? (composer.unitKey source) = found at hentry ⊢
  cases hentry
  rfl

theorem store (h : composer.Corresponds work other) {source text plainText : Text}
    (hcompiles : composer.CompilesBoth source text plainText) :
    composer.Corresponds (work.store (composer.unitKey source) text)
      (other.store (composer.unitKey source) plainText) := by
  refine ⟨h.stack_eq, fun found => ?_⟩
  simp only [Workspace.store, Cache.get?_insert]
  by_cases hkey : composer.unitKey source = composer.unitKey found
  · obtain rfl : source = found := congrArg UnitKey.source hkey
    rw [if_pos rfl, if_pos rfl]
    exact .some hcompiles
  · rw [if_neg hkey, if_neg hkey]
    exact h.entries found

end Corresponds

def Follows (composer : Composer) (task : Task) (other : Workspace) (outcome : Outcome)
    (after : Workspace) : Prop :=
  ∃ result left log, composer.withoutStages.Runs task other result left log ∧
    composer.Corresponds after left ∧ outcome.Pairs (task.Becomes composer) result

namespace Follows

variable {task : Task} {other after : Workspace} {outcome : Outcome} {error : ComposeError}
  {directory argument path source text : Text} {token : Token} {tokens : List Token} {line : Nat}

private theorem of_text (h : composer.Follows task other (.ok (some text)) after) :
    ∃ plainText left log,
      composer.withoutStages.Runs task other (.ok (some plainText)) left log ∧
        composer.Corresponds after left ∧ task.Becomes composer text plainText := by
  obtain ⟨_, left, log, hruns, hleft, hpairs⟩ := h
  obtain ⟨plainText, rfl, hbecomes⟩ := hpairs.exists_text
  exact ⟨plainText, left, log, hruns, hleft, hbecomes⟩

private theorem of_nothing (h : composer.Follows task other (.ok none) after) :
    ∃ left log, composer.withoutStages.Runs task other (.ok none) left log ∧
      composer.Corresponds after left := by
  obtain ⟨_, left, log, hruns, hleft, hpairs⟩ := h
  obtain rfl := hpairs.eq_none
  exact ⟨left, log, hruns, hleft⟩

private theorem of_error (h : composer.Follows task other (.error error) after) :
    ∃ left log, composer.withoutStages.Runs task other (.error error) left log ∧
      composer.Corresponds after left := by
  obtain ⟨_, left, log, hruns, hleft, hpairs⟩ := h
  obtain rfl := Concur.eq_error hpairs
  exact ⟨left, log, hruns, hleft⟩

private theorem drop (hrequest : Include.request token = .nothing)
    (h : composer.Follows (.expand directory tokens) other outcome after) :
    composer.Follows (.expand directory (token :: tokens)) other outcome after := by
  obtain ⟨result, left, log, hruns, hleft, hpairs⟩ := h
  refine ⟨result, left, log, .drop hrequest hruns, hleft, hpairs.mono ?_⟩
  rintro text plainText ⟨parts, hboth⟩
  exact ⟨parts, .drop hrequest hboth⟩

private theorem keep (hrequest : Include.request token = .keep text)
    (h : composer.Follows (.expand directory tokens) other outcome after) :
    composer.Follows (.expand directory (token :: tokens)) other (outcome.prepend text) after := by
  obtain ⟨result, left, log, hruns, hleft, hpairs⟩ := h
  refine ⟨_, left, log, .keep hrequest hruns, hleft, hpairs.prepend ?_⟩
  rintro more plainMore ⟨parts, hboth⟩
  exact ⟨parts, .keep hrequest hboth⟩

private theorem replaced {plainText : Text} {mid : Workspace} {log : List IncludeTrail}
    (hrequest : Include.request token = .fetch argument)
    (hinclude : composer.withoutStages.Runs (.include directory token.line argument) other
      (.ok (some plainText)) mid log)
    (hbecomes : (Task.include directory token.line argument).Becomes composer text plainText)
    (h : composer.Follows (.expand directory tokens) mid outcome after) :
    composer.Follows (.expand directory (token :: tokens)) other (outcome.prepend text) after := by
  obtain ⟨result, left, more, hrest, hleft, hpairs⟩ := h
  refine ⟨_, left, _, .replaced hrequest hinclude hrest, hleft, hpairs.prepend ?_⟩
  obtain ⟨path, source, hmodule, hsource, place, inner, plainInner, innerParts, hplace, hinner,
    rfl, rfl⟩ := hbecomes
  rintro more plainMore ⟨parts, hboth⟩
  exact ⟨_, .fetch hrequest hmodule hsource hplace hinner hboth⟩

private theorem failed (hpath : Include.path directory argument = .ok path)
    (hroom : other.stack.length < composer.maxIncludeDepth)
    (h : composer.Follows (.fetch path) (other.push path line) (.error error) after) :
    composer.Follows (.include directory line argument) other (.error error) after := by
  obtain ⟨left, log, hruns, hleft⟩ := h.of_error
  exact ⟨_, left, _, .failed hpath hroom hruns, hleft, .error rfl⟩

private theorem missing (hpath : Include.path directory argument = .ok path)
    (hroom : other.stack.length < composer.maxIncludeDepth)
    (h : composer.Follows (.fetch path) (other.push path line) (.ok none) after) :
    composer.Follows (.include directory line argument) other
      (.error (.includeNotFound path argument after.pop.stack)) after.pop := by
  obtain ⟨left, log, hruns, hleft⟩ := h.of_nothing
  rw [← hleft.pop.stack_eq]
  exact ⟨_, left.pop, _, .missing hpath hroom hruns, hleft.pop, .error rfl⟩

private theorem included (hpath : Include.path directory argument = .ok path)
    (hroom : other.stack.length < composer.maxIncludeDepth)
    (h : composer.Follows (.fetch path) (other.push path line) (.ok (some text)) after) :
    composer.Follows (.include directory line argument) other (.ok (some text)) after.pop := by
  obtain ⟨plainText, left, log, hruns, hleft, source, hsource, hcompiles⟩ := h.of_text
  refine ⟨_, left.pop, _, .included hpath hroom hruns, hleft.pop, .ok (.some ?_)⟩
  exact ⟨_, source, by rw [included?_of_path hpath, hsource]; rfl, hcompiles⟩

private theorem present
    (hsource : composer.modules.source? (ModulePath.normalize path) = some source)
    (h : composer.Follows (.compile (some (ModulePath.normalize path)) source) other outcome
      after) : composer.Follows (.fetch path) other outcome after := by
  obtain ⟨result, left, log, hruns, hleft, hpairs⟩ := h
  exact ⟨result, left, log, .present hsource hruns, hleft,
    hpairs.mono fun _ _ hcompiles => ⟨source, hsource, hcompiles⟩⟩

private theorem built {place assembled : Text} (hsource : source ≠ [])
    (hplace : composer.modules.source? place = some source)
    (hget : other.cache.get? (composer.unitKey source) = none)
    (h : composer.Follows (.expand (unitDirectory (some place)) (composer.unitTokens source))
      (other.look (composer.unitKey source)) (.ok (some assembled)) after) :
    composer.Follows (.compile (some place) source) other
      (.ok (some (composer.unitText assembled)))
      (after.store (composer.unitKey source) (composer.unitText assembled)) := by
  obtain ⟨plainInner, left, log, hruns, hleft, parts, hboth⟩ := h.of_text
  have hcompiles : composer.CompilesBoth source (composer.unitText assembled)
      (composer.withoutStages.unitText plainInner) :=
    ⟨hsource, place, assembled, plainInner, parts, hplace, hboth, rfl, rfl⟩
  exact ⟨_, _, log, .built hsource hget hruns, hleft.store hcompiles, .ok (.some hcompiles)⟩

end Follows

/-- Without stages the same run takes place.  The induction is on the run with the stages;
only the texts differ, and they are never looked at. -/
theorem Runs.withoutStages {task : Task} {work after other : Workspace} {outcome : Outcome}
    {log : List IncludeTrail} (h : composer.Runs task work outcome after log)
    (htask : task.IsModular composer) (hother : composer.Corresponds work other) :
    composer.Follows task other outcome after := by
  induction h generalizing other with
  | nil => exact ⟨_, other, _, .nil, hother, .ok (.some ⟨[], .nil⟩)⟩
  | drop hrequest _ ih => exact (ih trivial hother).drop hrequest
  | keep hrequest _ ih => exact (ih trivial hother).keep hrequest
  | replaced hrequest _ _ ihInclude ihRest =>
      obtain ⟨plainText, mid, log, hinclude, hmid, hbecomes⟩ := (ihInclude trivial hother).of_text
      exact (ihRest trivial hmid).replaced hrequest hinclude hbecomes
  | stopped hrequest _ ih =>
      obtain ⟨left, log, hruns, hleft⟩ := (ih trivial hother).of_error
      exact ⟨_, left, log, .stopped hrequest hruns, hleft, .error rfl⟩
  | refused hpath =>
      rw [← hother.stack_eq]
      exact ⟨_, other, _, .refused hpath, hother, .error rfl⟩
  | tooDeep hpath hdeep =>
      rw [← hother.stack_eq] at hdeep ⊢
      exact ⟨_, other, _, .tooDeep hpath hdeep, hother, .error rfl⟩
  | failed hpath hroom _ ih =>
      rw [← hother.stack_eq] at hroom
      exact (ih trivial (hother.push _ _)).failed hpath hroom
  | missing hpath hroom _ ih =>
      rw [← hother.stack_eq] at hroom
      exact (ih trivial (hother.push _ _)).missing hpath hroom
  | included hpath hroom _ ih =>
      rw [← hother.stack_eq] at hroom
      exact (ih trivial (hother.push _ _)).included hpath hroom
  | absent hsource => exact ⟨_, other, _, .absent hsource, hother, .ok .none⟩
  | present hsource _ ih => exact (ih ⟨_, rfl, hsource⟩ hother).present hsource
  | empty => exact ⟨_, other, _, .empty, hother, .ok .none⟩
  | hit hsource hget =>
      obtain ⟨plainText, hfound, hcompiles⟩ := hother.exists_of_get? hget
      exact ⟨_, _, _, .hit hsource hfound, hother.look _, .ok (.some hcompiles)⟩
  | built hsource hget _ ih =>
      obtain ⟨place, rfl, hplace⟩ := htask
      exact (ih trivial (hother.look _)).built hsource hplace (hother.get?_eq_none hget)
  | broken hsource hget _ ih =>
      obtain ⟨left, log, hruns, hleft⟩ := (ih trivial (hother.look _)).of_error
      exact ⟨_, left, log, .broken hsource (hother.get?_eq_none hget) hruns, hleft, .error rfl⟩

end Composer

/-! ## Calls -/

open Composer

namespace Library

def withoutStages (library : Library) : Library := { library with stages := [] }

variable {library : Library} {name : Option Text} {source : Text} {overrides : DefineSet}

private theorem process_eq_error {error : ComposeError}
    (h : library.resultOf (.process name source overrides) = .error error) :
    (library.process name source overrides).1 = .error error := by
  rw [resultOf] at h
  cases hprocess : (library.process name source overrides).1 with
  | error reason =>
      rw [hprocess] at h
      cases h
      rfl
  | ok text =>
      rw [hprocess] at h
      cases h

private theorem exists_process_eq_ok {found : Option Text}
    (h : library.resultOf (.process name source overrides) = .ok found) :
    ∃ text, found = some text ∧ (library.process name source overrides).1 = .ok text := by
  rw [resultOf] at h
  cases hprocess : (library.process name source overrides).1 with
  | error reason =>
      rw [hprocess] at h
      cases h
  | ok text =>
      rw [hprocess] at h
      cases h
      exact ⟨text, rfl, rfl⟩

private theorem corresponds_of_empty (hempty : library.cache = .empty) :
    library.toComposer.Corresponds ⟨library.cache, []⟩ ⟨library.withoutStages.cache, []⟩ := by
  refine ⟨rfl, fun source => ?_⟩
  have hplain : library.withoutStages.cache = .empty := hempty
  rw [hempty, hplain]
  exact .none

/-- With nothing cached, a call with the stages and the same call without them fail in the
same way, or each of them gives the text of the same modules: the one without the stages only
loses a marker, and the other one goes through the stages once.  Both texts are the same up to
there if there are no includes, or if the stages leave every included module as it is. -/
theorem process_runs_stages_once (library : Library) (hempty : library.cache = .empty)
    (name : Option Text) (source : Text) (overrides : DefineSet) :
    (∃ error, (library.process name source overrides).1 = .error error ∧
      (library.withoutStages.process name source overrides).1 = .error error) ∨
    ∃ staged plain parts,
      library.toComposer.ExpandsBoth (unitDirectory name)
        (library.toComposer.tokensWith overrides source) staged plain parts ∧
      (library.process name source overrides).1 =
        .ok ((library.toComposer.runStages overrides staged).replaceFirst toolingMarker []) ∧
      (library.withoutStages.process name source overrides).1 =
        .ok (plain.replaceFirst toolingMarker []) ∧
      (includeArguments (library.toComposer.tokensWith overrides source) = [] → parts = []) ∧
      ((∀ part ∈ parts, library.toComposer.runStages .empty part = part) → staged = plain) := by
  obtain ⟨outcome, after, log, hruns, hresult, -⟩ :=
    library.exists_runs (.process name source overrides) trivial
  obtain ⟨other, after', log', hplainRuns, hplainResult, -⟩ :=
    library.withoutStages.exists_runs (.process name source overrides) trivial
  obtain ⟨result, left, more, hfollows, -, hpairs⟩ :=
    hruns.withoutStages trivial (corresponds_of_empty hempty)
  obtain ⟨rfl, -, -⟩ := hplainRuns.unique hfollows
  rcases outcome with error | _ | staged
  · obtain rfl := Concur.eq_error hpairs
    exact .inl ⟨error, process_eq_error hresult, process_eq_error hplainResult⟩
  · obtain ⟨text, hnone, -⟩ := exists_process_eq_ok hresult
    cases hnone
  · obtain ⟨plain, rfl, parts, hboth⟩ := hpairs.exists_text
    obtain ⟨_, htext, hprocess⟩ := exists_process_eq_ok hresult
    obtain ⟨_, hplainText, hplain⟩ := exists_process_eq_ok hplainResult
    cases htext
    cases hplainText
    exact .inr ⟨staged, plain, parts, hboth, hprocess, hplain, hboth.parts_eq_nil,
      hboth.staged_eq⟩

/-! ## A stage that leaves a mark -/

def markedLibrary : Library :=
  ((ofSettings { includeBuiltins := false }).add "lib".toList "float a;".toList).addStage
    (.appending "\nextra();".toList)

def markedSource : Text := "#include <lib>\nvoid main();".toList

set_option maxRecDepth 10000 in
theorem process_runs_stages_once_markedSource :
    markedLibrary.cache = .empty ∧
    ∃ staged plain parts,
      markedLibrary.toComposer.ExpandsBoth (unitDirectory none)
        (markedLibrary.toComposer.tokensWith .empty markedSource) staged plain parts ∧
      (markedLibrary.process none markedSource .empty).1 =
        .ok ((markedLibrary.toComposer.runStages .empty staged).replaceFirst toolingMarker []) := by
  refine ⟨rfl, ?_⟩
  rcases process_runs_stages_once markedLibrary rfl none markedSource .empty with
    ⟨error, herror, -⟩ | ⟨staged, plain, parts, hboth, hprocess, -⟩
  · have hok : (markedLibrary.process none markedSource .empty).1.isOk = true := by
      decide +kernel
    rw [herror] at hok
    cases hok
  · exact ⟨staged, plain, parts, hboth, hprocess⟩

set_option maxRecDepth 10000 in
/-- The line stands behind the module as well, and not behind the whole unit alone. -/
theorem process_ne_stages_once_markedSource :
    markedLibrary.cache = .empty ∧
    (markedLibrary.withoutStages.process none markedSource .empty).1 =
      .ok "precision mediump float;\nfloat a;\n\nvoid main();".toList ∧
    (markedLibrary.process none markedSource .empty).1 =
      .ok "precision mediump float;\nfloat a;\nextra();\n\nvoid main();\nextra();".toList ∧
    (markedLibrary.toComposer.runStages .empty
        "precision mediump float;\nfloat a;\n\nvoid main();".toList).replaceFirst toolingMarker
          [] =
      "precision mediump float;\nfloat a;\n\nvoid main();\nextra();".toList := by
  refine ⟨rfl, ?_⟩
  decide +kernel

end Library

end GlslCompose
