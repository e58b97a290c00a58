import GlslCompose.Proofs.Outcome
import GlslCompose.Proofs.Unit.Derivation

/-!
# The include stack

A composer hands the trail of includes down and counts the levels that are left.
Here the same work is told with one stack that every include pushes to and pops
from, and with no bound but the check that stands before the push.  `Runs` is a
step-by-step account of that work: a derivation is a run that ends, and it records
the stack after every push and pop.

A push is undone only where the include succeeds or names no module.  After a
failure further down the frame stays, so the stack is restored by runs that succeed
and by no others.
-/

namespace GlslCompose

structure Workspace where
  cache : UnitCache
  stack : IncludeTrail

namespace Workspace

def push (work : Workspace) (path : Text) (line : Nat) : Workspace :=
  { work with stack := work.stack.push path line }

def pop (work : Workspace) : Workspace := { work with stack := work.stack.dropLast }

def look (work : Workspace) (key : UnitKey) : Workspace :=
  { work with cache := (work.cache.lookup key).2 }

def store (work : Workspace) (key : UnitKey) (text : Text) : Workspace :=
  { work with cache := work.cache.insert key text }

@[simp] theorem stack_push (work : Workspace) (path : Text) (line : Nat) :
    (work.push path line).stack = work.stack ++ [⟨path, line⟩] := rfl

private theorem length_push_le {work : Workspace} {limit : Nat} (hroom : work.stack.length < limit)
    (path : Text) (line : Nat) : (work.push path line).stack.length ≤ limit := by
  rw [stack_push, List.length_append]
  exact hroom

@[simp] theorem stack_pop (work : Workspace) : work.pop.stack = work.stack.dropLast := rfl

@[simp] theorem pop_push (work : Workspace) (path : Text) (line : Nat) :
    (work.push path line).pop = work := by
  simp [push, pop, IncludeTrail.push]

@[simp] theorem stack_look (work : Workspace) (key : UnitKey) :
    (work.look key).stack = work.stack := rfl

@[simp] theorem stack_store (work : Workspace) (key : UnitKey) (text : Text) :
    (work.store key text).stack = work.stack := rfl

end Workspace

namespace Composer

inductive Task where
  | expand (directory : Text) (tokens : List Token)
  | include (directory : Text) (line : Nat) (argument : Text)
  | fetch (path : Text)
  | compile (name : Option Text) (source : Text)

abbrev Outcome := Except ComposeError (Option Text)

def Outcome.prepend (text : Text) (outcome : Outcome) : Outcome :=
  outcome.map (Option.map (text ++ ·))

@[simp] theorem Outcome.prepend_nil (outcome : Outcome) : outcome.prepend [] = outcome := by
  rcases outcome with error | (_ | text) <;> rfl

theorem Outcome.eq_error_of_prepend {text : Text} {outcome : Outcome} {error : ComposeError}
    (h : outcome.prepend text = .error error) : outcome = .error error := by
  cases outcome with
  | ok found => cases h
  | error reason => exact h

private theorem Outcome.isOk_of_prepend {text : Text} {outcome : Outcome} {found : Option Text}
    (h : outcome.prepend text = .ok found) : ∃ rest, outcome = .ok rest := by
  cases outcome with
  | ok rest => exact ⟨rest, rfl⟩
  | error reason => cases h

/-- Both fail in the same way, or both give nothing, or they give texts that agree. -/
abbrev Outcome.Pairs (agree : Text → Text → Prop) : Outcome → Outcome → Prop :=
  Concur Eq (Option.Rel agree)

section Pairs

variable {agree weaker : Text → Text → Prop} {outcome result : Outcome} {text other : Text}

theorem Outcome.Pairs.mono (h : outcome.Pairs agree result)
    (hweaker : ∀ text other, agree text other → weaker text other) :
    outcome.Pairs weaker result :=
  Concur.mono h fun _ _ hfound => rel_mono hfound hweaker

theorem Outcome.Pairs.prepend (h : outcome.Pairs agree result)
    (hweaker : ∀ more others, agree more others → weaker (text ++ more) (other ++ others)) :
    (outcome.prepend text).Pairs weaker (result.prepend other) := by
  refine Concur.map h fun _ _ hfound => ?_
  cases hfound with
  | none => exact .none
  | some hagree => exact .some (hweaker _ _ hagree)

theorem Outcome.Pairs.eq_none (h : Outcome.Pairs agree (.ok none) result) :
    result = .ok none := by
  cases h with
  | ok hfound =>
      cases hfound
      rfl

theorem Outcome.Pairs.exists_text (h : Outcome.Pairs agree (.ok (some text)) result) :
    ∃ other, result = .ok (some other) ∧ agree text other := by
  cases h with
  | ok hfound =>
      cases hfound with
      | some hagree => exact ⟨_, rfl, hagree⟩

end Pairs

/-- A run of a task: what it gives, what it leaves, and the stacks in between. -/
inductive Runs (composer : Composer) :
    Task → Workspace → Outcome → Workspace → List IncludeTrail → Prop where
  | nil {directory : Text} {work : Workspace} :
      Runs composer (.expand directory []) work (.ok (some [])) work []
  | drop {directory : Text} {token : Token} {tokens : List Token} {work after : Workspace}
      {outcome : Outcome} {log : List IncludeTrail}
      (hrequest : Include.request token = .nothing)
      (hrest : Runs composer (.expand directory tokens) work outcome after log) :
      Runs composer (.expand directory (token :: tokens)) work outcome after log
  | keep {directory : Text} {token : Token} {tokens : List Token} {work after : Workspace}
      {outcome : Outcome} {log : List IncludeTrail} {text : Text}
      (hrequest : Include.request token = .keep text)
      (hrest : Runs composer (.expand directory tokens) work outcome after log) :
      Runs composer (.expand directory (token :: tokens)) work (outcome.prepend text) after log
  | replaced {directory : Text} {token : Token} {tokens : List Token}
      {work mid after : Workspace} {outcome : Outcome} {log more : List IncludeTrail}
      {argument text : Text} (hrequest : Include.request token = .fetch argument)
      (hinclude : Runs composer (.include directory token.line argument) work (.ok (some text))
        mid log)
      (hrest : Runs composer (.expand directory tokens) mid outcome after more) :
      Runs composer (.expand directory (token :: tokens)) work (outcome.prepend text) after
        (log ++ more)
  | stopped {directory : Text} {token : Token} {tokens : List Token} {work after : Workspace}
      {error : ComposeError} {log : List IncludeTrail} {argument : Text}
      (hrequest : Include.request token = .fetch argument)
      (hinclude : Runs composer (.include directory token.line argument) work (.error error)
        after log) :
      Runs composer (.expand directory (token :: tokens)) work (.error error) after log
  | refused {directory argument : Text} {line : Nat} {work : Workspace}
      {refusal : Include.Refusal} (hpath : Include.path directory argument = .error refusal) :
      Runs composer (.include directory line argument) work
        (.error (.includeSyntax refusal.found refusal.expected work.stack)) work []
  | tooDeep {directory argument path : Text} {line : Nat} {work : Workspace}
      (hpath : Include.path directory argument = .ok path)
      (hdeep : composer.maxIncludeDepth ≤ work.stack.length) :
      Runs composer (.include directory line argument) work
        (.error (.includeDepthExceeded path composer.maxIncludeDepth work.stack)) work []
  | failed {directory argument path : Text} {line : Nat} {work after : Workspace}
      {error : ComposeError} {log : List IncludeTrail}
      (hpath : Include.path directory argument = .ok path)
      (hroom : work.stack.length < composer.maxIncludeDepth)
      (hfetch : Runs composer (.fetch path) (work.push path line) (.error error) after log) :
      Runs composer (.include directory line argument) work (.error error) after
        ((work.push path line).stack :: log)
  | missing {directory argument path : Text} {line : Nat} {work after : Workspace}
      {log : List IncludeTrail} (hpath : Include.path directory argument = .ok path)
      (hroom : work.stack.length < composer.maxIncludeDepth)
      (hfetch : Runs composer (.fetch path) (work.push path line) (.ok none) after log) :
      Runs composer (.include directory line argument) work
        (.error (.includeNotFound path argument after.pop.stack)) after.pop
        ((work.push path line).stack :: (log ++ [after.pop.stack]))
  | included {directory argument path text : Text} {line : Nat} {work after : Workspace}
      {log : List IncludeTrail} (hpath : Include.path directory argument = .ok path)
      (hroom : work.stack.length < composer.maxIncludeDepth)
      (hfetch : Runs composer (.fetch path) (work.push path line) (.ok (some text)) after log) :
      Runs composer (.include directory line argument) work (.ok (some text)) after.pop
        ((work.push path line).stack :: (log ++ [after.pop.stack]))
  | absent {path : Text} {work : Workspace}
      (hsource : composer.modules.source? (ModulePath.normalize path) = none) :
      Runs composer (.fetch path) work (.ok none) work []
  | present {path source : Text} {work after : Workspace} {outcome : Outcome}
      {log : List IncludeTrail}
      (hsource : composer.modules.source? (ModulePath.normalize path) = some source)
      (hcompile : Runs composer (.compile (some (ModulePath.normalize path)) source) work outcome
        after log) :
      Runs composer (.fetch path) work outcome after log
  | empty {name : Option Text} {work : Workspace} :
      Runs composer (.compile name []) work (.ok none) work []
  | hit {name : Option Text} {source text : Text} {work : Workspace} (hsource : source ≠ [])
      (hget : work.cache.get? (composer.unitKey source) = some text) :
      Runs composer (.compile name source) work (.ok (some text))
        (work.look (composer.unitKey source)) []
  | built {name : Option Text} {source assembled : Text} {work after : Workspace}
      {log : List IncludeTrail} (hsource : source ≠ [])
      (hget : work.cache.get? (composer.unitKey source) = none)
      (hexpand : Runs composer (.expand (unitDirectory name) (composer.unitTokens source))
        (work.look (composer.unitKey source)) (.ok (some assembled)) after log) :
      Runs composer (.compile name source) work (.ok (some (composer.unitText assembled)))
        (after.store (composer.unitKey source) (composer.unitText assembled)) log
  | broken {name : Option Text} {source : Text} {work after : Workspace}
      {error : ComposeError} {log : List IncludeTrail} (hsource : source ≠ [])
      (hget : work.cache.get? (composer.unitKey source) = none)
      (hexpand : Runs composer (.expand (unitDirectory name) (composer.unitTokens source))
        (work.look (composer.unitKey source)) (.error error) after log) :
      Runs composer (.compile name source) work (.error error) after log

/-! ## Include targets -/

def HasTarget (directory : Text) (tokens : List Token) (path : Text) (line : Nat) : Prop :=
  ∃ token ∈ tokens, ∃ argument, Include.request token = .fetch argument ∧
    token.line = line ∧ Include.path directory argument = .ok path

theorem HasTarget.cons {directory : Text} {tokens : List Token} {path : Text} {line : Nat}
    (h : HasTarget directory tokens path line) (token : Token) :
    HasTarget directory (token :: tokens) path line := by
  obtain ⟨other, hmem, hother⟩ := h
  exact ⟨other, List.mem_cons_of_mem token hmem, hother⟩

namespace Task

/-- The unit that a task works on includes the path, on the given line.  The empty source
and a path without a module include nothing. -/
def Targets (composer : Composer) : Task → Text → Nat → Prop
  | .expand directory tokens, path, line => HasTarget directory tokens path line
  | .include directory number argument, path, line =>
      number = line ∧ Include.path directory argument = .ok path
  | .fetch module, path, line => ∃ source,
      composer.modules.source? (ModulePath.normalize module) = some source ∧ source ≠ [] ∧
        HasTarget (unitDirectory (some (ModulePath.normalize module)))
          (composer.unitTokens source) path line
  | .compile name source, path, line => source ≠ [] ∧
      HasTarget (unitDirectory name) (composer.unitTokens source) path line

/-- Every frame has a target of the unit before it, and the path is a target of the last
one. -/
def Chain (composer : Composer) : Task → IncludeTrail → Text → Prop
  | task, [], path => ∃ line, task.Targets composer path line
  | task, frame :: trail, path => task.Targets composer frame.path frame.line ∧
      Chain composer (.fetch frame.path) trail path

variable {composer : Composer}

theorem Chain.mono {task other : Task} {trail : IncludeTrail} {path : Text}
    (h : task.Chain composer trail path)
    (htargets : ∀ target line, task.Targets composer target line →
      other.Targets composer target line) : other.Chain composer trail path := by
  cases trail with
  | nil =>
      obtain ⟨line, htarget⟩ := h
      exact ⟨line, htargets _ _ htarget⟩
  | cons frame trail => exact ⟨htargets _ _ h.1, h.2⟩

/-- The report that includes are nested too deep has as many frames as the limit allows.
Those behind the frames of the start lead to the path that was not included. -/
structure Reports (composer : Composer) (task : Task) (start : IncludeTrail) (path : Text)
    (limit : Nat) (trail : IncludeTrail) : Prop where
  limit_eq : limit = composer.maxIncludeDepth
  length_eq : trail.length = composer.maxIncludeDepth
  chain : ∃ frames, trail = start ++ frames ∧ task.Chain composer frames path

theorem Reports.mono {task other : Task} {start trail : IncludeTrail} {path : Text}
    {limit : Nat} (h : task.Reports composer start path limit trail)
    (htargets : ∀ target line, task.Targets composer target line →
      other.Targets composer target line) : other.Reports composer start path limit trail := by
  obtain ⟨hlimit, hlength, frames, htrail, hchain⟩ := h
  exact ⟨hlimit, hlength, frames, htrail, hchain.mono htargets⟩

end Task

namespace Runs

variable {composer : Composer} {task : Task} {work after : Workspace} {outcome : Outcome}
  {log : List IncludeTrail}

/-! ## One run -/

theorem unique {other : Outcome} {after' : Workspace} {log' : List IncludeTrail}
    (h : composer.Runs task work outcome after log)
    (hother : composer.Runs task work other after' log') :
    other = outcome ∧ after' = after ∧ log' = log := by
  induction h generalizing other after' log' with
  | nil =>
      cases hother
      exact ⟨rfl, rfl, rfl⟩
  | drop hrequest _ ih => cases hother <;> grind
  | keep hrequest _ ih => cases hother <;> grind
  | replaced hrequest _ _ ihInclude ihRest => cases hother <;> grind
  | stopped hrequest _ ih => cases hother <;> grind
  | refused hpath => cases hother <;> grind
  | tooDeep hpath hdeep => cases hother <;> grind
  | failed hpath hroom _ ih => cases hother <;> grind
  | missing hpath hroom _ ih => cases hother <;> grind
  | included hpath hroom _ ih => cases hother <;> grind
  | absent hsource => cases hother <;> grind
  | present hsource _ ih => cases hother <;> grind
  | empty => cases hother <;> grind
  | hit hsource hget => cases hother <;> grind
  | built hsource hget _ ih => cases hother <;> grind
  | broken hsource hget _ ih => cases hother <;> grind

/-! ## The stack -/

theorem stack_of_ok (h : composer.Runs task work outcome after log) {found : Option Text}
    (hok : outcome = .ok found) : after.stack = work.stack := by
  induction h generalizing found with
  | nil | absent | empty | hit => rfl
  | drop _ _ ih | present _ _ ih => exact ih hok
  | keep _ _ ih =>
      obtain ⟨rest, hrest⟩ := Outcome.isOk_of_prepend hok
      exact ih hrest
  | replaced _ _ _ ihInclude ihRest =>
      obtain ⟨rest, hrest⟩ := Outcome.isOk_of_prepend hok
      exact (ihRest hrest).trans (ihInclude rfl)
  | included _ _ _ ih => simp [ih rfl]
  | built _ _ _ ih => exact ih rfl
  | stopped | refused | tooDeep | failed | missing | broken => cases hok

theorem length_le_of_mem_log (h : composer.Runs task work outcome after log)
    (hwork : work.stack.length ≤ composer.maxIncludeDepth) {stack : IncludeTrail}
    (hmem : stack ∈ log) : stack.length ≤ composer.maxIncludeDepth := by
  induction h with
  | nil | refused | tooDeep | absent | empty | hit => cases hmem
  | drop _ _ ih | keep _ _ ih | stopped _ _ ih | present _ _ ih => exact ih hwork hmem
  | built _ _ _ ih | broken _ _ _ ih => exact ih hwork hmem
  | replaced _ hinclude _ ihInclude ihRest =>
      rcases List.mem_append.mp hmem with hmem | hmem
      · exact ihInclude hwork hmem
      · exact ihRest (by rwa [hinclude.stack_of_ok rfl]) hmem
  | failed _ hroom _ ih =>
      rcases List.mem_cons.mp hmem with rfl | hmem
      · exact Workspace.length_push_le hroom _ _
      · exact ih (Workspace.length_push_le hroom _ _) hmem
  | missing _ hroom hfetch ih | included _ hroom hfetch ih =>
      rcases List.mem_cons.mp hmem with rfl | hmem
      · exact Workspace.length_push_le hroom _ _
      · rcases List.mem_append.mp hmem with hmem | hmem
        · exact ih (Workspace.length_push_le hroom _ _) hmem
        · rw [List.mem_singleton.mp hmem, Workspace.stack_pop, hfetch.stack_of_ok rfl]
          simpa using hwork

theorem reports_of_depthExceeded (h : composer.Runs task work outcome after log)
    (hwork : work.stack.length ≤ composer.maxIncludeDepth) {path : Text} {limit : Nat}
    {trail : IncludeTrail} (herror : outcome = .error (.includeDepthExceeded path limit trail)) :
    task.Reports composer work.stack path limit trail := by
  induction h with
  | nil | refused | missing | included | absent | empty | hit | built => cases herror
  | drop _ _ ih => exact (ih hwork herror).mono fun _ _ htarget => HasTarget.cons htarget _
  | keep _ _ ih =>
      exact (ih hwork (Outcome.eq_error_of_prepend herror)).mono fun _ _ htarget =>
        HasTarget.cons htarget _
  | replaced _ hinclude _ _ ihRest =>
      have hstack := hinclude.stack_of_ok rfl
      rw [← hstack] at hwork ⊢
      exact (ihRest hwork (Outcome.eq_error_of_prepend herror)).mono fun _ _ htarget =>
        HasTarget.cons htarget _
  | stopped hrequest _ ih =>
      refine (ih hwork herror).mono ?_
      rintro target line ⟨hline, hpath⟩
      exact ⟨_, List.mem_cons_self, _, hrequest, hline, hpath⟩
  | tooDeep hpath hdeep =>
      cases herror
      exact ⟨rfl, Nat.le_antisymm hwork hdeep, [], (List.append_nil _).symm, _, rfl, hpath⟩
  | failed hpath hroom _ ih =>
      -- The frame that was pushed is the first of the chain.
      obtain ⟨hlimit, hlength, frames, htrail, hchain⟩ :=
        ih (Workspace.length_push_le hroom _ _) herror
      refine ⟨hlimit, hlength, _ :: frames, htrail.trans (List.append_assoc _ _ _), ?_⟩
      exact ⟨⟨rfl, hpath⟩, hchain⟩
  | present hsource _ ih =>
      refine (ih hwork herror).mono ?_
      rintro target line ⟨hne, htarget⟩
      exact ⟨_, hsource, hne, htarget⟩
  | broken hsource _ _ ih =>
      exact (ih hwork herror).mono fun _ _ htarget => ⟨hsource, htarget⟩

end Runs

end Composer

end GlslCompose
