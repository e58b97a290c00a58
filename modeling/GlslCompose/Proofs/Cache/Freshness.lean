import GlslCompose.Proofs.Cache.Account
import GlslCompose.Proofs.Cache.Closure
import GlslCompose.Proofs.Unit.Absence

/-!
# Entries that have stayed right

The modules, defines and stages of a library may change while its cache keeps what it has.
An entry that was stored before such a change is still right if the unit that it was stored
for stands for the same as the unit that now has its key: the same tokens, the same stages,
the same included modules.  Where this holds of all units that a compile needs, the compile
gives the same text from the cache as from nothing.
-/

namespace GlslCompose

namespace Composer

/-! ## Units that a task needs -/

def Task.Begins (composer : Composer) : Task → Option Text → Text → Prop
  | .expand directory tokens, name, source => ∃ argument ∈ includeArguments tokens, ∃ path,
      composer.included? directory argument = some (path, source) ∧ name = some path
  | .include directory _ argument, name, source => ∃ path,
      composer.included? directory argument = some (path, source) ∧ name = some path
  | .fetch path, name, source =>
      composer.modules.source? (ModulePath.normalize path) = some source ∧
        name = some (ModulePath.normalize path)
  | .compile place unit, name, source => source = unit ∧ name = place

/-- Following the includes of the task, one comes to the unit. -/
inductive Task.Needs (composer : Composer) (task : Task) : Option Text → Text → Prop where
  | begins {name : Option Text} {source : Text} (h : task.Begins composer name source) :
      Needs composer task name source
  | included {name : Option Text} {source argument path inner : Text}
      (h : Needs composer task name source)
      (hargument : argument ∈ includeArguments (composer.unitTokens source))
      (hmodule : composer.included? (unitDirectory name) argument = some (path, inner)) :
      Needs composer task (some path) inner

section Needs

variable {composer : Composer} {task other : Task} {name : Option Text} {source : Text}

theorem Task.Needs.mono (h : task.Needs composer name source)
    (hbegins : ∀ place unit, task.Begins composer place unit →
      other.Needs composer place unit) : other.Needs composer name source := by
  induction h with
  | begins h => exact hbegins _ _ h
  | included _ hargument hmodule ih => exact ih.included hargument hmodule

private theorem Task.begins_expand_cons {directory : Text} {token : Token} {tokens : List Token}
    (h : (Task.expand directory tokens).Begins composer name source) :
    (Task.expand directory (token :: tokens)).Begins composer name source := by
  obtain ⟨argument, hargument, hmodule⟩ := h
  exact ⟨argument, mem_includeArguments_cons hargument token, hmodule⟩

private theorem Task.begins_expand_first {directory argument : Text} {token : Token}
    {tokens : List Token} (hrequest : Include.request token = .fetch argument)
    (h : (Task.include directory token.line argument).Begins composer name source) :
    (Task.expand directory (token :: tokens)).Begins composer name source := by
  refine ⟨argument, ?_, h⟩
  rw [includeArguments_cons_of_fetch hrequest]
  exact List.mem_cons_self

private theorem Task.begins_include {directory argument path : Text} {line : Nat}
    (hpath : Include.path directory argument = .ok path)
    (h : (Task.fetch path).Begins composer name source) :
    (Task.include directory line argument).Begins composer name source := by
  obtain ⟨hsource, rfl⟩ := h
  refine ⟨ModulePath.normalize path, ?_, rfl⟩
  rw [included?_of_path hpath, hsource]
  rfl

private theorem Task.begins_fetch {path unit : Text}
    (hsource : composer.modules.source? (ModulePath.normalize path) = some unit)
    (h : (Task.compile (some (ModulePath.normalize path)) unit).Begins composer name source) :
    (Task.fetch path).Begins composer name source := by
  obtain ⟨rfl, rfl⟩ := h
  exact ⟨hsource, rfl⟩

private theorem Task.needs_compile {place : Option Text} {unit : Text}
    (h : (Task.expand (unitDirectory place) (composer.unitTokens unit)).Begins composer name
      source) : (Task.compile place unit).Needs composer name source := by
  obtain ⟨argument, hargument, path, hmodule, rfl⟩ := h
  exact .included (.begins ⟨rfl, rfl⟩) hargument hmodule

end Needs

/-! ## Units that stand for the same -/

/-- What one composer makes of the source at one place, the other makes of it at the other
place. -/
structure StandsFor (composer now : Composer) (place name : Option Text) (source : Text) :
    Prop where
  tokens_eq : now.unitTokens source = composer.unitTokens source
  unitText_eq : ∀ assembled, now.unitText assembled = composer.unitText assembled
  included : ∀ argument ∈ includeArguments (composer.unitTokens source), ∀ target,
    composer.included? (unitDirectory place) argument = some target →
      now.included? (unitDirectory name) argument = some target

private theorem IsLocationFree.standsFor {composer : Composer} {source : Text}
    (hfree : composer.IsLocationFree source) (place name : Option Text) :
    composer.StandsFor composer place name source := by
  refine ⟨rfl, fun _ => rfl, fun argument hargument target hmodule => ?_⟩
  rwa [composer.included?_eq_of_head? (hfree argument hargument) _ (unitDirectory place)]

private theorem unitKey_eq_of_unitKey_eq {composer now : Composer} {source : Text}
    (hkey : composer.unitKey source = now.unitKey source) (other : Text) :
    composer.unitKey other = now.unitKey other :=
  congrArg (UnitKey.mk other) (congrArg UnitKey.defines hkey)

/-! ## Entries in force -/

section Goal

variable {now composer : Composer} {goal task other : Task} {cache before after : UnitCache}

def IsCurrent (now : Composer) (goal : Task) (cache : UnitCache) : Prop :=
  ∀ name source text, goal.Needs now name source →
    cache.get? (now.unitKey source) = some text → now.Compiles .exact name source text

/-- Where the task has stored a unit under the key of a unit that the goal needs, the one
stands for the other. -/
def KeepsCurrent (composer now : Composer) (goal task : Task) (before after : UnitCache) :
    Prop :=
  ∀ place source, task.Needs composer place source →
    ¬composer.IsStored before source → composer.IsStored after source →
    ∀ name, goal.Needs now name source → composer.unitKey source = now.unitKey source →
      composer.StandsFor now place name source

private theorem isCurrent_empty (now : Composer) (goal : Task) : now.IsCurrent goal .empty := by
  intro name source text _ hget
  cases hget

theorem IsCurrent.lookup (h : now.IsCurrent goal cache) (key : UnitKey) :
    now.IsCurrent goal (cache.lookup key).2 := by
  intro name source text hneeds hget
  rw [Cache.get?_lookup] at hget
  exact h name source text hneeds hget

theorem IsCurrent.insert (h : now.IsCurrent goal cache) {unit text : Text}
    (htext : ∀ name, goal.Needs now name unit → composer.unitKey unit = now.unitKey unit →
      now.Compiles .exact name unit text) :
    now.IsCurrent goal (cache.insert (composer.unitKey unit) text) := by
  intro name source found hneeds hget
  rw [Cache.get?_insert] at hget
  split at hget
  · rename_i hkey
    cases hget
    have hsource : unit = source := congrArg UnitKey.source hkey
    subst hsource
    exact htext name hneeds hkey
  · exact h name source found hneeds hget

private theorem covers_lookup (cache : UnitCache) (key : UnitKey) :
    composer.Covers cache (cache.lookup key).2 :=
  fun _ hstored => (isStored_lookup cache key).mpr hstored

private theorem covers_insert (cache : UnitCache) (source text : Text) :
    composer.Covers cache (cache.insert (composer.unitKey source) text) :=
  fun _ hstored => (isStored_insert cache source text).mpr (.inr hstored)

theorem KeepsCurrent.mono {small large : UnitCache}
    (h : composer.KeepsCurrent now goal task before after)
    (hbefore : composer.Covers before small) (hafter : composer.Covers large after)
    (hbegins : ∀ place source, other.Begins composer place source →
      task.Needs composer place source) :
    composer.KeepsCurrent now goal other small large := by
  intro place source hplace hnone hstored
  exact h place source (hplace.mono hbegins) (mt (hbefore source) hnone) (hafter source hstored)

theorem KeepsCurrent.restrict (h : composer.KeepsCurrent now goal task before after)
    (hbegins : ∀ {place source}, other.Begins composer place source →
      task.Begins composer place source) :
    composer.KeepsCurrent now goal other before after :=
  h.mono (fun _ => id) (fun _ => id) fun _ _ hplace => .begins (hbegins hplace)

private theorem Task.IsLocationFree.of_begins (hmodules : now.HasLocationFreeModules)
    {name : Option Text} {source : Text} : {task : Task} → task.IsLocationFree now →
      task.Begins now name source → now.IsLocationFree source
  | .expand _ _, _, ⟨_, _, _, hmodule, _⟩ => hmodules.included hmodule
  | .include _ _ _, _, ⟨_, hmodule, _⟩ => hmodules.included hmodule
  | .fetch _, _, ⟨hsource, _⟩ => hmodules _ (Table.mem_of_get? hsource)
  | .compile _ _, hfree, ⟨hsource, _⟩ => hsource ▸ hfree

private theorem Task.IsLocationFree.of_needs (hmodules : now.HasLocationFreeModules)
    (hfree : task.IsLocationFree now) {name : Option Text} {source : Text}
    (h : task.Needs now name source) : now.IsLocationFree source := by
  induction h with
  | begins h => exact hfree.of_begins hmodules h
  | included _ _ hmodule _ => exact hmodules.included hmodule

theorem keepsCurrent_of_registry_ne (hpolicy : composer.cacheKey = .sourceAndDefines)
    (hnow : now.cacheKey = .sourceAndDefines) (hregistry : composer.registry ≠ now.registry) :
    composer.KeepsCurrent now goal task before after := by
  intro _ source _ _ _ _ _ hkey
  have hdefines := congrArg UnitKey.defines hkey
  simp only [unitKey, hpolicy, hnow, Option.some.injEq] at hdefines
  exact absurd hdefines hregistry

private theorem keepsCurrent_of_isLocationFree (hmodules : now.HasLocationFreeModules)
    (hfree : task.IsLocationFree now) : now.KeepsCurrent now goal task before after := by
  intro place source hneeds _ _ name _ _
  exact (hfree.of_needs hmodules hneeds).standsFor place name

/-! ## Runs that keep the entries in force -/

/-- The text that the task has given has a derivation, wherever the goal needs the units that
the task was asked for. -/
def Provides (composer now : Composer) (goal : Task) : Task → Text → Prop
  | .expand directory tokens, text => ∀ place, (∀ argument ∈ includeArguments tokens, ∀ target,
      composer.included? directory argument = some target →
        now.included? place argument = some target ∧ goal.Needs now (some target.1) target.2) →
      now.Expands .exact place tokens text
  | .include directory _ argument, text => ∃ path source,
      composer.included? directory argument = some (path, source) ∧
        (goal.Needs now (some path) source → now.Compiles .exact (some path) source text)
  | .fetch path, text => ∃ source,
      composer.modules.source? (ModulePath.normalize path) = some source ∧
        (goal.Needs now (some (ModulePath.normalize path)) source →
          now.Compiles .exact (some (ModulePath.normalize path)) source text)
  | .compile _ source, text => ∀ name, goal.Needs now name source →
      now.Compiles .exact name source text

private theorem StandsFor.compiles {place name : Option Text} {source assembled : Text}
    (h : composer.StandsFor now place name source) (hsource : source ≠ [])
    (hneeds : goal.Needs now name source)
    (hgiven : composer.Provides now goal
      (.expand (unitDirectory place) (composer.unitTokens source)) assembled) :
    now.Compiles .exact name source (composer.unitText assembled) := by
  refine ⟨hsource, name, assembled, rfl, ?_, (h.unitText_eq assembled).symm⟩
  rw [h.tokens_eq]
  refine hgiven _ fun argument hargument target htarget => ?_
  have hmodule := h.included argument hargument target htarget
  rw [← h.tokens_eq] at hargument
  exact ⟨hmodule, hneeds.included hargument hmodule⟩

structure EndsCurrent (composer now : Composer) (goal task : Task) (outcome : Outcome)
    (cache : UnitCache) : Prop where
  current : now.IsCurrent goal cache
  provides : ∀ text, outcome = .ok (some text) →
    (∀ source, composer.unitKey source = now.unitKey source) →
      composer.Provides now goal task text

namespace EndsCurrent

variable {outcome : Outcome} {error : ComposeError} {directory argument path source text : Text}
  {token : Token} {tokens : List Token} {line : Nat}

private theorem of_isCurrent (h : now.IsCurrent goal cache)
    (hnone : ∀ text, outcome ≠ .ok (some text)) :
    composer.EndsCurrent now goal task outcome cache :=
  ⟨h, fun text hok => absurd hok (hnone text)⟩

private theorem drop (hrequest : Include.request token = .nothing)
    (h : composer.EndsCurrent now goal (.expand directory tokens) outcome cache) :
    composer.EndsCurrent now goal (.expand directory (token :: tokens)) outcome cache := by
  refine ⟨h.current, fun text hok hkeys place htargets => .drop hrequest ?_⟩
  have hnone := requestedArgument?_of_nothing hrequest
  exact h.provides text hok hkeys place ((forall_includeArguments_of_none hnone _).mp htargets)

private theorem keep (hrequest : Include.request token = .keep text)
    (h : composer.EndsCurrent now goal (.expand directory tokens) outcome cache) :
    composer.EndsCurrent now goal (.expand directory (token :: tokens)) (outcome.prepend text)
      cache := by
  refine ⟨h.current, fun whole hok hkeys place htargets => ?_⟩
  obtain ⟨rest, rfl⟩ := Outcome.exists_of_prepend hok
  cases hok
  have hnone := requestedArgument?_of_keep hrequest
  exact .keep hrequest (h.provides rest rfl hkeys place
    ((forall_includeArguments_of_none hnone _).mp htargets))

private theorem replaced {mid : UnitCache} (hrequest : Include.request token = .fetch argument)
    (hinclude : composer.EndsCurrent now goal (.include directory token.line argument)
      (.ok (some text)) mid)
    (h : composer.EndsCurrent now goal (.expand directory tokens) outcome cache) :
    composer.EndsCurrent now goal (.expand directory (token :: tokens)) (outcome.prepend text)
      cache := by
  refine ⟨h.current, fun whole hok hkeys place htargets => ?_⟩
  obtain ⟨rest, rfl⟩ := Outcome.exists_of_prepend hok
  cases hok
  obtain ⟨htarget, htargets⟩ := (forall_includeArguments_of_fetch hrequest _).mp htargets
  obtain ⟨path, source, hmodule, htext⟩ := hinclude.provides text rfl hkeys
  obtain ⟨hplace, hneeds⟩ := htarget _ hmodule
  exact .fetch_of_compiles hrequest hplace (htext hneeds)
    (h.provides rest rfl hkeys place htargets)

private theorem included (hpath : Include.path directory argument = .ok path)
    (h : composer.EndsCurrent now goal (.fetch path) outcome cache) :
    composer.EndsCurrent now goal (.include directory line argument) outcome cache := by
  refine ⟨h.current, fun text hok hkeys => ?_⟩
  obtain ⟨source, hsource, htext⟩ := h.provides text hok hkeys
  exact ⟨_, source, by rw [included?_of_path hpath, hsource]; rfl, htext⟩

private theorem present
    (hsource : composer.modules.source? (ModulePath.normalize path) = some source)
    (h : composer.EndsCurrent now goal (.compile (some (ModulePath.normalize path)) source) outcome
      cache) : composer.EndsCurrent now goal (.fetch path) outcome cache :=
  ⟨h.current, fun text hok hkeys => ⟨source, hsource, h.provides text hok hkeys _⟩⟩

private theorem built {place : Option Text} {assembled : Text} (hsource : source ≠ [])
    (hget : before.get? (composer.unitKey source) = none)
    (hkeeps : composer.KeepsCurrent now goal (.compile place source) before
      (cache.insert (composer.unitKey source) (composer.unitText assembled)))
    (h : composer.EndsCurrent now goal
      (.expand (unitDirectory place) (composer.unitTokens source)) (.ok (some assembled)) cache) :
    composer.EndsCurrent now goal (.compile place source)
      (.ok (some (composer.unitText assembled)))
      (cache.insert (composer.unitKey source) (composer.unitText assembled)) := by
  have htext : ∀ name, goal.Needs now name source →
      (∀ source, composer.unitKey source = now.unitKey source) →
      now.Compiles .exact name source (composer.unitText assembled) := by
    intro name hneeds hkeys
    have hstands := hkeeps place source (.begins ⟨rfl, rfl⟩) (not_isStored_of_get? hget)
      ((isStored_insert _ _ _).mpr (.inl rfl)) name hneeds (hkeys source)
    exact hstands.compiles hsource hneeds (h.provides assembled rfl hkeys)
  constructor
  · exact h.current.insert fun name hneeds hkey =>
      htext name hneeds (unitKey_eq_of_unitKey_eq hkey)
  · intro text hok hkeys name hneeds
    cases hok
    exact htext name hneeds hkeys

end EndsCurrent

namespace Runs

variable {work later : Workspace} {outcome : Outcome} {log : List IncludeTrail}

/-- A run that stores nothing but what stands for the units in force keeps the entries right,
also when it fails.  That entries are right and that texts have derivations goes by one
induction: what is stored is right because what was given is. -/
theorem isCurrent (h : composer.Runs task work outcome later log)
    (hcurrent : now.IsCurrent goal work.cache)
    (hkeeps : composer.KeepsCurrent now goal task work.cache later.cache) :
    composer.EndsCurrent now goal task outcome later.cache := by
  induction h with
  | nil =>
      refine ⟨hcurrent, fun text hok _ place _ => ?_⟩
      cases hok
      exact .nil place
  | drop hrequest _ ih =>
      exact (ih hcurrent (hkeeps.restrict Task.begins_expand_cons)).drop hrequest
  | keep hrequest _ ih =>
      exact (ih hcurrent (hkeeps.restrict Task.begins_expand_cons)).keep hrequest
  | replaced hrequest hinclude hrest ihInclude ihRest =>
      have hfirst := ihInclude hcurrent (hkeeps.mono (fun _ => id) hrest.covers
        fun _ _ hbegins => .begins (Task.begins_expand_first hrequest hbegins))
      have hmore := ihRest hfirst.current (hkeeps.mono hinclude.covers (fun _ => id)
        fun _ _ hbegins => .begins (Task.begins_expand_cons hbegins))
      exact hfirst.replaced hrequest hmore
  | stopped hrequest _ ih =>
      have hstopped := ih hcurrent (hkeeps.restrict (Task.begins_expand_first hrequest))
      exact .of_isCurrent hstopped.current (by simp)
  | refused | tooDeep | absent | empty => exact .of_isCurrent hcurrent (by simp)
  | failed hpath _ _ ih | missing hpath _ _ ih =>
      have hfetch := ih hcurrent (hkeeps.restrict (Task.begins_include hpath))
      exact .of_isCurrent hfetch.current (by simp)
  | included hpath _ _ ih =>
      exact (ih hcurrent (hkeeps.restrict (Task.begins_include hpath))).included hpath
  | present hsource _ ih =>
      exact (ih hcurrent (hkeeps.restrict (Task.begins_fetch hsource))).present hsource
  | @hit _ source stored _ hsource hget =>
      refine ⟨hcurrent.lookup _, fun text hok hkeys name hneeds => ?_⟩
      cases hok
      rw [hkeys source] at hget
      exact hcurrent name source stored hneeds hget
  | @built _ source _ _ after _ hsource hget _ ih =>
      have hexpand := ih (hcurrent.lookup _) (hkeeps.mono (covers_lookup _ _)
        (covers_insert after.cache source _) fun _ _ => Task.needs_compile)
      exact hexpand.built hsource hget hkeeps
  | broken _ _ _ ih =>
      have hexpand := ih (hcurrent.lookup _)
        (hkeeps.mono (covers_lookup _ _) (fun _ => id) fun _ _ => Task.needs_compile)
      exact .of_isCurrent hexpand.current (by simp)

end Runs

end Goal

/-! ## Derivations and the limit -/

section Limit

variable {composer : Composer} {task : Task} {work after : Workspace} {outcome : Outcome}
  {log : List IncludeTrail}

def Task.IsDerivable (composer : Composer) : Task → Prop
  | .expand directory tokens => ∃ text, composer.Expands .exact directory tokens text
  | .include directory _ argument => ∃ path source text,
      composer.included? directory argument = some (path, source) ∧
        composer.Compiles .exact (some path) source text
  | .fetch path => ∃ source text,
      composer.modules.source? (ModulePath.normalize path) = some source ∧
        composer.Compiles .exact (some (ModulePath.normalize path)) source text
  | .compile name source => ∃ text, composer.Compiles .exact name source text

private theorem Task.isDerivable_rest {directory : Text} {token : Token} {tokens : List Token}
    (h : (Task.expand directory (token :: tokens)).IsDerivable composer) :
    (Task.expand directory tokens).IsDerivable composer := by
  obtain ⟨text, hexpands⟩ := h
  cases hexpands with
  | drop _ hrest | keep _ hrest | fetch _ _ _ _ _ hrest => exact ⟨_, hrest⟩

private theorem Task.isDerivable_first {directory argument : Text} {token : Token}
    {tokens : List Token} (hrequest : Include.request token = .fetch argument)
    (h : (Task.expand directory (token :: tokens)).IsDerivable composer) :
    (Task.include directory token.line argument).IsDerivable composer := by
  obtain ⟨text, hexpands⟩ := h
  cases hexpands with
  | drop hother | keep hother => cases hrequest.symm.trans hother
  | fetch hother hmodule hsource hplace hinner =>
      cases hrequest.symm.trans hother
      exact ⟨_, _, _, hmodule, hsource, _, _, hplace, hinner, rfl⟩

private theorem Task.isDerivable_fetch {directory argument path : Text} {line : Nat}
    (hpath : Include.path directory argument = .ok path)
    (h : (Task.include directory line argument).IsDerivable composer) :
    (Task.fetch path).IsDerivable composer := by
  obtain ⟨target, source, text, hmodule, htext⟩ := h
  rw [included?_of_path hpath] at hmodule
  obtain ⟨found, hfound, hpair⟩ := Option.map_eq_some_iff.mp hmodule
  cases hpair
  exact ⟨source, text, hfound, htext⟩

/-- Where there is a derivation, only the limit can keep a run from success, whatever is in
the cache. -/
theorem Runs.succeedsOrExceeds (h : composer.Runs task work outcome after log)
    (hderivable : task.IsDerivable composer) : outcome.SucceedsOrExceeds work.stack := by
  induction h with
  | nil => exact .inl ⟨[], rfl⟩
  | drop _ _ ih => exact ih (Task.isDerivable_rest hderivable)
  | keep _ _ ih => exact (ih (Task.isDerivable_rest hderivable)).prepend _
  | replaced _ hinclude _ _ ihRest =>
      have hend := ihRest (Task.isDerivable_rest hderivable)
      rw [hinclude.stack_of_ok rfl] at hend
      exact hend.prepend _
  | stopped hrequest _ ih => exact ih (Task.isDerivable_first hrequest hderivable)
  | refused hpath =>
      obtain ⟨_, _, _, hmodule, -⟩ := hderivable
      rw [included?, hpath] at hmodule
      cases hmodule
  | tooDeep _ _ => exact .inr ⟨[], _, _, by rw [List.append_nil]⟩
  | failed hpath _ _ ih =>
      -- The frame that was pushed is the first behind the stack.
      rcases ih (Task.isDerivable_fetch hpath hderivable) with
        ⟨text, hok⟩ | ⟨frames, path, limit, herror⟩
      · cases hok
      · rw [herror, Workspace.stack_push, List.append_assoc]
        exact .inr ⟨_, path, limit, rfl⟩
  | missing hpath _ _ ih =>
      rcases ih (Task.isDerivable_fetch hpath hderivable) with
        ⟨text, hok⟩ | ⟨frames, path, limit, herror⟩
      · cases hok
      · cases herror
  | included _ _ _ _ | hit _ _ | built _ _ _ _ => exact .inl ⟨_, rfl⟩
  | absent hnone =>
      obtain ⟨_, _, hsource, -⟩ := hderivable
      cases hnone.symm.trans hsource
  | present hsource _ ih =>
      obtain ⟨_, text, hother, htext⟩ := hderivable
      cases hsource.symm.trans hother
      exact ih ⟨text, htext⟩
  | empty =>
      obtain ⟨_, hsource, -⟩ := hderivable
      exact absurd rfl hsource
  | broken _ _ _ ih =>
      obtain ⟨_, _, _, assembled, rfl, hexpands, -⟩ := hderivable
      exact ih ⟨assembled, hexpands⟩

end Limit

end Composer

/-! ## Libraries -/

def Operation.IsPlain (composer : Composer) : Operation → Prop
  | .compile _ source => composer.IsLocationFree source
  | .process _ source overrides =>
      ∀ argument ∈ Composer.includeArguments (composer.tokensWith overrides source),
        argument.head? ≠ some '"'
  | .get _ | .preprocess _ | .isCached _ | .clearCache | .makeDefines _ => True
  | _ => False

namespace Library

open Composer

variable {library : Library} {now : Composer} {goal : Task}

/-- Whatever any of the operations stores under the key of a unit that the goal needs stands
for that unit. -/
def KeepsCurrent (now : Composer) (goal : Task) (library : Library) : List Operation → Prop
  | [] => True
  | operation :: operations =>
      (operation.ComposesUnit →
        library.toComposer.KeepsCurrent now goal (operation.task library.toComposer) library.cache
          (library.afterOperation operation).cache) ∧
      KeepsCurrent now goal (library.afterOperation operation) operations

@[simp] theorem keepsCurrent_append (library : Library) (operations more : List Operation) :
    library.KeepsCurrent now goal (operations ++ more) ↔
      library.KeepsCurrent now goal operations ∧
        (library.afterOperations operations).KeepsCurrent now goal more := by
  induction operations generalizing library with
  | nil => simp [KeepsCurrent, afterOperations]
  | cons operation operations ih =>
      simp only [List.cons_append, KeepsCurrent, ih, and_assoc]
      rfl

private theorem toComposer_of_isPlain {operation : Operation} (h : operation.IsPlain now)
    (library : Library) :
    (library.afterOperation operation).toComposer = library.toComposer := by
  cases operation with
  | compile | get | process | preprocess | isCached | clearCache | makeDefines => rfl
  | _ => exact h.elim

private theorem isLocationFree_of_isPlain {operation : Operation} (hunit : operation.ComposesUnit)
    (h : operation.IsPlain now) : (operation.task now).IsLocationFree now := by
  cases operation with
  | compile | process => exact h
  | get => trivial
  | _ => exact hunit.elim

theorem keepsCurrent_of_isPlain (hmodules : now.HasLocationFreeModules)
    (hnow : library.toComposer = now) {operations : List Operation}
    (hplain : ∀ operation ∈ operations, operation.IsPlain now) :
    library.KeepsCurrent now goal operations := by
  induction operations generalizing library with
  | nil => trivial
  | cons operation operations ih =>
      obtain ⟨hfirst, hrest⟩ := List.forall_mem_cons.mp hplain
      refine ⟨fun hunit => ?_, ih ((toComposer_of_isPlain hfirst library).trans hnow) hrest⟩
      rw [hnow]
      exact keepsCurrent_of_isLocationFree hmodules (isLocationFree_of_isPlain hunit hfirst)

private theorem isCurrent_afterOperation (hcurrent : now.IsCurrent goal library.cache)
    {operation : Operation} (hkeeps : library.KeepsCurrent now goal [operation]) :
    now.IsCurrent goal (library.afterOperation operation).cache := by
  rcases library.cache_afterOperation_cases operation with hunit | rfl | hsame
  · obtain ⟨_, _, _, hruns, hcache⟩ := library.exists_runs_of_composesUnit operation hunit
    have hstored := hkeeps.1 hunit
    rw [hcache] at hstored ⊢
    exact (hruns.isCurrent hcurrent hstored).current
  · exact isCurrent_empty now goal
  · rwa [hsame]

private theorem isCurrent_afterOperations (hcurrent : now.IsCurrent goal library.cache)
    {operations : List Operation} (hkeeps : library.KeepsCurrent now goal operations) :
    now.IsCurrent goal (library.afterOperations operations).cache := by
  induction operations generalizing library with
  | nil => exact hcurrent
  | cons operation operations ih =>
      exact ih (isCurrent_afterOperation hcurrent ⟨hkeeps.1, trivial⟩) hkeeps.2

/-- The text is the one of the unit's derivation under what the library has registered, and
the one that it gets from an empty cache, if the limit allows that. -/
structure Renews (library : Library) (name : Option Text) (source text : Text) : Prop where
  compiles : library.toComposer.Compiles .exact (some (name.getD anonymousName)) source text
  cleared : (library.clearCache.compile name source).1 = .ok (some text) ∨
    ∃ trail, Outcome.Exceeds (library.clearCache.compile name source).1 trail

def recompilation (name : Option Text) (source : Text) : List Operation :=
  [.compile name source, .clearCache, .compile name source]

private theorem compiles_of_isCurrent {name : Option Text} {source text : Text}
    (hcurrent : library.toComposer.IsCurrent (.compile (some (name.getD anonymousName)) source)
      library.cache)
    (hkeeps : library.KeepsCurrent library.toComposer
      (.compile (some (name.getD anonymousName)) source) [.compile name source])
    (hcompile : (library.compile name source).1 = .ok (some text)) :
    library.toComposer.Compiles .exact (some (name.getD anonymousName)) source text := by
  obtain ⟨outcome, after, log, hruns, hresult, hafter⟩ :=
    library.exists_runs (.compile name source) trivial
  have hkeeps' := hkeeps.1 trivial
  rw [hafter] at hkeeps'
  exact (hruns.isCurrent hcurrent hkeeps').provides text (hresult.symm.trans hcompile)
    (fun _ => rfl) _ (.begins ⟨rfl, rfl⟩)

private theorem renews_of_isCurrent {name : Option Text} {source text : Text}
    (hcurrent : library.toComposer.IsCurrent (.compile (some (name.getD anonymousName)) source)
      library.cache)
    (hkeeps : library.KeepsCurrent library.toComposer
      (.compile (some (name.getD anonymousName)) source) (recompilation name source))
    (hcompile : (library.compile name source).1 = .ok (some text)) :
    library.Renews name source text := by
  obtain ⟨hfirst, -, hagain⟩ := hkeeps
  have htext := compiles_of_isCurrent hcurrent ⟨hfirst, trivial⟩ hcompile
  refine ⟨htext, ?_⟩
  obtain ⟨outcome, after, log, hruns, hresult, -⟩ :=
    library.clearCache.exists_runs (.compile name source) trivial
  have hcleared : (library.clearCache.compile name source).1 = outcome := hresult
  rcases hruns.succeedsOrExceeds ⟨text, htext⟩ with ⟨other, rfl⟩ | ⟨trail, hexceeds⟩
  · have hother : library.clearCache.toComposer.Compiles .exact
        (some (name.getD anonymousName)) source other :=
      compiles_of_isCurrent (isCurrent_empty _ _) hagain hcleared
    rw [hcleared, hother.unique (coherent_exact _) htext]
    exact .inl rfl
  · rw [hcleared]
    exact .inr ⟨_, hexceeds⟩

theorem renews_of_compile {start : Library} {operations : List Operation} {name : Option Text}
    {source text : Text} (hempty : start.cache = .empty)
    (hkeeps : start.KeepsCurrent (start.afterOperations operations).toComposer
      (.compile (some (name.getD anonymousName)) source)
      (operations ++ recompilation name source))
    (hcompile : ((start.afterOperations operations).compile name source).1 = .ok (some text)) :
    (start.afterOperations operations).Renews name source text := by
  obtain ⟨hbefore, hafter⟩ := (keepsCurrent_append _ _ _).mp hkeeps
  have hcurrent := isCurrent_afterOperations (hempty ▸ isCurrent_empty _ _) hbefore
  exact renews_of_isCurrent hcurrent hafter hcompile

end Library

end GlslCompose
