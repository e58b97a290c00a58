import GlslCompose.Proofs.Cache.Closure
import GlslCompose.Proofs.Cache.Location

/-!
# The include limit and earlier calls

The limit counts the includes that are in progress, and a unit that is stored is not
walked again.  So earlier calls may keep a unit from going too deep, but only if it is
stored itself or another unit on the way down is, and they never make one go too deep.
-/

namespace GlslCompose

namespace Composer

variable {composer : Composer}

/-! ## Outcomes and chains -/

/-- The outcomes are the same but for the text. -/
abbrev Outcome.Alike : Outcome → Outcome → Prop := Outcome.Pairs fun _ _ => True

private theorem Outcome.Alike.exceeds {first second : Outcome} (h : first.Alike second)
    {trail : IncludeTrail} (hexceeds : second.Exceeds trail) : first.Exceeds trail := by
  obtain ⟨path, limit, rfl⟩ := hexceeds
  cases h with
  | error hfault => exact ⟨path, limit, congrArg Except.error hfault⟩

def Task.OnChain (composer : Composer) (task : Task) (frames : IncludeTrail) (unit : Text) :
    Prop :=
  (match task with
    | .expand _ _ | .include _ _ _ => False
    | .fetch path => composer.modules.source? (ModulePath.normalize path) = some unit
    | .compile _ source => source = unit) ∨
  ∃ frame ∈ frames, composer.modules.source? (ModulePath.normalize frame.path) = some unit

theorem Task.OnChain.fetch {name : Option Text} {path source unit : Text} {frames : IncludeTrail}
    (h : (Task.compile name source).OnChain composer frames unit)
    (hsource : composer.modules.source? (ModulePath.normalize path) = some source) :
    (Task.fetch path).OnChain composer frames unit := by
  rcases h with rfl | hframe
  · exact .inl hsource
  · exact .inr hframe

/-! ## Two runs -/

/-- The caches of two runs of one task.  The second run has started with a closed cache,
and the first with less. -/
structure Keeps (composer : Composer) (start cold warm : UnitCache) : Prop where
  covers : composer.Covers cold warm
  /-- What the second run has stored, the first has stored too. -/
  added : ∀ source, composer.IsStored warm source →
    composer.IsStored start source ∨ composer.IsStored cold source
  closed : composer.IsClosed warm

def Matches (composer : Composer) (start warm : UnitCache) (task : Task) (stack : IncludeTrail)
    (outcome : Outcome) (cold : UnitCache) : Prop :=
  ∃ other after log, composer.Runs task ⟨warm, stack⟩ other after log ∧
    outcome.Alike other ∧ composer.Keeps start cold after.cache

/-- The first run has gone too deep, below a unit that was stored from the start. -/
def IsSpared (composer : Composer) (start : UnitCache) (task : Task) (stack : IncludeTrail)
    (outcome : Outcome) : Prop :=
  ∃ frames unit, outcome.Exceeds (stack ++ frames) ∧ task.OnChain composer frames unit ∧
    composer.IsStored start unit

variable {start cold warm : UnitCache} {task : Task} {stack : IncludeTrail}

theorem Keeps.lookup (h : composer.Keeps start cold warm) (key : UnitKey) :
    composer.Keeps start (cold.lookup key).2 (warm.lookup key).2 where
  covers source hstored :=
    (isStored_lookup _ _).mpr (h.covers source ((isStored_lookup _ _).mp hstored))
  added source hstored :=
    (h.added source ((isStored_lookup _ _).mp hstored)).imp_right (isStored_lookup _ _).mpr
  closed := h.closed.lookup key

theorem Keeps.insert (h : composer.Keeps start cold warm) {directory source : Text}
    (hserved : (Task.expand directory (composer.unitTokens source)).IsServed composer warm)
    (first second : Text) :
    composer.Keeps start (cold.insert (composer.unitKey source) first)
      (warm.insert (composer.unitKey source) second) where
  covers unit hstored :=
    (isStored_insert _ _ _).mpr (((isStored_insert _ _ _).mp hstored).imp_right (h.covers unit))
  added unit hstored := by
    rcases (isStored_insert _ _ _).mp hstored with heq | hbefore
    · exact .inr ((isStored_insert _ _ _).mpr (.inl heq))
    · exact (h.added unit hbefore).imp_right fun hunit => (isStored_insert _ _ _).mpr (.inr hunit)
  closed := h.closed.insert hserved second

namespace Matches

variable {outcome : Outcome} {error : ComposeError} {directory argument path source text : Text}
  {token : Token} {tokens : List Token} {line : Nat}

private theorem of_text (h : composer.Matches start warm task stack (.ok (some text)) cold) :
    ∃ other cache log, composer.Runs task ⟨warm, stack⟩ (.ok (some other)) ⟨cache, stack⟩ log ∧
      composer.Keeps start cold cache := by
  obtain ⟨_, ⟨cache, left⟩, log, hruns, halike, hkeeps⟩ := h
  obtain ⟨other, rfl, -⟩ := halike.exists_text
  cases hruns.stack_of_ok rfl
  exact ⟨other, cache, log, hruns, hkeeps⟩

private theorem of_nothing (h : composer.Matches start warm task stack (.ok none) cold) :
    ∃ cache log, composer.Runs task ⟨warm, stack⟩ (.ok none) ⟨cache, stack⟩ log ∧
      composer.Keeps start cold cache := by
  obtain ⟨_, ⟨cache, left⟩, log, hruns, halike, hkeeps⟩ := h
  obtain rfl := halike.eq_none
  cases hruns.stack_of_ok rfl
  exact ⟨cache, log, hruns, hkeeps⟩

private theorem of_error (h : composer.Matches start warm task stack (.error error) cold) :
    ∃ after log, composer.Runs task ⟨warm, stack⟩ (.error error) after log ∧
      composer.Keeps start cold after.cache := by
  obtain ⟨_, after, log, hruns, halike, hkeeps⟩ := h
  obtain rfl := Concur.eq_error halike
  exact ⟨after, log, hruns, hkeeps⟩

private theorem drop (hrequest : Include.request token = .nothing)
    (h : composer.Matches start warm (.expand directory tokens) stack outcome cold) :
    composer.Matches start warm (.expand directory (token :: tokens)) stack outcome cold := by
  obtain ⟨other, left, log, hruns, halike⟩ := h
  exact ⟨other, left, log, .drop hrequest hruns, halike⟩

private theorem keep (hrequest : Include.request token = .keep text)
    (h : composer.Matches start warm (.expand directory tokens) stack outcome cold) :
    composer.Matches start warm (.expand directory (token :: tokens)) stack
      (outcome.prepend text) cold := by
  obtain ⟨other, left, log, hruns, halike, hafter⟩ := h
  exact ⟨_, left, log, .keep hrequest hruns, halike.prepend fun _ _ => id, hafter⟩

private theorem replaced {other : Text} {cache : UnitCache} {log : List IncludeTrail}
    (hrequest : Include.request token = .fetch argument)
    (hinclude : composer.Runs (.include directory token.line argument) ⟨warm, stack⟩
      (.ok (some other)) ⟨cache, stack⟩ log)
    (h : composer.Matches start cache (.expand directory tokens) stack outcome cold) (text : Text) :
    composer.Matches start warm (.expand directory (token :: tokens)) stack
      (outcome.prepend text) cold := by
  obtain ⟨other, left, more, hruns, halike, hafter⟩ := h
  exact ⟨_, left, _, .replaced hrequest hinclude hruns, halike.prepend fun _ _ => id, hafter⟩

private theorem stopped (hrequest : Include.request token = .fetch argument)
    (h : composer.Matches start warm (.include directory token.line argument) stack
      (.error error) cold) :
    composer.Matches start warm (.expand directory (token :: tokens)) stack (.error error)
      cold := by
  obtain ⟨left, log, hruns, hafter⟩ := h.of_error
  exact ⟨_, left, log, .stopped hrequest hruns, .error rfl, hafter⟩

private theorem failed (hpath : Include.path directory argument = .ok path)
    (hroom : stack.length < composer.maxIncludeDepth)
    (h : composer.Matches start warm (.fetch path) (stack.push path line) (.error error) cold) :
    composer.Matches start warm (.include directory line argument) stack (.error error) cold := by
  obtain ⟨left, log, hruns, hafter⟩ := h.of_error
  exact ⟨_, left, _, .failed hpath hroom hruns, .error rfl, hafter⟩

private theorem missing (hpath : Include.path directory argument = .ok path)
    (hroom : stack.length < composer.maxIncludeDepth)
    (h : composer.Matches start warm (.fetch path) (stack.push path line) (.ok none) cold) :
    composer.Matches start warm (.include directory line argument) stack
      (.error (.includeNotFound path argument (stack.push path line).dropLast)) cold := by
  obtain ⟨cache, log, hruns, hafter⟩ := h.of_nothing
  exact ⟨_, _, _, .missing hpath hroom hruns, .error rfl, hafter⟩

private theorem included (hpath : Include.path directory argument = .ok path)
    (hroom : stack.length < composer.maxIncludeDepth)
    (h : composer.Matches start warm (.fetch path) (stack.push path line) (.ok (some text))
      cold) :
    composer.Matches start warm (.include directory line argument) stack (.ok (some text))
      cold := by
  obtain ⟨other, cache, log, hruns, hafter⟩ := h.of_text
  exact ⟨_, _, _, .included hpath hroom hruns, .ok (.some trivial), hafter⟩

private theorem present
    (hsource : composer.modules.source? (ModulePath.normalize path) = some source)
    (h : composer.Matches start warm (.compile (some (ModulePath.normalize path)) source) stack
      outcome cold) : composer.Matches start warm (.fetch path) stack outcome cold := by
  obtain ⟨other, left, log, hruns, halike⟩ := h
  exact ⟨other, left, log, .present hsource hruns, halike⟩

private theorem built {name : Option Text} {assembled : Text} (hsource : source ≠ [])
    (hget : warm.get? (composer.unitKey source) = none)
    (h : composer.Matches start (warm.lookup (composer.unitKey source)).2
      (.expand (unitDirectory name) (composer.unitTokens source)) stack (.ok (some assembled))
      cold) :
    composer.Matches start warm (.compile name source) stack
      (.ok (some (composer.unitText assembled)))
      (cold.insert (composer.unitKey source) (composer.unitText assembled)) := by
  obtain ⟨other, cache, log, hruns, hafter⟩ := h.of_text
  exact ⟨_, _, _, .built hsource hget hruns, .ok (.some trivial),
    hafter.insert (hruns.isServed rfl) _ _⟩

private theorem broken {name : Option Text} (hsource : source ≠ [])
    (hget : warm.get? (composer.unitKey source) = none)
    (h : composer.Matches start (warm.lookup (composer.unitKey source)).2
      (.expand (unitDirectory name) (composer.unitTokens source)) stack (.error error) cold) :
    composer.Matches start warm (.compile name source) stack (.error error) cold := by
  obtain ⟨left, log, hruns, hafter⟩ := h.of_error
  exact ⟨_, left, log, .broken hsource hget hruns, .error rfl, hafter⟩

end Matches

private theorem not_isSpared_ok (found : Option Text) :
    ¬composer.IsSpared start task stack (.ok found) := by
  rintro ⟨frames, unit, ⟨path, limit, herror⟩, -⟩
  cases herror

theorem IsSpared.push {path directory argument : Text} {line : Nat} {outcome : Outcome}
    (h : composer.IsSpared start (.fetch path) (stack ++ [⟨path, line⟩]) outcome) :
    composer.IsSpared start (.include directory line argument) stack outcome := by
  obtain ⟨frames, unit, hexceeds, hchain, hstored⟩ := h
  rw [List.append_assoc] at hexceeds
  refine ⟨⟨path, line⟩ :: frames, unit, hexceeds, .inr ?_, hstored⟩
  rcases hchain with hpath | ⟨frame, hmem, hframe⟩
  · exact ⟨_, List.mem_cons_self, hpath⟩
  · exact ⟨frame, List.mem_cons_of_mem _ hmem, hframe⟩

theorem IsSpared.mono {other : Task} {outcome : Outcome}
    (h : composer.IsSpared start task stack outcome)
    (hchain : ∀ frames unit, task.OnChain composer frames unit →
      other.OnChain composer frames unit) : composer.IsSpared start other stack outcome := by
  obtain ⟨frames, unit, hexceeds, hunit, hstored⟩ := h
  exact ⟨frames, unit, hexceeds, hchain _ _ hunit, hstored⟩

theorem IsSpared.prepend {outcome : Outcome} (h : composer.IsSpared start task stack outcome)
    (text : Text) : composer.IsSpared start task stack (outcome.prepend text) := by
  obtain ⟨frames, unit, hexceeds, hchain⟩ := h
  exact ⟨frames, unit, hexceeds.prepend text, hchain⟩

namespace Runs

variable {work after : Workspace} {outcome : Outcome} {log : List IncludeTrail}
  {name : Option Text} {source : Text}

/-! ## A unit that only the second run finds -/

private theorem matches_of_isStored {assembled : Text} (hsource : source ≠ [])
    (hexpand : composer.Runs (.expand (unitDirectory name) (composer.unitTokens source))
      (work.look (composer.unitKey source)) (.ok (some assembled)) after log)
    (hmodules : composer.HasLocationFreeModules) (hfree : composer.IsLocationFree source)
    (hkeeps : composer.Keeps start work.cache warm) (hstored : composer.IsStored warm source) :
    composer.Matches start warm (.compile name source) work.stack
      (.ok (some (composer.unitText assembled)))
      (after.store (composer.unitKey source) (composer.unitText assembled)).cache := by
  obtain ⟨text, htext⟩ := Option.isSome_iff_exists.mp hstored
  refine ⟨_, _, _, .hit hsource htext, .ok (.some trivial), ?_⟩
  obtain ⟨hafter, -⟩ := hexpand.of_isServed hmodules hkeeps.closed (hkeeps.covers.lookup _) hfree
    (hkeeps.closed source hfree hstored _)
  have hgrown : composer.Covers work.cache
      (after.cache.insert (composer.unitKey source) (composer.unitText assembled)) :=
    fun unit hunit => (isStored_insert _ _ _).mpr
      (.inr (hexpand.covers unit ((isStored_lookup _ _).mpr hunit)))
  constructor
  · intro unit hunit
    refine (isStored_lookup _ _).mpr ?_
    rcases (isStored_insert _ _ _).mp hunit with rfl | hbefore
    · exact hstored
    · exact hafter unit hbefore
  · intro unit hunit
    exact (hkeeps.added unit ((isStored_lookup _ _).mp hunit)).imp_right (hgrown unit)
  · exact hkeeps.closed.lookup _

private theorem isSpared_of_isStored {error : ComposeError}
    (hget : work.cache.get? (composer.unitKey source) = none)
    (hexpand : composer.Runs (.expand (unitDirectory name) (composer.unitTokens source))
      (work.look (composer.unitKey source)) (.error error) after log)
    (hmodules : composer.HasLocationFreeModules) (hfree : composer.IsLocationFree source)
    (hkeeps : composer.Keeps start work.cache warm) (hstored : composer.IsStored warm source) :
    composer.IsSpared start (.compile name source) work.stack (.error error) := by
  have hstart := (hkeeps.added source hstored).resolve_right (not_isStored_of_get? hget)
  obtain ⟨-, hend⟩ := hexpand.of_isServed hmodules hkeeps.closed (hkeeps.covers.lookup _) hfree
    (hkeeps.closed source hfree hstored _)
  rcases hend with ⟨text, hok⟩ | ⟨frames, hexceeds⟩
  · cases hok
  · exact ⟨frames, source, hexceeds, .inl rfl, hstart⟩

/-! ## The second run -/

/-- The second run ends as the first one does, unless the first one goes too deep below a
unit that the second need not walk. -/
theorem matches_or_isSpared (h : composer.Runs task work outcome after log)
    (hmodules : composer.HasLocationFreeModules) (hfree : task.IsLocationFree composer)
    (hkeeps : composer.Keeps start work.cache warm) :
    composer.Matches start warm task work.stack outcome after.cache ∨
      composer.IsSpared start task work.stack outcome := by
  induction h generalizing warm with
  | nil => exact .inl ⟨_, _, _, .nil, .ok (.some trivial), hkeeps⟩
  | drop hrequest _ ih =>
      have hnone := requestedArgument?_of_nothing hrequest
      have hrest := (forall_includeArguments_of_none hnone _).mp hfree
      exact (ih hrest hkeeps).imp (Matches.drop hrequest) id
  | keep hrequest _ ih =>
      have hnone := requestedArgument?_of_keep hrequest
      have hrest := (forall_includeArguments_of_none hnone _).mp hfree
      exact (ih hrest hkeeps).imp (Matches.keep hrequest) fun hspared => hspared.prepend _
  | replaced hrequest hinclude _ ihInclude ihRest =>
      obtain ⟨hargument, hrest⟩ := (forall_includeArguments_of_fetch hrequest _).mp hfree
      obtain ⟨text, cache, log, hfound, hmid⟩ :=
        ((ihInclude hargument hkeeps).resolve_right (not_isSpared_ok _)).of_text
      rw [← hinclude.stack_of_ok rfl] at hfound ⊢
      exact (ihRest hrest hmid).imp (fun hmatches => hmatches.replaced hrequest hfound _)
        fun hspared => hspared.prepend _
  | stopped hrequest _ ih =>
      have hargument := ((forall_includeArguments_of_fetch hrequest _).mp hfree).1
      exact (ih hargument hkeeps).imp (Matches.stopped hrequest) id
  | refused hpath => exact .inl ⟨_, _, _, .refused hpath, .error rfl, hkeeps⟩
  | tooDeep hpath hdeep => exact .inl ⟨_, _, _, .tooDeep hpath hdeep, .error rfl, hkeeps⟩
  | failed hpath hroom _ ih =>
      exact (ih trivial hkeeps).imp (Matches.failed hpath hroom) IsSpared.push
  | missing hpath hroom hfetch ih =>
      have hmatches := (ih trivial hkeeps).resolve_right (not_isSpared_ok _)
      rw [Workspace.stack_pop, hfetch.stack_of_ok rfl]
      exact .inl (hmatches.missing hpath hroom)
  | included hpath hroom _ ih =>
      have hmatches := (ih trivial hkeeps).resolve_right (not_isSpared_ok _)
      exact .inl (hmatches.included hpath hroom)
  | absent hsource => exact .inl ⟨_, _, _, .absent hsource, .ok .none, hkeeps⟩
  | present hsource _ ih =>
      exact (ih (hmodules _ (Table.mem_of_get? hsource)) hkeeps).imp (Matches.present hsource)
        fun hspared => hspared.mono fun _ _ hchain => hchain.fetch hsource
  | empty => exact .inl ⟨_, _, _, .empty, .ok .none, hkeeps⟩
  | hit hsource hget =>
      obtain ⟨text, htext⟩ :=
        Option.isSome_iff_exists.mp (hkeeps.covers _ (isStored_of_get? hget))
      exact .inl ⟨_, _, _, .hit hsource htext, .ok (.some trivial), hkeeps.lookup _⟩
  | built hsource hget hexpand ih =>
      rename_i source _ _ _ _
      cases htext : warm.get? (composer.unitKey source) with
      | some text =>
          -- Only the second run has the unit, and the first one catches up.
          exact .inl (matches_of_isStored hsource hexpand hmodules hfree hkeeps
            (isStored_of_get? htext))
      | none =>
          have hmatches := (ih hfree (hkeeps.lookup _)).resolve_right (not_isSpared_ok _)
          exact .inl (hmatches.built hsource htext)
  | broken hsource hget hexpand ih =>
      rename_i source _ _ _ _
      cases htext : warm.get? (composer.unitKey source) with
      | some text =>
          exact .inr (isSpared_of_isStored hget hexpand hmodules hfree hkeeps
            (isStored_of_get? htext))
      | none =>
          exact (ih hfree (hkeeps.lookup _)).imp (Matches.broken hsource htext) fun hspared =>
            hspared.mono fun _ _ hchain => hchain.imp_left False.elim

end Runs

end Composer

/-! ## Libraries -/

namespace Library

open Composer

variable {library warm : Library} {name : Option Text} {source : Text}

private theorem isClosed_afterOperation (h : library.toComposer.IsClosed library.cache)
    (operation : Operation) :
    library.toComposer.IsClosed (library.afterOperation operation).cache := by
  rcases library.cache_afterOperation_cases operation with hunit | rfl | hsame
  · obtain ⟨_, _, _, hruns, hcache⟩ := library.exists_runs_of_composesUnit operation hunit
    rw [hcache]
    exact hruns.isClosed h
  · exact isClosed_empty _
  · rwa [hsame]

private theorem isClosed_of_composeUnits (h : library.toComposer.IsClosed library.cache)
    {operations : List Operation} (hunits : ∀ operation ∈ operations, operation.ComposesUnit) :
    library.toComposer.IsClosed (library.afterOperations operations).cache := by
  induction operations generalizing library with
  | nil => exact h
  | cons operation operations ih =>
      obtain ⟨hfirst, hrest⟩ := List.forall_mem_cons.mp hunits
      have hnext := isClosed_afterOperation h operation
      rw [← library.toComposer_of_composesUnit hfirst] at hnext ⊢
      exact ih hnext hrest

private theorem alike_or_isSpared (hclosed : warm.toComposer.IsClosed warm.cache)
    (hmodules : warm.toComposer.HasLocationFreeModules)
    (hfree : warm.toComposer.IsLocationFree source) (name : Option Text) :
    Outcome.Alike (warm.clearCache.compile name source).1 (warm.compile name source).1 ∨
      warm.toComposer.IsSpared warm.cache (.compile (some (name.getD anonymousName)) source) []
        (warm.clearCache.compile name source).1 := by
  obtain ⟨outcome, after, log, hcold, houtcome, -⟩ :=
    warm.clearCache.exists_runs (.compile name source) trivial
  obtain ⟨found, left, more, hwarm, hfound, -⟩ := warm.exists_runs (.compile name source) trivial
  have hkeeps : warm.toComposer.Keeps warm.cache .empty warm.cache :=
    ⟨fun _ hstored => absurd hstored (not_isStored_of_get? rfl), fun _ => .inl, hclosed⟩
  have hcompile : (warm.clearCache.compile name source).1 = outcome := houtcome
  have hagain : (warm.compile name source).1 = found := hfound
  rw [hcompile, hagain]
  refine (hcold.matches_or_isSpared hmodules hfree hkeeps).imp_left ?_
  rintro ⟨other, _, _, hruns, halike, -⟩
  obtain ⟨rfl, -, -⟩ := hruns.unique hwarm
  exact halike

/-- What the cache of a library does to the limit, compared with an empty one: it makes no
unit fail, and spares only units that are stored or go too deep below one that is. -/
structure KeepsLimit (warm : Library) (name : Option Text) (source : Text) : Prop where
  exceeds : ∀ trail, Outcome.Exceeds (warm.compile name source).1 trail →
    ∃ other, Outcome.Exceeds (warm.clearCache.compile name source).1 other
  alike : (∀ trail, ¬Outcome.Exceeds (warm.clearCache.compile name source).1 trail) →
    Outcome.Alike (warm.clearCache.compile name source).1 (warm.compile name source).1
  same : ∀ trail, Outcome.Exceeds (warm.clearCache.compile name source).1 trail →
    (∀ unit, (Task.compile name source).OnChain warm.toComposer trail unit →
      warm.isCached unit = false) →
    (warm.compile name source).1 = (warm.clearCache.compile name source).1

private theorem keepsLimit_of_isClosed (hclosed : warm.toComposer.IsClosed warm.cache)
    (hmodules : warm.toComposer.HasLocationFreeModules)
    (hfree : warm.toComposer.IsLocationFree source) (name : Option Text) :
    warm.KeepsLimit name source := by
  have hcases := alike_or_isSpared hclosed hmodules hfree name
  refine ⟨?_, ?_, ?_⟩
  · intro trail hexceeds
    rcases hcases with halike | ⟨frames, _, hcold, -⟩
    · exact ⟨trail, halike.exceeds hexceeds⟩
    · exact ⟨frames, hcold⟩
  · intro hnever
    rcases hcases with halike | ⟨frames, _, hcold, -⟩
    · exact halike
    · exact absurd hcold (hnever frames)
  · rintro trail ⟨path, limit, hcold⟩ hchain
    rw [hcold] at hcases ⊢
    rcases hcases with halike | ⟨frames, unit, ⟨_, _, herror⟩, hunit, hstored⟩
    · exact Concur.eq_error halike
    · cases herror
      have hcached : warm.isCached unit = true :=
        isCached_iff.mpr (Option.isSome_iff_exists.mp hstored)
      rw [hchain unit hunit] at hcached
      cases hcached

/-- Whatever was compiled or fetched before, a unit without quoted includes goes too deep only
if it does with an empty cache, and then it does unless a unit on its way down is stored. -/
theorem keepsLimit_afterQueries {queries : List Operation}
    (hqueries : ∀ query ∈ queries, query.IsQuery) (hempty : library.cache = .empty)
    (hmodules : library.toComposer.HasLocationFreeModules)
    (hfree : library.toComposer.IsLocationFree source) (name : Option Text) :
    (library.afterOperations queries).KeepsLimit name source := by
  have hunits : ∀ query ∈ queries, query.ComposesUnit := fun query hmem =>
    (hqueries query hmem).composesUnit
  have hstart : library.toComposer.IsClosed library.cache := by
    rw [hempty]
    exact isClosed_empty _
  have hclosed := isClosed_of_composeUnits hstart hunits
  rw [← library.toComposer_of_composeUnits hunits] at hclosed hmodules hfree
  exact keepsLimit_of_isClosed hclosed hmodules hfree name

/-! ## A limit of one include -/

def shallowLibrary : Library :=
  ((ofSettings { includeBuiltins := false, maxIncludeDepth := 1 }).add "outer".toList
    "#include <inner>".toList).add "inner".toList "float x;".toList

def outerUser : Text := "#include <outer>".toList

def innerFault : ComposeError :=
  .includeDepthExceeded "inner".toList 1 [⟨"outer".toList, 1⟩]

set_option maxRecDepth 10000 in
/-- The inner module is stored, but the unit and the outer module are not. -/
theorem keepsLimit_afterQueries_outerUser :
    (∀ query ∈ [Operation.get "inner".toList], query.IsQuery) ∧
    shallowLibrary.cache = .empty ∧
    shallowLibrary.toComposer.HasLocationFreeModules ∧
    shallowLibrary.toComposer.IsLocationFree outerUser ∧
    (shallowLibrary.afterOperations [.get "inner".toList]).isCached "float x;".toList = true ∧
    (shallowLibrary.afterOperations [.get "inner".toList]).KeepsLimit none outerUser ∧
    ((shallowLibrary.afterOperations [.get "inner".toList]).compile none outerUser).1 =
      .error innerFault := by
  obtain ⟨hmodules, hfree, hcold, hinner, houterUser, houter, houterModule⟩ :
      shallowLibrary.toComposer.HasLocationFreeModules ∧
      shallowLibrary.toComposer.IsLocationFree outerUser ∧
      ((shallowLibrary.afterOperations [.get "inner".toList]).clearCache.compile none
        outerUser).1 = .error innerFault ∧
      (shallowLibrary.afterOperations [.get "inner".toList]).isCached "float x;".toList = true ∧
      (shallowLibrary.afterOperations [.get "inner".toList]).isCached outerUser = false ∧
      (shallowLibrary.afterOperations [.get "inner".toList]).modules.source?
        (ModulePath.normalize "outer".toList) = some "#include <inner>".toList ∧
      (shallowLibrary.afterOperations [.get "inner".toList]).isCached
        "#include <inner>".toList = false := by
    decide +kernel
  have hqueries : ∀ query ∈ [Operation.get "inner".toList], query.IsQuery :=
    List.forall_mem_singleton.mpr trivial
  have hkeeps := keepsLimit_afterQueries hqueries rfl hmodules hfree none
  refine ⟨hqueries, rfl, hmodules, hfree, hinner, hkeeps, ?_⟩
  rw [← hcold]
  refine hkeeps.same [⟨"outer".toList, 1⟩] ⟨_, _, hcold⟩ ?_
  rintro unit (rfl | ⟨frame, hframe, hunit⟩)
  · exact houterUser
  · cases List.mem_singleton.mp hframe
    cases houter.symm.trans hunit
    exact houterModule

set_option maxRecDepth 10000 in
/-- Once the outer module is stored, a unit may include it. -/
theorem not_exceeds_afterQueries_outerUser :
    shallowLibrary.cache = .empty ∧
    shallowLibrary.toComposer.HasLocationFreeModules ∧
    shallowLibrary.toComposer.IsLocationFree outerUser ∧
    ((shallowLibrary.afterOperations [.get "outer".toList]).clearCache.compile none outerUser).1 =
      .error innerFault ∧
    ((shallowLibrary.afterOperations [.get "outer".toList]).compile none outerUser).1 =
      .ok (some "precision mediump float;\nfloat x;\n".toList) := by
  decide +kernel

end Library

end GlslCompose
