import GlslCompose.Library.Basic
import GlslCompose.Proofs.Unit.Stack

/-!
# Levels count the room on the stack

As long as the levels that are left and the frames on the stack add up to the limit,
a composer does what the work with the stack does.  Since a composer always comes to
an end, so does that work, whatever the modules and the cache are.
-/

namespace GlslCompose.Composer

variable {composer : Composer} {α : Type}

/-- With any cache, the assembly gives and leaves what a run of the task does. -/
def Simulates (composer : Composer) (assembly : Assembly α) (given : α → Option Text)
    (task : Task) (stack : IncludeTrail) : Prop :=
  ∀ cache, ∃ after log,
    composer.Runs task ⟨cache, stack⟩ ((assembly cache).1.map given) after log ∧
      after.cache = (assembly cache).2

private theorem Simulates.of_ok {assembly : Assembly α} {given : α → Option Text} {task : Task}
    {stack : IncludeTrail} (h : composer.Simulates assembly given task stack)
    {cache mid : UnitCache} {value : α} (hrun : assembly cache = (.ok value, mid)) :
    ∃ log, composer.Runs task ⟨cache, stack⟩ (.ok (given value)) ⟨mid, stack⟩ log := by
  obtain ⟨after, log, hruns, hcache⟩ := h cache
  rw [hrun] at hruns hcache
  have hstack := hruns.stack_of_ok rfl
  obtain ⟨afterCache, afterStack⟩ := after
  cases hcache
  cases hstack
  exact ⟨log, hruns⟩

theorem Simulates.of_error {assembly : Assembly α} {given : α → Option Text} {task : Task}
    {stack : IncludeTrail} (h : composer.Simulates assembly given task stack)
    {cache mid : UnitCache} {error : ComposeError} (hrun : assembly cache = (.error error, mid)) :
    ∃ left log, composer.Runs task ⟨cache, stack⟩ (.error error) ⟨mid, left⟩ log := by
  obtain ⟨⟨afterCache, left⟩, log, hruns, hcache⟩ := h cache
  rw [hrun] at hruns hcache
  cases hcache
  exact ⟨left, log, hruns⟩

/-- There is a way to fetch as long as the stack has room, and then it fetches. -/
def HasRoom (composer : Composer) (fetch : Option Fetch) (stack : IncludeTrail) : Prop :=
  match fetch with
  | none => composer.maxIncludeDepth ≤ stack.length
  | some how => stack.length < composer.maxIncludeDepth ∧ ∀ path line,
      composer.Simulates (how path (stack.push path line)) id (.fetch path)
        (stack.push path line)

variable {fetch : Option Fetch} {stack : IncludeTrail}

private theorem simulates_expandInclude (hroom : composer.HasRoom fetch stack) (directory : Text)
    (line : Nat) (argument : Text) :
    composer.Simulates (composer.expandInclude fetch directory stack line argument) some
      (.include directory line argument) stack := by
  intro cache
  unfold expandInclude
  cases hpath : Include.path directory argument with
  | error refusal => exact ⟨_, _, .refused hpath, rfl⟩
  | ok path =>
      cases fetch with
      | none => exact ⟨_, _, .tooDeep hpath hroom, rfl⟩
      | some how =>
          obtain ⟨hless, hfetch⟩ := hroom
          have hsimulates := hfetch path line
          dsimp only
          cases hrun : how path (stack.push path line) cache with
          | mk result mid =>
              cases result with
              | error error =>
                  obtain ⟨left, log, hruns⟩ := hsimulates.of_error hrun
                  rw [Assembly.bind_error hrun]
                  exact ⟨_, _, .failed hpath hless hruns, rfl⟩
              | ok found =>
                  obtain ⟨log, hruns⟩ := hsimulates.of_ok hrun
                  have hfetched : composer.Runs (.fetch path)
                      (Workspace.push ⟨cache, stack⟩ path line) (.ok found)
                      (Workspace.push ⟨mid, stack⟩ path line) log := hruns
                  rw [Assembly.bind_ok hrun]
                  cases found with
                  | none =>
                      have hmissing := Runs.missing hpath hless hfetched
                      rw [Workspace.pop_push] at hmissing
                      exact ⟨_, _, hmissing, rfl⟩
                  | some text => exact ⟨_, _, .included hpath hless hfetched, rfl⟩

@[simp] private theorem append_apply (text : Text) (rest : Assembly Text) (cache : UnitCache) :
    (do let more ← rest; return text ++ more : Assembly Text) cache =
      ((rest cache).1.map (text ++ ·), (rest cache).2) := by
  cases hrun : rest cache with
  | mk result mid =>
      cases result with
      | ok more => exact Assembly.bind_ok hrun
      | error error => exact Assembly.bind_error hrun

private theorem map_append_map_some (text : Text) (result : Except ComposeError Text) :
    (result.map (text ++ ·)).map some = Outcome.prepend text (result.map some) := by
  cases result <;> rfl

theorem simulates_expandTokens (hroom : composer.HasRoom fetch stack) (directory : Text)
    (tokens : List Token) :
    composer.Simulates (composer.expandTokens fetch directory stack tokens) some
      (.expand directory tokens) stack := by
  induction tokens with
  | nil => exact fun cache => ⟨_, _, .nil, rfl⟩
  | cons token tokens ih =>
      intro cache
      unfold expandTokens expandToken
      cases hrequest : Include.request token with
      | nothing =>
          obtain ⟨after, log, hruns, hcache⟩ := ih cache
          rw [Assembly.bind_ok (Assembly.pure_apply _ cache), append_apply, map_append_map_some,
            Outcome.prepend_nil]
          exact ⟨after, log, .drop hrequest hruns, hcache⟩
      | keep text =>
          obtain ⟨after, log, hruns, hcache⟩ := ih cache
          rw [Assembly.bind_ok (Assembly.pure_apply _ cache), append_apply, map_append_map_some]
          exact ⟨after, log, .keep hrequest hruns, hcache⟩
      | fetch argument =>
          have hinclude := simulates_expandInclude hroom directory token.line argument
          dsimp only
          cases hrun : composer.expandInclude fetch directory stack token.line argument cache with
          | mk result mid =>
              cases result with
              | error error =>
                  obtain ⟨left, log, hruns⟩ := hinclude.of_error hrun
                  rw [Assembly.bind_error hrun]
                  exact ⟨_, _, .stopped hrequest hruns, rfl⟩
              | ok text =>
                  obtain ⟨log, hruns⟩ := hinclude.of_ok hrun
                  obtain ⟨after, more, hrest, hcache⟩ := ih mid
                  rw [Assembly.bind_ok hrun, append_apply, map_append_map_some]
                  exact ⟨after, _, .replaced hrequest hruns hrest, hcache⟩

theorem processWith_apply (composer : Composer) (fetch : Option Fetch) (name : Option Text)
    (source : Text) (overrides : DefineSet) (trail : IncludeTrail) (cache : UnitCache) :
    composer.processWith fetch name source overrides trail cache =
      ((composer.expandTokens fetch (unitDirectory name) trail
          (composer.tokensWith overrides source) cache).1.map (composer.stagedText overrides),
        (composer.expandTokens fetch (unitDirectory name) trail
          (composer.tokensWith overrides source) cache).2) := by
  cases hrun : composer.expandTokens fetch (unitDirectory name) trail
      (composer.tokensWith overrides source) cache with
  | mk result mid =>
      cases result with
      | ok assembled => exact Assembly.bind_ok hrun
      | error error => exact Assembly.bind_error hrun

@[simp] private theorem lookup_apply (key : UnitKey) (cache : UnitCache) :
    Assembly.lookup key cache = (.ok (cache.get? key), (cache.lookup key).2) := by
  rw [← Cache.fst_lookup]
  rfl

section CompileWith

variable {name : Option Text} {source : Text} {cache mid : UnitCache}

theorem compileWith_hit (hsource : source ≠ []) {text : Text}
    (hget : cache.get? (composer.unitKey source) = some text) :
    composer.compileWith fetch name source stack cache =
      (.ok (some text), (cache.lookup (composer.unitKey source)).2) := by
  unfold compileWith
  rw [if_neg hsource, Assembly.bind_ok (lookup_apply _ cache), hget]
  rfl

theorem compileWith_error (hsource : source ≠ [])
    (hget : cache.get? (composer.unitKey source) = none) {error : ComposeError}
    (hrun : composer.expandTokens fetch (unitDirectory name) stack (composer.unitTokens source)
      (cache.lookup (composer.unitKey source)).2 = (.error error, mid)) :
    composer.compileWith fetch name source stack cache = (.error error, mid) := by
  have hprocess := composer.processWith_apply fetch name (NameGuard.remove source) .empty stack
    (cache.lookup (composer.unitKey source)).2
  rw [← unitTokens, hrun] at hprocess
  unfold compileWith
  rw [if_neg hsource, Assembly.bind_ok (lookup_apply _ cache), hget]
  exact Assembly.bind_error hprocess

theorem compileWith_ok (hsource : source ≠ [])
    (hget : cache.get? (composer.unitKey source) = none) {assembled : Text}
    (hrun : composer.expandTokens fetch (unitDirectory name) stack (composer.unitTokens source)
      (cache.lookup (composer.unitKey source)).2 = (.ok assembled, mid)) :
    composer.compileWith fetch name source stack cache =
      (.ok (some (composer.unitText assembled)),
        mid.insert (composer.unitKey source) (composer.unitText assembled)) := by
  have hprocess := composer.processWith_apply fetch name (NameGuard.remove source) .empty stack
    (cache.lookup (composer.unitKey source)).2
  rw [← unitTokens, hrun] at hprocess
  unfold compileWith
  rw [if_neg hsource, Assembly.bind_ok (lookup_apply _ cache), hget]
  exact Assembly.bind_ok hprocess

end CompileWith

theorem simulates_compileWith (hroom : composer.HasRoom fetch stack) (name : Option Text)
    (source : Text) :
    composer.Simulates (composer.compileWith fetch name source stack) id
      (.compile name source) stack := by
  intro cache
  by_cases hsource : source = []
  · subst hsource
    exact ⟨_, _, .empty, rfl⟩
  · have hexpand := simulates_expandTokens hroom (unitDirectory name) (composer.unitTokens source)
    cases hget : cache.get? (composer.unitKey source) with
    | some text =>
        rw [compileWith_hit hsource hget]
        exact ⟨_, _, .hit hsource hget, rfl⟩
    | none =>
        cases hrun : composer.expandTokens fetch (unitDirectory name) stack
            (composer.unitTokens source) (cache.lookup (composer.unitKey source)).2 with
        | mk result mid =>
            cases result with
            | error error =>
                obtain ⟨left, log, hruns⟩ := hexpand.of_error hrun
                have hbroken : composer.Runs (.compile name source) ⟨cache, stack⟩ _ _ _ :=
                  .broken hsource hget hruns
                rw [compileWith_error hsource hget hrun]
                exact ⟨⟨mid, left⟩, log, hbroken, rfl⟩
            | ok assembled =>
                obtain ⟨log, hruns⟩ := hexpand.of_ok hrun
                have hbuilt : composer.Runs (.compile name source) ⟨cache, stack⟩ _ _ _ :=
                  .built hsource hget hruns
                rw [compileWith_ok hsource hget hrun]
                exact ⟨Workspace.store ⟨mid, stack⟩ _ _, log, hbuilt, rfl⟩

theorem simulates_fetchWith
    {compile : Option Text → Text → IncludeTrail → Assembly (Option Text)}
    (hcompile : ∀ name source, composer.Simulates (compile name source stack) id
      (.compile name source) stack) (path : Text) :
    composer.Simulates (composer.fetchWith compile path stack) id (.fetch path) stack := by
  intro cache
  unfold fetchWith
  cases hsource : composer.modules.source? (ModulePath.normalize path) with
  | none => exact ⟨_, _, .absent hsource, rfl⟩
  | some source =>
      obtain ⟨after, log, hruns, hcache⟩ := hcompile (some (ModulePath.normalize path)) source cache
      exact ⟨after, log, .present hsource hruns, hcache⟩

theorem compileUnit_eq_compileWith (composer : Composer) (levels : Nat) :
    composer.compileUnit levels = composer.compileWith (composer.fetch? levels) := by
  cases levels <;> rfl

theorem hasRoom_fetch? (levels : Nat) {stack : IncludeTrail}
    (hlevels : stack.length + levels = composer.maxIncludeDepth) :
    composer.HasRoom (composer.fetch? levels) stack := by
  induction levels generalizing stack with
  | zero => exact Nat.le_of_eq hlevels.symm
  | succ levels ih =>
      have hinner : ∀ path line, composer.HasRoom (composer.fetch? levels)
          (stack.push path line) := by
        intro path line
        refine ih ?_
        rw [← hlevels, IncludeTrail.push, List.length_append, List.length_singleton]
        omega
      refine And.intro (by omega) fun path line => simulates_fetchWith (fun name source => ?_) path
      rw [compileUnit_eq_compileWith]
      exact simulates_compileWith (hinner path line) name source

end GlslCompose.Composer
