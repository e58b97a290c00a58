import GlslCompose.Proofs.Cache.Account

/-!
# Caches that are closed under includes

A unit is stored after everything that it includes, and no unit is ever taken away.  So
below a stored unit all modules are stored.  Where the unit is compiled once more, with less
in the cache, it leads to no other units, and only the limit can stop it.
-/

namespace GlslCompose

namespace Composer

variable {composer : Composer} {cache small large : UnitCache} {source : Text}

/-! ## Stored units -/

def IsStored (composer : Composer) (cache : UnitCache) (source : Text) : Prop :=
  (cache.get? (composer.unitKey source)).isSome

/-- Whatever is stored in the small cache is stored in the large one. -/
def Covers (composer : Composer) (small large : UnitCache) : Prop :=
  ∀ source, composer.IsStored small source → composer.IsStored large source

@[simp] private theorem unitKey_inj {first second : Text} :
    composer.unitKey first = composer.unitKey second ↔ first = second :=
  ⟨congrArg UnitKey.source, congrArg composer.unitKey⟩

theorem isStored_of_get? {text : Text} (hget : cache.get? (composer.unitKey source) = some text) :
    composer.IsStored cache source :=
  Option.isSome_of_mem hget

theorem not_isStored_of_get? (hget : cache.get? (composer.unitKey source) = none) :
    ¬composer.IsStored cache source := by
  rw [IsStored, hget]
  exact Bool.false_ne_true

@[simp] theorem isStored_lookup (cache : UnitCache) (key : UnitKey) :
    composer.IsStored (cache.lookup key).2 source ↔ composer.IsStored cache source := by
  unfold IsStored
  rw [Cache.get?_lookup]

@[simp] theorem isStored_insert (cache : UnitCache) (stored text : Text) :
    composer.IsStored (cache.insert (composer.unitKey stored) text) source ↔
      stored = source ∨ composer.IsStored cache source := by
  unfold IsStored
  rw [Cache.get?_insert]
  by_cases hsource : stored = source
  · simp [hsource]
  · rw [if_neg (mt unitKey_inj.mp hsource)]
    simp [hsource]

theorem covers_of_growsTo (h : small.GrowsTo large) : composer.Covers small large := by
  intro source hstored
  obtain ⟨text, htext⟩ := Option.isSome_iff_exists.mp hstored
  exact isStored_of_get? (h _ text htext)

theorem Covers.lookup (h : composer.Covers small large) (key : UnitKey) :
    composer.Covers (small.lookup key).2 large :=
  fun source hstored => h source ((isStored_lookup small key).mp hstored)

/-! ## Served tasks -/

def Serves (composer : Composer) (cache : UnitCache) (directory argument : Text) : Prop :=
  ∃ target ∈ composer.included? directory argument,
    target.2 ≠ [] ∧ composer.IsStored cache target.2

theorem Serves.mono {directory argument : Text} (h : composer.Serves small directory argument)
    (hcovers : composer.Covers small large) : composer.Serves large directory argument := by
  obtain ⟨target, hmodule, hne, hstored⟩ := h
  exact ⟨target, hmodule, hne, hcovers _ hstored⟩

namespace Task

def IsServed (composer : Composer) (cache : UnitCache) : Task → Prop
  | .expand directory tokens =>
      ∀ argument ∈ includeArguments tokens, composer.Serves cache directory argument
  | .include directory _ argument => composer.Serves cache directory argument
  | .fetch path => ∃ source ∈ composer.modules.source? (ModulePath.normalize path),
      source ≠ [] ∧ composer.IsStored cache source
  | .compile _ source => source ≠ [] ∧ composer.IsStored cache source

def IsLocationFree (composer : Composer) : Task → Prop
  | .expand _ tokens => ∀ argument ∈ includeArguments tokens, argument.head? ≠ some '"'
  | .include _ _ argument => argument.head? ≠ some '"'
  | .fetch _ => True
  | .compile _ source => composer.IsLocationFree source

theorem isServed_include_iff {directory argument path : Text} {line : Nat}
    (hpath : Include.path directory argument = .ok path) :
    (Task.include directory line argument).IsServed composer cache ↔
      (Task.fetch path).IsServed composer cache := by
  simp only [IsServed, Serves, included?_of_path hpath, Option.mem_def, Option.map_eq_some_iff]
  constructor
  · rintro ⟨_, ⟨source, hsource, rfl⟩, hstored⟩
    exact ⟨source, hsource, hstored⟩
  · rintro ⟨source, hsource, hstored⟩
    exact ⟨_, ⟨source, hsource, rfl⟩, hstored⟩

end Task

/-! ## Tokens and outcomes -/

section Tokens

variable {token : Token} {holds : Text → Prop}

theorem requestedArgument?_of_nothing (h : Include.request token = .nothing) :
    requestedArgument? token = none := by
  rw [requestedArgument?, h]

theorem requestedArgument?_of_keep {text : Text} (h : Include.request token = .keep text) :
    requestedArgument? token = none := by
  rw [requestedArgument?, h]

theorem forall_includeArguments_of_none (hrequest : requestedArgument? token = none)
    (tokens : List Token) :
    (∀ argument ∈ includeArguments (token :: tokens), holds argument) ↔
      ∀ argument ∈ includeArguments tokens, holds argument := by
  rw [includeArguments, List.filterMap_cons_none hrequest, includeArguments]

theorem forall_includeArguments_of_fetch {argument : Text}
    (hrequest : Include.request token = .fetch argument) (tokens : List Token) :
    (∀ other ∈ includeArguments (token :: tokens), holds other) ↔
      holds argument ∧ ∀ other ∈ includeArguments tokens, holds other := by
  rw [includeArguments_cons_of_fetch hrequest, List.forall_mem_cons]

end Tokens

namespace Outcome

variable {outcome : Outcome} {text : Text}

theorem exists_of_prepend {found : Text} (h : outcome.prepend text = .ok (some found)) :
    ∃ rest, outcome = .ok (some rest) := by
  rcases outcome with error | (_ | rest)
  · cases h
  · cases h
  · exact ⟨rest, rfl⟩

def Exceeds (outcome : Outcome) (trail : IncludeTrail) : Prop :=
  ∃ path limit, outcome = .error (.includeDepthExceeded path limit trail)

theorem Exceeds.prepend {trail : IncludeTrail} (h : outcome.Exceeds trail) (text : Text) :
    (outcome.prepend text).Exceeds trail := by
  obtain ⟨path, limit, rfl⟩ := h
  exact ⟨path, limit, rfl⟩

def SucceedsOrExceeds (outcome : Outcome) (stack : IncludeTrail) : Prop :=
  (∃ text, outcome = .ok (some text)) ∨ ∃ frames, outcome.Exceeds (stack ++ frames)

theorem SucceedsOrExceeds.prepend {stack : IncludeTrail} (h : outcome.SucceedsOrExceeds stack)
    (text : Text) : (outcome.prepend text).SucceedsOrExceeds stack := by
  rcases h with ⟨rest, rfl⟩ | ⟨frames, hexceeds⟩
  · exact .inl ⟨text ++ rest, rfl⟩
  · exact .inr ⟨frames, hexceeds.prepend text⟩

end Outcome

/-! ## Closed caches -/

/-- Whatever a stored unit without quoted includes asks for is stored as well. -/
def IsClosed (composer : Composer) (cache : UnitCache) : Prop :=
  ∀ source, composer.IsLocationFree source → composer.IsStored cache source →
    ∀ directory, (Task.expand directory (composer.unitTokens source)).IsServed composer cache

theorem isClosed_empty (composer : Composer) : composer.IsClosed .empty :=
  fun _ _ hstored => absurd hstored (not_isStored_of_get? rfl)

theorem IsClosed.lookup (h : composer.IsClosed cache) (key : UnitKey) :
    composer.IsClosed (cache.lookup key).2 := by
  intro source hfree hstored directory argument hargument
  refine (h source hfree ((isStored_lookup _ _).mp hstored) directory argument hargument).mono ?_
  exact fun _ hother => (isStored_lookup _ _).mpr hother

theorem IsClosed.insert (h : composer.IsClosed cache) {place : Text}
    (hserved : (Task.expand place (composer.unitTokens source)).IsServed composer cache)
    (text : Text) : composer.IsClosed (cache.insert (composer.unitKey source) text) := by
  intro other hfree hstored directory argument hargument
  have hcovers : composer.Covers cache (cache.insert (composer.unitKey source) text) :=
    fun _ hbefore => (isStored_insert _ _ _).mpr (.inr hbefore)
  rcases (isStored_insert _ _ _).mp hstored with rfl | hbefore
  · have hplace := hserved argument hargument
    rw [Serves, composer.included?_eq_of_head? (hfree argument hargument) place directory] at hplace
    exact Serves.mono hplace hcovers
  · exact (h other hfree hbefore directory argument hargument).mono hcovers

namespace Runs

variable {task : Task} {work after : Workspace} {outcome : Outcome} {log : List IncludeTrail}

theorem covers (h : composer.Runs task work outcome after log) :
    composer.Covers work.cache after.cache :=
  covers_of_growsTo h.growsTo

theorem isServed (h : composer.Runs task work outcome after log) {text : Text}
    (hok : outcome = .ok (some text)) : task.IsServed composer after.cache := by
  induction h generalizing text with
  | nil => exact fun _ hargument => nomatch hargument
  | drop hrequest _ ih =>
      have hnone := requestedArgument?_of_nothing hrequest
      exact (forall_includeArguments_of_none hnone _).mpr (ih hok)
  | keep hrequest _ ih =>
      have hnone := requestedArgument?_of_keep hrequest
      obtain ⟨rest, rfl⟩ := Outcome.exists_of_prepend hok
      exact (forall_includeArguments_of_none hnone _).mpr (ih rfl)
  | replaced hrequest _ hrest ihInclude ihRest =>
      obtain ⟨rest, rfl⟩ := Outcome.exists_of_prepend hok
      exact (forall_includeArguments_of_fetch hrequest _).mpr
        ⟨(ihInclude rfl).mono hrest.covers, ihRest rfl⟩
  | stopped | refused | tooDeep | failed | missing | absent | empty | broken => cases hok
  | included hpath _ _ ih => exact (Task.isServed_include_iff hpath).mpr (ih rfl)
  | present hsource _ ih => exact ⟨_, hsource, ih hok⟩
  | hit hsource hget =>
      exact ⟨hsource, (isStored_lookup _ _).mpr (isStored_of_get? hget)⟩
  | built hsource _ _ ih => exact ⟨hsource, (isStored_insert _ _ _).mpr (.inl rfl)⟩

theorem isClosed (h : composer.Runs task work outcome after log)
    (hclosed : composer.IsClosed work.cache) : composer.IsClosed after.cache := by
  induction h with
  | nil | refused | tooDeep | absent | empty => exact hclosed
  | drop _ _ ih | keep _ _ ih | stopped _ _ ih | present _ _ ih => exact ih hclosed
  | failed _ _ _ ih | missing _ _ _ ih | included _ _ _ ih => exact ih hclosed
  | replaced _ _ _ ihInclude ihRest => exact ihRest (ihInclude hclosed)
  | hit => exact hclosed.lookup _
  | broken _ _ _ ih => exact ih (hclosed.lookup _)
  | built _ _ hexpand ih => exact (ih (hclosed.lookup _)).insert (hexpand.isServed rfl) _

/-- A task that a closed cache serves stores nothing else, from any smaller cache, and only
the limit can keep it from success. -/
theorem of_isServed (h : composer.Runs task work outcome after log)
    (hmodules : composer.HasLocationFreeModules) (hclosed : composer.IsClosed large)
    (hcovers : composer.Covers work.cache large) (hfree : task.IsLocationFree composer)
    (hserved : task.IsServed composer large) :
    composer.Covers after.cache large ∧ outcome.SucceedsOrExceeds work.stack := by
  induction h with
  | nil => exact ⟨hcovers, .inl ⟨[], rfl⟩⟩
  | drop hrequest _ ih =>
      have hnone := requestedArgument?_of_nothing hrequest
      exact ih hcovers ((forall_includeArguments_of_none hnone _).mp hfree)
        ((forall_includeArguments_of_none hnone _).mp hserved)
  | keep hrequest _ ih =>
      have hnone := requestedArgument?_of_keep hrequest
      obtain ⟨hafter, hend⟩ := ih hcovers ((forall_includeArguments_of_none hnone _).mp hfree)
        ((forall_includeArguments_of_none hnone _).mp hserved)
      exact ⟨hafter, hend.prepend _⟩
  | replaced hrequest hinclude _ ihInclude ihRest =>
      obtain ⟨hargumentFree, hrestFree⟩ := (forall_includeArguments_of_fetch hrequest _).mp hfree
      obtain ⟨hargument, hrest⟩ := (forall_includeArguments_of_fetch hrequest _).mp hserved
      obtain ⟨hmid, -⟩ := ihInclude hcovers hargumentFree hargument
      obtain ⟨hafter, hend⟩ := ihRest hmid hrestFree hrest
      rw [hinclude.stack_of_ok rfl] at hend
      exact ⟨hafter, hend.prepend _⟩
  | stopped hrequest _ ih =>
      exact ih hcovers ((forall_includeArguments_of_fetch hrequest _).mp hfree).1
        ((forall_includeArguments_of_fetch hrequest _).mp hserved).1
  | refused hpath =>
      obtain ⟨target, hmodule, -⟩ := hserved
      rw [included?, hpath] at hmodule
      cases hmodule
  | tooDeep _ _ => exact ⟨hcovers, .inr ⟨[], _, _, by rw [List.append_nil]⟩⟩
  | failed hpath _ _ ih =>
      -- The frame that was pushed is the first behind the stack.
      obtain ⟨hafter, hend⟩ := ih hcovers trivial ((Task.isServed_include_iff hpath).mp hserved)
      rcases hend with ⟨text, hok⟩ | ⟨frames, path, limit, herror⟩
      · cases hok
      · rw [herror, Workspace.stack_push, List.append_assoc]
        exact ⟨hafter, .inr ⟨_, path, limit, rfl⟩⟩
  | missing hpath _ _ ih =>
      obtain ⟨-, hend⟩ := ih hcovers trivial ((Task.isServed_include_iff hpath).mp hserved)
      rcases hend with ⟨text, hok⟩ | ⟨frames, path, limit, herror⟩
      · cases hok
      · cases herror
  | included hpath _ _ ih =>
      obtain ⟨hafter, -⟩ := ih hcovers trivial ((Task.isServed_include_iff hpath).mp hserved)
      exact ⟨hafter, .inl ⟨_, rfl⟩⟩
  | absent hnone =>
      obtain ⟨source, hsource, -⟩ := hserved
      rw [hnone] at hsource
      cases hsource
  | present hsource _ ih =>
      obtain ⟨source, hother, hstored⟩ := hserved
      cases hsource.symm.trans hother
      exact ih hcovers (hmodules _ (Table.mem_of_get? hsource)) hstored
  | empty => exact absurd rfl hserved.1
  | hit _ _ => exact ⟨hcovers.lookup _, .inl ⟨_, rfl⟩⟩
  | built _ _ _ ih =>
      -- The large cache has the unit, so it serves all that the unit asks for.
      obtain ⟨hafter, -⟩ := ih (hcovers.lookup _) hfree (hclosed _ hfree hserved.2 _)
      refine ⟨fun other hstored => ?_, .inl ⟨_, rfl⟩⟩
      rcases (isStored_insert _ _ _).mp hstored with rfl | hbefore
      · exact hserved.2
      · exact hafter other hbefore
  | broken _ _ _ ih =>
      exact ih (hcovers.lookup _) hfree (hclosed _ hfree hserved.2 _)

end Runs

end Composer

end GlslCompose
