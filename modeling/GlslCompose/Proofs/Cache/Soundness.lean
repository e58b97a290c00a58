import GlslCompose.Library.Basic
import GlslCompose.Proofs.Unit.Derivation
import GlslCompose.Proofs.Unit.Ensures

/-!
# Sound caches

A cache is sound for a collection of units if each of these units that it answers
for has the cached text by a derivation.  Every computation on units of the
collection keeps the cache sound, also when it fails, and gives only text that has
a derivation.  The collection must be closed under includes, and units that share
a key must share their texts.
-/

namespace GlslCompose

/-! ## Empty and other sources -/

@[simp] private theorem Composer.compileUnit_nil (composer : Composer) (levels : Nat)
    (name : Option Text)
    (trail : IncludeTrail) : composer.compileUnit levels name [] trail = pure none := by
  cases levels <;> rfl

theorem Composer.compileUnit_ensures_isSome (composer : Composer) (levels : Nat)
    (name : Option Text) {source : Text} (hsource : source ≠ []) (trail : IncludeTrail) :
    (composer.compileUnit levels name source trail).Ensures (fun _ => True)
      fun found => found.isSome := by
  have hwith : ∀ fetch, (composer.compileWith fetch name source trail).Ensures (fun _ => True)
      fun found => found.isSome := by
    intro fetch
    unfold compileWith
    rw [if_neg hsource]
    refine Assembly.ensures_bind (Assembly.ensures_true _) fun found _ => ?_
    cases found with
    | some text => exact Assembly.ensures_pure rfl
    | none =>
        refine Assembly.ensures_bind (Assembly.ensures_true _) fun processed _ => ?_
        refine Assembly.ensures_bind (Assembly.ensures_true _) fun _ _ => ?_
        exact Assembly.ensures_pure rfl
  cases levels <;> exact hwith _

@[simp] theorem Library.compile_nil (library : Library) (name : Option Text) :
    (library.compile name []).1 = .ok none := by
  unfold Library.compile Library.assemble Composer.compile
  rw [Composer.compileUnit_nil]
  rfl

theorem Library.isSome_of_compile {library : Library} {name found : Option Text} {source : Text}
    (hsource : source ≠ []) (hcompile : (library.compile name source).1 = .ok found) :
    found.isSome :=
  (library.toComposer.compileUnit_ensures_isSome library.maxIncludeDepth
    (some (name.getD Composer.anonymousName)) hsource [] library.cache trivial).2 found hcompile

/-! ## Families of units -/

/-- A collection of units of one or more composers, for which a cache can be sound. -/
structure UnitFamily (placement : Placement) where
  Has : Composer → Option Text → Text → Prop
  /-- A unit may be read at its own place. -/
  placed : ∀ {composer name source}, Has composer name source → placement name source name
  included : ∀ {composer name source}, Has composer name source →
    ∀ argument ∈ Composer.includeArguments (composer.unitTokens source),
    ∀ {path inner},
      composer.included? (Composer.unitDirectory name) argument = some (path, inner) →
      Has composer (some path) inner
  /-- Units with the same key have the same texts. -/
  exchange : ∀ {composer other name place source inner text}, Has composer name source →
    Has other place inner → composer.unitKey source = other.unitKey inner →
    composer.Compiles placement name source text → other.Compiles placement place inner text

namespace UnitFamily

variable {placement : Placement} (family : UnitFamily placement)

def Sound (cache : UnitCache) : Prop :=
  ∀ ⦃composer name source text⦄, family.Has composer name source →
    cache.get? (composer.unitKey source) = some text →
    composer.Compiles placement name source text

theorem sound_empty : family.Sound .empty := by
  intro composer name source text _ hget
  simp at hget

private theorem sound_insert {cache : UnitCache} (hsound : family.Sound cache) {composer : Composer}
    {name : Option Text} {source text : Text} (hhas : family.Has composer name source)
    (htext : composer.Compiles placement name source text) :
    family.Sound (cache.insert (composer.unitKey source) text) := by
  intro other place inner found hother hget
  rw [Cache.get?_insert] at hget
  split at hget
  · rename_i hkey
    cases hget
    exact family.exchange hhas hother hkey htext
  · exact hsound hother hget

private theorem lookup_ensures {composer : Composer} {name : Option Text} {source : Text}
    (hhas : family.Has composer name source) :
    (Assembly.lookup (composer.unitKey source)).Ensures family.Sound fun found =>
      ∀ text, found = some text → composer.Compiles placement name source text := by
  intro cache hsound
  constructor
  · intro other place inner text hother hget
    exact hsound hother ((cache.get?_lookup _ _).symm.trans hget)
  · rintro _ ⟨rfl⟩ text hfound
    exact hsound hhas ((cache.fst_lookup _).symm.trans hfound)

private theorem store_ensures {composer : Composer} {name : Option Text} {source text : Text}
    (hhas : family.Has composer name source)
    (htext : composer.Compiles placement name source text) :
    (Assembly.store (composer.unitKey source) text).Ensures family.Sound fun _ => True := by
  intro cache hsound
  exact ⟨family.sound_insert hsound hhas htext, fun _ _ => trivial⟩

/-! ## Includes -/

def Fetches (composer : Composer) (fetch : Fetch) : Prop :=
  ∀ directory argument path trail, Include.path directory argument = .ok path →
    (∀ target source, composer.included? directory argument = some (target, source) →
      family.Has composer (some target) source) →
    (fetch path trail).Ensures family.Sound fun found => ∀ text, found = some text →
      ∃ target source, composer.included? directory argument = some (target, source) ∧
        composer.Compiles placement (some target) source text

variable {family} {composer : Composer} {fetch : Option Fetch}

private theorem expandInclude_ensures (hfetch : ∀ how ∈ fetch, family.Fetches composer how)
    {directory argument : Text}
    (hmodule : ∀ target source, composer.included? directory argument = some (target, source) →
      family.Has composer (some target) source) (trail : IncludeTrail) (line : Nat) :
    (composer.expandInclude fetch directory trail line argument).Ensures family.Sound
      fun text => ∃ target source,
        composer.included? directory argument = some (target, source) ∧
        composer.Compiles placement (some target) source text := by
  unfold Composer.expandInclude
  split
  · exact Assembly.ensures_fail _ _
  · rename_i path hpath
    cases fetch with
    | none => exact Assembly.ensures_fail _ _
    | some how =>
        refine Assembly.ensures_bind
          (hfetch how rfl directory argument path (trail.push path line) hpath hmodule) ?_
        intro found hfound
        cases found with
        | none => exact Assembly.ensures_fail _ _
        | some text => exact Assembly.ensures_pure (hfound text rfl)

private theorem expandTokens_ensures (hfetch : ∀ how ∈ fetch, family.Fetches composer how)
    {directory : Text} (trail : IncludeTrail) {tokens : List Token}
    (hmodules : ∀ argument ∈ Composer.includeArguments tokens, ∀ target source,
      composer.included? directory argument = some (target, source) →
      family.Has composer (some target) source) :
    (composer.expandTokens fetch directory trail tokens).Ensures family.Sound
      fun text => composer.Expands placement directory tokens text := by
  induction tokens with
  | nil => exact Assembly.ensures_pure (.nil directory)
  | cons token tokens ih =>
      have hrest := ih fun argument hmem =>
        hmodules argument (Composer.mem_includeArguments_cons hmem token)
      unfold Composer.expandTokens Composer.expandToken
      cases hrequest : Include.request token with
      | nothing =>
          refine Assembly.ensures_bind (Assembly.ensures_pure (rfl : [] = [])) ?_
          rintro _ rfl
          refine Assembly.ensures_bind hrest fun more hmore => ?_
          exact Assembly.ensures_pure (.drop hrequest hmore)
      | keep text =>
          refine Assembly.ensures_bind (Assembly.ensures_pure (rfl : text = text)) ?_
          rintro _ rfl
          refine Assembly.ensures_bind hrest fun more hmore => ?_
          exact Assembly.ensures_pure (.keep hrequest hmore)
      | fetch argument =>
          have hargument : argument ∈ Composer.includeArguments (token :: tokens) := by
            rw [Composer.includeArguments_cons_of_fetch hrequest]
            exact List.mem_cons_self
          refine Assembly.ensures_bind
            (expandInclude_ensures hfetch (hmodules argument hargument) trail token.line) ?_
          rintro text ⟨target, source, hmodule, htext⟩
          refine Assembly.ensures_bind hrest fun more hmore => ?_
          exact Assembly.ensures_pure (.fetch_of_compiles hrequest hmodule htext hmore)

/-! ## Units -/

theorem processWith_ensures (hfetch : ∀ how ∈ fetch, family.Fetches composer how)
    (name : Option Text) (source : Text) (overrides : DefineSet) (trail : IncludeTrail)
    (hmodules : ∀ argument ∈ Composer.includeArguments (composer.tokensWith overrides source),
      ∀ target inner,
        composer.included? (Composer.unitDirectory name) argument = some (target, inner) →
        family.Has composer (some target) inner) :
    (composer.processWith fetch name source overrides trail).Ensures family.Sound
      fun text => ∃ assembled,
        composer.Expands placement (Composer.unitDirectory name)
          (composer.tokensWith overrides source) assembled ∧
        text = composer.stagedText overrides assembled := by
  refine Assembly.ensures_bind (expandTokens_ensures hfetch trail hmodules) ?_
  intro assembled hexpands
  exact Assembly.ensures_pure ⟨assembled, hexpands, rfl⟩

private theorem compileWith_ensures (hfetch : ∀ how ∈ fetch, family.Fetches composer how)
    {name : Option Text} {source : Text} (hhas : family.Has composer name source)
    (trail : IncludeTrail) :
    (composer.compileWith fetch name source trail).Ensures family.Sound
      fun found => ∀ text, found = some text →
        composer.Compiles placement name source text := by
  unfold Composer.compileWith
  split
  · exact Assembly.ensures_pure fun text hfound => by cases hfound
  · rename_i hsource
    refine Assembly.ensures_bind (family.lookup_ensures hhas) fun found hfound => ?_
    cases found with
    | some text => exact Assembly.ensures_pure hfound
    | none =>
        refine Assembly.ensures_bind (processWith_ensures hfetch name (NameGuard.remove source)
          .empty trail fun argument hmem target inner hmodule =>
            family.included hhas argument hmem hmodule) ?_
        rintro processed ⟨assembled, hexpands, rfl⟩
        have htext : composer.Compiles placement name source (composer.unitText assembled) :=
          ⟨hsource, name, assembled, family.placed hhas, hexpands, rfl⟩
        refine Assembly.ensures_bind (family.store_ensures hhas htext) fun _ _ => ?_
        refine Assembly.ensures_pure ?_
        rintro _ ⟨rfl⟩
        exact htext

private theorem fetchWith_fetches
    {compile : Option Text → Text → IncludeTrail → Assembly (Option Text)}
    (hcompile : ∀ name source trail, family.Has composer name source →
      (compile name source trail).Ensures family.Sound fun found => ∀ text,
        found = some text → composer.Compiles placement name source text) :
    family.Fetches composer (composer.fetchWith compile) := by
  intro directory argument path trail hpath hmodule
  unfold Composer.included? at hmodule ⊢
  simp only [hpath, Option.map_eq_some_iff] at hmodule ⊢
  cases hsource : composer.modules.source? (ModulePath.normalize path) with
  | none =>
      simp only [Composer.fetchWith, hsource]
      exact Assembly.ensures_pure fun text hfound => by cases hfound
  | some source =>
      simp only [Composer.fetchWith, hsource]
      have hhas := hmodule _ source ⟨source, hsource, rfl⟩
      refine (hcompile _ source trail hhas).mono ?_
      intro found hfound text htext
      exact ⟨_, source, ⟨source, rfl, rfl⟩, hfound text htext⟩

theorem compileUnit_ensures (levels : Nat) {name : Option Text} {source : Text}
    (hhas : family.Has composer name source) (trail : IncludeTrail) :
    (composer.compileUnit levels name source trail).Ensures family.Sound
      fun found => ∀ text, found = some text →
        composer.Compiles placement name source text := by
  induction levels generalizing name source trail with
  | zero => exact compileWith_ensures (fun how hhow => by cases hhow) hhas trail
  | succ levels ih =>
      refine compileWith_ensures ?_ hhas trail
      rintro _ ⟨rfl⟩
      exact fetchWith_fetches fun name source trail hhas => ih hhas trail

theorem fetch?_fetches (levels : Nat) :
    ∀ how ∈ composer.fetch? levels, family.Fetches composer how := by
  cases levels with
  | zero => exact fun how hhow => by cases hhow
  | succ levels =>
      rintro _ ⟨rfl⟩
      exact fetchWith_fetches fun name source trail hhas =>
        compileUnit_ensures levels hhas trail

/-! ## Libraries -/

variable {library : Library}

theorem sound_assemble {α : Type} {assembly : Assembly α} {post : α → Prop}
    (hassembly : assembly.Ensures family.Sound post) (hsound : family.Sound library.cache) :
    family.Sound (library.assemble assembly).2.cache ∧
      ∀ value, (library.assemble assembly).1 = .ok value → post value :=
  hassembly library.cache hsound

theorem sound_compile (hsound : family.Sound library.cache) {name : Option Text} {source : Text}
    (hhas : family.Has library.toComposer (some (name.getD Composer.anonymousName)) source) :
    family.Sound (library.compile name source).2.cache ∧
      ∀ found, (library.compile name source).1 = .ok found → ∀ text, found = some text →
        library.toComposer.Compiles placement (some (name.getD Composer.anonymousName))
          source text :=
  sound_assemble (compileUnit_ensures library.maxIncludeDepth hhas []) hsound

theorem sound_get (hsound : family.Sound library.cache) {path : Text}
    (hhas : ∀ source, library.modules.source? (ModulePath.normalize path) = some source →
      family.Has library.toComposer (some (ModulePath.normalize path)) source) :
    family.Sound (library.get path).2.cache := by
  have hget : (library.toComposer.get path).Ensures family.Sound fun _ => True := by
    unfold Composer.get Composer.fetchWith
    dsimp only
    split
    · exact Assembly.ensures_pure trivial
    · rename_i source hsource
      exact (compileUnit_ensures library.maxIncludeDepth (hhas source hsource) []).mono
        fun _ _ => trivial
  exact (sound_assemble hget hsound).1

theorem sound_process (hsound : family.Sound library.cache) (name : Option Text)
    (source : Text) (overrides : DefineSet)
    (hmodules : ∀ argument ∈ Composer.includeArguments
        (library.toComposer.tokensWith overrides source), ∀ target inner,
      library.toComposer.included? (Composer.unitDirectory name) argument =
        some (target, inner) → family.Has library.toComposer (some target) inner) :
    family.Sound (library.process name source overrides).2.cache :=
  (sound_assemble (processWith_ensures (fetch?_fetches library.maxIncludeDepth) name source
    overrides [] hmodules) hsound).1

end UnitFamily

end GlslCompose
