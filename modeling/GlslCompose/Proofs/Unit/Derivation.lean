import GlslCompose.Library.Composer

/-!
# The meaning of a unit

What text a unit stands for is said here without the cache and without a limit
on how deep includes nest.  `Expands` relates the tokens of a unit to the text
that they become, by a derivation in which every include has a derivation of its
own; `Compiles` relates a source to its compiled text.

Quoted includes make the text depend on the place of the unit.  A placement says
at which places a unit may be read: at the very place under which it is asked for
(`Placement.exact`), or at any place of a given collection of units that has the
same source (`Placement.anyOf`).
-/

namespace GlslCompose

/-- Whether a source that is asked for under a name may be read at a place. -/
abbrev Placement := Option Text → Text → Option Text → Prop

namespace Placement

def exact : Placement := fun name _ place => place = name

def anyOf (units : Option Text → Text → Prop) : Placement := fun _ source place =>
  units place source

end Placement

namespace Composer

def included? (composer : Composer) (directory argument : Text) : Option (Text × Text) :=
  match Include.path directory argument with
  | .error _ => none
  | .ok path =>
      (composer.modules.source? (ModulePath.normalize path)).map fun source =>
        (ModulePath.normalize path, source)

def tokensWith (composer : Composer) (overrides : DefineSet) (source : Text) : List Token :=
  Token.tokenize composer.version ((composer.registry.merge overrides).inject source)

def unitTokens (composer : Composer) (source : Text) : List Token :=
  composer.tokensWith .empty (NameGuard.remove source)

def stagedText (composer : Composer) (overrides : DefineSet) (assembled : Text) : Text :=
  (composer.runStages overrides assembled).replaceFirst toolingMarker []

def unitText (composer : Composer) (assembled : Text) : Text :=
  composer.finishUnit (composer.stagedText .empty assembled)

def requestedArgument? (token : Token) : Option Text :=
  match Include.request token with
  | .fetch argument => some argument
  | _ => none

def includeArguments (tokens : List Token) : List Text := tokens.filterMap requestedArgument?

theorem includeArguments_cons_of_fetch {token : Token} {argument : Text}
    (hrequest : Include.request token = .fetch argument) (tokens : List Token) :
    includeArguments (token :: tokens) = argument :: includeArguments tokens := by
  simp [includeArguments, requestedArgument?, hrequest]

theorem mem_includeArguments_cons {argument : Text} {tokens : List Token}
    (hmem : argument ∈ includeArguments tokens) (token : Token) :
    argument ∈ includeArguments (token :: tokens) := by
  simp only [includeArguments, List.mem_filterMap] at hmem ⊢
  obtain ⟨other, hother, hrequest⟩ := hmem
  exact ⟨other, List.mem_cons_of_mem token hother, hrequest⟩

/-! ## Derivations -/

inductive Expands (composer : Composer) (placement : Placement) :
    Text → List Token → Text → Prop where
  | nil (directory : Text) : Expands composer placement directory [] []
  | drop {directory : Text} {token : Token} {tokens : List Token} {more : Text}
      (hrequest : Include.request token = .nothing)
      (hrest : Expands composer placement directory tokens more) :
      Expands composer placement directory (token :: tokens) more
  | keep {directory : Text} {token : Token} {tokens : List Token} {text more : Text}
      (hrequest : Include.request token = .keep text)
      (hrest : Expands composer placement directory tokens more) :
      Expands composer placement directory (token :: tokens) (text ++ more)
  /-- The module that is included must not be empty. -/
  | fetch {directory : Text} {token : Token} {tokens : List Token}
      {argument path source inner more : Text} {place : Option Text}
      (hrequest : Include.request token = .fetch argument)
      (hmodule : composer.included? directory argument = some (path, source))
      (hsource : source ≠ [])
      (hplace : placement (some path) source place)
      (hinner : Expands composer placement (unitDirectory place)
        (composer.unitTokens source) inner)
      (hrest : Expands composer placement directory tokens more) :
      Expands composer placement directory (token :: tokens)
        (composer.unitText inner ++ more)

def Compiles (composer : Composer) (placement : Placement) (name : Option Text)
    (source text : Text) : Prop :=
  source ≠ [] ∧ ∃ place assembled, placement name source place ∧
    composer.Expands placement (unitDirectory place) (composer.unitTokens source) assembled ∧
    text = composer.unitText assembled

theorem Expands.fetch_of_compiles {composer : Composer} {placement : Placement}
    {directory : Text} {token : Token} {tokens : List Token}
    {argument path source text more : Text}
    (hrequest : Include.request token = .fetch argument)
    (hmodule : composer.included? directory argument = some (path, source))
    (htext : composer.Compiles placement (some path) source text)
    (hrest : composer.Expands placement directory tokens more) :
    composer.Expands placement directory (token :: tokens) (text ++ more) := by
  obtain ⟨hsource, place, assembled, hplace, hinner, rfl⟩ := htext
  exact .fetch hrequest hmodule hsource hplace hinner hrest

/-! ## Uniqueness -/

/-- Two directories agree on arguments if none names a module in one directory
and a different module in the other. -/
def Agree (composer : Composer) (first second : Text) (arguments : List Text) : Prop :=
  ∀ argument ∈ arguments, ∀ target ∈ composer.included? first argument,
    ∀ other ∈ composer.included? second argument, target = other

instance (composer : Composer) (first second : Text) (arguments : List Text) :
    Decidable (composer.Agree first second arguments) :=
  inferInstanceAs (Decidable (∀ argument ∈ arguments,
    ∀ target ∈ composer.included? first argument,
      ∀ other ∈ composer.included? second argument, target = other))

private theorem agree_refl (composer : Composer) (directory : Text) (arguments : List Text) :
    composer.Agree directory directory arguments := by
  intro argument _ target htarget other hother
  exact Option.mem_unique htarget hother

theorem Agree.of_cons {composer : Composer} {first second : Text} {token : Token}
    {tokens : List Token}
    (h : composer.Agree first second (includeArguments (token :: tokens))) :
    composer.Agree first second (includeArguments tokens) := by
  intro argument hargument
  exact h argument (mem_includeArguments_cons hargument token)

/-- Wherever a unit may be read, its includes name the same modules. -/
def Coherent (composer : Composer) (placement : Placement) : Prop :=
  ∀ name source place other, source ≠ [] → placement name source place →
    placement name source other →
      composer.Agree (unitDirectory place) (unitDirectory other)
        (includeArguments (composer.unitTokens source))

theorem coherent_exact (composer : Composer) : composer.Coherent .exact := by
  rintro name source _ _ _ rfl rfl
  exact composer.agree_refl _ _

theorem Expands.unique {composer : Composer} {placement : Placement}
    (hcoherent : composer.Coherent placement) {first second : Text} {tokens : List Token}
    {text other : Text} (hfirst : composer.Expands placement first tokens text)
    (hagree : composer.Agree first second (includeArguments tokens))
    (hsecond : composer.Expands placement second tokens other) : text = other := by
  induction hfirst generalizing second other with
  | nil directory =>
      cases hsecond
      rfl
  | drop hrequest _ ih =>
      cases hsecond with
      | drop _ hrest => exact ih hagree.of_cons hrest
      | keep hother _ => simp [hrequest] at hother
      | fetch hother _ _ _ _ _ => simp [hrequest] at hother
  | keep hrequest _ ih =>
      cases hsecond with
      | drop hother _ => simp [hrequest] at hother
      | keep hother hrest =>
          have htext := hrequest.symm.trans hother
          cases htext
          rw [ih hagree.of_cons hrest]
      | fetch hother _ _ _ _ _ => simp [hrequest] at hother
  | fetch hrequest hmodule hsource hplace _ _ ihInner ihRest =>
      cases hsecond with
      | drop hother _ => simp [hrequest] at hother
      | keep hother _ => simp [hrequest] at hother
      | fetch hother hmodule' _ hplace' hinner' hrest' =>
          have hargument := hrequest.symm.trans hother
          cases hargument
          have hhead := includeArguments_cons_of_fetch hrequest
          have htarget := hagree _ (by rw [hhead]; exact List.mem_cons_self) _ hmodule _ hmodule'
          cases htarget
          have hinner := ihInner (hcoherent _ _ _ _ hsource hplace hplace') hinner'
          rw [hinner, ihRest hagree.of_cons hrest']

theorem Compiles.unique {composer : Composer} {placement : Placement}
    (hcoherent : composer.Coherent placement) {name : Option Text} {source text other : Text}
    (htext : composer.Compiles placement name source text)
    (hother : composer.Compiles placement name source other) : text = other := by
  obtain ⟨hsource, place, assembled, hplace, hexpands, rfl⟩ := htext
  obtain ⟨_, place', assembled', hplace', hexpands', rfl⟩ := hother
  rw [hexpands.unique hcoherent (hcoherent _ _ _ _ hsource hplace hplace') hexpands']

/-! ## Other directories -/

theorem Expands.change_directory {composer : Composer} {placement : Placement}
    {first second : Text} {tokens : List Token} {text : Text}
    (h : composer.Expands placement first tokens text)
    (hincluded : ∀ argument ∈ includeArguments tokens,
      composer.included? first argument = composer.included? second argument) :
    composer.Expands placement second tokens text := by
  induction h with
  | nil => exact .nil second
  | drop hrequest _ ih =>
      exact .drop hrequest (ih fun argument hmem =>
        hincluded argument (mem_includeArguments_cons hmem _))
  | keep hrequest _ ih =>
      exact .keep hrequest (ih fun argument hmem =>
        hincluded argument (mem_includeArguments_cons hmem _))
  | fetch hrequest hmodule hsource hplace hinner _ _ ihRest =>
      have hhead := includeArguments_cons_of_fetch hrequest
      rw [hincluded _ (by rw [hhead]; exact List.mem_cons_self)] at hmodule
      exact .fetch hrequest hmodule hsource hplace hinner (ihRest fun argument hmem =>
        hincluded argument (mem_includeArguments_cons hmem _))

end Composer

end GlslCompose
