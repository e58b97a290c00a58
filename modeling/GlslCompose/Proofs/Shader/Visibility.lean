import GlslCompose.Proofs.Shader.Coherence
import GlslCompose.Proofs.Shader.Final

/-!
# Defines of shaders that share a library

An update registers the defines of its shader before it compiles, so they are in force in
that very update, over whatever other shaders have registered.  Updates may stand in any
order, with operations on the library between them, and some of them may fail.
-/

namespace GlslCompose

variable {ι δ π ρ : Type}

/-! ## Shaders in turn -/

inductive Event (ι π ρ : Type) where
  | update (call : ShaderUpdate ι π ρ)
  | library (operation : Operation)

def Event.definesFor? [DecidableEq ι] (shader : ι) : Event ι π ρ → Option DefineSet
  | update call => if call.shader = shader then some call.draw.defines else none
  | library _ => none

namespace World

variable [DecidableEq ι]

def afterEvent (world : World ι δ π) (backend : Backend δ π) :
    Event ι π ρ → World ι δ π
  | .update call => (world.update backend call).2
  | .library operation => { world with library := world.library.afterOperation operation }

def afterEvents (world : World ι δ π) (backend : Backend δ π) (events : List (Event ι π ρ)) :
    World ι δ π :=
  events.foldl (fun world event => world.afterEvent backend event) world

def Allows (world : World ι δ π) : Event ι π ρ → Prop
  | .update call => (world.frame call.shader).Allows call.context call.draw
  | .library operation => world.library.Allows operation

instance (world : World ι δ π) : (event : Event ι π ρ) → Decidable (world.Allows event)
  | .update call => inferInstanceAs (Decidable
      ((world.frame call.shader).Allows call.context call.draw))
  | .library operation => inferInstanceAs (Decidable (world.library.Allows operation))

def Permits (world : World ι δ π) (backend : Backend δ π) : List (Event ι π ρ) → Prop
  | [] => True
  | event :: events =>
      world.Allows event ∧ (world.afterEvent backend event).Permits backend events

def decidePermits (world : World ι δ π) (backend : Backend δ π) :
    (events : List (Event ι π ρ)) → Decidable (world.Permits backend events)
  | [] => inferInstanceAs (Decidable True)
  | event :: events =>
      have := (world.afterEvent backend event).decidePermits backend events
      inferInstanceAs (Decidable
        (world.Allows event ∧ (world.afterEvent backend event).Permits backend events))

instance (world : World ι δ π) (backend : Backend δ π) (events : List (Event ι π ρ)) :
    Decidable (world.Permits backend events) :=
  world.decidePermits backend events

/-! ## The accumulated sets -/

private theorem defines_afterEvent (world : World ι δ π) (backend : Backend δ π)
    (event : Event ι π ρ) (shader : ι) : ((world.afterEvent backend event).shaders shader).defines =
      (event.definesFor? shader).elim (world.shaders shader).defines
        (world.shaders shader).defines.merge := by
  cases event with
  | library operation => rfl
  | update call =>
      by_cases hshader : call.shader = shader
      · subst hshader
        rw [Event.definesFor?, if_pos rfl]
        exact (congrArg Shader.defines (world.shaders_update_self backend call)).trans
          (Frame.defines_update _ _ _ _ _)
      · rw [Event.definesFor?, if_neg hshader]
        exact congrArg Shader.defines
          (world.shaders_update_of_ne backend call (Ne.symm hshader))

private theorem defines_afterEvents (world : World ι δ π) (backend : Backend δ π)
    (events : List (Event ι π ρ)) (shader : ι) :
    ((world.afterEvents backend events).shaders shader).defines =
      (events.filterMap (Event.definesFor? shader)).foldl DefineSet.merge
        (world.shaders shader).defines := by
  induction events generalizing world with
  | nil => rfl
  | cons event events ih =>
      have hrest := ih (world.afterEvent backend event)
      rw [defines_afterEvent] at hrest
      cases hdefines : event.definesFor? shader with
      | none =>
          rw [List.filterMap_cons_none hdefines]
          rw [hdefines] at hrest
          exact hrest
      | some defines =>
          rw [List.filterMap_cons_some hdefines]
          rw [hdefines] at hrest
          exact hrest

/-! ## The shared library -/

structure IsShared (base : Composer) (world : World ι δ π) : Prop where
  session : Library.InSession base world.library
  registry : world.library.registry.IsMadeBy world.library.interner

variable {base : Composer} {world : World ι δ π} {backend : Backend δ π}

theorem IsShared.update (hshared : world.IsShared base)
    (hpolicy : base.cacheKey = .sourceAndDefines) {call : ShaderUpdate ι π ρ}
    (hallows : (world.frame call.shader).Allows call.context call.draw) :
    (world.update backend call).2.IsShared base := by
  have hforce := (world.frame call.shader).inSession_inForce hshared.session hpolicy call.draw
  refine ⟨hallows.inSession_update hforce backend call.block, ?_⟩
  obtain ⟨cache, hlibrary⟩ := (world.frame call.shader).library_update_inForce backend
    call.context call.draw call.block
  have hafter : (world.update backend call).2.library =
      { (world.frame call.shader).inForce call.draw with cache } := hlibrary
  rw [hafter]
  exact hshared.registry.merge (hallows.defines.merge hallows.draw)

private theorem isMadeBy_afterOperation {library : Library}
    (hregistry : library.registry.IsMadeBy library.interner) {operation : Operation}
    (hallowed : library.Allows operation) :
    (library.afterOperation operation).registry.IsMadeBy
      (library.afterOperation operation).interner := by
  cases operation with
  | define name value => exact hregistry.define name value
  | undefine name => exact hregistry.erase name
  | makeDefines pairs => exact hregistry.after_defineAll .empty pairs
  | compile | get | process | preprocess | isCached | clearCache => exact hregistry
  | defineAll | mergeDefines | editRegistry | add | addTree | addStage => exact hallowed.elim

private theorem IsShared.afterEvent (hshared : world.IsShared base)
    (hpolicy : base.cacheKey = .sourceAndDefines) {event : Event ι π ρ}
    (hallows : world.Allows event) : (world.afterEvent backend event).IsShared base := by
  cases event with
  | update call => exact hshared.update hpolicy hallows
  | library operation =>
      exact ⟨hshared.session.afterOperation hallows,
        isMadeBy_afterOperation hshared.registry hallows⟩

private theorem IsShared.afterEvents (hshared : world.IsShared base)
    (hpolicy : base.cacheKey = .sourceAndDefines) {events : List (Event ι π ρ)}
    (hpermits : world.Permits backend events) :
    (world.afterEvents backend events).IsShared base := by
  induction events generalizing world with
  | nil => exact hshared
  | cons event events ih =>
      obtain ⟨hallows, hrest⟩ := hpermits
      exact ih (hshared.afterEvent hpolicy hallows) hrest

/-! ## What an update makes visible -/

/-- The defines of a shader are in force after its update, over all others, and its
recompiled slots have the texts that their sources have under them. -/
structure Shows (before after : World ι δ π) (shader : ι) : Prop where
  registry : after.library.registry =
    before.library.registry.merge (after.shaders shader).defines
  own : ∀ name value, (after.shaders shader).defines.get? name = some value →
    after.library.registry.get? name = some value
  vertex : (after.shaders shader).lastOutcome.vertexRecompiled →
    (after.shaders shader).vertex.IsFinal after.library
  fragment : (after.shaders shader).lastOutcome.fragmentRecompiled →
    (after.shaders shader).fragment.IsFinal after.library

private theorem IsShared.shows_update (hshared : world.IsShared base)
    (hpolicy : base.cacheKey = .sourceAndDefines) {call : ShaderUpdate ι π ρ} {result : ρ}
    (hallows : (world.frame call.shader).Allows call.context call.draw)
    (h : (world.update backend call).1 = .ok result) :
    world.Shows (world.update backend call).2 call.shader := by
  obtain ⟨cache, hlibrary⟩ := (world.frame call.shader).library_update_inForce backend
    call.context call.draw call.block
  have hafter : (world.update backend call).2.library =
      { (world.frame call.shader).inForce call.draw with cache } := hlibrary
  have hself := world.shaders_update_self backend call
  have hdefines : ((world.update backend call).2.shaders call.shader).defines =
      (world.shaders call.shader).defines.merge call.draw.defines :=
    (congrArg Shader.defines hself).trans (Frame.defines_update _ _ _ _ _)
  have hregistry : (world.update backend call).2.library.registry =
      world.library.registry.merge
        ((world.update backend call).2.shaders call.shader).defines := by
    rw [hafter, hdefines]
    rfl
  have hcomposer : ((world.frame call.shader).inForce call.draw).toComposer =
      (world.update backend call).2.library.toComposer := by
    rw [hafter]
  have hforce := (world.frame call.shader).inSession_inForce hshared.session hpolicy call.draw
  obtain ⟨hvertex, hfragment⟩ := Frame.isFinal_of_update hallows hforce h
  rw [← hself] at hvertex hfragment
  refine ⟨hregistry, ?_, fun hdue => (hvertex hdue).of_toComposer hcomposer,
    fun hdue => (hfragment hdue).of_toComposer hcomposer⟩
  intro name value hvalue
  have hmade := hallows.defines.merge hallows.draw
  rw [hregistry, hshared.registry.get?_merge (by rw [hdefines]; exact hmade), hvalue]
  rfl

/-- Whatever shaders and operations came before, a shader has accumulated the defines of
its own draw states alone, and its next update that succeeds compiles under them. -/
theorem shows_update_of_events (shaders : ι → Option Text × DefineSet) (library : Library)
    (device : δ) (backend : Backend δ π) (events : List (Event ι π ρ))
    (hempty : library.cache = .empty) (hpolicy : library.cacheKey = .sourceAndDefines)
    (hregistry : library.registry.IsMadeBy library.interner)
    (hpermits : (start shaders library device).Permits backend events) :
    (∀ shader, (((start shaders library device).afterEvents backend events).shaders
        shader).defines =
      (events.filterMap (Event.definesFor? shader)).foldl DefineSet.merge (shaders shader).2) ∧
    ∀ (call : ShaderUpdate ι π ρ) (result : ρ),
      ((start shaders library device).afterEvents backend events).Allows (.update call) →
      (((start shaders library device).afterEvents backend events).update backend call).1 =
        .ok result →
      ((start shaders library device).afterEvents backend events).Shows
        (((start shaders library device).afterEvents backend events).update backend call).2
        call.shader := by
  have hstart : (start shaders library device : World ι δ π).IsShared library.toComposer := by
    refine ⟨⟨library.toComposer.varies_refl, ?_⟩, hregistry⟩
    rw [start, hempty]
    exact UnitFamily.sound_empty _
  refine ⟨fun shader => defines_afterEvents _ backend events shader, ?_⟩
  intro call result hallows hresult
  exact (hstart.afterEvents hpolicy hpermits).shows_update hpolicy hallows hresult

/-! ## Two shaders with different defines -/

def modeSets : DefineSet × DefineSet × Library :=
  let library := (Library.ofSettings
    { includeBuiltins := false, cacheKey := .sourceAndDefines }).add "lib/mode".toList
      "#ifdef MODE\nfloat mode;\n#endif".toList
  let (first, library) := library.makeDefines [("MODE".toList, .integer 1)]
  let (second, library) := library.makeDefines [("MODE".toList, .integer 2)]
  (first, second, library)

def modeShaders (shader : Bool) : Option Text × DefineSet :=
  (none, if shader then modeSets.1 else modeSets.2.1)

def modeEvents : List (Event Bool Nat (Option Nat)) :=
  [.update (literalUpdate true (some "#include <lib/mode>") none),
    .library (.define "MODE".toList (.integer 3)),
    .update (literalUpdate false (some "#include <lib/mode>") none)]

def modeWorld : World Bool Nat Nat :=
  (start modeShaders modeSets.2.2 0).afterEvents countingBackend modeEvents

def modeCall : ShaderUpdate Bool Nat (Option Nat) :=
  literalUpdate true none (some "#include <lib/mode>\nvoid main();")

set_option maxRecDepth 10000 in
/-- The first shader gets its own mode after the second one has registered another. -/
theorem shows_update_of_events_modeEvents :
    modeSets.2.2.cache = .empty ∧ modeSets.2.2.cacheKey = .sourceAndDefines ∧
    modeSets.2.2.registry.IsMadeBy modeSets.2.2.interner ∧
    (start modeShaders modeSets.2.2 0 : World Bool Nat Nat).Permits countingBackend
      modeEvents ∧
    modeWorld.library.registry.get? "MODE".toList = some "2".toList ∧
    modeWorld.Allows (.update modeCall) ∧
    (modeWorld.update countingBackend modeCall).1 = .ok (some 2) ∧
    ((modeWorld.update countingBackend modeCall).2.shaders true).fragment.compiled =
      some (Text.unlines (["precision mediump float;", "#define MODE 1", "#define MODE 1",
        "float mode;", "void main();"].map String.toList)) ∧
    modeWorld.Shows (modeWorld.update countingBackend modeCall).2 true := by
  obtain ⟨hregistry, hpermits, hmode, hallows, hresult, hcompiled⟩ :
      modeSets.2.2.registry.IsMadeBy modeSets.2.2.interner ∧
      (start modeShaders modeSets.2.2 0 : World Bool Nat Nat).Permits countingBackend
        modeEvents ∧
      modeWorld.library.registry.get? "MODE".toList = some "2".toList ∧
      modeWorld.Allows (.update modeCall) ∧
      (modeWorld.update countingBackend modeCall).1 = .ok (some 2) ∧
      ((modeWorld.update countingBackend modeCall).2.shaders true).fragment.compiled =
        some (Text.unlines (["precision mediump float;", "#define MODE 1", "#define MODE 1",
          "float mode;", "void main();"].map String.toList)) := by
    decide +kernel
  obtain ⟨-, hshows⟩ := shows_update_of_events modeShaders modeSets.2.2 0 countingBackend
    modeEvents rfl rfl hregistry hpermits
  exact ⟨rfl, rfl, hregistry, hpermits, hmode, hallows, hresult, hcompiled,
    hshows _ _ hallows hresult⟩

end World

end GlslCompose
