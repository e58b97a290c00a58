import GlslCompose.Proofs.Cache.Freshness
import GlslCompose.Proofs.Shader.Final
import GlslCompose.Proofs.Shader.Retry

/-!
# Forced updates

A forced update compiles every source that it is given, changed or not.  But it does not
clear the cache, and the cache answers first: what a forced update gives is new only where
no unit is cached that stands for something else by now.
-/

namespace GlslCompose

variable {δ π ρ : Type}

open Composer Library

/-- The slot holds the source with its final text, and the library would give that text from
an empty cache as well. -/
def Slot.Renews (slot : Slot) (library : Library) (name : Option Text) (raw : Text) : Prop :=
  ∃ text final, slot.raw = some raw ∧ slot.compiled = some final ∧
    library.preprocess text = .ok final ∧ library.Renews name raw text

private theorem Slot.Renews.with_cache {slot : Slot} {library : Library} {name : Option Text}
    {raw : Text} (h : slot.Renews library name raw) (cache : UnitCache) :
    slot.Renews { library with cache } name raw := by
  obtain ⟨text, final, hraw, hcompiled, hfinal, hcompiles, hcleared⟩ := h
  exact ⟨text, final, hraw, hcompiled, hfinal, hcompiles, hcleared⟩

@[simp] private theorem Slot.pending?_forced (slot : Slot) (next : Option Text) :
    slot.pending? next true = next := by
  cases next <;> rfl

/-! ## One slot -/

def compilations (name : Option Text) (pending : Option Text) : List Operation :=
  pending.toList.map fun raw => .compile name raw

namespace Shader

variable {name : Option Text} {library : Library} {slot after : Slot}

private theorem library_compileSlot (name : Option Text) (library : Library) (slot : Slot)
    (pending : Option Text) :
    (compileSlot name library slot pending).2 =
      library.afterOperations (compilations name pending) := by
  cases pending with
  | none => rfl
  | some raw =>
      have hafter : library.afterOperations (compilations name (some raw)) =
          (library.compile name raw).2 := rfl
      rw [hafter]
      unfold compileSlot
      dsimp only
      split <;> (rename_i hrun; rw [hrun])

private theorem renews_of_compileSlot {start : Library} {operations : List Operation} {raw : Text}
    (hempty : start.cache = .empty) (hlibrary : library = start.afterOperations operations)
    (hraw : raw ≠ [])
    (hkeeps : start.KeepsCurrent library.toComposer
      (.compile (some (name.getD anonymousName)) raw) (operations ++ recompilation name raw))
    (h : (compileSlot name library slot (some raw)).1 = .ok after) :
    after.Renews library name raw := by
  obtain ⟨text, final, hcompile, hfinal, rfl⟩ := exists_of_compileSlot hraw h
  subst hlibrary
  exact ⟨text, final, rfl, rfl, hfinal, renews_of_compile hempty hkeeps hcompile⟩

end Shader

/-! ## One update -/

namespace Frame

open Shader

variable {frame : Frame δ π} {backend : Backend δ π} {context : RenderContext}
  {draw : DrawState} {block : RenderContext → Option π → ρ}

private theorem slots_of_update {result : ρ}
    (h : (frame.update backend context draw block).1 = .ok result) :
    (frame.vertexRun context draw).1 =
        .ok (frame.update backend context draw block).2.shader.vertex ∧
      (frame.fragmentRun context draw).1 =
        .ok (frame.update backend context draw block).2.shader.fragment := by
  obtain ⟨vertex, fragment, hvertex, hfragment, hlink⟩ := runs_of_update h
  rcases link_cases hlink with ⟨program, -, hshader⟩ | ⟨-, hshader⟩ <;> rw [hshader] <;>
    exact ⟨hvertex, hfragment⟩

def beforeVertex (frame : Frame δ π) (draw : DrawState) : List Operation :=
  [.mergeDefines (frame.shader.defines.merge draw.defines)]

def beforeFragment (frame : Frame δ π) (context : RenderContext) (draw : DrawState) :
    List Operation :=
  frame.beforeVertex draw ++ compilations frame.shader.name (draw.vertexText? context)

private theorem vertexRun_of_forced (hforce : draw.forceCompile = true) :
    frame.vertexRun context draw = compileSlot frame.shader.name (frame.inForce draw)
      (frame.accepted context draw).vertex (draw.vertexText? context) := by
  unfold vertexRun vertexPending?
  rw [hforce, Slot.pending?_forced, (frame.keeps_accepted context draw).name]

private theorem fragmentRun_of_forced (hforce : draw.forceCompile = true) :
    frame.fragmentRun context draw =
      compileSlot frame.shader.name (frame.vertexRun context draw).2
        (frame.accepted context draw).fragment (draw.fragmentText? context) := by
  unfold fragmentRun fragmentPending?
  rw [hforce, Slot.pending?_forced, (frame.keeps_accepted context draw).name]

section History

variable {start : Library} {operations : List Operation}

private theorem inForce_eq_afterOperations
    (hlibrary : frame.library = start.afterOperations operations) :
    frame.inForce draw = start.afterOperations (operations ++ frame.beforeVertex draw) := by
  rw [inForce, hlibrary, afterOperations_append]
  rfl

private theorem vertexRun_eq_afterOperations
    (hlibrary : frame.library = start.afterOperations operations)
    (hforce : draw.forceCompile = true) :
    (frame.vertexRun context draw).2 =
      start.afterOperations (operations ++ frame.beforeFragment context draw) := by
  rw [vertexRun_of_forced hforce, library_compileSlot, inForce_eq_afterOperations hlibrary,
    beforeFragment, ← List.append_assoc, ← afterOperations_append]

/-- Where no unit that was stored since the cache was empty stands for something else than
what a source needs now, a forced update gives that source the text that it has under the
modules and defines in force, and that an empty cache would give. -/
theorem renews_of_forced_update {result : ρ} (hempty : start.cache = .empty)
    (hlibrary : frame.library = start.afterOperations operations)
    (hforce : draw.forceCompile = true)
    (h : (frame.update backend context draw block).1 = .ok result) :
    (frame.update backend context draw block).2.library.toComposer =
        (frame.inForce draw).toComposer ∧
    (∀ raw, draw.vertexText? context = some raw →
      start.KeepsCurrent (frame.inForce draw).toComposer
        (.compile (some (frame.shader.name.getD anonymousName)) raw)
        (operations ++ frame.beforeVertex draw ++ recompilation frame.shader.name raw) →
      (frame.update backend context draw block).2.shader.vertex.Renews
        (frame.update backend context draw block).2.library frame.shader.name raw) ∧
    ∀ raw, draw.fragmentText? context = some raw →
      start.KeepsCurrent (frame.inForce draw).toComposer
        (.compile (some (frame.shader.name.getD anonymousName)) raw)
        (operations ++ frame.beforeFragment context draw ++ recompilation frame.shader.name raw) →
      (frame.update backend context draw block).2.shader.fragment.Renews
        (frame.update backend context draw block).2.library frame.shader.name raw := by
  obtain ⟨hvertex, hfragment⟩ := slots_of_update h
  obtain ⟨cache, hafter⟩ := frame.library_update_inForce backend context draw block
  rw [hafter]
  refine ⟨rfl, fun raw hraw hkeeps => ?_, fun raw hraw hkeeps => ?_⟩
  · rw [vertexRun_of_forced hforce, hraw] at hvertex
    exact (renews_of_compileSlot hempty (inForce_eq_afterOperations hlibrary)
      (DrawState.ne_nil_of_vertexText? hraw) hkeeps hvertex).with_cache cache
  · rw [fragmentRun_of_forced hforce, hraw] at hfragment
    have hbefore : (frame.vertexRun context draw).2 =
        start.afterOperations (operations ++ frame.beforeFragment context draw) :=
      vertexRun_eq_afterOperations hlibrary hforce
    obtain ⟨cache', hlibrary'⟩ := frame.vertexRun_library context draw
    rw [hlibrary'] at hfragment hbefore
    exact (renews_of_compileSlot hempty hbefore
      (DrawState.ne_nil_of_fragmentText? hraw) hkeeps hfragment).with_cache cache

end History

/-! ## Overwritten modules -/

def nestedLibrary : Library :=
  ((ofSettings { includeBuiltins := false, cacheKey := .sourceAndDefines }).add "a".toList
    "#include <b>".toList).add "b".toList "int x;".toList

def nestedUser : Text := "#include <a>".toList

def innerUser : Text := "#include <b>\n".toList

def nestedHistory : List Operation :=
  [.compile none nestedUser, .add "b".toList "int y;".toList]

def nestedFrame : Frame Bool Nat :=
  ⟨.create none .empty, nestedLibrary.afterOperations nestedHistory, false⟩

def nestedDraw : DrawState where
  uniforms := none
  attributes := none
  defines := (DefineSet.ofList [("N".toList, .integer 2)] nestedLibrary.interner).1
  forceCompile := true
  vertex := some (.literal nestedUser)
  fragment := some (.literal innerUser)

def nestedTexts : Text × Text :=
  (Text.unlines (["precision mediump float;", "#define N 2", "#define N 2", "#define N 2",
    "int y;"].map String.toList),
   Text.unlines (["precision mediump float;", "#define N 2", "#define N 2",
    "int y;"].map String.toList))

/-- The new text of the module is in both slots, though its old text is cached. -/
theorem renews_of_forced_update_nestedDraw :
    nestedLibrary.cache = .empty ∧ nestedDraw.forceCompile = true ∧
    nestedDraw.vertexText? plainContext = some nestedUser ∧
    nestedDraw.fragmentText? plainContext = some innerUser ∧
    nestedLibrary.KeepsCurrent (nestedFrame.inForce nestedDraw).toComposer
      (.compile (some anonymousName) nestedUser)
      (nestedHistory ++ nestedFrame.beforeVertex nestedDraw ++ recompilation none nestedUser) ∧
    nestedLibrary.KeepsCurrent (nestedFrame.inForce nestedDraw).toComposer
      (.compile (some anonymousName) innerUser)
      (nestedHistory ++ nestedFrame.beforeFragment plainContext nestedDraw ++
        recompilation none innerUser) ∧
    (nestedFrame.updateOn false nestedDraw).1 = .ok (some 0) ∧
    ((nestedFrame.updateOn false nestedDraw).2.shader.vertex.compiled,
      (nestedFrame.updateOn false nestedDraw).2.shader.fragment.compiled) =
        (some nestedTexts.1, some nestedTexts.2) ∧
    (nestedFrame.updateOn false nestedDraw).2.shader.vertex.Renews
      (nestedFrame.updateOn false nestedDraw).2.library none nestedUser ∧
    (nestedFrame.updateOn false nestedDraw).2.shader.fragment.Renews
      (nestedFrame.updateOn false nestedDraw).2.library none innerUser := by
  obtain ⟨hvertex, hfragment, hresult, hcompiled, hpolicy, hregistry, hmodules, hfree, hinner⟩ :
      nestedDraw.vertexText? plainContext = some nestedUser ∧
      nestedDraw.fragmentText? plainContext = some innerUser ∧
      (nestedFrame.updateOn false nestedDraw).1 = .ok (some 0) ∧
      ((nestedFrame.updateOn false nestedDraw).2.shader.vertex.compiled,
        (nestedFrame.updateOn false nestedDraw).2.shader.fragment.compiled) =
          (some nestedTexts.1, some nestedTexts.2) ∧
      (nestedFrame.inForce nestedDraw).cacheKey = .sourceAndDefines ∧
      nestedLibrary.registry ≠ (nestedFrame.inForce nestedDraw).registry ∧
      (nestedFrame.inForce nestedDraw).toComposer.HasLocationFreeModules ∧
      (nestedFrame.inForce nestedDraw).toComposer.IsLocationFree nestedUser ∧
      (nestedFrame.inForce nestedDraw).toComposer.IsLocationFree innerUser := by
    decide +kernel
  have hinForce : nestedFrame.inForce nestedDraw =
      nestedLibrary.afterOperations (nestedHistory ++ nestedFrame.beforeVertex nestedDraw) :=
    inForce_eq_afterOperations rfl
  -- What was stored before has other defines in its key.
  have hbefore : ∀ goal, nestedLibrary.KeepsCurrent (nestedFrame.inForce nestedDraw).toComposer
      goal (nestedHistory ++ nestedFrame.beforeVertex nestedDraw) := by
    intro goal
    refine ⟨fun _ => keepsCurrent_of_registry_ne rfl hpolicy hregistry, ?_, ?_, trivial⟩
    · exact fun hunit => hunit.elim
    · exact fun hunit => hunit.elim
  have hkeeps : ∀ goal operations,
      (∀ operation ∈ operations, operation.IsPlain (nestedFrame.inForce nestedDraw).toComposer) →
      nestedLibrary.KeepsCurrent (nestedFrame.inForce nestedDraw).toComposer goal
        (nestedHistory ++ nestedFrame.beforeVertex nestedDraw ++ operations) := by
    intro goal operations hplain
    refine (keepsCurrent_append _ _ _).mpr ⟨hbefore goal, ?_⟩
    exact keepsCurrent_of_isPlain hmodules (congrArg Library.toComposer hinForce.symm) hplain
  have hkeepsVertex := hkeeps (.compile (some anonymousName) nestedUser)
    (recompilation none nestedUser) (by simp [recompilation, Operation.IsPlain, hfree])
  have hkeepsFragment := hkeeps (.compile (some anonymousName) innerUser)
    (compilations none (some nestedUser) ++ recompilation none innerUser)
    (by simp [compilations, recompilation, Operation.IsPlain, hfree, hinner])
  rw [← List.append_assoc, List.append_assoc nestedHistory, ← hvertex] at hkeepsFragment
  obtain ⟨-, hvertexRenews, hfragmentRenews⟩ := renews_of_forced_update rfl rfl rfl hresult
  exact ⟨rfl, rfl, hvertex, hfragment, hkeepsVertex, hkeepsFragment, hresult, hcompiled,
    hvertexRenews nestedUser hvertex hkeepsVertex,
    hfragmentRenews innerUser hfragment hkeepsFragment⟩

def overwrittenFrame : Frame Bool Nat :=
  let first := { freshFrame with library := freshFrame.library.add "a".toList "int x;".toList }
  let second := (first.updateOn false (vertexDraw "#include <a>" false)).2
  { second with library := second.library.add "a".toList "int y;".toList }

def overwrittenUpdate : Except ComposeError (Option Nat) × Frame Bool Nat :=
  overwrittenFrame.updateOn false (vertexDraw "#include <a>" true)

set_option maxRecDepth 10000 in
/-- The forced update leaves the old text in the slot, and an empty cache gives the new one. -/
theorem not_renews_of_overwritten_module :
    overwrittenUpdate.1 = .ok (some 0) ∧
    overwrittenUpdate.2.shader.vertex.compiled =
      some "precision mediump float;\nint x;".toList ∧
    (overwrittenUpdate.2.library.clearCache.compile none "#include <a>".toList).1 =
      .ok (some "precision mediump float;\nint y;\n".toList) ∧
    overwrittenUpdate.2.library.preprocess "precision mediump float;\nint y;\n".toList =
      .ok "precision mediump float;\nint y;".toList := by
  decide +kernel

end Frame

end GlslCompose
