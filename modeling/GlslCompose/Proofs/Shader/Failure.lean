import GlslCompose.Proofs.Cache.Growth
import GlslCompose.Proofs.Shader.Retry

/-!
# Updates that fail

An update takes over defines and handles and marks what is due before anything can
fail, and commits slots and program only when nothing can fail any more.  So wherever
it fails, the same frame is left: the committed part as it was, and the cache with
whatever was compiled on the way.
-/

namespace GlslCompose

variable {δ π ρ : Type}

theorem Shader.compileSlot_growsTo {library after : Library} {name : Option Text} {slot : Slot}
    {pending : Option Text} (h : (compileSlot name library slot pending).2 = after) :
    ∃ cache, library.cache.GrowsTo cache ∧ after = { library with cache } := by
  subst h
  cases pending with
  | none => exact ⟨library.cache, Cache.growsTo_refl _, rfl⟩
  | some raw =>
      obtain ⟨cache, hcompile, hgrows⟩ := library.compile_growsTo name raw
      refine ⟨cache, hgrows, ?_⟩
      unfold compileSlot
      dsimp only
      split <;> (rename_i hrun; rw [hrun] at hcompile; exact hcompile)

namespace Frame

open Shader

/-- What is left of a frame when an update fails with `error`. -/
structure Aborted (backend : Backend δ π) (context : RenderContext) (draw : DrawState)
    (error : ComposeError) (before after : Frame δ π) : Prop where
  shader : after.shader =
    { before.shader with
      defines := before.shader.defines.merge draw.defines
      uniforms := draw.uniforms <|> before.shader.uniforms
      attributes := draw.attributes <|> before.shader.attributes
      lastOutcome := {}
      state :=
        if (before.shader.vertexPending? context draw).isSome ∨
            (before.shader.fragmentPending? context draw).isSome then .pendingCompile
        else before.shader.state }
  library : ∃ cache, before.library.cache.GrowsTo cache ∧
    after.library =
      { before.library with
        registry := before.library.registry.merge (before.shader.defines.merge draw.defines)
        cache }
  /-- Only a backend that refuses a program has had the device in hand. -/
  device : after.device = before.device ∨
    ∃ descriptor, backend.createProgram descriptor before.device = (.error error, after.device)

theorem accepted_eq (frame : Frame δ π) (context : RenderContext) (draw : DrawState) :
    frame.accepted context draw =
      { frame.shader with
        defines := frame.shader.defines.merge draw.defines
        uniforms := draw.uniforms <|> frame.shader.uniforms
        attributes := draw.attributes <|> frame.shader.attributes
        lastOutcome := {}
        state :=
          if (frame.shader.vertexPending? context draw).isSome ∨
              (frame.shader.fragmentPending? context draw).isSome then .pendingCompile
          else frame.shader.state } := by
  unfold accepted markPending FrameOutcome.recompiled outcome
  simp only [Bool.or_eq_true]
  split <;> rfl

private theorem link_error {shader : Shader π} {backend : Backend δ π} {device device' : δ}
    {vertex fragment : Slot} {outcome : FrameOutcome} {force : Bool} {error : ComposeError}
    (h : shader.link backend device vertex fragment outcome force = (.error error, device')) :
    ∃ descriptor, backend.createProgram descriptor device = (.error error, device') := by
  unfold link at h
  split at h
  · split at h
    · rename_i hcreate
      cases h
      exact ⟨_, hcreate⟩
    · cases h
  · cases h

variable {frame : Frame δ π} {backend : Backend δ π} {context : RenderContext}
  {draw : DrawState} {block : RenderContext → Option π → ρ}

private theorem update_eq_map (frame : Frame δ π) (backend : Backend δ π) (context : RenderContext)
    (draw : DrawState) (block : RenderContext → Option π → ρ) :
    frame.update backend context draw block =
      ((frame.update backend context draw Prod.mk).1.map fun handed => block handed.1 handed.2,
        (frame.update backend context draw Prod.mk).2) := by
  unfold update
  dsimp only
  split
  · rfl
  · split
    · rfl
    · split <;> rfl

private theorem update_of_error {σ : Type} {error : ComposeError}
    (h : (frame.update backend context draw block).1 = .error error)
    (other : RenderContext → Option π → σ) :
    frame.update backend context draw other =
      (.error error, (frame.update backend context draw block).2) := by
  rw [update_eq_map] at h ⊢
  rw [update_eq_map frame backend context draw block]
  cases hhanded : (frame.update backend context draw Prod.mk).1 with
  | ok handed =>
      rw [hhanded] at h
      cases h
  | error reason =>
      rw [hhanded] at h
      cases h
      rfl

theorem compileSlots_growsTo {library first second : Library} {name other : Option Text}
    {slot next : Slot} {pending due : Option Text}
    (hfirst : (compileSlot name library slot pending).2 = first)
    (hsecond : (compileSlot other first next due).2 = second) :
    ∃ cache, library.cache.GrowsTo cache ∧ second = { library with cache } := by
  obtain ⟨earlier, hearlier, rfl⟩ := compileSlot_growsTo hfirst
  obtain ⟨later, hlater, rfl⟩ := compileSlot_growsTo hsecond
  exact ⟨later, hearlier.trans hlater, rfl⟩

private theorem aborted_update {error : ComposeError}
    (h : (frame.update backend context draw block).1 = .error error) :
    Aborted backend context draw error frame (frame.update backend context draw block).2 := by
  have haborted : ∀ {library device},
      (∃ cache, frame.library.cache.GrowsTo cache ∧ library =
        { frame.library.mergeDefines (frame.shader.accept draw).defines with cache }) →
      (device = frame.device ∨
        ∃ descriptor, backend.createProgram descriptor frame.device = (.error error, device)) →
      Aborted backend context draw error frame ⟨frame.accepted context draw, library, device⟩ :=
    fun hlibrary hdevice => ⟨frame.accepted_eq context draw, hlibrary, hdevice⟩
  unfold update at h ⊢
  dsimp only at h ⊢
  split
  · -- The vertex source fails, and the fragment source is not looked at.
    rename_i hvertex
    exact haborted (compileSlot_growsTo (congrArg Prod.snd hvertex)) (.inl rfl)
  · rename_i hvertex
    rw [hvertex] at h
    dsimp only at h
    split
    · rename_i hfragment
      exact haborted (compileSlots_growsTo (congrArg Prod.snd hvertex)
        (congrArg Prod.snd hfragment)) (.inl rfl)
    · rename_i hfragment
      rw [hfragment] at h
      dsimp only at h
      have hlibrary := compileSlots_growsTo (congrArg Prod.snd hvertex)
        (congrArg Prod.snd hfragment)
      split
      · rename_i hlink
        rw [hlink] at h
        cases h
        exact haborted hlibrary (.inr (link_error hlink))
      · rename_i hlink
        rw [hlink] at h
        cases h

/-- An update that fails leaves the committed part of its shader and every cached text
alone and does not run its block, and a plain draw is handed the program that was there
before. -/
theorem update_error_atomic {error : ComposeError}
    (h : (frame.update backend context draw block).1 = .error error) :
    Aborted backend context draw error frame (frame.update backend context draw block).2 ∧
    (∀ {σ : Type} (other : RenderContext → Option π → σ),
      frame.update backend context draw other =
        (.error error, (frame.update backend context draw block).2)) ∧
    ∀ {σ : Type} (plain : RenderContext) (drawn : RenderContext → Option π → σ),
      (frame.update backend context draw block).2.shader.draw plain drawn =
        drawn plain frame.shader.program := by
  have haborted := aborted_update h
  refine ⟨haborted, fun other => update_of_error h other, fun plain drawn => ?_⟩
  rw [haborted.shader]
  rfl

def brokenDraw : DrawState :=
  { vertexDraw "void other();" false with
    fragment := some (.literal "#include <missing>".toList) }

set_option maxRecDepth 10000 in
theorem update_error_atomic_brokenDraw :
    (boundFrame.updateOn false brokenDraw).1 =
      .error (.includeNotFound "missing".toList "<missing>".toList []) ∧
    Aborted lossyBackend plainContext brokenDraw
      (.includeNotFound "missing".toList "<missing>".toList []) { boundFrame with device := false }
      (boundFrame.updateOn false brokenDraw).2 ∧
    (boundFrame.updateOn false brokenDraw).2.shader.program = some 0 ∧
    (boundFrame.updateOn false brokenDraw).2.shader.state = .pendingCompile ∧
    (boundFrame.updateOn false brokenDraw).2.library.cache.size = 2 := by
  have hfailed : (boundFrame.updateOn false brokenDraw).1 =
      .error (.includeNotFound "missing".toList "<missing>".toList []) := by
    decide +kernel
  exact ⟨hfailed, (update_error_atomic hfailed).1, by decide +kernel, by decide +kernel,
    by decide +kernel⟩

end Frame

end GlslCompose
