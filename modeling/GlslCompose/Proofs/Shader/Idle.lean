import GlslCompose.Proofs.Shader.Retry

/-!
# Idle frames

After an update that succeeded, the slots are compiled, the bound handles are the current
ones, and if there is no program there is nothing to make one from.  So a draw state that
brings no new text and no new handle finds nothing to do, whatever it defines.
-/

namespace GlslCompose

variable {δ π ρ σ : Type}

namespace Shared

variable {α : Type} {first second third : Option (Shared α)}

private theorem same_trans (hfirst : same first second) (hsecond : same second third) :
    same first third := by
  cases first <;> cases second <;> cases third <;> simp_all [same]

private theorem eq_none_of_same (h : same first none) : first = none := by
  cases first with
  | none => rfl
  | some handle => cases h

private theorem same_orElse (h : first = none ∨ same first second) :
    same (first <|> second) second := by
  rcases h with rfl | hsame
  · exact same_refl second
  · cases first with
    | none => exact same_refl second
    | some handle => exact hsame

end Shared

/-! ## Shaders between updates -/

namespace Shader

/-- The shader was created, and then updated any number of times.  Each update had its own
library, backend and device, and may have failed. -/
inductive Reached (δ : Type) : Shader π → Prop where
  | create (name : Option Text) (defines : DefineSet) : Reached δ (.create name defines)
  | update {ρ : Type} {frame : Frame δ π} (h : Reached δ frame.shader) (backend : Backend δ π)
      (context : RenderContext) (draw : DrawState) (block : RenderContext → Option π → ρ) :
      Reached δ (frame.update backend context draw block).2.shader

theorem Reached.consistent {shader : Shader π} (h : shader.Reached δ) : shader.Consistent := by
  induction h with
  | create name defines => exact consistent_create name defines
  | update h backend context draw block ih =>
      rename_i frame
      cases hresult : (frame.update backend context draw block).1 with
      | error error =>
          rw [Frame.update_error hresult]
          exact (frame.keeps_accepted context draw).consistent ih
      | ok result => exact (Frame.update_follows ih hresult).2.1

/-- What a successful update leaves. -/
structure IsSettled (shader : Shader π) : Prop where
  vertex : shader.vertex.IsCompiled
  fragment : shader.fragment.IsCompiled
  uniforms : Shared.same shader.uniforms shader.boundUniforms
  attributes : Shared.same shader.attributes shader.boundAttributes
  state : shader.state = if shader.program.isSome then .bound else .idle
  unknown : shader.program = none → shader.isKnown shader.vertex shader.fragment = false

end Shader

/-! ## Draw states that bring nothing new -/

/-- Neither a text nor a handle of the draw state is new to the shader, and nothing is
forced.  The defines may be any. -/
structure DrawState.IsIdle (draw : DrawState) (context : RenderContext) (shader : Shader π) :
    Prop where
  force : draw.forceCompile = false
  vertex : draw.vertexText? context = none ∨ draw.vertexText? context = shader.vertex.raw
  fragment : draw.fragmentText? context = none ∨ draw.fragmentText? context = shader.fragment.raw
  uniforms : draw.uniforms = none ∨ Shared.same draw.uniforms shader.uniforms
  attributes : draw.attributes = none ∨ Shared.same draw.attributes shader.attributes

private theorem Slot.pending?_eq_none {slot : Slot} {next : Option Text} (hslot : slot.IsCompiled)
    (hnext : next = none ∨ next = slot.raw) : slot.pending? next false = none := by
  cases next with
  | none => rfl
  | some text =>
      have hraw : slot.raw = some text := (hnext.resolve_left nofun).symm
      exact (slot.pending?_eq_none_iff text false).mpr ⟨rfl, hslot (by rw [hraw]; rfl), hraw⟩

namespace Shader

variable {shader : Shader π} {draw : DrawState} {context : RenderContext}

private theorem IsSettled.needs_nothing (h : shader.IsSettled)
    (hidle : draw.IsIdle context shader) :
    ((shader.accept draw).needsRebuild {} false &&
      (shader.accept draw).isKnown shader.vertex shader.fragment) = false := by
  have huniforms : Shared.same (draw.uniforms <|> shader.uniforms) shader.boundUniforms :=
    Shared.same_trans (Shared.same_orElse hidle.uniforms) h.uniforms
  have hattributes : Shared.same (draw.attributes <|> shader.attributes) shader.boundAttributes :=
    Shared.same_trans (Shared.same_orElse hidle.attributes) h.attributes
  cases hprogram : shader.program with
  | some program =>
      have hfits : (shader.accept draw).needsRebuild {} false = false := by
        simpa [needsRebuild, accept, FrameOutcome.recompiled, hprogram] using
          And.intro huniforms hattributes
      rw [hfits, Bool.false_and]
  | none =>
      have hunknown := h.unknown hprogram
      simp only [isKnown, Bool.or_eq_false_iff, Option.isSome_eq_false_iff,
        Option.isNone_iff_eq_none] at hunknown
      obtain ⟨⟨⟨hvertex, hfragment⟩, hnoUniforms⟩, hnoAttributes⟩ := hunknown
      have hdrawUniforms : draw.uniforms = none :=
        hidle.uniforms.elim id fun hsame => Shared.eq_none_of_same (hnoUniforms ▸ hsame)
      have hdrawAttributes : draw.attributes = none :=
        hidle.attributes.elim id fun hsame => Shared.eq_none_of_same (hnoAttributes ▸ hsame)
      simp [isKnown, accept, hvertex, hfragment, hnoUniforms, hnoAttributes, hdrawUniforms,
        hdrawAttributes]

end Shader

namespace Frame

open Shader

variable {frame next : Frame δ π} {backend : Backend δ π}
  {context nextContext : RenderContext} {draw nextDraw : DrawState}
  {block : RenderContext → Option π → ρ}

private theorem isSettled_of_update {result : ρ} (hconsistent : frame.shader.Consistent)
    (h : (frame.update backend context draw block).1 = .ok result) :
    (frame.update backend context draw block).2.shader.IsSettled := by
  obtain ⟨hfollows, hafter, -⟩ := update_follows hconsistent h
  obtain ⟨_, _, _, vertex, fragment, -, -, hlink⟩ := update_ok h
  refine ⟨hafter.vertex, hafter.fragment, hfollows.uniforms, hfollows.attributes, hfollows.state,
    fun hprogram => ?_⟩
  generalize (frame.update backend context draw block).2.shader = after at hlink hprogram ⊢
  rcases link_cases hlink with ⟨program, -, rfl⟩ | ⟨hreason, rfl⟩
  · cases hprogram
  · have hnone : (frame.accepted context draw).program = none := hprogram
    refine hreason.resolve_left fun hfits => ?_
    simp [needsRebuild, hnone] at hfits

def passed (frame : Frame δ π) (draw : DrawState) : Frame δ π where
  shader :=
    { frame.shader with
      defines := frame.shader.defines.merge draw.defines
      uniforms := draw.uniforms <|> frame.shader.uniforms
      attributes := draw.attributes <|> frame.shader.attributes
      lastOutcome := {} }
  library :=
    { frame.library with
      registry := frame.library.registry.merge (frame.shader.defines.merge draw.defines) }
  device := frame.device

private theorem update_of_isSettled (hsettled : frame.shader.IsSettled)
    (hidle : draw.IsIdle context frame.shader) (backend : Backend δ π)
    (block : RenderContext → Option π → ρ) :
    frame.update backend context draw block =
      (.ok (block context frame.shader.program), frame.passed draw) := by
  have hvertex : (frame.shader.accept draw).vertexPending? context draw = none := by
    rw [vertexPending?, hidle.force]
    exact Slot.pending?_eq_none hsettled.vertex hidle.vertex
  have hfragment : (frame.shader.accept draw).fragmentPending? context draw = none := by
    rw [fragmentPending?, hidle.force]
    exact Slot.pending?_eq_none hsettled.fragment hidle.fragment
  have hcommit : (frame.shader.accept draw).commit frame.shader.vertex frame.shader.fragment {} =
      (frame.passed draw).shader := by
    simp [commit, accept, passed, hsettled.state]
  have hlink : (frame.shader.accept draw).link backend frame.device
      (frame.shader.accept draw).vertex (frame.shader.accept draw).fragment {} false =
        (.ok (frame.passed draw).shader, frame.device) := by
    have hnothing := hsettled.needs_nothing hidle
    rw [link, ← hcommit]
    exact if_neg (ne_true_of_eq_false hnothing)
  have hmarked : (frame.shader.accept draw).markPending false = frame.shader.accept draw := rfl
  unfold update
  simp only [hvertex, hfragment, hidle.force, Option.isSome_none, FrameOutcome.recompiled,
    Bool.or_self, hmarked, compileSlot]
  rw [hlink]
  rfl

/-- When an update has succeeded, the next one that brings no new text, no new handle and no
force hands out the program that is there.  It leaves the cache and its counters, the slots,
the bound handles and the device as they are, and has no use for a backend. -/
theorem update_of_isIdle {result : ρ} (hreached : frame.shader.Reached δ)
    (hupdate : (frame.update backend context draw block).1 = .ok result)
    (hshader : next.shader = (frame.update backend context draw block).2.shader)
    (hidle : nextDraw.IsIdle nextContext next.shader) (nextBackend : Backend δ π)
    (nextBlock : RenderContext → Option π → σ) :
    next.update nextBackend nextContext nextDraw nextBlock =
      (.ok (nextBlock nextContext next.shader.program), next.passed nextDraw) := by
  have hsettled : next.shader.IsSettled := by
    rw [hshader]
    exact isSettled_of_update hreached.consistent hupdate
  exact update_of_isSettled hsettled hidle nextBackend nextBlock

def sameDraw : DrawState :=
  { vertexDraw "" false with
    vertex := some (.dynamic fun _ _ => some "void main();".toList)
    defines := ⟨[(⟨9, "FOG".toList⟩, ⟨4, ['1']⟩)]⟩ }

set_option maxRecDepth 10000 in
/-- The device is lost by then, and nothing asks it for a program. -/
theorem update_of_isIdle_sameDraw :
    freshFrame.shader.Reached Bool ∧
    (freshFrame.updateOn false (vertexDraw "void main();" false)).1 = .ok (some 0) ∧
    sameDraw.IsIdle plainContext boundFrame.shader ∧
    boundFrame.updateOn true sameDraw =
      (.ok (some 0), ({ boundFrame with device := true } : Frame Bool Nat).passed sameDraw) := by
  have hreached : freshFrame.shader.Reached Bool := .create none .empty
  have hupdate : (freshFrame.updateOn false (vertexDraw "void main();" false)).1 =
      .ok (some 0) := by
    decide +kernel
  have hidle : sameDraw.IsIdle plainContext boundFrame.shader :=
    ⟨rfl, .inr (by decide +kernel), .inl rfl, .inl rfl, .inl rfl⟩
  have hprogram : boundFrame.shader.program = some 0 := by decide +kernel
  refine ⟨hreached, hupdate, hidle, ?_⟩
  have hshader : ({ boundFrame with device := true } : Frame Bool Nat).shader =
      boundFrame.shader := rfl
  rw [← hprogram]
  exact update_of_isIdle hreached hupdate hshader hidle _ _

end Frame

end GlslCompose
