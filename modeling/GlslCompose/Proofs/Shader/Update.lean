import GlslCompose.Proofs.Cache.Soundness
import GlslCompose.Shader.Basic

/-!
# One update

An update that fails leaves slots, program and bound handles alone.  One that
succeeds brings the slots up to the sources of the draw state and leaves a program
that fits what it depends on: it has made a new one, or the old one still does.
-/

namespace GlslCompose

variable {δ π ρ : Type}

namespace Shared

variable {α : Type}

@[simp] theorem same_refl (handle : Option (Shared α)) : same handle handle = true := by
  cases handle <;> simp [same]

end Shared

/-! ## Slots -/

private theorem ShaderSource.ne_nil_of_viable? {source : ShaderSource} {context : RenderContext}
    {inputs : DrawInputs} {text : Text} (h : source.viable? context inputs = some text) :
    text ≠ [] := by
  have hfilter := Option.filter_eq_some_iff.mp h
  simpa using hfilter.2

theorem DrawState.ne_nil_of_vertexText? {draw : DrawState} {context : RenderContext}
    {text : Text} (h : draw.vertexText? context = some text) : text ≠ [] := by
  obtain ⟨source, _, hviable⟩ := Option.bind_eq_some_iff.mp h
  exact ShaderSource.ne_nil_of_viable? hviable

theorem DrawState.ne_nil_of_fragmentText? {draw : DrawState} {context : RenderContext}
    {text : Text} (h : draw.fragmentText? context = some text) : text ≠ [] := by
  obtain ⟨source, _, hviable⟩ := Option.bind_eq_some_iff.mp h
  exact ShaderSource.ne_nil_of_viable? hviable

namespace Slot

def IsCompiled (slot : Slot) : Prop := slot.raw.isSome → slot.compiled.isSome

/-- What a slot becomes in a frame that supplies the source `next`, or none. -/
structure Follows (before after : Slot) (next : Option Text) (force : Bool) : Prop where
  raw : ∀ text, next = some text → after.raw = some text
  compiled : next = none ∨ (force = false ∧ next = before.raw) →
    after.compiled = before.compiled
  isCompiled : after.IsCompiled

@[simp] theorem pending?_eq_none_iff (slot : Slot) (text : Text) (force : Bool) :
    slot.pending? (some text) force = none ↔
      force = false ∧ slot.compiled.isSome ∧ slot.raw = some text := by
  cases force <;> cases hcompiled : slot.compiled <;> simp [pending?, hcompiled]

theorem eq_some_of_pending? {slot : Slot} {next : Option Text} {force : Bool} {text : Text}
    (h : slot.pending? next force = some text) : next = some text :=
  (Option.filter_eq_some_iff.mp h).1

end Slot

namespace Shader

theorem compileSlot_some {name : Option Text} {library : Library} {slot after : Slot}
    {text : Text} (htext : text ≠ [])
    (h : (compileSlot name library slot (some text)).1 = .ok after) :
    after.raw = some text ∧ after.compiled.isSome := by
  unfold compileSlot at h
  dsimp only at h
  split at h
  · cases h
  · rename_i hcompile
    have hsome := Library.isSome_of_compile htext (congrArg Prod.fst hcompile)
    cases hsome
  · rename_i compiled library' _
    cases hpreprocess : library'.preprocess compiled with
    | error error =>
        rw [hpreprocess] at h
        cases h
    | ok final =>
        rw [hpreprocess] at h
        cases h
        exact ⟨rfl, rfl⟩

private theorem compileSlot_follows {name : Option Text} {library : Library} {slot after : Slot}
    {next : Option Text} {force : Bool} (hslot : slot.IsCompiled)
    (hnext : ∀ text, next = some text → text ≠ [])
    (h : (compileSlot name library slot (slot.pending? next force)).1 = .ok after) :
    slot.Follows after next force := by
  cases hpending : slot.pending? next force with
  | none =>
      rw [hpending] at h
      cases h
      refine ⟨fun text htext => ?_, fun _ => rfl, hslot⟩
      subst htext
      exact ((slot.pending?_eq_none_iff text force).mp hpending).2.2
  | some text =>
      rw [hpending] at h
      have htext := Slot.eq_some_of_pending? hpending
      obtain ⟨hraw, hcompiled⟩ := compileSlot_some (hnext text htext) h
      subst htext
      refine ⟨?_, ?_, fun _ => hcompiled⟩
      · rintro _ ⟨rfl⟩
        exact hraw
      · rintro (hnone | ⟨hforce, hsame⟩)
        · cases hnone
        · have hsome : slot.compiled.isSome := hslot (by rw [← hsame]; rfl)
          have hnone := (slot.pending?_eq_none_iff text force).mpr ⟨hforce, hsome, hsame.symm⟩
          rw [hpending] at hnone
          cases hnone

private theorem compileSlot_eq_of_isNone {name : Option Text} {library : Library}
    {slot after : Slot}
    {next : Option Text} {force : Bool} (hnext : ∀ text, next = some text → text ≠ [])
    (h : (compileSlot name library slot (slot.pending? next force)).1 = .ok after)
    (hnone : slot.pending? next force = none ∨ after.compiled = none) : after = slot := by
  cases hpending : slot.pending? next force with
  | none =>
      rw [hpending] at h
      cases h
      rfl
  | some text =>
      rw [hpending] at h
      have hcompiled := (compileSlot_some (hnext text (Slot.eq_some_of_pending? hpending)) h).2
      rcases hnone with hnone | hnone
      · rw [hpending] at hnone
        cases hnone
      · rw [hnone] at hcompiled
        cases hcompiled

/-! ## Whole shaders -/

def boundDescriptor (shader : Shader π) : ProgramDescriptor where
  label := shader.name
  vertex := shader.vertex.compiled
  fragment := shader.fragment.compiled
  uniforms := shader.boundUniforms.map Shared.value
  attributes := shader.boundAttributes.map Shared.value

/-- What holds of a shader between updates: its sources are compiled, and it does not
forget a handle that is bound. -/
structure Consistent (shader : Shader π) : Prop where
  vertex : shader.vertex.IsCompiled
  fragment : shader.fragment.IsCompiled
  uniforms : shader.boundUniforms.isSome → shader.uniforms.isSome
  attributes : shader.boundAttributes.isSome → shader.attributes.isSome

theorem consistent_create (name : Option Text) (defines : DefineSet) :
    (create name defines : Shader π).Consistent := by
  constructor <;> intro hsome <;> cases hsome

structure Keeps (before after : Shader π) : Prop where
  name : after.name = before.name
  vertex : after.vertex = before.vertex
  fragment : after.fragment = before.fragment
  program : after.program = before.program
  boundUniforms : after.boundUniforms = before.boundUniforms
  boundAttributes : after.boundAttributes = before.boundAttributes
  uniforms : before.uniforms.isSome → after.uniforms.isSome
  attributes : before.attributes.isSome → after.attributes.isSome

/-- What a shader becomes in a frame that succeeds. -/
structure Follows (before after : Shader π) (context : RenderContext) (draw : DrawState) :
    Prop where
  uniforms : Shared.same after.uniforms after.boundUniforms
  attributes : Shared.same after.attributes after.boundAttributes
  vertex : before.vertex.Follows after.vertex (draw.vertexText? context) draw.forceCompile
  fragment :
    before.fragment.Follows after.fragment (draw.fragmentText? context) draw.forceCompile
  state : after.state = if after.program.isSome then .bound else .idle

variable {before after : Shader π}

theorem Keeps.boundDescriptor (h : before.Keeps after) :
    after.boundDescriptor = before.boundDescriptor := by
  simp only [Shader.boundDescriptor, h.name, h.vertex, h.fragment, h.boundUniforms,
    h.boundAttributes]

theorem Keeps.consistent (h : before.Keeps after) (hbefore : before.Consistent) :
    after.Consistent where
  vertex := by
    rw [h.vertex]
    exact hbefore.vertex
  fragment := by
    rw [h.fragment]
    exact hbefore.fragment
  uniforms hbound := by
    rw [h.boundUniforms] at hbound
    exact h.uniforms (hbefore.uniforms hbound)
  attributes hbound := by
    rw [h.boundAttributes] at hbound
    exact h.attributes (hbefore.attributes hbound)

private theorem keeps_accept (shader : Shader π) (draw : DrawState) :
    shader.Keeps (shader.accept draw) where
  name := rfl
  vertex := rfl
  fragment := rfl
  program := rfl
  boundUniforms := rfl
  boundAttributes := rfl
  uniforms hsome := by
    cases huniforms : draw.uniforms <;> simp [accept, huniforms, hsome]
  attributes hsome := by
    cases hattributes : draw.attributes <;> simp [accept, hattributes, hsome]

theorem Keeps.markPending (h : before.Keeps after) (due : Bool) :
    before.Keeps (after.markPending due) := by
  cases due <;> exact ⟨h.name, h.vertex, h.fragment, h.program, h.boundUniforms,
    h.boundAttributes, h.uniforms, h.attributes⟩

theorem link_cases {shader : Shader π} {backend : Backend δ π} {device device' : δ}
    {vertex fragment : Slot} {outcome : FrameOutcome} {force : Bool}
    (h : shader.link backend device vertex fragment outcome force = (.ok after, device')) :
    (∃ program, backend.createProgram (shader.descriptor vertex fragment) device =
        (.ok program, device') ∧
      after = (shader.bind program).commit vertex fragment
        { outcome with programRebuilt := true }) ∨
    ((shader.needsRebuild outcome force = false ∨ shader.isKnown vertex fragment = false) ∧
      after = shader.commit vertex fragment outcome) := by
  unfold link at h
  split at h
  · split at h
    · cases h
    · rename_i program _ hcreate
      cases h
      exact .inl ⟨program, hcreate, rfl⟩
  · rename_i hneither
    cases h
    refine .inr ⟨?_, rfl⟩
    cases hrebuild : shader.needsRebuild outcome force with
    | false => exact .inl rfl
    | true =>
        right
        simpa [hrebuild] using hneither

/-- Without a new program, the handles are the bound ones, and a slot that was compiled
would have been a reason for a new one. -/
theorem fits_of_link {shader : Shader π} {vertex fragment : Slot} {outcome : FrameOutcome}
    {force : Bool} (hconsistent : shader.Consistent)
    (hreason : shader.needsRebuild outcome force = false ∨
      shader.isKnown vertex fragment = false) :
    Shared.same shader.uniforms shader.boundUniforms ∧
    Shared.same shader.attributes shader.boundAttributes ∧
    (outcome.vertexRecompiled = false ∨ vertex.compiled = none) ∧
    (outcome.fragmentRecompiled = false ∨ fragment.compiled = none) := by
  rcases hreason with hfits | hunknown
  · simp only [needsRebuild, FrameOutcome.recompiled, Bool.or_eq_false_iff,
      Bool.not_eq_false'] at hfits
    obtain ⟨⟨⟨⟨_, hvertex, hfragment⟩, _⟩, huniforms⟩, hattributes⟩ := hfits
    exact ⟨huniforms, hattributes, .inl hvertex, .inl hfragment⟩
  · simp only [isKnown, Bool.or_eq_false_iff, Option.isSome_eq_false_iff,
      Option.isNone_iff_eq_none] at hunknown
    obtain ⟨⟨⟨hvertex, hfragment⟩, huniforms⟩, hattributes⟩ := hunknown
    have hbound : shader.boundUniforms = none := by
      cases hcase : shader.boundUniforms with
      | none => rfl
      | some handle => simpa [hcase, huniforms] using hconsistent.uniforms
    have hbound' : shader.boundAttributes = none := by
      cases hcase : shader.boundAttributes with
      | none => rfl
      | some handle => simpa [hcase, hattributes] using hconsistent.attributes
    rw [huniforms, hattributes, hbound, hbound']
    exact ⟨rfl, rfl, .inr hvertex, .inr hfragment⟩

end Shader

namespace Frame

open Shader

def outcome (frame : Frame δ π) (context : RenderContext) (draw : DrawState) : FrameOutcome where
  vertexRecompiled := (frame.shader.vertexPending? context draw).isSome
  fragmentRecompiled := (frame.shader.fragmentPending? context draw).isSome

def accepted (frame : Frame δ π) (context : RenderContext) (draw : DrawState) : Shader π :=
  (frame.shader.accept draw).markPending (frame.outcome context draw).recompiled

theorem keeps_accepted (frame : Frame δ π) (context : RenderContext) (draw : DrawState) :
    frame.shader.Keeps (frame.accepted context draw) :=
  (frame.shader.keeps_accept draw).markPending _

variable {frame : Frame δ π} {backend : Backend δ π} {context : RenderContext}
  {draw : DrawState} {block : RenderContext → Option π → ρ}

theorem update_error {error : ComposeError}
    (h : (frame.update backend context draw block).1 = .error error) :
    (frame.update backend context draw block).2.shader = frame.accepted context draw := by
  unfold update at h ⊢
  dsimp only at h ⊢
  split
  · rfl
  · rename_i hvertex
    rw [hvertex] at h
    dsimp only at h
    split
    · rfl
    · rename_i hfragment
      rw [hfragment] at h
      dsimp only at h
      split
      · rfl
      · rename_i hlink
        rw [hlink] at h
        cases h

theorem update_ok {result : ρ}
    (h : (frame.update backend context draw block).1 = .ok result) :
    ∃ name library library' vertex fragment,
      (compileSlot name library (frame.accepted context draw).vertex
        (frame.shader.vertexPending? context draw)).1 = .ok vertex ∧
      (compileSlot name library' (frame.accepted context draw).fragment
        (frame.shader.fragmentPending? context draw)).1 = .ok fragment ∧
      (frame.accepted context draw).link backend frame.device vertex fragment
        (frame.outcome context draw) draw.forceCompile =
          (.ok (frame.update backend context draw block).2.shader,
            (frame.update backend context draw block).2.device) := by
  unfold update at h ⊢
  dsimp only at h ⊢
  split at h
  · cases h
  · rename_i vertex library hvertex
    split at h
    · cases h
    · rename_i fragment library' hfragment
      split at h
      · cases h
      · rename_i shader device hlink
        refine ⟨_, _, library, vertex, fragment, congrArg Prod.fst hvertex,
          congrArg Prod.fst hfragment, hlink⟩

/-- A successful update leaves a program that was made from what it is bound to, in
this frame or before. -/
theorem update_follows {result : ρ} (hconsistent : frame.shader.Consistent)
    (h : (frame.update backend context draw block).1 = .ok result) :
    frame.shader.Follows (frame.update backend context draw block).2.shader context draw ∧
    (frame.update backend context draw block).2.shader.Consistent ∧
    ∀ program, (frame.update backend context draw block).2.shader.program = some program →
      backend.createProgram (frame.update backend context draw block).2.shader.boundDescriptor
        frame.device = (.ok program, (frame.update backend context draw block).2.device) ∨
      frame.shader.program = some program ∧
        (frame.update backend context draw block).2.shader.boundDescriptor =
          frame.shader.boundDescriptor := by
  obtain ⟨name, library, library', vertex, fragment, hvertex, hfragment, hlink⟩ := update_ok h
  have hkeeps := frame.keeps_accepted context draw
  have haccepted := hkeeps.consistent hconsistent
  rw [hkeeps.vertex] at hvertex
  rw [hkeeps.fragment] at hfragment
  have hvertexText : ∀ text, draw.vertexText? context = some text → text ≠ [] :=
    fun text => DrawState.ne_nil_of_vertexText?
  have hfragmentText : ∀ text, draw.fragmentText? context = some text → text ≠ [] :=
    fun text => DrawState.ne_nil_of_fragmentText?
  have hvertexFollows := compileSlot_follows hconsistent.vertex hvertexText hvertex
  have hfragmentFollows := compileSlot_follows hconsistent.fragment hfragmentText hfragment
  generalize (frame.update backend context draw block).2.shader = after at hlink ⊢
  generalize (frame.update backend context draw block).2.device = device at hlink ⊢
  generalize frame.accepted context draw = shader at hkeeps haccepted hlink
  rcases link_cases hlink with ⟨program, hcreate, rfl⟩ | ⟨hreason, rfl⟩
  · refine ⟨⟨Shared.same_refl _, Shared.same_refl _, hvertexFollows, hfragmentFollows, rfl⟩,
      ⟨hvertexFollows.isCompiled, hfragmentFollows.isCompiled, id, id⟩, ?_⟩
    rintro _ ⟨rfl⟩
    exact .inl hcreate
  · obtain ⟨huniforms, hattributes, hnoVertex, hnoFragment⟩ := fits_of_link haccepted hreason
    have hvertexKept : vertex = frame.shader.vertex := by
      refine compileSlot_eq_of_isNone hvertexText hvertex (hnoVertex.imp_left fun hfalse => ?_)
      exact Option.isSome_eq_false_iff.mp hfalse |> Option.isNone_iff_eq_none.mp
    have hfragmentKept : fragment = frame.shader.fragment := by
      refine compileSlot_eq_of_isNone hfragmentText hfragment
        (hnoFragment.imp_left fun hfalse => ?_)
      exact Option.isSome_eq_false_iff.mp hfalse |> Option.isNone_iff_eq_none.mp
    refine ⟨⟨huniforms, hattributes, hvertexFollows, hfragmentFollows, rfl⟩,
      ⟨hvertexFollows.isCompiled, hfragmentFollows.isCompiled, haccepted.uniforms,
        haccepted.attributes⟩, ?_⟩
    intro program hprogram
    refine .inr ⟨hkeeps.program.symm.trans hprogram, ?_⟩
    rw [← hkeeps.boundDescriptor]
    simp only [boundDescriptor, commit, hvertexKept, hfragmentKept, hkeeps.vertex,
      hkeeps.fragment]

end Frame

end GlslCompose
