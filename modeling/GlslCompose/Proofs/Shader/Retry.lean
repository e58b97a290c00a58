import GlslCompose.Proofs.Shader.Update
import Mathlib.Data.List.Induction

/-!
# Retries

An update that fails forgets what it has compiled, and nothing else remembers which
slots were due.  The next update finds a slot due again if its source is still new or
was never compiled, but not if the failed update was only forced to compile it.
-/

namespace GlslCompose

variable {δ π ρ σ : Type}

namespace Frame

open Shader

/-- An update has compiled the slots that are due, and has made a program if there are any. -/
def Recompiled (backend : Backend δ π) (before after : Frame δ π) (due : FrameOutcome) : Prop :=
  ∃ rebuilt, after.shader.lastOutcome = { due with programRebuilt := rebuilt } ∧
    (due.recompiled = true → rebuilt = true) ∧
    (rebuilt = true → ∃ program, after.shader.program = some program ∧
      backend.createProgram after.shader.boundDescriptor before.device =
        (.ok program, after.device))

variable {frame next : Frame δ π} {backend nextBackend : Backend δ π}
  {context nextContext : RenderContext} {draw nextDraw : DrawState}
  {block : RenderContext → Option π → ρ} {nextBlock : RenderContext → Option π → σ}

private theorem recompiled_of_update {result : ρ}
    (h : (frame.update backend context draw block).1 = .ok result) :
    Recompiled backend frame (frame.update backend context draw block).2
      (frame.outcome context draw) := by
  obtain ⟨name, library, library', vertex, fragment, hvertex, hfragment, hlink⟩ := update_ok h
  unfold Recompiled
  generalize (frame.update backend context draw block).2 = after at hlink ⊢
  obtain ⟨shader, _, device⟩ := after
  rcases link_cases hlink with ⟨program, hcreate, rfl⟩ | ⟨hreason, rfl⟩
  · exact ⟨true, rfl, fun _ => rfl, fun _ => ⟨program, rfl, hcreate⟩⟩
  · refine ⟨false, rfl, fun hdue => ?_, fun hrebuilt => nomatch hrebuilt⟩
    exfalso
    rcases hreason with hfits | hunknown
    · simp [needsRebuild, hdue] at hfits
    · -- A compiled slot would be something to make a program from.
      simp only [isKnown, Bool.or_eq_false_iff, Option.isSome_eq_false_iff,
        Option.isNone_iff_eq_none] at hunknown
      obtain ⟨⟨⟨hnoVertex, hnoFragment⟩, _⟩, _⟩ := hunknown
      rcases Bool.or_eq_true_iff.mp hdue with hdue | hdue
      · obtain ⟨text, htext⟩ := Option.isSome_iff_exists.mp hdue
        rw [htext] at hvertex
        have hne := DrawState.ne_nil_of_vertexText? (Slot.eq_some_of_pending? htext)
        have hsome := (compileSlot_some hne hvertex).2
        rw [hnoVertex] at hsome
        cases hsome
      · obtain ⟨text, htext⟩ := Option.isSome_iff_exists.mp hdue
        rw [htext] at hfragment
        have hne := DrawState.ne_nil_of_fragmentText? (Slot.eq_some_of_pending? htext)
        have hsome := (compileSlot_some hne hfragment).2
        rw [hnoFragment] at hsome
        cases hsome

def unforcedOutcome (frame : Frame δ π) (context : RenderContext) (draw : DrawState) :
    FrameOutcome where
  vertexRecompiled := (frame.shader.vertex.pending? (draw.vertexText? context) false).isSome
  fragmentRecompiled := (frame.shader.fragment.pending? (draw.fragmentText? context) false).isSome

/-- When an update has failed, the next one that gets the same texts without force, and
succeeds, compiles exactly the slots that were due for another reason than force. -/
theorem recompiled_of_retry {error : ComposeError} {result : σ}
    (hfailed : (frame.update backend context draw block).1 = .error error)
    (hshader : next.shader = (frame.update backend context draw block).2.shader)
    (hvertex : nextDraw.vertexText? nextContext = draw.vertexText? context)
    (hfragment : nextDraw.fragmentText? nextContext = draw.fragmentText? context)
    (hforce : nextDraw.forceCompile = false)
    (hnext : (next.update nextBackend nextContext nextDraw nextBlock).1 = .ok result) :
    Recompiled nextBackend next (next.update nextBackend nextContext nextDraw nextBlock).2
      (frame.unforcedOutcome context draw) := by
  have hkeeps := frame.keeps_accepted context draw
  rw [← update_error hfailed, ← hshader] at hkeeps
  have hdue : next.outcome nextContext nextDraw = frame.unforcedOutcome context draw := by
    simp only [outcome, unforcedOutcome, vertexPending?, fragmentPending?, hkeeps.vertex,
      hkeeps.fragment, hvertex, hfragment, hforce]
  rw [← hdue]
  exact recompiled_of_update hnext

def lossyBackend : Backend Bool Nat where
  createProgram _ lost := (if lost then .error (.programCreation "lost".toList) else .ok 0, lost)

def plainContext : RenderContext where
  tick := 0
  time := .ofNat 0
  viewportWidth := 1
  viewportHeight := 1
  pixelRatio := .ofNat 1

def vertexDraw (text : String) (forceCompile : Bool) : DrawState where
  uniforms := none
  attributes := none
  defines := .empty
  forceCompile := forceCompile
  vertex := some (.literal text.toList)
  fragment := none

def updateOn (frame : Frame Bool Nat) (lost : Bool) (draw : DrawState) :
    Except ComposeError (Option Nat) × Frame Bool Nat :=
  { frame with device := lost }.update lossyBackend plainContext draw fun _ program => program

def freshFrame : Frame Bool Nat :=
  ⟨.create none .empty, .ofSettings { includeBuiltins := false }, false⟩

def boundFrame : Frame Bool Nat :=
  (freshFrame.updateOn false (vertexDraw "void main();" false)).2

set_option maxRecDepth 10000 in
theorem recompiled_of_retry_changed :
    (boundFrame.updateOn true (vertexDraw "void other();" false)).1 =
      .error (.programCreation "lost".toList) ∧
    ((boundFrame.updateOn true (vertexDraw "void other();" false)).2.updateOn false
      (vertexDraw "void other();" false)).1 = .ok (some 0) ∧
    Recompiled lossyBackend
      { (boundFrame.updateOn true (vertexDraw "void other();" false)).2 with device := false }
      ((boundFrame.updateOn true (vertexDraw "void other();" false)).2.updateOn false
        (vertexDraw "void other();" false)).2
      { vertexRecompiled := true } := by
  have hfailed : (boundFrame.updateOn true (vertexDraw "void other();" false)).1 =
      .error (.programCreation "lost".toList) := by
    decide +kernel
  have hnext : ((boundFrame.updateOn true (vertexDraw "void other();" false)).2.updateOn false
      (vertexDraw "void other();" false)).1 = .ok (some 0) := by
    decide +kernel
  have hdue : ({ boundFrame with device := true } : Frame Bool Nat).unforcedOutcome plainContext
      (vertexDraw "void other();" false) = { vertexRecompiled := true } := by
    decide +kernel
  refine ⟨hfailed, hnext, ?_⟩
  rw [← hdue]
  exact recompiled_of_retry hfailed rfl rfl rfl rfl hnext

set_option maxRecDepth 10000 in
/-- The forced update fails, and the next one leaves the slot and the program alone. -/
theorem not_recompiled_of_forced_retry :
    (boundFrame.outcome plainContext (vertexDraw "void main();" true)).vertexRecompiled = true ∧
    (boundFrame.updateOn true (vertexDraw "void main();" true)).1 =
      .error (.programCreation "lost".toList) ∧
    ((boundFrame.updateOn true (vertexDraw "void main();" true)).2.updateOn false
      (vertexDraw "void main();" false)).1 = .ok (some 0) ∧
    ((boundFrame.updateOn true (vertexDraw "void main();" true)).2.updateOn false
      (vertexDraw "void main();" false)).2.shader.lastOutcome = {} := by
  decide +kernel

end Frame

end GlslCompose
