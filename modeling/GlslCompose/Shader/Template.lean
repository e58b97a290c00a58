import GlslCompose.Shader.DrawState

/-!
# Source templates

A template is a source with marks that each frame fills in: the frame's tick,
perhaps divided, the size of the viewport, and the value of a define of the draw
state.  Without that define, or without a text, a template yields nothing.
-/

namespace GlslCompose

structure SourceTemplate where
  text : Option Text
  needs : Option Text
  divisor : Nat
deriving DecidableEq, Repr

namespace SourceTemplate

def mark (name : String) : Text := '\x7b' :: name.toList ++ ['\x7d']

def fillDefine (template : SourceTemplate) (defines : DefineSet) (text : Text) : Option Text :=
  match template.needs with
  | none => some text
  | some name =>
      (defines.get? name).map fun value => text.replaceAll (mark "value") value

def render (template : SourceTemplate) (context : RenderContext) (inputs : DrawInputs) :
    Option Text := do
  let text ← template.text
  let text ← template.fillDefine inputs.defines text
  let text := text.replaceAll (mark "tick") (Text.ofNat (context.tick / template.divisor))
  let text := text.replaceAll (mark "width") (Text.ofNat context.viewportWidth)
  return text.replaceAll (mark "height") (Text.ofNat context.viewportHeight)

def toSource (template : SourceTemplate) : ShaderSource := .dynamic template.render

end SourceTemplate

end GlslCompose
