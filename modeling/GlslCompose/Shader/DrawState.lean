import GlslCompose.Define.Set
import GlslCompose.Number.Double
import GlslCompose.Shader.Program

/-!
# Draw states

A draw state says what one frame asks of a shader.  A source may be given as
text or computed from the frame; a source that yields nothing or the empty text
leaves the slot as it is.
-/

namespace GlslCompose

structure RenderContext where
  tick : Nat
  time : Double
  viewportWidth : Nat
  viewportHeight : Nat
  pixelRatio : Double
deriving DecidableEq, Repr

structure DrawInputs where
  uniforms : Option (Shared Uniforms)
  attributes : Option (Shared Attributes)
  defines : DefineSet
  forceCompile : Bool
deriving DecidableEq, Repr

inductive ShaderSource where
  | literal (source : Text)
  | dynamic (compute : RenderContext → DrawInputs → Option Text)

namespace ShaderSource

def viable? (source : ShaderSource) (context : RenderContext) (inputs : DrawInputs) :
    Option Text :=
  let text? :=
    match source with
    | literal text => some text
    | dynamic compute => compute context inputs
  text?.filter fun text => text ≠ []

end ShaderSource

structure DrawState extends DrawInputs where
  vertex : Option ShaderSource
  fragment : Option ShaderSource

namespace DrawState

def vertexText? (draw : DrawState) (context : RenderContext) : Option Text :=
  draw.vertex.bind fun source => source.viable? context draw.toDrawInputs

def fragmentText? (draw : DrawState) (context : RenderContext) : Option Text :=
  draw.fragment.bind fun source => source.viable? context draw.toDrawInputs

end DrawState

end GlslCompose
