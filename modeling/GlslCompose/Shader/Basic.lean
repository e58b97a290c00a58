import GlslCompose.Library.Basic
import GlslCompose.Shader.DrawState

/-!
# Shaders

A shader has a slot for each stage and the program that was made from both.  An
update compares the frame with what the shader holds: a slot is compiled only if
its source is new, was never compiled, or is forced, and a program is made only
if something that it depends on has changed.  An update that fails leaves slots,
program and bound handles as they were.
-/

namespace GlslCompose

/-- The last source of a stage and its final text. -/
structure Slot where
  raw : Option Text
  compiled : Option Text
deriving DecidableEq, Repr

namespace Slot

def empty : Slot := { raw := none, compiled := none }

def pending? (slot : Slot) (next : Option Text) (force : Bool) : Option Text :=
  next.filter fun text => force || slot.compiled.isNone || slot.raw ≠ some text

end Slot

inductive BindingState where
  | idle
  /-- A slot is due for compilation, or its last compilation failed. -/
  | pendingCompile
  | bound
deriving DecidableEq, Repr

structure FrameOutcome where
  vertexRecompiled : Bool := false
  fragmentRecompiled : Bool := false
  programRebuilt : Bool := false
deriving DecidableEq, Repr

namespace FrameOutcome

def recompiled (outcome : FrameOutcome) : Bool :=
  outcome.vertexRecompiled || outcome.fragmentRecompiled

end FrameOutcome

structure Shader (π : Type) where
  name : Option Text
  /-- The initial defines and those of every draw state so far. -/
  defines : DefineSet
  vertex : Slot
  fragment : Slot
  uniforms : Option (Shared Uniforms)
  attributes : Option (Shared Attributes)
  boundUniforms : Option (Shared Uniforms)
  boundAttributes : Option (Shared Attributes)
  program : Option π
  state : BindingState
  lastOutcome : FrameOutcome
deriving DecidableEq, Repr

namespace Shader

variable {δ π ρ : Type}

def create (name : Option Text) (defines : DefineSet) : Shader π where
  name := name
  defines := defines
  vertex := .empty
  fragment := .empty
  uniforms := none
  attributes := none
  boundUniforms := none
  boundAttributes := none
  program := none
  state := .idle
  lastOutcome := {}

def accept (shader : Shader π) (draw : DrawState) : Shader π :=
  { shader with
    defines := shader.defines.merge draw.defines
    uniforms := draw.uniforms <|> shader.uniforms
    attributes := draw.attributes <|> shader.attributes
    lastOutcome := {} }

def vertexPending? (shader : Shader π) (context : RenderContext) (draw : DrawState) :
    Option Text :=
  shader.vertex.pending? (draw.vertexText? context) draw.forceCompile

def fragmentPending? (shader : Shader π) (context : RenderContext) (draw : DrawState) :
    Option Text :=
  shader.fragment.pending? (draw.fragmentText? context) draw.forceCompile

def markPending (shader : Shader π) (due : Bool) : Shader π :=
  if due then { shader with state := .pendingCompile } else shader

def compileSlot (name : Option Text) (library : Library) (slot : Slot) (pending : Option Text) :
    Except ComposeError Slot × Library :=
  match pending with
  | none => (.ok slot, library)
  | some raw =>
      match library.compile name raw with
      | (.error error, library) => (.error error, library)
      | (.ok none, library) => (.ok { raw := some raw, compiled := none }, library)
      | (.ok (some text), library) =>
          ((library.preprocess text).map fun text => { raw := some raw, compiled := some text },
            library)

def needsRebuild (shader : Shader π) (outcome : FrameOutcome) (force : Bool) : Bool :=
  shader.program.isNone || outcome.recompiled || force ||
    !Shared.same shader.uniforms shader.boundUniforms ||
    !Shared.same shader.attributes shader.boundAttributes

def isKnown (shader : Shader π) (vertex fragment : Slot) : Bool :=
  vertex.compiled.isSome || fragment.compiled.isSome || shader.uniforms.isSome ||
    shader.attributes.isSome

def descriptor (shader : Shader π) (vertex fragment : Slot) : ProgramDescriptor where
  label := shader.name
  vertex := vertex.compiled
  fragment := fragment.compiled
  uniforms := shader.uniforms.map Shared.value
  attributes := shader.attributes.map Shared.value

def commit (shader : Shader π) (vertex fragment : Slot) (outcome : FrameOutcome) : Shader π :=
  { shader with
    vertex
    fragment
    state := if shader.program.isSome then .bound else .idle
    lastOutcome := outcome }

def bind (shader : Shader π) (program : π) : Shader π :=
  { shader with
    program := some program
    boundUniforms := shader.uniforms
    boundAttributes := shader.attributes }

/-- Makes a new program if one is needed, and commits the slots with it. -/
def link (shader : Shader π) (backend : Backend δ π) (device : δ) (vertex fragment : Slot)
    (outcome : FrameOutcome) (force : Bool) : Except ComposeError (Shader π) × δ :=
  if shader.needsRebuild outcome force && shader.isKnown vertex fragment then
    match backend.createProgram (shader.descriptor vertex fragment) device with
    | (.error error, device) => (.error error, device)
    | (.ok program, device) =>
        (.ok ((shader.bind program).commit vertex fragment
          { outcome with programRebuilt := true }), device)
  else (.ok (shader.commit vertex fragment outcome), device)

def draw (shader : Shader π) (context : RenderContext)
    (block : RenderContext → Option π → ρ) : ρ :=
  block context shader.program

end Shader

structure Frame (δ π : Type) where
  shader : Shader π
  library : Library
  device : δ

namespace Frame

variable {δ π ρ : Type}

/-- Brings the shader up to date with a draw state and runs a block with its
program.  The block does not run if something fails. -/
def update (frame : Frame δ π) (backend : Backend δ π) (context : RenderContext)
    (draw : DrawState) (block : RenderContext → Option π → ρ) :
    Except ComposeError ρ × Frame δ π :=
  let shader := frame.shader.accept draw
  let library := frame.library.mergeDefines shader.defines
  let vertexPending := shader.vertexPending? context draw
  let fragmentPending := shader.fragmentPending? context draw
  let outcome : FrameOutcome :=
    { vertexRecompiled := vertexPending.isSome, fragmentRecompiled := fragmentPending.isSome }
  let shader := shader.markPending outcome.recompiled
  match Shader.compileSlot shader.name library shader.vertex vertexPending with
  | (.error error, library) => (.error error, { frame with shader, library })
  | (.ok vertex, library) =>
      match Shader.compileSlot shader.name library shader.fragment fragmentPending with
      | (.error error, library) => (.error error, { frame with shader, library })
      | (.ok fragment, library) =>
          match shader.link backend frame.device vertex fragment outcome draw.forceCompile with
          | (.error error, device) => (.error error, ⟨shader, library, device⟩)
          | (.ok shader, device) => (.ok (shader.draw context block), ⟨shader, library, device⟩)

end Frame

end GlslCompose
