import GlslCompose.Error

/-!
# Programs

A backend turns a description of a program into a program of its own kind.  The
description has the final text of both stages and the sets of uniforms and
attributes, as far as each is known.  Sets are shared by handle: two handles are
the same only if they were made together, whatever their sets hold.
-/

namespace GlslCompose

inductive UniformType where
  | float
  | int
  | bool
  | vec2
  | vec3
  | vec4
  | mat3
  | mat4
  | sampler
deriving DecidableEq, Repr

namespace UniformType

def glslName : UniformType → Text
  | float => "float".toList
  | int => "int".toList
  | bool => "bool".toList
  | vec2 => "vec2".toList
  | vec3 => "vec3".toList
  | vec4 => "vec4".toList
  | mat3 => "mat3".toList
  | mat4 => "mat4".toList
  | sampler => "sampler2D".toList

end UniformType

structure AttributeBinding where
  buffer : Nat
  components : Nat
  normalized : Bool
  stride : Nat
  offset : Nat
deriving DecidableEq, Repr

abbrev Uniforms := List (Text × UniformType)

abbrev Attributes := List (Text × AttributeBinding)

structure Shared (α : Type) where
  identity : Nat
  value : α
deriving DecidableEq, Repr

namespace Shared

def same {α : Type} : Option (Shared α) → Option (Shared α) → Bool
  | some first, some second => first.identity == second.identity
  | none, none => true
  | _, _ => false

end Shared

structure ProgramDescriptor where
  label : Option Text
  vertex : Option Text
  fragment : Option Text
  uniforms : Option Uniforms
  attributes : Option Attributes
deriving DecidableEq, Repr

structure Backend (δ π : Type) where
  createProgram : ProgramDescriptor → δ → Except ComposeError π × δ

end GlslCompose
