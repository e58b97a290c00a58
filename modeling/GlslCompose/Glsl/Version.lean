import GlslCompose.Text.Basic

/-!
# Dialects of the shading language

Two dialects are known: GLSL ES 1.00 and GLSL ES 3.00.
-/

namespace GlslCompose

inductive GlslVersion where
  | es100
  | es300
deriving DecidableEq, Repr

namespace GlslVersion

def isEs300 : GlslVersion → Bool
  | es100 => false
  | es300 => true

def number : GlslVersion → Nat
  | es100 => 100
  | es300 => 300

def name : GlslVersion → Text
  | es100 => "100".toList
  | es300 => "300 es".toList

def ofName? (name : Text) : Option GlslVersion :=
  [es100, es300].find? fun version => version.name = name

@[simp] theorem ofName?_name (version : GlslVersion) : ofName? version.name = some version := by
  cases version <;> decide

end GlslVersion

end GlslCompose
