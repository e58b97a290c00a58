import GlslCompose.Text.Basic

/-!
# Include trails

While an include is being resolved, the trail lists the includes that led to it,
the outermost first.  A frame names the included module and the line of the
directive in the unit that includes it.
-/

namespace GlslCompose

structure IncludeFrame where
  path : Text
  line : Nat
deriving DecidableEq, Repr

abbrev IncludeTrail := List IncludeFrame

namespace IncludeTrail

def push (trail : IncludeTrail) (path : Text) (line : Nat) : IncludeTrail :=
  trail ++ [⟨path, line⟩]

def pop? (trail : IncludeTrail) : Option (IncludeFrame × IncludeTrail) :=
  trail.getLast?.map fun frame => (frame, trail.dropLast)

def frameText (frame : IncludeFrame) : Text :=
  "\n\tat (glsl) ".toList ++ frame.path ++ ':' :: Text.ofNat frame.line

def render (trail : IncludeTrail) : Text := trail.flatMap frameText

end IncludeTrail

end GlslCompose
