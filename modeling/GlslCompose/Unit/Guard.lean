import GlslCompose.Text.Blank

/-!
# Name guards

Some tools end a source with a guard of three lines that defines `SHADER_NAME`.
The guard is removed, together with one blank right before it.  A blank may stand
at the end of its first line, and one behind the name in its second; the latter
may be a line feed, in which case one more line stands before the `#endif`.
-/

namespace GlslCompose.NameGuard

def opening : Text := "#ifndef SHADER_NAME".toList

def definition : Text := "#define SHADER_NAME".toList

def closing : Text := "\n#endif".toList

def endsAfterLine (source : Text) : Bool :=
  let rest := source.dropWhile (· != '\n')
  rest = closing || rest = closing ++ ['\n']

def endsAfterName (source : Text) : Bool :=
  endsAfterLine source ||
    match source with
    | char :: rest => isBlank char && endsAfterLine rest
    | [] => false

def endsAfterFirstLine (source : Text) : Bool :=
  match definition.isPrefixOf? source with
  | some rest => endsAfterName rest
  | none => false

def endsAfterOpening : Text → Bool
  | first :: second :: rest =>
      (first = '\n' && endsAfterFirstLine (second :: rest)) ||
        (isBlank first && second = '\n' && endsAfterFirstLine rest)
  | _ => false

def startsWithGuard (source : Text) : Bool :=
  match opening.isPrefixOf? source with
  | some rest => endsAfterOpening rest
  | none => false

def isGuard (source : Text) : Bool :=
  startsWithGuard source ||
    match source with
    | char :: rest => isBlank char && startsWithGuard rest
    | [] => false

/-- The source up to the first guard that ends it. -/
def remove : Text → Text
  | [] => []
  | char :: rest => if isGuard (char :: rest) then [] else char :: remove rest

end GlslCompose.NameGuard
