import GlslCompose.Directive
import GlslCompose.Text.WordCharacter

/-!
# Precision statements

A unit has one precision statement, the configured one.  It stands on the first
line, or on the second if the first is a `#version` directive.  All other
statements are removed with the spaces and tabs around them.
-/

namespace GlslCompose.Precision

def word : Text := "precision".toList

def header (precision : Text) : Text := word ++ ' ' :: precision ++ [';']

def isSpaceOrTab (char : Char) : Bool := char == ' ' || char == '\t'

def isLowercase (char : Char) : Bool := 'a' ≤ char && char ≤ 'z'

def dropSome? (accepts : Char → Bool) : Text → Option Text
  | [] => none
  | char :: rest => if accepts char then some (rest.dropWhile accepts) else none

/-- What follows the statement at the front of the source, if there is one.  The
statement's first word may not continue a word. -/
def afterStatement? (afterWord : Bool) (source : Text) : Option Text := do
  guard (!afterWord || source.head?.any isSpaceOrTab)
  let rest ← word.isPrefixOf? (source.dropWhile isSpaceOrTab)
  let rest ← dropSome? isBlank rest
  let rest ← dropSome? isLowercase rest
  let rest ← dropSome? isBlank rest
  let rest ← dropSome? isAsciiLetter rest
  match rest.dropWhile isSpaceOrTab with
  | ';' :: rest => some (rest.dropWhile fun char => isSpaceOrTab char || char == '\r')
  | _ => none

/-- Removes statements; the first `skip` characters still belong to the last one. -/
def removeFrom (afterWord : Bool) : (skip : Nat) → Text → Text
  | _, [] => []
  | skip + 1, char :: rest => removeFrom (isWordCharacter char) skip rest
  | 0, char :: rest =>
      match afterStatement? afterWord (char :: rest) with
      | some after => removeFrom (isWordCharacter char) (rest.length - after.length) rest
      | none => char :: removeFrom (isWordCharacter char) 0 rest

def removeStatements (source : Text) : Text := removeFrom false 0 source

def inject (precision source : Text) : Text :=
  let header := header precision
  let source := removeStatements (source.replaceFirst header [])
  let body := source.trimStart
  if Directive.name? body = some Directive.versionName then
    let (version, rest) := body.splitFirstLine
    version ++ '\n' :: header ++ '\n' :: rest
  else header ++ '\n' :: source

end GlslCompose.Precision
