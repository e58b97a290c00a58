import GlslCompose.Directive

/-!
# Lines as conditional processing sees them

A line either is ordinary text, or opens, continues or closes a conditional
group, or changes the symbol table, or is some other directive.
-/

namespace GlslCompose

inductive SourceLine where
  | text
  /-- `#ifdef` or `#ifndef`; the group is taken if the name's being defined is `expected`. -/
  | ifDefined (expected : Bool) (name : Option Text)
  | ifExpression (expression : Text)
  | elif (expression : Text)
  | elseArm
  | endif
  | define (definition : Option (Text × Text))
  | undef (name : Option Text)
  | otherDirective
deriving DecidableEq, Repr

/-- Splits the body of a `#define` into name and value.  A parameter list counts
as a part of the value. -/
def splitDefinition? (body : Text) : Option (Text × Text) :=
  let endsName (char : Char) : Bool := isBlank char || char == '('
  match body.takeWhile (fun char => !endsName char) with
  | [] => none
  | name => some (name, Text.trim (body.dropWhile fun char => !endsName char))

namespace SourceLine

def ifdefName : Text := "ifdef".toList

def ifndefName : Text := "ifndef".toList

def ifName : Text := "if".toList

def elifName : Text := "elif".toList

def elseName : Text := "else".toList

def endifName : Text := "endif".toList

def ofDirective (name line : Text) : SourceLine :=
  let body := Directive.body name line
  if name = ifdefName then ifDefined true body.firstWord?
  else if name = ifndefName then ifDefined false body.firstWord?
  else if name = ifName then ifExpression body
  else if name = elifName then elif body
  else if name = elseName then elseArm
  else if name = endifName then endif
  else if name = Directive.defineName then define (splitDefinition? body)
  else if name = Directive.undefName then undef body.firstWord?
  else otherDirective

def ofText (line : Text) : SourceLine :=
  match Directive.name? line with
  | none => text
  | some name => ofDirective name line

end SourceLine

end GlslCompose
