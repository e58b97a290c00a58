import GlslCompose.Directive
import GlslCompose.ModulePath
import GlslCompose.Token.Lexer

/-!
# Include arguments

The argument of an `#include` stands in angle brackets or in double quotes.  A
target in angle brackets is relative to the root of the module tree, and a target
in quotes to the directory of the unit.
-/

namespace GlslCompose.Include

structure Refusal where
  found : Option Char
  expected : List Char
deriving DecidableEq, Repr

/-- The closing delimiter and the directory that belong to an opening delimiter. -/
def form? (directory : Text) (opening : Char) : Option (Char × Text) :=
  if opening = '<' then some ('>', ModulePath.root)
  else if opening = '"' then some ('"', directory)
  else none

def relativeTo (directory target : Text) : Text :=
  let target := target.trim
  let relative := if target.head? = some '.' then target else '.' :: '/' :: target
  ModulePath.resolve relative directory

def path (directory argument : Text) : Except Refusal Text :=
  match argument with
  | [] => .error { found := none, expected := ['<', '"'] }
  | opening :: rest =>
      match form? directory opening with
      | none => .error { found := some opening, expected := ['<', '"'] }
      | some (closing, base) =>
          if rest.getLast? = some closing then .ok (relativeTo base rest.dropLast)
          else .error { found := rest.getLast?, expected := [closing] }

inductive Request where
  | nothing
  | keep (text : Text)
  | fetch (argument : Text)
deriving DecidableEq, Repr

/-- A `#define` of a name alone gets the value one. -/
def completeDefine (text : Text) : Text :=
  let body := Directive.body Directive.defineName text
  if body = [] ∨ body.any isBlank then text else text.trimEnd ++ [' ', '1']

def requestOfDirective (text : Text) : Request :=
  match Directive.name? text with
  | none => .keep text
  | some name =>
      if name = Directive.defineName then .keep (completeDefine text)
      else if name = Directive.includeName then .fetch (Directive.body name text)
      else .keep text

/-- Comments are dropped, and every token but a directive is kept as it is. -/
def request (token : Token) : Request :=
  match token.kind with
  | .eof | .blockComment | .lineComment => .nothing
  | .preprocessor => requestOfDirective token.text
  | _ => .keep token.text

end GlslCompose.Include
