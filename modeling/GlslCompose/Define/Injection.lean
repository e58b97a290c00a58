import GlslCompose.Define.Set
import GlslCompose.Directive

/-!
# Injecting defines

The defines of a unit become `#define` lines in its source.  They stand behind
the last line that is a `#version` or an `#extension` directive, or at the very
top if there is none.
-/

namespace GlslCompose

namespace DefineSet

def block (set : DefineSet) : Text :=
  set.toList.flatMap fun (name, value) => Directive.defineLine name value ++ ['\n']

def isPreamble (line : Text) : Bool :=
  match Directive.name? line with
  | some name => name = Directive.versionName || name = Directive.extensionName
  | none => false

def splitPreamble : List Text → List Text × List Text
  | [] => ([], [])
  | line :: lines =>
      match splitPreamble lines with
      | ([], rest) => if isPreamble line then ([line], rest) else ([], line :: rest)
      | (head, rest) => (line :: head, rest)

def insertBlock (head block tail : Text) : Text :=
  if head = [] ∨ head.getLast? = some '\n' then head ++ block ++ tail
  else head ++ '\n' :: block ++ tail

def inject (set : DefineSet) (source : Text) : Text :=
  if set.isEmpty then source
  else
    let (head, tail) := splitPreamble source.linesWithEnds
    insertBlock head.flatten set.block tail.flatten

end DefineSet

end GlslCompose
