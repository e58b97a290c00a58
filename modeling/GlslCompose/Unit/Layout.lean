import GlslCompose.Text.Blank

/-!
# Line layout

A finished unit has no blank lines, except that a line of a single character is
followed by an empty one.
-/

namespace GlslCompose.Layout

def padLine (line : Text) : Text :=
  match line with
  | [char] => [char, '\n']
  | _ => line

def finalizeLines (source : Text) : Text :=
  Text.unlines ((source.lines.filter fun line => ¬line.IsBlankLine).map padLine)

end GlslCompose.Layout
