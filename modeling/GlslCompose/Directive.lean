import GlslCompose.Text.Blank
import GlslCompose.Token.Lexer

/-!
# Directive lines

A directive line has a `#` as its first character that is not blank.  Behind the
`#`, and perhaps spaces and tabs, stands the directive's name, the longest run of
ASCII letters; the rest of the line without surrounding blanks is its body.
-/

namespace GlslCompose.Directive

def afterMark? (line : Text) : Option Text :=
  match line.trimStart with
  | '#' :: rest => some (rest.dropWhile fun char => char == ' ' || char == '\t')
  | _ => none

def name? (line : Text) : Option Text :=
  match afterMark? line with
  | none => none
  | some rest =>
      match rest.takeWhile isAsciiLetter with
      | [] => none
      | name => some name

def body (name line : Text) : Text :=
  match afterMark? line with
  | none => []
  | some rest =>
      match name.isPrefixOf? rest with
      | some body => Text.trim body
      | none => []

def defineName : Text := "define".toList

def undefName : Text := "undef".toList

def includeName : Text := "include".toList

def versionName : Text := "version".toList

def extensionName : Text := "extension".toList

def defineLine (key value : Text) : Text :=
  "#define ".toList ++ key ++ ' ' :: value

end GlslCompose.Directive
