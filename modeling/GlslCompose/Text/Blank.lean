import GlslCompose.Text.Basic

/-!
# Blank characters

The blank characters are those with the Unicode property `White_Space`.  They
separate tokens, and a line that holds nothing else is a blank line.
-/

namespace GlslCompose

def isBlankCodePoint (code : Nat) : Bool :=
  (9 ≤ code && code ≤ 13) || code == 0x20 || code == 0x85 || code == 0xA0 ||
    code == 0x1680 || (0x2000 ≤ code && code ≤ 0x200A) || code == 0x2028 ||
    code == 0x2029 || code == 0x202F || code == 0x205F || code == 0x3000

def isBlank (char : Char) : Bool := isBlankCodePoint char.toNat

namespace Text

def trimStart (source : Text) : Text := source.dropWhile isBlank

def trimEnd (source : Text) : Text := (source.reverse.dropWhile isBlank).reverse

def trim (source : Text) : Text := (trimStart source).trimEnd

def IsBlankLine (line : Text) : Prop := ∀ char ∈ line, isBlank char = true

instance (line : Text) : Decidable (IsBlankLine line) :=
  List.decidableBAll (fun char => isBlank char = true) line

def firstWord? (source : Text) : Option Text :=
  match source.trimStart.takeWhile (fun char => !isBlank char) with
  | [] => none
  | word => some word

end Text

end GlslCompose
