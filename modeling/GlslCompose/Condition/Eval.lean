import GlslCompose.Condition.Parser
import GlslCompose.Table
import GlslCompose.Token.Lexer

/-!
# Evaluating condition expressions

A word stands for the value of the macro of that name, read as an expression
again, or for zero if there is no such macro.  Macro values may nest sixteen deep.
-/

namespace GlslCompose

abbrev SymbolTable := Table Text Text

def truth (condition : Bool) : Int64 := if condition then 1 else 0

namespace UnaryOp

def apply : UnaryOp → Int64 → Int64
  | logicalNot, value => truth (value == 0)
  | complement, value => ~~~value
  | minus, value => -value
  | plus, value => value

end UnaryOp

namespace BinaryOp

def hasQuotient (left right : Int64) : Bool :=
  right != 0 && !(left == Int64.minValue && right == -1)

def apply (op : BinaryOp) (left right : Int64) : Except ExpressionFault Int64 :=
  match op with
  | logicalOr => .ok (truth (left != 0 || right != 0))
  | logicalAnd => .ok (truth (left != 0 && right != 0))
  | bitOr => .ok (left ||| right)
  | bitXor => .ok (left ^^^ right)
  | bitAnd => .ok (left &&& right)
  | equal => .ok (truth (left == right))
  | notEqual => .ok (truth (left != right))
  | less => .ok (truth (left < right))
  | greater => .ok (truth (right < left))
  | lessEqual => .ok (truth (left ≤ right))
  | greaterEqual => .ok (truth (right ≤ left))
  | shiftLeft => .ok (left <<< right)
  | shiftRight => .ok (left >>> right)
  | add => .ok (left + right)
  | subtract => .ok (left - right)
  | multiply => .ok (left * right)
  | divide => if hasQuotient left right then .ok (left / right) else .error .divisionByZero
  | remainder => if hasQuotient left right then .ok (left % right) else .error .divisionByZero

end BinaryOp

namespace Expr

/-- The value of an expression.  The right operand of `&&` and `||` is evaluated
only if the left one does not decide. -/
def eval (valueOf : Text → Except ExpressionFault Int64) (isDefined : Text → Bool) :
    Expr → Except ExpressionFault Int64
  | .literal value => .ok value
  | .name word => valueOf word
  | .defined word => .ok (truth (isDefined word))
  | .unary op operand => do
      let value ← eval valueOf isDefined operand
      return op.apply value
  | .binary op left right => do
      let first ← eval valueOf isDefined left
      if op = .logicalAnd ∧ first = 0 then return 0
      else if op = .logicalOr ∧ first ≠ 0 then return 1
      else
        let second ← eval valueOf isDefined right
        op.apply first second

end Expr

namespace SymbolTable

def expressionTokens (version : GlslVersion) (expression : Text) : List Token :=
  (Token.tokenize version expression).filter Token.isSignificant

def valueOf (symbols : SymbolTable) (version : GlslVersion) :
    (depth : Nat) → Text → Except ExpressionFault Int64
  | 0, word => if symbols.contains word then .error (.expansionTooDeep word) else .ok 0
  | depth + 1, word =>
      match symbols.get? word with
      | none => .ok 0
      | some value => do
          let expr ← Expr.parse (expressionTokens version value)
          expr.eval (symbols.valueOf version depth) symbols.contains

def maxExpansionDepth : Nat := 16

def evaluate (symbols : SymbolTable) (version : GlslVersion) (expression : Text) :
    Except ExpressionFault Int64 := do
  let expr ← Expr.parse (expressionTokens version expression)
  expr.eval (symbols.valueOf version maxExpansionDepth) symbols.contains

def condition (symbols : SymbolTable) (version : GlslVersion) (expression : Text) :
    Except ExpressionFault Bool := do
  let value ← symbols.evaluate version expression
  return value != 0

end SymbolTable

end GlslCompose
