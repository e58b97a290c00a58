import GlslCompose.Text.Basic

/-!
# Condition expressions

The expressions of `#if` and `#elif` compute with 64-bit signed integers that
wrap around.  Binary operators are left-associative; their levels say how tightly
they bind, from `||` at one up to multiplication at ten.
-/

namespace GlslCompose

inductive UnaryOp where
  | logicalNot
  | complement
  | minus
  | plus
deriving DecidableEq, Repr

inductive BinaryOp where
  | logicalOr
  | logicalAnd
  | bitOr
  | bitXor
  | bitAnd
  | equal
  | notEqual
  | less
  | greater
  | lessEqual
  | greaterEqual
  | shiftLeft
  | shiftRight
  | add
  | subtract
  | multiply
  | divide
  | remainder
deriving DecidableEq, Repr

inductive Expr where
  | literal (value : Int64)
  | name (word : Text)
  | defined (word : Text)
  | unary (op : UnaryOp) (operand : Expr)
  | binary (op : BinaryOp) (left right : Expr)
deriving DecidableEq, Repr

namespace UnaryOp

def symbol : UnaryOp → Text
  | logicalNot => ['!']
  | complement => ['~']
  | minus => ['-']
  | plus => ['+']

def all : List UnaryOp := [logicalNot, complement, minus, plus]

def ofSymbol? (symbol : Text) : Option UnaryOp := all.find? fun op => op.symbol = symbol

@[simp] theorem ofSymbol?_symbol (op : UnaryOp) : ofSymbol? op.symbol = some op := by
  cases op <;> decide

end UnaryOp

namespace BinaryOp

def symbol : BinaryOp → Text
  | logicalOr => ['|', '|']
  | logicalAnd => ['&', '&']
  | bitOr => ['|']
  | bitXor => ['^']
  | bitAnd => ['&']
  | equal => ['=', '=']
  | notEqual => ['!', '=']
  | less => ['<']
  | greater => ['>']
  | lessEqual => ['<', '=']
  | greaterEqual => ['>', '=']
  | shiftLeft => ['<', '<']
  | shiftRight => ['>', '>']
  | add => ['+']
  | subtract => ['-']
  | multiply => ['*']
  | divide => ['/']
  | remainder => ['%']

def level : BinaryOp → Nat
  | logicalOr => 1
  | logicalAnd => 2
  | bitOr => 3
  | bitXor => 4
  | bitAnd => 5
  | equal | notEqual => 6
  | less | greater | lessEqual | greaterEqual => 7
  | shiftLeft | shiftRight => 8
  | add | subtract => 9
  | multiply | divide | remainder => 10

def all : List BinaryOp :=
  [logicalOr, logicalAnd, bitOr, bitXor, bitAnd, equal, notEqual, less, greater, lessEqual,
    greaterEqual, shiftLeft, shiftRight, add, subtract, multiply, divide, remainder]

def ofSymbol? (symbol : Text) : Option BinaryOp := all.find? fun op => op.symbol = symbol

@[simp] theorem ofSymbol?_symbol (op : BinaryOp) : ofSymbol? op.symbol = some op := by
  cases op <;> decide

end BinaryOp

end GlslCompose
