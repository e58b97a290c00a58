import GlslCompose.Condition.Expr
import GlslCompose.Error
import GlslCompose.Number.Reader
import GlslCompose.Token.Basic

/-!
# Parsing condition expressions

An expression is a chain of operands with binary operators between them.  The
operands are read first, and the levels of the operators then decide how the
chain is grouped.  Every reading step leaves fewer tokens than it was given.
-/

namespace GlslCompose

/-! ## Chains -/

abbrev PendingOps := List (Expr × BinaryOp)

namespace Expr

def reduce (level : Nat) : PendingOps → Expr → PendingOps × Expr
  | [], current => ([], current)
  | (left, op) :: pending, current =>
      if level ≤ op.level then reduce level pending (.binary op left current)
      else ((left, op) :: pending, current)

def climb (pending : PendingOps) (current : Expr) : List (BinaryOp × Expr) → Expr
  | [] => (reduce 0 pending current).2
  | (op, operand) :: links =>
      let (pending, left) := reduce op.level pending current
      climb ((left, op) :: pending) operand links

def ofChain (first : Expr) (links : List (BinaryOp × Expr)) : Expr := climb [] first links

end Expr

/-! ## Tokens -/

/-- The value of an integer literal: hexadecimal behind `0x`, octal behind a
leading zero, otherwise decimal.  Values beyond 64 signed bits are refused. -/
def integerLiteral? (literal : Text) : Option Int64 :=
  let digits := (literal.reverse.dropWhile fun char => char == 'u' || char == 'U').reverse
  let value? :=
    match digits with
    | '0' :: mark :: rest =>
        if mark = 'x' ∨ mark = 'X' then Text.readNat? 16 rest else Text.readNat? 8 (mark :: rest)
    | _ => Text.readNat? 10 digits
  value?.bind fun value => if value < 0x8000000000000000 then some (Int64.ofNat value) else none

def definedWord : Text := "defined".toList

def binaryOp? (token : Token) : Option BinaryOp :=
  if token.kind = .operator then BinaryOp.ofSymbol? token.text else none

structure Parsed (α : Type) (tokens : List Token) where
  value : α
  rest : List Token
  shorter : rest.length < tokens.length

def expectClosing (tokens : List Token) : Except ExpressionFault (Parsed Unit tokens) :=
  match tokens with
  | [] => .error (.unclosedParenthesis none)
  | token :: rest =>
      if token.text = [')'] then .ok ⟨(), rest, Nat.lt_succ_self _⟩
      else .error (.unclosedParenthesis (some token.text))

def macroName (tokens : List Token) : Except ExpressionFault (Parsed Text tokens) :=
  match tokens with
  | [] => .error .definedWithoutName
  | token :: rest =>
      if token.kind.isWord then .ok ⟨token.text, rest, Nat.lt_succ_self _⟩
      else .error .definedWithoutName

def definedOperand (tokens : List Token) : Except ExpressionFault (Parsed Expr tokens) :=
  match tokens with
  | [] => .error .definedWithoutName
  | token :: rest =>
      if token.text = ['('] then do
        let name ← macroName rest
        let closing ← expectClosing name.rest
        return ⟨.defined name.value, closing.rest,
          Nat.lt_succ_of_lt (Nat.lt_trans closing.shorter name.shorter)⟩
      else do
        let name ← macroName (token :: rest)
        return ⟨.defined name.value, name.rest, name.shorter⟩

/-! ## Operands and chains -/

mutual

def operand (tokens : List Token) : Except ExpressionFault (Parsed Expr tokens) :=
  match tokens with
  | [] => .error .expectedExpression
  | token :: rest =>
      match token.kind with
      | .operator =>
          if token.text = ['('] then do
            let inner ← chain rest
            let closing ← expectClosing inner.rest
            return ⟨inner.value, closing.rest,
              Nat.lt_succ_of_lt (Nat.lt_trans closing.shorter inner.shorter)⟩
          else
            match UnaryOp.ofSymbol? token.text with
            | some op => do
                let inner ← operand rest
                return ⟨.unary op inner.value, inner.rest, Nat.lt_succ_of_lt inner.shorter⟩
            | none => .error (.unexpectedToken token.text)
      | .integer =>
          match integerLiteral? token.text with
          | some value => .ok ⟨.literal value, rest, Nat.lt_succ_self _⟩
          | none => .error (.invalidInteger token.text)
      | .float => .error (.floatingPoint token.text)
      | .ident | .keyword | .builtin =>
          if token.text = definedWord then do
            let name ← definedOperand rest
            return ⟨name.value, name.rest, Nat.lt_succ_of_lt name.shorter⟩
          else .ok ⟨.name token.text, rest, Nat.lt_succ_self _⟩
      | _ => .error (.unexpectedToken token.text)
termination_by (tokens.length, 0)

def links (tokens : List Token) :
    Except ExpressionFault
      (List (BinaryOp × Expr) × { rest : List Token // rest.length ≤ tokens.length }) :=
  match tokens with
  | [] => .ok ([], ⟨[], Nat.le_refl _⟩)
  | token :: rest =>
      match binaryOp? token with
      | none => .ok ([], ⟨token :: rest, Nat.le_refl _⟩)
      | some op => do
          let right ← operand rest
          have := right.shorter
          let (more, after) ← links right.rest
          return ((op, right.value) :: more,
            ⟨after.1, Nat.le_succ_of_le (Nat.le_trans after.2 (Nat.le_of_lt right.shorter))⟩)
termination_by (tokens.length, 0)

def chain (tokens : List Token) : Except ExpressionFault (Parsed Expr tokens) := do
  let first ← operand tokens
  have := first.shorter
  let (more, after) ← links first.rest
  return ⟨Expr.ofChain first.value more, after.1, Nat.lt_of_le_of_lt after.2 first.shorter⟩
termination_by (tokens.length, 1)

end

def Expr.parse (tokens : List Token) : Except ExpressionFault Expr := do
  let parsed ← chain tokens
  match parsed.rest with
  | [] => return parsed.value
  | token :: _ => throw (.unexpectedToken token.text)

end GlslCompose
