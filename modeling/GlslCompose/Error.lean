import GlslCompose.IncludeTrail

/-!
# Errors

Each constructor is a cause, and `ComposeError.message` gives its wording.
-/

namespace GlslCompose

inductive ExpressionFault where
  | expectedExpression
  /-- A closing parenthesis is missing; `found` stands in its place. -/
  | unclosedParenthesis (found : Option Text)
  | unexpectedToken (found : Text)
  | invalidInteger (literal : Text)
  | floatingPoint (literal : Text)
  | definedWithoutName
  | divisionByZero
  | expansionTooDeep (name : Text)
deriving DecidableEq, Repr

inductive DirectiveFault where
  | missingName (directive : Text)
  | elifWithoutIf
  | elifAfterElse
  | elseWithoutIf
  | duplicateElse
  | endifWithoutIf
  | unterminated
deriving DecidableEq, Repr

inductive ComposeError where
  /-- An include argument lacks one of the expected delimiters. -/
  | includeSyntax (found : Option Char) (expected : List Char) (trail : IncludeTrail)
  | includeNotFound (path argument : Text) (trail : IncludeTrail)
  | includeDepthExceeded (path : Text) (limit : Nat) (trail : IncludeTrail)
  | directive (line : Nat) (fault : DirectiveFault)
  | expression (line : Nat) (fault : ExpressionFault)
  | programCreation (reason : Text)
deriving DecidableEq, Repr

def quoted (text : Text) : Text := '\'' :: text ++ ['\'']

namespace ExpressionFault

def message : ExpressionFault → Text
  | expectedExpression => "expected expression".toList
  | unclosedParenthesis none => "expected ')'".toList
  | unclosedParenthesis (some found) => "expected ')', found ".toList ++ quoted found
  | unexpectedToken found => "unexpected token ".toList ++ quoted found
  | invalidInteger literal => "invalid integer literal ".toList ++ quoted literal
  | floatingPoint literal =>
      "floating point literal ".toList ++ quoted literal ++
        " in preprocessor expression".toList
  | definedWithoutName => "'defined' requires a macro name".toList
  | divisionByZero => "division by zero".toList
  | expansionTooDeep name => "macro expansion of ".toList ++ quoted name ++ " is too deep".toList

end ExpressionFault

namespace DirectiveFault

def message : DirectiveFault → Text
  | missingName directive => '#' :: directive ++ " without a macro name".toList
  | elifWithoutIf => "#elif without #if".toList
  | elifAfterElse => "#elif after #else".toList
  | elseWithoutIf => "#else without #if".toList
  | duplicateElse => "duplicate #else".toList
  | endifWithoutIf => "#endif without #if".toList
  | unterminated => "unterminated conditional directive".toList

end DirectiveFault

namespace ComposeError

def delimiters (chars : List Char) : Text :=
  " or ".toList.intercalate (chars.map fun char => quoted [char])

def message : ComposeError → Text
  | includeSyntax found expected trail =>
      "Unexpected token ".toList ++ quoted found.toList ++ ". Expecting ".toList ++
        delimiters expected ++ '.' :: trail.render
  | includeNotFound path argument trail =>
      "glsl lib ".toList ++ argument ++ " not found (resolved to ".toList ++ quoted path ++
        ").".toList ++ trail.render
  | includeDepthExceeded path limit trail =>
      "include depth limit of ".toList ++ Text.ofNat limit ++ " exceeded while including ".toList ++
        quoted path ++ '.' :: trail.render
  | directive line fault =>
      "Directive error at line ".toList ++ Text.ofNat line ++ ": ".toList ++ fault.message
  | expression line fault =>
      "Expression error at line ".toList ++ Text.ofNat line ++ ": ".toList ++ fault.message
  | programCreation reason => "Program creation failed: ".toList ++ reason

end ComposeError

end GlslCompose
