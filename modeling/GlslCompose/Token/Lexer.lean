import GlslCompose.Glsl.Vocabulary
import GlslCompose.Text.Blank
import GlslCompose.Token.Basic

/-!
# Cutting source text into tokens

The lexer looks at the next character, takes the longest lexeme that the
character opens, and goes on behind it.  It rejects nothing: a character that
opens no other lexeme is an operator by itself.  Each `split` function below
returns what it takes and what it leaves, and together these are its input
(`split…_append`), so no character is lost and every step shortens the rest.
-/

namespace GlslCompose

/-! ## Character classes -/

def isDecimalDigit (char : Char) : Bool := '0' ≤ char && char ≤ '9'

def isHexDigit (char : Char) : Bool :=
  isDecimalDigit char || ('a' ≤ char && char ≤ 'f') || ('A' ≤ char && char ≤ 'F')

def isAsciiLetter (char : Char) : Bool :=
  ('a' ≤ char && char ≤ 'z') || ('A' ≤ char && char ≤ 'Z')

def opensWord (char : Char) : Bool := isAsciiLetter char || char == '_'

def continuesWord (char : Char) : Bool :=
  isAsciiLetter char || isDecimalDigit char || char == '_'

namespace Token

/-! ## Pieces of text -/

def splitWhile (accepts : Char → Bool) (source : Text) : Text × Text :=
  (source.takeWhile accepts, source.dropWhile accepts)

@[simp] theorem splitWhile_append (accepts : Char → Bool) (source : Text) :
    (splitWhile accepts source).1 ++ (splitWhile accepts source).2 = source :=
  List.takeWhile_append_dropWhile

def splitOptional (accepts : Char → Bool) : Text → Text × Text
  | [] => ([], [])
  | char :: rest => if accepts char then ([char], rest) else ([], char :: rest)

@[simp] theorem splitOptional_append (accepts : Char → Bool) (source : Text) :
    (splitOptional accepts source).1 ++ (splitOptional accepts source).2 = source := by
  cases source with
  | nil => rfl
  | cons char rest => by_cases h : accepts char <;> simp [splitOptional, h]

def splitBlockComment : Text → Text × Text
  | '*' :: '/' :: rest => (['*', '/'], rest)
  | char :: rest => (char :: (splitBlockComment rest).1, (splitBlockComment rest).2)
  | [] => ([], [])

@[simp] theorem splitBlockComment_append (source : Text) :
    (splitBlockComment source).1 ++ (splitBlockComment source).2 = source := by
  fun_induction splitBlockComment source with
  | case1 rest => rfl
  | case2 char rest _ ih => simpa using ih
  | case3 => rfl

/-- The rest of a directive.  A line feed ends it unless a backslash stands
right before the line ending. -/
def splitDirective : Text → Text × Text
  | '\\' :: '\n' :: rest =>
      ('\\' :: '\n' :: (splitDirective rest).1, (splitDirective rest).2)
  | '\\' :: '\r' :: '\n' :: rest =>
      ('\\' :: '\r' :: '\n' :: (splitDirective rest).1, (splitDirective rest).2)
  | '\n' :: rest => ([], '\n' :: rest)
  | char :: rest => (char :: (splitDirective rest).1, (splitDirective rest).2)
  | [] => ([], [])

@[simp] theorem splitDirective_append (source : Text) :
    (splitDirective source).1 ++ (splitDirective source).2 = source := by
  fun_induction splitDirective source with
  | case1 rest ih => simpa using ih
  | case2 rest ih => simpa using ih
  | case3 rest => rfl
  | case4 char rest _ _ _ ih => simpa using ih
  | case5 => rfl

/-- An operator's characters behind its first one.  The first character is
always taken. -/
def splitOperator (first : Char) (rest : Text) : Text × Text :=
  match operators.find? (fun operator => operator.isPrefixOf (first :: rest)) with
  | some operator => rest.splitAt (operator.length - 1)
  | none => ([], rest)

@[simp] theorem splitOperator_append (first : Char) (rest : Text) :
    (splitOperator first rest).1 ++ (splitOperator first rest).2 = rest := by
  unfold splitOperator
  split
  · simp [List.splitAt_eq]
  · rfl

/-! ## Numbers -/

def splitExponent (source : Text) : Text × Text :=
  let mark := splitOptional (fun char => char == 'e' || char == 'E') source
  let sign := splitOptional (fun char => char == '+' || char == '-') mark.2
  let digits := splitWhile isDecimalDigit sign.2
  if mark.1 = [] || digits.1 = [] then ([], source)
  else (mark.1 ++ sign.1 ++ digits.1, digits.2)

@[simp] theorem splitExponent_append (source : Text) :
    (splitExponent source).1 ++ (splitExponent source).2 = source := by
  unfold splitExponent
  dsimp only
  split
  · rfl
  · simp only [List.append_assoc, splitWhile_append, splitOptional_append]

/-- A point with the digits behind it.  A number that begins with a point has no
second one. -/
def splitFraction (first : Char) (source : Text) : Text × Text :=
  let point := splitOptional (· == '.') source
  let digits := splitWhile isDecimalDigit point.2
  if first = '.' ∨ point.1 = [] then ([], source) else (point.1 ++ digits.1, digits.2)

@[simp] theorem splitFraction_append (first : Char) (source : Text) :
    (splitFraction first source).1 ++ (splitFraction first source).2 = source := by
  unfold splitFraction
  dsimp only
  split
  · rfl
  · simp only [List.append_assoc, splitWhile_append, splitOptional_append]

structure Lexeme where
  kind : TokenKind
  tail : Text
  rest : Text
deriving DecidableEq, Repr

namespace Lexeme

def ofSplit (kind : TokenKind) (pieces : Text × Text) : Lexeme :=
  { kind, tail := pieces.1, rest := pieces.2 }

def withSuffix (accepts : Char → Bool) (lexeme : Lexeme) : Lexeme :=
  let suffix := splitOptional accepts lexeme.rest
  { lexeme with tail := lexeme.tail ++ suffix.1, rest := suffix.2 }

@[simp] theorem withSuffix_append (lexeme : Lexeme) (accepts : Char → Bool) :
    (lexeme.withSuffix accepts).tail ++ (lexeme.withSuffix accepts).rest =
      lexeme.tail ++ lexeme.rest := by
  simp only [Lexeme.withSuffix, List.append_assoc, splitOptional_append]

end Lexeme

def isIntegerSuffix (char : Char) : Bool := char == 'u' || char == 'U'

def isFloatSuffix (char : Char) : Bool := char == 'f' || char == 'F'

/-- A decimal number that begins with the given digit or point.  A point or an
exponent makes it a floating point number. -/
def scanDecimal (first : Char) (rest : Text) : Lexeme :=
  let digits := splitWhile isDecimalDigit rest
  let fraction := splitFraction first digits.2
  let exponent := splitExponent fraction.2
  let pieces := (digits.1 ++ fraction.1 ++ exponent.1, exponent.2)
  if first = '.' ∨ fraction.1 ≠ [] ∨ exponent.1 ≠ [] then
    (Lexeme.ofSplit .float pieces).withSuffix isFloatSuffix
  else
    (Lexeme.ofSplit .integer pieces).withSuffix isIntegerSuffix

@[simp] theorem scanDecimal_append (first : Char) (rest : Text) :
    (scanDecimal first rest).tail ++ (scanDecimal first rest).rest = rest := by
  unfold scanDecimal
  dsimp only
  split <;>
    simp only [Lexeme.withSuffix_append, Lexeme.ofSplit, List.append_assoc, splitExponent_append,
      splitFraction_append, splitWhile_append]

def scanNumber (first : Char) (rest : Text) : Lexeme :=
  let mark := splitOptional (fun char => char == 'x' || char == 'X') rest
  let digits := splitWhile isHexDigit mark.2
  if first = '0' ∧ mark.1 ≠ [] then
    (Lexeme.ofSplit .integer (mark.1 ++ digits.1, digits.2)).withSuffix isIntegerSuffix
  else
    scanDecimal first rest

@[simp] theorem scanNumber_append (first : Char) (rest : Text) :
    (scanNumber first rest).tail ++ (scanNumber first rest).rest = rest := by
  unfold scanNumber
  dsimp only
  split
  · simp only [Lexeme.withSuffix_append, Lexeme.ofSplit, List.append_assoc, splitWhile_append,
      splitOptional_append]
  · exact scanDecimal_append first rest

/-! ## Lexemes -/

def wordKind (version : GlslVersion) (word : Text) : TokenKind :=
  if version.isKeyword word then .keyword
  else if version.isBuiltin word then .builtin
  else .ident

def opensNumber (first : Char) (rest : Text) : Bool :=
  isDecimalDigit first || (first == '.' && (rest.head?.any isDecimalDigit))

def scan (version : GlslVersion) (first : Char) (rest : Text) : Lexeme :=
  if isBlank first then .ofSplit .whitespace (splitWhile isBlank rest)
  else if first = '/' ∧ rest.head? = some '/' then
    .ofSplit .lineComment (splitWhile (· != '\n') rest)
  else if first = '/' ∧ rest.head? = some '*' then
    let body := splitBlockComment (rest.drop 1)
    .ofSplit .blockComment (rest.take 1 ++ body.1, body.2)
  else if first = '#' then .ofSplit .preprocessor (splitDirective rest)
  else if opensNumber first rest then scanNumber first rest
  else if opensWord first then
    let tail := splitWhile continuesWord rest
    .ofSplit (wordKind version (first :: tail.1)) tail
  else .ofSplit .operator (splitOperator first rest)

@[simp] theorem scan_append (version : GlslVersion) (first : Char) (rest : Text) :
    (scan version first rest).tail ++ (scan version first rest).rest = rest := by
  unfold scan
  dsimp only
  split
  · exact splitWhile_append isBlank rest
  split
  · exact splitWhile_append _ rest
  split
  · simp only [Lexeme.ofSplit, List.append_assoc, splitBlockComment_append,
      List.take_append_drop]
  split
  · exact splitDirective_append rest
  split
  · exact scanNumber_append first rest
  split
  · exact splitWhile_append continuesWord rest
  · exact splitOperator_append first rest

theorem length_scan_rest_le (version : GlslVersion) (first : Char) (rest : Text) :
    (scan version first rest).rest.length ≤ rest.length := by
  have happend := congrArg List.length (scan_append version first rest)
  rw [List.length_append] at happend
  omega

/-! ## The token list -/

def tokensFrom (version : GlslVersion) (line : Nat) (source : Text) : List Token :=
  match source with
  | [] => [{ kind := .eof, text := [], line }]
  | first :: rest =>
      let lexeme := scan version first rest
      let text : Text := first :: lexeme.tail
      { kind := lexeme.kind, text, line } ::
        tokensFrom version (line + text.lineFeeds) lexeme.rest
termination_by source.length
decreasing_by exact Nat.lt_succ_of_le (length_scan_rest_le version first rest)

def tokenize (version : GlslVersion) (source : Text) : List Token :=
  tokensFrom version 1 source

@[simp] theorem concat_tokensFrom (version : GlslVersion) (line : Nat) (source : Text) :
    concat (tokensFrom version line source) = source := by
  fun_induction tokensFrom version line source with
  | case1 => rfl
  | case2 line first rest lexeme text ih =>
      have happend := scan_append version first rest
      simp only [concat, List.flatMap_cons] at ih ⊢
      rw [ih]
      exact congrArg (first :: ·) happend

@[simp] theorem concat_tokenize (version : GlslVersion) (source : Text) :
    concat (tokenize version source) = source :=
  concat_tokensFrom version 1 source

end Token

end GlslCompose
