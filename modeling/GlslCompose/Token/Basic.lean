import GlslCompose.Text.Basic

/-!
# Tokens

A token is a stretch of source text with its class and the line on which it
starts.  Lines count from one.
-/

namespace GlslCompose

inductive TokenKind where
  | whitespace
  | ident
  | operator
  | builtin
  | keyword
  | integer
  | float
  /-- A whole directive from its `#` on, continued lines included. -/
  | preprocessor
  | blockComment
  | lineComment
  /-- The empty token behind the last character. -/
  | eof
deriving DecidableEq, Repr

namespace TokenKind

def isComment : TokenKind → Bool
  | blockComment | lineComment => true
  | _ => false

def isWord : TokenKind → Bool
  | ident | keyword | builtin => true
  | _ => false

end TokenKind

structure Token where
  kind : TokenKind
  text : Text
  line : Nat
deriving DecidableEq, Repr

namespace Token

def concat (tokens : List Token) : Text := tokens.flatMap Token.text

def isSignificant (token : Token) : Bool :=
  match token.kind with
  | .whitespace | .blockComment | .lineComment | .eof => false
  | _ => true

end Token

end GlslCompose
