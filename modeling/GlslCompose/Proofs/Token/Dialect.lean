import GlslCompose.Token.Lexer
import Mathlib.Data.List.Forall2

/-!
# Tokens in both dialects

A source is cut into the same pieces in both dialects.  The newer one has more reserved and
more built-in words, so a name of the older one may be such a word there; a word that is reserved
or built in already stays what it is.
-/

namespace GlslCompose

/-! ## Words -/

/-- What the older dialect takes for the first class, the newer one takes for the second. -/
inductive TokenKind.Becomes : TokenKind → TokenKind → Prop where
  | same (kind : TokenKind) : Becomes kind kind
  | reserved : Becomes .ident .keyword
  | builtin : Becomes .ident .builtin

namespace GlslVersion

private theorem isKeyword_es300 {word : Text} (h : es100.isKeyword word = true) :
    es300.isKeyword word = true := by
  rw [isKeyword, isEs300, Bool.false_and, Bool.or_false] at h
  rw [isKeyword, h, Bool.true_or]

private theorem isBuiltin_es300 {word : Text} (h : es100.isBuiltin word = true) :
    es300.isBuiltin word = true := by
  rw [isBuiltin, isEs300, Bool.false_and, Bool.or_false] at h
  rw [isBuiltin, h, Bool.true_or]

private theorem not_mem_baseBuiltins {word : Text} (h : word ∈ addedKeywords) :
    word ∉ baseBuiltins := by
  have hadded : ∀ word ∈ addedKeywords, word ∉ baseBuiltins := by decide +kernel
  exact hadded word h

private theorem isKeyword_es300_of_isBuiltin {word : Text} (h : es100.isBuiltin word = true) :
    es300.isKeyword word = es100.isKeyword word := by
  rw [isBuiltin, isEs300, Bool.false_and, Bool.or_false, List.contains_iff_mem] at h
  have hadded : addedKeywords.contains word = false := by
    rw [← Bool.not_eq_true, List.contains_iff_mem]
    exact fun hmem => not_mem_baseBuiltins hmem h
  rw [isKeyword, isKeyword, hadded, Bool.and_false, Bool.and_false]

end GlslVersion

namespace Token

private theorem becomes_wordKind (word : Text) :
    TokenKind.Becomes (wordKind .es100 word) (wordKind .es300 word) := by
  unfold wordKind
  by_cases hkeyword : GlslVersion.es100.isKeyword word = true
  · rw [if_pos hkeyword, if_pos (GlslVersion.isKeyword_es300 hkeyword)]
    exact .same _
  rw [if_neg hkeyword]
  by_cases hbuiltin : GlslVersion.es100.isBuiltin word = true
  · rw [if_pos hbuiltin, GlslVersion.isKeyword_es300_of_isBuiltin hbuiltin, if_neg hkeyword,
      if_pos (GlslVersion.isBuiltin_es300 hbuiltin)]
    exact .same _
  · rw [if_neg hbuiltin]
    split
    · exact .reserved
    split
    · exact .builtin
    · exact .same _

/-! ## Whole sources -/

structure Becomes (older newer : Token) : Prop where
  kind : older.kind.Becomes newer.kind
  text : older.text = newer.text
  line : older.line = newer.line

private theorem scan_es300 (first : Char) (rest : Text) :
    ∃ kind, (scan .es100 first rest).kind.Becomes kind ∧
      scan .es300 first rest = { scan .es100 first rest with kind } := by
  unfold scan
  split
  · exact ⟨_, .same _, rfl⟩
  split
  · exact ⟨_, .same _, rfl⟩
  split
  · exact ⟨_, .same _, rfl⟩
  split
  · exact ⟨_, .same _, rfl⟩
  split
  · exact ⟨_, .same _, rfl⟩
  split
  · exact ⟨_, becomes_wordKind _, rfl⟩
  · exact ⟨_, .same _, rfl⟩

private theorem forall₂_becomes_tokensFrom (line : Nat) (source : Text) :
    List.Forall₂ Becomes (tokensFrom .es100 line source) (tokensFrom .es300 line source) := by
  generalize hversion : GlslVersion.es100 = version
  fun_induction tokensFrom version line source with
  | case1 line =>
      rw [tokensFrom]
      exact .cons ⟨.same _, rfl, rfl⟩ .nil
  | case2 line first rest lexeme text ih =>
      subst hversion
      obtain ⟨kind, hkind, hscan⟩ := scan_es300 first rest
      rw [tokensFrom.eq_2, hscan]
      exact .cons ⟨hkind, rfl, rfl⟩ ih

theorem forall₂_becomes_tokenize (source : Text) :
    List.Forall₂ Becomes (tokenize .es100 source) (tokenize .es300 source) :=
  forall₂_becomes_tokensFrom 1 source

end Token

end GlslCompose
