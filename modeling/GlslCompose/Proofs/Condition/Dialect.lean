import GlslCompose.Condition.Pass
import GlslCompose.Proofs.Condition.Grammar
import GlslCompose.Proofs.Outcome
import GlslCompose.Proofs.Token.Dialect

/-!
# Conditions in both dialects

An expression may name a macro by any word, reserved or not, so the parser does not look at
what a dialect makes of a word.  Two runs over the same text, one in each dialect, keep step with
each other through the parser, through the macros that are read again when they are evaluated, and
through the lines of a source.
-/

namespace GlslCompose

/-! ## Tokens that are read alike -/

/-- The tokens have the same text, and the same class unless both are words. -/
structure Token.Resembles (token other : Token) : Prop where
  text : token.text = other.text
  kind : token.kind = other.kind ∨ (token.kind.isWord = true ∧ other.kind.isWord = true)

namespace Token

variable {token other : Token} {tokens others : List Token}

theorem Resembles.refl (token : Token) : token.Resembles token := ⟨rfl, .inl rfl⟩

theorem Resembles.symm (h : token.Resembles other) : other.Resembles token :=
  ⟨h.text.symm, h.kind.imp Eq.symm And.symm⟩

private theorem Becomes.resembles (h : token.Becomes other) : token.Resembles other := by
  refine ⟨h.text, ?_⟩
  have hkind := h.kind
  generalize token.kind = kind at hkind ⊢
  generalize other.kind = newer at hkind ⊢
  cases hkind with
  | same => exact .inl rfl
  | reserved => exact .inr ⟨rfl, rfl⟩
  | builtin => exact .inr ⟨rfl, rfl⟩

private theorem Resembles.isWord_eq (h : token.Resembles other) :
    token.kind.isWord = other.kind.isWord := by
  rcases h.kind with hkind | ⟨htoken, hother⟩
  · rw [hkind]
  · rw [htoken, hother]

private theorem isSignificant_of_isWord (h : token.kind.isWord = true) :
    token.isSignificant = true := by
  unfold isSignificant
  cases hkind : token.kind <;> simp_all [TokenKind.isWord]

theorem Resembles.isSignificant_eq (h : token.Resembles other) :
    token.isSignificant = other.isSignificant := by
  rcases h.kind with hkind | ⟨htoken, hother⟩
  · rw [isSignificant, isSignificant, hkind]
  · rw [isSignificant_of_isWord htoken, isSignificant_of_isWord hother]

private theorem Resembles.binaryOp?_eq (h : token.Resembles other) :
    binaryOp? token = binaryOp? other := by
  unfold binaryOp?
  rcases h.kind with hkind | ⟨htoken, hother⟩
  · rw [hkind, h.text]
  · rw [if_neg (by rintro hkind; rw [hkind] at htoken; cases htoken),
      if_neg (by rintro hkind; rw [hkind] at hother; cases hother)]

abbrev ReadAlike (tokens others : List Token) : Prop := List.Forall₂ Resembles tokens others

private theorem readAlike_filter (h : ReadAlike tokens others) :
    ReadAlike (tokens.filter isSignificant) (others.filter isSignificant) := by
  induction h with
  | nil => exact .nil
  | cons hfirst _ ih =>
      rw [List.filter_cons, List.filter_cons, hfirst.isSignificant_eq]
      split
      · exact .cons hfirst ih
      · exact ih

private theorem readAlike_tokenize (first second : GlslVersion) (source : Text) :
    ReadAlike (tokenize first source) (tokenize second source) := by
  have hdialects : ReadAlike (tokenize .es100 source) (tokenize .es300 source) :=
    (forall₂_becomes_tokenize source).imp fun _ _ h => h.resembles
  have hrefl : ∀ version, ReadAlike (tokenize version source) (tokenize version source) :=
    fun version => List.forall₂_same.mpr fun token _ => .refl token
  cases first with
  | es100 =>
      cases second with
      | es100 => exact hrefl _
      | es300 => exact hdialects
  | es300 =>
      cases second with
      | es100 => exact hdialects.flip.imp fun _ _ h => h.symm
      | es300 => exact hrefl _

end Token

/-! ## The parser -/

open Token

def Parsed.Agrees {α : Type} {tokens others : List Token} (first : Parsed α tokens)
    (second : Parsed α others) : Prop :=
  first.value = second.value ∧ ReadAlike first.rest second.rest

variable {tokens others : List Token}

private theorem concur_expectClosing (h : ReadAlike tokens others) :
    Concur Eq Parsed.Agrees (expectClosing tokens) (expectClosing others) := by
  cases h with
  | nil => exact .error rfl
  | @cons token other rest more hfirst hrest =>
      unfold expectClosing
      dsimp only
      rw [hfirst.text]
      split
      · exact .ok ⟨rfl, hrest⟩
      · exact .error rfl

private theorem concur_macroName (h : ReadAlike tokens others) :
    Concur Eq Parsed.Agrees (macroName tokens) (macroName others) := by
  cases h with
  | nil => exact .error rfl
  | @cons token other rest more hfirst hrest =>
      unfold macroName
      dsimp only
      rw [hfirst.isWord_eq]
      split
      · exact .ok ⟨hfirst.text, hrest⟩
      · exact .error rfl

private theorem concur_definedOperand (h : ReadAlike tokens others) :
    Concur Eq Parsed.Agrees (definedOperand tokens) (definedOperand others) := by
  cases h with
  | nil => exact .error rfl
  | @cons token other rest more hfirst hrest =>
      unfold definedOperand
      dsimp only
      rw [hfirst.text]
      split
      · refine (concur_macroName hrest).bind fun name twin hname => ?_
        refine (concur_expectClosing hname.2).bind fun closing ending hclosing => ?_
        exact .ok ⟨congrArg Expr.defined hname.1, hclosing.2⟩
      · refine (concur_macroName (.cons hfirst hrest)).bind fun name twin hname => ?_
        exact .ok ⟨congrArg Expr.defined hname.1, hname.2⟩

mutual

private theorem concur_operand {tokens others : List Token} (h : ReadAlike tokens others) :
    Concur Eq Parsed.Agrees (operand tokens) (operand others) := by
  match tokens, others, h with
  | [], [], _ =>
      rw [operand]
      exact .error rfl
  | token :: rest, other :: more, .cons hfirst hrest =>
      by_cases hword : token.kind.isWord = true
      · rw [operand_word hword, operand_word (hfirst.isWord_eq ▸ hword), hfirst.text]
        split
        · refine (concur_definedOperand hrest).bind fun name twin hname => ?_
          exact .ok hname
        · exact .ok ⟨rfl, hrest⟩
      · have hkind := hfirst.kind.resolve_right fun hwords => hword hwords.1
        rw [operand, operand, ← hkind, hfirst.text]
        cases hcase : token.kind with
        | operator =>
            dsimp only
            split
            · refine (concur_chain hrest).bind fun inner twin hinner => ?_
              refine (concur_expectClosing hinner.2).bind fun closing ending hclosing => ?_
              exact .ok ⟨hinner.1, hclosing.2⟩
            · cases hop : UnaryOp.ofSymbol? other.text with
              | none => exact .error rfl
              | some op =>
                  refine (concur_operand hrest).bind fun inner twin hinner => ?_
                  exact .ok ⟨congrArg (Expr.unary op) hinner.1, hinner.2⟩
        | integer =>
            dsimp only
            cases integerLiteral? other.text with
            | none => exact .error rfl
            | some value => exact .ok ⟨rfl, hrest⟩
        | ident | keyword | builtin => exact absurd (by rw [hcase]; rfl) hword
        | _ => exact .error rfl
termination_by (tokens.length, 0)

private theorem concur_links {tokens others : List Token} (h : ReadAlike tokens others) :
    Concur Eq (fun first second => first.1 = second.1 ∧ ReadAlike first.2.1 second.2.1)
      (links tokens) (links others) := by
  match tokens, others, h with
  | [], [], _ =>
      rw [links]
      exact .ok ⟨rfl, .nil⟩
  | token :: rest, other :: more, .cons hfirst hrest =>
      rw [links, links, hfirst.binaryOp?_eq]
      cases binaryOp? other with
      | none => exact .ok ⟨rfl, .cons hfirst hrest⟩
      | some op =>
          refine (concur_operand hrest).bind fun right twin hright => ?_
          have hshorter := right.shorter
          refine (concur_links hright.2).bind fun first second hlinks => ?_
          exact .ok ⟨by rw [hright.1, hlinks.1], hlinks.2⟩
termination_by (tokens.length, 0)

private theorem concur_chain {tokens others : List Token} (h : ReadAlike tokens others) :
    Concur Eq Parsed.Agrees (chain tokens) (chain others) := by
  rw [chain, chain]
  refine (concur_operand h).bind fun first twin hfirst => ?_
  have hshorter := first.shorter
  refine (concur_links hfirst.2).bind fun more after hlinks => ?_
  exact .ok ⟨by rw [hfirst.1, hlinks.1], hlinks.2⟩
termination_by (tokens.length, 1)

end

private theorem Expr.parse_eq_of_readAlike (h : ReadAlike tokens others) :
    Expr.parse tokens = Expr.parse others := by
  refine Concur.eq ((concur_chain h).bind fun parsed twin hparsed => ?_)
  obtain ⟨hvalue, hrest⟩ := hparsed
  cases parsed with
  | mk value rest shorter =>
    cases twin with
    | mk other more less =>
      dsimp only at hvalue hrest ⊢
      cases hrest with
      | nil => exact .ok hvalue
      | cons hfirst _ =>
          dsimp only
          rw [hfirst.text]
          exact .error rfl

/-! ## Evaluation -/

namespace SymbolTable

variable (symbols : SymbolTable) (first second : GlslVersion)

private theorem parse_expressionTokens_version (expression : Text) :
    Expr.parse (expressionTokens first expression) =
      Expr.parse (expressionTokens second expression) :=
  Expr.parse_eq_of_readAlike (readAlike_filter (readAlike_tokenize first second expression))

private theorem valueOf_version (depth : Nat) :
    symbols.valueOf first depth = symbols.valueOf second depth := by
  induction depth with
  | zero =>
      funext word
      rw [valueOf, valueOf]
  | succ depth ih =>
      funext word
      rw [valueOf, valueOf, ih]
      cases symbols.get? word with
      | none => rfl
      | some value =>
          dsimp only
          rw [parse_expressionTokens_version first second]

private theorem condition_version (expression : Text) :
    symbols.condition first expression = symbols.condition second expression := by
  rw [condition, condition, evaluate, evaluate, parse_expressionTokens_version first second,
    valueOf_version symbols first second]

end SymbolTable

/-! ## The lines of a source -/

namespace PassState

variable (first second : GlslVersion)

private theorem condition_version (state : PassState) (line : Nat) (expression : Text) :
    state.condition first line expression = state.condition second line expression := by
  rw [PassState.condition, PassState.condition, state.symbols.condition_version first second]

private theorem step_version (line : Nat) (text : Text) (state : PassState) :
    state.step first line text = state.step second line text := by
  unfold step
  cases SourceLine.ofText text with
  | ifExpression expression =>
      dsimp only
      rw [ifExpression, ifExpression, condition_version first second]
  | elif expression =>
      dsimp only
      rw [elif, elif]
      simp only [condition_version first second]
  | _ => rfl

private theorem runLines_version (line : Nat) (texts : List Text) (state : PassState) :
    runLines first line texts state = runLines second line texts state := by
  induction texts generalizing line state with
  | nil => rfl
  | cons text texts ih =>
      rw [runLines, runLines, step_version first second]
      cases state.step second line text with
      | error error => rfl
      | ok next => exact ih (line + 1) next

end PassState

theorem ConditionalPass.run_of_symbols_eq {pass other : ConditionalPass}
    (h : pass.symbols = other.symbols) (source : Text) :
    (pass.run source).1 = (other.run source).1 ∧
      (pass.run source).2.symbols = (other.run source).2.symbols := by
  unfold run
  rw [h, PassState.runLines_version pass.version other.version]
  exact ⟨rfl, rfl⟩

end GlslCompose
