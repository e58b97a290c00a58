import GlslCompose.Condition.Pass
import GlslCompose.Proofs.Condition.Rendering
import GlslCompose.Proofs.Text.Rows
import GlslCompose.Proofs.Token.Directives

/-!
# Asking by name and asking in an expression

An `#ifdef` looks its name up in the symbol table, and an `#if` with the operator `defined`
goes through the tokens and the parser of expressions to the same place.  So either may be
written for the other, in any number of lines: the pass gives the same result, or fails in the
same line for the same reason, and leaves the same symbols.
-/

namespace GlslCompose

namespace Text

/-! ## Changing lines -/

/-- What a line ends with: a line feed, perhaps with a carriage return before it, or nothing. -/
def lineEnd (line : Text) : Text := line.drop (dropLineEnd line).length

def mapLines (change : Nat → Text → Text) (source : Text) : Text :=
  (source.linesWithEnds.mapIdx fun number line =>
    change number (dropLineEnd line) ++ lineEnd line).flatten

structure Replaces (row other : Text) : Prop where
  newline : '\n' ∉ row
  getLast?_ne : row = other ∨ row.getLast? ≠ some '\r'
  ne_nil : other ≠ [] → row ≠ []

private theorem lineEnd_cases {row : Text} :
    (row.getLast? ≠ some '\r' ∧ dropLineEnd (row ++ ['\n']) = row ∧
      lineEnd (row ++ ['\n']) = ['\n']) ∨
    ∃ body, row = body ++ ['\r'] ∧ dropLineEnd (row ++ ['\n']) = body ∧
      lineEnd (row ++ ['\n']) = ['\r', '\n'] := by
  by_cases hreturn : row.getLast? = some '\r'
  · obtain ⟨body, rfl⟩ := List.getLast?_eq_some_iff.mp hreturn
    have hdrop : dropLineEnd (body ++ ['\r'] ++ ['\n']) = body := by simp [dropLineEnd]
    refine .inr ⟨body, rfl, hdrop, ?_⟩
    rw [lineEnd, hdrop, List.append_assoc, List.drop_left]
    rfl
  · have hdrop := dropLineEnd_row hreturn
    exact .inl ⟨hreturn, hdrop, by rw [lineEnd, hdrop, List.drop_left]⟩

private theorem lines_return {row : Text} (hrow : '\n' ∉ row) :
    lines (row ++ ['\r', '\n']) = [row] := by
  have hreturn : '\n' ∉ row ++ ['\r'] := by simp [hrow]
  have hdrop : dropLineEnd (row ++ ['\r'] ++ ['\n']) = row := by simp [dropLineEnd]
  rw [List.append_cons, lines, linesWithEnds_row hreturn [], List.map_cons, hdrop]
  rfl

private theorem lines_mapLines_row {change : Nat → Text → Text} {row rest : Text}
    (hrow : '\n' ∉ row) (hchange : ∀ row, '\n' ∉ row → (change 0 row).Replaces row) :
    (mapLines change (row ++ '\n' :: rest)).lines =
        change 0 (dropLineEnd (row ++ ['\n'])) ::
          (mapLines (fun number => change (number + 1)) rest).lines ∧
      (row ++ '\n' :: rest).lines = dropLineEnd (row ++ ['\n']) :: rest.lines := by
  have hsplit := linesWithEnds_row hrow rest
  have hlines : (row ++ '\n' :: rest).lines = dropLineEnd (row ++ ['\n']) :: rest.lines := by
    rw [lines, hsplit, List.map_cons, lines]
  refine ⟨?_, hlines⟩
  have hmap : mapLines change (row ++ '\n' :: rest) =
      change 0 (dropLineEnd (row ++ ['\n'])) ++ lineEnd (row ++ ['\n']) ++
        mapLines (fun number => change (number + 1)) rest := by
    rw [mapLines, hsplit, List.mapIdx_cons, List.flatten_cons]
    rfl
  rw [hmap]
  rcases @lineEnd_cases row with ⟨hreturn, hdrop, hend⟩ | ⟨body, rfl, hdrop, hend⟩
  · obtain ⟨hfeed, hlast, -⟩ := hchange row hrow
    have hother : (change 0 row).getLast? ≠ some '\r' := by
      rcases hlast with hsame | hlast
      · rwa [hsame]
      · exact hlast
    rw [hdrop, hend, lines_append (endsLine_append_newline _), lines, linesWithEnds_row hfeed,
      List.map_cons, dropLineEnd_row hother]
    rfl
  · have hbody : '\n' ∉ body := fun hmem => hrow (List.mem_append_left _ hmem)
    have hends : EndsLine (change 0 body ++ ['\r', '\n']) :=
      (endsLine_append_newline ['\r']).append_of_ne_nil (by simp) _
    rw [hdrop, hend, lines_append hends, lines_return (hchange body hbody).newline]
    rfl

private theorem lines_mapLines {change : Nat → Text → Text}
    (hchange : ∀ number row, '\n' ∉ row → (change number row).Replaces row) (source : Text) :
    (mapLines change source).lines = source.lines.mapIdx change := by
  induction hlength : source.length using Nat.strong_induction_on generalizing source change with
  | _ length ih =>
  by_cases hfeed : '\n' ∈ source
  · obtain ⟨row, rest, rfl, hrow⟩ := List.eq_append_cons_of_mem hfeed
    obtain ⟨hmap, hlines⟩ := @lines_mapLines_row change row rest hrow (hchange 0)
    have hrest := ih rest.length (by simp at hlength; omega)
      (fun number => hchange (number + 1)) rest rfl
    rw [hmap, hlines, hrest, List.mapIdx_cons]
  · by_cases hne : source = []
    · rw [hne]
      rfl
    · have hsource := linesWithEnds_of_not_mem hfeed hne
      have hdrop := dropLineEnd_of_not_mem hfeed
      obtain ⟨hnewline, -, hnil⟩ := hchange 0 source hfeed
      have hmap : mapLines change source = change 0 source := by
        rw [mapLines, hsource]
        simp [lineEnd, hdrop]
      rw [hmap, lines, linesWithEnds_of_not_mem hnewline (hnil hne), List.map_singleton,
        dropLineEnd_of_not_mem hnewline, lines, hsource, List.map_singleton, hdrop]
      rfl

end Text

namespace SourceLine

/-! ## The two ways to ask -/

def definedTest (expected : Bool) (name : Text) : Text :=
  (if expected then [] else ['!']) ++ (definedWord ++ '(' :: (name ++ [')']))

def definedLine (expected : Bool) (name : Text) : Text :=
  '#' :: (ifName ++ ' ' :: definedTest expected name)

/-- An `#ifdef` or `#ifndef` of an identifier as an `#if`; other lines are left as they are. -/
def asExpression (line : Text) : Text :=
  match ofText line with
  | .ifDefined expected (some name) =>
      if name.IsName then definedLine expected name else line
  | _ => line

variable {version : GlslVersion} {expected : Bool} {name : Text}

@[simp] private theorem trim_definedTest (expected : Bool) (name : Text) :
    Text.trim (' ' :: definedTest expected name) = definedTest expected name := by
  obtain ⟨first, rest, hfirst, hblank⟩ : ∃ first rest,
      definedTest expected name = first :: (rest ++ (name ++ [')'])) ∧ isBlank first = false := by
    cases expected with
    | true => exact ⟨'d', "efined(".toList, rfl, by decide⟩
    | false => exact ⟨'!', "defined(".toList, rfl, by decide⟩
  rw [hfirst, Text.trim, Text.trimStart_space, Text.trimStart_cons hblank, ← List.append_assoc,
    ← List.cons_append, Text.trimEnd_concat (by decide)]

@[simp] private theorem ofText_definedLine (expected : Bool) (name : Text) :
    ofText (definedLine expected name) = .ifExpression (definedTest expected name) := by
  have hletters : ∀ char ∈ ifName, isAsciiLetter char = true := List.all_eq_true.mp (by decide)
  have hname : Directive.name? (definedLine expected name) = some ifName :=
    Directive.name?_mark (by decide) hletters (by rintro char ⟨⟩; decide)
  have hbody : Directive.body ifName (definedLine expected name) = definedTest expected name :=
    (Directive.body_mark (by decide) hletters _).trans (trim_definedTest expected name)
  rw [ofText, hname]
  dsimp only
  rw [ofDirective, hbody]
  rfl

/-! ## From the tokens to the value -/

def definedTokens (version : GlslVersion) (name : Text) : List Token :=
  [Token.single (Token.wordKind version definedWord) definedWord, Token.single .operator ['('],
    Token.single (Token.wordKind version name) name, Token.single .operator [')']]

private theorem tokenize_parenthesis {char : Char} (hchar : char ∈ ['(', ')']) (more : Text) :
    Token.tokenize version (char :: more) =
      Token.single .operator [char] :: Token.tokenize version more := by
  obtain ⟨hjoins, hblank, hmark, hfeeds⟩ : Token.joins char = false ∧ isBlank char = false ∧
      char ≠ '#' ∧ Text.lineFeeds [char] = 0 := by
    obtain rfl | rfl := List.mem_pair.mp hchar <;> decide
  rw [Token.tokenize, Token.tokensFrom, Token.scan_of_not_joins hjoins hblank hmark]
  simp only [hfeeds]
  rfl

private theorem tokenize_defined (h : name.IsName) :
    Token.tokenize version (definedTest true name) =
      definedTokens version name ++ [Token.single .eof []] := by
  obtain ⟨first, rest, rfl, -⟩ := h.1.exists_cons
  have hmark : Token.IsLexeme version (Token.wordKind version definedWord) 'd' "efined".toList :=
    Token.isLexeme_name Expr.isName_definedWord
  have hname : Token.IsLexeme version (Token.wordKind version (first :: rest)) first rest :=
    Token.isLexeme_name h
  have htest : definedTest true (first :: rest) =
      'd' :: ("efined".toList ++ '(' :: (first :: (rest ++ [')']))) := rfl
  rw [htest, hmark.tokenize_append_stop (by decide), tokenize_parenthesis (by simp),
    hname.tokenize_append_stop (by decide), tokenize_parenthesis (by simp), Token.tokenize,
    Token.tokensFrom]
  rfl

private theorem tokenize_not_defined (version : GlslVersion) (name : Text) :
    Token.tokenize version (definedTest false name) =
      Token.single .operator ['!'] :: Token.tokenize version (definedTest true name) := by
  have hplain : Token.OpensPlain '!' (definedTest true name) :=
    ⟨by decide, by decide, fun hslash => absurd hslash (by decide)⟩
  have htest : definedTest false name = '!' :: definedTest true name := rfl
  rw [htest, Token.tokenize, Token.tokensFrom, Token.scan_of_opensPlain hplain]
  rfl

private theorem filter_definedTokens (version : GlslVersion) (name : Text) :
    (definedTokens version name ++ [Token.single .eof []]).filter Token.isSignificant =
      definedTokens version name := by
  have hword : ∀ word, (Token.single (Token.wordKind version word) word).isSignificant = true := by
    intro word
    have hkind : (Token.wordKind version word).isWord = true := Token.isWord_wordKind word
    rw [Token.isSignificant_eq]
    cases hword : Token.wordKind version word <;>
      simp [hword, Token.single, TokenKind.isWord, TokenKind.isComment] at hkind ⊢
  have hoperator : ∀ text, (Token.single .operator text).isSignificant = true := fun _ => rfl
  have hend : (Token.single .eof []).isSignificant = false := rfl
  simp [definedTokens, hword, hoperator, hend]

private theorem parse_definedTest (h : name.IsName) :
    Expr.parse (SymbolTable.expressionTokens version (definedTest expected name)) =
      .ok (if expected then .defined name else .unary .logicalNot (.defined name)) := by
  have hderives : Derives operandLevel (definedTokens version name) (.defined name) :=
    @Derives.definedWithin _ _ (Token.single (Token.wordKind version name) name) _
      ⟨Token.isWord_wordKind definedWord, rfl⟩ rfl (Token.isWord_wordKind name) rfl
  rw [Expr.parse_eq_ok_iff, SymbolTable.expressionTokens]
  cases expected with
  | true =>
      rw [tokenize_defined h, filter_definedTokens]
      exact hderives.mono (by decide) (Nat.le_refl _)
  | false =>
      have hmark : (Token.single .operator ['!']).isSignificant = true := rfl
      rw [tokenize_not_defined, List.filter_cons_of_pos hmark, tokenize_defined h,
        filter_definedTokens]
      exact (Derives.unary rfl (UnaryOp.ofSymbol?_symbol .logicalNot) hderives).mono (by decide)
        (Nat.le_refl _)

private theorem condition_definedTest (h : name.IsName) (symbols : SymbolTable) :
    symbols.condition version (definedTest expected name) =
      .ok (symbols.contains name == expected) := by
  rw [SymbolTable.condition, SymbolTable.evaluate, parse_definedTest h]
  cases expected with
  | true =>
      have hvalue : (truth (symbols.contains name) != 0) = (symbols.contains name == true) := by
        cases symbols.contains name <;> decide
      exact congrArg Except.ok hvalue
  | false =>
      have hvalue : (truth (truth (symbols.contains name) == 0) != 0) =
          (symbols.contains name == false) := by
        cases symbols.contains name <;> decide
      exact congrArg Except.ok hvalue

end SourceLine

namespace PassState

open SourceLine

variable {version : GlslVersion}

/-! ## Steps and runs -/

private theorem step_definedLine {line name : Text} {expected : Bool}
    (hline : ofText line = .ifDefined expected (some name)) (hname : name.IsName) (number : Nat)
    (state : PassState) :
    state.step version number (definedLine expected name) = state.step version number line := by
  unfold step
  rw [hline, ofText_definedLine]
  dsimp only
  rw [ifExpression, ifDefined, condition, condition_definedTest hname]
  rfl

@[simp] private theorem step_asExpression (line : Text) (number : Nat) (state : PassState) :
    state.step version number (asExpression line) = state.step version number line := by
  unfold asExpression
  split
  · rename_i expected name hline
    split
    · rename_i hname
      exact step_definedLine hline hname number state
    · rfl
  · rfl

private theorem runLines_mapIdx {change : Nat → Text → Text}
    (hchange : ∀ index text number (state : PassState),
      state.step version number (change index text) = state.step version number text)
    (texts : List Text) (number : Nat) (state : PassState) :
    state.runLines version number (texts.mapIdx change) = state.runLines version number texts := by
  induction texts generalizing change number state with
  | nil => rfl
  | cons text texts ih =>
      rw [List.mapIdx_cons, runLines, runLines, hchange]
      cases state.step version number text with
      | error error => rfl
      | ok next => exact ih (fun index => hchange (index + 1)) (number + 1) next

end PassState

namespace ConditionalPass

open SourceLine

/-- The source with the chosen lines, by their number, asking in expressions. -/
def askInExpressions (chosen : Nat → Bool) (source : Text) : Text :=
  source.mapLines fun number line => if chosen number then asExpression line else line

private theorem replaces_asExpression {row : Text} (hrow : '\n' ∉ row) :
    (asExpression row).Replaces row := by
  unfold asExpression
  split
  · rename_i expected name _
    split
    · rename_i hname
      have hfeed : '\n' ∉ name := fun hmem => absurd (hname.1.2 _ hmem) (by decide)
      obtain ⟨front, hfront, hline⟩ : ∃ front, '\n' ∉ front ∧
          definedLine expected name = front ++ (name ++ [')']) := by
        cases expected with
        | true => exact ⟨"#if defined(".toList, by decide, rfl⟩
        | false => exact ⟨"#if !defined(".toList, by decide, rfl⟩
      rw [hline]
      refine ⟨by simp [hfront, hfeed], .inr ?_, fun _ => by simp⟩
      rw [← List.append_assoc, List.getLast?_concat]
      decide
    · exact ⟨hrow, .inl rfl, id⟩
  · exact ⟨hrow, .inl rfl, id⟩

/-- In any number of lines, an `#if` that asks with `defined` does what the `#ifdef` or `#ifndef`
in its place does: the result, its errors and the symbols stay as they are. -/
theorem run_askInExpressions (pass : ConditionalPass) (chosen : Nat → Bool) (source : Text) :
    pass.run (askInExpressions chosen source) = pass.run source := by
  have hlines : (askInExpressions chosen source).lines =
      source.lines.mapIdx fun number line => if chosen number then asExpression line else line := by
    refine Text.lines_mapLines (fun number row hrow => ?_) source
    split
    · exact replaces_asExpression hrow
    · exact ⟨hrow, .inl rfl, id⟩
  have hstep : ∀ index line number (state : PassState),
      state.step pass.version number (if chosen index then asExpression line else line) =
        state.step pass.version number line := by
    intro index line number state
    split
    · exact PassState.step_asExpression line number state
    · rfl
  rw [run, run, hlines, PassState.runLines_mapIdx hstep]

example : askInExpressions (fun number => number ≠ 2)
    "  #ifdef if\r\n#ifndef B x\n#ifdef C\n#ifdef 2D".toList =
      "#if defined(if)\r\n#if !defined(B)\n#ifdef C\n#ifdef 2D".toList := by
  decide +kernel

end ConditionalPass

end GlslCompose
