import GlslCompose.Proofs.Define.Reach
import GlslCompose.Proofs.Define.Shift
import GlslCompose.Proofs.Unit.Header
import GlslCompose.Proofs.Unit.Tail

/-!
# The version line

A unit whose first token, but for blank space and comments, is a `#version` directive is
compiled to a text that begins with this line and the header, if the defines are not placed
above the directive.  They are placed by rows of the source and not by its tokens, so a comment
in front of the directive in its own row may hide it from them.
-/

namespace GlslCompose

open Text

namespace DefineSet

private theorem exists_inject_append {set : DefineSet} {source lead directive rest : Text}
    (hsource : source = lead ++ (directive ++ rest)) (hfeed : '\n' ∉ directive)
    (hrest : restOfLine rest = [])
    (hplace : set.isEmpty = true ∨ lead.lineFeeds < placeLine source) :
    ∃ below, set.inject source = lead ++ (directive ++ below) ∧ restOfLine below = [] := by
  by_cases hempty : set.isEmpty = true
  · exact ⟨rest, by rw [inject, if_pos hempty, hsource], hrest⟩
  have hplace := hplace.resolve_left hempty
  rw [Bool.not_eq_true] at hempty
  rcases hlast : lastPreamble? source with _ | ⟨above, line⟩
  · rw [placeLine, hlast] at hplace
    exact absurd hplace (Nat.not_lt_zero _)
  rw [placeLine, hlast] at hplace
  obtain ⟨-, ⟨tail, hset, hend⟩, -⟩ := inject_of_lastPreamble?_eq_some hlast
  obtain ⟨after, hafter, hrestAfter⟩ :
      ∃ after, source = above ++ line ++ after ∧ restOfLine after = [] := by
    rcases hend with hend | ⟨hend, -⟩
    · exact ⟨'\n' :: tail, by rw [hend, List.append_assoc], restOfLine_newline tail⟩
    · exact ⟨[], by rw [hend, List.append_nil], rfl⟩
  -- What the row of the directive goes on with, up to the row in front of the defines.
  obtain ⟨more, hmore, hrestMore⟩ :
      ∃ more, above ++ line = lead ++ directive ++ more ∧ restOfLine more = [] := by
    have hsplit : above ++ line ++ after = lead ++ directive ++ rest := by
      rw [← hafter, hsource, List.append_assoc]
    rcases List.append_eq_append_iff.mp hsplit with
      ⟨more, hmore, hrestMore⟩ | ⟨more, hmore, hmoreRest⟩
    · rw [hrestMore] at hrestAfter
      rcases eq_nil_or_exists_of_restOfLine (restOfLine_of_append hrestAfter) with
        rfl | ⟨below, rfl⟩
      · exact ⟨[], by simpa using hmore.symm, rfl⟩
      · have hcount := congrArg lineFeeds hmore
        simp only [lineFeeds_append, lineFeeds_cons_newline, lineFeeds_of_not_mem hfeed] at hcount
        dsimp only at hplace
        omega
    · refine ⟨more, hmore, ?_⟩
      rw [hmoreRest] at hrest
      exact restOfLine_of_append hrest
  refine ⟨more ++ '\n' :: (set.block ++ tail), ?_, ?_⟩
  · rw [hset set hempty, ← List.append_assoc, hmore]
    simp
  · rcases eq_nil_or_exists_of_restOfLine hrestMore with rfl | ⟨below, rfl⟩
    · exact restOfLine_newline _
    · exact restOfLine_newline _

end DefineSet

namespace Composer

variable {composer : Composer} {placement : Placement} {directory text : Text}

private theorem Expands.exists_blanks {before tokens : List Token}
    (hbefore : ∀ token ∈ before, token.isSignificant = false)
    (hblank : ∀ token ∈ before, token.kind = .whitespace →
      ∀ char ∈ token.text, isBlank char = true)
    (h : composer.Expands placement directory (before ++ tokens) text) :
    ∃ blanks more, text = blanks ++ more ∧ (∀ char ∈ blanks, isBlank char = true) ∧
      composer.Expands placement directory tokens more := by
  induction before generalizing text with
  | nil => exact ⟨[], text, rfl, by simp, h⟩
  | cons token before ih =>
      have hmore {more : Text} (hrest : composer.Expands placement directory
          (before ++ tokens) more) := ih
        (fun other hother => hbefore other (List.mem_cons_of_mem _ hother))
        (fun other hother => hblank other (List.mem_cons_of_mem _ hother)) hrest
      rcases Token.isSignificant_eq_false (hbefore token List.mem_cons_self) with
        heof | hspace | hcomment
      · have hrequest : Include.request token = .nothing := by
          unfold Include.request
          rw [heof]
        exact hmore (h.of_nothing hrequest)
      · obtain ⟨more, rfl, hrest⟩ := h.of_keep (Include.request_of_isPlain (.inl hspace))
        obtain ⟨blanks, tail, rfl, hblanks, htail⟩ := hmore hrest
        exact ⟨token.text ++ blanks, tail, (List.append_assoc _ _ _).symm,
          List.forall_mem_append.mpr ⟨hblank token List.mem_cons_self hspace, hblanks⟩, htail⟩
      · exact hmore (h.of_nothing (Include.request_of_isComment hcomment))

end Composer

namespace Composer

variable {composer : Composer}

private theorem exists_unitText_version (hstages : composer.stages = [])
    (hprecision : '\n' ∉ composer.precision) {blanks body more : Text}
    (hblanks : ∀ char ∈ blanks, isBlank char = true) (hfeed : '\n' ∉ body)
    (hname : Directive.name? ('#' :: body) = some Directive.versionName)
    (hword : ¬Precision.word <:+: '#' :: body)
    (hmarker : ¬toolingMarker <:+: '#' :: body ++ ['\n']) (hmore : restOfLine more = []) :
    ∃ rows, composer.unitText (blanks ++ '#' :: body ++ more) =
      ofRows
        (dropLineEnd ('#' :: body ++ ['\n']) :: Precision.header composer.precision :: rows) := by
  have hwordBlanks : ¬Precision.word <:+: blanks ++ '#' :: body := fun hinfix =>
    hword (infix_of_blanks_append hblanks Precision.word_eq_cons (by decide) hinfix)
  have hheader : ¬Precision.header composer.precision <:+: blanks ++ '#' :: body ++ ['\n'] := by
    intro hinfix
    have hwordLine := (Precision.word_prefix_header composer.precision).isInfix.trans hinfix
    exact hwordBlanks
      ((infix_of_append_cons Precision.newline_not_mem_word hwordLine).resolve_right (by decide))
  -- The marker, the header and the statements are removed behind the line alone.
  obtain ⟨first, hfirst, hfirstEnd⟩ : ∃ first,
      composer.stagedText .empty (blanks ++ '#' :: body ++ more) = blanks ++ '#' :: body ++ first ∧
        restOfLine first = [] := by
    rw [stagedText, runStages, hstages, List.foldl_nil]
    refine ⟨_, replaceFirst_append_line (by decide) (fun hinfix => hmarker ?_) hmore,
      restOfLine_replaceFirst toolingMarker_eq_cons (by decide) hmore⟩
    rw [List.append_assoc] at hinfix
    exact infix_of_blanks_append hblanks toolingMarker_eq_cons (by decide) hinfix
  have hsecond := replaceFirst_append_line
    (Precision.newline_not_mem_dropLast_header hprecision) hheader hfirstEnd
  have hsecondEnd := restOfLine_replaceFirst (Precision.header_eq_cons composer.precision)
    (by decide) hfirstEnd
  have hthird := Precision.removeFrom_append_line hwordBlanks hsecondEnd false
  have hthirdEnd := Precision.restOfLine_removeFrom hsecondEnd false
  generalize hthirdText : Precision.removeFrom false 0
    (first.replaceFirst (Precision.header composer.precision) []) = third at hthird hthirdEnd
  obtain ⟨below, hbelow⟩ :
      ∃ below, splitFirstLine ('#' :: body ++ third) = ('#' :: body, below) := by
    have hmark : '\n' ∉ '#' :: body := fun hmem =>
      hfeed ((List.mem_cons.mp hmem).resolve_left (by decide))
    rcases eq_nil_or_exists_of_restOfLine hthirdEnd with rfl | ⟨below, rfl⟩
    · exact ⟨[], by rw [List.append_nil, splitFirstLine_row hmark]⟩
    · exact ⟨below, splitFirstLine_newline hmark below⟩
  refine ⟨Layout.finalLines (lines below), ?_⟩
  rw [← Precision.finalizeLines_version_header hprecision hfeed hname below, unitText, finishUnit,
    hfirst, Precision.inject_eq, hsecond, Precision.removeStatements, hthird,
    Precision.placeHeader]
  have htrim : trimStart (blanks ++ '#' :: body ++ third) = '#' :: body ++ third := by
    rw [List.append_assoc, trimStart, List.dropWhile_append_of_pos hblanks]
    rfl
  have hplaced : Directive.name? ('#' :: body ++ third) = some Directive.versionName := by
    rcases eq_nil_or_exists_of_restOfLine hthirdEnd with rfl | ⟨rest, rfl⟩
    · rw [List.append_nil, hname]
    · exact (Directive.name?_append_newline body rest).trans hname
  dsimp only
  rw [htrim, if_pos hplaced, hbelow]

end Composer

namespace Composer

variable {composer : Composer} {placement : Placement} {directory text source : Text}

theorem exists_unitTokens {before after : List Token} {token : Token}
    (htokens : Token.tokenize composer.version (NameGuard.remove source) = before ++ token :: after)
    (hkind : token.kind = .preprocessor) (hbackslash : '\\' ∉ source)
    (hplace : composer.registry.isEmpty = true ∨
      token.line ≤ DefineSet.placeLine (NameGuard.remove source)) :
    ∃ body number rest, token.text = '#' :: body ∧ '\n' ∉ body ∧ composer.unitTokens source =
      before ++
        token :: Token.tokensFrom composer.version number (Token.splitDirective rest).2 := by
  have hpartition := Token.tokenize_isPartition composer.version (NameGuard.remove source)
  have hline := hpartition.line_eq before token after htokens
  obtain ⟨rest, htext, hafter⟩ := Token.exists_splitDirective htokens hkind
  have hsource : NameGuard.remove source =
      Token.concat before ++ (token.text ++ Token.concat after) := by
    rw [← Token.concat_cons, ← Token.concat_append, ← htokens, hpartition.concat_eq]
  have hrest : '\\' ∉ rest := by
    obtain ⟨guard, hguard⟩ := NameGuard.exists_append source
    rw [hguard, hsource, htext, hafter, List.cons_append, Token.splitDirective_append] at hbackslash
    exact fun hmem => hbackslash (by simp [hmem])
  have hbody : '\\' ∉ (Token.splitDirective rest).1 := fun hmem =>
    hrest (Token.splitDirective_append rest ▸ List.mem_append_left _ hmem)
  have hfeed := Token.newline_not_mem_splitDirective hrest
  have htextFeed : '\n' ∉ token.text := by
    rw [htext, List.mem_cons, not_or]
    exact ⟨by decide, hfeed⟩
  have hend : restOfLine (Token.concat after) = [] := by
    rw [hafter, Token.restOfLine_splitDirective]
  obtain ⟨below, hinject, hbelow⟩ := DefineSet.exists_inject_append hsource htextFeed hend
    (hplace.imp_right fun hplace => by omega)
  refine ⟨_, token.line + token.text.lineFeeds, (Token.splitDirective rest).1 ++ below, htext,
    hfeed, ?_⟩
  change Token.tokensFrom composer.version 1 (composer.registry.inject _) = _
  rw [hinject, htext, List.cons_append, Token.tokensFrom_keeps htokens hkind,
    Token.tokensFrom, Token.scan_mark,
    Token.splitDirective_keeps (Token.not_continues_of_not_mem hbody) hfeed hbelow]
  obtain ⟨kind, tokenText, number⟩ := token
  obtain rfl : kind = .preprocessor := hkind
  obtain rfl : tokenText = _ := htext
  rfl

private theorem Expands.exists_version {before : List Token} {token : Token} {number : Nat}
    {rest : Text} (hbefore : ∀ earlier ∈ before, earlier.isSignificant = false)
    (hblank : ∀ earlier ∈ before, earlier.kind = .whitespace →
      ∀ char ∈ earlier.text, isBlank char = true)
    (hkind : token.kind = .preprocessor)
    (hname : Directive.name? token.text = some Directive.versionName)
    (h : composer.Expands placement directory
      (before ++ token :: Token.tokensFrom composer.version number (Token.splitDirective rest).2)
      text) :
    ∃ blanks more, text = blanks ++ token.text ++ more ∧
      (∀ char ∈ blanks, isBlank char = true) ∧ restOfLine more = [] := by
  obtain ⟨blanks, tail, rfl, hblanks, htail⟩ := h.exists_blanks hbefore hblank
  have hrequest : Include.request token = .keep token.text := by
    have hdirective : Include.request token = Include.requestOfDirective token.text := by
      unfold Include.request
      rw [hkind]
    rw [hdirective, Include.requestOfDirective, hname]
    rfl
  obtain ⟨more, rfl, hmore⟩ := htail.of_keep hrequest
  exact ⟨blanks, more, (List.append_assoc _ _ _).symm, hblanks, hmore.restOfLine_eq_nil⟩

end Composer

@[simp] private theorem Precision.name?_header (precision : Text) :
    Directive.name? (header precision) = none := by
  unfold Directive.name? Directive.afterMark?
  rw [header_eq_cons, trimStart_cons (by decide)]
  rfl

namespace Library

open Composer

variable {library : Library} {name : Option Text} {source text directive : Text}

/-- The directive and the header are the first lines of the text, and every line that a define
has stands below them. -/
structure HasVersionFirst (library : Library) (directive text : Text) : Prop where
  first : ∃ below,
    text.splitOn '\n' = directive :: Precision.header library.precision :: below
  behind : ∀ entry ∈ library.registry.toList, ∀ before after,
    text.splitOn '\n' = before ++ Directive.defineLine entry.1 entry.2 :: after →
      [directive, Precision.header library.precision] <+: before

private theorem hasVersionFirst_ofRows (hprecision : '\n' ∉ library.precision) {line : Text}
    (hline : '\n' ∉ line) (hname : Directive.name? line = some Directive.versionName)
    (rows : List Text) :
    library.HasVersionFirst line
      (ofRows (line :: Precision.header library.precision :: rows)) := by
  have hsplit : (ofRows (line :: Precision.header library.precision :: rows)).splitOn '\n' =
      line :: Precision.header library.precision :: (ofRows rows).splitOn '\n' := by
    rw [ofRows_cons, ofRows_cons, List.splitOn_append_cons_self, List.splitOn_append_cons_self,
      List.splitOn_eq_singleton hline,
      List.splitOn_eq_singleton (Precision.newline_not_mem_header hprecision)]
    rfl
  refine ⟨⟨_, hsplit⟩, fun entry _ before after h => ?_⟩
  have hdefine : ∀ row, Directive.name? row ≠ some Directive.defineName →
      row ≠ Directive.defineLine entry.1 entry.2 := by
    rintro row hrow rfl
    exact hrow (Directive.IsSingle.name?_eq entry.1 entry.2)
  rw [hsplit] at h
  rcases before with _ | ⟨first, _ | ⟨second, before⟩⟩
  · refine absurd (List.cons.inj h).1 (hdefine line ?_)
    rw [hname]
    decide
  · refine absurd (List.cons.inj (List.cons.inj h).2).1 (hdefine _ ?_)
    rw [Precision.name?_header]
    decide
  · obtain ⟨rfl, hmore⟩ := List.cons.inj h
    obtain ⟨rfl, -⟩ := List.cons.inj hmore
    exact ⟨before, rfl⟩

/-- A unit whose first token, but for blank space and comments, is a `#version` directive has
this line and the header for its first lines, if the defines are not placed above it. -/
theorem hasVersionFirst_of_compile (hempty : library.cache = .empty) (hstages : library.stages = [])
    (hprecision : '\n' ∉ library.precision) (hbackslash : '\\' ∉ source) {token : Token}
    (htoken : (Token.tokenize library.version (NameGuard.remove source)).find?
      Token.isSignificant = some token)
    (hkind : token.kind = .preprocessor)
    (hname : Directive.name? token.text = some Directive.versionName)
    (hplace : library.registry.isEmpty = true ∨
      token.line ≤ DefineSet.placeLine (NameGuard.remove source))
    (hword : ¬Precision.word <:+: token.text)
    (hmarker : ¬Composer.toolingMarker <:+: token.text ++ ['\n'])
    (hcompile : (library.compile name source).1 = .ok (some text)) :
    library.HasVersionFirst (dropLineEnd (token.text ++ ['\n'])) text := by
  obtain ⟨-, before, after, htokens, hbefore⟩ := List.find?_eq_some_iff_append.mp htoken
  replace hbefore : ∀ earlier ∈ before, earlier.isSignificant = false := fun earlier hearlier => by
    simpa using hbefore earlier hearlier
  obtain ⟨placement, place, -, inside, assembled, -, hexpands, rfl⟩ :=
    compiles_of_compile hempty hcompile
  obtain ⟨body, number, rest, htext, hfeed, htokens'⟩ :=
    exists_unitTokens htokens hkind hbackslash hplace
  rw [htokens'] at hexpands
  obtain ⟨blanks, more, rfl, hblanks, hmore⟩ := hexpands.exists_version hbefore
    (fun earlier hearlier hspace => Token.isBlank_of_whitespace
      (htokens ▸ List.mem_append_left _ hearlier) hspace) hkind hname
  rw [htext] at hname hword hmarker ⊢
  obtain ⟨rows, hrows⟩ := exists_unitText_version hstages hprecision hblanks hfeed hname hword
    hmarker hmore
  obtain ⟨line, hline, hlineFeed, hlineName⟩ := Precision.exists_dropLineEnd_mark hfeed
  rw [hrows, hline]
  refine hasVersionFirst_ofRows hprecision ?_ (hlineName.trans hname) rows
  rw [List.mem_cons, not_or]
  exact ⟨by decide, hlineFeed⟩

def versionedUser : Text :=
  Text.unlines (["/* Water.", "#version 100 */", "// Waves.", " #version 300 es",
    "#extension GL_X : enable", "void main();"].map String.toList)

def versionedText : Text := Text.unlines (["#version 300 es", "precision mediump float;",
  "#extension GL_X : enable", "#define USE_FOG 1", "void main();", ""].map String.toList)

def versionedToken : Token := ⟨.preprocessor, "#version 300 es".toList, 4⟩

set_option maxRecDepth 10000 in
/-- Comments above the directive do not matter, not even one with a `#version` line in it. -/
theorem hasVersionFirst_of_compile_versionedUser :
    foggy.cache = .empty ∧ foggy.stages = [] ∧ '\n' ∉ foggy.precision ∧ '\\' ∉ versionedUser ∧
    (Token.tokenize foggy.version (NameGuard.remove versionedUser)).find? Token.isSignificant =
      some versionedToken ∧
    versionedToken.kind = .preprocessor ∧
    Directive.name? versionedToken.text = some Directive.versionName ∧
    (foggy.registry.isEmpty = true ∨
      versionedToken.line ≤ DefineSet.placeLine (NameGuard.remove versionedUser)) ∧
    ¬Precision.word <:+: versionedToken.text ∧
    ¬toolingMarker <:+: versionedToken.text ++ ['\n'] ∧
    (foggy.compile none versionedUser).1 = .ok (some versionedText) ∧
    foggy.HasVersionFirst "#version 300 es".toList versionedText := by
  have hprecision : '\n' ∉ foggy.precision := by decide +kernel
  have hbackslash : '\\' ∉ versionedUser := by decide +kernel
  have htoken : (Token.tokenize foggy.version (NameGuard.remove versionedUser)).find?
      Token.isSignificant = some versionedToken := by decide +kernel
  have hname : Directive.name? versionedToken.text = some Directive.versionName := by decide
  have hplace : foggy.registry.isEmpty = true ∨
      versionedToken.line ≤ DefineSet.placeLine (NameGuard.remove versionedUser) := by
    decide +kernel
  have hword : ¬Precision.word <:+: versionedToken.text := by decide
  have hmarker : ¬toolingMarker <:+: versionedToken.text ++ ['\n'] := by decide
  have hcompile : (foggy.compile none versionedUser).1 = .ok (some versionedText) := by
    decide +kernel
  exact ⟨rfl, rfl, hprecision, hbackslash, htoken, rfl, hname, hplace, hword, hmarker, hcompile,
    hasVersionFirst_of_compile rfl rfl hprecision hbackslash htoken rfl hname hplace hword hmarker
      hcompile⟩

/-- Behind a comment in its own line the directive is not seen, and the defines go to the top. -/
theorem compile_commentedVersion :
    (Token.tokenize foggy.version "/* c */ #version 300 es\nvoid main();".toList).find?
      Token.isSignificant = some ⟨.preprocessor, "#version 300 es".toList, 1⟩ ∧
    (foggy.compile none "/* c */ #version 300 es\nvoid main();".toList).1 = .ok (some
      "precision mediump float;\n#define USE_FOG 1\n #version 300 es\nvoid main();\n".toList) := by
  decide +kernel

end Library

end GlslCompose
