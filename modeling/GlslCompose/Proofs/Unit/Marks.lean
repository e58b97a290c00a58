import GlslCompose.Proofs.Text.Marks
import GlslCompose.Proofs.Token.Places
import GlslCompose.Proofs.Unit.Comments
import GlslCompose.Proofs.Unit.Finish

/-!
# What stands behind the marks of a unit

Whatever is true of the lines behind the marks of all directives, those of the modules
included, is true of the lines behind the marks of a unit.  Comments and other tokens
bring no marks.  The steps that finish a unit only take pieces out, as long as none of
the pieces begins behind a mark, and add lines without marks.
-/

namespace GlslCompose

open Text (EachMark restOfLine restOfLine_newline restOfLine_of_not_mem restOfLine_of_mem
  restOfLine_cons)

variable {holds : Text → Prop}

/-! ## Pieces that are taken out -/

namespace Text

theorem EachMark.replaceFirst {source piece word rest : Text} (h : EachMark holds source)
    (hpiece : piece = word ++ rest) (hword : '\n' ∉ word)
    (hholds : ∀ line, holds line → ¬word <:+: line) :
    EachMark holds (source.replaceFirst piece []) := by
  unfold Text.replaceFirst
  split
  · rename_i before after hsplit
    rw [splitAround?_eq_some hsplit] at h
    rw [List.append_nil]
    refine h.erase fun line hline => hholds _ hline ?_
    rw [hpiece, List.append_assoc, restOfLine_of_not_mem hword]
    exact ⟨line, restOfLine (rest ++ after), by simp⟩
  · exact h

end Text

namespace Precision

theorem newline_not_mem_word : '\n' ∉ word := by decide

theorem Statement.word_on_line {source after : Text} (h : Statement source after) :
    word <:+: restOfLine source := by
  obtain ⟨first, _, _, _, _, _, hword, _⟩ := h.exists_parts
  have hsource : source = source.takeWhile isSpaceOrTab ++ (word ++ first) := by
    rw [← hword, List.takeWhile_append_dropWhile]
  have hspaces : '\n' ∉ source.takeWhile isSpaceOrTab := fun hmem =>
    absurd (List.mem_takeWhile_imp hmem) (by decide)
  rw [hsource, restOfLine_of_not_mem hspaces, restOfLine_of_not_mem newline_not_mem_word]
  exact ⟨_, restOfLine first, by rw [List.append_assoc]⟩

private theorem Statement.suffix_tail {char : Char} {rest after : Text}
    (h : Statement (char :: rest) after) : after <:+ rest := by
  obtain ⟨before, behind, hsource, rfl, _⟩ := h.exists_semicolon
  have hbehind : behind <:+ rest := by
    cases before with
    | nil =>
        cases hsource
        exact List.suffix_rfl
    | cons first before =>
        cases hsource
        exact (List.suffix_cons ';' behind).trans (List.suffix_append before _)
  exact (List.dropWhile_suffix _).trans hbehind

private theorem eachMark_removeFrom (hholds : ∀ line, holds line → ¬word <:+: line)
    {kept rest : Text}
    {skip : Nat} (h : EachMark holds (kept ++ rest.drop skip)) (afterWord : Bool) :
    EachMark holds (kept ++ removeFrom afterWord skip rest) := by
  induction rest generalizing kept skip afterWord with
  | nil => simpa [removeFrom] using h
  | cons char rest ih =>
      cases skip with
      | succ skip => exact ih h _
      | zero =>
          rw [removeFrom]
          cases hafter : afterStatement? afterWord (char :: rest) with
          | none =>
              have hrest : EachMark holds (kept ++ [char] ++ rest.drop 0) := by simpa using h
              simpa using ih hrest (isWordCharacter char)
          | some after =>
              have hstatement := (afterStatement?_eq_some hafter).2
              obtain ⟨piece, hpiece⟩ := hstatement.suffix_tail
              have hdrop : rest.drop (rest.length - after.length) = after := by
                rw [← hpiece]
                simp
              have hline := hstatement.word_on_line
              rw [← hpiece, ← List.cons_append] at hline
              rw [List.drop_zero, ← hpiece, ← List.cons_append] at h
              have herased : EachMark holds (kept ++ after) := h.erase fun line hkept =>
                hholds _ hkept (hline.trans (List.suffix_append line _).isInfix)
              exact ih (by rw [hdrop]; exact herased) (isWordCharacter char)

private theorem eachMark_removeStatements (hholds : ∀ line, holds line → ¬word <:+: line)
    {source : Text} (h : EachMark holds source) : EachMark holds (removeStatements source) := by
  have hdrop : EachMark holds ([] ++ source.drop 0) := h
  exact eachMark_removeFrom hholds hdrop false

private theorem eachMark_header_append {precision : Text} (hprecision : '#' ∉ precision)
    (rest : Text) :
    EachMark holds (header precision ++ '\n' :: rest) ↔ EachMark holds rest := by
  have hheader : '#' ∉ header precision ++ ['\n'] := by
    have hword : '#' ∉ word ++ [' '] := by decide
    simp only [header, List.mem_append, List.mem_cons] at hword ⊢
    tauto
  rw [List.append_cons, Text.eachMark_append_of_not_mem hheader]

private theorem eachMark_placeHeader {precision : Text} (hprecision : '#' ∉ precision)
    {source : Text}
    (h : EachMark holds source) : EachMark holds (placeHeader (header precision) source) := by
  have hbody : EachMark holds source.trimStart := h.of_suffix (List.dropWhile_suffix _)
  unfold placeHeader
  dsimp only
  split
  · have hline : '\n' ∉ source.trimStart.takeWhile (· ≠ '\n') := fun hmem => by
      simpa using List.mem_takeWhile_imp hmem
    have hbelow : (source.trimStart.dropWhile (· ≠ '\n')).drop 1 <:+ source.trimStart :=
      (List.drop_suffix 1 _).trans (List.dropWhile_suffix _)
    rw [Text.splitFirstLine, List.append_assoc, List.cons_append,
      Text.eachMark_append_iff (restOfLine_newline _), Text.eachMark_newline,
      eachMark_header_append hprecision]
    refine ⟨?_, hbody.of_suffix hbelow⟩
    rw [← List.takeWhile_append_dropWhile (p := (· ≠ '\n')) (l := source.trimStart),
      Text.eachMark_append_iff (Text.restOfLine_dropWhile _)] at hbody
    exact hbody.1
  · exact (eachMark_header_append hprecision source).mpr h

private theorem eachMark_inject {precision : Text} (hprecision : '#' ∉ precision)
    (hholds : ∀ line, holds line → ¬word <:+: line) {source : Text} (h : EachMark holds source) :
    EachMark holds (inject precision source) := by
  have hpiece : header precision = word ++ (' ' :: precision ++ [';']) := rfl
  rw [inject_eq]
  exact eachMark_placeHeader hprecision <| eachMark_removeStatements hholds <|
    h.replaceFirst hpiece newline_not_mem_word hholds

end Precision

/-! ## Lines that are put in order -/

namespace Layout

private theorem eachMark_of_append_return (hholds : ∀ line, holds (line ++ ['\r']) → holds line)
    {line : Text} (h : EachMark holds (line ++ ['\r'])) : EachMark holds line := by
  induction line with
  | nil => exact Text.eachMark_nil
  | cons char rest ih =>
      rw [List.cons_append, Text.eachMark_cons] at h
      refine Text.eachMark_cons.mpr ⟨fun hmark => ?_, ih h.2⟩
      have hline := h.1 hmark
      by_cases hfeed : '\n' ∈ rest
      · rw [restOfLine_of_mem hfeed] at hline
        exact hline
      · rw [restOfLine_of_not_mem hfeed] at hline
        rw [Text.restOfLine_eq_self hfeed]
        exact hholds rest hline

private theorem eachMark_dropLineEnd (hholds : ∀ line, holds (line ++ ['\r']) → holds line)
    {body : Text}
    (h : EachMark holds body) : EachMark holds (Text.dropLineEnd (body ++ ['\n'])) := by
  by_cases hreturn : body.getLast? = some '\r'
  · obtain ⟨init, rfl⟩ := List.getLast?_eq_some_iff.mp hreturn
    have hdrop : Text.dropLineEnd (init ++ ['\r'] ++ ['\n']) = init := by simp [Text.dropLineEnd]
    rw [hdrop]
    exact eachMark_of_append_return hholds h
  · rw [Text.dropLineEnd_row hreturn]
    exact h

theorem eachMark_of_mem_lines (hholds : ∀ line, holds (line ++ ['\r']) → holds line)
    {source row : Text} (h : EachMark holds source) (hrow : row ∈ source.lines) :
    EachMark holds row := by
  obtain ⟨whole, hwhole, rfl⟩ := List.mem_map.mp hrow
  obtain ⟨above, below, hlines⟩ := List.append_of_mem hwhole
  obtain ⟨habove, hend⟩ := Text.linesWithEnds_eq_append hlines
  rw [← Text.flatten_linesWithEnds source, hlines, List.flatten_append,
    habove.eachMark_append_iff, List.flatten_cons] at h
  rcases hend with hend | ⟨hend, rfl⟩
  · rw [hend, List.append_assoc, List.singleton_append,
      Text.eachMark_append_iff (restOfLine_newline _)] at h
    rw [hend]
    exact eachMark_dropLineEnd hholds h.2.1
  · have hfeed : '\n' ∉ whole := by
      rw [hend]
      exact fun hmem => by simpa using List.mem_takeWhile_imp hmem
    rw [Text.dropLineEnd_of_not_mem hfeed]
    simpa using h.2

private theorem eachMark_ofRows {rows : List Text} (h : ∀ row ∈ rows, EachMark holds row) :
    EachMark holds (Text.ofRows rows) := by
  induction rows with
  | nil => exact Text.eachMark_nil
  | cons row rows ih =>
      have hrest := ih fun other hother => h other (List.mem_cons_of_mem row hother)
      rw [Text.ofRows_cons, Text.eachMark_append_iff (restOfLine_newline _), Text.eachMark_newline]
      exact ⟨h row List.mem_cons_self, hrest⟩

private theorem eachMark_padLine {line : Text} (h : EachMark holds line) :
    EachMark holds (padLine line) := by
  unfold padLine
  split
  · rw [Text.eachMark_cons] at h ⊢
    exact ⟨h.1, by simp⟩
  · exact h

private theorem eachMark_finalizeLines (hholds : ∀ line, holds (line ++ ['\r']) → holds line)
    {source : Text} (h : EachMark holds source) :
    EachMark holds (finalizeLines source ++ ['\n']) := by
  have hrows : ∀ row ∈ finalLines source.lines, EachMark holds row := by
    intro row hrow
    obtain ⟨line, hline, rfl⟩ := List.mem_map.mp hrow
    exact eachMark_padLine (eachMark_of_mem_lines hholds h (List.mem_of_mem_filter hline))
  rw [finalizeLines_eq]
  by_cases hempty : finalLines source.lines = []
  · rw [hempty]
    exact Text.eachMark_newline.mpr Text.eachMark_nil
  · rw [Text.unlines_append_newline hempty]
    exact eachMark_ofRows hrows

end Layout

/-! ## Tokens that have no mark -/

theorem Include.request_scan (version : GlslVersion) {first : Char} (hdirective : first ≠ '#')
    (rest : Text) (number : Nat) :
    request ⟨(Token.scan version first rest).kind,
      first :: (Token.scan version first rest).tail, number⟩ = .nothing ∨
    request ⟨(Token.scan version first rest).kind,
      first :: (Token.scan version first rest).tail, number⟩ =
        .keep (first :: (Token.scan version first rest).tail) ∧
      '#' ∉ first :: (Token.scan version first rest).tail := by
  rcases Token.scan_opening version first rest with hblank | ⟨-, hcomment⟩ | hmark | hplain
  · have hkind : (Token.scan version first rest).kind = .whitespace := by
      rw [Token.scan_blank hblank]
      rfl
    refine .inr ⟨request_of_isPlain (.inl hkind), ?_⟩
    rw [Token.scan_blank hblank, List.mem_cons, not_or]
    exact ⟨Ne.symm hdirective, fun hmem => absurd (List.mem_takeWhile_imp hmem) (by decide)⟩
  · exact .inl (request_of_isComment hcomment)
  · exact absurd hmark hdirective
  · refine .inr ⟨request_of_isPlain (.inr (Token.isPlain_scan hplain)), ?_⟩
    rw [List.mem_cons, not_or]
    exact ⟨Ne.symm hdirective, Token.not_mem_tail_of_stops (by decide) hplain⟩

/-! ## Finished units -/

namespace Composer

def toolingOpening : Text := "#define ".toList ++ toolingName

/-- No step that finishes a unit takes a piece out of such a line, except for a carriage
return at its end. -/
structure IsStable (holds : Text → Prop) : Prop where
  marker : ∀ line, holds line → ¬toolingOpening <:+: line
  statement : ∀ line, holds line → ¬Precision.word <:+: line
  of_return : ∀ line, holds (line ++ ['\r']) → holds line

variable {composer : Composer} {placement : Placement} {assembled : Text}

theorem eachMark_stagedText (hstable : IsStable holds) (hstages : composer.stages = [])
    (overrides : DefineSet) (h : EachMark holds assembled) :
    EachMark holds (composer.stagedText overrides assembled) := by
  have hpiece : toolingMarker = toolingOpening ++ [' ', '1', '\n'] :=
    toolingMarker_eq_append.trans (List.append_assoc _ _ _).symm
  have hline : '\n' ∉ toolingOpening := by decide
  rw [stagedText, runStages, hstages, List.foldl_nil]
  exact h.replaceFirst hpiece hline hstable.marker

theorem eachMark_unitText (hstable : IsStable holds) (hstages : composer.stages = [])
    (hprecision : '#' ∉ composer.precision) (h : EachMark holds assembled) :
    EachMark holds (composer.unitText assembled) :=
  Layout.eachMark_finalizeLines hstable.of_return <|
    Precision.eachMark_inject hprecision hstable.statement <|
      eachMark_stagedText hstable hstages .empty h

theorem endsLine_unitText (composer : Composer) (assembled : Text) :
    (composer.unitText assembled).EndsLine :=
  Text.endsLine_append_newline _

/-! ## Expanded units -/

/-- What the directives among the tokens leave in the unit. -/
def KeepsMarks (holds : Text → Prop) (tokens : List Token) : Prop :=
  ∀ token ∈ tokens, token.kind = .preprocessor → ∀ text,
    Include.requestOfDirective token.text = .keep text → EachMark holds text

instance (holds : Text → Prop) [DecidablePred holds] (tokens : List Token) :
    Decidable (KeepsMarks holds tokens) :=
  have (token : Token) : Decidable (∀ text,
      Include.requestOfDirective token.text = .keep text → EachMark holds text) :=
    match Include.requestOfDirective token.text with
    | .keep text => decidable_of_iff (EachMark holds text) (by simp)
    | .nothing => isTrue nofun
    | .fetch _ => isTrue nofun
  inferInstanceAs (Decidable (∀ token ∈ tokens, _ → _))

theorem KeepsMarks.of_cons {token : Token} {tokens : List Token}
    (h : KeepsMarks holds (token :: tokens)) : KeepsMarks holds tokens :=
  fun other hother => h other (List.mem_cons_of_mem token hother)

private theorem modules_source?_of_included? {directory argument path source : Text}
    (h : composer.included? directory argument = some (path, source)) :
    composer.modules.source? path = some source := by
  unfold included? at h
  split at h
  · cases h
  · obtain ⟨found, hfound, heq⟩ := Option.map_eq_some_iff.mp h
    cases heq
    exact hfound

theorem Expands.eq_nil {directory text : Text} (h : composer.Expands placement directory [] text) :
    text = [] := by
  cases h
  rfl

theorem Expands.restOfLine_eq_nil {directory text rest : Text} {number : Nat}
    (h : composer.Expands placement directory
      (Token.tokensFrom composer.version number (Token.splitDirective rest).2) text) :
    restOfLine text = [] := by
  rcases Token.splitDirective_snd rest with hnil | ⟨more, hfeed⟩
  · rw [hnil, Token.tokensFrom.eq_1] at h
    rw [(h.of_nothing rfl).eq_nil]
    rfl
  · rw [hfeed] at h
    obtain ⟨more, rfl⟩ := h.exists_newline
    exact restOfLine_newline more

/-- What is true behind the marks of all directives is true behind the marks of the
expanded unit. -/
theorem Expands.eachMark (hstable : IsStable holds) (hstages : composer.stages = [])
    (hprecision : '#' ∉ composer.precision) {directory text : Text} {tokens : List Token}
    (h : composer.Expands placement directory tokens text)
    (hmodules : ∀ argument ∈ includeArguments tokens, ∀ path source,
      composer.modules.source? path = some source →
        KeepsMarks holds (composer.unitTokens source)) :
    ∀ number source, tokens = Token.tokensFrom composer.version number source →
      KeepsMarks holds tokens → EachMark holds text := by
  induction h with
  | nil => exact fun _ _ _ _ => Text.eachMark_nil
  | drop hrequest hrest ih =>
      intro number source htokens hkeeps
      have hmore := ih fun argument hmem => hmodules argument (mem_includeArguments_cons hmem _)
      rcases Token.exists_scan_of_tokensFrom htokens with ⟨-, rfl⟩ | ⟨first, rest, next, rfl, rfl⟩
      · rw [hrest.eq_nil]
        exact Text.eachMark_nil
      · exact hmore next _ rfl hkeeps.of_cons
  | keep hrequest hrest ih =>
      intro number source htokens hkeeps
      have hbelow := ih fun argument hmem => hmodules argument (mem_includeArguments_cons hmem _)
      rcases Token.exists_scan_of_tokensFrom htokens with ⟨rfl, -⟩ | ⟨first, rest, next, rfl, rfl⟩
      · cases hrequest
      have hmore := hbelow next _ rfl hkeeps.of_cons
      by_cases hdirective : first = '#'
      · subst hdirective
        exact (Text.eachMark_append_iff hrest.restOfLine_eq_nil).mpr
          ⟨hkeeps _ List.mem_cons_self rfl _ hrequest, hmore⟩
      · rcases Include.request_scan composer.version hdirective rest number with
            hnothing | ⟨hkeep, hmark⟩
        · cases hnothing.symm.trans hrequest
        · cases hkeep.symm.trans hrequest
          exact (Text.eachMark_append_of_not_mem hmark).mpr hmore
  | fetch hrequest hmodule hsource hplace hinner hrest ihInner ihRest =>
      intro number source htokens hkeeps
      have hmore := ihRest fun argument hmem =>
        hmodules argument (mem_includeArguments_cons hmem _)
      have hall := hmodules _ (by
        rw [includeArguments_cons_of_fetch hrequest]
        exact List.mem_cons_self)
      have hunit := ihInner (fun _ _ => hall) 1 _ rfl
        (hall _ _ (modules_source?_of_included? hmodule))
      rcases Token.exists_scan_of_tokensFrom htokens with ⟨rfl, -⟩ | ⟨first, rest, next, rfl, rfl⟩
      · cases hrequest
      rw [(composer.endsLine_unitText _).eachMark_append_iff]
      exact ⟨eachMark_unitText hstable hstages hprecision hunit,
        hmore next _ rfl hkeeps.of_cons⟩

end Composer

end GlslCompose
