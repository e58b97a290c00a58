import GlslCompose.Proofs.Token.Partition
import GlslCompose.Proofs.Unit.Expansion
import GlslCompose.Proofs.Unit.Guard

/-!
# Parts without includes

A part of a unit that has no includes expands to its own tokens without the comments,
except that a define may get its value.  So whatever is not in the tokens is not in the
text that they expand to, and the first line of this text is a directive of the part.
-/

namespace GlslCompose

open Text (EachMark restOfLine)

/-! ## What is kept of a token -/

namespace Include

/-- A directive is kept as it is, or with the value one behind it. -/
inductive Keeps (text : Text) : Text → Prop where
  | whole : Keeps text text
  | completed (hname : Directive.name? text = some Directive.defineName) :
      Keeps text (text.trimEnd ++ [' ', '1'])

private theorem requestOfDirective_keeps (text : Text) :
    (∃ kept, requestOfDirective text = .keep kept ∧ Keeps text kept) ∨
    ∃ argument, requestOfDirective text = .fetch argument := by
  unfold requestOfDirective
  cases hname : Directive.name? text with
  | none => exact .inl ⟨text, rfl, .whole⟩
  | some name =>
      dsimp only
      split
      · rename_i hdefine
        refine .inl ⟨_, rfl, ?_⟩
        unfold completeDefine
        dsimp only
        split
        · exact .whole
        · exact .completed (by rw [hname, hdefine])
      split
      · exact .inr ⟨_, rfl⟩
      · exact .inl ⟨text, rfl, .whole⟩

private theorem Keeps.of_requestOfDirective {text kept : Text}
    (h : requestOfDirective text = .keep kept) :
    Keeps text kept := by
  rcases requestOfDirective_keeps text with ⟨other, hother, hkeeps⟩ | ⟨argument, hfetch⟩
  · cases h.symm.trans hother
    exact hkeeps
  · cases h.symm.trans hfetch

private theorem request_cases {token : Token} (hkind : token.kind ≠ .eof)
    (hinclude : Composer.requestedArgument? token = none) :
    (token.kind.isComment = true ∧ request token = .nothing) ∨
    (token.kind.isComment = false ∧
      ∃ kept, request token = .keep kept ∧ Keeps token.text kept) := by
  obtain ⟨kind, text, line⟩ := token
  cases kind with
  | eof => exact absurd rfl hkind
  | blockComment | lineComment => exact .inl ⟨rfl, rfl⟩
  | preprocessor =>
      rcases requestOfDirective_keeps text with hkeep | ⟨argument, hfetch⟩
      · exact .inr ⟨rfl, hkeep⟩
      · have hrequest : request ⟨.preprocessor, text, line⟩ = .fetch argument := hfetch
        rw [Composer.requestedArgument?, hrequest] at hinclude
        cases hinclude
  | _ => exact .inr ⟨rfl, text, rfl, .whole⟩

private theorem Keeps.not_infix {word before text kept more : Text} (h : Keeps text kept)
    (hne : word ≠ []) (hspace : ' ' ∉ word) (hone : '1' ∉ word) (hmore : ¬word <:+: more)
    (htext : ¬word <:+: before ++ (text ++ more)) : ¬word <:+: before ++ (kept ++ more) := by
  cases h with
  | whole => exact htext
  | completed =>
      intro hword
      have hsplit : before ++ (text.trimEnd ++ [' ', '1'] ++ more) =
          before ++ text.trimEnd ++ ' ' :: ([] ++ '1' :: more) := by simp
      rw [hsplit] at hword
      obtain ⟨blanks, -, htrim⟩ := text.exists_trimEnd_append
      rcases Text.infix_of_append_cons hspace hword with hfirst | hsecond
      · apply htext
        refine hfirst.trans ⟨[], blanks ++ more, ?_⟩
        conv_rhs => rw [htrim]
        simp
      · rcases Text.infix_of_append_cons hone hsecond with hnil | hlast
        · exact hne (List.infix_nil.mp hnil)
        · exact hmore hlast

private theorem Keeps.not_infix_kept {word text kept : Text} (h : Keeps text kept) (hne : word ≠ [])
    (hspace : ' ' ∉ word) (hone : '1' ∉ word) (htext : ¬word <:+: text) : ¬word <:+: kept := by
  have hpart : ¬word <:+: [] ++ (kept ++ []) :=
    h.not_infix hne hspace hone (fun hnil => hne (List.infix_nil.mp hnil)) (by simpa using htext)
  simpa using hpart

theorem isAsciiLetter_of_isBlank {char : Char} (h : isBlank char = true) :
    isAsciiLetter char = false := by
  rw [Bool.eq_false_iff]
  intro hletter
  rw [isBlank_of_continuesWord (by simp [continuesWord, hletter])] at h
  cases h

theorem takeWhile_dropWhile_blanks {blanks : Text} (hblanks : ∀ char ∈ blanks, isBlank char = true)
    (skips : Char → Bool) : (blanks.dropWhile skips).takeWhile isAsciiLetter = [] := by
  have hsuffix : blanks.dropWhile skips <:+ blanks := List.dropWhile_suffix skips
  cases hdrop : blanks.dropWhile skips with
  | nil => rfl
  | cons char rest =>
      have hblank := hblanks char (hsuffix.subset (hdrop ▸ List.mem_cons_self))
      exact List.takeWhile_cons_of_neg (by simp [isAsciiLetter_of_isBlank hblank])

theorem Keeps.name?_append {tail kept : Text} (h : Keeps ('#' :: tail) kept) {rest : Text}
    (hrest : rest = [] ∨ ∃ more, rest = '\n' :: more) :
    ∃ body, kept = '#' :: body ∧
      Directive.name? ('#' :: (body ++ rest)) = Directive.name? ('#' :: tail) := by
  generalize htext : '#' :: tail = text at h
  cases h with
  | whole =>
      subst htext
      refine ⟨tail, rfl, ?_⟩
      rcases hrest with rfl | ⟨more, rfl⟩
      · rw [List.append_nil]
      · exact Directive.name?_append_newline tail more
  | completed =>
      subst htext
      obtain ⟨blanks, hblanks, htrim⟩ := Text.exists_trimEnd_append ('#' :: tail)
      cases hkept : Text.trimEnd ('#' :: tail) with
      | nil =>
          rw [hkept, List.nil_append] at htrim
          exact absurd (hblanks '#' (htrim ▸ List.mem_cons_self)) (by decide)
      | cons first body =>
          rw [hkept] at htrim
          obtain ⟨rfl, rfl⟩ := List.cons.inj htrim
          refine ⟨body ++ [' ', '1'], rfl, ?_⟩
          have hvalue : Directive.name? ('#' :: (body ++ ' ' :: '1' :: rest)) =
              Directive.name? ('#' :: body) :=
            Directive.name?_append (by rintro char ⟨⟩; decide) rfl body
          have hend : Directive.name? ('#' :: (body ++ blanks)) = Directive.name? ('#' :: body) :=
            Directive.name?_append (fun char hmem => isAsciiLetter_of_isBlank
              (hblanks char (List.mem_of_head? hmem))) (takeWhile_dropWhile_blanks hblanks _) body
          rw [List.append_assoc]
          exact hvalue.trans hend.symm

end Include

namespace Composer

open Include Token

variable {version : GlslVersion} {fetched : Text → Text}

private theorem requestedArgument?_eq_none {token : Token} {tokens : List Token}
    (h : includeArguments (token :: tokens) = []) :
    requestedArgument? token = none ∧ includeArguments tokens = [] := by
  cases hargument : requestedArgument? token with
  | none => exact ⟨rfl, (includeArguments_cons_of_none hargument tokens).symm.trans h⟩
  | some argument =>
      rw [includeArguments, List.filterMap_cons_some hargument] at h
      cases h

private theorem not_infix_expansion {word : Text} (hne : word ≠ []) (hspace : ' ' ∉ word)
    (hone : '1' ∉ word) (number : Nat) (source : Text) :
    ∀ before, includeArguments (tokensFrom version number source) = [] →
      ¬word <:+: before ++ withoutComments (tokensFrom version number source) →
        ¬word <:+: before ++ expansion fetched (tokensFrom version number source) := by
  fun_induction tokensFrom version number source with
  | case1 => exact fun before _ h => h
  | case2 number first rest lexeme text ih =>
      intro before hinclude h
      obtain ⟨hargument, hinclude⟩ := requestedArgument?_eq_none hinclude
      rw [withoutComments_cons] at h
      rw [expansion_cons, replacement]
      rcases Include.request_cases (kind_scan_ne_eof version first rest) hargument with
        ⟨hcomment, hrequest⟩ | ⟨hcomment, kept, hrequest, hkeeps⟩
      · rw [if_pos hcomment] at h
        rw [hrequest]
        exact ih before hinclude h
      · rw [if_neg (by simp [hcomment])] at h
        rw [hrequest]
        have hrest := ih [] hinclude fun hpart => h (hpart.trans
          ((List.suffix_append text _).trans (List.suffix_append before _)).isInfix)
        have htext := ih (before ++ text) hinclude
        rw [List.append_assoc, List.append_assoc] at htext
        exact hkeeps.not_infix hne hspace hone hrest (htext h)

private theorem expansion_splitDirective (number : Nat) (rest : Text) :
    expansion fetched (tokensFrom version number (splitDirective rest).2) = [] ∨
    ∃ more, expansion fetched (tokensFrom version number (splitDirective rest).2) =
      '\n' :: more := by
  rw [expansion_tokensFrom]
  rcases splitDirective_snd rest with hnil | ⟨more, hfeed⟩
  · rw [hnil]
    exact .inl expanded_nil
  · rw [hfeed]
    exact .inr ⟨_, expanded_newline more⟩

private theorem name?_of_append {text rest : Text} (hmark : '#' ∉ text) {name : Text}
    (h : Directive.name? (text ++ rest) = some name) : Directive.name? rest = some name := by
  obtain ⟨body, hbody⟩ := Directive.exists_trimStart_of_name? h
  have hblanks : text.trimStart = [] := by
    by_contra hne
    rw [Text.trimStart, Text.dropWhile_append_of_ne_nil hne] at hbody
    have hsuffix : text.dropWhile isBlank <:+ text := List.dropWhile_suffix isBlank
    cases hdrop : text.dropWhile isBlank with
    | nil => exact hne hdrop
    | cons first more =>
        rw [hdrop] at hbody hsuffix
        cases hbody
        exact hmark (hsuffix.subset List.mem_cons_self)
  have hrest : rest.trimStart = '#' :: body := by
    rw [← hbody, Text.trimStart, Text.trimStart, Text.dropWhile_append_of_eq_nil hblanks]
  rw [Directive.name?_of_trimStart hrest, ← Directive.name?_of_trimStart hbody, h]

theorem exists_directive_of_name? {name : Text} (number : Nat) (source : Text) :
    includeArguments (tokensFrom version number source) = [] →
      Directive.name? (expansion fetched (tokensFrom version number source)) = some name →
        ∃ token ∈ tokensFrom version number source,
          token.kind = .preprocessor ∧ Directive.name? token.text = some name := by
  fun_induction tokensFrom version number source with
  | case1 =>
      intro _ h
      cases h
  | case2 number first rest lexeme text ih =>
      intro hinclude h
      obtain ⟨hargument, hinclude⟩ := requestedArgument?_eq_none hinclude
      rw [expansion_cons, replacement] at h
      by_cases hmark : first = '#'
      · subst hmark
        have hlexeme : lexeme = .ofSplit .preprocessor (splitDirective rest) := scan_mark rest
        have hkind : lexeme.kind = .preprocessor := congrArg Lexeme.kind hlexeme
        rcases Include.request_cases (kind_scan_ne_eof version '#' rest) hargument with
          ⟨hcomment, -⟩ | ⟨-, kept, hrequest, hkeeps⟩
        · have hother : lexeme.kind.isComment = true := hcomment
          rw [hkind] at hother
          cases hother
        · obtain ⟨body, rfl, hname⟩ := hkeeps.name?_append
            (expansion_splitDirective (number + text.lineFeeds) rest)
          refine ⟨_, List.mem_cons_self, hkind, hname.symm.trans ?_⟩
          rw [hrequest, hlexeme] at h
          exact h
      · rcases Include.request_scan version hmark rest number with hnothing | ⟨hkeep, hfree⟩
        · rw [hnothing] at h
          obtain ⟨other, hmem, hother⟩ := ih hinclude h
          exact ⟨other, List.mem_cons_of_mem _ hmem, hother⟩
        · rw [hkeep] at h
          obtain ⟨other, hmem, hother⟩ := ih hinclude (name?_of_append hfree h)
          exact ⟨other, List.mem_cons_of_mem _ hmem, hother⟩

/-! ## Parts that stay as they are -/

def IsUnmarked (line : Text) : Prop := ¬toolingName <:+: line ∧ ¬Precision.word <:+: line

theorem isStable_isUnmarked : IsStable IsUnmarked where
  marker line h hword :=
    h.1 ((List.suffix_append "#define ".toList toolingName).isInfix.trans hword)
  statement line h := h.2
  of_return line h := by
    have hline : line <:+: line ++ ['\r'] := (List.prefix_append line _).isInfix
    exact ⟨fun hword => h.1 (hword.trans hline), fun hword => h.2 (hword.trans hline)⟩

theorem IsUnmarked.of_infix {row line : Text} (h : IsUnmarked line) (hrow : row <:+: line) :
    IsUnmarked row :=
  ⟨fun hword => h.1 (hword.trans hrow), fun hword => h.2 (hword.trans hrow)⟩

theorem IsUnmarked.append_return {line : Text} (h : IsUnmarked line) :
    IsUnmarked (line ++ ['\r']) := by
  have hword : ∀ word : Text, word ≠ [] → '\r' ∉ word → ¬word <:+: line →
      ¬word <:+: line ++ ['\r'] := fun word hne hreturn hline hinfix =>
    (Text.infix_of_append_cons hreturn hinfix).elim hline fun hnil => hne (List.infix_nil.mp hnil)
  exact ⟨hword _ (by decide) (by decide) h.1, hword _ (by decide) (by decide) h.2⟩

/-- The source of a unit that asks for no module and holds nothing that is taken out of a
unit.  The word `precision` is not in it even where its comments are taken out. -/
structure IsPlainSource (version : GlslVersion) (source : Text) : Prop where
  not_include : includeArguments (tokenize version source) = []
  not_return : '\r' ∉ source
  not_guard : ¬NameGuard.name <:+: source
  not_tooling : ¬toolingName <:+: source
  not_statement : ¬Precision.word <:+: withoutComments (tokenize version source)

instance (version : GlslVersion) (source : Text) : Decidable (IsPlainSource version source) :=
  decidable_of_iff
    (includeArguments (tokenize version source) = [] ∧ '\r' ∉ source ∧
      ¬NameGuard.name <:+: source ∧ ¬toolingName <:+: source ∧
      ¬Precision.word <:+: withoutComments (tokenize version source))
    ⟨fun h => ⟨h.1, h.2.1, h.2.2.1, h.2.2.2.1, h.2.2.2.2⟩, fun h => ⟨h.1, h.2, h.3, h.4, h.5⟩⟩

namespace IsPlainSource

variable {source : Text}

theorem not_statement_expanded (h : IsPlainSource version source) :
    ¬Precision.word <:+: expanded version fetched source := by
  have hpart : ¬Precision.word <:+: [] ++ expansion fetched (tokenize version source) :=
    not_infix_expansion (by decide) (by decide) (by decide) 1 source [] h.not_include
      h.not_statement
  exact hpart

theorem not_return_expanded (h : IsPlainSource version source) :
    '\r' ∉ expanded version fetched source := by
  have hpart : ¬['\r'] <:+: [] ++ expansion fetched (tokenize version source) := by
    refine not_infix_expansion (by decide) (by decide) (by decide) 1 source [] h.not_include ?_
    intro hreturn
    exact h.not_return (mem_of_mem_withoutComments ((List.singleton_infix_iff _ _).mp hreturn))
  exact fun hmem => hpart ((List.singleton_infix_iff _ _).mpr hmem)

private theorem keepsMarks (h : IsPlainSource version source) :
    KeepsMarks IsUnmarked (tokenize version source) := by
  intro token htoken hkind kept hrequest
  have hcomment : token ∈ (tokenize version source).filter fun token => !token.kind.isComment :=
    List.mem_filter.mpr ⟨htoken, by simp [hkind, TokenKind.isComment]⟩
  have htooling : ¬toolingName <:+: token.text := fun hword =>
    h.not_tooling (hword.trans (concat_tokenize version source ▸ infix_concat htoken))
  have hstatement : ¬Precision.word <:+: token.text := fun hword =>
    h.not_statement (hword.trans (infix_concat hcomment))
  have hkeeps := Keeps.of_requestOfDirective hrequest
  refine Text.eachMark_of_infix fun line hline => ⟨fun hword => ?_, fun hword => ?_⟩
  · exact hkeeps.not_infix_kept (by decide) (by decide) (by decide) htooling (hword.trans hline)
  · exact hkeeps.not_infix_kept (by decide) (by decide) (by decide) hstatement (hword.trans hline)

theorem eachMark_expanded {composer : Composer} (hstages : composer.stages = [])
    (hprecision : '#' ∉ composer.precision) (h : IsPlainSource composer.version source) :
    EachMark IsUnmarked (expanded composer.version fetched source) := by
  have hexpands : composer.Expands .exact ModulePath.root (tokenize composer.version source)
      (expanded composer.version fetched source) := expands_expansion h.not_include _
  refine hexpands.eachMark isStable_isUnmarked hstages hprecision (fun argument hmem => ?_) 1
    source rfl h.keepsMarks
  rw [h.not_include] at hmem
  cases hmem

theorem eachMark_isUnguarded (h : IsPlainSource version source) :
    EachMark NameGuard.IsUnguarded source :=
  Text.eachMark_of_infix fun _ hline => .inl fun hname => h.not_guard (hname.trans hline)

end IsPlainSource

theorem unitText_eq_finishUnit {composer : Composer} (hstages : composer.stages = [])
    {assembled : Text} (h : EachMark IsUnmarked assembled) :
    composer.unitText assembled = composer.finishUnit assembled := by
  have hmarker : ¬toolingMarker <:+: assembled := by
    rintro ⟨before, after, rfl⟩
    rw [List.append_assoc] at h
    have hopening : toolingMarker =
        '#' :: ("define ".toList ++ toolingName ++ ' ' :: ['1', '\n']) := by
      rw [toolingMarker_eq_append]
      simp
    have hfeed : '\n' ∉ "define ".toList ++ toolingName := by decide
    have hline := h.of_append
    rw [hopening, List.cons_append, List.append_assoc, Text.eachMark_cons,
      Text.restOfLine_of_not_mem hfeed] at hline
    exact (hline.1 rfl).1 ⟨"define ".toList, _, rfl⟩
  rw [unitText, stagedText, runStages, hstages, List.foldl_nil,
    Text.replaceFirst_of_absent hmarker]

end Composer

end GlslCompose
