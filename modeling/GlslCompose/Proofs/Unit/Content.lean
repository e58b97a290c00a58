import GlslCompose.Proofs.Unit.Marks
import Mathlib.Data.List.Infix

/-!
# The content of a unit

What the line layout leaves of a text are its lines that are not blank.  They are
found between any two line feeds by themselves, and placing the precision statement
looks at nothing else.
-/

namespace GlslCompose

namespace Layout

def contentLines (source : Text) : List Text := source.lines.filter fun line => ¬line.IsBlankLine

theorem finalLines_lines (source : Text) :
    finalLines source.lines = (contentLines source).map padLine := rfl

theorem contentLines_append {first : Text} (hfirst : first.EndsLine) (second : Text) :
    contentLines (first ++ second) = contentLines first ++ contentLines second := by
  rw [contentLines, Text.lines_append hfirst, List.filter_append]
  rfl

private theorem contentLines_row {row : Text} (hrow : '\n' ∉ row) :
    contentLines row = if row.IsBlankLine then [] else [row] := by
  by_cases hnil : row = []
  · subst hnil
    rfl
  · rw [contentLines, Text.lines, Text.linesWithEnds_of_not_mem hrow hnil, List.map_singleton,
      Text.dropLineEnd_of_not_mem hrow]
    by_cases hblank : row.IsBlankLine <;> simp [hblank]

private theorem contentLines_row_newline {row : Text} (hrow : row.IsRow) :
    contentLines (row ++ ['\n']) = if row.IsBlankLine then [] else [row] := by
  have hlines : Text.linesWithEnds (row ++ ['\n']) = [row ++ ['\n']] :=
    Text.linesWithEnds_row hrow.1 []
  rw [contentLines, Text.lines, hlines, List.map_singleton, Text.dropLineEnd_row hrow.2]
  by_cases hblank : row.IsBlankLine <;> simp [hblank]

theorem contentLines_concat_newline {first : Text} (hreturn : first.getLast? ≠ some '\r') :
    contentLines (first ++ ['\n']) = contentLines first := by
  obtain ⟨above, row, rfl, habove, hrow⟩ := Text.exists_endsLine_append first
  have hlast : row.getLast? ≠ some '\r' := fun hlast => hreturn (by simp [hlast])
  rw [List.append_assoc, contentLines_append habove, contentLines_append habove,
    contentLines_row_newline ⟨hrow, hlast⟩, contentLines_row hrow]

theorem contentLines_newline {first : Text} (hreturn : first.getLast? ≠ some '\r') (second : Text) :
    contentLines (first ++ '\n' :: second) = contentLines first ++ contentLines second := by
  rw [List.append_cons, contentLines_append (Text.endsLine_append_newline first),
    contentLines_concat_newline hreturn]

private theorem contentLines_padLine {line : Text} (hline : line.IsRow)
    (hcontent : ¬line.IsBlankLine) :
    contentLines (padLine line ++ ['\n']) = [line] := by
  have hrow := (contentLines_row_newline hline).trans (if_neg hcontent)
  unfold padLine
  split
  · rename_i char
    have hempty : contentLines ['\n'] = [] := rfl
    have hends : Text.EndsLine [char, '\n'] := Text.endsLine_append_newline [char]
    rw [contentLines_append hends, hempty, List.append_nil]
    exact hrow
  · exact hrow

theorem contentLines_ofRows {lines : List Text}
    (hlines : ∀ line ∈ lines, line.IsRow ∧ ¬line.IsBlankLine) :
    contentLines (Text.ofRows (lines.map padLine)) = lines := by
  induction lines with
  | nil => rfl
  | cons line lines ih =>
      obtain ⟨hline, hcontent⟩ := hlines line List.mem_cons_self
      have hrest := ih fun other hother => hlines other (List.mem_cons_of_mem line hother)
      rw [List.map_cons, Text.ofRows_cons, List.append_cons,
        contentLines_append (Text.endsLine_append_newline _), contentLines_padLine hline hcontent,
        hrest]
      rfl

theorem infix_of_ofRows {word : Text} {lines : List Text} (hword : '\n' ∉ word) (hne : word ≠ [])
    (h : word <:+: Text.ofRows (lines.map padLine)) : ∃ line ∈ lines, word <:+: line := by
  induction lines with
  | nil => exact absurd (List.infix_nil.mp h) hne
  | cons line lines ih =>
      rw [List.map_cons, Text.ofRows_cons] at h
      rcases Text.infix_of_append_cons hword h with hline | hrest
      · refine ⟨line, List.mem_cons_self, ?_⟩
        unfold padLine at hline
        split at hline
        · rename_i char
          have hsplit : word <:+: [char] ++ '\n' :: [] := hline
          exact (Text.infix_of_append_cons hword hsplit).resolve_right fun hnil =>
            hne (List.infix_nil.mp hnil)
        · exact hline
      · obtain ⟨other, hother, hinfix⟩ := ih hrest
        exact ⟨other, List.mem_cons_of_mem line hother, hinfix⟩

theorem of_mem_contentLines {source line : Text} (hreturn : '\r' ∉ source)
    (h : line ∈ contentLines source) :
    line.IsRow ∧ ¬line.IsBlankLine ∧ line <:+: source := by
  have hmem := List.mem_of_mem_filter h
  have hpart := Text.infix_of_mem_lines hmem
  refine ⟨⟨Text.newline_not_mem_of_mem_lines hmem, fun hlast => ?_⟩, ?_, hpart⟩
  · exact hreturn (hpart.subset (List.mem_of_getLast? hlast))
  · exact of_decide_eq_true (List.mem_filter.mp h).2

/-! ## The place of the precision statement -/

/-- Behind a version line, or at the top. -/
def placeLine (header : Text) : List Text → List Text
  | [] => [header]
  | line :: lines =>
      if Directive.name? line = some Directive.versionName then line.trimStart :: header :: lines
      else header :: line :: lines

private theorem trimStart_eq_nil_iff {row : Text} : row.trimStart = [] ↔ row.IsBlankLine :=
  List.dropWhile_eq_nil_iff

private theorem trimStart_cases {source : Text} (hreturn : '\r' ∉ source) :
    (source.trimStart = [] ∧ contentLines source = []) ∨
    ∃ row, row.IsRow ∧ ¬row.IsBlankLine ∧
      ((source.trimStart = row.trimStart ∧ contentLines source = [row]) ∨
        ∃ rest, '\r' ∉ rest ∧ source.trimStart = row.trimStart ++ '\n' :: rest ∧
          contentLines source = row :: contentLines rest) := by
  induction hlength : source.length using Nat.strong_induction_on generalizing source with
  | _ length ih =>
  by_cases hfeed : '\n' ∈ source
  · obtain ⟨row, rest, rfl, hrow⟩ := List.eq_append_cons_of_mem hfeed
    have hrowReturn : row.getLast? ≠ some '\r' := fun hlast =>
      hreturn (List.mem_append_left _ (List.mem_of_getLast? hlast))
    have hrestReturn : '\r' ∉ rest := fun hmem => hreturn (by simp [hmem])
    have hrest : Text.trimStart (row ++ '\n' :: rest) =
        if Text.IsBlankLine row then Text.trimStart rest
        else Text.trimStart row ++ '\n' :: rest := by
      unfold Text.trimStart
      rw [List.dropWhile_append, List.dropWhile_cons_of_pos (by decide)]
      simp only [List.isEmpty_iff]
      exact if_congr trimStart_eq_nil_iff rfl rfl
    rw [hrest, contentLines_newline hrowReturn, contentLines_row hrow]
    by_cases hblank : Text.IsBlankLine row
    · rw [if_pos hblank, if_pos hblank, List.nil_append]
      refine ih rest.length ?_ hrestReturn rfl
      rw [← hlength, List.length_append, List.length_cons]
      omega
    · rw [if_neg hblank, if_neg hblank]
      exact .inr ⟨row, ⟨hrow, hrowReturn⟩, hblank, .inr ⟨rest, hrestReturn, rfl, rfl⟩⟩
  · rw [contentLines_row hfeed]
    by_cases hblank : source.IsBlankLine
    · exact .inl ⟨trimStart_eq_nil_iff.mpr hblank, if_pos hblank⟩
    · exact .inr ⟨source, ⟨hfeed, fun hlast => hreturn (List.mem_of_getLast? hlast)⟩, hblank,
        .inl ⟨rfl, if_neg hblank⟩⟩

private theorem exists_trimStart_cons {row : Text} (hrow : ¬row.IsBlankLine) :
    ∃ first rest, row.trimStart = first :: rest ∧ isBlank first = false := by
  cases htrim : row.trimStart with
  | nil => exact absurd (trimStart_eq_nil_iff.mp htrim) hrow
  | cons first rest =>
      have hfirst := List.head?_dropWhile_not isBlank row
      rw [← Text.trimStart, htrim] at hfirst
      exact ⟨first, rest, rfl, by simpa using hfirst⟩

private theorem trimStart_row {row : Text} (hrow : row.IsRow) (hcontent : ¬row.IsBlankLine) :
    row.trimStart.IsRow ∧ ¬row.trimStart.IsBlankLine := by
  obtain ⟨first, rest, htrim, hfirst⟩ := exists_trimStart_cons hcontent
  have hsuffix : row.trimStart <:+ row := List.dropWhile_suffix isBlank
  refine ⟨⟨fun hmem => hrow.1 (hsuffix.subset hmem), fun hlast => hrow.2 ?_⟩, fun hblank => ?_⟩
  · obtain ⟨before, hbefore⟩ := hsuffix
    rw [← hbefore, List.getLast?_append, hlast]
    rfl
  · rw [htrim] at hblank
    rw [hblank first List.mem_cons_self] at hfirst
    cases hfirst

private theorem name?_trimStart_append {row : Text} (hrow : ¬row.IsBlankLine) (rest : Text) :
    Directive.name? (row.trimStart ++ '\n' :: rest) = Directive.name? row := by
  obtain ⟨first, body, htrim, hfirst⟩ := exists_trimStart_cons hrow
  by_cases hmark : first = '#'
  · subst hmark
    rw [htrim, Directive.name?_of_trimStart htrim]
    exact Directive.name?_append_newline body rest
  · have hnone : ∀ line more, Text.trimStart line = first :: more →
        Directive.name? line = none := by
      intro line more hline
      rw [Option.eq_none_iff_forall_ne_some]
      intro name hname
      obtain ⟨other, hother⟩ := Directive.exists_trimStart_of_name? hname
      cases hline.symm.trans hother
      exact hmark rfl
    rw [htrim, hnone row body htrim]
    exact hnone _ _ (Text.trimStart_cons hfirst _)

private theorem contentLines_placeHeader {header source : Text} (hheader : header.IsRow)
    (hcontent : ¬header.IsBlankLine) (hreturn : '\r' ∉ source) :
    contentLines (Precision.placeHeader header source) =
      placeLine header (contentLines source) := by
  have hplaced : ∀ {row : Text} rest, row.IsRow → ¬row.IsBlankLine →
      contentLines (row ++ '\n' :: rest) = row :: contentLines rest := by
    intro row rest hrow hcontent
    rw [contentLines_newline hrow.2, contentLines_row hrow.1, if_neg hcontent]
    rfl
  unfold Precision.placeHeader
  dsimp only
  rcases trimStart_cases hreturn with
    ⟨hbody, hlines⟩ | ⟨row, hrow, hcontentRow, ⟨hbody, hlines⟩ | ⟨rest, hrest, hbody, hlines⟩⟩
  · rw [hbody, if_neg (by decide), hplaced source hheader hcontent, hlines]
    rfl
  · obtain ⟨hstart, hcontentStart⟩ := trimStart_row hrow hcontentRow
    rw [hbody, Directive.name?_trimStart, hlines, placeLine]
    split
    · rw [Text.splitFirstLine_row hstart.1, List.append_assoc, List.cons_append,
        hplaced _ hstart hcontentStart, hplaced [] hheader hcontent]
      rfl
    · rw [hplaced source hheader hcontent, hlines]
  · obtain ⟨hstart, hcontentStart⟩ := trimStart_row hrow hcontentRow
    rw [hbody, name?_trimStart_append hcontentRow, hlines, placeLine]
    split
    · rw [Text.splitFirstLine_newline hstart.1, List.append_assoc, List.cons_append,
        hplaced _ hstart hcontentStart, hplaced rest hheader hcontent]
    · rw [hplaced source hheader hcontent, hlines]

end Layout

/-! ## Texts without precision statements -/

namespace Precision

private theorem removeFrom_of_not_infix {source : Text} (h : ¬word <:+: source) (afterWord : Bool) :
    removeFrom afterWord 0 source = source := by
  induction source generalizing afterWord with
  | nil => rfl
  | cons char rest ih =>
      have hnone : afterStatement? afterWord (char :: rest) = none := by
        rw [Option.eq_none_iff_forall_ne_some]
        intro after hafter
        refine h ((afterStatement?_eq_some hafter).2.word_on_line.trans ?_)
        exact (List.takeWhile_prefix _).isInfix
      rw [removeFrom_of_none hnone,
        ih fun hrest => h (hrest.trans (List.suffix_cons char rest).isInfix)]

private theorem inject_of_not_infix {source : Text} (h : ¬word <:+: source) (precision : Text) :
    inject precision source = placeHeader (header precision) source := by
  have hheader : ¬header precision <:+: source := fun hmem =>
    h ((List.prefix_append word (' ' :: precision ++ [';'])).isInfix.trans hmem)
  rw [inject_eq, Text.replaceFirst_of_absent hheader, removeStatements,
    removeFrom_of_not_infix h]

end Precision

namespace Composer

open Layout

variable {composer : Composer} {source : Text}

private theorem placeLine_ne_nil (header : Text) (lines : List Text) :
    placeLine header lines ≠ [] := by
  unfold placeLine
  split
  · exact List.cons_ne_nil _ _
  · split <;> exact List.cons_ne_nil _ _

private theorem finishUnit_eq_of_inject {header placed : Text} (hheader : IsSettled header)
    (hreturn : '\r' ∉ placed)
    (hinject : Precision.inject composer.precision source = Precision.placeHeader header placed) :
    composer.finishUnit source =
      Text.ofRows ((placeLine header (contentLines placed)).map padLine) := by
  have hlines := contentLines_placeHeader hheader.isRow hheader.not_blank hreturn
  have hne : (placeLine header (contentLines placed)).map padLine ≠ [] := by
    simp [placeLine_ne_nil]
  rw [finishUnit, hinject, finalizeLines_eq, finalLines_lines, hlines,
    Text.unlines_append_newline hne]

private theorem placeHeader_eq {header : Text} (hversion :
      Directive.name? source.trimStart ≠ some Directive.versionName) :
    Precision.placeHeader header source = header ++ '\n' :: source := if_neg hversion

private theorem finishUnit_eq (hprecision : '\n' ∉ composer.precision) (hversion :
      Directive.name? source.trimStart ≠ some Directive.versionName) (hreturn : '\r' ∉ source)
    (hword : ¬Precision.word <:+: source) :
    composer.finishUnit source = Precision.header composer.precision ++
      '\n' :: Text.ofRows ((contentLines source).map padLine) := by
  have hheader := isSettled_header hprecision
  have hplace := contentLines_placeHeader hheader.isRow hheader.not_blank hreturn
  rw [placeHeader_eq hversion, contentLines_newline hheader.isRow.2,
    contentLines_row hheader.isRow.1, if_neg hheader.not_blank, List.singleton_append] at hplace
  rw [finishUnit_eq_of_inject hheader hreturn (Precision.inject_of_not_infix hword _), ← hplace,
    List.map_cons, hheader.padLine_eq, Text.ofRows_cons]

private theorem splice_cases {above middle below : Text} (habove : above.EndsLine)
    (hreturn : '\r' ∉ above ∧ '\r' ∉ middle ∧ '\r' ∉ below)
    (hword : ¬Precision.word <:+: above ∧ ¬Precision.word <:+: middle ∧
      ¬Precision.word <:+: below) :
    '\r' ∉ above ++ (middle ++ '\n' :: below) ∧
    ¬Precision.word <:+: above ++ (middle ++ '\n' :: below) ∧
    contentLines (above ++ (middle ++ '\n' :: below)) =
      contentLines above ++ (contentLines middle ++ contentLines below) := by
  refine ⟨by simp [hreturn], fun hinfix => ?_, ?_⟩
  · rcases habove.infix_append Precision.newline_not_mem_word hinfix with hmem | hmem
    · exact hword.1 hmem
    · rcases Text.infix_of_append_cons Precision.newline_not_mem_word hmem with hmem | hmem
      · exact hword.2.1 hmem
      · exact hword.2.2 hmem
  · have hlast : middle.getLast? ≠ some '\r' := fun hlast =>
      hreturn.2.1 (List.mem_of_getLast? hlast)
    rw [contentLines_append habove, contentLines_newline hlast]

private theorem contentRows_cases (hreturn : '\r' ∉ source) (hword : ¬Precision.word <:+: source) :
    '\r' ∉ '\n' :: Text.ofRows ((contentLines source).map padLine) ∧
    ¬Precision.word <:+: '\n' :: Text.ofRows ((contentLines source).map padLine) ∧
    contentLines ('\n' :: Text.ofRows ((contentLines source).map padLine)) =
      contentLines source := by
  have hrows : ∀ {word : Text}, '\n' ∉ word → word ≠ [] → ¬word <:+: source →
      ¬word <:+: [] ++ '\n' :: Text.ofRows ((contentLines source).map padLine) := by
    intro word hfeed hne hsource hinfix
    rcases Text.infix_of_append_cons hfeed hinfix with hnil | hrow
    · exact hne (List.infix_nil.mp hnil)
    · obtain ⟨line, hline, hmem⟩ := infix_of_ofRows hfeed hne hrow
      exact hsource (hmem.trans (of_mem_contentLines hreturn hline).2.2)
  refine ⟨fun hmem => ?_, hrows Precision.newline_not_mem_word (by decide) hword, ?_⟩
  · exact hrows (by decide) (by decide)
      (fun hinfix => hreturn ((List.singleton_infix_iff _ _).mp hinfix))
      ((List.singleton_infix_iff _ _).mpr hmem)
  · have hnewline : contentLines ([] ++ '\n' :: Text.ofRows ((contentLines source).map padLine)) =
        _ := contentLines_newline (by decide) _
    refine hnewline.trans (contentLines_ofRows fun line hline => ?_)
    obtain ⟨hrow, hcontent, -⟩ := of_mem_contentLines hreturn hline
    exact ⟨hrow, hcontent⟩

/-- A unit that is finished before it is put into another one leaves the same text there,
if it has no version line and nothing around it has a precision statement. -/
theorem finishUnit_splice (hprecision : '\n' ∉ composer.precision) {above fragment below : Text}
    (habove : above.EndsLine) (hversion :
      Directive.name? fragment.trimStart ≠ some Directive.versionName)
    (hreturn : '\r' ∉ above ∧ '\r' ∉ fragment ∧ '\r' ∉ below)
    (hword : ¬Precision.word <:+: above ∧ ¬Precision.word <:+: fragment ∧
      ¬Precision.word <:+: below) :
    composer.finishUnit (above ++ (composer.finishUnit fragment ++ '\n' :: below)) =
      composer.finishUnit (above ++ (fragment ++ '\n' :: below)) := by
  have hheader := isSettled_header hprecision
  obtain ⟨hrowsReturn, hrowsWord, hrows⟩ := contentRows_cases hreturn.2.1 hword.2.1
  obtain ⟨hsplicedReturn, hsplicedWord, hspliced⟩ := splice_cases habove
    ⟨hreturn.1, hrowsReturn, hreturn.2.2⟩ ⟨hword.1, hrowsWord, hword.2.2⟩
  obtain ⟨hwholeReturn, hwholeWord, hwhole⟩ := splice_cases habove hreturn hword
  -- The fragment's own statement is the first one, and it is taken out.
  have hinject : Precision.inject composer.precision
      (above ++ (composer.finishUnit fragment ++ '\n' :: below)) =
      Precision.placeHeader (Precision.header composer.precision)
        (above ++ ('\n' :: Text.ofRows ((contentLines fragment).map padLine) ++
          '\n' :: below)) := by
    have hpiece : Precision.header composer.precision =
        Precision.word ++ (' ' :: composer.precision ++ [';']) := rfl
    have hne : Precision.header composer.precision ≠ [] := by simp [hpiece]
    rw [finishUnit_eq hprecision hversion hreturn.2.1 hword.2.1, List.append_assoc,
      Precision.inject_eq, Text.replaceFirst_append habove hpiece
        (Precision.newline_not_mem_header hprecision) hne hword.1,
      Precision.removeStatements, Precision.removeFrom_of_not_infix hsplicedWord]
  rw [finishUnit_eq_of_inject hheader hsplicedReturn hinject, hspliced, hrows, ← hwhole,
    ← finishUnit_eq_of_inject hheader hwholeReturn (Precision.inject_of_not_infix hwholeWord _)]

end Composer

end GlslCompose
