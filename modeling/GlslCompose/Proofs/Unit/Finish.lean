import GlslCompose.Proofs.Unit.Block
import GlslCompose.Proofs.Unit.Statements

/-!
# Rows in a finished unit

What happens to a unit behind the expansion of its includes leaves a block of rows on
lines of its own: neither the tooling marker nor a precision statement begins in it,
the precision statement is placed above it, and none of its lines is blank.
-/

namespace GlslCompose

/-! ## Rows and what is searched for -/

namespace Composer

def toolingName : Text := "GLSLIFY".toList

theorem toolingMarker_eq_append :
    toolingMarker = "#define ".toList ++ (toolingName ++ ' ' :: ['1', '\n']) := by
  unfold toolingMarker toolingName
  simp

private theorem toolingMarker_ne_nil : toolingMarker ≠ [] := by
  rw [toolingMarker_eq_cons]
  exact List.cons_ne_nil _ _

private theorem newline_not_mem_dropLast_toolingMarker : '\n' ∉ toolingMarker.dropLast := by
  rw [toolingMarker_eq_concat, List.dropLast_concat]
  decide

end Composer

namespace Precision

private theorem header_eq_concat (precision : Text) :
    header precision = (word ++ ' ' :: precision) ++ [';'] := by
  simp [header]

theorem newline_not_mem_header {precision : Text} (hprecision : '\n' ∉ precision) :
    '\n' ∉ header precision := by
  have hword : '\n' ∉ word := by decide
  rw [header_eq_concat]
  simp [hword, hprecision]

theorem newline_not_mem_dropLast_header {precision : Text} (hprecision : '\n' ∉ precision) :
    '\n' ∉ (header precision).dropLast := fun hmem =>
  newline_not_mem_header hprecision (List.dropLast_subset _ hmem)

end Precision

namespace Directive

private theorem exists_name_of_ne_nil {defines : List (Text × Text)} (hdefines : defines ≠ [])
    (rest : Text) : ∃ post, Text.ofRows (defineRows defines) ++ rest = '#' :: post ∧
      name? ('#' :: post) = some defineName := by
  obtain ⟨entry, others, rfl⟩ := List.exists_cons_of_ne_nil hdefines
  refine ⟨rowTail entry.1 entry.2 ++ '\n' :: (Text.ofRows (defineRows others) ++ rest), ?_, ?_⟩
  · rw [ofRows_defineRows_cons, defineLine_eq_cons, List.cons_append]
  · rw [name?_append_newline, ← defineLine_eq_cons, IsSingle.name?_eq]

end Directive

namespace Directive.IsPlain

variable {key value : Text}

private theorem avoids_header (h : IsPlain key value) {precision : Text}
    (hprecision : '\n' ∉ precision) :
    Text.Avoids (Precision.header precision) (defineLine key value) := by
  intro before after rest hsplit hne hstart
  have hline : Text.EndsLine (before ++ after) := by
    rw [← hsplit]
    exact Text.endsLine_append_newline _
  obtain ⟨body, rfl⟩ := hline.of_append.resolve_left hne
  rw [List.append_assoc, List.singleton_append] at hstart
  have hshort := Text.prefix_of_newline
    (Precision.newline_not_mem_dropLast_header hprecision) hstart
  have hmem : ';' ∈ defineLine key value ++ ['\n'] := by
    rw [hsplit]
    refine List.mem_append_right _ (hshort.subset ?_)
    rw [Precision.header_eq_concat]
    exact List.mem_concat_self
  rcases List.mem_append.mp hmem with hrow | hfeed
  · exact h.not_mem_defineLine (by decide) (by decide) hrow
  · simp at hfeed

private theorem eq_of_words {first second more rest : Text}
    (hfirst : ∀ char ∈ first, continuesWord char = true)
    (hsecond : ∀ char ∈ second, continuesWord char = true)
    (h : first ++ ' ' :: more <+: second ++ ' ' :: rest) : first = second := by
  obtain ⟨behind, hbehind⟩ := h
  have htake := congrArg (List.takeWhile continuesWord) hbehind
  rw [List.append_assoc, List.cons_append, List.takeWhile_append_of_pos hfirst,
    List.takeWhile_append_of_pos hsecond, List.takeWhile_cons_of_neg (by decide),
    List.takeWhile_cons_of_neg (by decide), List.append_nil, List.append_nil] at htake
  exact htake

private theorem avoids_toolingMarker (h : IsPlain key value) (hkey : key ≠ Composer.toolingName) :
    Text.Avoids Composer.toolingMarker (defineLine key value) := by
  intro before after rest hsplit hne hstart
  have hmark : '#' ∉ rowTail key value ++ ['\n'] := by
    have hrow : '#' ∉ rowTail key value := h.not_mem_rowTail (by decide)
    simp [hrow]
  rw [defineLine_eq_cons, List.cons_append] at hsplit
  cases before with
  | nil =>
      have hrow : after ++ rest =
          "#define ".toList ++ (key ++ ' ' :: (value ++ '\n' :: rest)) := by
        rw [← List.nil_append after, ← hsplit]
        unfold rowTail
        simp
      rw [hrow, Composer.toolingMarker_eq_append, List.prefix_append_right_inj] at hstart
      have hword : Composer.toolingName.IsWord := by decide
      exact hkey (eq_of_words hword.2 h.key.2 hstart).symm
  | cons char before =>
      rw [List.cons_append, List.cons.injEq] at hsplit
      apply hmark
      rw [hsplit.2]
      cases after with
      | nil => exact absurd rfl hne
      | cons first after =>
          rw [Composer.toolingMarker_eq_cons, List.cons_append,
            List.cons_prefix_cons] at hstart
          rw [hstart.1]
          simp

end Directive.IsPlain

/-! ## The precision statement -/

namespace Precision

variable {precision above : Text} {defines others : List (Text × Text)} {last : Text × Text}

/-- The text with a statement on its first line, or behind a version line. -/
def placeHeader (header source : Text) : Text :=
  let body := source.trimStart
  if Directive.name? body = some Directive.versionName then
    let (version, rest) := body.splitFirstLine
    version ++ '\n' :: header ++ '\n' :: rest
  else header ++ '\n' :: source

theorem inject_eq (precision source : Text) :
    inject precision source =
      placeHeader (header precision)
        (removeStatements (source.replaceFirst (header precision) [])) :=
  rfl

private theorem placeHeader_append_mark (header : Text) (habove : above.EndsLine) {post : Text}
    (hname : Directive.name? ('#' :: post) ≠ some Directive.versionName) :
    placeHeader header (above ++ '#' :: post) = placeHeader header above ++ '#' :: post := by
  have hbody : (above ++ '#' :: post).trimStart = above.trimStart ++ '#' :: post :=
    dropWhile_append_mark (by decide) above post
  have hbelow : above.trimStart.EndsLine := habove.of_suffix (List.dropWhile_suffix _)
  unfold placeHeader
  simp only [hbody]
  cases htrim : above.trimStart with
  | nil =>
      rw [List.nil_append, if_neg hname, if_neg nofun]
      simp
  | cons first front =>
      have hfirst : isBlank first = false := by
        have hnot := List.head?_dropWhile_not isBlank above
        rw [← Text.trimStart, htrim] at hnot
        simpa using hnot
      rw [Directive.name?_append_mark hfirst]
      split
      · -- The version line ends in front of the directive.
        obtain ⟨front, hfront⟩ := hbelow.resolve_left (by simp [htrim])
        have hfeed : '\n' ∈ above.trimStart := by simp [hfront]
        obtain ⟨line, rest, hline, hnot⟩ := List.eq_append_cons_of_mem hfeed
        have hlong : Text.splitFirstLine (line ++ '\n' :: rest ++ '#' :: post) =
            (line, rest ++ '#' :: post) := by
          rw [List.append_assoc, List.cons_append, Text.splitFirstLine_newline hnot]
        rw [← htrim, hline, hlong, Text.splitFirstLine_newline hnot]
        simp
      · simp

private theorem endsLine_placeHeader (header : Text) (habove : above.EndsLine) :
    (placeHeader header above).EndsLine := by
  have hbelow : above.trimStart.EndsLine := habove.of_suffix (List.dropWhile_suffix _)
  unfold placeHeader
  dsimp only
  split
  · have hrest : above.trimStart.splitFirstLine.2.EndsLine :=
      hbelow.of_suffix ((List.drop_suffix 1 _).trans (List.dropWhile_suffix _))
    rw [List.append_cons]
    exact (Text.endsLine_append_newline _).append hrest
  · rw [List.append_cons]
    exact (Text.endsLine_append_newline _).append habove

private theorem header_ne_nil (precision : Text) : header precision ≠ [] := by
  rw [header_eq_concat]
  exact List.concat_ne_nil _ _

private theorem inject_ofRows (hprecision : '\n' ∉ precision)
    (hdefines : ∀ entry ∈ defines ++ [last] ++ others, Directive.IsPlain entry.1 entry.2)
    (hend : (last.1 ≠ word ∧ last.2 ≠ word) ∨ others ≠ []) (habove : above.EndsLine)
    (more : Text) :
    (inject precision above).EndsLine ∧
    ∃ right, inject precision
        (above ++ Text.ofRows (Directive.defineRows (defines ++ [last] ++ others)) ++ more) =
      inject precision above ++ Text.ofRows (Directive.defineRows (defines ++ [last])) ++
        right := by
  have hrows : ∀ row ∈ Directive.defineRows (defines ++ [last] ++ others),
      Text.Avoids (header precision) row := by
    intro row hrow
    obtain ⟨entry, hentry, rfl⟩ := List.mem_map.mp hrow
    exact (hdefines entry hentry).avoids_header hprecision
  have hclosed : ∀ before, above = before ++ header precision → before.EndsLine := by
    -- A text that ends a line does not end with a semicolon.
    intro before hbefore
    rw [hbefore, header_eq_concat, ← List.append_assoc] at habove
    exact absurd (Text.endsLine_singleton_iff.mp habove.of_append) (by decide)
  obtain ⟨hfirst, rest, hreplace⟩ := Text.replaceFirst_ofRows (header_ne_nil precision)
    (newline_not_mem_dropLast_header hprecision) habove hclosed hrows more
  have hsecond := (endsLine_removeFrom hfirst false (.inl rfl)).1
  -- What stands behind the rows that are looked at, with the others in front.
  let below := Text.ofRows (Directive.defineRows others) ++ rest
  have hsplit : Text.ofRows (Directive.defineRows (defines ++ [last] ++ others)) ++ rest =
      Text.ofRows (Directive.defineRows (defines ++ [last])) ++ below := by
    rw [Directive.defineRows, List.map_append, Text.ofRows_append, List.append_assoc]
    rfl
  have hbelow : (last.1 ≠ word ∧ last.2 ≠ word) ∨ ∃ post, below = '#' :: post :=
    hend.imp_right fun hne => Directive.exists_mark_of_ne_nil hne rest
  obtain ⟨post, hpost⟩ := Directive.exists_mark_of_ne_nil (List.concat_ne_nil last defines) below
  obtain ⟨behind, hbehind, hname⟩ :=
    Directive.exists_name_of_ne_nil (List.concat_ne_nil last defines) (removeFrom false 0 below)
  have hremove : removeFrom false 0 ('#' :: post) = '#' :: behind := by
    rw [← hpost, removeFrom_rows
      (fun entry hentry => hdefines entry (List.mem_append_left others hentry)) hbelow, hbehind]
  have hversion : Directive.name? ('#' :: behind) ≠ some Directive.versionName := by
    rw [hname]
    decide
  refine ⟨?_, removeFrom false 0 below, ?_⟩
  · rw [inject_eq]
    exact endsLine_placeHeader _ hsecond
  · rw [inject_eq, inject_eq, hreplace, List.append_assoc, hsplit, hpost, removeStatements,
      removeFrom_append_mark false (Nat.zero_le _), ← removeFrom_mark false, hremove,
      placeHeader_append_mark _ hsecond hversion, ← hbehind, removeStatements, List.append_assoc]

end Precision

/-! ## Line layout -/

namespace Layout

/-- A line that the layout of lines leaves as it is. -/
structure IsSettled (row : Text) : Prop where
  isRow : row.IsRow
  not_blank : ¬row.IsBlankLine
  padLine_eq : padLine row = row

private theorem isSettled_of_cons_cons {first second : Char} {rest : Text}
    (hrow : Text.IsRow (first :: second :: rest)) (hfirst : isBlank first = false) :
    IsSettled (first :: second :: rest) := by
  refine ⟨hrow, fun hblank => ?_, rfl⟩
  rw [hblank first List.mem_cons_self] at hfirst
  cases hfirst

theorem isSettled_header {precision : Text} (hprecision : '\n' ∉ precision) :
    IsSettled (Precision.header precision) := by
  have hrow : (Precision.header precision).IsRow := by
    refine ⟨Precision.newline_not_mem_header hprecision, ?_⟩
    rw [Precision.header_eq_concat, List.getLast?_concat]
    decide
  have hcons : Precision.header precision =
      'p' :: 'r' :: ("ecision".toList ++ ' ' :: precision ++ [';']) := by
    unfold Precision.header Precision.word
    simp
  rw [hcons] at hrow ⊢
  exact isSettled_of_cons_cons hrow (by decide)

private theorem isSettled_defineLine {key value : Text} (h : Directive.IsPlain key value) :
    IsSettled (Directive.defineLine key value) := by
  have hrow := h.isRow
  have hcons : Directive.defineLine key value =
      '#' :: 'd' :: ("efine ".toList ++ key ++ ' ' :: value) := by
    unfold Directive.defineLine
    simp
  rw [hcons] at hrow ⊢
  exact isSettled_of_cons_cons hrow (by decide)

def finalLines (lines : List Text) : List Text :=
  (lines.filter fun line => ¬line.IsBlankLine).map padLine

theorem finalizeLines_eq (source : Text) :
    finalizeLines source = Text.unlines (finalLines source.lines) := rfl

@[simp] theorem finalLines_append (first second : List Text) :
    finalLines (first ++ second) = finalLines first ++ finalLines second := by
  simp [finalLines]

theorem finalLines_eq_self {rows : List Text} (hrows : ∀ row ∈ rows, IsSettled row) :
    finalLines rows = rows := by
  have hfilter : rows.filter (fun line => ¬line.IsBlankLine) = rows :=
    List.filter_eq_self.mpr fun row hrow => decide_eq_true (hrows row hrow).not_blank
  have hmap : rows.map padLine = rows.map id :=
    List.map_congr_left fun row hrow => (hrows row hrow).padLine_eq
  rw [finalLines, hfilter, hmap, List.map_id]

private theorem lines_finalizeLines_ofRows {rows : List Text} (hrows : ∀ row ∈ rows, IsSettled row)
    (hne : rows ≠ []) {left : Text} (hleft : left.EndsLine) (right : Text) :
    (finalizeLines (left ++ Text.ofRows rows ++ right) ++ ['\n']).lines =
      (Text.ofRows (finalLines left.lines)).lines ++ rows ++
        (Text.ofRows (finalLines right.lines)).lines := by
  have hlines : finalLines (left ++ Text.ofRows rows ++ right).lines =
      finalLines left.lines ++ rows ++ finalLines right.lines := by
    rw [Text.lines_append_ofRows hleft fun row hrow => (hrows row hrow).isRow,
      finalLines_append, finalLines_append, finalLines_eq_self hrows]
  rw [finalizeLines_eq, hlines, Text.unlines_append_newline (by simp [hne]),
    Text.ofRows_append, Text.ofRows_append, Text.lines_append_ofRows (Text.endsLine_ofRows _)
      fun row hrow => (hrows row hrow).isRow]

private theorem finalLines_placeHeader_ne_nil {precision : Text} (hprecision : '\n' ∉ precision)
    (source : Text) :
    finalLines (Precision.placeHeader (Precision.header precision) source).lines ≠ [] := by
  have hsettled := isSettled_header hprecision
  obtain ⟨above, below, hplace, habove⟩ : ∃ above below,
      Precision.placeHeader (Precision.header precision) source =
        above ++ Text.ofRows [Precision.header precision] ++ below ∧ above.EndsLine := by
    unfold Precision.placeHeader
    dsimp only
    split
    · exact ⟨source.trimStart.splitFirstLine.1 ++ ['\n'], source.trimStart.splitFirstLine.2,
        by simp [Text.ofRows], Text.endsLine_append_newline _⟩
    · exact ⟨[], source, by simp [Text.ofRows], Text.endsLine_nil⟩
  rw [hplace, Text.lines_append_ofRows habove (List.forall_mem_singleton.mpr hsettled.isRow),
    finalLines_append, finalLines_append,
    finalLines_eq_self (List.forall_mem_singleton.mpr hsettled)]
  simp

end Layout

/-! ## The finished unit -/

namespace Composer

variable {composer : Composer}

theorem unitText_eq (hstages : composer.stages = []) (assembled : Text) :
    composer.unitText assembled = Layout.finalizeLines
      (Precision.inject composer.precision (assembled.replaceFirst toolingMarker [])) ++
        ['\n'] := by
  unfold unitText finishUnit stagedText runStages
  rw [hstages, List.foldl_nil]

theorem lines_unitText_nil (hstages : composer.stages = [])
    (hprecision : '\n' ∉ composer.precision) :
    (composer.unitText []).lines = [Precision.header composer.precision] := by
  have hsettled := List.forall_mem_singleton.mpr (Layout.isSettled_header hprecision)
  have hinject : Precision.inject composer.precision (Text.replaceFirst [] toolingMarker []) =
      [] ++ Text.ofRows [Precision.header composer.precision] ++ [] := by
    have hnil : ∀ pattern, pattern ≠ [] → Text.replaceFirst [] pattern [] = [] :=
      fun pattern hpattern => by rw [Text.replaceFirst, Text.splitAround?_nil hpattern]
    rw [hnil _ toolingMarker_ne_nil, Precision.inject_eq, hnil _ (Precision.header_ne_nil _)]
    simp [Precision.removeStatements, Precision.removeFrom, Precision.placeHeader, Text.ofRows,
      Text.trimStart, Directive.name?, Directive.afterMark?]
  rw [unitText_eq hstages, hinject,
    Layout.lines_finalizeLines_ofRows hsettled (List.cons_ne_nil _ _) Text.endsLine_nil]
  rfl

/-- Rows that stand at the start of a line are lines of the finished unit, and the lines
above them are those of what stands above them, finished alone. -/
theorem lines_unitText_ofRows (hstages : composer.stages = [])
    (hprecision : '\n' ∉ composer.precision) {defines others : List (Text × Text)}
    {last : Text × Text}
    (hdefines : ∀ entry ∈ defines ++ [last] ++ others,
      Directive.IsPlain entry.1 entry.2 ∧ entry.1 ≠ toolingName)
    (hend : (last.1 ≠ Precision.word ∧ last.2 ≠ Precision.word) ∨ others ≠ []) {above : Text}
    (habove : EndsCleanly above) (more : Text) :
    ∃ after,
      (composer.unitText (above ++
          Text.ofRows (Directive.defineRows (defines ++ [last] ++ others)) ++ more)).lines =
        (composer.unitText above).lines ++ Directive.defineRows (defines ++ [last]) ++ after := by
  have hrows : ∀ row ∈ Directive.defineRows (defines ++ [last] ++ others),
      Text.Avoids toolingMarker row := by
    intro row hrow
    obtain ⟨entry, hentry, rfl⟩ := List.mem_map.mp hrow
    exact (hdefines entry hentry).1.avoids_toolingMarker (hdefines entry hentry).2
  have hsettled : ∀ row ∈ Directive.defineRows (defines ++ [last]), Layout.IsSettled row := by
    intro row hrow
    obtain ⟨entry, hentry, rfl⟩ := List.mem_map.mp hrow
    exact Layout.isSettled_defineLine (hdefines entry (List.mem_append_left others hentry)).1
  have hne : Directive.defineRows (defines ++ [last]) ≠ [] := by
    simp [Directive.defineRows]
  obtain ⟨hstaged, rest, hreplace⟩ := Text.replaceFirst_ofRows toolingMarker_ne_nil
    newline_not_mem_dropLast_toolingMarker habove.line habove.marker hrows more
  obtain ⟨hleft, right, hinject⟩ := Precision.inject_ofRows hprecision
    (fun entry hentry => (hdefines entry hentry).1) hend hstaged rest
  have habove : (composer.unitText above).lines =
      (Text.ofRows (Layout.finalLines (Precision.inject composer.precision
        (above.replaceFirst toolingMarker [])).lines)).lines := by
    rw [unitText_eq hstages, Layout.finalizeLines_eq, Text.unlines_append_newline]
    rw [Precision.inject_eq]
    exact Layout.finalLines_placeHeader_ne_nil hprecision _
  rw [unitText_eq hstages, hreplace, hinject, habove,
    Layout.lines_finalizeLines_ofRows hsettled hne hleft]
  exact ⟨_, rfl⟩

end Composer

end GlslCompose
