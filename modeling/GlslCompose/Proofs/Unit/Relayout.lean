import GlslCompose.Proofs.Unit.Content

/-!
# Layout within layout

An included text was laid out as a unit of its own, and it is laid out again with each
unit around it.  The layout reads nothing but the content lines and keeps them, so it makes
no difference whether a part was laid out before: the empty row behind a line of one
character is dropped and put there again, and the text around the part cannot tell.
-/

namespace GlslCompose.Layout

variable {source other : Text}

/-! ## Content lines under the layout -/

private theorem finalizeLines_congr (h : contentLines source = contentLines other) :
    finalizeLines source = finalizeLines other := by
  rw [finalizeLines_eq, finalizeLines_eq, finalLines_lines, finalLines_lines, h]

private theorem finalizeLines_newline (hcontent : contentLines source ≠ []) :
    finalizeLines source ++ ['\n'] = Text.ofRows ((contentLines source).map padLine) := by
  rw [finalizeLines_eq, finalLines_lines, Text.unlines_append_newline (by simpa using hcontent)]

private theorem return_not_mem_finalizeLines (h : '\r' ∉ source) : '\r' ∉ finalizeLines source := by
  by_cases hcontent : contentLines source = []
  · rw [finalizeLines_eq, finalLines_lines, hcontent]
    exact List.not_mem_nil
  · intro hmem
    have hrows : ['\r'] <:+: Text.ofRows ((contentLines source).map padLine) := by
      rw [← finalizeLines_newline hcontent, List.singleton_infix_iff]
      exact List.mem_append_left _ hmem
    obtain ⟨line, hline, hpart⟩ := infix_of_ofRows (by decide) (by decide) hrows
    exact h ((of_mem_contentLines h hline).2.2.subset ((List.singleton_infix_iff _ _).mp hpart))

private theorem getLast?_ne_return (h : '\r' ∉ source) : source.getLast? ≠ some '\r' :=
  fun hlast => h (List.mem_of_getLast? hlast)

private theorem contentLines_finalizeLines (h : '\r' ∉ source) :
    contentLines (finalizeLines source) = contentLines source := by
  by_cases hcontent : contentLines source = []
  · rw [finalizeLines_eq, finalLines_lines, hcontent]
    rfl
  · have hreturn := getLast?_ne_return (return_not_mem_finalizeLines h)
    rw [← contentLines_concat_newline hreturn, finalizeLines_newline hcontent]
    exact contentLines_ofRows fun line hline =>
      have hline := of_mem_contentLines h hline
      ⟨hline.1, hline.2.1⟩

/-! ## Levels of inclusion -/

/-- What a unit has around an included text: whole lines above it, and what follows the
line feed behind it. -/
structure Surrounding where
  above : Text
  below : Text
  endsLine : above.EndsLine
  above_plain : '\r' ∉ above
  below_plain : '\r' ∉ below

namespace Surrounding

def place (level : Surrounding) (text : Text) : Text :=
  level.above ++ (text ++ '\n' :: level.below)

/-- The text within all the levels, the innermost first. -/
def nest (levels : List Surrounding) (text : Text) : Text :=
  levels.foldl (fun text level => level.place text) text

/-- The text within all the levels if each text is laid out before it is included. -/
def nestFinal (levels : List Surrounding) (text : Text) : Text :=
  levels.foldl (fun text level => level.place (finalizeLines text)) text

variable (level : Surrounding)

private theorem return_not_mem_place (h : '\r' ∉ source) : '\r' ∉ level.place source := by
  simp [place, level.above_plain, level.below_plain, h]

private theorem contentLines_place (h : '\r' ∉ source) :
    contentLines (level.place source) =
      contentLines level.above ++ (contentLines source ++ contentLines level.below) := by
  rw [place, contentLines_append level.endsLine, contentLines_newline (getLast?_ne_return h)]

private theorem contentLines_place_finalizeLines (hsource : '\r' ∉ source) (hother : '\r' ∉ other)
    (h : contentLines source = contentLines other) :
    contentLines (level.place (finalizeLines source)) = contentLines (level.place other) := by
  rw [contentLines_place level (return_not_mem_finalizeLines hsource),
    contentLines_place level hother, contentLines_finalizeLines hsource, h]

private theorem contentLines_nestFinal (levels : List Surrounding) (hsource : '\r' ∉ source)
    (hother : '\r' ∉ other) (h : contentLines source = contentLines other) :
    contentLines (nestFinal levels source) = contentLines (nest levels other) := by
  induction levels generalizing source other with
  | nil => exact h
  | cons level levels ih =>
      exact ih (level.return_not_mem_place (return_not_mem_finalizeLines hsource))
        (level.return_not_mem_place hother)
        (level.contentLines_place_finalizeLines hsource hother h)

end Surrounding

/-- Layout changes a laid out text no more, keeps the content lines in their order, and gives
the same whether a part of the text was laid out before, at any number of levels. -/
theorem finalizeLines_stable (hsource : '\r' ∉ source) :
    finalizeLines (finalizeLines source) = finalizeLines source ∧
    contentLines (finalizeLines source) = contentLines source ∧
    (∀ below, finalizeLines (finalizeLines source ++ '\n' :: below) =
      finalizeLines (source ++ '\n' :: below)) ∧
    ∀ levels, finalizeLines (Surrounding.nestFinal levels source) =
      finalizeLines (Surrounding.nest levels source) := by
  have hcontent := contentLines_finalizeLines hsource
  refine ⟨finalizeLines_congr hcontent, hcontent, fun below => finalizeLines_congr ?_,
    fun levels => finalizeLines_congr ?_⟩
  · rw [contentLines_newline (getLast?_ne_return (return_not_mem_finalizeLines hsource)),
      contentLines_newline (getLast?_ne_return hsource), hcontent]
  · exact Surrounding.contentLines_nestFinal levels hsource hsource rfl

def bracedSource : Text := "void f() \x7b\n\n  \n\x7d".toList

def loopSurrounding : Surrounding where
  above := "for (;;)\n\x7b\n".toList
  below := "\x7d".toList
  endsLine := .inr ⟨"for (;;)\n\x7b".toList, by decide⟩
  above_plain := by decide
  below_plain := by decide

/-- The row of one character ends the text, and ends it again at every level. -/
theorem finalizeLines_stable_bracedSource :
    '\r' ∉ bracedSource ∧
    finalizeLines bracedSource = "void f() \x7b\n\x7d\n".toList ∧
    finalizeLines (finalizeLines bracedSource) = finalizeLines bracedSource ∧
    contentLines (finalizeLines bracedSource) = contentLines bracedSource ∧
    finalizeLines (finalizeLines bracedSource ++ "\n\nfloat x;".toList) =
      finalizeLines (bracedSource ++ "\n\nfloat x;".toList) ∧
    Surrounding.nestFinal [loopSurrounding, loopSurrounding] bracedSource ≠
      Surrounding.nest [loopSurrounding, loopSurrounding] bracedSource ∧
    finalizeLines (Surrounding.nestFinal [loopSurrounding, loopSurrounding] bracedSource) =
      finalizeLines (Surrounding.nest [loopSurrounding, loopSurrounding] bracedSource) := by
  have hreturn : '\r' ∉ bracedSource := by decide
  obtain ⟨htwice, hcontent, hbelow, hnest⟩ := finalizeLines_stable hreturn
  refine ⟨hreturn, by decide, htwice, hcontent, ?_, by decide +kernel, hnest _⟩
  exact hbelow "\nfloat x;".toList

end GlslCompose.Layout
