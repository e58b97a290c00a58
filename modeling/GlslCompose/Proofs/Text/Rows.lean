import GlslCompose.Text.Basic
import Mathlib.Data.List.Basic
import Mathlib.Data.List.TakeWhile

/-!
# Rows

A text that is put together from whole lines is cut into the same lines again.
`Text.ofRows` writes every row with a line feed behind it, and `Text.EndsLine`
says that a new line begins behind a text.
-/

namespace GlslCompose.Text

/-! ## Ends of lines -/

/-- The next character, if there is one, is the first of a line. -/
def EndsLine (text : Text) : Prop := text = [] ∨ ∃ body, text = body ++ ['\n']

theorem endsLine_nil : EndsLine [] := .inl rfl

theorem endsLine_append_newline (body : Text) : EndsLine (body ++ ['\n']) := .inr ⟨body, rfl⟩

theorem EndsLine.append {first second : Text} (hfirst : first.EndsLine)
    (hsecond : second.EndsLine) : EndsLine (first ++ second) := by
  rcases hsecond with rfl | ⟨body, rfl⟩
  · rw [List.append_nil]
    exact hfirst
  · rw [← List.append_assoc]
    exact endsLine_append_newline _

theorem EndsLine.append_of_ne_nil {second : Text} (hsecond : second.EndsLine)
    (hne : second ≠ []) (first : Text) : EndsLine (first ++ second) := by
  rcases hsecond with rfl | ⟨body, rfl⟩
  · exact absurd rfl hne
  · rw [← List.append_assoc]
    exact endsLine_append_newline _

theorem EndsLine.of_append {first second : Text} (h : EndsLine (first ++ second)) :
    second.EndsLine := by
  rcases List.eq_nil_or_concat second with rfl | ⟨init, last, rfl⟩
  · exact endsLine_nil
  · rcases h with hnil | ⟨body, hbody⟩
    · simp at hnil
    · rw [List.concat_eq_append, ← List.append_assoc] at hbody
      obtain ⟨_, hlast⟩ := List.append_inj' hbody rfl
      cases hlast
      rw [List.concat_eq_append]
      exact endsLine_append_newline init

theorem EndsLine.of_suffix {first second : Text} (h : EndsLine first) (hsuffix : second <:+ first) :
    EndsLine second := by
  obtain ⟨before, rfl⟩ := hsuffix
  exact h.of_append

theorem EndsLine.of_cons {char : Char} {text : Text} (h : EndsLine (char :: text)) :
    text.EndsLine := by
  have happend : EndsLine ([char] ++ text) := h
  exact happend.of_append

@[simp] theorem endsLine_singleton_iff {char : Char} : EndsLine [char] ↔ char = '\n' := by
  constructor
  · rintro (hnil | ⟨body, hbody⟩)
    · simp at hnil
    · cases body with
      | nil => simpa using hbody
      | cons first body => simp at hbody
  · rintro rfl
    exact endsLine_append_newline []

theorem infix_of_append_cons {char : Char} {word first second : Text} (hword : char ∉ word)
    (h : word <:+: first ++ char :: second) : word <:+: first ∨ word <:+: second := by
  obtain ⟨before, after, hsplit⟩ := h
  rw [List.append_assoc] at hsplit
  rcases List.append_eq_append_iff.mp hsplit with ⟨middle, rfl, hrest⟩ | ⟨middle, rfl, hrest⟩
  · -- The word begins in front of the character.
    rcases List.append_eq_append_iff.mp hrest with ⟨left, rfl, -⟩ | ⟨left, rfl, hleft⟩
    · exact .inl ⟨before, left, by rw [List.append_assoc]⟩
    · cases left with
      | nil => exact .inl ⟨before, [], by simp⟩
      | cons other left =>
          cases hleft
          simp at hword
  · cases middle with
    | nil =>
        cases word with
        | nil => exact .inl List.nil_infix
        | cons other word =>
            cases hrest
            simp at hword
    | cons other middle =>
        cases hrest
        exact .inr ⟨middle, after, List.append_assoc middle word after⟩

theorem EndsLine.infix_append {above word : Text} (habove : above.EndsLine) (hword : '\n' ∉ word)
    {below : Text} (h : word <:+: above ++ below) : word <:+: above ∨ word <:+: below := by
  rcases habove with rfl | ⟨body, rfl⟩
  · exact .inr h
  · rw [List.append_assoc, List.singleton_append] at h
    exact (infix_of_append_cons hword h).imp_left fun hbody =>
      hbody.trans (List.prefix_append body _).isInfix

theorem exists_endsLine_append (text : Text) :
    ∃ above row, text = above ++ row ∧ above.EndsLine ∧ '\n' ∉ row := by
  induction text with
  | nil => exact ⟨[], [], rfl, endsLine_nil, List.not_mem_nil⟩
  | cons char text ih =>
      obtain ⟨above, row, rfl, habove, hrow⟩ := ih
      rcases habove with rfl | ⟨body, rfl⟩
      · by_cases hchar : char = '\n'
        · subst hchar
          exact ⟨['\n'], row, rfl, endsLine_append_newline [], hrow⟩
        · refine ⟨[], char :: row, rfl, endsLine_nil, ?_⟩
          rw [List.mem_cons, not_or]
          exact ⟨Ne.symm hchar, hrow⟩
      · exact ⟨char :: body ++ ['\n'], row, rfl, endsLine_append_newline (char :: body), hrow⟩

/-! ## Cutting at ends of lines -/

theorem linesWithEnds_append {first : Text} (hfirst : first.EndsLine) (second : Text) :
    linesWithEnds (first ++ second) = linesWithEnds first ++ linesWithEnds second := by
  induction first with
  | nil => rfl
  | cons char rest ih =>
      have hrest := ih hfirst.of_cons
      rw [List.cons_append, linesWithEnds, linesWithEnds]
      by_cases hchar : char = '\n'
      · rw [if_pos hchar, if_pos hchar, hrest, List.cons_append]
      · rw [if_neg hchar, if_neg hchar, hrest]
        cases hlines : linesWithEnds rest with
        | nil =>
            have hnil : rest = [] := by
              rw [← flatten_linesWithEnds rest, hlines]
              rfl
            subst hnil
            exact absurd (endsLine_singleton_iff.mp hfirst) hchar
        | cons line lines => rfl

theorem lines_append {first : Text} (hfirst : first.EndsLine) (second : Text) :
    lines (first ++ second) = lines first ++ lines second := by
  simp [lines, linesWithEnds_append hfirst]

theorem linesWithEnds_row {row : Text} (hrow : '\n' ∉ row) (rest : Text) :
    linesWithEnds (row ++ '\n' :: rest) = (row ++ ['\n']) :: linesWithEnds rest := by
  induction row with
  | nil => simp [linesWithEnds]
  | cons char row ih =>
      have hchar : char ≠ '\n' := fun heq => hrow (by simp [heq])
      have hrest : '\n' ∉ row := fun hmem => hrow (List.mem_cons_of_mem char hmem)
      rw [List.cons_append, linesWithEnds, if_neg hchar, ih hrest]
      rfl

theorem linesWithEnds_of_not_mem {row : Text} (hrow : '\n' ∉ row) (hne : row ≠ []) :
    linesWithEnds row = [row] := by
  induction row with
  | nil => exact absurd rfl hne
  | cons char row ih =>
      rw [List.mem_cons, not_or] at hrow
      rw [linesWithEnds, if_neg (Ne.symm hrow.1)]
      cases row with
      | nil => rfl
      | cons next row => rw [ih hrow.2 (List.cons_ne_nil next row)]

theorem linesWithEnds_eq_append {source line : Text} {above below : List Text}
    (h : linesWithEnds source = above ++ line :: below) :
    EndsLine above.flatten ∧
      (line = line.takeWhile (· ≠ '\n') ++ ['\n'] ∨
        (line = line.takeWhile (· ≠ '\n') ∧ below = [])) := by
  induction source generalizing above line with
  | nil => simp [linesWithEnds] at h
  | cons char rest ih =>
      rw [linesWithEnds] at h
      split at h
      · rename_i hchar
        subst hchar
        cases above with
        | nil =>
            cases h
            exact ⟨endsLine_nil, .inl (by simp)⟩
        | cons first above =>
            simp only [List.cons_append, List.cons.injEq] at h
            obtain ⟨rfl, hrest⟩ := h
            obtain ⟨habove, hline⟩ := ih hrest
            exact ⟨(endsLine_append_newline []).append habove, hline⟩
      · rename_i hchar
        split at h
        · cases above with
          | nil =>
              cases h
              exact ⟨endsLine_nil, .inr (by simp [hchar])⟩
          | cons first above => simp at h
        · rename_i next lines hlines
          cases above with
          | nil =>
              cases h
              have hfirst : linesWithEnds rest = [] ++ next :: below := hlines
              obtain ⟨_, hline⟩ := ih hfirst
              refine ⟨endsLine_nil, ?_⟩
              rw [List.takeWhile_cons_of_pos (by simpa using hchar), List.cons_append]
              rcases hline with hline | ⟨hline, hbelow⟩
              · exact .inl (by rw [← hline])
              · exact .inr ⟨by rw [← hline], hbelow⟩
          | cons first above =>
              simp only [List.cons_append, List.cons.injEq] at h
              obtain ⟨rfl, hrest⟩ := h
              have hbelow : linesWithEnds rest = (next :: above) ++ line :: below := by
                rw [hlines, hrest]
                rfl
              obtain ⟨habove, hline⟩ := ih hbelow
              have hnext : next ≠ [] :=
                ne_nil_of_mem_linesWithEnds (by rw [hlines]; exact List.mem_cons_self)
              refine ⟨?_, hline⟩
              rw [List.flatten_cons] at habove ⊢
              exact habove.append_of_ne_nil (by simp [hnext]) [char]

theorem dropLineEnd_row {row : Text} (hreturn : row.getLast? ≠ some '\r') :
    dropLineEnd (row ++ ['\n']) = row := by
  unfold dropLineEnd
  rw [List.reverse_append]
  rcases List.eq_nil_or_concat row with rfl | ⟨init, last, rfl⟩
  · rfl
  · have hlast : last ≠ '\r' := fun heq => hreturn (by simp [heq])
    simp only [List.concat_eq_append, List.reverse_append, List.reverse_cons, List.reverse_nil,
      List.nil_append, List.singleton_append]
    split
    · rename_i hcons
      simp only [List.cons.injEq] at hcons
      exact absurd hcons.2.1 hlast
    · rename_i hcons
      simp only [List.cons.injEq] at hcons
      rw [← hcons.2]
      simp
    · rename_i hother
      exact absurd rfl (hother _)

private theorem dropLineEnd_append_newline (body : Text) :
    dropLineEnd (body ++ ['\n']) <+: body := by
  by_cases hreturn : body.getLast? = some '\r'
  · obtain ⟨init, rfl⟩ := List.getLast?_eq_some_iff.mp hreturn
    have hdrop : dropLineEnd (init ++ ['\r'] ++ ['\n']) = init := by simp [dropLineEnd]
    rw [hdrop]
    exact List.prefix_append init _
  · exact ⟨[], by rw [dropLineEnd_row hreturn, List.append_nil]⟩

theorem dropLineEnd_of_not_mem {line : Text} (hline : '\n' ∉ line) : dropLineEnd line = line := by
  unfold dropLineEnd
  split
  · rename_i hreverse
    exact absurd (List.mem_reverse.mp (hreverse ▸ List.mem_cons_self)) hline
  · rename_i hreverse
    exact absurd (List.mem_reverse.mp (hreverse ▸ List.mem_cons_self)) hline
  · rfl

theorem newline_not_mem_of_mem_lines {source line : Text} (h : line ∈ source.lines) :
    '\n' ∉ line := by
  obtain ⟨whole, hwhole, rfl⟩ := List.mem_map.mp h
  obtain ⟨above, below, hlines⟩ := List.append_of_mem hwhole
  have hbody : '\n' ∉ whole.takeWhile (· ≠ '\n') := fun hmem => by
    simpa using List.mem_takeWhile_imp hmem
  rcases (linesWithEnds_eq_append hlines).2 with hend | ⟨hend, _⟩
  · rw [hend]
    exact fun hmem => hbody ((dropLineEnd_append_newline _).subset hmem)
  · rw [← hend] at hbody
    rw [dropLineEnd_of_not_mem hbody]
    exact hbody

theorem infix_of_mem_lines {source line : Text} (h : line ∈ source.lines) : line <:+: source := by
  obtain ⟨whole, hwhole, rfl⟩ := List.mem_map.mp h
  obtain ⟨above, below, hlines⟩ := List.append_of_mem hwhole
  have hsource : source = above.flatten ++ whole ++ below.flatten := by
    rw [← flatten_linesWithEnds source, hlines]
    simp
  have hline : dropLineEnd whole <+: whole := by
    rcases (linesWithEnds_eq_append hlines).2 with hend | ⟨hend, -⟩
    · rw [hend]
      exact (dropLineEnd_append_newline _).trans (List.prefix_append _ _)
    · have hbody : '\n' ∉ whole := by
        rw [hend]
        exact fun hmem => by simpa using List.mem_takeWhile_imp hmem
      exact (dropLineEnd_of_not_mem hbody).symm ▸ List.prefix_rfl
  exact hline.isInfix.trans ⟨above.flatten, below.flatten, hsource.symm⟩

theorem splitFirstLine_newline {row : Text} (hrow : '\n' ∉ row) (rest : Text) :
    (row ++ '\n' :: rest).splitFirstLine = (row, rest) := by
  have haccepts : ∀ char ∈ row, decide (char ≠ '\n') = true := by
    intro char hmem
    exact decide_eq_true fun heq => hrow (heq ▸ hmem)
  unfold splitFirstLine
  rw [List.takeWhile_append_of_pos haccepts, List.dropWhile_append_of_pos haccepts,
    List.takeWhile_cons_of_neg (by simp), List.dropWhile_cons_of_neg (by simp), List.append_nil]
  rfl

theorem splitFirstLine_row {row : Text} (hrow : '\n' ∉ row) : row.splitFirstLine = (row, []) := by
  have haccepts : ∀ char ∈ row, decide (char ≠ '\n') = true := by
    intro char hmem
    exact decide_eq_true fun heq => hrow (heq ▸ hmem)
  unfold splitFirstLine
  rw [List.takeWhile_eq_self_iff.mpr haccepts, List.dropWhile_eq_nil_iff.mpr haccepts]
  rfl

/-! ## Texts of rows -/

def ofRows (rows : List Text) : Text := rows.flatMap (· ++ ['\n'])

@[simp] theorem ofRows_nil : ofRows [] = [] := rfl

@[simp] theorem ofRows_cons (row : Text) (rows : List Text) :
    ofRows (row :: rows) = row ++ '\n' :: ofRows rows := by
  simp [ofRows]

@[simp] theorem ofRows_append (first second : List Text) :
    ofRows (first ++ second) = ofRows first ++ ofRows second := by
  simp [ofRows]

theorem endsLine_ofRows (rows : List Text) : EndsLine (ofRows rows) := by
  induction rows with
  | nil => exact endsLine_nil
  | cons row rows ih =>
      rw [ofRows_cons, List.append_cons]
      exact (endsLine_append_newline row).append ih

/-- A row that the cut into lines gives back as it is. -/
def IsRow (row : Text) : Prop := '\n' ∉ row ∧ row.getLast? ≠ some '\r'

private theorem lines_ofRows {rows : List Text} (hrows : ∀ row ∈ rows, row.IsRow) :
    lines (ofRows rows) = rows := by
  induction rows with
  | nil => rfl
  | cons row rows ih =>
      obtain ⟨hfeed, hreturn⟩ := hrows row List.mem_cons_self
      have hrest := ih fun other hother => hrows other (List.mem_cons_of_mem row hother)
      simp only [lines] at hrest ⊢
      rw [ofRows_cons, linesWithEnds_row hfeed, List.map_cons, dropLineEnd_row hreturn, hrest]

theorem lines_append_ofRows {first : Text} (hfirst : first.EndsLine) {rows : List Text}
    (hrows : ∀ row ∈ rows, row.IsRow) (rest : Text) :
    lines (first ++ ofRows rows ++ rest) = lines first ++ rows ++ lines rest := by
  rw [lines_append (hfirst.append (endsLine_ofRows rows)), lines_append hfirst,
    lines_ofRows hrows]

theorem unlines_append_newline {rows : List Text} (hrows : rows ≠ []) :
    unlines rows ++ ['\n'] = ofRows rows := by
  induction rows with
  | nil => exact absurd rfl hrows
  | cons row rows ih =>
      cases rows with
      | nil => simp [unlines, ofRows, List.intercalate]
      | cons next rows =>
          have hrest := ih (by simp)
          rw [ofRows_cons, ← hrest]
          simp [unlines, List.intercalate]

@[simp] private theorem unlines_concat (above : List Text) (last : Text) :
    unlines (above ++ [last]) = ofRows above ++ last := by
  have hrows : unlines (above ++ [last]) ++ ['\n'] = ofRows above ++ last ++ ['\n'] := by
    rw [unlines_append_newline (by simp), ofRows_append, ofRows_cons, ofRows_nil,
      List.append_assoc]
  exact List.append_cancel_right hrows

theorem lines_unlines {rows : List Text} (hrows : ∀ row ∈ rows, row.IsRow ∧ row ≠ []) :
    lines (unlines rows) = rows := by
  obtain rfl | ⟨above, last, rfl⟩ := List.eq_nil_or_concat' rows
  · rfl
  · obtain ⟨⟨hfeed, -⟩, hne⟩ := hrows last (by simp)
    have hlast : lines last = [last] := by
      rw [lines, linesWithEnds_of_not_mem hfeed hne, List.map_singleton,
        dropLineEnd_of_not_mem hfeed]
    rw [unlines_concat, lines_append (endsLine_ofRows above),
      lines_ofRows fun row hrow => (hrows row (List.mem_append_left _ hrow)).1, hlast]

end GlslCompose.Text
