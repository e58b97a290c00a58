import GlslCompose.Proofs.Token.Front
import GlslCompose.Proofs.Unit.Part

/-!
# Texts that differ behind a mark

A directive may go on in one way or in another.  Nothing that finishes a unit looks over a mark
or changes a row that it does not take a piece of, so what is around the row stays the same in
both finished units.
-/

namespace GlslCompose

namespace Text

/-- The texts are the same but for how one row goes on behind a mark. -/
def DifferBehind (row other : Text) (first second : Text) : Prop :=
  ∃ above below, first = above ++ '#' :: (row ++ below) ∧
    second = above ++ '#' :: (other ++ below) ∧ restOfLine below = []

/-! ## Removing a piece -/

theorem infix_of_blanks_append {blanks text pattern rest : Text} {first : Char}
    (hblanks : ∀ char ∈ blanks, isBlank char = true) (hpattern : pattern = first :: rest)
    (hfirst : isBlank first = false) (h : pattern <:+: blanks ++ text) : pattern <:+: text := by
  induction blanks with
  | nil => exact h
  | cons char blanks ih =>
      rcases List.infix_cons_iff.mp h with hopens | hinside
      · rw [hpattern] at hopens
        rw [(List.cons_prefix_cons.mp hopens).1, hblanks char List.mem_cons_self] at hfirst
        cases hfirst
      · exact ih (fun other hother => hblanks other (List.mem_cons_of_mem _ hother)) hinside

private theorem replaceFirst_append_of_unmatched {pattern skipped rest : Text}
    (h : ∀ before after, skipped = before ++ after → after ≠ [] → ¬pattern <+: after ++ rest) :
    (skipped ++ rest).replaceFirst pattern [] = skipped ++ rest.replaceFirst pattern [] := by
  unfold replaceFirst
  rw [splitAround?_append_of_unmatched h]
  cases splitAround? pattern rest with
  | none => rfl
  | some parts => simp

theorem replaceFirst_append_line {pattern above rest : Text} (hline : '\n' ∉ pattern.dropLast)
    (h : ¬pattern <:+: above ++ ['\n']) (hrest : restOfLine rest = []) :
    (above ++ rest).replaceFirst pattern [] = above ++ rest.replaceFirst pattern [] := by
  refine replaceFirst_append_of_unmatched fun before after habove _ hopens => h ?_
  have hinside : pattern <:+: before ++ (after ++ ['\n']) := by
    refine List.IsInfix.trans (List.IsPrefix.isInfix ?_) (List.suffix_append before _).isInfix
    rcases eq_nil_or_exists_of_restOfLine hrest with rfl | ⟨below, rfl⟩
    · rw [List.append_nil] at hopens
      exact hopens.trans (List.prefix_append after ['\n'])
    · exact prefix_of_newline hline hopens
  rwa [← List.append_assoc, ← habove] at hinside

theorem restOfLine_replaceFirst {pattern more rest : Text} {first : Char}
    (hpattern : pattern = first :: more) (hfirst : first ≠ '\n') (hrest : restOfLine rest = []) :
    restOfLine (rest.replaceFirst pattern []) = [] := by
  rcases eq_nil_or_exists_of_restOfLine hrest with rfl | ⟨below, rfl⟩
  · rw [replaceFirst_of_absent (by simp [hpattern])]
    rfl
  · have hfeed : ¬pattern <+: '\n' :: below := fun hopens =>
      hfirst (List.cons_prefix_cons.mp (hpattern ▸ hopens)).1
    unfold replaceFirst
    rw [splitAround?_cons_of_unmatched hfeed]
    cases splitAround? pattern below with
    | none => exact restOfLine_newline below
    | some parts => exact restOfLine_newline _

private theorem splitAround?_of_opens {pattern source : Text} (h : pattern <+: source) :
    ∃ after, splitAround? pattern source = some ([], after) := by
  obtain ⟨after, rfl⟩ := h
  cases pattern with
  | nil => cases after <;> exact ⟨_, rfl⟩
  | cons first pattern => exact ⟨after, splitAround?_append_self (List.cons_ne_nil _ _)⟩

private theorem not_infix_of_splitAround? {pattern source : Text}
    (h : splitAround? pattern source = none) :
    ¬pattern <:+: source := by
  intro hinside
  induction source with
  | nil =>
      rw [List.infix_nil.mp hinside] at h
      cases h
  | cons char source ih =>
      have hopens : ¬pattern <+: char :: source := fun hopens => by
        obtain ⟨after, hsome⟩ := splitAround?_of_opens hopens
        rw [hsome] at h
        cases h
      rw [splitAround?_cons_of_unmatched hopens, Option.map_eq_none_iff] at h
      exact ih h ((List.infix_cons_iff.mp hinside).resolve_left hopens)

private theorem splitAround?_append_of_some {pattern source before after : Text}
    (h : splitAround? pattern source = some (before, after)) (rest : Text) :
    splitAround? pattern (source ++ rest) = some (before, after ++ rest) := by
  induction source generalizing before with
  | nil =>
      obtain ⟨rfl, hpattern⟩ := List.append_eq_nil_iff.mp (splitAround?_eq_some h).symm
      obtain ⟨rfl, rfl⟩ := List.append_eq_nil_iff.mp hpattern
      cases rest <;> rfl
  | cons char source ih =>
      by_cases hopens : pattern <+: char :: source
      · obtain ⟨found, hfound⟩ := splitAround?_of_opens hopens
        obtain ⟨rfl, rfl⟩ := Prod.mk.inj (Option.some.inj (h.symm.trans hfound))
        have hsource := splitAround?_eq_some h
        obtain ⟨other, hother⟩ :=
          splitAround?_of_opens (hopens.trans (List.prefix_append _ rest))
        rw [hother]
        have hlonger := splitAround?_eq_some hother
        rw [hsource, List.nil_append, List.nil_append, List.append_assoc] at hlonger
        rw [List.append_cancel_left hlonger]
      · rw [splitAround?_cons_of_unmatched hopens] at h
        obtain ⟨⟨earlier, found⟩, hfound, heq⟩ := Option.map_eq_some_iff.mp h
        cases heq
        -- The pattern is no longer than the text in which it is found.
        have hlength : pattern.length ≤ (char :: source).length := by
          rw [splitAround?_eq_some hfound]
          simp
          omega
        have hlonger : ¬pattern <+: char :: (source ++ rest) := fun hother => hopens <|
          List.prefix_of_prefix_length_le hother (List.prefix_append (char :: source) rest) hlength
        rw [List.cons_append, splitAround?_cons_of_unmatched hlonger, ih hfound]
        rfl

private theorem replaceFirst_mark_cases {pattern : Text} (hmark : '#' ∉ pattern.tail)
    (above : Text) :
    (∃ kept, ∀ post, (above ++ '#' :: post).replaceFirst pattern [] = kept ++ '#' :: post) ∨
      ∀ post, (above ++ '#' :: post).replaceFirst pattern [] =
        above ++ replaceFirst ('#' :: post) pattern [] := by
  cases hsplit : splitAround? pattern above with
  | some parts =>
      refine .inl ⟨parts.1 ++ parts.2, fun post => ?_⟩
      unfold replaceFirst
      rw [splitAround?_append_of_some hsplit]
      simp
  | none =>
      refine .inr fun post =>
        replaceFirst_append_of_unmatched fun before after habove hne hopens => ?_
      have hwithin : ¬pattern <+: after := fun hwithin =>
        not_infix_of_splitAround? hsplit (habove ▸ hwithin.isInfix.trans
          (List.suffix_append before after).isInfix)
      obtain ⟨more, rfl⟩ := (List.prefix_or_prefix_of_prefix hopens
        (List.prefix_append after ('#' :: post))).resolve_left hwithin
      obtain ⟨first, after, rfl⟩ := List.exists_cons_of_ne_nil hne
      cases more with
      | nil => exact hwithin (by simp)
      | cons char more =>
          have hchar := (List.cons_prefix_cons.mp ((List.prefix_append_right_inj _).mp hopens)).1
          exact hmark (by simp [hchar])

private theorem splitFirstLine_append_line {above below : Text} (habove : '\n' ∉ above)
    (hbelow : restOfLine below = []) : splitFirstLine (above ++ below) = (above, below.drop 1) := by
  rcases eq_nil_or_exists_of_restOfLine hbelow with rfl | ⟨rest, rfl⟩
  · rw [List.append_nil, splitFirstLine_row habove]
    rfl
  · exact splitFirstLine_newline habove rest

theorem name?_append_line {row below : Text} (hbelow : restOfLine below = []) :
    Directive.name? ('#' :: (row ++ below)) = Directive.name? ('#' :: row) := by
  rcases eq_nil_or_exists_of_restOfLine hbelow with rfl | ⟨rest, rfl⟩
  · rw [List.append_nil]
  · exact Directive.name?_append_newline row rest

end Text

namespace Precision

open Text

theorem word_prefix_header (precision : Text) : word <+: header precision := by
  rw [header, List.append_assoc]
  exact List.prefix_append word _

theorem header_eq_cons (precision : Text) :
    header precision = 'p' :: ("recision".toList ++ ' ' :: precision ++ [';']) := rfl

/-! ## Removing statements -/

theorem removeFrom_append_line {above rest : Text} (h : ¬word <:+: above)
    (hrest : restOfLine rest = []) (afterWord : Bool) :
    removeFrom afterWord 0 (above ++ rest) = above ++ removeFrom false 0 rest := by
  induction above generalizing afterWord with
  | nil =>
      rcases eq_nil_or_exists_of_restOfLine hrest with rfl | ⟨below, rfl⟩
      · rfl
      · simp
  | cons char above ih =>
      have hnone : afterStatement? afterWord (char :: (above ++ rest)) = none := by
        rw [Option.eq_none_iff_forall_ne_some]
        intro after hafter
        obtain ⟨first, -, -, -, -, -, hword, -⟩ := (afterStatement?_eq_some hafter).2.exists_parts
        have hspace : isSpaceOrTab '\n' = false := by decide
        have hopens : word <+: (char :: above).dropWhile isSpaceOrTab := by
          rcases eq_nil_or_exists_of_restOfLine hrest with rfl | ⟨below, rfl⟩
          · rw [List.append_nil] at hword
            exact ⟨first, hword.symm⟩
          · have hdrop := congrArg Prod.snd
              (Token.cutsBefore_splitWhile hspace (char :: above) below)
            refine (Token.prefix_append_stop newline_not_mem_word _ below).mp ⟨first, ?_⟩
            exact hword.symm.trans hdrop
        exact h (hopens.isInfix.trans (List.dropWhile_suffix _).isInfix)
      have habove : ¬word <:+: above := fun hinside =>
        h (hinside.trans (List.suffix_cons char above).isInfix)
      rw [List.cons_append, removeFrom_of_none hnone, ih habove, List.cons_append]

theorem restOfLine_removeFrom {rest : Text} (hrest : restOfLine rest = []) (afterWord : Bool) :
    restOfLine (removeFrom afterWord 0 rest) = [] := by
  rcases eq_nil_or_exists_of_restOfLine hrest with rfl | ⟨below, rfl⟩
  · rfl
  · simp

end Precision

namespace Text.DifferBehind

open Precision

variable {row other first second : Text}

/-! ## The steps that finish a unit -/

theorem replaceFirst {pattern more : Text} {char : Char} (h : DifferBehind row other first second)
    (hpattern : pattern = char :: more) (hchar : char ≠ '\n') (hmark : '#' ∉ more)
    (hline : '\n' ∉ pattern.dropLast) (hrow : ¬pattern <:+: '#' :: row ++ ['\n'])
    (hother : ¬pattern <:+: '#' :: other ++ ['\n']) :
    DifferBehind row other (first.replaceFirst pattern []) (second.replaceFirst pattern []) := by
  obtain ⟨above, below, rfl, rfl, hbelow⟩ := h
  have htail : '#' ∉ pattern.tail := by rw [hpattern]; exact hmark
  rcases replaceFirst_mark_cases htail above with ⟨kept, hkept⟩ | hbehind
  · exact ⟨kept, below, hkept _, hkept _, hbelow⟩
  · refine ⟨above, Text.replaceFirst below pattern [], ?_, ?_,
      restOfLine_replaceFirst hpattern hchar hbelow⟩
    · rw [hbehind, ← List.cons_append, replaceFirst_append_line hline hrow hbelow]
      rfl
    · rw [hbehind, ← List.cons_append, replaceFirst_append_line hline hother hbelow]
      rfl

theorem removeStatements (h : DifferBehind row other first second) (hrow : ¬word <:+: row)
    (hother : ¬word <:+: other) :
    DifferBehind row other (Precision.removeStatements first)
      (Precision.removeStatements second) := by
  obtain ⟨above, below, rfl, rfl, hbelow⟩ := h
  refine ⟨removeFrom false 0 above, removeFrom false 0 below, ?_, ?_,
    restOfLine_removeFrom hbelow false⟩
  · rw [Precision.removeStatements, removeFrom_append_mark false (Nat.zero_le _),
      removeFrom_append_line hrow hbelow]
  · rw [Precision.removeStatements, removeFrom_append_mark false (Nat.zero_le _),
      removeFrom_append_line hother hbelow]

theorem placeHeader (h : DifferBehind row other first second) (hrow : '\n' ∉ row)
    (hother : '\n' ∉ other)
    (hname : Directive.name? ('#' :: row) = Directive.name? ('#' :: other)) (header : Text) :
    DifferBehind row other (Precision.placeHeader header first)
      (Precision.placeHeader header second) := by
  obtain ⟨above, below, rfl, rfl, hbelow⟩ := h
  have hrowMark : '\n' ∉ '#' :: row := by simp [hrow]
  have hotherMark : '\n' ∉ '#' :: other := by simp [hother]
  -- What the text begins with, behind blanks: the mark, or something in front of it.
  cases htrim : above.trimStart with
  | nil =>
      have hstart : ∀ tail, trimStart (above ++ '#' :: tail) = '#' :: tail := fun tail => by
        rw [trimStart, dropWhile_append_of_eq_nil htrim]
        rfl
      unfold Precision.placeHeader
      dsimp only
      rw [hstart, hstart, name?_append_line hbelow, name?_append_line hbelow, ← hname]
      split
      · rw [← List.cons_append, ← List.cons_append, splitFirstLine_append_line hrowMark hbelow,
          splitFirstLine_append_line hotherMark hbelow]
        exact ⟨[], '\n' :: header ++ '\n' :: below.drop 1, by simp, by simp, restOfLine_newline _⟩
      · exact ⟨header ++ '\n' :: above, below, by simp, by simp, hbelow⟩
  | cons first front =>
      have hfirst : isBlank first = false := by
        have hnot := List.head?_dropWhile_not isBlank above
        rw [← trimStart, htrim] at hnot
        simpa using hnot
      have hstart : ∀ tail, trimStart (above ++ '#' :: tail) = first :: front ++ '#' :: tail :=
        fun tail => by
          rw [trimStart, dropWhile_append_of_ne_nil (by rw [← trimStart, htrim]; simp), ← trimStart,
            htrim]
      unfold Precision.placeHeader
      dsimp only
      rw [hstart, hstart, Directive.name?_append_mark hfirst, Directive.name?_append_mark hfirst]
      split
      · by_cases hfeed : '\n' ∈ first :: front
        · obtain ⟨line, rest, hline, hnot⟩ := List.eq_append_cons_of_mem hfeed
          have hsplit : ∀ tail, splitFirstLine (first :: front ++ '#' :: tail) =
              (line, rest ++ '#' :: tail) := fun tail => by
            rw [hline, List.append_assoc, List.cons_append, splitFirstLine_newline hnot]
          rw [hsplit, hsplit]
          exact ⟨line ++ '\n' :: header ++ '\n' :: rest, below, by simp, by simp, hbelow⟩
        · have hsplit : ∀ tail, '\n' ∉ '#' :: tail →
              splitFirstLine (first :: front ++ '#' :: (tail ++ below)) =
                (first :: front ++ '#' :: tail, below.drop 1) := fun tail htail => by
            rw [← List.cons_append, ← List.append_assoc]
            refine splitFirstLine_append_line (fun hmem => ?_) hbelow
            exact (List.mem_append.mp hmem).elim hfeed htail
          rw [hsplit row hrowMark, hsplit other hotherMark]
          exact ⟨first :: front, '\n' :: header ++ '\n' :: below.drop 1, by simp, by simp,
            restOfLine_newline _⟩
      · exact ⟨header ++ '\n' :: above, below, by simp, by simp, hbelow⟩

end Text.DifferBehind

/-! ## The rows of a finished unit -/

namespace Text

/-- The row is the text without some of the carriage returns at its end. -/
def DropsReturns (text row : Text) : Prop := ∃ count, text = row ++ List.replicate count '\r'

variable {text row last below front : Text}

theorem DropsReturns.trans (h : text.DropsReturns row) (hrow : row.DropsReturns last) :
    text.DropsReturns last := by
  obtain ⟨count, rfl⟩ := h
  obtain ⟨number, rfl⟩ := hrow
  exact ⟨number + count, by rw [List.append_assoc, List.replicate_append_replicate]⟩

private theorem dropsReturns_dropLineEnd (text : Text) :
    text.DropsReturns (dropLineEnd (text ++ ['\n'])) := by
  by_cases hreturn : text.getLast? = some '\r'
  · obtain ⟨init, rfl⟩ := List.getLast?_eq_some_iff.mp hreturn
    exact ⟨1, by simp [dropLineEnd]⟩
  · exact ⟨0, by rw [dropLineEnd_row hreturn]; simp⟩

private theorem DropsReturns.not_mem (h : text.DropsReturns row) {char : Char}
    (hchar : char ∉ text) :
    char ∉ row := by
  obtain ⟨count, rfl⟩ := h
  exact fun hmem => hchar (List.mem_append_left _ hmem)

theorem DropsReturns.exists_mark (h : DropsReturns (front ++ '#' :: row) last) :
    ∃ rest, last = front ++ '#' :: rest ∧ row.DropsReturns rest := by
  obtain ⟨count, hlast⟩ := h
  rcases mark_cases hlast.symm with ⟨post, hpost, hrow⟩ | ⟨mid, -, hreturns⟩
  · exact ⟨post, hpost, count, hrow⟩
  · have hmem : '#' ∈ List.replicate count '\r' := by
      rw [hreturns]
      simp
    exact absurd (List.eq_of_mem_replicate hmem) (by decide)

private theorem exists_lines_append_line (hfeed : '\n' ∉ row) (hne : row ≠ [])
    (hbelow : restOfLine below = []) :
    ∃ line, lines (row ++ below) = line :: lines (below.drop 1) ∧ row.DropsReturns line := by
  rcases eq_nil_or_exists_of_restOfLine hbelow with rfl | ⟨rest, rfl⟩
  · refine ⟨row, ?_, 0, by simp⟩
    rw [List.append_nil, lines, linesWithEnds_of_not_mem hfeed hne]
    exact congrArg (· :: []) (dropLineEnd_of_not_mem hfeed)
  · refine ⟨_, ?_, dropsReturns_dropLineEnd row⟩
    rw [lines, linesWithEnds_row hfeed]
    rfl

private theorem finalLines_cons_of_dropsReturns {char : Char} (hchar : char ∈ row)
    (hletter : isAsciiLetter char = true)
    (h : DropsReturns (front ++ '#' :: row) last) (rows : List Text) :
    Layout.finalLines (last :: rows) = last :: Layout.finalLines rows := by
  obtain ⟨count, hlast⟩ := h
  have hreplicate : ∀ other : Char, other ≠ '\r' → other ∈ front ++ '#' :: row → other ∈ last := by
    intro other hother hmem
    rw [hlast, List.mem_append] at hmem
    exact hmem.resolve_right fun hreplicate => hother (List.eq_of_mem_replicate hreplicate)
  have hmark : '#' ∈ last := hreplicate '#' (by decide) (by simp)
  have hblank : ¬IsBlankLine last := fun hall => absurd (hall '#' hmark) (by decide)
  have hother : char ∈ last := by
    refine hreplicate char ?_ (by simp [hchar])
    rintro rfl
    exact absurd hletter (by decide)
  have hpad : Layout.padLine last = last := by
    rcases last with _ | ⟨first, _ | ⟨second, last⟩⟩
    · rfl
    · rw [List.mem_singleton.mp hother, ← List.mem_singleton.mp hmark] at hletter
      exact absurd hletter (by decide)
    · rfl
  simp [Layout.finalLines, hblank, hpad]

end Text

private theorem Directive.exists_letter_of_name? {row name : Text}
    (h : name? ('#' :: row) = some name) :
    ∃ char ∈ row, isAsciiLetter char = true := by
  unfold name? at h
  rw [afterMark?_mark] at h
  dsimp only at h
  cases hword : (row.dropWhile fun char => char == ' ' || char == '\t').takeWhile isAsciiLetter with
  | nil =>
      rw [hword] at h
      cases h
  | cons char word =>
      have hmem : char ∈ (row.dropWhile fun char => char == ' ' || char == '\t').takeWhile
          isAsciiLetter := hword ▸ List.mem_cons_self
      exact ⟨char, (List.dropWhile_suffix _).subset ((List.takeWhile_prefix _).subset hmem),
        List.mem_takeWhile_imp hmem⟩

namespace Composer

variable {composer : Composer} {row other first second : Text}

private theorem not_infix_of_word {piece word : Text} (hpiece : word <:+: piece) (hne : word ≠ [])
    (hmark : '#' ∉ word) (hfeed : '\n' ∉ word) (h : ¬word <:+: row) :
    ¬piece <:+: '#' :: row ++ ['\n'] := by
  intro hinside
  have hline : word <:+: '#' :: row :=
    (Text.infix_of_append_cons hfeed (hpiece.trans hinside)).resolve_right fun hnil =>
      hne (List.infix_nil.mp hnil)
  have hsplit : word <:+: [] ++ '#' :: row := hline
  exact (Text.infix_of_append_cons hmark hsplit).elim (fun hnil => hne (List.infix_nil.mp hnil)) h

private theorem finish_of_differBehind
    (hprecision : '\n' ∉ composer.precision ∧ '#' ∉ composer.precision)
    (hfeed : '\n' ∉ row ∧ '\n' ∉ other) (hrow : IsUnmarked row) (hother : IsUnmarked other)
    (hname : Directive.name? ('#' :: row) = Directive.name? ('#' :: other))
    (h : Text.DifferBehind row other first second) :
    Text.DifferBehind row other
      (Precision.inject composer.precision (first.replaceFirst toolingMarker []))
      (Precision.inject composer.precision (second.replaceFirst toolingMarker [])) := by
  have hmarker : toolingName <:+: toolingMarker := by decide
  have hword := (Precision.word_prefix_header composer.precision).isInfix
  have hmark : '#' ∉ "recision".toList ++ ' ' :: composer.precision ++ [';'] := by
    simp [hprecision.2]
  have hstaged := h.replaceFirst toolingMarker_eq_cons (by decide) (by decide) (by decide)
    (not_infix_of_word hmarker (by decide) (by decide) (by decide) hrow.1)
    (not_infix_of_word hmarker (by decide) (by decide) (by decide) hother.1)
  have hreplaced := hstaged.replaceFirst (Precision.header_eq_cons _) (by decide) hmark
    (Precision.newline_not_mem_dropLast_header hprecision.1)
    (not_infix_of_word hword (by decide) (by decide) (by decide) hrow.2)
    (not_infix_of_word hword (by decide) (by decide) (by decide) hother.2)
  exact (hreplaced.removeStatements hrow.2 hother.2).placeHeader hfeed.1 hfeed.2 hname _

private theorem exists_lines_finalizeLines {above below front : Text} {char : Char}
    (habove : above.EndsLine) (hbelow : Text.restOfLine below = []) (hfront : '\n' ∉ front)
    (hfeed : '\n' ∉ row) (hchar : char ∈ row) (hletter : isAsciiLetter char = true) :
    ∃ line, Text.DropsReturns (front ++ '#' :: row) line ∧
      (Layout.finalizeLines (above ++ (front ++ '#' :: (row ++ below))) ++ ['\n']).lines =
        (Text.ofRows (Layout.finalLines above.lines)).lines ++
          line :: (Text.ofRows (Layout.finalLines (Text.lines (below.drop 1)))).lines := by
  have hline : '\n' ∉ front ++ '#' :: row := by simp [hfront, hfeed]
  obtain ⟨line, hlines, hdrops⟩ := Text.exists_lines_append_line hline (by simp) hbelow
  have hfinal := Text.finalLines_cons_of_dropsReturns hchar hletter hdrops
    (Text.lines (below.drop 1))
  refine ⟨_, hdrops.trans (Text.dropsReturns_dropLineEnd line), ?_⟩
  rw [← List.cons_append, ← List.append_assoc front, Layout.finalizeLines_eq,
    Text.lines_append habove, hlines, Layout.finalLines_append, hfinal,
    Text.unlines_append_newline (by simp), Text.ofRows_append,
    Text.lines_append (Text.endsLine_ofRows _), Text.ofRows_cons, Text.lines, Text.lines,
    Text.lines, Text.linesWithEnds_row (hdrops.not_mem hline)]
  rfl

theorem exists_lines_of_differBehind (hstages : composer.stages = [])
    (hprecision : '\n' ∉ composer.precision ∧ '#' ∉ composer.precision)
    (hfeed : '\n' ∉ row ∧ '\n' ∉ other) (hrow : IsUnmarked row) (hother : IsUnmarked other)
    {name : Text} (hname : Directive.name? ('#' :: row) = some name)
    (hsame : Directive.name? ('#' :: other) = some name)
    (h : Text.DifferBehind row other first second) :
    ∃ front above below line tail, '\n' ∉ front ∧
      (composer.unitText first).lines = above ++ line :: below ∧
      (composer.unitText second).lines = above ++ tail :: below ∧
      Text.DropsReturns (front ++ '#' :: row) line ∧
      Text.DropsReturns (front ++ '#' :: other) tail := by
  obtain ⟨start, below, hfirst, hsecond, hbelow⟩ :=
    finish_of_differBehind hprecision hfeed hrow hother (hname.trans hsame.symm) h
  obtain ⟨above, front, rfl, habove, hfront⟩ := Text.exists_endsLine_append start
  obtain ⟨char, hchar, hletter⟩ := Directive.exists_letter_of_name? hname
  obtain ⟨line, hline, hlines⟩ :=
    exists_lines_finalizeLines habove hbelow hfront hfeed.1 hchar hletter
  obtain ⟨letter, hmem, hletter⟩ := Directive.exists_letter_of_name? hsame
  obtain ⟨tail, htail, htails⟩ :=
    exists_lines_finalizeLines habove hbelow hfront hfeed.2 hmem hletter
  rw [List.append_assoc] at hfirst hsecond
  refine ⟨front, (Text.ofRows (Layout.finalLines above.lines)).lines,
    (Text.ofRows (Layout.finalLines (Text.lines (below.drop 1)))).lines, line, tail, hfront,
    ?_, ?_, hline, htail⟩
  · rw [unitText, stagedText, runStages, hstages, finishUnit, List.foldl_nil, hfirst, hlines]
  · rw [unitText, stagedText, runStages, hstages, finishUnit, List.foldl_nil, hsecond, htails]

end Composer

end GlslCompose
