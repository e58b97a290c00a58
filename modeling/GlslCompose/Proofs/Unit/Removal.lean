import GlslCompose.Proofs.Text.Rows
import GlslCompose.Proofs.Token.Words
import GlslCompose.Unit.Guard

/-!
# What a name guard takes with it

The text that goes with a guard stands at the end of the source.  A guard is three lines,
but the one blank that may stand behind the name in the second of them may be a line feed,
and then the line below goes as well.  Where that line holds something, it is lost with the
guard; nothing else ever is.
-/

namespace GlslCompose

namespace Text

/-! ## Bare lines -/

def bareLines (text : Text) : List Text := (text.linesWithEnds.map trim).filter (· ≠ [])

private theorem bareLines_append {first : Text} (hfirst : first.EndsLine) (second : Text) :
    bareLines (first ++ second) = bareLines first ++ bareLines second := by
  rw [bareLines, linesWithEnds_append hfirst, List.map_append, List.filter_append]
  rfl

private theorem bareLines_row {row : Text} (hrow : '\n' ∉ row) :
    bareLines row = [row.trim].filter (· ≠ []) := by
  by_cases hnil : row = []
  · subst hnil
    rfl
  · rw [bareLines, linesWithEnds_of_not_mem hrow hnil, List.map_singleton]

private theorem bareLines_concat_blank {char : Char} (h : isBlank char = true) (text : Text) :
    bareLines (text ++ [char]) = bareLines text := by
  obtain ⟨above, row, rfl, habove, hrow⟩ := exists_endsLine_append text
  have hlines : linesWithEnds (row ++ [char]) = [row ++ [char]] := by
    by_cases hfeed : char = '\n'
    · subst hfeed
      exact linesWithEnds_row hrow []
    · exact linesWithEnds_of_not_mem (by simp [hrow, Ne.symm hfeed]) (by simp)
  have hlast : bareLines (row ++ [char]) = [row.trim].filter (· ≠ []) := by
    rw [bareLines, hlines, List.map_singleton, trim_append_blanks (List.forall_mem_singleton.mpr h)]
  rw [List.append_assoc, bareLines_append habove, bareLines_append habove, bareLines_row hrow,
    hlast]

@[simp] private theorem bareLines_newline (first second : Text) :
    bareLines (first ++ '\n' :: second) = bareLines first ++ bareLines second := by
  rw [List.append_cons, bareLines_append (endsLine_append_newline first),
    bareLines_concat_blank (by decide)]

private theorem bareLines_cons {char : Char} (hfeed : char ≠ '\n') (text : Text) :
    ∃ line lines, linesWithEnds (char :: text) = (char :: line) :: lines ∧
      bareLines text = ([trim line] ++ lines.map trim).filter (· ≠ []) := by
  rw [linesWithEnds, if_neg hfeed, bareLines]
  cases linesWithEnds text with
  | nil => exact ⟨[], [], rfl, rfl⟩
  | cons line lines => exact ⟨line, lines, rfl, rfl⟩

private theorem bareLines_cons_blank {char : Char} (h : isBlank char = true) (text : Text) :
    bareLines (char :: text) = bareLines text := by
  by_cases hfeed : char = '\n'
  · subst hfeed
    exact bareLines_newline [] text
  · obtain ⟨line, lines, hlines, hbare⟩ := bareLines_cons hfeed text
    rw [bareLines, hlines, List.map_cons, trim_cons_blank h, hbare]
    rfl

private theorem length_bareLines_le_cons (char : Char) (text : Text) :
    (bareLines text).length ≤ (bareLines (char :: text)).length := by
  by_cases h : isBlank char = true
  · rw [bareLines_cons_blank h]
  · have hfeed : char ≠ '\n' := by
      rintro rfl
      exact h (by decide)
    obtain ⟨line, lines, hlines, hbare⟩ := bareLines_cons hfeed text
    have hkept : trim (char :: line) ≠ [] := trim_cons_ne_nil (Bool.eq_false_iff.mpr h) line
    have hwhole : bareLines (char :: text) =
        trim (char :: line) :: (lines.map trim).filter (· ≠ []) := by
      rw [bareLines, hlines, List.map_cons, List.filter_cons_of_pos (by simpa using hkept)]
    rw [hwhole, hbare, List.filter_append, List.length_append, List.length_cons, Nat.add_comm]
    exact Nat.add_le_add_left (List.length_filter_le _ [trim line]) _

private theorem length_bareLines_le_of_suffix {text source : Text} (h : text <:+ source) :
    (bareLines text).length ≤ (bareLines source).length := by
  obtain ⟨before, rfl⟩ := h
  induction before with
  | nil => exact Nat.le_refl _
  | cons char before ih => exact Nat.le_trans ih (length_bareLines_le_cons char _)

end Text

namespace NameGuard

open Text (bareLines)

/-! ## The shape of a guard -/

/-- The parts in which guards differ: the three blanks that may be there, the rest of the line
behind the second of the blanks, and whether the guard ends in a line feed. -/
structure Guard where
  before : Option Char
  behindOpening : Option Char
  behindName : Option Char
  line : Text
  endsLine : Bool
  before_blank : ∀ char ∈ before, isBlank char = true
  behindOpening_blank : ∀ char ∈ behindOpening, isBlank char = true
  behindName_blank : ∀ char ∈ behindName, isBlank char = true
  line_row : '\n' ∉ line

namespace Guard

def ending (guard : Guard) : Text := closing ++ if guard.endsLine then ['\n'] else []

def defining (guard : Guard) : Text := definition ++ (guard.behindName.toList ++ guard.line)

def text (guard : Guard) : Text :=
  guard.before.toList ++ (opening ++ (guard.behindOpening.toList ++ '\n' ::
    (guard.defining ++ guard.ending)))

/-- A line stands between the second one and the last, and is not empty. -/
def SwallowsLine (guard : Guard) : Prop :=
  guard.behindName = some '\n' ∧ guard.line.trim ≠ []

end Guard

private theorem endsAfterLine_iff {source : Text} :
    endsAfterLine source = true ↔ ∃ line, '\n' ∉ line ∧ ∃ endsLine : Bool,
      source = line ++ (closing ++ if endsLine then ['\n'] else []) := by
  rw [endsAfterLine, Bool.or_eq_true, decide_eq_true_eq, decide_eq_true_eq]
  constructor
  · intro h
    have hline : '\n' ∉ source.takeWhile (· != '\n') := fun hmem => by
      simpa using List.mem_takeWhile_imp hmem
    have hsource : source = source.takeWhile (· != '\n') ++ source.dropWhile (· != '\n') :=
      List.takeWhile_append_dropWhile.symm
    rcases h with hrest | hrest
    · refine ⟨_, hline, false, ?_⟩
      rwa [hrest] at hsource
    · refine ⟨_, hline, true, ?_⟩
      rwa [hrest] at hsource
  · rintro ⟨line, hline, endsLine, rfl⟩
    have hkept : ∀ char ∈ line, (char != '\n') = true := fun char hmem => by
      rw [bne_iff_ne]
      rintro rfl
      exact hline hmem
    rw [List.dropWhile_append_of_pos hkept]
    cases endsLine
    · exact .inl rfl
    · exact .inr rfl

private theorem optionalBlank_iff (accepts : Text → Bool) (source : Text) :
    (accepts source || match source with
      | char :: rest => isBlank char && accepts rest
      | [] => false) = true ↔
    ∃ blank : Option Char, (∀ char ∈ blank, isBlank char = true) ∧
      ∃ rest, source = blank.toList ++ rest ∧ accepts rest = true := by
  rw [Bool.or_eq_true]
  constructor
  · rintro (h | h)
    · exact ⟨none, nofun, source, rfl, h⟩
    · cases source with
      | nil => cases h
      | cons char rest =>
          rw [Bool.and_eq_true] at h
          exact ⟨some char, by simpa using h.1, rest, rfl, h.2⟩
  · rintro ⟨_ | char, hblank, rest, rfl, h⟩
    · exact .inl h
    · exact .inr (Bool.and_eq_true_iff.mpr ⟨hblank char rfl, h⟩)

private theorem afterPrefix_iff (accepts : Text → Bool) (pattern source : Text) :
    (match pattern.isPrefixOf? source with
      | some rest => accepts rest
      | none => false) = true ↔ ∃ rest, source = pattern ++ rest ∧ accepts rest = true := by
  constructor
  · intro h
    split at h
    · rename_i rest hrest
      exact ⟨rest, (List.isPrefixOf?_eq_some_iff_append_eq.mp hrest).symm, h⟩
    · cases h
  · rintro ⟨rest, rfl, h⟩
    rw [List.isPrefixOf?_eq_some_iff_append_eq.mpr rfl]
    exact h

private theorem endsAfterOpening_iff {source : Text} :
    endsAfterOpening source = true ↔
      ∃ blank : Option Char, (∀ char ∈ blank, isBlank char = true) ∧
        ∃ rest, source = blank.toList ++ '\n' :: rest ∧ endsAfterFirstLine rest = true := by
  constructor
  · intro h
    unfold endsAfterOpening at h
    split at h
    · rename_i first second rest
      simp only [Bool.or_eq_true, Bool.and_eq_true, decide_eq_true_eq] at h
      rcases h with ⟨rfl, h⟩ | ⟨⟨hblank, rfl⟩, h⟩
      · exact ⟨none, nofun, second :: rest, rfl, h⟩
      · exact ⟨some first, by simpa using hblank, rest, rfl, h⟩
    · cases h
  · rintro ⟨blank, hblank, rest, rfl, h⟩
    cases rest with
    | nil => cases h
    | cons second rest =>
        cases blank with
        | none => simp [endsAfterOpening, h]
        | some char => simp [endsAfterOpening, hblank char rfl, h]

private theorem endsAfterName_iff {source : Text} :
    endsAfterName source = true ↔
      ∃ blank : Option Char, (∀ char ∈ blank, isBlank char = true) ∧
        ∃ rest, source = blank.toList ++ rest ∧ endsAfterLine rest = true :=
  optionalBlank_iff endsAfterLine source

private theorem endsAfterFirstLine_iff {source : Text} :
    endsAfterFirstLine source = true ↔
      ∃ rest, source = definition ++ rest ∧ endsAfterName rest = true :=
  afterPrefix_iff endsAfterName definition source

private theorem startsWithGuard_iff {source : Text} :
    startsWithGuard source = true ↔
      ∃ rest, source = opening ++ rest ∧ endsAfterOpening rest = true :=
  afterPrefix_iff endsAfterOpening opening source

private theorem isGuard_iff {source : Text} :
    isGuard source = true ↔ ∃ guard : Guard, source = guard.text := by
  have hblank : isGuard source = true ↔
      ∃ blank : Option Char, (∀ char ∈ blank, isBlank char = true) ∧
        ∃ rest, source = blank.toList ++ rest ∧ startsWithGuard rest = true :=
    optionalBlank_iff startsWithGuard source
  rw [hblank]
  constructor
  · rintro ⟨before, hbefore, guarded, rfl, hguard⟩
    obtain ⟨opened, rfl, hopened⟩ := startsWithGuard_iff.mp hguard
    obtain ⟨behindOpening, hbehindOpening, defined, rfl, hdefined⟩ :=
      endsAfterOpening_iff.mp hopened
    obtain ⟨named, rfl, hnamed⟩ := endsAfterFirstLine_iff.mp hdefined
    obtain ⟨behindName, hbehindName, last, rfl, hlast⟩ := endsAfterName_iff.mp hnamed
    obtain ⟨line, hline, endsLine, rfl⟩ := endsAfterLine_iff.mp hlast
    refine ⟨⟨before, behindOpening, behindName, line, endsLine, hbefore, hbehindOpening,
      hbehindName, hline⟩, ?_⟩
    simp only [Guard.text, Guard.defining, Guard.ending, List.append_assoc]
  · rintro ⟨guard, rfl⟩
    have hline : endsAfterLine (guard.line ++ guard.ending) = true :=
      endsAfterLine_iff.mpr ⟨_, guard.line_row, _, rfl⟩
    have hname := endsAfterName_iff.mpr ⟨_, guard.behindName_blank, _, rfl, hline⟩
    have hfirst := endsAfterFirstLine_iff.mpr ⟨_, rfl, hname⟩
    have hopening := endsAfterOpening_iff.mpr ⟨_, guard.behindOpening_blank, _, rfl, hfirst⟩
    have hstart := startsWithGuard_iff.mpr ⟨_, rfl, hopening⟩
    refine ⟨_, guard.before_blank, _, ?_, hstart⟩
    simp only [Guard.text, Guard.defining, List.append_assoc]

/-! ## Its lines -/

def endif : Text := "#endif".toList

private theorem bareLines_optionalBlank {blank : Option Char}
    (h : ∀ char ∈ blank, isBlank char = true) (text : Text) :
    bareLines (blank.toList ++ text) = bareLines text ∧
      bareLines (text ++ blank.toList) = bareLines text := by
  cases blank with
  | none => simp
  | some char =>
      exact ⟨Text.bareLines_cons_blank (h char rfl) text,
        Text.bareLines_concat_blank (h char rfl) text⟩

private theorem bareLines_opening : bareLines opening = [opening] := by decide +kernel

private theorem bareLines_definition : bareLines definition = [definition] := by decide +kernel

private theorem bareLines_definition_row {row : Text} (hrow : '\n' ∉ row) :
    bareLines (definition ++ row) = [definition ++ row.trimEnd] := by
  have hfeed : '\n' ∉ definition := by decide +kernel
  have hend : definition.trimEnd = definition := by decide +kernel
  have htrim : Text.trim (definition ++ row) = definition ++ row.trimEnd :=
    Text.trimEnd_append_of_eq hend row
  rw [Text.bareLines_row (List.not_mem_append hfeed hrow), htrim]
  rfl

private theorem Guard.bareLines_defining (guard : Guard) :
    (guard.SwallowsLine ∧ bareLines guard.defining = [definition, guard.line.trim]) ∨
    (¬guard.SwallowsLine ∧ ∃ value, bareLines guard.defining = [definition ++ value]) := by
  rw [defining]
  by_cases hfeed : guard.behindName = some '\n'
  · have hlines : bareLines (definition ++ (guard.behindName.toList ++ guard.line)) =
        definition :: [guard.line.trim].filter (· ≠ []) := by
      rw [hfeed]
      exact (Text.bareLines_newline definition guard.line).trans
        (congrArg₂ (· ++ ·) bareLines_definition (Text.bareLines_row guard.line_row))
    by_cases hnil : guard.line.trim = []
    · refine .inr ⟨fun hswallows => hswallows.2 hnil, [], ?_⟩
      rw [hlines, hnil, List.append_nil]
      rfl
    · refine .inl ⟨⟨hfeed, hnil⟩, ?_⟩
      rw [hlines, List.filter_cons_of_pos (by simpa using hnil), List.filter_nil]
  · have hrow : '\n' ∉ guard.behindName.toList ++ guard.line :=
      List.not_mem_append (fun hmem => hfeed (Option.mem_toList.mp hmem)) guard.line_row
    exact .inr ⟨fun hswallows => hfeed hswallows.1, _, bareLines_definition_row hrow⟩

@[simp] private theorem Guard.bareLines_ending (guard : Guard) (above : Text) :
    bareLines (above ++ guard.ending) = bareLines above ++ [endif] := by
  have hending : guard.ending = '\n' :: (endif ++ if guard.endsLine then ['\n'] else []) := rfl
  have hendif : bareLines (endif ++ if guard.endsLine then ['\n'] else []) = [endif] := by
    cases guard.endsLine <;> decide +kernel
  rw [hending, Text.bareLines_newline, hendif]

@[simp] private theorem Guard.bareLines_text (guard : Guard) :
    bareLines guard.text = opening :: (bareLines guard.defining ++ [endif]) := by
  rw [text, (bareLines_optionalBlank guard.before_blank _).1, ← List.append_assoc,
    Text.bareLines_newline, (bareLines_optionalBlank guard.behindOpening_blank _).2,
    bareLines_opening, guard.bareLines_ending]
  rfl

/-! ## The longest guard -/

def removed (source : Text) : Text := source.drop (remove source).length

private theorem removed_cons (char : Char) (rest : Text) :
    removed (char :: rest) = if isGuard (char :: rest) then char :: rest else removed rest := by
  rw [removed, remove]
  split <;> rfl

@[simp] private theorem remove_append_removed (source : Text) :
    remove source ++ removed source = source := by
  induction source with
  | nil => rfl
  | cons char rest ih =>
      rw [removed_cons, remove]
      split
      · rfl
      · rw [List.cons_append, ih]

/-- A guard is taken away if one ends the source, and no longer text would be one. -/
theorem removed_cases (source : Text) :
    (removed source = [] ∧ ∀ text, text <:+ source → isGuard text = false) ∨
    (isGuard (removed source) = true ∧
      ∀ text, text <:+ source → isGuard text = true → text <:+ removed source) := by
  induction source with
  | nil =>
      refine .inl ⟨rfl, fun text htext => ?_⟩
      rw [List.suffix_nil.mp htext]
      rfl
  | cons char rest ih =>
      rw [removed_cons]
      by_cases hguard : isGuard (char :: rest) = true
      · rw [if_pos hguard]
        exact .inr ⟨hguard, fun text htext _ => htext⟩
      · rw [if_neg hguard]
        refine ih.imp (fun ⟨hnil, hnone⟩ => ⟨hnil, fun text htext => ?_⟩)
          fun ⟨hsome, hlongest⟩ => ⟨hsome, fun text htext hguarded => ?_⟩
        · rcases List.suffix_cons_iff.mp htext with rfl | htext
          · exact Bool.eq_false_iff.mpr hguard
          · exact hnone text htext
        · rcases List.suffix_cons_iff.mp htext with rfl | htext
          · exact absurd hguarded hguard
          · exact hlongest text htext hguarded

/-! ## What is taken away -/

def IsBareGuard (text : Text) : Prop :=
  text = [] ∨ ∃ value, bareLines text = [opening, definition ++ value, endif]

def SwallowsLine (source : Text) : Prop :=
  ∃ guard : Guard, guard.SwallowsLine ∧ guard.text <:+ source

private theorem Guard.bareLines_of_swallowsLine {guard : Guard} (h : guard.SwallowsLine) :
    bareLines guard.text = [opening, definition, guard.line.trim, endif] := by
  rw [guard.bareLines_text]
  rcases guard.bareLines_defining with ⟨-, hlines⟩ | ⟨hbare, -⟩
  · rw [hlines]
    rfl
  · exact absurd h hbare

private theorem Guard.isBareGuard_text {guard : Guard} (h : ¬guard.SwallowsLine) :
    IsBareGuard guard.text := by
  rcases guard.bareLines_defining with ⟨hswallows, -⟩ | ⟨-, value, hlines⟩
  · exact absurd hswallows h
  · refine .inr ⟨value, ?_⟩
    rw [guard.bareLines_text, hlines]
    rfl

theorem IsBareGuard.length_le {text : Text} (h : IsBareGuard text) :
    (bareLines text).length ≤ 3 := by
  rcases h with rfl | ⟨value, hlines⟩
  · exact Nat.zero_le 3
  · rw [hlines]
    exact Nat.le_refl 3

private theorem Guard.length_of_swallowsLine {guard : Guard} (h : guard.SwallowsLine) :
    (bareLines guard.text).length = 4 := by
  rw [bareLines_of_swallowsLine h]
  rfl

/-- What is taken away stands at the end of the source and is nothing or the three lines of a
guard, unless the second of them ends right behind the name and a line that holds something
stands between it and the last, which is then all that goes as well. -/
theorem removed_isBareGuard_iff (source : Text) :
    remove source ++ removed source = source ∧
    (removed source = [] ↔ ∀ guard : Guard, ¬guard.text <:+ source) ∧
    (IsBareGuard (removed source) ↔ ¬SwallowsLine source) ∧
    (SwallowsLine source → ∃ line, line ≠ [] ∧
      bareLines (removed source) = [opening, definition, line, endif]) := by
  have hsuffix : removed source <:+ source := ⟨_, remove_append_removed source⟩
  refine ⟨remove_append_removed source, ?_⟩
  rcases removed_cases source with ⟨hnil, hnone⟩ | ⟨hguard, hlongest⟩
  · have hnone : ∀ guard : Guard, ¬guard.text <:+ source := fun guard htext => by
      have hguard : isGuard guard.text = true := isGuard_iff.mpr ⟨guard, rfl⟩
      rw [hnone _ htext] at hguard
      cases hguard
    have hkeeps : ¬SwallowsLine source := fun ⟨guard, _, htext⟩ => hnone guard htext
    exact ⟨iff_of_true hnil hnone, iff_of_true (.inl hnil) hkeeps,
      fun hswallows => absurd hswallows hkeeps⟩
  · obtain ⟨guard, htext⟩ := isGuard_iff.mp hguard
    have hne : removed source ≠ [] := fun hnil => by
      rw [hnil] at hguard
      cases hguard
    refine ⟨iff_of_false hne fun hnone => hnone guard (htext ▸ hsuffix), ?_⟩
    by_cases hswallows : guard.SwallowsLine
    · have hsource : SwallowsLine source := ⟨guard, hswallows, htext ▸ hsuffix⟩
      have hmore : ¬IsBareGuard (removed source) := fun hbare => by
        have hlength := hbare.length_le
        rw [htext, guard.length_of_swallowsLine hswallows] at hlength
        exact absurd hlength (by decide)
      refine ⟨iff_of_false hmore (not_not_intro hsource), fun _ => ⟨_, hswallows.2, ?_⟩⟩
      rw [htext, guard.bareLines_of_swallowsLine hswallows]
    · have hbare : IsBareGuard (removed source) := htext ▸ guard.isBareGuard_text hswallows
      -- A guard that ends the source is a part of the longest one and has no more lines.
      have hsource : ¬SwallowsLine source := fun ⟨other, hother, hends⟩ => by
        have hpart := hlongest _ hends (isGuard_iff.mpr ⟨other, rfl⟩)
        have hcount := Nat.le_trans (Text.length_bareLines_le_of_suffix hpart) hbare.length_le
        rw [other.length_of_swallowsLine hother] at hcount
        exact absurd hcount (by decide)
      exact ⟨iff_of_true hbare hsource, fun hswallows => absurd hswallows hsource⟩

def valuelessGuard : Text :=
  "void main();\n#ifndef SHADER_NAME\n#define SHADER_NAME\nfloat lost;\n#endif".toList

theorem not_isBareGuard_removed_valuelessGuard :
    remove valuelessGuard = "void main();".toList ∧ ¬IsBareGuard (removed valuelessGuard) := by
  have hlines : bareLines (removed valuelessGuard) =
      [opening, definition, "float lost;".toList, endif] := by decide +kernel
  refine ⟨by decide +kernel, fun hbare => ?_⟩
  have hlength := hbare.length_le
  rw [hlines] at hlength
  exact absurd hlength (by decide)

end NameGuard

end GlslCompose
