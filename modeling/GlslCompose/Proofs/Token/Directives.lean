import GlslCompose.Proofs.Text.Search
import GlslCompose.Proofs.Token.Words
import GlslCompose.Unit.Include
import Mathlib.Data.List.DropRight

/-!
# Directives over several lines

A directive that continues over lines has a line feed within its body, so it is
kept as it is, or it is an include.  An include whose last character is no closing
delimiter names no module.
-/

namespace GlslCompose

namespace Directive

/-! ## Names -/

@[simp] theorem afterMark?_mark (rest : Text) :
    afterMark? ('#' :: rest) =
      some (rest.dropWhile fun char => char == ' ' || char == '\t') := by
  rw [afterMark?, Text.trimStart_cons (by decide)]
  rfl

theorem name?_of_trimStart {line rest : Text} (h : line.trimStart = '#' :: rest) :
    name? line = name? ('#' :: rest) := by
  unfold name? afterMark?
  rw [h, Text.trimStart_cons (by decide)]

@[simp] theorem name?_trimStart (line : Text) : name? line.trimStart = name? line := by
  have htrim : line.trimStart.trimStart = line.trimStart := List.dropWhile_idempotent isBlank line
  unfold name? afterMark?
  rw [htrim]

theorem exists_trimStart_of_name? {line name : Text} (h : name? line = some name) :
    ∃ rest, line.trimStart = '#' :: rest := by
  unfold name? afterMark? at h
  split at h
  · cases h
  · rename_i hmark
    split at hmark
    · rename_i rest hstart
      exact ⟨rest, hstart⟩
    · cases hmark

private theorem takeWhile_dropWhile_append {skips accepts : Char → Bool} {rest : Text}
    (hhead : ∀ char ∈ rest.head?, accepts char = false)
    (hrest : (rest.dropWhile skips).takeWhile accepts = []) (source : Text) :
    ((source ++ rest).dropWhile skips).takeWhile accepts =
      (source.dropWhile skips).takeWhile accepts := by
  induction source with
  | nil => exact hrest
  | cons char source ih =>
      rw [List.cons_append, List.dropWhile_cons, List.dropWhile_cons]
      split
      · exact ih
      · exact Text.takeWhile_append_of_head hhead (char :: source)

private theorem dropWhile_spaces_append {name : Text} (hne : name ≠ [])
    (hname : ∀ char ∈ name, isAsciiLetter char = true) (rest : Text) :
    ((name ++ rest).dropWhile fun char => char == ' ' || char == '\t') = name ++ rest := by
  obtain ⟨first, more, rfl⟩ := List.exists_cons_of_ne_nil hne
  refine List.dropWhile_cons_of_neg fun hblank => ?_
  rw [Bool.or_eq_true, beq_iff_eq, beq_iff_eq] at hblank
  have hletter := hname first List.mem_cons_self
  rcases hblank with rfl | rfl
  · exact absurd hletter (by decide)
  · exact absurd hletter (by decide)

theorem name?_mark {name rest : Text} (hne : name ≠ [])
    (hname : ∀ char ∈ name, isAsciiLetter char = true)
    (hrest : ∀ char ∈ rest.head?, isAsciiLetter char = false) :
    name? ('#' :: (name ++ rest)) = some name := by
  have hword : (name ++ rest).takeWhile isAsciiLetter = name := by
    rw [Text.takeWhile_append_of_head hrest, List.takeWhile_eq_self_iff.mpr hname]
  rw [name?, afterMark?_mark, dropWhile_spaces_append hne hname]
  dsimp only
  rw [hword]
  cases name with
  | nil => exact absurd rfl hne
  | cons char name => rfl

theorem name?_append {rest : Text} (hhead : ∀ char ∈ rest.head?, isAsciiLetter char = false)
    (hrest : (rest.dropWhile fun char => char == ' ' || char == '\t').takeWhile isAsciiLetter = [])
    (body : Text) : name? ('#' :: (body ++ rest)) = name? ('#' :: body) := by
  unfold name?
  rw [afterMark?_mark, afterMark?_mark]
  simp only
  rw [takeWhile_dropWhile_append hhead hrest]

@[simp] theorem name?_append_newline (body rest : Text) :
    name? ('#' :: (body ++ '\n' :: rest)) = name? ('#' :: body) :=
  name?_append (by rintro char ⟨⟩; decide) rfl body

theorem name?_append_mark {front : Text} {first : Char} (hfirst : isBlank first = false)
    (post : Text) : name? (first :: front ++ '#' :: post) = name? (first :: front) := by
  by_cases hmark : first = '#'
  · subst hmark
    exact name?_append (by rintro char ⟨⟩; decide) rfl front
  · have hnone : ∀ rest : Text, name? (first :: rest) = none := fun rest => by
      unfold name? afterMark?
      rw [Text.trimStart_cons hfirst]
      split
      · rfl
      · rename_i hafter
        split at hafter
        · rename_i heq
          exact absurd (List.cons.inj heq).1 hmark
        · cases hafter
    rw [List.cons_append, hnone, hnone]

/-! ## Bodies -/

theorem body_mark {name : Text} (hne : name ≠ [])
    (hname : ∀ char ∈ name, isAsciiLetter char = true) (rest : Text) :
    body name ('#' :: (name ++ rest)) = rest.trim := by
  have hfront : name.isPrefixOf? (name ++ rest) = some rest :=
    List.isPrefixOf?_eq_some_iff_append_eq.mpr rfl
  rw [body, afterMark?_mark, dropWhile_spaces_append hne hname]
  dsimp only
  rw [hfront]

theorem body_suffix (name line : Text) :
    ∃ rest, rest <:+ line ∧ body name line = Text.trim rest := by
  unfold body
  cases hmark : afterMark? line with
  | none => exact ⟨[], List.nil_suffix, rfl⟩
  | some rest =>
      have hrest : rest <:+ line := by
        unfold afterMark? at hmark
        split at hmark
        · rename_i more hstart
          cases hmark
          have hmore : more <:+ line.trimStart := by
            rw [hstart]
            exact List.suffix_cons _ _
          exact (List.dropWhile_suffix _).trans (hmore.trans (List.dropWhile_suffix _))
        · cases hmark
      dsimp only
      split
      · rename_i more hmore
        rw [List.isPrefixOf?_eq_some_iff_append_eq] at hmore
        refine ⟨more, ?_, rfl⟩
        rw [← hmore] at hrest
        exact (List.suffix_append _ _).trans hrest
      · exact ⟨[], List.nil_suffix, rfl⟩

theorem getLast?_body {name line : Text} {last : Char} (hlast : isBlank last = false)
    (hline : line.getLast? = some last) (hbody : body name line ≠ []) :
    (body name line).getLast? = some last := by
  obtain ⟨rest, ⟨skipped, hrest⟩, heq⟩ := body_suffix name line
  rw [heq] at hbody ⊢
  have hne : rest ≠ [] := by
    rintro rfl
    exact hbody rfl
  rw [← hrest, List.getLast?_append_of_ne_nil _ hne] at hline
  obtain ⟨init, rfl⟩ := List.getLast?_eq_some_iff.mp hline
  have hsuffix : [last] <:+ Text.trimStart (init ++ [last]) :=
    Text.suffix_dropWhile hlast (List.suffix_append _ _)
  obtain ⟨start, hstart⟩ := hsuffix
  rw [Text.trim, ← hstart, Text.trimEnd_concat hlast]
  simp

theorem body_any_isBlank {name before gap post : Text} (hname : '\\' ∉ name)
    (hgap : '\n' ∈ gap) (hbody : body name ('#' :: before ++ '\\' :: gap ++ '#' :: post) ≠ []) :
    (body name ('#' :: before ++ '\\' :: gap ++ '#' :: post)).any isBlank = true := by
  have hline : '#' :: before ++ '\\' :: gap ++ '#' :: post =
      '#' :: (before ++ '\\' :: (gap ++ '#' :: post)) := by simp
  rw [hline] at hbody ⊢
  unfold body at hbody ⊢
  rw [afterMark?_mark] at hbody ⊢
  have hsuffix : '\\' :: (gap ++ '#' :: post) <:+
      (before ++ '\\' :: (gap ++ '#' :: post)).dropWhile fun char => char == ' ' || char == '\t' :=
    Text.suffix_dropWhile (by decide) (List.suffix_append _ _)
  generalize ((before ++ '\\' :: (gap ++ '#' :: post)).dropWhile fun char =>
    char == ' ' || char == '\t') = rest at hsuffix hbody ⊢
  dsimp only at hbody ⊢
  split at hbody
  · rename_i more hmore
    rw [List.isPrefixOf?_eq_some_iff_append_eq] at hmore
    rw [← hmore] at hsuffix
    have hslash : isBlank '\\' = false := by decide
    obtain ⟨start, hstart⟩ := Text.suffix_dropWhile hslash (Text.suffix_of_not_mem hsuffix hname)
    have htrim : Text.trim more = start ++ '\\' :: gap ++ Text.trimEnd ('#' :: post) := by
      rw [Text.trim, Text.trimStart, ← hstart, ← Text.trimEnd_append (by decide)]
      simp
    rw [htrim]
    simp only [List.any_append, List.any_cons, Bool.or_eq_true, List.any_eq_true]
    exact .inl (.inr (.inr ⟨'\n', hgap, by decide⟩))
  · exact absurd rfl hbody

end Directive

/-! ## What is asked for -/

namespace Include

theorem completeDefine_eq_self {text : Text}
    (h : Directive.body Directive.defineName text ≠ [] →
      (Directive.body Directive.defineName text).any isBlank = true) :
    completeDefine text = text := by
  unfold completeDefine
  by_cases hbody : Directive.body Directive.defineName text = []
  · exact if_pos (.inl hbody)
  · exact if_pos (.inr (h hbody))

theorem requestOfDirective_cases {text : Text}
    (h : Directive.name? text = some Directive.defineName → completeDefine text = text) :
    requestOfDirective text = .keep text ∨
      (Directive.name? text = some Directive.includeName ∧
        requestOfDirective text = .fetch (Directive.body Directive.includeName text)) := by
  unfold requestOfDirective
  cases hname : Directive.name? text with
  | none => exact .inl rfl
  | some name =>
      dsimp only
      split
      · rename_i hdefine
        rw [h (by rw [hname, hdefine])]
        exact .inl rfl
      · split
        · rename_i hinclude
          rw [hinclude]
          exact .inr ⟨rfl, rfl⟩
        · exact .inl rfl

theorem getLast?_of_path {directory argument found : Text}
    (h : path directory argument = .ok found) :
    argument.getLast? = some '>' ∨ argument.getLast? = some '"' := by
  unfold path at h
  cases argument with
  | nil => cases h
  | cons opening rest =>
      dsimp only at h
      cases hform : form? directory opening with
      | none =>
          rw [hform] at h
          cases h
      | some form =>
          rw [hform] at h
          dsimp only at h
          split at h
          · rename_i hclosing
            have hlast : (opening :: rest).getLast? = some form.1 := by
              rw [List.getLast?_cons, hclosing]
              rfl
            rw [hlast]
            unfold form? at hform
            split at hform
            · cases hform
              exact .inl rfl
            · split at hform
              · cases hform
                exact .inr rfl
              · cases hform
          · cases h

end Include

end GlslCompose
