import GlslCompose.Proofs.Text.Rows

/-!
# What stands behind the marks of a text

`Text.EachMark holds text` says that behind every `#` of the text the rest of its line
is as `holds` has it, wherever on the line the `#` stands.  This is so for a text that
is put together at line ends if it is so for the parts, and it stays so when a piece is
taken out, as long as no line that has a `#` in front of the piece is as `holds` has it.
-/

namespace GlslCompose.Text

def restOfLine (text : Text) : Text := text.takeWhile (· ≠ '\n')

def EachMark (holds : Text → Prop) : Text → Prop
  | [] => True
  | char :: rest => (char = '#' → holds (restOfLine rest)) ∧ EachMark holds rest

instance decidableEachMark (holds : Text → Prop) [DecidablePred holds] (text : Text) :
    Decidable (EachMark holds text) :=
  match text with
  | [] => isTrue trivial
  | _ :: rest =>
      have := decidableEachMark holds rest
      inferInstanceAs (Decidable ((_ → holds (restOfLine rest)) ∧ EachMark holds rest))

variable {holds : Text → Prop} {first second : Text}

/-! ## The rest of a line -/

@[simp] theorem restOfLine_newline (rest : Text) : restOfLine ('\n' :: rest) = [] := by
  simp [restOfLine]

theorem restOfLine_cons {char : Char} (hchar : char ≠ '\n') (rest : Text) :
    restOfLine (char :: rest) = char :: restOfLine rest := by
  simp [restOfLine, hchar]

theorem restOfLine_of_not_mem (h : '\n' ∉ first) (second : Text) :
    restOfLine (first ++ second) = first ++ restOfLine second := by
  induction first with
  | nil => rfl
  | cons char first ih =>
      rw [List.mem_cons, not_or] at h
      rw [List.cons_append, restOfLine_cons (Ne.symm h.1), ih h.2, List.cons_append]

theorem restOfLine_eq_self {text : Text} (h : '\n' ∉ text) : restOfLine text = text := by
  have hrest := restOfLine_of_not_mem h []
  rw [List.append_nil] at hrest
  exact hrest.trans (List.append_nil text)

theorem restOfLine_of_mem (h : '\n' ∈ first) (second : Text) :
    restOfLine (first ++ second) = restOfLine first := by
  induction first with
  | nil => simp at h
  | cons char first ih =>
      by_cases hchar : char = '\n'
      · subst hchar
        rw [List.cons_append, restOfLine_newline, restOfLine_newline]
      · have hmem := (List.mem_cons.mp h).resolve_left (Ne.symm hchar)
        rw [List.cons_append, restOfLine_cons hchar, restOfLine_cons hchar, ih hmem]

theorem restOfLine_append (hsecond : restOfLine second = []) (first : Text) :
    restOfLine (first ++ second) = restOfLine first := by
  by_cases h : '\n' ∈ first
  · exact restOfLine_of_mem h second
  · rw [restOfLine_of_not_mem h second, hsecond, restOfLine_eq_self h, List.append_nil]

theorem eq_nil_or_exists_of_restOfLine {text : Text} (h : restOfLine text = []) :
    text = [] ∨ ∃ rest, text = '\n' :: rest := by
  cases text with
  | nil => exact .inl rfl
  | cons char rest =>
      by_cases hchar : char = '\n'
      · exact .inr ⟨rest, by rw [hchar]⟩
      · rw [restOfLine_cons hchar] at h
        cases h

theorem restOfLine_of_append {first second : Text} (h : restOfLine (first ++ second) = []) :
    restOfLine first = [] := by
  cases first with
  | nil => rfl
  | cons char first =>
      obtain ⟨rest, hrest⟩ := (eq_nil_or_exists_of_restOfLine h).resolve_left (by simp)
      rw [(List.cons.inj hrest).1]
      exact restOfLine_newline first

theorem restOfLine_dropWhile (text : Text) : restOfLine (text.dropWhile (· ≠ '\n')) = [] := by
  induction text with
  | nil => rfl
  | cons char text ih =>
      by_cases hchar : char = '\n'
      · subst hchar
        rw [List.dropWhile_cons_of_neg (by simp), restOfLine_newline]
      · rw [List.dropWhile_cons_of_pos (by simpa using hchar), ih]

/-! ## Texts and their parts -/

@[simp] theorem eachMark_nil : EachMark holds [] := trivial

theorem eachMark_cons {char : Char} {rest : Text} :
    EachMark holds (char :: rest) ↔ (char = '#' → holds (restOfLine rest)) ∧ EachMark holds rest :=
  Iff.rfl

@[simp] theorem eachMark_newline {rest : Text} :
    EachMark holds ('\n' :: rest) ↔ EachMark holds rest :=
  and_iff_right nofun

theorem EachMark.mono {weaker : Text → Prop} (h : EachMark holds first)
    (hweaker : ∀ line, holds line → weaker line) : EachMark weaker first := by
  induction first with
  | nil => trivial
  | cons char first ih => exact ⟨fun hmark => hweaker _ (h.1 hmark), ih h.2⟩

theorem eachMark_append_of_not_mem (h : '#' ∉ first) :
    EachMark holds (first ++ second) ↔ EachMark holds second := by
  induction first with
  | nil => rfl
  | cons char first ih =>
      rw [List.mem_cons, not_or] at h
      rw [List.cons_append, EachMark, ih h.2]
      exact and_iff_right fun hmark => absurd hmark.symm h.1

theorem eachMark_of_not_mem (h : '#' ∉ first) : EachMark holds first := by
  have hnil : EachMark holds (first ++ []) ↔ EachMark holds [] := eachMark_append_of_not_mem h
  rw [List.append_nil] at hnil
  exact hnil.mpr trivial

theorem EachMark.of_append (h : EachMark holds (first ++ second)) : EachMark holds second := by
  induction first with
  | nil => exact h
  | cons char first ih => exact ih h.2

theorem EachMark.of_suffix (h : EachMark holds first) (hsuffix : second <:+ first) :
    EachMark holds second := by
  obtain ⟨before, rfl⟩ := hsuffix
  exact h.of_append

theorem eachMark_of_suffixes (h : ∀ rest, '#' :: rest <:+ first → holds (restOfLine rest)) :
    EachMark holds first := by
  induction first with
  | nil => trivial
  | cons char first ih =>
      refine ⟨?_, ih fun rest hrest => h rest (hrest.trans (List.suffix_cons char first))⟩
      rintro rfl
      exact h first List.suffix_rfl

theorem eachMark_of_infix (h : ∀ line, line <:+: first → holds line) : EachMark holds first := by
  refine eachMark_of_suffixes fun rest hrest => h _ ?_
  have hline : restOfLine rest <+: rest := List.takeWhile_prefix _
  exact hline.isInfix.trans ((List.suffix_cons '#' rest).trans hrest).isInfix

theorem eachMark_append_iff (hsecond : restOfLine second = []) :
    EachMark holds (first ++ second) ↔ EachMark holds first ∧ EachMark holds second := by
  induction first with
  | nil => exact (and_iff_right trivial).symm
  | cons char first ih =>
      rw [List.cons_append, EachMark, EachMark, ih, restOfLine_append hsecond, and_assoc]

theorem EndsLine.eachMark_append_iff (hfirst : first.EndsLine) (second : Text) :
    EachMark holds (first ++ second) ↔ EachMark holds first ∧ EachMark holds second := by
  rcases hfirst with rfl | ⟨body, rfl⟩
  · exact (and_iff_right trivial).symm
  · have hline : ∀ rest, restOfLine ('\n' :: rest) = [] := restOfLine_newline
    rw [List.append_assoc, List.singleton_append, Text.eachMark_append_iff (hline _),
      Text.eachMark_append_iff (hline _)]
    simp

theorem EndsLine.eachMark_splice (hfirst : first.EndsLine) {middle : Text}
    (habove : EachMark holds first) (hmiddle : EachMark holds middle)
    (hbelow : EachMark holds second) : EachMark holds (first ++ (middle ++ '\n' :: second)) := by
  rw [hfirst.eachMark_append_iff, Text.eachMark_append_iff (restOfLine_newline second),
    eachMark_newline]
  exact ⟨habove, hmiddle, hbelow⟩

theorem EachMark.erase {piece after : Text} (h : EachMark holds (first ++ (piece ++ after)))
    (hpiece : ∀ line, ¬holds (line ++ restOfLine (piece ++ after))) :
    EachMark holds (first ++ after) := by
  induction first with
  | nil =>
      have hbehind : EachMark holds (piece ++ after) := h
      exact hbehind.of_append
  | cons char first ih =>
      rw [List.cons_append] at h ⊢
      refine ⟨fun hmark => ?_, ih h.2⟩
      have hline := h.1 hmark
      by_cases hfeed : '\n' ∈ first
      · rw [restOfLine_of_mem hfeed] at hline ⊢
        exact hline
      · rw [restOfLine_of_not_mem hfeed] at hline
        exact absurd hline (hpiece first)

-- Other modules use the lemmas: to unfold it, Lean would have to run what makes the text.
attribute [irreducible] EachMark

end GlslCompose.Text
