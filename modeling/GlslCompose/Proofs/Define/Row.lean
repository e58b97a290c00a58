import GlslCompose.Condition.Line
import GlslCompose.Proofs.Text.Search
import GlslCompose.Proofs.Token.Words
import GlslCompose.Unit.Include

/-!
# Rows of a define block

A define is plain if its name is a word and its value is a word or an integer.  The
row of a plain define has no marks but its `#`, and every step reads it back as the
same define.
-/

namespace GlslCompose

namespace Text

def IsWordOrInteger (value : Text) : Prop :=
  value.IsWord ∨
    ∃ digits, value = '-' :: digits ∧ digits ≠ [] ∧ ∀ char ∈ digits, isDecimalDigit char = true

private theorem IsWordOrInteger.mem {value : Text} (h : value.IsWordOrInteger) {char : Char}
    (hmem : char ∈ value) : continuesWord char = true ∨ char = '-' := by
  rcases h with ⟨_, hword⟩ | ⟨digits, rfl, _, hdigits⟩
  · exact .inl (hword char hmem)
  · rcases List.mem_cons.mp hmem with rfl | hmem
    · exact .inr rfl
    · exact .inl (continuesWord_of_isDecimalDigit (hdigits char hmem))

theorem IsWordOrInteger.exists_cons {value : Text} (h : value.IsWordOrInteger) :
    ∃ first rest, value = first :: rest ∧ isBlank first = false := by
  rcases h with hword | ⟨digits, rfl, _, _⟩
  · obtain ⟨first, rest, rfl, hfirst, _⟩ := hword.exists_cons
    exact ⟨first, rest, rfl, isBlank_of_continuesWord hfirst⟩
  · exact ⟨'-', digits, rfl, by decide⟩

theorem IsWordOrInteger.exists_concat {value : Text} (h : value.IsWordOrInteger) :
    ∃ init last, value = init ++ [last] ∧ continuesWord last = true := by
  rcases h with hword | ⟨digits, rfl, hne, hdigits⟩
  · exact hword.exists_concat
  · have hword : IsWord digits :=
      ⟨hne, fun char hmem => continuesWord_of_isDecimalDigit (hdigits char hmem)⟩
    obtain ⟨init, last, rfl, hlast⟩ := hword.exists_concat
    exact ⟨'-' :: init, last, rfl, hlast⟩

end Text

namespace Directive

structure IsSingle (key value : Text) : Prop where
  key : key.IsWord
  nonempty : value ≠ []
  value : ∀ char ∈ value, isBlank char = false

structure IsPlain (key value : Text) : Prop where
  key : key.IsWord
  value : value.IsWordOrInteger

def rowTail (key value : Text) : Text := "define ".toList ++ key ++ ' ' :: value

theorem defineLine_eq_cons (key value : Text) :
    defineLine key value = '#' :: rowTail key value := by
  unfold defineLine rowTail
  simp

def defineRows (defines : List (Text × Text)) : List Text :=
  defines.map fun entry => defineLine entry.1 entry.2

theorem ofRows_defineRows_cons (entry : Text × Text) (defines : List (Text × Text))
    (rest : Text) :
    Text.ofRows (defineRows (entry :: defines)) ++ rest =
      defineLine entry.1 entry.2 ++ '\n' :: (Text.ofRows (defineRows defines) ++ rest) := by
  rw [defineRows, List.map_cons, Text.ofRows_cons, List.append_assoc]
  rfl

theorem exists_mark_of_ne_nil {defines : List (Text × Text)} (hdefines : defines ≠ [])
    (rest : Text) : ∃ post, Text.ofRows (defineRows defines) ++ rest = '#' :: post := by
  cases defines with
  | nil => exact absurd rfl hdefines
  | cons entry defines =>
      rw [ofRows_defineRows_cons, defineLine_eq_cons]
      exact ⟨_, rfl⟩

namespace IsPlain

variable {key value : Text}

theorem isSingle (h : IsPlain key value) : IsSingle key value := by
  refine ⟨h.key, ?_, fun char hmem => ?_⟩
  · obtain ⟨first, rest, rfl, _⟩ := h.value.exists_cons
    simp
  · rcases h.value.mem hmem with hword | rfl
    · exact isBlank_of_continuesWord hword
    · decide

private theorem mem_rowTail (h : IsPlain key value) {char : Char}
    (hmem : char ∈ rowTail key value) :
    continuesWord char = true ∨ char = ' ' ∨ char = '-' := by
  unfold rowTail at hmem
  rw [List.mem_append, List.mem_append, List.mem_cons] at hmem
  rcases hmem with (hdefine | hkey) | hspace | hvalue
  · have hall : ∀ char ∈ "define ".toList, continuesWord char = true ∨ char = ' ' := by
      simp [continuesWord_iff]
    exact (hall char hdefine).imp_right .inl
  · exact .inl (h.key.2 char hkey)
  · exact .inr (.inl hspace)
  · exact (h.value.mem hvalue).imp_right .inr

theorem not_mem_rowTail (h : IsPlain key value) {char : Char}
    (hchar : continuesWord char = false ∧ char ≠ ' ' ∧ char ≠ '-') :
    char ∉ rowTail key value := by
  intro hmem
  rcases h.mem_rowTail hmem with hword | hspace | hsign
  · rw [hchar.1] at hword
    cases hword
  · exact hchar.2.1 hspace
  · exact hchar.2.2 hsign

theorem plain_rowTail (h : IsPlain key value) :
    ∀ char ∈ rowTail key value, char ≠ '\\' ∧ char ≠ '\n' := by
  intro char hmem
  constructor
  · rintro rfl
    exact h.not_mem_rowTail (by decide) hmem
  · rintro rfl
    exact h.not_mem_rowTail (by decide) hmem

theorem not_mem_defineLine (h : IsPlain key value) {char : Char} (hmark : char ≠ '#')
    (hchar : continuesWord char = false ∧ char ≠ ' ' ∧ char ≠ '-') :
    char ∉ defineLine key value := by
  rw [defineLine_eq_cons, List.mem_cons, not_or]
  exact ⟨hmark, h.not_mem_rowTail hchar⟩

theorem getLast?_defineLine (h : IsPlain key value) :
    ∃ last, (defineLine key value).getLast? = some last ∧ continuesWord last = true := by
  obtain ⟨init, last, hvalue, hlast⟩ := h.value.exists_concat
  refine ⟨last, List.getLast?_eq_some_iff.mpr ⟨"#define ".toList ++ key ++ ' ' :: init, ?_⟩, hlast⟩
  unfold defineLine
  simp [hvalue]

theorem isRow (h : IsPlain key value) : (defineLine key value).IsRow := by
  refine ⟨h.not_mem_defineLine (by decide) (by decide), ?_⟩
  obtain ⟨last, hlast, hword⟩ := h.getLast?_defineLine
  rw [hlast]
  rintro ⟨rfl⟩
  exact absurd hword (by decide)

end IsPlain

/-! ## Reading a row -/

namespace IsSingle

variable {key value : Text}

theorem exists_cons (h : IsSingle key value) :
    ∃ first rest, value = first :: rest ∧ isBlank first = false := by
  obtain ⟨first, rest, hvalue⟩ := List.exists_cons_of_ne_nil h.nonempty
  exact ⟨first, rest, hvalue, h.value first (by simp [hvalue])⟩

theorem exists_concat (h : IsSingle key value) :
    ∃ init last, value = init ++ [last] ∧ isBlank last = false := by
  obtain ⟨init, last, hvalue⟩ := List.eq_nil_or_concat value |>.resolve_left h.nonempty
  rw [List.concat_eq_append] at hvalue
  exact ⟨init, last, hvalue, h.value last (by simp [hvalue])⟩

theorem name?_eq (key value : Text) : name? (defineLine key value) = some defineName := by
  have hmark : afterMark? (defineLine key value) = some (rowTail key value) := by
    rw [defineLine_eq_cons, afterMark?, Text.trimStart_cons (by decide)]
    unfold rowTail
    simp
  have hname : (rowTail key value).takeWhile isAsciiLetter = defineName := by
    unfold rowTail defineName
    simp [isAsciiLetter_iff]
  unfold name?
  rw [hmark]
  simp only [hname]
  rfl

private theorem body_eq (h : IsSingle key value) :
    body defineName (defineLine key value) = key ++ ' ' :: value := by
  have hbody : body defineName (defineLine key value) = Text.trim (' ' :: (key ++ ' ' :: value)) :=
    rfl
  obtain ⟨first, rest, hkey, hfirst, _⟩ := h.key.exists_cons
  obtain ⟨init, last, hvalue, hlast⟩ := h.exists_concat
  have hstart : Text.trimStart (' ' :: (key ++ ' ' :: value)) = key ++ ' ' :: value := by
    rw [Text.trimStart_space, hkey, List.cons_append,
      Text.trimStart_cons (isBlank_of_continuesWord hfirst)]
  have hsplit : key ++ ' ' :: value = (key ++ ' ' :: init) ++ [last] := by simp [hvalue]
  rw [hbody, Text.trim, hstart, hsplit, Text.trimEnd_concat hlast]

theorem requestOfDirective_eq (h : IsSingle key value) :
    Include.requestOfDirective (defineLine key value) = .keep (defineLine key value) := by
  have hcomplete : Include.completeDefine (defineLine key value) = defineLine key value := by
    unfold Include.completeDefine
    rw [h.body_eq]
    exact if_pos (.inr (by simp [isBlank, isBlankCodePoint]))
  unfold Include.requestOfDirective
  rw [name?_eq]
  simp [hcomplete]

private theorem splitDefinition?_eq (h : IsSingle key value) :
    splitDefinition? (key ++ ' ' :: value) = some (key, value) := by
  obtain ⟨first, rest, hkey, hfirst, _⟩ := h.key.exists_cons
  obtain ⟨first', rest', hvalue, hfirst'⟩ := h.exists_cons
  obtain ⟨init, last, hvalue', hlast⟩ := h.exists_concat
  have hname : ∀ char ∈ key, (!(isBlank char || char == '(')) = true := by
    intro char hmem
    have hword := h.key.2 char hmem
    have hparen : char ≠ '(' := by
      rintro rfl
      exact absurd hword (by decide)
    simp [isBlank_of_continuesWord hword, hparen]
  have htake : (key ++ ' ' :: value).takeWhile (fun char => !(isBlank char || char == '(')) =
      key := by
    rw [List.takeWhile_append_of_pos hname]
    simp [isBlank, isBlankCodePoint]
  have hdrop : (key ++ ' ' :: value).dropWhile (fun char => !(isBlank char || char == '(')) =
      ' ' :: value := by
    rw [List.dropWhile_append_of_pos hname]
    simp [isBlank, isBlankCodePoint]
  have htrim : Text.trim (' ' :: value) = value := by
    have hstart : Text.trimStart (' ' :: value) = value := by
      rw [Text.trimStart_space, hvalue, Text.trimStart_cons hfirst']
    rw [Text.trim, hstart, hvalue', Text.trimEnd_concat hlast]
  unfold splitDefinition?
  simp only [htake, hdrop, htrim]
  rw [hkey]

theorem ofText_eq (h : IsSingle key value) :
    SourceLine.ofText (defineLine key value) = .define (some (key, value)) := by
  unfold SourceLine.ofText
  rw [name?_eq]
  simp only [SourceLine.ofDirective, h.body_eq, h.splitDefinition?_eq]
  rfl

end IsSingle

end Directive

end GlslCompose
