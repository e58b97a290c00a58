import GlslCompose.Text.WordCharacter
import GlslCompose.Token.Lexer
import Mathlib.Data.List.Basic
import Mathlib.Data.List.TakeWhile

/-!
# Words and blanks

The characters of words are letters, digits and underscores.  They are never blank
and never marks, and trimming a text leaves what stands between its first and its
last character that is not blank.
-/

namespace GlslCompose

/-! ## Characters of words -/

theorem isAsciiLetter_iff (char : Char) :
    isAsciiLetter char = true ↔
      (97 ≤ char.toNat ∧ char.toNat ≤ 122) ∨ (65 ≤ char.toNat ∧ char.toNat ≤ 90) := by
  simp [isAsciiLetter, Char.le_def, UInt32.le_iff_toNat_le]

theorem isDecimalDigit_iff (char : Char) :
    isDecimalDigit char = true ↔ 48 ≤ char.toNat ∧ char.toNat ≤ 57 := by
  simp [isDecimalDigit, Char.le_def, UInt32.le_iff_toNat_le]

theorem continuesWord_iff (char : Char) :
    continuesWord char = true ↔
      (97 ≤ char.toNat ∧ char.toNat ≤ 122) ∨ (65 ≤ char.toNat ∧ char.toNat ≤ 90) ∨
      (48 ≤ char.toNat ∧ char.toNat ≤ 57) ∨ char.toNat = 95 := by
  have hunderscore : char = '_' ↔ char.toNat = 95 := by
    rw [← Char.toNat_inj]
    rfl
  simp only [continuesWord, Bool.or_eq_true, isAsciiLetter_iff, isDecimalDigit_iff,
    beq_iff_eq, hunderscore]
  omega

theorem isBlank_of_continuesWord {char : Char} (h : continuesWord char = true) :
    isBlank char = false := by
  have hrange := (continuesWord_iff char).mp h
  simp only [isBlank, isBlankCodePoint, Bool.or_eq_false_iff, Bool.and_eq_false_iff,
    decide_eq_false_iff_not, beq_eq_false_iff_ne]
  omega

theorem continuesWord_of_isDecimalDigit {char : Char} (h : isDecimalDigit char = true) :
    continuesWord char = true := by
  simp [continuesWord, h]

theorem isWordCharacter_of_continuesWord {char : Char} (h : continuesWord char = true) :
    isWordCharacter char = true := by
  have hrange := (continuesWord_iff char).mp h
  obtain ⟨more, hmore⟩ : ∃ more, wordCharacterRanges =
      (0x30, 0x39) :: (0x41, 0x5A) :: (0x5F, 0x5F) :: (0x61, 0x7A) :: more := ⟨_, rfl⟩
  rw [isWordCharacter, hmore]
  simp only [inRanges]
  grind

namespace Text

def IsWord (text : Text) : Prop := text ≠ [] ∧ ∀ char ∈ text, continuesWord char = true

private theorem isWord_iff {text : Text} :
    text.IsWord ↔ text ≠ [] ∧ text.all continuesWord = true := by
  rw [IsWord, List.all_eq_true]

instance (text : Text) : Decidable text.IsWord := decidable_of_iff _ isWord_iff.symm

theorem IsWord.exists_cons {word : Text} (h : word.IsWord) :
    ∃ first rest, word = first :: rest ∧ continuesWord first = true ∧
      ∀ char ∈ rest, continuesWord char = true := by
  obtain ⟨hne, hword⟩ := h
  cases word with
  | nil => exact absurd rfl hne
  | cons first rest =>
      exact ⟨first, rest, rfl, hword first List.mem_cons_self,
        fun char hmem => hword char (List.mem_cons_of_mem first hmem)⟩

theorem IsWord.exists_concat {word : Text} (h : word.IsWord) :
    ∃ init last, word = init ++ [last] ∧ continuesWord last = true := by
  obtain ⟨hne, hword⟩ := h
  rcases List.eq_nil_or_concat word with rfl | ⟨init, last, rfl⟩
  · exact absurd rfl hne
  · exact ⟨init, last, by simp, hword last (by simp)⟩

/-! ## Trimming -/

theorem trimStart_cons {char : Char} (hchar : isBlank char = false) (rest : Text) :
    trimStart (char :: rest) = char :: rest :=
  List.dropWhile_cons_of_neg (by simp [hchar])

@[simp] theorem trimStart_space (rest : Text) : trimStart (' ' :: rest) = trimStart rest :=
  List.dropWhile_cons_of_pos (by decide)

theorem trimEnd_concat {char : Char} (hchar : isBlank char = false) (init : Text) :
    trimEnd (init ++ [char]) = init ++ [char] := by
  simp [trimEnd, hchar]

theorem trimEnd_append {char : Char} (hchar : isBlank char = false) (init rest : Text) :
    trimEnd (init ++ char :: rest) = init ++ trimEnd (char :: rest) := by
  simp only [trimEnd, List.reverse_append, List.reverse_cons]
  rw [List.dropWhile_append]
  split
  · rename_i hempty
    simp only [List.isEmpty_iff] at hempty
    rw [List.dropWhile_append] at hempty
    split at hempty
    · simp [hchar] at hempty
    · simp at hempty
  · simp

theorem dropWhile_append_of_ne_nil {accepts : Char → Bool} {source : Text}
    (h : source.dropWhile accepts ≠ []) (rest : Text) :
    (source ++ rest).dropWhile accepts = source.dropWhile accepts ++ rest := by
  rw [List.dropWhile_append, if_neg (by simpa using h)]

theorem dropWhile_append_of_eq_nil {accepts : Char → Bool} {source : Text}
    (h : source.dropWhile accepts = []) (rest : Text) :
    (source ++ rest).dropWhile accepts = rest.dropWhile accepts := by
  rw [List.dropWhile_append, if_pos (by simpa using h)]

theorem exists_trimEnd_append (source : Text) :
    ∃ blanks, (∀ char ∈ blanks, isBlank char = true) ∧ source = source.trimEnd ++ blanks := by
  refine ⟨(source.reverse.takeWhile isBlank).reverse, fun char hmem => ?_, ?_⟩
  · exact List.mem_takeWhile_imp (List.mem_reverse.mp hmem)
  · rw [trimEnd, ← List.reverse_append, List.takeWhile_append_dropWhile, List.reverse_reverse]

private theorem trimEnd_append_blanks {blanks : Text}
    (hblanks : ∀ char ∈ blanks, isBlank char = true) (source : Text) :
    trimEnd (source ++ blanks) = trimEnd source := by
  unfold trimEnd
  rw [List.reverse_append, List.dropWhile_append_of_pos fun char hmem =>
    hblanks char (List.mem_reverse.mp hmem)]

theorem trim_append_blanks {blanks : Text}
    (hblanks : ∀ char ∈ blanks, isBlank char = true) (source : Text) :
    trim (source ++ blanks) = trim source := by
  unfold trim trimStart
  by_cases h : source.dropWhile isBlank = []
  · rw [dropWhile_append_of_eq_nil h, h, List.dropWhile_eq_nil_iff.mpr hblanks]
  · rw [dropWhile_append_of_ne_nil h, trimEnd_append_blanks hblanks]

theorem trim_cons_blank {char : Char} (h : isBlank char = true) (text : Text) :
    trim (char :: text) = trim text := by
  rw [trim, trim, trimStart, List.dropWhile_cons_of_pos h]
  rfl

theorem trim_cons_ne_nil {char : Char} (h : isBlank char = false) (rest : Text) :
    trim (char :: rest) ≠ [] := by
  intro hnil
  rw [trim, trimStart_cons h, trimEnd, List.reverse_eq_nil_iff, List.dropWhile_eq_nil_iff] at hnil
  have hblank := hnil char (List.mem_reverse.mpr List.mem_cons_self)
  rw [h] at hblank
  cases hblank

theorem trimEnd_append_of_eq {first : Text} (hfirst : first.trimEnd = first) (second : Text) :
    trimEnd (first ++ second) = first ++ trimEnd second := by
  by_cases h : second.reverse.dropWhile isBlank = []
  · have hsecond : trimEnd second = [] := congrArg List.reverse h
    have hblanks : ∀ char ∈ second, isBlank char = true := fun char hmem =>
      List.dropWhile_eq_nil_iff.mp h char (List.mem_reverse.mpr hmem)
    rw [trimEnd_append_blanks hblanks, hfirst, hsecond, List.append_nil]
  · rw [trimEnd, List.reverse_append, dropWhile_append_of_ne_nil h, List.reverse_append,
      List.reverse_reverse]
    rfl

end Text

end GlslCompose
