import GlslCompose.Proofs.Token.Words
import Mathlib.Data.List.Find

/-!
# Characters that part tokens

A character that joins no other stands alone, or in blank space, wherever it stands
outside comments and directives.  No lexeme goes on over it, so what is read in front
of it does not depend on what stands behind it.  The slash that opens a comment ends
lexemes in the same way.
-/

namespace GlslCompose

namespace TokenKind

def isPlain : TokenKind → Bool
  | ident | operator | builtin | keyword | integer | float => true
  | _ => false

theorem of_isPlain {kind : TokenKind} (h : kind.isPlain = true) :
    kind ≠ whitespace ∧ kind ≠ eof ∧ kind ≠ preprocessor ∧ kind.isComment = false := by
  cases kind <;> simp [isPlain, isComment] at h ⊢

end TokenKind

namespace Token

variable {version : GlslVersion} {stop : Char}

/-- Whether a lexeme of several characters may hold the character. -/
def joins (char : Char) : Bool :=
  continuesWord char || ".<>+-=!&|^*/%".toList.contains char

/-- Whether lexemes that have begun in front of the character end there. -/
def stops (char : Char) : Bool := !joins char || char == '/'

private theorem continuesWord_of_stops (hstop : stops stop = true) :
    continuesWord stop = false := by
  rw [stops, Bool.or_eq_true, beq_iff_eq] at hstop
  rcases hstop with hstop | rfl
  · simp only [joins, Bool.not_eq_true', Bool.or_eq_false_iff] at hstop
    exact hstop.1
  · decide

private theorem ne_of_stops (hstop : stops stop = true) (char : Char)
    (hchar : joins char = true ∧ char ≠ '/') : stop ≠ char := by
  rintro rfl
  simp [stops, hchar] at hstop

/-! ## Pieces of lexemes -/

def CutsBefore (stop : Char) (cut : Text → Text × Text) : Prop :=
  ∀ near far, cut (near ++ stop :: far) = ((cut near).1, (cut near).2 ++ stop :: far)

theorem cutsBefore_splitWhile {accepts : Char → Bool} (h : accepts stop = false) :
    CutsBefore stop (splitWhile accepts) := by
  intro near far
  induction near with
  | nil => simp [splitWhile, h]
  | cons char near ih =>
      by_cases hchar : accepts char
      · simp only [splitWhile, Prod.mk.injEq] at ih
        simp [splitWhile, hchar, ih]
      · simp [splitWhile, hchar]

private theorem cutsBefore_splitOptional {accepts : Char → Bool} (h : accepts stop = false) :
    CutsBefore stop (splitOptional accepts) := by
  intro near far
  cases near with
  | nil => simp [splitOptional, h]
  | cons char near => by_cases hchar : accepts char <;> simp [splitOptional, hchar]

private theorem isDecimalDigit_of_stops (hstop : stops stop = true) :
    isDecimalDigit stop = false := by
  by_contra h
  have hword := continuesWord_of_isDecimalDigit (Bool.not_eq_false _ ▸ h)
  rw [continuesWord_of_stops hstop] at hword
  cases hword

private theorem cutsBefore_splitExponent (hstop : stops stop = true) :
    CutsBefore stop splitExponent := by
  have hmark : CutsBefore stop (splitOptional fun char => char == 'e' || char == 'E') :=
    cutsBefore_splitOptional (by
      simp [ne_of_stops hstop 'e' (by decide),
        ne_of_stops hstop 'E' (by decide)])
  have hsign : CutsBefore stop (splitOptional fun char => char == '+' || char == '-') :=
    cutsBefore_splitOptional (by
      simp [ne_of_stops hstop '+' (by decide),
        ne_of_stops hstop '-' (by decide)])
  have hdigits := cutsBefore_splitWhile (isDecimalDigit_of_stops hstop)
  intro near far
  unfold splitExponent
  simp only [hmark near far, hsign _ far, hdigits _ far]
  split
  · rfl
  · rfl

private theorem cutsBefore_splitFraction (hstop : stops stop = true) (first : Char) :
    CutsBefore stop (splitFraction first) := by
  have hpoint : CutsBefore stop (splitOptional (· == '.')) :=
    cutsBefore_splitOptional (by simp [ne_of_stops hstop '.' (by decide)])
  have hdigits := cutsBefore_splitWhile (isDecimalDigit_of_stops hstop)
  intro near far
  unfold splitFraction
  simp only [hpoint near far, hdigits _ far]
  split
  · rfl
  · rfl

private theorem isHexDigit_of_stops (hstop : stops stop = true) : isHexDigit stop = false := by
  have hword : ∀ char, isHexDigit char = true → continuesWord char = true := by
    intro char
    simp [isHexDigit, continuesWord, isAsciiLetter, isDecimalDigit, Char.le_def,
      UInt32.le_iff_toNat_le]
    omega
  by_contra h
  have hcontinues := hword stop (Bool.not_eq_false _ ▸ h)
  rw [continuesWord_of_stops hstop] at hcontinues
  cases hcontinues

theorem prefix_append_stop {pattern : Text} (hpattern : stop ∉ pattern) (near far : Text) :
    pattern <+: near ++ stop :: far ↔ pattern <+: near := by
  induction pattern generalizing near with
  | nil => simp
  | cons char pattern ih =>
      rw [List.mem_cons, not_or] at hpattern
      cases near with
      | nil => simp [List.cons_prefix_cons, Ne.symm hpattern.1]
      | cons other near => rw [List.cons_append, List.cons_prefix_cons, List.cons_prefix_cons,
          ih hpattern.2]

private theorem cutsBefore_splitOperator (hstop : stops stop = true) (first : Char) :
    CutsBefore stop (splitOperator first) := by
  intro near far
  have hoperators : ∀ operator ∈ operators,
      operator.tail.all (fun char => joins char && char != '/') = true := by decide
  have hprefix : ∀ operator ∈ operators,
      operator.isPrefixOf (first :: (near ++ stop :: far)) =
        operator.isPrefixOf (first :: near) := by
    intro operator hmem
    have hnot : stop ∉ operator.tail := fun hstopMem => by
      have hjoins := List.all_eq_true.mp (hoperators operator hmem) stop hstopMem
      exact ne_of_stops hstop stop (by simpa using hjoins) rfl
    rw [Bool.eq_iff_iff, List.isPrefixOf_iff_prefix, List.isPrefixOf_iff_prefix]
    cases operator with
    | nil => simp
    | cons opening tail =>
        rw [List.tail_cons] at hnot
        rw [List.cons_prefix_cons, List.cons_prefix_cons, prefix_append_stop hnot]
  unfold splitOperator
  rw [List.find?_congr hprefix]
  split
  · rename_i operator hfind
    have hlength : operator.length - 1 ≤ near.length := by
      have hfound : operator.isPrefixOf (first :: near) = true :=
        List.find?_some (p := fun operator => List.isPrefixOf operator (first :: near)) hfind
      have hle := (List.isPrefixOf_iff_prefix.mp hfound).length_le
      rw [List.length_cons] at hle
      omega
    simp only [List.splitAt_eq, List.take_append_of_le_length hlength,
      List.drop_append_of_le_length hlength]
  · rfl

/-! ## Numbers -/

namespace Lexeme

def followedBy (lexeme : Lexeme) (far : Text) : Lexeme :=
  { lexeme with rest := lexeme.rest ++ far }

private theorem withSuffix_append_stop {accepts : Char → Bool} (h : accepts stop = false)
    (kind : TokenKind) (taken left far : Text) :
    (ofSplit kind (taken, left ++ stop :: far)).withSuffix accepts =
      ((ofSplit kind (taken, left)).withSuffix accepts).followedBy (stop :: far) := by
  simp only [withSuffix, ofSplit, followedBy, cutsBefore_splitOptional h left far]

end Lexeme

private theorem scanDecimal_append_stop (hstop : stops stop = true) (first : Char)
    (near far : Text) :
    scanDecimal first (near ++ stop :: far) =
      (scanDecimal first near).followedBy (stop :: far) := by
  have hinteger : isIntegerSuffix stop = false := by
    simp [isIntegerSuffix, ne_of_stops hstop 'u' (by decide),
      ne_of_stops hstop 'U' (by decide)]
  have hfloat : isFloatSuffix stop = false := by
    simp [isFloatSuffix, ne_of_stops hstop 'f' (by decide),
      ne_of_stops hstop 'F' (by decide)]
  unfold scanDecimal
  simp only [cutsBefore_splitWhile (isDecimalDigit_of_stops hstop) near far,
    cutsBefore_splitFraction hstop first _ far, cutsBefore_splitExponent hstop _ far]
  split
  · exact Lexeme.withSuffix_append_stop hfloat _ _ _ far
  · exact Lexeme.withSuffix_append_stop hinteger _ _ _ far

private theorem scanNumber_append_stop (hstop : stops stop = true) (first : Char)
    (near far : Text) :
    scanNumber first (near ++ stop :: far) =
      (scanNumber first near).followedBy (stop :: far) := by
  have hmark : CutsBefore stop (splitOptional fun char => char == 'x' || char == 'X') :=
    cutsBefore_splitOptional (by
      simp [ne_of_stops hstop 'x' (by decide),
        ne_of_stops hstop 'X' (by decide)])
  have hinteger : isIntegerSuffix stop = false := by
    simp [isIntegerSuffix, ne_of_stops hstop 'u' (by decide),
      ne_of_stops hstop 'U' (by decide)]
  unfold scanNumber
  simp only [hmark near far, cutsBefore_splitWhile (isHexDigit_of_stops hstop) _ far]
  split
  · exact Lexeme.withSuffix_append_stop hinteger _ _ _ far
  · exact scanDecimal_append_stop hstop first near far

/-! ## Lexemes -/

def OpensPlain (first : Char) (rest : Text) : Prop :=
  isBlank first = false ∧ first ≠ '#' ∧
    (first = '/' → rest.head? ≠ some '/' ∧ rest.head? ≠ some '*')

theorem OpensPlain.change {first : Char} {near far after : Text}
    (h : OpensPlain first (near ++ far)) (hafter : ∀ char ∈ after.head?, joins char = false) :
    OpensPlain first (near ++ after) := by
  refine ⟨h.1, h.2.1, fun hslash => ?_⟩
  cases near with
  | cons char near => exact h.2.2 hslash
  | nil =>
      refine ⟨fun hhead => ?_, fun hhead => ?_⟩
      · exact absurd (hafter '/' hhead) (by decide)
      · exact absurd (hafter '*' hhead) (by decide)

theorem OpensPlain.append {first : Char} {rest after : Text} (h : OpensPlain first rest)
    (hafter : ∀ char ∈ after.head?, joins char = false) : OpensPlain first (rest ++ after) := by
  rw [← List.append_nil rest] at h
  exact h.change hafter

theorem scan_of_opensPlain {first : Char} {rest : Text} (h : OpensPlain first rest) :
    scan version first rest =
      if opensNumber first rest then scanNumber first rest
      else if opensWord first then
        .ofSplit (wordKind version (first :: (splitWhile continuesWord rest).1))
          (splitWhile continuesWord rest)
      else .ofSplit .operator (splitOperator first rest) := by
  obtain ⟨hblank, hmark, hslash⟩ := h
  have hline : ¬(first = '/' ∧ rest.head? = some '/') := fun h => (hslash h.1).1 h.2
  have hcomment : ¬(first = '/' ∧ rest.head? = some '*') := fun h => (hslash h.1).2 h.2
  rw [scan, if_neg (by simp [hblank]), if_neg hline, if_neg hcomment, if_neg hmark]

private theorem opensNumber_append_stop (hstop : stops stop = true) (first : Char)
    (near far : Text) :
    opensNumber first (near ++ stop :: far) = opensNumber first near := by
  cases near with
  | nil => simp [opensNumber, isDecimalDigit_of_stops hstop]
  | cons char near => rfl

theorem scan_append_stop (hstop : stops stop = true) {first : Char} {near far : Text}
    (hplain : OpensPlain first (near ++ stop :: far)) :
    scan version first (near ++ stop :: far) =
      (scan version first near).followedBy (stop :: far) := by
  have hnear : OpensPlain first near := by
    refine ⟨hplain.1, hplain.2.1, fun hslash => ?_⟩
    cases near with
    | nil => simp
    | cons char near => exact hplain.2.2 hslash
  rw [scan_of_opensPlain hplain, scan_of_opensPlain hnear, opensNumber_append_stop hstop]
  split
  · exact scanNumber_append_stop hstop first near far
  split
  · rw [cutsBefore_splitWhile (continuesWord_of_stops hstop) near far]
    rfl
  · rw [cutsBefore_splitOperator hstop first near far]
    rfl

theorem not_mem_tail_of_stops (hstop : stops stop = true) {first : Char} {rest : Text}
    (hplain : OpensPlain first rest) : stop ∉ (scan version first rest).tail := by
  by_cases hmem : stop ∈ rest
  · obtain ⟨near, far, rfl, hnear⟩ := List.eq_append_cons_of_mem hmem
    rw [scan_append_stop hstop hplain]
    intro htail
    apply hnear
    rw [← scan_append version first near]
    exact List.mem_append_left _ htail
  · intro htail
    apply hmem
    rw [← scan_append version first rest]
    exact List.mem_append_left _ htail

theorem scan_of_not_joins {first : Char} (hjoins : joins first = false)
    (hblank : isBlank first = false) (hmark : first ≠ '#') (rest : Text) :
    scan version first rest = { kind := .operator, tail := [], rest } := by
  have hword : continuesWord first = false := by
    rw [joins, Bool.or_eq_false_iff] at hjoins
    exact hjoins.1
  have hslash : first ≠ '/' := by
    rintro rfl
    exact absurd hjoins (by decide)
  have hpoint : first ≠ '.' := by
    rintro rfl
    exact absurd hjoins (by decide)
  have hnumber : opensNumber first rest = false := by
    simp only [continuesWord, Bool.or_eq_false_iff] at hword
    simp [opensNumber, hword.1.2, hpoint]
  have hopens : opensWord first = false := by
    simp only [continuesWord, Bool.or_eq_false_iff] at hword
    simp [opensWord, hword.1.1, hword.2]
  rw [scan_of_opensPlain ⟨hblank, hmark, fun h => absurd h hslash⟩, hnumber, hopens]
  simp only [Bool.false_eq_true, if_false, splitOperator]
  split
  · rename_i operator hfind
    have hoperators : ∀ operator ∈ operators,
        operator.length = 1 ∨ operator.head?.any joins = true := by decide
    have hfound : operator.isPrefixOf (first :: rest) = true :=
      List.find?_some (p := fun operator => List.isPrefixOf operator (first :: rest)) hfind
    rcases hoperators operator (List.mem_of_find?_eq_some hfind) with hone | hhead
    · simp [hone, Lexeme.ofSplit]
    · exfalso
      cases operator with
      | nil => simp at hhead
      | cons opening tail =>
          obtain ⟨rfl, _⟩ := List.cons_prefix_cons.mp (List.isPrefixOf_iff_prefix.mp hfound)
          simp [hjoins] at hhead
  · rfl

/-! ## What a lexeme is -/

theorem scan_blank {first : Char} (hfirst : isBlank first = true) (rest : Text) :
    scan version first rest = .ofSplit .whitespace (splitWhile isBlank rest) := by
  rw [scan, if_pos hfirst]

@[simp] theorem scan_mark (rest : Text) :
    scan version '#' rest = .ofSplit .preprocessor (splitDirective rest) := rfl

@[simp] private theorem isPlain_scanNumber (first : Char) (rest : Text) :
    (scanNumber first rest).kind.isPlain = true := by
  unfold scanNumber scanDecimal
  dsimp only
  split
  · rfl
  split
  · rfl
  · rfl

theorem isPlain_scan {first : Char} {rest : Text} (h : OpensPlain first rest) :
    (scan version first rest).kind.isPlain = true := by
  rw [scan_of_opensPlain h]
  split
  · exact isPlain_scanNumber first rest
  split
  · simp only [Lexeme.ofSplit, wordKind]
    split
    · rfl
    split
    · rfl
    · rfl
  · rfl

theorem scan_opening (version : GlslVersion) (first : Char) (rest : Text) :
    isBlank first = true ∨
    (first = '/' ∧ (scan version first rest).kind.isComment = true) ∨
    first = '#' ∨ OpensPlain first rest := by
  by_cases hblank : isBlank first = true
  · exact .inl hblank
  by_cases hline : first = '/' ∧ rest.head? = some '/'
  · refine .inr (.inl ⟨hline.1, ?_⟩)
    rw [scan, if_neg hblank, if_pos hline]
    rfl
  by_cases hcomment : first = '/' ∧ rest.head? = some '*'
  · refine .inr (.inl ⟨hcomment.1, ?_⟩)
    rw [scan, if_neg hblank, if_neg hline, if_pos hcomment]
    rfl
  by_cases hmark : first = '#'
  · exact .inr (.inr (.inl hmark))
  · exact .inr (.inr (.inr ⟨by simpa using hblank, hmark, fun hslash =>
      ⟨fun h => hline ⟨hslash, h⟩, fun h => hcomment ⟨hslash, h⟩⟩⟩))

theorem eq_slash_of_isComment {first : Char} {rest : Text}
    (h : (scan version first rest).kind.isComment = true) : first = '/' := by
  rcases scan_opening version first rest with hblank | ⟨hslash, -⟩ | rfl | hplain
  · rw [scan_blank hblank] at h
    cases h
  · exact hslash
  · cases h
  · rw [(TokenKind.of_isPlain (isPlain_scan hplain)).2.2.2] at h
    cases h

theorem head?_of_isComment {rest : Text} (h : (scan version '/' rest).kind.isComment = true) :
    rest.head? = some '/' ∨ ∃ inside, rest = '*' :: inside := by
  by_cases hline : rest.head? = some '/'
  · exact .inl hline
  by_cases hcomment : rest.head? = some '*'
  · obtain ⟨inside, hinside⟩ := List.head?_eq_some_iff.mp hcomment
    exact .inr ⟨inside, hinside⟩
  · have hplain : OpensPlain '/' rest := ⟨by decide, by decide, fun _ => ⟨hline, hcomment⟩⟩
    rw [(TokenKind.of_isPlain (isPlain_scan hplain)).2.2.2] at h
    cases h

theorem scan_lineComment {rest : Text} (h : rest.head? = some '/') :
    scan version '/' rest = .ofSplit .lineComment (splitWhile (· != '\n') rest) := by
  rw [scan, if_neg (by decide), if_pos ⟨rfl, h⟩]

@[simp] theorem scan_blockComment (inside : Text) :
    scan version '/' ('*' :: inside) =
      .ofSplit .blockComment ('*' :: (splitBlockComment inside).1, (splitBlockComment inside).2) :=
  rfl

end Token

end GlslCompose
