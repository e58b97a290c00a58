import GlslCompose.Proofs.Token.Comments

/-!
# Lexemes by themselves

A text that is one lexeme by itself is the same lexeme in front of a space, so a text in
which spaces part such lexemes is cut into exactly these again.
-/

namespace GlslCompose

/-! ## Lexemes -/

def Text.IsName (text : Text) : Prop :=
  text.IsWord ∧ ∀ char ∈ text.head?, opensWord char = true

instance (text : Text) : Decidable text.IsName :=
  decidable_of_iff (text.IsWord ∧ text.head?.all opensWord = true)
    (and_congr_right fun _ => Option.all_eq_true _ _)

namespace Token

variable {version : GlslVersion}

/-- The text is one lexeme of the kind, wherever a space stands behind it. -/
structure IsLexeme (version : GlslVersion) (kind : TokenKind) (first : Char) (rest : Text) :
    Prop where
  plain : OpensPlain first rest
  scan_eq : scan version first rest = { kind, tail := rest, rest := [] }

instance (first : Char) (rest : Text) : Decidable (OpensPlain first rest) :=
  inferInstanceAs (Decidable (_ ∧ _ ∧ (_ → _)))

theorem opensPlain_of_continuesWord {first : Char} (h : continuesWord first = true)
    (rest : Text) : OpensPlain first rest := by
  refine ⟨isBlank_of_continuesWord h, ?_, ?_⟩
  · rintro rfl
    exact absurd h (by decide)
  · rintro rfl
    exact absurd h (by decide)

private theorem opensNumber_of_opensWord {first : Char} (h : opensWord first = true) (rest : Text) :
    opensNumber first rest = false := by
  have hpoint : first ≠ '.' := by
    rintro rfl
    exact absurd h (by decide)
  have hdigit : isDecimalDigit first = false := by
    rw [opensWord, Bool.or_eq_true, isAsciiLetter_iff, beq_iff_eq] at h
    rw [← Bool.not_eq_true, isDecimalDigit_iff]
    rcases h with hletter | rfl
    · omega
    · decide
  simp [opensNumber, hdigit, hpoint]

private theorem splitWhile_all {accepts : Char → Bool} {source : Text}
    (h : ∀ char ∈ source, accepts char = true) : splitWhile accepts source = (source, []) := by
  rw [splitWhile, List.takeWhile_eq_self_iff.mpr h, List.dropWhile_eq_nil_iff.mpr h]

@[simp] theorem isWord_wordKind (word : Text) : (wordKind version word).isWord = true := by
  unfold wordKind
  split
  · rfl
  split
  · rfl
  · rfl

theorem isLexeme_name {first : Char} {rest : Text} (h : Text.IsName (first :: rest)) :
    IsLexeme version (wordKind version (first :: rest)) first rest := by
  obtain ⟨⟨-, hword⟩, hopens⟩ := h
  have hplain := opensPlain_of_continuesWord (hword first List.mem_cons_self) rest
  have hrest := splitWhile_all fun char hmem => hword char (List.mem_cons_of_mem first hmem)
  refine ⟨hplain, ?_⟩
  rw [scan_of_opensPlain hplain, opensNumber_of_opensWord (hopens first rfl), hopens first rfl,
    hrest]
  rfl

/-! ## Texts with spaces between their lexemes -/

def single (kind : TokenKind) (text : Text) : Token := { kind, text, line := 1 }

namespace IsLexeme

variable {kind : TokenKind} {first : Char} {rest : Text}

private theorem lineFeeds_eq (h : IsLexeme version kind first rest) :
    Text.lineFeeds (first :: rest) = 0 := by
  have hfirst : '\n' ≠ first := by
    rintro rfl
    exact absurd h.plain.1 (by decide)
  have hrest : '\n' ∉ rest := by
    have htail : '\n' ∉ (scan version first rest).tail :=
      not_mem_tail_of_stops (by decide) h.plain
    rwa [h.scan_eq] at htail
  exact List.count_eq_zero.mpr (List.not_mem_cons_of_ne_of_not_mem hfirst hrest)

theorem tokenize_append_stop {stop : Char} (h : IsLexeme version kind first rest)
    (hstop : joins stop = false) (more : Text) :
    tokenize version (first :: (rest ++ stop :: more)) =
      single kind (first :: rest) :: tokenize version (stop :: more) := by
  have hplain : OpensPlain first (rest ++ stop :: more) :=
    h.plain.append (by rintro _ ⟨⟩; exact hstop)
  have hstops : stops stop = true := by simp [stops, hstop]
  rw [tokenize, tokensFrom, scan_append_stop hstops hplain, h.scan_eq]
  simp only [Lexeme.followedBy, List.nil_append, h.lineFeeds_eq]
  rfl

theorem tokenize_eq (h : IsLexeme version kind first rest) :
    tokenize version (first :: rest) =
      [single kind (first :: rest), { kind := .eof, text := [], line := 1 }] := by
  rw [tokenize, tokensFrom, h.scan_eq]
  simp only [h.lineFeeds_eq, tokensFrom]
  rfl

end IsLexeme

def ofText (version : GlslVersion) (text : Text) : Token :=
  match text with
  | [] => single .eof []
  | first :: rest => single (scan version first rest).kind (first :: rest)

def HasLexeme (version : GlslVersion) (kind : TokenKind) (text : Text) : Prop :=
  ∃ first rest, text = first :: rest ∧ IsLexeme version kind first rest

theorem HasLexeme.ofText_eq {kind : TokenKind} {text : Text} (h : HasLexeme version kind text) :
    ofText version text = single kind text := by
  obtain ⟨first, rest, rfl, hlexeme⟩ := h
  rw [ofText, hlexeme.scan_eq]

theorem HasLexeme.isSignificant {kind : TokenKind} {text : Text}
    (h : HasLexeme version kind text) : (single kind text).isSignificant = true := by
  obtain ⟨first, rest, rfl, hlexeme⟩ := h
  have hplain : (scan version first rest).kind.isPlain = true := isPlain_scan hlexeme.plain
  rw [hlexeme.scan_eq] at hplain
  obtain ⟨hspace, hend, -, hcomment⟩ := TokenKind.of_isPlain hplain
  rw [isSignificant_eq]
  simp [single, hspace, hend, hcomment]

end Token

end GlslCompose
