import GlslCompose.Condition.Pass
import GlslCompose.Proofs.Number.Digits
import GlslCompose.Proofs.Token.Delimited
import GlslCompose.Proofs.Token.Lexemes

/-!
# Numerals

A whole number is written in decimal digits, in hexadecimal digits behind `0x`, or in octal
digits behind a zero, and one letter `u` may follow.  The lexer and the reader of literals
find prefix and suffix each in its own way and agree: every numeral is one token, whose
value is the number as long as 64 signed bits hold it.
-/

namespace GlslCompose

/-! ## Values -/

open Token (isIntegerSuffix)

def IsSuffix (suffix : Text) : Prop := suffix = [] ∨ suffix = ['u'] ∨ suffix = ['U']

theorem IsSuffix.isIntegerSuffix {suffix : Text} (h : IsSuffix suffix) :
    ∀ char ∈ suffix, isIntegerSuffix char = true := by
  rcases h with rfl | rfl | rfl
  · nofun
  · exact List.forall_mem_singleton.mpr rfl
  · exact List.forall_mem_singleton.mpr rfl

def numeralValue? (numeral : Text) : Option Nat :=
  match numeral with
  | '0' :: mark :: rest =>
      if mark = 'x' ∨ mark = 'X' then Text.readNat? 16 rest else Text.readNat? 8 (mark :: rest)
  | _ => Text.readNat? 10 numeral

def int64? (value : Nat) : Option Int64 :=
  if value < 0x8000000000000000 then some (Int64.ofNat value) else none

private theorem trimSuffix_append {numeral suffix : Text}
    (hnumeral : ∀ char ∈ numeral, isIntegerSuffix char = false)
    (hsuffix : ∀ char ∈ suffix, isIntegerSuffix char = true) :
    ((numeral ++ suffix).reverse.dropWhile isIntegerSuffix).reverse = numeral := by
  have hdrop : numeral.reverse.dropWhile isIntegerSuffix = numeral.reverse := by
    cases hreverse : numeral.reverse with
    | nil => rfl
    | cons char rest =>
        have hmem : char ∈ numeral := List.mem_reverse.mp (hreverse ▸ List.mem_cons_self)
        rw [List.dropWhile_cons_of_neg (by simp [hnumeral char hmem])]
  rw [List.reverse_append, List.dropWhile_append_of_pos fun char hmem =>
    hsuffix char (List.mem_reverse.mp hmem), hdrop, List.reverse_reverse]

private theorem integerLiteral?_append {numeral suffix : Text}
    (hnumeral : ∀ char ∈ numeral, isIntegerSuffix char = false)
    (hsuffix : ∀ char ∈ suffix, isIntegerSuffix char = true) :
    integerLiteral? (numeral ++ suffix) = (numeralValue? numeral).bind int64? := by
  have htrim : ((numeral ++ suffix).reverse.dropWhile
      fun char => char == 'u' || char == 'U').reverse = numeral :=
    trimSuffix_append hnumeral hsuffix
  rw [integerLiteral?, htrim]
  rfl

inductive Numeral (number : Nat) : Text → Prop where
  | decimal : Numeral number (Text.ofNat number)
  | hexadecimal {mark : Char} {digits : Text} (hmark : mark = 'x' ∨ mark = 'X')
      (hdigits : digits.map Char.toLower = Nat.toDigits 16 number) :
      Numeral number ('0' :: mark :: digits)
  | octal : Numeral number ('0' :: Nat.toDigits 8 number)

inductive Malformed : Text → Prop where
  /-- The digits of an octal numeral are too large. -/
  | octal {digits : Text} (hdigits : ∀ char ∈ digits, isDecimalDigit char = true)
      (hne : digits ≠ []) (hlarge : '8' ∈ digits ∨ '9' ∈ digits) : Malformed ('0' :: digits)
  /-- A hexadecimal numeral has no digit. -/
  | hexadecimal {mark : Char} (hmark : mark = 'x' ∨ mark = 'X') : Malformed ['0', mark]

private theorem isIntegerSuffix_of_isHexDigit {char : Char} (h : isHexDigit char = true) :
    isIntegerSuffix char = false := by
  rw [← Bool.not_eq_true, isIntegerSuffix, Bool.or_eq_true, beq_iff_eq, beq_iff_eq]
  rintro (rfl | rfl)
  · exact absurd h (by decide)
  · exact absurd h (by decide)

private theorem isHexDigit_of_isDecimalDigit {char : Char} (h : isDecimalDigit char = true) :
    isHexDigit char = true := by
  rw [isHexDigit, h, Bool.true_or, Bool.true_or]

private theorem not_mark_of_isDecimalDigit {char : Char} (h : isDecimalDigit char = true) :
    ¬(char = 'x' ∨ char = 'X') := by
  rintro (rfl | rfl)
  · exact absurd h (by decide)
  · exact absurd h (by decide)

private theorem isIntegerSuffix_of_mark {char : Char} (h : char = 'x' ∨ char = 'X') :
    isIntegerSuffix char = false := by
  rcases h with rfl | rfl <;> decide

/-! ### Behind a zero -/

private theorem numeralValue?_mark {mark : Char} (hmark : mark = 'x' ∨ mark = 'X') (digits : Text) :
    numeralValue? ('0' :: mark :: digits) = Text.readNat? 16 digits := if_pos hmark

private theorem numeralValue?_octal {digits : Text} (hne : digits ≠ [])
    (hdigits : ∀ char ∈ digits, isDecimalDigit char = true) :
    numeralValue? ('0' :: digits) = Text.readNat? 8 digits := by
  obtain ⟨first, rest, rfl⟩ := List.exists_cons_of_ne_nil hne
  exact if_neg (not_mark_of_isDecimalDigit (hdigits first List.mem_cons_self))

private theorem readNat?_eight_of_large {digits : Text} (h : '8' ∈ digits ∨ '9' ∈ digits) :
    Text.readNat? 8 digits = none := by
  refine if_neg fun ⟨_, hall⟩ => ?_
  have hsmall := List.all_eq_true.mp hall
  rcases h with hmem | hmem
  · exact absurd (hsmall _ hmem) (by decide)
  · exact absurd (hsmall _ hmem) (by decide)

private theorem numeralValue?_of_numeral {number : Nat} {numeral : Text}
    (h : Numeral number numeral) :
    numeralValue? numeral = some number := by
  cases h with
  | decimal =>
      unfold numeralValue?
      split
      · rename_i mark rest heq
        exact absurd heq (Text.ofNat_ne_zero_cons number mark rest)
      · exact Text.readNat?_ofNat number
  | hexadecimal hmark hdigits =>
      rw [numeralValue?_mark hmark]
      exact Text.readNat?_of_toDigits (by decide) (Nat.le_refl 16) hdigits
  | octal =>
      rw [numeralValue?_octal Nat.toDigits_ne_nil fun char hmem =>
        Text.isDecimalDigit_of_mem_toDigits (by decide) (by decide) hmem]
      exact Text.readNat?_of_toDigits (by decide) (by decide)
        (Text.map_toLower_toDigits (by decide) (by decide))

private theorem numeralValue?_of_malformed {numeral : Text} (h : Malformed numeral) :
    numeralValue? numeral = none := by
  cases h with
  | octal hdigits hne hlarge => rw [numeralValue?_octal hne hdigits, readNat?_eight_of_large hlarge]
  | hexadecimal hmark =>
      rw [numeralValue?_mark hmark]
      rfl

inductive NumeralShape : Text → Prop where
  | digits {first : Char} {rest : Text}
      (hdigits : ∀ char ∈ first :: rest, isDecimalDigit char = true) : NumeralShape (first :: rest)
  | marked {mark : Char} {digits : Text} (hmark : mark = 'x' ∨ mark = 'X')
      (hdigits : ∀ char ∈ digits, isHexDigit char = true) : NumeralShape ('0' :: mark :: digits)

private theorem NumeralShape.of_digits {numeral : Text} (hne : numeral ≠ [])
    (hdigits : ∀ char ∈ numeral, isDecimalDigit char = true) : NumeralShape numeral := by
  obtain ⟨first, rest, rfl⟩ := List.exists_cons_of_ne_nil hne
  exact .digits hdigits

theorem Numeral.shape {number : Nat} {numeral : Text} (h : Numeral number numeral) :
    NumeralShape numeral := by
  cases h with
  | decimal =>
      exact .of_digits (Text.ofNat_ne_nil number) fun char => Text.isDecimalDigit_of_mem_ofNat
  | hexadecimal hmark hdigits =>
      have hhex := (Text.digits_of_toDigits (by decide) (Nat.le_refl 16) hdigits).1
      exact .marked hmark fun char hmem => (hhex char hmem).1
  | octal =>
      exact .digits (List.forall_mem_cons.mpr ⟨rfl, fun char hmem =>
        Text.isDecimalDigit_of_mem_toDigits (by decide) (by decide) hmem⟩)

theorem Malformed.shape {numeral : Text} (h : Malformed numeral) : NumeralShape numeral := by
  cases h with
  | octal hdigits => exact .digits (List.forall_mem_cons.mpr ⟨rfl, hdigits⟩)
  | hexadecimal hmark => exact .marked hmark nofun

private theorem NumeralShape.isIntegerSuffix_eq {numeral : Text} (h : NumeralShape numeral) :
    ∀ char ∈ numeral, isIntegerSuffix char = false := by
  cases h with
  | digits hdigits =>
      exact fun char hmem =>
        isIntegerSuffix_of_isHexDigit (isHexDigit_of_isDecimalDigit (hdigits char hmem))
  | marked hmark hdigits =>
      exact List.forall_mem_cons.mpr ⟨rfl, List.forall_mem_cons.mpr ⟨isIntegerSuffix_of_mark hmark,
        fun char hmem => isIntegerSuffix_of_isHexDigit (hdigits char hmem)⟩⟩

namespace Token

variable {version : GlslVersion} {suffix : Text}

private theorem splitWhile_append_suffix {accepts : Char → Bool} {taken : Text}
    (htaken : ∀ char ∈ taken, accepts char = true) (hsuffix : IsSuffix suffix)
    (hstop : accepts 'u' = false ∧ accepts 'U' = false) :
    splitWhile accepts (taken ++ suffix) = (taken, suffix) := by
  rw [splitWhile, List.takeWhile_append_of_pos htaken, List.dropWhile_append_of_pos htaken]
  rcases hsuffix with rfl | rfl | rfl <;> simp [hstop]

private theorem withSuffix_of_isSuffix (hsuffix : IsSuffix suffix) (taken : Text) :
    (Lexeme.ofSplit .integer (taken, suffix)).withSuffix isIntegerSuffix =
      { kind := .integer, tail := taken ++ suffix, rest := [] } := by
  rcases hsuffix with rfl | rfl | rfl <;> rfl

private theorem scanDecimal_append_suffix {first : Char} {rest : Text} (hpoint : first ≠ '.')
    (hdigits : ∀ char ∈ rest, isDecimalDigit char = true) (hsuffix : IsSuffix suffix) :
    scanDecimal first (rest ++ suffix) =
      { kind := .integer, tail := rest ++ suffix, rest := [] } := by
  have hsplit := splitWhile_append_suffix hdigits hsuffix (by decide)
  have hfraction : splitFraction first suffix = ([], suffix) := by
    rcases hsuffix with rfl | rfl | rfl <;> exact if_pos (.inr rfl)
  have hexponent : splitExponent suffix = ([], suffix) := by
    rcases hsuffix with rfl | rfl | rfl <;> rfl
  rw [scanDecimal_eq hsplit hfraction hexponent, if_neg (by simp [hpoint]),
    withSuffix_of_isSuffix hsuffix, List.append_nil, List.append_nil]

private theorem splitOptional_mark_eq_nil {digits : Text}
    (hdigits : ∀ char ∈ digits, isDecimalDigit char = true) (hsuffix : IsSuffix suffix) :
    (splitOptional (fun char => char == 'x' || char == 'X') (digits ++ suffix)).1 = [] := by
  cases digits with
  | nil => rcases hsuffix with rfl | rfl | rfl <;> rfl
  | cons char rest =>
      have hmark := not_mark_of_isDecimalDigit (hdigits char List.mem_cons_self)
      rw [List.cons_append, splitOptional, if_neg (by simpa using hmark)]

theorem isLexeme_integer {first : Char} {rest : Text} (h : NumeralShape (first :: rest))
    (hsuffix : IsSuffix suffix) : IsLexeme version .integer first (rest ++ suffix) := by
  have hfirst : isDecimalDigit first = true := by
    cases h with
    | digits hdigits => exact hdigits first List.mem_cons_self
    | marked => rfl
  have hplain := opensPlain_of_continuesWord (continuesWord_of_isDecimalDigit hfirst)
    (rest ++ suffix)
  have hnumber : opensNumber first (rest ++ suffix) = true := by
    rw [opensNumber, hfirst, Bool.true_or]
  refine ⟨hplain, ?_⟩
  rw [scan_of_opensNumber hplain hnumber]
  cases h with
  | digits hdigits =>
      have hpoint : first ≠ '.' := by
        rintro rfl
        exact absurd hfirst (by decide)
      have hmark : ¬(first = '0' ∧
          (splitOptional (fun char => char == 'x' || char == 'X') (rest ++ suffix)).1 ≠ []) := by
        rw [splitOptional_mark_eq_nil (List.forall_mem_of_forall_mem_cons hdigits) hsuffix]
        exact fun h => h.2 rfl
      rw [scanNumber_of_no_mark hmark]
      exact scanDecimal_append_suffix hpoint (List.forall_mem_of_forall_mem_cons hdigits) hsuffix
  | @marked mark digits hmark hdigits =>
      have hsplit : splitOptional (fun char => char == 'x' || char == 'X')
          (mark :: (digits ++ suffix)) = ([mark], digits ++ suffix) :=
        if_pos (by simpa using hmark)
      rw [List.cons_append, scanNumber_of_mark hsplit
        (splitWhile_append_suffix hdigits hsuffix (by decide)) ⟨rfl, List.cons_ne_nil _ _⟩,
        withSuffix_of_isSuffix hsuffix]
      rfl

private theorem tokenize_numeral {numeral : Text} (h : NumeralShape numeral)
    (hsuffix : IsSuffix suffix) :
    tokenize version (numeral ++ suffix) =
      [single .integer (numeral ++ suffix), single .eof []] := by
  cases numeral with
  | nil => cases h
  | cons first rest => exact (isLexeme_integer h hsuffix).tokenize_eq

end Token

/-! ## Evaluation -/

@[simp] private theorem Expr.parse_integer (literal : Text) :
    Expr.parse [Token.single .integer literal] =
      match integerLiteral? literal with
      | some value => .ok (.literal value)
      | none => .error (.invalidInteger literal) := by
  rw [parse, chain, operand, show (Token.single .integer literal).kind = .integer from rfl,
    show (Token.single .integer literal).text = literal from rfl]
  cases integerLiteral? literal with
  | none => rfl
  | some value =>
      simp only [bind, Except.bind, links]
      rfl

namespace SymbolTable

variable {version : GlslVersion} {numeral suffix : Text}

private theorem evaluate_append_suffix (symbols : SymbolTable) (h : NumeralShape numeral)
    (hsuffix : IsSuffix suffix) :
    symbols.evaluate version (numeral ++ suffix) =
      match (numeralValue? numeral).bind int64? with
      | some value => .ok value
      | none => .error (.invalidInteger (numeral ++ suffix)) := by
  have htokens : expressionTokens version (numeral ++ suffix) =
      [Token.single .integer (numeral ++ suffix)] := by
    rw [expressionTokens, Token.tokenize_numeral h hsuffix]
    rfl
  rw [evaluate, htokens, Expr.parse_integer,
    integerLiteral?_append h.isIntegerSuffix_eq hsuffix.isIntegerSuffix]
  cases (numeralValue? numeral).bind int64? <;> rfl

private theorem evaluate_of_numeral (symbols : SymbolTable) {number : Nat}
    (h : Numeral number numeral) (hsuffix : IsSuffix suffix) :
    symbols.evaluate version (numeral ++ suffix) =
      if number < 0x8000000000000000 then .ok (Int64.ofNat number)
      else .error (.invalidInteger (numeral ++ suffix)) := by
  rw [symbols.evaluate_append_suffix h.shape hsuffix, numeralValue?_of_numeral h,
    Option.bind_some, int64?]
  by_cases hfits : number < 0x8000000000000000
  · rw [if_pos hfits, if_pos hfits]
  · rw [if_neg hfits, if_neg hfits]

private theorem evaluate_of_malformed (symbols : SymbolTable) (h : Malformed numeral)
    (hsuffix : IsSuffix suffix) :
    symbols.evaluate version (numeral ++ suffix) =
      .error (.invalidInteger (numeral ++ suffix)) := by
  rw [symbols.evaluate_append_suffix h.shape hsuffix, numeralValue?_of_malformed h]
  rfl

end SymbolTable

namespace PassState

variable {version : GlslVersion} {state : PassState} {expression : Text}

private theorem condition_of_error {fault : ExpressionFault}
    (h : state.symbols.evaluate version expression = .error fault) (line : Nat) :
    state.condition version line expression = .error (.expression line fault) := by
  rw [condition, SymbolTable.condition, h]
  rfl

private theorem condition_of_ok {value : Int64}
    (h : state.symbols.evaluate version expression = .ok value) (line : Nat) :
    state.condition version line expression = .ok (value.toInt != 0) := by
  have hzero : (value != 0) = (value.toInt != 0) := by
    rw [Bool.eq_iff_iff, bne_iff_ne, bne_iff_ne]
    exact not_congr (Int64.toInt_inj.symm)
  rw [condition, SymbolTable.condition, h, ← hzero]
  rfl

/-- Whatever its base, the case of its letters and its suffix, a numeral is one integer token and
its value is the number, or an error behind the last number of 64 signed bits.  Digits of which
an octal numeral has none, and a prefix alone, are one token too, and always an error. -/
theorem condition_numeral (version : GlslVersion) (state : PassState) (line : Nat) :
    (∀ number numeral suffix, Numeral number numeral → IsSuffix suffix →
      Token.tokenize version (numeral ++ suffix) =
        [⟨.integer, numeral ++ suffix, 1⟩, ⟨.eof, [], 1⟩] ∧
      (number < 0x8000000000000000 →
        (∃ value : Int64, value.toInt = number ∧
          state.symbols.evaluate version (numeral ++ suffix) = .ok value) ∧
        state.condition version line (numeral ++ suffix) = .ok (number != 0)) ∧
      (0x8000000000000000 ≤ number →
        state.condition version line (numeral ++ suffix) =
          .error (.expression line (.invalidInteger (numeral ++ suffix))))) ∧
    ∀ numeral suffix, Malformed numeral → IsSuffix suffix →
      Token.tokenize version (numeral ++ suffix) =
        [⟨.integer, numeral ++ suffix, 1⟩, ⟨.eof, [], 1⟩] ∧
      state.condition version line (numeral ++ suffix) =
        .error (.expression line (.invalidInteger (numeral ++ suffix))) := by
  constructor
  · intro number numeral suffix hnumeral hsuffix
    have hvalue : state.symbols.evaluate version (numeral ++ suffix) = _ :=
      state.symbols.evaluate_of_numeral hnumeral hsuffix
    refine ⟨Token.tokenize_numeral hnumeral.shape hsuffix, fun hfits => ?_, fun hlarge => ?_⟩
    · rw [if_pos hfits] at hvalue
      have hnumber : (Int64.ofNat number).toInt = number := Int64.toInt_ofNat_of_lt hfits
      have hzero : ((number : Int) != 0) = (number != 0) := by
        rw [Bool.eq_iff_iff, bne_iff_ne, bne_iff_ne]
        exact not_congr Int.natCast_eq_zero
      refine ⟨⟨_, hnumber, hvalue⟩, ?_⟩
      rw [condition_of_ok hvalue, hnumber, hzero]
    · rw [if_neg (Nat.not_lt_of_le hlarge)] at hvalue
      exact condition_of_error hvalue line
  · intro numeral suffix hmalformed hsuffix
    exact ⟨Token.tokenize_numeral hmalformed.shape hsuffix,
      condition_of_error (state.symbols.evaluate_of_malformed hmalformed hsuffix) line⟩

theorem condition_numeral_cases :
    Numeral 255 "0xfF".toList ∧ Malformed "08".toList ∧
    (∃ value : Int64, value.toInt = 255 ∧
      SymbolTable.evaluate Table.empty .es100 "0xfFU".toList = .ok value) ∧
    (start Table.empty).condition .es100 3 "08".toList =
      .error (.expression 3 (.invalidInteger "08".toList)) := by
  have hmixed : Numeral 255 "0xfF".toList := .hexadecimal (.inl rfl) (by decide)
  have hlarge : Malformed "08".toList :=
    .octal (List.forall_mem_singleton.mpr rfl) nofun (.inl List.mem_cons_self)
  have h := condition_numeral .es100 (start Table.empty) 3
  exact ⟨hmixed, hlarge, ((h.1 255 _ ['U'] hmixed (.inr (.inr rfl))).2.1 (by decide)).1,
    (h.2 _ [] hlarge (.inl rfl)).2⟩

end PassState

end GlslCompose
