import GlslCompose.Proofs.Token.Partition

/-!
# Tokens that delimit themselves

Some lexemes are found by a look at what follows them: the digit behind an exponent's mark
or a point, the longest operator, the slash or star that opens a comment, the row on which
a directive goes on.  Once it is found, a lexeme does not need what follows it.  If the end
of the text is missing from some place behind the lexeme on, the same lexeme is read, so
any run of tokens is read again from its own text, and a token from its own text alone.
-/

namespace GlslCompose.Token

variable {version : GlslVersion} {first : Char} {source near far : Text}

/-! ## Cuts -/

/-- A cut takes the same if the end of what it leaves is missing. -/
def Truncates (cut : Text → Text × Text) : Prop :=
  ∀ source near far, (cut source).2 = near ++ far →
    cut ((cut source).1 ++ near) = ((cut source).1, near)

private theorem Truncates.cut_eq {cut : Text → Text × Text} (h : Truncates cut) {taken left : Text}
    (hcut : cut source = (taken, left)) (hleft : left = near ++ far) :
    cut (taken ++ near) = (taken, near) := by
  have hshort := h source near far (by rw [hcut]; exact hleft)
  rwa [hcut] at hshort

private theorem eq_append_of_splitWhile {accepts : Char → Bool} {taken left : Text}
    (h : splitWhile accepts source = (taken, left)) : source = taken ++ left := by
  rw [← splitWhile_append accepts source, h]

private theorem eq_append_of_splitOptional {accepts : Char → Bool} {taken left : Text}
    (h : splitOptional accepts source = (taken, left)) : source = taken ++ left := by
  rw [← splitOptional_append accepts source, h]

private theorem head?_of_append {char : Char} (h : (near ++ far).head? ≠ some char) :
    near.head? ≠ some char := by
  cases near with
  | nil => nofun
  | cons other near => exact h

private theorem truncates_splitWhile (accepts : Char → Bool) : Truncates (splitWhile accepts) := by
  intro source near far h
  have htaken : ∀ char ∈ source.takeWhile accepts, accepts char = true := fun _ hmem =>
    List.mem_takeWhile_imp hmem
  have hnear : near.takeWhile accepts = [] ∧ near.dropWhile accepts = near := by
    cases near with
    | nil => exact ⟨rfl, rfl⟩
    | cons char near =>
        have hstop : accepts char = false := by
          have hnot := List.head?_dropWhile_not accepts source
          have hleft : source.dropWhile accepts = char :: (near ++ far) := h
          rw [hleft] at hnot
          simpa using hnot
        simp [hstop]
  rw [splitWhile, splitWhile, List.takeWhile_append_of_pos htaken,
    List.dropWhile_append_of_pos htaken, hnear.1, hnear.2, List.append_nil]

private theorem truncates_splitOptional (accepts : Char → Bool) :
    Truncates (splitOptional accepts) := by
  intro source near far h
  cases source with
  | nil =>
      obtain ⟨rfl, -⟩ := List.append_eq_nil_iff.mp h.symm
      rfl
  | cons char rest =>
      by_cases haccepts : accepts char = true
      · simp [splitOptional, haccepts]
      · rw [splitOptional, if_neg haccepts] at h ⊢
        cases near with
        | nil => rfl
        | cons other near =>
            obtain ⟨rfl, -⟩ := List.cons.inj h
            rw [List.nil_append, splitOptional, if_neg haccepts]

private theorem truncates_splitBlockComment : Truncates splitBlockComment := by
  intro source near far h
  fun_induction splitBlockComment source with
  | case1 rest => rfl
  | case2 char rest hclose ih =>
      have hopen : char = '*' → ((splitBlockComment rest).1 ++ near).head? ≠ some '/' := by
        rintro rfl
        have hwhole : ((splitBlockComment rest).1 ++ near ++ far).head? ≠ some '/' := by
          rw [List.append_assoc, ← h, splitBlockComment_append]
          intro hhead
          obtain ⟨after, rfl⟩ := List.head?_eq_some_iff.mp hhead
          exact hclose after rfl rfl
        exact head?_of_append hwhole
      rw [List.cons_append, splitBlockComment_cons hopen, ih h]
  | case3 =>
      obtain ⟨rfl, -⟩ := List.append_eq_nil_iff.mp h.symm
      rfl

private theorem truncates_splitDirective : Truncates splitDirective := by
  intro source near far h
  fun_induction splitDirective source with
  | case1 rest ih => rw [List.cons_append, List.cons_append, splitDirective, ih h]
  | case2 rest ih =>
      rw [List.cons_append, List.cons_append, List.cons_append, splitDirective, ih h]
  | case3 rest =>
      cases near with
      | nil => rfl
      | cons char near =>
          obtain ⟨rfl, -⟩ := List.cons.inj h
          rfl
  | case4 char rest hslash hreturn hfeed ih =>
      -- A joint that the shorter text has, the whole text has as well.
      have hwhole : ((splitDirective rest).1 ++ near) ++ far = rest := by
        rw [List.append_assoc, ← h, splitDirective_append]
      rw [List.cons_append, splitDirective]
      · rw [ih h]
      · intro more hchar hmore
        rw [hmore] at hwhole
        exact hslash (more ++ far) hchar hwhole.symm
      · intro more hchar hmore
        rw [hmore] at hwhole
        exact hreturn (more ++ far) hchar hwhole.symm
      · exact hfeed
  | case5 =>
      obtain ⟨rfl, -⟩ := List.append_eq_nil_iff.mp h.symm
      rfl

private theorem find?_operators_truncate {taken : Text} (hsource : taken ++ near <+: source)
    (hfound : ∀ operator,
      operators.find? (fun operator => operator.isPrefixOf (first :: source)) = some operator →
        operator.length ≤ taken.length + 1) :
    operators.find? (fun operator => operator.isPrefixOf (first :: (taken ++ near))) =
      operators.find? (fun operator => operator.isPrefixOf (first :: source)) := by
  have hwhole : first :: (taken ++ near) <+: first :: source :=
    List.cons_prefix_cons.mpr ⟨rfl, hsource⟩
  have hstarts : ∀ operator : Text, operator.isPrefixOf (first :: (taken ++ near)) = true →
      operator.isPrefixOf (first :: source) = true := fun operator hopens =>
    List.isPrefixOf_iff_prefix.mpr ((List.isPrefixOf_iff_prefix.mp hopens).trans hwhole)
  cases hfind : operators.find? fun operator => operator.isPrefixOf (first :: source) with
  | none =>
      rw [List.find?_eq_none] at hfind ⊢
      exact fun operator hmem hopens => hfind operator hmem (hstarts operator hopens)
  | some operator =>
      obtain ⟨hopens, before, after, hoperators, hbefore⟩ :=
        List.find?_eq_some_iff_append.mp hfind
      refine List.find?_eq_some_iff_append.mpr ⟨?_, before, after, hoperators, ?_⟩
      · refine List.isPrefixOf_iff_prefix.mpr
          (List.prefix_of_prefix_length_le (List.isPrefixOf_iff_prefix.mp hopens) hwhole ?_)
        have hlength := hfound operator hfind
        simp only [List.length_cons, List.length_append]
        omega
      · intro other hmem
        have hother := hbefore other hmem
        rw [Bool.not_eq_true'] at hother ⊢
        exact Bool.eq_false_iff.mpr fun hshort =>
          Bool.eq_false_iff.mp hother (hstarts other hshort)

private theorem truncates_splitOperator (first : Char) : Truncates (splitOperator first) := by
  intro source near far h
  have hsource : (splitOperator first source).1 ++ near <+: source := by
    refine ⟨far, ?_⟩
    rw [List.append_assoc, ← h, splitOperator_append]
  have hlength : ∀ operator,
      operators.find? (fun operator => operator.isPrefixOf (first :: source)) = some operator →
        (splitOperator first source).1 = source.take (operator.length - 1) ∧
          operator.length - 1 ≤ source.length := by
    intro operator hfind
    have hopens : operator.isPrefixOf (first :: source) = true :=
      List.find?_some (p := fun operator => List.isPrefixOf operator (first :: source)) hfind
    have hle := (List.isPrefixOf_iff_prefix.mp hopens).length_le
    rw [List.length_cons] at hle
    refine ⟨?_, by omega⟩
    simp only [splitOperator, hfind, List.splitAt_eq]
  have hfind := find?_operators_truncate hsource fun operator hfound => by
    obtain ⟨htaken, hle⟩ := hlength operator hfound
    rw [htaken, List.length_take_of_le hle]
    omega
  generalize htaken : (splitOperator first source).1 = taken at hlength hfind ⊢
  rw [splitOperator, hfind]
  split
  · rename_i operator hfound
    obtain ⟨rfl, hle⟩ := hlength operator hfound
    have hcount := List.length_take_of_le hle
    rw [List.splitAt_eq, List.take_left' hcount, List.drop_left' hcount]
  · rename_i hnone
    have hempty : (splitOperator first source).1 = [] := by rw [splitOperator, hnone]
    rw [← htaken, hempty]
    rfl

/-! ## Numbers -/

private theorem takeWhile_eq_nil_of_append {accepts : Char → Bool}
    (h : (near ++ far).takeWhile accepts = []) : near.takeWhile accepts = [] := by
  cases near with
  | nil => rfl
  | cons char near =>
      by_cases haccepts : accepts char = true
      · rw [List.cons_append, List.takeWhile_cons_of_pos haccepts] at h
        cases h
      · rw [List.takeWhile_cons_of_neg haccepts]

private theorem splitOptional_append_of_ne_nil (accepts : Char → Bool) (hne : near ≠ [])
    (far : Text) :
    splitOptional accepts (near ++ far) =
      ((splitOptional accepts near).1, (splitOptional accepts near).2 ++ far) := by
  obtain ⟨char, rest, rfl⟩ := List.exists_cons_of_ne_nil hne
  by_cases haccepts : accepts char = true <;> simp [splitOptional, haccepts]

section Exponent

variable {mark sign digits afterMark afterSign left : Text}

def exponentMark : Text → Text × Text := splitOptional fun char => char == 'e' || char == 'E'

def exponentSign : Text → Text × Text := splitOptional fun char => char == '+' || char == '-'

private theorem splitExponent_of_ne_nil (hmark : exponentMark source = (mark, afterMark))
    (hsign : exponentSign afterMark = (sign, afterSign))
    (hdigits : splitWhile isDecimalDigit afterSign = (digits, left))
    (hne : ¬(mark = [] ∨ digits = [])) : splitExponent source = (mark ++ sign ++ digits, left) := by
  rw [exponentMark] at hmark
  rw [exponentSign] at hsign
  simp only [splitExponent, hmark, hsign, hdigits]
  rw [if_neg (by simpa using hne)]

private theorem splitExponent_of_eq_nil (hmark : exponentMark source = (mark, afterMark))
    (hsign : exponentSign afterMark = (sign, afterSign))
    (hdigits : splitWhile isDecimalDigit afterSign = (digits, left))
    (hnil : mark = [] ∨ digits = []) : splitExponent source = ([], source) := by
  rw [exponentMark] at hmark
  rw [exponentSign] at hsign
  simp only [splitExponent, hmark, hsign, hdigits]
  rw [if_pos (by simpa using hnil)]

private theorem exists_exponent (source : Text) : ∃ mark sign digits afterMark afterSign left,
    exponentMark source = (mark, afterMark) ∧ exponentSign afterMark = (sign, afterSign) ∧
      splitWhile isDecimalDigit afterSign = (digits, left) :=
  ⟨_, _, _, _, _, _, rfl, rfl, rfl⟩

private theorem splitExponent_of_append (h : splitExponent (near ++ far) = ([], near ++ far)) :
    splitExponent near = ([], near) := by
  obtain ⟨mark, sign, digits, afterMark, afterSign, left, hmark, hsign, hdigits⟩ :=
    exists_exponent near
  by_cases hnil : mark = [] ∨ digits = []
  · exact splitExponent_of_eq_nil hmark hsign hdigits hnil
  · exfalso
    obtain ⟨hmarkNe, hdigitsNe⟩ := not_or.mp hnil
    have hnear : near ≠ [] := by
      rintro rfl
      exact hmarkNe (congrArg Prod.fst hmark).symm
    have hafter : afterMark ≠ [] := by
      rintro rfl
      cases hsign
      exact hdigitsNe (congrArg Prod.fst hdigits).symm
    have hmark' : exponentMark (near ++ far) = (mark, afterMark ++ far) := by
      rw [exponentMark, splitOptional_append_of_ne_nil _ hnear, ← exponentMark, hmark]
    have hsign' : exponentSign (afterMark ++ far) = (sign, afterSign ++ far) := by
      rw [exponentSign, splitOptional_append_of_ne_nil _ hafter, ← exponentSign, hsign]
    have hmore : (afterSign ++ far).takeWhile isDecimalDigit ≠ [] := fun heq =>
      hdigitsNe ((congrArg Prod.fst hdigits).symm.trans (takeWhile_eq_nil_of_append heq))
    rw [splitExponent_of_ne_nil hmark' hsign' rfl (not_or.mpr ⟨hmarkNe, hmore⟩)] at h
    have hempty := congrArg Prod.fst h
    simp [hmarkNe] at hempty

private theorem truncates_splitExponent : Truncates splitExponent := by
  intro source near far h
  obtain ⟨mark, sign, digits, afterMark, afterSign, left, hmark, hsign, hdigits⟩ :=
    exists_exponent source
  by_cases hnil : mark = [] ∨ digits = []
  · have hnone := splitExponent_of_eq_nil hmark hsign hdigits hnil
    rw [hnone] at h ⊢
    subst h
    exact splitExponent_of_append hnone
  · rw [splitExponent_of_ne_nil hmark hsign hdigits hnil] at h ⊢
    obtain rfl : left = near ++ far := h
    obtain rfl := eq_append_of_splitWhile hdigits
    obtain rfl := eq_append_of_splitOptional hsign
    have hdigits' := (truncates_splitWhile _).cut_eq hdigits rfl
    have hsign' : exponentSign (sign ++ (digits ++ near)) = (sign, digits ++ near) :=
      (truncates_splitOptional _).cut_eq hsign (List.append_assoc digits near far).symm
    have hwhole : sign ++ (digits ++ (near ++ far)) = sign ++ (digits ++ near) ++ far := by
      simp only [List.append_assoc]
    have hmark' : exponentMark (mark ++ (sign ++ (digits ++ near))) =
        (mark, sign ++ (digits ++ near)) := (truncates_splitOptional _).cut_eq hmark hwhole
    rw [← splitExponent_of_ne_nil hmark' hsign' hdigits' hnil]
    simp only [List.append_assoc]

end Exponent

private theorem splitFraction_of_ne_nil {point digits afterPoint left : Text}
    (hpoint : splitOptional (· == '.') source = (point, afterPoint))
    (hdigits : splitWhile isDecimalDigit afterPoint = (digits, left))
    (hne : ¬(first = '.' ∨ point = [])) : splitFraction first source = (point ++ digits, left) := by
  simp only [splitFraction, hpoint, hdigits]
  exact if_neg hne

private theorem splitFraction_of_eq_nil {point afterPoint : Text}
    (hpoint : splitOptional (· == '.') source = (point, afterPoint))
    (hnil : first = '.' ∨ point = []) : splitFraction first source = ([], source) := by
  simp only [splitFraction, hpoint]
  exact if_pos hnil

private theorem truncates_splitFraction (first : Char) : Truncates (splitFraction first) := by
  intro source near far h
  obtain ⟨point, afterPoint, hpoint⟩ :
      ∃ point afterPoint, splitOptional (· == '.') source = (point, afterPoint) := ⟨_, _, rfl⟩
  obtain ⟨digits, left, hdigits⟩ :
      ∃ digits left, splitWhile isDecimalDigit afterPoint = (digits, left) := ⟨_, _, rfl⟩
  by_cases hnil : first = '.' ∨ point = []
  · rw [splitFraction_of_eq_nil hpoint hnil] at h ⊢
    obtain rfl : source = near ++ far := h
    rw [List.nil_append]
    by_cases hnear : near = []
    · subst hnear
      exact splitFraction_of_eq_nil rfl (.inr rfl)
    · rw [splitOptional_append_of_ne_nil _ hnear] at hpoint
      exact splitFraction_of_eq_nil rfl (hnil.imp_right (congrArg Prod.fst hpoint).trans)
  · rw [splitFraction_of_ne_nil hpoint hdigits hnil] at h ⊢
    obtain rfl : left = near ++ far := h
    obtain rfl := eq_append_of_splitWhile hdigits
    have hdigits' := (truncates_splitWhile _).cut_eq hdigits rfl
    have hpoint' : splitOptional (· == '.') (point ++ (digits ++ near)) = (point, digits ++ near) :=
      (truncates_splitOptional _).cut_eq hpoint (List.append_assoc digits near far).symm
    rw [← splitFraction_of_ne_nil hpoint' hdigits' hnil, List.append_assoc]

private theorem eq_append_of_splitFraction {taken left : Text}
    (h : splitFraction first source = (taken, left)) : source = taken ++ left := by
  rw [← splitFraction_append first source, h]

private theorem eq_append_of_splitExponent {taken left : Text}
    (h : splitExponent source = (taken, left)) : source = taken ++ left := by
  rw [← splitExponent_append source, h]

/-! ## Lexemes -/

def TruncatesLexeme (read : Text → Lexeme) : Prop :=
  ∀ source near far, (read source).rest = near ++ far →
    read ((read source).tail ++ near) = { read source with rest := near }

private theorem exists_withSuffix_truncate {accepts : Char → Bool} {kind : TokenKind}
    {taken left : Text}
    (h : ((Lexeme.ofSplit kind (taken, left)).withSuffix accepts).rest = near ++ far) :
    ∃ last, left = last ++ far ∧
      ((Lexeme.ofSplit kind (taken, left)).withSuffix accepts).tail ++ near = taken ++ last ∧
      (Lexeme.ofSplit kind (taken, last)).withSuffix accepts =
        { (Lexeme.ofSplit kind (taken, left)).withSuffix accepts with rest := near } := by
  obtain ⟨suffix, behind, hsuffix⟩ :
      ∃ suffix behind, splitOptional accepts left = (suffix, behind) := ⟨_, _, rfl⟩
  simp only [Lexeme.withSuffix, Lexeme.ofSplit, hsuffix] at h ⊢
  obtain rfl := eq_append_of_splitOptional hsuffix
  refine ⟨suffix ++ near, by rw [h, List.append_assoc], List.append_assoc _ _ _, ?_⟩
  rw [(truncates_splitOptional accepts).cut_eq hsuffix h]

theorem scanDecimal_eq {digits fraction exponent afterDigits afterFraction left : Text}
    (hdigits : splitWhile isDecimalDigit source = (digits, afterDigits))
    (hfraction : splitFraction first afterDigits = (fraction, afterFraction))
    (hexponent : splitExponent afterFraction = (exponent, left)) :
    scanDecimal first source =
      if first = '.' ∨ fraction ≠ [] ∨ exponent ≠ [] then
        (Lexeme.ofSplit .float (digits ++ fraction ++ exponent, left)).withSuffix isFloatSuffix
      else
        (Lexeme.ofSplit .integer (digits ++ fraction ++ exponent, left)).withSuffix
          isIntegerSuffix := by
  simp only [scanDecimal, hdigits, hfraction, hexponent]

private theorem truncates_scanDecimal (first : Char) : TruncatesLexeme (scanDecimal first) := by
  intro source near far h
  obtain ⟨digits, afterDigits, hdigits⟩ :
      ∃ digits left, splitWhile isDecimalDigit source = (digits, left) := ⟨_, _, rfl⟩
  obtain ⟨fraction, afterFraction, hfraction⟩ :
      ∃ fraction left, splitFraction first afterDigits = (fraction, left) := ⟨_, _, rfl⟩
  obtain ⟨exponent, left, hexponent⟩ :
      ∃ exponent left, splitExponent afterFraction = (exponent, left) := ⟨_, _, rfl⟩
  have hsource := scanDecimal_eq hdigits hfraction hexponent
  obtain rfl := eq_append_of_splitFraction hfraction
  obtain rfl := eq_append_of_splitExponent hexponent
  have hshort : ∀ last, left = last ++ far →
      splitWhile isDecimalDigit (digits ++ (fraction ++ (exponent ++ last))) =
          (digits, fraction ++ (exponent ++ last)) ∧
        splitFraction first (fraction ++ (exponent ++ last)) = (fraction, exponent ++ last) ∧
        splitExponent (exponent ++ last) = (exponent, last) := by
    rintro last rfl
    have hafter : exponent ++ (last ++ far) = exponent ++ last ++ far :=
      (List.append_assoc _ _ _).symm
    have hwhole : fraction ++ (exponent ++ (last ++ far)) =
        fraction ++ (exponent ++ last) ++ far := by
      simp only [List.append_assoc]
    exact ⟨(truncates_splitWhile _).cut_eq hdigits hwhole,
      (truncates_splitFraction first).cut_eq hfraction hafter,
      truncates_splitExponent.cut_eq hexponent rfl⟩
  rw [hsource] at h ⊢
  by_cases hfloat : first = '.' ∨ fraction ≠ [] ∨ exponent ≠ []
  · rw [if_pos hfloat] at h ⊢
    obtain ⟨last, hlast, htail, hlexeme⟩ := exists_withSuffix_truncate h
    obtain ⟨hdigits', hfraction', hexponent'⟩ := hshort last hlast
    rw [htail, ← hlexeme, List.append_assoc, List.append_assoc,
      scanDecimal_eq hdigits' hfraction' hexponent', if_pos hfloat, List.append_assoc]
  · rw [if_neg hfloat] at h ⊢
    obtain ⟨last, hlast, htail, hlexeme⟩ := exists_withSuffix_truncate h
    obtain ⟨hdigits', hfraction', hexponent'⟩ := hshort last hlast
    rw [htail, ← hlexeme, List.append_assoc, List.append_assoc,
      scanDecimal_eq hdigits' hfraction' hexponent', if_neg hfloat, List.append_assoc]

private theorem splitOptional_eq_nil_of_append {accepts : Char → Bool}
    (h : (splitOptional accepts (near ++ far)).1 = []) : (splitOptional accepts near).1 = [] := by
  by_cases hnear : near = []
  · rw [hnear]
    rfl
  · rwa [splitOptional_append_of_ne_nil accepts hnear far] at h

theorem scanNumber_of_mark {mark digits afterMark left : Text}
    (hmark : splitOptional (fun char => char == 'x' || char == 'X') source = (mark, afterMark))
    (hdigits : splitWhile isHexDigit afterMark = (digits, left))
    (hhex : first = '0' ∧ mark ≠ []) :
    scanNumber first source =
      (Lexeme.ofSplit .integer (mark ++ digits, left)).withSuffix isIntegerSuffix := by
  simp only [scanNumber, hmark, hdigits]
  exact if_pos hhex

theorem scanNumber_of_no_mark
    (h : ¬(first = '0' ∧ (splitOptional (fun char => char == 'x' || char == 'X') source).1 ≠ [])) :
    scanNumber first source = scanDecimal first source := if_neg h

private theorem truncates_scanNumber (first : Char) : TruncatesLexeme (scanNumber first) := by
  intro source near far h
  obtain ⟨mark, afterMark, hmark⟩ : ∃ mark left,
      splitOptional (fun char => char == 'x' || char == 'X') source = (mark, left) := ⟨_, _, rfl⟩
  obtain ⟨digits, left, hdigits⟩ :
      ∃ digits left, splitWhile isHexDigit afterMark = (digits, left) := ⟨_, _, rfl⟩
  by_cases hhex : first = '0' ∧ mark ≠ []
  · rw [scanNumber_of_mark hmark hdigits hhex] at h ⊢
    obtain ⟨last, rfl, htail, hlexeme⟩ := exists_withSuffix_truncate h
    obtain rfl := eq_append_of_splitWhile hdigits
    have hdigits' := (truncates_splitWhile isHexDigit).cut_eq hdigits rfl
    have hmark' := (truncates_splitOptional _).cut_eq hmark (List.append_assoc digits last far).symm
    rw [htail, ← hlexeme, List.append_assoc, scanNumber_of_mark hmark' hdigits' hhex]
  · have hsource : scanNumber first source = scanDecimal first source :=
      scanNumber_of_no_mark (by rwa [hmark])
    rw [hsource] at h ⊢
    have hwhole : (scanDecimal first source).tail ++ near ++ far = source := by
      rw [List.append_assoc, ← h, scanDecimal_append]
    rw [scanNumber_of_no_mark, truncates_scanDecimal first source near far h]
    rintro ⟨hfirst, hshort⟩
    refine hhex ⟨hfirst, fun hnil => ?_⟩
    have hnone : (splitOptional (fun char => char == 'x' || char == 'X')
        ((scanDecimal first source).tail ++ near ++ far)).1 = [] := by
      rw [hwhole, hmark, hnil]
    exact hshort (splitOptional_eq_nil_of_append hnone)

private theorem head?_tail_scanNumber {char : Char} (hchar : isDecimalDigit char = true)
    (rest : Text) :
    ∃ more, (scanNumber '.' (char :: rest)).tail = char :: more := by
  have hdigits : splitWhile isDecimalDigit (char :: rest) =
      (char :: (splitWhile isDecimalDigit rest).1, (splitWhile isDecimalDigit rest).2) := by
    simp [splitWhile, hchar]
  rw [scanNumber_of_no_mark (by simp), scanDecimal_eq hdigits rfl rfl, if_pos (.inl rfl)]
  exact ⟨_, rfl⟩

private theorem opensNumber_of_append (h : opensNumber first (near ++ far) = false) :
    opensNumber first near = false := by
  cases near with
  | nil =>
      rw [opensNumber, Bool.or_eq_false_iff] at h ⊢
      exact ⟨h.1, by simp⟩
  | cons char near => exact h

private theorem opensNumber_tail (h : opensNumber first source = true) (near : Text) :
    opensNumber first ((scanNumber first source).tail ++ near) = true := by
  by_cases hdigit : isDecimalDigit first = true
  · rw [opensNumber, hdigit, Bool.true_or]
  · simp only [opensNumber, hdigit, Bool.false_or, Bool.and_eq_true, beq_iff_eq] at h
    obtain ⟨rfl, hhead⟩ := h
    cases source with
    | nil => cases hhead
    | cons char rest =>
        have hchar : isDecimalDigit char = true := hhead
        obtain ⟨more, hmore⟩ := head?_tail_scanNumber hchar rest
        simp [hmore, opensNumber, hchar]

private theorem OpensPlain.truncate (h : OpensPlain first (near ++ far)) : OpensPlain first near :=
  ⟨h.1, h.2.1, fun hslash => ⟨head?_of_append (h.2.2 hslash).1, head?_of_append (h.2.2 hslash).2⟩⟩

theorem scan_of_opensNumber (hplain : OpensPlain first source)
    (hnumber : opensNumber first source = true) :
    scan version first source = scanNumber first source := by
  rw [scan_of_opensPlain hplain, if_pos hnumber]

private theorem scan_truncate_of_opensPlain (hplain : OpensPlain first source)
    (h : (scan version first source).rest = near ++ far) :
    scan version first ((scan version first source).tail ++ near) =
      { scan version first source with rest := near } := by
  have hwhole : (scan version first source).tail ++ near ++ far = source := by
    rw [List.append_assoc, ← h, scan_append]
  have hshort : OpensPlain first ((scan version first source).tail ++ near) :=
    OpensPlain.truncate (hwhole.symm ▸ hplain)
  by_cases hnumber : opensNumber first source = true
  · rw [scan_of_opensNumber hplain hnumber] at h hshort ⊢
    rw [scan_of_opensNumber hshort (opensNumber_tail hnumber near),
      truncates_scanNumber first source near far h]
  have hnumber' : opensNumber first ((scan version first source).tail ++ near) = false :=
    opensNumber_of_append (hwhole.symm ▸ Bool.eq_false_iff.mpr hnumber)
  rw [Bool.not_eq_true] at hnumber
  by_cases hword : opensWord first = true
  · have hsource : scan version first source =
        .ofSplit (wordKind version (first :: (splitWhile continuesWord source).1))
          (splitWhile continuesWord source) := by
      rw [scan_of_opensPlain hplain, hnumber, hword]
      rfl
    rw [hsource] at h hshort hnumber' ⊢
    have htruncate := truncates_splitWhile continuesWord source near far h
    rw [scan_of_opensPlain hshort, hnumber', hword]
    simp only [Lexeme.ofSplit, htruncate]
    rfl
  · have hsource : scan version first source = .ofSplit .operator (splitOperator first source) := by
      rw [scan_of_opensPlain hplain, hnumber, if_neg Bool.false_ne_true, if_neg hword]
    rw [hsource] at h hshort hnumber' ⊢
    have htruncate := truncates_splitOperator first source near far h
    rw [scan_of_opensPlain hshort, hnumber', if_neg Bool.false_ne_true, if_neg hword]
    simp only [Lexeme.ofSplit, htruncate]

private theorem truncates_scan (version : GlslVersion) (first : Char) :
    TruncatesLexeme (scan version first) := by
  intro source near far h
  rcases scan_opening version first source with hblank | ⟨rfl, hcomment⟩ | rfl | hplain
  · rw [scan_blank hblank] at h ⊢
    rw [scan_blank hblank]
    simp only [Lexeme.ofSplit] at h ⊢
    rw [truncates_splitWhile isBlank source near far h]
  · rcases head?_of_isComment hcomment with hslash | ⟨inside, rfl⟩
    · obtain ⟨rest, rfl⟩ := List.head?_eq_some_iff.mp hslash
      have htail : (splitWhile (· != '\n') ('/' :: rest)).1 =
          '/' :: (splitWhile (· != '\n') rest).1 := rfl
      rw [scan_lineComment hslash] at h ⊢
      simp only [Lexeme.ofSplit] at h ⊢
      rw [scan_lineComment (by rw [htail]; rfl), truncates_splitWhile _ _ near far h]
      rfl
    · rw [scan_blockComment] at h ⊢
      simp only [Lexeme.ofSplit, List.cons_append] at h ⊢
      rw [scan_blockComment, truncates_splitBlockComment inside near far h]
      rfl
  · rw [scan_mark] at h ⊢
    rw [scan_mark]
    simp only [Lexeme.ofSplit] at h ⊢
    rw [truncates_splitDirective source near far h]
  · exact scan_truncate_of_opensPlain hplain h

/-! ## Runs of tokens -/

def renumber (number other : Nat) (token : Token) : Token :=
  { token with line := other + (token.line - number) }

theorem le_line_of_mem {number : Nat} {token : Token}
    (h : token ∈ tokensFrom version number source) : number ≤ token.line := by
  obtain ⟨before, after, hsplit⟩ := List.append_of_mem h
  rw [(tokensFrom_isPartition version number source).line_eq before token after hsplit]
  exact Nat.le_add_right _ _

theorem tokensFrom_concat {number : Nat} {run after : List Token}
    (h : tokensFrom version number source = run ++ after) (hafter : after ≠ []) (other : Nat) :
    tokensFrom version other (concat run) = run.map (renumber number other) ++
      [{ kind := .eof, text := [], line := other + (concat run).lineFeeds }] := by
  induction run generalizing number other source with
  | nil =>
      have hempty : concat [] = [] := rfl
      rw [hempty, tokensFrom]
      rfl
  | cons token run ih =>
      cases source with
      | nil =>
          rw [tokensFrom, List.cons_append] at h
          obtain ⟨-, hnil⟩ := List.cons.inj h
          exact absurd (List.append_eq_nil_iff.mp hnil.symm).2 hafter
      | cons first rest =>
          rw [tokensFrom, List.cons_append] at h
          obtain ⟨rfl, hmore⟩ := List.cons.inj h
          have hrest : (scan version first rest).rest = concat run ++ concat after := by
            rw [← concat_append, ← hmore, concat_tokensFrom]
          -- What stands behind the run is missing, and the first lexeme does not need it.
          have hscan := truncates_scan version first rest _ _ hrest
          generalize scan version first rest = lexeme at hmore hscan
          have hlines : ∀ token ∈ run,
              renumber (number + Text.lineFeeds (first :: lexeme.tail))
                (other + Text.lineFeeds (first :: lexeme.tail)) token =
              renumber number other token := fun token hmem => by
            have hwhole := List.mem_append_left after hmem
            rw [← hmore] at hwhole
            have hle := le_line_of_mem hwhole
            simp only [renumber, Token.mk.injEq, true_and]
            omega
          have hfeeds : Text.lineFeeds (first :: (lexeme.tail ++ concat run)) =
              Text.lineFeeds (first :: lexeme.tail) + (concat run).lineFeeds :=
            Text.lineFeeds_append (first :: lexeme.tail) (concat run)
          rw [concat_cons, List.cons_append, tokensFrom, hscan, ih hmore,
            List.map_congr_left hlines, hfeeds, ← Nat.add_assoc]
          simp [renumber]

theorem exists_tokensFrom_of_append {number : Nat} {before after : List Token} {token : Token}
    (h : tokensFrom version number source = before ++ token :: after) :
    ∃ rest, tokensFrom version token.line rest = token :: after := by
  induction before generalizing number source with
  | nil =>
      have hline : token.line = number := by
        cases source with
        | nil =>
            rw [tokensFrom] at h
            cases h
            rfl
        | cons first rest =>
            rw [tokensFrom] at h
            cases h
            rfl
      exact ⟨source, hline ▸ h⟩
  | cons earlier before ih =>
      cases source with
      | nil =>
          rw [tokensFrom] at h
          simp at h
      | cons first rest =>
          rw [tokensFrom] at h
          exact ih (List.cons.inj h).2

private theorem tokenize_run {before after run : List Token} {token : Token}
    (h : tokenize version source = before ++ token :: run ++ after) (hafter : after ≠ [])
    (number : Nat) :
    tokensFrom version number (concat (token :: run)) =
      (token :: run).map (renumber token.line number) ++
        [{ kind := .eof, text := [], line := number + (concat (token :: run)).lineFeeds }] := by
  rw [List.append_assoc] at h
  obtain ⟨rest, hrest⟩ := exists_tokensFrom_of_append h
  exact tokensFrom_concat hrest hafter number

/-- Every token but the end mark is read from its own text alone. -/
theorem tokenize_text {token : Token} (h : token ∈ tokenize version source)
    (hkind : token.kind ≠ .eof) :
    tokenize version token.text =
      [{ token with line := 1 },
        { kind := .eof, text := [], line := 1 + token.text.lineFeeds }] := by
  obtain ⟨before, after, hsplit⟩ := List.append_of_mem h
  have hafter : after ≠ [] := by
    rintro rfl
    obtain ⟨pieces, last, hpieces, -⟩ :=
      (tokenize_isPartition version source).pieces_then_end
    obtain ⟨-, hlast⟩ := List.append_inj' (hsplit.symm.trans hpieces) rfl
    cases hlast
    exact hkind rfl
  have hrun : tokenize version source = before ++ token :: [] ++ after := by
    rw [hsplit, List.append_assoc]
    rfl
  have halone := tokenize_run hrun hafter 1
  have hconcat : concat [token] = token.text := by
    rw [concat_cons]
    exact List.append_nil _
  rw [hconcat] at halone
  simpa [tokenize, renumber] using halone

def markedSource : Text := "1.5e+\n  #define A \\\n  (.5e-3)\n;".toList

theorem tokenize_text_markedSource :
    { kind := .preprocessor, text := "#define A \\\n  (.5e-3)".toList, line := 2 } ∈
      tokenize .es100 markedSource ∧
    TokenKind.preprocessor ≠ .eof ∧
    tokenize .es100 "#define A \\\n  (.5e-3)".toList =
      [{ kind := .preprocessor, text := "#define A \\\n  (.5e-3)".toList, line := 1 },
        { kind := .eof, text := [], line := 2 }] := by
  have hmem : { kind := .preprocessor, text := "#define A \\\n  (.5e-3)".toList, line := 2 } ∈
      tokenize .es100 markedSource := by
    decide +kernel
  exact ⟨hmem, nofun, tokenize_text hmem nofun⟩

end GlslCompose.Token
