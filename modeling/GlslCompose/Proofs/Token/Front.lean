import GlslCompose.Proofs.Text.Marks
import GlslCompose.Proofs.Text.Search
import GlslCompose.Proofs.Token.Partition

/-!
# Tokens in front of a directive

A directive ends before the line feed that it stands in front of, and the tokens in front of
it do not depend on how it goes on behind its mark.
-/

namespace GlslCompose

namespace Text

/-! ## Where a row stands -/

variable {above below blanks row before after : Text}

theorem lineFeeds_of_not_mem {text : Text} (h : '\n' ∉ text) : text.lineFeeds = 0 :=
  List.count_eq_zero.mpr h

private theorem EndsLine.eq_of_lineFeeds (habove : above.EndsLine) (hbefore : before.EndsLine)
    (h : above ++ below = before ++ after) (hcount : above.lineFeeds = before.lineFeeds) :
    above = before := by
  have hnil : ∀ {first second more : Text}, second.EndsLine → second = first ++ more →
      first.lineFeeds = second.lineFeeds → first = second := by
    rintro first second more hsecond rfl hsame
    rw [lineFeeds_append] at hsame
    rcases hsecond.of_append with rfl | ⟨body, rfl⟩
    · rw [List.append_nil]
    · have hfeed : lineFeeds ['\n'] = 1 := rfl
      rw [lineFeeds_append] at hsame
      omega
  rcases List.append_eq_append_iff.mp h with ⟨more, hmore, -⟩ | ⟨more, hmore, -⟩
  · exact hnil hbefore hmore hcount
  · exact (hnil habove hmore hcount.symm).symm

private theorem EndsLine.append_eq_of_lineFeeds (habove : above.EndsLine)
    (hrow : '\n' ∉ blanks ++ row) (hbelow : restOfLine below = []) (hafter : restOfLine after = [])
    (h : above ++ (blanks ++ row ++ below) = before ++ (row ++ after))
    (hcount : above.lineFeeds = before.lineFeeds) : before = above ++ blanks ∧ after = below := by
  obtain ⟨lines, front, rfl, hlines, hfront⟩ := exists_endsLine_append before
  rw [lineFeeds_append, lineFeeds_of_not_mem hfront] at hcount
  rw [List.append_assoc lines] at h
  obtain rfl := habove.eq_of_lineFeeds hlines h hcount
  have hrows := List.append_cancel_left h
  rw [List.mem_append, not_or] at hrow
  have hfeed : '\n' ∉ front ++ row := fun hmem => (List.mem_append.mp hmem).elim hfront hrow.2
  rw [← List.append_assoc] at hrows
  have hline := congrArg restOfLine hrows
  rw [restOfLine_append hbelow, restOfLine_append hafter, restOfLine_eq_self hfeed,
    restOfLine_eq_self (fun hmem => (List.mem_append.mp hmem).elim hrow.1 hrow.2)] at hline
  obtain rfl := List.append_cancel_right hline
  exact ⟨rfl, (List.append_cancel_left hrows).symm⟩

theorem mark_cases {first second before rest : Text} (h : first ++ second = before ++ '#' :: rest) :
    (∃ post, first = before ++ '#' :: post ∧ rest = post ++ second) ∨
      ∃ mid, before = first ++ mid ∧ second = mid ++ '#' :: rest := by
  rcases List.append_eq_append_iff.mp h with ⟨mid, hbefore, hsecond⟩ | ⟨post, hfirst, hrest⟩
  · exact .inr ⟨mid, hbefore, hsecond⟩
  · cases post with
    | nil => exact .inr ⟨[], by simpa using hfirst.symm, by simpa using hrest.symm⟩
    | cons char post =>
        rw [List.cons_append, List.cons.injEq] at hrest
        obtain ⟨rfl, hrest⟩ := hrest
        exact .inl ⟨post, hfirst, hrest⟩

end Text

namespace Token

open Text

variable {version : GlslVersion}

/-! ## Where a directive ends -/

@[simp] theorem restOfLine_splitDirective (rest : Text) :
    restOfLine (splitDirective rest).2 = [] := by
  fun_induction splitDirective rest with
  | case1 _ ih => exact ih
  | case2 _ ih => exact ih
  | case3 rest => exact restOfLine_newline rest
  | case4 _ _ _ _ _ ih => exact ih
  | case5 => rfl

theorem newline_not_mem_splitDirective {rest : Text} (h : '\\' ∉ rest) :
    '\n' ∉ (splitDirective rest).1 := by
  fun_induction splitDirective rest with
  | case1 | case2 => simp at h
  | case3 | case5 => exact List.not_mem_nil
  | case4 char rest _ _ hfeed ih =>
      rw [List.mem_cons, not_or]
      exact ⟨fun hchar => hfeed hchar.symm, ih fun hmem => h (List.mem_cons_of_mem _ hmem)⟩

theorem splitDirective_keeps {body below : Text} (hbody : ¬Continues body) (hfeed : '\n' ∉ body)
    (hbelow : restOfLine below = []) : splitDirective (body ++ below) = (body, below) := by
  rcases splitDirective_newline body with
    ⟨taken, left, rfl, hleft, hwhole, hstop⟩ | ⟨⟨line, hline⟩, -, -⟩
  · obtain rfl : left = [] := hleft.resolve_right fun hhead =>
      hfeed (List.mem_append_right taken (List.mem_of_head? hhead))
    rw [List.append_nil] at hwhole hstop ⊢
    rcases eq_nil_or_exists_of_restOfLine hbelow with rfl | ⟨rest, rfl⟩
    · rw [List.append_nil, hwhole]
    · exact hstop rest
  · refine absurd ?_ hbody
    rcases hline with rfl | rfl
    · exact .inl (List.suffix_append line _)
    · exact .inr (List.suffix_append line _)

private theorem eq_mark_of_preprocessor {first : Char} {rest : Text}
    (h : (scan version first rest).kind = .preprocessor) : first = '#' := by
  rcases scan_opening version first rest with hblank | ⟨-, hcomment⟩ | hmark | hplain
  · rw [scan_blank hblank] at h
    cases h
  · rw [h] at hcomment
    cases hcomment
  · exact hmark
  · exact absurd h (TokenKind.of_isPlain (isPlain_scan hplain)).2.2.1

theorem exists_splitDirective {number : Nat} {source : Text} {before after : List Token}
    {token : Token} (htokens : tokensFrom version number source = before ++ token :: after)
    (hkind : token.kind = .preprocessor) :
    ∃ rest, token.text = '#' :: (splitDirective rest).1 ∧
      concat after = (splitDirective rest).2 := by
  induction before generalizing number source with
  | nil =>
      cases source with
      | nil =>
          rw [tokensFrom] at htokens
          cases htokens
          cases hkind
      | cons first rest =>
          rw [tokensFrom] at htokens
          obtain ⟨rfl, rfl⟩ := List.cons.inj htokens
          have hfirst : first = '#' := eq_mark_of_preprocessor hkind
          subst hfirst
          exact ⟨rest, by rw [scan_mark]; rfl, by rw [concat_tokensFrom, scan_mark]; rfl⟩
  | cons earlier before ih =>
      cases source with
      | nil =>
          rw [tokensFrom] at htokens
          simp at htokens
      | cons first rest =>
          rw [tokensFrom] at htokens
          exact ih (List.cons.inj htokens).2

/-! ## Texts with the same head -/

private theorem splitWhile_keeps {accepts : Char → Bool} {tail near far : Text}
    (h : splitWhile accepts (tail ++ near) = (tail, near)) (hhead : far.head? = near.head?) :
    splitWhile accepts (tail ++ far) = (tail, far) := by
  obtain ⟨htake, hdrop⟩ := Prod.mk.inj h
  have htail : ∀ char ∈ tail, accepts char = true := fun char hchar =>
    List.mem_takeWhile_imp (htake ▸ hchar)
  have hnear : ∀ char ∈ far.head?, accepts char = false := by
    intro char hchar
    rw [hhead, ← hdrop] at hchar
    have hnot := List.head?_dropWhile_not accepts (tail ++ near)
    rw [hchar] at hnot
    simpa using hnot
  rw [splitWhile, takeWhile_append_of_head hnear, List.takeWhile_eq_self_iff.mpr htail,
    List.dropWhile_append_of_pos htail]
  cases far with
  | nil => rfl
  | cons char far => rw [List.dropWhile_cons_of_neg (by simp [hnear char rfl])]

private theorem splitBlockComment_keeps {inside near : Text}
    (h : splitBlockComment (inside ++ near) = (inside, near)) (hne : near ≠ []) {far : Text}
    (hhead : far.head? = near.head?) :
    splitBlockComment (inside ++ far) = (inside, far) := by
  induction inside with
  | nil =>
      obtain ⟨char, rest, rfl⟩ := List.exists_cons_of_ne_nil hne
      by_cases hclose : char = '*' ∧ rest.head? = some '/'
      · obtain ⟨rfl, hrest⟩ := hclose
        obtain ⟨more, rfl⟩ := List.head?_eq_some_iff.mp hrest
        cases h
      · rw [List.nil_append, splitBlockComment_cons (not_and.mp hclose)] at h
        cases h
  | cons char inside ih =>
      by_cases hclose : char = '*' ∧ (inside ++ near).head? = some '/'
      · obtain ⟨rfl, hslash⟩ := hclose
        obtain ⟨more, hmore⟩ := List.head?_eq_some_iff.mp hslash
        rw [List.cons_append, hmore] at h
        obtain ⟨hinside, -⟩ := Prod.mk.inj h
        rw [← (List.cons.inj hinside).2]
        rfl
      · have hfar : (inside ++ far).head? = (inside ++ near).head? := by
          rw [List.head?_append, List.head?_append, hhead]
        rw [List.cons_append, splitBlockComment_cons (not_and.mp hclose)] at h
        rw [List.cons_append, splitBlockComment_cons (hfar ▸ not_and.mp hclose)]
        obtain ⟨hinside, hrest⟩ := Prod.mk.inj h
        rw [ih (Prod.ext (List.cons.inj hinside).2 hrest)]

private theorem splitDirective_newline_keeps {tail near : Text}
    (h : splitDirective (tail ++ '\n' :: near) = (tail, '\n' :: near)) (far : Text) :
    splitDirective (tail ++ '\n' :: far) = (tail, '\n' :: far) := by
  rcases splitDirective_newline tail with
    ⟨taken, left, -, -, -, hstop⟩ | ⟨-, -, hpass⟩
  · rw [hstop] at h ⊢
    obtain ⟨rfl, hleft⟩ := Prod.mk.inj h
    obtain rfl : left = [] := List.append_left_eq_self.mp hleft
    rfl
  · rw [hpass] at h
    have hlength := congrArg List.length (Prod.mk.inj h).1
    simp at hlength

private theorem scan_keeps {first : Char} {tail mid near far : Text} {kind : TokenKind}
    (h : scan version first (tail ++ (mid ++ '#' :: near)) = ⟨kind, tail, mid ++ '#' :: near⟩) :
    scan version first (tail ++ (mid ++ '#' :: far)) = ⟨kind, tail, mid ++ '#' :: far⟩ := by
  have hhead : (mid ++ '#' :: far).head? = (mid ++ '#' :: near).head? := by
    cases mid <;> rfl
  have hfar : (tail ++ (mid ++ '#' :: far)).head? = (tail ++ (mid ++ '#' :: near)).head? := by
    cases tail with
    | nil => exact hhead
    | cons char tail => rfl
  rcases scan_opening version first (tail ++ (mid ++ '#' :: near)) with
    hblank | ⟨rfl, hcomment⟩ | rfl | hplain
  · rw [scan_blank hblank] at h ⊢
    obtain ⟨rfl, htail, hnear⟩ := Lexeme.mk.inj h
    rw [splitWhile_keeps (Prod.ext htail hnear) hhead]
    rfl
  · rcases head?_of_isComment hcomment with hslash | ⟨inside, hstar⟩
    · rw [scan_lineComment hslash] at h
      rw [scan_lineComment (hfar.trans hslash)]
      obtain ⟨rfl, htail, hnear⟩ := Lexeme.mk.inj h
      rw [splitWhile_keeps (Prod.ext htail hnear) hhead]
      rfl
    · rw [hstar, scan_blockComment] at h
      obtain ⟨rfl, htail, hnear⟩ := Lexeme.mk.inj h
      obtain ⟨body, rfl⟩ : ∃ body, tail = '*' :: body := ⟨_, htail.symm⟩
      have hbody : splitBlockComment (body ++ (mid ++ '#' :: near)) =
          (body, mid ++ '#' :: near) := by
        have hinside : body ++ (mid ++ '#' :: near) = inside := (List.cons.inj hstar).2
        rw [hinside]
        exact Prod.ext (List.cons.inj htail).2 hnear
      rw [List.cons_append, scan_blockComment, splitBlockComment_keeps hbody (by simp) hhead]
      rfl
  · rw [scan_mark] at h ⊢
    obtain ⟨rfl, htail, hnear⟩ := Lexeme.mk.inj h
    have hend := restOfLine_splitDirective (tail ++ (mid ++ '#' :: near))
    rw [hnear] at hend
    cases mid with
    | nil =>
        rw [List.nil_append, restOfLine_cons (by decide)] at hend
        cases hend
    | cons char mid =>
        obtain ⟨rest, hrest⟩ := (eq_nil_or_exists_of_restOfLine hend).resolve_left (by simp)
        obtain rfl : char = '\n' := (List.cons.inj hrest).1
        rw [List.cons_append, splitDirective_newline_keeps (Prod.ext htail hnear)]
        rfl
  · have hother : OpensPlain first (tail ++ (mid ++ '#' :: far)) :=
      ⟨hplain.1, hplain.2.1, fun hslash => hfar ▸ hplain.2.2 hslash⟩
    rw [← List.append_assoc] at h hplain hother ⊢
    rw [scan_append_stop (by decide) hplain] at h
    rw [scan_append_stop (by decide) hother]
    obtain ⟨hkind, htail, hrest⟩ := Lexeme.mk.inj h
    rw [Lexeme.followedBy, hkind, htail, List.append_cancel_right hrest]

theorem tokensFrom_keeps {before after : List Token} {token : Token} {number : Nat}
    {source : Text} (h : tokensFrom version number source = before ++ token :: after)
    (hkind : token.kind = .preprocessor) (far : Text) :
    tokensFrom version number (concat before ++ '#' :: far) =
      before ++ tokensFrom version token.line ('#' :: far) := by
  induction before generalizing number source with
  | nil =>
      cases source with
      | nil =>
          rw [tokensFrom] at h
          cases h
          cases hkind
      | cons first rest =>
          rw [tokensFrom] at h
          rw [← (List.cons.inj h).1]
          rfl
  | cons earlier before ih =>
      cases source with
      | nil =>
          rw [tokensFrom] at h
          simp at h
      | cons first rest =>
          rw [tokensFrom] at h
          obtain ⟨rfl, hmore⟩ := List.cons.inj h
          obtain ⟨near, hnear⟩ : ∃ near,
              (scan version first rest).rest = concat before ++ '#' :: near := by
            obtain ⟨directive, htext, -⟩ := exists_splitDirective hmore hkind
            refine ⟨(splitDirective directive).1 ++ concat after, ?_⟩
            rw [← List.cons_append, ← htext, ← concat_cons, ← concat_append]
            exact (concat_tokensFrom _ _ _).symm.trans (congrArg concat hmore)
          have hscan : scan version first ((scan version first rest).tail ++
              (concat before ++ '#' :: near)) =
              ⟨(scan version first rest).kind, (scan version first rest).tail,
                concat before ++ '#' :: near⟩ := by
            rw [← hnear, scan_append]
          rw [concat_cons, List.append_assoc, List.cons_append, tokensFrom, scan_keeps hscan]
          exact congrArg _ (ih hmore)

/-! ## Blank space and comments -/

theorem isSignificant_eq_false {token : Token} (h : token.isSignificant = false) :
    token.kind = .eof ∨ token.kind = .whitespace ∨ token.kind.isComment = true := by
  rw [isSignificant_eq] at h
  cases hkind : token.kind <;> simp [hkind, TokenKind.isComment] at h ⊢

theorem isBlank_of_scan {first : Char} {rest : Text}
    (h : (scan version first rest).kind = .whitespace) :
    ∀ char ∈ first :: (scan version first rest).tail, isBlank char = true := by
  rcases scan_opening version first rest with hblank | ⟨-, hcomment⟩ | rfl | hplain
  · rw [scan_blank hblank]
    exact List.forall_mem_cons.mpr ⟨hblank, fun char hchar => List.mem_takeWhile_imp hchar⟩
  · rw [h] at hcomment
    cases hcomment
  · rw [scan_mark] at h
    cases h
  · exact absurd h (TokenKind.of_isPlain (isPlain_scan hplain)).1

theorem isBlank_of_whitespace {number : Nat} {source : Text} {token : Token}
    (h : token ∈ tokensFrom version number source) (hkind : token.kind = .whitespace) :
    ∀ char ∈ token.text, isBlank char = true := by
  fun_induction tokensFrom version number source with
  | case1 =>
      rw [List.mem_singleton] at h
      cases h
      cases hkind
  | case2 number first rest lexeme text ih =>
      rcases List.mem_cons.mp h with rfl | hmore
      · exact isBlank_of_scan hkind
      · exact ih hmore

/-! ## The directive on a line -/

theorem exists_tokenize_row {above blanks body below : Text} {token : Token}
    (habove : above.EndsLine) (hfeed : '\n' ∉ blanks ++ '#' :: body)
    (hbelow : restOfLine below = [])
    (htoken : token ∈ tokenize version (above ++ (blanks ++ '#' :: body ++ below)))
    (hkind : token.kind = .preprocessor) (htext : token.text = '#' :: body)
    (hline : token.line = above.lineFeeds + 1) :
    ∃ before, tokenize version (above ++ (blanks ++ '#' :: body ++ below)) =
        before ++ token :: tokensFrom version token.line below ∧
      ∀ other, '\n' ∉ other → ¬Continues other →
        tokenize version (above ++ (blanks ++ '#' :: other ++ below)) =
          before ++ { token with text := '#' :: other } :: tokensFrom version token.line below := by
  obtain ⟨before, after, htokens⟩ := List.append_of_mem htoken
  have hpartition := tokenize_isPartition version (above ++ (blanks ++ '#' :: body ++ below))
  have hcount := hpartition.line_eq before token after htokens
  have hconcat := hpartition.concat_eq
  obtain ⟨rest, hrest, hafter⟩ := exists_splitDirective htokens hkind
  rw [htokens, concat_append, concat_cons, htext] at hconcat
  obtain ⟨hbefore, hend⟩ := habove.append_eq_of_lineFeeds hfeed hbelow
    (by rw [hafter, restOfLine_splitDirective]) hconcat.symm (by omega)
  have hkeeps : ∀ far, tokenize version (above ++ (blanks ++ '#' :: far)) =
      before ++ tokensFrom version token.line ('#' :: far) := fun far => by
    rw [← List.append_assoc, ← hbefore]
    exact tokensFrom_keeps htokens hkind far
  have hdirective : ∀ other, '\n' ∉ other → splitDirective (other ++ below) = (other, below) →
      tokenize version (above ++ (blanks ++ '#' :: other ++ below)) =
        before ++ { token with text := '#' :: other } :: tokensFrom version token.line below := by
    intro other hother hsplit
    have hlines : lineFeeds ('#' :: other) = 0 := lineFeeds_of_not_mem (by simp [hother])
    rw [List.append_assoc blanks, List.cons_append, hkeeps, tokensFrom, scan_mark, hsplit]
    simp only [Lexeme.ofSplit, hlines, Nat.add_zero, hkind]
  refine ⟨before, ?_, fun other hother hcontinues =>
    hdirective other hother (splitDirective_keeps hcontinues hother hbelow)⟩
  have hbody : '#' :: (splitDirective rest).1 = '#' :: body := hrest.symm.trans htext
  have hsplit : splitDirective (body ++ below) = (body, below) := by
    rw [← hend, hafter, ← (List.cons.inj hbody).2, splitDirective_append]
  rw [List.mem_append, List.mem_cons, not_or, not_or] at hfeed
  rw [hdirective body hfeed.2.2 hsplit, ← htext]

end Token

end GlslCompose
