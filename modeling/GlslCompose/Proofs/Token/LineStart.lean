import GlslCompose.Proofs.Text.Rows
import GlslCompose.Proofs.Token.Parting
import Mathlib.Data.List.TakeWhile

/-!
# Tokens at the start of a line

A `#` that stands first on its line opens a directive, or belongs to a directive that
continues onto the line, or stands in a block comment.  No other token goes on over the
end of a line.
-/

namespace GlslCompose.Token

/-! ## Directives -/

private theorem splitDirective_cons {char : Char} {rest : Text} (hfeed : char ≠ '\n')
    (hcontinued : char = '\\' → rest.head? ≠ some '\n' ∧ ∀ more, rest ≠ '\r' :: '\n' :: more) :
    splitDirective (char :: rest) =
      (char :: (splitDirective rest).1, (splitDirective rest).2) := by
  rw [splitDirective]
  · rintro more rfl rfl
    exact (hcontinued rfl).1 rfl
  · rintro more rfl rfl
    exact (hcontinued rfl).2 more rfl
  · exact hfeed

theorem splitDirective_plain {plain : Text} (hplain : ∀ char ∈ plain, char ≠ '\\' ∧ char ≠ '\n')
    (rest : Text) :
    splitDirective (plain ++ rest) =
      (plain ++ (splitDirective rest).1, (splitDirective rest).2) := by
  induction plain with
  | nil => rfl
  | cons char plain ih =>
      obtain ⟨hslash, hfeed⟩ := hplain char List.mem_cons_self
      have hrest := ih fun other hother => hplain other (List.mem_cons_of_mem char hother)
      rw [List.cons_append, splitDirective_cons hfeed fun heq => absurd heq hslash, hrest]
      rfl

/-- The directive ends in the text, whatever a line below brings. -/
def EndsWithin (source : Text) : Prop :=
  ∃ taken left, source = taken ++ left ∧ (left = [] ∨ left.head? = some '\n') ∧
    splitDirective source = (taken, left) ∧
    ∀ rest, splitDirective (source ++ '\n' :: rest) = (taken, left ++ '\n' :: rest)

/-- The directive takes the whole text, and goes on in a line below. -/
def GoesOn (source : Text) : Prop :=
  (∃ body, source = body ++ ['\\'] ∨ source = body ++ ['\\', '\r']) ∧
    splitDirective source = (source, []) ∧
    ∀ rest, splitDirective (source ++ '\n' :: rest) =
      (source ++ '\n' :: (splitDirective rest).1, (splitDirective rest).2)

private theorem endsWithin_or_goesOn_append {lead source : Text}
    (hlead : splitDirective (lead ++ source) =
      (lead ++ (splitDirective source).1, (splitDirective source).2))
    (hstep : ∀ rest, splitDirective (lead ++ (source ++ '\n' :: rest)) =
      (lead ++ (splitDirective (source ++ '\n' :: rest)).1,
        (splitDirective (source ++ '\n' :: rest)).2))
    (h : EndsWithin source ∨ GoesOn source) :
    EndsWithin (lead ++ source) ∨ GoesOn (lead ++ source) := by
  rcases h with ⟨taken, left, rfl, hleft, hwhole, hsplit⟩ | ⟨⟨body, hbody⟩, hwhole, hsplit⟩
  · refine .inl ⟨lead ++ taken, left, by rw [List.append_assoc], hleft, ?_, fun rest => ?_⟩
    · rw [hlead, hwhole]
    · rw [List.append_assoc lead, hstep, hsplit]
  · refine .inr ⟨⟨lead ++ body, ?_⟩, ?_, fun rest => ?_⟩
    · rcases hbody with rfl | rfl
      · exact .inl (by rw [List.append_assoc])
      · exact .inr (by rw [List.append_assoc])
    · rw [hlead, hwhole]
    · rw [List.append_assoc, hstep, hsplit, List.append_assoc]

theorem splitDirective_newline (source : Text) : EndsWithin source ∨ GoesOn source := by
  fun_induction splitDirective source with
  | case1 source ih =>
      exact endsWithin_or_goesOn_append (show splitDirective (['\\', '\n'] ++ source) = _ from rfl)
        (fun _ => rfl) ih
  | case2 source ih =>
      exact endsWithin_or_goesOn_append
        (show splitDirective (['\\', '\r', '\n'] ++ source) = _ from rfl) (fun _ => rfl) ih
  | case3 source => exact .inl ⟨[], '\n' :: source, rfl, .inr rfl, rfl, fun _ => rfl⟩
  | case4 char source hslash hreturn hfeed ih =>
      by_cases hend : char = '\\' ∧ (source = [] ∨ source = ['\r'])
      · obtain ⟨rfl, rfl | rfl⟩ := hend
        · exact .inr ⟨⟨[], .inl rfl⟩, rfl, fun _ => rfl⟩
        · exact .inr ⟨⟨[], .inr rfl⟩, rfl, fun _ => rfl⟩
      · have hcontinued : ∀ rest, char = '\\' → (source ++ '\n' :: rest).head? ≠ some '\n' ∧
            ∀ more, source ++ '\n' :: rest ≠ '\r' :: '\n' :: more := by
          rintro rest rfl
          rcases source with _ | ⟨first, _ | ⟨second, more⟩⟩
          · simp at hend
          · have hfirst : first ≠ '\n' := fun heq => hslash [] rfl (by rw [heq])
            have hfirst' : first ≠ '\r' := fun heq => hend ⟨rfl, .inr (by rw [heq])⟩
            simp [hfirst, hfirst']
          · have hfirst : first ≠ '\n' := fun heq => hslash (second :: more) rfl (by rw [heq])
            refine ⟨by simp [hfirst], fun more' heq => ?_⟩
            simp only [List.cons_append, List.cons.injEq] at heq
            exact hreturn more rfl (by rw [heq.1, heq.2.1])
        have hlead : splitDirective ([char] ++ source) =
            ([char] ++ (splitDirective source).1, (splitDirective source).2) := by
          refine splitDirective_cons hfeed ?_
          rintro rfl
          exact ⟨fun hhead => by
            obtain ⟨more, hmore⟩ := List.head?_eq_some_iff.mp hhead
            exact hslash more rfl hmore, fun more => hreturn more rfl⟩
        exact endsWithin_or_goesOn_append hlead
          (fun rest => splitDirective_cons hfeed (hcontinued rest)) ih
  | case5 => exact .inl ⟨[], [], rfl, .inl rfl, rfl, fun _ => rfl⟩

/-! ## Lexemes within a line -/

private theorem scan_cases (version : GlslVersion) (first : Char) (rest : Text) :
    (isBlank first = true ∧
      scan version first rest = .ofSplit .whitespace (splitWhile isBlank rest)) ∨
    (first = '#' ∧ scan version first rest = .ofSplit .preprocessor (splitDirective rest)) ∨
    (isBlank first = false ∧ ((scan version first rest).kind = .blockComment ∨
      '\n' ∉ (scan version first rest).tail)) := by
  by_cases hblank : isBlank first = true
  · exact .inl ⟨hblank, by simp [scan, hblank]⟩
  have hfirst : isBlank first = false := by simpa using hblank
  rcases scan_opening version first rest with hother | ⟨rfl, hcomment⟩ | rfl | hplain
  · exact absurd hother hblank
  · refine .inr (.inr ⟨hfirst, ?_⟩)
    rcases head?_of_isComment hcomment with hline | ⟨inside, rfl⟩
    · rw [scan_lineComment hline]
      refine .inr fun hmem => ?_
      simpa using List.mem_takeWhile_imp hmem
    · exact .inl rfl
  · exact .inr (.inl ⟨rfl, rfl⟩)
  · exact .inr (.inr ⟨hfirst, .inr (not_mem_tail_of_stops (by decide) hplain)⟩)

/-! ## Tokens by place -/

/-- The token that holds the character with the given number. -/
def at? : List Token → Nat → Option Token
  | [], _ => none
  | token :: tokens, offset =>
      if offset < token.text.length then some token else at? tokens (offset - token.text.length)

@[simp] theorem at?_cons_add (token : Token) (tokens : List Token) (offset : Nat) :
    at? (token :: tokens) (token.text.length + offset) = at? tokens offset := by
  rw [at?, if_neg (by omega), Nat.add_sub_cancel_left]

/-- Some directive among the tokens ends with the logical line that a `#` and the
given text begin.  It opens there, or it continues there from lines above. -/
def HasDirective (version : GlslVersion) (tokens : List Token) (post : Text) : Prop :=
  ∃ earlier token more number,
    tokens = earlier ++ token :: tokensFrom version number (splitDirective post).2 ∧
    token.kind = .preprocessor ∧ token.text = more ++ '#' :: (splitDirective post).1 ∧
    (more = [] ∨ ∃ before gap, more = '#' :: before ++ '\\' :: gap ∧ '\n' ∈ gap ∧
      ∀ char ∈ gap, isBlank char = true)

variable {version : GlslVersion}

theorem HasDirective.cons {tokens : List Token} {post : Text}
    (h : HasDirective version tokens post) (token : Token) :
    HasDirective version (token :: tokens) post := by
  obtain ⟨earlier, directive, more, number, rfl, hdirective⟩ := h
  exact ⟨token :: earlier, directive, more, number, rfl, hdirective⟩

theorem tokensFrom_cons (number : Nat) (first : Char) (rest : Text) :
    ∃ next, tokensFrom version number (first :: rest) =
      { kind := (scan version first rest).kind
        text := first :: (scan version first rest).tail
        line := number } :: tokensFrom version next (scan version first rest).rest := by
  rw [tokensFrom]
  exact ⟨_, rfl⟩

/-! ## Tokens behind a line feed -/

theorem tokensFrom_newline_mark (version : GlslVersion) (number : Nat) (rest : Text) :
    ∃ next, tokensFrom version number ('\n' :: '#' :: rest) =
      { kind := .whitespace, text := ['\n'], line := number } ::
        tokensFrom version next ('#' :: rest) := by
  obtain ⟨next, htokens⟩ : ∃ next, tokensFrom version number ('\n' :: ('#' :: rest)) = _ :=
    tokensFrom_cons number '\n' ('#' :: rest)
  have hblanks : splitWhile isBlank ('#' :: rest) = ([], '#' :: rest) := by
    simp [splitWhile, isBlank, isBlankCodePoint]
  rw [scan_blank (by decide), hblanks] at htokens
  exact ⟨next, htokens⟩

theorem tokensFrom_row (version : GlslVersion) (number : Nat) {tail : Text}
    (htail : ∀ char ∈ tail, char ≠ '\\' ∧ char ≠ '\n') (rest : Text) :
    ∃ next, tokensFrom version number ('#' :: tail ++ '\n' :: rest) =
      { kind := .preprocessor, text := '#' :: tail, line := number } ::
        tokensFrom version next ('\n' :: rest) := by
  obtain ⟨next, htokens⟩ : ∃ next, tokensFrom version number ('#' :: (tail ++ '\n' :: rest)) = _ :=
    tokensFrom_cons number '#' (tail ++ '\n' :: rest)
  rw [scan_mark, splitDirective_plain htail] at htokens
  have hstop : splitDirective ('\n' :: rest) = ([], '\n' :: rest) := rfl
  rw [hstop] at htokens
  refine ⟨next, ?_⟩
  rw [List.cons_append, htokens]
  simp [Lexeme.ofSplit]

theorem tokensFrom_newline (version : GlslVersion) (number : Nat) (rest : Text) :
    ∃ blanks tokens, tokensFrom version number ('\n' :: rest) =
      { kind := .whitespace, text := '\n' :: blanks, line := number } :: tokens := by
  obtain ⟨next, htokens⟩ : ∃ next, tokensFrom version number ('\n' :: rest) = _ :=
    tokensFrom_cons number '\n' rest
  rw [scan_blank (by decide)] at htokens
  exact ⟨_, _, htokens⟩

/-! ## Directives on a line -/

private theorem hasDirective_mark (number : Nat) (post : Text) :
    HasDirective version (tokensFrom version number ('#' :: post)) post := by
  obtain ⟨next, htokens⟩ := tokensFrom_cons number '#' post
  rw [scan_mark] at htokens
  exact ⟨[], _, [], next, htokens, rfl, rfl, .inl rfl⟩

private theorem hasDirective_blanks (number : Nat) {blanks : Text}
    (hblanks : ∀ char ∈ blanks, isBlank char = true) (post : Text) :
    HasDirective version (tokensFrom version number (blanks ++ '#' :: post)) post := by
  cases blanks with
  | nil => exact hasDirective_mark number post
  | cons first blanks =>
      have hrest : ∀ char ∈ blanks, isBlank char = true := fun char hmem =>
        hblanks char (List.mem_cons_of_mem first hmem)
      obtain ⟨next, htokens⟩ := tokensFrom_cons number first (blanks ++ '#' :: post)
      rw [scan_blank (hblanks first List.mem_cons_self)] at htokens
      have hsplit : (splitWhile isBlank (blanks ++ '#' :: post)).2 = '#' :: post := by
        have hmark : ¬isBlank '#' = true := by decide
        rw [splitWhile, List.dropWhile_append_of_pos hrest]
        exact List.dropWhile_cons_of_neg hmark
      rw [Lexeme.ofSplit, hsplit] at htokens
      rw [List.cons_append, htokens]
      exact (hasDirective_mark next post).cons _

private theorem splitDirective_lines (body post : Text) :
    (∃ taken left, body = taken ++ left ∧
      splitDirective (body ++ '\n' :: '#' :: post) = (taken, left ++ '\n' :: '#' :: post)) ∨
    ((∃ before gap, body ++ ['\n'] = before ++ '\\' :: gap ∧ '\n' ∈ gap ∧
      ∀ char ∈ gap, isBlank char = true) ∧
      splitDirective (body ++ '\n' :: '#' :: post) =
        (body ++ '\n' :: '#' :: (splitDirective post).1, (splitDirective post).2)) := by
  have hline : splitDirective ('#' :: post) =
      ('#' :: (splitDirective post).1, (splitDirective post).2) :=
    splitDirective_cons (by decide) fun heq => absurd heq (by decide)
  rcases splitDirective_newline body with
    ⟨taken, left, hbody, _, _, hsplit⟩ | ⟨⟨before, hbefore⟩, -, hsplit⟩
  · exact .inl ⟨taken, left, hbody, hsplit _⟩
  · refine .inr ⟨⟨before, ?_⟩, by rw [hsplit, hline]⟩
    rcases hbefore with rfl | rfl
    · exact ⟨['\n'], by simp, by simp, by simp [isBlank, isBlankCodePoint]⟩
    · exact ⟨['\r', '\n'], by simp, by simp, by simp [isBlank, isBlankCodePoint]⟩

/-- How far the first lexeme of a text goes whose lines `above` are followed by a line
that begins with a `#`. -/
inductive Reach (first : Char) (above post : Text) (lexeme : Lexeme) : Prop where
  | inside (below : Text) (htail : above = lexeme.tail ++ below)
      (hrest : lexeme.rest = below ++ '#' :: post)
  | blank (hblank : ∀ char ∈ first :: above, isBlank char = true)
  | directive (before gap : Text) (hkind : lexeme.kind = .preprocessor)
      (htext : first :: lexeme.tail =
        '#' :: before ++ '\\' :: gap ++ '#' :: (splitDirective post).1)
      (hfeed : '\n' ∈ gap) (hgap : ∀ char ∈ gap, isBlank char = true)
      (hrest : lexeme.rest = (splitDirective post).2)
  | comment (hkind : lexeme.kind = .blockComment) (hlonger : above.length < lexeme.tail.length)

private theorem reach_whitespace (first : Char) (hfirst : isBlank first = true)
    (above post : Text) :
    Reach first above post
      (.ofSplit .whitespace (splitWhile isBlank (above ++ '#' :: post))) := by
  by_cases hall : ∀ char ∈ above, isBlank char = true
  · refine .blank fun char hmem => ?_
    rcases List.mem_cons.mp hmem with rfl | hmem
    · exact hfirst
    · exact hall char hmem
  · have hcut : CutsBefore '#' (splitWhile isBlank) := cutsBefore_splitWhile (by decide)
    refine .inside (above.dropWhile isBlank) ?_ ?_
    · rw [Lexeme.ofSplit, hcut above post]
      exact List.takeWhile_append_dropWhile.symm
    · rw [Lexeme.ofSplit, hcut above post]
      rfl

private theorem reach_directive {above : Text} (habove : Text.EndsLine ('#' :: above))
    (post : Text) :
    Reach '#' above post
      (.ofSplit .preprocessor (splitDirective (above ++ '#' :: post))) := by
  obtain ⟨body, rfl⟩ := habove.of_cons.resolve_left fun hnil => by
    subst hnil
    exact absurd (Text.endsLine_singleton_iff.mp habove) (by decide)
  rw [← List.append_cons]
  rcases splitDirective_lines body post with
    ⟨taken, left, rfl, hstop⟩ | ⟨⟨before, gap, hmore, hfeed, hgap⟩, hpass⟩
  · rw [hstop]
    exact .inside (left ++ ['\n']) (by simp [Lexeme.ofSplit]) (by simp [Lexeme.ofSplit])
  · rw [hpass]
    refine .directive before gap rfl ?_ hfeed hgap rfl
    rw [List.cons_append, ← hmore]
    simp [Lexeme.ofSplit]

private theorem reach_other {version : GlslVersion} {first : Char} {above post : Text}
    (habove : Text.EndsLine (first :: above)) (hfirst : isBlank first = false)
    (hother : (scan version first (above ++ '#' :: post)).kind = .blockComment ∨
      '\n' ∉ (scan version first (above ++ '#' :: post)).tail) :
    Reach first above post (scan version first (above ++ '#' :: post)) := by
  have hsplit := scan_append version first (above ++ '#' :: post)
  rcases List.append_eq_append_iff.mp hsplit with ⟨below, hwithin, hrest⟩ | ⟨beyond, htail, hrest⟩
  · exact .inside below hwithin hrest
  · cases beyond with
    | nil => exact .inside [] (by simpa using htail.symm) (by simpa using hrest.symm)
    | cons next beyond =>
        rcases hother with hkind | hfeed
        · refine .comment hkind ?_
          rw [htail]
          simp
        · exfalso
          obtain ⟨body, hbody⟩ := habove.resolve_left (by simp)
          have hmem : '\n' ∈ first :: above := by simp [hbody]
          rcases List.mem_cons.mp hmem with heq | hmem
          · rw [← heq] at hfirst
            exact absurd hfirst (by decide)
          · exact hfeed (by rw [htail]; exact List.mem_append_left _ hmem)

private theorem reach_scan (version : GlslVersion) {first : Char} {above : Text}
    (habove : Text.EndsLine (first :: above)) (post : Text) :
    Reach first above post (scan version first (above ++ '#' :: post)) := by
  rcases scan_cases version first (above ++ '#' :: post) with
    ⟨hfirst, hscan⟩ | ⟨rfl, hscan⟩ | ⟨hfirst, hother⟩
  · rw [hscan]
    exact reach_whitespace first hfirst above post
  · rw [hscan]
    exact reach_directive habove post
  · exact reach_other habove hfirst hother

theorem blockComment_or_hasDirective (number : Nat) {above : Text} (habove : above.EndsLine)
    (post : Text) :
    (∃ token, at? (tokensFrom version number (above ++ '#' :: post)) above.length = some token ∧
      token.kind = .blockComment) ∨
    HasDirective version (tokensFrom version number (above ++ '#' :: post)) post := by
  induction hlength : above.length using Nat.strong_induction_on generalizing above number with
  | _ length ih =>
  cases above with
  | nil => exact .inr (hasDirective_mark number post)
  | cons first above =>
      obtain ⟨next, htokens⟩ : ∃ next, tokensFrom version number
          (first :: (above ++ '#' :: post)) = _ := tokensFrom_cons number first _
      rw [List.cons_append, htokens]
      cases reach_scan version habove post with
      | inside below htail hrest =>
          have hline : Text.EndsLine
              (first :: (scan version first (above ++ '#' :: post)).tail ++ below) := by
            rw [List.cons_append, ← htail]
            exact habove
          have hadd := congrArg List.length htail
          rw [List.length_append] at hadd
          rw [List.length_cons] at hlength
          rw [hrest]
          rcases ih below.length (by omega) next hline.of_append rfl with
            ⟨token, htoken, hkind⟩ | hdirective
          · refine .inl ⟨token, ?_, hkind⟩
            rw [← htoken, ← hlength, hadd, Nat.add_right_comm]
            exact at?_cons_add _ _ _
          · exact .inr (hdirective.cons _)
      | blank hlines =>
          right
          rw [← htokens, ← List.cons_append]
          exact hasDirective_blanks number hlines post
      | directive before gap hkind htext hfeed hgap hrest =>
          right
          rw [hrest]
          exact ⟨[], _, '#' :: before ++ '\\' :: gap, next, rfl, hkind, htext,
            .inr ⟨before, gap, rfl, hfeed, hgap⟩⟩
      | comment hkind hlonger =>
          left
          rw [List.length_cons] at hlength
          rw [at?, if_pos (by rw [List.length_cons]; omega)]
          exact ⟨_, rfl, hkind⟩

end GlslCompose.Token
