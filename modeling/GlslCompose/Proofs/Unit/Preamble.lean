import GlslCompose.Proofs.Token.Front
import GlslCompose.Proofs.Unit.Marks

/-!
# Rows behind a preamble line

Rows that are put behind a `#version` or `#extension` line go through the expansion of
includes in one piece, unless a block comment holds them.  If a backslash continues the
line, its directive takes the first row in, and this row still stands on a line of its own.
-/

namespace GlslCompose.Composer

variable {composer : Composer} {placement : Placement} {directory text : Text} {number : Nat}
  {tokens : List Token}

/-! ## What the text in front of the rows ends with -/

private theorem Expands.exists_keep_of_mark {before word source : Text}
    (h : composer.Expands placement directory tokens text)
    (htokens : tokens = Token.tokensFrom composer.version number source)
    (htext : text = before ++ '#' :: word) (hfeed : '\n' ∉ word) :
    ∃ earlier token last kept, tokens = earlier ++ [token, last] ∧
      Include.request token = .keep kept ∧ '#' :: word <:+ kept := by
  induction h generalizing before number source with
  | nil => simp at htext
  | drop hrequest hrest ih =>
      rcases Token.exists_scan_of_tokensFrom htokens with ⟨-, rfl⟩ | ⟨_, _, _, -, htail⟩
      · rw [hrest.eq_nil] at htext
        simp at htext
      · obtain ⟨earlier, token, last, kept, rfl, hkept⟩ := ih htail htext
        exact ⟨_ :: earlier, token, last, kept, rfl, hkept⟩
  | keep hrequest hrest ih =>
      rcases Token.exists_scan_of_tokensFrom htokens with
        ⟨rfl, -⟩ | ⟨first, rest, next, rfl, htail⟩
      · cases hrequest
      rcases Text.mark_cases htext with ⟨near, rfl, rfl⟩ | ⟨mid, -, hmore⟩
      · -- The mark is the token's, so it is a directive, and nothing stands behind it.
        obtain rfl : first = '#' := by
          by_contra hfirst
          rcases Include.request_scan composer.version hfirst rest number with
            hnothing | ⟨hkeep, hfree⟩
          · cases hnothing.symm.trans hrequest
          · rw [Include.Request.keep.inj (hkeep.symm.trans hrequest)] at hfree
            simp at hfree
        have hbehind : (Token.scan composer.version '#' rest).rest =
            (Token.splitDirective rest).2 := by
          rw [Token.scan_mark]
          rfl
        rw [hbehind] at htail
        subst htail
        rcases Token.splitDirective_snd rest with hnil | ⟨below, hbelow⟩
        · rw [hnil, Token.tokensFrom.eq_1] at hrest ⊢
          rw [(hrest.of_nothing rfl).eq_nil, List.append_nil]
          exact ⟨[], _, _, _, rfl, hrequest, List.suffix_append before _⟩
        · rw [hbelow] at hrest
          obtain ⟨more, rfl⟩ := hrest.exists_newline
          simp at hfeed
      · obtain ⟨earlier, token, last, kept, rfl, hkept⟩ := ih htail hmore
        exact ⟨_ :: earlier, token, last, kept, rfl, hkept⟩
  | fetch hrequest hmodule hsource hplace hinner hrest ihInner ih =>
      rcases Token.exists_scan_of_tokensFrom htokens with ⟨rfl, -⟩ | ⟨_, _, _, -, htail⟩
      · cases hrequest
      rcases Text.mark_cases htext with ⟨near, hunit, rfl⟩ | ⟨mid, -, hmore⟩
      · -- The text of a module ends with a line feed.
        have hline := hunit ▸ endsLine_unitText composer _
        obtain ⟨body, hbody⟩ := hline.of_append.resolve_left (List.cons_ne_nil _ _)
        cases body with
        | nil => simp at hbody
        | cons char body =>
            obtain ⟨-, rfl⟩ := List.cons.inj hbody
            simp at hfeed
      · obtain ⟨earlier, token, last, kept, rfl, hkept⟩ := ih htail hmore
        exact ⟨_ :: earlier, token, last, kept, rfl, hkept⟩

/-- With the line feed behind it, what the token leaves ends with the tooling marker. -/
def endsInMarker (token : Token) : Bool :=
  match Include.request token with
  | .keep kept => toolingMarker <:+ kept ++ ['\n']
  | _ => false

private theorem Expands.append_eof {earlier later : List Token} {source : Text}
    (htokens : Token.tokensFrom composer.version number source = earlier ++ later)
    (hlater : later ≠ []) (h : composer.Expands placement directory earlier text) :
    ∃ line, Token.tokensFrom composer.version number (Token.concat earlier) =
        earlier ++ [⟨.eof, [], line⟩] ∧
      composer.Expands placement directory (earlier ++ [⟨.eof, [], line⟩]) text := by
  obtain ⟨line, hread⟩ := Token.exists_tokensFrom_concat htokens hlater
  have hend : composer.Expands placement directory [⟨.eof, [], line⟩] [] :=
    .drop rfl (.nil directory)
  have hwhole := h.append hend
  rw [List.append_nil] at hwhole
  exact ⟨line, hread, hwhole⟩

theorem Expands.eachMark_of_front {holds : Text → Prop} (hstable : IsStable holds)
    (hstages : composer.stages = []) (hprecision : '#' ∉ composer.precision)
    {earlier later : List Token} {source : Text}
    (htokens : Token.tokensFrom composer.version number source = earlier ++ later)
    (hlater : later ≠ []) (hkeeps : KeepsMarks holds earlier)
    (hmodules : ∀ argument ∈ includeArguments earlier, ∀ path module,
      composer.modules.source? path = some module →
        KeepsMarks holds (composer.unitTokens module))
    (h : composer.Expands placement directory earlier text) : text.EachMark holds := by
  obtain ⟨line, hread, hwhole⟩ := h.append_eof htokens hlater
  refine hwhole.eachMark hstable hstages hprecision (fun argument hmem => ?_) number _ hread.symm ?_
  · rw [includeArguments, List.filterMap_append, List.mem_append] at hmem
    exact hmodules argument (hmem.resolve_right List.not_mem_nil)
  · intro token hmem hkind
    rcases List.mem_append.mp hmem with hmem | hmem
    · exact hkeeps token hmem hkind
    · rw [List.mem_singleton.mp hmem] at hkind
      cases hkind

private theorem Expands.not_marker_suffix {earlier later : List Token} {source : Text}
    (htokens : Token.tokensFrom composer.version number source = earlier ++ later)
    (hlater : later ≠ [])
    (hmarker : ∀ token ∈ Token.at? (earlier ++ later) ((Token.concat earlier).length - 1),
      endsInMarker token = false)
    (h : composer.Expands placement directory earlier text) :
    ¬toolingMarker <:+ text ++ ['\n'] := by
  rintro ⟨before, heq⟩
  obtain ⟨line, hread, hwhole⟩ := h.append_eof htokens hlater
  have hmark : text = before ++ '#' :: "define GLSLIFY 1".toList := by
    rw [toolingMarker_eq_concat, ← List.append_assoc] at heq
    rw [← (List.append_inj' heq rfl).1]
    simp
  obtain ⟨init, directive, last, kept, hinit, hrequest, hsuffix⟩ :=
    hwhole.exists_keep_of_mark hread.symm hmark (by decide)
  rw [List.append_cons init] at hinit
  obtain ⟨rfl, -⟩ := List.append_inj' hinit rfl
  have hne : directive.text ≠ [] := Token.text_ne_nil_of_mem htokens hlater (by simp)
  have hlength := List.length_pos_iff.mpr hne
  have hoffset : (Token.concat (init ++ [directive])).length - 1 =
      (Token.concat init).length + (directive.text.length - 1) := by
    rw [Token.concat_append, List.length_append, Token.concat_cons, List.length_append]
    simp only [Token.concat, List.flatMap_nil, List.length_nil]
    omega
  rw [hoffset, ← List.append_cons] at hmarker
  have hfalse := hmarker directive (Token.at?_append_add (by omega) init later)
  rw [endsInMarker, hrequest] at hfalse
  refine of_decide_eq_false hfalse ?_
  obtain ⟨inside, rfl⟩ := hsuffix
  exact ⟨inside, by rw [toolingMarker_eq_concat]; simp⟩

private theorem Expands.endsCleanly {earlier later : List Token} {token : Token}
    {source above more : Text}
    (htokens : Token.tokensFrom composer.version number source = earlier ++ token :: later)
    (hmark : token.text = '#' :: more) (habove : Token.concat earlier = above ++ ['\n'])
    (hmarker : ∀ other ∈ Token.at? (earlier ++ token :: later) (above.length - 1),
      endsInMarker other = false)
    (h : composer.Expands placement directory earlier text) : EndsCleanly text := by
  obtain ⟨init, blank, blanks, rfl, hkind, hblank, hspaces, rfl⟩ :=
    Token.exists_whitespace_of_mark htokens hmark habove
  obtain ⟨front, _, rfl, hfront, hlast⟩ := h.exists_append
  obtain ⟨_, rfl, hnil⟩ := hlast.of_keep (Include.request_of_isPlain (.inl hkind))
  rw [hnil.eq_nil, List.append_nil, hblank, ← List.append_assoc]
  rcases List.eq_nil_or_concat blanks with rfl | ⟨others, char, rfl⟩
  · rw [List.append_assoc] at htokens hmarker
    rw [List.append_nil] at hmarker ⊢
    refine ⟨Text.endsLine_append_newline _, fun before heq => ?_⟩
    exact absurd ⟨before, heq.symm⟩ (hfront.not_marker_suffix htokens (by simp) hmarker)
  · rw [List.concat_eq_append, ← List.append_assoc]
    refine endsCleanly_append ?_ _
    rintro rfl
    exact absurd (hspaces '1' (by simp)) (by decide)

private theorem endsCleanly_of_continued {gap : Text} (hline : gap.EndsLine) (hfeed : '\n' ∈ gap)
    (hgap : ∀ char ∈ gap, isBlank char = true) (front before : Text) :
    EndsCleanly (front ++ ('#' :: before ++ '\\' :: gap)) := by
  obtain ⟨init, rfl⟩ := hline.resolve_left (List.ne_nil_of_mem hfeed)
  rcases List.eq_nil_or_concat init with rfl | ⟨blanks, char, rfl⟩
  · have hslash := endsCleanly_append (by decide : '\\' ≠ '1') (front ++ '#' :: before)
    simpa using hslash
  · have hchar : char ≠ '1' := by
      rintro rfl
      exact absurd (hgap '1' (by simp)) (by decide)
    have hblank := endsCleanly_append hchar (front ++ '#' :: before ++ '\\' :: blanks)
    simpa using hblank

/-! ## The rows -/

private theorem path_ne_ok_of_getLast? {last : Char} (hword : continuesWord last = true)
    (hlast : text.getLast? = some last) (directory found : Text) :
    Include.path directory (Directive.body Directive.includeName text) ≠ .ok found := by
  intro hpath
  have hclosing := Include.getLast?_of_path hpath
  have hne : Directive.body Directive.includeName text ≠ [] := by
    intro hnil
    rw [hnil] at hclosing
    simp at hclosing
  rw [Directive.getLast?_body (isBlank_of_continuesWord hword) hlast hne] at hclosing
  rcases hclosing with heq | heq
  · rw [Option.some.inj heq] at hword
    exact absurd hword (by decide)
  · rw [Option.some.inj heq] at hword
    exact absurd hword (by decide)

private theorem request_of_continued {token : Token} {before gap key value : Text}
    (h : Directive.IsPlain key value) (hkind : token.kind = .preprocessor)
    (htext : token.text = '#' :: before ++ '\\' :: gap ++ Directive.defineLine key value)
    (hfeed : '\n' ∈ gap) (hpath : ∀ argument, Include.request token = .fetch argument →
      ∃ directory found, Include.path directory argument = .ok found) :
    Include.request token = .keep token.text := by
  have hrequest : Include.request token = Include.requestOfDirective token.text := by
    rw [Include.request, hkind]
  have hcomplete : Include.completeDefine token.text = token.text := by
    rw [htext, Directive.defineLine_eq_cons]
    exact Include.completeDefine_eq_self (Directive.body_any_isBlank (by decide) hfeed)
  rw [hrequest] at hpath ⊢
  refine (Include.requestOfDirective_cases fun _ => hcomplete).resolve_right ?_
  rintro ⟨-, hfetch⟩
  obtain ⟨directory, found, hfound⟩ := hpath _ hfetch
  obtain ⟨last, hlast, hword⟩ := h.getLast?_defineLine
  refine path_ne_ok_of_getLast? hword ?_ directory found hfound
  rw [htext, List.getLast?_append_of_ne_nil _ (by rw [Directive.defineLine_eq_cons]; simp), hlast]

private theorem Expands.exists_rows_of_continued {entry : Text × Text}
    {defines : List (Text × Text)}
    (hdefines : ∀ other ∈ entry :: defines, Directive.IsPlain other.1 other.2) {token : Token}
    {before gap tail : Text} (hkind : token.kind = .preprocessor)
    (htext : token.text = '#' :: before ++ '\\' :: gap ++ Directive.defineLine entry.1 entry.2)
    (hfeed : '\n' ∈ gap)
    (h : composer.Expands placement directory (token :: Token.tokensFrom composer.version number
      ('\n' :: (Text.ofRows (Directive.defineRows defines) ++ tail))) text) :
    Include.request token = .keep token.text ∧ ∃ more, text = '#' :: before ++ '\\' :: gap ++
      Text.ofRows (Directive.defineRows (entry :: defines)) ++ more := by
  have hrequest := request_of_continued (hdefines entry List.mem_cons_self) hkind htext hfeed
    fun argument hfetch => ⟨directory, (h.of_fetch hfetch).1⟩
  obtain ⟨_, rfl, hbelow⟩ := h.of_keep hrequest
  obtain ⟨more, rfl⟩ := hbelow.exists_rows fun other hother =>
    hdefines other (List.mem_cons_of_mem entry hother)
  refine ⟨hrequest, more, ?_⟩
  rw [htext, List.append_assoc _ (Text.ofRows _), Directive.ofRows_defineRows_cons]
  simp

/-- Rows behind any text are expanded to themselves, if no block comment holds them.  What
stands in front of them has been made of tokens that begin there. -/
theorem Expands.exists_rows_behind {above tail : Text} {entry : Text × Text}
    {defines : List (Text × Text)}
    (hdefines : ∀ other ∈ entry :: defines, Directive.IsPlain other.1 other.2)
    (htokens : tokens = Token.tokensFrom composer.version number
      (above ++ '\n' :: (Text.ofRows (Directive.defineRows (entry :: defines)) ++ tail)))
    (hcode : ∀ token ∈ Token.at? tokens (above.length + 1), token.kind ≠ .blockComment)
    (hmarker : ∀ token ∈ Token.at? tokens (above.length - 1), endsInMarker token = false)
    (h : composer.Expands placement directory tokens text) :
    ∃ left more, text = left ++ Text.ofRows (Directive.defineRows (entry :: defines)) ++ more ∧
      EndsCleanly left ∧
      ∃ front later behind, tokens = front ++ later ∧ later ≠ [] ∧
        composer.Expands placement directory front (left ++ behind) ∧
        front ⊆ Token.inFront tokens (above.length + 1) := by
  have hentry := hdefines entry List.mem_cons_self
  rw [Directive.ofRows_defineRows_cons, Directive.defineLine_eq_cons, List.cons_append] at htokens
  obtain ⟨earlier, token, near, next, hsplit, hkind, htext, hconcat, hnear⟩ :=
    Token.exists_directive_of_row hentry.plain_rowTail htokens hcode
  subst hsplit
  obtain ⟨front, _, rfl, hfront, hrest⟩ := h.exists_append
  rcases hnear with rfl | ⟨before, gap, rfl, hfeed, hgap⟩
  · -- The first row is a directive of its own.
    rw [List.append_nil] at hconcat
    obtain ⟨more, rfl⟩ := hrest.exists_rows_of_token hdefines hkind htext
    refine ⟨front, more, by simp, hfront.endsCleanly htokens.symm htext hconcat hmarker,
      earlier, _, [], rfl, List.cons_ne_nil _ _, by rwa [List.append_nil], ?_⟩
    obtain ⟨init, blank, blanks, rfl, -, -, -, rfl⟩ :=
      Token.exists_whitespace_of_mark htokens.symm htext hconcat
    rw [← List.append_cons]
    exact Token.subset_inFront (by rw [List.length_append]; omega) blank _
  · -- The directive of the line in front takes the first row in.
    have hclean : EndsCleanly (front ++ ('#' :: before ++ '\\' :: gap)) := by
      refine endsCleanly_of_continued ?_ hfeed hgap front before
      have hline := hconcat ▸ Text.endsLine_append_newline above
      exact hline.of_append.of_suffix ((List.suffix_cons '\\' gap).trans (List.suffix_append _ _))
    have hline : token.text =
        '#' :: before ++ '\\' :: gap ++ Directive.defineLine entry.1 entry.2 := by
      rw [htext, Directive.defineLine_eq_cons]
    obtain ⟨hrequest, more, rfl⟩ := hrest.exists_rows_of_continued hdefines hkind hline hfeed
    have hlength := congrArg List.length hconcat
    simp only [List.length_append, List.length_cons, List.length_nil] at hlength
    refine ⟨_, more, by simp, hclean, earlier ++ [token], _,
      Directive.defineLine entry.1 entry.2, List.append_cons _ _ _, ?_, ?_,
      Token.subset_inFront (by omega) token _⟩
    · obtain ⟨blanks, others, hothers⟩ := Token.tokensFrom_newline composer.version next
        (Text.ofRows (Directive.defineRows defines) ++ tail)
      rw [hothers]
      exact List.cons_ne_nil _ _
    · have hkept := hfront.append (.keep hrequest (.nil directory))
      rw [List.append_nil, hline, ← List.append_assoc] at hkept
      exact hkept

end GlslCompose.Composer
