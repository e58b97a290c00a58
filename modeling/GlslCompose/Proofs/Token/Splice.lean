import GlslCompose.Proofs.Token.Comments

/-!
# Rows that are put into a text

Rows that begin with a `#` may be put into a text behind a line feed.  The lexemes in
front of the line feed stay as they are, and those behind the rows too, unless a
backslash continues the line: the rows are directives of their own, or they lie in the
comment that is open at the line feed.
-/

namespace GlslCompose.Token

variable {version : GlslVersion}

/-- What a text is read as, with its comments but without blank space. -/
def lexemes (version : GlslVersion) (source : Text) : List (TokenKind × Text) :=
  solids (tokenize version source)

private theorem solids_eq_lexemes (number : Nat) (source : Text) :
    solids (tokensFrom version number source) = lexemes version source :=
  solids_tokensFrom number 1 source

theorem mem_lexemes {token : Token} {source : Text} (h : token ∈ tokenize version source)
    (hkind : token.kind ≠ .whitespace ∧ token.kind ≠ .eof) :
    (token.kind, token.text) ∈ lexemes version source :=
  List.mem_map_of_mem (List.mem_filter.mpr ⟨h, by simp [hkind]⟩)

theorem exists_of_mem_lexemes {kind : TokenKind} {text source : Text}
    (h : (kind, text) ∈ lexemes version source) :
    ∃ token ∈ tokenize version source, token.kind = kind ∧ token.text = text := by
  obtain ⟨token, htoken, heq⟩ := List.mem_map.mp h
  cases heq
  exact ⟨token, List.mem_of_mem_filter htoken, rfl, rfl⟩

@[simp] theorem lexemes_nil : lexemes version [] = [] := by
  unfold lexemes tokenize
  rw [tokensFrom.eq_1]
  rfl

theorem lexemes_blanks_append {blanks : Text} (hblanks : ∀ char ∈ blanks, isBlank char = true)
    (source : Text) : lexemes version (blanks ++ source) = lexemes version source :=
  solids_blanks_append hblanks 1 1 source

@[simp] theorem lexemes_newline (source : Text) :
    lexemes version ('\n' :: source) = lexemes version source :=
  lexemes_blanks_append (List.forall_mem_singleton.mpr (by decide)) source

theorem kind_scan_ne {first : Char} (hfirst : isBlank first = false) (rest : Text) :
    (scan version first rest).kind ≠ .whitespace ∧ (scan version first rest).kind ≠ .eof := by
  rcases scan_opening version first rest with hblank | ⟨-, hcomment⟩ | rfl | hplain
  · rw [hfirst] at hblank
    cases hblank
  · constructor <;> (intro hkind; rw [hkind] at hcomment; cases hcomment)
  · rw [scan_mark]
    exact ⟨nofun, nofun⟩
  · obtain ⟨hspace, hend, -, -⟩ := TokenKind.of_isPlain (isPlain_scan hplain)
    exact ⟨hspace, hend⟩

theorem lexemes_cons {first : Char} (hfirst : isBlank first = false) (rest : Text) :
    lexemes version (first :: rest) =
      ((scan version first rest).kind, first :: (scan version first rest).tail) ::
        lexemes version (scan version first rest).rest := by
  obtain ⟨next, htokens⟩ : ∃ next, tokensFrom version 1 (first :: rest) = _ :=
    tokensFrom_cons 1 first rest
  rw [lexemes, tokenize, htokens, solids_cons, if_neg (not_or.mpr (kind_scan_ne hfirst rest)),
    solids_eq_lexemes]

/-! ## Behind a line feed -/

theorem splitBlockComment_cons {char : Char} {rest : Text}
    (h : char = '*' → rest.head? ≠ some '/') :
    splitBlockComment (char :: rest) =
      (char :: (splitBlockComment rest).1, (splitBlockComment rest).2) := by
  rw [splitBlockComment]
  rintro after rfl rfl
  exact h rfl rfl

@[simp] theorem splitBlockComment_newline_cons (rest : Text) :
    splitBlockComment ('\n' :: rest) =
      ('\n' :: (splitBlockComment rest).1, (splitBlockComment rest).2) :=
  splitBlockComment_cons fun heq => absurd heq (by decide)

private theorem splitBlockComment_newline (source : Text) :
    (∀ more, splitBlockComment (source ++ '\n' :: more) =
      ((splitBlockComment source).1, (splitBlockComment source).2 ++ '\n' :: more)) ∨
    (¬['*', '/'] <:+ source ∧ splitBlockComment source = (source, []) ∧
      ∀ more, splitBlockComment (source ++ '\n' :: more) =
        (source ++ '\n' :: (splitBlockComment more).1, (splitBlockComment more).2)) := by
  fun_induction splitBlockComment source with
  | case1 rest => exact .inl fun more => rfl
  | case2 char rest hclose ih =>
      have hstep : ∀ more, splitBlockComment (char :: (rest ++ '\n' :: more)) =
          (char :: (splitBlockComment (rest ++ '\n' :: more)).1,
            (splitBlockComment (rest ++ '\n' :: more)).2) := by
        refine fun more => splitBlockComment_cons fun hstar hhead => ?_
        cases rest with
        | nil => simp at hhead
        | cons second rest =>
            cases hhead
            exact hclose rest hstar rfl
      rcases ih with hstop | ⟨hopen, hwhole, hpass⟩
      · exact .inl fun more => by rw [List.cons_append, hstep, hstop]
      · refine .inr ⟨fun hsuffix => ?_, by rw [hwhole], fun more => ?_⟩
        · rcases List.suffix_cons_iff.mp hsuffix with heq | hrest
          · cases heq
            exact hclose [] rfl rfl
          · exact hopen hrest
        · rw [List.cons_append, hstep, hpass]
          rfl
  | case3 => exact .inr ⟨by simp, rfl, fun more => rfl⟩

def Continues (line : Text) : Prop := ['\\'] <:+ line ∨ ['\\', '\r'] <:+ line

instance (line : Text) : Decidable (Continues line) :=
  inferInstanceAs (Decidable (['\\'] <:+ line ∨ ['\\', '\r'] <:+ line))

theorem not_continues_of_not_mem {line : Text} (h : '\\' ∉ line) : ¬Continues line := by
  rintro (hsuffix | hsuffix) <;> exact h (hsuffix.subset List.mem_cons_self)

theorem Continues.append_left {line : Text} (h : Continues line) (above : Text) :
    Continues (above ++ line) := by
  have hline : line <:+ above ++ line := List.suffix_append above line
  exact h.imp (·.trans hline) (·.trans hline)

theorem Continues.of_append {above line : Text} (h : Continues (above ++ line))
    (hmark : '#' ∈ line) : Continues line := by
  have hpart : ∀ last : Text, '#' ∉ last → last <:+ above ++ line → last <:+ line := by
    intro last hlast hsuffix
    rcases List.suffix_or_suffix_of_suffix hsuffix (List.suffix_append above line) with
      hline | hother
    · exact hline
    · exact absurd (hother.subset hmark) hlast
  exact h.imp (hpart _ (by decide)) (hpart _ (by decide))

/-- How the lexeme that a character opens is read when a line feed stands behind the text. -/
inductive ScanCut (version : GlslVersion) (first : Char) (rest : Text) : Prop where
  | within (hscan : ∀ more, scan version first (rest ++ '\n' :: more) =
      (scan version first rest).followedBy ('\n' :: more))
  | comment (inside : Text) (hfirst : first = '/') (hrest : rest = '*' :: inside)
      (hopen : ¬['*', '/'] <:+ inside) (hwhole : splitBlockComment inside = (inside, []))
      (hpass : ∀ more, splitBlockComment (inside ++ '\n' :: more) =
        (inside ++ '\n' :: (splitBlockComment more).1, (splitBlockComment more).2))
  | continued (hline : Continues (first :: rest)) (hfirst : first = '#')
      (hwhole : splitDirective rest = (rest, []))
      (hpass : ∀ more, splitDirective (rest ++ '\n' :: more) =
        (rest ++ '\n' :: (splitDirective more).1, (splitDirective more).2))

theorem scanCut (version : GlslVersion) {first : Char} (hfirst : isBlank first = false)
    (rest : Text) : ScanCut version first rest := by
  rcases scan_opening version first rest with hblank | ⟨rfl, hcomment⟩ | rfl | hplain
  · rw [hfirst] at hblank
    cases hblank
  · rcases head?_of_isComment hcomment with hline | ⟨inside, rfl⟩
    · refine .within fun more => ?_
      have hmore : (rest ++ '\n' :: more).head? = some '/' := by
        rw [List.head?_append, hline]
        rfl
      have hcut : CutsBefore '\n' (splitWhile (· != '\n')) := cutsBefore_splitWhile rfl
      rw [scan_lineComment hline, scan_lineComment hmore, hcut]
      rfl
    · rcases splitBlockComment_newline inside with hstop | ⟨hopen, hwhole, hpass⟩
      · refine .within fun more => ?_
        rw [List.cons_append, scan_blockComment, scan_blockComment, hstop]
        rfl
      · exact .comment inside rfl rfl hopen hwhole hpass
  · rcases splitDirective_newline rest with
      ⟨taken, left, -, -, hwhole, hstop⟩ | ⟨⟨body, hbody⟩, hwhole, hpass⟩
    · refine .within fun more => ?_
      rw [scan_mark, scan_mark, hstop, hwhole]
      rfl
    · refine .continued ?_ rfl hwhole hpass
      rcases hbody with rfl | rfl
      · exact .inl (List.suffix_append ('#' :: body) _)
      · exact .inr (List.suffix_append ('#' :: body) _)
  · refine .within fun more => scan_append_stop (by decide) (hplain.append ?_)
    rintro char ⟨⟩
    decide

/-- How a text is read up to a line feed behind it, and how it is read on from there. -/
inductive Cut (version : GlslVersion) (head : Text) : Prop where
  | free (hmore : ∀ more, lexemes version (head ++ '\n' :: more) =
      lexemes version head ++ lexemes version more)
  | comment (earlier : List (TokenKind × Text)) (inside : Text)
      (hopen : ¬['*', '/'] <:+ inside.drop 2)
      (hhead : lexemes version head = earlier ++ [(.blockComment, inside)])
      (hmore : ∀ more, lexemes version (head ++ '\n' :: more) =
        earlier ++ (.blockComment, inside ++ '\n' :: (splitBlockComment more).1) ::
          lexemes version (splitBlockComment more).2)
  | continued (hline : Continues head) (earlier : List (TokenKind × Text)) (inside : Text)
      (hhead : lexemes version head = earlier ++ [(.preprocessor, inside)])
      (hmore : ∀ more, lexemes version (head ++ '\n' :: more) =
        earlier ++ (.preprocessor, inside ++ '\n' :: (splitDirective more).1) ::
          lexemes version (splitDirective more).2)

theorem Cut.append_left {before rest : Text} {earlier : List (TokenKind × Text)}
    (hlexemes : lexemes version (before ++ rest) = earlier ++ lexemes version rest)
    (hmore : ∀ more, lexemes version (before ++ rest ++ '\n' :: more) =
      earlier ++ lexemes version (rest ++ '\n' :: more))
    (h : Cut version rest) : Cut version (before ++ rest) := by
  cases h with
  | free hrest => exact .free fun more => by rw [hmore, hrest, hlexemes, List.append_assoc]
  | comment others inside hopen hhead hrest =>
      refine .comment (earlier ++ others) inside hopen ?_ fun more => ?_
      · rw [hlexemes, hhead, List.append_assoc]
      · rw [hmore, hrest, List.append_assoc]
  | continued hline others inside hhead hrest =>
      refine .continued (hline.append_left before) (earlier ++ others) inside ?_ fun more => ?_
      · rw [hlexemes, hhead, List.append_assoc]
      · rw [hmore, hrest, List.append_assoc]

theorem Cut.blanks_append {blanks rest : Text} (hblanks : ∀ char ∈ blanks, isBlank char = true)
    (h : Cut version rest) : Cut version (blanks ++ rest) := by
  have hlexemes : ∀ more, lexemes version (blanks ++ more) = [] ++ lexemes version more :=
    lexemes_blanks_append hblanks
  refine h.append_left (hlexemes rest) fun more => ?_
  rw [List.append_assoc, hlexemes]

theorem Cut.cons {first : Char} {rest : Text} (h : Cut version (scan version first rest).rest)
    (hfirst : isBlank first = false)
    (hscan : ∀ more, scan version first (rest ++ '\n' :: more) =
      (scan version first rest).followedBy ('\n' :: more)) : Cut version (first :: rest) := by
  have hsplit : first :: rest =
      (first :: (scan version first rest).tail) ++ (scan version first rest).rest := by
    rw [List.cons_append, scan_append]
  have hlexemes : lexemes version (first :: rest) =
      [((scan version first rest).kind, first :: (scan version first rest).tail)] ++
        lexemes version (scan version first rest).rest := lexemes_cons hfirst rest
  rw [hsplit] at hlexemes ⊢
  refine h.append_left hlexemes fun more => ?_
  rw [← hsplit, List.cons_append, lexemes_cons hfirst, hscan]
  rfl

theorem cut (version : GlslVersion) (head : Text) : Cut version head := by
  induction hlength : head.length using Nat.strong_induction_on generalizing head with
  | _ length ih =>
  cases head with
  | nil => exact .free fun more => by rw [List.nil_append, lexemes_newline, lexemes_nil]; rfl
  | cons first rest =>
      have hle := length_scan_rest_le version first rest
      have hrest : Cut version (scan version first rest).rest :=
        ih _ (by rw [← hlength, List.length_cons]; omega) _ rfl
      by_cases hblank : isBlank first = true
      · rw [scan_blank hblank] at hrest
        have hblanks : ∀ char ∈ first :: rest.takeWhile isBlank, isBlank char = true := by
          intro char hmem
          rcases List.mem_cons.mp hmem with rfl | hmem
          · exact hblank
          · exact List.mem_takeWhile_imp hmem
        have hsplit : first :: rest = first :: rest.takeWhile isBlank ++ rest.dropWhile isBlank :=
          congrArg (first :: ·) List.takeWhile_append_dropWhile.symm
        rw [hsplit]
        exact hrest.blanks_append hblanks
      have hfirst : isBlank first = false := by simpa using hblank
      cases scanCut version hfirst rest with
      | within hscan => exact hrest.cons hfirst hscan
      | comment inside heq hcomment hopen hwhole hpass =>
          subst heq hcomment
          refine .comment [] ('/' :: '*' :: inside) hopen ?_ fun more => ?_
          · rw [lexemes_cons hfirst, scan_blockComment, hwhole]
            simp [Lexeme.ofSplit]
          · rw [List.cons_append, List.cons_append, lexemes_cons hfirst, scan_blockComment, hpass]
            simp [Lexeme.ofSplit]
      | continued hline heq hwhole hpass =>
          subst heq
          refine .continued hline [] ('#' :: rest) ?_ fun more => ?_
          · rw [lexemes_cons hfirst, scan_mark, hwhole]
            simp [Lexeme.ofSplit]
          · rw [List.cons_append, lexemes_cons hfirst, scan_mark, hpass]
            simp [Lexeme.ofSplit]

def ClosesComments (version : GlslVersion) (source : Text) : Prop :=
  ∀ lexeme ∈ lexemes version source, lexeme.1 = .blockComment → ['*', '/'] <:+ lexeme.2.drop 2

instance (version : GlslVersion) (source : Text) : Decidable (ClosesComments version source) :=
  inferInstanceAs (Decidable (∀ lexeme ∈ lexemes version source,
    lexeme.1 = .blockComment → ['*', '/'] <:+ lexeme.2.drop 2))

namespace ClosesComments

theorem of_blank {blank : Char} {rest : Text} (h : ClosesComments version (blank :: rest))
    (hblank : isBlank blank = true) : ClosesComments version rest := by
  have hlexemes : lexemes version ([blank] ++ rest) = lexemes version rest :=
    lexemes_blanks_append (List.forall_mem_singleton.mpr hblank) rest
  intro lexeme hmem
  rw [← hlexemes] at hmem
  exact h lexeme hmem

theorem of_scan {first : Char} {rest : Text} (h : ClosesComments version (first :: rest))
    (hfirst : isBlank first = false) : ClosesComments version (scan version first rest).rest := by
  intro lexeme hmem
  refine h lexeme ?_
  rw [lexemes_cons hfirst]
  exact List.mem_cons_of_mem _ hmem

theorem closes {inside : Text} (h : ClosesComments version ('/' :: '*' :: inside))
    (hwhole : splitBlockComment inside = (inside, [])) : ['*', '/'] <:+ inside := by
  have hmem : (.blockComment, '/' :: '*' :: inside) ∈ lexemes version ('/' :: '*' :: inside) := by
    rw [lexemes_cons (by decide), scan_blockComment, hwhole]
    exact List.mem_cons_self
  exact h _ hmem rfl

variable {head : Text}

theorem lexemes_append_newline (h : ClosesComments version head) (hhead : ¬Continues head)
    (more : Text) :
    lexemes version (head ++ '\n' :: more) = lexemes version head ++ lexemes version more := by
  cases cut version head with
  | free hmore => exact hmore more
  | comment earlier inside hopen hcomment _ =>
      have hmem : (.blockComment, inside) ∈ lexemes version head := by
        rw [hcomment]
        exact List.mem_append_right earlier List.mem_cons_self
      exact absurd (h _ hmem rfl) hopen
  | continued hline => exact absurd hline hhead

theorem of_append_newline (h : ClosesComments version (head ++ ['\n'])) (hhead : ¬Continues head) :
    ClosesComments version head := by
  cases cut version head with
  | free hmore =>
      have hlexemes := hmore []
      rw [lexemes_nil, List.append_nil] at hlexemes
      rwa [ClosesComments, hlexemes] at h
  | comment earlier inside _ _ hmore =>
      have hmem : (.blockComment, inside ++ ['\n']) ∈ lexemes version (head ++ ['\n']) := by
        rw [hmore]
        exact List.mem_append_right earlier List.mem_cons_self
      have hclosed : ['*'] ++ ['/'] <:+ inside ++ ['\n'] :=
        (h _ hmem rfl).trans (List.drop_suffix 2 _)
      obtain ⟨before, hbefore⟩ := hclosed
      rw [← List.append_assoc] at hbefore
      exact absurd (List.append_inj' hbefore rfl).2 (by decide)
  | continued hline => exact absurd hline hhead

end ClosesComments

/-! ## Rows -/

/-- A row that is a directive of its own, and no part of it closes a comment. -/
structure IsDirectiveRow (row : Text) : Prop where
  exists_tail : ∃ tail, row = '#' :: tail ∧ '\n' ∉ tail
  not_continues : ¬Continues row
  open_comment : ¬['*', '/'] <:+: row

private theorem splitDirective_row {tail : Text} (hfeed : '\n' ∉ tail)
    (hrow : ¬Continues ('#' :: tail))
    (rest : Text) : splitDirective (tail ++ '\n' :: rest) = (tail, '\n' :: rest) := by
  rcases splitDirective_newline tail with
    ⟨taken, left, rfl, hleft, -, hsplit⟩ | ⟨⟨body, hbody⟩, -⟩
  · have hnil : left = [] := hleft.resolve_right fun hhead =>
      hfeed (List.mem_append_right taken (List.mem_of_head? hhead))
    rw [hsplit, hnil, List.append_nil, List.nil_append]
  · refine absurd (Continues.append_left ?_ ['#']) hrow
    rcases hbody with rfl | rfl
    · exact .inl (List.suffix_append body _)
    · exact .inr (List.suffix_append body _)

theorem splitBlockComment_of_open {source : Text} (h : ¬['*', '/'] <:+: source) (more : Text) :
    splitBlockComment (source ++ '\n' :: more) =
      (source ++ '\n' :: (splitBlockComment more).1, (splitBlockComment more).2) := by
  induction source with
  | nil => exact splitBlockComment_newline_cons more
  | cons char rest ih =>
      have hrest : ¬['*', '/'] <:+: rest := fun hpart =>
        h (hpart.trans (List.suffix_cons char rest).isInfix)
      have hclose : char = '*' → (rest ++ '\n' :: more).head? ≠ some '/' := by
        rintro rfl hhead
        cases rest with
        | nil => simp at hhead
        | cons second rest =>
            cases hhead
            exact h (List.prefix_append ['*', '/'] rest).isInfix
      rw [List.cons_append, splitBlockComment_cons hclose, ih hrest]
      rfl

private theorem lexemes_row {tail : Text} (hfeed : '\n' ∉ tail) (hrow : ¬Continues ('#' :: tail))
    (more : Text) :
    lexemes version ('#' :: (tail ++ '\n' :: more)) =
      (.preprocessor, '#' :: tail) :: lexemes version more := by
  rw [lexemes_cons (by decide), scan_mark, splitDirective_row hfeed hrow]
  simp only [Lexeme.ofSplit, lexemes_newline]

theorem lexemes_rows {rows : List Text} (hrows : ∀ row ∈ rows, IsDirectiveRow row) (more : Text) :
    lexemes version (Text.ofRows rows ++ more) =
      rows.map (fun row => (.preprocessor, row)) ++ lexemes version more := by
  induction rows with
  | nil => rfl
  | cons row rows ih =>
      have hrow := hrows row List.mem_cons_self
      obtain ⟨tail, rfl, htail⟩ := hrow.exists_tail
      have hrest := ih fun other hother => hrows other (List.mem_cons_of_mem _ hother)
      rw [Text.ofRows_cons, List.append_assoc, List.cons_append, List.cons_append,
        lexemes_row htail hrow.not_continues, hrest]
      rfl

theorem splitBlockComment_rows {rows : List Text} (hrows : ∀ row ∈ rows, IsDirectiveRow row)
    (more : Text) :
    splitBlockComment (Text.ofRows rows ++ more) =
      (Text.ofRows rows ++ (splitBlockComment more).1, (splitBlockComment more).2) := by
  induction rows with
  | nil => rfl
  | cons row rows ih =>
      have hrow := (hrows row List.mem_cons_self).open_comment
      have hrest := ih fun other hother => hrows other (List.mem_cons_of_mem _ hother)
      rw [Text.ofRows_cons, List.append_assoc, List.cons_append,
        splitBlockComment_of_open hrow, hrest]
      simp

theorem mem_lexemes_splice {head : Text} (hhead : ¬Continues head) {rows : List Text}
    (hrows : ∀ row ∈ rows, IsDirectiveRow row) {tail text : Text}
    (h : (.preprocessor, text) ∈ lexemes version (head ++ '\n' :: (Text.ofRows rows ++ tail))) :
    text ∈ rows ∨ (.preprocessor, text) ∈ lexemes version (head ++ '\n' :: tail) := by
  cases cut version head with
  | free hmore =>
      rw [hmore, lexemes_rows hrows, List.mem_append, List.mem_append, List.mem_map] at h
      rw [hmore, List.mem_append]
      rcases h with hearlier | ⟨row, hrow, heq⟩ | hlater
      · exact .inr (.inl hearlier)
      · cases heq
        exact .inl hrow
      · exact .inr (.inr hlater)
  | comment earlier inside _ _ hmore =>
      rw [hmore, splitBlockComment_rows hrows, List.mem_append, List.mem_cons] at h
      rw [hmore, List.mem_append, List.mem_cons]
      rcases h with hearlier | heq | hlater
      · exact .inr (.inl hearlier)
      · cases heq
      · exact .inr (.inr (.inr hlater))
  | continued hline => exact absurd hline hhead

theorem mem_lexemes_of_append_newline {head : Text} (hhead : ¬Continues head) {text : Text}
    (h : (.preprocessor, text) ∈ lexemes version (head ++ ['\n'])) :
    (.preprocessor, text) ∈ lexemes version head := by
  cases cut version head with
  | free hmore =>
      rw [hmore, lexemes_nil, List.append_nil] at h
      exact h
  | comment earlier inside _ hcomment hmore =>
      rw [hmore, List.mem_append, List.mem_cons] at h
      rw [hcomment, List.mem_append]
      rcases h with hearlier | heq | hlater
      · exact .inl hearlier
      · cases heq
      · simp [splitBlockComment] at hlater
  | continued hline => exact absurd hline hhead

end GlslCompose.Token
