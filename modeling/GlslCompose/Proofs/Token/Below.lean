import GlslCompose.Proofs.Token.Partition

/-!
# Rows below a row

A row may leave a comment or a directive open at its end.  What is left open takes the
rows below it up to the one that ends it: a row with the closing mark, or the first row
that no backslash continues.
-/

namespace GlslCompose

namespace Text

/-! ## Rows below a first one -/

def below (rows : List Text) : Text := rows.flatMap ('\n' :: ·)

@[simp] theorem below_nil : below [] = [] := rfl

@[simp] theorem below_cons (row : Text) (rows : List Text) :
    below (row :: rows) = '\n' :: (row ++ below rows) := rfl

@[simp] theorem below_append (first second : List Text) :
    below (first ++ second) = below first ++ below second := List.flatMap_append

theorem unlines_cons (row : Text) (rows : List Text) :
    unlines (row :: rows) = row ++ below rows := by
  induction rows generalizing row with
  | nil => simp [unlines]
  | cons second rows ih =>
      have hrest : unlines (row :: second :: rows) = row ++ '\n' :: unlines (second :: rows) := by
        simp [unlines, List.intercalate]
      rw [hrest, ih, below_cons]

theorem exists_below (source : Text) :
    ∃ row rows, source = row ++ below rows ∧ '\n' ∉ row ∧ ∀ other ∈ rows, '\n' ∉ other := by
  induction source with
  | nil => exact ⟨[], [], rfl, List.not_mem_nil, nofun⟩
  | cons char source ih =>
      obtain ⟨row, rows, rfl, hrow, hrows⟩ := ih
      by_cases hfeed : char = '\n'
      · subst hfeed
        exact ⟨[], row :: rows, rfl, List.not_mem_nil, List.forall_mem_cons.mpr ⟨hrow, hrows⟩⟩
      · refine ⟨char :: row, rows, rfl, fun hmem => ?_, hrows⟩
        rcases List.mem_cons.mp hmem with heq | hmem
        · exact hfeed heq.symm
        · exact hrow hmem

private theorem splitOn_append_below {row : Text} (hrow : '\n' ∉ row) {rows : List Text}
    (hrows : ∀ other ∈ rows, '\n' ∉ other) : (row ++ below rows).splitOn '\n' = row :: rows := by
  rw [← unlines_cons]
  exact List.splitOn_intercalate '\n' (List.forall_mem_cons.mpr ⟨hrow, hrows⟩)
    (List.cons_ne_nil row rows)

theorem below_injective {rows others : List Text} (hrows : ∀ row ∈ rows, '\n' ∉ row)
    (hothers : ∀ row ∈ others, '\n' ∉ row) (h : below rows = below others) : rows = others := by
  have hsplit := splitOn_append_below (List.not_mem_nil (a := '\n')) hrows
  rw [h, splitOn_append_below List.not_mem_nil hothers] at hsplit
  exact (List.cons.inj hsplit).2.symm

/-- The text with other rows in the place of each row below its first one. -/
def relay (lay : Text → List Text) (text : Text) : Text :=
  match text.splitOn '\n' with
  | [] => []
  | row :: rows => row ++ below (rows.flatMap lay)

theorem relay_append_below (lay : Text → List Text) {row : Text} (hrow : '\n' ∉ row)
    {rows : List Text} (hrows : ∀ other ∈ rows, '\n' ∉ other) :
    relay lay (row ++ below rows) = row ++ below (rows.flatMap lay) := by
  rw [relay, splitOn_append_below hrow hrows]

theorem relay_of_not_mem (lay : Text → List Text) {row : Text} (hrow : '\n' ∉ row) :
    relay lay row = row := by
  have hrelay := relay_append_below lay hrow (List.forall_mem_nil ('\n' ∉ ·))
  rwa [List.flatMap_nil, below_nil, List.append_nil] at hrelay

end Text

namespace Token

variable {version : GlslVersion}

theorem not_mem_of_mem_lexemes {source : Text} {char : Char} (hsource : char ∉ source)
    {lexeme : TokenKind × Text} (h : lexeme ∈ lexemes version source) : char ∉ lexeme.2 := by
  obtain ⟨token, htoken, -, htext⟩ := exists_of_mem_lexemes h
  have hpart : token.text <:+: concat (tokenize version source) := infix_concat htoken
  rw [concat_tokenize] at hpart
  rw [← htext]
  exact fun hmem => hsource (hpart.subset hmem)

/-! ## Comments over rows -/

theorem splitBlockComment_eq_self {source : Text} (h : ¬['*', '/'] <:+: source) :
    splitBlockComment source = (source, []) := by
  fun_induction splitBlockComment source with
  | case1 rest => exact absurd (List.prefix_append ['*', '/'] rest).isInfix h
  | case2 char rest _ ih =>
      rw [ih fun hpart => h (hpart.trans (List.suffix_cons char rest).isInfix)]
  | case3 => rfl

theorem splitBlockComment_of_infix {source : Text} (h : ['*', '/'] <:+: source) :
    ∃ inside rest, source = inside ++ rest ∧ ['*', '/'] <:+ inside ∧
      ∀ more, splitBlockComment (source ++ more) = (inside, rest ++ more) := by
  fun_induction splitBlockComment source with
  | case1 rest => exact ⟨['*', '/'], rest, rfl, List.suffix_rfl, fun _ => rfl⟩
  | case2 char rest hclose ih =>
      have hrest : ['*', '/'] <:+: rest := by
        rcases List.infix_cons_iff.mp h with ⟨after, hafter⟩ | hrest
        · obtain ⟨rfl, rfl⟩ := List.cons.inj hafter
          exact absurd rfl (hclose after rfl)
        · exact hrest
      obtain ⟨inside, left, rfl, hsuffix, hsplit⟩ := ih hrest
      refine ⟨char :: inside, left, rfl, hsuffix.trans (List.suffix_cons char inside), ?_⟩
      intro more
      rw [List.cons_append, splitBlockComment_cons, hsplit]
      intro hstar hhead
      obtain ⟨first, body, heq⟩ := List.exists_cons_of_ne_nil
        (List.ne_nil_of_mem (hrest.subset List.mem_cons_self))
      rw [heq] at hhead hclose
      cases hhead
      exact hclose body hstar rfl
  | case3 => simp at h

private theorem splitBlockComment_below {rows : List Text}
    (hrows : ∀ row ∈ rows, ¬['*', '/'] <:+: row) (more : List Text) :
    splitBlockComment (Text.below (rows ++ more)) =
      (Text.below rows ++ (splitBlockComment (Text.below more)).1,
        (splitBlockComment (Text.below more)).2) := by
  induction rows with
  | nil => rfl
  | cons row rows ih =>
      have hrow := hrows row List.mem_cons_self
      have hrest := ih fun other hother => hrows other (List.mem_cons_of_mem row hother)
      rw [List.cons_append, Text.below_cons, splitBlockComment_newline_cons]
      cases hbelow : rows ++ more with
      | nil =>
          obtain ⟨rfl, rfl⟩ := List.append_eq_nil_iff.mp hbelow
          simp [splitBlockComment_eq_self hrow, splitBlockComment]
      | cons second others =>
          rw [hbelow, Text.below_cons, splitBlockComment_newline_cons] at hrest
          obtain ⟨hinside, hleft⟩ := Prod.mk.inj hrest
          rw [Text.below_cons, splitBlockComment_of_open hrow, hinside, hleft]
          simp

theorem splitBlockComment_below_open {rows : List Text}
    (hrows : ∀ row ∈ rows, ¬['*', '/'] <:+: row) :
    splitBlockComment (Text.below rows) = (Text.below rows, []) := by
  have hsplit := splitBlockComment_below hrows []
  rwa [List.append_nil, Text.below_nil, splitBlockComment, List.append_nil] at hsplit

theorem splitBlockComment_closing {above : List Text}
    (habove : ∀ row ∈ above, ¬['*', '/'] <:+: row) {row inside rest : Text}
    (hrow : ∀ more, splitBlockComment (row ++ more) = (inside, rest ++ more))
    (others : List Text) :
    splitBlockComment (Text.below (above ++ row :: others)) =
      (Text.below (above ++ [inside]), rest ++ Text.below others) := by
  have hfeed : splitBlockComment ('\n' :: (row ++ Text.below others)) =
      ('\n' :: inside, rest ++ Text.below others) := by
    rw [splitBlockComment_newline_cons, hrow]
  rw [splitBlockComment_below habove, Text.below_cons, hfeed]
  simp

/-! ## Directives over rows -/

/-- A directive goes on behind the row. -/
def PassesOn (row : Text) : Prop := (splitDirective (row ++ ['\n'])).2 = []

instance (row : Text) : Decidable (PassesOn row) :=
  inferInstanceAs (Decidable ((splitDirective (row ++ ['\n'])).2 = []))

private theorem splitDirective_cases {row : Text} (hrow : '\n' ∉ row) :
    splitDirective row = (row, []) ∧
      ((¬PassesOn row ∧ ∀ rest, splitDirective (row ++ '\n' :: rest) = (row, '\n' :: rest)) ∨
        (PassesOn row ∧ Continues row ∧ ∀ rest, splitDirective (row ++ '\n' :: rest) =
          (row ++ '\n' :: (splitDirective rest).1, (splitDirective rest).2))) := by
  unfold PassesOn
  rcases splitDirective_newline row with
    ⟨taken, left, rfl, hleft, hwhole, hstop⟩ | ⟨⟨body, hbody⟩, hwhole, hpass⟩
  · obtain rfl : left = [] := hleft.resolve_right fun hhead =>
      hrow (List.mem_append_right taken (List.mem_of_head? hhead))
    rw [List.append_nil] at hwhole hstop ⊢
    refine ⟨hwhole, .inl ⟨?_, hstop⟩⟩
    rw [hstop]
    exact List.cons_ne_nil _ _
  · refine ⟨hwhole, .inr ⟨?_, ?_, hpass⟩⟩
    · rw [hpass]
      rfl
    · rcases hbody with rfl | rfl
      · exact .inl (List.suffix_append body _)
      · exact .inr (List.suffix_append body _)

theorem continues_of_passesOn {row : Text} (hrow : '\n' ∉ row) : PassesOn row → Continues row := by
  obtain ⟨-, ⟨hstop, -⟩ | ⟨-, hline, -⟩⟩ := splitDirective_cases hrow
  · exact fun hpass => absurd hpass hstop
  · exact fun _ => hline

def directiveRows : List Text → List Text × List Text
  | [] => ([], [])
  | row :: rows =>
      if PassesOn row then (row :: (directiveRows rows).1, (directiveRows rows).2)
      else ([row], rows)

theorem directiveRows_of_stop {row : Text} (hstop : ¬PassesOn row) (rows : List Text) :
    directiveRows (row :: rows) = ([row], rows) := by
  rw [directiveRows, if_neg hstop]

theorem directiveRows_of_pass {row : Text} (hpass : PassesOn row) (rows : List Text) :
    directiveRows (row :: rows) = (row :: (directiveRows rows).1, (directiveRows rows).2) := by
  rw [directiveRows, if_pos hpass]

@[simp] theorem directiveRows_append (rows : List Text) :
    (directiveRows rows).1 ++ (directiveRows rows).2 = rows := by
  induction rows with
  | nil => rfl
  | cons row rows ih =>
      by_cases hpass : PassesOn row
      · rw [directiveRows_of_pass hpass]
        exact congrArg (row :: ·) ih
      · rw [directiveRows_of_stop hpass]
        rfl

theorem exists_directiveRows_cons (row : Text) (rows : List Text) :
    ∃ more, (directiveRows (row :: rows)).1 = row :: more := by
  rw [directiveRows]
  split
  · exact ⟨_, rfl⟩
  · exact ⟨_, rfl⟩

private theorem splitDirective_below {row : Text} {rows : List Text}
    (hrows : ∀ other ∈ row :: rows, '\n' ∉ other) :
    '\n' :: (splitDirective (row ++ Text.below rows)).1 =
        Text.below (directiveRows (row :: rows)).1 ∧
      (splitDirective (row ++ Text.below rows)).2 = Text.below (directiveRows (row :: rows)).2 := by
  induction rows generalizing row with
  | nil =>
      obtain ⟨hwhole, -⟩ := splitDirective_cases (hrows row List.mem_cons_self)
      rw [Text.below_nil, List.append_nil, hwhole]
      by_cases hpass : PassesOn row <;> simp [directiveRows, hpass]
  | cons second rows ih =>
      obtain ⟨hrow, hrest⟩ := List.forall_mem_cons.mp hrows
      obtain ⟨hinside, hleft⟩ := ih hrest
      obtain ⟨-, ⟨hstop, hsplit⟩ | ⟨hpass, -, hsplit⟩⟩ := splitDirective_cases hrow
      · rw [Text.below_cons, hsplit, directiveRows_of_stop hstop]
        simp
      · rw [Text.below_cons, hsplit, directiveRows_of_pass hpass]
        simp [hinside, hleft]

/-! ## Lexemes over rows -/

variable {row : Text} {rows : List Text} {earlier : List (TokenKind × Text)} {inside : Text}

theorem lexemes_below_free
    (hmore : ∀ more, lexemes version (row ++ '\n' :: more) =
      lexemes version row ++ lexemes version more) (rows : List Text) :
    lexemes version (row ++ Text.below rows) =
      lexemes version row ++ lexemes version (Text.below rows) := by
  cases rows with
  | nil => simp
  | cons second rows => rw [Text.below_cons, hmore, lexemes_newline]

theorem lexemes_below_comment
    (hhead : lexemes version row = earlier ++ [(.blockComment, inside)])
    (hmore : ∀ more, lexemes version (row ++ '\n' :: more) =
      earlier ++ (.blockComment, inside ++ '\n' :: (splitBlockComment more).1) ::
        lexemes version (splitBlockComment more).2) (rows : List Text) :
    lexemes version (row ++ Text.below rows) =
      earlier ++ (.blockComment, inside ++ (splitBlockComment (Text.below rows)).1) ::
        lexemes version (splitBlockComment (Text.below rows)).2 := by
  cases rows with
  | nil => simp [hhead, splitBlockComment]
  | cons second rows =>
      rw [Text.below_cons, hmore, splitBlockComment_newline_cons]

theorem lexemes_below_continued
    (hhead : lexemes version row = earlier ++ [(.preprocessor, inside)])
    (hmore : ∀ more, lexemes version (row ++ '\n' :: more) =
      earlier ++ (.preprocessor, inside ++ '\n' :: (splitDirective more).1) ::
        lexemes version (splitDirective more).2) (hrows : ∀ other ∈ rows, '\n' ∉ other) :
    lexemes version (row ++ Text.below rows) =
      earlier ++ (.preprocessor, inside ++ Text.below (directiveRows rows).1) ::
        lexemes version (Text.below (directiveRows rows).2) := by
  cases rows with
  | nil => simp [hhead, directiveRows]
  | cons second rows =>
      obtain ⟨hinside, hleft⟩ := splitDirective_below hrows
      rw [Text.below_cons, hmore, hinside, hleft]

theorem lexemes_singleton_newline {char : Char} (hchar : isBlank char = false) (more : Text) :
    lexemes version ([char] ++ '\n' :: more) = lexemes version [char] ++ lexemes version more := by
  cases scanCut version hchar [] with
  | within hscan =>
      have hrest : (scan version char []).rest = [] :=
        (List.append_eq_nil_iff.mp (scan_append version char [])).2
      have hscan := hscan more
      rw [List.nil_append] at hscan
      rw [List.cons_append, List.nil_append, lexemes_cons hchar, lexemes_cons hchar, hscan, hrest]
      simp [Lexeme.followedBy, hrest]
  | comment inside _ hrest => cases hrest
  | continued hline heq =>
      subst heq
      exact absurd hline (by decide)

end Token

end GlslCompose
