import GlslCompose.Proofs.Token.Below
import GlslCompose.Unit.Layout

/-!
# Line layout and tokens

The layout works on rows and knows no tokens.  Between two tokens it takes nothing but
blank space away, so a token may change only by its own rows: a block comment loses its
blank rows and gets one behind a row of a single character, and a directive that
continues over rows is changed by those two kinds of rows that decide where it ends.
-/

namespace GlslCompose

namespace Layout

open Token

variable {version : GlslVersion}

/-! ## What the layout makes of rows -/

def layRow (row : Text) : List Text :=
  if row.IsBlankLine then []
  else
    match row with
    | [char] => [[char], []]
    | _ => [row]

/-- The rows of a directive that stand in the place of a row on which it continues.  The
empty row behind a single character belongs to the directive only if the character is a
backslash. -/
def layContinued (row : Text) : List Text :=
  if row.IsBlankLine then [] else if row = ['\\'] then [row, []] else [row]

def relayToken (lexeme : TokenKind × Text) : TokenKind × Text :=
  match lexeme.1 with
  | .blockComment => (.blockComment, Text.relay layRow lexeme.2)
  | .preprocessor => (.preprocessor, Text.relay layContinued lexeme.2)
  | _ => lexeme

/-- The layout has nothing to change in the token's rows. -/
def IsSteady (lexeme : TokenKind × Text) : Prop := relayToken lexeme = lexeme

instance (lexeme : TokenKind × Text) : Decidable (IsSteady lexeme) :=
  inferInstanceAs (Decidable (relayToken lexeme = lexeme))

private theorem layRow_cases (row : Text) :
    (row.IsBlankLine ∧ layRow row = []) ∨
    (∃ char, row = [char] ∧ isBlank char = false ∧ layRow row = [[char], []]) ∨
    (¬row.IsBlankLine ∧ row.length ≠ 1 ∧ layRow row = [row]) := by
  unfold layRow
  by_cases hblank : row.IsBlankLine
  · exact .inl ⟨hblank, if_pos hblank⟩
  · rw [if_neg hblank]
    split
    · rename_i char
      refine .inr (.inl ⟨char, rfl, ?_, rfl⟩)
      rw [Text.IsBlankLine, List.forall_mem_singleton] at hblank
      simpa using hblank
    · rename_i hother
      refine .inr (.inr ⟨hblank, fun hlength => ?_, rfl⟩)
      obtain ⟨char, rfl⟩ := List.length_eq_one_iff.mp hlength
      exact hother char rfl

private theorem infix_of_mem_layRow {row laid : Text} (h : laid ∈ layRow row) : laid <:+: row := by
  rcases layRow_cases row with ⟨-, hlay⟩ | ⟨char, rfl, -, hlay⟩ | ⟨-, -, hlay⟩
  · rw [hlay] at h
    cases h
  · rw [hlay] at h
    rcases List.mem_pair.mp h with rfl | rfl
    · exact List.infix_rfl
    · exact List.nil_infix
  · rw [hlay, List.mem_singleton] at h
    exact h ▸ List.infix_rfl

private theorem forall_mem_flatMap_layRow {word : Text} {rows : List Text}
    (hrows : ∀ row ∈ rows, ¬word <:+: row) : ∀ laid ∈ rows.flatMap layRow, ¬word <:+: laid := by
  intro laid hlaid hword
  obtain ⟨row, hrow, hmem⟩ := List.mem_flatMap.mp hlaid
  exact hrows row hrow (hword.trans (infix_of_mem_layRow hmem))

private theorem infix_of_mem_layContinued {row laid : Text} (h : laid ∈ layContinued row) :
    laid <:+: row := by
  unfold layContinued at h
  split at h
  · cases h
  split at h
  · rcases List.mem_pair.mp h with rfl | rfl
    · exact List.infix_rfl
    · exact List.nil_infix
  · exact List.mem_singleton.mp h ▸ List.infix_rfl

private theorem newline_not_mem_flatMap {lay : Text → List Text}
    (hlay : ∀ {row laid : Text}, laid ∈ lay row → laid <:+: row) {rows : List Text}
    (hrows : ∀ row ∈ rows, '\n' ∉ row) : ∀ laid ∈ rows.flatMap lay, '\n' ∉ laid := by
  intro laid hlaid hmem
  obtain ⟨row, hrow, hmem'⟩ := List.mem_flatMap.mp hlaid
  exact hrows row hrow ((hlay hmem').subset hmem)

private theorem layRow_of_suffix {row : Text} (h : ['*', '/'] <:+: row) : layRow row = [row] := by
  rcases layRow_cases row with ⟨hblank, -⟩ | ⟨char, rfl, -, -⟩ | ⟨-, -, hlay⟩
  · exact absurd (hblank '*' (h.subset List.mem_cons_self)) (by decide)
  · exact absurd h.length_le (by simp)
  · exact hlay

private theorem not_blank_of_head (rows : List Text) :
    ∀ laid ∈ (rows.flatMap layRow).head?, ¬laid.IsBlankLine := by
  induction rows with
  | nil => nofun
  | cons row rows ih =>
      rw [List.flatMap_cons]
      rcases layRow_cases row with ⟨-, hlay⟩ | ⟨char, rfl, hchar, hlay⟩ | ⟨hblank, -, hlay⟩
      · rw [hlay, List.nil_append]
        exact ih
      · rw [hlay]
        rintro laid ⟨⟩ hlaid
        rw [hlaid char List.mem_cons_self] at hchar
        cases hchar
      · rw [hlay]
        rintro laid ⟨⟩
        exact hblank

/-! ## Steady tokens -/

private theorem isSteady_of_row {lexeme : TokenKind × Text} (h : '\n' ∉ lexeme.2) :
    IsSteady lexeme := by
  obtain ⟨kind, text⟩ := lexeme
  unfold IsSteady relayToken
  split
  · rename_i hkind
    rw [Text.relay_of_not_mem layRow h, ← hkind]
  · rename_i hkind
    rw [Text.relay_of_not_mem layContinued h, ← hkind]
  · rfl

private theorem isSteady_of_mem_lexemes {row : Text} (hrow : '\n' ∉ row) :
    ∀ lexeme ∈ lexemes version row, IsSteady lexeme := fun _ hmem =>
  isSteady_of_row (not_mem_of_mem_lexemes hrow hmem)

private theorem isSteady_of_last {row inside : Text} {earlier : List (TokenKind × Text)}
    {kind : TokenKind} (hrow : '\n' ∉ row)
    (hhead : lexemes version row = earlier ++ [(kind, inside)]) :
    (∀ lexeme ∈ earlier, IsSteady lexeme) ∧ '\n' ∉ inside := by
  have hlast : (kind, inside) ∈ lexemes version row := by
    rw [hhead]
    exact List.mem_append_right earlier List.mem_cons_self
  have hsteady : ∀ lexeme ∈ lexemes version row, IsSteady lexeme := isSteady_of_mem_lexemes hrow
  rw [hhead] at hsteady
  exact ⟨(List.forall_mem_append.mp hsteady).1, not_mem_of_mem_lexemes hrow hlast⟩

/-- How the tokens of a text that is laid out are those of the text: if its directives are
steady, all tokens are kept with their own rows laid out, and if the tokens are the same,
the directives are steady. -/
structure Agree (laid read : List (TokenKind × Text)) : Prop where
  eq_map : (∀ lexeme ∈ read, lexeme.1 = .preprocessor → IsSteady lexeme) →
    laid = read.map relayToken
  isSteady_of_eq : laid = read → ∀ lexeme ∈ read, lexeme.1 = .preprocessor → IsSteady lexeme

namespace Agree

variable {laid read earlier : List (TokenKind × Text)} {inside other : Text}

theorem nil : Agree [] [] := ⟨fun _ => rfl, nofun⟩

theorem append (h : Agree laid read) (hearlier : ∀ lexeme ∈ earlier, IsSteady lexeme) :
    Agree (earlier ++ laid) (earlier ++ read) where
  eq_map hsteady := by
    rw [List.map_append, ← h.eq_map fun lexeme hmem =>
      hsteady lexeme (List.mem_append_right earlier hmem), List.map_congr_left hearlier,
      List.map_id']
  isSteady_of_eq heq lexeme hmem hkind := by
    rcases List.mem_append.mp hmem with hmem | hmem
    · exact hearlier lexeme hmem
    · exact h.isSteady_of_eq (List.append_cancel_left heq) lexeme hmem hkind

theorem comment (h : Agree laid read) (hrelay : Text.relay layRow inside = other) :
    Agree ((.blockComment, other) :: laid) ((.blockComment, inside) :: read) where
  eq_map hsteady := by
    rw [List.map_cons, ← h.eq_map fun lexeme hmem =>
      hsteady lexeme (List.mem_cons_of_mem _ hmem), ← hrelay]
    rfl
  isSteady_of_eq heq lexeme hmem hkind := by
    rcases List.mem_cons.mp hmem with rfl | hmem
    · cases hkind
    · exact h.isSteady_of_eq (List.cons.inj heq).2 lexeme hmem hkind

theorem directive (h : other = inside → Agree laid read)
    (hrelay : Text.relay layContinued inside = inside ↔ other = inside) :
    Agree ((.preprocessor, other) :: laid) ((.preprocessor, inside) :: read) where
  eq_map hsteady := by
    have hself : IsSteady (.preprocessor, inside) := hsteady _ List.mem_cons_self rfl
    have heq := hrelay.mp (congrArg Prod.snd hself)
    rw [List.map_cons, ← (h heq).eq_map fun lexeme hmem =>
      hsteady lexeme (List.mem_cons_of_mem _ hmem), hself, heq]
  isSteady_of_eq heq lexeme hmem hkind := by
    obtain ⟨hfirst, hrest⟩ := List.cons.inj heq
    have hother : other = inside := congrArg Prod.snd hfirst
    rcases List.mem_cons.mp hmem with rfl | hmem
    · exact congrArg (TokenKind.preprocessor, ·) (hrelay.mpr hother)
    · exact (h hother).isSteady_of_eq hrest lexeme hmem hkind

end Agree

/-! ## Directives -/

def AgreesBelow (version : GlslVersion) (rows : List Text) : Prop :=
  Agree (lexemes version (Text.below (rows.flatMap layRow))) (lexemes version (Text.below rows))

/-- How the rows that a directive takes, and the tokens behind it, are laid out. -/
structure AgreesBehind (version : GlslVersion) (rows : List Text) : Prop where
  rows_eq_iff : (directiveRows rows).1.flatMap layContinued = (directiveRows rows).1 ↔
    (directiveRows (rows.flatMap layRow)).1 = (directiveRows rows).1
  agree : (directiveRows (rows.flatMap layRow)).1 = (directiveRows rows).1 →
    Agree (lexemes version (Text.below (directiveRows (rows.flatMap layRow)).2))
      (lexemes version (Text.below (directiveRows rows).2))

private theorem not_blank_of_continues {row : Text} (h : Continues row) : ¬row.IsBlankLine := by
  intro hblank
  have hmem : '\\' ∈ row := by
    rcases h with hsuffix | hsuffix <;> exact hsuffix.subset List.mem_cons_self
  exact absurd (hblank '\\' hmem) (by decide)

private theorem layContinued_self {row : Text} (hblank : ¬row.IsBlankLine) (hslash : row ≠ ['\\']) :
    layContinued row = [row] := by
  rw [layContinued, if_neg hblank, if_neg hslash]

theorem AgreesBehind.blank {row : Text} {rows : List Text} (hblank : row.IsBlankLine)
    (hrow : '\n' ∉ row) (hlay : layRow row = []) : AgreesBehind version (row :: rows) := by
  have hstop : ¬PassesOn row := fun hpass =>
    not_blank_of_continues (continues_of_passesOn hrow hpass) hblank
  have hne : (directiveRows ((row :: rows).flatMap layRow)).1 ≠
      (directiveRows (row :: rows)).1 := by
    rw [List.flatMap_cons, hlay, List.nil_append, directiveRows_of_stop hstop]
    intro heq
    have hhead := not_blank_of_head rows
    cases hrows : rows.flatMap layRow with
    | nil =>
        rw [hrows] at heq
        cases heq
    | cons first others =>
        rw [hrows] at heq hhead
        obtain ⟨taken, htaken⟩ := exists_directiveRows_cons first others
        rw [htaken] at heq
        obtain ⟨rfl, -⟩ := List.cons.inj heq
        exact hhead first rfl hblank
  refine ⟨⟨fun hfix => ?_, fun heq => absurd heq hne⟩, fun heq => absurd heq hne⟩
  rw [directiveRows_of_stop hstop, List.flatMap_singleton, layContinued, if_pos hblank] at hfix
  cases hfix

theorem AgreesBehind.slash {rows : List Text}
    (hagree : ∀ more, more <:+ rows → AgreesBelow version more) :
    AgreesBehind version (['\\'] :: rows) := by
  have hpass : PassesOn ['\\'] := by decide
  have hstop : ¬PassesOn [] := by decide
  have hlaid : directiveRows ((['\\'] :: rows).flatMap layRow) =
      ([['\\'], []], rows.flatMap layRow) := by
    have hlay : layRow ['\\'] = [['\\'], []] := by decide
    rw [List.flatMap_cons, hlay, List.cons_append, List.cons_append, List.nil_append,
      directiveRows_of_pass hpass, directiveRows_of_stop hstop]
  have hfix : layContinued ['\\'] = [['\\'], []] := by decide
  cases rows with
  | nil => exact ⟨by decide, fun heq => absurd heq (by decide)⟩
  | cons row rows =>
      by_cases hempty : row = []
      · subst hempty
        have hread : directiveRows (['\\'] :: [] :: rows) = ([['\\'], []], rows) := by
          rw [directiveRows_of_pass hpass, directiveRows_of_stop hstop]
        have hrest : ([] :: rows).flatMap layRow = rows.flatMap layRow := rfl
        refine ⟨?_, fun _ => ?_⟩
        · rw [hlaid, hread]
          exact iff_of_true (by rw [List.flatMap_cons, hfix]; rfl) rfl
        · rw [hlaid, hread, hrest]
          exact hagree rows (List.suffix_cons [] rows)
      · obtain ⟨more, hmore⟩ := exists_directiveRows_cons row rows
        have hread : (directiveRows (['\\'] :: row :: rows)).1 = ['\\'] :: row :: more := by
          rw [directiveRows_of_pass hpass, hmore]
        have hne : (directiveRows ((['\\'] :: row :: rows).flatMap layRow)).1 ≠
            (directiveRows (['\\'] :: row :: rows)).1 := by
          rw [hlaid, hread]
          intro heq
          exact hempty (List.cons.inj (List.cons.inj heq).2).1.symm
        refine ⟨iff_of_false (fun heq => ?_) hne, fun heq => absurd heq hne⟩
        rw [hread, List.flatMap_cons, hfix] at heq
        exact hempty (List.cons.inj (List.cons.inj heq).2).1.symm

theorem AgreesBehind.single {char : Char} {rows : List Text} (hchar : isBlank char = false)
    (hslash : char ≠ '\\') (hrow : '\n' ∉ [char]) (hlay : layRow [char] = [[char], []])
    (hagree : AgreesBelow version rows) : AgreesBehind version ([char] :: rows) := by
  have hstop : ¬PassesOn [char] := by
    intro hpass
    rcases continues_of_passesOn hrow hpass with hsuffix | hsuffix
    · exact hslash (List.mem_singleton.mp (hsuffix.subset List.mem_cons_self)).symm
    · exact absurd hsuffix.length_le (by simp)
  have hblank : ¬Text.IsBlankLine [char] := by
    simpa [Text.IsBlankLine] using hchar
  have hfix : layContinued [char] = [[char]] := layContinued_self hblank (by simpa using hslash)
  have hread := directiveRows_of_stop hstop rows
  have hlaid : directiveRows (([char] :: rows).flatMap layRow) =
      ([[char]], [] :: rows.flatMap layRow) := by
    rw [List.flatMap_cons, hlay]
    exact directiveRows_of_stop hstop _
  refine ⟨?_, fun _ => ?_⟩
  · rw [hlaid, hread]
    exact iff_of_true (by rw [List.flatMap_singleton, hfix]) rfl
  · rw [hlaid, hread, Text.below_cons, List.nil_append, lexemes_newline]
    exact hagree

theorem AgreesBehind.keep {row : Text} {rows : List Text} (hblank : ¬row.IsBlankLine)
    (hlength : row.length ≠ 1) (hlay : layRow row = [row]) (hagree : AgreesBelow version rows)
    (hbehind : AgreesBehind version rows) : AgreesBehind version (row :: rows) := by
  have hlaid : (row :: rows).flatMap layRow = row :: rows.flatMap layRow := by
    rw [List.flatMap_cons, hlay, List.singleton_append]
  have hfix : layContinued row = [row] := layContinued_self hblank fun heq =>
    hlength (congrArg List.length heq)
  by_cases hpass : PassesOn row
  · refine ⟨?_, fun heq => ?_⟩
    · rw [hlaid, directiveRows_of_pass hpass, directiveRows_of_pass hpass, List.flatMap_cons,
        hfix, List.singleton_append, List.cons.injEq, List.cons.injEq, hbehind.rows_eq_iff]
    · rw [hlaid, directiveRows_of_pass hpass, directiveRows_of_pass hpass] at heq ⊢
      exact hbehind.agree (List.cons.inj heq).2
  · refine ⟨?_, fun _ => ?_⟩
    · rw [hlaid, directiveRows_of_stop hpass, directiveRows_of_stop hpass]
      exact iff_of_true (by rw [List.flatMap_singleton, hfix]) rfl
    · rw [hlaid, directiveRows_of_stop hpass, directiveRows_of_stop hpass]
      exact hagree

private theorem agreesBehind {rows : List Text} (hrows : ∀ row ∈ rows, '\n' ∉ row)
    (hagree : ∀ more, more <:+ rows → AgreesBelow version more) : AgreesBehind version rows := by
  induction rows with
  | nil => exact ⟨by decide, fun _ => hagree [] List.suffix_rfl⟩
  | cons row rows ih =>
      obtain ⟨hrow, hrest⟩ := List.forall_mem_cons.mp hrows
      have hsuffix : ∀ more, more <:+ rows → AgreesBelow version more := fun more hmore =>
        hagree more (hmore.trans (List.suffix_cons row rows))
      rcases layRow_cases row with ⟨hblank, hlay⟩ | ⟨char, rfl, hchar, hlay⟩ |
        ⟨hblank, hlength, hlay⟩
      · exact .blank hblank hrow hlay
      · by_cases hslash : char = '\\'
        · subst hslash
          exact .slash hsuffix
        · exact .single hchar hslash hrow hlay (hsuffix rows List.suffix_rfl)
      · exact .keep hblank hlength hlay (hsuffix rows List.suffix_rfl) (ih hrest hsuffix)

/-! ## Texts -/

def AgreesAfter (version : GlslVersion) (rows : List Text) : Prop :=
  ∀ row, '\n' ∉ row → Agree (lexemes version (row ++ Text.below (rows.flatMap layRow)))
    (lexemes version (row ++ Text.below rows))

private theorem agreesBelow_cons {row : Text} {rows : List Text} (hrow : '\n' ∉ row)
    (h : AgreesAfter version rows) : AgreesBelow version (row :: rows) := by
  unfold AgreesBelow
  rw [List.flatMap_cons, Text.below_cons, lexemes_newline]
  rcases layRow_cases row with ⟨hblank, hlay⟩ | ⟨char, rfl, hchar, hlay⟩ | ⟨-, -, hlay⟩
  · rw [hlay, List.nil_append, lexemes_blanks_append hblank]
    exact h [] List.not_mem_nil
  · have hsingle := h [char] hrow
    rw [lexemes_below_free (lexemes_singleton_newline hchar)] at hsingle
    rw [hlay, List.cons_append, List.cons_append, List.nil_append, Text.below_cons,
      Text.below_cons, lexemes_newline, List.nil_append, lexemes_singleton_newline hchar]
    exact hsingle
  · rw [hlay, List.singleton_append, Text.below_cons, lexemes_newline]
    exact h row hrow

private theorem agree_comment {inside : Text} {rows : List Text} (hinside : '\n' ∉ inside)
    (hrows : ∀ row ∈ rows, '\n' ∉ row)
    (h : ∀ more : List Text, more.length < rows.length → (∀ row ∈ more, '\n' ∉ row) →
      AgreesAfter version more) :
    Agree
      ((.blockComment, inside ++ (splitBlockComment (Text.below (rows.flatMap layRow))).1) ::
        lexemes version (splitBlockComment (Text.below (rows.flatMap layRow))).2)
      ((.blockComment, inside ++ (splitBlockComment (Text.below rows)).1) ::
        lexemes version (splitBlockComment (Text.below rows)).2) := by
  cases hfind : rows.find? fun row => ['*', '/'] <:+: row with
  | none =>
      have hopen : ∀ row ∈ rows, ¬['*', '/'] <:+: row := by
        simpa using List.find?_eq_none.mp hfind
      rw [splitBlockComment_below_open hopen,
        splitBlockComment_below_open (forall_mem_flatMap_layRow hopen), lexemes_nil]
      exact Agree.nil.comment (Text.relay_append_below layRow hinside hrows)
  | some row =>
      obtain ⟨hclose, above, others, rfl, habove⟩ := List.find?_eq_some_iff_append.mp hfind
      obtain ⟨taken, left, rfl, hsuffix, hsplit⟩ := splitBlockComment_of_infix
        (of_decide_eq_true hclose)
      have hopen : ∀ row ∈ above, ¬['*', '/'] <:+: row := by
        simpa using habove
      obtain ⟨habove, hothers⟩ := List.forall_mem_append.mp hrows
      obtain ⟨hrow, hothers⟩ := List.forall_mem_cons.mp hothers
      obtain ⟨htaken, hleft⟩ := not_or.mp (mt List.mem_append.mpr hrow)
      have hlaid : (above ++ (taken ++ left) :: others).flatMap layRow =
          above.flatMap layRow ++ (taken ++ left) :: others.flatMap layRow := by
        rw [List.flatMap_append, List.flatMap_cons, layRow_of_suffix (of_decide_eq_true hclose),
          List.singleton_append]
      rw [hlaid, splitBlockComment_closing hopen hsplit,
        splitBlockComment_closing (forall_mem_flatMap_layRow hopen) hsplit]
      refine (h others ?_ hothers left hleft).comment ?_
      · simp
        omega
      · rw [Text.relay_append_below layRow hinside (List.forall_mem_append.mpr
          ⟨habove, List.forall_mem_singleton.mpr htaken⟩), List.flatMap_append,
          List.flatMap_singleton, layRow_of_suffix hsuffix.isInfix]

private theorem agree_directive {inside : Text} {rows : List Text} (hinside : '\n' ∉ inside)
    (hrows : ∀ row ∈ rows, '\n' ∉ row) (h : AgreesBehind version rows) :
    Agree
      ((.preprocessor, inside ++ Text.below (directiveRows (rows.flatMap layRow)).1) ::
        lexemes version (Text.below (directiveRows (rows.flatMap layRow)).2))
      ((.preprocessor, inside ++ Text.below (directiveRows rows).1) ::
        lexemes version (Text.below (directiveRows rows).2)) := by
  have htaken : ∀ others : List Text, (∀ row ∈ others, '\n' ∉ row) →
      ∀ row ∈ (directiveRows others).1, '\n' ∉ row := by
    intro others hothers row hmem
    refine hothers row ?_
    rw [← directiveRows_append others]
    exact List.mem_append_left _ hmem
  have hread := htaken rows hrows
  have hlaid := htaken _ (newline_not_mem_flatMap infix_of_mem_layRow hrows)
  have hsame : ∀ others : List Text, (∀ row ∈ others, '\n' ∉ row) →
      (inside ++ Text.below others = inside ++ Text.below (directiveRows rows).1 ↔
        others = (directiveRows rows).1) := fun others hothers =>
    ⟨fun heq => Text.below_injective hothers hread (List.append_cancel_left heq),
      fun heq => by rw [heq]⟩
  refine Agree.directive (fun heq => h.agree ((hsame _ hlaid).mp heq)) ?_
  rw [Text.relay_append_below layContinued hinside hread, hsame _ hlaid,
    hsame _ (newline_not_mem_flatMap infix_of_mem_layContinued hread), h.rows_eq_iff]

private theorem agreesAfter (rows : List Text) (hrows : ∀ row ∈ rows, '\n' ∉ row) :
    AgreesAfter version rows := by
  induction hlength : rows.length using Nat.strong_induction_on generalizing rows with
  | _ length ih =>
  have hafter : ∀ more : List Text, more.length < rows.length → (∀ row ∈ more, '\n' ∉ row) →
      AgreesAfter version more := fun more hless hmore => ih _ (hlength ▸ hless) more hmore rfl
  have hbelow : ∀ more, more <:+ rows → AgreesBelow version more := by
    intro more hsuffix
    cases more with
    | nil => exact ⟨fun _ => by simp, fun _ => by simp⟩
    | cons first others =>
        have hmore : ∀ row ∈ first :: others, '\n' ∉ row := fun row hmem =>
          hrows row (hsuffix.subset hmem)
        obtain ⟨hfirst, hothers⟩ := List.forall_mem_cons.mp hmore
        exact agreesBelow_cons hfirst (hafter others hsuffix.length_le hothers)
  intro row hrow
  cases cut version row with
  | free hmore =>
      rw [lexemes_below_free hmore, lexemes_below_free hmore]
      exact (hbelow rows List.suffix_rfl).append (isSteady_of_mem_lexemes hrow)
  | comment earlier inside _ hhead hmore =>
      obtain ⟨hearlier, hinside⟩ := isSteady_of_last hrow hhead
      rw [lexemes_below_comment hhead hmore, lexemes_below_comment hhead hmore]
      exact (agree_comment hinside hrows hafter).append hearlier
  | continued _ earlier inside hhead hmore =>
      obtain ⟨hearlier, hinside⟩ := isSteady_of_last hrow hhead
      have hlaid := newline_not_mem_flatMap infix_of_mem_layRow hrows
      rw [lexemes_below_continued hhead hmore hlaid, lexemes_below_continued hhead hmore hrows]
      exact (agree_directive hinside hrows (agreesBehind hrows hbelow)).append hearlier

/-! ## Lines -/

private theorem below_map_padLine (rows : List Text) :
    Text.below ((rows.filter fun row => ¬row.IsBlankLine).map padLine) =
      Text.below (rows.flatMap layRow) := by
  induction rows with
  | nil => rfl
  | cons row rows ih =>
      rw [List.flatMap_cons, Text.below_append, ← ih]
      unfold layRow
      by_cases hblank : row.IsBlankLine
      · rw [List.filter_cons_of_neg (by simpa using hblank), if_pos hblank]
        rfl
      · rw [List.filter_cons_of_pos (by simpa using hblank), if_neg hblank]
        unfold padLine
        split <;> simp

private theorem lexemes_unlines (rows : List Text) :
    lexemes version (Text.unlines rows) = lexemes version (Text.below rows) := by
  cases rows with
  | nil => rfl
  | cons row rows => rw [Text.unlines_cons, Text.below_cons, lexemes_newline]

private theorem flatMap_layRow_lines {row : Text} {rows : List Text}
    (hrows : ∀ other ∈ row :: rows, '\n' ∉ other) (hreturn : '\r' ∉ row ++ Text.below rows) :
    (row ++ Text.below rows).lines.flatMap layRow = (row :: rows).flatMap layRow := by
  induction rows generalizing row with
  | nil =>
      rw [Text.below_nil, List.append_nil]
      by_cases hempty : row = []
      · subst hempty
        rfl
      · have hrow := hrows row List.mem_cons_self
        rw [Text.lines, Text.linesWithEnds_of_not_mem hrow hempty, List.map_singleton,
          Text.dropLineEnd_of_not_mem hrow]
  | cons second rows ih =>
      obtain ⟨hrow, hrest⟩ := List.forall_mem_cons.mp hrows
      obtain ⟨hrowReturn, hrestReturn⟩ := not_or.mp (mt List.mem_append.mpr hreturn)
      have hlast : row.getLast? ≠ some '\r' := fun heq => hrowReturn (List.mem_of_getLast? heq)
      have hlines : (row ++ Text.below (second :: rows)).lines =
          row :: (second ++ Text.below rows).lines := by
        rw [Text.below_cons, Text.lines, Text.linesWithEnds_row hrow, List.map_cons,
          Text.dropLineEnd_row hlast]
        rfl
      rw [hlines, List.flatMap_cons, ih hrest fun hmem => hrestReturn (List.mem_cons_of_mem _ hmem)]
      rfl

private theorem lexemes_finalizeLines_below {row : Text} {rows : List Text}
    (hrows : ∀ other ∈ row :: rows, '\n' ∉ other) (hreturn : '\r' ∉ row ++ Text.below rows) :
    lexemes version (finalizeLines (row ++ Text.below rows)) =
      lexemes version (Text.below ((row :: rows).flatMap layRow)) := by
  rw [finalizeLines, lexemes_unlines, below_map_padLine, flatMap_layRow_lines hrows hreturn]

/-- The layout keeps the tokens exactly where it has nothing to change in the rows of a
comment or of a directive.  If only comments have such rows, they alone are changed, and by
those rows alone. -/
theorem lexemes_finalizeLines_eq_iff {source : Text} (hreturn : '\r' ∉ source) :
    (lexemes version (finalizeLines source) = lexemes version source ↔
      ∀ lexeme ∈ lexemes version source, IsSteady lexeme) ∧
    ((∀ lexeme ∈ lexemes version source, lexeme.1 = .preprocessor → IsSteady lexeme) →
      lexemes version (finalizeLines source) = (lexemes version source).map relayToken) := by
  obtain ⟨row, rows, rfl, hrow, hrest⟩ := Text.exists_below source
  have hrows : ∀ other ∈ row :: rows, '\n' ∉ other := List.forall_mem_cons.mpr ⟨hrow, hrest⟩
  have hafter : AgreesAfter version (row :: rows) := agreesAfter (row :: rows) hrows
  have hagree := hafter [] List.not_mem_nil
  rw [List.nil_append, List.nil_append, Text.below_cons, lexemes_newline,
    ← lexemes_finalizeLines_below hrows hreturn] at hagree
  refine ⟨⟨fun heq lexeme hmem => ?_, fun hsteady => ?_⟩, hagree.eq_map⟩
  · have hmap := hagree.eq_map (hagree.isSteady_of_eq heq)
    rw [heq] at hmap
    exact List.map_inj_left.mp (hmap.symm.trans (List.map_id _).symm) lexeme hmem
  · rw [hagree.eq_map fun lexeme hmem _ => hsteady lexeme hmem, List.map_congr_left hsteady,
      List.map_id']

def spreadDefine : Text := "#define SUM(a, b) \\\n  ((a) + \\\n (b))\n\nfloat x;\n\x7b\n\x7d".toList

set_option maxRecDepth 10000 in
/-- A directive over three rows, a blank row behind it and rows of one character. -/
theorem lexemes_finalizeLines_spreadDefine :
    '\r' ∉ spreadDefine ∧
    (∀ lexeme ∈ lexemes .es100 spreadDefine, IsSteady lexeme) ∧
    finalizeLines spreadDefine =
      "#define SUM(a, b) \\\n  ((a) + \\\n (b))\nfloat x;\n\x7b\n\n\x7d\n".toList ∧
    lexemes .es100 (finalizeLines spreadDefine) = lexemes .es100 spreadDefine := by
  obtain ⟨hreturn, hsteady, hlayout⟩ :
      '\r' ∉ spreadDefine ∧
      (∀ lexeme ∈ lexemes .es100 spreadDefine, IsSteady lexeme) ∧
      finalizeLines spreadDefine =
        "#define SUM(a, b) \\\n  ((a) + \\\n (b))\nfloat x;\n\x7b\n\n\x7d\n".toList := by
    decide +kernel
  exact ⟨hreturn, hsteady, hlayout, (lexemes_finalizeLines_eq_iff hreturn).1.mpr hsteady⟩

set_option maxRecDepth 10000 in
/-- The blank row ends a directive, and without it the directive takes the next row. -/
theorem lexemes_finalizeLines_continuedBlank :
    lexemes .es100 "#define A \\\n\nfloat x;".toList =
      [(.preprocessor, "#define A \\\n".toList), (.keyword, "float".toList),
        (.ident, "x".toList), (.operator, ";".toList)] ∧
    lexemes .es100 (finalizeLines "#define A \\\n\nfloat x;".toList) =
      [(.preprocessor, "#define A \\\nfloat x;".toList)] := by
  decide +kernel

end Layout

end GlslCompose
