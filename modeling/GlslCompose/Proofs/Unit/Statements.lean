import GlslCompose.Proofs.Define.Row
import GlslCompose.Proofs.Token.Parting
import GlslCompose.Unit.Precision

/-!
# Rows and precision statements

A precision statement has no `#`, so removing statements does not touch the line end
in front of a directive.  Within the row of a plain define only a name or a value
that is the word `precision` could open a statement, and that only in the last row.
-/

namespace GlslCompose.Precision

/-! ## One statement -/

theorem dropSome?_eq_some {accepts : Char → Bool} {source rest : Text}
    (h : dropSome? accepts source = some rest) :
    ∃ first more, source = first :: more ∧ accepts first = true ∧
      rest = more.dropWhile accepts := by
  cases source with
  | nil => cases h
  | cons first more =>
      rw [dropSome?] at h
      split at h
      · rename_i hfirst
        cases h
        exact ⟨first, more, rfl, hfirst, rfl⟩
      · cases h

/-- A statement is its word, behind blanks a qualifier, behind blanks a type, and a
semicolon. -/
structure Statement (source after : Text) : Prop where
  exists_parts : ∃ first second third fourth fifth behind,
    source.dropWhile isSpaceOrTab = word ++ first ∧ dropSome? isBlank first = some second ∧
    dropSome? isLowercase second = some third ∧ dropSome? isBlank third = some fourth ∧
    dropSome? isAsciiLetter fourth = some fifth ∧ fifth.dropWhile isSpaceOrTab = ';' :: behind ∧
    after = behind.dropWhile fun char => isSpaceOrTab char || char == '\r'

theorem afterStatement?_eq_some {afterWord : Bool} {source after : Text}
    (h : afterStatement? afterWord source = some after) :
    (afterWord = false ∨ source.head?.any isSpaceOrTab = true) ∧ Statement source after := by
  unfold afterStatement? at h
  obtain ⟨_, hguard, hparts⟩ := Option.bind_eq_some_iff.mp h
  simp only [Option.bind_eq_bind, Option.bind_eq_some_iff] at hparts
  obtain ⟨first, hword, second, hsecond, third, hthird, fourth, hfourth, fifth, hfifth, hend⟩ :=
    hparts
  rw [List.isPrefixOf?_eq_some_iff_append_eq] at hword
  constructor
  · unfold guard at hguard
    split at hguard
    · rename_i hstart
      simpa using hstart
    · cases hguard
  · split at hend
    · rename_i behind hbehind
      cases hend
      exact ⟨first, second, third, fourth, fifth, behind, hword.symm, hsecond, hthird, hfourth,
        hfifth, hbehind, rfl⟩
    · cases hend

private theorem suffix_of_dropSome? {accepts : Char → Bool} {source rest : Text}
    (h : dropSome? accepts source = some rest) : rest <:+ source := by
  obtain ⟨first, more, rfl, _, rfl⟩ := dropSome?_eq_some h
  exact (List.dropWhile_suffix accepts).trans (List.suffix_cons first more)

private theorem mark_suffix_of_dropSome? {accepts : Char → Bool} (hmark : accepts '#' = false)
    {source rest post : Text} (hsource : '#' :: post <:+ source)
    (h : dropSome? accepts source = some rest) : '#' :: post <:+ rest := by
  obtain ⟨first, more, rfl, hfirst, rfl⟩ := dropSome?_eq_some h
  refine Text.suffix_dropWhile hmark ((List.suffix_cons_iff.mp hsource).resolve_left fun heq => ?_)
  cases heq
  rw [hmark] at hfirst
  cases hfirst

namespace Statement

variable {source after : Text}

theorem exists_semicolon (h : Statement source after) :
    ∃ before behind, source = before ++ ';' :: behind ∧
      after = behind.dropWhile (fun char => isSpaceOrTab char || char == '\r') ∧
      ∀ post, '#' :: post <:+ source → '#' :: post <:+ ';' :: behind := by
  obtain ⟨first, second, third, fourth, fifth, behind, hword, hsecond, hthird, hfourth, hfifth,
    hend, hafter⟩ := h.exists_parts
  have hfirst : first <:+ source := by
    have hdrop := List.dropWhile_suffix isSpaceOrTab (l := source)
    rw [hword] at hdrop
    exact (List.suffix_append word first).trans hdrop
  have hlast : ';' :: behind <:+ fifth := by
    rw [← hend]
    exact List.dropWhile_suffix _
  obtain ⟨before, hbefore⟩ := hlast.trans <| (suffix_of_dropSome? hfifth).trans <|
    (suffix_of_dropSome? hfourth).trans <| (suffix_of_dropSome? hthird).trans <|
    (suffix_of_dropSome? hsecond).trans hfirst
  refine ⟨before, behind, hbefore.symm, hafter, fun post hsource => ?_⟩
  have hstart : '#' :: post <:+ source.dropWhile isSpaceOrTab :=
    Text.suffix_dropWhile (by decide) hsource
  rw [hword] at hstart
  have hmark := Text.suffix_of_not_mem hstart (by decide)
  have hmark := mark_suffix_of_dropSome? (by decide) hmark hsecond
  have hmark := mark_suffix_of_dropSome? (by decide) hmark hthird
  have hmark := mark_suffix_of_dropSome? (by decide) hmark hfourth
  have hmark := mark_suffix_of_dropSome? (by decide) hmark hfifth
  rw [← hend]
  exact Text.suffix_dropWhile (by decide) hmark

private theorem suffix_of_suffix (h : Statement source after) {post : Text}
    (hsource : '\n' :: '#' :: post <:+ source) : '\n' :: '#' :: post <:+ after := by
  obtain ⟨before, behind, rfl, rfl, hmark⟩ := h.exists_semicolon
  have hbehind : '#' :: post <:+ behind := by
    have hlong := hmark post ((List.suffix_cons '\n' _).trans hsource)
    exact (List.suffix_cons_iff.mp hlong).resolve_left (by simp)
  have hlength : ('\n' :: '#' :: post).length ≤ (';' :: behind).length := by
    have hle := hbehind.length_le
    simp only [List.length_cons] at hle ⊢
    omega
  have hline := List.suffix_of_suffix_length_le hsource (List.suffix_append before _) hlength
  exact Text.suffix_dropWhile (by decide)
    ((List.suffix_cons_iff.mp hline).resolve_left (by simp))

private theorem semicolon_mem (h : Statement source after) {line post : Text}
    (hsource : source = line ++ '\n' :: '#' :: post) : ';' ∈ line := by
  have hline : '\n' :: '#' :: post <:+ source := ⟨line, hsource.symm⟩
  obtain ⟨kept, hkept⟩ := h.suffix_of_suffix hline
  obtain ⟨before, behind, hsplit, hafter, _⟩ := h.exists_semicolon
  obtain ⟨skipped, hskipped⟩ : after <:+ behind := by
    rw [hafter]
    exact List.dropWhile_suffix _
  have heq : line ++ '\n' :: '#' :: post =
      (before ++ ';' :: (skipped ++ kept)) ++ '\n' :: '#' :: post := by
    rw [← hsource, hsplit, ← hskipped, ← hkept]
    simp
  rw [List.append_cancel_right heq]
  simp

end Statement

theorem word_eq_cons : word = 'p' :: "recision".toList := by
  unfold word
  simp

theorem afterStatement?_eq_none_of_head {char : Char} (hspace : isSpaceOrTab char = false)
    (hletter : char ≠ 'p') (afterWord : Bool) (rest : Text) :
    afterStatement? afterWord (char :: rest) = none := by
  rw [Option.eq_none_iff_forall_ne_some]
  intro after hafter
  obtain ⟨first, _, _, _, _, _, hword, _⟩ := (afterStatement?_eq_some hafter).2.exists_parts
  rw [List.dropWhile_cons_of_neg (by simp [hspace]), word_eq_cons] at hword
  exact hletter (List.cons.inj hword).1

/-! ## Removal -/

theorem removeFrom_of_none {afterWord : Bool} {char : Char} {rest : Text}
    (h : afterStatement? afterWord (char :: rest) = none) :
    removeFrom afterWord 0 (char :: rest) = char :: removeFrom (isWordCharacter char) 0 rest := by
  rw [removeFrom, h]

@[simp] theorem removeFrom_mark (afterWord : Bool) (post : Text) :
    removeFrom afterWord 0 ('#' :: post) = '#' :: removeFrom false 0 post :=
  removeFrom_of_none (afterStatement?_eq_none_of_head (by decide) (by decide) afterWord post)

@[simp] theorem removeFrom_newline (afterWord : Bool) (post : Text) :
    removeFrom afterWord 0 ('\n' :: post) = '\n' :: removeFrom false 0 post :=
  removeFrom_of_none (afterStatement?_eq_none_of_head (by decide) (by decide) afterWord post)

/-! ## Statements in front of a mark -/

private theorem dropSome?_append_mark {accepts : Char → Bool} (hmark : accepts '#' = false)
    (source post : Text) : dropSome? accepts (source ++ '#' :: post) =
      (dropSome? accepts source).map (· ++ '#' :: post) := by
  cases source with
  | nil => simp [dropSome?, hmark]
  | cons char source =>
      have hdrop := congrArg Prod.snd (Token.cutsBefore_splitWhile hmark source post)
      by_cases hchar : accepts char = true
      · simp only [dropSome?, List.cons_append, if_pos hchar, Option.map_some]
        exact congrArg some hdrop
      · simp [dropSome?, hchar]

theorem dropWhile_append_mark {accepts : Char → Bool} (hmark : accepts '#' = false)
    (source post : Text) : (source ++ '#' :: post).dropWhile accepts =
      source.dropWhile accepts ++ '#' :: post :=
  congrArg Prod.snd (Token.cutsBefore_splitWhile hmark source post)

private theorem isPrefixOf?_append_mark {pattern : Text} (hmark : '#' ∉ pattern)
    (source post : Text) :
    pattern.isPrefixOf? (source ++ '#' :: post) =
      (pattern.isPrefixOf? source).map (· ++ '#' :: post) := by
  by_cases hopens : pattern <+: source
  · obtain ⟨after, rfl⟩ := hopens
    have hsome : ∀ after : Text, pattern.isPrefixOf? (pattern ++ after) = some after :=
      fun after => List.isPrefixOf?_eq_some_iff_append_eq.mpr rfl
    rw [List.append_assoc, hsome, hsome, Option.map_some]
  · have hnone : ∀ source : Text, ¬pattern <+: source → pattern.isPrefixOf? source = none :=
      fun source h => Option.eq_none_iff_forall_ne_some.mpr fun after hsome =>
        h ⟨after, List.isPrefixOf?_eq_some_iff_append_eq.mp hsome⟩
    rw [hnone source hopens, hnone _ (mt (Token.prefix_append_stop hmark source post).mp hopens),
      Option.map_none]

private theorem bind_map_of_commutes {α : Type} {change : α → α} {next : α → Option α}
    (h : ∀ value, next (change value) = (next value).map change) (found : Option α) :
    (found.map change).bind next = (found.bind next).map change := by
  cases found with
  | none => rfl
  | some value => exact h value

@[simp] private theorem afterStatement?_append_mark (afterWord : Bool) (source post : Text) :
    afterStatement? afterWord (source ++ '#' :: post) =
      (afterStatement? afterWord source).map (· ++ '#' :: post) := by
  have hhead : (source ++ '#' :: post).head?.any isSpaceOrTab = source.head?.any isSpaceOrTab := by
    cases source with
    | nil => rfl
    | cons char source => rfl
  unfold afterStatement?
  rw [hhead, dropWhile_append_mark (by decide), isPrefixOf?_append_mark (by decide)]
  cases (guard (!afterWord || source.head?.any isSpaceOrTab) : Option Unit) with
  | none => rfl
  | some _ =>
      refine bind_map_of_commutes (fun first => ?_) _
      rw [dropSome?_append_mark (by decide)]
      refine bind_map_of_commutes (fun second => ?_) _
      rw [dropSome?_append_mark (by decide)]
      refine bind_map_of_commutes (fun third => ?_) _
      rw [dropSome?_append_mark (by decide)]
      refine bind_map_of_commutes (fun fourth => ?_) _
      rw [dropSome?_append_mark (by decide)]
      refine bind_map_of_commutes (fun fifth => ?_) _
      rw [dropWhile_append_mark (by decide)]
      rcases fifth.dropWhile isSpaceOrTab with _ | ⟨char, behind⟩
      · rfl
      · by_cases hchar : char = ';'
        · subst hchar
          exact congrArg some (dropWhile_append_mark (by decide) behind post)
        · simp [hchar]

theorem removeFrom_append_mark (afterWord : Bool) {skip : Nat} {source : Text}
    (hskip : skip ≤ source.length) (post : Text) :
    removeFrom afterWord skip (source ++ '#' :: post) =
      removeFrom afterWord skip source ++ '#' :: removeFrom false 0 post := by
  induction source generalizing afterWord skip with
  | nil =>
      obtain rfl : skip = 0 := Nat.le_zero.mp hskip
      exact removeFrom_mark afterWord post
  | cons char source ih =>
      cases skip with
      | succ skip =>
          rw [List.cons_append, removeFrom, removeFrom, ih _ (Nat.le_of_succ_le_succ hskip)]
      | zero =>
          rw [List.cons_append, removeFrom, removeFrom, ← List.cons_append,
            afterStatement?_append_mark]
          cases hafter : afterStatement? afterWord (char :: source) with
          | none =>
              simp only [Option.map_none]
              rw [ih _ (Nat.zero_le _)]
              rfl
          | some after =>
              simp only [Option.map_some]
              have hlength : (source ++ '#' :: post).length - (after ++ '#' :: post).length =
                  source.length - after.length := by
                simp only [List.length_append, List.length_cons]
                omega
              rw [hlength, ih _ (Nat.sub_le _ _)]

theorem endsLine_removeFrom {above : Text} (habove : above.EndsLine) (afterWord : Bool)
    {skip : Nat} (hskip : skip = 0 ∨ skip < above.length) :
    (removeFrom afterWord skip above).EndsLine ∧
      (removeFrom afterWord skip above = [] ↔ above = []) := by
  induction above generalizing afterWord skip with
  | nil =>
      obtain rfl : skip = 0 := by simpa using hskip
      exact ⟨Text.endsLine_nil, Iff.rfl⟩
  | cons char above ih =>
      have hrest := habove.of_cons
      cases skip with
      | succ skip =>
          have hlonger : skip < above.length := by simpa using hskip
          have hne : above ≠ [] := List.ne_nil_of_length_pos (by omega)
          obtain ⟨hline, hnil⟩ := ih hrest (isWordCharacter char) (.inr hlonger)
          rw [removeFrom]
          exact ⟨hline, by simp [hnil, hne]⟩
      | zero =>
          rw [removeFrom]
          cases hafter : afterStatement? afterWord (char :: above) with
          | none =>
              obtain ⟨hline, hnil⟩ := ih hrest (isWordCharacter char) (.inl rfl)
              refine ⟨?_, by simp⟩
              by_cases hempty : above = []
              · subst hempty
                exact habove
              · exact hline.append_of_ne_nil (fun heq => hempty (hnil.mp heq)) [char]
          | some after =>
              -- A mark behind the text tells that a statement leaves the last line end.
              have hmark := afterStatement?_append_mark afterWord (char :: above) []
              rw [hafter, Option.map_some] at hmark
              obtain ⟨body, hbody⟩ := habove.resolve_left (by simp)
              have hsuffix : '\n' :: ['#'] <:+ char :: above ++ ['#'] := by
                rw [hbody, List.append_assoc]
                exact List.suffix_append _ _
              have hlength :=
                ((afterStatement?_eq_some hmark).2.suffix_of_suffix hsuffix).length_le
              have hne : above ≠ [] := by
                rintro rfl
                obtain rfl := Text.endsLine_singleton_iff.mp habove
                rw [afterStatement?_eq_none_of_head (by decide) (by decide)] at hafter
                cases hafter
              have hpos := List.length_pos_iff.mpr hne
              have hskip : above.length - after.length < above.length := by
                simp only [List.length_append, List.length_cons, List.length_nil] at hlength
                omega
              obtain ⟨hline, hnil⟩ := ih hrest (isWordCharacter char) (.inr hskip)
              exact ⟨hline, by simp [hnil, hne]⟩

/-! ## Rows -/

private theorem removeFrom_line {line : Text} (hline : ';' ∉ line) (afterWord : Bool)
    (post : Text) :
    removeFrom afterWord 0 (line ++ '\n' :: '#' :: post) =
      line ++ '\n' :: removeFrom false 0 ('#' :: post) := by
  induction line generalizing afterWord with
  | nil => exact removeFrom_newline afterWord _
  | cons char line ih =>
      have hnone : afterStatement? afterWord (char :: (line ++ '\n' :: '#' :: post)) = none := by
        rw [Option.eq_none_iff_forall_ne_some]
        intro after hafter
        exact hline ((afterStatement?_eq_some hafter).2.semicolon_mem rfl)
      rw [List.cons_append, removeFrom_of_none hnone,
        ih (fun hmem => hline (List.mem_cons_of_mem char hmem))]
      rfl

private theorem removeFrom_plain {plain : Text}
    (hplain : ∀ char ∈ plain, isSpaceOrTab char = false ∧ char ≠ 'p') (afterWord : Bool)
    (rest : Text) : ∃ next, removeFrom afterWord 0 (plain ++ rest) =
      plain ++ removeFrom next 0 rest := by
  induction plain generalizing afterWord with
  | nil => exact ⟨afterWord, rfl⟩
  | cons char plain ih =>
      obtain ⟨hspace, hletter⟩ := hplain char List.mem_cons_self
      obtain ⟨next, hrest⟩ := ih (fun other hother =>
        hplain other (List.mem_cons_of_mem char hother)) (isWordCharacter char)
      refine ⟨next, ?_⟩
      rw [List.cons_append, removeFrom_of_none
        (afterStatement?_eq_none_of_head hspace hletter afterWord _), hrest]
      rfl

theorem isSpaceOrTab_of_continuesWord {char : Char} (h : continuesWord char = true) :
    isSpaceOrTab char = false := by
  have hspace : char ≠ ' ' := by
    rintro rfl
    exact absurd h (by decide)
  have htab : char ≠ '\t' := by
    rintro rfl
    exact absurd h (by decide)
  simp [isSpaceOrTab, hspace, htab]

private theorem removeFrom_continued {word : Text}
    (hword : ∀ char ∈ word, continuesWord char = true)
    (rest : Text) : removeFrom true 0 (word ++ rest) = word ++ removeFrom true 0 rest := by
  induction word with
  | nil => rfl
  | cons char word ih =>
      have hchar := hword char List.mem_cons_self
      have hnone : afterStatement? true (char :: (word ++ rest)) = none := by
        rw [Option.eq_none_iff_forall_ne_some]
        intro after hafter
        have hstart := (afterStatement?_eq_some hafter).1
        simp [isSpaceOrTab_of_continuesWord hchar] at hstart
      rw [List.cons_append, removeFrom_of_none hnone, isWordCharacter_of_continuesWord hchar,
        ih fun other hother => hword other (List.mem_cons_of_mem char hother)]
      rfl

private theorem not_statement_of_isWord {text : Text} (htext : text.IsWord) (hne : text ≠ word)
    {source after rest : Text} {char : Char} (hchar : char ∉ word)
    (hsource : source.dropWhile isSpaceOrTab = text ++ char :: rest) :
    ¬Statement source after := by
  intro hstatement
  obtain ⟨first, second, _, _, _, _, hword, hsecond, _⟩ := hstatement.exists_parts
  rw [hsource] at hword
  rcases List.append_eq_append_iff.mp hword with ⟨more, hlong, hrest⟩ | ⟨more, hshort, hfirst⟩
  · cases more with
    | nil => exact hne (by simpa using hlong.symm)
    | cons next more =>
        rw [List.cons_append, List.cons.injEq] at hrest
        apply hchar
        rw [hlong, hrest.1]
        simp
  · cases more with
    | nil => exact hne (by simpa using hshort)
    | cons next more =>
        obtain ⟨blank, _, hcons, hblank, _⟩ := dropSome?_eq_some hsecond
        rw [hfirst, List.cons_append, List.cons.injEq] at hcons
        have hnext : continuesWord next = true := htext.2 next (by rw [hshort]; simp)
        rw [← hcons.1, isBlank_of_continuesWord hnext] at hblank
        cases hblank

private theorem removeFrom_word {text : Text} (htext : text.IsWord) (hne : text ≠ word)
    (afterWord : Bool) {char : Char} (hchar : char ∉ word) (rest : Text) :
    removeFrom afterWord 0 (' ' :: (text ++ char :: rest)) =
      ' ' :: (text ++ removeFrom true 0 (char :: rest)) := by
  obtain ⟨first, more, rfl, hfirst, hmore⟩ := htext.exists_cons
  have hdrop : (first :: more ++ char :: rest).dropWhile isSpaceOrTab =
      first :: more ++ char :: rest :=
    List.dropWhile_cons_of_neg (by simp [isSpaceOrTab_of_continuesWord hfirst])
  have hspace : afterStatement? afterWord (' ' :: (first :: more ++ char :: rest)) = none := by
    rw [Option.eq_none_iff_forall_ne_some]
    intro after hafter
    have hskip : (' ' :: (first :: more ++ char :: rest)).dropWhile isSpaceOrTab =
        first :: more ++ char :: rest := by
      rw [List.dropWhile_cons_of_pos (by decide), hdrop]
    exact not_statement_of_isWord htext hne hchar hskip (afterStatement?_eq_some hafter).2
  have hnone : afterStatement? false (first :: (more ++ char :: rest)) = none := by
    rw [Option.eq_none_iff_forall_ne_some]
    intro after hafter
    exact not_statement_of_isWord htext hne hchar hdrop (afterStatement?_eq_some hafter).2
  have hflag : isWordCharacter ' ' = false := by decide
  rw [removeFrom_of_none hspace, hflag, List.cons_append, removeFrom_of_none hnone,
    isWordCharacter_of_continuesWord hfirst, removeFrom_continued hmore]
  rfl

private theorem removeFrom_value {value : Text} (hvalue : value.IsWordOrInteger)
    (hne : value ≠ word) (afterWord : Bool) (rest : Text) :
    removeFrom afterWord 0 (' ' :: (value ++ '\n' :: rest)) =
      ' ' :: (value ++ '\n' :: removeFrom false 0 rest) := by
  rcases hvalue with hword | ⟨digits, rfl, _, hdigits⟩
  · rw [removeFrom_word hword hne afterWord (by decide), removeFrom_newline]
  · have hspace : afterStatement? afterWord (' ' :: ('-' :: digits ++ '\n' :: rest)) = none := by
      rw [Option.eq_none_iff_forall_ne_some]
      intro after hafter
      obtain ⟨first, _, _, _, _, _, hword, _⟩ := (afterStatement?_eq_some hafter).2.exists_parts
      rw [List.dropWhile_cons_of_pos (by decide), List.cons_append,
        List.dropWhile_cons_of_neg (by decide), word_eq_cons] at hword
      exact absurd (List.cons.inj hword).1 (by decide)
    have hplain : ∀ char ∈ '-' :: digits, isSpaceOrTab char = false ∧ char ≠ 'p' := by
      intro char hmem
      rcases List.mem_cons.mp hmem with rfl | hmem
      · decide
      · have hdigit := hdigits char hmem
        refine ⟨isSpaceOrTab_of_continuesWord (continuesWord_of_isDecimalDigit hdigit), ?_⟩
        rintro rfl
        exact absurd hdigit (by decide)
    obtain ⟨next, hrest⟩ := removeFrom_plain hplain (isWordCharacter ' ') ('\n' :: rest)
    rw [removeFrom_of_none hspace, hrest, removeFrom_newline]

private theorem removeFrom_defineLine {key value : Text} (h : Directive.IsPlain key value)
    (hkey : key ≠ word) (hvalue : value ≠ word) (afterWord : Bool) (rest : Text) :
    removeFrom afterWord 0 (Directive.defineLine key value ++ '\n' :: rest) =
      Directive.defineLine key value ++ '\n' :: removeFrom false 0 rest := by
  have hplain : ∀ char ∈ "#define".toList, isSpaceOrTab char = false ∧ char ≠ 'p' := by
    simp [isSpaceOrTab]
  have hsplit : ∀ rest, Directive.defineLine key value ++ '\n' :: rest =
      "#define".toList ++ ' ' :: (key ++ ' ' :: (value ++ '\n' :: rest)) := by
    intro rest
    unfold Directive.defineLine
    simp
  obtain ⟨next, hrest⟩ :=
    removeFrom_plain hplain afterWord (' ' :: (key ++ ' ' :: (value ++ '\n' :: rest)))
  rw [hsplit, hsplit, hrest, removeFrom_word h.key hkey next (by decide),
    removeFrom_value h.value hvalue]

theorem removeFrom_rows {defines : List (Text × Text)} {last : Text × Text}
    (hdefines : ∀ entry ∈ defines ++ [last], Directive.IsPlain entry.1 entry.2) {rest : Text}
    (hend : (last.1 ≠ word ∧ last.2 ≠ word) ∨ ∃ post, rest = '#' :: post) (afterWord : Bool) :
    removeFrom afterWord 0
        (Text.ofRows (Directive.defineRows (defines ++ [last])) ++ rest) =
      Text.ofRows (Directive.defineRows (defines ++ [last])) ++ removeFrom false 0 rest := by
  have hline : ∀ entry ∈ defines ++ [last], ';' ∉ Directive.defineLine entry.1 entry.2 :=
    fun entry hentry => (hdefines entry hentry).not_mem_defineLine (by decide) (by decide)
  induction defines generalizing afterWord with
  | nil =>
      rw [List.nil_append, Directive.ofRows_defineRows_cons, Directive.ofRows_defineRows_cons]
      rcases hend with ⟨hkey, hvalue⟩ | ⟨post, rfl⟩
      · exact removeFrom_defineLine (hdefines last List.mem_concat_self) hkey hvalue afterWord rest
      · exact removeFrom_line (hline last List.mem_concat_self) afterWord post
  | cons entry defines ih =>
      have hrest := ih (fun other hother => hdefines other (List.mem_cons_of_mem entry hother))
        false fun other hother => hline other (List.mem_cons_of_mem entry hother)
      obtain ⟨post, hpost⟩ := Directive.exists_mark_of_ne_nil
        (List.concat_ne_nil last defines) rest
      rw [List.cons_append, Directive.ofRows_defineRows_cons, Directive.ofRows_defineRows_cons,
        hpost, removeFrom_line (hline entry List.mem_cons_self), ← hpost, hrest]

end GlslCompose.Precision
