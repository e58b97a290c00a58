import GlslCompose.Proofs.Text.Runs
import GlslCompose.Proofs.Unit.Statements

/-!
# Tidy texts

A text is tidy if the word `precision` stands in it only where a statement begins that can be
removed, and if no two words meet when it is.  A calm text does not have the word at all.
Removing the statements of a tidy text leaves a calm one.

Both are told position by position, so that they can be carried from a text to a longer one:
what a position says depends on a few characters behind it, and these end at the latest where
a directive begins.
-/

namespace GlslCompose

namespace Precision

open Text

/-! ## Statements as texts -/

def isTrailing (char : Char) : Bool := isSpaceOrTab char || char == '\r'

/-- The text is one statement, perhaps with spaces and tabs in front. -/
def IsStatement (text : Text) : Prop :=
  ∃ lead first qualifier second type last,
    text = lead ++ (word ++ (first ++ (qualifier ++ (second ++ (type ++ (last ++ [';'])))))) ∧
    (∀ char ∈ lead, isSpaceOrTab char = true) ∧
    (first ≠ [] ∧ ∀ char ∈ first, isBlank char = true) ∧
    (qualifier ≠ [] ∧ ∀ char ∈ qualifier, isLowercase char = true) ∧
    (second ≠ [] ∧ ∀ char ∈ second, isBlank char = true) ∧
    (type ≠ [] ∧ ∀ char ∈ type, isAsciiLetter char = true) ∧
    ∀ char ∈ last, isSpaceOrTab char = true

variable {accepts : Char → Bool} {text source rest behind after : Text} {afterWord : Bool}

theorem continuesWord_of_isAsciiLetter {char : Char} (h : isAsciiLetter char = true) :
    continuesWord char = true := by
  simp [continuesWord, h]

theorem isAsciiLetter_of_isLowercase {char : Char} (h : isLowercase char = true) :
    isAsciiLetter char = true := by
  rw [isLowercase, Bool.and_eq_true] at h
  simp [isAsciiLetter, h]

theorem exists_run_of_dropSome? (h : dropSome? accepts source = some rest) :
    ∃ run, source = run ++ rest ∧ run ≠ [] ∧ ∀ char ∈ run, accepts char = true := by
  obtain ⟨first, more, rfl, hfirst, rfl⟩ := dropSome?_eq_some h
  refine ⟨first :: more.takeWhile accepts, ?_, by simp, ?_⟩
  · rw [List.cons_append, List.takeWhile_append_dropWhile]
  · rintro char (_ | ⟨_, hmem⟩)
    · exact hfirst
    · exact List.mem_takeWhile_imp hmem

theorem dropSome?_append {run : Text} (hne : run ≠ [])
    (hrun : ∀ char ∈ run, accepts char = true) (hrest : ∀ char ∈ rest.head?, accepts char = false) :
    dropSome? accepts (run ++ rest) = some rest := by
  obtain ⟨first, more, rfl⟩ := List.exists_cons_of_ne_nil hne
  rw [List.cons_append, dropSome?, if_pos (hrun first List.mem_cons_self),
    dropWhile_append_of_forall (fun char hmem => hrun char (List.mem_cons_of_mem first hmem)) hrest]

theorem exists_statement (h : afterStatement? afterWord source = some after) :
    ∃ text behind, IsStatement text ∧ source = text ++ behind ∧
      after = behind.dropWhile isTrailing ∧
      (afterWord = false ∨ source.head?.any isSpaceOrTab = true) := by
  obtain ⟨hstart, hstatement⟩ := afterStatement?_eq_some h
  obtain ⟨_, _, _, _, fifth, behind, hword, hfirst, hqualifier, hsecond, htype, hend, hafter⟩ :=
    hstatement.exists_parts
  obtain ⟨lead, hlead, hleadAll⟩ := exists_run_append_dropWhile isSpaceOrTab source
  obtain ⟨first, rfl, hfirstAll⟩ := exists_run_of_dropSome? hfirst
  obtain ⟨qualifier, rfl, hqualifierAll⟩ := exists_run_of_dropSome? hqualifier
  obtain ⟨second, rfl, hsecondAll⟩ := exists_run_of_dropSome? hsecond
  obtain ⟨type, rfl, htypeAll⟩ := exists_run_of_dropSome? htype
  obtain ⟨last, hlast, hlastAll⟩ := exists_run_append_dropWhile isSpaceOrTab fifth
  refine ⟨_, behind, ⟨lead, first, qualifier, second, type, last, rfl, hleadAll, hfirstAll,
    hqualifierAll, hsecondAll, htypeAll, hlastAll⟩, ?_, hafter, hstart⟩
  rw [hend] at hlast
  rw [hlead, hword, hlast]
  simp

theorem isLowercase_of_isBlank {char : Char} (h : isBlank char = true) :
    isLowercase char = false := by
  rw [Bool.eq_false_iff]
  intro hlower
  rw [isBlank_of_continuesWord
    (continuesWord_of_isAsciiLetter (isAsciiLetter_of_isLowercase hlower))] at h
  cases h

private theorem isAsciiLetter_of_isSpaceOrTab {char : Char} (h : isSpaceOrTab char = true) :
    isAsciiLetter char = false := by
  rw [Bool.eq_false_iff]
  intro hletter
  rw [isSpaceOrTab_of_continuesWord (continuesWord_of_isAsciiLetter hletter)] at h
  cases h

theorem isBlank_of_isAsciiLetter {char : Char} (h : isAsciiLetter char = true) :
    isBlank char = false :=
  isBlank_of_continuesWord (continuesWord_of_isAsciiLetter h)

theorem afterStatement?_append (htext : IsStatement text)
    (hstart : afterWord = false ∨ text.head?.any isSpaceOrTab = true) (behind : Text) :
    afterStatement? afterWord (text ++ behind) = some (behind.dropWhile isTrailing) := by
  have hbegins : (!afterWord || (text ++ behind).head?.any isSpaceOrTab) = true := by
    rcases hstart with rfl | hstart
    · rfl
    · cases text with
      | nil => cases hstart
      | cons char text => exact Bool.or_eq_true_iff.mpr (.inr hstart)
  have hguard : guard (!afterWord || (text ++ behind).head?.any isSpaceOrTab) = some () :=
    if_pos hbegins
  obtain ⟨lead, first, qualifier, second, type, last, rfl, hlead, ⟨hfirst, hfirstAll⟩,
    ⟨hqualifier, hqualifierAll⟩, ⟨hsecondNe, hsecondAll⟩, ⟨htype, htypeAll⟩, hlast⟩ := htext
  let fifth := last ++ ';' :: behind
  let fourth := type ++ fifth
  let third := second ++ fourth
  have hend : fifth.dropWhile isSpaceOrTab = ';' :: behind :=
    dropWhile_append_of_forall hlast fun char hchar => by cases hchar; decide
  have hfifth : ∀ char ∈ fifth.head?, isAsciiLetter char = false := by
    by_cases hnil : last = []
    · subst hnil
      rintro char ⟨rfl⟩
      decide
    · exact head_eq_false_of_forall hnil hlast (fun _ => isAsciiLetter_of_isSpaceOrTab) _
  have hfourth : ∀ char ∈ fourth.head?, isBlank char = false :=
    head_eq_false_of_forall htype htypeAll (fun _ => isBlank_of_isAsciiLetter) _
  have hthird : ∀ char ∈ third.head?, isLowercase char = false :=
    head_eq_false_of_forall hsecondNe hsecondAll (fun _ => isLowercase_of_isBlank) _
  have hsecond : ∀ char ∈ (qualifier ++ third).head?, isBlank char = false :=
    head_eq_false_of_forall hqualifier hqualifierAll
      (fun _ hchar => isBlank_of_isAsciiLetter (isAsciiLetter_of_isLowercase hchar)) _
  have hword : (lead ++ (word ++ (first ++ (qualifier ++ third)))).dropWhile isSpaceOrTab =
      word ++ (first ++ (qualifier ++ third)) :=
    dropWhile_append_of_forall hlead fun char hchar => by
      rw [word_eq_cons] at hchar
      cases hchar
      decide
  have hsplit : lead ++ (word ++ (first ++ (qualifier ++ (second ++ (type ++ (last ++ [';'])))))) ++
      behind = lead ++ (word ++ (first ++ (qualifier ++ third))) := by
    simp [third, fourth, fifth]
  have hprefix : word.isPrefixOf? (word ++ (first ++ (qualifier ++ third))) =
      some (first ++ (qualifier ++ third)) :=
    List.isPrefixOf?_eq_some_iff_append_eq.mpr rfl
  rw [hsplit] at hguard ⊢
  unfold afterStatement?
  rw [hguard]
  simp only [hword, hprefix, dropSome?_append hfirst hfirstAll hsecond,
    dropSome?_append hqualifier hqualifierAll hthird, third,
    dropSome?_append hsecondNe hsecondAll hfourth, fourth,
    dropSome?_append htype htypeAll hfifth, hend, Option.bind_eq_bind, Option.bind_some]
  rfl

theorem IsStatement.exists_body (h : IsStatement text) :
    ∃ body, text = body ++ [';'] ∧ ';' ∉ body ∧ '#' ∉ text := by
  obtain ⟨lead, first, qualifier, second, type, last, rfl, hlead, ⟨-, hfirst⟩,
    ⟨-, hqualifier⟩, ⟨-, hsecond⟩, ⟨-, htype⟩, hlast⟩ := h
  have hbody : ∀ char, isSpaceOrTab char = false → char ∉ word → isBlank char = false →
      isLowercase char = false → isAsciiLetter char = false →
      char ∉ lead ++ (word ++ (first ++ (qualifier ++ (second ++ (type ++ last))))) := by
    intro char hspace hword hblank hlower hletter
    simp only [List.mem_append, not_or]
    exact ⟨not_mem_of_forall hlead hspace, hword, not_mem_of_forall hfirst hblank,
      not_mem_of_forall hqualifier hlower, not_mem_of_forall hsecond hblank,
      not_mem_of_forall htype hletter, not_mem_of_forall hlast hspace⟩
  refine ⟨_, by simp only [List.append_assoc], hbody ';' (by decide) (by decide) (by decide)
    (by decide) (by decide), ?_⟩
  have hmark := hbody '#' (by decide) (by decide) (by decide) (by decide) (by decide)
  simpa using hmark

theorem IsStatement.split {first second : Text} (hsource : first ++ second = text ++ behind) :
    (∃ rest, first = text ++ rest ∧ behind = rest ++ second) ∨
      ∃ more, more ≠ [] ∧ text = first ++ more ∧ second = more ++ behind := by
  rcases List.append_eq_append_iff.mp hsource with ⟨more, htext, hsecond⟩ | ⟨rest, hfirst, hbehind⟩
  · by_cases hmore : more = []
    · subst hmore
      exact .inl ⟨[], by simp [htext], by simp [hsecond]⟩
    · exact .inr ⟨more, hmore, htext, hsecond⟩
  · exact .inl ⟨rest, hfirst, hbehind⟩

/-! ## Where the word stands -/

/-- The text begins with the word, which may be the end of a longer name. -/
def StartsWithWord (source : Text) : Prop :=
  ∃ rest, source = word ++ rest ∧ ∀ char ∈ rest.head?, isWordCharacter char = false

instance (source : Text) : Decidable (StartsWithWord source) :=
  decidable_of_iff ((word.isPrefixOf? source).any fun rest =>
      rest.head?.all fun char => !isWordCharacter char) <| by
    simp only [Option.any_eq_true, Option.all_eq_true, Bool.not_eq_true',
      List.isPrefixOf?_eq_some_iff_append_eq]
    exact exists_congr fun rest => and_congr_left fun _ => eq_comm

theorem isAsciiLetter_of_mem_word : ∀ char ∈ word, isAsciiLetter char = true :=
  List.all_eq_true.mp (by decide)

theorem isWordCharacter_of_mem_word : ∀ char ∈ word, isWordCharacter char = true :=
  List.all_eq_true.mp (by decide)

theorem startsWithWord_append_iff {first : Text} (hne : first ≠ [])
    (hends : endsWord afterWord first = false) (second : Text) :
    StartsWithWord (first ++ second) ↔ StartsWithWord first := by
  have hwhole : ∀ more, word = first ++ more → False := by
    intro more hword
    have hall : ∀ char ∈ first, isWordCharacter char = true := fun char hmem =>
      isWordCharacter_of_mem_word char (by rw [hword]; exact List.mem_append_left more hmem)
    rw [Text.endsWord_of_forall hne hall] at hends
    cases hends
  constructor
  · rintro ⟨rest, hsplit, hrest⟩
    rcases List.append_eq_append_iff.mp hsplit with ⟨more, hword, -⟩ | ⟨more, hfirst, rfl⟩
    · exact (hwhole more hword).elim
    · refine ⟨more, hfirst, fun char hchar => hrest char ?_⟩
      rw [Option.mem_def] at hchar ⊢
      rw [List.head?_append, hchar]
      rfl
  · rintro ⟨rest, rfl, hrest⟩
    refine ⟨rest ++ second, List.append_assoc _ _ _, ?_⟩
    cases rest with
    | nil => exact (hwhole [] (by simp)).elim
    | cons char rest => exact hrest

theorem IsStatement.exists_word (h : IsStatement text) :
    ∃ lead rest, text = lead ++ (word ++ rest) ∧ (∀ char ∈ lead, isSpaceOrTab char = true) ∧
      rest ≠ [] ∧ ∀ char ∈ rest.head?, isWordCharacter char = false := by
  obtain ⟨lead, first, _, _, _, _, rfl, hlead, ⟨hne, hfirst⟩, -⟩ := h
  exact ⟨lead, _, rfl, hlead, by simp [hne], head_eq_false_of_forall hne hfirst
    (fun _ hblank => isWordCharacter_of_isBlank hblank) _⟩

theorem IsStatement.blank_or_exists_word (h : IsStatement text) {first second : Text}
    (hsource : first ++ second = text ++ behind) (hends : endsWord afterWord first = false) :
    (∀ char ∈ first, isSpaceOrTab char = true) ∨
      ∃ lead rest, first = lead ++ rest ∧ rest ≠ [] ∧ StartsWithWord rest := by
  obtain ⟨lead, more, rfl, hlead, hne, hmore⟩ := h.exists_word
  rw [List.append_assoc] at hsource
  rcases List.append_eq_append_iff.mp hsource with ⟨rest, hblanks, -⟩ | ⟨rest, rfl, hrest⟩
  · exact .inl fun char hmem => hlead char (by rw [hblanks]; exact List.mem_append_left rest hmem)
  · by_cases hnil : rest = []
    · subst hnil
      exact .inl (by simpa using hlead)
    · refine .inr ⟨lead, rest, rfl, hnil, ?_⟩
      have hstarts : StartsWithWord (rest ++ second) := by
        refine ⟨more ++ behind, by rw [← hrest]; simp, fun char hchar => hmore char ?_⟩
        cases more with
        | nil => exact absurd rfl hne
        | cons head more => exact hchar
      rw [Text.endsWord_append] at hends
      exact (startsWithWord_append_iff hnil hends second).mp hstarts

/-! ## Tidy and calm texts -/

/-- What a tidy text says at one position, given whether a word character stands before it. -/
structure TidyAt (afterWord : Bool) (source : Text) : Prop where
  /-- Where the word ends a name, it is the whole name and begins a statement. -/
  opens : StartsWithWord source →
    afterWord = false ∧ (afterStatement? afterWord source).isSome = true
  /-- Behind a statement that stands behind a word are no other word and no directive. -/
  parted : afterWord = true → ∀ after ∈ afterStatement? afterWord source,
    ∀ char ∈ after.head?, isWordCharacter char = false ∧ char ≠ '#'
  /-- No directive stands on one line behind a word and blanks. -/
  marked : afterWord = true → (source.dropWhile isSpaceOrTab).head? ≠ some '#'

structure CalmAt (afterWord : Bool) (source : Text) : Prop where
  not_opens : ¬StartsWithWord source
  marked : afterWord = true → (source.dropWhile isSpaceOrTab).head? ≠ some '#'

instance (afterWord : Bool) (source : Text) : Decidable (TidyAt afterWord source) :=
  decidable_of_iff
    ((StartsWithWord source →
        afterWord = false ∧ (afterStatement? afterWord source).isSome = true) ∧
      (afterWord = true → (afterStatement? afterWord source).all fun after =>
        after.head?.all fun char => !isWordCharacter char && char != '#') ∧
      (afterWord = true → (source.dropWhile isSpaceOrTab).head? ≠ some '#')) <| by
    simp only [Option.all_eq_true, Bool.and_eq_true, Bool.not_eq_true', bne_iff_ne]
    exact ⟨fun ⟨hopens, hparted, hmarked⟩ => ⟨hopens, hparted, hmarked⟩,
      fun h => ⟨h.opens, h.parted, h.marked⟩⟩

abbrev IsTidy (source : Text) : Prop := Throughout TidyAt false source

abbrev IsCalm (source : Text) : Prop := Throughout CalmAt false source

/-! ## Removal -/

private theorem removeFrom_skip {skipped : Text} (hends : endsWord afterWord skipped = false)
    (rest : Text) : removeFrom afterWord skipped.length (skipped ++ rest) =
      removeFrom false 0 rest := by
  induction skipped generalizing afterWord with
  | nil =>
      obtain rfl : afterWord = false := hends
      rfl
  | cons char skipped ih => exact ih hends

private theorem isWordCharacter_of_isTrailing {char : Char} (h : isTrailing char = true) :
    isWordCharacter char = false := by
  simp only [isTrailing, isSpaceOrTab, Bool.or_eq_true, beq_iff_eq] at h
  rcases h with (rfl | rfl) | rfl <;> decide

private theorem exists_removed (h : afterStatement? afterWord source = some after) :
    ∃ char skipped, source = char :: (skipped ++ after) ∧
      endsWord (isWordCharacter char) skipped = false := by
  obtain ⟨text, behind, htext, rfl, hafter, -⟩ := exists_statement h
  obtain ⟨body, rfl, -⟩ := htext.exists_body
  obtain ⟨trail, htrail, htrailAll⟩ := exists_run_append_dropWhile isTrailing behind
  have hends : endsWord false (body ++ [';'] ++ trail) = false := by
    rw [Text.endsWord_append, Text.endsWord_append, Text.endsWord_singleton]
    by_cases hnil : trail = []
    · subst hnil
      decide
    · exact Text.endsWord_of_forall hnil fun char hmem =>
        isWordCharacter_of_isTrailing (htrailAll char hmem)
  have hsource : body ++ [';'] ++ behind = body ++ [';'] ++ trail ++ after := by
    rw [hafter, List.append_assoc _ trail, ← htrail]
  rw [hsource]
  cases hsplit : body ++ [';'] ++ trail with
  | nil => simp at hsplit
  | cons char skipped =>
      rw [hsplit] at hends
      exact ⟨char, skipped, rfl, hends⟩

private theorem removeFrom_of_some (h : afterStatement? afterWord source = some after) :
    removeFrom afterWord 0 source = removeFrom false 0 after := by
  obtain ⟨char, skipped, rfl, hends⟩ := exists_removed h
  have hlength : (skipped ++ after).length - after.length = skipped.length := by simp
  rw [removeFrom, h]
  dsimp only
  rw [hlength, removeFrom_skip hends]

private theorem throughout_after {holds : Bool → Text → Prop}
    (h : Throughout holds afterWord source)
    (hafter : afterStatement? afterWord source = some after) : Throughout holds false after := by
  obtain ⟨char, skipped, rfl, hends⟩ := exists_removed hafter
  have hrest := h.2.of_append
  rwa [hends] at hrest

private theorem afterStatement?_eq_none_of_cons {char : Char} (hchar : isSpaceOrTab char = true)
    (h : afterStatement? afterWord (char :: rest) = none) (flag : Bool) :
    afterStatement? flag rest = none := by
  rw [Option.eq_none_iff_forall_ne_some]
  intro after hafter
  obtain ⟨text, behind, ⟨lead, first, qualifier, second, type, last, rfl, hlead, hparts⟩, rfl, -⟩ :=
    exists_statement hafter
  have hlonger : IsStatement (char :: (lead ++
      (word ++ (first ++ (qualifier ++ (second ++ (type ++ (last ++ [';'])))))))) :=
    ⟨char :: lead, first, qualifier, second, type, last, rfl,
      List.forall_mem_cons.mpr ⟨hchar, hlead⟩, hparts⟩
  have hsome : afterStatement? afterWord (_ ++ behind) = some _ :=
    afterStatement?_append hlonger (.inr hchar) behind
  rw [List.cons_append, h] at hsome
  cases hsome

private theorem head_dropWhile_removeFrom (h : afterStatement? afterWord source = none) :
    ((removeFrom afterWord 0 source).dropWhile isSpaceOrTab).head? =
      (source.dropWhile isSpaceOrTab).head? := by
  induction source generalizing afterWord with
  | nil => rfl
  | cons char rest ih =>
      rw [removeFrom_of_none h]
      by_cases hchar : isSpaceOrTab char = true
      · rw [List.dropWhile_cons_of_pos hchar, List.dropWhile_cons_of_pos hchar]
        exact ih (afterStatement?_eq_none_of_cons hchar h _)
      · rw [List.dropWhile_cons_of_neg hchar, List.dropWhile_cons_of_neg hchar]
        rfl

private theorem head_of_parted (h : TidyAt true source)
    (hafter : afterStatement? true source = some after) :
    ∀ char ∈ (removeFrom true 0 source).head?,
      isWordCharacter char = false ∧ char ≠ '#' ∧ isSpaceOrTab char = false := by
  rw [removeFrom_of_some hafter]
  obtain ⟨text, behind, -, -, hbehind, -⟩ := exists_statement hafter
  have htrailing := head_dropWhile isTrailing behind
  rw [← hbehind] at htrailing
  cases after with
  | nil => exact fun char hchar => nomatch hchar
  | cons first rest =>
      obtain ⟨hword, hmark⟩ := h.parted rfl _ hafter first rfl
      have hspace : isSpaceOrTab first = false := (Bool.or_eq_false_iff.mp (htrailing first rfl)).1
      have hletter : first ≠ 'p' := by
        rintro rfl
        exact absurd hword (by decide)
      rw [removeFrom_of_none (afterStatement?_eq_none_of_head hspace hletter _ _)]
      rintro char ⟨rfl⟩
      exact ⟨hword, hmark, hspace⟩

private theorem exists_word_of_removeFrom {text more : Text}
    (htext : ∀ char ∈ text, isWordCharacter char = true) (h : Throughout TidyAt true source)
    (hremoved : removeFrom true 0 source = text ++ more)
    (hmore : ∀ char ∈ more.head?, isWordCharacter char = false) :
    ∃ rest, source = text ++ rest ∧ ∀ char ∈ rest.head?, isWordCharacter char = false := by
  induction text generalizing source with
  | nil =>
      refine ⟨source, rfl, fun char hchar => ?_⟩
      cases source with
      | nil => cases hchar
      | cons first rest =>
          cases hchar
          cases hafter : afterStatement? true (char :: rest) with
          | none =>
              rw [removeFrom_of_none hafter, List.nil_append] at hremoved
              exact hmore char (by rw [← hremoved]; rfl)
          | some after =>
              obtain ⟨-, -, -, -, -, hstart⟩ := exists_statement hafter
              exact isWordCharacter_of_isTrailing
                (Bool.or_eq_true_iff.mpr (.inl (hstart.resolve_left (by simp))))
  | cons first text ih =>
      obtain ⟨hfirst, hrest⟩ := List.forall_mem_cons.mp htext
      cases source with
      | nil => simp [removeFrom] at hremoved
      | cons char rest =>
          cases hafter : afterStatement? true (char :: rest) with
          | none =>
              rw [removeFrom_of_none hafter, List.cons_append, List.cons.injEq] at hremoved
              obtain ⟨rfl, hremoved⟩ := hremoved
              have hbelow := h.2
              rw [hfirst] at hremoved hbelow
              obtain ⟨behind, rfl, hbehind⟩ := ih hrest hbelow hremoved
              exact ⟨behind, rfl, hbehind⟩
          | some after =>
              have hparted := head_of_parted (h.head (by simp)) hafter
              rw [hremoved] at hparted
              rw [(hparted first rfl).1] at hfirst
              cases hfirst

private theorem startsWithWord_of_removeFrom {char : Char}
    (h : Throughout TidyAt afterWord (char :: rest))
    (hnone : afterStatement? afterWord (char :: rest) = none)
    (hstarts : StartsWithWord (removeFrom afterWord 0 (char :: rest))) :
    StartsWithWord (char :: rest) := by
  obtain ⟨more, hmore, hhead⟩ := hstarts
  rw [removeFrom_of_none hnone, word_eq_cons, List.cons_append, List.cons.injEq] at hmore
  obtain ⟨rfl, hmore⟩ := hmore
  have hletter : isWordCharacter 'p' = true := by decide
  have hbelow := h.2
  rw [hletter] at hmore hbelow
  have hword : ∀ char ∈ "recision".toList, isWordCharacter char = true := by
    intro char hmem
    exact isWordCharacter_of_mem_word char (by
      rw [word_eq_cons]
      exact List.mem_cons_of_mem _ hmem)
  obtain ⟨behind, rfl, hbehind⟩ := exists_word_of_removeFrom hword hbelow hmore hhead
  exact ⟨behind, by rw [word_eq_cons]; rfl, hbehind⟩

private theorem throughout_removeFrom (h : Throughout TidyAt afterWord source) :
    Throughout CalmAt afterWord (removeFrom afterWord 0 source) := by
  induction hlength : source.length using Nat.strong_induction_on generalizing source afterWord with
  | _ length ih =>
      subst hlength
      cases source with
      | nil => trivial
      | cons char rest =>
          cases hafter : afterStatement? afterWord (char :: rest) with
          | none =>
              have hstays := removeFrom_of_none hafter
              have hmarked := head_dropWhile_removeFrom hafter
              rw [hstays] at hmarked ⊢
              refine ⟨⟨fun hstarts => ?_, fun hflag => ?_⟩, ih _ (Nat.lt_succ_self _) h.2 rfl⟩
              · rw [← hstays] at hstarts
                have hopens := h.1.opens (startsWithWord_of_removeFrom h hafter hstarts)
                rw [hafter] at hopens
                cases hopens.2
              · rw [hmarked]
                exact h.1.marked hflag
          | some after =>
              have hshorter : after.length < (char :: rest).length := by
                obtain ⟨_, _, hsource, -⟩ := exists_removed hafter
                simp only [hsource, List.length_cons, List.length_append]
                omega
              have hcalm := ih _ hshorter (throughout_after h hafter) rfl
              cases afterWord with
              | false =>
                  rw [removeFrom_of_some hafter]
                  exact hcalm
              | true =>
                  have hhead := head_of_parted h.1 hafter
                  rw [removeFrom_of_some hafter] at hhead ⊢
                  cases hout : removeFrom false 0 after with
                  | nil => trivial
                  | cons first more =>
                      rw [hout] at hcalm hhead
                      obtain ⟨-, hmark, hspace⟩ := hhead first rfl
                      refine ⟨⟨hcalm.1.not_opens, fun _ => ?_⟩, hcalm.2⟩
                      rw [List.dropWhile_cons_of_neg (by simp [hspace])]
                      simpa using hmark

theorem isCalm_removeStatements (h : IsTidy source) : IsCalm (removeStatements source) :=
  throughout_removeFrom h

end Precision

end GlslCompose
