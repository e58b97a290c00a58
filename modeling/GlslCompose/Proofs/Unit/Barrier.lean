import GlslCompose.Proofs.Unit.Tidy

/-!
# Barriers in tidy texts

No statement reaches over the beginning of a directive, and over the beginning of a header
only the header itself.  So what stands in front of them stays tidy when they are taken out
or when another text is put in their place.
-/

namespace GlslCompose.Precision

open Text

variable {accepts : Char → Bool} {text source rest behind after : Text} {afterWord : Bool}

/-! ## Text behind a barrier -/

/-- What stands in front of the barrier may stand in front of the text beyond instead. -/
structure Barrier (barrier beyond : Text) : Prop where
  blank_of_reaches : ∀ {lead more behind}, IsStatement (lead ++ more) → more ≠ [] →
    barrier = more ++ behind → ∀ char ∈ lead, isSpaceOrTab char = true
  exists_head : ∃ first rest, barrier = first :: rest ∧ isTrailing first = false ∧
    (isWordCharacter first = true ∨ first = '#')
  head_of_blank : ∀ {lead}, lead ≠ [] → (∀ char ∈ lead, isSpaceOrTab char = true) →
    TidyAt true (lead ++ barrier) →
    ∀ char ∈ (beyond.dropWhile isSpaceOrTab).head?, char ≠ '#' ∧ char ≠ 'p'

section Barrier

variable {barrier beyond front : Text}

private theorem Barrier.exists_statement_of_starts (hbarrier : Barrier barrier beyond)
    (h : TidyAt afterWord (front ++ barrier)) (hstarts : StartsWithWord front)
    (hends : endsWord afterWord front = false) (hne : front ≠ []) :
    afterWord = false ∧ ∃ text rest, IsStatement text ∧ front = text ++ rest := by
  obtain ⟨hflag, hsome⟩ := h.opens ((startsWithWord_append_iff hne hends barrier).mpr hstarts)
  obtain ⟨after, hafter⟩ := Option.isSome_iff_exists.mp hsome
  obtain ⟨text, behind, htext, hsource, -⟩ := exists_statement hafter
  rcases IsStatement.split hsource with ⟨rest, hfront, -⟩ | ⟨more, hmore, rfl, hreaches⟩
  · exact ⟨hflag, text, rest, htext, hfront⟩
  · have hblank := hbarrier.blank_of_reaches htext hmore hreaches
    obtain ⟨rest, rfl, -⟩ := hstarts
    exact absurd (hblank 'p' (by simp [word_eq_cons])) (by decide)

private theorem Barrier.blank_of_split (hbarrier : Barrier barrier beyond)
    (hends : endsWord afterWord front = false)
    (h : Throughout TidyAt afterWord (front ++ barrier)) {more : Text}
    (htext : IsStatement (front ++ more)) (hmore : more ≠ []) :
    ∀ char ∈ front, isSpaceOrTab char = true := by
  have hsource : front ++ more = front ++ more ++ [] := (List.append_nil _).symm
  rcases htext.blank_or_exists_word hsource hends with hblank | ⟨lead, rest, rfl, hne, hstarts⟩
  · exact hblank
  · rw [List.append_assoc] at h
    have hat := h.of_append.head (by simp [hne])
    rw [Text.endsWord_append] at hends
    obtain ⟨-, found, behind, hfound, rfl⟩ :=
      hbarrier.exists_statement_of_starts hat hstarts hends hne
    -- The semicolon of the statement that ends in front of the barrier is a second one.
    obtain ⟨earlier, rfl, -⟩ := hfound.exists_body
    obtain ⟨body, hbody, hsemicolon, -⟩ := htext.exists_body
    rcases List.eq_nil_or_concat more with rfl | ⟨init, last, rfl⟩
    · exact absurd rfl hmore
    · rw [List.concat_eq_append, ← List.append_assoc] at hbody
      obtain ⟨rfl, -⟩ := List.append_inj' hbody rfl
      exact absurd (by simp) hsemicolon

private theorem Barrier.tidyAt (hbarrier : Barrier barrier beyond) (hne : front ≠ [])
    (hends : endsWord afterWord front = false)
    (h : Throughout TidyAt afterWord (front ++ barrier)) : TidyAt afterWord (front ++ beyond) := by
  have hat : TidyAt afterWord (front ++ barrier) := h.head (by simp [hne])
  constructor
  · intro hstarts
    obtain ⟨hflag, text, rest, htext, rfl⟩ := hbarrier.exists_statement_of_starts hat
      ((startsWithWord_append_iff hne hends beyond).mp hstarts) hends hne
    refine ⟨hflag, ?_⟩
    rw [List.append_assoc, afterStatement?_append htext (.inl hflag)]
    rfl
  · rintro rfl after hafter
    obtain ⟨text, behind, htext, hsource, rfl, hstart⟩ := exists_statement hafter
    rcases IsStatement.split hsource with ⟨rest, rfl, rfl⟩ | ⟨more, hmore, rfl, rfl⟩
    · have htextStart : true = false ∨ text.head?.any isSpaceOrTab = true := by
        obtain ⟨body, rfl, -⟩ := htext.exists_body
        cases body <;> exact hstart
      have hfound := afterStatement?_append htext htextStart (rest ++ barrier)
      rw [← List.append_assoc] at hfound
      have hparted := hat.parted rfl _ hfound
      by_cases hnil : rest.dropWhile isTrailing = []
      · obtain ⟨first, more, rfl, htrailing, hfirst⟩ := hbarrier.exists_head
        rw [Text.dropWhile_append_of_eq_nil hnil,
          List.dropWhile_cons_of_neg (by simp [htrailing])] at hparted
        obtain ⟨hword, hmark⟩ := hparted first rfl
        rcases hfirst with hfirst | hfirst
        · rw [hfirst] at hword
          cases hword
        · exact absurd hfirst hmark
      · rw [head_dropWhile_append hnil] at hparted ⊢
        exact hparted
    · have hblank := hbarrier.blank_of_split hends h htext hmore
      have hhead := hbarrier.head_of_blank hne hblank hat
      obtain ⟨lead, rest, hword, hlead, -⟩ := htext.exists_word
      have hdrop : (more ++ behind).dropWhile isSpaceOrTab = word ++ (rest ++ behind) := by
        rw [← List.dropWhile_append_of_pos hblank, ← List.append_assoc, hword, List.append_assoc,
          List.append_assoc, List.dropWhile_append_of_pos hlead, word_eq_cons, List.cons_append,
          List.dropWhile_cons_of_neg (by decide)]
      rw [hdrop, word_eq_cons] at hhead
      exact absurd rfl (hhead 'p' rfl).2
  · rintro rfl hmark
    by_cases hnil : front.dropWhile isSpaceOrTab = []
    · rw [Text.dropWhile_append_of_eq_nil hnil] at hmark
      exact absurd rfl
        (hbarrier.head_of_blank hne (List.dropWhile_eq_nil_iff.mp hnil) hat '#' hmark).1
    · rw [head_dropWhile_append hnil] at hmark
      exact hat.marked rfl (by rw [head_dropWhile_append hnil, hmark])

private theorem Barrier.throughout (hbarrier : Barrier barrier beyond)
    (hends : endsWord afterWord front = false)
    (h : Throughout TidyAt afterWord (front ++ barrier)) (hbeyond : IsTidy beyond) :
    Throughout TidyAt afterWord (front ++ beyond) := by
  induction front generalizing afterWord with
  | nil =>
      obtain rfl : afterWord = false := hends
      exact hbeyond
  | cons char front ih =>
      exact ⟨hbarrier.tidyAt (by simp) hends h, ih hends h.2⟩

end Barrier

/-! ## Directives and headers as barriers -/

private theorem barrier_mark (rest beyond : Text) : Barrier ('#' :: rest) beyond where
  blank_of_reaches htext hmore hreaches := by
    obtain ⟨first, more, rfl⟩ := List.exists_cons_of_ne_nil hmore
    obtain ⟨rfl, -⟩ := List.cons.inj hreaches
    obtain ⟨-, -, -, hmark⟩ := htext.exists_body
    exact absurd (by simp) hmark
  exists_head := ⟨'#', rest, rfl, by decide, .inr rfl⟩
  head_of_blank _ hblank hat := by
    refine absurd ?_ (hat.marked rfl)
    rw [List.dropWhile_append_of_pos hblank, List.dropWhile_cons_of_neg (by decide)]
    rfl

/-- The qualifier and the type of a precision setting whose statement can be removed. -/
structure IsSetting (qualifier type : Text) : Prop where
  qualifier_ne_nil : qualifier ≠ []
  qualifier_lowercase : ∀ char ∈ qualifier, isLowercase char = true
  type_ne_nil : type ≠ []
  type_letters : ∀ char ∈ type, isAsciiLetter char = true
  qualifier_not_suffix : ¬word <:+ qualifier
  type_not_suffix : ¬word <:+ type

section Header

variable {qualifier type lead : Text}

theorem isBlank_space : [' '] ≠ [] ∧ ∀ char ∈ [' '], isBlank char = true :=
  ⟨by decide, List.forall_mem_singleton.mpr (by decide)⟩

theorem header_eq (qualifier type : Text) :
    header (qualifier ++ ' ' :: type) =
      word ++ ([' '] ++ (qualifier ++ ([' '] ++ (type ++ [';'])))) := by
  simp [header]

theorem IsSetting.isStatement (hsetting : IsSetting qualifier type)
    (hlead : ∀ char ∈ lead, isSpaceOrTab char = true) :
    IsStatement (lead ++ header (qualifier ++ ' ' :: type)) := by
  refine ⟨lead, [' '], qualifier, [' '], type, [], by rw [header_eq]; simp, hlead, isBlank_space,
    ⟨hsetting.qualifier_ne_nil, hsetting.qualifier_lowercase⟩, isBlank_space,
    ⟨hsetting.type_ne_nil, hsetting.type_letters⟩, by simp⟩

private theorem IsSetting.blank_of_isStatement (hsetting : IsSetting qualifier type)
    (htext : IsStatement (lead ++ header (qualifier ++ ' ' :: type))) :
    ∀ char ∈ lead, isSpaceOrTab char = true := by
  obtain ⟨blanks, first, name, second, kind, last, hsplit, hblanks, ⟨hfirstNe, hfirst⟩,
    ⟨hnameNe, hname⟩, ⟨hsecondNe, hsecond⟩, ⟨hkindNe, hkind⟩, hlast⟩ := htext
  rw [header_eq] at hsplit
  simp only [← List.append_assoc] at hsplit
  obtain ⟨hsplit, -⟩ := List.append_inj' hsplit rfl
  obtain ⟨hspaceNe, hspace⟩ := isBlank_space
  have hword : ∀ front : Text, ∀ char ∈ (front ++ word).getLast?, isBlank char = false :=
    last_eq_false_of_forall (by decide) isAsciiLetter_of_mem_word
      (fun _ => isBlank_of_isAsciiLetter)
  have hblankLetter : ∀ char, isBlank char = true → isAsciiLetter char = false := by
    intro char hblank
    rw [Bool.eq_false_iff]
    intro hletter
    rw [isBlank_of_isAsciiLetter hletter] at hblank
    cases hblank
  have hlowerBlank : ∀ char, isLowercase char = true → isBlank char = false := fun _ hlower =>
    isBlank_of_isAsciiLetter (isAsciiLetter_of_isLowercase hlower)
  -- The runs are compared one after the other, from the end to the word.
  obtain ⟨hsplit, -⟩ := eq_of_append_run ((List.append_nil _).trans hsplit) (by simp) hlast
    (last_eq_false_of_forall hsetting.type_ne_nil hsetting.type_letters
      (fun _ hletter => isSpaceOrTab_of_continuesWord (continuesWord_of_isAsciiLetter hletter)) _)
    (last_eq_false_of_forall hkindNe hkind
      (fun _ hletter => isSpaceOrTab_of_continuesWord (continuesWord_of_isAsciiLetter hletter)) _)
  obtain ⟨hsplit, -⟩ := eq_of_append_run hsplit hsetting.type_letters hkind
    (last_eq_false_of_forall hspaceNe hspace hblankLetter _)
    (last_eq_false_of_forall hsecondNe hsecond hblankLetter _)
  obtain ⟨hsplit, -⟩ := eq_of_append_run hsplit hspace hsecond
    (last_eq_false_of_forall hsetting.qualifier_ne_nil hsetting.qualifier_lowercase hlowerBlank _)
    (last_eq_false_of_forall hnameNe hname hlowerBlank _)
  obtain ⟨hsplit, -⟩ := eq_of_append_run hsplit hsetting.qualifier_lowercase hname
    (last_eq_false_of_forall hspaceNe hspace (fun _ => isLowercase_of_isBlank) _)
    (last_eq_false_of_forall hfirstNe hfirst (fun _ => isLowercase_of_isBlank) _)
  obtain ⟨hsplit, -⟩ := eq_of_append_run hsplit hspace hfirst
    (hword _) (hword _)
  rw [List.append_cancel_right hsplit]
  exact hblanks

private theorem IsSetting.exists_init (hsetting : IsSetting qualifier type) :
    ∃ init, header (qualifier ++ ' ' :: type) = init ++ [';'] ∧ ';' ∉ init := by
  obtain ⟨body, hbody, hsemicolon, -⟩ : ∃ body, [] ++ header (qualifier ++ ' ' :: type) =
      body ++ [';'] ∧ _ := (hsetting.isStatement (by simp)).exists_body
  exact ⟨body, hbody, hsemicolon⟩

private theorem IsSetting.barrier_header (hsetting : IsSetting qualifier type) (beyond : Text) :
    Barrier (header (qualifier ++ ' ' :: type) ++ beyond) beyond where
  blank_of_reaches := by
    intro lead more behind htext hmore hreaches
    obtain ⟨body, hbody, hsemicolon, -⟩ := htext.exists_body
    obtain ⟨init, hinit, hfirst⟩ := hsetting.exists_init
    rcases List.eq_nil_or_concat more with rfl | ⟨front, last, rfl⟩
    · exact absurd rfl hmore
    · rw [List.concat_eq_append, ← List.append_assoc] at hbody
      obtain ⟨rfl, hlast⟩ := List.append_inj' hbody rfl
      cases hlast
      rw [hinit, List.concat_eq_append, List.append_assoc, List.append_assoc] at hreaches
      have heq : init = front := eq_of_append_cons hreaches hfirst
        fun hmem => hsemicolon (List.mem_append_right lead hmem)
      rw [List.concat_eq_append, ← heq, ← hinit] at htext
      exact hsetting.blank_of_isStatement htext
  exists_head := ⟨'p', _, by rw [header_eq, word_eq_cons]; rfl, by decide, .inl (by decide)⟩
  head_of_blank := by
    intro lead hne hblank hat char hchar
    obtain ⟨first, rest, rfl⟩ := List.exists_cons_of_ne_nil hne
    have hfound : afterStatement? true _ = some _ := afterStatement?_append
      (hsetting.isStatement hblank) (.inr (hblank first List.mem_cons_self)) beyond
    rw [List.append_assoc] at hfound
    have hparted := hat.parted rfl _ hfound char
    have hshown : isTrailing char = false → isWordCharacter char = false ∧ char ≠ '#' :=
      fun htrailing => hparted (head_dropWhile_of_imp
        (fun _ hspace => Bool.or_eq_true_iff.mpr (.inl hspace)) hchar htrailing)
    constructor
    · rintro rfl
      exact (hshown (by decide)).2 rfl
    · rintro rfl
      exact absurd (hshown (by decide)).1 (by decide)

end Header

/-! ## Pieces that are taken out and put in -/

section Pieces

variable {front piece beyond : Text}

private theorem endsWord_of_mark (h : Throughout TidyAt afterWord (front ++ '#' :: rest)) :
    endsWord afterWord front = false := by
  rw [Bool.eq_false_iff]
  intro hends
  have hmarked := (h.of_append.head (by simp)).marked hends
  rw [List.dropWhile_cons_of_neg (by decide)] at hmarked
  exact hmarked rfl

theorem IsTidy.erase_directive (h : IsTidy (front ++ ('#' :: piece ++ '\n' :: beyond))) :
    IsTidy (front ++ beyond) := by
  have hends := endsWord_of_mark h
  have hbeyond := h.of_append
  rw [List.append_cons] at hbeyond
  have hrest := hbeyond.of_append
  rw [Text.endsWord_append, Text.endsWord_singleton] at hrest
  exact (barrier_mark _ beyond).throughout hends h hrest

theorem IsTidy.fill (h : IsTidy (front ++ '#' :: rest)) (hbeyond : IsTidy beyond) :
    IsTidy (front ++ beyond) :=
  (barrier_mark _ beyond).throughout (endsWord_of_mark h) h hbeyond

private theorem IsTidy.erase_header {qualifier type : Text} (hsetting : IsSetting qualifier type)
    (h : IsTidy (front ++ (header (qualifier ++ ' ' :: type) ++ beyond))) :
    IsTidy (front ++ beyond) := by
  have hne : header (qualifier ++ ' ' :: type) ≠ [] := by simp [header_eq]
  have hat := h.of_append.head (by simp [hne])
  have hstarts : StartsWithWord (header (qualifier ++ ' ' :: type) ++ beyond) :=
    ⟨_, by rw [header_eq, List.append_assoc], by rintro char ⟨rfl⟩; decide⟩
  have hbeyond := h.of_append.of_append
  obtain ⟨init, hinit, -⟩ := hsetting.exists_init
  rw [hinit, Text.endsWord_append, Text.endsWord_singleton] at hbeyond
  exact (hsetting.barrier_header beyond).throughout (hat.opens hstarts).1 h hbeyond

theorem IsTidy.replaceFirst_header {qualifier type : Text} (hsetting : IsSetting qualifier type)
    (h : IsTidy source) : IsTidy (source.replaceFirst (header (qualifier ++ ' ' :: type)) []) := by
  unfold Text.replaceFirst
  split
  · rename_i before after hsplit
    rw [Text.splitAround?_eq_some hsplit] at h
    rw [List.append_nil]
    exact h.erase_header hsetting
  · exact h

end Pieces

end GlslCompose.Precision
