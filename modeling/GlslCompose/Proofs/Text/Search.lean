import GlslCompose.Proofs.Text.Rows

/-!
# Search

Scanning a text never gets past a character that it does not accept, so what
follows this character stays at the end of the text.  Removing the first occurrence
of a pattern that holds no line feed, but perhaps at its very end, changes one line
at most: rows that the pattern avoids stay together.
-/

namespace GlslCompose.Text

/-! ## Characters that stop a scan -/

theorem suffix_dropWhile {accepts : Char → Bool} {char : Char} (hchar : accepts char = false)
    {rest source : Text} (h : char :: rest <:+ source) :
    char :: rest <:+ source.dropWhile accepts := by
  induction source with
  | nil => simp at h
  | cons first source ih =>
      by_cases hfirst : accepts first
      · rw [List.dropWhile_cons_of_pos hfirst]
        rcases List.suffix_cons_iff.mp h with heq | hsuffix
        · cases heq
          rw [hchar] at hfirst
          cases hfirst
        · exact ih hsuffix
      · rw [List.dropWhile_cons_of_neg hfirst]
        exact h

theorem takeWhile_append_of_head {accepts : Char → Bool} {rest : Text}
    (h : ∀ char ∈ rest.head?, accepts char = false) (source : Text) :
    (source ++ rest).takeWhile accepts = source.takeWhile accepts := by
  induction source with
  | nil =>
      cases rest with
      | nil => rfl
      | cons char rest => simp [h char rfl]
  | cons char source ih => rw [List.cons_append, List.takeWhile_cons, List.takeWhile_cons, ih]

theorem suffix_of_not_mem {char : Char} {rest first second : Text}
    (h : char :: rest <:+ first ++ second) (hchar : char ∉ first) :
    char :: rest <:+ second := by
  induction first with
  | nil => exact h
  | cons other first ih =>
      rcases List.suffix_cons_iff.mp h with heq | hsuffix
      · cases heq
        exact absurd List.mem_cons_self hchar
      · exact ih hsuffix fun hmem => hchar (List.mem_cons_of_mem other hmem)

/-! ## Patterns within a line -/

theorem prefix_of_newline {pattern before after : Text} (hpattern : '\n' ∉ pattern.dropLast)
    (h : pattern <+: before ++ '\n' :: after) : pattern <+: before ++ ['\n'] := by
  have hline : before ++ ['\n'] <+: before ++ '\n' :: after := by simp
  rcases List.prefix_or_prefix_of_prefix h hline with hshort | ⟨more, rfl⟩
  · exact hshort
  · rcases List.eq_nil_or_concat more with rfl | ⟨init, last, rfl⟩
    · simp
    · exfalso
      apply hpattern
      simp [← List.append_assoc, List.dropLast_append_of_ne_nil]

/-- No occurrence of the pattern begins in the row or at its end, whatever follows. -/
def Avoids (pattern row : Text) : Prop :=
  ∀ before after rest, row ++ ['\n'] = before ++ after → after ≠ [] →
    ¬pattern <+: after ++ rest

variable {pattern : Text}

theorem splitAround?_cons_of_unmatched {char : Char} {rest : Text}
    (h : ¬pattern <+: char :: rest) :
    splitAround? pattern (char :: rest) =
      (splitAround? pattern rest).map fun (before, after) => (char :: before, after) := by
  rw [splitAround?]
  split
  · rename_i after hafter
    rw [List.isPrefixOf?_eq_some_iff_append_eq] at hafter
    exact absurd ⟨after, hafter⟩ h
  · rfl

theorem splitAround?_eq_some {pattern source before after : Text}
    (h : splitAround? pattern source = some (before, after)) :
    source = before ++ (pattern ++ after) := by
  induction source generalizing before with
  | nil =>
      rw [splitAround?] at h
      split at h
      · rename_i hpattern
        cases h
        rw [hpattern]
        rfl
      · cases h
  | cons char rest ih =>
      rw [splitAround?] at h
      split at h
      · rename_i found hfound
        cases h
        exact (List.isPrefixOf?_eq_some_iff_append_eq.mp hfound).symm
      · obtain ⟨⟨earlier, found⟩, hfound, heq⟩ := Option.map_eq_some_iff.mp h
        cases heq
        rw [ih hfound]
        rfl

theorem splitAround?_append_self {after : Text} (hpattern : pattern ≠ []) :
    splitAround? pattern (pattern ++ after) = some ([], after) := by
  cases pattern with
  | nil => exact absurd rfl hpattern
  | cons first more =>
      rw [List.cons_append, splitAround?]
      split
      · rename_i rest hrest
        rw [List.isPrefixOf?_eq_some_iff_append_eq] at hrest
        rw [List.append_cancel_left hrest]
      · rename_i hnone
        have hsome : (first :: more).isPrefixOf? (first :: more ++ after) = some after :=
          List.isPrefixOf?_eq_some_iff_append_eq.mpr rfl
        rw [List.cons_append, hnone] at hsome
        cases hsome

theorem splitAround?_append_of_unmatched {skipped rest : Text}
    (h : ∀ before after, skipped = before ++ after → after ≠ [] → ¬pattern <+: after ++ rest) :
    splitAround? pattern (skipped ++ rest) =
      (splitAround? pattern rest).map fun (before, after) => (skipped ++ before, after) := by
  induction skipped with
  | nil => simp
  | cons char skipped ih =>
      have hfirst : ¬pattern <+: char :: (skipped ++ rest) :=
        h [] (char :: skipped) rfl (by simp)
      have hrest := ih fun before after heq hne => h (char :: before) after (by simp [heq]) hne
      rw [List.cons_append, splitAround?_cons_of_unmatched hfirst, hrest, Option.map_map]
      rfl

private theorem splitAround?_ofRows {rows : List Text} (hrows : ∀ row ∈ rows, Avoids pattern row)
    (rest : Text) :
    splitAround? pattern (ofRows rows ++ rest) =
      (splitAround? pattern rest).map fun (before, after) => (ofRows rows ++ before, after) := by
  induction rows with
  | nil => simp
  | cons row rows ih =>
      have hrow := hrows row List.mem_cons_self
      have hrest := ih fun other hother => hrows other (List.mem_cons_of_mem row hother)
      rw [ofRows_cons, List.append_cons, List.append_assoc,
        splitAround?_append_of_unmatched fun before after heq hne => hrow before after _ heq hne,
        hrest, Option.map_map]
      simp [Function.comp_def]

theorem splitAround?_nil (hpattern : pattern ≠ []) : splitAround? pattern [] = none :=
  if_neg hpattern

private theorem splitAround?_endsLine (hpattern : pattern ≠ []) (hline : '\n' ∉ pattern.dropLast)
    {first : Text} (hfirst : first.EndsLine) (rest : Text) :
    (∃ before after, splitAround? pattern first = some (before, after) ∧
      splitAround? pattern (first ++ rest) = some (before, after ++ rest)) ∨
    splitAround? pattern first = none ∧ splitAround? pattern (first ++ rest) =
      (splitAround? pattern rest).map fun (before, after) => (first ++ before, after) := by
  induction first with
  | nil => exact .inr ⟨splitAround?_nil hpattern, by simp⟩
  | cons char first ih =>
      by_cases hprefix : pattern <+: char :: (first ++ rest)
      · obtain ⟨body, hbody⟩ := hfirst.resolve_left (by simp)
        rw [← List.cons_append, hbody, List.append_assoc] at hprefix
        obtain ⟨after, hafter⟩ := prefix_of_newline hline hprefix
        refine .inl ⟨[], after, ?_, ?_⟩
        · rw [hbody, ← hafter, splitAround?_append_self hpattern]
        · rw [hbody, ← hafter, List.append_assoc, splitAround?_append_self hpattern]
      · have hshort : ¬pattern <+: char :: first := fun hopens =>
          hprefix (hopens.trans (List.prefix_append (char :: first) rest))
        rw [List.cons_append, splitAround?_cons_of_unmatched hprefix,
          splitAround?_cons_of_unmatched hshort]
        rcases ih hfirst.of_cons with ⟨before, after, hfound, hsplit⟩ | ⟨hnone, hsplit⟩
        · exact .inl ⟨char :: before, after, by rw [hfound]; rfl, by rw [hsplit]; rfl⟩
        · refine .inr ⟨by rw [hnone]; rfl, ?_⟩
          rw [hsplit, Option.map_map]
          rfl

/-- Rows that a pattern avoids stay behind a line end, and what is in front of them becomes
what it becomes alone. -/
theorem replaceFirst_ofRows (hpattern : pattern ≠ []) (hline : '\n' ∉ pattern.dropLast)
    {first : Text} (hfirst : first.EndsLine)
    (hend : ∀ before, first = before ++ pattern → before.EndsLine) {rows : List Text}
    (hrows : ∀ row ∈ rows, Avoids pattern row) (rest : Text) :
    (first.replaceFirst pattern []).EndsLine ∧
    ∃ right, (first ++ ofRows rows ++ rest).replaceFirst pattern [] =
      first.replaceFirst pattern [] ++ ofRows rows ++ right := by
  unfold replaceFirst
  rw [List.append_assoc]
  rcases splitAround?_endsLine hpattern hline hfirst (ofRows rows ++ rest) with
    ⟨before, after, hfound, hsplit⟩ | ⟨hnone, hsplit⟩
  · have hpieces := splitAround?_eq_some hfound
    rw [hfound, hsplit]
    refine ⟨?_, rest, by simp⟩
    dsimp only
    rw [List.append_nil]
    by_cases hafter : after = []
    · subst hafter
      rw [List.append_nil] at hpieces ⊢
      exact hend before hpieces
    · rw [hpieces, ← List.append_assoc] at hfirst
      exact hfirst.of_append.append_of_ne_nil hafter before
  · rw [hnone, hsplit, splitAround?_ofRows hrows]
    cases hrest : splitAround? pattern rest with
    | none => exact ⟨hfirst, rest, by simp⟩
    | some around => exact ⟨hfirst, around.1 ++ around.2, by simp⟩

/-! ## The first occurrence -/

theorem replaceFirst_of_absent {pattern source : Text} (h : ¬pattern <:+: source)
    (replacement : Text) : source.replaceFirst pattern replacement = source := by
  unfold replaceFirst
  split
  · rename_i before after hsplit
    refine absurd ⟨before, after, ?_⟩ h
    rw [splitAround?_eq_some hsplit, List.append_assoc]
  · rfl

theorem replaceFirst_append {above piece word rest : Text} (habove : above.EndsLine)
    (hpiece : piece = word ++ rest) (hline : '\n' ∉ piece) (hne : piece ≠ [])
    (hword : ¬word <:+: above) (below : Text) :
    (above ++ (piece ++ below)).replaceFirst piece [] = above ++ below := by
  have hskip : ∀ before after, above = before ++ after → after ≠ [] →
      ¬piece <+: after ++ (piece ++ below) := by
    intro before after hsplit hafter hprefix
    rw [hsplit] at habove
    obtain ⟨body, rfl⟩ := habove.of_append.resolve_left hafter
    rw [List.append_assoc, List.singleton_append] at hprefix
    have hstart := prefix_of_newline (fun hmem => hline (List.dropLast_subset _ hmem)) hprefix
    apply hword
    rw [hsplit]
    refine List.IsInfix.trans ?_ (List.suffix_append before (body ++ ['\n'])).isInfix
    exact (hpiece ▸ List.prefix_append word rest).isInfix.trans hstart.isInfix
  have hsplit := splitAround?_append_of_unmatched hskip
  rw [replaceFirst, hsplit, splitAround?_append_self hne]
  simp

end GlslCompose.Text
