import GlslCompose.Proofs.Token.Below
import GlslCompose.Proofs.Token.Delimited
import GlslCompose.Proofs.Token.LineStart

/-!
# Tokens in front of a place

The tokens in front of another one are those of their own text.  A directive that opens at
the start of a line has blank space in front of it, and this blank space holds the line feed.
-/

namespace GlslCompose.Token

variable {version : GlslVersion} {number : Nat} {source : Text} {token : Token}
  {tokens earlier later : List Token}

/-! ## Tokens by place -/

theorem at?_append_add {offset : Nat} (hoffset : offset < token.text.length)
    (earlier later : List Token) :
    at? (earlier ++ token :: later) ((concat earlier).length + offset) = some token := by
  induction earlier with
  | nil => rw [concat, List.flatMap_nil, List.length_nil, Nat.zero_add, List.nil_append, at?,
      if_pos hoffset]
  | cons first earlier ih =>
      rw [concat_cons, List.length_append, Nat.add_assoc, List.cons_append, at?_cons_add, ih]

def inFront : List Token → Nat → List Token
  | [], _ => []
  | token :: tokens, offset =>
      if offset = 0 then [] else token :: inFront tokens (offset - token.text.length)

theorem subset_inFront {offset : Nat} (h : (concat earlier).length < offset) (token : Token)
    (later : List Token) : earlier ++ [token] ⊆ inFront (earlier ++ token :: later) offset := by
  have hpos : offset ≠ 0 := Nat.ne_of_gt (Nat.zero_lt_of_lt h)
  induction earlier generalizing offset with
  | nil =>
      rw [List.nil_append, List.nil_append, inFront, if_neg hpos]
      exact List.cons_subset_cons token (List.nil_subset _)
  | cons first earlier ih =>
      rw [concat_cons, List.length_append] at h
      rw [List.cons_append, List.cons_append, inFront, if_neg hpos]
      exact List.cons_subset_cons first (ih (by omega) (by omega))

theorem text_ne_nil_of_mem (h : tokensFrom version number source = earlier ++ later)
    (hlater : later ≠ []) (hmem : token ∈ earlier) : token.text ≠ [] := by
  obtain ⟨pieces, last, hpieces, hne⟩ :=
    (tokensFrom_isPartition version number source).pieces_then_end
  obtain ⟨init, final, rfl⟩ := (List.eq_nil_or_concat later).resolve_left hlater
  rw [hpieces, List.concat_eq_append, ← List.append_assoc] at h
  obtain ⟨rfl, -⟩ := List.append_inj' h rfl
  exact (hne token (List.mem_append_left init hmem)).2

/-! ## One token and the text behind it -/

theorem splitDirective_snd (source : Text) :
    (splitDirective source).2 = [] ∨ ∃ rest, (splitDirective source).2 = '\n' :: rest := by
  fun_induction splitDirective source with
  | case1 _ ih => exact ih
  | case2 _ ih => exact ih
  | case3 rest => exact .inr ⟨rest, rfl⟩
  | case4 _ _ _ _ _ ih => exact ih
  | case5 => exact .inl rfl

theorem exists_scan_of_tokensFrom (h : token :: tokens = tokensFrom version number source) :
    (token = ⟨.eof, [], number⟩ ∧ tokens = []) ∨
    ∃ first rest next,
      token = ⟨(scan version first rest).kind, first :: (scan version first rest).tail, number⟩ ∧
      tokens = tokensFrom version next (scan version first rest).rest := by
  cases source with
  | nil =>
      rw [tokensFrom.eq_1] at h
      cases h
      exact .inl ⟨rfl, rfl⟩
  | cons first rest =>
      obtain ⟨next, hcons⟩ : ∃ next, tokensFrom version number (first :: rest) = _ :=
        tokensFrom_cons number first rest
      cases h.trans hcons
      exact .inr ⟨first, rest, next, rfl, rfl⟩

/-! ## Tokens of a front -/

theorem exists_tokensFrom_concat (h : tokensFrom version number source = earlier ++ later)
    (hlater : later ≠ []) :
    ∃ last, tokensFrom version number (concat earlier) =
      earlier ++ [{ kind := .eof, text := [], line := last }] := by
  have hsame : earlier.map (renumber number number) = earlier.map id := by
    refine List.map_congr_left fun token hmem => ?_
    have hle := le_line_of_mem (h ▸ List.mem_append_left later hmem)
    rw [renumber, Nat.add_sub_cancel' hle, id]
  rw [tokensFrom_concat h hlater number, hsame, List.map_id]
  exact ⟨_, rfl⟩

private theorem getLast?_of_blockComment {inside : Text}
    (h : (splitBlockComment inside).2 ≠ []) :
    (splitBlockComment inside).1.getLast? = some '/' := by
  by_cases hclose : ['*', '/'] <:+: inside
  · obtain ⟨body, rest, rfl, ⟨before, rfl⟩, hsplit⟩ := splitBlockComment_of_infix hclose
    have hwhole := hsplit []
    rw [List.append_nil] at hwhole
    rw [hwhole]
    simp
  · rw [splitBlockComment_eq_self hclose] at h
    exact absurd rfl h

private theorem isBlank_of_scan_newline {first : Char} {rest more : Text}
    (hrest : (scan version first rest).rest = '#' :: more)
    (hlast : (first :: (scan version first rest).tail).getLast? = some '\n') :
    isBlank first = true := by
  have hfeed := List.mem_of_getLast? hlast
  rcases scan_opening version first rest with hblank | ⟨rfl, hcomment⟩ | rfl | hplain
  · exact hblank
  · rcases head?_of_isComment hcomment with hline | ⟨inside, rfl⟩
    · rw [scan_lineComment hline, List.mem_cons] at hfeed
      rcases hfeed with hfirst | hmem
      · exact absurd hfirst (by decide)
      · simpa using List.mem_takeWhile_imp hmem
    · rw [scan_blockComment] at hrest hlast
      have hleft : (splitBlockComment inside).2 ≠ [] := fun hnil =>
        List.cons_ne_nil '#' more (hrest.symm.trans hnil)
      have hclose := getLast?_of_blockComment hleft
      have hlong : ('/' :: '*' :: (splitBlockComment inside).1).getLast? = some '/' := by
        rw [List.getLast?_cons, List.getLast?_cons, hclose]
        rfl
      cases hlong.symm.trans hlast
  · rw [scan_mark] at hrest
    rcases splitDirective_snd rest with hnil | ⟨below, hbelow⟩
    · exact absurd (hrest.symm.trans hnil) (List.cons_ne_nil _ _)
    · cases hrest.symm.trans hbelow
  · rcases List.mem_cons.mp hfeed with rfl | hmem
    · rfl
    · exact absurd hmem (not_mem_tail_of_stops (by decide) hplain)

theorem exists_whitespace_of_mark {above more : Text}
    (h : tokensFrom version number source = earlier ++ token :: later)
    (hmark : token.text = '#' :: more) (habove : concat earlier = above ++ ['\n']) :
    ∃ init blank blanks, earlier = init ++ [blank] ∧ blank.kind = .whitespace ∧
      blank.text = blanks ++ ['\n'] ∧ (∀ char ∈ blanks, isBlank char = true) ∧
      above = concat init ++ blanks := by
  obtain ⟨init, last, rfl⟩ := (List.eq_nil_or_concat earlier).resolve_left fun hnil => by
    rw [hnil] at habove
    simp [concat] at habove
  rw [List.concat_eq_append] at h habove ⊢
  have hne : last.text ≠ [] := text_ne_nil_of_mem h (List.cons_ne_nil _ _) (by simp)
  have hends : concat init ++ last.text = above ++ ['\n'] := by
    rw [← habove, concat_append, concat_cons]
    exact congrArg _ (List.append_nil _).symm
  obtain ⟨blanks, hblanks⟩ : ∃ blanks, last.text = blanks ++ ['\n'] := by
    have hfeed := congrArg List.getLast? hends
    rw [List.getLast?_append_of_ne_nil _ hne, List.getLast?_concat] at hfeed
    exact List.getLast?_eq_some_iff.mp hfeed
  rw [hblanks, ← List.append_assoc] at hends
  -- The last token in front of the directive is read alone.
  rw [List.append_assoc, List.singleton_append] at h
  obtain ⟨text, htokens⟩ := exists_tokensFrom_of_append h
  rcases exists_scan_of_tokensFrom htokens.symm with ⟨-, hnil⟩ | ⟨first, rest, next, hlast, htail⟩
  · cases hnil
  have hrest : (scan version first rest).rest = '#' :: (more ++ concat later) := by
    rw [← concat_tokensFrom version next (scan version first rest).rest, ← htail, concat_cons,
      hmark, List.cons_append]
  have hblank : isBlank first = true := by
    refine isBlank_of_scan_newline hrest ?_
    have htext : last.text = first :: (scan version first rest).tail := by rw [hlast]
    rw [← htext, hblanks, List.getLast?_concat]
  have hwhite : last.kind = .whitespace ∧
      last.text = first :: (splitWhile isBlank rest).1 := by
    rw [hlast, scan_blank hblank]
    exact ⟨rfl, rfl⟩
  refine ⟨init, last, blanks, rfl, hwhite.1, hblanks, fun char hmem => ?_,
    (List.append_inj' hends rfl).1.symm⟩
  have hmem := hwhite.2 ▸ hblanks ▸ List.mem_append_left ['\n'] hmem
  rcases List.mem_cons.mp hmem with rfl | hmem
  · exact hblank
  · exact List.mem_takeWhile_imp hmem

/-- A row below a line is a directive of its own, or the end of one that a backslash in front
of the line end continues, if no block comment holds it. -/
theorem exists_directive_of_row {above tail rest : Text}
    (htail : ∀ char ∈ tail, char ≠ '\\' ∧ char ≠ '\n')
    (htokens : tokens = tokensFrom version number (above ++ '\n' :: '#' :: (tail ++ '\n' :: rest)))
    (hcode : ∀ token ∈ at? tokens (above.length + 1), token.kind ≠ .blockComment) :
    ∃ earlier token near next, tokens = earlier ++ token :: tokensFrom version next ('\n' :: rest) ∧
      token.kind = .preprocessor ∧ token.text = near ++ '#' :: tail ∧
      concat earlier ++ near = above ++ ['\n'] ∧
      (near = [] ∨ ∃ before gap, near = '#' :: before ++ '\\' :: gap ∧ '\n' ∈ gap ∧
        ∀ char ∈ gap, isBlank char = true) := by
  have hrow : splitDirective (tail ++ '\n' :: rest) = (tail, '\n' :: rest) := by
    rw [splitDirective_plain htail]
    exact congrArg (·, _) (List.append_nil _)
  rw [List.append_cons] at htokens
  rcases blockComment_or_hasDirective number (Text.endsLine_append_newline above)
      (tail ++ '\n' :: rest) with
    ⟨token, htoken, hkind⟩ | ⟨earlier, token, near, next, hsplit, hkind, htext, hnear⟩
  · rw [← htokens, List.length_append] at htoken
    exact absurd hkind (hcode token htoken)
  rw [← htokens, hrow] at hsplit
  rw [hrow] at htext
  refine ⟨earlier, token, near, next, hsplit, hkind, htext, ?_, hnear⟩
  have hwhole := concat_tokensFrom version number (above ++ ['\n'] ++ '#' :: (tail ++ '\n' :: rest))
  rw [← htokens, hsplit, concat_append, concat_cons, concat_tokensFrom, htext,
    List.append_assoc, List.cons_append, ← List.append_assoc] at hwhole
  exact List.append_cancel_right hwhole

end GlslCompose.Token
