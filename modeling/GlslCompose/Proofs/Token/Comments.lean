import GlslCompose.Proofs.Token.LineStart

/-!
# Tokens without comments

When the comments are taken out of a text, what stood in front of a comment meets what
stood behind it.  Where a blank or another character that joins nothing stands on one
of the two sides, no lexeme goes on over the place, and the text is read as before.
-/

namespace GlslCompose.Token

variable {version : GlslVersion}

theorem isSignificant_eq (token : Token) :
    token.isSignificant =
      (token.kind != .whitespace && token.kind != .eof && !token.kind.isComment) := by
  cases hkind : token.kind <;> simp [isSignificant, TokenKind.isComment, hkind]

/-! ## Texts that are read alike -/

/-- Two texts are the same, or they are as far as lexemes from in front of them go. -/
def Agrees (source other : Text) : Prop :=
  source = other ∨ ∃ near stop far after, source = near ++ stop :: far ∧
    other = near ++ after ∧ stops stop = true ∧ ∀ char ∈ after.head?, joins char = false

theorem Agrees.append_left {source other : Text} (h : Agrees source other) (text : Text) :
    Agrees (text ++ source) (text ++ other) := by
  rcases h with rfl | ⟨near, stop, far, after, rfl, rfl, hstop, hafter⟩
  · exact .inl rfl
  · exact .inr ⟨text ++ near, stop, far, after, by simp, by simp, hstop, hafter⟩

private theorem agrees_of_not_joins {text : Text} (hne : text ≠ [])
    (htext : ∀ char ∈ text, joins char = false) (source other : Text) :
    Agrees (text ++ source) (text ++ other) := by
  obtain ⟨init, last, rfl⟩ := List.eq_nil_or_concat text |>.resolve_left hne
  have hlast : joins last = false := htext last (by simp)
  refine .inr ⟨init, last, source, last :: other, by simp, by simp, by simp [stops, hlast], ?_⟩
  rintro char ⟨⟩
  exact hlast

private theorem scan_of_agrees {first : Char} {rest other : Text} (hplain : OpensPlain first rest)
    (h : Agrees (scan version first rest).rest other) :
    OpensPlain first ((scan version first rest).tail ++ other) ∧
    scan version first ((scan version first rest).tail ++ other) =
      { scan version first rest with rest := other } := by
  have happend := scan_append version first rest
  generalize hlexeme : scan version first rest = lexeme at h happend ⊢
  obtain ⟨kind, tail, left⟩ := lexeme
  dsimp only at h happend ⊢
  rcases h with rfl | ⟨near, stop, far, after, rfl, rfl, hstop, hafter⟩
  · rw [happend]
    exact ⟨hplain, hlexeme⟩
  · subst happend
    rw [← List.append_assoc] at hlexeme hplain
    have hnear : scan version first (tail ++ near) = ⟨kind, tail, near⟩ := by
      rw [scan_append_stop hstop hplain] at hlexeme
      generalize scan version first (tail ++ near) = found at hlexeme
      obtain ⟨kind', tail', rest'⟩ := found
      simp only [Lexeme.followedBy, Lexeme.mk.injEq] at hlexeme
      obtain ⟨rfl, rfl, hrest⟩ := hlexeme
      rw [List.append_cancel_right hrest]
    have hafterPlain := hplain.change hafter
    rw [← List.append_assoc]
    refine ⟨hafterPlain, ?_⟩
    cases after with
    | nil => rw [List.append_nil, List.append_nil, hnear]
    | cons next after =>
        have hnext : stops next = true := by simp [stops, hafter next rfl]
        rw [scan_append_stop hnext hafterPlain, hnear]
        rfl

/-! ## Comments that keep nothing apart -/

def parts (token : Token) : Bool := token.text.all fun char => !joins char

/-- Whether each run of comments has blank space, the end, or an operator that joins
nothing on at least one of its sides. -/
def commentsApart : List Token → Bool
  | [] => true
  | token :: tokens =>
      (token.kind.isComment || token.parts ||
        !(tokens.head?.any fun next => next.kind.isComment) ||
        (tokens.find? fun next => !next.kind.isComment).all parts) && commentsApart tokens

def withoutComments (tokens : List Token) : Text :=
  concat (tokens.filter fun token => !token.kind.isComment)

@[simp] theorem withoutComments_cons (token : Token) (tokens : List Token) :
    withoutComments (token :: tokens) =
      if token.kind.isComment then withoutComments tokens
      else token.text ++ withoutComments tokens := by
  by_cases hcomment : token.kind.isComment <;> simp [withoutComments, concat, hcomment]

theorem mem_of_mem_withoutComments {number : Nat} {source : Text} {char : Char}
    (h : char ∈ withoutComments (tokensFrom version number source)) : char ∈ source := by
  rw [withoutComments, concat, List.mem_flatMap] at h
  obtain ⟨token, htoken, hchar⟩ := h
  rw [← concat_tokensFrom version number source, concat, List.mem_flatMap]
  exact ⟨token, List.mem_of_mem_filter htoken, hchar⟩

private theorem joins_head_withoutComments {number : Nat} {source : Text}
    (h : ((tokensFrom version number source).find? fun next =>
      !next.kind.isComment).all parts = true) :
    ∀ char ∈ (withoutComments (tokensFrom version number source)).head?,
      joins char = false := by
  fun_induction tokensFrom version number source with
  | case1 => simp [withoutComments, concat, TokenKind.isComment]
  | case2 number first rest lexeme text ih =>
      rw [withoutComments_cons]
      by_cases hcomment : lexeme.kind.isComment = true
      · rw [List.find?_cons_of_neg (by simp [hcomment])] at h
        rw [if_pos hcomment]
        exact ih h
      · rw [List.find?_cons_of_pos (by simp [hcomment])] at h
        rw [if_neg hcomment]
        rintro char ⟨⟩
        simp only [Option.all_some, parts, List.all_cons, Bool.and_eq_true, text,
          Bool.not_eq_true'] at h
        exact h.1

/-- What follows a token agrees with the same text without its comments, unless a
comment follows the token directly and the token ends there in any case. -/
theorem agrees_withoutComments (number : Nat) (source : Text) : ∀ left : Token,
    left.kind.isComment = false →
    commentsApart (left :: tokensFrom version number source) = true →
    left.parts = true ∨
      Agrees source (withoutComments (tokensFrom version number source)) := by
  fun_induction tokensFrom version number source with
  | case1 => exact fun _ _ _ => .inr (.inl rfl)
  | case2 number first rest lexeme text ih =>
      intro left hleft h
      have happend := scan_append version first rest
      rw [commentsApart, Bool.and_eq_true] at h
      obtain ⟨hrun, hrest⟩ := h
      by_cases hcomment : lexeme.kind.isComment = true
      · simp only [List.head?_cons, Option.any_some, hleft, hcomment, Bool.false_or,
          Bool.not_true, Bool.or_false, Bool.or_eq_true] at hrun
        refine hrun.imp_right fun hnext => ?_
        rw [List.find?_cons_of_neg (by simp [hcomment])] at hnext
        rw [withoutComments_cons, if_pos hcomment]
        obtain rfl : first = '/' := eq_slash_of_isComment hcomment
        exact .inr ⟨[], '/', rest, _, rfl, rfl, by decide, joins_head_withoutComments hnext⟩
      · rw [withoutComments_cons, if_neg hcomment]
        have hsource : first :: rest = text ++ lexeme.rest := by
          rw [List.cons_append, happend]
        rw [hsource]
        right
        rcases ih _ (by simpa using hcomment) hrest with hparts | hagrees
        · exact agrees_of_not_joins (by simp [text]) (by simpa [parts] using hparts) _ _
        · exact hagrees.append_left text

private theorem scan_withoutComments {first : Char} {rest : Text} (hplain : OpensPlain first rest)
    (number next : Nat)
    (h : commentsApart
      (⟨(scan version first rest).kind, first :: (scan version first rest).tail, number⟩ ::
        tokensFrom version next (scan version first rest).rest) = true) :
    scan version first ((scan version first rest).tail ++
        withoutComments (tokensFrom version next (scan version first rest).rest)) =
      { scan version first rest with
        rest := withoutComments (tokensFrom version next (scan version first rest).rest) } := by
  have hcomment : (scan version first rest).kind.isComment = false :=
    (TokenKind.of_isPlain (isPlain_scan hplain)).2.2.2
  rcases agrees_withoutComments _ _ _ hcomment h with hparts | hagrees
  · have hfirst : joins first = false := by
      simp only [parts, List.all_cons, Bool.and_eq_true, Bool.not_eq_true'] at hparts
      exact hparts.1
    rw [scan_of_not_joins hfirst hplain.1 hplain.2.1 rest]
    exact scan_of_not_joins hfirst hplain.1 hplain.2.1 _
  · exact (scan_of_agrees hplain hagrees).2

/-! ## Reading the rest again -/

def solids (tokens : List Token) : List (TokenKind × Text) :=
  (tokens.filter fun token => token.kind != .whitespace && token.kind != .eof).map fun token =>
    (token.kind, token.text)

def significant (tokens : List Token) : List (TokenKind × Text) :=
  (tokens.filter isSignificant).map fun token => (token.kind, token.text)

theorem significant_eq_filter (tokens : List Token) :
    significant tokens = (solids tokens).filter fun solid => !solid.1.isComment := by
  simp only [significant, solids, List.filter_map, List.filter_filter]
  congr 1
  refine List.filter_congr fun token _ => ?_
  rw [isSignificant_eq, Bool.and_comm]
  rfl

theorem isComment_of_solids_eq {tokens others : List Token}
    (h : solids tokens = significant others) {token : Token} (hmem : token ∈ tokens) :
    token.kind.isComment = false := by
  by_contra hcomment
  rw [Bool.not_eq_false] at hcomment
  have hkind : token.kind ≠ .whitespace ∧ token.kind ≠ .eof := by
    constructor <;> (intro hother; rw [hother] at hcomment; cases hcomment)
  have hsolid : (token.kind, token.text) ∈ solids tokens :=
    List.mem_map_of_mem (List.mem_filter.mpr ⟨hmem, by simp [hkind]⟩)
  rw [h, significant_eq_filter, List.mem_filter] at hsolid
  simp [hcomment] at hsolid

theorem solids_cons (token : Token) (tokens : List Token) :
    solids (token :: tokens) =
      if token.kind = .whitespace ∨ token.kind = .eof then solids tokens
      else (token.kind, token.text) :: solids tokens := by
  by_cases hspace : token.kind = .whitespace
  · simp [solids, hspace]
  · by_cases hend : token.kind = .eof <;> simp [solids, hspace, hend]

@[simp] private theorem significant_cons (token : Token) (tokens : List Token) :
    significant (token :: tokens) =
      if token.isSignificant then (token.kind, token.text) :: significant tokens
      else significant tokens := by
  by_cases hsignificant : token.isSignificant <;> simp [significant, hsignificant]

theorem solids_tokensFrom (number other : Nat) (source : Text) :
    solids (tokensFrom version number source) = solids (tokensFrom version other source) := by
  fun_induction tokensFrom version number source generalizing other with
  | case1 => rw [tokensFrom]; rfl
  | case2 number first rest lexeme text ih =>
      obtain ⟨next, htokens⟩ : ∃ next, tokensFrom version other (first :: rest) = _ :=
        tokensFrom_cons other first rest
      rw [htokens, solids_cons, solids_cons, ih next]

private theorem solids_dropWhile (number other : Nat) (source : Text) :
    solids (tokensFrom version number source) =
      solids (tokensFrom version other (source.dropWhile isBlank)) := by
  cases source with
  | nil => exact solids_tokensFrom number other []
  | cons first rest =>
      by_cases hblank : isBlank first = true
      · obtain ⟨next, htokens⟩ : ∃ next, tokensFrom version number (first :: rest) = _ :=
          tokensFrom_cons number first rest
        rw [htokens, scan_blank hblank, List.dropWhile_cons_of_pos hblank]
        exact solids_tokensFrom next other (rest.dropWhile isBlank)
      · rw [List.dropWhile_cons_of_neg hblank]
        exact solids_tokensFrom number other (first :: rest)

theorem solids_blanks_append {blanks : Text} (hblanks : ∀ char ∈ blanks, isBlank char = true)
    (number other : Nat) (source : Text) :
    solids (tokensFrom version number (blanks ++ source)) =
      solids (tokensFrom version other source) := by
  rw [solids_dropWhile number other, List.dropWhile_append_of_pos hblanks,
    ← solids_dropWhile other other]

theorem solids_withoutComments (number other : Nat) {source : Text} (hmark : '#' ∉ source)
    (h : commentsApart (tokensFrom version number source) = true) :
    solids (tokensFrom version other (withoutComments (tokensFrom version number source))) =
      significant (tokensFrom version number source) := by
  fun_induction tokensFrom version number source generalizing other with
  | case1 number =>
      have hnothing : withoutComments [⟨.eof, [], number⟩] = [] := rfl
      rw [hnothing, tokensFrom.eq_1]
      rfl
  | case2 number first rest lexeme text ih =>
      have hrest : '#' ∉ lexeme.rest := by
        rw [List.mem_cons, ← scan_append version first rest, List.mem_append] at hmark
        tauto
      have hbehind := h
      rw [commentsApart, Bool.and_eq_true] at hbehind
      have ih := fun other => ih other hrest hbehind.2
      rw [withoutComments_cons, significant_cons]
      rcases scan_opening version first rest with hblank | ⟨-, hcomment⟩ | rfl | hplain
      · -- Blank space may meet more blank space behind a comment.
        have hlexeme : lexeme = .ofSplit .whitespace (splitWhile isBlank rest) :=
          scan_blank hblank rest
        have hkind : lexeme.kind = .whitespace := congrArg Lexeme.kind hlexeme
        have htext : ∀ char ∈ text, isBlank char = true := by
          have htail : lexeme.tail = rest.takeWhile isBlank := congrArg Lexeme.tail hlexeme
          simp only [text, htail, List.mem_cons]
          rintro char (rfl | hmem)
          · exact hblank
          · exact List.mem_takeWhile_imp hmem
        rw [if_neg (by simp [hkind, TokenKind.isComment]), if_neg (by simp [isSignificant, hkind]),
          solids_blanks_append htext other other]
        exact ih other
      · rw [if_pos hcomment, if_neg (by simp [isSignificant_eq, lexeme, hcomment])]
        exact ih other
      · simp at hmark
      · have hplainKind : lexeme.kind.isPlain = true := isPlain_scan hplain
        obtain ⟨hspace, hend, -, hcomment⟩ := TokenKind.of_isPlain hplainKind
        have hscan := scan_withoutComments hplain number (number + text.lineFeeds) h
        obtain ⟨next, htokens⟩ : ∃ next, tokensFrom version other (first :: (lexeme.tail ++
            withoutComments (tokensFrom version (number + text.lineFeeds) lexeme.rest))) = _ :=
          tokensFrom_cons other first _
        rw [hscan] at htokens
        rw [if_neg (by simp [hcomment]),
          if_pos (by simp [isSignificant_eq, hspace, hend, hcomment]), List.cons_append,
          htokens, solids_cons, if_neg (not_or.mpr ⟨hspace, hend⟩), ih next]

end GlslCompose.Token
