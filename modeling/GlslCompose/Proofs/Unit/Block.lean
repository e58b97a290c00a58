import GlslCompose.Proofs.Define.Placement
import GlslCompose.Proofs.Define.Row
import GlslCompose.Proofs.Token.LineStart
import GlslCompose.Proofs.Unit.Derivation

/-!
# The block of defines in an expanded unit

The block goes through the expansion of includes in one piece.  If it stands behind
a `#version` or `#extension` line, the last line in front of it is that line again,
or the end of an included module.
-/

namespace GlslCompose

theorem DefineSet.block_eq (set : DefineSet) :
    set.block = Text.ofRows (Directive.defineRows set.toList) := by
  simp [block, Text.ofRows, Directive.defineRows, List.flatMap_map]

namespace Composer

variable {composer : Composer} {placement : Placement} {directory : Text}

/-! ## Parts of an expansion -/

theorem Expands.exists_append {first second : List Token} {text : Text}
    (h : composer.Expands placement directory (first ++ second) text) :
    ∃ left right, text = left ++ right ∧ composer.Expands placement directory first left ∧
      composer.Expands placement directory second right := by
  induction first generalizing text with
  | nil => exact ⟨[], text, rfl, .nil directory, h⟩
  | cons token first ih =>
      cases h with
      | drop hrequest hrest =>
          obtain ⟨left, right, rfl, hleft, hright⟩ := ih hrest
          exact ⟨left, right, rfl, .drop hrequest hleft, hright⟩
      | keep hrequest hrest =>
          obtain ⟨left, right, rfl, hleft, hright⟩ := ih hrest
          exact ⟨_ ++ left, right, by simp, .keep hrequest hleft, hright⟩
      | fetch hrequest hmodule hsource hplace hinner hrest =>
          obtain ⟨left, right, rfl, hleft, hright⟩ := ih hrest
          exact ⟨_ ++ left, right, by simp,
            .fetch hrequest hmodule hsource hplace hinner hleft, hright⟩

theorem Expands.append {first second : List Token} {left right : Text}
    (hfirst : composer.Expands placement directory first left)
    (hsecond : composer.Expands placement directory second right) :
    composer.Expands placement directory (first ++ second) (left ++ right) := by
  induction hfirst with
  | nil => exact hsecond
  | drop hrequest _ ih => exact .drop hrequest (ih hsecond)
  | keep hrequest _ ih =>
      rw [List.append_assoc]
      exact .keep hrequest (ih hsecond)
  | fetch hrequest hmodule hsource hplace hinner _ _ ih =>
      rw [List.append_assoc]
      exact .fetch hrequest hmodule hsource hplace hinner (ih hsecond)

theorem Expands.of_nothing {token : Token} {tokens : List Token} {text : Text}
    (hrequest : Include.request token = .nothing)
    (h : composer.Expands placement directory (token :: tokens) text) :
    composer.Expands placement directory tokens text := by
  cases h with
  | drop _ hrest => exact hrest
  | keep hother _ => simp [hrequest] at hother
  | fetch hother _ _ _ _ _ => simp [hrequest] at hother

theorem Expands.of_keep {token : Token} {tokens : List Token} {kept text : Text}
    (hrequest : Include.request token = .keep kept)
    (h : composer.Expands placement directory (token :: tokens) text) :
    ∃ more, text = kept ++ more ∧ composer.Expands placement directory tokens more := by
  cases h with
  | drop hother _ => simp [hrequest] at hother
  | keep hother hrest =>
      cases hrequest.symm.trans hother
      exact ⟨_, rfl, hrest⟩
  | fetch hother _ _ _ _ _ => simp [hrequest] at hother

theorem Expands.of_fetch {token : Token} {tokens : List Token} {argument text : Text}
    (hrequest : Include.request token = .fetch argument)
    (h : composer.Expands placement directory (token :: tokens) text) :
    (∃ found, Include.path directory argument = .ok found) ∧
    ∃ body more, text = body ++ ['\n'] ++ more ∧
      composer.Expands placement directory tokens more := by
  cases h with
  | drop hother _ => simp [hrequest] at hother
  | keep hother _ => simp [hrequest] at hother
  | fetch hother hmodule _ _ _ hrest =>
      cases hrequest.symm.trans hother
      refine ⟨?_, _, _, rfl, hrest⟩
      unfold included? at hmodule
      split at hmodule
      · cases hmodule
      · rename_i found hfound
        exact ⟨found, hfound⟩

/-! ## Rows -/

private theorem request_row {token : Token} {key value : Text} (h : Directive.IsPlain key value)
    (hkind : token.kind = .preprocessor) (htext : token.text = '#' :: Directive.rowTail key value) :
    Include.request token = .keep (Directive.defineLine key value) := by
  rw [Include.request, hkind, htext, ← Directive.defineLine_eq_cons]
  exact h.isSingle.requestOfDirective_eq

theorem Expands.exists_newline {number : Nat} {rest text : Text}
    (h : composer.Expands placement directory
      (Token.tokensFrom composer.version number ('\n' :: rest)) text) :
    ∃ more, text = '\n' :: more := by
  obtain ⟨blanks, tokens, htokens⟩ := Token.tokensFrom_newline composer.version number rest
  rw [htokens] at h
  obtain ⟨more, rfl, _⟩ := h.of_keep rfl
  exact ⟨blanks ++ more, rfl⟩

theorem Expands.exists_rows {defines : List (Text × Text)}
    (hdefines : ∀ entry ∈ defines, Directive.IsPlain entry.1 entry.2) {number : Nat}
    {tail text : Text}
    (h : composer.Expands placement directory (Token.tokensFrom composer.version number
      ('\n' :: (Text.ofRows (Directive.defineRows defines) ++ tail))) text) :
    ∃ more, text = '\n' :: (Text.ofRows (Directive.defineRows defines) ++ more) := by
  induction defines generalizing number text with
  | nil => exact h.exists_newline
  | cons entry defines ih =>
      have hentry := hdefines entry List.mem_cons_self
      rw [Directive.ofRows_defineRows_cons, Directive.defineLine_eq_cons] at h
      obtain ⟨next, hnewline⟩ := Token.tokensFrom_newline_mark composer.version number
        (Directive.rowTail entry.1 entry.2 ++
          '\n' :: (Text.ofRows (Directive.defineRows defines) ++ tail))
      obtain ⟨next', hrow⟩ := Token.tokensFrom_row composer.version next hentry.plain_rowTail
        (Text.ofRows (Directive.defineRows defines) ++ tail)
      rw [List.cons_append] at h hrow
      rw [hnewline, hrow] at h
      obtain ⟨_, rfl, hbehind⟩ := h.of_keep rfl
      obtain ⟨_, rfl, hrest⟩ := hbehind.of_keep (request_row hentry rfl rfl)
      obtain ⟨more, rfl⟩ := ih (fun other hother =>
        hdefines other (List.mem_cons_of_mem entry hother)) hrest
      refine ⟨more, ?_⟩
      rw [Directive.ofRows_defineRows_cons]
      rfl

theorem Expands.exists_rows_of_token {entry : Text × Text} {defines : List (Text × Text)}
    (hdefines : ∀ other ∈ entry :: defines, Directive.IsPlain other.1 other.2) {token : Token}
    (hkind : token.kind = .preprocessor)
    (htext : token.text = '#' :: Directive.rowTail entry.1 entry.2) {number : Nat}
    {tail text : Text}
    (h : composer.Expands placement directory (token :: Token.tokensFrom composer.version number
      ('\n' :: (Text.ofRows (Directive.defineRows defines) ++ tail))) text) :
    ∃ more, text = Text.ofRows (Directive.defineRows (entry :: defines)) ++ more := by
  obtain ⟨_, rfl, hrest⟩ :=
    h.of_keep (request_row (hdefines entry List.mem_cons_self) hkind htext)
  obtain ⟨more, rfl⟩ := hrest.exists_rows fun other hother =>
    hdefines other (List.mem_cons_of_mem entry hother)
  exact ⟨more, (Directive.ofRows_defineRows_cons entry defines more).symm⟩

theorem Expands.exists_rows_of_top {entry : Text × Text} {defines : List (Text × Text)}
    (hdefines : ∀ other ∈ entry :: defines, Directive.IsPlain other.1 other.2) {number : Nat}
    {tail text : Text}
    (h : composer.Expands placement directory (Token.tokensFrom composer.version number
      (Text.ofRows (Directive.defineRows (entry :: defines)) ++ tail)) text) :
    ∃ more, text = Text.ofRows (Directive.defineRows (entry :: defines)) ++ more := by
  have hentry := hdefines entry List.mem_cons_self
  obtain ⟨next, hrow⟩ := Token.tokensFrom_row composer.version number hentry.plain_rowTail
    (Text.ofRows (Directive.defineRows defines) ++ tail)
  rw [Directive.ofRows_defineRows_cons, Directive.defineLine_eq_cons, hrow] at h
  exact h.exists_rows_of_token hdefines rfl rfl

/-! ## Line ends in front of the block -/

/-- The text ends a line, also without the tooling marker that it may end with. -/
structure EndsCleanly (text : Text) : Prop where
  line : text.EndsLine
  marker : ∀ before, text = before ++ toolingMarker → before.EndsLine

theorem toolingMarker_eq_cons :
    toolingMarker = '#' :: "define GLSLIFY 1\n".toList := by
  unfold toolingMarker
  simp

theorem toolingMarker_eq_concat :
    toolingMarker = "#define GLSLIFY ".toList ++ ['1'] ++ ['\n'] := by
  unfold toolingMarker
  simp

theorem endsCleanly_nil : EndsCleanly [] := by
  refine ⟨Text.endsLine_nil, fun before heq => ?_⟩
  rw [toolingMarker_eq_cons] at heq
  simp at heq

theorem endsCleanly_append {char : Char} (hchar : char ≠ '1') (before : Text) :
    EndsCleanly (before ++ [char] ++ ['\n']) := by
  refine ⟨Text.endsLine_append_newline _, fun other heq => ?_⟩
  rw [toolingMarker_eq_concat, ← List.append_assoc, ← List.append_assoc] at heq
  have hinit := (List.append_inj' heq rfl).1
  have hlast := (List.append_inj' hinit rfl).2
  exact absurd (List.singleton_inj.mp hlast) hchar

end Composer

end GlslCompose
