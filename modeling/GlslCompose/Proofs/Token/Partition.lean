import GlslCompose.Proofs.Token.Splice

/-!
# Tokens partition their source

Cutting a text into tokens loses nothing and makes nothing up.  The pieces stand
side by side in the order of the source, none of them is empty but the end mark,
and the line that a token carries is where its first character stands.  All of it
follows from one step: the lexeme that a character opens, with what it leaves, is
the text that was to be read.
-/

namespace GlslCompose

namespace Text

@[simp] theorem lineFeeds_append (first second : Text) :
    (first ++ second).lineFeeds = first.lineFeeds + second.lineFeeds :=
  List.count_append

end Text

namespace Token

@[simp] theorem concat_cons (token : Token) (tokens : List Token) :
    concat (token :: tokens) = token.text ++ concat tokens := List.flatMap_cons

@[simp] theorem concat_append (first second : List Token) :
    concat (first ++ second) = concat first ++ concat second := List.flatMap_append

theorem infix_concat {token : Token} {tokens : List Token} (h : token ∈ tokens) :
    token.text <:+: concat tokens := by
  obtain ⟨before, after, rfl⟩ := List.append_of_mem h
  rw [concat_append, concat_cons]
  exact ⟨concat before, concat after, by rw [List.append_assoc]⟩

/-- The tokens are the pieces of a text whose first character stands on line
`number`, and behind them is one end mark. -/
structure IsPartition (number : Nat) (source : Text) (tokens : List Token) : Prop where
  concat_eq : concat tokens = source
  pieces_then_end : ∃ pieces last, tokens = pieces ++ [{ kind := .eof, text := [], line := last }] ∧
    ∀ token ∈ pieces, token.kind ≠ .eof ∧ token.text ≠ []
  line_eq : ∀ before token after, tokens = before ++ token :: after →
    token.line = number + (concat before).lineFeeds

private theorem isPartition_nil (number : Nat) :
    IsPartition number [] [{ kind := .eof, text := [], line := number }] where
  concat_eq := rfl
  pieces_then_end := ⟨[], number, rfl, nofun⟩
  line_eq before token after hsplit := by
    cases before with
    | nil =>
        cases hsplit
        rfl
    | cons earlier before => simp at hsplit

theorem IsPartition.cons {number : Nat} {rest : Text} {tokens : List Token} (piece : Token)
    (hkind : piece.kind ≠ .eof) (hne : piece.text ≠ []) (hline : piece.line = number)
    (hrest : IsPartition (number + piece.text.lineFeeds) rest tokens) :
    IsPartition number (piece.text ++ rest) (piece :: tokens) where
  concat_eq := congrArg (piece.text ++ ·) hrest.concat_eq
  pieces_then_end := by
    obtain ⟨pieces, last, rfl, hpieces⟩ := hrest.pieces_then_end
    exact ⟨piece :: pieces, last, rfl, List.forall_mem_cons.mpr ⟨⟨hkind, hne⟩, hpieces⟩⟩
  line_eq before token after hsplit := by
    cases before with
    | nil =>
        cases hsplit
        simpa [concat, Text.lineFeeds] using hline
    | cons earlier before =>
        obtain ⟨rfl, htokens⟩ := List.cons.inj hsplit
        rw [hrest.line_eq before token after htokens, concat_cons, Text.lineFeeds_append,
          Nat.add_assoc]

theorem kind_scan_ne_eof (version : GlslVersion) (first : Char) (rest : Text) :
    (scan version first rest).kind ≠ .eof := by
  cases hblank : isBlank first with
  | true =>
      rw [scan_blank hblank]
      nofun
  | false => exact (kind_scan_ne hblank rest).2

theorem tokensFrom_isPartition (version : GlslVersion) (number : Nat) (source : Text) :
    IsPartition number source (tokensFrom version number source) := by
  fun_induction tokensFrom version number source with
  | case1 number => exact isPartition_nil number
  | case2 number first rest lexeme text ih =>
      have hsource : text ++ lexeme.rest = first :: rest :=
        congrArg (first :: ·) (scan_append version first rest)
      rw [← hsource]
      exact ih.cons { kind := lexeme.kind, text, line := number }
        (kind_scan_ne_eof version first rest) (List.cons_ne_nil _ _) rfl

/-- Every text has its tokens in either language version, and they are a partition
of it. -/
theorem tokenize_isPartition (version : GlslVersion) (source : Text) :
    IsPartition 1 source (tokenize version source) :=
  tokensFrom_isPartition version 1 source

end Token

end GlslCompose
