import GlslCompose.Proofs.Text.Rows
import GlslCompose.Token.Lexer

/-!
# Logical lines

A backslash before the end of a row joins a directive to the next row.  Read as glyphs, such
an ending is one glyph, the joint, and the line feeds that are left end the logical lines of
a source.  A logical line is either one row or, if it has joints, several.
-/

namespace GlslCompose.Token

/-! ## Glyphs -/

/-- A character, or a row ending that a backslash takes back. -/
inductive Glyph where
  | plain (char : Char)
  | joint (ending : Text)
deriving DecidableEq, Repr

namespace Glyph

def raw : Glyph → Text
  | .plain char => [char]
  | .joint ending => ending

def joined : Glyph → Text
  | .plain char => [char]
  | .joint _ => []

def isJoint : Glyph → Bool
  | .plain _ => false
  | .joint _ => true

end Glyph

def directiveGlyphs : Text → List Glyph
  | '\\' :: '\n' :: rest => .joint ['\\', '\n'] :: directiveGlyphs rest
  | '\\' :: '\r' :: '\n' :: rest => .joint ['\\', '\r', '\n'] :: directiveGlyphs rest
  | char :: rest => .plain char :: directiveGlyphs rest
  | [] => []

def glyphs (token : Token) : List Glyph :=
  if token.kind = .preprocessor then directiveGlyphs token.text else token.text.map .plain

def glyphsOf (version : GlslVersion) (source : Text) : List Glyph :=
  (tokenize version source).flatMap glyphs

def joinDirectives (version : GlslVersion) (source : Text) : Text :=
  (glyphsOf version source).flatMap Glyph.joined

@[simp] private theorem flatMap_raw_directiveGlyphs (text : Text) :
    (directiveGlyphs text).flatMap Glyph.raw = text := by
  fun_induction directiveGlyphs text with
  | case1 rest ih => simp [Glyph.raw, ih]
  | case2 rest ih => simp [Glyph.raw, ih]
  | case3 char rest _ _ ih => simp [Glyph.raw, ih]
  | case4 => rfl

@[simp] private theorem flatMap_raw_glyphs (token : Token) :
    token.glyphs.flatMap Glyph.raw = token.text := by
  unfold glyphs
  split
  · exact flatMap_raw_directiveGlyphs token.text
  · induction token.text with
    | nil => rfl
    | cons char rest ih => simp [Glyph.raw, ih]

@[simp] theorem flatMap_raw_glyphsOf (version : GlslVersion) (source : Text) :
    (glyphsOf version source).flatMap Glyph.raw = source := by
  have htokens : ∀ tokens : List Token,
      (tokens.flatMap glyphs).flatMap Glyph.raw = concat tokens := by
    intro tokens
    rw [List.flatMap_assoc]
    simp only [flatMap_raw_glyphs]
    rfl
  rw [glyphsOf, htokens, concat_tokenize]

/-! ## Logical lines -/

def logicalLines : List Glyph → List (List Glyph)
  | [] => []
  | glyph :: rest =>
      if glyph = .plain '\n' then [glyph] :: logicalLines rest
      else
        match logicalLines rest with
        | [] => [[glyph]]
        | line :: lines => (glyph :: line) :: lines

def rowsAs (view : Glyph → Text) (line : List Glyph) : List Text := Text.lines (line.flatMap view)

private theorem eq_nil_of_logicalLines {glyphs : List Glyph} (h : logicalLines glyphs = []) :
    glyphs = [] := by
  cases glyphs with
  | nil => rfl
  | cons glyph rest =>
      rw [logicalLines] at h
      split at h
      · cases h
      · split at h <;> cases h

private theorem exists_of_logicalLines {glyphs line : List Glyph} {more : List (List Glyph)}
    (h : logicalLines glyphs = line :: more) :
    ∃ rest, glyphs = line ++ rest ∧ logicalLines rest = more ∧
      (rest = [] ∨ ∃ init, line = init ++ [Glyph.plain '\n']) := by
  induction glyphs generalizing line with
  | nil => cases h
  | cons glyph glyphs ih =>
      rw [logicalLines] at h
      split at h
      · rename_i hfeed
        cases h
        exact ⟨glyphs, rfl, rfl, .inr ⟨[], by rw [hfeed]; rfl⟩⟩
      · split at h
        · rename_i hnone
          cases h
          obtain rfl := eq_nil_of_logicalLines hnone
          exact ⟨[], rfl, rfl, .inl rfl⟩
        · rename_i first others hsome
          cases h
          obtain ⟨rest, rfl, hrest, hend⟩ := ih hsome
          refine ⟨rest, rfl, hrest, hend.imp_right ?_⟩
          rintro ⟨init, rfl⟩
          exact ⟨glyph :: init, rfl⟩

theorem lines_flatMap {view : Glyph → Text} (hview : view (.plain '\n') = ['\n'])
    (glyphs : List Glyph) :
    Text.lines (glyphs.flatMap view) = (logicalLines glyphs).flatMap (rowsAs view) := by
  induction hlines : logicalLines glyphs generalizing glyphs with
  | nil =>
      obtain rfl := eq_nil_of_logicalLines hlines
      rfl
  | cons line more ih =>
      obtain ⟨rest, rfl, hrest, hend⟩ := exists_of_logicalLines hlines
      rw [List.flatMap_cons, ← ih rest hrest, List.flatMap_append]
      rcases hend with rfl | ⟨init, rfl⟩
      · rw [List.flatMap_nil, List.append_nil]
        exact (List.append_nil _).symm
      · have hline : Text.EndsLine ((init ++ [Glyph.plain '\n']).flatMap view) := by
          rw [List.flatMap_append, List.flatMap_singleton, hview]
          exact Text.endsLine_append_newline _
        exact Text.lines_append hline _

private theorem exists_of_mem_logicalLines {glyphs line : List Glyph}
    (h : line ∈ logicalLines glyphs) :
    ∃ body, Glyph.plain '\n' ∉ body ∧ (line = body ∧ body ≠ [] ∨ line = body ++ [.plain '\n']) := by
  induction glyphs generalizing line with
  | nil => cases h
  | cons glyph glyphs ih =>
      rw [logicalLines] at h
      split at h
      · rename_i hfeed
        rcases List.mem_cons.mp h with rfl | h
        · exact ⟨[], List.not_mem_nil, .inr (by rw [hfeed]; rfl)⟩
        · exact ih h
      · rename_i hfeed
        split at h
        · rw [List.mem_singleton] at h
          subst h
          exact ⟨[glyph], by simpa using Ne.symm hfeed, .inl ⟨rfl, List.cons_ne_nil _ _⟩⟩
        · rename_i first others hsome
          rcases List.mem_cons.mp h with rfl | h
          · obtain ⟨body, hbody, hline⟩ := ih (hsome ▸ List.mem_cons_self)
            refine ⟨glyph :: body, ?_, ?_⟩
            · rw [List.mem_cons, not_or]
              exact ⟨Ne.symm hfeed, hbody⟩
            · rcases hline with ⟨rfl, -⟩ | rfl
              · exact .inl ⟨rfl, List.cons_ne_nil _ _⟩
              · exact .inr rfl
          · exact ih (hsome ▸ List.mem_cons_of_mem first h)

theorem exists_row_of_no_joint {glyphs line : List Glyph} (h : line ∈ logicalLines glyphs)
    (hjoint : line.any Glyph.isJoint = false) :
    ∃ row, rowsAs Glyph.raw line = [row] ∧ rowsAs Glyph.joined line = [row] := by
  have hviews : line.flatMap Glyph.joined = line.flatMap Glyph.raw := by
    refine List.flatMap_congr fun glyph hmem => ?_
    have hglyph := List.any_eq_false.mp hjoint glyph hmem
    cases glyph with
    | plain => rfl
    | joint => exact absurd (Eq.refl true) hglyph
  have hrows : ∃ row, rowsAs Glyph.raw line = [row] := by
    obtain ⟨body, hbody, hline⟩ := exists_of_mem_logicalLines h
    have hfeed : '\n' ∉ body.flatMap Glyph.raw := by
      intro hmem
      obtain ⟨glyph, hglyph, hchar⟩ := List.mem_flatMap.mp hmem
      cases glyph with
      | plain char =>
          rw [Glyph.raw, List.mem_singleton] at hchar
          exact hbody (hchar ▸ hglyph)
      | joint ending =>
          have hmem : .joint ending ∈ line := by
            rcases hline with ⟨rfl, -⟩ | rfl
            · exact hglyph
            · exact List.mem_append_left _ hglyph
          exact absurd (Eq.refl true) (List.any_eq_false.mp hjoint _ hmem)
    rcases hline with ⟨rfl, hne⟩ | rfl
    · have htext : line.flatMap Glyph.raw ≠ [] := by
        obtain ⟨glyph, rest, rfl⟩ := List.exists_cons_of_ne_nil hne
        cases glyph with
        | plain => exact List.append_ne_nil_of_left_ne_nil (List.cons_ne_nil _ []) _
        | joint ending =>
            exact absurd (Eq.refl true) (List.any_eq_false.mp hjoint _ List.mem_cons_self)
      exact ⟨_, by rw [rowsAs, Text.lines, Text.linesWithEnds_of_not_mem hfeed htext]; rfl⟩
    · refine ⟨Text.dropLineEnd (body.flatMap Glyph.raw ++ ['\n']), ?_⟩
      have hlines := Text.linesWithEnds_row hfeed []
      rw [rowsAs, List.flatMap_append, List.flatMap_singleton, Glyph.raw, Text.lines, hlines]
      rfl
  obtain ⟨row, hrow⟩ := hrows
  exact ⟨row, hrow, by rw [rowsAs, hviews]; exact hrow⟩

end GlslCompose.Token
