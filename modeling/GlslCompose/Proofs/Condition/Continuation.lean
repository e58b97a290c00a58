import GlslCompose.Proofs.Condition.Grammar
import GlslCompose.Proofs.Condition.Likeness
import GlslCompose.Proofs.Token.Joints

/-!
# Continued lines in a pass

A pass reads rows, and a logical line may have several.  The rows are read like the line
joined into one if the first of them is, up to what the values of macros and the conditions
are read as, and if the others are text.
-/

namespace GlslCompose

namespace PassState

variable {version : GlslVersion} {state : PassState} {text : Text} {line : Nat}

/-! ## Logical lines -/

def keptOf (before behind : Bool) : List Text → List Text
  | [] => []
  | first :: others =>
      ([first].filter fun row => before && keeps row) ++
        others.filter fun row => behind && keeps row

def keptRows (live : Nat → Bool) : List (List Text) → List Text
  | [] => []
  | rows :: more => keptOf (live 0) (live 1) rows ++ keptRows (fun index => live (index + 1)) more

private theorem runLines_text_append {others : List Text}
    (hothers : ∀ row ∈ others, SourceLine.ofText row = .text) (line : Nat) (more : List Text)
    (state : PassState) :
    state.runLines version line (others ++ more) =
      runLines version (line + others.length) more
        { state with
          kept := (others.filter fun row => state.isLive && keeps row).reverse ++ state.kept } := by
  induction others generalizing line state with
  | nil => rfl
  | cons row others ih =>
      obtain ⟨hrow, hrest⟩ := List.forall_mem_cons.mp hothers
      have hkeeps : keeps row = decide ¬row.IsBlankLine := by
        rw [keeps, hrow]
      have hstep : state.step version line row =
          .ok (if state.isLive ∧ ¬row.IsBlankLine then state.keep row else state) := by
        rw [step, hrow]
      rw [List.cons_append, runLines, hstep]
      dsimp only
      rw [ih hrest, List.length_cons, Nat.add_assoc, Nat.add_comm 1, List.filter_cons, hkeeps]
      by_cases hkeep : state.isLive = true ∧ ¬row.IsBlankLine
      · rw [if_pos hkeep, if_pos (by simp [hkeep]), List.reverse_cons, List.append_assoc]
        rfl
      · rw [if_neg hkeep, if_neg (by simpa using hkeep)]

private theorem reverse_kept_of_step {next : PassState}
    (h : state.step version line text = .ok next) :
    next.kept.reverse =
      state.kept.reverse ++ [text].filter fun row => state.isLive && keeps row := by
  rw [kept_of_step h, List.filter_cons, List.filter_nil]
  by_cases hkeep : state.isLive = true ∧ keeps text = true
  · rw [if_pos hkeep, if_pos (by simpa using hkeep), List.reverse_cons]
  · rw [if_neg hkeep, if_neg (by simpa using hkeep), List.append_nil]

end PassState

open PassState Token

/-- The first row of a logical line is read like the joined line, and its other rows are text. -/
inductive ReadsByFirstRow (version : GlslVersion) (line : List Glyph) : Prop where
  | intro (first row : Text) (others : List Text) (hraw : rowsAs Glyph.raw line = first :: others)
      (hjoined : rowsAs Glyph.joined line = [row])
      (hfirst : (SourceLine.ofText first).Alike version (SourceLine.ofText row))
      (hothers : ∀ other ∈ others, SourceLine.ofText other = .text)

def continuedLines (version : GlslVersion) (source : Text) : List (List Glyph) :=
  (logicalLines (glyphsOf version source)).filter fun line => line.any Glyph.isJoint

private theorem readsByFirstRow_of_mem {version : GlslVersion} {source : Text}
    (h : ∀ line ∈ continuedLines version source, ReadsByFirstRow version line)
    {line : List Glyph} (hline : line ∈ logicalLines (glyphsOf version source)) :
    ReadsByFirstRow version line := by
  cases hjoint : line.any Glyph.isJoint with
  | false =>
      obtain ⟨row, hraw, hjoined⟩ := exists_row_of_no_joint hline hjoint
      exact .intro row row [] hraw hjoined (.same _) nofun
  | true => exact h line (List.mem_filter.mpr ⟨hline, hjoint⟩)

namespace PassState

variable {version : GlslVersion} {state other : PassState}

structure KeptAlike (state other : PassState) (lines : List (List Glyph)) (live : Nat → Bool)
    (out joined : Text) : Prop where
  out_eq : out = Text.unlines (state.kept.reverse ++ keptRows live (lines.map (rowsAs Glyph.raw)))
  joined_eq : joined =
    Text.unlines (other.kept.reverse ++ keptRows live (lines.map (rowsAs Glyph.joined)))

theorem Alike.finish (h : state.Alike version other) :
    Option.Rel (fun out joined => ∃ live : Nat → Bool, live 0 = state.isLive ∧
        KeptAlike state other [] live out joined)
      state.finish.toOption other.finish.toOption := by
  unfold PassState.finish
  rcases h.branches_cases with ⟨hstate, hother⟩ | ⟨branch, place, rest, others, hstate, hother, -⟩
  · rw [hstate, hother]
    exact .some ⟨fun _ => state.isLive, rfl, by simp [keptRows], by simp [keptRows]⟩
  · rw [hstate, hother]
    exact .none

theorem KeptAlike.cons {logical : List Glyph} {first row : Text} {others : List Text}
    {next after : PassState} {line number : Nat} {lines : List (List Glyph)} {live : Nat → Bool}
    {out joined : Text} (hraw : rowsAs Glyph.raw logical = first :: others)
    (hjoined : rowsAs Glyph.joined logical = [row]) (hstate : state.isLive = other.isLive)
    (hnext : state.step version line first = .ok next)
    (hafter : other.step version number row = .ok after) (hlive : live 0 = next.isLive)
    (h : KeptAlike
      { next with
        kept := (others.filter fun row => next.isLive && keeps row).reverse ++ next.kept }
      after lines live out joined) :
    KeptAlike state other (logical :: lines)
      (fun index => if index = 0 then state.isLive else live (index - 1)) out joined := by
  refine ⟨?_, ?_⟩
  · rw [h.out_eq, List.reverse_append, List.reverse_reverse, reverse_kept_of_step hnext]
    simp [keptRows, keptOf, hraw, hlive]
  · rw [h.joined_eq, reverse_kept_of_step hafter]
    simp [keptRows, keptOf, hjoined, hstate]

private theorem runLines_alike {lines : List (List Glyph)}
    (hlines : ∀ line ∈ lines, ReadsByFirstRow version line) (h : state.Alike version other)
    (line number : Nat) :
    SymbolTable.Alike version (state.runLines version line (lines.flatMap (rowsAs Glyph.raw))).2
        (other.runLines version number (lines.flatMap (rowsAs Glyph.joined))).2 ∧
      Option.Rel (fun out joined => ∃ live : Nat → Bool, live 0 = state.isLive ∧
          KeptAlike state other lines live out joined)
        (state.runLines version line (lines.flatMap (rowsAs Glyph.raw))).1.toOption
        (other.runLines version number (lines.flatMap (rowsAs Glyph.joined))).1.toOption := by
  induction lines generalizing state other line number with
  | nil => exact ⟨h.symbols, h.finish⟩
  | cons logical lines ih =>
      obtain ⟨first, row, others, hraw, hjoined, hfirst, hothers⟩ :=
        hlines logical List.mem_cons_self
      have hrest : ∀ line ∈ lines, ReadsByFirstRow version line := fun line hline =>
        hlines line (List.mem_cons_of_mem logical hline)
      rw [List.flatMap_cons, List.flatMap_cons, hraw, hjoined, List.cons_append,
        List.singleton_append, runLines, runLines]
      rcases (h.stepsAlike hfirst line number).error_or_ok with ⟨error, fault, hnext, hafter, -⟩ |
        ⟨next, after, hnext, hafter, halike⟩
      · rw [hnext, hafter]
        exact ⟨h.symbols, .none⟩
      · rw [hnext, hafter]
        dsimp only
        rw [runLines_text_append hothers]
        obtain ⟨hsymbols, hresult⟩ := ih hrest (halike.withKept _ after.kept)
          (line + 1 + others.length) (number + 1)
        refine ⟨hsymbols, rel_mono hresult ?_⟩
        rintro out joined ⟨live, hlive, hkept⟩
        exact ⟨_, rfl, hkept.cons hraw hjoined h.isLive_eq hnext hafter hlive⟩

end PassState

namespace ConditionalPass

/-- The rows that are kept of a source, and those that are kept of it with its directives
joined: in both the same logical lines are live. -/
def KeepsAlike (version : GlslVersion) (source out joined : Text) : Prop :=
  ∃ live : Nat → Bool,
    out = Text.unlines (keptRows live
      ((logicalLines (glyphsOf version source)).map (rowsAs Glyph.raw))) ∧
    joined = Text.unlines (keptRows live
      ((logicalLines (glyphsOf version source)).map (rowsAs Glyph.joined)))

/-- A pass treats a source like the source with its directives joined if the first row of each
continued line is read like the whole line and the other rows are read as text. -/
theorem run_joinDirectives_of_readsByFirstRow {pass : ConditionalPass} {source : Text}
    (h : ∀ line ∈ continuedLines pass.version source, ReadsByFirstRow pass.version line) :
    Option.Rel (KeepsAlike pass.version source) (pass.run source).1.toOption
        (pass.run (joinDirectives pass.version source)).1.toOption ∧
      (∀ name, (pass.run source).2.isDefined name =
        (pass.run (joinDirectives pass.version source)).2.isDefined name) ∧
      ∀ expression, ((pass.run source).2.symbols.evaluate pass.version expression).toOption =
        ((pass.run (joinDirectives pass.version source)).2.symbols.evaluate pass.version
          expression).toOption := by
  have hrows : Text.lines source =
      (logicalLines (glyphsOf pass.version source)).flatMap (rowsAs Glyph.raw) := by
    rw [← lines_flatMap rfl, flatMap_raw_glyphsOf]
  have hjoined : Text.lines (joinDirectives pass.version source) =
      (logicalLines (glyphsOf pass.version source)).flatMap (rowsAs Glyph.joined) :=
    lines_flatMap rfl _
  have hstart : Alike pass.version (.start pass.symbols) (.start pass.symbols) :=
    ⟨.refl pass.version pass.symbols, rfl⟩
  obtain ⟨hsymbols, hresult⟩ := runLines_alike (fun _ hline => readsByFirstRow_of_mem h hline)
    hstart 1 1
  rw [← hrows, ← hjoined] at hsymbols hresult
  refine ⟨rel_mono hresult ?_, fun name => congrFun hsymbols.contains_eq name,
    fun expression => hsymbols.toOption_evaluate rfl⟩
  rintro out joined ⟨live, -, hkept⟩
  exact ⟨live, hkept.out_eq, hkept.joined_eq⟩

/-! ## Sources with continued lines -/

private theorem readExpression?_of_operator {version : GlslVersion} {expression : Text}
    {token : Token} (hhead : (SymbolTable.expressionTokens version expression).head? = some token)
    (hkind : token.kind = .operator) (hopening : token.text ≠ ['('])
    (hsymbol : UnaryOp.ofSymbol? token.text = none) :
    readExpression? version expression = none := by
  obtain ⟨rest, htokens⟩ := List.head?_eq_some_iff.mp hhead
  rw [readExpression?, htokens, Expr.parse, chain, operand]
  simp only [hkind, if_neg hopening, hsymbol]
  rfl

def continuedSource : Text :=
  "#define SWAP \x7b \\\n  t = a; a = b; b = t; \x7d\n#ifdef GL_ES // on \\\n  devices\nx\n#endif".toList

def continuedPair : List (List Glyph) :=
  [("#define SWAP \x7b ".toList.map .plain ++ .joint ['\\', '\n'] ::
      "  t = a; a = b; b = t; \x7d\n".toList.map .plain),
    ("#ifdef GL_ES // on ".toList.map .plain ++ .joint ['\\', '\n'] ::
      "  devices\n".toList.map .plain)]

private theorem readsByFirstRow_continuedPair :
    ∀ line ∈ continuedPair, ReadsByFirstRow .es100 line := by
  refine List.forall_mem_cons.mpr ⟨?_, List.forall_mem_singleton.mpr ?_⟩
  · have hfirst : SourceLine.ofText "#define SWAP \x7b \\".toList =
        .define (some ("SWAP".toList, "\x7b \\".toList)) := by decide +kernel
    have hrow : SourceLine.ofText "#define SWAP \x7b   t = a; a = b; b = t; \x7d".toList =
        .define (some ("SWAP".toList, "\x7b   t = a; a = b; b = t; \x7d".toList)) := by
      decide +kernel
    have hread : ∀ value ∈ ["\x7b \\".toList, "\x7b   t = a; a = b; b = t; \x7d".toList],
        readExpression? .es100 value = none := by
      have hheads : ∀ value ∈ ["\x7b \\".toList, "\x7b   t = a; a = b; b = t; \x7d".toList],
          (SymbolTable.expressionTokens .es100 value).head? =
            some ⟨.operator, ['\x7b'], 1⟩ := by decide +kernel
      exact fun value hvalue =>
        readExpression?_of_operator (hheads value hvalue) rfl (by decide) (by decide)
    refine .intro "#define SWAP \x7b \\".toList
      "#define SWAP \x7b   t = a; a = b; b = t; \x7d".toList
      ["  t = a; a = b; b = t; \x7d".toList] (by decide +kernel) (by decide +kernel) ?_
      (List.forall_mem_singleton.mpr (by decide +kernel))
    rw [hfirst, hrow]
    exact .define _ ((hread _ (by simp)).trans (hread _ (by simp)).symm)
  · have hrow : SourceLine.ofText "#ifdef GL_ES // on \\".toList =
        SourceLine.ofText "#ifdef GL_ES // on   devices".toList := by decide +kernel
    refine .intro "#ifdef GL_ES // on \\".toList "#ifdef GL_ES // on   devices".toList
      ["  devices".toList] (by decide +kernel) (by decide +kernel) ?_
      (List.forall_mem_singleton.mpr (by decide +kernel))
    rw [hrow]
    exact .same _

set_option maxRecDepth 10000 in
/-- The second row of the condition is kept, for it is live behind the first. -/
theorem run_joinDirectives_continuedSource :
    (∀ line ∈ continuedLines .es100 continuedSource, ReadsByFirstRow .es100 line) ∧
    ((ofVersion .es100).run continuedSource).1 =
      .ok "#define SWAP \x7b \\\n  t = a; a = b; b = t; \x7d\n  devices\nx".toList ∧
    ((ofVersion .es100).run (joinDirectives .es100 continuedSource)).1 =
      .ok "#define SWAP \x7b   t = a; a = b; b = t; \x7d\nx".toList ∧
    KeepsAlike .es100 continuedSource
      "#define SWAP \x7b \\\n  t = a; a = b; b = t; \x7d\n  devices\nx".toList
      "#define SWAP \x7b   t = a; a = b; b = t; \x7d\nx".toList ∧
    ((ofVersion .es100).run continuedSource).2.isDefined "SWAP".toList =
      ((ofVersion .es100).run (joinDirectives .es100 continuedSource)).2.isDefined
        "SWAP".toList := by
  obtain ⟨hcontinued, hrun, hjoined⟩ :
      continuedLines .es100 continuedSource = continuedPair ∧
      ((ofVersion .es100).run continuedSource).1 =
        .ok "#define SWAP \x7b \\\n  t = a; a = b; b = t; \x7d\n  devices\nx".toList ∧
      ((ofVersion .es100).run (joinDirectives .es100 continuedSource)).1 =
        .ok "#define SWAP \x7b   t = a; a = b; b = t; \x7d\nx".toList := by
    decide +kernel
  have hreads : ∀ line ∈ continuedLines .es100 continuedSource, ReadsByFirstRow .es100 line := by
    rw [hcontinued]
    exact readsByFirstRow_continuedPair
  have hresult := @run_joinDirectives_of_readsByFirstRow (ofVersion .es100) _ hreads
  have hversion : (ofVersion .es100).version = .es100 := rfl
  rw [hversion, hrun, hjoined] at hresult
  obtain ⟨hkept, hnames, -⟩ := hresult
  cases hkept with
  | some hkept => exact ⟨hreads, hrun, hjoined, hkept, hnames _⟩

private theorem toOption_condition_of_read {version : GlslVersion} {expression : Text} {expr : Expr}
    (hread : readExpression? version expression = some expr) (symbols : SymbolTable) :
    (symbols.condition version expression).toOption =
      (expr.eval (symbols.valueOf version SymbolTable.maxExpansionDepth)
        symbols.contains).toOption.map (· != 0) := by
  unfold readExpression? at hread
  rw [SymbolTable.condition, toOption_bind, SymbolTable.evaluate, toOption_bind, hread]
  exact (Option.map_eq_bind).symm

private theorem toOption_condition_of_unread {version : GlslVersion} {expression : Text}
    (hread : readExpression? version expression = none) (symbols : SymbolTable) :
    (symbols.condition version expression).toOption = none := by
  unfold readExpression? at hread
  rw [SymbolTable.condition, toOption_bind, SymbolTable.evaluate, toOption_bind, hread]
  rfl

private theorem toOption_run_of_unread {pass : ConditionalPass} {source first expression : Text}
    {rest : List Text} (hlines : source.lines = first :: rest)
    (hfirst : SourceLine.ofText first = .ifExpression expression)
    (hread : readExpression? pass.version expression = none) :
    (pass.run source).1.toOption = none := by
  cases hrun : pass.run source with
  | mk result after =>
      cases result with
      | error => rfl
      | ok out =>
          obtain ⟨final, hfinal, -⟩ := run_eq_ok_iff.mp hrun
          have hopening : (SourceLine.ofText first).test? = some (.isTrue expression) := by
            rw [hfirst]
            rfl
          rw [hlines, toOption_stepLines_cons, (step_of_test? hopening 1 _).1 rfl,
            GroupTest.holds?, toOption_condition_of_unread hread] at hfinal
          cases hfinal

private theorem readExpression?_bothRows : readExpression? .es100 "1  && 1".toList =
    some (.binary .logicalAnd (.literal 1) (.literal 1)) := by
  have htokens : SymbolTable.expressionTokens .es100 "1  && 1".toList =
      [⟨.integer, ['1'], 1⟩] ++ ⟨.operator, ['&', '&'], 1⟩ :: [⟨.integer, ['1'], 1⟩] := by
    decide +kernel
  have hone : ∀ level ≤ operandLevel, Derives level [⟨.integer, ['1'], 1⟩] (.literal 1) :=
    fun _ hlevel => (Derives.literal rfl (by decide)).mono hlevel (Nat.le_refl _)
  have hboth : Derives BinaryOp.logicalAnd.level
      ([⟨.integer, ['1'], 1⟩] ++ ⟨.operator, ['&', '&'], 1⟩ :: [⟨.integer, ['1'], 1⟩])
      (.binary .logicalAnd (.literal 1) (.literal 1)) :=
    .binary (by decide) (hone _ (by decide)) (hone _ (by decide))
  rw [readExpression?, htokens, Expr.parse_eq_ok_iff.mpr (hboth.mono (by decide) (by decide))]
  rfl

private theorem readExpression?_firstRow : readExpression? .es100 "1 \\".toList = none := by
  have htokens : SymbolTable.expressionTokens .es100 "1 \\".toList =
      [⟨.integer, ['1'], 1⟩, ⟨.operator, ['\\'], 1⟩] := by decide +kernel
  have hone : integerLiteral? ['1'] = some 1 := by decide
  rw [readExpression?, htokens, Expr.parse, chain, operand]
  simp only [hone, bind, Except.bind]
  rw [links]
  rfl

set_option maxRecDepth 10000 in
/-- The second row of a condition is no part of it. -/
theorem run_continuedCondition :
    joinDirectives .es100 "#if 1 \\\n && 1\nx\n#endif".toList =
      "#if 1  && 1\nx\n#endif".toList ∧
    (ofVersion .es100).run "#if 1  && 1\nx\n#endif".toList = (.ok ['x'], ofVersion .es100) ∧
    ((ofVersion .es100).run "#if 1 \\\n && 1\nx\n#endif".toList).1.toOption = none := by
  refine ⟨by decide +kernel, ?_, ?_⟩
  · have hcondition : ((ofVersion .es100).symbols.condition .es100 "1  && 1".toList).toOption =
        some true := by
      rw [toOption_condition_of_read readExpression?_bothRows]
      rfl
    have hspells : Region.Spells
        (.group (.isTrue "1  && 1".toList) (.line ['x'] .nil) .endif .nil)
        (Text.lines "#if 1  && 1\nx\n#endif".toList) :=
      .group (by decide) (.line (by decide) .nil) (.endif (by decide)) .nil
    have hversion : (ofVersion .es100).version = .es100 := rfl
    refine (run_eq_ok_iff_of_spells hspells).mpr
      ⟨⟨[['x']], (ofVersion .es100).symbols⟩, ?_, by decide, rfl⟩
    rw [hversion, Region.interpret, GroupTest.holds?, hcondition]
    rfl
  · have hlines : Text.lines "#if 1 \\\n && 1\nx\n#endif".toList =
        "#if 1 \\".toList :: [" && 1".toList, ['x'], "#endif".toList] := by decide +kernel
    have hfirst : SourceLine.ofText "#if 1 \\".toList = .ifExpression "1 \\".toList := by
      decide +kernel
    exact toOption_run_of_unread hlines hfirst readExpression?_firstRow

end ConditionalPass

end GlslCompose
