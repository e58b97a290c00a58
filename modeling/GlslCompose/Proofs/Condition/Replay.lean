import GlslCompose.Proofs.Condition.Group

/-!
# Running a pass on its own result

What a pass keeps are the lines that it has found live, in their order, and among them
are all that have changed the symbols.  So the lines that are kept, read again from the
same symbols, change the symbols in the same way; no group is opened above them, and
all of them are kept once more.
-/

namespace GlslCompose

namespace PassState

variable {version : GlslVersion} {symbols : SymbolTable} {state next final : PassState}
  {line : Nat} {text : Text}

/-! ## Kept lines -/

private theorem isOrdinary_of_keeps (h : keeps text = true) :
    (SourceLine.ofText text).isOrdinary = true := by
  unfold keeps at h
  cases hclass : SourceLine.ofText text with
  | text | define | undef | otherDirective => rfl
  | ifDefined | ifExpression | elif | elseArm | endif => simp [hclass] at h

private theorem not_isBlankLine_of_keeps (h : keeps text = true) : ¬text.IsBlankLine := by
  intro hblank
  have htrim : text.trimStart = [] := List.dropWhile_eq_nil_iff.mpr hblank
  have hclass : SourceLine.ofText text = .text := by
    simp [SourceLine.ofText, Directive.name?, Directive.afterMark?, htrim]
  simp [keeps, hclass, hblank] at h

/-! ## One line -/

private theorem exists_branches_of_step (hline : (SourceLine.ofText text).isOrdinary = false)
    (h : state.step version line text = .ok next) : ∃ branches, next = { state with branches } := by
  unfold step at h
  cases hclass : SourceLine.ofText text with
  | text | define | undef | otherDirective => simp [hclass, SourceLine.isOrdinary] at hline
  | ifDefined expected name =>
      rw [hclass] at h
      exact exists_branches_of_ifDefined h
  | ifExpression expression =>
      rw [hclass] at h
      exact exists_branches_of_ifExpression h
  | elif expression =>
      rw [hclass] at h
      exact exists_branches_of_elif h
  | elseArm =>
      rw [hclass] at h
      exact exists_branches_of_elseArm h
  | endif =>
      rw [hclass] at h
      exact exists_branches_of_endif h

private theorem afterLine?_of_not_keeps (hline : (SourceLine.ofText text).isOrdinary = true)
    (hkeeps : keeps text = false) : symbols.afterLine? text = some symbols := by
  unfold keeps at hkeeps
  unfold SymbolTable.afterLine?
  cases hclass : SourceLine.ofText text with
  | text => rfl
  | define | undef | otherDirective => simp [hclass] at hkeeps
  | ifDefined | ifExpression | elif | elseArm | endif =>
      simp [hclass, SourceLine.isOrdinary] at hline

private theorem step_cases (h : state.step version line text = .ok next) :
    (next.kept = state.kept ∧ next.symbols = state.symbols) ∨
    (keeps text = true ∧ next.kept = text :: state.kept ∧
      state.symbols.afterLine? text = some next.symbols) := by
  cases hline : (SourceLine.ofText text).isOrdinary with
  | false =>
      obtain ⟨branches, rfl⟩ := exists_branches_of_step hline h
      exact .inl ⟨rfl, rfl⟩
  | true =>
      obtain ⟨hlive, hdead⟩ := @step_of_isOrdinary version text hline line state
      rw [h] at hlive hdead
      cases hstate : state.isLive with
      | false =>
          cases hdead hstate
          exact .inl ⟨rfl, rfl⟩
      | true =>
          obtain ⟨after, hafter, rfl⟩ := Option.map_eq_some_iff.mp (hlive hstate).symm
          cases hkeeps : keeps text with
          | true => exact .inr ⟨rfl, rfl, hafter⟩
          | false =>
              rw [afterLine?_of_not_keeps hline hkeeps] at hafter
              cases hafter
              exact .inl ⟨rfl, rfl⟩

/-! ## Many lines -/

/-- The lines that a state has kept lead a pass from these symbols to the symbols of the state,
and they are kept again. -/
def Replays (version : GlslVersion) (symbols : SymbolTable) (state : PassState) : Prop :=
  (stepLines version 1 state.kept.reverse (.start symbols)).toOption =
    some ⟨state.symbols, [], state.kept⟩

private theorem replays_start (version : GlslVersion) (symbols : SymbolTable) :
    Replays version symbols (.start symbols) := rfl

private theorem Replays.of_step (hreplays : Replays version symbols state)
    (h : state.step version line text = .ok next) : Replays version symbols next := by
  rcases step_cases h with ⟨hkept, hsymbols⟩ | ⟨hkeeps, hkept, hafter⟩
  · rw [Replays, hkept, hsymbols]
    exact hreplays
  · have hlive : isLive ⟨state.symbols, [], state.kept⟩ = true := rfl
    have hstep : (step version (1 + state.kept.reverse.length) text
        ⟨state.symbols, [], state.kept⟩).toOption =
          some ⟨next.symbols, [], text :: state.kept⟩ := by
      rw [(step_of_isOrdinary (isOrdinary_of_keeps hkeeps) _ _).1 hlive, hafter, Option.map_some,
        if_pos hkeeps]
    rw [Replays, hkept, List.reverse_cons, toOption_stepLines_append, hreplays, Option.bind_some,
      toOption_stepLines_cons, hstep]
    rfl

private theorem Replays.of_stepLines {texts : List Text} (hreplays : Replays version symbols state)
    (h : state.stepLines version line texts = .ok final) : Replays version symbols final := by
  induction texts generalizing line state with
  | nil =>
      cases h
      exact hreplays
  | cons text texts ih =>
      obtain ⟨next, hstep, hrest⟩ := exists_step_of_stepLines h
      exact ih (hreplays.of_step hstep) hrest

end PassState

namespace ConditionalPass

variable {pass after : ConditionalPass} {source out : Text}

/-- A pass that has succeeded succeeds on its own result, keeps all of it and ends with the
same symbols.  No line of the result belongs to a group, and none is blank. -/
theorem run_run (hreturn : '\r' ∉ source) (h : pass.run source = (.ok out, after)) :
    pass.run out = (.ok out, after) ∧
    ∀ line ∈ out.lines, (SourceLine.ofText line).isOrdinary = true ∧ ¬line.IsBlankLine := by
  obtain ⟨final, hfinal, -, rfl, rfl⟩ := run_eq_ok_iff.mp h
  have hsteps := PassState.stepLines_eq_ok hfinal
  have hkept : ∀ row ∈ final.kept.reverse, row ∈ source.lines ∧ PassState.keeps row = true := by
    intro row hrow
    rcases (PassState.mem_kept_of_stepLines hsteps).mp (List.mem_reverse.mp hrow) with
      hstart | ⟨above, below, _, hlines, -, -, hkeeps⟩
    · simp [PassState.start] at hstart
    · exact ⟨by rw [hlines]; simp, hkeeps⟩
  have hlines : (Text.unlines final.kept.reverse).lines = final.kept.reverse := by
    refine Text.lines_unlines fun row hrow => ?_
    obtain ⟨hmem, hkeeps⟩ := hkept row hrow
    refine ⟨⟨Text.newline_not_mem_of_mem_lines hmem, fun hlast => hreturn ?_⟩, ?_⟩
    · exact (Text.infix_of_mem_lines hmem).subset (List.mem_of_getLast? hlast)
    · rintro rfl
      exact PassState.not_isBlankLine_of_keeps hkeeps (by simp [Text.IsBlankLine])
  have hreplays := (PassState.replays_start pass.version pass.symbols).of_stepLines hsteps
  refine ⟨run_eq_ok_iff.mpr ⟨⟨final.symbols, [], final.kept⟩, ?_, rfl, rfl, rfl⟩,
    fun row hrow => ?_⟩
  · rw [hlines]
    exact hreplays
  · rw [hlines] at hrow
    obtain ⟨-, hkeeps⟩ := hkept row hrow
    exact ⟨PassState.isOrdinary_of_keeps hkeeps, PassState.not_isBlankLine_of_keeps hkeeps⟩

def toggledSource : Text := Text.unlines (["#define A", "", "#ifdef A", "#undef A", "#endif",
  "#ifdef A", "x", "#else", "  #define A 2", "#endif", "  "].map String.toList)

theorem run_run_toggledSource :
    '\r' ∉ toggledSource ∧
    (ofVersion .es100).run toggledSource = (.ok "#define A\n#undef A\n  #define A 2".toList,
      (ofVersion .es100).define ['A'] ['2']) ∧
    (ofVersion .es100).run "#define A\n#undef A\n  #define A 2".toList =
      (.ok "#define A\n#undef A\n  #define A 2".toList,
        (ofVersion .es100).define ['A'] ['2']) := by
  have hreturn : '\r' ∉ toggledSource := by decide +kernel
  have hrun : (ofVersion .es100).run toggledSource =
      (.ok "#define A\n#undef A\n  #define A 2".toList,
        (ofVersion .es100).define ['A'] ['2']) := by decide +kernel
  exact ⟨hreturn, hrun, (run_run hreturn hrun).1⟩

end ConditionalPass

end GlslCompose
