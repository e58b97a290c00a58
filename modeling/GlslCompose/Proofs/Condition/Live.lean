import GlslCompose.Condition.Pass
import GlslCompose.Proofs.Text.Rows

/-!
# Live lines

A conditional pass keeps the live lines of a source, except the blank ones and the
directives that belong to groups.  Whether a line is live is decided by the lines above it.
-/

namespace GlslCompose

namespace PassState

variable {version : GlslVersion} {state next final : PassState} {line : Nat} {text : Text}

/-! ## One line -/

/-- Whether a line is kept where it is live. -/
def keeps (text : Text) : Bool :=
  match SourceLine.ofText text with
  | .text => ¬text.IsBlankLine
  | .define _ | .undef _ | .otherDirective => true
  | _ => false

/-! A directive that belongs to a group changes nothing but the groups. -/

theorem exists_branches_of_ifDefined {expected : Bool} {name : Option Text}
    (h : state.ifDefined line expected name = .ok next) :
    ∃ branches, next = { state with branches } := by
  unfold ifDefined at h
  split at h
  · split at h
    · cases h
      exact ⟨_, rfl⟩
    · cases h
  · cases h
    exact ⟨_, rfl⟩

private theorem exists_of_condition {expression : Text} {finish : Bool → PassState}
    (h : (do return finish (← state.condition version line expression)) = .ok next) :
    ∃ value, next = finish value := by
  cases hcondition : state.condition version line expression with
  | error error =>
      rw [hcondition] at h
      cases h
  | ok value =>
      rw [hcondition] at h
      cases h
      exact ⟨value, rfl⟩

theorem exists_branches_of_ifExpression {expression : Text}
    (h : state.ifExpression version line expression = .ok next) :
    ∃ branches, next = { state with branches } := by
  unfold ifExpression at h
  split at h
  · obtain ⟨value, rfl⟩ := exists_of_condition h
    exact ⟨_, rfl⟩
  · cases h
    exact ⟨_, rfl⟩

theorem exists_branches_of_elif {expression : Text}
    (h : state.elif version line expression = .ok next) :
    ∃ branches, next = { state with branches } := by
  unfold elif at h
  split at h
  · cases h
  · split at h
    · cases h
    · split at h
      · obtain ⟨value, rfl⟩ := exists_of_condition h
        exact ⟨_, rfl⟩
      · cases h
        exact ⟨_, rfl⟩

theorem exists_branches_of_elseArm (h : state.elseArm line = .ok next) :
    ∃ branches, next = { state with branches } := by
  unfold elseArm at h
  split at h
  · cases h
  · split at h
    · cases h
    · cases h
      exact ⟨_, rfl⟩

theorem exists_branches_of_endif (h : state.endif line = .ok next) :
    ∃ branches, next = { state with branches } := by
  unfold endif at h
  split at h
  · cases h
  · cases h
    exact ⟨_, rfl⟩

private theorem kept_of_define {definition : Option (Text × Text)}
    (h : state.define line definition = .ok next) : next.kept = state.kept := by
  unfold define at h
  split at h
  · cases h
  · cases h
    rfl

@[simp] private theorem kept_undef (state : PassState) (name : Option Text) :
    (state.undef name).kept = state.kept := by
  unfold undef
  split
  · rfl
  · rfl

theorem kept_of_step (h : state.step version line text = .ok next) :
    next.kept = if state.isLive ∧ keeps text then text :: state.kept else state.kept := by
  unfold step at h
  unfold keeps
  split at h
  · rename_i hline
    simp only [hline, Bool.false_eq_true, and_false, if_false]
    obtain ⟨branches, rfl⟩ := exists_branches_of_ifDefined h
    rfl
  · rename_i hline
    simp only [hline, Bool.false_eq_true, and_false, if_false]
    obtain ⟨branches, rfl⟩ := exists_branches_of_ifExpression h
    rfl
  · rename_i hline
    simp only [hline, Bool.false_eq_true, and_false, if_false]
    obtain ⟨branches, rfl⟩ := exists_branches_of_elif h
    rfl
  · rename_i hline
    simp only [hline, Bool.false_eq_true, and_false, if_false]
    obtain ⟨branches, rfl⟩ := exists_branches_of_elseArm h
    rfl
  · rename_i hline
    simp only [hline, Bool.false_eq_true, and_false, if_false]
    obtain ⟨branches, rfl⟩ := exists_branches_of_endif h
    rfl
  · rename_i definition hline
    simp only [hline, and_true]
    by_cases hlive : state.isLive
    · rw [if_pos hlive] at h ⊢
      cases hdefine : state.define line definition with
      | error error =>
          rw [hdefine] at h
          cases h
      | ok defined =>
          rw [hdefine] at h
          cases h
          exact congrArg (text :: ·) (kept_of_define hdefine)
    · rw [if_neg hlive] at h ⊢
      cases h
      rfl
  · rename_i name hline
    simp only [hline, and_true]
    cases h
    split
    · exact congrArg (text :: ·) (kept_undef state name)
    · rfl
  · rename_i hline
    simp only [hline, decide_eq_true_eq]
    cases h
    split
    · rfl
    · rfl
  · rename_i hline
    simp only [hline, and_true]
    cases h
    split
    · rfl
    · rfl

/-! ## Many lines -/

def stepLines (version : GlslVersion) (line : Nat) :
    List Text → PassState → Except ComposeError PassState
  | [], state => .ok state
  | text :: texts, state =>
      match state.step version line text with
      | .error error => .error error
      | .ok next => stepLines version (line + 1) texts next

theorem exists_step_of_stepLines {texts : List Text}
    (h : state.stepLines version line (text :: texts) = .ok final) :
    ∃ next, state.step version line text = .ok next ∧
      next.stepLines version (line + 1) texts = .ok final := by
  rw [stepLines] at h
  cases hstep : state.step version line text with
  | error error =>
      rw [hstep] at h
      cases h
  | ok next =>
      rw [hstep] at h
      exact ⟨next, rfl, h⟩

private theorem stepLines_cons {texts : List Text}
    (hstep : state.step version line text = .ok next) :
    state.stepLines version line (text :: texts) =
      next.stepLines version (line + 1) texts := by
  rw [stepLines, hstep]

theorem stepLines_of_runLines {texts : List Text} {out : Text}
    (h : (state.runLines version line texts).1 = .ok out) :
    ∃ final, state.stepLines version line texts = .ok final ∧
      out = Text.unlines final.kept.reverse := by
  induction texts generalizing line state with
  | nil =>
      refine ⟨state, rfl, ?_⟩
      rw [runLines, finish] at h
      split at h
      · cases h
        rfl
      · cases h
  | cons text texts ih =>
      rw [runLines] at h
      cases hstep : state.step version line text with
      | error error =>
          rw [hstep] at h
          cases h
      | ok next =>
          rw [hstep] at h
          obtain ⟨final, hfinal, hout⟩ := ih h
          exact ⟨final, by rw [stepLines_cons hstep, hfinal], hout⟩

theorem mem_kept_of_stepLines {texts : List Text} {row : Text}
    (h : state.stepLines version line texts = .ok final) :
    row ∈ final.kept ↔ row ∈ state.kept ∨
      ∃ before after mid, texts = before ++ row :: after ∧
        state.stepLines version line before = .ok mid ∧ mid.isLive ∧ keeps row := by
  induction texts generalizing line state with
  | nil =>
      cases h
      simp
  | cons text texts ih =>
      obtain ⟨next, hstep, hrest⟩ := exists_step_of_stepLines h
      have hkept : row ∈ next.kept ↔
          row ∈ state.kept ∨ (row = text ∧ state.isLive ∧ keeps text) := by
        rw [kept_of_step hstep]
        by_cases hlive : state.isLive ∧ keeps text
        · rw [if_pos hlive, List.mem_cons]
          tauto
        · rw [if_neg hlive]
          tauto
      rw [ih hrest, hkept]
      constructor
      · rintro ((hbefore | ⟨rfl, hlive, hkeeps⟩) | ⟨before, after, mid, rfl, hmid, hlive⟩)
        · exact .inl hbefore
        · exact .inr ⟨[], texts, state, rfl, rfl, hlive, hkeeps⟩
        · refine .inr ⟨text :: before, after, mid, rfl, ?_, hlive⟩
          rw [stepLines_cons hstep, hmid]
      · rintro (hbefore | ⟨before, after, mid, htexts, hmid, hlive, hkeeps⟩)
        · exact .inl (.inl hbefore)
        · cases before with
          | nil =>
              cases hmid
              rw [List.nil_append, List.cons.injEq] at htexts
              rw [← htexts.1] at hkeeps
              exact .inl (.inr ⟨htexts.1.symm, hlive, hkeeps⟩)
          | cons first before =>
              rw [List.cons_append, List.cons.injEq] at htexts
              obtain ⟨rfl, rfl⟩ := htexts
              rw [stepLines_cons hstep] at hmid
              exact .inr ⟨before, after, mid, rfl, hmid, hlive, hkeeps⟩

private theorem stepLines_of_plain {texts : List Text}
    (htexts : ∀ text ∈ texts, SourceLine.ofText text = .text ∨
      ∃ name value, SourceLine.ofText text = .define (some (name, value)))
    (line : Nat) (state : PassState) :
    ∃ next, state.stepLines version line texts = .ok next ∧ next.branches = state.branches := by
  induction texts generalizing line state with
  | nil => exact ⟨state, rfl, rfl⟩
  | cons text texts ih =>
      obtain ⟨first, hstep, hfirst⟩ : ∃ first, state.step version line text = .ok first ∧
          first.branches = state.branches := by
        unfold step
        rcases htexts text List.mem_cons_self with hline | ⟨name, value, hline⟩
        · rw [hline]
          refine ⟨_, rfl, ?_⟩
          split
          · rfl
          · rfl
        · rw [hline]
          simp only [define]
          split
          · exact ⟨_, rfl, rfl⟩
          · exact ⟨state, rfl, rfl⟩
      obtain ⟨next, hnext, hbranches⟩ :=
        ih (fun other hother => htexts other (List.mem_cons_of_mem text hother)) (line + 1) first
      refine ⟨next, ?_, hbranches.trans hfirst⟩
      rw [stepLines_cons hstep, hnext]

end PassState

namespace ConditionalPass

/-- The line stands in the source at a place that is live when the pass comes to it. -/
def HasLive (pass : ConditionalPass) (source line : Text) : Prop :=
  ∃ before after state, source.lines = before ++ line :: after ∧
    PassState.stepLines pass.version 1 before (.start pass.symbols) = .ok state ∧ state.isLive

/-- The lines of the result are the live lines of the source that are kept. -/
theorem mem_splitOn_of_run {pass : ConditionalPass} {source out line : Text}
    (h : (pass.run source).1 = .ok out) (hline : line ≠ []) :
    line ∈ out.splitOn '\n' ↔ pass.HasLive source line ∧ PassState.keeps line := by
  have hrun : (PassState.runLines pass.version 1 source.lines (.start pass.symbols)).1 =
      .ok out := h
  obtain ⟨final, hfinal, hout⟩ := PassState.stepLines_of_runLines hrun
  have hmem : ∀ row, row ∈ final.kept ↔ pass.HasLive source row ∧ PassState.keeps row := by
    intro row
    rw [PassState.mem_kept_of_stepLines hfinal]
    constructor
    · rintro (hstart | ⟨before, after, mid, hlines, hmid, hlive, hkeeps⟩)
      · simp [PassState.start] at hstart
      · exact ⟨⟨before, after, mid, hlines, hmid, hlive⟩, hkeeps⟩
    · rintro ⟨⟨before, after, mid, hlines, hmid, hlive⟩, hkeeps⟩
      exact .inr ⟨before, after, mid, hlines, hmid, hlive, hkeeps⟩
  rw [← hmem line]
  by_cases hkept : final.kept = []
  · rw [hout, hkept]
    simp [Text.unlines, hline]
  · have hfeed : ∀ row ∈ final.kept.reverse, '\n' ∉ row := by
      intro row hrow
      obtain ⟨⟨before, after, _, hlines, _⟩, _⟩ := (hmem row).mp (List.mem_reverse.mp hrow)
      have hline : row ∈ source.lines := by
        rw [hlines]
        simp
      exact Text.newline_not_mem_of_mem_lines hline
    rw [hout, Text.unlines, List.splitOn_intercalate '\n' hfeed (by simpa using hkept),
      List.mem_reverse]

theorem hasLive_of_plain {source line : Text} {before after : List Text}
    (hlines : source.lines = before ++ line :: after)
    (hbefore : ∀ text ∈ before, SourceLine.ofText text = .text ∨
      ∃ name value, SourceLine.ofText text = .define (some (name, value)))
    (pass : ConditionalPass) : pass.HasLive source line := by
  obtain ⟨state, hstate, hbranches⟩ :=
    @PassState.stepLines_of_plain pass.version before hbefore 1 (.start pass.symbols)
  refine ⟨before, after, state, hlines, hstate, ?_⟩
  rw [PassState.isLive, hbranches]
  rfl

end ConditionalPass

end GlslCompose
