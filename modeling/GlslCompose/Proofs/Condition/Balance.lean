import GlslCompose.Proofs.Condition.Group

/-!
# Balanced groups

A pass that goes through some lines has one group more open behind each `#if`, `#ifdef` and
`#ifndef` and one less behind each `#endif`, whatever the other lines are.  Where the lines
above end as many groups as they open, a line stands in no group, so it is live.
-/

namespace GlslCompose

namespace SourceLine

def opensGroup (row : Text) : Bool := (ofText row).test?.isSome

def closesGroup (row : Text) : Bool := ofText row == .endif

/-- The rows open no more groups than they end. -/
def ClosesGroups (rows : List Text) : Prop := rows.countP opensGroup ≤ rows.countP closesGroup

instance (rows : List Text) : Decidable (ClosesGroups rows) :=
  inferInstanceAs (Decidable (_ ≤ _))

theorem closesGroups_of_forall {rows : List Text} (h : ∀ row ∈ rows, opensGroup row = false) :
    ClosesGroups rows := by
  have hnone : rows.countP opensGroup = 0 := List.countP_eq_zero.mpr (by simpa using h)
  rw [ClosesGroups, hnone]
  exact Nat.zero_le _

end SourceLine

open SourceLine

namespace PassState

variable {version : GlslVersion} {state final : PassState} {line : Nat} {text : Text}

theorem BranchStep.length_eq {before after : List Branch} (h : BranchStep text before after) :
    after.length + (closesGroup text).toNat = before.length + (opensGroup text).toNat := by
  unfold closesGroup opensGroup
  cases h with
  | ordinary hline => cases hclass : ofText text <;> simp_all [isOrdinary, test?]
  | opening hopening => cases hclass : ofText text <;> simp_all [test?]
  | elif hmark hseen => simp [hmark, test?]
  | elseArm hmark hseen hafter => simp [hmark, test?]
  | endif hclosing => simp [hclosing, test?]

private theorem branches_length_of_stepLines {rows : List Text}
    (h : state.stepLines version line rows = .ok final) :
    final.branches.length + rows.countP closesGroup =
      state.branches.length + rows.countP opensGroup := by
  induction rows generalizing line state with
  | nil =>
      cases h
      rfl
  | cons text rows ih =>
      obtain ⟨next, hstep, hrest⟩ := exists_step_of_stepLines h
      have hlength := (branchStep_of_step hstep).length_eq
      have hmore := ih hrest
      have hcount : ∀ found : Bool, (if found = true then 1 else 0) = found.toNat := by decide
      rw [List.countP_cons, List.countP_cons, hcount, hcount]
      omega

private theorem isLive_of_closesGroups {rows : List Text} (hrows : ClosesGroups rows)
    (hstate : state.branches = []) (h : state.stepLines version line rows = .ok final) :
    final.isLive := by
  have hlength := branches_length_of_stepLines h
  rw [hstate, List.length_nil] at hlength
  have hnil : final.branches = [] := by
    rw [← List.length_eq_zero_iff]
    unfold ClosesGroups at hrows
    omega
  rw [isLive, hnil]

end PassState

theorem ConditionalPass.hasLive_of_closesGroups {pass : ConditionalPass}
    {source out line : Text} {before after : List Text} (hout : (pass.run source).1 = .ok out)
    (hlines : source.lines = before ++ line :: after) (hbefore : ClosesGroups before) :
    pass.HasLive source line := by
  obtain ⟨final, hfinal, -⟩ := PassState.stepLines_of_runLines hout
  have hsplit := congrArg Except.toOption hfinal
  rw [hlines, PassState.toOption_stepLines_append] at hsplit
  obtain ⟨mid, hmid, -⟩ := Option.bind_eq_some_iff.mp hsplit
  have hstep := PassState.stepLines_eq_ok hmid
  exact ⟨before, after, mid, hlines, hstep, PassState.isLive_of_closesGroups hbefore rfl hstep⟩

end GlslCompose
