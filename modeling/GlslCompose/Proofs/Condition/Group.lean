import GlslCompose.Proofs.Condition.Live

/-!
# Groups as trees

Properly nested conditional directives give the lines of a source the shape of a tree:
`Region.Spells` is the grammar of these trees, and `Region.interpret` reads a tree from
the top, going into one arm of a group at most.  A pass succeeds on the sources that
have such a tree in which everything that is reached is valid, and then it gives what
the interpreter gives.
-/

namespace GlslCompose

/-! ## Trees -/

inductive GroupTest where
  | isDefined (expected : Bool) (name : Option Text)
  | isTrue (expression : Text)
deriving DecidableEq, Repr

mutual

inductive Region where
  | nil
  | line (text : Text) (rest : Region)
  | group (test : GroupTest) (body : Region) (arms : Arms) (rest : Region)

inductive Arms where
  | endif
  | elseArm (body : Region)
  | elif (expression : Text) (body : Region) (arms : Arms)

end

namespace SourceLine

def isOrdinary : SourceLine → Bool
  | text | define _ | undef _ | otherDirective => true
  | _ => false

def test? : SourceLine → Option GroupTest
  | ifDefined expected name => some (.isDefined expected name)
  | ifExpression expression => some (.isTrue expression)
  | _ => none

end SourceLine

mutual

inductive Region.Spells : Region → List Text → Prop where
  | nil : Region.Spells .nil []
  | line {text : Text} {rest : Region} {rows : List Text}
      (hline : (SourceLine.ofText text).isOrdinary = true) (hrest : rest.Spells rows) :
      Region.Spells (.line text rest) (text :: rows)
  | group {opening : Text} {test : GroupTest} {body rest : Region} {arms : Arms}
      {bodyRows armRows rows : List Text}
      (hopening : (SourceLine.ofText opening).test? = some test) (hbody : body.Spells bodyRows)
      (harms : arms.Spells armRows) (hrest : rest.Spells rows) :
      Region.Spells (.group test body arms rest) (opening :: (bodyRows ++ (armRows ++ rows)))

inductive Arms.Spells : Arms → List Text → Prop where
  | endif {closing : Text} (hclosing : SourceLine.ofText closing = .endif) :
      Arms.Spells .endif [closing]
  | elseArm {mark closing : Text} {body : Region} {bodyRows : List Text}
      (hmark : SourceLine.ofText mark = .elseArm) (hbody : body.Spells bodyRows)
      (hclosing : SourceLine.ofText closing = .endif) :
      Arms.Spells (.elseArm body) (mark :: (bodyRows ++ [closing]))
  | elif {mark expression : Text} {body : Region} {arms : Arms} {bodyRows armRows : List Text}
      (hmark : SourceLine.ofText mark = .elif expression) (hbody : body.Spells bodyRows)
      (harms : arms.Spells armRows) :
      Arms.Spells (.elif expression body arms) (mark :: (bodyRows ++ armRows))

end

/-! ## Interpretation -/

/-- What is kept of a live part of a source, and the symbols below it. -/
structure Reading where
  kept : List Text
  symbols : SymbolTable
deriving DecidableEq, Repr

namespace Reading

def followedBy (first second : Reading) : Reading :=
  ⟨first.kept ++ second.kept, second.symbols⟩

def toState (branches : List Branch) (kept : List Text) (reading : Reading) : PassState :=
  ⟨reading.symbols, branches, reading.kept.reverse ++ kept⟩

end Reading

namespace GroupTest

def holds? (version : GlslVersion) (symbols : SymbolTable) : GroupTest → Option Bool
  | isDefined expected name => name.map fun name => symbols.contains name == expected
  | isTrue expression => (symbols.condition version expression).toOption

end GroupTest

/-- The symbols below a live line that is no directive of a group. -/
def SymbolTable.afterLine? (symbols : SymbolTable) (text : Text) : Option SymbolTable :=
  match SourceLine.ofText text with
  | .define definition => definition.map fun (name, value) => symbols.insert name value
  | .undef (some name) => some (symbols.erase name)
  | _ => some symbols

def SymbolTable.readLine? (symbols : SymbolTable) (text : Text) : Option Reading :=
  (symbols.afterLine? text).map fun symbols => ⟨[text].filter PassState.keeps, symbols⟩

mutual

/-- Reads a live region.  There is no reading if a condition or a name that is reached
is invalid. -/
def Region.interpret (version : GlslVersion) : Region → SymbolTable → Option Reading
  | .nil, symbols => some ⟨[], symbols⟩
  | .line text rest, symbols => do
      let first ← symbols.readLine? text
      let more ← rest.interpret version first.symbols
      return first.followedBy more
  | .group test body arms rest, symbols => do
      let taken ← test.holds? version symbols
      let first ← (if taken then body.interpret version symbols
        else arms.interpret version symbols)
      let more ← rest.interpret version first.symbols
      return first.followedBy more

/-- Reads the arms of a live group none of whose arms above has been taken. -/
def Arms.interpret (version : GlslVersion) : Arms → SymbolTable → Option Reading
  | .endif, symbols => some ⟨[], symbols⟩
  | .elseArm body, symbols => body.interpret version symbols
  | .elif expression body arms, symbols => do
      let taken ← (symbols.condition version expression).toOption
      if taken then body.interpret version symbols else arms.interpret version symbols

end

def Branch.intoElse (branch : Branch) : Branch :=
  { branch with live := branch.outerLive && !branch.taken, taken := true, seenElse := true }

namespace PassState

variable {version : GlslVersion} {state next final : PassState} {line : Nat} {text : Text}

/-! ## One line -/

theorem step_of_isOrdinary (hline : (SourceLine.ofText text).isOrdinary = true) (line : Nat)
    (state : PassState) :
    (state.isLive = true → (state.step version line text).toOption =
      (state.symbols.afterLine? text).map fun symbols =>
        { state with symbols, kept := if keeps text then text :: state.kept else state.kept }) ∧
    (state.isLive = false → (state.step version line text).toOption = some state) := by
  unfold step SymbolTable.afterLine? keeps
  cases hclass : SourceLine.ofText text with
  | text =>
      refine ⟨fun hlive => ?_, fun hdead => by simp [hdead, Except.toOption]⟩
      by_cases hblank : text.IsBlankLine <;> simp [hlive, hblank, keep, Except.toOption]
  | define definition =>
      refine ⟨fun hlive => ?_, fun hdead => by simp [hdead, Except.toOption]⟩
      cases definition <;> simp [hlive, define, keep, Except.toOption, Except.map]
  | undef name =>
      refine ⟨fun hlive => ?_, fun hdead => by simp [hdead, Except.toOption]⟩
      cases name <;> simp [hlive, undef, keep, Except.toOption]
  | otherDirective =>
      exact ⟨fun hlive => by simp [hlive, keep, Except.toOption],
        fun hdead => by simp [hdead, Except.toOption]⟩
  | ifDefined | ifExpression | elif | elseArm | endif =>
      simp [hclass, SourceLine.isOrdinary] at hline

@[simp] theorem toOption_condition (state : PassState) (version : GlslVersion) (line : Nat)
    (expression : Text) :
    (state.condition version line expression).toOption =
      (state.symbols.condition version expression).toOption := by
  unfold condition
  cases state.symbols.condition version expression <;> rfl

theorem step_of_test? {test : GroupTest} (hopening : (SourceLine.ofText text).test? = some test)
    (line : Nat) (state : PassState) :
    (state.isLive = true → (state.step version line text).toOption =
      (test.holds? version state.symbols).map fun taken => state.openBranch taken line) ∧
    (state.isLive = false →
      (state.step version line text).toOption = some (state.openBranch false line)) := by
  unfold step
  cases hclass : SourceLine.ofText text with
  | ifDefined expected name =>
      rw [hclass] at hopening
      cases hopening
      refine ⟨fun hlive => ?_, fun hdead => by simp [ifDefined, hdead, Except.toOption]⟩
      cases name <;> simp [ifDefined, hlive, GroupTest.holds?, Except.toOption]
  | ifExpression expression =>
      rw [hclass] at hopening
      cases hopening
      refine ⟨fun hlive => ?_, fun hdead => by simp [ifExpression, hdead, Except.toOption]⟩
      have hcondition := state.toOption_condition version line expression
      simp only [ifExpression, hlive, if_true, GroupTest.holds?]
      rw [← hcondition]
      cases state.condition version line expression <;> rfl
  | text | define | undef | otherDirective | elif | elseArm | endif =>
      simp [hclass, SourceLine.test?] at hopening

section

variable {symbols : SymbolTable} {branch : Branch} {branches : List Branch} {kept : List Text}

private theorem step_of_elif {expression : Text} (hmark : SourceLine.ofText text = .elif expression)
    (hseen : branch.seenElse = false) (line : Nat) :
    ((branch.outerLive && !branch.taken) = true →
      (step version line text ⟨symbols, branch :: branches, kept⟩).toOption =
        (symbols.condition version expression).toOption.map fun taken =>
          ⟨symbols, { branch with live := taken, taken } :: branches, kept⟩) ∧
    ((branch.outerLive && !branch.taken) = false →
      (step version line text ⟨symbols, branch :: branches, kept⟩).toOption =
        some ⟨symbols, { branch with live := false } :: branches, kept⟩) := by
  unfold step
  rw [hmark]
  simp only [elif, hseen, Bool.false_eq_true, if_false]
  refine ⟨fun hopen => ?_, fun hskip => ?_⟩
  · have hcondition :=
      toOption_condition ⟨symbols, branch :: branches, kept⟩ version line expression
    rw [if_pos hopen, ← hcondition]
    cases condition ⟨symbols, branch :: branches, kept⟩ version line expression <;> rfl
  · rw [hskip, if_neg Bool.false_ne_true]
    rfl

private theorem step_of_elseArm (hmark : SourceLine.ofText text = .elseArm)
    (hseen : branch.seenElse = false) (line : Nat) :
    (step version line text ⟨symbols, branch :: branches, kept⟩).toOption =
      some ⟨symbols, branch.intoElse :: branches, kept⟩ := by
  unfold step
  rw [hmark]
  simp only [elseArm, hseen, Bool.false_eq_true, if_false]
  rfl

private theorem step_of_endif (hclosing : SourceLine.ofText text = .endif) (line : Nat) :
    (step version line text ⟨symbols, branch :: branches, kept⟩).toOption =
      some ⟨symbols, branches, kept⟩ := by
  unfold step
  rw [hclosing]
  rfl

end

/-! ## Many lines -/

@[simp] theorem toOption_stepLines_cons (line : Nat) (text : Text) (rows : List Text)
    (state : PassState) :
    (state.stepLines version line (text :: rows)).toOption =
      (state.step version line text).toOption.bind fun next =>
        (next.stepLines version (line + 1) rows).toOption := by
  rw [stepLines]
  cases state.step version line text <;> rfl

theorem stepLines_eq_ok {rows : List Text}
    (h : (state.stepLines version line rows).toOption = some final) :
    state.stepLines version line rows = .ok final := by
  cases hrows : state.stepLines version line rows with
  | error error => simp [hrows, Except.toOption] at h
  | ok state =>
      rw [hrows] at h
      cases h
      rfl

theorem toOption_stepLines_append (line : Nat) (first second : List Text) (state : PassState) :
    (state.stepLines version line (first ++ second)).toOption =
      (state.stepLines version line first).toOption.bind fun next =>
        (next.stepLines version (line + first.length) second).toOption := by
  induction first generalizing line state with
  | nil => rfl
  | cons text first ih =>
      rw [List.cons_append, toOption_stepLines_cons, toOption_stepLines_cons, Option.bind_assoc]
      simp only [ih, List.length_cons, Nat.add_assoc, Nat.add_comm 1]

mutual

private theorem stepLines_of_dead {region : Region} {rows : List Text} (h : region.Spells rows)
    (line : Nat) {symbols : SymbolTable} {branches : List Branch} {kept : List Text}
    (hdead : isLive ⟨symbols, branches, kept⟩ = false) :
    (stepLines version line rows ⟨symbols, branches, kept⟩).toOption =
      some ⟨symbols, branches, kept⟩ := by
  cases h with
  | nil => rfl
  | line hline hrest =>
      rw [toOption_stepLines_cons, (step_of_isOrdinary hline line _).2 hdead]
      exact stepLines_of_dead hrest (line + 1) hdead
  | group hopening hbody harms hrest =>
      have hinner : isLive ⟨symbols, .opening false false line :: branches, kept⟩ = false := rfl
      have hopened : openBranch ⟨symbols, branches, kept⟩ false line =
          ⟨symbols, .opening false false line :: branches, kept⟩ := by
        rw [openBranch, hdead]
      rw [toOption_stepLines_cons, (step_of_test? hopening line _).2 hdead, Option.bind_some,
        hopened, toOption_stepLines_append, stepLines_of_dead hbody _ hinner, Option.bind_some,
        toOption_stepLines_append, stepLines_of_skip harms _ rfl rfl, Option.bind_some]
      exact stepLines_of_dead hrest _ hdead

private theorem stepLines_of_skip {arms : Arms} {rows : List Text} (h : arms.Spells rows)
    (line : Nat)
    {symbols : SymbolTable} {branch : Branch} {branches : List Branch} {kept : List Text}
    (hskip : (branch.outerLive && !branch.taken) = false) (hseen : branch.seenElse = false) :
    (stepLines version line rows ⟨symbols, branch :: branches, kept⟩).toOption =
      some ⟨symbols, branches, kept⟩ := by
  cases h with
  | endif hclosing =>
      rw [toOption_stepLines_cons, step_of_endif hclosing]
      rfl
  | elseArm hmark hbody hclosing =>
      have hinner : isLive ⟨symbols, branch.intoElse :: branches, kept⟩ = false := hskip
      rw [toOption_stepLines_cons, step_of_elseArm hmark hseen, Option.bind_some,
        toOption_stepLines_append, stepLines_of_dead hbody _ hinner, Option.bind_some,
        toOption_stepLines_cons, step_of_endif hclosing]
      rfl
  | elif hmark hbody harms =>
      have hinner : isLive ⟨symbols, { branch with live := false } :: branches, kept⟩ = false := rfl
      rw [toOption_stepLines_cons, (step_of_elif hmark hseen line).2 hskip, Option.bind_some,
        toOption_stepLines_append, stepLines_of_dead hbody _ hinner, Option.bind_some]
      exact stepLines_of_skip harms _ hskip hseen

end

private theorem stepLines_followedBy {state : PassState} {branches : List Branch} {kept : List Text}
    {reading : Option Reading} {next : SymbolTable → Option Reading} {first second : List Text}
    (hfirst : (state.stepLines version line first).toOption =
      reading.map (Reading.toState branches kept))
    (hsecond : ∀ symbols kept, (stepLines version (line + first.length) second
      ⟨symbols, branches, kept⟩).toOption = (next symbols).map (Reading.toState branches kept)) :
    (state.stepLines version line (first ++ second)).toOption =
      (do
        let first ← reading
        let more ← next first.symbols
        return first.followedBy more : Option Reading).map (Reading.toState branches kept) := by
  rw [toOption_stepLines_append, hfirst]
  cases reading with
  | none => rfl
  | some reading =>
      rw [Option.map_some, Option.bind_some, Reading.toState, hsecond]
      cases hnext : next reading.symbols with
      | none => simp [hnext]
      | some more => simp [hnext, Reading.toState, Reading.followedBy]

private theorem stepLines_of_taken {symbols : SymbolTable} {branch : Branch}
    {branches : List Branch} {kept : List Text} {reading : Option Reading} {body arms : List Text}
    (hbody : (stepLines version line body ⟨symbols, branch :: branches, kept⟩).toOption =
      reading.map (Reading.toState (branch :: branches) kept))
    (harms : ∀ symbols kept, (stepLines version (line + body.length) arms
      ⟨symbols, branch :: branches, kept⟩).toOption = some ⟨symbols, branches, kept⟩) :
    (stepLines version line (body ++ arms) ⟨symbols, branch :: branches, kept⟩).toOption =
      reading.map (Reading.toState branches kept) := by
  rw [toOption_stepLines_append, hbody]
  cases reading with
  | none => rfl
  | some reading =>
      rw [Option.map_some, Option.bind_some, Reading.toState, harms]
      rfl

mutual

private theorem stepLines_of_live {region : Region} {rows : List Text} (h : region.Spells rows)
    (line : Nat) {symbols : SymbolTable} {branches : List Branch} {kept : List Text}
    (hlive : isLive ⟨symbols, branches, kept⟩ = true) :
    (stepLines version line rows ⟨symbols, branches, kept⟩).toOption =
      (region.interpret version symbols).map (Reading.toState branches kept) := by
  cases h with
  | nil => rfl
  | @line text rest rows hline hrest =>
      have hfirst : (stepLines version line [text] ⟨symbols, branches, kept⟩).toOption =
          (symbols.readLine? text).map (Reading.toState branches kept) := by
        rw [toOption_stepLines_cons, (step_of_isOrdinary hline line _).1 hlive,
          SymbolTable.readLine?, Option.map_map]
        cases symbols.afterLine? text with
        | none => rfl
        | some after =>
            by_cases hkeeps : keeps text <;>
              simp [stepLines, hkeeps, Reading.toState, Except.toOption]
      exact stepLines_followedBy hfirst fun symbols kept => stepLines_of_live hrest _ hlive
  | @group opening test body rest arms bodyRows armRows rows hopening hbody harms hrest =>
      have hfirst : (stepLines version line (opening :: (bodyRows ++ armRows))
          ⟨symbols, branches, kept⟩).toOption =
          (do
            let taken ← test.holds? version symbols
            if taken then body.interpret version symbols else arms.interpret version symbols :
              Option Reading).map (Reading.toState branches kept) := by
        have hopened : ∀ taken, openBranch ⟨symbols, branches, kept⟩ taken line =
            ⟨symbols, .opening true taken line :: branches, kept⟩ := by
          intro taken
          rw [openBranch, hlive]
        rw [toOption_stepLines_cons, (step_of_test? hopening line _).1 hlive]
        cases htest : test.holds? version symbols with
        | none => rfl
        | some taken =>
            rw [Option.map_some, Option.bind_some, hopened]
            cases taken with
            | true =>
                exact stepLines_of_taken (stepLines_of_live hbody _ rfl) fun symbols kept =>
                  stepLines_of_skip harms _ rfl rfl
            | false =>
                rw [toOption_stepLines_append, stepLines_of_dead hbody _ rfl, Option.bind_some]
                exact stepLines_of_open harms _ rfl rfl
      have hwhole := stepLines_followedBy hfirst fun symbols kept =>
        stepLines_of_live hrest _ hlive
      rw [List.cons_append, List.append_assoc] at hwhole
      rw [hwhole, Region.interpret]
      simp only [bind_assoc]

private theorem stepLines_of_open {arms : Arms} {rows : List Text} (h : arms.Spells rows)
    (line : Nat)
    {symbols : SymbolTable} {branch : Branch} {branches : List Branch} {kept : List Text}
    (hopen : (branch.outerLive && !branch.taken) = true) (hseen : branch.seenElse = false) :
    (stepLines version line rows ⟨symbols, branch :: branches, kept⟩).toOption =
      (arms.interpret version symbols).map (Reading.toState branches kept) := by
  cases h with
  | endif hclosing =>
      rw [toOption_stepLines_cons, step_of_endif hclosing]
      rfl
  | elseArm hmark hbody hclosing =>
      rw [toOption_stepLines_cons, step_of_elseArm hmark hseen, Option.bind_some]
      refine stepLines_of_taken (stepLines_of_live hbody _ hopen) fun symbols kept => ?_
      rw [toOption_stepLines_cons, step_of_endif hclosing]
      rfl
  | @elif mark expression body arms bodyRows armRows hmark hbody harms =>
      rw [toOption_stepLines_cons, (step_of_elif hmark hseen line).1 hopen, Arms.interpret]
      cases htest : (symbols.condition version expression).toOption with
      | none => rfl
      | some taken =>
          rw [Option.map_some, Option.bind_some]
          cases taken with
          | true =>
              refine stepLines_of_taken (stepLines_of_live hbody _ rfl) fun symbols kept => ?_
              exact stepLines_of_skip harms _ (by simp) hseen
          | false =>
              rw [toOption_stepLines_append, stepLines_of_dead hbody _ rfl, Option.bind_some]
              simp only [Bool.and_eq_true] at hopen
              exact stepLines_of_open harms _ (by simp [hopen.1]) hseen

end

/-! ## From a run to a tree -/

inductive BranchStep (text : Text) : List Branch → List Branch → Prop where
  | ordinary {branches : List Branch} (hline : (SourceLine.ofText text).isOrdinary = true) :
      BranchStep text branches branches
  | opening {test : GroupTest} {branch : Branch} {branches : List Branch}
      (hopening : (SourceLine.ofText text).test? = some test) :
      BranchStep text branches (branch :: branches)
  | elif {expression : Text} {before after : Branch} {branches : List Branch}
      (hmark : SourceLine.ofText text = .elif expression) (hseen : before.seenElse = false) :
      BranchStep text (before :: branches) (after :: branches)
  | elseArm {before after : Branch} {branches : List Branch}
      (hmark : SourceLine.ofText text = .elseArm) (hseen : before.seenElse = false)
      (hafter : after.seenElse = true) : BranchStep text (before :: branches) (after :: branches)
  | endif {branch : Branch} {branches : List Branch}
      (hclosing : SourceLine.ofText text = .endif) : BranchStep text (branch :: branches) branches

private theorem branchStep_of_isOrdinary (hline : (SourceLine.ofText text).isOrdinary = true)
    (h : state.step version line text = .ok next) :
    BranchStep text state.branches next.branches := by
  obtain ⟨hlive, hdead⟩ := @step_of_isOrdinary version text hline line state
  rw [h] at hlive hdead
  cases hstate : state.isLive with
  | false =>
      cases hdead hstate
      exact .ordinary hline
  | true =>
      obtain ⟨symbols, _, hnext⟩ := Option.map_eq_some_iff.mp (hlive hstate).symm
      rw [← hnext]
      exact .ordinary hline

private theorem branchStep_of_test? {test : GroupTest}
    (hopening : (SourceLine.ofText text).test? = some test)
    (h : state.step version line text = .ok next) :
    BranchStep text state.branches next.branches := by
  obtain ⟨hlive, hdead⟩ := @step_of_test? version text test hopening line state
  rw [h] at hlive hdead
  cases hstate : state.isLive with
  | false =>
      cases hdead hstate
      exact .opening hopening
  | true =>
      obtain ⟨taken, _, hnext⟩ := Option.map_eq_some_iff.mp (hlive hstate).symm
      rw [← hnext]
      exact .opening hopening

private theorem branchStep_of_elif {expression : Text}
    (hmark : SourceLine.ofText text = .elif expression)
    (h : state.step version line text = .ok next) :
    BranchStep text state.branches next.branches := by
  obtain ⟨symbols, _ | ⟨branch, branches⟩, kept⟩ := state
  · simp [step, hmark, elif] at h
  · cases hseen : branch.seenElse with
    | true => simp [step, hmark, elif, hseen] at h
    | false =>
        obtain ⟨hopen, hskip⟩ :
            (_ → (step version line text ⟨symbols, branch :: branches, kept⟩).toOption = _) ∧
              (_ → (step version line text ⟨symbols, branch :: branches, kept⟩).toOption = _) :=
          step_of_elif hmark hseen line
        rw [h] at hopen hskip
        cases hopens : branch.outerLive && !branch.taken with
        | false =>
            cases hskip hopens
            exact .elif hmark hseen
        | true =>
            obtain ⟨taken, _, hnext⟩ := Option.map_eq_some_iff.mp (hopen hopens).symm
            rw [← hnext]
            exact .elif hmark hseen

private theorem branchStep_of_elseArm (hmark : SourceLine.ofText text = .elseArm)
    (h : state.step version line text = .ok next) :
    BranchStep text state.branches next.branches := by
  obtain ⟨symbols, _ | ⟨branch, branches⟩, kept⟩ := state
  · simp [step, hmark, elseArm] at h
  · cases hseen : branch.seenElse with
    | true => simp [step, hmark, elseArm, hseen] at h
    | false =>
        have hstep : (step version line text ⟨symbols, branch :: branches, kept⟩).toOption = _ :=
          step_of_elseArm hmark hseen line
        rw [h] at hstep
        cases hstep
        exact .elseArm hmark hseen rfl

private theorem branchStep_of_endif (hclosing : SourceLine.ofText text = .endif)
    (h : state.step version line text = .ok next) :
    BranchStep text state.branches next.branches := by
  obtain ⟨symbols, _ | ⟨branch, branches⟩, kept⟩ := state
  · simp [step, hclosing, endif] at h
  · simp [step, hclosing, endif] at h
    rw [← h]
    exact .endif hclosing

theorem branchStep_of_step (h : state.step version line text = .ok next) :
    BranchStep text state.branches next.branches := by
  cases hclass : SourceLine.ofText text with
  | text | define | undef | otherDirective =>
      exact branchStep_of_isOrdinary (by rw [hclass]; rfl) h
  | ifDefined expected name =>
      have hopening : (SourceLine.ofText text).test? = some (.isDefined expected name) := by
        rw [hclass]
        rfl
      exact branchStep_of_test? hopening h
  | ifExpression expression =>
      have hopening : (SourceLine.ofText text).test? = some (.isTrue expression) := by
        rw [hclass]
        rfl
      exact branchStep_of_test? hopening h
  | elif expression => exact branchStep_of_elif hclass h
  | elseArm => exact branchStep_of_elseArm hclass h
  | endif => exact branchStep_of_endif hclass h

/-- The lines end all groups that are open above them. -/
inductive Closes : List Branch → List Text → Prop where
  | nil {region : Region} {rows : List Text} (hregion : region.Spells rows) : Closes [] rows
  | cons {branch : Branch} {branches : List Branch} {body : Region} {arms : Arms}
      {bodyRows armRows rows : List Text} (hbody : body.Spells bodyRows)
      (harms : arms.Spells armRows) (hseen : branch.seenElse = true → arms = .endif)
      (hrest : Closes branches rows) : Closes (branch :: branches) (bodyRows ++ (armRows ++ rows))

private theorem Closes.cons_line {before after : List Branch} {rows : List Text}
    (hstep : BranchStep text before after) (h : Closes after rows) :
    Closes before (text :: rows) := by
  cases hstep with
  | ordinary hline =>
      cases h with
      | nil hregion => exact .nil (.line hline hregion)
      | cons hbody harms hseen hrest => exact .cons (.line hline hbody) harms hseen hrest
  | opening hopening =>
      cases h with
      | cons hbody harms _ hrest =>
          cases hrest with
          | nil hregion => exact .nil (.group hopening hbody harms hregion)
          | cons hregion hmore hseen hrest =>
              have hclosed := Closes.cons (.group hopening hbody harms hregion) hmore hseen hrest
              simpa using hclosed
  | elif hmark hbefore =>
      cases h with
      | cons hbody harms _ hrest =>
          have hclosed := Closes.cons .nil (.elif hmark hbody harms)
            (fun hseen => nomatch hbefore.symm.trans hseen) hrest
          simpa using hclosed
  | elseArm hmark hbefore hafter =>
      cases h with
      | cons hbody harms hseen hrest =>
          cases hseen hafter
          cases harms with
          | endif hclosing =>
              have hclosed := Closes.cons .nil (.elseArm hmark hbody hclosing)
                (fun hseen => nomatch hbefore.symm.trans hseen) hrest
              simpa using hclosed
  | endif hclosing => exact .cons .nil (.endif hclosing) (fun _ => rfl) h

private theorem closes_of_stepLines {rows : List Text}
    (h : state.stepLines version line rows = .ok final) (hfinal : final.branches = []) :
    Closes state.branches rows := by
  induction rows generalizing line state with
  | nil =>
      cases h
      rw [hfinal]
      exact .nil .nil
  | cons text rows ih =>
      obtain ⟨next, hstep, hrest⟩ := exists_step_of_stepLines h
      exact .cons_line (branchStep_of_step hstep) (ih hrest)

/-! ## Whole runs -/

private theorem runLines_eq_ok_iff {rows : List Text} {out : Text} {symbols : SymbolTable} :
    state.runLines version line rows = (.ok out, symbols) ↔
      ∃ final, (state.stepLines version line rows).toOption = some final ∧ final.branches = [] ∧
        out = Text.unlines final.kept.reverse ∧ symbols = final.symbols := by
  induction rows generalizing line state with
  | nil =>
      rw [runLines, finish]
      obtain ⟨held, _ | ⟨branch, branches⟩, kept⟩ := state
      · simp [stepLines, Except.toOption, eq_comm]
      · simp [stepLines, Except.toOption]
  | cons text rows ih =>
      rw [runLines, toOption_stepLines_cons]
      cases state.step version line text with
      | error error => simp [Except.toOption]
      | ok next => exact ih

end PassState

namespace ConditionalPass

variable {pass after : ConditionalPass} {source out : Text}

theorem run_eq_ok_iff :
    pass.run source = (.ok out, after) ↔
      ∃ final, (PassState.stepLines pass.version 1 source.lines
          (.start pass.symbols)).toOption = some final ∧ final.branches = [] ∧
        out = Text.unlines final.kept.reverse ∧ after = { pass with symbols := final.symbols } := by
  have hrun : pass.run source = (.ok out, after) ↔ ∃ symbols,
      PassState.runLines pass.version 1 source.lines (.start pass.symbols) = (.ok out, symbols) ∧
        after = { pass with symbols } := by
    unfold run
    cases PassState.runLines pass.version 1 source.lines (.start pass.symbols) with
    | mk result symbols => simp [eq_comm]
  rw [hrun]
  constructor
  · rintro ⟨symbols, hlines, rfl⟩
    obtain ⟨final, hfinal, hclosed, hout, rfl⟩ := PassState.runLines_eq_ok_iff.mp hlines
    exact ⟨final, hfinal, hclosed, hout, rfl⟩
  · rintro ⟨final, hfinal, hclosed, hout, rfl⟩
    exact ⟨final.symbols, PassState.runLines_eq_ok_iff.mpr ⟨final, hfinal, hclosed, hout, rfl⟩, rfl⟩

private theorem exists_region_of_run (h : pass.run source = (.ok out, after)) :
    ∃ region : Region, region.Spells source.lines := by
  obtain ⟨final, hfinal, hclosed, _⟩ := run_eq_ok_iff.mp h
  cases PassState.closes_of_stepLines (PassState.stepLines_eq_ok hfinal) hclosed with
  | nil hregion => exact ⟨_, hregion⟩

theorem run_eq_ok_iff_of_spells {region : Region} (h : region.Spells source.lines) :
    pass.run source = (.ok out, after) ↔
      ∃ reading, region.interpret pass.version pass.symbols = some reading ∧
        out = Text.unlines reading.kept ∧ after = { pass with symbols := reading.symbols } := by
  have hlive : PassState.isLive ⟨pass.symbols, [], []⟩ = true := rfl
  rw [run_eq_ok_iff, PassState.start, PassState.stepLines_of_live h 1 hlive]
  constructor
  · rintro ⟨final, hfinal, _, rfl, rfl⟩
    obtain ⟨reading, hreading, rfl⟩ := Option.map_eq_some_iff.mp hfinal
    exact ⟨reading, hreading, by simp [Reading.toState], rfl⟩
  · rintro ⟨reading, hreading, rfl, rfl⟩
    refine ⟨reading.toState [] [], ?_, rfl, by simp [Reading.toState], rfl⟩
    rw [hreading, Option.map_some]

/-- A run succeeds exactly on the sources that have a tree in which everything that is
reached is valid, and its lines and its symbols are then those of the interpreter. -/
theorem run_ok_iff_interpret (pass : ConditionalPass) (source : Text) :
    ((∃ out, (pass.run source).1 = .ok out) ↔
      ∃ region : Region, region.Spells source.lines ∧
        (region.interpret pass.version pass.symbols).isSome) ∧
    ∀ region : Region, region.Spells source.lines → ∀ out after,
      pass.run source = (.ok out, after) ↔
        ∃ reading, region.interpret pass.version pass.symbols = some reading ∧
          out = Text.unlines reading.kept ∧ after = { pass with symbols := reading.symbols } := by
  refine ⟨⟨?_, ?_⟩, fun region hregion out after => run_eq_ok_iff_of_spells hregion⟩
  · rintro ⟨out, hout⟩
    have hrun : pass.run source = (.ok out, (pass.run source).2) := by rw [← hout]
    obtain ⟨region, hregion⟩ := exists_region_of_run hrun
    obtain ⟨reading, hreading, _⟩ := (run_eq_ok_iff_of_spells hregion).mp hrun
    exact ⟨region, hregion, by rw [hreading]; rfl⟩
  · rintro ⟨region, hregion, hsome⟩
    obtain ⟨reading, hreading⟩ := Option.isSome_iff_exists.mp hsome
    have hrun := (run_eq_ok_iff_of_spells hregion).mpr ⟨reading, hreading, rfl, rfl⟩
    exact ⟨_, congrArg Prod.fst hrun⟩

def nestedSource : Text := Text.unlines (["#define A", "#ifndef A", "#if 1 / 0", "#endif", "#else",
  "#undef A", "#endif", "#ifndef A", "x", "#elif 1 / 0", "#endif"].map String.toList)

def nestedRegion : Region :=
  .line "#define A".toList
    (.group (.isDefined false (some ['A'])) (.group (.isTrue "1 / 0".toList) .nil .endif .nil)
      (.elseArm (.line "#undef A".toList .nil))
      (.group (.isDefined false (some ['A'])) (.line ['x'] .nil)
        (.elif "1 / 0".toList .nil .endif) .nil))

private theorem spells_nestedRegion : nestedRegion.Spells nestedSource.lines := by
  have hclosing : SourceLine.ofText "#endif".toList = .endif := by decide
  have hinner : Region.Spells (.group (.isTrue "1 / 0".toList) .nil .endif .nil)
      ["#if 1 / 0".toList, "#endif".toList] :=
    .group (by decide) .nil (.endif hclosing) .nil
  have helse : Arms.Spells (.elseArm (.line "#undef A".toList .nil))
      ["#else".toList, "#undef A".toList, "#endif".toList] :=
    .elseArm (by decide) (.line (by decide) .nil) hclosing
  have hsecond : Region.Spells (.group (.isDefined false (some ['A'])) (.line ['x'] .nil)
      (.elif "1 / 0".toList .nil .endif) .nil)
      ["#ifndef A".toList, ['x'], "#elif 1 / 0".toList, "#endif".toList] :=
    .group (by decide) (.line (by decide) .nil) (.elif (by decide) .nil (.endif hclosing)) .nil
  have hlines : nestedSource.lines = "#define A".toList :: "#ifndef A".toList ::
      (["#if 1 / 0".toList, "#endif".toList] ++
        (["#else".toList, "#undef A".toList, "#endif".toList] ++
          ["#ifndef A".toList, ['x'], "#elif 1 / 0".toList, "#endif".toList])) := by
    decide +kernel
  rw [hlines]
  exact .line (by decide) (.group (by decide) hinner helse hsecond)

theorem run_ok_iff_interpret_nestedSource :
    nestedRegion.Spells nestedSource.lines ∧
    (ofVersion .es100).run nestedSource =
      (.ok "#define A\n#undef A\nx".toList, ofVersion .es100) := by
  have hreading : nestedRegion.interpret (ofVersion .es100).version (ofVersion .es100).symbols =
      some ⟨["#define A".toList, "#undef A".toList, ['x']], (ofVersion .es100).symbols⟩ := by
    decide +kernel
  have hrun := (run_ok_iff_interpret (ofVersion .es100) nestedSource).2 nestedRegion
    spells_nestedRegion
  exact ⟨spells_nestedRegion, (hrun _ _).mpr ⟨_, hreading, by decide, rfl⟩⟩

end ConditionalPass

end GlslCompose
