import GlslCompose.Proofs.Condition.Group
import GlslCompose.Proofs.Outcome

/-!
# Lines that a pass does not tell apart

A pass looks at conditions and at the values of macros only as the expressions that they are
read as.  Two lines that differ in nothing else lead it from states that are alike to states
that are alike, or fail both.
-/

namespace GlslCompose

/-- What an expression is read as, if it is one. -/
def readExpression? (version : GlslVersion) (expression : Text) : Option Expr :=
  (Expr.parse (SymbolTable.expressionTokens version expression)).toOption

@[simp] theorem toOption_bind {ε α β : Type} (outcome : Except ε α) (next : α → Except ε β) :
    (outcome >>= next).toOption = outcome.toOption.bind fun value => (next value).toOption := by
  cases outcome <;> rfl

private theorem Expr.toOption_eval_congr {valueOf other : Text → Except ExpressionFault Int64}
    (h : ∀ word, (valueOf word).toOption = (other word).toOption) (isDefined : Text → Bool)
    (expr : Expr) : (expr.eval valueOf isDefined).toOption =
      (expr.eval other isDefined).toOption := by
  induction expr with
  | literal value => rfl
  | name word => exact h word
  | defined word => rfl
  | unary op operand ih => rw [eval, eval, toOption_bind, toOption_bind, ih]
  | binary op left right ihLeft ihRight =>
      rw [eval, eval, toOption_bind, toOption_bind, ihLeft]
      congr 1
      funext first
      split
      · rfl
      split
      · rfl
      · rw [toOption_bind, toOption_bind, ihRight]

namespace SymbolTable

variable {version : GlslVersion} {first second : SymbolTable}

/-- The same names are defined, and their values are read as the same expressions. -/
def Alike (version : GlslVersion) (first second : SymbolTable) : Prop :=
  ∀ name, (first.get? name).map (readExpression? version) =
    (second.get? name).map (readExpression? version)

theorem Alike.refl (version : GlslVersion) (symbols : SymbolTable) :
    symbols.Alike version symbols := fun _ => rfl

theorem Alike.contains_eq (h : first.Alike version second) : first.contains = second.contains := by
  funext name
  have hname := congrArg Option.isSome (h name)
  simpa [Table.contains] using hname

theorem Alike.insert (h : first.Alike version second) {name value other : Text}
    (hvalue : readExpression? version value = readExpression? version other) :
    Alike version (first.insert name value) (second.insert name other) := by
  intro key
  rw [Table.get?_insert, Table.get?_insert]
  split
  · exact congrArg some hvalue
  · exact h key

theorem Alike.erase (h : first.Alike version second) (name : Text) :
    Alike version (first.erase name) (second.erase name) := by
  intro key
  rw [Table.get?_erase, Table.get?_erase]
  split
  · rfl
  · exact h key

private theorem Alike.toOption_valueOf (h : first.Alike version second) (depth : Nat)
    (word : Text) :
    (first.valueOf version depth word).toOption = (second.valueOf version depth word).toOption := by
  induction depth generalizing word with
  | zero =>
      rw [valueOf, valueOf, h.contains_eq]
  | succ depth ih =>
      have hword := h word
      rw [valueOf, valueOf]
      cases hfirst : first.get? word with
      | none =>
          rw [hfirst, Option.map_none, eq_comm, Option.map_eq_none_iff] at hword
          rw [hword]
      | some value =>
          rw [hfirst, Option.map_some, eq_comm, Option.map_eq_some_iff] at hword
          obtain ⟨other, hother, hread⟩ := hword
          rw [hother]
          rw [toOption_bind, toOption_bind]
          unfold readExpression? at hread
          rw [hread, h.contains_eq]
          congr 1
          funext expr
          exact Expr.toOption_eval_congr ih _ expr

theorem Alike.toOption_evaluate (h : first.Alike version second) {expression other : Text}
    (hread : readExpression? version expression = readExpression? version other) :
    (first.evaluate version expression).toOption = (second.evaluate version other).toOption := by
  unfold readExpression? at hread
  rw [evaluate, evaluate, toOption_bind, toOption_bind, hread, h.contains_eq]
  congr 1
  funext expr
  exact Expr.toOption_eval_congr (h.toOption_valueOf maxExpansionDepth) _ expr

theorem Alike.toOption_condition (h : first.Alike version second) {expression other : Text}
    (hread : readExpression? version expression = readExpression? version other) :
    (first.condition version expression).toOption = (second.condition version other).toOption := by
  rw [condition, condition, toOption_bind, toOption_bind, h.toOption_evaluate hread]

end SymbolTable

/-! ## Alike lines -/

inductive SourceLine.Alike (version : GlslVersion) : SourceLine → SourceLine → Prop where
  | same (line : SourceLine) : Alike version line line
  | ifExpression {first second : Text}
      (h : readExpression? version first = readExpression? version second) :
      Alike version (.ifExpression first) (.ifExpression second)
  | elif {first second : Text}
      (h : readExpression? version first = readExpression? version second) :
      Alike version (.elif first) (.elif second)
  | define (name : Text) {first second : Text}
      (h : readExpression? version first = readExpression? version second) :
      Alike version (.define (some (name, first))) (.define (some (name, second)))

def Branch.unplaced (branch : Branch) : Branch := { branch with line := 0 }

namespace PassState

variable {version : GlslVersion} {state other : PassState} {text row : Text} {line number : Nat}

/-- The states are the same up to what is kept, the places of the groups and macro values
that are read as the same expression. -/
structure Alike (version : GlslVersion) (state other : PassState) : Prop where
  symbols : state.symbols.Alike version other.symbols
  branches : state.branches.map Branch.unplaced = other.branches.map Branch.unplaced

theorem Alike.branches_cases (h : state.Alike version other) :
    (state.branches = [] ∧ other.branches = []) ∨
    ∃ branch place rest others, state.branches = { branch with line := place } :: rest ∧
      other.branches = branch :: others ∧
      rest.map Branch.unplaced = others.map Branch.unplaced := by
  have hbranches := h.branches
  cases hstate : state.branches with
  | nil =>
      rw [hstate, List.map_nil, eq_comm, List.map_eq_nil_iff] at hbranches
      exact .inl ⟨rfl, hbranches⟩
  | cons branch rest =>
      rw [hstate, List.map_cons, eq_comm, List.map_eq_cons_iff] at hbranches
      obtain ⟨twin, others, hother, hbranch, hrest⟩ := hbranches
      have heq : branch = { twin with line := branch.line } := by
        obtain ⟨houter, htaken, hlive, hseen, -⟩ := Branch.mk.inj hbranch
        rw [houter, htaken, hlive, hseen]
      exact .inr ⟨twin, branch.line, rest, others, by rw [← heq], hother, hrest.symm⟩

theorem Alike.isLive_eq (h : state.Alike version other) : state.isLive = other.isLive := by
  unfold isLive
  rcases h.branches_cases with ⟨hstate, hother⟩ | ⟨branch, place, rest, others, hstate, hother, -⟩
  · rw [hstate, hother]
  · rw [hstate, hother]

theorem Alike.openBranch (h : state.Alike version other) (condition : Bool) (line number : Nat) :
    Alike version (state.openBranch condition line) (other.openBranch condition number) := by
  refine ⟨h.symbols, ?_⟩
  unfold PassState.openBranch
  rw [List.map_cons, List.map_cons, h.branches, h.isLive_eq]
  rfl

theorem Alike.withKept (h : state.Alike version other) (first second : List Text) :
    Alike version { state with kept := first } { other with kept := second } :=
  ⟨h.symbols, h.branches⟩

/-! ## Alike steps -/

abbrev StepsAlike (version : GlslVersion) (first second : Except ComposeError PassState) : Prop :=
  Concur AnyFault (Alike version) first second

private theorem Alike.stepsAlike_ifDefined (h : state.Alike version other) (line number : Nat)
    (expected : Bool) (name : Option Text) :
    StepsAlike version (state.ifDefined line expected name)
      (other.ifDefined number expected name) := by
  unfold ifDefined
  rw [h.isLive_eq, h.symbols.contains_eq]
  split
  · cases name with
    | none => exact .error trivial
    | some name => exact .ok (h.openBranch _ line number)
  · exact .ok (h.openBranch false line number)

private theorem Alike.stepsAlike_condition (h : state.Alike version other) {first second : Text}
    (hread : readExpression? version first = readExpression? version second) (line number : Nat)
    {next after : Bool → PassState} (hnext : ∀ value, Alike version (next value) (after value)) :
    StepsAlike version (do return next (← state.condition version line first))
      (do return after (← other.condition version number second)) := by
  refine Concur.of_rel_toOption ?_
  rw [toOption_bind, toOption_bind, PassState.toOption_condition, PassState.toOption_condition,
    h.symbols.toOption_condition hread]
  cases (other.symbols.condition version second).toOption with
  | none => exact .none
  | some value => exact .some (hnext value)

private theorem Alike.stepsAlike_ifExpression (h : state.Alike version other) {first second : Text}
    (hread : readExpression? version first = readExpression? version second)
    (line number : Nat) :
    StepsAlike version (state.ifExpression version line first)
      (other.ifExpression version number second) := by
  unfold ifExpression
  rw [h.isLive_eq]
  split
  · exact h.stepsAlike_condition hread line number fun value => h.openBranch value line number
  · exact .ok (h.openBranch false line number)

private theorem Alike.withBranches (h : state.Alike version other) {rest others : List Branch}
    (hrest : rest.map Branch.unplaced = others.map Branch.unplaced) (branch : Branch)
    (place : Nat) : Alike version { state with branches := { branch with line := place } :: rest }
      { other with branches := branch :: others } := by
  refine ⟨h.symbols, ?_⟩
  rw [List.map_cons, List.map_cons, hrest]
  rfl

private theorem Alike.stepsAlike_elif (h : state.Alike version other) {first second : Text}
    (hread : readExpression? version first = readExpression? version second)
    (line number : Nat) :
    StepsAlike version (state.elif version line first) (other.elif version number second) := by
  unfold elif
  rcases h.branches_cases with ⟨hstate, hother⟩ |
    ⟨branch, place, rest, others, hstate, hother, hrest⟩
  · rw [hstate, hother]
    exact .error trivial
  · rw [hstate, hother]
    dsimp only
    split
    · exact .error trivial
    split
    · exact h.stepsAlike_condition hread line number fun value =>
        h.withBranches hrest { branch with live := value, taken := value } place
    · exact .ok (h.withBranches hrest { branch with live := false } place)

private theorem Alike.stepsAlike_elseArm (h : state.Alike version other) (line number : Nat) :
    StepsAlike version (state.elseArm line) (other.elseArm number) := by
  unfold elseArm
  rcases h.branches_cases with ⟨hstate, hother⟩ |
    ⟨branch, place, rest, others, hstate, hother, hrest⟩
  · rw [hstate, hother]
    exact .error trivial
  · rw [hstate, hother]
    dsimp only
    split
    · exact .error trivial
    · exact .ok (h.withBranches hrest branch.intoElse place)

private theorem Alike.stepsAlike_endif (h : state.Alike version other) (line number : Nat) :
    StepsAlike version (state.endif line) (other.endif number) := by
  unfold endif
  rcases h.branches_cases with ⟨hstate, hother⟩ |
    ⟨branch, place, rest, others, hstate, hother, hrest⟩
  · rw [hstate, hother]
    exact .error trivial
  · rw [hstate, hother]
    exact .ok ⟨h.symbols, hrest⟩

private theorem Alike.stepsAlike_define (h : state.Alike version other) (name : Text)
    {first second : Text} (hread : readExpression? version first = readExpression? version second)
    (line number : Nat) :
    StepsAlike version (state.define line (some (name, first)))
      (other.define number (some (name, second))) :=
  .ok ⟨h.symbols.insert hread, h.branches⟩

theorem Alike.undef (h : state.Alike version other) (name : Option Text) :
    Alike version (state.undef name) (other.undef name) := by
  cases name with
  | none => exact h
  | some name => exact ⟨h.symbols.erase name, h.branches⟩

private theorem Alike.keepIf (h : state.Alike version other) (first second : Prop) [Decidable first]
    [Decidable second] (text row : Text) :
    Alike version (if first then state.keep text else state)
      (if second then other.keep row else other) := by
  split <;> split <;> exact ⟨h.symbols, h.branches⟩

private theorem stepsAlike_map_keep {first second : Except ComposeError PassState}
    (h : StepsAlike version first second) (text row : Text) :
    StepsAlike version (first.map fun state => state.keep text)
      (second.map fun state => state.keep row) :=
  h.map fun _ _ halike => ⟨halike.symbols, halike.branches⟩

private theorem Alike.stepsAlike_liveDefine (h : state.Alike version other)
    {first second : Option (Text × Text)} (line number : Nat)
    (hdefine : StepsAlike version (state.define line first) (other.define number second)) :
    StepsAlike version
      (if state.isLive then (state.define line first).map fun state => state.keep text
        else .ok state)
      (if other.isLive then (other.define number second).map fun state => state.keep row
        else .ok other) := by
  rw [h.isLive_eq]
  split
  · exact stepsAlike_map_keep hdefine text row
  · exact .ok h

theorem Alike.stepsAlike (h : state.Alike version other)
    (hline : (SourceLine.ofText text).Alike version (SourceLine.ofText row)) (line number : Nat) :
    StepsAlike version (state.step version line text) (other.step version number row) := by
  unfold step
  generalize SourceLine.ofText text = first at hline ⊢
  generalize SourceLine.ofText row = second at hline ⊢
  cases hline with
  | ifExpression hread => exact h.stepsAlike_ifExpression hread line number
  | elif hread => exact h.stepsAlike_elif hread line number
  | define name hread =>
      exact h.stepsAlike_liveDefine line number (h.stepsAlike_define name hread line number)
  | same =>
      cases first with
      | ifDefined expected name => exact h.stepsAlike_ifDefined line number expected name
      | ifExpression expression => exact h.stepsAlike_ifExpression rfl line number
      | elif expression => exact h.stepsAlike_elif rfl line number
      | elseArm => exact h.stepsAlike_elseArm line number
      | endif => exact h.stepsAlike_endif line number
      | define definition =>
          refine h.stepsAlike_liveDefine line number ?_
          cases definition with
          | none => exact .error trivial
          | some definition => exact h.stepsAlike_define definition.1 rfl line number
      | undef name =>
          have hundef := h.undef name
          dsimp only
          rw [h.isLive_eq]
          split
          · exact .ok ⟨hundef.symbols, hundef.branches⟩
          · exact .ok h
      | text => exact .ok (h.keepIf _ _ text row)
      | otherDirective => exact .ok (h.keepIf _ _ text row)

end PassState

end GlslCompose
