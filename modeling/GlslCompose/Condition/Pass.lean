import GlslCompose.Condition.Eval
import GlslCompose.Condition.Line

/-!
# Conditional groups

The pass goes through a source line by line and keeps the lines of live regions.
Directives that open, continue or close groups are dropped, and so are blank
lines.  `#define` and `#undef` lines of live regions change the symbol table and
are kept.  Nothing in a region that is not live is evaluated.
-/

namespace GlslCompose

/-- An open group: whether the region around it is live, whether one of its arms
has been taken, whether the present arm is live, and where it was opened. -/
structure Branch where
  outerLive : Bool
  taken : Bool
  live : Bool
  seenElse : Bool
  line : Nat
deriving DecidableEq, Repr

namespace Branch

def opening (outerLive condition : Bool) (line : Nat) : Branch where
  outerLive := outerLive
  taken := condition
  live := outerLive && condition
  seenElse := false
  line := line

end Branch

structure PassState where
  symbols : SymbolTable
  /-- The open groups, the innermost first. -/
  branches : List Branch
  /-- The lines kept so far, the last one first. -/
  kept : List Text
deriving DecidableEq, Repr

namespace PassState

def start (symbols : SymbolTable) : PassState := { symbols, branches := [], kept := [] }

def isLive (state : PassState) : Bool :=
  match state.branches with
  | [] => true
  | branch :: _ => branch.live

def keep (state : PassState) (line : Text) : PassState :=
  { state with kept := line :: state.kept }

def openBranch (state : PassState) (condition : Bool) (line : Nat) : PassState :=
  { state with branches := .opening state.isLive condition line :: state.branches }

def ifDefined (state : PassState) (line : Nat) (expected : Bool) (name : Option Text) :
    Except ComposeError PassState :=
  if state.isLive then
    match name with
    | some name => .ok (state.openBranch (state.symbols.contains name == expected) line)
    | none =>
        .error (.directive line (.missingName
          (if expected then SourceLine.ifdefName else SourceLine.ifndefName)))
  else .ok (state.openBranch false line)

def condition (state : PassState) (version : GlslVersion) (line : Nat) (expression : Text) :
    Except ComposeError Bool :=
  match state.symbols.condition version expression with
  | .ok value => .ok value
  | .error fault => .error (.expression line fault)

def ifExpression (state : PassState) (version : GlslVersion) (line : Nat) (expression : Text) :
    Except ComposeError PassState :=
  if state.isLive then do
    let condition ← state.condition version line expression
    return state.openBranch condition line
  else .ok (state.openBranch false line)

/-- An `#elif`, whose expression is evaluated only if its arm can still be taken. -/
def elif (state : PassState) (version : GlslVersion) (line : Nat) (expression : Text) :
    Except ComposeError PassState :=
  match state.branches with
  | [] => .error (.directive line .elifWithoutIf)
  | branch :: branches =>
      if branch.seenElse then .error (.directive line .elifAfterElse)
      else if branch.outerLive && !branch.taken then do
        let condition ← state.condition version line expression
        return { state with
          branches := { branch with live := condition, taken := condition } :: branches }
      else .ok { state with branches := { branch with live := false } :: branches }

def elseArm (state : PassState) (line : Nat) : Except ComposeError PassState :=
  match state.branches with
  | [] => .error (.directive line .elseWithoutIf)
  | branch :: branches =>
      if branch.seenElse then .error (.directive line .duplicateElse)
      else
        let live := branch.outerLive && !branch.taken
        .ok { state with
          branches := { branch with live, taken := true, seenElse := true } :: branches }

def endif (state : PassState) (line : Nat) : Except ComposeError PassState :=
  match state.branches with
  | [] => .error (.directive line .endifWithoutIf)
  | _ :: branches => .ok { state with branches }

def define (state : PassState) (line : Nat) (definition : Option (Text × Text)) :
    Except ComposeError PassState :=
  match definition with
  | none => .error (.directive line (.missingName Directive.defineName))
  | some (name, value) => .ok { state with symbols := state.symbols.insert name value }

def undef (state : PassState) (name : Option Text) : PassState :=
  match name with
  | none => state
  | some name => { state with symbols := state.symbols.erase name }

def step (version : GlslVersion) (line : Nat) (text : Text) (state : PassState) :
    Except ComposeError PassState :=
  match SourceLine.ofText text with
  | .ifDefined expected name => state.ifDefined line expected name
  | .ifExpression expression => state.ifExpression version line expression
  | .elif expression => state.elif version line expression
  | .elseArm => state.elseArm line
  | .endif => state.endif line
  | .define definition =>
      if state.isLive then (state.define line definition).map fun state => state.keep text
      else .ok state
  | .undef name => .ok (if state.isLive then (state.undef name).keep text else state)
  | .text => .ok (if state.isLive ∧ ¬text.IsBlankLine then state.keep text else state)
  | .otherDirective => .ok (if state.isLive then state.keep text else state)

def finish (state : PassState) : Except ComposeError Text :=
  match state.branches with
  | [] => .ok (Text.unlines state.kept.reverse)
  | branch :: _ => .error (.directive branch.line .unterminated)

/-- Goes through numbered lines.  The symbol table is returned also when a line
fails, as it was before that line. -/
def runLines (version : GlslVersion) (line : Nat) :
    List Text → PassState → Except ComposeError Text × SymbolTable
  | [], state => (state.finish, state.symbols)
  | text :: texts, state =>
      match state.step version line text with
      | .error error => (.error error, state.symbols)
      | .ok state => runLines version (line + 1) texts state

end PassState

structure ConditionalPass where
  version : GlslVersion
  symbols : SymbolTable
deriving DecidableEq, Repr

namespace ConditionalPass

def ofVersion (version : GlslVersion) : ConditionalPass where
  version := version
  symbols := (Table.empty.insert "GL_ES".toList ['1']).insert "__VERSION__".toList
    (Text.ofNat version.number)

def define (pass : ConditionalPass) (name value : Text) : ConditionalPass :=
  { pass with symbols := pass.symbols.insert name value }

def defineAll (pass : ConditionalPass) (definitions : List (Text × Text)) : ConditionalPass :=
  definitions.foldl (fun pass (name, value) => pass.define name value) pass

def isDefined (pass : ConditionalPass) (name : Text) : Bool := pass.symbols.contains name

def run (pass : ConditionalPass) (source : Text) :
    Except ComposeError Text × ConditionalPass :=
  let (result, symbols) :=
    PassState.runLines pass.version 1 source.lines (.start pass.symbols)
  (result, { pass with symbols })

end ConditionalPass

end GlslCompose
