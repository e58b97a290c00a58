import GlslCompose.Proofs.Condition.Grammar
import GlslCompose.Proofs.Condition.Levels
import Mathlib.Data.List.Chain

/-!
# Macros within macros

The value of a macro is an expression again, which may name further macros, and the macro
itself among them.  Evaluation ends nevertheless.  It is too deep exactly where it comes to a chain
of more than sixteen macros, each one in the value of the one before it, and a macro that comes
up in its own expansion begins chains of any length.  What `&&` and `||` skip is in no chain.
-/

namespace GlslCompose

namespace SymbolTable

/-- The value of the first macro names the second one, outside of `defined`. -/
def Mentions (symbols : SymbolTable) (version : GlslVersion) (word next : Text) : Prop :=
  ∃ text expr, symbols.get? word = some text ∧
    Expr.parse (expressionTokens version text) = .ok expr ∧ next ∈ expr.names

/-- The chain begins with a name of the expression, and every macro of it mentions the next. -/
structure IsMentionChain (symbols : SymbolTable) (version : GlslVersion) (expr : Expr)
    (chain : List Text) : Prop where
  head : ∃ word ∈ expr.names, chain.head? = some word
  steps : chain.IsChain (symbols.Mentions version)
  contained : ∀ word ∈ chain, symbols.contains word = true

end SymbolTable

open SymbolTable

namespace Expr

variable {symbols : SymbolTable} {version : GlslVersion}

/-! ## Chains of macros -/

/-- Evaluation of the expression comes to the macros of the chain, each one in the value of the
one before it.  To the right operand it comes only if the left one does not decide. -/
inductive Expands (symbols : SymbolTable) (version : GlslVersion) : Expr → List Text → Prop where
  | here {word text : Text} (hword : symbols.get? word = some text) :
      Expands symbols version (.name word) [word]
  | inside {word text : Text} {expr : Expr} {chain : List Text}
      (hword : symbols.get? word = some text)
      (hread : parse (expressionTokens version text) = .ok expr)
      (h : Expands symbols version expr chain) :
      Expands symbols version (.name word) (word :: chain)
  | operand {op : UnaryOp} {operand : Expr} {chain : List Text}
      (h : Expands symbols version operand chain) :
      Expands symbols version (.unary op operand) chain
  | left {op : BinaryOp} {left right : Expr} {chain : List Text}
      (h : Expands symbols version left chain) :
      Expands symbols version (.binary op left right) chain
  | right {op : BinaryOp} {left right : Expr} {first : Int64} {chain : List Text}
      (hleft : left.HasValue symbols version first) (hopen : ¬op.Decides first)
      (h : Expands symbols version right chain) :
      Expands symbols version (.binary op left right) chain

private theorem Expands.isTooDeep {expr : Expr} {chain : List Text}
    (h : expr.Expands symbols version chain) {levels : Nat} (hlevels : levels < chain.length) :
    IsTooDeep (expr.evalWithin symbols version levels) := by
  induction h generalizing levels with
  | @here word text hword =>
      obtain rfl : levels = 0 := by simpa using hlevels
      exact isTooDeep_zero version hword
  | @inside word text expr chain hword hread _ ih =>
      cases levels with
      | zero => exact isTooDeep_zero version hword
      | succ levels =>
          exact isTooDeep_valueOf_succ_iff.mpr
            ⟨text, expr, hword, hread, ih (Nat.lt_of_succ_lt_succ hlevels)⟩
  | operand _ ih => exact isTooDeep_unary_iff.mpr (ih hlevels)
  | left _ ih => exact isTooDeep_binary_iff.mpr (.inl (ih hlevels))
  | right hleft hopen _ ih =>
      rcases hleft.evalWithin_cases levels with hfirst | hdeep
      · exact isTooDeep_binary_iff.mpr (.inr ⟨_, hfirst, hopen, ih hlevels⟩)
      · exact isTooDeep_binary_iff.mpr (.inl hdeep)

private theorem exists_expands_of_words {levels : Nat}
    (hwords : ∀ word, IsTooDeep (symbols.valueOf version levels word) →
      ∃ chain, Expands symbols version (.name word) chain ∧ levels < chain.length)
    {expr : Expr} (h : IsTooDeep (expr.evalWithin symbols version levels)) :
    ∃ chain, expr.Expands symbols version chain ∧ levels < chain.length := by
  induction expr with
  | literal value => exact absurd h (not_isTooDeep_ok _)
  | name word => exact hwords word h
  | defined word => exact absurd h (not_isTooDeep_ok _)
  | unary op operand ih =>
      obtain ⟨chain, hchain, hlength⟩ := ih (isTooDeep_unary_iff.mp h)
      exact ⟨chain, .operand hchain, hlength⟩
  | binary op left right ihLeft ihRight =>
      rcases isTooDeep_binary_iff.mp h with hleft | ⟨first, hfirst, hopen, hright⟩
      · obtain ⟨chain, hchain, hlength⟩ := ihLeft hleft
        exact ⟨chain, .left hchain, hlength⟩
      · obtain ⟨chain, hchain, hlength⟩ := ihRight hright
        exact ⟨chain, .right ⟨levels, hfirst⟩ hopen hchain, hlength⟩

private theorem exists_expands_of_isTooDeep {levels : Nat} {expr : Expr}
    (h : IsTooDeep (expr.evalWithin symbols version levels)) :
    ∃ chain, expr.Expands symbols version chain ∧ levels < chain.length := by
  induction levels generalizing expr with
  | zero =>
      refine exists_expands_of_words (fun word hword => ?_) h
      obtain ⟨text, htext⟩ := Option.isSome_iff_exists.mp (isTooDeep_valueOf_zero_iff.mp hword)
      exact ⟨[word], .here htext, Nat.zero_lt_one⟩
  | succ levels ih =>
      refine exists_expands_of_words (fun word hword => ?_) h
      obtain ⟨text, expr, htext, hread, hdeep⟩ := isTooDeep_valueOf_succ_iff.mp hword
      obtain ⟨chain, hchain, hlength⟩ := ih hdeep
      exact ⟨word :: chain, .inside htext hread hchain, Nat.succ_lt_succ hlength⟩

/-- The levels are too few exactly for the chains that are longer. -/
theorem isTooDeep_evalWithin_iff {levels : Nat} {expr : Expr} :
    IsTooDeep (expr.evalWithin symbols version levels) ↔
      ∃ chain, expr.Expands symbols version chain ∧ levels < chain.length :=
  ⟨exists_expands_of_isTooDeep, fun ⟨_, hchain, hlength⟩ => hchain.isTooDeep hlength⟩

/-! ## Macros within themselves -/

theorem Expands.of_append {expr : Expr} {before after : List Text} {word : Text}
    (h : expr.Expands symbols version (before ++ word :: after)) :
    Expands symbols version (.name word) (word :: after) := by
  generalize hchain : before ++ word :: after = chain at h
  induction h generalizing before with
  | @here other text hword =>
      obtain ⟨rfl, hlast⟩ | ⟨_, _, hnil⟩ := List.append_eq_cons_iff.mp hchain
      · cases hlast
        exact .here hword
      · simp at hnil
  | @inside other text expr chain hword hread h ih =>
      obtain ⟨rfl, hlast⟩ | ⟨more, rfl, hmore⟩ := List.append_eq_cons_iff.mp hchain
      · cases hlast
        exact .inside hword hread h
      · exact ih hmore.symm
  | operand _ ih => exact ih hchain
  | left _ ih => exact ih hchain
  | right _ _ _ ih => exact ih hchain

private theorem Expands.graft {expr : Expr} {before after other : List Text} {word : Text}
    (h : expr.Expands symbols version (before ++ word :: after))
    (hword : Expands symbols version (.name word) (word :: other)) :
    expr.Expands symbols version (before ++ word :: other) := by
  generalize hchain : before ++ word :: after = chain at h
  induction h generalizing before with
  | @here first text hfirst =>
      obtain ⟨rfl, hlast⟩ | ⟨_, _, hnil⟩ := List.append_eq_cons_iff.mp hchain
      · cases hlast
        exact hword
      · simp at hnil
  | @inside first text expr chain hfirst hread _ ih =>
      obtain ⟨rfl, hlast⟩ | ⟨more, rfl, hmore⟩ := List.append_eq_cons_iff.mp hchain
      · cases hlast
        exact hword
      · exact .inside hfirst hread (ih hmore.symm)
  | operand _ ih => exact .operand (ih hchain)
  | left _ ih => exact .left (ih hchain)
  | right hleft hopen _ ih => exact .right hleft hopen (ih hchain)

private theorem exists_expands_word {word : Text} {within after : List Text}
    (h : Expands symbols version (.name word) (word :: (within ++ word :: after))) (count : Nat) :
    ∃ tail, Expands symbols version (.name word) (word :: tail) ∧ count ≤ tail.length := by
  induction count with
  | zero => exact ⟨_, h, Nat.zero_le _⟩
  | succ count ih =>
      obtain ⟨tail, htail, hlength⟩ := ih
      refine ⟨within ++ word :: tail, ?_, ?_⟩
      · have hcycle : Expands symbols version (.name word)
            ((word :: within) ++ word :: after) := h
        exact hcycle.graft htail
      · rw [List.length_append, List.length_cons]
        omega

private theorem exists_repeated_of_not_nodup {chain : List Text} (h : ¬chain.Nodup) :
    ∃ before word within after, chain = before ++ word :: (within ++ word :: after) := by
  induction chain with
  | nil => exact absurd List.nodup_nil h
  | cons first chain ih =>
      rw [List.nodup_cons, not_and_or, not_not] at h
      rcases h with hmem | hrest
      · obtain ⟨within, after, rfl⟩ := List.append_of_mem hmem
        exact ⟨[], first, within, after, rfl⟩
      · obtain ⟨before, word, within, after, rfl⟩ := ih hrest
        exact ⟨first :: before, word, within, after, rfl⟩

private theorem Expands.exists_longer {expr : Expr} {chain : List Text}
    (h : expr.Expands symbols version chain) (hrepeated : ¬chain.Nodup) (count : Nat) :
    ∃ longer, expr.Expands symbols version longer ∧ count < longer.length := by
  obtain ⟨before, word, within, after, rfl⟩ := exists_repeated_of_not_nodup hrepeated
  obtain ⟨tail, htail, hlength⟩ := exists_expands_word h.of_append count
  refine ⟨before ++ word :: tail, h.graft htail, ?_⟩
  rw [List.length_append, List.length_cons]
  omega

/-! ## What the chains are made of -/

private theorem Expands.isMentionChain {expr : Expr} {chain : List Text}
    (h : expr.Expands symbols version chain) : symbols.IsMentionChain version expr chain := by
  have hcontains : ∀ {word text : Text}, symbols.get? word = some text →
      symbols.contains word = true := fun h => Option.isSome_iff_exists.mpr ⟨_, h⟩
  induction h with
  | @here word text hword =>
      refine ⟨⟨word, List.mem_cons_self, rfl⟩, .singleton word, fun other hmem => ?_⟩
      rw [List.mem_singleton.mp hmem]
      exact hcontains hword
  | @inside word text expr chain hword hread _ ih =>
      obtain ⟨⟨next, hnext, hhead⟩, hsteps, hchain⟩ := ih
      refine ⟨⟨word, List.mem_cons_self, rfl⟩, ?_, fun other hmem => ?_⟩
      · refine List.isChain_cons.mpr ⟨fun other hother => ?_, hsteps⟩
        rw [hhead] at hother
        cases hother
        exact ⟨text, expr, hword, hread, hnext⟩
      · rcases List.mem_cons.mp hmem with rfl | hmem
        · exact hcontains hword
        · exact hchain other hmem
  | operand _ ih => exact ⟨ih.head, ih.steps, ih.contained⟩
  | left _ ih =>
      obtain ⟨word, hword, hhead⟩ := ih.head
      exact ⟨⟨word, List.mem_append_left _ hword, hhead⟩, ih.steps, ih.contained⟩
  | right _ _ _ ih =>
      obtain ⟨word, hword, hhead⟩ := ih.head
      exact ⟨⟨word, List.mem_append_right _ hword, hhead⟩, ih.steps, ih.contained⟩

private theorem expands_binary_iff_of_decides {op : BinaryOp} {left right : Expr} {first : Int64}
    (hleft : left.HasValue symbols version first) (hdecides : op.Decides first)
    (chain : List Text) :
    Expands symbols version (.binary op left right) chain ↔
      left.Expands symbols version chain := by
  constructor
  · intro h
    cases h with
    | left h => exact h
    | right hother hopen _ => exact absurd (hleft.unique hother ▸ hdecides) hopen
  · exact .left

private theorem evalWithin_of_decides {op : BinaryOp} {left right other : Expr} {first : Int64}
    (hleft : left.HasValue symbols version first) (hdecides : op.Decides first) (levels : Nat) :
    (Expr.binary op left right).evalWithin symbols version levels =
      (Expr.binary op left other).evalWithin symbols version levels := by
  unfold evalWithin
  rcases hleft.evalWithin_cases levels with hfirst | ⟨word, hdeep⟩
  · rw [eval_of_decides hfirst hdecides, eval_of_decides hfirst hdecides]
  · unfold evalWithin at hdeep
    rw [eval, eval, hdeep]
    rfl

def AgreesOn (symbols other : SymbolTable) (version : GlslVersion) (expr : Expr) : Prop :=
  ∀ chain, expr.Expands symbols version chain →
    ∀ word ∈ chain, other.get? word = symbols.get? word

private theorem eval_of_agreesOn {other : SymbolTable} {levels : Nat}
    (hcontains : other.contains = symbols.contains)
    (hwords : ∀ word, AgreesOn symbols other version (.name word) →
      other.valueOf version levels word = symbols.valueOf version levels word)
    {expr : Expr} (h : AgreesOn symbols other version expr) :
    expr.evalWithin other version levels = expr.evalWithin symbols version levels := by
  unfold evalWithin
  rw [hcontains]
  induction expr with
  | literal value => rfl
  | name word => exact hwords word h
  | defined word => rfl
  | unary op operand ih => rw [eval, eval, ih fun chain hchain => h chain (.operand hchain)]
  | binary op left right ihLeft ihRight =>
      have hleft := ihLeft fun chain hchain => h chain (.left hchain)
      cases hfirst : left.eval (symbols.valueOf version levels) symbols.contains with
      | error fault =>
          rw [eval, eval, hleft, hfirst]
          rfl
      | ok first =>
          rw [hfirst] at hleft
          by_cases hdecides : op.Decides first
          · rw [eval_of_decides hleft hdecides, eval_of_decides hfirst hdecides]
          · have hright := ihRight fun chain hchain =>
              h chain (.right ⟨levels, hfirst⟩ hdecides hchain)
            rw [eval_of_not_decides hleft hdecides, eval_of_not_decides hfirst hdecides, hright]

private theorem evalWithin_of_agreesOn {other : SymbolTable}
    (hcontains : other.contains = symbols.contains)
    (levels : Nat) {expr : Expr} (h : AgreesOn symbols other version expr) :
    expr.evalWithin other version levels = expr.evalWithin symbols version levels := by
  induction levels generalizing expr with
  | zero =>
      refine eval_of_agreesOn hcontains (fun word _ => ?_) h
      rw [valueOf, valueOf, hcontains]
  | succ levels ih =>
      refine eval_of_agreesOn hcontains (fun word hword => ?_) h
      rw [valueOf, valueOf]
      cases htext : symbols.get? word with
      | none =>
          have hother : other.get? word = none := by
            have hnone : other.contains word = false := by
              rw [hcontains, Table.contains, htext]
              rfl
            rwa [Table.contains, Option.isSome_eq_false_iff, Option.isNone_iff_eq_none] at hnone
          rw [hother]
      | some text =>
          rw [hword _ (.here htext) word List.mem_cons_self, htext]
          dsimp only
          cases hread : parse (expressionTokens version text) with
          | error fault => rfl
          | ok expr =>
              exact ih fun chain hchain next hnext =>
                hword _ (.inside htext hread hchain) next (List.mem_cons_of_mem word hnext)

/-! ## Runs that count the macros -/

/-- A run with the number of macros that it is within.  It goes on into the value of a macro
until there are too many. -/
inductive Evaluates (symbols : SymbolTable) (version : GlslVersion) :
    Nat → Expr → Except ExpressionFault Int64 → Prop where
  | literal {depth : Nat} (value : Int64) :
      Evaluates symbols version depth (.literal value) (.ok value)
  | defined {depth : Nat} (word : Text) :
      Evaluates symbols version depth (.defined word) (.ok (truth (symbols.contains word)))
  | unknown {depth : Nat} {word : Text} (hword : symbols.get? word = none) :
      Evaluates symbols version depth (.name word) (.ok 0)
  | tooDeep {depth : Nat} {word text : Text} (hword : symbols.get? word = some text)
      (hdepth : maxExpansionDepth ≤ depth) :
      Evaluates symbols version depth (.name word) (.error (.expansionTooDeep word))
  | unreadable {depth : Nat} {word text : Text} {fault : ExpressionFault}
      (hword : symbols.get? word = some text) (hdepth : depth < maxExpansionDepth)
      (hread : parse (expressionTokens version text) = .error fault) :
      Evaluates symbols version depth (.name word) (.error fault)
  | expanded {depth : Nat} {word text : Text} {expr : Expr}
      {outcome : Except ExpressionFault Int64}
      (hword : symbols.get? word = some text) (hdepth : depth < maxExpansionDepth)
      (hread : parse (expressionTokens version text) = .ok expr)
      (h : Evaluates symbols version (depth + 1) expr outcome) :
      Evaluates symbols version depth (.name word) outcome
  | unary {depth : Nat} {op : UnaryOp} {operand : Expr} {outcome : Except ExpressionFault Int64}
      (h : Evaluates symbols version depth operand outcome) :
      Evaluates symbols version depth (.unary op operand) (outcome.map op.apply)
  | leftFails {depth : Nat} {op : BinaryOp} {left right : Expr} {fault : ExpressionFault}
      (h : Evaluates symbols version depth left (.error fault)) :
      Evaluates symbols version depth (.binary op left right) (.error fault)
  | decided {depth : Nat} {op : BinaryOp} {left right : Expr} {first : Int64}
      (h : Evaluates symbols version depth left (.ok first)) (hdecides : op.Decides first) :
      Evaluates symbols version depth (.binary op left right)
        (.ok (if first = 0 then 0 else 1))
  | both {depth : Nat} {op : BinaryOp} {left right : Expr} {first : Int64}
      {outcome : Except ExpressionFault Int64}
      (hleft : Evaluates symbols version depth left (.ok first)) (hopen : ¬op.Decides first)
      (hright : Evaluates symbols version depth right outcome) :
      Evaluates symbols version depth (.binary op left right) (outcome.bind (op.apply first))

private theorem Evaluates.eq_evalWithin {depth : Nat} {expr : Expr}
    {outcome : Except ExpressionFault Int64} (h : expr.Evaluates symbols version depth outcome) :
    outcome = expr.evalWithin symbols version (maxExpansionDepth - depth) := by
  unfold evalWithin
  induction h with
  | literal value => rfl
  | defined word => rfl
  | @unknown depth word hword =>
      have hnone : symbols.contains word = false := by
        rw [Table.contains, hword]
        rfl
      exact (valueOf_of_contains hnone version _).symm
  | tooDeep hword hdepth =>
      rw [eval, Nat.sub_eq_zero_of_le hdepth, valueOf, Table.contains, hword]
      rfl
  | @unreadable depth word text fault hword hdepth hread =>
      obtain ⟨levels, hlevels⟩ := Nat.exists_eq_add_one.mpr (Nat.sub_pos_of_lt hdepth)
      rw [eval, hlevels, valueOf, hword]
      dsimp only
      rw [hread]
      rfl
  | @expanded depth word text expr outcome hword hdepth hread _ ih =>
      have hlevels : maxExpansionDepth - depth = (maxExpansionDepth - (depth + 1)) + 1 := by omega
      rw [eval, hlevels, valueOf, hword]
      dsimp only
      rw [hread]
      exact ih
  | unary _ ih =>
      rw [eval, ← ih]
      rename_i outcome _
      cases outcome <;> rfl
  | leftFails _ ih =>
      rw [eval, ← ih]
      rfl
  | decided _ hdecides ih => exact (eval_of_decides ih.symm hdecides).symm
  | both _ hopen _ ihLeft ihRight => rw [eval_of_not_decides ihLeft.symm hopen, ← ihRight]

private theorem evaluates_of_words {levels depth : Nat}
    (hwords : ∀ word, Evaluates symbols version depth (.name word)
      (symbols.valueOf version levels word)) (expr : Expr) :
    expr.Evaluates symbols version depth (expr.evalWithin symbols version levels) := by
  unfold evalWithin
  induction expr with
  | literal value => exact .literal value
  | name word => exact hwords word
  | defined word => exact .defined word
  | unary op operand ih =>
      rw [eval]
      cases houtcome : operand.eval (symbols.valueOf version levels) symbols.contains with
      | error fault =>
          rw [houtcome] at ih
          exact .unary ih
      | ok value =>
          rw [houtcome] at ih
          exact .unary ih
  | binary op left right ihLeft ihRight =>
      cases hfirst : left.eval (symbols.valueOf version levels) symbols.contains with
      | error fault =>
          rw [eval, hfirst]
          exact .leftFails (hfirst ▸ ihLeft)
      | ok first =>
          rw [hfirst] at ihLeft
          by_cases hdecides : op.Decides first
          · rw [eval_of_decides hfirst hdecides]
            exact .decided ihLeft hdecides
          · rw [eval_of_not_decides hfirst hdecides]
            exact .both ihLeft hdecides ihRight

private theorem evaluates_evalWithin {levels depth : Nat} (h : levels = maxExpansionDepth - depth)
    (expr : Expr) :
    expr.Evaluates symbols version depth (expr.evalWithin symbols version levels) := by
  induction levels generalizing depth expr with
  | zero =>
      refine evaluates_of_words (fun word => ?_) expr
      rw [valueOf, Table.contains]
      cases hword : symbols.get? word with
      | none => exact .unknown hword
      | some text => exact .tooDeep hword (Nat.sub_eq_zero_iff_le.mp h.symm)
  | succ levels ih =>
      refine evaluates_of_words (fun word => ?_) expr
      have hdepth : depth < maxExpansionDepth := by omega
      rw [valueOf]
      cases hword : symbols.get? word with
      | none => exact .unknown hword
      | some text =>
          dsimp only
          cases hread : parse (expressionTokens version text) with
          | error fault => exact .unreadable hword hdepth hread
          | ok inner => exact .expanded hword hdepth hread (ih (by omega) inner)

end Expr

namespace SymbolTable

open GlslCompose.Expr

variable {symbols : SymbolTable} {version : GlslVersion} {expression : Text}

private theorem evaluate_of_parse {expr : Expr}
    (hread : parse (expressionTokens version expression) = .ok expr) :
    symbols.evaluate version expression = expr.evalWithin symbols version maxExpansionDepth := by
  rw [evaluate, hread]
  rfl

private theorem evaluate_of_parse_error {fault : ExpressionFault}
    (hread : parse (expressionTokens version expression) = .error fault) :
    symbols.evaluate version expression = .error fault := by
  rw [evaluate, hread]
  rfl

inductive Runs (symbols : SymbolTable) (version : GlslVersion) (expression : Text) :
    Except ExpressionFault Int64 → Prop where
  | unreadable {fault : ExpressionFault}
      (hread : parse (expressionTokens version expression) = .error fault) :
      Runs symbols version expression (.error fault)
  | evaluated {expr : Expr} {outcome : Except ExpressionFault Int64}
      (hread : parse (expressionTokens version expression) = .ok expr)
      (h : expr.Evaluates symbols version 0 outcome) :
      Runs symbols version expression outcome

private theorem runs_iff (outcome : Except ExpressionFault Int64) :
    symbols.Runs version expression outcome ↔ outcome = symbols.evaluate version expression := by
  constructor
  · rintro (hread | ⟨hread, h⟩)
    · exact (evaluate_of_parse_error hread).symm
    · rw [evaluate_of_parse hread]
      exact h.eq_evalWithin
  · rintro rfl
    cases hread : parse (expressionTokens version expression) with
    | error fault =>
        rw [evaluate_of_parse_error hread]
        exact .unreadable hread
    | ok expr =>
        rw [evaluate_of_parse hread]
        exact .evaluated hread (evaluates_evalWithin rfl expr)

def Expands (symbols : SymbolTable) (version : GlslVersion) (expression : Text)
    (chain : List Text) : Prop :=
  ∃ expr, parse (expressionTokens version expression) = .ok expr ∧
    expr.Expands symbols version chain

private theorem isTooDeep_evaluate_iff : IsTooDeep (symbols.evaluate version expression) ↔
    ∃ chain, symbols.Expands version expression chain ∧ maxExpansionDepth < chain.length := by
  cases hread : parse (expressionTokens version expression) with
  | error fault =>
      rw [evaluate_of_parse_error hread]
      constructor
      · rintro ⟨word, hword⟩
        have hfault := hread.trans (congrArg Except.error (Except.error.inj hword))
        exact absurd ⟨word, hfault⟩ (not_isTooDeep_parse _)
      · rintro ⟨chain, ⟨expr, hexpr, -⟩, -⟩
        rw [hread] at hexpr
        cases hexpr
  | ok expr =>
      rw [evaluate_of_parse hread, isTooDeep_evalWithin_iff]
      constructor
      · rintro ⟨chain, hchain, hlength⟩
        exact ⟨chain, ⟨expr, hread, hchain⟩, hlength⟩
      · rintro ⟨chain, ⟨other, hother, hchain⟩, hlength⟩
        rw [hread] at hother
        cases hother
        exact ⟨chain, hchain, hlength⟩

private theorem isTooDeep_condition_iff : IsTooDeep (symbols.condition version expression) ↔
    ∃ chain, symbols.Expands version expression chain ∧ maxExpansionDepth < chain.length := by
  rw [← isTooDeep_evaluate_iff, condition]
  exact isTooDeep_bind_iff fun _ => not_isTooDeep_ok _

private theorem condition_of_agrees {other : SymbolTable}
    (hcontains : other.contains = symbols.contains)
    (hagrees : ∀ chain, symbols.Expands version expression chain →
      ∀ word ∈ chain, other.get? word = symbols.get? word) :
    other.condition version expression = symbols.condition version expression := by
  rw [condition, condition]
  cases hread : parse (expressionTokens version expression) with
  | error fault => rw [evaluate_of_parse_error hread, evaluate_of_parse_error hread]
  | ok expr =>
      rw [evaluate_of_parse hread, evaluate_of_parse hread,
        evalWithin_of_agreesOn hcontains maxExpansionDepth
          fun chain hchain => hagrees chain ⟨expr, hread, hchain⟩]

/-- What is known of the macros that evaluation of a condition comes to. -/
structure BoundsExpansion (symbols : SymbolTable) (version : GlslVersion) (expression : Text) :
    Prop where
  /-- The run that counts the macros ends, and in one way only. -/
  ends : ∃ outcome, (∀ other, symbols.Runs version expression other ↔ other = outcome) ∧
    symbols.condition version expression = outcome.map (· != 0)
  tooDeep_iff : IsTooDeep (symbols.condition version expression) ↔
    ∃ chain, symbols.Expands version expression chain ∧ 16 < chain.length
  repeated : ∀ chain, symbols.Expands version expression chain → ¬chain.Nodup →
    IsTooDeep (symbols.condition version expression)
  mentions : ∀ chain, symbols.Expands version expression chain →
    ∃ expr, parse (expressionTokens version expression) = .ok expr ∧
      symbols.IsMentionChain version expr chain
  skipped : ∀ (op : BinaryOp) (left right other : Expr) (first : Int64),
    left.HasValue symbols version first → op.Decides first →
      (∀ chain, (Expr.binary op left right).Expands symbols version chain ↔
        left.Expands symbols version chain) ∧
      ∀ levels, (Expr.binary op left right).evalWithin symbols version levels =
        (Expr.binary op left other).evalWithin symbols version levels
  /-- The values of macros that are in no chain do not count. -/
  unread : ∀ other : SymbolTable, other.contains = symbols.contains →
    (∀ chain, symbols.Expands version expression chain →
      ∀ word ∈ chain, other.get? word = symbols.get? word) →
    other.condition version expression = symbols.condition version expression

/-- Evaluation always ends.  It is too deep exactly for chains of more than sixteen macros, so
always where a macro comes up in its own expansion, and what it skips adds nothing. -/
theorem boundsExpansion (symbols : SymbolTable) (version : GlslVersion) (expression : Text) :
    symbols.BoundsExpansion version expression where
  ends := by
    refine ⟨symbols.evaluate version expression, runs_iff, ?_⟩
    rw [condition]
    cases symbols.evaluate version expression <;> rfl
  tooDeep_iff := isTooDeep_condition_iff
  repeated := by
    rintro chain ⟨expr, hread, hchain⟩ hrepeated
    obtain ⟨longer, hlonger, hlength⟩ := hchain.exists_longer hrepeated maxExpansionDepth
    exact isTooDeep_condition_iff.mpr ⟨longer, ⟨expr, hread, hlonger⟩, hlength⟩
  mentions := fun _ ⟨expr, hread, hchain⟩ => ⟨expr, hread, hchain.isMentionChain⟩
  skipped := fun _ _ _ _ _ hleft hdecides =>
    ⟨expands_binary_iff_of_decides hleft hdecides, evalWithin_of_decides hleft hdecides⟩
  unread := fun _ hcontains hagrees => condition_of_agrees hcontains hagrees

def loopTable : SymbolTable := (Table.empty.insert ['A'] ['B']).insert ['B'] ['A']

private theorem derives_loopName {word : Text} (h : word ∈ [['A'], ['B']]) :
    Derives operandLevel [⟨.ident, word, 1⟩] (.name word) := by
  have hother : ∀ word ∈ [['A'], ['B']], word ≠ definedWord := by decide
  exact .name rfl (hother word h)

private theorem parse_loopName {word : Text} (h : word ∈ [['A'], ['B']]) :
    parse (expressionTokens .es100 word) = .ok (.name word) := by
  have htokens : ∀ word ∈ [['A'], ['B']],
      expressionTokens .es100 word = [⟨.ident, word, 1⟩] := by
    decide +kernel
  rw [htokens word h, parse_eq_ok_iff]
  exact (derives_loopName h).mono (by decide) (Nat.le_refl _)

private theorem parse_loopSkipped : parse (expressionTokens .es100 "0 && A".toList) =
    .ok (.binary .logicalAnd (.literal 0) (.name ['A'])) := by
  have htokens : expressionTokens .es100 "0 && A".toList =
      [⟨.integer, ['0'], 1⟩] ++ ⟨.operator, ['&', '&'], 1⟩ :: [⟨.ident, ['A'], 1⟩] := by
    decide +kernel
  have hzero : Derives BinaryOp.logicalAnd.level [⟨.integer, ['0'], 1⟩] (.literal 0) :=
    (Derives.literal rfl (by decide)).mono (by decide) (Nat.le_refl _)
  have hname : Derives (BinaryOp.logicalAnd.level + 1) [⟨.ident, ['A'], 1⟩] (.name ['A']) :=
    (derives_loopName (by decide)).mono (by decide) (Nat.le_refl _)
  rw [htokens, parse_eq_ok_iff]
  exact (Derives.binary (by decide) hzero hname).mono (by decide) (by decide)

/-- Two macros that name each other are too deep, unless evaluation skips them. -/
theorem boundsExpansion_loop :
    loopTable.Expands .es100 ['A'] [['A'], ['B'], ['A']] ∧
    IsTooDeep (loopTable.condition .es100 ['A']) ∧
    loopTable.condition .es100 "0 && A".toList = .ok false := by
  have hfirst : loopTable.get? ['A'] = some ['B'] := by decide
  have hsecond : loopTable.get? ['B'] = some ['A'] := by decide
  have hchain : loopTable.Expands .es100 ['A'] [['A'], ['B'], ['A']] :=
    ⟨_, parse_loopName (by decide), .inside hfirst (parse_loopName (by decide))
      (.inside hsecond (parse_loopName (by decide)) (.here hfirst))⟩
  have hbounds := boundsExpansion loopTable .es100 ['A']
  refine ⟨hchain, hbounds.repeated _ hchain (by decide), ?_⟩
  rw [condition, evaluate_of_parse parse_loopSkipped]
  rfl

end SymbolTable

end GlslCompose
