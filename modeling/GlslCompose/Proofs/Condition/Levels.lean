import GlslCompose.Proofs.Condition.Arithmetic

/-!
# Levels of evaluation

How deep macros may nest is a number of levels.  An expression that is not too deep for some number
of levels has the same outcome at every greater one, so it has one value, however many
levels there are.  Nothing but the levels makes an expression too deep, and reading it never
does.
-/

namespace GlslCompose

/-! ## Outcomes that are too deep -/

def IsTooDeep {α : Type} (outcome : Except ExpressionFault α) : Prop :=
  ∃ word, outcome = .error (.expansionTooDeep word)

section

variable {α β : Type} {first : Except ExpressionFault α} {next : α → Except ExpressionFault β}

theorem not_isTooDeep_ok (value : α) : ¬IsTooDeep (.ok value) := by
  rintro ⟨word, h⟩
  cases h

private theorem not_isTooDeep_error {fault : ExpressionFault}
    (hfault : ∀ word, fault ≠ .expansionTooDeep word) :
    ¬IsTooDeep (.error fault : Except ExpressionFault α) := by
  rintro ⟨word, h⟩
  exact hfault word (Except.error.inj h)

theorem IsTooDeep.bind (h : IsTooDeep first) : IsTooDeep (first >>= next) := by
  obtain ⟨word, rfl⟩ := h
  exact ⟨word, rfl⟩

private theorem IsTooDeep.of_bind (h : IsTooDeep (first >>= next)) :
    IsTooDeep first ∨ ∃ value, first = .ok value ∧ IsTooDeep (next value) := by
  cases first with
  | error fault =>
      obtain ⟨word, hword⟩ := h
      exact .inl ⟨word, congrArg Except.error (Except.error.inj hword)⟩
  | ok value => exact .inr ⟨value, rfl, h⟩

theorem isTooDeep_bind_iff (hnext : ∀ value, ¬IsTooDeep (next value)) :
    IsTooDeep (first >>= next) ↔ IsTooDeep first := by
  refine ⟨fun h => ?_, IsTooDeep.bind⟩
  rcases h.of_bind with hfirst | ⟨value, -, hvalue⟩
  · exact hfirst
  · exact absurd hvalue (hnext value)

private theorem not_isTooDeep_bind (hfirst : ¬IsTooDeep first)
    (hnext : ∀ value, ¬IsTooDeep (next value)) :
    ¬IsTooDeep (first >>= next) :=
  mt (isTooDeep_bind_iff hnext).mp hfirst

end

/-! ## The parser is never too deep -/

private theorem not_isTooDeep_expectClosing (tokens : List Token) :
    ¬IsTooDeep (expectClosing tokens) := by
  unfold expectClosing
  split
  · exact not_isTooDeep_error (by simp)
  split
  · exact not_isTooDeep_ok _
  · exact not_isTooDeep_error (by simp)

private theorem not_isTooDeep_macroName (tokens : List Token) : ¬IsTooDeep (macroName tokens) := by
  unfold macroName
  split
  · exact not_isTooDeep_error (by simp)
  split
  · exact not_isTooDeep_ok _
  · exact not_isTooDeep_error (by simp)

private theorem not_isTooDeep_definedOperand (tokens : List Token) :
    ¬IsTooDeep (definedOperand tokens) := by
  unfold definedOperand
  split
  · exact not_isTooDeep_error (by simp)
  split
  · exact not_isTooDeep_bind (not_isTooDeep_macroName _) fun _ =>
      not_isTooDeep_bind (not_isTooDeep_expectClosing _) fun _ => not_isTooDeep_ok _
  · exact not_isTooDeep_bind (not_isTooDeep_macroName _) fun _ => not_isTooDeep_ok _

mutual

private theorem not_isTooDeep_operand (tokens : List Token) : ¬IsTooDeep (operand tokens) := by
  match tokens with
  | [] =>
      rw [operand]
      exact not_isTooDeep_error (by simp)
  | token :: rest =>
      rw [operand]
      cases hkind : token.kind with
      | operator =>
          dsimp only
          split
          · exact not_isTooDeep_bind (not_isTooDeep_chain rest) fun _ =>
              not_isTooDeep_bind (not_isTooDeep_expectClosing _) fun _ => not_isTooDeep_ok _
          split
          · exact not_isTooDeep_bind (not_isTooDeep_operand rest) fun _ => not_isTooDeep_ok _
          · exact not_isTooDeep_error (by simp)
      | integer =>
          dsimp only
          split
          · exact not_isTooDeep_ok _
          · exact not_isTooDeep_error (by simp)
      | ident | keyword | builtin =>
          dsimp only
          split
          · exact not_isTooDeep_bind (not_isTooDeep_definedOperand rest) fun _ =>
              not_isTooDeep_ok _
          · exact not_isTooDeep_ok _
      | _ => exact not_isTooDeep_error (by simp)
termination_by (tokens.length, 0)

private theorem not_isTooDeep_links (tokens : List Token) : ¬IsTooDeep (links tokens) := by
  match tokens with
  | [] =>
      rw [links]
      exact not_isTooDeep_ok _
  | token :: rest =>
      rw [links]
      split
      · exact not_isTooDeep_ok _
      · refine not_isTooDeep_bind (not_isTooDeep_operand rest) fun right => ?_
        have hshorter := right.shorter
        exact not_isTooDeep_bind (not_isTooDeep_links right.rest) fun _ => not_isTooDeep_ok _
termination_by (tokens.length, 0)

private theorem not_isTooDeep_chain (tokens : List Token) : ¬IsTooDeep (chain tokens) := by
  rw [chain]
  refine not_isTooDeep_bind (not_isTooDeep_operand tokens) fun first => ?_
  have hshorter := first.shorter
  exact not_isTooDeep_bind (not_isTooDeep_links first.rest) fun _ => not_isTooDeep_ok _
termination_by (tokens.length, 1)

end

theorem not_isTooDeep_parse (tokens : List Token) : ¬IsTooDeep (Expr.parse tokens) := by
  refine not_isTooDeep_bind (not_isTooDeep_chain tokens) fun parsed => ?_
  split
  · exact not_isTooDeep_ok _
  · exact not_isTooDeep_error (by simp)

private theorem not_isTooDeep_apply (op : BinaryOp) (left right : Int64) :
    ¬IsTooDeep (op.apply left right) := by
  rw [BinaryOp.apply_eq]
  split
  · exact not_isTooDeep_error (by simp)
  · exact not_isTooDeep_ok _

/-! ## Levels -/

open SymbolTable

namespace Expr

/-- The outcome if macros may nest to the given number of levels. -/
def evalWithin (symbols : SymbolTable) (version : GlslVersion) (levels : Nat) (expr : Expr) :
    Except ExpressionFault Int64 :=
  expr.eval (symbols.valueOf version levels) symbols.contains

section

variable {valueOf other : Text → Except ExpressionFault Int64} {isDefined : Text → Bool}
  {op : BinaryOp} {left right : Expr}

@[simp] theorem isTooDeep_unary_iff {op : UnaryOp} {operand : Expr} :
    IsTooDeep (eval valueOf isDefined (.unary op operand)) ↔
      IsTooDeep (eval valueOf isDefined operand) := by
  rw [eval]
  exact isTooDeep_bind_iff fun _ => not_isTooDeep_ok _

theorem isTooDeep_binary_iff :
    IsTooDeep (eval valueOf isDefined (.binary op left right)) ↔
      IsTooDeep (eval valueOf isDefined left) ∨
      ∃ first, eval valueOf isDefined left = .ok first ∧ ¬op.Decides first ∧
        IsTooDeep (eval valueOf isDefined right) := by
  constructor
  · intro h
    rw [eval] at h
    rcases h.of_bind with hleft | ⟨first, hfirst, -⟩
    · exact .inl hleft
    rw [← eval] at h
    by_cases hdecides : op.Decides first
    · rw [eval_of_decides hfirst hdecides] at h
      exact absurd h (not_isTooDeep_ok _)
    · rw [eval_of_not_decides hfirst hdecides] at h
      exact .inr ⟨first, hfirst, hdecides,
        (isTooDeep_bind_iff (not_isTooDeep_apply op first)).mp h⟩
  · rintro (hleft | ⟨first, hfirst, hdecides, hright⟩)
    · rw [eval]
      exact hleft.bind
    · rw [eval_of_not_decides hfirst hdecides]
      exact hright.bind

private theorem eval_of_not_isTooDeep (hwords : ∀ word, ¬IsTooDeep (valueOf word) →
    other word = valueOf word) {expr : Expr} (h : ¬IsTooDeep (expr.eval valueOf isDefined)) :
    expr.eval other isDefined = expr.eval valueOf isDefined := by
  induction expr with
  | literal value => rfl
  | name word => exact hwords word h
  | defined word => rfl
  | unary op operand ih => rw [eval, eval, ih (mt isTooDeep_unary_iff.mpr h)]
  | binary op left right ihLeft ihRight =>
      rw [isTooDeep_binary_iff, not_or] at h
      have hleft := ihLeft h.1
      cases hfirst : left.eval valueOf isDefined with
      | error fault =>
          rw [eval, eval, hleft, hfirst]
          rfl
      | ok first =>
          rw [hfirst] at hleft
          by_cases hdecides : op.Decides first
          · rw [eval_of_decides hleft hdecides, eval_of_decides hfirst hdecides]
          · have hright := ihRight fun hdeep => h.2 ⟨first, hfirst, hdecides, hdeep⟩
            rw [eval_of_not_decides hleft hdecides, eval_of_not_decides hfirst hdecides, hright]

end

variable {symbols : SymbolTable} {version : GlslVersion}

theorem isTooDeep_valueOf_zero_iff {word : Text} :
    IsTooDeep (symbols.valueOf version 0 word) ↔ symbols.contains word = true := by
  rw [valueOf]
  split
  · rename_i hword
    exact ⟨fun _ => hword, fun _ => ⟨word, rfl⟩⟩
  · rename_i hword
    exact ⟨fun h => absurd h (not_isTooDeep_ok _), fun h => absurd h hword⟩

theorem isTooDeep_zero (version : GlslVersion) {word text : Text}
    (h : symbols.get? word = some text) :
    IsTooDeep (symbols.valueOf version 0 word) := by
  rw [isTooDeep_valueOf_zero_iff, Table.contains, h]
  rfl

theorem isTooDeep_valueOf_succ_iff {levels : Nat} {word : Text} :
    IsTooDeep (symbols.valueOf version (levels + 1) word) ↔
      ∃ text expr, symbols.get? word = some text ∧
        parse (expressionTokens version text) = .ok expr ∧
        IsTooDeep (expr.evalWithin symbols version levels) := by
  rw [valueOf]
  cases hword : symbols.get? word with
  | none =>
      refine ⟨fun h => absurd h (not_isTooDeep_ok _), ?_⟩
      rintro ⟨_, _, h, -⟩
      cases h
  | some text =>
      constructor
      · intro h
        rcases h.of_bind with h | ⟨expr, hread, h⟩
        · exact absurd h (not_isTooDeep_parse _)
        · exact ⟨text, expr, rfl, hread, h⟩
      · rintro ⟨_, expr, htext, hread, h⟩
        cases htext
        dsimp only
        rw [hread]
        exact h

private theorem valueOf_succ_of_not_isTooDeep {levels : Nat} {word : Text}
    (h : ¬IsTooDeep (symbols.valueOf version levels word)) :
    symbols.valueOf version (levels + 1) word = symbols.valueOf version levels word := by
  induction levels generalizing word with
  | zero =>
      have hword := mt isTooDeep_valueOf_zero_iff.mpr h
      rw [Bool.not_eq_true] at hword
      rw [valueOf_of_contains hword, valueOf_of_contains hword]
  | succ levels ih =>
      rw [isTooDeep_valueOf_succ_iff] at h
      rw [valueOf, valueOf]
      cases hword : symbols.get? word with
      | none => rfl
      | some text =>
          dsimp only
          cases hread : parse (expressionTokens version text) with
          | error fault => rfl
          | ok expr =>
              exact eval_of_not_isTooDeep (fun _ => ih)
                fun hdeep => h ⟨text, expr, hword, hread, hdeep⟩

private theorem evalWithin_of_le {levels more : Nat} {expr : Expr}
    (h : ¬IsTooDeep (expr.evalWithin symbols version levels)) (hle : levels ≤ more) :
    expr.evalWithin symbols version more = expr.evalWithin symbols version levels := by
  induction hle with
  | refl => rfl
  | step _ ih =>
      rw [← ih] at h
      rw [← ih]
      exact eval_of_not_isTooDeep (fun _ => valueOf_succ_of_not_isTooDeep) h

def HasValue (symbols : SymbolTable) (version : GlslVersion) (expr : Expr) (value : Int64) :
    Prop :=
  ∃ levels, expr.evalWithin symbols version levels = .ok value

theorem HasValue.evalWithin_cases {expr : Expr} {value : Int64}
    (h : expr.HasValue symbols version value) (levels : Nat) :
    expr.evalWithin symbols version levels = .ok value ∨
      IsTooDeep (expr.evalWithin symbols version levels) := by
  by_cases hdeep : IsTooDeep (expr.evalWithin symbols version levels)
  · exact .inr hdeep
  obtain ⟨enough, henough⟩ := h
  rcases Nat.le_total levels enough with hle | hle
  · rw [← evalWithin_of_le hdeep hle]
    exact .inl henough
  · have hfree : ¬IsTooDeep (expr.evalWithin symbols version enough) := by
      rw [henough]
      exact not_isTooDeep_ok value
    rw [evalWithin_of_le hfree hle]
    exact .inl henough

theorem HasValue.unique {expr : Expr} {value other : Int64}
    (h : expr.HasValue symbols version value) (hother : expr.HasValue symbols version other) :
    value = other := by
  obtain ⟨levels, hlevels⟩ := hother
  rcases h.evalWithin_cases levels with hvalue | hdeep
  · exact Except.ok.inj (hvalue.symm.trans hlevels)
  · rw [hlevels] at hdeep
    exact absurd hdeep (not_isTooDeep_ok other)

end Expr

end GlslCompose
