import GlslCompose.Condition.Eval
import GlslCompose.Number.Power
import Mathlib.Data.Int.Bitwise

/-!
# Arithmetic of conditions

`Expr.Computes` is the arithmetic of 64-bit integers in two's complement: every operator gives
its result modulo the range, and only a division by zero gives none.  Where no name in an
expression is defined, evaluation follows it, except that it refuses to divide the least
integer by minus one, as if that were a division by zero.
-/

namespace GlslCompose

/-! ## Operators -/

def UnaryOp.exact : UnaryOp → Int → Int
  | .logicalNot, value => if value = 0 then 1 else 0
  | .complement, value => -value - 1
  | .minus, value => -value
  | .plus, value => value

def BinaryOp.exact (op : BinaryOp) (left right : Int) : Int :=
  match op with
  | .logicalOr => if left ≠ 0 ∨ right ≠ 0 then 1 else 0
  | .logicalAnd => if left ≠ 0 ∧ right ≠ 0 then 1 else 0
  | .bitOr => left.lor right
  | .bitXor => left.xor right
  | .bitAnd => left.land right
  | .equal => if left = right then 1 else 0
  | .notEqual => if left ≠ right then 1 else 0
  | .less => if left < right then 1 else 0
  | .greater => if left > right then 1 else 0
  | .lessEqual => if left ≤ right then 1 else 0
  | .greaterEqual => if left ≥ right then 1 else 0
  | .shiftLeft => left * powerOfTwo (right % 64).toNat
  | .shiftRight => left / powerOfTwo (right % 64).toNat
  | .add => left + right
  | .subtract => left - right
  | .multiply => left * right
  | .divide => left.tdiv right
  | .remainder => left.tmod right

private theorem getLsbD_ofInt (value : Int) (index : Nat) :
    (BitVec.ofInt 64 value).getLsbD index = (decide (index < 64) && value.testBit index) := by
  cases value with
  | ofNat magnitude =>
      rw [Int.ofNat_eq_natCast, BitVec.ofInt_natCast, BitVec.getLsbD_ofNat]
      rfl
  | negSucc magnitude =>
      rw [BitVec.ofInt_negSucc_eq_not_ofNat, BitVec.getLsbD_not, BitVec.getLsbD_ofNat]
      by_cases hindex : index < 64 <;> simp [hindex, Int.testBit]

private theorem ofInt_bitwise {onIntegers : Int → Int → Int}
    {onWords : BitVec 64 → BitVec 64 → BitVec 64} {onBits : Bool → Bool → Bool}
    (hintegers : ∀ left right index, (onIntegers left right).testBit index =
      onBits (left.testBit index) (right.testBit index))
    (hwords : ∀ left right index, (onWords left right).getLsbD index =
      onBits (BitVec.getLsbD left index) (BitVec.getLsbD right index))
    (left right : BitVec 64) :
    BitVec.ofInt 64 (onIntegers left.toInt right.toInt) = onWords left right := by
  refine BitVec.eq_of_getLsbD_eq fun index hindex => ?_
  have hbit : ∀ value : BitVec 64, value.toInt.testBit index = value.getLsbD index := by
    intro value
    have hvalue := getLsbD_ofInt value.toInt index
    rw [BitVec.ofInt_toInt, decide_eq_true hindex, Bool.true_and] at hvalue
    exact hvalue.symm
  rw [getLsbD_ofInt, decide_eq_true hindex, Bool.true_and, hintegers, hwords, hbit, hbit]

@[simp] private theorem ofInt_land (left right : Int64) :
    Int64.ofInt (left.toInt.land right.toInt) = left &&& right := by
  rw [← Int64.toBitVec_inj, Int64.toBitVec_and, Int64.toBitVec_ofInt]
  exact ofInt_bitwise Int.testBit_land (fun _ _ _ => BitVec.getLsbD_and) _ _

@[simp] private theorem ofInt_lor (left right : Int64) :
    Int64.ofInt (left.toInt.lor right.toInt) = left ||| right := by
  rw [← Int64.toBitVec_inj, Int64.toBitVec_or, Int64.toBitVec_ofInt]
  exact ofInt_bitwise Int.testBit_lor (fun _ _ _ => BitVec.getLsbD_or) _ _

@[simp] private theorem ofInt_xor (left right : Int64) :
    Int64.ofInt (left.toInt.xor right.toInt) = left ^^^ right := by
  rw [← Int64.toBitVec_inj, Int64.toBitVec_xor, Int64.toBitVec_ofInt]
  exact ofInt_bitwise Int.testBit_lxor (fun _ _ _ => BitVec.getLsbD_xor) _ _

private theorem toNat_shiftAmount (amount : Int64) :
    (amount.toBitVec.smod 64).toNat = (amount.toInt % 64).toNat := by
  have hmod : (amount.toBitVec.smod 64).toInt = amount.toInt % 64 := by
    rw [BitVec.toInt_smod]
    exact Int.fmod_eq_emod_of_nonneg _ (by decide)
  have hnat := BitVec.toInt_eq_toNat_cond (amount.toBitVec.smod 64)
  have hlt := (amount.toBitVec.smod 64).isLt
  rw [hmod] at hnat
  split at hnat
  · omega
  · omega

private theorem ofInt_shiftLeft (left right : Int64) :
    Int64.ofInt (left.toInt * powerOfTwo (right.toInt % 64).toNat) = left <<< right := by
  rw [← Int64.toBitVec_inj, Int64.toBitVec_shiftLeft, Int64.toBitVec_ofInt, BitVec.shiftLeft_eq',
    toNat_shiftAmount, BitVec.shiftLeft_eq_mul_twoPow, BitVec.ofInt_mul, BitVec.ofInt_natCast]
  congr 1
  · exact BitVec.ofInt_toInt
  · refine BitVec.eq_of_toNat_eq ?_
    rw [BitVec.toNat_ofNat, BitVec.toNat_twoPow]
    rfl

@[simp] private theorem ofInt_shiftRight (left right : Int64) :
    Int64.ofInt (left.toInt / powerOfTwo (right.toInt % 64).toNat) = left >>> right := by
  rw [← Int64.toBitVec_inj, Int64.toBitVec_shiftRight, Int64.toBitVec_ofInt,
    BitVec.sshiftRight_eq', toNat_shiftAmount, BitVec.sshiftRight_eq]
  exact congrArg (BitVec.ofInt 64) (Int.shiftRight_eq_div_pow _ _).symm

namespace BinaryOp

def IsDivision (op : BinaryOp) : Prop := op = .divide ∨ op = .remainder

instance (op : BinaryOp) : Decidable op.IsDivision :=
  inferInstanceAs (Decidable (op = .divide ∨ op = .remainder))

/-- The left operand decides, and the right one is not evaluated. -/
def Decides (op : BinaryOp) (left : Int64) : Prop :=
  (op = .logicalAnd ∧ left = 0) ∨ (op = .logicalOr ∧ left ≠ 0)

instance (op : BinaryOp) (left : Int64) : Decidable (op.Decides left) :=
  inferInstanceAs (Decidable ((op = .logicalAnd ∧ left = 0) ∨ (op = .logicalOr ∧ left ≠ 0)))

private theorem IsDivision.not_decides {op : BinaryOp} (h : op.IsDivision) (left : Int64) :
    ¬op.Decides left := by
  rcases h with rfl | rfl <;> simp [Decides]

@[simp] private theorem hasQuotient_eq_false_iff {left right : Int64} :
    hasQuotient left right = false ↔ right = 0 ∨ (left = Int64.minValue ∧ right = -1) := by
  simp [hasQuotient, or_iff_not_imp_left]

private theorem ofInt_indicator {condition : Prop} [Decidable condition] {value : Bool}
    (h : condition ↔ value = true) : Int64.ofInt (if condition then 1 else 0) = truth value := by
  by_cases hcondition : condition
  · rw [if_pos hcondition, truth, if_pos (h.mp hcondition)]
    rfl
  · rw [if_neg hcondition, truth, if_neg fun hvalue => hcondition (h.mpr hvalue)]
    rfl

private theorem toInt_ne_zero_iff (value : Int64) : value.toInt ≠ 0 ↔ (value != 0) = true := by
  rw [bne_iff_ne]
  exact (Int64.toInt_inj (y := 0)).not

theorem apply_eq (op : BinaryOp) (left right : Int64) :
    op.apply left right =
      if op.IsDivision ∧ hasQuotient left right = false then .error .divisionByZero
      else .ok (.ofInt (op.exact left.toInt right.toInt)) := by
  have hok : ∀ {value : Int64} {result : Int}, .ofInt result = value →
      (.ok value : Except ExpressionFault Int64) = .ok (.ofInt result) :=
    fun h => congrArg Except.ok h.symm
  by_cases hdivision : op.IsDivision
  · have hquotient : Int64.ofInt (left.toInt.tdiv right.toInt) = left / right := by
      rw [Int64.ofInt_tdiv (Int64.le_toInt _) (Int64.toInt_le _) (Int64.le_toInt _)
        (Int64.toInt_le _), Int64.ofInt_toInt, Int64.ofInt_toInt]
    have hremainder : Int64.ofInt (left.toInt.tmod right.toInt) = left % right := by
      rw [Int64.ofInt_tmod (Int64.le_toInt _) (Int64.toInt_le _) (Int64.le_toInt _)
        (Int64.toInt_le _), Int64.ofInt_toInt, Int64.ofInt_toInt]
    rcases hdivision with rfl | rfl
    · cases hhas : hasQuotient left right <;> simp [apply, IsDivision, exact, hhas, hquotient]
    · cases hhas : hasQuotient left right <;> simp [apply, IsDivision, exact, hhas, hremainder]
  · rw [if_neg fun h => hdivision h.1]
    cases op with
    | divide => exact absurd (.inl rfl) hdivision
    | remainder => exact absurd (.inr rfl) hdivision
    | logicalOr =>
        refine hok (ofInt_indicator ?_)
        rw [Bool.or_eq_true, toInt_ne_zero_iff, toInt_ne_zero_iff]
    | logicalAnd =>
        refine hok (ofInt_indicator ?_)
        rw [Bool.and_eq_true, toInt_ne_zero_iff, toInt_ne_zero_iff]
    | bitOr => exact hok (ofInt_lor left right)
    | bitXor => exact hok (ofInt_xor left right)
    | bitAnd => exact hok (ofInt_land left right)
    | equal => exact hok (ofInt_indicator (Int64.toInt_inj.trans beq_iff_eq.symm))
    | notEqual => exact hok (ofInt_indicator (Int64.toInt_inj.not.trans bne_iff_ne.symm))
    | less => exact hok (ofInt_indicator (Int64.lt_iff_toInt_lt.symm.trans decide_eq_true_iff.symm))
    | greater =>
        exact hok (ofInt_indicator (Int64.lt_iff_toInt_lt.symm.trans decide_eq_true_iff.symm))
    | lessEqual =>
        exact hok (ofInt_indicator (Int64.le_iff_toInt_le.symm.trans decide_eq_true_iff.symm))
    | greaterEqual =>
        exact hok (ofInt_indicator (Int64.le_iff_toInt_le.symm.trans decide_eq_true_iff.symm))
    | shiftLeft => exact hok (ofInt_shiftLeft left right)
    | shiftRight => exact hok (ofInt_shiftRight left right)
    | add => exact hok (by rw [exact, Int64.ofInt_add, Int64.ofInt_toInt, Int64.ofInt_toInt])
    | subtract => exact hok (by rw [exact, Int64.ofInt_sub, Int64.ofInt_toInt, Int64.ofInt_toInt])
    | multiply => exact hok (by rw [exact, Int64.ofInt_mul, Int64.ofInt_toInt, Int64.ofInt_toInt])

end BinaryOp

theorem UnaryOp.apply_eq (op : UnaryOp) (value : Int64) :
    op.apply value = .ofInt (op.exact value.toInt) := by
  cases op with
  | logicalNot => exact (BinaryOp.ofInt_indicator (Int64.toInt_inj.trans beq_iff_eq.symm)).symm
  | complement =>
      refine Int64.toInt_inj.mp ?_
      rw [apply, exact, Int64.toInt_not, Int64.toInt_ofInt]
  | minus => rw [exact, Int64.ofInt_neg, Int64.ofInt_toInt, apply]
  | plus => rw [exact, Int64.ofInt_toInt, apply]

/-! ## Evaluation -/

namespace Expr

def names : Expr → List Text
  | literal _ | defined _ => []
  | name word => [word]
  | unary _ operand => operand.names
  | binary _ left right => left.names ++ right.names

/-- The value of an expression in 64-bit arithmetic, in which a name stands for zero. -/
inductive Computes (isDefined : Text → Bool) : Expr → Int64 → Prop where
  | literal (value : Int64) : Computes isDefined (.literal value) value
  | name (word : Text) : Computes isDefined (.name word) 0
  | defined (word : Text) : Computes isDefined (.defined word) (if isDefined word then 1 else 0)
  | unary {op : UnaryOp} {operand : Expr} {value : Int64}
      (hoperand : Computes isDefined operand value) :
      Computes isDefined (.unary op operand) (.ofInt (op.exact value.toInt))
  | decided {op : BinaryOp} {left right : Expr} {first : Int64}
      (hleft : Computes isDefined left first) (hdecides : op.Decides first) :
      Computes isDefined (.binary op left right) (if first = 0 then 0 else 1)
  | binary {op : BinaryOp} {left right : Expr} {first second : Int64}
      (hleft : Computes isDefined left first) (hopen : ¬op.Decides first)
      (hright : Computes isDefined right second) (hdivisor : op.IsDivision → second ≠ 0) :
      Computes isDefined (.binary op left right) (.ofInt (op.exact first.toInt second.toInt))

inductive Divides (isDefined : Text → Bool) : Expr → Int64 → Int64 → Prop where
  | here {op : BinaryOp} {left right : Expr} {first second : Int64} (hdivision : op.IsDivision)
      (hleft : left.Computes isDefined first) (hright : right.Computes isDefined second) :
      Divides isDefined (.binary op left right) first second
  | operand {op : UnaryOp} {operand : Expr} {dividend divisor : Int64}
      (hoperand : Divides isDefined operand dividend divisor) :
      Divides isDefined (.unary op operand) dividend divisor
  | left {op : BinaryOp} {left right : Expr} {dividend divisor : Int64}
      (hleft : Divides isDefined left dividend divisor) :
      Divides isDefined (.binary op left right) dividend divisor
  | right {op : BinaryOp} {left right : Expr} {first dividend divisor : Int64}
      (hleft : left.Computes isDefined first) (hopen : ¬op.Decides first)
      (hright : Divides isDefined right dividend divisor) :
      Divides isDefined (.binary op left right) dividend divisor

def Refuses (isDefined : Text → Bool) (expr : Expr) : Prop :=
  ∃ dividend divisor, expr.Divides isDefined dividend divisor ∧
    BinaryOp.hasQuotient dividend divisor = false

variable {isDefined : Text → Bool}

theorem Computes.unique {expr : Expr} {value other : Int64} (h : expr.Computes isDefined value)
    (hother : expr.Computes isDefined other) : other = value := by
  induction h generalizing other with
  | literal | name | defined =>
      cases hother
      rfl
  | unary _ ih =>
      cases hother with
      | unary hoperand => rw [ih hoperand]
  | decided _ hdecides ih =>
      cases hother with
      | decided hleft _ => rw [ih hleft]
      | binary hleft hopen _ _ => exact absurd (ih hleft ▸ hdecides) hopen
  | binary _ hopen _ _ ihleft ihright =>
      cases hother with
      | decided hleft hdecides => exact absurd (ihleft hleft ▸ hdecides) hopen
      | binary hleft _ hright _ => rw [ihleft hleft, ihright hright]

private theorem Divides.divisor_ne_zero {expr : Expr} {dividend divisor : Int64}
    (h : expr.Divides isDefined dividend divisor) {value : Int64}
    (hvalue : expr.Computes isDefined value) : divisor ≠ 0 := by
  induction h generalizing value with
  | here hdivision hleft hright =>
      cases hvalue with
      | decided _ hdecides => exact absurd hdecides (hdivision.not_decides _)
      | binary _ _ hother hdivisor => exact hright.unique hother ▸ hdivisor hdivision
  | operand _ ih =>
      cases hvalue with
      | unary hoperand => exact ih hoperand
  | left _ ih =>
      cases hvalue with
      | decided hleft _ => exact ih hleft
      | binary hleft _ _ _ => exact ih hleft
  | right hfirst hopen _ ih =>
      cases hvalue with
      | decided hleft hdecides => exact absurd (hfirst.unique hleft ▸ hdecides) hopen
      | binary _ _ hright _ => exact ih hright

private theorem refuses_iff {expr : Expr} : expr.Refuses isDefined ↔
    (∃ dividend, expr.Divides isDefined dividend 0) ∨
      expr.Divides isDefined Int64.minValue (-1) := by
  constructor
  · rintro ⟨dividend, divisor, hdivides, hquotient⟩
    rcases BinaryOp.hasQuotient_eq_false_iff.mp hquotient with rfl | ⟨rfl, rfl⟩
    · exact .inl ⟨dividend, hdivides⟩
    · exact .inr hdivides
  · rintro (⟨dividend, hdivides⟩ | hdivides)
    · exact ⟨dividend, 0, hdivides, BinaryOp.hasQuotient_eq_false_iff.mpr (.inl rfl)⟩
    · exact ⟨_, _, hdivides, BinaryOp.hasQuotient_eq_false_iff.mpr (.inr ⟨rfl, rfl⟩)⟩

@[simp] private theorem refuses_unary_iff {op : UnaryOp} {operand : Expr} :
    Refuses isDefined (.unary op operand) ↔ operand.Refuses isDefined := by
  constructor
  · rintro ⟨dividend, divisor, hdivides, hquotient⟩
    cases hdivides with
    | operand hoperand => exact ⟨dividend, divisor, hoperand, hquotient⟩
  · rintro ⟨dividend, divisor, hdivides, hquotient⟩
    exact ⟨dividend, divisor, .operand hdivides, hquotient⟩

section

variable {op : BinaryOp} {left right : Expr} {first second : Int64}

private theorem Refuses.binary_left (h : left.Refuses isDefined) :
    Refuses isDefined (.binary op left right) := by
  obtain ⟨dividend, divisor, hdivides, hquotient⟩ := h
  exact ⟨dividend, divisor, .left hdivides, hquotient⟩

private theorem Refuses.binary_right (hleft : left.Computes isDefined first)
    (hopen : ¬op.Decides first)
    (h : right.Refuses isDefined) : Refuses isDefined (.binary op left right) := by
  obtain ⟨dividend, divisor, hdivides, hquotient⟩ := h
  exact ⟨dividend, divisor, .right hleft hopen hdivides, hquotient⟩

private theorem Refuses.of_binary (hleft : left.Computes isDefined first)
    (h : Refuses isDefined (.binary op left right)) :
    left.Refuses isDefined ∨ (¬op.Decides first ∧ (right.Refuses isDefined ∨
      (op.IsDivision ∧ ∃ second, right.Computes isDefined second ∧
        BinaryOp.hasQuotient first second = false))) := by
  obtain ⟨dividend, divisor, hdivides, hquotient⟩ := h
  cases hdivides with
  | here hdivision hother hright =>
      cases hleft.unique hother
      exact .inr ⟨hdivision.not_decides _, .inr ⟨hdivision, divisor, hright, hquotient⟩⟩
  | left hinner => exact .inl ⟨dividend, divisor, hinner, hquotient⟩
  | right hother hopen hinner =>
      cases hleft.unique hother
      exact .inr ⟨hopen, .inl ⟨dividend, divisor, hinner, hquotient⟩⟩

variable {valueOf : Text → Except ExpressionFault Int64}

theorem eval_of_decides (hleft : left.eval valueOf isDefined = .ok first)
    (hdecides : op.Decides first) :
    eval valueOf isDefined (.binary op left right) = .ok (if first = 0 then 0 else 1) := by
  rw [eval, hleft]
  rcases hdecides with ⟨rfl, rfl⟩ | ⟨rfl, hfirst⟩
  · rfl
  · simp [bind, Except.bind, hfirst]
    rfl

theorem eval_of_not_decides (hleft : left.eval valueOf isDefined = .ok first)
    (hopen : ¬op.Decides first) :
    eval valueOf isDefined (.binary op left right) =
      (right.eval valueOf isDefined).bind (op.apply first) := by
  rw [BinaryOp.Decides, not_or] at hopen
  rw [eval, hleft]
  simp only [bind, Except.bind, if_neg hopen.1, if_neg hopen.2]

end

private theorem eval_cases {valueOf : Text → Except ExpressionFault Int64} {expr : Expr}
    (hnames : ∀ word ∈ expr.names, valueOf word = .ok 0) :
    (∃ value, expr.eval valueOf isDefined = .ok value ∧ expr.Computes isDefined value ∧
      ¬expr.Refuses isDefined) ∨
    (expr.eval valueOf isDefined = .error .divisionByZero ∧ expr.Refuses isDefined) := by
  induction expr with
  | literal value => exact .inl ⟨value, rfl, .literal value, nofun⟩
  | name word => exact .inl ⟨0, hnames word List.mem_cons_self, .name word, nofun⟩
  | defined word => exact .inl ⟨_, rfl, .defined word, nofun⟩
  | unary op operand ih =>
      rcases ih hnames with ⟨value, hvalue, hcomputes, hfree⟩ | ⟨herror, hrefuses⟩
      · refine .inl ⟨_, ?_, .unary hcomputes, fun h => hfree (refuses_unary_iff.mp h)⟩
        rw [eval, hvalue, ← UnaryOp.apply_eq]
        rfl
      · refine .inr ⟨?_, refuses_unary_iff.mpr hrefuses⟩
        rw [eval, herror]
        rfl
  | binary op left right ihleft ihright =>
      have hsides := List.forall_mem_append.mp hnames
      rcases ihleft hsides.1 with ⟨first, hfirst, hleft, hfree⟩ | ⟨herror, hrefuses⟩
      · by_cases hdecides : op.Decides first
        · refine .inl ⟨_, eval_of_decides hfirst hdecides, .decided hleft hdecides, fun h => ?_⟩
          exact (h.of_binary hleft).elim hfree fun hright => hright.1 hdecides
        rw [eval_of_not_decides hfirst hdecides]
        rcases ihright hsides.2 with ⟨second, hsecond, hright, hother⟩ | ⟨herror, hrefuses⟩
        · rw [hsecond, Except.bind, BinaryOp.apply_eq]
          by_cases hrefuses : op.IsDivision ∧ BinaryOp.hasQuotient first second = false
          · rw [if_pos hrefuses]
            exact .inr ⟨rfl, first, second, .here hrefuses.1 hleft hright, hrefuses.2⟩
          · rw [if_neg hrefuses]
            refine .inl ⟨_, rfl, .binary hleft hdecides hright ?_, fun h => ?_⟩
            · exact fun hdivision hzero => hrefuses
                ⟨hdivision, BinaryOp.hasQuotient_eq_false_iff.mpr (.inl hzero)⟩
            · rcases h.of_binary hleft with hinner | ⟨_, hinner | ⟨hdivision, value, hvalue, hnone⟩⟩
              · exact hfree hinner
              · exact hother hinner
              · exact hrefuses ⟨hdivision, hright.unique hvalue ▸ hnone⟩
        · rw [herror]
          exact .inr ⟨rfl, hrefuses.binary_right hleft hdecides⟩
      · refine .inr ⟨?_, hrefuses.binary_left⟩
        rw [eval, herror]
        rfl

theorem valueOf_of_contains {symbols : SymbolTable} {word : Text}
    (h : symbols.contains word = false) (version : GlslVersion) (depth : Nat) :
    symbols.valueOf version depth word = .ok 0 := by
  cases depth with
  | zero => rw [SymbolTable.valueOf, h, if_neg Bool.false_ne_true]
  | succ depth =>
      have hnone : symbols.get? word = none := by
        rwa [Table.contains, Option.isSome_eq_false_iff, Option.isNone_iff_eq_none] at h
      rw [SymbolTable.valueOf, hnone]

/-- Where no name in an expression is defined, evaluation gives its value in 64-bit arithmetic,
and it fails exactly where it comes to a `/` or `%` by zero, or to one of the least integer by
minus one. -/
theorem eval_eq_ok_iff_computes (symbols : SymbolTable) (version : GlslVersion) (depth : Nat)
    {expr : Expr} (hundefined : ∀ word ∈ expr.names, symbols.contains word = false) :
    (∀ value, expr.eval (symbols.valueOf version depth) symbols.contains = .ok value ↔
      expr.Computes symbols.contains value ∧
        ¬expr.Divides symbols.contains Int64.minValue (-1)) ∧
    ∀ fault, expr.eval (symbols.valueOf version depth) symbols.contains = .error fault ↔
      fault = .divisionByZero ∧ ((∃ dividend, expr.Divides symbols.contains dividend 0) ∨
        expr.Divides symbols.contains Int64.minValue (-1)) := by
  have hnames : ∀ word ∈ expr.names, symbols.valueOf version depth word = .ok 0 :=
    fun word hword => valueOf_of_contains (hundefined word hword) version depth
  rcases @eval_cases symbols.contains _ expr hnames with
    ⟨value, heval, hcomputes, hfree⟩ | ⟨heval, hrefuses⟩
  · rw [refuses_iff, not_or] at hfree
    refine ⟨fun other => ?_, fun fault => ?_⟩
    · rw [heval, Except.ok.injEq]
      exact ⟨fun heq => heq ▸ ⟨hcomputes, hfree.2⟩, fun h => h.1.unique hcomputes⟩
    · rw [heval]
      exact ⟨nofun, fun h => absurd h.2 (not_or.mpr hfree)⟩
  · rw [refuses_iff] at hrefuses
    refine ⟨fun other => ?_, fun fault => ?_⟩
    · rw [heval]
      refine ⟨nofun, fun ⟨hcomputes, hleast⟩ => ?_⟩
      obtain ⟨dividend, hzero⟩ := hrefuses.resolve_right hleast
      exact absurd rfl (hzero.divisor_ne_zero hcomputes)
    · rw [heval, Except.error.injEq]
      exact ⟨fun heq => ⟨heq.symm, hrefuses⟩, fun h => h.1.symm⟩

def guardedDivision : Expr :=
  .binary .logicalOr
    (.binary .logicalAnd (.name ['X']) (.binary .divide (.literal 1) (.literal 0)))
    (.binary .equal (.binary .divide (.unary .minus (.literal 7)) (.literal 2))
      (.unary .minus (.literal 3)))

theorem eval_eq_ok_iff_computes_guardedDivision :
    (∀ word ∈ guardedDivision.names, (Table.empty : SymbolTable).contains word = false) ∧
    guardedDivision.Computes (Table.empty : SymbolTable).contains 1 ∧
    ¬guardedDivision.Divides (Table.empty : SymbolTable).contains Int64.minValue (-1) := by
  have hundefined : ∀ word ∈ guardedDivision.names,
      (Table.empty : SymbolTable).contains word = false := by decide
  exact ⟨hundefined, ((eval_eq_ok_iff_computes .empty .es100 0 hundefined).1 1).mp (by decide)⟩

def leastQuotient : Expr :=
  .binary .divide
    (.binary .subtract (.unary .minus (.literal Int64.maxValue)) (.literal 1))
    (.unary .minus (.literal 1))

/-- The quotient of the least integer by minus one is refused as a division by zero. -/
theorem eval_leastQuotient :
    leastQuotient.eval (SymbolTable.valueOf .empty .es100 0)
      (Table.empty : SymbolTable).contains = .error .divisionByZero ∧
    leastQuotient.Computes (Table.empty : SymbolTable).contains Int64.minValue ∧
    ¬∃ dividend, leastQuotient.Divides (Table.empty : SymbolTable).contains dividend 0 := by
  have hcomputes : leastQuotient.Computes (Table.empty : SymbolTable).contains Int64.minValue :=
    .binary (.binary (.unary (.literal _)) (by decide) (.literal 1) (by decide)) (by decide)
      (.unary (.literal 1)) (by decide)
  exact ⟨by decide, hcomputes, fun ⟨_, hzero⟩ => hzero.divisor_ne_zero hcomputes rfl⟩

end Expr

end GlslCompose
