import Sulfur.Semantic.Constant

/-!
# What the evaluators evaluate

The evaluators of integers descend through literals, minus signs and the operators that
calculate, and read the texts of the literals only, so that the analysis of an
expression does not change what they find.
-/

namespace Sulfur

/-! ## The signed evaluator -/

theorem constEvalInt_literal_inv {base : Base} {digits : String} {value : Int}
    (evaluated : constEvalInt (.literal base .integer digits) = some value) :
    ∃ magnitude : Nat, strtoull digits = some magnitude ∧ value = magnitude := by
  rw [constEvalInt] at evaluated
  rcases Option.bind_eq_some_iff.mp evaluated with ⟨magnitude, parsed, found⟩
  split at found
  · cases found
  · exact ⟨magnitude, parsed, (Option.some.inj found).symm⟩

theorem constEvalInt_negatedLiteral_inv {base literalBase : Base} {digits : String}
    {value : Int}
    (evaluated : constEvalInt (.unary base .negate (.literal literalBase .integer digits)) =
      some value) :
    ∃ magnitude : Nat, strtoull digits = some magnitude ∧ value = -magnitude := by
  rw [constEvalInt, if_pos rfl] at evaluated
  rcases Option.bind_eq_some_iff.mp evaluated with ⟨magnitude, parsed, found⟩
  unfold negatedMagnitude at found
  split at found
  · cases found
  · exact ⟨magnitude, parsed, (Option.some.inj found).symm⟩

theorem constEvalInt_negate_inv {base : Base} {operand : Expr}
    (compound : operand.isLiteral = false) {value : Int}
    (evaluated : constEvalInt (.unary base .negate operand) = some value) :
    ∃ child, constEvalInt operand = some child ∧ child ≠ int64Min ∧ value = -child := by
  have unfolded : constEvalInt (.unary base .negate operand) =
      (constEvalInt operand).bind fun child =>
        if child = int64Min then none else some (-child) := by
    rw [constEvalInt.eq_def]
    cases operand with
    | literal => cases compound
    | _ => rfl
  rw [unfolded] at evaluated
  rcases Option.bind_eq_some_iff.mp evaluated with ⟨child, operandValue, found⟩
  rw [Option.ite_none_left_eq_some] at found
  exact ⟨child, operandValue, found.1, (Option.some.inj found.2).symm⟩

theorem constEvalInt_binary_inv {base : Base} {op : BinaryOp} {left right : Expr}
    {value : Int} (evaluated : constEvalInt (.binary base op left right) = some value) :
    ∃ a b, constEvalInt left = some a ∧ constEvalInt right = some b ∧
      evalIntBinary op a b = some value := by
  rw [constEvalInt] at evaluated
  rcases Option.bind_eq_some_iff.mp evaluated with ⟨a, leftValue, evaluated⟩
  rcases Option.bind_eq_some_iff.mp evaluated with ⟨b, rightValue, evaluated⟩
  exact ⟨a, b, leftValue, rightValue, evaluated⟩

/-! ## The unsigned evaluator -/

theorem constEvalUint_literal {base : Base} {digits : String} :
    constEvalUint (.literal base .integer digits) = strtoull digits := by
  rw [constEvalUint, literalMagnitude]
  intro literal op left right isBinary
  cases isBinary

theorem constEvalUint_unary (base : Base) (op : UnaryOp) (operand : Expr) :
    constEvalUint (.unary base op operand) = none := by
  rw [constEvalUint, literalMagnitude]
  · intro literal digits isLiteral
    cases isLiteral
  · intro literal op left right isBinary
    cases isBinary

theorem constEvalUint_binary_inv {base : Base} {op : BinaryOp} {left right : Expr}
    {value : Nat} (evaluated : constEvalUint (.binary base op left right) = some value) :
    ∃ a b, constEvalUint left = some a ∧ constEvalUint right = some b ∧
      evalUintBinary op a b = some value := by
  rw [constEvalUint] at evaluated
  rcases Option.bind_eq_some_iff.mp evaluated with ⟨a, leftValue, evaluated⟩
  rcases Option.bind_eq_some_iff.mp evaluated with ⟨b, rightValue, evaluated⟩
  exact ⟨a, b, leftValue, rightValue, evaluated⟩

/-! ## Constants -/

theorem literal_of_literalMagnitude {base : Base} {tokenType : LiteralType} {digits : String}
    {magnitude : Nat} (found : literalMagnitude (.literal base tokenType digits) = some magnitude) :
    tokenType = .integer := by
  cases tokenType with
  | integer => rfl
  | kwTrue => cases found
  | kwFalse => cases found

/-- The evaluators evaluate constants only. -/
theorem isConstant_of_constEvalInt {expr : Expr} {value : Int}
    (evaluated : constEvalInt expr = some value) : expr.IsConstant := by
  induction expr using Expr.induction generalizing value with
  | binary base op left right leftHypothesis rightHypothesis =>
      rcases constEvalInt_binary_inv evaluated with ⟨a, b, leftValue, rightValue, operation⟩
      refine ⟨?_, leftHypothesis leftValue, rightHypothesis rightValue⟩
      cases op <;> first | rfl | cases operation
  | unary base op operand operandHypothesis =>
      have negates : op = .negate := by
        by_contra other
        rw [constEvalInt.eq_def] at evaluated
        simp [other] at evaluated
      subst negates
      refine ⟨rfl, ?_⟩
      by_cases compound : operand.isLiteral = false
      · rcases constEvalInt_negate_inv compound evaluated with ⟨child, operandValue, _, _⟩
        exact operandHypothesis operandValue
      · cases operand with
        | literal literalBase tokenType digits =>
            rw [constEvalInt, if_pos rfl] at evaluated
            rcases Option.bind_eq_some_iff.mp evaluated with ⟨magnitude, found, _⟩
            exact literal_of_literalMagnitude found
        | _ => exact absurd rfl compound
  | literal base tokenType digits =>
      rw [constEvalInt] at evaluated
      rcases Option.bind_eq_some_iff.mp evaluated with ⟨magnitude, found, _⟩
      exact literal_of_literalMagnitude found
  | cast => cases evaluated
  | identifier => cases evaluated
  | funcCall => cases evaluated

theorem isConstant_of_constEvalUint {expr : Expr} {value : Nat}
    (evaluated : constEvalUint expr = some value) : expr.IsConstant := by
  induction expr using Expr.induction generalizing value with
  | binary base op left right leftHypothesis rightHypothesis =>
      rcases constEvalUint_binary_inv evaluated with ⟨a, b, leftValue, rightValue, operation⟩
      refine ⟨?_, leftHypothesis leftValue, rightHypothesis rightValue⟩
      cases op <;> first | rfl | cases operation
  | unary =>
      rw [constEvalUint_unary] at evaluated
      cases evaluated
  | literal base tokenType digits =>
      cases tokenType with
      | integer => rfl
      | kwTrue => cases evaluated
      | kwFalse => cases evaluated
  | cast => cases evaluated
  | identifier => cases evaluated
  | funcCall => cases evaluated

/-- The source of a constant tree is constant. -/
theorem Expr.Annotated.isConstant {source node : Expr} (annotated : source.Annotated node)
    (constant : node.IsConstant) : source.IsConstant := by
  induction node using Expr.induction generalizing source with
  | binary base op left right leftHypothesis rightHypothesis =>
      cases annotated with
      | binary first second =>
          exact ⟨constant.1, leftHypothesis first constant.2.1,
            rightHypothesis second constant.2.2⟩
  | unary base op operand operandHypothesis =>
      cases annotated with
      | unary inner => exact ⟨constant.1, operandHypothesis inner constant.2⟩
  | literal =>
      cases annotated with
      | literal => exact constant
  | cast => cases constant
  | identifier => cases constant
  | funcCall => cases constant

theorem Expr.Calculation.isConstant {expected : ValueType} {expr : Expr}
    (calculation : expr.Calculation BinaryOp.calculates expected) : expr.IsConstant := by
  induction calculation with
  | literal => rfl
  | negatedLiteral => exact ⟨rfl, rfl⟩
  | negate _ _ _ _ inductionHypothesis => exact ⟨rfl, inductionHypothesis⟩
  | shift allows _ _ _ _ _ leftHypothesis rightHypothesis =>
      exact ⟨allows, leftHypothesis, rightHypothesis⟩
  | arithmetic allows _ _ _ _ _ _ _ leftHypothesis rightHypothesis =>
      exact ⟨allows, leftHypothesis, rightHypothesis⟩

namespace Expr

/-- Both evaluators find the same in both trees. -/
def SameConstants (first second : Expr) : Prop :=
  constEvalInt first = constEvalInt second ∧ constEvalUint first = constEvalUint second

theorem SameConstants.symm {first second : Expr} (same : first.SameConstants second) :
    second.SameConstants first :=
  ⟨same.1.symm, same.2.symm⟩

theorem SameConstants.trans {first second third : Expr} (earlier : first.SameConstants second)
    (later : second.SameConstants third) : first.SameConstants third :=
  ⟨earlier.1.trans later.1, earlier.2.trans later.2⟩

theorem Annotated.sameConstants {source node : Expr} (annotated : source.Annotated node)
    (constant : node.IsConstant) : node.SameConstants source := by
  induction node using Expr.induction generalizing source with
  | binary base op left right leftHypothesis rightHypothesis =>
      cases annotated with
      | binary first second =>
          have leftSame := leftHypothesis first constant.2.1
          have rightSame := rightHypothesis second constant.2.2
          constructor
          · rw [constEvalInt, constEvalInt, leftSame.1, rightSame.1]
          · rw [constEvalUint, constEvalUint, leftSame.2, rightSame.2]
  | unary base op operand operandHypothesis =>
      cases annotated with
      | unary inner =>
          rcases constant with ⟨rfl, operandConstant⟩
          have operandSame := operandHypothesis inner operandConstant
          refine ⟨?_, (constEvalUint_unary _ _ _).trans (constEvalUint_unary _ _ _).symm⟩
          cases inner with
          | literal =>
              cases operandConstant
              rfl
          | binary => exact congrArg (Option.bind · _) operandSame.1
          | unary => exact congrArg (Option.bind · _) operandSame.1
          | cast => cases operandConstant
          | identifier => cases operandConstant
          | funcCall => cases operandConstant
          | widened => cases operandConstant
  | literal =>
      cases annotated with
      | literal =>
          cases constant
          exact ⟨rfl, constEvalUint_literal.trans constEvalUint_literal.symm⟩
  | cast => cases constant
  | identifier => cases constant
  | funcCall => cases constant

theorem constEvalInt_eq_none {expr : Expr} (other : ¬expr.IsConstant) :
    constEvalInt expr = none :=
  Option.eq_none_iff_forall_ne_some.mpr fun _ evaluated =>
    other (isConstant_of_constEvalInt evaluated)

theorem constEvalUint_eq_none {expr : Expr} (other : ¬expr.IsConstant) :
    constEvalUint expr = none :=
  Option.eq_none_iff_forall_ne_some.mpr fun _ evaluated =>
    other (isConstant_of_constEvalUint evaluated)

end Expr

/-- The evaluators find in an accepted tree what they find in its source. -/
theorem analyzeExpr_sameConstants (s : Semantic) {source : Expr} {expected : ValueType}
    (ok : (analyzeExpr s source expected).ok) :
    (analyzeExpr s source expected).node.SameConstants source := by
  have annotated := analyzeExpr_annotates s source expected ok
  by_cases constant : source.IsConstant
  · exact annotated.sameConstants
      (analyzeExpr_calculation s (fun _ calculates => calculates) constant ok).isConstant
  · have other : ¬(analyzeExpr s source expected).node.IsConstant :=
      fun node => constant (annotated.isConstant node)
    exact ⟨(Expr.constEvalInt_eq_none other).trans (Expr.constEvalInt_eq_none constant).symm,
      (Expr.constEvalUint_eq_none other).trans (Expr.constEvalUint_eq_none constant).symm⟩

end Sulfur
