import Sulfur.Ir.Evaluation
import Sulfur.Ir.Literal
import Sulfur.Semantic.Exact

/-!
# Constant expressions at run time

The analysis judges a constant expression by its value in 64 bits, and the generated
code computes it at the width of its type.  A constant whose parts stay within the
type has its exact value in both.
-/

namespace Sulfur.Ir

open Word

variable {World : Type}

/-! ## The operators -/

theorem evaluate_literal {base : Base} {value : String} {magnitude : Nat}
    (parsed : strtoull value = some magnitude) (range : base.resolved.InRange magnitude)
    (calls : Calls World) (memory : Memory World) :
    evaluate calls (.literal base .integer value) memory =
      some (some (magnitude : Int), memory) := by
  rw [evaluate, evaluateLiteral, (decimal_of_strtoull parsed).1, ValueType.wrap_of_inRange range]

theorem evaluate_negatedLiteral {base literalBase : Base} {value : String}
    {magnitude : Nat} (parsed : strtoull value = some magnitude)
    (same : literalBase.resolved = base.resolved)
    (range : base.resolved.InRange (-magnitude))
    (calls : Calls World) (memory : Memory World) :
    evaluate calls (.unary base .negate (.literal literalBase .integer value)) memory =
      some (some (-(magnitude : Int)), memory) := by
  have wrapped : base.resolved.wrap (-base.resolved.wrap magnitude) = -(magnitude : Int) := by
    rw [ValueType.wrap, ValueType.wrap, Format.wrap_neg_wrap]
    exact ValueType.wrap_of_inRange range
  have operand : evaluate calls (.literal literalBase .integer value) memory =
      some (some (base.resolved.wrap magnitude), memory) := by
    rw [evaluate, evaluateLiteral, (decimal_of_strtoull parsed).1, same]
  rw [evaluate, if_neg (by decide)]
  change (requireValue (evaluate calls _ memory)).bind _ = _
  rw [operand]
  change some (some (base.resolved.wrap (base.resolved.wrap _)), memory) = _
  rw [ValueType.wrap_wrap, wrapped]

theorem evaluate_negate {base : Base} {operand : Expr} {calls : Calls World}
    {memory : Memory World} {value : Int}
    (evaluated : evaluate calls operand memory = some (some value, memory))
    (range : base.resolved.InRange (-value)) :
    evaluate calls (.unary base .negate operand) memory = some (some (-value), memory) := by
  rw [evaluate, if_neg (by decide)]
  change (requireValue (evaluate calls operand memory)).bind _ = _
  rw [evaluated]
  change some (some (base.resolved.wrap (base.resolved.wrap _)), memory) = _
  rw [ValueType.wrap_wrap, ValueType.wrap_of_inRange range]

theorem evaluate_binary {base : Base} {op : BinaryOp} (calculates : op.calculates)
    {left right : Expr} {calls : Calls World} {memory : Memory World} {a b x : Int}
    (first : evaluate calls left memory = some (some a, memory))
    (second : evaluate calls right memory = some (some b, memory))
    (result : binaryResult op base.resolved a b = some x) :
    evaluate calls (.binary base op left right) memory = some (some x, memory) := by
  have relational : op.isRelational = false := by
    cases op <;> first | rfl | cases calculates
  have range := binaryResult_inRange relational result
  rw [evaluate]
  change (requireValue (evaluate calls left memory)).bind _ = _
  rw [first]
  change (requireValue (evaluate calls right memory)).bind _ = _
  rw [second]
  change (binaryResult op (if op.isRelational then left.resolved else base.resolved) a b).bind
    _ = _
  rw [relational, if_neg Bool.false_ne_true, result]
  change some (some (base.resolved.wrap x), memory) = _
  rw [ValueType.wrap_of_inRange range]

/-- On values of a type, an exact result in the type is the one of the generated
operation. -/
theorem binaryResult_of_exactResult {op : BinaryOp} {type : ValueType} {a b x : Int}
    (first : type.InRange a) (second : op.isShift = false → type.InRange b)
    (amount : op.isShift → b < type.widthBits) (range : type.InRange x)
    (exact : op.exactResult type a b = some x) : binaryResult op type a b = some x := by
  have left := ValueType.wrap_of_inRange first
  cases op with
  | add | sub | mul =>
      have right := ValueType.wrap_of_inRange (second rfl)
      cases exact
      simp [binaryResult, left, right, ValueType.wrap_of_inRange range]
  | div =>
      have right := ValueType.wrap_of_inRange (second rfl)
      simp only [BinaryOp.exactResult, Option.ite_none_left_eq_some,
        Option.some.injEq] at exact
      rcases exact with ⟨nonzero, rfl⟩
      simp [binaryResult, left, right, nonzero, range]
  | bitwiseLshift =>
      simp only [BinaryOp.exactResult, Option.ite_none_left_eq_some,
        Option.some.injEq] at exact
      rcases exact with ⟨nonneg, rfl⟩
      simp [binaryResult, left, ValueType.wrap_of_inRange range, not_lt.mp nonneg, amount rfl]
  | bitwiseRshift =>
      simp only [BinaryOp.exactResult, Option.ite_none_left_eq_some,
        Option.some.injEq] at exact
      rcases exact with ⟨nonneg, rfl⟩
      simp [binaryResult, left, not_lt.mp nonneg, amount rfl]
  | bitwiseAnd | bitwiseOr | bitwiseXor =>
      have right := ValueType.wrap_of_inRange (second rfl)
      cases exact
      simp [binaryResult, left, right]
  | _ => cases exact

/-! ## The generated code -/

theorem typed_of_calculation {allowed : BinaryOp → Bool} {expected : ValueType}
    (subset : ∀ op, allowed op → op.calculates) {expr : Expr}
    (calculation : expr.Calculation allowed expected) (s : Semantic) : expr.Typed s := by
  induction calculation with
  | @literal expected base _ magnitude parsed target fits =>
      have integer : base.resolved.isInteger := by
        rw [target]
        exact literalTarget_isInteger expected
      exact ⟨magnitude, parsed, integer, .inl fits⟩
  | @negatedLiteral expected base literalBase _ magnitude parsed _ target same fits =>
      have signed : base.resolved.isSigned := by
        rw [target]
        exact negatedLiteralTarget_isSigned expected
      have integer : literalBase.resolved.isInteger := by
        rw [same, ValueType.isInteger, signed]
        rfl
      exact ⟨⟨magnitude, parsed, integer, .inr (same ▸ fits)⟩,
        ⟨(congrArg ValueType.isSigned same).trans signed, same.symm⟩,
        by intro other; cases other⟩
  | negate _ _ same signed inductionHypothesis =>
      exact ⟨inductionHypothesis, ⟨(congrArg ValueType.isSigned same).trans signed, same.symm⟩,
        by intro other; cases other⟩
  | @shift expected base op left right allows shifts _ _ same _ leftHypothesis
      rightHypothesis =>
      have logical : op.isLogical = false := by
        cases op <;> first | rfl | cases shifts
      refine ⟨leftHypothesis, rightHypothesis, ?_⟩
      simp [BinaryOp.Typed, logical, shifts, same]
  | @arithmetic expected base op left right allows plain first _ group promoted _ _
      leftHypothesis rightHypothesis =>
      have classes : op.isLogical = false ∧ op.isRelational = false := by
        simpa [BinaryOp.calculates] using subset op allows
      refine ⟨leftHypothesis, rightHypothesis, ?_⟩
      simp [BinaryOp.Typed, classes, plain, group, first.isInteger, promoted]

theorem settled_of_calculation {allowed : BinaryOp → Bool} {expected : ValueType}
    {expr : Expr} (calculation : expr.Calculation allowed expected) : settled expr := by
  have before : ∀ {type : ValueType} {operand : Expr} (others : List Expr),
      operand.Calculation allowed type → settledBefore operand others := by
    intro type operand others inner
    cases inner <;> rfl
  induction calculation with
  | literal => rfl
  | negatedLiteral => rfl
  | negate _ _ _ _ inductionHypothesis =>
      rw [settled]
      exact inductionHypothesis
  | shift _ _ first _ _ _ leftHypothesis rightHypothesis =>
      rw [settled, leftHypothesis, rightHypothesis, before _ first]
      rfl
  | arithmetic _ _ first _ _ _ _ _ leftHypothesis rightHypothesis =>
      rw [settled, leftHypothesis, rightHypothesis, before _ first]
      rfl

/-- The generated code of a constant expression computes what it evaluates to. -/
theorem run_of_evaluate {allowed : BinaryOp → Bool} {expected : ValueType}
    (subset : ∀ op, allowed op → op.calculates) {expr : Expr}
    (calculation : expr.Calculation allowed expected) (calls : Calls World) (nextTemp : Nat)
    {state : State World} (params : state.params = []) :
    (execAll calls (generateExpression expr nextTemp).operations state).map
        (observe (generateExpression expr nextTemp)) =
      evaluate calls expr state.memory :=
  generateExpression_evaluates
    ⟨freshState, wellFormed_freshState, typed_of_calculation subset calculation freshState⟩
    calls nextTemp params (undisturbed_of_settled (settled_of_calculation calculation) _)

/-! ## Arithmetic -/

theorem evaluate_of_exactIn {expected : ValueType} {expr : Expr}
    (calculation : expr.Calculation BinaryOp.isArithmetic expected) {value : Int}
    (exact : expr.exactIn expr.resolved = some value) (calls : Calls World)
    (memory : Memory World) : evaluate calls expr memory = some (some value, memory) := by
  induction calculation generalizing value with
  | literal =>
      rcases Expr.exactWith_literal.mp exact with ⟨magnitude, parsed, range, rfl⟩
      exact evaluate_literal parsed range calls memory
  | negatedLiteral _ _ _ same _ =>
      rcases Expr.exactWith_negatedLiteral.mp exact with ⟨magnitude, parsed, range, rfl⟩
      exact evaluate_negatedLiteral parsed same range calls memory
  | @negate _ base operand _ compound same _ inductionHypothesis =>
      rcases (Expr.exactWith_unary compound).mp exact with ⟨child, operandExact, range, rfl⟩
      have typed : (Expr.unary base .negate operand).resolved = operand.resolved := same.symm
      rw [typed] at operandExact
      exact evaluate_negate (inductionHypothesis operandExact) range
  | shift allows shifts =>
      exact absurd shifts (by simp [Expr.unshifted_of_isArithmetic allows])
  | @arithmetic _ base op left right allows plain first second group promoted _ _
      leftHypothesis rightHypothesis =>
      rcases Expr.same_of_promote first.isInteger
        (second.resolved_cases Expr.calculates_of_isArithmetic) group promoted with
        ⟨rightSame, resultSame⟩
      rcases Expr.exactWith_binary.mp exact with
        ⟨a, leftExact, b, rightExact, operation, range⟩
      have typed : (Expr.binary base op left right).resolved = left.resolved := resultSame
      have result := binaryResult_of_exactResult (Expr.inRange_of_exactIn leftExact)
        (fun _ => Expr.inRange_of_exactIn rightExact)
        (fun shifts => absurd shifts (by simp [plain])) range operation
      rw [typed] at leftExact rightExact
      rw [rightSame] at rightHypothesis
      exact evaluate_binary (Expr.calculates_of_isArithmetic op allows)
        (leftHypothesis leftExact) (rightHypothesis rightExact) result

/-- All parts of an accepted arithmetic constant have its type.  They stay within it, so
that the generated code computes the exact value, exactly when no part overflows the 64
bits of the evaluators and no compound minus stands before the type's smallest value. -/
theorem constant_exact_iff {s : Semantic} {source : Expr}
    (arithmetic : source.BuiltFrom BinaryOp.isArithmetic) {expected : ValueType}
    (accepted : (analyzeExpr s source expected).ok) (calls : Calls World) (nextTemp : Nat)
    {state : State World} (params : state.params = []) :
    let node := (analyzeExpr s source expected).node
    (∀ part ∈ node.constantNodes, part.resolved = node.resolved) ∧
      ((∃ value, node.exactIn node.resolved = some value ∧
          (execAll calls (generateExpression node nextTemp).operations state).map
            (observe (generateExpression node nextTemp)) = some (some value, state.memory)) ↔
        (∃ value, node.exactIn node.resolved.widest = some value) ∧
          ¬node.NegatesLeast node.resolved) := by
  have calculation := analyzeExpr_calculation s Expr.calculates_of_isArithmetic arithmetic
    accepted
  dsimp only
  constructor
  · exact calculation.uniform Expr.calculates_of_isArithmetic
      fun _ allows => Expr.unshifted_of_isArithmetic allows
  · rw [← Expr.exists_exactIn_iff calculation]
    constructor
    · rintro ⟨value, exact, _⟩
      exact ⟨value, exact⟩
    · rintro ⟨value, exact⟩
      refine ⟨value, exact, ?_⟩
      rw [run_of_evaluate Expr.calculates_of_isArithmetic calculation calls nextTemp params]
      exact evaluate_of_exactIn calculation exact calls _

/-- Every slot is 0. -/
def zeros : State Unit :=
  ⟨fun _ => 0, [], ()⟩

/-- The expression `-(2 * 3)`. -/
def negatedProduct : Expr :=
  .unary {} .negate (.binary {} .mul (numeral "2") (numeral "3"))

theorem constant_exact_iff_negatedProduct :
    let node := (analyzeExpr freshState negatedProduct .i8).node
    (∀ part ∈ node.constantNodes, part.resolved = node.resolved) ∧
      ((∃ value, node.exactIn node.resolved = some value ∧
          (execAll noCalls (generateExpression node 0).operations zeros).map
            (observe (generateExpression node 0)) = some (some value, zeros.memory)) ↔
        (∃ value, node.exactIn node.resolved.widest = some value) ∧
          ¬node.NegatesLeast node.resolved) :=
  have arithmetic : negatedProduct.BuiltFrom BinaryOp.isArithmetic := ⟨rfl, rfl, rfl, rfl⟩
  constant_exact_iff arithmetic (by decide) noCalls 0 rfl

/-- The expression `9223372036854775807 + 1`. -/
def overflowingSum : Expr :=
  .binary {} .add (numeral "9223372036854775807") (numeral "1")

/-- A program that initialises an `i64` with this sum and an `i8` with `-(-128)`. -/
def overflowingSource : String :=
  "fn main() i32 { i64 x = 9223372036854775807 + 1; i8 y = -(-128); return 0; }"

/-- The sum is accepted at type `i64`, overflows it, and is computed with a wrap; so is
`-(-128)` at type `i8`. -/
theorem overflowingSum_accepted :
    (compileFrontend overflowingSource "main.su" {}).isSome ∧
      (analyzeExpr freshState overflowingSum .i64).ok ∧
      (analyzeExpr freshState overflowingSum .i64).node.resolved = .i64 ∧
      (analyzeExpr freshState overflowingSum .i64).node.exactIn .i64 = none ∧
      ((evaluate noCalls (analyzeExpr freshState overflowingSum .i64).node
          ⟨fun _ => 0, ()⟩).map Prod.fst) = some (some (-9223372036854775808)) := by
  refine ⟨by decide, by decide, by decide, by decide, ?_⟩
  decide

end Sulfur.Ir
