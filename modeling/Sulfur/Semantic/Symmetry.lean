import Sulfur.Semantic.Evaluator

/-!
# Exchanging the operands of an operator

The operand that is analysed first takes its type from the context, and the other one
takes the type of the first.  Two orders of the operands have one outcome where no
operand minds which of the two it gets.
-/

namespace Sulfur

/-- The operator that means the same with its operands exchanged. -/
def BinaryOp.mirror : BinaryOp → Option BinaryOp
  | .add => some .add
  | .mul => some .mul
  | .bitwiseAnd => some .bitwiseAnd
  | .bitwiseOr => some .bitwiseOr
  | .bitwiseXor => some .bitwiseXor
  | .relationalEqual => some .relationalEqual
  | .relationalNotEqual => some .relationalNotEqual
  | .relationalLess => some .relationalGreater
  | .relationalGreater => some .relationalLess
  | .relationalLessEqual => some .relationalGreaterEqual
  | .relationalGreaterEqual => some .relationalLessEqual
  | _ => none

theorem BinaryOp.mirror_mirror {op other : BinaryOp} (mirrored : op.mirror = some other) :
    other.mirror = some op := by
  cases op <;> cases mirrored <;> rfl

/-- The type of an accepted expression. -/
def ExprAnalysis.outcome (analysis : ExprAnalysis) : Option ValueType :=
  if analysis.ok then some analysis.node.resolved else none

/-- An expression has the same outcome at either type. -/
def Semantic.Indifferent (s : Semantic) (expr : Expr) (first second : ValueType) : Prop :=
  (analyzeExpr s expr first).outcome = (analyzeExpr s expr second).outcome

theorem ExprAnalysis.outcome_eq_some {analysis : ExprAnalysis} {type : ValueType} :
    analysis.outcome = some type ↔ analysis.ok ∧ analysis.node.resolved = type := by
  simp [outcome]

/-! ## Operators on analysed operands -/

section Operators

variable {s : Semantic}

theorem constCheckOverflow_ok_iff {expr : Expr} {resolved : ValueType} {filename : String} :
    (constCheckOverflow expr resolved filename).ok ↔ expr.FitsWhenEvaluated resolved := by
  constructor
  · exact constCheckOverflow_ok
  · intro fits
    unfold Expr.FitsWhenEvaluated at fits
    unfold constCheckOverflow
    split at fits
    · rename_i signed
      rw [if_pos signed]
      unfold checkSignedOverflow
      cases evaluated : constEvalInt expr with
      | none => rfl
      | some value =>
          dsimp only
          rw [if_pos (fits value evaluated)]
    · rename_i unsigned
      rw [if_neg unsigned]
      unfold checkUnsignedOverflow
      cases evaluated : constEvalUint expr with
      | none =>
          dsimp only
          rw [fits.2]
      | some value =>
          dsimp only
          rw [if_pos (fits.1 value evaluated)]

theorem evalIntBinary_mirror {op other : BinaryOp} (mirrored : op.mirror = some other)
    (a b : Int) : evalIntBinary op a b = evalIntBinary other b a := by
  cases op <;> cases mirrored <;>
    simp only [evalIntBinary, int64Bitwise, Int.add_comm, Int.mul_comm, BitVec.and_comm,
      BitVec.or_comm, BitVec.xor_comm]

theorem evalUintBinary_mirror {op other : BinaryOp} (mirrored : op.mirror = some other)
    (a b : Nat) : evalUintBinary op a b = evalUintBinary other b a := by
  cases op <;> cases mirrored <;>
    simp only [evalUintBinary, Nat.add_comm, Nat.mul_comm, Nat.and_comm, Nat.or_comm,
      Nat.xor_comm]

/-- The evaluators find the same with the operands exchanged. -/
theorem sameConstants_mirror {op other : BinaryOp} (mirrored : op.mirror = some other)
    {base otherBase : Base} {left right newLeft newRight : Expr}
    (leftSame : left.SameConstants newLeft) (rightSame : right.SameConstants newRight) :
    (Expr.binary base op left right).SameConstants
      (.binary otherBase other newRight newLeft) := by
  constructor
  · rw [constEvalInt, constEvalInt, leftSame.1, rightSame.1]
    cases constEvalInt newLeft with
    | none => cases constEvalInt newRight <;> rfl
    | some a =>
        cases constEvalInt newRight with
        | none => rfl
        | some b => exact evalIntBinary_mirror mirrored a b
  · rw [constEvalUint, constEvalUint, leftSame.2, rightSame.2]
    cases constEvalUint newLeft with
    | none => cases constEvalUint newRight <;> rfl
    | some a =>
        cases constEvalUint newRight with
        | none => rfl
        | some b => exact evalUintBinary_mirror mirrored a b

theorem underflowOperands_mirror {op other : BinaryOp} (mirrored : op.mirror = some other)
    (base : Base) (left right : Expr) :
    underflowOperands (.binary base op left right) = none := by
  cases op <;> first | rfl | cases mirrored

theorem fitsWhenEvaluated_mirror {op other : BinaryOp} (mirrored : op.mirror = some other)
    {base otherBase : Base} {left right newLeft newRight : Expr}
    (leftSame : left.SameConstants newLeft) (rightSame : right.SameConstants newRight)
    (type : ValueType) :
    (Expr.binary base op left right).FitsWhenEvaluated type ↔
      (Expr.binary otherBase other newRight newLeft).FitsWhenEvaluated type := by
  have same : (Expr.binary base op left right).SameConstants
      (.binary otherBase other newRight newLeft) :=
    sameConstants_mirror mirrored leftSame rightSame
  unfold Expr.FitsWhenEvaluated
  rw [same.1, same.2, underflowOperands_mirror mirrored,
    underflowOperands_mirror (BinaryOp.mirror_mirror mirrored)]

theorem promote_comm {a b : ValueType} (group : a.isSameGroup b) :
    a.promote b = b.promote a := by
  unfold ValueType.promote
  split
  · rename_i wide
    split
    · rename_i narrow
      exact ValueType.eq_of_isSameGroup_of_widthBits_eq group (le_antisymm narrow wide)
    · rfl
  · rename_i narrow
    rw [if_pos (by omega)]

theorem outcome_analyzeRelational (base : Base) (op : BinaryOp) (left right : Expr) :
    (analyzeRelational s base op left right).outcome =
      if left.resolved.isSameGroup right.resolved ∧
          left.resolved.widthBits = right.resolved.widthBits then
        some .bool
      else
        none := by
  unfold analyzeRelational
  dsimp only
  split
  · rename_i group
    rw [if_neg (by simp_all)]
    rfl
  · rename_i group
    split
    · rename_i width
      rw [if_neg (fun both => width both.2)]
      rfl
    · rename_i width
      rw [if_pos (by simp_all)]
      rfl

theorem outcome_analyzeArithmetic {base : Base} {op : BinaryOp} (plain : op ≠ .div)
    {left right : Expr} {type : ValueType} :
    (analyzeArithmetic s base op left right).outcome = some type ↔
      left.resolved.isSameGroup right.resolved ∧ left.resolved.isInteger ∧
        (Expr.binary { base with resolved := type } op left right).FitsWhenEvaluated type ∧
        left.resolved.promote right.resolved = type := by
  unfold analyzeArithmetic
  dsimp only
  split
  · rename_i group
    simp_all [ExprAnalysis.outcome]
  · rename_i group
    split
    · rename_i integer
      simp_all [ExprAnalysis.outcome]
    · rename_i integer
      simp only [Bool.not_eq_true, Bool.not_eq_false'] at group integer
      rw [if_neg (by simp [plain]), ExprAnalysis.outcome_eq_some]
      simp only [group, integer, true_and]
      rw [constCheckOverflow_ok_iff]
      constructor
      · rintro ⟨fits, rfl⟩
        exact ⟨fits, rfl⟩
      · rintro ⟨fits, rfl⟩
        exact ⟨fits, rfl⟩

theorem outcome_analyzeOperation_relational {base : Base} {op : BinaryOp}
    (relational : op.isRelational) (left right : Expr) :
    (analyzeOperation s base op left right).outcome =
      (analyzeRelational s base op left right).outcome := by
  cases op <;> first | rfl | cases relational

theorem outcome_analyzeOperation_arithmetic {base : Base} {op other : BinaryOp}
    (mirrored : op.mirror = some other) (relational : op.isRelational = false)
    (left right : Expr) :
    (analyzeOperation s base op left right).outcome =
      (analyzeArithmetic s base op left right).outcome := by
  cases op <;> first | rfl | exact absurd relational (by decide) | cases mirrored

/-- The checks of an operator do not tell its operands apart. -/
theorem analyzeOperation_mirror {op other : BinaryOp} (mirrored : op.mirror = some other)
    {base otherBase : Base} {left right newLeft newRight : Expr}
    (leftType : left.resolved = newLeft.resolved)
    (rightType : right.resolved = newRight.resolved)
    (leftSame : left.SameConstants newLeft) (rightSame : right.SameConstants newRight) :
    (analyzeOperation s base op left right).outcome =
      (analyzeOperation s otherBase other newRight newLeft).outcome := by
  by_cases relational : op.isRelational
  · have otherRelational : other.isRelational := by
      cases op <;> cases mirrored <;> first | rfl | cases relational
    rw [outcome_analyzeOperation_relational relational,
      outcome_analyzeOperation_relational otherRelational, outcome_analyzeRelational,
      outcome_analyzeRelational, leftType, rightType, ValueType.isSameGroup_comm]
    simp only [eq_comm]
  · have plain := Bool.eq_false_iff.mpr relational
    have otherPlain : other.isRelational = false := by
      cases op <;> cases mirrored <;> first | rfl | cases plain
    have notDiv : op ≠ .div := by
      rintro rfl
      cases mirrored
    have otherNotDiv : other ≠ .div := by
      rintro rfl
      cases BinaryOp.mirror_mirror mirrored
    rw [outcome_analyzeOperation_arithmetic mirrored plain,
      outcome_analyzeOperation_arithmetic (BinaryOp.mirror_mirror mirrored) otherPlain]
    apply Option.ext
    intro type
    rw [outcome_analyzeArithmetic notDiv, outcome_analyzeArithmetic otherNotDiv, leftType,
      rightType, ValueType.isSameGroup_comm,
      fitsWhenEvaluated_mirror mirrored leftSame rightSame type]
    constructor
    · rintro ⟨group, integer, fits, promoted⟩
      refine ⟨group, ?_, fits, ?_⟩
      · rw [ValueType.isInteger_eq_of_isSameGroup group]
        exact integer
      · rw [promote_comm group]
        exact promoted
    · rintro ⟨group, integer, fits, promoted⟩
      refine ⟨group, ?_, fits, ?_⟩
      · rw [← ValueType.isInteger_eq_of_isSameGroup group]
        exact integer
      · rw [← promote_comm group]
        exact promoted

/-! ## The two orders -/

/-- One order finds the operands of the other one exchanged. -/
structure OperandsAnalysis.Mirrors (first second : OperandsAnalysis) : Prop where
  ok : first.ok = second.ok
  left : first.ok → first.left.resolved = second.right.resolved ∧
    first.left.SameConstants second.right
  right : first.ok → first.right.resolved = second.left.resolved ∧
    first.right.SameConstants second.left

theorem OperandsAnalysis.Mirrors.symm {first second : OperandsAnalysis}
    (mirrors : first.Mirrors second) : second.Mirrors first where
  ok := mirrors.ok.symm
  left ok := by
    rcases mirrors.right (mirrors.ok.trans ok) with ⟨type, constants⟩
    exact ⟨type.symm, constants.symm⟩
  right ok := by
    rcases mirrors.left (mirrors.ok.trans ok) with ⟨type, constants⟩
    exact ⟨type.symm, constants.symm⟩

theorem outcome_analyzeBinary_mirror {op other : BinaryOp} (mirrored : op.mirror = some other)
    {base otherBase : Base} {left right : Expr} {expected : ValueType}
    (mirrors : OperandsAnalysis.Mirrors
      (analyzeBinaryOperands op left right (fun type => analyzeExpr s left type)
        (fun type => analyzeExpr s right type) (operandExpected op expected))
      (analyzeBinaryOperands other right left (fun type => analyzeExpr s right type)
        (fun type => analyzeExpr s left type) (operandExpected other expected))) :
    (analyzeExpr s (.binary base op left right) expected).outcome =
      (analyzeExpr s (.binary otherBase other right left) expected).outcome := by
  rw [analyzeExpr, analyzeExpr]
  unfold analyzeBinary
  generalize analyzeBinaryOperands op left right (fun type => analyzeExpr s left type)
    (fun type => analyzeExpr s right type) (operandExpected op expected) = first at mirrors
  generalize analyzeBinaryOperands other right left (fun type => analyzeExpr s right type)
    (fun type => analyzeExpr s left type) (operandExpected other expected) = second at mirrors
  dsimp only
  rw [← mirrors.ok]
  by_cases ok : first.ok
  · rcases mirrors.left ok with ⟨leftType, leftSame⟩
    rcases mirrors.right ok with ⟨rightType, rightSame⟩
    simp only [ok, leftType, rightType, Bool.not_true, Bool.false_eq_true, if_false]
    by_cases typed : second.right.resolved = .unresolved ∨ second.left.resolved = .unresolved
    · rw [if_pos typed, if_pos typed.symm]
      rfl
    · rw [if_neg typed, if_neg fun swapped => typed swapped.symm]
      exact analyzeOperation_mirror mirrored leftType rightType leftSame rightSame
  · simp [ok, ExprAnalysis.outcome]

/-- Two accepted analyses of one expression with one type. -/
theorem same_of_indifferent {expr : Expr} {first second : ValueType}
    (indifferent : s.Indifferent expr first second) :
    (analyzeExpr s expr first).ok = (analyzeExpr s expr second).ok ∧
      ((analyzeExpr s expr first).ok →
        (analyzeExpr s expr first).node.resolved =
            (analyzeExpr s expr second).node.resolved ∧
          (analyzeExpr s expr first).node.SameConstants
            (analyzeExpr s expr second).node) := by
  unfold Semantic.Indifferent ExprAnalysis.outcome at indifferent
  by_cases ok : (analyzeExpr s expr first).ok
  · by_cases again : (analyzeExpr s expr second).ok
    · rw [if_pos ok, if_pos again] at indifferent
      refine ⟨ok.trans again.symm, fun _ => ⟨Option.some.inj indifferent, ?_⟩⟩
      exact (analyzeExpr_sameConstants s ok).trans (analyzeExpr_sameConstants s again).symm
    · rw [if_pos ok, if_neg again] at indifferent
      cases indifferent
  · by_cases again : (analyzeExpr s expr second).ok
    · rw [if_neg ok, if_pos again] at indifferent
      cases indifferent
    · exact ⟨(Bool.eq_false_iff.mpr ok).trans (Bool.eq_false_iff.mpr again).symm,
        fun accepted => absurd accepted ok⟩

theorem analyzeBinaryOperands_of_order {op : BinaryOp} {left right : Expr}
    {analyzeLeft analyzeRight : ValueType → ExprAnalysis} {expected : ValueType}
    (shift : op.isShift = false)
    (order : (op.isRelational && left.isLiteral && !right.isLiteral) = false) :
    analyzeBinaryOperands op left right analyzeLeft analyzeRight expected =
      let first := analyzeLeft expected
      if first.ok then
        let second := analyzeRight (siblingExpected first.node expected)
        ⟨second.ok, first.node, second.node, first.log ++ second.log⟩
      else
        ⟨false, first.node, right, first.log⟩ := by
  unfold analyzeBinaryOperands
  rw [order, shift]
  rfl

theorem analyzeBinaryOperands_of_swapped {op : BinaryOp} {left right : Expr}
    {analyzeLeft analyzeRight : ValueType → ExprAnalysis} {expected : ValueType}
    (order : (op.isRelational && left.isLiteral && !right.isLiteral) = true) :
    analyzeBinaryOperands op left right analyzeLeft analyzeRight expected =
      let first := analyzeRight expected
      if first.ok then
        let second := analyzeLeft (siblingExpected first.node expected)
        ⟨second.ok, second.node, first.node, first.log ++ second.log⟩
      else
        ⟨false, left, first.node, first.log⟩ := by
  unfold analyzeBinaryOperands
  rw [order]
  rfl

/-- A comparison of a literal with another expression analyses the other expression
first in both orders. -/
theorem mirrors_of_literal {op other : BinaryOp} (plain : other.isShift = false)
    {left right : Expr} {expected : ValueType}
    (order : (op.isRelational && left.isLiteral && !right.isLiteral) = true)
    (otherOrder : (other.isRelational && right.isLiteral && !left.isLiteral) = false) :
    OperandsAnalysis.Mirrors
      (analyzeBinaryOperands op left right (fun type => analyzeExpr s left type)
        (fun type => analyzeExpr s right type) expected)
      (analyzeBinaryOperands other right left (fun type => analyzeExpr s right type)
        (fun type => analyzeExpr s left type) expected) := by
  rw [analyzeBinaryOperands_of_swapped order, analyzeBinaryOperands_of_order plain otherOrder]
  dsimp only
  split
  · exact ⟨rfl, fun _ => ⟨rfl, rfl, rfl⟩, fun _ => ⟨rfl, rfl, rfl⟩⟩
  · exact ⟨rfl, nofun, nofun⟩

/-- Operands that do not mind the order are analysed alike in both. -/
theorem mirrors_of_indifferent {op other : BinaryOp} (plain : op.isShift = false)
    (otherPlain : other.isShift = false) {left right : Expr} {expected : ValueType}
    (order : (op.isRelational && left.isLiteral && !right.isLiteral) = false)
    (otherOrder : (other.isRelational && right.isLiteral && !left.isLiteral) = false)
    (leftIndifferent : s.Indifferent left expected
      (siblingExpected (analyzeExpr s right expected).node expected))
    (rightIndifferent : s.Indifferent right expected
      (siblingExpected (analyzeExpr s left expected).node expected)) :
    OperandsAnalysis.Mirrors
      (analyzeBinaryOperands op left right (fun type => analyzeExpr s left type)
        (fun type => analyzeExpr s right type) expected)
      (analyzeBinaryOperands other right left (fun type => analyzeExpr s right type)
        (fun type => analyzeExpr s left type) expected) := by
  rw [analyzeBinaryOperands_of_order plain order,
    analyzeBinaryOperands_of_order otherPlain otherOrder]
  rcases same_of_indifferent leftIndifferent with ⟨leftOk, leftSame⟩
  rcases same_of_indifferent rightIndifferent with ⟨rightOk, rightSame⟩
  dsimp only
  rw [← rightOk, ← leftOk]
  by_cases first : (analyzeExpr s left expected).ok
  · by_cases second : (analyzeExpr s right expected).ok
    · rw [if_pos first, if_pos second]
      refine ⟨second.trans first.symm, fun _ => leftSame first, fun _ => ?_⟩
      rcases rightSame second with ⟨type, constants⟩
      exact ⟨type.symm, constants.symm⟩
    · rw [if_pos first, if_neg second]
      refine ⟨Bool.eq_false_iff.mpr second, fun accepted => ?_, fun accepted => ?_⟩
      · exact absurd accepted second
      · exact absurd accepted second
  · by_cases second : (analyzeExpr s right expected).ok
    · rw [if_neg first, if_pos second]
      exact ⟨(Bool.eq_false_iff.mpr first).symm, nofun, nofun⟩
    · rw [if_neg first, if_neg second]
      exact ⟨rfl, nofun, nofun⟩

theorem mirror_classes {op other : BinaryOp} (mirrored : op.mirror = some other) :
    op.isShift = false ∧ other.isShift = false ∧ op.isRelational = other.isRelational := by
  cases op <;> cases mirrored <;> exact ⟨rfl, rfl, rfl⟩

theorem operandExpected_mirror {op other : BinaryOp} (mirrored : op.mirror = some other)
    (expected : ValueType) : operandExpected op expected = operandExpected other expected := by
  cases op <;> cases mirrored <;> rfl

/-- The orders mirror each other where neither operand minds whether it is typed by the
context or by the other one, and in a comparison of a literal with any other
expression. -/
theorem mirrors_of_agree {op other : BinaryOp} (mirrored : op.mirror = some other)
    {left right : Expr} {expected : ValueType}
    (agree : (op.isRelational ∧ left.isLiteral ≠ right.isLiteral) ∨
      s.Indifferent left expected
          (siblingExpected (analyzeExpr s right expected).node expected) ∧
        s.Indifferent right expected
          (siblingExpected (analyzeExpr s left expected).node expected)) :
    OperandsAnalysis.Mirrors
      (analyzeBinaryOperands op left right (fun type => analyzeExpr s left type)
        (fun type => analyzeExpr s right type) expected)
      (analyzeBinaryOperands other right left (fun type => analyzeExpr s right type)
        (fun type => analyzeExpr s left type) expected) := by
  rcases mirror_classes mirrored with ⟨plain, otherPlain, relational⟩
  by_cases order : (op.isRelational && left.isLiteral && !right.isLiteral) = true
  · exact mirrors_of_literal otherPlain order (by rw [← relational]; simp_all)
  · by_cases otherOrder : (other.isRelational && right.isLiteral && !left.isLiteral) = true
    · exact (mirrors_of_literal plain otherOrder (by simp_all)).symm
    · simp only [Bool.not_eq_true] at order otherOrder
      rcases agree with ⟨compares, literals⟩ | ⟨leftIndifferent, rightIndifferent⟩
      · rw [← relational] at otherOrder
        cases leftLiteral : left.isLiteral <;> cases rightLiteral : right.isLiteral <;>
          simp_all
      · exact mirrors_of_indifferent plain otherPlain order otherOrder leftIndifferent
          rightIndifferent

end Operators

/-! ## Operands with a type of their own -/

/-- The type of the expression does not come from an integer literal. -/
def Expr.hasOwnType : Expr → Bool
  | .binary _ op left right =>
      if op.isLogical || op.isRelational then true
      else if op.isShift then left.hasOwnType && right.hasOwnType
      else left.hasOwnType
  | .unary _ op operand =>
      match op with
      | .negate | .bitwiseNot => operand.hasOwnType
      | _ => true
  | .literal _ tokenType _ => tokenType ≠ .integer
  | .cast .. => true
  | .identifier .. => true
  | .funcCall .. => true

/-- The context does not matter to such an expression. -/
theorem analyzeExpr_of_hasOwnType {s : Semantic} (wellFormed : s.WellFormed) {expr : Expr}
    (grammatical : expr.Grammatical) (own : expr.hasOwnType) (first second : ValueType) :
    analyzeExpr s expr first = analyzeExpr s expr second := by
  induction expr using Expr.induction generalizing first second with
  | binary base op left right leftHypothesis rightHypothesis =>
      have leftTyped : ∀ type, (analyzeExpr s left type).ok →
          (analyzeExpr s left type).node.resolved ≠ .unresolved :=
        fun type => (analyzeExpr_sound wellFormed grammatical.1 type).resolved
      rw [analyzeExpr, analyzeExpr]
      by_cases classes : op.isLogical || op.isRelational
      · have same : operandExpected op first = operandExpected op second := by
          cases op <;> first | rfl | cases classes
        unfold analyzeBinary
        rw [same]
      · rw [Expr.hasOwnType, if_neg classes] at own
        have relational : op.isRelational = false := by
          simp only [Bool.or_eq_true, not_or, Bool.not_eq_true] at classes
          exact classes.2
        by_cases shifts : op.isShift
        · rw [if_pos shifts, Bool.and_eq_true] at own
          have leftSame := leftHypothesis grammatical.1 own.1 (operandExpected op first)
            (operandExpected op second)
          have rightSame := rightHypothesis grammatical.2 own.2 (operandExpected op first)
            (operandExpected op second)
          simp only [analyzeBinary, analyzeBinaryOperands, relational, shifts, leftSame,
            rightSame, Bool.false_and, Bool.false_eq_true, if_false, if_true]
        · rw [if_neg shifts] at own
          have leftSame := leftHypothesis grammatical.1 own (operandExpected op first)
            (operandExpected op second)
          have plain := Bool.eq_false_iff.mpr shifts
          have order : (op.isRelational && left.isLiteral && !right.isLiteral) = false := by
            rw [relational]
            rfl
          have operands : analyzeBinaryOperands op left right
              (fun type => analyzeExpr s left type) (fun type => analyzeExpr s right type)
              (operandExpected op first) =
              analyzeBinaryOperands op left right
              (fun type => analyzeExpr s left type) (fun type => analyzeExpr s right type)
              (operandExpected op second) := by
            rw [analyzeBinaryOperands_of_order plain order,
              analyzeBinaryOperands_of_order plain order, leftSame]
            dsimp only
            by_cases ok : (analyzeExpr s left (operandExpected op second)).ok
            · have known := leftTyped _ ok
              rw [if_pos ok, if_pos ok, siblingExpected, siblingExpected, if_pos known,
                if_pos known]
            · rw [if_neg ok, if_neg ok]
          unfold analyzeBinary
          rw [operands]
  | unary base op operand operandHypothesis =>
      rw [analyzeExpr, analyzeExpr]
      cases op with
      | negate =>
          have same := operandHypothesis grammatical own
            (if first.isSigned then first else .i64) (if second.isSigned then second else .i64)
          unfold analyzeUnary
          cases operand with
          | literal literalBase tokenType value =>
              cases tokenType with
              | integer => cases own
              | kwTrue => simp only [analyzeNegate, same]
              | kwFalse => simp only [analyzeNegate, same]
          | _ => simp only [analyzeNegate, same]
      | bitwiseNot =>
          have same := operandHypothesis grammatical own first second
          simp only [analyzeUnary, analyzeBitwiseNot, same]
      | logicalNot => rfl
      | _ =>
          unfold analyzeUnary analyzeIncrement
          cases operand <;> rfl
  | literal base tokenType value =>
      cases tokenType with
      | integer => cases own
      | kwTrue => rfl
      | kwFalse => rfl
  | cast => rw [analyzeExpr, analyzeExpr]
  | identifier => rw [analyzeExpr, analyzeExpr]
  | funcCall => rw [analyzeExpr, analyzeExpr]

/-- Operands with types of their own can be exchanged in every context. -/
theorem outcome_mirror_of_hasOwnType {s : Semantic} (wellFormed : s.WellFormed)
    {op other : BinaryOp} (mirrored : op.mirror = some other) (base : Base)
    {left right : Expr} (leftGrammatical : left.Grammatical)
    (rightGrammatical : right.Grammatical) (leftOwn : left.hasOwnType)
    (rightOwn : right.hasOwnType) (expected : ValueType) :
    (analyzeExpr s (.binary base op left right) expected).outcome =
      (analyzeExpr s (.binary base other right left) expected).outcome := by
  apply outcome_analyzeBinary_mirror mirrored
  rw [← operandExpected_mirror mirrored]
  apply mirrors_of_agree mirrored
  right
  constructor
  · exact congrArg ExprAnalysis.outcome
      (analyzeExpr_of_hasOwnType wellFormed leftGrammatical leftOwn _ _)
  · exact congrArg ExprAnalysis.outcome
      (analyzeExpr_of_hasOwnType wellFormed rightGrammatical rightOwn _ _)

/-! ## Exchanged operands -/

/-- An operator and its mirror on exchanged operands have one outcome, when each operand
has one outcome at the type that the context expects and at the type of the other
operand, and when the operator compares a literal with any other expression. -/
theorem outcome_mirror {s : Semantic} {op other : BinaryOp}
    (mirrored : op.mirror = some other) (base : Base) {left right : Expr}
    {expected : ValueType}
    (agree : (op.isRelational ∧ left.isLiteral ≠ right.isLiteral) ∨
      s.Indifferent left (operandExpected op expected)
          (siblingExpected (analyzeExpr s right (operandExpected op expected)).node
            (operandExpected op expected)) ∧
        s.Indifferent right (operandExpected op expected)
          (siblingExpected (analyzeExpr s left (operandExpected op expected)).node
            (operandExpected op expected))) :
    (analyzeExpr s (.binary base op left right) expected).outcome =
      (analyzeExpr s (.binary base other right left) expected).outcome := by
  apply outcome_analyzeBinary_mirror mirrored
  rw [← operandExpected_mirror mirrored]
  exact mirrors_of_agree mirrored agree

/-- One variable `x` of type `i32`. -/
def oneVariable : Semantic :=
  { filename := "main.su",
    scope := { stack := [[{ name := "x", type := .i32, initialized := true }]] } }

/-- The expression `x`. -/
def variableX : Expr :=
  .identifier {} "x" 0 0 none

/-- The comparison `x < 2`, of a variable and a literal. -/
theorem outcome_mirror_less :
    (analyzeExpr oneVariable (.binary {} .relationalLess variableX (numeral "2"))
        .bool).outcome =
      (analyzeExpr oneVariable (.binary {} .relationalGreater (numeral "2") variableX)
        .bool).outcome :=
  outcome_mirror rfl {} (.inl ⟨rfl, by decide⟩)

/-- The comparison `x == -1` is accepted and `-1 == x` is not; without a context the sum
`x + 1` has type `i32` and `1 + x` type `i64`. -/
theorem outcome_mirror_differs :
    (compileFrontend "fn main() i32 { i32 x = 1; bool b = x == -1; return 0; }" "main.su"
        {}).isSome ∧
      (compileFrontend "fn main() i32 { i32 x = 1; bool b = -1 == x; return 0; }" "main.su"
        {}).isNone ∧
      (analyzeExpr oneVariable (.binary {} .relationalEqual variableX
        (.unary {} .negate (numeral "1"))) .bool).outcome = some .bool ∧
      (analyzeExpr oneVariable (.binary {} .relationalEqual
        (.unary {} .negate (numeral "1")) variableX) .bool).outcome = none ∧
      (analyzeExpr oneVariable (.binary {} .add variableX (numeral "1"))
        .unresolved).outcome = some .i32 ∧
      (analyzeExpr oneVariable (.binary {} .add (numeral "1") variableX)
        .unresolved).outcome = some .i64 := by
  refine ⟨by decide, by decide, by decide, by decide,
    by decide, by decide⟩

end Sulfur
