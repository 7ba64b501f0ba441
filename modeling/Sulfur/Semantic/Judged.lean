import Sulfur.Semantic.Evaluator
import Sulfur.Semantic.Exact

/-!
# What the checks judge

The analysis judges a constant by the 64-bit values that the evaluators find on their
way.  It checks those of the arithmetic and bitwise operators against the type; a left
shift, and a minus sign other than a literal's, it takes as they are.
-/

namespace Sulfur

open Word

namespace Expr

/-- The subexpressions that have a value of their own; a minus sign belongs to the
literal after it. -/
def subexpressions : Expr → List Expr
  | binary base op left right =>
      binary base op left right :: (left.subexpressions ++ right.subexpressions)
  | unary base op operand =>
      unary base op operand ::
        if operand.isLiteral then [] else operand.subexpressions
  | expr => [expr]

theorem mem_subexpressions (expr : Expr) : expr ∈ expr.subexpressions := by
  cases expr <;> simp [subexpressions]

theorem subexpressions_negate {base : Base} {op : UnaryOp} {operand : Expr}
    (compound : operand.isLiteral = false) :
    (unary base op operand).subexpressions =
      unary base op operand :: operand.subexpressions := by
  rw [subexpressions, compound]
  rfl

/-- What the evaluator of a signedness finds. -/
def judged (isSigned : Bool) (expr : Expr) : Option Int :=
  if isSigned then constEvalInt expr else (constEvalUint expr).map Nat.cast

/-- Every 64-bit value that the evaluator finds on its way is one of the type of the
subexpression. -/
def JudgedInRange (isSigned : Bool) (expr : Expr) : Prop :=
  ∀ part ∈ expr.subexpressions, ∀ value, part.judged isSigned = some value →
    part.resolved.InRange value

theorem JudgedInRange.value {isSigned : Bool} {expr : Expr} {value : Int}
    (inRange : expr.JudgedInRange isSigned) (evaluated : expr.judged isSigned = some value) :
    expr.resolved.InRange value :=
  inRange expr expr.mem_subexpressions value evaluated

theorem JudgedInRange.operand {isSigned : Bool} {base : Base} {op : UnaryOp} {operand : Expr}
    (inRange : (unary base op operand).JudgedInRange isSigned)
    (compound : operand.isLiteral = false) : operand.JudgedInRange isSigned := by
  intro part inOperand
  apply inRange part
  rw [subexpressions_negate compound]
  exact List.mem_cons_of_mem _ inOperand

theorem JudgedInRange.left {isSigned : Bool} {base : Base} {op : BinaryOp} {left right : Expr}
    (inRange : (binary base op left right).JudgedInRange isSigned) :
    left.JudgedInRange isSigned :=
  fun part inLeft => inRange part (List.mem_cons_of_mem _ (List.mem_append_left _ inLeft))

theorem JudgedInRange.right {isSigned : Bool} {base : Base} {op : BinaryOp}
    {left right : Expr} (inRange : (binary base op left right).JudgedInRange isSigned) :
    right.JudgedInRange isSigned :=
  fun part inRight => inRange part (List.mem_cons_of_mem _ (List.mem_append_right _ inRight))

/-- The operations whose value the analysis does not check: left shifts, and minus signs
other than a literal's. -/
def isUnchecked : Expr → Bool
  | binary _ op _ _ => op = .bitwiseLshift
  | unary _ _ operand => !operand.isLiteral
  | _ => false

/-- Exact values stand where the analysis checks nothing for the evaluator of a
signedness: in operations narrower than 64 bits that are unchecked and, for the signed
evaluator, in parts of unsigned type, where `int64_t` holds them. -/
def ExactWhereUnchecked (isSigned : Bool) (expr : Expr) : Prop :=
  ∀ part ∈ expr.subexpressions,
    (part.isUnchecked → part.resolved.widthBits < 64 →
      ∃ value, part.exactValue = some value) ∧
    (isSigned → part.resolved.isSigned = false →
      ∃ value, part.exactValue = some value ∧ value ≤ int64Max)

instance (isSigned : Bool) (expr : Expr) : Decidable (expr.ExactWhereUnchecked isSigned) :=
  decidable_of_iff
    (∀ part ∈ expr.subexpressions,
      (part.isUnchecked → part.resolved.widthBits < 64 → part.exactValue.isSome) ∧
      (isSigned → part.resolved.isSigned = false →
        part.exactValue.any fun value => value ≤ int64Max))
    (by simp [ExactWhereUnchecked, Option.isSome_iff_exists, Option.any_eq_true])

theorem ExactWhereUnchecked.operand {isSigned : Bool} {base : Base} {op : UnaryOp}
    {operand : Expr} (exact : (unary base op operand).ExactWhereUnchecked isSigned)
    (compound : operand.isLiteral = false) : operand.ExactWhereUnchecked isSigned := by
  intro part inOperand
  apply exact part
  rw [subexpressions_negate compound]
  exact List.mem_cons_of_mem _ inOperand

theorem ExactWhereUnchecked.left {isSigned : Bool} {base : Base} {op : BinaryOp}
    {left right : Expr} (exact : (binary base op left right).ExactWhereUnchecked isSigned) :
    left.ExactWhereUnchecked isSigned :=
  fun part inLeft => exact part (List.mem_cons_of_mem _ (List.mem_append_left _ inLeft))

theorem ExactWhereUnchecked.right {isSigned : Bool} {base : Base} {op : BinaryOp}
    {left right : Expr} (exact : (binary base op left right).ExactWhereUnchecked isSigned) :
    right.ExactWhereUnchecked isSigned :=
  fun part inRight => exact part (List.mem_cons_of_mem _ (List.mem_append_right _ inRight))

theorem JudgedInRange.of_binary {isSigned : Bool} {base : Base} {op : BinaryOp}
    {left right : Expr} (first : left.JudgedInRange isSigned)
    (second : right.JudgedInRange isSigned)
    (own : ∀ value, (binary base op left right).judged isSigned = some value →
      base.resolved.InRange value) : (binary base op left right).JudgedInRange isSigned := by
  intro part inExpr
  rcases List.mem_cons.mp inExpr with rfl | inOperands
  · exact own
  · rcases List.mem_append.mp inOperands with inLeft | inRight
    · exact first part inLeft
    · exact second part inRight

end Expr

/-! ## Types -/

/-- Without a minus sign every part has the type at which the literals are read. -/
theorem Expr.Calculation.resolved_of_constEvalUint {allowed : BinaryOp → Bool}
    (subset : ∀ op, allowed op → op.calculates) {expected : ValueType} {expr : Expr}
    (calculation : expr.Calculation allowed expected) {value : Nat}
    (evaluated : constEvalUint expr = some value) :
    expr.resolved = literalTarget expected ∧
      ∀ part ∈ expr.subexpressions, part.resolved = literalTarget expected := by
  induction calculation generalizing value with
  | literal _ target _ =>
      constructor
      · exact target
      · intro part inExpr
        rw [List.mem_singleton.mp inExpr]
        exact target
  | negatedLiteral =>
      rw [constEvalUint_unary] at evaluated
      cases evaluated
  | negate =>
      rw [constEvalUint_unary] at evaluated
      cases evaluated
  | @shift expected base op left right allows _ _ _ same _ leftHypothesis rightHypothesis =>
      rcases constEvalUint_binary_inv evaluated with ⟨a, b, leftValue, rightValue, _⟩
      have target := (Expr.literalTarget_operandExpected (subset op allows) expected).1
      have leftTypes := leftHypothesis leftValue
      have rightTypes := rightHypothesis rightValue
      rw [target] at leftTypes rightTypes
      have typed : (Expr.binary base op left right).resolved = literalTarget expected :=
        same.symm.trans leftTypes.1
      refine ⟨typed, fun part inExpr => ?_⟩
      rcases List.mem_cons.mp inExpr with rfl | inOperands
      · exact typed
      · rcases List.mem_append.mp inOperands with inLeft | inRight
        · exact leftTypes.2 part inLeft
        · exact rightTypes.2 part inRight
  | @arithmetic expected base op left right allows _ first second group promoted _ _
      leftHypothesis rightHypothesis =>
      rcases constEvalUint_binary_inv evaluated with ⟨a, b, leftValue, rightValue, _⟩
      have target := (Expr.literalTarget_operandExpected (subset op allows) expected).1
      have leftTypes := leftHypothesis leftValue
      have rightTypes := rightHypothesis rightValue
      rw [Expr.literalTarget_of_isInteger first.isInteger] at rightTypes
      rw [target] at leftTypes
      have typed : (Expr.binary base op left right).resolved = literalTarget expected :=
        (Expr.same_of_promote first.isInteger (second.resolved_cases subset) group
          promoted).2.trans leftTypes.1
      refine ⟨typed, fun part inExpr => ?_⟩
      rcases List.mem_cons.mp inExpr with rfl | inOperands
      · exact typed
      · rcases List.mem_append.mp inOperands with inLeft | inRight
        · exact leftTypes.2 part inLeft
        · rw [rightTypes.2 part inRight]
          exact leftTypes.1

/-! ## The signed evaluator -/

theorem inRange_i64_iff {value : Int} :
    ValueType.i64.InRange value ↔ int64Min ≤ value ∧ value ≤ int64Max := by
  unfold int64Min int64Max
  change -2 ^ 64 ≤ 2 * value ∧ 2 * value < 2 ^ 64 ↔ _
  omega

theorem inRange_i64_toInt (word : BitVec 64) : ValueType.i64.InRange word.toInt := by
  have low := word.le_toInt
  have high := word.toInt_lt
  rw [inRange_i64_iff]
  unfold int64Min int64Max
  omega

/-- One quotient of two `int64_t` leaves the type. -/
theorem inRange_i64_tdiv {a b : Int} (range : ValueType.i64.InRange a)
    (traps : ¬(a = int64Min ∧ b = -1)) : ValueType.i64.InRange (a.tdiv b) := by
  rw [inRange_i64_iff] at *
  unfold int64Min int64Max at *
  by_cases flips : b = -1
  · have other : a ≠ -2 ^ 63 := fun least => traps ⟨least, flips⟩
    rw [flips, Int.tdiv_neg, Int.tdiv_one]
    omega
  · by_cases same : b = 1
    · rw [same, Int.tdiv_one]
      exact range
    · have quotient : (a.tdiv b).natAbs = a.natAbs / b.natAbs := Int.natAbs_tdiv a b
      have half : a.natAbs / b.natAbs ≤ a.natAbs / 2 := by
        by_cases zero : b.natAbs = 0
        · rw [zero, Nat.div_zero]
          exact Nat.zero_le _
        · exact Nat.div_le_div_left (by omega) (by decide)
      omega

theorem inRange_i64_of_evalIntBinary {op : BinaryOp} {a b value : Int}
    (range : ValueType.i64.InRange a) (evaluated : evalIntBinary op a b = some value) :
    ValueType.i64.InRange value := by
  have checked : ∀ {exact : Int}, int64Checked exact = some value →
      ValueType.i64.InRange value := by
    intro exact found
    rw [int64Checked, Option.ite_none_right_eq_some] at found
    rcases found with ⟨inside, same⟩
    rw [inRange_i64_iff, ← Option.some.inj same]
    exact inside
  cases op with
  | add | sub | mul => exact checked evaluated
  | div =>
      simp only [evalIntBinary, Option.ite_none_left_eq_some, Option.some.injEq] at evaluated
      rcases evaluated with ⟨_, traps, rfl⟩
      exact inRange_i64_tdiv range traps
  | bitwiseLshift =>
      simp only [evalIntBinary, Option.ite_none_left_eq_some, Option.some.injEq] at evaluated
      rcases evaluated with ⟨_, rfl⟩
      exact inRange_i64_toInt _
  | bitwiseRshift =>
      simp only [evalIntBinary, Option.ite_none_left_eq_some, Option.some.injEq] at evaluated
      rcases evaluated with ⟨_, rfl⟩
      exact Format.InRange.shiftRight range _
  | bitwiseAnd | bitwiseOr | bitwiseXor =>
      cases evaluated
      exact inRange_i64_toInt _
  | _ => cases evaluated

/-- The signed evaluator finds values of type `int64_t` only. -/
theorem Expr.Calculation.inRange_i64 {allowed : BinaryOp → Bool} {expected : ValueType}
    {expr : Expr} (calculation : expr.Calculation allowed expected) {value : Int}
    (evaluated : constEvalInt expr = some value) : ValueType.i64.InRange value := by
  induction calculation generalizing value with
  | literal =>
      rw [constEvalInt] at evaluated
      rcases Option.bind_eq_some_iff.mp evaluated with ⟨magnitude, _, found⟩
      rw [Option.ite_none_left_eq_some] at found
      rw [inRange_i64_iff, ← Option.some.inj found.2]
      unfold int64Min
      omega
  | negatedLiteral =>
      rw [constEvalInt, if_pos rfl] at evaluated
      rcases Option.bind_eq_some_iff.mp evaluated with ⟨magnitude, _, found⟩
      rw [negatedMagnitude, Option.ite_none_left_eq_some] at found
      rw [inRange_i64_iff, ← Option.some.inj found.2]
      unfold int64Min int64Max
      omega
  | negate _ compound _ _ inductionHypothesis =>
      rcases constEvalInt_negate_inv compound evaluated with
        ⟨child, operandValue, other, rfl⟩
      have range := inductionHypothesis operandValue
      rw [inRange_i64_iff] at *
      unfold int64Min int64Max at *
      omega
  | shift _ _ _ _ _ _ leftHypothesis =>
      rcases constEvalInt_binary_inv evaluated with ⟨a, b, leftValue, _, operation⟩
      exact inRange_i64_of_evalIntBinary (leftHypothesis leftValue) operation
  | arithmetic _ _ _ _ _ _ _ _ leftHypothesis =>
      rcases constEvalInt_binary_inv evaluated with ⟨a, b, leftValue, _, operation⟩
      exact inRange_i64_of_evalIntBinary (leftHypothesis leftValue) operation

namespace Expr

variable {allowed : BinaryOp → Bool} {expected : ValueType} {expr : Expr}

/-- Only the literal under a minus sign is a node without being a part. -/
theorem Calculation.mem_subexpressions_or_isSigned
    (calculation : expr.Calculation allowed expected) :
    ∀ node ∈ expr.constantNodes, node ∈ expr.subexpressions ∨ node.resolved.isSigned := by
  induction calculation with
  | literal =>
      intro node inExpr
      exact .inl inExpr
  | negatedLiteral _ _ target same _ =>
      intro node inExpr
      rcases List.mem_cons.mp inExpr with rfl | inOperand
      · exact .inl (mem_subexpressions _)
      · right
        rw [List.mem_singleton.mp inOperand, resolved, Expr.base, same, target,
          negatedLiteralTarget_isSigned]
  | negate _ compound _ _ inductionHypothesis =>
      intro node inExpr
      rw [subexpressions_negate compound]
      rcases List.mem_cons.mp inExpr with rfl | inOperand
      · exact .inl List.mem_cons_self
      · exact (inductionHypothesis node inOperand).imp_left (List.mem_cons_of_mem _)
  | shift _ _ _ _ _ _ leftHypothesis rightHypothesis
  | arithmetic _ _ _ _ _ _ _ _ leftHypothesis rightHypothesis =>
      intro node inExpr
      simp only [constantNodes, subexpressions, List.mem_cons, List.mem_append] at inExpr ⊢
      rcases inExpr with rfl | inLeft | inRight
      · exact .inl (.inl rfl)
      · exact (leftHypothesis node inLeft).imp_left fun inPart => .inr (.inl inPart)
      · exact (rightHypothesis node inRight).imp_left fun inPart => .inr (.inr inPart)

/-- Where the parts of unsigned type have exact values that `int64_t` holds, so has every
node. -/
theorem Calculation.boundedBy_of_exact (calculation : expr.Calculation allowed expected)
    (exact : expr.ExactWhereUnchecked true) : expr.BoundedBy int64Max := by
  intro node inExpr value found
  by_cases signed : node.resolved.isSigned
  · apply ValueType.InRange.le_int64Max _ (inRange_of_exactValue found)
    generalize node.resolved = type at signed
    cases type <;> first | rfl | cases signed
  · have inParts := (calculation.mem_subexpressions_or_isSigned node inExpr).resolve_right
      signed
    rcases (exact node inParts).2 rfl (Bool.eq_false_iff.mpr signed) with
      ⟨again, foundAgain, bound⟩
    rw [found] at foundAgain
    cases foundAgain
    exact bound

/-- A part that has an exact value has it for the signed evaluator. -/
theorem Calculation.inRange_of_exact (calculation : expr.Calculation allowed expected)
    (bounded : expr.BoundedBy int64Max) {exact value : Int}
    (found : expr.exactValue = some exact) (evaluated : constEvalInt expr = some value) :
    expr.resolved.InRange value := by
  rw [calculation.constEvalInt_eq found bounded] at evaluated
  cases evaluated
  exact inRange_of_exactValue found

/-- What is of unsigned type or unchecked is in range: it has an exact value, or is as
wide as the evaluator. -/
theorem Calculation.inRange_of_unchecked (calculation : expr.Calculation allowed expected)
    (exact : expr.ExactWhereUnchecked true) (either : expr.resolved.isSigned → expr.isUnchecked)
    {value : Int} (evaluated : constEvalInt expr = some value) :
    expr.resolved.InRange value := by
  have bounded := calculation.boundedBy_of_exact exact
  have whole := exact expr expr.mem_subexpressions
  by_cases signed : expr.resolved.isSigned
  · by_cases narrow : expr.resolved.widthBits < 64
    · rcases whole.1 (either signed) narrow with ⟨_, found⟩
      exact calculation.inRange_of_exact bounded found evaluated
    · have wide : expr.resolved = .i64 := by
        generalize expr.resolved = type at signed narrow
        cases type <;>
          first | rfl | exact absurd signed (by decide) | exact absurd (by decide) narrow
      rw [wide]
      exact calculation.inRange_i64 evaluated
  · rcases whole.2 rfl (Bool.eq_false_iff.mpr signed) with ⟨_, found, _⟩
    exact calculation.inRange_of_exact bounded found evaluated

/-- The checks and the exact values keep what the signed evaluator finds in the types. -/
theorem Calculation.judgedInRange_signed (calculation : expr.Calculation allowed expected)
    (exact : expr.ExactWhereUnchecked true) : expr.JudgedInRange true := by
  induction calculation with
  | literal parsed _ fits =>
      intro part inExpr value evaluated
      rw [List.mem_singleton.mp inExpr] at evaluated ⊢
      rcases constEvalInt_literal_inv evaluated with ⟨magnitude, again, rfl⟩
      rw [parsed] at again
      cases again
      exact ValueType.inRange_of_uintLiteralFits fits (strtoull_lt parsed)
  | @negatedLiteral _ base literalBase digits _ parsed _ _ _ fits =>
      intro part inExpr value evaluated
      rw [List.mem_singleton.mp inExpr] at evaluated ⊢
      change constEvalInt (.unary base .negate (.literal literalBase .integer digits)) =
        some value at evaluated
      rcases constEvalInt_negatedLiteral_inv evaluated with ⟨magnitude, again, rfl⟩
      rw [parsed] at again
      cases again
      exact ValueType.inRange_neg_of_signedLiteralFitsNegated fits
  | negate inner compound same signed inductionHypothesis =>
      have calculation := Calculation.negate inner compound same signed
      intro part inExpr value evaluated
      rw [subexpressions_negate compound] at inExpr
      rcases List.mem_cons.mp inExpr with rfl | inOperand
      · exact calculation.inRange_of_unchecked exact
          (fun _ => by simp [isUnchecked, compound]) evaluated
      · exact inductionHypothesis (exact.operand compound) part inOperand value evaluated
  | @shift _ base op left right allows shifts first second same checked leftHypothesis
      rightHypothesis =>
      have calculation := Calculation.shift allows shifts first second same checked
      have leftRanges := leftHypothesis exact.left
      apply leftRanges.of_binary (rightHypothesis exact.right)
      intro value evaluated
      by_cases leftShift : op = .bitwiseLshift
      · exact calculation.inRange_of_unchecked exact
          (fun _ => by simp [isUnchecked, leftShift]) evaluated
      · have rightShift : op = .bitwiseRshift := by
          cases op <;> first | rfl | exact absurd rfl leftShift | cases shifts
        subst rightShift
        change constEvalInt (.binary base .bitwiseRshift left right) = some value at evaluated
        rcases constEvalInt_binary_inv evaluated with ⟨a, b, leftValue, _, operation⟩
        simp only [evalIntBinary, Option.ite_none_left_eq_some, Option.some.injEq] at operation
        rw [← operation.2, ← same]
        exact Format.InRange.shiftRight (leftRanges.value leftValue) _
  | @arithmetic _ base op left right allows plain first second group promoted nonzero checked
      leftHypothesis rightHypothesis =>
      have calculation := Calculation.arithmetic allows plain first second group promoted
        nonzero checked
      apply (leftHypothesis exact.left).of_binary (rightHypothesis exact.right)
      intro value evaluated
      by_cases signed : base.resolved.isSigned
      · rw [FitsWhenEvaluated, if_pos signed] at checked
        have range := calculation.inRange_i64 evaluated
        have wide : base.resolved.widest = .i64 := if_pos signed
        rw [← wide] at range
        exact inRange_of_signedFits signed (checked value evaluated) range
      · exact calculation.inRange_of_unchecked exact (fun isSigned => absurd isSigned signed)
          evaluated

end Expr

/-! ## The unsigned evaluator -/

theorem evalUintBinary_lt {op : BinaryOp} {a b value : Nat} (first : a < 2 ^ 64)
    (second : b < 2 ^ 64) (evaluated : evalUintBinary op a b = some value) :
    value < 2 ^ 64 := by
  cases op with
  | add | mul =>
      simp only [evalUintBinary, Option.ite_none_right_eq_some, Option.some.injEq] at evaluated
      exact evaluated.2 ▸ evaluated.1
  | sub =>
      simp only [evalUintBinary, Option.ite_none_left_eq_some, Option.some.injEq] at evaluated
      omega
  | div | bitwiseRshift =>
      simp only [evalUintBinary, Option.ite_none_left_eq_some, Option.some.injEq] at evaluated
      rw [← evaluated.2]
      exact (Nat.div_le_self _ _).trans_lt first
  | bitwiseLshift =>
      simp only [evalUintBinary, Option.ite_none_left_eq_some, Option.some.injEq] at evaluated
      rw [← evaluated.2]
      exact Nat.mod_lt _ (by decide)
  | bitwiseAnd =>
      cases evaluated
      exact Nat.and_lt_two_pow _ second
  | bitwiseOr =>
      cases evaluated
      exact Nat.or_lt_two_pow first second
  | bitwiseXor =>
      cases evaluated
      exact Nat.xor_lt_two_pow first second
  | _ => cases evaluated

theorem constEvalUint_lt {expr : Expr} {value : Nat}
    (evaluated : constEvalUint expr = some value) : value < 2 ^ 64 := by
  induction expr using Expr.induction generalizing value with
  | binary base op left right leftHypothesis rightHypothesis =>
      rcases constEvalUint_binary_inv evaluated with ⟨a, b, leftValue, rightValue, operation⟩
      exact evalUintBinary_lt (leftHypothesis leftValue) (rightHypothesis rightValue) operation
  | unary =>
      rw [constEvalUint_unary] at evaluated
      cases evaluated
  | literal base tokenType digits =>
      cases tokenType with
      | integer =>
          rw [constEvalUint_literal] at evaluated
          exact strtoull_lt evaluated
      | kwTrue => cases evaluated
      | kwFalse => cases evaluated
  | cast => cases evaluated
  | identifier => cases evaluated
  | funcCall => cases evaluated

theorem inRange_natCast_iff {type : ValueType} (unsigned : type.isSigned = false)
    {value : Nat} : type.InRange value ↔ value < 2 ^ type.widthBits := by
  unfold ValueType.InRange ValueType.format
  rw [unsigned, Format.inRange_unsigned_iff]
  norm_cast
  simp

theorem bitwise_natCast {type : ValueType} (unsigned : type.isSigned = false)
    {op : ∀ w : Nat, BitVec w → BitVec w → BitVec w} {a b value : Nat}
    (pattern : op type.widthBits (BitVec.ofNat _ a) (BitVec.ofNat _ b) = BitVec.ofNat _ value)
    (range : type.InRange value) : type.format.bitwise op a b = value := by
  have bound := (inRange_natCast_iff unsigned).mp range
  unfold Format.bitwise Format.ofBits ValueType.format
  rw [unsigned, if_neg Bool.false_ne_true, BitVec.ofInt_natCast, BitVec.ofInt_natCast, pattern,
    BitVec.toNat_ofNat, Nat.mod_eq_of_lt bound]

theorem natCast_tdiv (a b : Nat) : (a : Int).tdiv b = ((a / b : Nat) : Int) := by
  rw [Int.tdiv_eq_ediv_of_nonneg (by omega)]
  rfl

/-- An exact result of an unsigned type is the one that the unsigned evaluator finds. -/
theorem exactResult_of_evalUintBinary {op : BinaryOp} {type : ValueType}
    (unsigned : type.isSigned = false) {a b value : Nat} {exact : Int}
    (first : type.InRange a) (second : op.isShift = false → type.InRange b)
    (found : op.exactResult type a b = some exact) (range : type.InRange exact)
    (evaluated : evalUintBinary op a b = some value) : exact = value := by
  have narrow : type.widthBits ≤ 64 := by cases type <;> decide
  rw [inRange_natCast_iff unsigned] at first second
  cases op with
  | add | mul =>
      cases found
      simp only [evalUintBinary, Option.ite_none_right_eq_some, Option.some.injEq] at evaluated
      exact_mod_cast evaluated.2
  | sub =>
      cases found
      simp only [evalUintBinary, Option.ite_none_left_eq_some, Option.some.injEq] at evaluated
      omega
  | div =>
      simp only [BinaryOp.exactResult, Option.ite_none_left_eq_some, Option.some.injEq] at found
      simp only [evalUintBinary, Option.ite_none_left_eq_some, Option.some.injEq] at evaluated
      rw [← found.2, ← evaluated.2, natCast_tdiv]
  | bitwiseLshift =>
      simp only [BinaryOp.exactResult, Option.ite_none_left_eq_some, Option.some.injEq,
        Int.toNat_natCast] at found
      simp only [evalUintBinary, Option.ite_none_left_eq_some, Option.some.injEq] at evaluated
      have cast : exact = ((a * 2 ^ b : Nat) : Int) := by
        rw [← found.2]
        push_cast
        rfl
      rw [cast, inRange_natCast_iff unsigned] at range
      have bound : a * 2 ^ b < 2 ^ 64 :=
        range.trans_le (Nat.pow_le_pow_right (by decide) narrow)
      rw [cast, ← evaluated.2, Nat.mod_eq_of_lt bound]
  | bitwiseRshift =>
      simp only [BinaryOp.exactResult, Option.ite_none_left_eq_some, Option.some.injEq,
        Int.toNat_natCast] at found
      simp only [evalUintBinary, Option.ite_none_left_eq_some, Option.some.injEq] at evaluated
      rw [← found.2, ← evaluated.2]
      push_cast
      rfl
  | bitwiseAnd =>
      cases found
      cases evaluated
      exact bitwise_natCast unsigned BitVec.ofNat_and.symm
        ((inRange_natCast_iff unsigned).mpr (Nat.and_lt_two_pow _ (second rfl)))
  | bitwiseOr =>
      cases found
      cases evaluated
      exact bitwise_natCast unsigned BitVec.ofNat_or.symm
        ((inRange_natCast_iff unsigned).mpr (Nat.or_lt_two_pow first (second rfl)))
  | bitwiseXor =>
      cases found
      cases evaluated
      exact bitwise_natCast unsigned BitVec.ofNat_xor.symm
        ((inRange_natCast_iff unsigned).mpr (Nat.xor_lt_two_pow first (second rfl)))
  | _ => cases evaluated

namespace Expr

variable {allowed : BinaryOp → Bool} {expected : ValueType} {expr : Expr}

/-- In an expression of one unsigned type the exact value, where there is one, is the one
that the unsigned evaluator finds. -/
theorem exactValue_of_constEvalUint {type : ValueType} (unsigned : type.isSigned = false)
    (uniform : ∀ part ∈ expr.subexpressions, part.resolved = type) {exact : Int} {value : Nat}
    (found : expr.exactValue = some exact) (evaluated : constEvalUint expr = some value) :
    exact = value := by
  induction expr using Expr.induction generalizing exact value with
  | binary base op left right leftHypothesis rightHypothesis =>
      have uniformLeft := fun part inLeft =>
        uniform part (List.mem_cons_of_mem _ (List.mem_append_left _ inLeft))
      have uniformRight := fun part inRight =>
        uniform part (List.mem_cons_of_mem _ (List.mem_append_right _ inRight))
      rcases exactWith_binary.mp found with ⟨a, leftExact, b, rightExact, operation, range⟩
      rcases constEvalUint_binary_inv evaluated with ⟨l, r, leftValue, rightValue, result⟩
      cases leftHypothesis uniformLeft leftExact leftValue
      cases rightHypothesis uniformRight rightExact rightValue
      have first := inRange_of_exactValue leftExact
      have second := inRange_of_exactValue rightExact
      rw [uniformLeft left left.mem_subexpressions] at first
      rw [uniformRight right right.mem_subexpressions] at second
      have own : base.resolved = type := uniform _ (mem_subexpressions _)
      rw [own] at operation range
      exact exactResult_of_evalUintBinary unsigned first (fun _ => second) operation range result
  | unary =>
      rw [constEvalUint_unary] at evaluated
      cases evaluated
  | literal base tokenType digits =>
      cases tokenType with
      | integer =>
          rcases exactWith_literal.mp found with ⟨magnitude, parsed, _, rfl⟩
          rw [constEvalUint_literal, parsed] at evaluated
          exact congrArg Nat.cast (Option.some.inj evaluated)
      | kwTrue => cases evaluated
      | kwFalse => cases evaluated
  | cast => cases evaluated
  | identifier => cases evaluated
  | funcCall => cases evaluated

/-- The checks and the exact values keep what the unsigned evaluator finds in the types. -/
theorem Calculation.judgedInRange_unsigned (calculation : expr.Calculation allowed expected)
    {type : ValueType} (unsigned : type.isSigned = false)
    (uniform : ∀ part ∈ expr.subexpressions, part.resolved = type)
    (exact : expr.ExactWhereUnchecked false) : expr.JudgedInRange false := by
  induction calculation with
  | literal parsed _ fits =>
      intro part inExpr value judged
      rw [List.mem_singleton.mp inExpr] at judged ⊢
      rcases Option.map_eq_some_iff.mp judged with ⟨magnitude, evaluated, rfl⟩
      rw [constEvalUint_literal, parsed] at evaluated
      cases evaluated
      exact ValueType.inRange_of_uintLiteralFits fits (strtoull_lt parsed)
  | negatedLiteral _ _ target =>
      have own := uniform _ (mem_subexpressions _)
      rw [resolved, Expr.base] at own
      rw [← own, target, negatedLiteralTarget_isSigned] at unsigned
      cases unsigned
  | negate _ _ _ signed =>
      have own := uniform _ (mem_subexpressions _)
      rw [resolved, Expr.base] at own
      rw [own, unsigned] at signed
      cases signed
  | @shift _ base op left right allows shifts first second same _ leftHypothesis
      rightHypothesis =>
      have uniformLeft := fun part inLeft =>
        uniform part (List.mem_cons_of_mem _ (List.mem_append_left _ inLeft))
      have uniformRight := fun part inRight =>
        uniform part (List.mem_cons_of_mem _ (List.mem_append_right _ inRight))
      have leftRanges := leftHypothesis uniformLeft exact.left
      apply leftRanges.of_binary (rightHypothesis uniformRight exact.right)
      intro value judged
      rcases Option.map_eq_some_iff.mp judged with ⟨magnitude, evaluated, rfl⟩
      by_cases leftShift : op = .bitwiseLshift
      · by_cases narrow : base.resolved.widthBits < 64
        · have unchecked : (binary base op left right).isUnchecked := by
            simp [isUnchecked, leftShift]
          rcases (exact _ (mem_subexpressions _)).1 unchecked narrow with ⟨_, found⟩
          rw [← exactValue_of_constEvalUint unsigned uniform found evaluated]
          exact inRange_of_exactValue found
        · have wide : base.resolved = .u64 := by
            have own : base.resolved = type := uniform _ (mem_subexpressions _)
            have integer : base.resolved.isInteger := same ▸ first.isInteger
            rw [own] at narrow integer ⊢
            cases type <;>
              first
              | rfl
              | exact absurd unsigned (by decide)
              | exact absurd integer (by decide)
              | exact absurd (by decide) narrow
          rw [wide]
          exact (inRange_natCast_iff rfl).mpr (constEvalUint_lt evaluated)
      · have rightShift : op = .bitwiseRshift := by
          cases op <;> first | rfl | exact absurd rfl leftShift | cases shifts
        subst rightShift
        rcases constEvalUint_binary_inv evaluated with ⟨a, b, leftValue, _, operation⟩
        simp only [evalUintBinary, Option.ite_none_left_eq_some, Option.some.injEq] at operation
        have leftJudged : left.judged false = some (a : Int) := by
          rw [Expr.judged, leftValue]
          rfl
        have shifted := Format.InRange.shiftRight (leftRanges.value leftJudged) b
        rw [same] at shifted
        rw [← operation.2]
        exact_mod_cast shifted
  | @arithmetic _ base op left right _ _ _ _ _ _ _ checked leftHypothesis rightHypothesis =>
      have uniformLeft := fun part inLeft =>
        uniform part (List.mem_cons_of_mem _ (List.mem_append_left _ inLeft))
      have uniformRight := fun part inRight =>
        uniform part (List.mem_cons_of_mem _ (List.mem_append_right _ inRight))
      apply (leftHypothesis uniformLeft exact.left).of_binary
        (rightHypothesis uniformRight exact.right)
      intro value judged
      rcases Option.map_eq_some_iff.mp judged with ⟨magnitude, evaluated, rfl⟩
      have own : base.resolved = type := uniform _ (mem_subexpressions _)
      rw [FitsWhenEvaluated, if_neg (by rw [own, unsigned]; decide)] at checked
      exact ValueType.inRange_of_uintLiteralFits (checked.1 _ evaluated)
        (constEvalUint_lt evaluated)

/-- The checks and the exact values keep what the evaluator of the expression's signedness
finds in the types. -/
theorem Calculation.judgedInRange (subset : ∀ op, allowed op → op.calculates)
    (calculation : expr.Calculation allowed expected) {value : Int}
    (evaluated : expr.judged expr.resolved.isSigned = some value)
    (exact : expr.ExactWhereUnchecked expr.resolved.isSigned) :
    expr.JudgedInRange expr.resolved.isSigned := by
  by_cases signed : expr.resolved.isSigned
  · rw [signed] at exact ⊢
    exact calculation.judgedInRange_signed exact
  · have unsigned := Bool.eq_false_iff.mpr signed
    rw [unsigned] at evaluated exact ⊢
    rcases Option.map_eq_some_iff.mp evaluated with ⟨magnitude, found, _⟩
    have types := calculation.resolved_of_constEvalUint subset found
    rw [types.1] at unsigned
    exact calculation.judgedInRange_unsigned unsigned types.2 exact

end Expr

end Sulfur
