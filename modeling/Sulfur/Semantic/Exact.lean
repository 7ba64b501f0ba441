import Sulfur.Semantic.Constant

/-!
# Exact arithmetic on constants

Addition, subtraction, multiplication and division of literals.  The analysis checks
the value of each operator against its type, but in 64 bits, where its evaluators give
up on overflow; and it checks no minus sign.
-/

namespace Sulfur

open Word

/-- The 64-bit type of the same signedness. -/
def ValueType.widest (type : ValueType) : ValueType :=
  if type.isSigned then .i64 else .u64

/-- The smallest value of an integer type. -/
def ValueType.least (type : ValueType) : Int :=
  if type.isSigned then -2 ^ (type.widthBits - 1) else 0

/-- Addition, subtraction, multiplication and division. -/
def BinaryOp.isArithmetic : BinaryOp → Bool
  | .add | .sub | .mul | .div => true
  | _ => false

namespace Expr

/-- The exact value of a constant tree all of whose nodes stay within one type. -/
def exactIn (type : ValueType) (expr : Expr) : Option Int :=
  expr.exactWith fun _ => type

theorem inRange_of_exactIn {type : ValueType} {expr : Expr} {value : Int}
    (exact : expr.exactIn type = some value) : type.InRange value :=
  inRange_of_exactWith exact

/-- A minus sign other than a literal's stands before the smallest value of a type. -/
def NegatesLeast (type : ValueType) (expr : Expr) : Prop :=
  ∃ base operand, unary base .negate operand ∈ expr.constantNodes ∧
    operand.isLiteral = false ∧ operand.exactIn type = some type.least

/-! ## Exactness in a type -/

theorem inRange_neg_of_ne_least {type : ValueType} (signed : type.isSigned) {value : Int}
    (range : type.InRange value) (other : value ≠ type.least) : type.InRange (-value) := by
  cases type <;>
    simp_all [ValueType.isSigned, ValueType.InRange, ValueType.format, ValueType.widthBits,
      ValueType.least, Format.inRange_signed_iff] <;> omega

theorem not_inRange_neg_least {type : ValueType} (signed : type.isSigned) :
    ¬type.InRange (-type.least) := by
  cases type <;> first | decide | cases signed

theorem inRange_widest {type : ValueType} {value : Int} (range : type.InRange value) :
    type.widest.InRange value := by
  have signed : type.format.signed = type.widest.format.signed := by cases type <;> rfl
  have narrow : type.format.width ≤ type.widest.format.width := by cases type <;> decide
  exact Format.InRange.widen range signed narrow

theorem exactResult_of_isArithmetic {op : BinaryOp} (arithmetic : op.isArithmetic)
    (type other : ValueType) (a b : Int) :
    op.exactResult type a b = op.exactResult other a b := by
  cases op <;> first | rfl | cases arithmetic

theorem unshifted_of_isArithmetic {op : BinaryOp} (arithmetic : op.isArithmetic) :
    op.isShift = false := by
  cases op <;> first | rfl | cases arithmetic

theorem calculates_of_isArithmetic (op : BinaryOp) (arithmetic : op.isArithmetic) :
    op.calculates := by
  cases op <;> first | rfl | cases arithmetic

theorem int64_of_inRange {value : Int} (range : ValueType.i64.InRange value) :
    int64Min ≤ value ∧ value ≤ int64Max := by
  change -2 ^ 64 ≤ 2 * value ∧ 2 * value < 2 ^ 64 at range
  unfold int64Min int64Max
  omega

theorem evalUintBinary_of_exactResult {op : BinaryOp} (arithmetic : op.isArithmetic)
    {a b value : Int} (first : ValueType.u64.InRange a) (second : ValueType.u64.InRange b)
    (exact : op.exactResult .u64 a b = some value) (range : ValueType.u64.InRange value) :
    evalUintBinary op a.toNat b.toNat = some value.toNat := by
  change 0 ≤ a ∧ a < 2 ^ 64 at first
  change 0 ≤ b ∧ b < 2 ^ 64 at second
  change 0 ≤ value ∧ value < 2 ^ 64 at range
  lift a to Nat using first.1
  lift b to Nat using second.1
  lift value to Nat using range.1
  simp only [Int.toNat_natCast]
  cases op with
  | add =>
      have sum : (a : Int) + b = value := Option.some.inj exact
      rw [evalUintBinary, if_pos (by omega)]
      exact congrArg some (by omega)
  | sub =>
      have difference : (a : Int) - b = value := Option.some.inj exact
      rw [evalUintBinary, if_neg (by omega)]
      exact congrArg some (by omega)
  | mul =>
      have product : a * b = value := by exact_mod_cast Option.some.inj exact
      rw [evalUintBinary, product, if_pos (by omega)]
  | div =>
      simp only [BinaryOp.exactResult, Option.ite_none_left_eq_some,
        Option.some.injEq] at exact
      have nonzero : b ≠ 0 := by exact_mod_cast exact.1
      have quotient : a / b = value := by
        rw [Int.tdiv_eq_ediv_of_nonneg first.1] at exact
        exact_mod_cast exact.2
      rw [evalUintBinary, if_neg nonzero, quotient]
  | _ => cases arithmetic

theorem exactWith_mono_of_isArithmetic {expected narrow wide : ValueType} {expr : Expr}
    (calculation : expr.Calculation BinaryOp.isArithmetic expected)
    (widens : ∀ value, narrow.InRange value → wide.InRange value) {value : Int}
    (exact : expr.exactIn narrow = some value) : expr.exactIn wide = some value := by
  induction calculation generalizing value with
  | literal =>
      rcases exactWith_literal.mp exact with ⟨magnitude, parsed, range, rfl⟩
      exact exactWith_literal.mpr ⟨magnitude, parsed, widens _ range, rfl⟩
  | negatedLiteral =>
      rcases exactWith_negatedLiteral.mp exact with ⟨magnitude, parsed, range, rfl⟩
      exact exactWith_negatedLiteral.mpr ⟨magnitude, parsed, widens _ range, rfl⟩
  | negate _ compound _ _ inductionHypothesis =>
      rcases (exactWith_unary compound).mp exact with ⟨child, operandExact, range, rfl⟩
      exact (exactWith_unary compound).mpr
        ⟨child, inductionHypothesis operandExact, widens _ range, rfl⟩
  | shift allows shifts => exact absurd shifts (by simp [unshifted_of_isArithmetic allows])
  | arithmetic allows _ _ _ _ _ _ _ leftHypothesis rightHypothesis =>
      rcases exactWith_binary.mp exact with ⟨a, leftExact, b, rightExact, operation, range⟩
      rw [exactResult_of_isArithmetic allows narrow wide] at operation
      exact exactWith_binary.mpr ⟨a, leftHypothesis leftExact, b, rightHypothesis rightExact,
        operation, widens _ range⟩

/-- The signed evaluator gives the value that is exact in 64 bits. -/
theorem constEvalInt_of_exactIn {expected : ValueType} {expr : Expr}
    (calculation : expr.Calculation BinaryOp.isArithmetic expected) {value : Int}
    (exact : expr.exactIn .i64 = some value) : constEvalInt expr = some value := by
  induction calculation generalizing value with
  | literal =>
      rcases exactWith_literal.mp exact with ⟨magnitude, parsed, range, rfl⟩
      exact constEvalInt_literal parsed (int64_of_inRange range).2
  | negatedLiteral =>
      rcases exactWith_negatedLiteral.mp exact with ⟨magnitude, parsed, range, rfl⟩
      exact constEvalInt_negatedLiteral parsed (int64_of_inRange range).1
  | negate _ compound _ _ inductionHypothesis =>
      rcases (exactWith_unary compound).mp exact with ⟨child, operandExact, range, rfl⟩
      exact constEvalInt_negate compound (inductionHypothesis operandExact)
        (int64_of_inRange range).2
  | shift allows shifts => exact absurd shifts (by simp [unshifted_of_isArithmetic allows])
  | arithmetic allows plain _ _ _ _ _ _ leftHypothesis rightHypothesis =>
      rcases exactWith_binary.mp exact with ⟨a, leftExact, b, rightExact, operation, range⟩
      rw [constEvalInt_binary (leftHypothesis leftExact) (rightHypothesis rightExact)]
      have first := inRange_of_exactWith leftExact
      exact evalIntBinary_of_exactResult rfl first (int64_of_inRange first).2
        (fun _ => inRange_of_exactWith rightExact)
        (fun shifts => absurd shifts (by simp [plain])) range (int64_of_inRange range).2
        operation

/-- The unsigned evaluator does the same for an expression of unsigned type. -/
theorem constEvalUint_of_exactIn {expected : ValueType} {expr : Expr}
    (calculation : expr.Calculation BinaryOp.isArithmetic expected)
    (unsigned : expr.resolved.isSigned = false) {value : Int}
    (exact : expr.exactIn .u64 = some value) : constEvalUint expr = some value.toNat := by
  induction calculation generalizing value with
  | literal =>
      rcases exactWith_literal.mp exact with ⟨magnitude, parsed, range, rfl⟩
      rw [constEvalUint, literalMagnitude, parsed, Int.toNat_natCast]
      intro literal op left right isBinary
      cases isBinary
  | negatedLiteral _ _ target =>
      rw [resolved, Expr.base, target, negatedLiteralTarget_isSigned] at unsigned
      cases unsigned
  | negate _ _ _ signed =>
      rw [resolved, Expr.base, signed] at unsigned
      cases unsigned
  | shift allows shifts => exact absurd shifts (by simp [unshifted_of_isArithmetic allows])
  | @arithmetic _ base op left right allows _ first second group promoted _ _ leftHypothesis
      rightHypothesis =>
      rcases exactWith_binary.mp exact with ⟨a, leftExact, b, rightExact, operation, range⟩
      rcases same_of_promote first.isInteger
        (second.resolved_cases calculates_of_isArithmetic) group promoted with
        ⟨rightSame, resultSame⟩
      have leftUnsigned : left.resolved.isSigned = false := resultSame ▸ unsigned
      rw [constEvalUint, leftHypothesis leftUnsigned leftExact,
        rightHypothesis (rightSame ▸ leftUnsigned) rightExact]
      exact evalUintBinary_of_exactResult allows (inRange_of_exactWith leftExact)
        (inRange_of_exactWith rightExact) operation range

theorem inRange_of_signedFits {type : ValueType} (signed : type.isSigned) {value : Int}
    (fits : signedFits type value) (range : type.widest.InRange value) :
    type.InRange value := by
  cases type <;>
    simp_all [signedFits, ValueType.widest, ValueType.isSigned, ValueType.InRange,
      ValueType.format, ValueType.widthBits, Format.inRange_signed_iff] <;> omega

/-- A value that is exact in 64 bits and has passed the check is one of the type. -/
theorem inRange_of_fitsWhenEvaluated {expected : ValueType} {expr : Expr}
    (calculation : expr.Calculation BinaryOp.isArithmetic expected) {value : Int}
    (exact : expr.exactIn expr.resolved.widest = some value)
    (checked : expr.FitsWhenEvaluated expr.resolved) : expr.resolved.InRange value := by
  have range := inRange_of_exactWith exact
  by_cases signed : expr.resolved.isSigned
  · rw [FitsWhenEvaluated, if_pos signed] at checked
    rw [ValueType.widest, if_pos signed] at exact
    exact inRange_of_signedFits signed
      (checked value (constEvalInt_of_exactIn calculation exact)) range
  · rw [FitsWhenEvaluated, if_neg signed] at checked
    rw [ValueType.widest, if_neg signed] at exact range
    have unsigned := Bool.eq_false_iff.mpr signed
    have fits := checked.1 _ (constEvalUint_of_exactIn calculation unsigned exact)
    change 0 ≤ value ∧ value < 2 ^ 64 at range
    have inside := ValueType.inRange_of_uintLiteralFits fits (by omega)
    rw [Int.toNat_of_nonneg range.1] at inside
    exact inside

theorem NegatesLeast.of_subset {type : ValueType} {part whole : Expr}
    (subset : ∀ node ∈ part.constantNodes, node ∈ whole.constantNodes)
    (negates : part.NegatesLeast type) : whole.NegatesLeast type := by
  rcases negates with ⟨base, operand, inPart, compound, least⟩
  exact ⟨base, operand, subset _ inPart, compound, least⟩

/-- Where no overflow passes the 64 bits of the evaluators, the checks leave one way out
of the type: a minus sign before its smallest value. -/
theorem exactIn_of_widest {expected : ValueType} {expr : Expr}
    (calculation : expr.Calculation BinaryOp.isArithmetic expected) {value : Int}
    (exact : expr.exactIn expr.resolved.widest = some value)
    (negates : ¬expr.NegatesLeast expr.resolved) :
    expr.exactIn expr.resolved = some value := by
  induction calculation generalizing value with
  | literal parsed target fits =>
      rcases exactWith_literal.mp exact with ⟨magnitude, again, _, rfl⟩
      rw [parsed] at again
      cases again
      have bound : _ < 2 ^ 64 := strtoull_lt parsed
      exact exactWith_literal.mpr
        ⟨_, parsed, ValueType.inRange_of_uintLiteralFits fits bound, rfl⟩
  | negatedLiteral parsed _ _ _ fits =>
      rcases exactWith_negatedLiteral.mp exact with ⟨magnitude, again, _, rfl⟩
      rw [parsed] at again
      cases again
      exact exactWith_negatedLiteral.mpr
        ⟨_, parsed, ValueType.inRange_neg_of_signedLiteralFitsNegated fits, rfl⟩
  | @negate _ base operand _ compound same signed inductionHypothesis =>
      have typed : (unary base .negate operand).resolved = operand.resolved := same.symm
      rw [typed] at exact negates ⊢
      rcases (exactWith_unary compound).mp exact with ⟨child, operandExact, range, rfl⟩
      have operandInside := inductionHypothesis operandExact fun inner =>
        negates (inner.of_subset fun node inOperand => List.mem_cons_of_mem _ inOperand)
      have other : child ≠ operand.resolved.least := by
        rintro rfl
        exact negates ⟨base, operand, List.mem_cons_self, compound, operandInside⟩
      rw [← same] at signed
      exact (exactWith_unary compound).mpr ⟨child, operandInside,
        inRange_neg_of_ne_least signed (inRange_of_exactIn operandInside) other, rfl⟩
  | shift allows shifts => exact absurd shifts (by simp [unshifted_of_isArithmetic allows])
  | @arithmetic _ base op left right allows plain first second group promoted nonzero checked
      leftHypothesis rightHypothesis =>
      have inside := inRange_of_fitsWhenEvaluated
        (.arithmetic allows plain first second group promoted nonzero checked) exact checked
      rcases same_of_promote first.isInteger
        (second.resolved_cases calculates_of_isArithmetic) group promoted with
        ⟨rightSame, resultSame⟩
      have typed : (binary base op left right).resolved = left.resolved := resultSame
      rw [typed] at exact negates inside ⊢
      rw [rightSame] at rightHypothesis
      rcases exactWith_binary.mp exact with ⟨a, leftExact, b, rightExact, operation, _⟩
      rw [exactResult_of_isArithmetic allows left.resolved.widest left.resolved] at operation
      have leftInside := leftHypothesis leftExact fun inner => negates (inner.of_subset
        fun node inLeft => List.mem_cons_of_mem _ (List.mem_append_left _ inLeft))
      have rightInside := rightHypothesis rightExact fun inner => negates (inner.of_subset
        fun node inRight => List.mem_cons_of_mem _ (List.mem_append_right _ inRight))
      exact exactWith_binary.mpr ⟨a, leftInside, b, rightInside, operation, inside⟩

/-- In an expression that stays within a type every node but a literal has a value. -/
theorem exists_exactWith {typeOf : Base → ValueType} {expr : Expr} {value : Int}
    (exact : expr.exactWith typeOf = some value) :
    ∀ node ∈ expr.constantNodes, node.isLiteral = false →
      ∃ inner, node.exactWith typeOf = some inner := by
  induction expr using Expr.induction generalizing value with
  | binary base op left right leftHypothesis rightHypothesis =>
      intro node inExpr compound
      rcases List.mem_cons.mp inExpr with rfl | inOperands
      · exact ⟨value, exact⟩
      · rcases exactWith_binary.mp exact with ⟨a, leftExact, b, rightExact, _⟩
        rcases List.mem_append.mp inOperands with inLeft | inRight
        · exact leftHypothesis leftExact node inLeft compound
        · exact rightHypothesis rightExact node inRight compound
  | unary base op operand operandHypothesis =>
      intro node inExpr compound
      rcases List.mem_cons.mp inExpr with rfl | inOperand
      · exact ⟨value, exact⟩
      · by_cases plain : operand.isLiteral = false
        · rcases (exactWith_unary plain).mp exact with ⟨child, operandExact, _⟩
          exact operandHypothesis operandExact node inOperand compound
        · cases operand with
          | literal =>
              rw [List.mem_singleton.mp inOperand] at compound
              cases compound
          | _ => exact absurd rfl plain
  | literal =>
      intro node inExpr compound
      rw [List.mem_singleton.mp inExpr] at compound
      cases compound
  | cast => cases exact
  | identifier => cases exact
  | funcCall => cases exact

theorem Calculation.isSigned_of_unary {allowed : BinaryOp → Bool} {expected : ValueType}
    {expr : Expr} (calculation : expr.Calculation allowed expected) :
    ∀ base op operand, unary base op operand ∈ expr.constantNodes →
      base.resolved.isSigned := by
  induction calculation with
  | literal =>
      intro base op operand inExpr
      cases List.mem_singleton.mp inExpr
  | negatedLiteral _ _ target =>
      intro base op operand inExpr
      rcases List.mem_cons.mp inExpr with same | inOperand
      · cases same
        rw [target]
        exact negatedLiteralTarget_isSigned _
      · cases List.mem_singleton.mp inOperand
  | negate _ _ _ signed inductionHypothesis =>
      intro base op operand inExpr
      rcases List.mem_cons.mp inExpr with same | inOperand
      · cases same
        exact signed
      · exact inductionHypothesis base op operand inOperand
  | shift _ _ _ _ _ _ leftHypothesis rightHypothesis =>
      intro base op operand inExpr
      rcases List.mem_cons.mp inExpr with same | inOperands
      · cases same
      · rcases List.mem_append.mp inOperands with inLeft | inRight
        · exact leftHypothesis base op operand inLeft
        · exact rightHypothesis base op operand inRight
  | arithmetic _ _ _ _ _ _ _ _ leftHypothesis rightHypothesis =>
      intro base op operand inExpr
      rcases List.mem_cons.mp inExpr with same | inOperands
      · cases same
      · rcases List.mem_append.mp inOperands with inLeft | inRight
        · exact leftHypothesis base op operand inLeft
        · exact rightHypothesis base op operand inRight

theorem not_negatesLeast {expected : ValueType} {expr : Expr}
    (calculation : expr.Calculation BinaryOp.isArithmetic expected) {value : Int}
    (exact : expr.exactIn expr.resolved = some value) :
    ¬expr.NegatesLeast expr.resolved := by
  rintro ⟨base, operand, inExpr, compound, least⟩
  rcases exists_exactWith exact _ inExpr rfl with ⟨inner, negated⟩
  rcases (exactWith_unary compound).mp negated with ⟨child, operandExact, range, _⟩
  have same : child = expr.resolved.least := by
    rw [exactIn, operandExact] at least
    exact Option.some.inj least
  have typed := calculation.uniform calculates_of_isArithmetic
    (fun _ arithmetic => unshifted_of_isArithmetic arithmetic) _ inExpr
  have signed := calculation.isSigned_of_unary base .negate operand inExpr
  change base.resolved = _ at typed
  rw [typed] at signed
  rw [same] at range
  exact not_inRange_neg_least signed range

/-- An accepted expression stays within its type exactly when it stays within 64 bits
and negates no smallest value. -/
theorem exists_exactIn_iff {expected : ValueType} {expr : Expr}
    (calculation : expr.Calculation BinaryOp.isArithmetic expected) :
    (∃ value, expr.exactIn expr.resolved = some value) ↔
      (∃ value, expr.exactIn expr.resolved.widest = some value) ∧
        ¬expr.NegatesLeast expr.resolved := by
  constructor
  · rintro ⟨value, exact⟩
    exact ⟨⟨value, exactWith_mono_of_isArithmetic calculation
      (fun _ range => inRange_widest range) exact⟩, not_negatesLeast calculation exact⟩
  · rintro ⟨⟨value, exact⟩, negates⟩
    exact ⟨value, exactIn_of_widest calculation exact negates⟩

end Expr

end Sulfur
