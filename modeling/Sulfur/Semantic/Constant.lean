import Sulfur.Semantic.Acceptance
import Sulfur.Semantic.Annotation

/-!
# Constant expressions

Integer literals under unary minus and the operators on integers.  An accepted
one is a tree whose nodes have passed the checks that the analysis makes with
the evaluators of `semantic_const.c`; its exact value is the one without a
bound, as long as every node stays within its type.
-/

namespace Sulfur

open Word

/-- The arithmetic, bitwise and shift operators. -/
def BinaryOp.calculates (op : BinaryOp) : Bool :=
  !op.isLogical && !op.isRelational

theorem strtoull_lt {digits : String} {value : Nat} (parsed : strtoull digits = some value) :
    value < 2 ^ 64 := by
  unfold strtoull at parsed
  dsimp only at parsed
  split at parsed
  · rename_i small
    cases parsed
    exact small
  · cases parsed

namespace Expr

/-- Integer literals under unary minus and the allowed operators. -/
def BuiltFrom (allowed : BinaryOp → Bool) : Expr → Prop
  | binary _ op left right =>
      allowed op ∧ left.BuiltFrom allowed ∧ right.BuiltFrom allowed
  | unary _ op operand => op = .negate ∧ operand.BuiltFrom allowed
  | literal _ tokenType _ => tokenType = .integer
  | _ => False

/-- Integer literals under unary minus and the operators that calculate. -/
abbrev IsConstant (expr : Expr) : Prop :=
  expr.BuiltFrom BinaryOp.calculates

/-- The evaluator of the type's signedness finds no value outside the type. -/
def FitsWhenEvaluated (expr : Expr) (type : ValueType) : Prop :=
  if type.isSigned then
    ∀ value, constEvalInt expr = some value → signedFits type value
  else
    (∀ value, constEvalUint expr = some value → type.uintLiteralFits value) ∧
      underflowOperands expr = none

/-- An accepted constant tree over the allowed operators, analysed at a type. -/
inductive Calculation (allowed : BinaryOp → Bool) : ValueType → Expr → Prop
  | literal {expected : ValueType} {base : Base} {value : String} {magnitude : Nat}
      (parsed : strtoull value = some magnitude)
      (target : base.resolved = literalTarget expected)
      (fits : base.resolved.uintLiteralFits magnitude) :
      Calculation allowed expected (.literal base .integer value)
  | negatedLiteral {expected : ValueType} {base literalBase : Base} {value : String}
      {magnitude : Nat} (parsed : strtoull value = some magnitude)
      (context : expected.isUnsigned = false)
      (target : base.resolved = negatedLiteralTarget expected)
      (same : literalBase.resolved = base.resolved)
      (fits : base.resolved.signedLiteralFitsNegated magnitude) :
      Calculation allowed expected
        (.unary base .negate (.literal literalBase .integer value))
  | negate {expected : ValueType} {base : Base} {operand : Expr}
      (inner : Calculation allowed (if expected.isSigned then expected else .i64) operand)
      (compound : operand.isLiteral = false)
      (same : operand.resolved = base.resolved)
      (signed : base.resolved.isSigned) :
      Calculation allowed expected (.unary base .negate operand)
  | shift {expected : ValueType} {base : Base} {op : BinaryOp} {left right : Expr}
      (allows : allowed op) (shifts : op.isShift)
      (first : Calculation allowed (operandExpected op expected) left)
      (second : Calculation allowed (operandExpected op expected) right)
      (same : left.resolved = base.resolved)
      (checked : ∀ amount, constEvalInt right = some amount →
        0 ≤ amount ∧ amount < left.resolved.widthBits) :
      Calculation allowed expected (.binary base op left right)
  | arithmetic {expected : ValueType} {base : Base} {op : BinaryOp} {left right : Expr}
      (allows : allowed op) (plain : op.isShift = false)
      (first : Calculation allowed (operandExpected op expected) left)
      (second : Calculation allowed left.resolved right)
      (group : left.resolved.isSameGroup right.resolved)
      (promoted : left.resolved.promote right.resolved = base.resolved)
      (nonzero : op = .div → constIsZero right base.resolved.isSigned = false)
      (checked : FitsWhenEvaluated (.binary base op left right) base.resolved) :
      Calculation allowed expected (.binary base op left right)

variable {allowed : BinaryOp → Bool} {expected : ValueType}

theorem Calculation.isInteger {expr : Expr} (calculation : expr.Calculation allowed expected) :
    expr.resolved.isInteger := by
  induction calculation with
  | literal _ target _ =>
      rw [resolved, Expr.base, target]
      exact literalTarget_isInteger _
  | negatedLiteral _ _ target _ _ =>
      rw [resolved, Expr.base, target, ValueType.isInteger, negatedLiteralTarget_isSigned]
      rfl
  | negate _ _ _ signed _ => simp [resolved, Expr.base, ValueType.isInteger, signed]
  | shift _ _ _ _ same _ leftHypothesis _ =>
      rw [resolved, Expr.base, ← same]
      exact leftHypothesis
  | arithmetic _ _ _ _ _ promoted _ _ leftHypothesis rightHypothesis =>
      rw [resolved, Expr.base, ← promoted]
      exact ValueType.isInteger_promote leftHypothesis rightHypothesis

end Expr

/-! ## Acceptance -/

/-- A subtraction that the unsigned evaluator evaluates does not underflow. -/
theorem underflowOperands_of_evaluated {expr : Expr} {value : Nat}
    (evaluated : constEvalUint expr = some value) : underflowOperands expr = none := by
  unfold underflowOperands
  split
  · rename_i left right
    rw [constEvalUint] at evaluated
    cases first : constEvalUint left with
    | none => rfl
    | some l =>
        cases second : constEvalUint right with
        | none => rfl
        | some r =>
            rw [first, second] at evaluated
            change (if l < r then none else some (l - r)) = some value at evaluated
            change (if l < r then some (l, r) else none) = none
            split at evaluated
            · cases evaluated
            · rename_i notLess
              rw [if_neg notLess]
  · rfl

theorem constCheckOverflow_ok {expr : Expr} {resolved : ValueType} {filename : String}
    (ok : (constCheckOverflow expr resolved filename).ok) :
    expr.FitsWhenEvaluated resolved := by
  unfold constCheckOverflow at ok
  unfold Expr.FitsWhenEvaluated
  split at ok
  · rename_i signed
    rw [if_pos signed]
    intro value evaluated
    rw [checkSignedOverflow, evaluated] at ok
    dsimp only at ok
    split at ok
    · assumption
    · cases ok
  · rename_i unsigned
    rw [if_neg unsigned]
    cases evaluated : constEvalUint expr with
    | none =>
        constructor
        · exact nofun
        · rw [checkUnsignedOverflow, evaluated] at ok
          dsimp only at ok
          split at ok
          · assumption
          · cases ok
    | some found =>
        constructor
        · rintro value ⟨⟩
          rw [checkUnsignedOverflow, evaluated] at ok
          dsimp only at ok
          split at ok
          · assumption
          · cases ok
        · exact underflowOperands_of_evaluated evaluated

/-- Annotating an expression makes no literal of it. -/
theorem Expr.Annotated.isLiteral_eq_false {source node : Expr}
    (annotated : source.Annotated node) (compound : source.isLiteral = false) :
    node.isLiteral = false := by
  cases annotated with
  | literal => cases compound
  | _ => rfl

section Operators

variable {s : Semantic} {allowed : BinaryOp → Bool}

/-- The type at which `analyze_binary_operands` analyses the second operand of an
operator that does not compare. -/
def secondExpected (op : BinaryOp) (first : Expr) (expected : ValueType) : ValueType :=
  if op.isShift then expected else siblingExpected first expected

theorem analyzeBinaryOperands_accepted {op : BinaryOp} {left right : Expr}
    {analyzeLeft analyzeRight : ValueType → ExprAnalysis} {expected : ValueType}
    (relational : op.isRelational = false)
    (ok : (analyzeBinaryOperands op left right analyzeLeft analyzeRight expected).ok) :
    let first := analyzeLeft expected
    let second := analyzeRight (secondExpected op first.node expected)
    first.ok ∧ second.ok ∧
      analyzeBinaryOperands op left right analyzeLeft analyzeRight expected =
        ⟨second.ok, first.node, second.node, first.log ++ second.log⟩ := by
  unfold analyzeBinaryOperands at ok ⊢
  simp only [relational, Bool.false_and, Bool.false_eq_true, if_false] at ok ⊢
  by_cases firstOk : (analyzeLeft expected).ok
  · rw [if_pos firstOk] at ok ⊢
    change (analyzeRight (secondExpected op _ expected)).ok = true at ok
    exact ⟨firstOk, ok, rfl⟩
  · rw [if_neg firstOk] at ok
    cases ok

/-- An accepted operator has accepted operands and has passed its own checks. -/
theorem analyzeBinary_accepted {base : Base} {op : BinaryOp} {left right : Expr}
    {analyzeLeft analyzeRight : ValueType → ExprAnalysis} {expected : ValueType}
    (relational : op.isRelational = false)
    (ok : (analyzeBinary s base op left right analyzeLeft analyzeRight expected).ok) :
    let first := analyzeLeft (operandExpected op expected)
    let second := analyzeRight
      (secondExpected op first.node (operandExpected op expected))
    first.ok ∧ second.ok ∧ (analyzeOperation s base op first.node second.node).ok ∧
      (analyzeBinary s base op left right analyzeLeft analyzeRight expected).node =
        (analyzeOperation s base op first.node second.node).node := by
  unfold analyzeBinary at ok ⊢
  dsimp only at ok ⊢
  split at ok
  · cases ok
  · rename_i operandsOk
    simp only [Bool.not_eq_true, Bool.not_eq_false'] at operandsOk
    rcases analyzeBinaryOperands_accepted relational operandsOk with
      ⟨firstOk, secondOk, operands⟩
    rw [operands] at ok ⊢
    simp only [secondOk, Bool.not_true, Bool.false_eq_true, if_false] at ok ⊢
    split at ok
    · cases ok
    · rename_i typed
      rw [if_neg typed]
      exact ⟨firstOk, trivial, ok, rfl⟩

theorem analyzeShift_accepted {base : Base} {op : BinaryOp} {left right : Expr}
    (ok : (analyzeShift s base op left right).ok) :
    (analyzeShift s base op left right).node =
        .binary { base with resolved := left.resolved } op left right ∧
      ∀ amount, constEvalInt right = some amount →
        0 ≤ amount ∧ amount < left.resolved.widthBits := by
  unfold analyzeShift at ok ⊢
  dsimp only at ok ⊢
  cases evaluated : constEvalInt right with
  | none => exact ⟨rfl, nofun⟩
  | some shiftAmount =>
      simp only [evaluated] at ok ⊢
      split at ok
      · cases ok
      · rename_i range
        rw [if_neg range]
        push Not at range
        constructor
        · rfl
        · rintro amount ⟨⟩
          exact range

theorem analyzeArithmetic_accepted {base : Base} {op : BinaryOp} {left right : Expr}
    (ok : (analyzeArithmetic s base op left right).ok) :
    ∃ header, header.resolved = left.resolved.promote right.resolved ∧
      (analyzeArithmetic s base op left right).node = .binary header op left right ∧
      left.resolved.isSameGroup right.resolved ∧
      (op = .div → constIsZero right header.resolved.isSigned = false) ∧
      (Expr.binary header op left right).FitsWhenEvaluated header.resolved := by
  refine ⟨{ base with resolved := left.resolved.promote right.resolved }, rfl, ?_⟩
  unfold analyzeArithmetic at ok ⊢
  dsimp only at ok ⊢
  split at ok
  · cases ok
  · rename_i group
    rw [if_neg group]
    split at ok
    · cases ok
    · rename_i integer
      rw [if_neg integer]
      split at ok
      · cases ok
      · rename_i divides
        rw [if_neg divides]
        simp only [Bool.not_eq_true, Bool.not_eq_false'] at group
        constructor
        · rfl
        · constructor
          · exact group
          · constructor
            · rintro rfl
              simpa using divides
            · exact constCheckOverflow_ok ok

theorem analyzeNegatedLiteral_accepted {base literalBase : Base} {value : String}
    {expected : ValueType}
    (ok : (analyzeNegatedLiteral s base literalBase value expected).ok) :
    (analyzeNegatedLiteral s base literalBase value expected).node.Calculation allowed
      expected := by
  unfold analyzeNegatedLiteral at ok ⊢
  dsimp only at ok ⊢
  split at ok
  · cases ok
  · rename_i unsigned
    rw [if_neg unsigned]
    split at ok
    · cases ok
    · rename_i fits
      rw [if_neg fits]
      simp only [Bool.not_eq_true, Bool.not_eq_false'] at fits
      rcases negatedLiteralFits_iff.mp fits with ⟨magnitude, parsed, fits⟩
      have context : expected.isUnsigned = false := by
        cases expected <;> first | rfl | exact absurd ⟨nofun, rfl, rfl⟩ unsigned
      exact .negatedLiteral parsed context rfl rfl fits

theorem analyzeLiteral_accepted {base : Base} {value : String} {expected : ValueType}
    (ok : (analyzeLiteral s base .integer value expected).ok) :
    (analyzeLiteral s base .integer value expected).node.Calculation allowed expected := by
  unfold analyzeLiteral at ok ⊢
  dsimp only at ok ⊢
  cases parsed : strtoull value with
  | none =>
      rw [parsed] at ok
      cases ok
  | some raw =>
      simp only [parsed] at ok ⊢
      split at ok
      · cases ok
      · rename_i fits
        rw [if_neg fits]
        simp only [Bool.not_eq_true, Bool.not_eq_false'] at fits
        exact .literal parsed rfl fits

theorem analyzeNegate_accepted {base : Base} {operand : Expr}
    {analyzeOperand : ValueType → ExprAnalysis} {expected : ValueType}
    (compound : operand.isLiteral = false)
    (annotates : ∀ type, (analyzeOperand type).Annotates operand)
    (calculation : ∀ type, (analyzeOperand type).ok →
      (analyzeOperand type).node.Calculation allowed type)
    (ok : (analyzeNegate s base analyzeOperand expected).ok) :
    (analyzeNegate s base analyzeOperand expected).node.Calculation allowed expected := by
  unfold analyzeNegate at ok ⊢
  dsimp only at ok ⊢
  generalize equal : (if expected.isSigned then expected else .i64) = type at ok ⊢
  split at ok
  · cases ok
  · rename_i operandOk
    rw [if_neg operandOk]
    simp only [Bool.not_eq_true, Bool.not_eq_false'] at operandOk
    split at ok
    · cases ok
    · rename_i typed
      rw [if_neg typed]
      split at ok
      · cases ok
      · rename_i signed
        rw [if_neg signed]
        simp only [Bool.not_eq_true, Bool.not_eq_false'] at signed
        have annotated := annotates _ operandOk
        subst equal
        exact .negate (calculation _ operandOk)
          (annotated.isLiteral_eq_false compound) rfl signed

end Operators

/-- Every accepted constant expression has passed the checks of its nodes. -/
theorem analyzeExpr_calculation (s : Semantic) {expr : Expr}
    {allowed : BinaryOp → Bool} (subset : ∀ op, allowed op → op.calculates)
    (built : expr.BuiltFrom allowed)
    {expected : ValueType} (ok : (analyzeExpr s expr expected).ok) :
    (analyzeExpr s expr expected).node.Calculation allowed expected := by
  induction expr using Expr.induction generalizing expected with
  | binary base op left right leftHypothesis rightHypothesis =>
      rcases built with ⟨allows, leftBuilt, rightBuilt⟩
      have calculates := subset op allows
      have relational : op.isRelational = false := by
        cases op <;> first | rfl | cases calculates
      have logical : op.isLogical = false := by
        cases op <;> first | rfl | cases calculates
      rw [analyzeExpr] at ok ⊢
      rcases analyzeBinary_accepted relational ok with
        ⟨firstOk, secondOk, operationOk, node⟩
      rw [node]
      have first := leftHypothesis leftBuilt firstOk
      have second := rightHypothesis rightBuilt secondOk
      unfold analyzeOperation at operationOk ⊢
      rw [if_neg (by simp [logical])] at operationOk ⊢
      by_cases shifts : op.isShift
      · rw [if_pos shifts] at operationOk ⊢
        rcases analyzeShift_accepted operationOk with ⟨node, checked⟩
        rw [node]
        rw [secondExpected, if_pos shifts] at *
        exact .shift allows shifts first second rfl checked
      · rw [if_neg shifts, if_neg (by simp [relational])] at operationOk ⊢
        rcases analyzeArithmetic_accepted operationOk with
          ⟨header, promoted, node, group, nonzero, checked⟩
        rw [node]
        have known := ValueType.ne_unresolved_of_isInteger first.isInteger
        rw [secondExpected, if_neg shifts, siblingExpected, if_pos known] at *
        exact .arithmetic allows (Bool.eq_false_iff.mpr shifts) first second group
          promoted.symm nonzero checked
  | unary base op operand operandHypothesis =>
      rcases built with ⟨rfl, operandBuilt⟩
      rw [analyzeExpr] at ok ⊢
      unfold analyzeUnary at ok ⊢
      dsimp only at ok ⊢
      split at ok
      · exact analyzeNegatedLiteral_accepted ok
      · rename_i compound
        apply analyzeNegate_accepted _ (fun type => analyzeExpr_annotates s operand type)
          (fun type operandOk => operandHypothesis operandBuilt operandOk) ok
        cases operand with
        | literal literalBase tokenType value =>
            cases operandBuilt
            exact absurd rfl (compound literalBase value)
        | _ => rfl
  | literal base tokenType value =>
      cases built
      rw [analyzeExpr] at ok ⊢
      exact analyzeLiteral_accepted ok
  | cast => cases built
  | identifier => cases built
  | funcCall => cases built

/-! ## Types -/

namespace Expr

/-- The nodes of a constant tree. -/
def constantNodes : Expr → List Expr
  | binary base op left right =>
      binary base op left right :: (left.constantNodes ++ right.constantNodes)
  | unary base op operand => unary base op operand :: operand.constantNodes
  | expr => [expr]

theorem mem_constantNodes (expr : Expr) : expr ∈ expr.constantNodes := by
  cases expr <;> simp [constantNodes]

variable {allowed : BinaryOp → Bool} {expected : ValueType}

theorem literalTarget_of_isInteger {type : ValueType} (integer : type.isInteger) :
    literalTarget type = type := by
  cases type <;> first | rfl | cases integer

theorem literalTarget_operandExpected {op : BinaryOp} (calculates : op.calculates)
    (expected : ValueType) :
    literalTarget (operandExpected op expected) = literalTarget expected ∧
      ((operandExpected op expected).isUnsigned → expected.isUnsigned) := by
  have classes : op.isLogical = false ∧ op.isRelational = false := by
    simpa [BinaryOp.calculates] using calculates
  simp only [operandExpected, classes, Bool.false_eq_true, if_false]
  cases expected <;> decide

/-- The operands of an arithmetic operator have its type. -/
theorem same_of_promote {left right result : ValueType} (integer : left.isInteger)
    (cases : right = literalTarget left ∨ left.isUnsigned ∧ right = .i64)
    (group : left.isSameGroup right) (promoted : left.promote right = result) :
    right = left ∧ result = left := by
  have same : right = left := by
    rcases cases with known | ⟨unsigned, known⟩
    · rw [known, literalTarget_of_isInteger integer]
    · rw [known] at group
      cases left <;>
        first | exact absurd unsigned (by decide) | exact absurd group (by decide)
  rw [same, ValueType.promote, if_pos le_rfl] at promoted
  exact ⟨same, promoted.symm⟩

/-- A constant expression has the type at which its literals are read, or `i64` where
a compound minus stands in an unsigned context. -/
theorem Calculation.resolved_cases (subset : ∀ op, allowed op → op.calculates) {expr : Expr}
    (calculation : expr.Calculation allowed expected) :
    expr.resolved = literalTarget expected ∨
      expected.isUnsigned ∧ expr.resolved = .i64 := by
  induction calculation with
  | literal _ target _ => exact .inl target
  | @negatedLiteral expected _ _ _ _ _ context target _ _ =>
      left
      rw [resolved, Expr.base, target]
      cases expected <;> first | rfl | cases context
  | @negate expected base operand _ _ same _ inductionHypothesis =>
      have typed : (unary base .negate operand).resolved = operand.resolved := same.symm
      rw [typed]
      rcases inductionHypothesis with known | ⟨unsigned, known⟩
      · rw [known]
        cases expected <;> first | exact .inl rfl | exact .inr ⟨rfl, rfl⟩
      · cases expected <;> cases unsigned
  | @shift expected base op left right allows _ _ _ same _ leftHypothesis _ =>
      have target := literalTarget_operandExpected (subset op allows) expected
      have typed : (binary base op left right).resolved = left.resolved := same.symm
      rw [typed, ← target.1]
      exact leftHypothesis.imp_right fun alternative =>
        ⟨target.2 alternative.1, alternative.2⟩
  | @arithmetic expected base op left right allows _ first _ group promoted _ _
      leftHypothesis rightHypothesis =>
      have target := literalTarget_operandExpected (subset op allows) expected
      have typed : (binary base op left right).resolved = left.resolved :=
        (same_of_promote first.isInteger rightHypothesis group promoted).2
      rw [typed, ← target.1]
      exact leftHypothesis.imp_right fun alternative =>
        ⟨target.2 alternative.1, alternative.2⟩

/-- Without shifts every node has the type of the whole. -/
theorem Calculation.uniform (subset : ∀ op, allowed op → op.calculates)
    (unshifted : ∀ op, allowed op → op.isShift = false) {expr : Expr}
    (calculation : expr.Calculation allowed expected) :
    ∀ node ∈ expr.constantNodes, node.resolved = expr.resolved := by
  induction calculation with
  | literal =>
      intro node inExpr
      rw [List.mem_singleton.mp inExpr]
  | negatedLiteral _ _ _ same _ =>
      intro node inExpr
      rcases List.mem_cons.mp inExpr with rfl | inOperand
      · rfl
      · rw [List.mem_singleton.mp inOperand]
        exact same
  | negate _ _ same _ inductionHypothesis =>
      intro node inExpr
      rcases List.mem_cons.mp inExpr with rfl | inOperand
      · rfl
      · rw [inductionHypothesis node inOperand]
        exact same
  | shift allows shifts =>
      exact absurd shifts (by simp [unshifted _ allows])
  | @arithmetic expected base op left right allows _ first second group promoted _ _
      leftHypothesis rightHypothesis =>
      rcases same_of_promote first.isInteger (second.resolved_cases subset) group promoted
        with ⟨rightSame, resultSame⟩
      intro node inExpr
      rcases List.mem_cons.mp inExpr with rfl | inOperands
      · rfl
      · have typed : (binary base op left right).resolved = left.resolved := resultSame
        rw [typed]
        rcases List.mem_append.mp inOperands with inLeft | inRight
        · exact leftHypothesis node inLeft
        · rw [rightHypothesis node inRight]
          exact rightSame

end Expr

/-! ## Exact values -/

/-- The value, if the type has it. -/
def ValueType.restrict (type : ValueType) (value : Int) : Option Int :=
  if type.InRange value then some value else none

theorem ValueType.restrict_eq_some {type : ValueType} {value result : Int} :
    type.restrict value = some result ↔ type.InRange value ∧ value = result := by
  simp [restrict]

/-- The result of an operator without a bound; the patterns of the bitwise operators
are those of a type. -/
def BinaryOp.exactResult (op : BinaryOp) (type : ValueType) (a b : Int) : Option Int :=
  match op with
  | .add => some (a + b)
  | .sub => some (a - b)
  | .mul => some (a * b)
  | .div => if b = 0 then none else some (a.tdiv b)
  | .bitwiseLshift => if b < 0 then none else some (a * 2 ^ b.toNat)
  | .bitwiseRshift => if b < 0 then none else some (a / 2 ^ b.toNat)
  | .bitwiseAnd => some (type.format.bitwise (fun _ x y => x &&& y) a b)
  | .bitwiseOr => some (type.format.bitwise (fun _ x y => x ||| y) a b)
  | .bitwiseXor => some (type.format.bitwise (fun _ x y => x ^^^ y) a b)
  | _ => none

namespace Expr

/-- The value of a constant tree each node of which stays within the type given for
it; a minus sign belongs to the literal after it. -/
def exactWith (typeOf : Base → ValueType) : Expr → Option Int
  | literal base _ value => do
      let magnitude ← strtoull value
      (typeOf base).restrict magnitude
  | unary base _ operand =>
      match operand with
      | literal _ _ value => do
          let magnitude ← strtoull value
          (typeOf base).restrict (-magnitude)
      | operand => do
          let value ← operand.exactWith typeOf
          (typeOf base).restrict (-value)
  | binary base op left right => do
      let a ← left.exactWith typeOf
      let b ← right.exactWith typeOf
      let result ← op.exactResult (typeOf base) a b
      (typeOf base).restrict result
  | _ => none

/-- The value of an analysed constant tree that stays within its types. -/
def exactValue (expr : Expr) : Option Int :=
  expr.exactWith Base.resolved

/-- No node has an exact value above the bound. -/
def BoundedBy (bound : Int) (expr : Expr) : Prop :=
  ∀ node ∈ expr.constantNodes, ∀ value, node.exactValue = some value → value ≤ bound

theorem BoundedBy.value {bound value : Int} {expr : Expr} (bounded : expr.BoundedBy bound)
    (exact : expr.exactValue = some value) : value ≤ bound :=
  bounded expr expr.mem_constantNodes value exact

theorem BoundedBy.operand {bound : Int} {base : Base} {op : UnaryOp} {operand : Expr}
    (bounded : (unary base op operand).BoundedBy bound) : operand.BoundedBy bound :=
  fun node inOperand => bounded node (List.mem_cons_of_mem _ inOperand)

theorem BoundedBy.left {bound : Int} {base : Base} {op : BinaryOp} {left right : Expr}
    (bounded : (binary base op left right).BoundedBy bound) : left.BoundedBy bound :=
  fun node inLeft =>
    bounded node (List.mem_cons_of_mem _ (List.mem_append_left _ inLeft))

theorem BoundedBy.right {bound : Int} {base : Base} {op : BinaryOp} {left right : Expr}
    (bounded : (binary base op left right).BoundedBy bound) : right.BoundedBy bound :=
  fun node inRight =>
    bounded node (List.mem_cons_of_mem _ (List.mem_append_right _ inRight))

section ExactWith

variable {typeOf : Base → ValueType}

theorem exactWith_literal {base : Base} {tokenType : LiteralType} {value : String}
    {result : Int} :
    (literal base tokenType value).exactWith typeOf = some result ↔
      ∃ magnitude, strtoull value = some magnitude ∧
        (typeOf base).InRange magnitude ∧ (magnitude : Int) = result := by
  simp [exactWith, Option.bind_eq_some_iff, ValueType.restrict_eq_some]

theorem exactWith_negatedLiteral {base literalBase : Base} {op : UnaryOp}
    {tokenType : LiteralType} {value : String} {result : Int} :
    (unary base op (literal literalBase tokenType value)).exactWith typeOf = some result ↔
      ∃ magnitude, strtoull value = some magnitude ∧
        (typeOf base).InRange (-magnitude) ∧ -(magnitude : Int) = result := by
  simp [exactWith, Option.bind_eq_some_iff, ValueType.restrict_eq_some]

theorem exactWith_unary {base : Base} {op : UnaryOp} {operand : Expr}
    (compound : operand.isLiteral = false) {result : Int} :
    (unary base op operand).exactWith typeOf = some result ↔
      ∃ value, operand.exactWith typeOf = some value ∧
        (typeOf base).InRange (-value) ∧ -value = result := by
  cases operand with
  | literal => cases compound
  | _ => simp [exactWith, Option.bind_eq_some_iff, ValueType.restrict_eq_some]

theorem exactWith_binary {base : Base} {op : BinaryOp} {left right : Expr}
    {result : Int} :
    (binary base op left right).exactWith typeOf = some result ↔
      ∃ a, left.exactWith typeOf = some a ∧ ∃ b, right.exactWith typeOf = some b ∧
        op.exactResult (typeOf base) a b = some result ∧
        (typeOf base).InRange result := by
  constructor
  · intro exact
    simp only [exactWith, Option.bind_eq_bind, Option.bind_eq_some_iff,
      ValueType.restrict_eq_some] at exact
    rcases exact with ⟨a, first, b, second, x, operation, range, rfl⟩
    exact ⟨a, first, b, second, operation, range⟩
  · rintro ⟨a, first, b, second, operation, range⟩
    simp only [exactWith, Option.bind_eq_bind, Option.bind_eq_some_iff,
      ValueType.restrict_eq_some]
    exact ⟨a, first, b, second, result, operation, range, rfl⟩

/-- An exact value is one of the node's type. -/
theorem inRange_of_exactWith {expr : Expr} {value : Int}
    (exact : expr.exactWith typeOf = some value) : (typeOf expr.base).InRange value := by
  cases expr with
  | literal base tokenType digits =>
      rcases exactWith_literal.mp exact with ⟨magnitude, _, range, rfl⟩
      exact range
  | unary base op operand =>
      by_cases compound : operand.isLiteral = false
      · rcases (exactWith_unary compound).mp exact with ⟨inner, _, range, rfl⟩
        exact range
      · cases operand with
        | literal literalBase tokenType digits =>
            rcases exactWith_negatedLiteral.mp exact with ⟨magnitude, _, range, rfl⟩
            exact range
        | _ => exact absurd rfl compound
  | binary base op left right =>
      rcases exactWith_binary.mp exact with ⟨a, _, b, _, _, range⟩
      exact range
  | cast => cases exact
  | identifier => cases exact
  | funcCall => cases exact

end ExactWith

theorem inRange_of_exactValue {expr : Expr} {value : Int}
    (exact : expr.exactValue = some value) : expr.resolved.InRange value :=
  inRange_of_exactWith exact

end Expr

/-! ## The signed evaluator -/

theorem ValueType.InRange.promote {left right : ValueType} {a b : Int}
    (group : left.isSameGroup right) (first : left.InRange a) (second : right.InRange b) :
    (left.promote right).InRange a ∧ (left.promote right).InRange b := by
  have signed := isSigned_eq_of_isSameGroup group
  rcases promote_eq_or left right with chosen | chosen
  · have widens := widthBits_le_promote_right left right
    rw [chosen] at widens ⊢
    exact ⟨first, Format.InRange.widen second signed.symm widens⟩
  · have widens := widthBits_le_promote_left left right
    rw [chosen] at widens ⊢
    exact ⟨Format.InRange.widen first signed widens, second⟩

/-- An integer type reaches no lower than `int64_t`. -/
theorem int64Min_le_of_inRange {type : ValueType} (integer : type.isInteger) {value : Int}
    (range : type.InRange value) : int64Min ≤ value := by
  unfold int64Min
  cases type <;>
    simp_all [ValueType.isInteger, ValueType.isSigned, ValueType.isUnsigned,
      ValueType.InRange, ValueType.format, ValueType.widthBits,
      Format.inRange_signed_iff, Format.inRange_unsigned_iff] <;> omega

/-- A bitwise operation that commutes with extension has its result at `int64_t` as
well, if that type holds it. -/
theorem int64Bitwise_eq {type : ValueType} (integer : type.isInteger)
    (op : ∀ w : Nat, BitVec w → BitVec w → BitVec w)
    (commutes : ∀ (format : Format) (width : Nat) (x y : BitVec format.width),
      format.extend width (op _ x y) = op _ (format.extend width x) (format.extend width y))
    {a b : Int} (first : type.InRange a) (second : type.InRange b)
    (bound : type.format.bitwise op a b ≤ int64Max) :
    int64Bitwise (op 64) a b = type.format.bitwise op a b := by
  have narrow : type.widthBits ≤ 64 := by cases type <;> decide
  by_cases signed : type.isSigned
  · have widened := @Format.bitwise_widen type.format ValueType.i64.format signed narrow op
      (commutes _ _) _ _ first second
    rw [← widened]
    rfl
  · have unsigned : type.isSigned = false := Bool.eq_false_iff.mpr signed
    have widened := @Format.bitwise_widen type.format ValueType.u64.format unsigned narrow op
      (commutes _ _) _ _ first second
    rw [← widened] at bound ⊢
    change ((op 64 (BitVec.ofInt 64 a) (BitVec.ofInt 64 b)).toNat : Int) ≤ 2 ^ 63 - 1 at bound
    change (op 64 (BitVec.ofInt 64 a) (BitVec.ofInt 64 b)).toInt =
      ((op 64 (BitVec.ofInt 64 a) (BitVec.ofInt 64 b)).toNat : Int)
    apply BitVec.toInt_eq_toNat_of_lt
    omega

theorem int64Checked_of_le {value : Int} (low : int64Min ≤ value) (high : value ≤ int64Max) :
    int64Checked value = some value :=
  if_pos ⟨low, high⟩

theorem toInt_ofInt_of_le {value : Int} (low : int64Min ≤ value) (high : value ≤ int64Max) :
    (BitVec.ofInt 64 value).toInt = value := by
  have range : ValueType.i64.InRange value := by
    unfold int64Min at low
    unfold int64Max at high
    change -2 ^ 64 ≤ 2 * value ∧ 2 * value < 2 ^ 64
    omega
  exact ValueType.wrap_of_inRange range

/-- Where `int64_t` holds the operands and the exact result, the signed evaluator
computes it. -/
theorem evalIntBinary_of_exactResult {op : BinaryOp} {type : ValueType}
    (integer : type.isInteger) {a b result : Int}
    (first : type.InRange a) (firstBound : a ≤ int64Max)
    (second : op.isShift = false → type.InRange b) (amount : op.isShift → b < 64)
    (range : type.InRange result) (bound : result ≤ int64Max)
    (exact : op.exactResult type a b = some result) :
    evalIntBinary op a b = some result := by
  have low := int64Min_le_of_inRange integer range
  cases op with
  | add =>
      cases exact
      exact int64Checked_of_le low bound
  | sub =>
      cases exact
      exact int64Checked_of_le low bound
  | mul =>
      cases exact
      exact int64Checked_of_le low bound
  | div =>
      simp only [BinaryOp.exactResult, Option.ite_none_left_eq_some,
        Option.some.injEq] at exact
      rcases exact with ⟨nonzero, rfl⟩
      have traps : ¬(a = int64Min ∧ b = -1) := by
        rintro ⟨rfl, rfl⟩
        exact absurd bound (by decide)
      rw [evalIntBinary, if_neg nonzero, if_neg traps]
  | bitwiseLshift =>
      simp only [BinaryOp.exactResult, Option.ite_none_left_eq_some,
        Option.some.injEq] at exact
      rcases exact with ⟨nonneg, rfl⟩
      have small := amount rfl
      rw [evalIntBinary, if_neg (by omega), toInt_ofInt_of_le low bound]
  | bitwiseRshift =>
      simp only [BinaryOp.exactResult, Option.ite_none_left_eq_some,
        Option.some.injEq] at exact
      rcases exact with ⟨nonneg, rfl⟩
      have small := amount rfl
      rw [evalIntBinary, if_neg (by omega)]
  | bitwiseAnd =>
      cases exact
      exact congrArg some
        (int64Bitwise_eq integer (fun _ x y => x &&& y) Format.extend_and first (second rfl) bound)
  | bitwiseOr =>
      cases exact
      exact congrArg some
        (int64Bitwise_eq integer (fun _ x y => x ||| y) Format.extend_or first (second rfl) bound)
  | bitwiseXor =>
      cases exact
      exact congrArg some
        (int64Bitwise_eq integer (fun _ x y => x ^^^ y) Format.extend_xor first (second rfl) bound)
  | _ => cases exact

theorem constEvalInt_literal {base : Base} {value : String} {magnitude : Nat}
    (parsed : strtoull value = some magnitude) (bound : (magnitude : Int) ≤ int64Max) :
    constEvalInt (.literal base .integer value) = some (magnitude : Int) := by
  rw [constEvalInt, literalMagnitude, parsed]
  exact if_neg (by omega)

theorem constEvalInt_negatedLiteral {base literalBase : Base} {value : String}
    {magnitude : Nat} (parsed : strtoull value = some magnitude)
    (bound : int64Min ≤ -(magnitude : Int)) :
    constEvalInt (.unary base .negate (.literal literalBase .integer value)) =
      some (-(magnitude : Int)) := by
  rw [constEvalInt, if_pos rfl, literalMagnitude, parsed]
  unfold int64Min at bound
  exact if_neg (by omega)

theorem constEvalInt_negate {base : Base} {operand : Expr}
    (compound : operand.isLiteral = false) {child : Int}
    (evaluated : constEvalInt operand = some child) (bound : -child ≤ int64Max) :
    constEvalInt (.unary base .negate operand) = some (-child) := by
  have unfolded : constEvalInt (.unary base .negate operand) =
      (constEvalInt operand).bind fun child =>
        if child = int64Min then none else some (-child) := by
    rw [constEvalInt.eq_def]
    cases operand with
    | literal => cases compound
    | _ => rfl
  have notMin : child ≠ int64Min := by
    rintro rfl
    exact absurd bound (by decide)
  rw [unfolded, evaluated]
  exact if_neg notMin

theorem constEvalInt_binary {base : Base} {op : BinaryOp} {left right : Expr} {a b : Int}
    (first : constEvalInt left = some a) (second : constEvalInt right = some b) :
    constEvalInt (.binary base op left right) = evalIntBinary op a b := by
  rw [constEvalInt, first, second]
  rfl

/-- The signed evaluator gives the exact value of an accepted constant expression no
node of which exceeds `INT64_MAX`. -/
theorem Expr.Calculation.constEvalInt_eq {allowed : BinaryOp → Bool}
    {expected : ValueType} {expr : Expr} (calculation : expr.Calculation allowed expected)
    {value : Int} (exact : expr.exactValue = some value)
    (bounded : expr.BoundedBy int64Max) : constEvalInt expr = some value := by
  induction calculation generalizing value with
  | literal =>
      have bound := bounded.value exact
      rcases Expr.exactWith_literal.mp exact with ⟨magnitude, parsed, _, rfl⟩
      exact constEvalInt_literal parsed bound
  | @negatedLiteral expected base literalBase digits _ _ context target =>
      rcases Expr.exactWith_negatedLiteral.mp exact with ⟨magnitude, parsed, range, rfl⟩
      have integer : base.resolved.isInteger := by
        rw [target, ValueType.isInteger, negatedLiteralTarget_isSigned]
        rfl
      exact constEvalInt_negatedLiteral parsed (int64Min_le_of_inRange integer range)
  | negate inner compound same signed inductionHypothesis =>
      have bound := bounded.value exact
      rcases (Expr.exactWith_unary compound).mp exact with ⟨child, operandExact, _, rfl⟩
      exact constEvalInt_negate compound
        (inductionHypothesis operandExact bounded.operand) bound
  | @shift expected base op left right allows shifts first second same checked
      leftHypothesis rightHypothesis =>
      have bound := bounded.value exact
      rcases Expr.exactWith_binary.mp exact with
        ⟨a, leftExact, b, rightExact, operation, range⟩
      have leftValue := leftHypothesis leftExact bounded.left
      have rightValue := rightHypothesis rightExact bounded.right
      have leftRange := Expr.inRange_of_exactValue leftExact
      rw [same] at leftRange
      have integer : base.resolved.isInteger := same ▸ first.isInteger
      have amount : b < 64 := by
        have below := (checked b rightValue).2
        have width : left.resolved.widthBits ≤ 64 := by
          generalize left.resolved = type
          cases type <;> decide
        omega
      rw [constEvalInt_binary leftValue rightValue]
      exact evalIntBinary_of_exactResult integer leftRange (bounded.left.value leftExact)
        (fun plain => absurd shifts (by simp [plain])) (fun _ => amount) range bound operation
  | @arithmetic expected base op left right allows plain first second group promoted
      nonzero checked leftHypothesis rightHypothesis =>
      have bound := bounded.value exact
      rcases Expr.exactWith_binary.mp exact with
        ⟨a, leftExact, b, rightExact, operation, range⟩
      have leftValue := leftHypothesis leftExact bounded.left
      have rightValue := rightHypothesis rightExact bounded.right
      have ranges := ValueType.InRange.promote group
        (Expr.inRange_of_exactValue leftExact) (Expr.inRange_of_exactValue rightExact)
      rw [promoted] at ranges
      have integer : base.resolved.isInteger := by
        rw [← promoted]
        exact ValueType.isInteger_promote first.isInteger second.isInteger
      rw [constEvalInt_binary leftValue rightValue]
      exact evalIntBinary_of_exactResult integer ranges.1 (bounded.left.value leftExact)
        (fun _ => ranges.2) (fun shifts => absurd shifts (by simp [plain])) range bound
        operation

/-! ## Shift amounts -/

section ShiftAmounts

variable {allowed : BinaryOp → Bool} {expected : ValueType}

/-- The integer types whose values are all of type `int64_t`. -/
def ValueType.fitsInt64 (type : ValueType) : Bool :=
  type.isInteger && type != .u64

theorem ValueType.InRange.le_int64Max {type : ValueType} (fits : type.fitsInt64) {value : Int}
    (range : type.InRange value) : value ≤ int64Max := by
  unfold int64Max
  cases type <;>
    simp_all [ValueType.InRange, ValueType.format, ValueType.isSigned, ValueType.widthBits,
      ValueType.fitsInt64, ValueType.isInteger, ValueType.isUnsigned,
      Format.inRange_signed_iff, Format.inRange_unsigned_iff] <;> omega

theorem operandExpected_eq_u64 {op : BinaryOp} {expected : ValueType}
    (wide : operandExpected op expected = .u64) : expected = .u64 := by
  unfold operandExpected at wide
  cases expected <;> cases op <;> first | rfl | cases wide

namespace Expr

/-- Only a context of type `u64` gives a constant expression the type `u64`. -/
theorem Calculation.fitsInt64 (subset : ∀ op, allowed op → op.calculates) {expr : Expr}
    (calculation : expr.Calculation allowed expected) (context : expected ≠ .u64) :
    expr.resolved.fitsInt64 := by
  rcases calculation.resolved_cases subset with known | ⟨_, known⟩
  · rw [known]
    cases expected <;> first | rfl | exact absurd rfl context
  · rw [known]
    rfl

theorem Calculation.fitsInt64_of_mem (subset : ∀ op, allowed op → op.calculates)
    {expr : Expr} (calculation : expr.Calculation allowed expected)
    (context : expected ≠ .u64) :
    ∀ node ∈ expr.constantNodes, node.resolved.fitsInt64 := by
  have whole := calculation.fitsInt64 subset context
  induction calculation with
  | literal =>
      intro node inExpr
      rw [List.mem_singleton.mp inExpr]
      exact whole
  | negatedLiteral _ _ _ same _ =>
      intro node inExpr
      rcases List.mem_cons.mp inExpr with rfl | inOperand
      · exact whole
      · rw [List.mem_singleton.mp inOperand, resolved, Expr.base, same]
        exact whole
  | @negate expected _ _ inner _ same _ inductionHypothesis =>
      have operand : (if expected.isSigned then expected else .i64) ≠ ValueType.u64 := by
        split
        · exact context
        · decide
      intro node inExpr
      rcases List.mem_cons.mp inExpr with rfl | inOperand
      · exact whole
      · exact inductionHypothesis operand (inner.fitsInt64 subset operand) node inOperand
  | @shift expected _ op _ _ _ _ first second _ _ leftHypothesis rightHypothesis =>
      have operands : operandExpected op expected ≠ .u64 :=
        fun wide => context (operandExpected_eq_u64 wide)
      intro node inExpr
      rcases List.mem_cons.mp inExpr with rfl | inOperands
      · exact whole
      · rcases List.mem_append.mp inOperands with inLeft | inRight
        · exact leftHypothesis operands (first.fitsInt64 subset operands) node inLeft
        · exact rightHypothesis operands (second.fitsInt64 subset operands) node inRight
  | @arithmetic expected _ op left _ _ _ first second _ _ _ _ leftHypothesis
      rightHypothesis =>
      have operands : operandExpected op expected ≠ .u64 :=
        fun wide => context (operandExpected_eq_u64 wide)
      have leftFits := first.fitsInt64 subset operands
      have sibling : left.resolved ≠ .u64 := by
        intro wide
        rw [wide] at leftFits
        cases leftFits
      intro node inExpr
      rcases List.mem_cons.mp inExpr with rfl | inOperands
      · exact whole
      · rcases List.mem_append.mp inOperands with inLeft | inRight
        · exact leftHypothesis operands leftFits node inLeft
        · exact rightHypothesis sibling (second.fitsInt64 subset sibling) node inRight

end Expr

/-- Only in a context of type `u64` does a part exceed `INT64_MAX`. -/
theorem Expr.Calculation.boundedBy_int64Max (subset : ∀ op, allowed op → op.calculates)
    {expr : Expr} (calculation : expr.Calculation allowed expected)
    (context : expected ≠ .u64) : expr.BoundedBy int64Max :=
  fun node inExpr _ exact =>
    ValueType.InRange.le_int64Max (calculation.fitsInt64_of_mem subset context node inExpr)
      (Expr.inRange_of_exactValue exact)

end ShiftAmounts

/-- The amount of an accepted shift, a constant expression within its type, lies below
the width of the left operand.  In a context of type `u64` this is promised only while
no part of the amount exceeds `INT64_MAX`, where the signed evaluator gives up. -/
theorem shiftAmount_inRange {s : Semantic} {base header : Base} {op : BinaryOp}
    (shifts : op.isShift) {left right leftNode rightNode : Expr} (constant : right.IsConstant)
    {expected : ValueType}
    (accepted : (analyzeExpr s (.binary base op left right) expected).ok)
    (node : (analyzeExpr s (.binary base op left right) expected).node =
      .binary header op leftNode rightNode)
    {amount : Int} (exact : rightNode.exactValue = some amount)
    (bounded : expected = .u64 → rightNode.BoundedBy int64Max) :
    0 ≤ amount ∧ amount < leftNode.resolved.widthBits := by
  have relational : op.isRelational = false := by
    cases op <;> first | rfl | cases shifts
  have logical : op.isLogical = false := by
    cases op <;> first | rfl | cases shifts
  have subset : ∀ op, BinaryOp.calculates op → BinaryOp.calculates op :=
    fun _ calculates => calculates
  rw [analyzeExpr] at accepted node
  rcases analyzeBinary_accepted relational accepted with ⟨_, secondOk, operationOk, shape⟩
  rw [shape] at node
  rw [secondExpected, if_pos shifts] at *
  have calculation := analyzeExpr_calculation s subset constant secondOk
  unfold analyzeOperation at operationOk node
  rw [if_neg (by simp [logical]), if_pos shifts] at operationOk node
  rcases analyzeShift_accepted operationOk with ⟨shifted, checked⟩
  rw [shifted] at node
  cases node
  have small : (analyzeExpr s right (operandExpected op expected)).node.BoundedBy
      int64Max := by
    by_cases context : operandExpected op expected = .u64
    · exact bounded (operandExpected_eq_u64 context)
    · exact calculation.boundedBy_int64Max subset context
  exact checked amount (calculation.constEvalInt_eq exact small)

/-- The state before any declaration. -/
def freshState : Semantic :=
  { filename := "main.su" }

theorem wellFormed_freshState : freshState.WellFormed :=
  ⟨by simp [Scope.WellFormed, freshState], by simp [FuncSymbolTable.Known, freshState]⟩

/-- The literal of a decimal number. -/
def numeral (digits : String) : Expr :=
  .literal {} .integer digits

/-- The expression `1 << 3` at type `u64`. -/
theorem shiftAmount_inRange_three : (0 : Int) ≤ 3 ∧ (3 : Int) < ValueType.u64.widthBits :=
  have constant : (numeral "3").IsConstant := rfl
  have exact : (Expr.literal { resolved := .u64 } .integer "3").exactValue = some 3 := by
    decide
  have bounded :
      (Expr.literal { resolved := .u64 } .integer "3").BoundedBy int64Max := by
    intro node inAmount value found
    rw [List.mem_singleton.mp inAmount, exact] at found
    cases found
    decide
  have node : (analyzeExpr freshState
      (.binary {} .bitwiseLshift (numeral "1") (numeral "3")) .u64).node =
      .binary { resolved := .u64 } .bitwiseLshift
        (.literal { resolved := .u64 } .integer "1")
        (.literal { resolved := .u64 } .integer "3") := rfl
  shiftAmount_inRange (by decide) constant (by decide) node exact (fun _ => bounded)

/-- The expression `1 << 9223372036854775808` is accepted at type `u64`. -/
theorem shiftAmount_unchecked :
    (compileFrontend "fn main() i32 { u64 x = 1 << 9223372036854775808; return 0; }"
        "main.su" {}).isSome ∧
      (analyzeExpr freshState (.binary {} .bitwiseLshift (numeral "1")
        (numeral "9223372036854775808")) .u64).ok ∧
      (analyzeExpr freshState (numeral "9223372036854775808") .u64).node.exactValue =
        some 9223372036854775808 ∧
      ¬(9223372036854775808 : Int) <
        (analyzeExpr freshState (numeral "1") .u64).node.resolved.widthBits :=
  ⟨by decide, by decide, by decide, by decide⟩

end Sulfur
