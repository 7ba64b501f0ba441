import Sulfur.Semantic.Expression

/-!
# Typing of analysed expressions

What the analysis of an expression guarantees.  An analysis either succeeds
without an error in its log and leaves a tree whose annotations obey the typing
rules below, or it fails and has logged an error: no failure is silent.
-/

namespace Sulfur

/-- Every variable of a scope has a scalar type and a number that the counter
has passed. -/
def Scope.WellFormed (scope : Scope) : Prop :=
  ∀ table ∈ scope.stack, ∀ symbol ∈ table,
    symbol.type.IsScalar ∧ symbol.id < scope.nextId

/-- The types of every declared function are type keywords. -/
def FuncSymbolTable.Known (table : FuncSymbolTable) : Prop :=
  ∀ func ∈ table.functions, func.returnType ≠ .unresolved ∧
    ∀ param ∈ func.parameters, param.type ≠ .unresolved

/-- The tables that the analyser builds from parsed programs. -/
structure Semantic.WellFormed (s : Semantic) : Prop where
  scope : s.scope.WellFormed
  funcs : s.funcs.Known

/-- How an operator types its node from its operands. -/
def BinaryOp.Typed (op : BinaryOp) (result left right : ValueType) : Prop :=
  if op.isLogical then
    result = .bool ∧ left = .bool ∧ right = .bool
  else if op.isShift then
    result = left
  else if op.isRelational then
    result = .bool ∧ left = right ∧ left.IsScalar
  else
    left.isSameGroup right ∧ left.isInteger ∧ result = left.promote right

/-- The types that a unary operator takes and gives. -/
def UnaryOp.Typed (op : UnaryOp) (result operand : ValueType) : Prop :=
  match op with
  | .negate => operand.isSigned ∧ result = operand
  | .logicalNot => operand = .bool ∧ result = .bool
  | _ => operand.isInteger ∧ result = operand

/-- A literal node holds a value that fits its type, under a minus sign if not
by itself. -/
def LiteralType.Typed (tokenType : LiteralType) (resolved : ValueType)
    (value : String) : Prop :=
  match tokenType with
  | .integer =>
      ∃ magnitude, strtoull value = some magnitude ∧ resolved.isInteger ∧
        (resolved.uintLiteralFits magnitude ∨
          resolved.signedLiteralFitsNegated magnitude)
  | _ => resolved = .bool

namespace Expr

mutual

/-- The trees that the parser builds: a cast names a type keyword. -/
def Grammatical : Expr → Prop
  | binary _ _ left right => left.Grammatical ∧ right.Grammatical
  | unary _ _ operand => operand.Grammatical
  | cast _ targetType operand => targetType ≠ .unresolved ∧ operand.Grammatical
  | literal .. => True
  | identifier .. => True
  | funcCall _ _ _ arguments => GrammaticalArguments arguments

/-- The same for the arguments of a call. -/
def GrammaticalArguments : List Expr → Prop
  | [] => True
  | argument :: rest => argument.Grammatical ∧ GrammaticalArguments rest

end

theorem grammaticalArguments_iff (arguments : List Expr) :
    GrammaticalArguments arguments ↔
      ∀ argument ∈ arguments, argument.Grammatical := by
  induction arguments with
  | nil => simp [GrammaticalArguments]
  | cons argument rest inductionHypothesis =>
      simp [GrammaticalArguments, inductionHypothesis]

mutual

/-- The annotations of an analysed tree obey the typing rules, and its names
resolve in the tables. -/
def Typed (s : Semantic) : Expr → Prop
  | binary base op left right =>
      left.Typed s ∧ right.Typed s ∧
        op.Typed base.resolved left.resolved right.resolved
  | unary base op operand =>
      operand.Typed s ∧ op.Typed base.resolved operand.resolved ∧
        (op.isIncrementOrDecrement → resolvesMutable operand)
  | cast base targetType operand =>
      operand.Typed s ∧ base.resolved = targetType ∧
        operand.resolved.isCastable targetType
  | literal base tokenType value => tokenType.Typed base.resolved value
  | identifier base name depth id symbol =>
      ∃ found, s.scope.lookup name = some found ∧ found.initialized ∧
        base.resolved = found.type ∧ depth = found.depth ∧ id = found.id ∧
        symbol = some found
  | funcCall base callee linkName arguments =>
      ∃ func, s.funcs.lookup callee.name = some func ∧
        base.resolved = func.returnType ∧ linkName = some func.linkName ∧
        ArgumentsTyped s func.parameters arguments

/-- Every argument has the type of its parameter. -/
def ArgumentsTyped (s : Semantic) (params : List Parameter) : List Expr → Prop
  | [] => params = []
  | argument :: rest =>
      argument.Typed s ∧
        (∃ param, params.head? = some param ∧ argument.resolved = param.type) ∧
        ArgumentsTyped s params.tail rest

end

theorem ArgumentsTyped.typed {s : Semantic} {params : List Parameter}
    {arguments : List Expr} (typed : ArgumentsTyped s params arguments) :
    ∀ argument ∈ arguments, argument.Typed s := by
  induction arguments generalizing params with
  | nil => simp
  | cons argument rest inductionHypothesis =>
      intro other inArguments
      rcases List.mem_cons.mp inArguments with rfl | inRest
      · exact typed.1
      · exact inductionHypothesis typed.2.2 other inRest

end Expr

/-- An analysis succeeds without an error and with a typed tree, or it fails
with an error. -/
structure ExprAnalysis.Sound (s : Semantic) (analysis : ExprAnalysis) : Prop where
  log : Log.hadErrors analysis.log = !analysis.ok
  typed : analysis.ok → analysis.node.Typed s
  resolved : analysis.ok → analysis.node.resolved ≠ .unresolved

/-- The same for two operands. -/
structure OperandsAnalysis.Sound (s : Semantic) (analysis : OperandsAnalysis) :
    Prop where
  log : Log.hadErrors analysis.log = !analysis.ok
  left : analysis.ok →
    analysis.left.Typed s ∧ analysis.left.resolved ≠ .unresolved
  right : analysis.ok →
    analysis.right.Typed s ∧ analysis.right.resolved ≠ .unresolved

/-- Scope lookups find entries of the tables. -/
theorem Scope.mem_of_lookup_eq_some {scope : Scope} {name : String}
    {symbol : VarSymbol} (found : scope.lookup name = some symbol) :
    ∃ table ∈ scope.stack, symbol ∈ table ∧ symbol.name = name := by
  obtain ⟨table, inStack, inTable⟩ := List.exists_of_findSome?_eq_some found
  refine ⟨table, inStack, List.mem_of_find?_eq_some inTable, ?_⟩
  simpa using List.find?_some inTable

theorem FuncSymbolTable.mem_of_lookup_eq_some {table : FuncSymbolTable}
    {name : String} {func : FuncSymbol} (found : table.lookup name = some func) :
    func ∈ table.functions ∧ func.name = name :=
  ⟨List.mem_of_find?_eq_some found, by simpa using List.find?_some found⟩

theorem ValueType.ne_unresolved_of_isInteger {type : ValueType}
    (integer : type.isInteger) : type ≠ .unresolved :=
  IsScalar.ne_unresolved (Or.inl integer)

/-- A conversion check that succeeds on a resolved type logs nothing and admits
widening inside a group only. -/
theorem checkConversion_cases {resolved : ValueType} (target : ValueType)
    (narrows : Bool)
    {mismatch narrowing : Diagnostic} (mismatchError : mismatch.isError)
    (narrowingError : narrowing.isError) (known : resolved ≠ .unresolved) :
    let check := checkConversion resolved target narrows mismatch narrowing
    Log.hadErrors check.log = !check.ok ∧
      (check.ok → resolved.isSameGroup target ∧ narrows = false) := by
  unfold checkConversion
  rw [if_neg known]
  split
  · simp [mismatchError]
  · rename_i group
    split
    · simp [narrowingError]
    · rename_i widens
      simp_all

theorem checkArgumentType_cases (s : Semantic) {resolved : ValueType}
    (paramType : ValueType) (funcName : String) (index : Nat) (span : Span)
    (known : resolved ≠ .unresolved) :
    let check := checkArgumentType s resolved paramType funcName index span
    Log.hadErrors check.log = !check.ok ∧
      (check.ok → resolved.isSameGroup paramType ∧
        resolved.widthBits ≤ paramType.widthBits) := by
  have cases := checkConversion_cases paramType
    (resolved.widthBytes > paramType.widthBytes)
    (s.isError_error "type mismatch"
      "argument %zu of '%s' expects '%s', but this expression has type '%s'"
      (some "make sure the argument matches the parameter type, or cast it")
      .semanticTypeMismatch span
      [toString (index + 1), funcName, paramType.name, resolved.name])
    (s.isError_error "narrowing conversion"
      "cannot implicitly narrow '%s' to '%s' in argument %zu of '%s'"
      (some "cast the argument explicitly, or change the parameter type")
      .semanticInvalidImplicitCast span
      [resolved.name, paramType.name, toString (index + 1), funcName]) known
  refine ⟨cases.1, fun ok => ⟨(cases.2 ok).1, ?_⟩⟩
  have widens := (cases.2 ok).2
  rw [resolved.widthBits_eq_widthBytes, paramType.widthBits_eq_widthBytes]
  simp only [gt_iff_lt, decide_eq_false_iff_not, not_lt] at widens
  omega

theorem negatedLiteralTarget_isSigned (expected : ValueType) :
    (negatedLiteralTarget expected).isSigned := by
  cases expected <;> rfl

theorem negatedLiteralFits_iff {value : String} {target : ValueType} :
    negatedLiteralFits value target ↔
      ∃ magnitude, strtoull value = some magnitude ∧
        target.signedLiteralFitsNegated magnitude := by
  unfold negatedLiteralFits
  cases strtoull value <;> simp

theorem literalTarget_isInteger (expected : ValueType) :
    (literalTarget expected).isInteger := by
  cases expected <;> rfl

section Operators

variable {s : Semantic}

theorem analyzeBinaryOperands_sound (op : BinaryOp) (left right : Expr)
    {analyzeLeft analyzeRight : ValueType → ExprAnalysis}
    (soundLeft : ∀ type, (analyzeLeft type).Sound s)
    (soundRight : ∀ type, (analyzeRight type).Sound s) (expected : ValueType) :
    (analyzeBinaryOperands op left right analyzeLeft analyzeRight expected).Sound
      s := by
  unfold analyzeBinaryOperands
  dsimp only
  split
  · have first := soundRight expected
    split
    · rename_i ok
      have second := soundLeft (siblingExpected (analyzeRight expected).node expected)
      refine ⟨?_, fun leftOk => ⟨second.typed leftOk, second.resolved leftOk⟩,
        fun _ => ⟨first.typed ok, first.resolved ok⟩⟩
      simp [first.log, second.log, ok]
    · rename_i failed
      exact ⟨by simp [first.log, failed], by simp, by simp⟩
  · have first := soundLeft expected
    split
    · rename_i ok
      have second := soundRight
        (if op.isShift then expected
          else siblingExpected (analyzeLeft expected).node expected)
      refine ⟨?_, fun _ => ⟨first.typed ok, first.resolved ok⟩,
        fun rightOk => ⟨second.typed rightOk, second.resolved rightOk⟩⟩
      simp [first.log, second.log, ok]
    · rename_i failed
      exact ⟨by simp [first.log, failed], by simp, by simp⟩

theorem analyzeLogical_sound {base : Base} {op : BinaryOp} {left right : Expr}
    (logical : op.isLogical) (typedLeft : left.Typed s)
    (typedRight : right.Typed s) :
    (analyzeLogical s base op left right).Sound s := by
  unfold analyzeLogical
  split
  · exact ⟨by simp, by simp, by simp⟩
  · rename_i types
    push Not at types
    refine ⟨by simp, fun _ => ⟨typedLeft, typedRight, ?_⟩, fun _ => ?_⟩
    · simp [BinaryOp.Typed, logical, types]
    · simp [Expr.resolved, Expr.base]

theorem analyzeShift_sound {base : Base} {op : BinaryOp} {left right : Expr}
    (logical : op.isLogical = false) (shift : op.isShift)
    (typedLeft : left.Typed s) (typedRight : right.Typed s)
    (knownLeft : left.resolved ≠ .unresolved) :
    (analyzeShift s base op left right).Sound s := by
  have typed : (Expr.binary { base with resolved := left.resolved } op left
      right).Typed s := by
    refine ⟨typedLeft, typedRight, ?_⟩
    simp [BinaryOp.Typed, logical, shift]
  unfold analyzeShift
  dsimp only
  split
  · exact ⟨by simp, fun _ => typed, fun _ => knownLeft⟩
  · split
    · exact ⟨by simp, by simp, by simp⟩
    · exact ⟨by simp, fun _ => typed, fun _ => knownLeft⟩

theorem analyzeRelational_sound {base : Base} {op : BinaryOp} {left right : Expr}
    (logical : op.isLogical = false) (shift : op.isShift = false)
    (relational : op.isRelational) (typedLeft : left.Typed s)
    (typedRight : right.Typed s) :
    (analyzeRelational s base op left right).Sound s := by
  unfold analyzeRelational
  dsimp only
  split
  · exact ⟨by simp, by simp, by simp⟩
  · rename_i group
    simp only [Bool.not_eq_true, Bool.not_eq_false'] at group
    split
    · exact ⟨by simp, by simp, by simp⟩
    · rename_i width
      push Not at width
      have same := ValueType.eq_of_isSameGroup_of_widthBits_eq group width
      have scalar := ValueType.isScalar_of_isSameGroup group
      refine ⟨by simp, fun _ => ⟨typedLeft, typedRight, ?_⟩, fun _ => ?_⟩
      · simp [BinaryOp.Typed, logical, shift, relational, ← same, scalar]
      · simp [Expr.resolved, Expr.base]

theorem analyzeArithmetic_sound {base : Base} {op : BinaryOp} {left right : Expr}
    (logical : op.isLogical = false) (shift : op.isShift = false)
    (relational : op.isRelational = false) (typedLeft : left.Typed s)
    (typedRight : right.Typed s) :
    (analyzeArithmetic s base op left right).Sound s := by
  unfold analyzeArithmetic
  dsimp only
  split
  · exact ⟨by simp, by simp, by simp⟩
  · rename_i group
    split
    · exact ⟨by simp, by simp, by simp⟩
    · rename_i integer
      simp only [Bool.not_eq_true, Bool.not_eq_false'] at group integer
      split
      · exact ⟨by simp, by simp, by simp⟩
      · have check := constCheckOverflow_sound
          (.binary { base with
            resolved := left.resolved.promote right.resolved } op left right)
          (left.resolved.promote right.resolved) s.filename
        unfold Check.Sound at check
        refine ⟨?_, fun _ => ⟨typedLeft, typedRight, ?_⟩, fun _ => ?_⟩
        · split at check <;> simp_all
        · simp [BinaryOp.Typed, logical, shift, relational, group, integer]
        · have rightInteger : right.resolved.isInteger := by
            rw [← ValueType.isInteger_eq_of_isSameGroup group]
            exact integer
          exact ValueType.ne_unresolved_of_isInteger
            (ValueType.isInteger_promote integer rightInteger)

/-- The class of an operator decides its branch of `analyze_binary`, and each
branch applies its typing rule. -/
theorem analyzeOperation_sound (base : Base) (op : BinaryOp) {left right : Expr}
    (typedLeft : left.Typed s) (typedRight : right.Typed s)
    (knownLeft : left.resolved ≠ .unresolved) :
    (analyzeOperation s base op left right).Sound s := by
  unfold analyzeOperation
  split
  · rename_i logical
    exact analyzeLogical_sound logical typedLeft typedRight
  · rename_i logical
    simp only [Bool.not_eq_true] at logical
    split
    · rename_i shift
      exact analyzeShift_sound logical shift typedLeft typedRight knownLeft
    · rename_i shift
      simp only [Bool.not_eq_true] at shift
      split
      · rename_i relational
        exact analyzeRelational_sound logical shift relational typedLeft typedRight
      · rename_i relational
        simp only [Bool.not_eq_true] at relational
        exact analyzeArithmetic_sound logical shift relational typedLeft typedRight

theorem analyzeBinary_sound {base : Base} {op : BinaryOp} {left right : Expr}
    {analyzeLeft analyzeRight : ValueType → ExprAnalysis}
    (soundLeft : ∀ type, (analyzeLeft type).Sound s)
    (soundRight : ∀ type, (analyzeRight type).Sound s) (expected : ValueType) :
    (analyzeBinary s base op left right analyzeLeft analyzeRight expected).Sound
      s := by
  have operands := analyzeBinaryOperands_sound op left right soundLeft soundRight
    (operandExpected op expected)
  unfold analyzeBinary
  generalize analyzeBinaryOperands op left right analyzeLeft analyzeRight
    (operandExpected op expected) = analysis at operands
  dsimp only
  split
  · rename_i failed
    exact ⟨by simp_all [operands.log], by simp, by simp⟩
  · rename_i ok
    simp only [Bool.not_eq_true, Bool.not_eq_false'] at ok
    obtain ⟨typedLeft, knownLeft⟩ := operands.left ok
    obtain ⟨typedRight, knownRight⟩ := operands.right ok
    rw [if_neg (by simp [knownLeft, knownRight])]
    have operation := analyzeOperation_sound base op typedLeft
      typedRight knownLeft
    exact ⟨by simp [ExprAnalysis.after, operands.log, ok, operation.log],
      operation.typed, operation.resolved⟩

theorem analyzeNegatedLiteral_sound (base literalBase : Base) (value : String)
    (expected : ValueType) :
    (analyzeNegatedLiteral s base literalBase value expected).Sound s := by
  unfold analyzeNegatedLiteral
  dsimp only
  split
  · exact ⟨by simp, by simp, by simp⟩
  · split
    · exact ⟨by simp, by simp, by simp⟩
    · rename_i fits
      simp only [Bool.not_eq_true, Bool.not_eq_false'] at fits
      have signed := negatedLiteralTarget_isSigned expected
      have integer : (negatedLiteralTarget expected).isInteger := by
        simp [ValueType.isInteger, signed]
      obtain ⟨magnitude, parsed, fits⟩ := negatedLiteralFits_iff.mp fits
      refine ⟨by simp, fun _ => ⟨?_, ⟨signed, rfl⟩, by simp
        [UnaryOp.isIncrementOrDecrement]⟩, fun _ => ?_⟩
      · exact ⟨magnitude, parsed, integer, .inr fits⟩
      · exact ValueType.ne_unresolved_of_isInteger integer

theorem analyzeNegate_sound {base : Base} {analyzeOperand : ValueType → ExprAnalysis}
    (soundOperand : ∀ type, (analyzeOperand type).Sound s)
    (expected : ValueType) :
    (analyzeNegate s base analyzeOperand expected).Sound s := by
  unfold analyzeNegate
  dsimp only
  have operand := soundOperand (if expected.isSigned then expected else .i64)
  generalize analyzeOperand (if expected.isSigned then expected else .i64) =
    analysis at operand
  split
  · rename_i failed
    exact ⟨by simp_all [operand.log], by simp, by simp⟩
  · rename_i ok
    simp only [Bool.not_eq_true, Bool.not_eq_false'] at ok
    rw [if_neg (operand.resolved ok)]
    split
    · exact ⟨by simp, by simp, by simp⟩
    · rename_i signed
      simp only [Bool.not_eq_true, Bool.not_eq_false'] at signed
      exact ⟨by simp [operand.log, ok],
        fun _ => ⟨operand.typed ok, ⟨signed, rfl⟩, by simp
          [UnaryOp.isIncrementOrDecrement]⟩,
        fun _ => operand.resolved ok⟩

theorem analyzeBitwiseNot_sound {base : Base}
    {analyzeOperand : ValueType → ExprAnalysis}
    (soundOperand : ∀ type, (analyzeOperand type).Sound s)
    (expected : ValueType) :
    (analyzeBitwiseNot s base analyzeOperand expected).Sound s := by
  unfold analyzeBitwiseNot
  dsimp only
  have operand := soundOperand expected
  generalize analyzeOperand expected = analysis at operand
  split
  · rename_i failed
    exact ⟨by simp_all [operand.log], by simp, by simp⟩
  · rename_i ok
    simp only [Bool.not_eq_true, Bool.not_eq_false'] at ok
    split
    · exact ⟨by simp, by simp, by simp⟩
    · rename_i integer
      simp only [Bool.not_eq_true, Bool.not_eq_false'] at integer
      exact ⟨by simp [operand.log, ok],
        fun _ => ⟨operand.typed ok, ⟨integer, rfl⟩, by simp
          [UnaryOp.isIncrementOrDecrement]⟩,
        fun _ => operand.resolved ok⟩

theorem analyzeLogicalNot_sound {base : Base}
    {analyzeOperand : ValueType → ExprAnalysis}
    (soundOperand : ∀ type, (analyzeOperand type).Sound s) :
    (analyzeLogicalNot s base analyzeOperand).Sound s := by
  unfold analyzeLogicalNot
  dsimp only
  have operand := soundOperand .bool
  generalize analyzeOperand .bool = analysis at operand
  split
  · rename_i failed
    exact ⟨by simp_all [operand.log], by simp, by simp⟩
  · rename_i ok
    simp only [Bool.not_eq_true, Bool.not_eq_false'] at ok
    split
    · exact ⟨by simp, by simp, by simp⟩
    · rename_i type
      push Not at type
      exact ⟨by simp [operand.log, ok],
        fun _ => ⟨operand.typed ok, ⟨type, rfl⟩, by simp
          [UnaryOp.isIncrementOrDecrement]⟩,
        fun _ => by simp [Expr.resolved, Expr.base]⟩

theorem analyzeIncrement_sound {base : Base} {op : UnaryOp} {operand : Expr}
    {analyzeOperand : ValueType → ExprAnalysis}
    (increment : op.isIncrementOrDecrement)
    (soundOperand : ∀ type, (analyzeOperand type).Sound s)
    (expected : ValueType) :
    (analyzeIncrement s base op operand analyzeOperand expected).Sound s := by
  unfold analyzeIncrement
  dsimp only
  have sound := soundOperand expected
  generalize analyzeOperand expected = analysis at sound
  split
  · exact ⟨by simp, by simp, by simp⟩
  · split
    · rename_i failed
      exact ⟨by simp_all [sound.log], by simp, by simp⟩
    · rename_i ok
      simp only [Bool.not_eq_true, Bool.not_eq_false'] at ok
      split
      · exact ⟨by simp, by simp, by simp⟩
      · rename_i integer
        split
        · exact ⟨by simp, by simp, by simp⟩
        · rename_i mutable
          simp only [Bool.not_eq_true, Bool.not_eq_false'] at integer mutable
          have typed : op.Typed analysis.node.resolved analysis.node.resolved := by
            cases op <;> simp_all [UnaryOp.Typed, UnaryOp.isIncrementOrDecrement]
          exact ⟨by simp [sound.log, ok],
            fun _ => ⟨sound.typed ok, typed, fun _ => mutable⟩,
            fun _ => sound.resolved ok⟩

theorem analyzeUnary_sound {base : Base} {op : UnaryOp} {operand : Expr}
    {analyzeOperand : ValueType → ExprAnalysis}
    (soundOperand : ∀ type, (analyzeOperand type).Sound s)
    (expected : ValueType) :
    (analyzeUnary s base op operand analyzeOperand expected).Sound s := by
  unfold analyzeUnary
  cases op with
  | negate =>
      dsimp only
      split
      · exact analyzeNegatedLiteral_sound _ _ _ _
      · exact analyzeNegate_sound soundOperand expected
  | bitwiseNot => exact analyzeBitwiseNot_sound soundOperand expected
  | logicalNot => exact analyzeLogicalNot_sound soundOperand
  | prefixIncrement => exact analyzeIncrement_sound rfl soundOperand expected
  | postfixIncrement => exact analyzeIncrement_sound rfl soundOperand expected
  | prefixDecrement => exact analyzeIncrement_sound rfl soundOperand expected
  | postfixDecrement => exact analyzeIncrement_sound rfl soundOperand expected

theorem analyzeCast_sound {base : Base} {targetType : ValueType}
    {operand : ExprAnalysis} (target : targetType ≠ .unresolved)
    (sound : operand.Sound s) :
    (analyzeCast s base targetType operand).Sound s := by
  unfold analyzeCast
  dsimp only
  split
  · rename_i failed
    exact ⟨by simp_all [sound.log], by simp, by simp⟩
  · rename_i ok
    simp only [Bool.not_eq_true, Bool.not_eq_false'] at ok
    rw [if_neg (sound.resolved ok)]
    split
    · exact ⟨by simp, by simp, by simp⟩
    · rename_i castable
      simp only [Bool.not_eq_true, Bool.not_eq_false'] at castable
      refine ⟨?_, fun _ => ⟨sound.typed ok, rfl, castable⟩, fun _ => target⟩
      split <;> simp [sound.log, ok]

theorem analyzeLiteral_sound (base : Base) (tokenType : LiteralType)
    (value : String) (expected : ValueType) :
    (analyzeLiteral s base tokenType value expected).Sound s := by
  unfold analyzeLiteral
  have integer := literalTarget_isInteger expected
  cases tokenType with
  | kwTrue => exact ⟨rfl, fun _ => rfl, fun _ => by simp [Expr.resolved, Expr.base]⟩
  | kwFalse => exact ⟨rfl, fun _ => rfl, fun _ => by simp [Expr.resolved, Expr.base]⟩
  | integer =>
      dsimp only
      cases parsed : strtoull value with
      | none => exact ⟨by simp, by simp, by simp⟩
      | some raw =>
          dsimp only
          split
          · exact ⟨by simp, by simp, by simp⟩
          · rename_i fits
            simp only [Bool.not_eq_true, Bool.not_eq_false'] at fits
            exact ⟨rfl, fun _ => ⟨raw, parsed, integer, .inl fits⟩,
              fun _ => ValueType.ne_unresolved_of_isInteger integer⟩

theorem analyzeIdentifier_sound (wellFormed : s.WellFormed) (base : Base)
    (name : String) (depth id : Nat) (symbol : Option VarSymbol) :
    (analyzeIdentifier s base name depth id symbol).Sound s := by
  unfold analyzeIdentifier
  cases found : s.scope.lookup name with
  | none => exact ⟨by simp, by simp, by simp⟩
  | some sym =>
      obtain ⟨table, inStack, inTable, _⟩ := Scope.mem_of_lookup_eq_some found
      dsimp only
      split
      · exact ⟨by simp, by simp, by simp⟩
      · rename_i initialized
        simp only [Bool.not_eq_true, Bool.not_eq_false'] at initialized
        exact ⟨rfl, fun _ => ⟨sym, found, initialized, rfl, rfl, rfl, rfl⟩,
          fun _ => (wellFormed.scope table inStack sym inTable).1.ne_unresolved⟩

/-- An argument that is analysed against a parameter ends up with the
parameter's type. -/
theorem analyzeArgument_sound (funcName : String) (index : Nat)
    (param : Option Parameter) {argument : ExprAnalysis}
    (params : ∀ found ∈ param, found.type ≠ .unresolved)
    (sound : argument.Sound s) :
    let analysis := analyzeArgument s funcName index param argument
    analysis.Sound s ∧ (analysis.ok → ∀ found ∈ param,
      analysis.node.resolved = found.type) := by
  unfold analyzeArgument
  cases param with
  | none => exact ⟨sound, by simp⟩
  | some param =>
      dsimp only
      split
      · rename_i failed
        simp only [Bool.not_eq_true'] at failed
        exact ⟨sound, by simp [failed]⟩
      · rename_i ok
        simp only [Bool.not_eq_true, Bool.not_eq_false'] at ok
        have known := sound.resolved ok
        obtain ⟨checkLog, checkOk⟩ := checkArgumentType_cases s param.type
          funcName index argument.node.span known
        split
        · rename_i failed
          simp only [Bool.not_eq_true'] at failed
          exact ⟨⟨by simp [checkLog, failed], by simp, by simp⟩, by simp⟩
        · rename_i checked
          simp only [Bool.not_eq_true, Bool.not_eq_false'] at checked
          have log : Log.hadErrors (argument.log ++ (checkArgumentType s
              argument.node.resolved param.type funcName index
              argument.node.span).log) = !true := by
            simp [sound.log, ok, checkLog, checked]
          split
          · refine ⟨⟨log, fun _ => ⟨sound.typed ok, rfl, ?_⟩,
              fun _ => params param rfl⟩, by simp [Expr.resolved, Expr.base]⟩
            exact ValueType.isCastable_of_isSameGroup (checkOk checked).1
          · rename_i same
            push Not at same
            exact ⟨⟨log, fun _ => sound.typed ok, fun _ => known⟩,
              by simpa using same known⟩

theorem analyzeArguments_sound {arguments : List Expr}
    (sound : ∀ argument ∈ arguments, ∀ type, (analyzeExpr s argument type).Sound s)
    (funcName : String) (index : Nat) (params : List Parameter)
    (known : ∀ param ∈ params, param.type ≠ .unresolved) :
    let analysis := analyzeArguments s funcName index params arguments
    Log.hadErrors analysis.log = !analysis.ok ∧
      (analysis.ok → arguments.length = params.length →
        Expr.ArgumentsTyped s params analysis.nodes) := by
  induction arguments generalizing index params with
  | nil =>
      refine ⟨rfl, fun _ length => ?_⟩
      exact List.eq_nil_of_length_eq_zero length.symm
  | cons argument rest inductionHypothesis =>
      have first := analyzeArgument_sound funcName index params.head?
        (fun found inParams => known found (List.mem_of_mem_head? inParams))
        (sound argument (by simp)
          ((params.head?.map Parameter.type).getD .unresolved))
      have others := inductionHypothesis
        (fun argument inRest => sound argument (by simp [inRest])) (index + 1)
        params.tail (fun param inTail => known param (List.mem_of_mem_tail inTail))
      simp only [analyzeArguments]
      refine ⟨by simp [first.1.log, others.1], fun ok length => ?_⟩
      simp only [Bool.and_eq_true] at ok
      cases params with
      | nil => simp at length
      | cons param params =>
          refine ⟨first.1.typed ok.1, ⟨param, rfl, first.2 ok.1 param rfl⟩, ?_⟩
          exact others.2 ok.2 (by simpa using length)

end Operators

/-- No expression fails silently, and every accepted one is typed. -/
theorem analyzeExpr_sound {s : Semantic} (wellFormed : s.WellFormed) {expr : Expr}
    (grammatical : expr.Grammatical) (expected : ValueType) :
    (analyzeExpr s expr expected).Sound s := by
  induction expr using Expr.induction generalizing expected with
  | binary base op left right leftHypothesis rightHypothesis =>
      exact analyzeBinary_sound (leftHypothesis grammatical.1)
        (rightHypothesis grammatical.2) expected
  | unary base op operand operandHypothesis =>
      exact analyzeUnary_sound (operandHypothesis grammatical) expected
  | cast base target operand operandHypothesis =>
      exact analyzeCast_sound grammatical.1
        (operandHypothesis grammatical.2 .unresolved)
  | literal base tokenType value =>
      exact analyzeLiteral_sound base tokenType value expected
  | identifier base name depth id symbol =>
      exact analyzeIdentifier_sound wellFormed base name depth id symbol
  | funcCall base callee linkName arguments argumentsHypothesis =>
      have sound : ∀ argument ∈ arguments, ∀ type,
          (analyzeExpr s argument type).Sound s := by
        intro argument inArguments
        exact argumentsHypothesis argument inArguments
          ((Expr.grammaticalArguments_iff arguments).mp grammatical argument
            inArguments)
      unfold analyzeExpr
      cases found : s.funcs.lookup callee.name with
      | none => exact ⟨by simp, by simp, by simp⟩
      | some func =>
          have inTable := (FuncSymbolTable.mem_of_lookup_eq_some found).1
          obtain ⟨log, typed⟩ := analyzeArguments_sound sound func.name 0
            func.parameters (wellFormed.funcs func inTable).2
          unfold analyzeFuncCall
          dsimp only
          split
          · exact ⟨by simp, by simp, by simp⟩
          · rename_i length
            push Not at length
            split
            · rename_i ok
              exact ⟨by simp [log, ok],
                fun _ => ⟨func, found, rfl, rfl, typed ok length⟩,
                fun _ => (wellFormed.funcs func inTable).1⟩
            · rename_i failed
              simp only [Bool.not_eq_true] at failed
              exact ⟨by simp [log, failed], by simp, by simp⟩

end Sulfur
