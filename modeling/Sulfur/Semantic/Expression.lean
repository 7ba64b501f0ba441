import Sulfur.Semantic.Const

/-!
# Expression analysis

`semantic_expr.c`.  The analysis of an expression reads the scope and the
function table and changes neither, so it returns the annotated node, whether
it succeeded and what it logged.  A node whose analysis fails keeps the
annotations made up to there, as in the source.
-/

namespace Sulfur

/-- `sf_semantic`. -/
structure Semantic where
  scope : Scope := {}
  funcs : FuncSymbolTable := {}
  currentFunc : Option FuncDecl := none
  filename : String
  modulePrefix : Option String := none
  deriving DecidableEq, Repr

/-- What `sf_semantic_expr` returns, logs and leaves in the tree. -/
structure ExprAnalysis where
  ok : Bool
  node : Expr
  log : Log
  deriving Repr

/-- The analysis of two operands. -/
structure OperandsAnalysis where
  ok : Bool
  left : Expr
  right : Expr
  log : Log
  deriving Repr

/-- The analysis of an argument list. -/
structure ArgumentsAnalysis where
  ok : Bool
  nodes : List Expr
  log : Log
  deriving Repr

/-- Put what was logged earlier in front. -/
def ExprAnalysis.after (log : Log) (analysis : ExprAnalysis) : ExprAnalysis :=
  { analysis with log := log ++ analysis.log }

namespace Semantic

/-- An error in the file that is analysed. -/
def error (s : Semantic) (title desc : String) (hint : Option String)
    (code : LogCode) (span : Span) (arguments : List String) : Diagnostic :=
  logError s.filename title desc hint code span arguments

@[simp]
theorem isError_error (s : Semantic) (title desc : String) (hint : Option String)
    (code : LogCode) (span : Span) (arguments : List String) :
    (s.error title desc hint code span arguments).isError = true :=
  rfl

/-- `sf_semantic_report_undeclared`. -/
def reportUndeclared (s : Semantic) (name : String) (span : Span) : Diagnostic :=
  match s.scope.findClosest name with
  | some closest =>
      s.error "undeclared symbol" "'%s' is not declared in this scope"
        (some "did you mean '%s'?") .semanticUndeclared span [name, closest]
  | none =>
      s.error "undeclared symbol" "'%s' is not declared in this scope"
        (some "check for typos, or declare the variable before using it")
        .semanticUndeclared span [name]

@[simp]
theorem isError_reportUndeclared (s : Semantic) (name : String) (span : Span) :
    (s.reportUndeclared name span).isError = true := by
  unfold reportUndeclared
  split <;> simp

/-- The report of `analyze_func_call` for a name without a symbol. -/
def reportUndeclaredFunction (s : Semantic) (callee : Callee) : Diagnostic :=
  match s.funcs.findClosest callee.name with
  | some closest =>
      s.error "undeclared function"
        "function '%s' is not declared until this call"
        (some "did you mean '%s'?") .semanticUndeclared callee.base.span
        [callee.name, closest]
  | none =>
      s.error "undeclared function"
        "function '%s' is not declared until this call"
        (some "declare the function before calling") .semanticUndeclared
        callee.base.span [callee.name]

@[simp]
theorem isError_reportUndeclaredFunction (s : Semantic) (callee : Callee) :
    (s.reportUndeclaredFunction callee).isError = true := by
  unfold reportUndeclaredFunction
  split <;> simp

end Semantic

/-- The common body of `check_argument_type`, `check_assignment_type` and
`check_return_type`. -/
def checkConversion (resolved target : ValueType) (narrows : Bool)
    (mismatch narrowing : Diagnostic) : Check :=
  if resolved = .unresolved then
    ⟨true, []⟩
  else if !resolved.isSameGroup target then
    ⟨false, [mismatch]⟩
  else if narrows then
    ⟨false, [narrowing]⟩
  else
    ⟨true, []⟩

/-- `check_argument_type`. -/
def checkArgumentType (s : Semantic) (resolved paramType : ValueType)
    (funcName : String) (index : Nat) (span : Span) : Check :=
  checkConversion resolved paramType
    (resolved.widthBytes > paramType.widthBytes)
    (s.error "type mismatch"
      "argument %zu of '%s' expects '%s', but this expression has type '%s'"
      (some "make sure the argument matches the parameter type, or cast it")
      .semanticTypeMismatch span
      [toString (index + 1), funcName, paramType.name, resolved.name])
    (s.error "narrowing conversion"
      "cannot implicitly narrow '%s' to '%s' in argument %zu of '%s'"
      (some "cast the argument explicitly, or change the parameter type")
      .semanticInvalidImplicitCast span
      [resolved.name, paramType.name, toString (index + 1), funcName])

/-! ## Binary operators -/

/-- The type that `analyze_binary` expects of the operands. -/
def operandExpected (op : BinaryOp) (expected : ValueType) : ValueType :=
  if op.isLogical then
    .bool
  else if op.isRelational then
    .unresolved
  else if !expected.isInteger then
    .unresolved
  else
    expected

/-- The type expected of the second operand that is analysed: that of the
first one, if it has one. -/
def siblingExpected (sibling : Expr) (expected : ValueType) : ValueType :=
  if sibling.resolved ≠ .unresolved then sibling.resolved else expected

/-- `analyze_binary_operands`, on the analyses of the two operands. -/
def analyzeBinaryOperands (op : BinaryOp) (left right : Expr)
    (analyzeLeft analyzeRight : ValueType → ExprAnalysis)
    (expected : ValueType) : OperandsAnalysis :=
  let swapOrder := op.isRelational && left.isLiteral && !right.isLiteral
  if swapOrder then
    let r := analyzeRight expected
    if r.ok then
      let l := analyzeLeft (siblingExpected r.node expected)
      ⟨l.ok, l.node, r.node, r.log ++ l.log⟩
    else
      ⟨false, left, r.node, r.log⟩
  else
    let l := analyzeLeft expected
    if l.ok then
      let r := analyzeRight
        (if op.isShift then expected else siblingExpected l.node expected)
      ⟨r.ok, l.node, r.node, l.log ++ r.log⟩
    else
      ⟨false, l.node, right, l.log⟩

/-- `analyze_logical`, on analysed operands. -/
def analyzeLogical (s : Semantic) (base : Base) (op : BinaryOp)
    (left right : Expr) : ExprAnalysis :=
  if left.resolved ≠ .bool ∨ right.resolved ≠ .bool then
    ⟨false, .binary base op left right,
      [s.error "type mismatch"
        "cannot perform a logical operation between %s and %s"
        (some "only use bool type literals/identifiers on logical operations")
        .semanticTypeMismatch base.span
        [left.resolved.name, right.resolved.name]]⟩
  else
    let node := .binary { base with resolved := .bool } op left right
    ⟨true, node,
      constWarn s.filename node
        "this logical expression always evaluates to '%s'"⟩

/-- `analyze_shift`, on analysed operands. -/
def analyzeShift (s : Semantic) (base : Base) (op : BinaryOp)
    (left right : Expr) : ExprAnalysis :=
  let node := .binary { base with resolved := left.resolved } op left right
  let width : Int := left.resolved.widthBits
  match constEvalInt right with
  | none => ⟨true, node, []⟩
  | some shiftAmount =>
      if shiftAmount < 0 ∨ shiftAmount ≥ width then
        ⟨false, node,
          [s.error "shift amount out of range"
            "shift amount '%lld' is out of range for type '%s' (width %lld)"
            (some ("use a shift amount between 0 and the type's bit width " ++
              "minus one"))
            .semanticLiteralOverflow base.span
            [toString shiftAmount, left.resolved.name, toString width]]⟩
      else
        ⟨true, node, []⟩

/-- `analyze_relational`, on analysed operands. -/
def analyzeRelational (s : Semantic) (base : Base) (op : BinaryOp)
    (left right : Expr) : ExprAnalysis :=
  let ltype := left.resolved
  let rtype := right.resolved
  if !ltype.isSameGroup rtype then
    ⟨false, .binary base op left right,
      [s.error "type mismatch" "cannot compare '%s' and '%s'"
        (some "cast one of the operands to match the other's type")
        .semanticTypeMismatch base.span [ltype.name, rtype.name]]⟩
  else if ltype.widthBits ≠ rtype.widthBits then
    ⟨false, .binary base op left right,
      [s.error "type mismatch"
        "cannot compare '%s' and '%s' due to differing widths"
        (some "cast one of the operands to match the other's width")
        .semanticTypeMismatch base.span [ltype.name, rtype.name]]⟩
  else
    let node := .binary { base with resolved := .bool } op left right
    ⟨true, node,
      constWarn s.filename node "this comparison always evaluates to '%s'"⟩

/-- `analyze_arithmetic`, on analysed operands. -/
def analyzeArithmetic (s : Semantic) (base : Base) (op : BinaryOp)
    (left right : Expr) : ExprAnalysis :=
  let ltype := left.resolved
  let rtype := right.resolved
  if !ltype.isSameGroup rtype then
    ⟨false, .binary base op left right,
      [s.error "type mismatch" "cannot mix '%s' and '%s' in the same expression"
        (some "cast one of the operands to match the other's type")
        .semanticTypeMismatch base.span [ltype.name, rtype.name]]⟩
  else if !ltype.isInteger then
    ⟨false, .binary base op left right,
      [s.error "invalid operand type"
        "operator '%s' requires integer operands, got '%s'" none
        .semanticTypeMismatch base.span [op.name, ltype.name]]⟩
  else
    let resolved := ltype.promote rtype
    let node := .binary { base with resolved := resolved } op left right
    if op = .div && constIsZero right resolved.isSigned then
      ⟨false, node,
        [s.error "division by zero" "constant expression divides by zero"
          (some "ensure the divisor is non-zero")
          .semanticDivisionByZero base.span []]⟩
    else
      let overflow := constCheckOverflow node resolved s.filename
      ⟨overflow.ok, node, overflow.log⟩

/-- The branches of `analyze_binary` after its operands. -/
def analyzeOperation (s : Semantic) (base : Base) (op : BinaryOp)
    (left right : Expr) : ExprAnalysis :=
  if op.isLogical then
    analyzeLogical s base op left right
  else if op.isShift then
    analyzeShift s base op left right
  else if op.isRelational then
    analyzeRelational s base op left right
  else
    analyzeArithmetic s base op left right

/-- The choice in `analyze_binary`, on analysed operands. -/
def analyzeBinary (s : Semantic) (base : Base) (op : BinaryOp)
    (left right : Expr) (analyzeLeft analyzeRight : ValueType → ExprAnalysis)
    (expected : ValueType) : ExprAnalysis :=
  let operands := analyzeBinaryOperands op left right analyzeLeft analyzeRight
    (operandExpected op expected)
  if !operands.ok then
    ⟨false, .binary base op operands.left operands.right, operands.log⟩
  else if operands.left.resolved = .unresolved ∨
      operands.right.resolved = .unresolved then
    ⟨false, .binary base op operands.left operands.right, operands.log⟩
  else
    (analyzeOperation s base op operands.left operands.right).after operands.log

/-! ## Unary operators -/

/-- The type at which `analyze_negated_literal` reads a literal, once it is not
an unsigned one. -/
def negatedLiteralTarget (expected : ValueType) : ValueType :=
  if expected = .unresolved ∨ !expected.isInteger ∨ !expected.isSigned then
    .i64
  else
    expected

/-- The range test of `analyze_negated_literal`. -/
def negatedLiteralFits (value : String) (target : ValueType) : Bool :=
  match strtoull value with
  | none => false
  | some magnitude => target.signedLiteralFitsNegated magnitude

/-- `analyze_negated_literal`. -/
def analyzeNegatedLiteral (s : Semantic) (base literalBase : Base)
    (value : String) (expected : ValueType) : ExprAnalysis :=
  let node := .unary base .negate (.literal literalBase .integer value)
  if expected ≠ .unresolved ∧ expected.isInteger ∧ !expected.isSigned then
    ⟨false, node,
      [s.error "negative literal in unsigned context"
        "cannot assign a negative literal to a variable of unsigned type '%s'"
        (some "use a signed type, or remove the negation")
        .semanticTypeMismatch base.span [expected.name]]⟩
  else
    let target := negatedLiteralTarget expected
    if !negatedLiteralFits value target then
      ⟨false, node,
        [s.error "integer literal out of range"
          "literal '-%s' does not fit in type '%s'"
          (some ("use a wider type, or cast explicitly if truncation is " ++
            "intended"))
          .semanticLiteralOverflow base.span [value, target.name]]⟩
    else
      ⟨true,
        .unary { base with resolved := target } .negate
          (.literal { literalBase with resolved := target } .integer value), []⟩

/-- `analyze_negate` when its operand is no integer literal. -/
def analyzeNegate (s : Semantic) (base : Base)
    (analyzeOperand : ValueType → ExprAnalysis) (expected : ValueType) :
    ExprAnalysis :=
  let operand := analyzeOperand (if expected.isSigned then expected else .i64)
  let childType := operand.node.resolved
  if !operand.ok then
    ⟨false, .unary base .negate operand.node, operand.log⟩
  else if childType = .unresolved then
    ⟨false, .unary base .negate operand.node, operand.log⟩
  else if !childType.isSigned then
    ⟨false, .unary base .negate operand.node, operand.log ++
      [s.error "invalid operand to unary '-'"
        "operator '-' requires a signed integer operand, got '%s'" none
        .semanticTypeMismatch base.span [childType.name]]⟩
  else
    ⟨true, .unary { base with resolved := childType } .negate operand.node,
      operand.log⟩

/-- `analyze_bitwise_not`, on the analysis of the operand. -/
def analyzeBitwiseNot (s : Semantic) (base : Base)
    (analyzeOperand : ValueType → ExprAnalysis) (expected : ValueType) :
    ExprAnalysis :=
  let operand := analyzeOperand expected
  let childType := operand.node.resolved
  if !operand.ok then
    ⟨false, .unary base .bitwiseNot operand.node, operand.log⟩
  else if !childType.isInteger then
    ⟨false, .unary base .bitwiseNot operand.node, operand.log ++
      [s.error "invalid operand to '~'"
        "operator '~' requires an integer operand, got '%s'" none
        .semanticTypeMismatch base.span [childType.name]]⟩
  else
    ⟨true, .unary { base with resolved := childType } .bitwiseNot operand.node,
      operand.log⟩

/-- `analyze_logical_not`, on the analysis of the operand. -/
def analyzeLogicalNot (s : Semantic) (base : Base)
    (analyzeOperand : ValueType → ExprAnalysis) : ExprAnalysis :=
  let operand := analyzeOperand .bool
  let node := .unary base .logicalNot operand.node
  if !operand.ok then
    ⟨false, node, operand.log⟩
  else if operand.node.resolved ≠ .bool then
    ⟨false, node, operand.log ++
      [s.error "invalid operand to '!'"
        "operator '!' requires a boolean operand, got '%s'" none
        .semanticTypeMismatch base.span [operand.node.resolved.name]]⟩
  else
    ⟨true, .unary { base with resolved := .bool } .logicalNot operand.node,
      operand.log ++
        constWarn s.filename node "this expression always evaluates to '%s'"⟩

/-- The mutability of the symbol that the analysis of an identifier found. -/
def resolvesMutable : Expr → Bool
  | .identifier _ _ _ _ (some symbol) => symbol.qualifiers.isMutable
  | _ => false

/-- The node is an identifier. -/
def isIdentifier : Expr → Bool
  | .identifier .. => true
  | _ => false

/-- `analyze_increment`. -/
def analyzeIncrement (s : Semantic) (base : Base) (op : UnaryOp) (operand : Expr)
    (analyzeOperand : ValueType → ExprAnalysis) (expected : ValueType) :
    ExprAnalysis :=
  if !isIdentifier operand then
    ⟨false, .unary base op operand,
      [s.error "invalid operand" "operand of '++'/'--' must be a lvalue"
        (some "only lvalues can be incremented or decremented")
        .semanticTypeMismatch base.span []]⟩
  else
    let operand := analyzeOperand expected
    let childType := operand.node.resolved
    if !operand.ok then
      ⟨false, .unary base op operand.node, operand.log⟩
    else if !childType.isInteger then
      ⟨false, .unary base op operand.node, operand.log ++
        [s.error "invalid operand type"
          "operator '++'/'--' requires an integer operand, got '%s'" none
          .semanticTypeMismatch base.span [childType.name]]⟩
    else if !resolvesMutable operand.node then
      ⟨false, .unary base op operand.node, operand.log ++
        [s.error "invalid assign"
          "cannot increment or decrement an immutable variable"
          (some "make the variable mutable or dont assign to it")
          .semanticInvalidAssign base.span []]⟩
    else
      ⟨true, .unary { base with resolved := childType } op operand.node,
        operand.log⟩

/-- `analyze_unary`; a negated integer literal has an analysis of its own. -/
def analyzeUnary (s : Semantic) (base : Base) (op : UnaryOp) (operand : Expr)
    (analyzeOperand : ValueType → ExprAnalysis) (expected : ValueType) :
    ExprAnalysis :=
  match op with
  | .negate =>
      match operand with
      | .literal literalBase .integer value =>
          analyzeNegatedLiteral s base literalBase value expected
      | _ => analyzeNegate s base analyzeOperand expected
  | .bitwiseNot => analyzeBitwiseNot s base analyzeOperand expected
  | .logicalNot => analyzeLogicalNot s base analyzeOperand
  | .prefixIncrement | .postfixIncrement | .prefixDecrement | .postfixDecrement =>
      analyzeIncrement s base op operand analyzeOperand expected

/-! ## Casts, literals, identifiers and calls -/

/-- `analyze_cast`, on the analysis of its operand. -/
def analyzeCast (s : Semantic) (base : Base) (targetType : ValueType)
    (operand : ExprAnalysis) : ExprAnalysis :=
  let fromType := operand.node.resolved
  let node := .cast base targetType operand.node
  let useless :=
    if fromType = targetType then
      [logWarning s.filename "useless cast"
        "the expression already has type '%s'" (some "remove the cast")
        .semanticUselessCast base.span [targetType.name]]
    else
      []
  if !operand.ok then
    ⟨false, node, operand.log⟩
  else if fromType = .unresolved then
    ⟨false, node, operand.log⟩
  else if !fromType.isCastable targetType then
    ⟨false, node, operand.log ++ useless ++
      [s.error "invalid cast" "cannot cast '%s' to '%s'"
        (some "these types are not compatible for casting")
        .semanticInvalidExplicitCast base.span [fromType.name, targetType.name]]⟩
  else
    ⟨true, .cast { base with resolved := targetType } targetType operand.node,
      operand.log ++ useless⟩

/-- The type at which `analyze_literal` reads an integer literal. -/
def literalTarget (expected : ValueType) : ValueType :=
  if expected = .unresolved ∨ !expected.isInteger then .i64 else expected

/-- `analyze_literal`. -/
def analyzeLiteral (s : Semantic) (base : Base) (tokenType : LiteralType)
    (value : String) (expected : ValueType) : ExprAnalysis :=
  match tokenType with
  | .kwTrue | .kwFalse =>
      ⟨true, .literal { base with resolved := .bool } tokenType value, []⟩
  | .integer =>
      let target := literalTarget expected
      match strtoull value with
      | none =>
          ⟨false, .literal base tokenType value,
            [s.error "integer literal out of range"
              "literal '%s' is too large to represent"
              (some "this value does not fit in any integer type")
              .semanticLiteralOverflow base.span [value]]⟩
      | some raw =>
          if !target.uintLiteralFits raw then
            ⟨false, .literal base tokenType value,
              [s.error "integer literal out of range"
                "literal '%s' does not fit in type '%s'"
                (some ("use a wider type, or cast explicitly if truncation " ++
                  "is intended"))
                .semanticLiteralOverflow base.span [value, target.name]]⟩
          else
            ⟨true, .literal { base with resolved := target } tokenType value, []⟩

/-- `analyze_identifier`. -/
def analyzeIdentifier (s : Semantic) (base : Base) (name : String)
    (depth id : Nat) (symbol : Option VarSymbol) : ExprAnalysis :=
  match s.scope.lookup name with
  | none =>
      ⟨false, .identifier base name depth id symbol,
        [s.reportUndeclared name base.span]⟩
  | some sym =>
      if !sym.initialized then
        ⟨false, .identifier base name depth id symbol,
          [s.error "uninitialized variable"
            "'%s' may be used before being initialized"
            (some ("assign a value to the variable in every path before " ++
              "using it"))
            .semanticUninitialized base.span [name]]⟩
      else
        ⟨true,
          .identifier { base with resolved := sym.type } name sym.depth sym.id
            (some sym), []⟩

/-- One pass of the argument loop of `analyze_func_call`: the argument against
its parameter, if there is one, with the cast that widens it. -/
def analyzeArgument (s : Semantic) (funcName : String) (index : Nat)
    (param : Option Parameter) (arg : ExprAnalysis) : ExprAnalysis :=
  match param with
  | none => arg
  | some param =>
      let check := checkArgumentType s arg.node.resolved param.type funcName
        index arg.node.span
      if !arg.ok then
        arg
      else if !check.ok then
        ⟨false, arg.node, arg.log ++ check.log⟩
      else if arg.node.resolved ≠ .unresolved ∧
          arg.node.resolved ≠ param.type then
        ⟨true,
          .cast { resolved := param.type, span := arg.node.span } param.type
            arg.node, arg.log ++ check.log⟩
      else
        ⟨true, arg.node, arg.log ++ check.log⟩

/-- The end of `analyze_func_call`, after the arguments of a declared
function. -/
def analyzeFuncCall (s : Semantic) (base : Base) (callee : Callee)
    (linkName : Option String) (sym : FuncSymbol) (argumentCount : Nat)
    (arguments : ArgumentsAnalysis) : ExprAnalysis :=
  if argumentCount ≠ sym.parameters.length then
    ⟨false, .funcCall base callee linkName arguments.nodes, arguments.log ++
      [s.error "wrong argument count"
        "function '%s' expects %zu arguments, but %zu were provided"
        (some "pass exactly the number of arguments the function declares")
        .semanticArgumentCount callee.base.span
        [sym.name, toString sym.parameters.length, toString argumentCount]]⟩
  else if arguments.ok then
    ⟨true,
      .funcCall { base with resolved := sym.returnType } callee
        (some sym.linkName) arguments.nodes, arguments.log⟩
  else
    ⟨false, .funcCall base callee linkName arguments.nodes, arguments.log⟩

mutual

/-- `sf_semantic_expr`. -/
def analyzeExpr (s : Semantic) : Expr → ValueType → ExprAnalysis
  | .binary base op left right, expected =>
      analyzeBinary s base op left right (fun type => analyzeExpr s left type)
        (fun type => analyzeExpr s right type) expected
  | .unary base op operand, expected =>
      analyzeUnary s base op operand (fun type => analyzeExpr s operand type)
        expected
  | .cast base targetType operand, _ =>
      analyzeCast s base targetType (analyzeExpr s operand .unresolved)
  | .literal base tokenType value, expected =>
      analyzeLiteral s base tokenType value expected
  | .identifier base name depth id symbol, _ =>
      analyzeIdentifier s base name depth id symbol
  | .funcCall base callee linkName arguments, _ =>
      match s.funcs.lookup callee.name with
      | none =>
          let analysis := analyzeArguments s callee.name 0 [] arguments
          ⟨false, .funcCall base callee linkName analysis.nodes,
            s.reportUndeclaredFunction callee :: analysis.log⟩
      | some sym =>
          analyzeFuncCall s base callee linkName sym arguments.length
            (analyzeArguments s sym.name 0 sym.parameters arguments)

/-- The argument loop of `analyze_func_call`, with the parameters that remain.
Without parameters it is also the loop over the arguments of an undeclared
function. -/
def analyzeArguments (s : Semantic) (funcName : String) (index : Nat)
    (params : List Parameter) : List Expr → ArgumentsAnalysis
  | [] => ⟨true, [], []⟩
  | arg :: rest =>
      let expected := (params.head?.map Parameter.type).getD .unresolved
      let first := analyzeArgument s funcName index params.head?
        (analyzeExpr s arg expected)
      let others := analyzeArguments s funcName (index + 1) params.tail rest
      ⟨first.ok && others.ok, first.node :: others.nodes,
        first.log ++ others.log⟩

end

end Sulfur
