import Sulfur.Ir.Operation

/-!
# Lowering

`ir.c`.  A context of the source is a growing array of operations with a
counter of temporaries.  The functions below take the counter and return the
operations that they push, in order, with the counter they leave.
-/

namespace Sulfur.Ir

/-- What the lowering of an expression returns and leaves behind. -/
structure ExprCode where
  result : Operand
  operations : List Operation
  nextTemp : Nat
  deriving DecidableEq, Repr

/-- The lowering of an argument list. -/
structure ArgumentsCode where
  results : List Operand
  operations : List Operation
  nextTemp : Nat
  deriving DecidableEq, Repr

/-- `hint != NULL ? *hint : new_temporary(context, type)`, with the counter. -/
def destination (hint : Option Operand) (type : ValueType) (nextTemp : Nat) :
    Operand × Nat :=
  match hint with
  | some hint => (hint, nextTemp)
  | none => (.temporary type nextTemp, nextTemp + 1)

/-- `generate_binary`, on the code of its operands. -/
def generateBinary (base : Base) (op : BinaryOp) (left right : ExprCode)
    (hint : Option Operand) : ExprCode :=
  let dst := destination hint base.resolved right.nextTemp
  ⟨dst.1,
    left.operations ++ right.operations ++
      [⟨.binary op, dst.1, left.result, right.result⟩],
    dst.2⟩

/-- The operator adds one. -/
def UnaryOp.isIncrement (op : UnaryOp) : Bool :=
  op = .prefixIncrement || op = .postfixIncrement

/-- The value of the expression is the one before the operation. -/
def UnaryOp.isPostfix (op : UnaryOp) : Bool :=
  op = .postfixIncrement || op = .postfixDecrement

/-- `generate_increment`, on the code of its operand. -/
def generateIncrement (base : Base) (op : UnaryOp) (operand : ExprCode) :
    ExprCode :=
  let one := .immediate base.resolved "1"
  let updated := .temporary base.resolved operand.nextTemp
  let opcode := .binary (if UnaryOp.isIncrement op then .add else .sub)
  let update : List Operation :=
    [⟨opcode, updated, operand.result, one⟩,
      ⟨.assign, operand.result, updated, .none⟩]
  if UnaryOp.isPostfix op then
    let result := .temporary base.resolved (operand.nextTemp + 1)
    ⟨result,
      operand.operations ++ ⟨.assign, result, operand.result, .none⟩ :: update,
      operand.nextTemp + 2⟩
  else
    ⟨updated, operand.operations ++ update, operand.nextTemp + 1⟩

/-- `generate_unary`, on the code of its operand. -/
def generateUnary (base : Base) (op : UnaryOp) (operand : ExprCode)
    (hint : Option Operand) : ExprCode :=
  if op.isIncrementOrDecrement then
    generateIncrement base op operand
  else
    let dst := destination hint base.resolved operand.nextTemp
    ⟨dst.1,
      operand.operations ++ [⟨unaryOpcode op, dst.1, operand.result, .none⟩],
      dst.2⟩

/-- `generate_cast`, on the code of its operand. -/
def generateCast (base : Base) (operand : ExprCode) (hint : Option Operand) :
    ExprCode :=
  let dst := destination hint base.resolved operand.nextTemp
  ⟨dst.1, operand.operations ++ [⟨.cast, dst.1, operand.result, .none⟩], dst.2⟩

/-- `generate_literal`. -/
def generateLiteral (base : Base) (tokenType : LiteralType) (value : String) :
    Operand :=
  let value :=
    match tokenType with
    | .kwTrue => "1"
    | .kwFalse => "0"
    | .integer => value
  .immediate base.resolved value

/-- `generate_identifier`. -/
def generateIdentifier (base : Base) (name : String) (id : Nat) : Operand :=
  .variable base.resolved (mangleVariable name id)

/-- The `PARAM` operations of `generate_call`. -/
def paramOperations (arguments : List Operand) : List Operation :=
  arguments.map fun argument => { opcode := .param, operand1 := argument }

/-- `generate_call`, on the code of its arguments. -/
def generateCall (base : Base) (callee : Callee) (linkName : Option String)
    (arguments : ArgumentsCode) (hint : Option Operand) : ExprCode :=
  let funcOperand := .function base.resolved (linkName.getD callee.name)
  let dst :=
    if base.resolved = .void then
      (.none, arguments.nextTemp)
    else
      destination hint base.resolved arguments.nextTemp
  ⟨dst.1,
    arguments.operations ++ paramOperations arguments.results ++
      [⟨.call, dst.1, funcOperand, .none⟩],
    dst.2⟩

mutual

/-- `generate_expression_into`. -/
def generateExpressionInto : Expr → Option Operand → Nat → ExprCode
  | .binary base op left right, hint, nextTemp =>
      let leftCode := generateExpressionInto left none nextTemp
      let rightCode := generateExpressionInto right none leftCode.nextTemp
      generateBinary base op leftCode rightCode hint
  | .unary base op operand, hint, nextTemp =>
      generateUnary base op (generateExpressionInto operand none nextTemp) hint
  | .cast base _ operand, hint, nextTemp =>
      generateCast base (generateExpressionInto operand none nextTemp) hint
  | .literal base tokenType value, _, nextTemp =>
      ⟨generateLiteral base tokenType value, [], nextTemp⟩
  | .identifier base name _ id _, _, nextTemp =>
      ⟨generateIdentifier base name id, [], nextTemp⟩
  | .funcCall base callee linkName arguments, hint, nextTemp =>
      generateCall base callee linkName (generateArguments arguments nextTemp)
        hint

/-- The first argument loop of `generate_call`. -/
def generateArguments : List Expr → Nat → ArgumentsCode
  | [], nextTemp => ⟨[], [], nextTemp⟩
  | argument :: rest, nextTemp =>
      let first := generateExpressionInto argument none nextTemp
      let others := generateArguments rest first.nextTemp
      ⟨first.result :: others.results, first.operations ++ others.operations,
        others.nextTemp⟩

end

/-- `generate_expression`. -/
def generateExpression (expr : Expr) (nextTemp : Nat) : ExprCode :=
  generateExpressionInto expr none nextTemp

/-- The code of a call without a value ends in no operand. -/
theorem generateExpression_result_of_isVoidCall {value : Expr}
    (void : value.isVoidCall) (nextTemp : Nat) :
    (generateExpression value nextTemp).result = .none := by
  cases value with
  | funcCall base callee linkName arguments =>
      have returnsVoid : base.resolved = .void := by
        simpa [Expr.isVoidCall] using void
      simp [generateExpression, generateExpressionInto, generateCall, returnsVoid]
  | _ => cases void

/-- The code of any other expression ends in an operand of the expression's
type, which is an immediate for the literals only. -/
theorem generateExpression_result {value : Expr}
    (returns : value.isVoidCall = false) (nextTemp : Nat) :
    (generateExpression value nextTemp).result.valueType = value.resolved ∧
      (generateExpression value nextTemp).result.inMemory = !value.isLiteral := by
  cases value with
  | binary base op left right => exact ⟨rfl, rfl⟩
  | unary base op operand =>
      simp only [generateExpression, generateExpressionInto, generateUnary]
      split
      · unfold generateIncrement
        dsimp only
        split <;> exact ⟨rfl, rfl⟩
      · exact ⟨rfl, rfl⟩
  | cast base target operand => exact ⟨rfl, rfl⟩
  | literal base tokenType text => exact ⟨rfl, rfl⟩
  | identifier base name depth id symbol => exact ⟨rfl, rfl⟩
  | funcCall base callee linkName arguments =>
      have returnsValue : base.resolved ≠ .void := by
        simpa [Expr.isVoidCall] using returns
      simp [generateExpression, generateExpressionInto, generateCall, returnsValue,
        destination, Expr.resolved, Expr.base, Expr.isLiteral, Operand.valueType,
        Operand.inMemory]

/-! ## Statements -/

/-- What the lowering of a statement pushes and leaves behind. -/
structure StmtCode where
  operations : List Operation
  nextTemp : Nat
  program : IrProgram
  deriving DecidableEq, Repr

/-- The test `wrote_directly` of `generate_assignment`. -/
def wroteDirectly (src dst : Operand) : Bool :=
  match src, dst with
  | .variable _ src, .variable _ dst => src = dst
  | _, _ => false

/-- `generate_assignment`, with the operations and the counter it leaves. -/
def generateAssignment (dst : Operand) (value : Expr) (nextTemp : Nat) :
    List Operation × Nat :=
  let code := generateExpressionInto value (some dst) nextTemp
  if wroteDirectly code.result dst then
    (code.operations, code.nextTemp)
  else
    (code.operations ++ [⟨.assign, dst, code.result, .none⟩], code.nextTemp)

/-- The operand that `generate_var_decl` assigns to. -/
def VarDecl.destination (decl : VarDecl) : Operand :=
  .variable decl.varType (mangleVariable decl.name decl.id)

@[simp]
theorem VarDecl.valueType_destination (decl : VarDecl) :
    (VarDecl.destination decl).valueType = decl.varType := rfl

/-- The operand that `generate_var_assign` assigns to. -/
def VarAssign.destination (assign : VarAssign) : Operand :=
  .variable assign.base.resolved (mangleVariable assign.name assign.id)

@[simp]
theorem VarAssign.valueType_destination (assign : VarAssign) :
    (VarAssign.destination assign).valueType = assign.base.resolved := rfl

/-- `generate_var_decl`. -/
def generateVarDecl (decl : VarDecl) (nextTemp : Nat) : List Operation × Nat :=
  match decl.value with
  | none => ([], nextTemp)
  | some value => generateAssignment (VarDecl.destination decl) value nextTemp

/-- `generate_var_assign`. -/
def generateVarAssign (assign : VarAssign) (nextTemp : Nat) :
    List Operation × Nat :=
  generateAssignment (VarAssign.destination assign) assign.value nextTemp

/-- `generate_return`. -/
def generateReturn (value : Option Expr) (nextTemp : Nat) :
    List Operation × Nat :=
  match value with
  | none => ([{ opcode := .ret }], nextTemp)
  | some value =>
      let code := generateExpression value nextTemp
      (code.operations ++ [{ opcode := .ret, operand1 := code.result }],
        code.nextTemp)

/-- The operation that marks a label. -/
def labelOperation (label : Nat) : Operation :=
  { opcode := .label, operand1 := .label label }

/-- `JMP_COND`: jump when the condition is zero. -/
def jmpCond (label : Nat) (condition : Operand) : Operation :=
  { opcode := .jmpCond, operand1 := .label label, operand2 := condition }

/-- A jump without a condition. -/
def jmpIncond (label : Nat) : Operation :=
  { opcode := .jmpIncond, operand1 := .label label }

/-- `new_label`, taken a number of times. -/
def IrProgram.skipLabels (program : IrProgram) (count : Nat) : IrProgram :=
  { program with nextLabel := program.nextLabel + count }

/-- `ends_with_return`. -/
def endsWithReturn (operations : List Operation) : Bool :=
  match operations.getLast? with
  | some operation => operation.opcode = .ret
  | none => false

/-- The parameters of the generated function: their names are mangled, and
nothing but the number and the type is copied besides. -/
def generateParameters (parameters : List Parameter) : List Parameter :=
  parameters.map fun param =>
    { type := param.type
      name := mangleVariable param.name param.id
      id := param.id }

/-- The end of `generate_function`: the function with the code of its body. -/
def finishFunction (func : FuncDecl) (code : Option StmtCode)
    (program : IrProgram) : IrProgram :=
  let program := (code.map StmtCode.program).getD program
  let body :=
    match code with
    | none => []
    | some code =>
        if func.returnType = .void ∧ !endsWithReturn code.operations then
          code.operations ++ [{ opcode := .ret }]
        else
          code.operations
  { program with
    functions := program.functions ++
      [{ name := func.linkName.getD func.name
         parameters := generateParameters func.parameters
         returnType := func.returnType
         operations := body
         nextTemp := (code.map StmtCode.nextTemp).getD 0
         qualifiers := func.qualifiers
         defined := code.isSome }] }

mutual

/-- `generate_statement`. -/
def generateStatement : Stmt → Nat → IrProgram → StmtCode
  | .varDecl decl, nextTemp, program =>
      let code := generateVarDecl decl nextTemp
      ⟨code.1, code.2, program⟩
  | .varAssign assign, nextTemp, program =>
      let code := generateVarAssign assign nextTemp
      ⟨code.1, code.2, program⟩
  | .block _ statements, nextTemp, program =>
      generateBlock statements nextTemp program
  | .ifStmt _ condition branchThen branchElse, nextTemp, program =>
      let cond := generateExpression condition nextTemp
      let elseId := program.nextLabel
      match branchElse with
      | none =>
          let thenCode :=
            generateStatement branchThen cond.nextTemp (program.skipLabels 1)
          ⟨cond.operations ++ [jmpCond elseId cond.result] ++
              thenCode.operations ++ [labelOperation elseId],
            thenCode.nextTemp, thenCode.program⟩
      | some branchElse =>
          let endId := program.nextLabel + 1
          let thenCode :=
            generateStatement branchThen cond.nextTemp (program.skipLabels 2)
          let elseCode :=
            generateStatement branchElse thenCode.nextTemp thenCode.program
          ⟨cond.operations ++ [jmpCond elseId cond.result] ++
              thenCode.operations ++
              [jmpIncond endId, labelOperation elseId] ++
              elseCode.operations ++ [labelOperation endId],
            elseCode.nextTemp, elseCode.program⟩
  | .whileStmt _ condition branchDo, nextTemp, program =>
      let startId := program.nextLabel
      let endId := program.nextLabel + 1
      let cond := generateExpression condition nextTemp
      let doCode :=
        generateStatement branchDo cond.nextTemp (program.skipLabels 2)
      ⟨[labelOperation startId] ++ cond.operations ++
          [jmpCond endId cond.result] ++ doCode.operations ++
          [jmpIncond startId, labelOperation endId],
        doCode.nextTemp, doCode.program⟩
  | .funcDecl func body, nextTemp, program =>
      ⟨[], nextTemp,
        finishFunction func
          (match body with
          | none => none
          | some body => some (generateStatement body 0 program))
          program⟩
  | .returnStmt _ value, nextTemp, program =>
      let code := generateReturn value nextTemp
      ⟨code.1, code.2, program⟩
  | .expression expr, nextTemp, program =>
      let code := generateExpression expr nextTemp
      ⟨code.operations, code.nextTemp, program⟩

/-- The loop of `generate_block` and of `sf_ir_generate`. -/
def generateBlock : List Stmt → Nat → IrProgram → StmtCode
  | [], nextTemp, program => ⟨[], nextTemp, program⟩
  | stmt :: rest, nextTemp, program =>
      let first := generateStatement stmt nextTemp program
      let others := generateBlock rest first.nextTemp first.program
      ⟨first.operations ++ others.operations, others.nextTemp, others.program⟩

end

/-! ## Programs -/

/-- `is_defined_here`. -/
def isDefinedHere (ir : IrProgram) (name : String) : Bool :=
  ir.functions.any fun func => func.defined && func.name = name

/-- The name that a `CALL` operation calls. -/
def calledName (op : Operation) : Option String :=
  match op.opcode, op.operand2 with
  | .call, .function _ name => some name
  | _, _ => none

/-- `collect_externs`: the called names that no function here defines, each
once. -/
def collectExterns (ir : IrProgram) : IrProgram :=
  let called := ir.functions.flatMap fun func =>
    func.operations.filterMap calledName
  { ir with
    externs := called.foldl
      (fun externs name =>
        if isDefinedHere ir name || externs.contains name then externs
        else externs ++ [name])
      ir.externs }

/-- What `sf_ir_generate` returns, with the operations that it pushes through
the context of the program, whose array is a null pointer. -/
structure Generated where
  program : IrProgram
  programOperations : List Operation
  deriving DecidableEq, Repr

/-- `sf_ir_generate`. -/
def irGenerate (program : Program) : Generated :=
  let code := generateBlock program.statements 0 {}
  ⟨collectExterns code.program, code.operations⟩

@[simp]
theorem functions_irGenerate (program : Program) :
    (irGenerate program).program.functions =
      (generateBlock program.statements 0 {}).program.functions := rfl

end Sulfur.Ir
