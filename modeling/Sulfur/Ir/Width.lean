import Sulfur.Ir.Generate
import Sulfur.Semantic.Acceptance

/-!
# Operand widths

The emitter picks one register size for an operation from its destination, or
from the first operand of a comparison.  No pass converts operands that the
analyser lets mix, so the widths of the generated operations agree exactly when
those of the analysed tree do.
-/

namespace Sulfur

/-- A source of an operation with a destination of a type: an immediate takes
any width. -/
def Expr.FitsWidth (source : Expr) (dst : ValueType) : Prop :=
  source.isLiteral ∨ source.resolved.widthBits = dst.widthBits

mutual

/-- Every operator of the tree has operands of the width of its destination.
The destination of the root is of the given type, those of the nodes below are
of the nodes' types. -/
def Expr.WidthsAgree : Expr → ValueType → Prop
  | .binary _ op left right, dst =>
      left.WidthsAgree left.resolved ∧ right.WidthsAgree right.resolved ∧
        if op.isRelational then
          True
        else if op.isShift then
          left.isVoidCall = false ∧ left.resolved.widthBits = dst.widthBits
        else
          left.FitsWidth dst ∧ right.FitsWidth dst
  | .unary _ op operand, dst =>
      operand.WidthsAgree operand.resolved ∧
        (op.isIncrementOrDecrement ∨ operand.FitsWidth dst)
  | .cast _ _ operand, _ => operand.WidthsAgree operand.resolved
  | .literal .., _ => True
  | .identifier .., _ => True
  | .funcCall _ _ _ arguments, _ => Expr.ArgumentWidthsAgree arguments

/-- The same for each argument of a call, at its own width. -/
def Expr.ArgumentWidthsAgree : List Expr → Prop
  | [] => True
  | argument :: rest =>
      argument.WidthsAgree argument.resolved ∧ Expr.ArgumentWidthsAgree rest

end

/-- The widths agree in the expressions of a statement itself. -/
def Stmt.WidthsAgree : Stmt → Prop
  | .varDecl decl => ∀ value ∈ decl.value, value.WidthsAgree decl.varType
  | .varAssign assign => assign.value.WidthsAgree assign.base.resolved
  | .ifStmt _ condition _ _ => condition.WidthsAgree condition.resolved
  | .whileStmt _ condition _ => condition.WidthsAgree condition.resolved
  | .returnStmt _ value => ∀ result ∈ value, result.WidthsAgree result.resolved
  | .expression expr => expr.WidthsAgree expr.resolved
  | .block .. => True
  | .funcDecl .. => True

/-- The widths agree in every statement of every function of a program. -/
def Program.WidthsAgree (program : Program) : Prop :=
  ∀ function ∈ program.functions, ∀ part ∈ function.2.parts, part.WidthsAgree

end Sulfur

namespace Sulfur.Ir

/-- A variable or temporary is as wide as the destination. -/
def Operand.FitsWidth (source dst : Operand) : Prop :=
  source.inMemory → source.valueType.widthBits = dst.valueType.widthBits

/-- The operand widths that the emitter of an operation relies on. -/
def Operation.SizeDisciplined (operation : Operation) : Prop :=
  match operation.opcode with
  | .binary op =>
      if op.isRelational then
        operation.operand2.valueType.widthBits =
          operation.operand3.valueType.widthBits
      else if op.isShift then
        operation.operand2.valueType.widthBits =
          operation.operand1.valueType.widthBits
      else
        operation.operand2.FitsWidth operation.operand1 ∧
          operation.operand3.FitsWidth operation.operand1
  | .negate | .bitwiseNot | .logicalNot =>
      operation.operand2.FitsWidth operation.operand1
  | _ => True

instance (source dst : Operand) : Decidable (source.FitsWidth dst) :=
  inferInstanceAs (Decidable (source.inMemory → _))

instance (operation : Operation) : Decidable operation.SizeDisciplined := by
  unfold Operation.SizeDisciplined
  split <;> infer_instance

/-- Every operation of a list is size disciplined. -/
def SizeDisciplined (operations : List Operation) : Prop :=
  ∀ operation ∈ operations, operation.SizeDisciplined

@[simp]
theorem sizeDisciplined_nil : SizeDisciplined [] := by
  simp [SizeDisciplined]

@[simp]
theorem sizeDisciplined_append (first second : List Operation) :
    SizeDisciplined (first ++ second) ↔
      SizeDisciplined first ∧ SizeDisciplined second :=
  List.forall_mem_append

@[simp]
theorem sizeDisciplined_cons (operation : Operation) (rest : List Operation) :
    SizeDisciplined (operation :: rest) ↔
      operation.SizeDisciplined ∧ SizeDisciplined rest :=
  List.forall_mem_cons

@[simp]
theorem sizeDisciplined_paramOperations (arguments : List Operand) :
    SizeDisciplined (paramOperations arguments) := by
  intro operation inParams
  obtain ⟨argument, -, rfl⟩ := List.mem_map.mp inParams
  trivial

/-- The value type that a lowering takes for its destination. -/
def hintedType (hint : Option Operand) (type : ValueType) : ValueType :=
  (hint.map Operand.valueType).getD type

@[simp]
theorem hintedType_none (type : ValueType) : hintedType none type = type := rfl

@[simp]
theorem valueType_destination (hint : Option Operand) (type : ValueType)
    (nextTemp : Nat) :
    (destination hint type nextTemp).1.valueType = hintedType hint type := by
  cases hint <;> rfl

/-- The operand of a value is as wide as a destination when the value is. -/
theorem fitsWidth_iff {source : Expr} (value : source.isVoidCall = false)
    (nextTemp : Nat) (dst : Operand) :
    (generateExpression source nextTemp).result.FitsWidth dst ↔
      source.FitsWidth dst.valueType := by
  obtain ⟨type, memory⟩ := generateExpression_result value nextTemp
  unfold Operand.FitsWidth Expr.FitsWidth
  rw [type, memory]
  cases source.isLiteral <;> simp

theorem not_isVoidCall {source : Expr} (value : source.resolved ≠ .void) :
    source.isVoidCall = false := by
  cases source <;> simp_all [Expr.isVoidCall, Expr.resolved, Expr.base]

theorem resolved_of_isVoidCall {source : Expr} (void : source.isVoidCall) :
    source.resolved = .void := by
  cases source <;> simp_all [Expr.isVoidCall, Expr.resolved, Expr.base]

section Operations

variable {op : BinaryOp} {base : Base} {left right : Expr}

theorem returns_of_typed (shift : op.isShift = false)
    (typed : op.Typed base.resolved left.resolved right.resolved) :
    left.isVoidCall = false ∧ right.isVoidCall = false := by
  have scalar : left.resolved.IsScalar ∧ right.resolved.IsScalar := by
    unfold BinaryOp.Typed at typed
    simp only [shift] at typed
    split at typed
    · rw [typed.2.1, typed.2.2]
      exact ⟨.inr rfl, .inr rfl⟩
    · rw [if_neg Bool.false_ne_true] at typed
      split at typed
      · exact ⟨typed.2.2, typed.2.1 ▸ typed.2.2⟩
      · refine ⟨ValueType.isScalar_of_isSameGroup typed.1,
          ValueType.isScalar_of_isSameGroup (b := left.resolved) ?_⟩
        rw [ValueType.isSameGroup_comm]
        exact typed.1
  exact ⟨not_isVoidCall scalar.1.ne_void, not_isVoidCall scalar.2.ne_void⟩

theorem returns_of_typed_unary {op : UnaryOp} {operand : Expr}
    (typed : op.Typed base.resolved operand.resolved) :
    operand.isVoidCall = false := by
  have scalar : operand.resolved.IsScalar := by
    cases op with
    | negate => exact .inl (by simp [ValueType.isInteger, typed.1])
    | logicalNot => exact .inr typed.1
    | _ => exact .inl typed.1
  exact not_isVoidCall scalar.ne_void

/-- An increment works at the type of its operand throughout. -/
theorem sizeDisciplined_generateIncrement {op : UnaryOp} {operand : Expr}
    (same : base.resolved = operand.resolved) {code : ExprCode}
    (type : code.result.valueType = operand.resolved) :
    SizeDisciplined (generateIncrement base op code).operations ↔
      SizeDisciplined code.operations := by
  unfold generateIncrement
  dsimp only
  split <;> split <;>
    simp [Operation.SizeDisciplined, BinaryOp.isRelational, BinaryOp.isShift,
      Operand.FitsWidth, type, same]

/-- The widths of the operation of a binary operator. -/
theorem sizeDisciplined_binary_iff
    (typed : op.Typed base.resolved left.resolved right.resolved)
    (leftTemp rightTemp : Nat) (dst : Operand)
    (hinted : dst.valueType ≠ base.resolved → base.resolved ≠ .void) :
    Operation.SizeDisciplined ⟨.binary op, dst,
        (generateExpression left leftTemp).result,
        (generateExpression right rightTemp).result⟩ ↔
      if op.isRelational then
        True
      else if op.isShift then
        left.isVoidCall = false ∧
          left.resolved.widthBits = dst.valueType.widthBits
      else
        left.FitsWidth dst.valueType ∧ right.FitsWidth dst.valueType := by
  unfold Operation.SizeDisciplined
  dsimp only
  cases shift : op.isShift with
  | true =>
      have relational : op.isRelational = false := by
        cases op <;> first | rfl | cases shift
      have result : base.resolved = left.resolved := by
        have logical : op.isLogical = false := by
          cases op <;> first | rfl | cases shift
        simpa [BinaryOp.Typed, logical, shift] using typed
      simp only [relational, Bool.false_eq_true, if_false, if_true]
      cases void : left.isVoidCall with
      | true =>
          -- a missing operand has the width of an unresolved type
          have leftVoid := resolved_of_isVoidCall void
          have own : dst.valueType = .void := by
            by_contra other
            rw [result, leftVoid] at hinted
            exact hinted other rfl
          rw [generateExpression_result_of_isVoidCall void, own]
          simp [Operand.valueType, ValueType.widthBits]
      | false =>
          rw [(generateExpression_result void leftTemp).1]
          simp
  | false =>
      obtain ⟨leftReturns, rightReturns⟩ := returns_of_typed shift typed
      cases relational : op.isRelational with
      | true =>
          have logical : op.isLogical = false := by
            cases op <;> first | rfl | cases relational
          have same : left.resolved = right.resolved := by
            have rule := typed
            simp only [BinaryOp.Typed, logical, shift, relational,
              Bool.false_eq_true, if_false, if_true] at rule
            exact rule.2.1
          simp [(generateExpression_result leftReturns leftTemp).1,
            (generateExpression_result rightReturns rightTemp).1, same]
      | false =>
          simp only [Bool.false_eq_true, if_false]
          rw [fitsWidth_iff leftReturns, fitsWidth_iff rightReturns]

end Operations

theorem sizeDisciplined_generateArguments {arguments : List Expr}
    (each : ∀ argument ∈ arguments, ∀ start,
      SizeDisciplined (generateExpressionInto argument none start).operations ↔
        argument.WidthsAgree argument.resolved) (nextTemp : Nat) :
    SizeDisciplined (generateArguments arguments nextTemp).operations ↔
      Expr.ArgumentWidthsAgree arguments := by
  induction arguments generalizing nextTemp with
  | nil => simp [generateArguments, Expr.ArgumentWidthsAgree]
  | cons argument rest inductionHypothesis =>
      rw [List.forall_mem_cons] at each
      simp only [generateArguments, sizeDisciplined_append, Expr.ArgumentWidthsAgree,
        inductionHypothesis each.2, each.1]

/-- The operations that an expression is lowered to are size disciplined exactly
when the widths agree in the expression. -/
theorem sizeDisciplined_generateExpressionInto {s : Semantic} {value : Expr}
    (typed : value.Typed s) (hint : Option Operand)
    (hinted : hint ≠ none → value.resolved ≠ .void) (nextTemp : Nat) :
    SizeDisciplined (generateExpressionInto value hint nextTemp).operations ↔
      value.WidthsAgree (hintedType hint value.resolved) := by
  induction value using Expr.induction generalizing hint nextTemp with
  | binary base op left right leftHypothesis rightHypothesis =>
      obtain ⟨leftTyped, rightTyped, rule⟩ := typed
      simp only [generateExpressionInto, generateBinary, sizeDisciplined_append,
        sizeDisciplined_cons, sizeDisciplined_nil, and_true,
        leftHypothesis leftTyped none (by simp),
        rightHypothesis rightTyped none (by simp)]
      have own := sizeDisciplined_binary_iff rule nextTemp
        (generateExpressionInto left none nextTemp).nextTemp
        (destination hint base.resolved
          (generateExpressionInto right none
            (generateExpressionInto left none nextTemp).nextTemp).nextTemp).1
        (by
          rw [valueType_destination]
          cases hint with
          | none => exact fun differ => absurd rfl differ
          | some hint => exact fun _ => hinted (by simp))
      rw [valueType_destination] at own
      simp only [generateExpression] at own
      rw [own]
      simp only [Expr.WidthsAgree, hintedType_none, and_assoc]
      rfl
  | unary base op operand operandHypothesis =>
      obtain ⟨operandTyped, rule, -⟩ := typed
      have agree := operandHypothesis operandTyped none (by simp) nextTemp
      rw [hintedType_none] at agree
      have returns := returns_of_typed_unary rule
      cases increment : op.isIncrementOrDecrement with
      | true =>
          have same : base.resolved = operand.resolved := by
            cases op <;> first | exact rule.2 | cases increment
          simp only [generateExpressionInto, generateUnary, increment, if_true,
            Expr.WidthsAgree, true_or, and_true]
          exact (sizeDisciplined_generateIncrement same
            (generateExpression_result returns nextTemp).1).trans agree
      | false =>
          simp only [generateExpressionInto, generateUnary, increment,
            Bool.false_eq_true, if_false, sizeDisciplined_append, agree,
            sizeDisciplined_cons, sizeDisciplined_nil, and_true, Expr.WidthsAgree,
            false_or, and_congr_right_iff]
          intro _
          have fits := fitsWidth_iff returns nextTemp
            (destination hint base.resolved
              (generateExpressionInto operand none nextTemp).nextTemp).1
          rw [valueType_destination] at fits
          refine Iff.trans ?_ fits
          cases op <;> first | rfl | cases increment
  | cast base target operand operandHypothesis =>
      simp [generateExpressionInto, generateCast, Operation.SizeDisciplined,
        operandHypothesis typed.1 none (by simp), Expr.WidthsAgree]
  | literal base tokenType text =>
      simp [generateExpressionInto, Expr.WidthsAgree]
  | identifier base name depth id symbol =>
      simp [generateExpressionInto, Expr.WidthsAgree]
  | funcCall base callee linkName arguments argumentsHypothesis =>
      obtain ⟨func, -, -, -, argumentsTyped⟩ := typed
      have agree := sizeDisciplined_generateArguments
        (fun argument inArguments start => argumentsHypothesis argument inArguments
          (argumentsTyped.typed argument inArguments) none (by simp) start) nextTemp
      simp [generateExpressionInto, generateCall, agree, Expr.WidthsAgree,
        Operation.SizeDisciplined]

/-! ## Statements -/

theorem sizeDisciplined_generateExpression {s : Semantic} {value : Expr}
    (typed : value.Typed s) (nextTemp : Nat) :
    SizeDisciplined (generateExpression value nextTemp).operations ↔
      value.WidthsAgree value.resolved :=
  sizeDisciplined_generateExpressionInto typed none (by simp) nextTemp

theorem sizeDisciplined_generateAssignment {s : Semantic} {value : Expr}
    (typed : value.Typed s) (dst : Operand)
    (widens : value.resolved.Widens dst.valueType) (nextTemp : Nat) :
    SizeDisciplined (generateAssignment dst value nextTemp).1 ↔
      value.WidthsAgree dst.valueType := by
  have returns := (ValueType.isScalar_of_isSameGroup widens.1).ne_void
  have hinted := sizeDisciplined_generateExpressionInto typed (some dst)
    (fun _ => returns) nextTemp
  unfold generateAssignment
  dsimp only
  split <;> simp [hinted, Operation.SizeDisciplined, hintedType]

@[simp]
theorem functions_skipLabels (program : IrProgram) (count : Nat) :
    (program.skipLabels count).functions = program.functions := rfl

/-- The functions that were lowered so far are size disciplined. -/
def IrProgram.SizeDisciplined (program : IrProgram) : Prop :=
  ∀ function ∈ program.functions, Ir.SizeDisciplined function.operations

@[simp]
theorem sizeDisciplined_skipLabels (program : IrProgram) (count : Nat) :
    (program.skipLabels count).SizeDisciplined ↔ program.SizeDisciplined :=
  Iff.rfl

/-- The code of a statement: its own operations are disciplined when its parts
are, and the functions that it adds when those of its functions are. -/
structure StmtWidths (stmt : Stmt) : Prop where
  operations : ∀ nextTemp program,
    SizeDisciplined (generateStatement stmt nextTemp program).operations ↔
      ∀ part ∈ stmt.parts, part.WidthsAgree
  functions : ∀ nextTemp program,
    (generateStatement stmt nextTemp program).program.SizeDisciplined ↔
      program.SizeDisciplined ∧ ∀ function ∈ stmt.functions,
        ∀ part ∈ function.2.parts, part.WidthsAgree

/-- A statement without a statement inside. -/
theorem stmtWidths_of_elementary {stmt : Stmt} (parts : stmt.parts = [stmt])
    (functions : stmt.functions = [])
    (unchanged : ∀ nextTemp program,
      (generateStatement stmt nextTemp program).program = program)
    (operations : ∀ nextTemp program,
      SizeDisciplined (generateStatement stmt nextTemp program).operations ↔
        stmt.WidthsAgree) : StmtWidths stmt := by
  refine ⟨fun nextTemp program => ?_, fun nextTemp program => ?_⟩
  · rw [operations, parts]
    simp
  · rw [unchanged, functions]
    simp

theorem blockWidths {statements : List Stmt}
    (each : ∀ stmt ∈ statements, StmtWidths stmt) (nextTemp : Nat)
    (program : IrProgram) :
    (SizeDisciplined (generateBlock statements nextTemp program).operations ↔
      ∀ part ∈ Stmt.partsAll statements, part.WidthsAgree) ∧
    ((generateBlock statements nextTemp program).program.SizeDisciplined ↔
      program.SizeDisciplined ∧ ∀ function ∈ Stmt.functionsAll statements,
        ∀ part ∈ function.2.parts, part.WidthsAgree) := by
  induction statements generalizing nextTemp program with
  | nil => simp [generateBlock, Stmt.partsAll, Stmt.functionsAll]
  | cons stmt rest inductionHypothesis =>
      rw [List.forall_mem_cons] at each
      obtain ⟨own, others⟩ := each
      have restWidths := inductionHypothesis others
        (generateStatement stmt nextTemp program).nextTemp
        (generateStatement stmt nextTemp program).program
      constructor
      · simp only [generateBlock, sizeDisciplined_append, own.operations,
          restWidths.1, Stmt.partsAll, List.forall_mem_append]
      · simp only [generateBlock, restWidths.2, own.functions, Stmt.functionsAll,
          List.forall_mem_append, and_assoc]

theorem sizeDisciplined_finishFunction {func : FuncDecl} {code : StmtCode}
    {program : IrProgram} :
    (finishFunction func (some code) program).SizeDisciplined ↔
      code.program.SizeDisciplined ∧ SizeDisciplined code.operations := by
  have ret : Operation.SizeDisciplined { opcode := .ret } := trivial
  unfold finishFunction IrProgram.SizeDisciplined
  dsimp only [Option.map_some, Option.getD_some]
  split <;> simp [ret, or_imp, forall_and]

/-- The widths of every typed statement. -/
theorem stmtWidths {stmt : Stmt} {func : Option FuncDecl}
    (typed : stmt.Typed func) : StmtWidths stmt := by
  induction stmt using Stmt.induction generalizing func with
  | varDecl decl =>
      refine stmtWidths_of_elementary rfl rfl (fun _ _ => rfl) fun nextTemp _ => ?_
      simp only [generateStatement, generateVarDecl, Stmt.WidthsAgree]
      cases initialised : decl.value with
      | none => simp
      | some value =>
          obtain ⟨s, -, valueTyped, -, widens⟩ := typed.2 value initialised
          simpa using sizeDisciplined_generateAssignment valueTyped
            (VarDecl.destination decl) widens nextTemp
  | varAssign assign =>
      obtain ⟨s, sym, -, valueTyped, -, -, -, -, widens⟩ := typed
      refine stmtWidths_of_elementary rfl rfl (fun _ _ => rfl) fun nextTemp _ => ?_
      exact sizeDisciplined_generateAssignment valueTyped
        (VarAssign.destination assign) widens nextTemp
  | block base statements statementsHypothesis =>
      have all := (Stmt.typedAll_iff func statements).mp typed
      have widths := blockWidths fun stmt inBlock =>
        statementsHypothesis stmt inBlock (all stmt inBlock)
      refine ⟨fun nextTemp program => ?_, fun nextTemp program => ?_⟩
      · simp only [generateStatement, (widths nextTemp program).1, Stmt.parts,
          List.forall_mem_cons, Stmt.WidthsAgree, true_and]
      · simp only [generateStatement, (widths nextTemp program).2, Stmt.functions]
  | ifStmt base condition branchThen branchElse thenHypothesis elseHypothesis =>
      obtain ⟨⟨⟨s, -, conditionTyped⟩, -⟩, thenTyped, elseTyped⟩ := typed
      have thenWidths := thenHypothesis thenTyped
      have conditionWidths := sizeDisciplined_generateExpression conditionTyped
      cases branchElse with
      | none =>
          refine ⟨fun nextTemp program => ?_, fun nextTemp program => ?_⟩
          · simp [generateStatement, conditionWidths, thenWidths.operations,
              Stmt.parts, Stmt.partsOption, Stmt.WidthsAgree,
              Operation.SizeDisciplined, jmpCond, labelOperation]
          · simp [generateStatement, thenWidths.functions, Stmt.functions,
              Stmt.functionsOption]
      | some stmt =>
          have elseWidths := elseHypothesis stmt rfl elseTyped
          refine ⟨fun nextTemp program => ?_, fun nextTemp program => ?_⟩
          · simp [generateStatement, conditionWidths, thenWidths.operations,
              elseWidths.operations, Stmt.parts, Stmt.partsOption,
              Stmt.WidthsAgree, Operation.SizeDisciplined, jmpCond, jmpIncond,
              labelOperation, or_imp, forall_and]
          · simp [generateStatement, thenWidths.functions, elseWidths.functions,
              Stmt.functions, Stmt.functionsOption, and_assoc, or_imp, forall_and]
  | whileStmt base condition branchDo doHypothesis =>
      obtain ⟨⟨⟨s, -, conditionTyped⟩, -⟩, doTyped⟩ := typed
      have doWidths := doHypothesis doTyped
      have conditionWidths := sizeDisciplined_generateExpression conditionTyped
      refine ⟨fun nextTemp program => ?_, fun nextTemp program => ?_⟩
      · simp [generateStatement, conditionWidths, doWidths.operations, Stmt.parts,
          Stmt.WidthsAgree, Operation.SizeDisciplined, jmpCond, jmpIncond,
          labelOperation]
      · simp [generateStatement, doWidths.functions, Stmt.functions]
  | funcDecl declared body bodyHypothesis =>
      cases body with
      | none =>
          refine ⟨fun nextTemp program => ?_, fun nextTemp program => ?_⟩
          · simp [generateStatement, Stmt.parts, Stmt.WidthsAgree]
          · simp [generateStatement, finishFunction, IrProgram.SizeDisciplined,
              Stmt.functions, Stmt.bodyOf, Stmt.functionsOption, or_imp, forall_and]
      | some body =>
          have bodyWidths := bodyHypothesis body rfl typed.2.1
          refine ⟨fun nextTemp program => ?_, fun nextTemp program => ?_⟩
          · simp [generateStatement, Stmt.parts, Stmt.WidthsAgree]
          simp only [generateStatement, sizeDisciplined_finishFunction,
            bodyWidths.operations, bodyWidths.functions, Stmt.functions,
            Stmt.bodyOf, Stmt.functionsOption, List.forall_mem_append,
            List.forall_mem_singleton, and_assoc]
          rw [and_comm (a := ∀ part ∈ body.parts, part.WidthsAgree)]
  | returnStmt base value =>
      obtain ⟨current, -, returns⟩ := typed
      refine stmtWidths_of_elementary rfl rfl (fun _ _ => rfl) fun nextTemp _ => ?_
      cases value with
      | none =>
          simp [generateStatement, generateReturn, Stmt.WidthsAgree,
            Operation.SizeDisciplined]
      | some result =>
          obtain ⟨⟨s, -, resultTyped⟩, -⟩ := returns
          simp [generateStatement, generateReturn, Stmt.WidthsAgree,
            Operation.SizeDisciplined, sizeDisciplined_generateExpression resultTyped]
  | expression expr =>
      obtain ⟨s, -, exprTyped⟩ := typed
      refine stmtWidths_of_elementary rfl rfl (fun _ _ => rfl) fun nextTemp _ => ?_
      exact sizeDisciplined_generateExpression exprTyped nextTemp

/-- The generated program is size disciplined exactly when the widths agree in
the analysed one. -/
theorem sizeDisciplined_irGenerate_iff {program : Program} {filename : String}
    {options : CompilerOptions} {modules : List Module}
    {analysis : ProgramAnalysis}
    (accepted : Accepted program filename options modules analysis) :
    (irGenerate analysis.program).program.SizeDisciplined ↔
      analysis.program.WidthsAgree := by
  have typed := (Stmt.typedAll_iff none analysis.program.statements).mp
    accepted.isAnalyzed.typed
  have widths := (blockWidths (fun stmt inProgram =>
    stmtWidths (typed stmt inProgram)) 0 {}).2
  simpa [IrProgram.SizeDisciplined, Program.WidthsAgree, Program.functions]
    using widths

end Sulfur.Ir
