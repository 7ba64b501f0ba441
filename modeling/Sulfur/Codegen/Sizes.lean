import Sulfur.Codegen.Arithmetic
import Sulfur.Codegen.Linkage
import Sulfur.Codegen.Printed
import Sulfur.Codegen.Process
import Sulfur.Ir.Parts
import Sulfur.Ir.Width

/-!
# Operand sizes of instructions

An emitter names the registers of an operation by the size of one of its operands and
prints each operand that is in memory with a size of its own.  Where the widths of the
operands agree, a register stands beside memory of its own size only.
-/

namespace Sulfur.Ir

/-! ## Comparisons -/

/-- A comparison leaves a value of type `bool`. -/
def Operation.ComparesIntoBool (operation : Operation) : Prop :=
  ∀ op, operation.opcode = .binary op → op.isRelational → operation.operand1.valueType = .bool

/-- Every comparison of a list leaves a value of type `bool`. -/
def CompareIntoBool (operations : List Operation) : Prop :=
  ∀ operation ∈ operations, operation.ComparesIntoBool

theorem Operation.ComparesIntoBool.of_ne {operation : Operation}
    (other : ∀ op, operation.opcode ≠ .binary op) : operation.ComparesIntoBool :=
  fun op isBinary _ => absurd isBinary (other op)

@[simp]
theorem compareIntoBool_nil : CompareIntoBool [] :=
  List.forall_mem_nil _

@[simp]
theorem compareIntoBool_append (first second : List Operation) :
    CompareIntoBool (first ++ second) ↔ CompareIntoBool first ∧ CompareIntoBool second :=
  List.forall_mem_append

@[simp]
theorem compareIntoBool_cons (operation : Operation) (rest : List Operation) :
    CompareIntoBool (operation :: rest) ↔
      operation.ComparesIntoBool ∧ CompareIntoBool rest :=
  List.forall_mem_cons

theorem compareIntoBool_paramOperations (arguments : List Operand) :
    CompareIntoBool (paramOperations arguments) := by
  intro operation inParams
  rcases List.mem_map.mp inParams with ⟨argument, -, rfl⟩
  exact .of_ne (by simp)

theorem compareIntoBool_generateIncrement {base : Base} {op : UnaryOp} {code : ExprCode}
    (compares : CompareIntoBool code.operations) :
    CompareIntoBool (generateIncrement base op code).operations := by
  have update (opcode : BinaryOp) (relational : opcode.isRelational = false)
      (dst src1 src2 : Operand) :
      Operation.ComparesIntoBool ⟨.binary opcode, dst, src1, src2⟩ := by
    rintro op ⟨⟩ isRelational
    rw [relational] at isRelational
    cases isRelational
  have assign (dst src : Operand) :
      Operation.ComparesIntoBool ⟨.assign, dst, src, .none⟩ := .of_ne (by simp)
  unfold generateIncrement
  dsimp only
  split <;> split <;> simp [compares, update .add rfl, update .sub rfl, assign]

theorem compareIntoBool_generateArguments {arguments : List Expr}
    (each : ∀ argument ∈ arguments, ∀ nextTemp,
      CompareIntoBool (generateExpressionInto argument none nextTemp).operations)
    (nextTemp : Nat) : CompareIntoBool (generateArguments arguments nextTemp).operations := by
  induction arguments generalizing nextTemp with
  | nil => exact compareIntoBool_nil
  | cons argument rest inductionHypothesis =>
      rw [List.forall_mem_cons] at each
      rw [generateArguments, compareIntoBool_append]
      exact ⟨each.1 _, inductionHypothesis each.2 _⟩

theorem eq_bool_of_typed_relational {op : BinaryOp} {result left right : ValueType}
    (typed : op.Typed result left right) (relational : op.isRelational) : result = .bool := by
  cases op <;>
    simp_all [BinaryOp.Typed, BinaryOp.isRelational, BinaryOp.isLogical, BinaryOp.isShift]

/-- The comparisons of a typed expression leave values of type `bool`, if a destination
for a `bool` is one. -/
theorem compareIntoBool_generateExpressionInto {s : Semantic} {value : Expr}
    (typed : value.Typed s) (hint : Option Operand)
    (hinted : value.resolved = .bool → hintedType hint value.resolved = .bool)
    (nextTemp : Nat) :
    CompareIntoBool (generateExpressionInto value hint nextTemp).operations := by
  induction value using Expr.induction generalizing hint nextTemp with
  | binary base op left right leftHypothesis rightHypothesis =>
      rcases typed with ⟨leftTyped, rightTyped, rule⟩
      simp only [generateExpressionInto, generateBinary, compareIntoBool_append,
        compareIntoBool_cons, compareIntoBool_nil, and_true]
      refine ⟨⟨leftHypothesis leftTyped none id _, rightHypothesis rightTyped none id _⟩, ?_⟩
      rintro op ⟨⟩ relational
      have own := eq_bool_of_typed_relational rule relational
      rw [valueType_destination]
      exact hinted own
  | unary base op operand operandHypothesis =>
      rcases typed with ⟨operandTyped, -, -⟩
      have compares := operandHypothesis operandTyped none id nextTemp
      cases increment : op.isIncrementOrDecrement with
      | true =>
          simp only [generateExpressionInto, generateUnary, increment, if_true]
          exact compareIntoBool_generateIncrement compares
      | false =>
          simp only [generateExpressionInto, generateUnary, increment, Bool.false_eq_true,
            if_false, compareIntoBool_append, compareIntoBool_cons, compareIntoBool_nil,
            and_true]
          refine ⟨compares, .of_ne fun other => ?_⟩
          cases op <;> simp [unaryOpcode] at increment ⊢
  | cast base target operand operandHypothesis =>
      simp only [generateExpressionInto, generateCast, compareIntoBool_append,
        compareIntoBool_cons, compareIntoBool_nil, and_true]
      exact ⟨operandHypothesis typed.1 none id _, .of_ne (by simp)⟩
  | literal => exact compareIntoBool_nil
  | identifier => exact compareIntoBool_nil
  | funcCall base callee linkName arguments argumentsHypothesis =>
      rcases typed with ⟨func, -, -, -, argumentsTyped⟩
      simp only [generateExpressionInto, generateCall, compareIntoBool_append,
        compareIntoBool_cons, compareIntoBool_nil, and_true]
      refine ⟨⟨?_, compareIntoBool_paramOperations _⟩, .of_ne (by simp)⟩
      exact compareIntoBool_generateArguments
        (fun argument inArguments start => argumentsHypothesis argument inArguments
          (argumentsTyped.typed argument inArguments) none id start) nextTemp

theorem compareIntoBool_generateAssignment {s : Semantic} {value : Expr}
    (typed : value.Typed s) (dst : Operand) (widens : value.resolved.Widens dst.valueType)
    (nextTemp : Nat) : CompareIntoBool (generateAssignment dst value nextTemp).1 := by
  have same : value.resolved = .bool → hintedType (some dst) value.resolved = .bool := by
    intro bool
    change dst.valueType = .bool
    have group := widens.1
    rw [bool] at group
    cases type : dst.valueType <;> rw [type] at group <;> first | rfl | cases group
  have code := compareIntoBool_generateExpressionInto typed (some dst) same nextTemp
  unfold generateAssignment
  dsimp only
  split
  · exact code
  · rw [compareIntoBool_append, compareIntoBool_cons]
    exact ⟨code, .of_ne (by simp), compareIntoBool_nil⟩

theorem compareIntoBool_ownOperations {part : Stmt} {func : Option FuncDecl}
    (typed : part.Typed func) (nextTemp label : Nat) :
    CompareIntoBool (ownOperations part nextTemp label) := by
  cases part with
  | varDecl decl =>
      rw [ownOperations, generateVarDecl]
      cases initialised : decl.value with
      | none => exact compareIntoBool_nil
      | some value =>
          rcases typed.2 value initialised with ⟨s, -, valueTyped, -, widens⟩
          exact compareIntoBool_generateAssignment valueTyped (VarDecl.destination decl)
            widens nextTemp
  | varAssign assign =>
      rcases typed with ⟨s, sym, -, valueTyped, -, -, -, -, widens⟩
      exact compareIntoBool_generateAssignment valueTyped (VarAssign.destination assign) widens
        nextTemp
  | ifStmt base condition branchThen branchElse =>
      rcases typed with ⟨⟨⟨s, -, conditionTyped⟩, -⟩, -, -⟩
      rw [ownOperations, compareIntoBool_append, compareIntoBool_cons]
      exact ⟨compareIntoBool_generateExpressionInto conditionTyped none id _,
        .of_ne (by simp [jmpCond]), compareIntoBool_nil⟩
  | whileStmt base condition branchDo =>
      rcases typed with ⟨⟨⟨s, -, conditionTyped⟩, -⟩, -⟩
      rw [ownOperations, compareIntoBool_append, compareIntoBool_cons]
      exact ⟨compareIntoBool_generateExpressionInto conditionTyped none id _,
        .of_ne (by simp [jmpCond]), compareIntoBool_nil⟩
  | returnStmt base value =>
      rcases typed with ⟨current, -, returns⟩
      have ret (operand : Operand) :
          Operation.ComparesIntoBool { opcode := .ret, operand1 := operand } := .of_ne (by simp)
      cases value with
      | none => simp [ownOperations, generateReturn, ret]
      | some result =>
          rcases returns with ⟨⟨s, -, resultTyped⟩, -⟩
          have code := compareIntoBool_generateExpressionInto resultTyped none id nextTemp
          simp only [ownOperations, generateReturn, compareIntoBool_append,
            compareIntoBool_cons]
          exact ⟨code, ret _, compareIntoBool_nil⟩
  | expression expr =>
      rcases typed with ⟨s, -, exprTyped⟩
      exact compareIntoBool_generateExpressionInto exprTyped none id _
  | block => exact compareIntoBool_nil
  | funcDecl => exact compareIntoBool_nil

theorem compareIntoBool_generateStatement {stmt : Stmt} {func : Option FuncDecl}
    (typed : stmt.Typed func) (nextTemp : Nat) (program : IrProgram) :
    CompareIntoBool (generateStatement stmt nextTemp program).operations := by
  intro operation inCode
  rcases fromParts_generateStatement stmt nextTemp program operation inCode with
    ⟨label, rfl | rfl⟩ | ⟨part, isPart, start, label, inPart⟩
  · exact .of_ne (by simp [jmpIncond])
  · exact .of_ne (by simp [labelOperation])
  · exact compareIntoBool_ownOperations (typed.parts part isPart) start label operation inPart

/-- The comparisons of an accepted program leave values of type `bool`. -/
theorem compareIntoBool_irGenerate {program : Program} {filename : String}
    {options : CompilerOptions} {modules : List Module} {analysis : ProgramAnalysis}
    (accepted : Accepted program filename options modules analysis) :
    ∀ function ∈ (irGenerate analysis.program).program.functions,
      CompareIntoBool function.operations := by
  intro function inProgram
  rcases Codegen.exists_source (irGenerate_lowers analysis.program) function inProgram with
    ⟨⟨func, body⟩, isDeclared, start, rfl⟩
  cases body with
  | none => exact compareIntoBool_nil
  | some body =>
      have inFunctions := (analysis.program.mem_functions_iff func body).mpr isDeclared
      have typed := Stmt.Typed.functions (.block {} analysis.program.statements)
        accepted.isAnalyzed.typed (func, body) inFunctions
      have code := compareIntoBool_generateStatement typed.2.1 0 start
      simp only [Option.map_some, loweredFunction]
      split
      · rw [compareIntoBool_append, compareIntoBool_cons]
        exact ⟨code, .of_ne (by simp), compareIntoBool_nil⟩
      · exact code

end Sulfur.Ir

namespace Sulfur.Codegen

open Ir

/-! ## Instructions -/

/-- The moves that extend a smaller operand to the size of their register. -/
def Mnemonic.isExtension : Mnemonic → Bool
  | .movsx | .movsxd | .movzx => true
  | _ => false

/-- A register and an operand in memory have one size. -/
def Argument.Pairs : Argument → Argument → Prop
  | .register reg, .memory size _ => reg.size = size
  | _, _ => True

/-- An instruction that is no extending move pairs registers with memory of their own
size. -/
def Item.PairsSizes : Item → Prop
  | .label _ => True
  | .instruction instr =>
      instr.mnemonic.isExtension ∨
        ∀ first ∈ instr.arguments, ∀ second ∈ instr.arguments, first.Pairs second

/-- No item pairs a register with memory of another size. -/
def PairsSizes (items : List Item) : Prop :=
  ∀ item ∈ items, item.PairsSizes

@[simp]
theorem pairsSizes_nil : PairsSizes [] :=
  List.forall_mem_nil _

@[simp]
theorem pairsSizes_cons (item : Item) (rest : List Item) :
    PairsSizes (item :: rest) ↔ item.PairsSizes ∧ PairsSizes rest :=
  List.forall_mem_cons

@[simp]
theorem pairsSizes_append (first second : List Item) :
    PairsSizes (first ++ second) ↔ PairsSizes first ∧ PairsSizes second :=
  List.forall_mem_append

@[simp]
theorem pairsSizes_label (id : Nat) : (Item.label id).PairsSizes :=
  trivial

/-- An operand is in memory in the size only. -/
def Argument.HasSize (size : SizePrefix) : Argument → Prop
  | .memory own _ => own = size
  | _ => True

theorem pairs_self (arg : Argument) : arg.Pairs arg := by
  cases arg <;> trivial

@[simp]
theorem pairsSizes_emit_nil (mnemonic : Mnemonic) : (emit mnemonic []).PairsSizes :=
  .inr (List.forall_mem_nil _)

@[simp]
theorem pairsSizes_emit_one (mnemonic : Mnemonic) (arg : Argument) :
    (emit mnemonic [arg]).PairsSizes := by
  right
  simp [pairs_self]

/-- Two operands stand together when neither is a register beside memory of another
size. -/
theorem pairsSizes_emit_two (mnemonic : Mnemonic) {first second : Argument}
    (forth : first.Pairs second) (back : second.Pairs first) :
    (emit mnemonic [first, second]).PairsSizes := by
  right
  simp [pairs_self, forth, back]

@[simp]
theorem pairsSizes_emit_registers (mnemonic : Mnemonic) (first second : Register) :
    (emit mnemonic [.register first, .register second]).PairsSizes :=
  pairsSizes_emit_two mnemonic trivial trivial

@[simp]
theorem pairsSizes_emit_immediate (mnemonic : Mnemonic) (arg : Argument) (value : String) :
    (emit mnemonic [arg, .immediate value]).PairsSizes := by
  apply pairsSizes_emit_two mnemonic
  · cases arg <;> trivial
  · trivial

theorem pairsSizes_emit_register (mnemonic : Mnemonic) {reg : Register} {arg : Argument}
    (sized : arg.HasSize reg.size) : (emit mnemonic [.register reg, arg]).PairsSizes := by
  apply pairsSizes_emit_two mnemonic
  · cases arg with
    | memory => exact sized.symm
    | _ => trivial
  · cases arg <;> trivial

theorem pairsSizes_emit_into (mnemonic : Mnemonic) {reg : Register} {arg : Argument}
    (sized : arg.HasSize reg.size) : (emit mnemonic [arg, .register reg]).PairsSizes := by
  apply pairsSizes_emit_two mnemonic
  · cases arg <;> trivial
  · cases arg with
    | memory => exact sized.symm
    | _ => trivial

theorem pairsSizes_emit_extension {mnemonic : Mnemonic} (extends_ : mnemonic.isExtension)
    (arguments : List Argument) : (emit mnemonic arguments).PairsSizes :=
  .inl extends_

/-! ## Operands -/

@[simp]
theorem size_registerFromSize (size : Nat) :
    (registerFromSize size).size = sizePrefixFromSize size := by
  unfold registerFromSize sizePrefixFromSize
  split_ifs <;> rfl

theorem size_of_paramRegister {index size : Nat} {reg : Register}
    (found : paramRegister index size = some reg) : reg.size = sizePrefixFromSize size := by
  rcases Option.bind_eq_some_iff.mp found with ⟨views, isViews, isReg⟩
  have inTable := List.mem_of_getElem? isViews
  simp only [paramRegisters, List.mem_cons, List.not_mem_nil, or_false] at inTable
  split at isReg
  · rcases inTable with rfl | rfl | rfl | rfl | rfl | rfl <;> cases isReg <;> rfl
  · rcases inTable with rfl | rfl | rfl | rfl | rfl | rfl <;> cases isReg <;> rfl
  · rcases inTable with rfl | rfl | rfl | rfl | rfl | rfl <;> cases isReg <;> rfl
  · rcases inTable with rfl | rfl | rfl | rfl | rfl | rfl <;> cases isReg <;> rfl
  · cases isReg

section Emitters

variable {map : StackMap} {operation : Operation} {items : List Item}

theorem hasSize_of_fits {operand : Operand} {type : ValueType} {arg : Argument}
    (formats : formatOperand map operand = some arg)
    (fits : operand.inMemory → operand.valueType.widthBits = type.widthBits) :
    arg.HasSize (sizePrefixFromSize type.widthBytes) := by
  have sized (own : ValueType) (offset : Int) (same : own.widthBits = type.widthBits) :
      (memoryArgument own offset).HasSize (sizePrefixFromSize type.widthBytes) := by
    change sizePrefixFromSize own.widthBytes = _
    rw [ValueType.widthBytes, same, ← ValueType.widthBytes]
  cases operand with
  | «variable» own name =>
      rcases Option.map_eq_some_iff.mp formats with ⟨offset, -, rfl⟩
      exact sized own offset (fits rfl)
  | temporary own id =>
      rcases Option.map_eq_some_iff.mp formats with ⟨offset, -, rfl⟩
      exact sized own offset (fits rfl)
  | immediate | none | label | function =>
      cases formats
      trivial

/-- The format of an operand is in memory in the operand's own size. -/
theorem hasSize_formatOperand {operand : Operand} {arg : Argument}
    (formats : formatOperand map operand = some arg) :
    arg.HasSize (sizePrefixFromSize operand.valueType.widthBytes) :=
  hasSize_of_fits formats fun _ => rfl

theorem hasSize_of_isImmediate {operand : Operand} {arg : Argument} (size : SizePrefix)
    (isImmediate : operand.isImmediate) (formats : formatOperand map operand = some arg) :
    arg.HasSize size := by
  cases operand with
  | immediate type value =>
      cases formats
      trivial
  | _ => cases isImmediate

theorem pairsSizes_loadLargeImmediate {operand : Operand} (size : Nat) {format : Argument}
    (formats : formatOperand map operand = some format) :
    PairsSizes (loadLargeImmediate operand size format).1 := by
  unfold loadLargeImmediate
  split
  · cases formats
    split
    · exact pairsSizes_nil
    · split
      · exact pairsSizes_nil
      · exact (pairsSizes_cons _ _).mpr
          ⟨pairsSizes_emit_immediate .mov (.register .rcx) _, pairsSizes_nil⟩
  · exact pairsSizes_nil

theorem hasSize_loadLargeImmediate {operand : Operand} (size : Nat) {format : Argument}
    {own : SizePrefix} (sized : format.HasSize own) :
    (loadLargeImmediate operand size format).2.HasSize own := by
  unfold loadLargeImmediate
  split
  · split
    · exact sized
    · split
      · exact sized
      · trivial
  · exact sized

/-- A destination in memory stands beside a source that is not: an immediate, or the
register that a large one was loaded into. -/
theorem pairsSizes_inPlace (mnemonic : Mnemonic) {operand : Operand}
    (other : operand.inMemory = false) {size : Nat} {format dst : Argument}
    (formats : formatOperand map operand = some format)
    (sized : dst.HasSize (sizePrefixFromSize size)) :
    (emit mnemonic [dst, (loadLargeImmediate operand size format).2]).PairsSizes := by
  have empty : (emit mnemonic [dst, .empty]).PairsSizes := by
    apply pairsSizes_emit_two mnemonic
    · cases dst <;> trivial
    · trivial
  cases operand with
  | immediate type value =>
      cases formats
      unfold loadLargeImmediate
      dsimp only
      split
      · exact pairsSizes_emit_immediate _ _ _
      · rename_i large
        split
        · exact pairsSizes_emit_immediate _ _ _
        · apply pairsSizes_emit_into
          have whole : Register.rcx.size = sizePrefixFromSize size := by
            unfold sizePrefixFromSize
            rw [if_neg (by omega), if_neg (by omega), if_neg (by omega)]
            rfl
          rw [whole]
          exact sized
  | none | label | function =>
      cases formats
      exact empty
  | «variable» | temporary => cases other

/-! ## Operations -/

theorem pairsSizes_emitBinary {mnemonic : Mnemonic}
    (emitted : emitBinary mnemonic operation map = some items)
    (first : operation.operand2.FitsWidth operation.operand1)
    (second : operation.operand3.FitsWidth operation.operand1) : PairsSizes items := by
  rcases Option.bind_eq_some_iff.mp emitted with ⟨⟨src1, src2, dst⟩, formats, emitted⟩
  rcases formats_of_formatBinary formats with ⟨isFirst, isSecond, isDst⟩
  have load := pairsSizes_loadLargeImmediate operation.operand1.valueType.widthBytes isSecond
  have dstSized := hasSize_formatOperand isDst
  dsimp only at emitted
  split at emitted
  · rename_i inPlace
    cases emitted
    rw [pairsSizes_append, pairsSizes_cons]
    exact ⟨load, pairsSizes_inPlace mnemonic (by simpa using inPlace.2) isSecond dstSized,
      pairsSizes_nil⟩
  · cases emitted
    simp only [pairsSizes_append, pairsSizes_cons, pairsSizes_nil, and_true]
    rw [← size_registerFromSize] at dstSized
    refine ⟨load, pairsSizes_emit_register _ ?_, pairsSizes_emit_register _ ?_,
      pairsSizes_emit_into _ dstSized⟩
    · rw [size_registerFromSize]
      exact hasSize_of_fits isFirst first
    · rw [size_registerFromSize]
      exact hasSize_loadLargeImmediate _ (hasSize_of_fits isSecond second)

theorem pairsSizes_emitMult (emitted : emitMult operation map = some items)
    (first : operation.operand2.FitsWidth operation.operand1)
    (second : operation.operand3.FitsWidth operation.operand1) : PairsSizes items := by
  rcases Option.bind_eq_some_iff.mp emitted with ⟨⟨src1, src2, dst⟩, formats, emitted⟩
  rcases formats_of_formatBinary formats with ⟨isFirst, isSecond, isDst⟩
  have firstSized := hasSize_of_fits isFirst first
  have secondSized := hasSize_of_fits isSecond second
  have dstSized := hasSize_formatOperand isDst
  dsimp only at emitted
  split at emitted
  · rename_i byte
    cases emitted
    rw [byte] at firstSized secondSized dstSized
    simp only [List.cons_append, pairsSizes_cons, pairsSizes_append, pairsSizes_nil, and_true]
    refine ⟨pairsSizes_emit_register _ firstSized, ?_, pairsSizes_emit_into _ dstSized⟩
    split
    · simp only [pairsSizes_cons, pairsSizes_nil, pairsSizes_emit_one, and_true]
      exact pairsSizes_emit_register _ secondSized
    · simp only [pairsSizes_cons, pairsSizes_nil, pairsSizes_emit_one, and_true]
  · cases emitted
    simp only [pairsSizes_append, pairsSizes_cons, pairsSizes_nil, and_true]
    rw [← size_registerFromSize] at firstSized secondSized dstSized
    exact ⟨pairsSizes_loadLargeImmediate _ isSecond, pairsSizes_emit_register _ firstSized,
      pairsSizes_emit_register _ (hasSize_loadLargeImmediate _ secondSized),
      pairsSizes_emit_into _ dstSized⟩

theorem pairsSizes_emitDividendExtension (size : Nat) (isSigned : Bool) :
    PairsSizes (emitDividendExtension size isSigned) := by
  unfold emitDividendExtension
  split <;> first | exact pairsSizes_nil | (split <;> simp)

theorem pairsSizes_emitDiv (emitted : emitDiv operation map = some items)
    (first : operation.operand2.FitsWidth operation.operand1)
    (second : operation.operand3.FitsWidth operation.operand1) : PairsSizes items := by
  rcases Option.bind_eq_some_iff.mp emitted with ⟨⟨src1, src2, dst⟩, formats, ⟨⟩⟩
  rcases formats_of_formatBinary formats with ⟨isFirst, isSecond, isDst⟩
  have firstSized := hasSize_of_fits isFirst first
  have secondSized := hasSize_of_fits isSecond second
  have dstSized := hasSize_formatOperand isDst
  rw [← size_registerFromSize] at firstSized dstSized
  rw [← size_counterRegister] at secondSized
  simp only [List.cons_append, pairsSizes_cons, pairsSizes_append, pairsSizes_nil, and_true]
  refine ⟨pairsSizes_emit_register _ firstSized,
    ⟨pairsSizes_emitDividendExtension _ _, ?_⟩, pairsSizes_emit_into _ dstSized⟩
  split
  · simp only [pairsSizes_cons, pairsSizes_nil, pairsSizes_emit_one, and_true]
    exact pairsSizes_emit_register _ secondSized
  · simp only [pairsSizes_cons, pairsSizes_nil, pairsSizes_emit_one, and_true]

theorem pairsSizes_emitShift {mnemonic : Mnemonic}
    (emitted : emitShift mnemonic operation map = some items)
    (first : operation.operand2.FitsWidth operation.operand1) : PairsSizes items := by
  rcases Option.bind_eq_some_iff.mp emitted with ⟨⟨src1, src2, dst⟩, formats, ⟨⟩⟩
  rcases formats_of_formatBinary formats with ⟨isFirst, isSecond, isDst⟩
  have firstSized := hasSize_of_fits isFirst first
  have secondSized := hasSize_formatOperand isSecond
  have dstSized := hasSize_formatOperand isDst
  rw [← size_registerFromSize] at firstSized dstSized
  rw [← size_counterRegister] at secondSized
  simp only [List.cons_append, pairsSizes_cons, pairsSizes_append, pairsSizes_nil, and_true]
  refine ⟨pairsSizes_emit_register _ firstSized, ?_, pairsSizes_emit_into _ dstSized⟩
  split
  · rename_i isImmediate
    simp only [pairsSizes_cons, pairsSizes_nil, and_true]
    exact pairsSizes_emit_register _ (hasSize_of_isImmediate _ isImmediate isSecond)
  · simp only [pairsSizes_cons, pairsSizes_nil, pairsSizes_emit_registers, and_true]
    exact pairsSizes_emit_register _ secondSized

theorem pairsSizes_emitNotOn (opcode : Opcode) (target : Argument) :
    (emitNotOn opcode target).PairsSizes := by
  unfold emitNotOn
  split <;> simp

/-- An operation with one source, which works in place or in a register. -/
theorem pairsSizes_unary {src dst : Argument}
    (formats : formatUnary map operation = some (src, dst))
    (fits : operation.operand2.FitsWidth operation.operand1) (apply : Argument → Item)
    (each : ∀ target, (apply target).PairsSizes) :
    let reg := Argument.register (registerFromSize operation.operand1.valueType.widthBytes)
    PairsSizes [emit .mov [reg, src], apply reg, emit .mov [dst, reg]] := by
  rcases formats_of_formatUnary formats with ⟨isSource, isDst⟩
  have sourceSized := hasSize_of_fits isSource fits
  have dstSized := hasSize_formatOperand isDst
  rw [← size_registerFromSize] at sourceSized dstSized
  simp only [pairsSizes_cons, pairsSizes_nil, and_true, each, true_and]
  exact ⟨pairsSizes_emit_register _ sourceSized, pairsSizes_emit_into _ dstSized⟩

theorem pairsSizes_emitNeg (emitted : emitNeg operation map = some items)
    (fits : operation.operand2.FitsWidth operation.operand1) : PairsSizes items := by
  rcases Option.bind_eq_some_iff.mp emitted with ⟨⟨src, dst⟩, formats, emitted⟩
  dsimp only at emitted
  split at emitted
  · cases emitted
    simp
  · cases emitted
    exact pairsSizes_unary formats fits (fun target => emit .neg [target])
      fun target => pairsSizes_emit_one _ _

theorem pairsSizes_emitNot (emitted : emitNot operation map = some items)
    (fits : operation.operand2.FitsWidth operation.operand1) : PairsSizes items := by
  rcases Option.bind_eq_some_iff.mp emitted with ⟨⟨src, dst⟩, formats, emitted⟩
  dsimp only at emitted
  split at emitted
  · cases emitted
    simp [pairsSizes_emitNotOn]
  · cases emitted
    exact pairsSizes_unary formats fits (emitNotOn operation.opcode)
      (pairsSizes_emitNotOn operation.opcode)

/-- A conversion reads its operand in the operand's size and writes it in the
destination's; between the two stands an extending move, or a smaller register. -/
theorem pairsSizes_emitConvert {src dst : Argument}
    (isSource : formatOperand map operation.operand2 = some src)
    (isDst : formatOperand map operation.operand1 = some dst) :
    PairsSizes (emitConvert operation src dst) := by
  have sourceSized := hasSize_formatOperand isSource
  have dstSized := hasSize_formatOperand isDst
  have intoDst : (emit .mov [dst, .register (registerFromSize
      operation.operand1.valueType.widthBytes)]).PairsSizes := by
    rw [← size_registerFromSize] at dstSized
    exact pairsSizes_emit_into _ dstSized
  unfold emitConvert
  dsimp only
  split
  · rename_i same
    simp only [pairsSizes_cons, pairsSizes_nil, intoDst, and_true]
    apply pairsSizes_emit_register
    rw [size_registerFromSize]
    rcases same with isImmediate | same
    · exact hasSize_of_isImmediate _ isImmediate isSource
    · rw [← same]
      exact sourceSized
  · split
    · simp only [pairsSizes_cons, pairsSizes_nil, intoDst, and_true]
      split
      · exact pairsSizes_emit_extension rfl _
      · split
        · exact pairsSizes_emit_extension rfl _
        · split
          · rename_i four
            rw [four] at sourceSized
            exact pairsSizes_emit_register _ sourceSized
          · exact pairsSizes_emit_extension rfl _
    · simp only [pairsSizes_cons, pairsSizes_nil, intoDst, and_true]
      rw [← size_registerFromSize] at sourceSized
      exact pairsSizes_emit_register _ sourceSized

theorem pairsSizes_emitAssign (emitted : emitAssign operation map = some items) :
    PairsSizes items := by
  rcases Option.bind_eq_some_iff.mp emitted with ⟨⟨src, dst⟩, formats, emitted⟩
  rcases formats_of_formatUnary formats with ⟨isSource, isDst⟩
  dsimp only at emitted
  split at emitted
  · cases emitted
    exact pairsSizes_nil
  · cases emitted
    exact pairsSizes_emitConvert isSource isDst

theorem pairsSizes_emitCast (emitted : emitCast operation map = some items) :
    PairsSizes items := by
  rcases Option.bind_eq_some_iff.mp emitted with ⟨⟨src, dst⟩, formats, ⟨⟩⟩
  rcases formats_of_formatUnary formats with ⟨isSource, isDst⟩
  exact pairsSizes_emitConvert isSource isDst

theorem pairsSizes_emitRelational {op : BinaryOp}
    (emitted : emitRelational op operation map = some items)
    (same : operation.operand2.valueType.widthBits = operation.operand3.valueType.widthBits)
    (isBool : operation.operand1.valueType = .bool) : PairsSizes items := by
  rcases Option.bind_eq_some_iff.mp emitted with ⟨⟨src1, src2, dst⟩, formats, emitted⟩
  rcases Option.bind_eq_some_iff.mp emitted with ⟨set, -, ⟨⟩⟩
  rcases formats_of_formatBinary formats with ⟨isFirst, isSecond, isDst⟩
  have firstSized := hasSize_formatOperand isFirst
  have secondSized := hasSize_of_fits isSecond fun _ => same.symm
  have dstSized := hasSize_formatOperand isDst
  rw [← size_registerFromSize] at firstSized secondSized
  rw [isBool] at dstSized
  simp only [pairsSizes_append, pairsSizes_cons, pairsSizes_nil, pairsSizes_emit_one, and_true,
    true_and]
  exact ⟨pairsSizes_loadLargeImmediate _ isSecond, pairsSizes_emit_register _ firstSized,
    pairsSizes_emit_register _ (hasSize_loadLargeImmediate _ secondSized),
    pairsSizes_emit_into _ dstSized⟩

theorem pairsSizes_emitJmpCond (emitted : emitJmpCond operation map = some items) :
    PairsSizes items := by
  rcases Option.bind_eq_some_iff.mp emitted with ⟨cond, formats, ⟨⟩⟩
  have sized := hasSize_formatOperand formats
  rw [← size_registerFromSize] at sized
  simp only [pairsSizes_cons, pairsSizes_nil, pairsSizes_emit_one, pairsSizes_emit_immediate,
    and_true]
  exact pairsSizes_emit_register _ sized

theorem pairsSizes_emitReturn (emitted : emitReturn operation map = some items) :
    PairsSizes items := by
  unfold emitReturn at emitted
  dsimp only at emitted
  split at emitted
  · cases emitted
    simp
  · rcases Option.bind_eq_some_iff.mp emitted with ⟨src, formats, ⟨⟩⟩
    have sized := hasSize_formatOperand formats
    rw [← size_registerFromSize] at sized
    simp [pairsSizes_emit_register _ sized]

/-- The operations whose operand widths are those that the emitter relies on print no
register beside memory of another size. -/
theorem pairsSizes_emitOperation (disciplined : operation.SizeDisciplined)
    (compares : operation.ComparesIntoBool)
    (emitted : emitOperation operation map = some items) : PairsSizes items := by
  rcases operation with ⟨opcode, operand1, operand2, operand3⟩
  cases opcode with
  | binary op =>
      cases op with
      | add | sub | bitwiseAnd | bitwiseOr | bitwiseXor | logicalAnd | logicalOr =>
          exact pairsSizes_emitBinary emitted disciplined.1 disciplined.2
      | mul => exact pairsSizes_emitMult emitted disciplined.1 disciplined.2
      | div => exact pairsSizes_emitDiv emitted disciplined.1 disciplined.2
      | bitwiseLshift | bitwiseRshift =>
          exact pairsSizes_emitShift emitted fun _ => disciplined
      | relationalEqual | relationalNotEqual | relationalLess | relationalLessEqual
      | relationalGreater | relationalGreaterEqual =>
          exact pairsSizes_emitRelational emitted disciplined (compares _ rfl rfl)
  | negate => exact pairsSizes_emitNeg emitted disciplined
  | bitwiseNot | logicalNot => exact pairsSizes_emitNot emitted disciplined
  | assign => exact pairsSizes_emitAssign emitted
  | cast => exact pairsSizes_emitCast emitted
  | jmpCond => exact pairsSizes_emitJmpCond emitted
  | ret => exact pairsSizes_emitReturn emitted
  | label | jmpIncond =>
      cases emitted
      simp [emitLabel, emitJmpIncond]
  | call | param | invalid =>
      cases emitted
      exact pairsSizes_nil

/-! ## Calls and functions -/

theorem pairsSizes_emitStackArg {param : Operand}
    (emitted : emitStackArg map param = some items) : PairsSizes items := by
  rcases Option.bind_eq_some_iff.mp emitted with ⟨src, formats, ⟨⟩⟩
  have sized := hasSize_formatOperand formats
  simp only [pairsSizes_cons, pairsSizes_nil, pairsSizes_emit_one, and_true]
  split
  · rename_i whole
    apply pairsSizes_emit_register
    rcases whole with isImmediate | eight
    · exact hasSize_of_isImmediate _ isImmediate formats
    · rw [eight] at sized
      exact sized
  · split
    · rename_i four
      rw [four] at sized
      exact pairsSizes_emit_register _ sized
    · apply pairsSizes_emit_extension
      split <;> rfl

theorem pairsSizes_emitRegisterArg {index : Nat} {param : Operand}
    (emitted : emitRegisterArg map index param = some items) : PairsSizes items := by
  rcases Option.bind_eq_some_iff.mp emitted with ⟨src, formats, emitted⟩
  rcases Option.bind_eq_some_iff.mp emitted with ⟨reg, found, emitted⟩
  have size := size_of_paramRegister found
  split at emitted
  · cases emitted
    simp only [pairsSizes_cons, pairsSizes_nil, and_true]
    apply pairsSizes_emit_extension
    split <;> rfl
  · rename_i other
    cases emitted
    simp only [pairsSizes_cons, pairsSizes_nil, and_true]
    apply pairsSizes_emit_register
    rw [size]
    cases isImmediate : param.isImmediate with
    | true => exact hasSize_of_isImmediate _ isImmediate formats
    | false =>
        rw [if_neg fun small => other ⟨small, by simp [isImmediate]⟩]
        exact hasSize_formatOperand formats

theorem pairsSizes_emitAll {α : Type} {emitOne : α → Option (List Item)}
    (each : ∀ value items, emitOne value = some items → PairsSizes items) {values : List α}
    (emitted : emitAll emitOne values = some items) : PairsSizes items := by
  induction values generalizing items with
  | nil =>
      cases emitted
      exact pairsSizes_nil
  | cons value rest inductionHypothesis =>
      rcases Option.bind_eq_some_iff.mp emitted with ⟨first, isFirst, emitted⟩
      rcases Option.bind_eq_some_iff.mp emitted with ⟨others, isOthers, ⟨⟩⟩
      rw [pairsSizes_append]
      exact ⟨each value first isFirst, inductionHypothesis isOthers⟩

theorem pairsSizes_emitCall {params : List Operand} {call : Operation}
    (emitted : emitCall params call map = some items) : PairsSizes items := by
  rcases Option.bind_eq_some_iff.mp emitted with ⟨pushes, isPushes, emitted⟩
  rcases Option.bind_eq_some_iff.mp emitted with ⟨moves, isMoves, emitted⟩
  have pushesPair := pairsSizes_emitAll (fun _ _ => pairsSizes_emitStackArg) isPushes
  have movesPair := pairsSizes_emitAll (fun _ _ => pairsSizes_emitRegisterArg) isMoves
  have align (aligned : Prop) [Decidable aligned] (item : Item) (pairs : item.PairsSizes) :
      PairsSizes (if aligned then [item] else []) := by
    split <;> simp [pairs]
  have before (target : String) (release : List Item) (pairs : PairsSizes release) :
      PairsSizes ((if (params.length - 6) % 2 > 0 then
        [emit .sub [.register .rsp, .immediate "8"]] else []) ++ pushes ++ moves ++
        [emit .call [.symbol target]] ++ release) := by
    simp only [pairsSizes_append, pairsSizes_cons, pairsSizes_nil, pairsSizes_emit_one,
      and_true]
    exact ⟨⟨⟨align _ _ (pairsSizes_emit_immediate _ _ _), pushesPair⟩, movesPair⟩, pairs⟩
  dsimp only at emitted
  split at emitted
  · cases emitted
    exact before _ _ (align _ _ (pairsSizes_emit_immediate _ _ _))
  · rcases Option.bind_eq_some_iff.mp emitted with ⟨dst, formats, ⟨⟩⟩
    have sized := hasSize_formatOperand formats
    rw [← size_registerFromSize] at sized
    rw [pairsSizes_append, pairsSizes_cons]
    exact ⟨before _ _ (align _ _ (pairsSizes_emit_immediate _ _ _)),
      pairsSizes_emit_into _ sized, pairsSizes_nil⟩

theorem pairsSizes_emitOperations {params : List Operand} {operations : List Operation}
    (disciplined : SizeDisciplined operations) (compares : CompareIntoBool operations)
    (emitted : emitOperations map params operations = some items) : PairsSizes items := by
  induction operations generalizing params items with
  | nil =>
      cases emitted
      exact pairsSizes_nil
  | cons operation rest inductionHypothesis =>
      rw [sizeDisciplined_cons] at disciplined
      rw [compareIntoBool_cons] at compares
      rw [emitOperations] at emitted
      split at emitted
      · exact inductionHypothesis disciplined.2 compares.2 emitted
      · rcases Option.bind_eq_some_iff.mp emitted with ⟨first, isFirst, emitted⟩
        rcases Option.bind_eq_some_iff.mp emitted with ⟨others, isOthers, ⟨⟩⟩
        rw [pairsSizes_append]
        exact ⟨pairsSizes_emitCall isFirst,
          inductionHypothesis disciplined.2 compares.2 isOthers⟩
      · rcases Option.bind_eq_some_iff.mp emitted with ⟨first, isFirst, emitted⟩
        rcases Option.bind_eq_some_iff.mp emitted with ⟨others, isOthers, ⟨⟩⟩
        rw [pairsSizes_append]
        exact ⟨pairsSizes_emitOperation disciplined.1 compares.1 isFirst,
          inductionHypothesis disciplined.2 compares.2 isOthers⟩

theorem pairsSizes_emitParameter {index : Nat} {param : Parameter}
    (emitted : emitParameter map index param = some items) : PairsSizes items := by
  rcases Option.bind_eq_some_iff.mp emitted with ⟨offset, -, emitted⟩
  dsimp only at emitted
  split at emitted
  · rcases Option.bind_eq_some_iff.mp emitted with ⟨reg, found, ⟨⟩⟩
    simp only [pairsSizes_cons, pairsSizes_nil, and_true]
    exact pairsSizes_emit_into _ (size_of_paramRegister found).symm
  · cases emitted
    simp only [pairsSizes_cons, pairsSizes_nil, and_true]
    exact ⟨pairsSizes_emit_register _ (size_registerFromSize _).symm,
      pairsSizes_emit_into _ (size_registerFromSize _).symm⟩

end Emitters

theorem pairsSizes_emitDefinition {func : IrFunction} {emitted : EmittedFunction}
    (disciplined : SizeDisciplined func.operations)
    (compares : CompareIntoBool func.operations)
    (emits : emitDefinition func = some emitted) : PairsSizes emitted.items := by
  rcases Option.bind_eq_some_iff.mp emits with ⟨parameters, isParameters, emits⟩
  rcases Option.bind_eq_some_iff.mp emits with ⟨operations, isOperations, ⟨⟩⟩
  have entry : PairsSizes [emit .push [.register .rbp],
      emit .mov [.register .rbp, .register .rsp],
      emit .sub [.register .rsp, .immediate (toString (frameSize (functionMap func)))]] := by
    simp
  rw [EmittedFunction.items, pairsSizes_append, pairsSizes_append]
  exact ⟨⟨entry, pairsSizes_emitAll (fun _ _ => pairsSizes_emitParameter) isParameters⟩,
    pairsSizes_emitOperations disciplined compares isOperations⟩

/-- No instruction that is emitted for a program pairs a register with memory of another
size. -/
def EmitsPairedSizes (functions : List IrFunction) : Prop :=
  ∀ emitted, emitFunctions functions = some emitted → ∀ func ∈ emitted, PairsSizes func.items

theorem emitsPairedSizes_of_disciplined {functions : List IrFunction}
    (disciplined : ∀ function ∈ functions, SizeDisciplined function.operations)
    (compares : ∀ function ∈ functions, CompareIntoBool function.operations) :
    EmitsPairedSizes functions := by
  intro emitted emits
  induction functions generalizing emitted with
  | nil =>
      cases emits
      exact nofun
  | cons function rest inductionHypothesis =>
      rw [List.forall_mem_cons] at disciplined compares
      rw [emitFunctions] at emits
      split at emits
      · rcases Option.bind_eq_some_iff.mp emits with ⟨first, isFirst, emits⟩
        rcases Option.bind_eq_some_iff.mp emits with ⟨others, isOthers, ⟨⟩⟩
        rw [List.forall_mem_cons]
        exact ⟨pairsSizes_emitDefinition disciplined.1 compares.1 isFirst,
          inductionHypothesis disciplined.2 compares.2 others isOthers⟩
      · exact inductionHypothesis disciplined.2 compares.2 emitted emits

/-- The generated program is size disciplined, and its instructions pair equal sizes,
exactly when the widths agree in the analysed one. -/
theorem sizesAgree_iff {program : Program} {filename : String} {options : CompilerOptions}
    {modules : List Module} {analysis : ProgramAnalysis}
    (accepted : Accepted program filename options modules analysis) :
    let generated := (irGenerate analysis.program).program
    (generated.SizeDisciplined ∧ EmitsPairedSizes generated.functions) ↔
      analysis.program.WidthsAgree := by
  dsimp only
  rw [← sizeDisciplined_irGenerate_iff accepted]
  constructor
  · exact And.left
  · intro disciplined
    exact ⟨disciplined, emitsPairedSizes_of_disciplined disciplined
      (compareIntoBool_irGenerate accepted)⟩

/-! ### Operands of different widths -/

/-- A sum of two `i32`. -/
def uniformSource : String :=
  "fn main() i32 { i32 a = 1; i32 b = 2; i32 c = b + a; return c; }"

theorem isSome_compileFrontend_uniform :
    (compileFrontend uniformSource "main.su" {}).isSome := by
  decide

/-- The analysis of that program. -/
def uniformAnalysis : ProgramAnalysis :=
  (compileFrontend uniformSource "main.su" {}).get isSome_compileFrontend_uniform

theorem sizesAgree_iff_uniform :
    (irGenerate uniformAnalysis.program).program.SizeDisciplined ∧
      EmitsPairedSizes (irGenerate uniformAnalysis.program).program.functions := by
  have disciplined : ∀ function ∈ (irGenerate uniformAnalysis.program).program.functions,
      ∀ operation ∈ function.operations, operation.SizeDisciplined := by
    decide
  rcases accepted_of_compileFrontend (Option.some_get isSome_compileFrontend_uniform).symm with
    ⟨program, accepted⟩
  exact (sizesAgree_iff accepted).mpr
    ((sizeDisciplined_irGenerate_iff accepted).mp disciplined)

/-- A sum of an `i64` and an `i8`. -/
def mixedSource : String :=
  "fn main() i32 { i8 a = 1; i64 b = 2; i64 c = b + a; return 0; }"

theorem isSome_compileFrontend_mixed :
    (compileFrontend mixedSource "main.su" {}).isSome := by
  decide

/-- The analysis of that program. -/
def mixedAnalysis : ProgramAnalysis :=
  (compileFrontend mixedSource "main.su" {}).get isSome_compileFrontend_mixed

/-- The addition takes the `i8` variable from memory and has an `i64` destination, so that
`add rax, BYTE [rbp-1]` is printed. -/
theorem mixed_not_sizesAgree :
    (∃ program, Accepted program "main.su" {} [] mixedAnalysis) ∧
      ¬(irGenerate mixedAnalysis.program).program.SizeDisciplined ∧
      ¬EmitsPairedSizes (irGenerate mixedAnalysis.program).program.functions := by
  refine ⟨accepted_of_compileFrontend (Option.some_get _).symm, ?_, ?_⟩
  · intro disciplined
    have addition : ∃ function ∈ (irGenerate mixedAnalysis.program).program.functions,
        ∃ operation ∈ function.operations, ¬operation.SizeDisciplined := by
      decide
    rcases addition with ⟨function, inProgram, operation, inFunction, differs⟩
    exact differs (disciplined function inProgram operation inFunction)
  · intro paired
    have addition : (emitFunctions (irGenerate mixedAnalysis.program).program.functions).any
        (fun emitted => emitted.any fun func => func.items.contains
          (emit .add [.register .rax, .memory .byte (-1)])) := by
      decide
    rw [Option.any_eq_true] at addition
    rcases addition with ⟨emitted, emits, addition⟩
    rcases List.any_eq_true.mp addition with ⟨func, inEmitted, addition⟩
    rcases paired emitted emits func inEmitted _ (List.contains_iff_mem.mp addition) with
      extends_ | pairs
    · cases extends_
    · have same := pairs (.register .rax) (by simp) (.memory .byte (-1)) (by simp)
      cases same

end Sulfur.Codegen
