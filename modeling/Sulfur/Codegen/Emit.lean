import Sulfur.Ir.Operation
import Sulfur.Codegen.Instruction
import Sulfur.Codegen.Stack

/-!
# Code generation

The emitters of `codegen.c`.  An emitter returns the items it prints, or nothing
where the source reports an internal error and aborts.
-/

namespace Sulfur.Codegen

open Ir

/-! ## Registers and operands -/

/-- `register_from_size`. -/
def registerFromSize (size : Nat) : Register :=
  if size ≤ 1 then .al
  else if size ≤ 2 then .ax
  else if size ≤ 4 then .eax
  else .rax

/-- `prefix_from_size`. -/
def sizePrefixFromSize (size : Nat) : SizePrefix :=
  if size ≤ 1 then .byte
  else if size ≤ 2 then .word
  else if size ≤ 4 then .dword
  else .qword

/-- `counter_register`. -/
def counterRegister (size : Nat) : Register :=
  if size ≤ 1 then .cl
  else if size ≤ 2 then .cx
  else if size ≤ 4 then .ecx
  else .rcx

/-- The table of `param_register`. -/
def paramRegisters : List (List Register) :=
  [[.rdi, .edi, .di, .dil], [.rsi, .esi, .si, .sil], [.rdx, .edx, .dx, .dl],
    [.rcx, .ecx, .cx, .cl], [.r8, .r8d, .r8w, .r8b], [.r9, .r9d, .r9w, .r9b]]

/-- `param_register`. -/
def paramRegister (index size : Nat) : Option Register := do
  let views ← paramRegisters[index]?
  match size with
  | 8 => views[0]?
  | 4 => views[1]?
  | 2 => views[2]?
  | 1 => views[3]?
  | _ => none

/-- `stack_offset`, which aborts for a name without a slot. -/
def stackOffset (map : StackMap) (name : String) : Option Int :=
  let offset := map.lookup name
  if offset = 0 then none else some offset

/-- The slot of a value of a type, `SIZE [rbp+offset]`. -/
def memoryArgument (type : ValueType) (offset : Int) : Argument :=
  .memory (sizePrefixFromSize type.widthBytes) offset

/-- `format_operand`. -/
def formatOperand (map : StackMap) : Operand → Option Argument
  | .immediate _ value => some (.immediate value)
  | .variable type name => (stackOffset map name).map (memoryArgument type)
  | .temporary type id => (stackOffset map (temporaryName id)).map (memoryArgument type)
  | _ => some .empty

/-- The formats of the operands of an operation with two sources. -/
def formatBinary (map : StackMap) (operation : Operation) :
    Option (Argument × Argument × Argument) := do
  let src1 ← formatOperand map operation.operand2
  let src2 ← formatOperand map operation.operand3
  let dst ← formatOperand map operation.operand1
  return (src1, src2, dst)

/-- The formats of the operands of an operation with one source. -/
def formatUnary (map : StackMap) (operation : Operation) : Option (Argument × Argument) := do
  let src ← formatOperand map operation.operand2
  let dst ← formatOperand map operation.operand1
  return (src, dst)

/-- `strtoll` on the digits of an immediate, which stops at the largest value. -/
def strtoll (digits : String) : Int :=
  min (Nat.ofDigitChars 10 digits.toList 0) (2 ^ 63 - 1)

/-- `load_large_immediate`: what it prints, and the format it leaves. -/
def loadLargeImmediate (operand : Operand) (size : Nat) (format : Argument) :
    List Item × Argument :=
  match operand with
  | .immediate _ value =>
      if size < 8 then
        ([], format)
      else if -2 ^ 31 ≤ strtoll value ∧ strtoll value ≤ 2 ^ 31 - 1 then
        ([], format)
      else
        ([.instruction ⟨.mov, [.register .rcx, format]⟩], .register .rcx)
  | _ => ([], format)

/-- One line of assembly. -/
def emit (mnemonic : Mnemonic) (arguments : List Argument) : Item :=
  .instruction ⟨mnemonic, arguments⟩

/-! ## Arithmetic -/

/-- `emit_binary`. -/
def emitBinary (mnemonic : Mnemonic) (operation : Operation) (map : StackMap) :
    Option (List Item) := do
  let (src1, src2, dst) ← formatBinary map operation
  let size := operation.operand1.valueType.widthBytes
  let (load, src2) := loadLargeImmediate operation.operand3 size src2
  if dst.text = src1.text ∧ !operation.operand3.inMemory then
    return load ++ [emit mnemonic [dst, src2]]
  else
    let reg := Argument.register (registerFromSize size)
    return load ++
      [emit .mov [reg, src1], emit mnemonic [reg, src2], emit .mov [dst, reg]]

/-- `emit_mult`. -/
def emitMult (operation : Operation) (map : StackMap) : Option (List Item) := do
  let (src1, src2, dst) ← formatBinary map operation
  let type := operation.operand1.valueType
  if type.widthBytes = 1 then
    let mulInstr := if type.isSigned then Mnemonic.imul else .mul
    let multiply :=
      if operation.operand3.isImmediate then
        [emit .mov [.register .cl, src2], emit mulInstr [.register .cl]]
      else
        [emit mulInstr [src2]]
    return emit .mov [.register .al, src1] :: multiply ++ [emit .mov [dst, .register .al]]
  else
    let (load, src2) := loadLargeImmediate operation.operand3 type.widthBytes src2
    let reg := Argument.register (registerFromSize type.widthBytes)
    return load ++
      [emit .mov [reg, src1], emit .imul [reg, src2], emit .mov [dst, reg]]

/-- `emit_dividend_extension`. -/
def emitDividendExtension (size : Nat) (isSigned : Bool) : List Item :=
  match size with
  | 8 => [if isSigned then emit .cqo [] else emit .xor [.register .rdx, .register .rdx]]
  | 4 => [if isSigned then emit .cdq [] else emit .xor [.register .edx, .register .edx]]
  | 2 => [if isSigned then emit .cwd [] else emit .xor [.register .dx, .register .dx]]
  | 1 => [if isSigned then emit .cbw [] else emit .mov [.register .ah, .immediate "0"]]
  | _ => []

/-- `emit_div`. -/
def emitDiv (operation : Operation) (map : StackMap) : Option (List Item) := do
  let (src1, src2, dst) ← formatBinary map operation
  let type := operation.operand1.valueType
  let divInstr := if type.isSigned then Mnemonic.idiv else .div
  let reg := Argument.register (registerFromSize type.widthBytes)
  let divide :=
    if operation.operand3.isImmediate then
      let counter := Argument.register (counterRegister type.widthBytes)
      [emit .mov [counter, src2], emit divInstr [counter]]
    else
      [emit divInstr [src2]]
  return emit .mov [reg, src1] :: emitDividendExtension type.widthBytes type.isSigned ++
    divide ++ [emit .mov [dst, reg]]

/-- `emit_neg`. -/
def emitNeg (operation : Operation) (map : StackMap) : Option (List Item) := do
  let (src, dst) ← formatUnary map operation
  if dst.text = src.text then
    return [emit .neg [dst]]
  else
    let reg := Argument.register (registerFromSize operation.operand1.valueType.widthBytes)
    return [emit .mov [reg, src], emit .neg [reg], emit .mov [dst, reg]]

/-- `emit_not_on`. -/
def emitNotOn (opcode : Opcode) (target : Argument) : Item :=
  if opcode = .bitwiseNot then emit .not [target] else emit .xor [target, .immediate "1"]

/-- `emit_not`. -/
def emitNot (operation : Operation) (map : StackMap) : Option (List Item) := do
  let (src, dst) ← formatUnary map operation
  if dst.text = src.text then
    return [emitNotOn operation.opcode dst]
  else
    let reg := Argument.register (registerFromSize operation.operand1.valueType.widthBytes)
    return [emit .mov [reg, src], emitNotOn operation.opcode reg, emit .mov [dst, reg]]

/-- `emit_shift`. -/
def emitShift (mnemonic : Mnemonic) (operation : Operation) (map : StackMap) :
    Option (List Item) := do
  let (src1, src2, dst) ← formatBinary map operation
  let reg := Argument.register (registerFromSize operation.operand1.valueType.widthBytes)
  let shift :=
    if operation.operand3.isImmediate then
      [emit mnemonic [reg, src2]]
    else
      let counter := counterRegister operation.operand3.valueType.widthBytes
      [emit .mov [.register counter, src2], emit mnemonic [reg, .register .cl]]
  return emit .mov [reg, src1] :: shift ++ [emit .mov [dst, reg]]

/-- `emit_rshift`. -/
def emitRshift (operation : Operation) (map : StackMap) : Option (List Item) :=
  emitShift (if operation.operand1.valueType.isSigned then .sar else .shr) operation map

/-- `emit_lshift`. -/
def emitLshift (operation : Operation) (map : StackMap) : Option (List Item) :=
  emitShift .shl operation map

/-! ## Conversions -/

/-- `emit_convert`. -/
def emitConvert (operation : Operation) (src dst : Argument) : List Item :=
  let srcType := operation.operand2.valueType
  let srcSize := srcType.widthBytes
  let dstSize := operation.operand1.valueType.widthBytes
  let dstReg := Argument.register (registerFromSize dstSize)
  if operation.operand2.isImmediate ∨ srcSize = dstSize then
    [emit .mov [dstReg, src], emit .mov [dst, dstReg]]
  else if srcSize < dstSize then
    let widen :=
      if srcType.isSigned ∧ srcSize = 4 then
        emit .movsxd [dstReg, src]
      else if srcType.isSigned then
        emit .movsx [dstReg, src]
      else if srcSize = 4 then
        emit .mov [.register .eax, src]
      else
        emit .movzx [dstReg, src]
    [widen, emit .mov [dst, dstReg]]
  else
    let srcReg := Argument.register (registerFromSize srcSize)
    [emit .mov [srcReg, src], emit .mov [dst, dstReg]]

/-- `emit_assign`. -/
def emitAssign (operation : Operation) (map : StackMap) : Option (List Item) := do
  let (src, dst) ← formatUnary map operation
  if src.text = dst.text then
    return []
  else
    return emitConvert operation src dst

/-- `emit_cast`. -/
def emitCast (operation : Operation) (map : StackMap) : Option (List Item) := do
  let (src, dst) ← formatUnary map operation
  return emitConvert operation src dst

/-! ## Comparisons and jumps -/

/-- The choice of `emit_relational`; its default branch aborts. -/
def setInstruction (op : BinaryOp) (isSigned : Bool) : Option Mnemonic :=
  match op with
  | .relationalEqual => some .sete
  | .relationalNotEqual => some .setne
  | .relationalLess => some (if isSigned then .setl else .setb)
  | .relationalLessEqual => some (if isSigned then .setle else .setbe)
  | .relationalGreater => some (if isSigned then .setg else .seta)
  | .relationalGreaterEqual => some (if isSigned then .setge else .setae)
  | _ => none

/-- `emit_relational`. -/
def emitRelational (op : BinaryOp) (operation : Operation) (map : StackMap) :
    Option (List Item) := do
  let (src1, src2, dst) ← formatBinary map operation
  let type := operation.operand2.valueType
  let reg := Argument.register (registerFromSize type.widthBytes)
  let (load, src2) := loadLargeImmediate operation.operand3 type.widthBytes src2
  let set ← setInstruction op type.isSigned
  return load ++
    [emit .mov [reg, src1], emit .cmp [reg, src2], emit set [.register .al],
      emit .mov [dst, .register .al]]

/-- The number of a label operand. -/
def labelId : Operand → Nat
  | .label id => id
  | _ => 0

/-- `emit_label`. -/
def emitLabel (operation : Operation) : List Item :=
  [.label (labelId operation.operand1)]

/-- `emit_jmp_incond`. -/
def emitJmpIncond (operation : Operation) : List Item :=
  [emit .jmp [.label (labelId operation.operand1)]]

/-- `emit_jmp_cond`. -/
def emitJmpCond (operation : Operation) (map : StackMap) : Option (List Item) := do
  let cond ← formatOperand map operation.operand2
  let reg := Argument.register (registerFromSize operation.operand2.valueType.widthBytes)
  return [emit .mov [reg, cond], emit .cmp [reg, .immediate "0"],
    emit .je [.label (labelId operation.operand1)]]

/-! ## Calls and returns -/

/-- `emit_return`. -/
def emitReturn (operation : Operation) (map : StackMap) : Option (List Item) := do
  let leave := [emit .mov [.register .rsp, .register .rbp], emit .pop [.register .rbp],
    emit .ret []]
  if operation.operand1 = .none then
    return leave
  else
    let size := operation.operand1.valueType.widthBytes
    let src ← formatOperand map operation.operand1
    return emit .mov [.register (registerFromSize size), src] :: leave

/-- `emit_stack_arg`. -/
def emitStackArg (map : StackMap) (param : Operand) : Option (List Item) := do
  let src ← formatOperand map param
  let type := param.valueType
  let load :=
    if param.isImmediate ∨ type.widthBytes = 8 then
      emit .mov [.register .rax, src]
    else if type.widthBytes = 4 then
      emit .mov [.register .eax, src]
    else
      emit (if type.isSigned then .movsx else .movzx) [.register .rax, src]
  return [load, emit .push [.register .rax]]

/-- One pass of the loop of `emit_call` over the register arguments. -/
def emitRegisterArg (map : StackMap) (index : Nat) (param : Operand) :
    Option (List Item) := do
  let src ← formatOperand map param
  let type := param.valueType
  let size := if type.widthBytes ≤ 2 then 4 else type.widthBytes
  let reg ← paramRegister index size
  if type.widthBytes ≤ 2 ∧ !param.isImmediate then
    return [emit (if type.isSigned then .movsx else .movzx) [.register reg, src]]
  else
    return [emit .mov [.register reg, src]]

/-- The items of a list of operands, one after the other. -/
def emitAll {α : Type} (emitOne : α → Option (List Item)) : List α → Option (List Item)
  | [] => some []
  | value :: rest => do
      let first ← emitOne value
      let others ← emitAll emitOne rest
      return first ++ others

/-- The name of a function operand. -/
def functionName : Operand → String
  | .function _ name => name
  | _ => ""

/-- `emit_call`. -/
def emitCall (params : List Operand) (call : Operation) (map : StackMap) :
    Option (List Item) := do
  let stackArgs := params.length - 6
  let padding := stackArgs % 2
  let align := if padding > 0 then [emit .sub [.register .rsp, .immediate "8"]] else []
  let pushes ← emitAll (emitStackArg map) (params.drop 6).reverse
  let moves ← emitAll (fun param => emitRegisterArg map param.2 param.1)
    (params.take 6).zipIdx
  let release :=
    if stackArgs + padding > 0 then
      [emit .add [.register .rsp, .immediate (toString ((stackArgs + padding) * 8))]]
    else
      []
  let target := emit .call [.symbol (functionName call.operand2)]
  let before := align ++ pushes ++ moves ++ [target] ++ release
  if call.operand1 = .none then
    return before
  else
    let dst ← formatOperand map call.operand1
    let size := call.operand1.valueType.widthBytes
    return before ++ [emit .mov [dst, .register (registerFromSize size)]]

/-! ## Functions -/

/-- The choice of `emit_operations` for one operation other than `PARAM` and
`CALL`. -/
def emitOperation (operation : Operation) (map : StackMap) : Option (List Item) :=
  match operation.opcode with
  | .binary .add => emitBinary .add operation map
  | .binary .sub => emitBinary .sub operation map
  | .binary .mul => emitMult operation map
  | .binary .div => emitDiv operation map
  | .negate => emitNeg operation map
  | .binary .bitwiseAnd | .binary .logicalAnd => emitBinary .and operation map
  | .binary .bitwiseOr | .binary .logicalOr => emitBinary .or operation map
  | .binary .bitwiseXor => emitBinary .xor operation map
  | .binary .bitwiseRshift => emitRshift operation map
  | .binary .bitwiseLshift => emitLshift operation map
  | .bitwiseNot | .logicalNot => emitNot operation map
  | .binary op => emitRelational op operation map
  | .label => some (emitLabel operation)
  | .jmpIncond => some (emitJmpIncond operation)
  | .jmpCond => emitJmpCond operation map
  | .assign => emitAssign operation map
  | .cast => emitCast operation map
  | .ret => emitReturn operation map
  | .call | .param | .invalid => some []

/-- `emit_operations`, with the buffer of the operands of `PARAM`. -/
def emitOperations (map : StackMap) : List Operand → List Operation → Option (List Item)
  | _, [] => some []
  | params, operation :: rest =>
      match operation.opcode with
      | .param => emitOperations map (params ++ [operation.operand1]) rest
      | .call => do
          let first ← emitCall params operation map
          let others ← emitOperations map [] rest
          return first ++ others
      | _ => do
          let first ← emitOperation operation map
          let others ← emitOperations map params rest
          return first ++ others

/-- One pass of the loop of `emit_function` over the parameters. -/
def emitParameter (map : StackMap) (index : Nat) (param : Parameter) :
    Option (List Item) := do
  let size := param.type.widthBytes
  let offset ← stackOffset map param.name
  let slot := memoryArgument param.type offset
  if index < 6 then
    let reg ← paramRegister index size
    return [emit .mov [slot, .register reg]]
  else
    let reg := Argument.register (registerFromSize size)
    let argument := memoryArgument param.type (16 + (index - 6) * 8)
    return [emit .mov [reg, argument], emit .mov [slot, reg]]

/-- The parts of a function that `emit_function` prints: the entry, the moves of the
parameters into their slots, and the operations. -/
structure EmittedFunction where
  name : String
  entry : List Item
  parameters : List Item
  operations : List Item
  deriving DecidableEq, Repr

/-- The stack map of `emit_function`. -/
def functionMap (func : IrFunction) : StackMap :=
  stackPopulate func.parameters func.operations

/-- `emit_function` for a function that is printed. -/
def emitDefinition (func : IrFunction) : Option EmittedFunction := do
  let map := functionMap func
  let entry := [emit .push [.register .rbp], emit .mov [.register .rbp, .register .rsp],
    emit .sub [.register .rsp, .immediate (toString (frameSize map))]]
  let parameters ← emitAll (fun param => emitParameter map param.2 param.1)
    func.parameters.zipIdx
  let operations ← emitOperations map [] func.operations
  return ⟨func.name, entry, parameters, operations⟩

/-- `emit_function`: extern functions and functions without code print nothing. -/
def isEmitted (func : IrFunction) : Bool :=
  !func.qualifiers.isExtern && !func.operations.isEmpty

/-- The functions that `sf_generate_assembly` prints, in their order. -/
def emitFunctions : List IrFunction → Option (List EmittedFunction)
  | [] => some []
  | func :: rest =>
      if isEmitted func then do
        let first ← emitDefinition func
        let others ← emitFunctions rest
        return first :: others
      else
        emitFunctions rest

/-- The text of a function, in the order in which `emit_function` prints it. -/
def EmittedFunction.text (func : EmittedFunction) : String :=
  "\n" ++ func.name ++ ":\n" ++ itemsText func.entry ++
    (if func.parameters.isEmpty then "" else "\n") ++ itemsText func.parameters ++
    "\n" ++ itemsText func.operations

/-- `emit_func_linkage`. -/
def emitFuncLinkage (func : IrFunction) : String :=
  if func.defined ∧ func.qualifiers.isPublic then "global " ++ func.name ++ "\n" else ""

/-- `sf_generate_assembly`. -/
def generateAssembly (program : IrProgram) (isRoot : Bool) : Option String := do
  let functions ← emitFunctions program.functions
  return "bits 64\n\n" ++ (if isRoot then "global _start\n" else "") ++
    String.join (program.externs.map fun name => "extern " ++ name ++ "\n") ++
    String.join (program.functions.map emitFuncLinkage) ++
    "\n" ++ "section .text\n\n" ++
    (if isRoot then
      "_start:\n" ++ "\tcall main\n\n" ++ "\tmov edi, eax\n" ++ "\tmov rax, 60\n" ++
        "\tsyscall\n"
    else "") ++
    String.join (functions.map EmittedFunction.text)

end Sulfur.Codegen
