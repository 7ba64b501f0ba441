import Sulfur.Codegen.Emit

/-!
# Formatted operands

The emitter of an operation prints a value for every operand that it formats
exactly when the operands have one: an immediate with digits, or a variable or
temporary with a slot.
-/

namespace Sulfur.Codegen

open Ir

/-! ## Operands with a value -/

/-- The operand can be printed into an instruction. -/
def HasValue : Operand → Prop
  | .immediate _ value => value ≠ ""
  | .variable type _ => type.widthBytes ≠ 0
  | .temporary type _ => type.widthBytes ≠ 0
  | _ => False

/-- The operands that the emitter of an operation formats. -/
def formatted (operation : Operation) : List Operand :=
  match operation.opcode with
  | .binary _ => [operation.operand1, operation.operand2, operation.operand3]
  | .negate | .bitwiseNot | .logicalNot | .assign | .cast =>
      [operation.operand1, operation.operand2]
  | .jmpCond => [operation.operand2]
  | .param => [operation.operand1]
  | .ret | .call => if operation.operand1 = .none then [] else [operation.operand1]
  | .label | .jmpIncond | .invalid => []

/-- The operands that an operation formats have values. -/
def Formats (operation : Operation) : Prop :=
  ∀ operand ∈ formatted operation, HasValue operand

/-- An operand with a width has a slot. -/
def HasSlot (map : StackMap) (operand : Operand) : Prop :=
  ∀ name, StackMap.slotName operand = some name → operand.valueType.widthBytes ≠ 0 →
    (map.lookupEntry name).isSome

/-! ## Printed operands -/

/-- A printed operand, or one that is not the format of an IR operand, is not empty. -/
def Argument.Complete : Argument → Prop
  | .empty => False
  | .immediate value => value ≠ ""
  | _ => True

instance (argument : Argument) : Decidable argument.Complete := by
  unfold Argument.Complete
  split <;> infer_instance

/-- No operand of a line is empty. -/
def Item.Complete : Item → Prop
  | .label _ => True
  | .instruction instr => ∀ argument ∈ instr.arguments, argument.Complete

instance (item : Item) : Decidable item.Complete := by
  unfold Item.Complete
  split <;> infer_instance

/-- No instruction of the list has an empty operand. -/
def Complete (items : List Item) : Prop :=
  ∀ item ∈ items, item.Complete

instance (items : List Item) : Decidable (Complete items) := by
  unfold Complete
  infer_instance

@[simp]
theorem complete_nil : Complete [] := List.forall_mem_nil _

@[simp]
theorem complete_cons (item : Item) (rest : List Item) :
    Complete (item :: rest) ↔ item.Complete ∧ Complete rest :=
  List.forall_mem_cons

@[simp]
theorem complete_append (first second : List Item) :
    Complete (first ++ second) ↔ Complete first ∧ Complete second :=
  List.forall_mem_append

@[simp]
theorem complete_emit (mnemonic : Mnemonic) (arguments : List Argument) :
    (emit mnemonic arguments).Complete ↔ ∀ argument ∈ arguments, argument.Complete :=
  Iff.rfl

@[simp]
theorem complete_register (reg : Register) : (Argument.register reg).Complete := trivial

@[simp]
theorem complete_memory (size : SizePrefix) (offset : Int) :
    (Argument.memory size offset).Complete := trivial

@[simp]
theorem complete_label (id : Nat) : (Argument.label id).Complete := trivial

@[simp]
theorem complete_symbol (name : String) : (Argument.symbol name).Complete := trivial

@[simp]
theorem complete_immediate (value : String) :
    (Argument.immediate value).Complete ↔ value ≠ "" := Iff.rfl

@[simp]
theorem not_complete_empty : ¬Argument.empty.Complete := id

/-- An emitter prints complete instructions. -/
def EmitsComplete (emitted : Option (List Item)) : Prop :=
  ∃ items, emitted = some items ∧ Complete items

/-! ## Formats of operands with values -/

section Operands

variable {map : StackMap} (descending : map.Descending)

include descending

theorem stackOffset_of_isSome {name : String} (slot : (map.lookupEntry name).isSome) :
    ∃ entry, map.lookupEntry name = some entry ∧ stackOffset map name = some entry.offset := by
  rcases Option.isSome_iff_exists.mp slot with ⟨entry, found⟩
  have isEntry := (StackMap.mem_of_lookupEntry found).1
  have below := descending.inFrame entry isEntry
  have sized := descending.sized entry isEntry
  refine ⟨entry, found, ?_⟩
  unfold stackOffset StackMap.lookup
  rw [found]
  dsimp only
  rw [if_neg (by omega)]

theorem formatOperand_complete {operand : Operand} (slot : HasSlot map operand)
    (value : HasValue operand) :
    ∃ argument, formatOperand map operand = some argument ∧ argument.Complete := by
  cases operand with
  | immediate type digits => exact ⟨.immediate digits, rfl, value⟩
  | «variable» type name =>
      rcases stackOffset_of_isSome descending (slot name rfl value) with ⟨entry, -, offset⟩
      exact ⟨memoryArgument type entry.offset, by simp [formatOperand, offset], trivial⟩
  | temporary type id =>
      rcases stackOffset_of_isSome descending (slot _ rfl value) with ⟨entry, -, offset⟩
      exact ⟨memoryArgument type entry.offset, by simp [formatOperand, offset], trivial⟩
  | none | label | function => exact value.elim

end Operands

/-! ## The emitters print them -/

theorem loadLargeImmediate_complete (operand : Operand) (size : Nat) {format : Argument}
    (complete : format.Complete) :
    Complete (loadLargeImmediate operand size format).1 ∧
      (loadLargeImmediate operand size format).2.Complete := by
  unfold loadLargeImmediate
  split
  · split
    · exact ⟨complete_nil, complete⟩
    · split
      · exact ⟨complete_nil, complete⟩
      · simp [Item.Complete, complete]
  · exact ⟨complete_nil, complete⟩

section Emitters

variable {map : StackMap} {operation : Operation} {src1 src2 dst : Argument}

/-- The formats of the operands of an operation are complete. -/
structure FormatsBinary (map : StackMap) (operation : Operation) (src1 src2 dst : Argument) :
    Prop where
  formats : formatBinary map operation = some (src1, src2, dst)
  first : src1.Complete
  second : src2.Complete
  destination : dst.Complete

/-- `formatUnary` succeeds with operands that are not empty. -/
structure FormatsUnary (map : StackMap) (operation : Operation) (src dst : Argument) :
    Prop where
  formats : formatUnary map operation = some (src, dst)
  source : src.Complete
  destination : dst.Complete

theorem emitBinary_complete (mnemonic : Mnemonic)
    (formats : FormatsBinary map operation src1 src2 dst) :
    EmitsComplete (emitBinary mnemonic operation map) := by
  have load := loadLargeImmediate_complete operation.operand3
    operation.operand1.valueType.widthBytes formats.second
  unfold emitBinary
  rw [formats.formats]
  simp only [Option.bind_eq_bind, Option.bind_some]
  split
  · exact ⟨_, rfl, by simp [load, formats.destination]⟩
  · exact ⟨_, rfl, by simp [load, formats.destination, formats.first]⟩

theorem emitMult_complete (formats : FormatsBinary map operation src1 src2 dst) :
    EmitsComplete (emitMult operation map) := by
  have load := loadLargeImmediate_complete operation.operand3
    operation.operand1.valueType.widthBytes formats.second
  unfold emitMult
  rw [formats.formats]
  simp only [Option.bind_eq_bind, Option.bind_some]
  split
  · refine ⟨_, rfl, ?_⟩
    split <;> simp [formats.first, formats.second, formats.destination]
  · exact ⟨_, rfl, by simp [load, formats.destination, formats.first]⟩

theorem emitDividendExtension_complete (size : Nat) (isSigned : Bool) :
    Complete (emitDividendExtension size isSigned) := by
  unfold emitDividendExtension
  split <;> cases isSigned <;> simp

theorem emitDiv_complete (formats : FormatsBinary map operation src1 src2 dst) :
    EmitsComplete (emitDiv operation map) := by
  have extension := emitDividendExtension_complete operation.operand1.valueType.widthBytes
    operation.operand1.valueType.isSigned
  unfold emitDiv
  rw [formats.formats]
  refine ⟨_, rfl, ?_⟩
  dsimp only
  split <;> simp [extension, formats.first, formats.second, formats.destination]

theorem emitShift_complete (mnemonic : Mnemonic)
    (formats : FormatsBinary map operation src1 src2 dst) :
    EmitsComplete (emitShift mnemonic operation map) := by
  unfold emitShift
  rw [formats.formats]
  refine ⟨_, rfl, ?_⟩
  dsimp only
  split <;> simp [formats.first, formats.second, formats.destination]

theorem emitNeg_complete {src : Argument} (formats : FormatsUnary map operation src dst) :
    EmitsComplete (emitNeg operation map) := by
  unfold emitNeg
  rw [formats.formats]
  simp only [Option.bind_eq_bind, Option.bind_some]
  split
  · exact ⟨_, rfl, by simp [formats.destination]⟩
  · exact ⟨_, rfl, by simp [formats.source, formats.destination]⟩

theorem emitNotOn_complete (opcode : Opcode) {target : Argument} (complete : target.Complete) :
    (emitNotOn opcode target).Complete := by
  unfold emitNotOn
  split <;> simp [complete]

theorem emitNot_complete {src : Argument} (formats : FormatsUnary map operation src dst) :
    EmitsComplete (emitNot operation map) := by
  unfold emitNot
  rw [formats.formats]
  simp only [Option.bind_eq_bind, Option.bind_some]
  split
  · exact ⟨_, rfl, by simp [emitNotOn_complete, formats.destination]⟩
  · exact ⟨_, rfl, by simp [emitNotOn_complete, formats.source, formats.destination]⟩

theorem emitConvert_complete {src : Argument} (source : src.Complete)
    (destination : dst.Complete) : Complete (emitConvert operation src dst) := by
  unfold emitConvert
  dsimp only
  split
  · simp [source, destination]
  · split
    · split
      · simp [source, destination]
      · split
        · simp [source, destination]
        · split <;> simp [source, destination]
    · simp [source, destination]

theorem emitAssign_complete {src : Argument} (formats : FormatsUnary map operation src dst) :
    EmitsComplete (emitAssign operation map) := by
  unfold emitAssign
  rw [formats.formats]
  simp only [Option.bind_eq_bind, Option.bind_some]
  split
  · exact ⟨_, rfl, complete_nil⟩
  · exact ⟨_, rfl, emitConvert_complete formats.source formats.destination⟩

theorem emitCast_complete {src : Argument} (formats : FormatsUnary map operation src dst) :
    EmitsComplete (emitCast operation map) := by
  unfold emitCast
  rw [formats.formats]
  exact ⟨_, rfl, emitConvert_complete formats.source formats.destination⟩

theorem isSome_setInstruction {op : BinaryOp} (relational : op.isRelational)
    (isSigned : Bool) : (setInstruction op isSigned).isSome := by
  cases op <;> first | rfl | cases relational

theorem emitRelational_complete {op : BinaryOp} (relational : op.isRelational)
    (formats : FormatsBinary map operation src1 src2 dst) :
    EmitsComplete (emitRelational op operation map) := by
  have load := loadLargeImmediate_complete operation.operand3
    operation.operand2.valueType.widthBytes formats.second
  rcases Option.isSome_iff_exists.mp
    (isSome_setInstruction relational operation.operand2.valueType.isSigned) with ⟨set, chosen⟩
  unfold emitRelational
  rw [formats.formats]
  simp only [Option.bind_eq_bind, Option.bind_some, chosen]
  exact ⟨_, rfl, by simp [load, formats.first, formats.destination]⟩

theorem emitJmpCond_complete {cond : Argument}
    (format : formatOperand map operation.operand2 = some cond) (complete : cond.Complete) :
    EmitsComplete (emitJmpCond operation map) := by
  unfold emitJmpCond
  rw [format]
  exact ⟨_, rfl, by simp [complete]⟩

end Emitters

/-! ## Operations -/

section Operations

variable {map : StackMap} (descending : map.Descending) {operation : Operation}
  (slots : ∀ operand ∈ formatted operation, HasSlot map operand) (formats : Formats operation)

include descending slots formats

theorem formatted_complete (operand : Operand) (isFormatted : operand ∈ formatted operation) :
    ∃ argument, formatOperand map operand = some argument ∧ argument.Complete :=
  formatOperand_complete descending (slots operand isFormatted) (formats operand isFormatted)

theorem exists_formatsBinary {op : BinaryOp} (binary : operation.opcode = .binary op) :
    ∃ src1 src2 dst, FormatsBinary map operation src1 src2 dst := by
  have complete (operand : Operand)
      (listed : operand ∈ [operation.operand1, operation.operand2, operation.operand3]) :=
    formatted_complete descending slots formats operand
      (by simpa [formatted, binary] using listed)
  rcases complete operation.operand1 (by simp) with ⟨dst, dstFormat, dstComplete⟩
  rcases complete operation.operand2 (by simp) with ⟨src1, firstFormat, firstComplete⟩
  rcases complete operation.operand3 (by simp) with ⟨src2, secondFormat, secondComplete⟩
  exact ⟨src1, src2, dst, by simp [formatBinary, dstFormat, firstFormat, secondFormat],
    firstComplete, secondComplete, dstComplete⟩

theorem exists_formatsUnary
    (unary : formatted operation = [operation.operand1, operation.operand2]) :
    ∃ src dst, FormatsUnary map operation src dst := by
  rcases formatted_complete descending slots formats operation.operand1
    (by simp [unary]) with ⟨dst, dstFormat, dstComplete⟩
  rcases formatted_complete descending slots formats operation.operand2
    (by simp [unary]) with ⟨src, srcFormat, srcComplete⟩
  exact ⟨src, dst, by simp [formatUnary, dstFormat, srcFormat], srcComplete, dstComplete⟩

theorem emitReturn_complete (isReturn : operation.opcode = .ret) :
    EmitsComplete (emitReturn operation map) := by
  unfold emitReturn
  by_cases nothing : operation.operand1 = .none
  · rw [if_pos nothing]
    exact ⟨_, rfl, by simp⟩
  · rw [if_neg nothing]
    rcases formatted_complete descending slots formats operation.operand1
      (by simp [formatted, isReturn, nothing]) with ⟨src, format, complete⟩
    rw [format]
    exact ⟨_, rfl, by simp [complete]⟩

theorem emitBinaryOperation_complete {op : BinaryOp} (binary : operation.opcode = .binary op) :
    EmitsComplete (emitOperation operation map) := by
  rcases exists_formatsBinary descending slots formats binary with ⟨src1, src2, dst, all⟩
  unfold emitOperation
  rw [binary]
  cases op with
  | add | sub => exact emitBinary_complete _ all
  | mul => exact emitMult_complete all
  | div => exact emitDiv_complete all
  | bitwiseAnd | logicalAnd | bitwiseOr | logicalOr | bitwiseXor =>
      exact emitBinary_complete _ all
  | bitwiseRshift | bitwiseLshift => exact emitShift_complete _ all
  | relationalEqual | relationalNotEqual | relationalLess | relationalLessEqual
  | relationalGreater | relationalGreaterEqual => exact emitRelational_complete rfl all

theorem emitOperation_complete : EmitsComplete (emitOperation operation map) := by
  cases opcode : operation.opcode with
  | binary op => exact emitBinaryOperation_complete descending slots formats opcode
  | negate =>
      rcases exists_formatsUnary descending slots formats (by simp [formatted, opcode])
        with ⟨src, dst, all⟩
      simpa [emitOperation, opcode] using emitNeg_complete all
  | bitwiseNot | logicalNot =>
      rcases exists_formatsUnary descending slots formats (by simp [formatted, opcode])
        with ⟨src, dst, all⟩
      simpa [emitOperation, opcode] using emitNot_complete all
  | assign =>
      rcases exists_formatsUnary descending slots formats (by simp [formatted, opcode])
        with ⟨src, dst, all⟩
      simpa [emitOperation, opcode] using emitAssign_complete all
  | cast =>
      rcases exists_formatsUnary descending slots formats (by simp [formatted, opcode])
        with ⟨src, dst, all⟩
      simpa [emitOperation, opcode] using emitCast_complete all
  | jmpCond =>
      rcases formatted_complete descending slots formats operation.operand2
        (by simp [formatted, opcode]) with ⟨cond, format, complete⟩
      simpa [emitOperation, opcode] using emitJmpCond_complete format complete
  | ret => simpa [emitOperation, opcode] using emitReturn_complete descending slots formats opcode
  | label =>
      exact ⟨emitLabel operation, by simp [emitOperation, opcode],
        by simp [emitLabel, Item.Complete]⟩
  | jmpIncond =>
      exact ⟨emitJmpIncond operation, by simp [emitOperation, opcode],
        by simp [emitJmpIncond]⟩
  | call | param | invalid => exact ⟨[], by simp [emitOperation, opcode], complete_nil⟩

end Operations

/-! ## Calls -/

theorem emitAll_complete {α : Type} (emitOne : α → Option (List Item)) (values : List α)
    (each : ∀ value ∈ values, EmitsComplete (emitOne value)) :
    EmitsComplete (emitAll emitOne values) := by
  induction values with
  | nil => exact ⟨[], rfl, complete_nil⟩
  | cons value rest inductionHypothesis =>
      rw [List.forall_mem_cons] at each
      rcases each.1 with ⟨first, firstRun, firstComplete⟩
      rcases inductionHypothesis each.2 with ⟨others, othersRun, othersComplete⟩
      exact ⟨first ++ others, by simp [emitAll, firstRun, othersRun],
        by simp [firstComplete, othersComplete]⟩

/-- The views of the parameter registers cover every width but that of nothing. -/
theorem isSome_paramRegister {index : Nat} (inRegister : index < 6) {type : ValueType}
    (sized : type.widthBytes ≠ 0) :
    (paramRegister index type.widthBytes).isSome ∧
      (paramRegister index (if type.widthBytes ≤ 2 then 4 else type.widthBytes)).isSome := by
  cases type <;> first
    | exact absurd rfl sized
    | interval_cases index <;> exact ⟨rfl, rfl⟩

/-- An argument of a call: it has a value and a slot. -/
structure IsArgument (map : StackMap) (param : Operand) : Prop where
  value : HasValue param
  slot : HasSlot map param
  sized : param.valueType.widthBytes ≠ 0

section Calls

variable {map : StackMap} (descending : map.Descending)

include descending

theorem emitStackArg_complete {param : Operand} (isArgument : IsArgument map param) :
    EmitsComplete (emitStackArg map param) := by
  rcases formatOperand_complete descending isArgument.slot isArgument.value with
    ⟨src, format, complete⟩
  unfold emitStackArg
  rw [format]
  refine ⟨_, rfl, ?_⟩
  split
  · simp [complete]
  · split <;> simp [complete]

theorem emitRegisterArg_complete {param : Operand} (isArgument : IsArgument map param)
    {index : Nat} (inRegister : index < 6) :
    EmitsComplete (emitRegisterArg map index param) := by
  rcases formatOperand_complete descending isArgument.slot isArgument.value with
    ⟨src, format, complete⟩
  rcases Option.isSome_iff_exists.mp
    (isSome_paramRegister inRegister isArgument.sized).2 with ⟨reg, chosen⟩
  unfold emitRegisterArg
  simp only [format, chosen, Option.bind_eq_bind, Option.bind_some]
  split
  · exact ⟨_, rfl, by simp [complete]⟩
  · exact ⟨_, rfl, by simp [complete]⟩

theorem emitCall_complete {params : List Operand} {call : Operation}
    (arguments : ∀ param ∈ params, IsArgument map param) (isCall : call.opcode = .call)
    (slots : ∀ operand ∈ formatted call, HasSlot map operand) (formats : Formats call) :
    EmitsComplete (emitCall params call map) := by
  rcases emitAll_complete (emitStackArg map) (params.drop 6).reverse
    (fun param listed => emitStackArg_complete descending
      (arguments param (List.mem_of_mem_drop (List.mem_reverse.mp listed))))
    with ⟨pushes, pushesRun, pushesComplete⟩
  rcases emitAll_complete (fun param => emitRegisterArg map param.2 param.1)
    (params.take 6).zipIdx
    (fun param listed => by
      rcases List.mem_zipIdx listed with ⟨-, inTake, isParam⟩
      rw [List.length_take] at inTake
      apply emitRegisterArg_complete descending _ (by omega)
      rw [isParam]
      exact arguments _ (List.mem_of_mem_take (List.getElem_mem _)))
    with ⟨moves, movesRun, movesComplete⟩
  unfold emitCall
  simp only [pushesRun, movesRun, Option.bind_eq_bind, Option.bind_some]
  have before (align release : List Item) (alignComplete : Complete align)
      (releaseComplete : Complete release) :
      Complete (align ++ pushes ++ moves ++
        [emit .call [.symbol (functionName call.operand2)]] ++ release) := by
    simp [alignComplete, releaseComplete, pushesComplete, movesComplete]
  have aligned : Complete (if (params.length - 6) % 2 > 0 then
      [emit .sub [.register .rsp, .immediate "8"]] else []) := by
    split <;> simp
  have released : Complete (if params.length - 6 + (params.length - 6) % 2 > 0 then
      [emit .add [.register .rsp,
        .immediate (toString ((params.length - 6 + (params.length - 6) % 2) * 8))]]
      else []) := by
    split
    · simp
    · exact complete_nil
  by_cases nothing : call.operand1 = .none
  · rw [if_pos nothing]
    exact ⟨_, rfl, before _ _ aligned released⟩
  · rw [if_neg nothing]
    rcases formatted_complete descending slots formats call.operand1
      (by simp [formatted, isCall, nothing]) with ⟨dst, format, complete⟩
    rw [format]
    exact ⟨_, rfl, by
      rw [complete_append]
      exact ⟨before _ _ aligned released, by simp [complete]⟩⟩

/-- Operations whose operands have values and slots, after the arguments that were
passed before them. -/
theorem emitOperations_complete {operations : List Operation}
    (slots : ∀ operation ∈ operations, ∀ operand ∈ formatted operation, HasSlot map operand)
    (formats : ∀ operation ∈ operations, Formats operation)
    (sized : ∀ operation ∈ operations, operation.opcode = .param →
      operation.operand1.valueType.widthBytes ≠ 0) {params : List Operand}
    (arguments : ∀ param ∈ params, IsArgument map param) :
    EmitsComplete (emitOperations map params operations) := by
  induction operations generalizing params with
  | nil => exact ⟨[], rfl, complete_nil⟩
  | cons operation rest inductionHypothesis =>
      rw [List.forall_mem_cons] at slots formats sized
      have restComplete (params : List Operand)
          (arguments : ∀ param ∈ params, IsArgument map param) :=
        inductionHypothesis slots.2 formats.2 sized.2 arguments
      unfold emitOperations
      split
      · rename_i isParam
        apply restComplete
        rw [List.forall_mem_append, List.forall_mem_singleton]
        have listed : operation.operand1 ∈ formatted operation := by
          simp [formatted, isParam]
        exact ⟨arguments, formats.1 _ listed, slots.1 _ listed, sized.1 isParam⟩
      · rename_i isCall
        rcases emitCall_complete descending arguments isCall slots.1 formats.1 with
          ⟨first, firstRun, firstComplete⟩
        rcases restComplete [] (List.forall_mem_nil _) with ⟨others, othersRun, othersComplete⟩
        exact ⟨first ++ others, by simp [firstRun, othersRun],
          by simp [firstComplete, othersComplete]⟩
      · rcases emitOperation_complete descending slots.1 formats.1 with
          ⟨first, firstRun, firstComplete⟩
        rcases restComplete params arguments with ⟨others, othersRun, othersComplete⟩
        exact ⟨first ++ others, by simp [firstRun, othersRun],
          by simp [firstComplete, othersComplete]⟩

end Calls

/-! ## Functions -/

/-- No instruction of the function has an empty operand. -/
structure EmittedFunction.Complete (func : EmittedFunction) : Prop where
  entry : Codegen.Complete func.entry
  parameters : Codegen.Complete func.parameters
  operations : Codegen.Complete func.operations

/-- The operands that are formatted are among those for which slots are made. -/
theorem formatted_subset_registered (operation : Operation) :
    formatted operation ⊆ StackMap.registered operation := by
  unfold formatted StackMap.registered
  split <;> simp_all [List.subset_def]

theorem hasSlot_functionMap {func : IrFunction} {operation : Operation}
    (inFunction : operation ∈ func.operations) :
    ∀ operand ∈ formatted operation, HasSlot (functionMap func) operand := by
  intro operand isFormatted name named sized
  apply StackMap.isSome_lookupEntry_foldl named sized
  exact List.mem_append_right _ (List.mem_flatMap.mpr
    ⟨operation, inFunction, formatted_subset_registered operation isFormatted⟩)

/-- Every parameter has a slot. -/
theorem isSome_lookupEntry_parameter {func : IrFunction} {param : Parameter}
    (isParameter : param ∈ func.parameters) (sized : param.type.widthBytes ≠ 0) :
    ((functionMap func).lookupEntry param.name).isSome := by
  have registered : Operand.variable param.type param.name ∈
      registeredOperands func.parameters func.operations :=
    List.mem_append_left _ (List.mem_map_of_mem isParameter)
  have named : StackMap.slotName (.variable param.type param.name) = some param.name := rfl
  exact StackMap.isSome_lookupEntry_foldl named sized registered {}

theorem emitParameter_complete {map : StackMap} (descending : map.Descending)
    {param : Parameter} (sized : param.type.widthBytes ≠ 0)
    (slot : (map.lookupEntry param.name).isSome) (index : Nat) :
    EmitsComplete (emitParameter map index param) := by
  rcases stackOffset_of_isSome descending slot with ⟨entry, -, offset⟩
  unfold emitParameter
  simp only [offset, Option.bind_eq_bind, Option.bind_some]
  by_cases inRegister : index < 6
  · rcases Option.isSome_iff_exists.mp (isSome_paramRegister inRegister sized).1 with
      ⟨reg, chosen⟩
    rw [if_pos inRegister, chosen]
    exact ⟨_, rfl, by simp [memoryArgument]⟩
  · rw [if_neg inRegister]
    exact ⟨_, rfl, by simp [memoryArgument]⟩

/-- A function whose operations and parameters have values is printed. -/
theorem emitDefinition_complete {func : IrFunction}
    (formats : ∀ operation ∈ func.operations, Formats operation)
    (sized : ∀ operation ∈ func.operations, operation.opcode = .param →
      operation.operand1.valueType.widthBytes ≠ 0)
    (parameters : ∀ param ∈ func.parameters, param.type.widthBytes ≠ 0) :
    ∃ emitted, emitDefinition func = some emitted ∧ emitted.Complete := by
  have descending : (functionMap func).Descending :=
    stackPopulate_descending func.parameters func.operations
  rcases emitAll_complete (fun param => emitParameter (functionMap func) param.2 param.1)
    func.parameters.zipIdx
    (fun param listed => by
      rcases List.mem_zipIdx listed with ⟨-, -, isParam⟩
      have isParameter : param.1 ∈ func.parameters := by
        rw [isParam]
        exact List.getElem_mem _
      exact emitParameter_complete descending (parameters _ isParameter)
        (isSome_lookupEntry_parameter isParameter (parameters _ isParameter)) _)
    with ⟨moves, movesRun, movesComplete⟩
  rcases emitOperations_complete descending
    (fun operation inFunction => hasSlot_functionMap inFunction) formats sized
    (List.forall_mem_nil _) with ⟨items, itemsRun, itemsComplete⟩
  unfold emitDefinition
  simp only [movesRun, itemsRun, Option.bind_eq_bind, Option.bind_some]
  refine ⟨_, rfl, ?_, movesComplete, itemsComplete⟩
  simp

end Sulfur.Codegen
