import Sulfur.Codegen.Arithmetic
import Sulfur.Codegen.Format
import Sulfur.Codegen.Frame

/-!
# The emitters of conversions and comparisons

A conversion extends or cuts its operand, a comparison sets the byte of a truth value, and
a conditional jump tests one.  With the emitters of arithmetic they compute the results of
the operations.
-/

namespace Sulfur.Codegen

open Machine Ir Word

variable (calls : String → MachineState → Option MachineState) {map : StackMap}
  {m : MachineState} {operation : Operation} {size dstSize : SizePrefix}
  {src src1 src2 : Argument} {offset a b : Int}

/-! ## Conversions -/

/-- The low part of an operand is moved. -/
theorem computes_narrow (le : dstSize.bits ≤ size.bits) (denotes : m.Denotes size a src) :
    Computes calls [emit .mov [.register (accumulator size), src]] m dstSize
      (BitVec.ofInt _ a) := by
  apply computes_last
  · rw [execItems_singleton, exec_mov_accumulator calls denotes]
  · exact (SameFrame.refl m).writeAccumulator _ _
  · rw [m.read_accumulator _ _ le size.bits_le, Format.setWidth_ofInt le]

/-- A slot of a narrower size is extended into a register. -/
theorem extend_eq (isSigned : Bool) (reg : Register) {slot : Int}
    (denotes : m.Denotes size a (.memory size slot)) (lt : size.bits < reg.size.bits)
    (range : Format.InRange ⟨isSigned, size.bits⟩ a) :
    m.extend isSigned (.register reg) (.memory size slot) =
      some (m.write reg (BitVec.ofInt reg.size.bits a)) := by
  have extended := Format.ofInt_of_inRange lt.le range
  have loaded : m.value size (.memory size slot) = some (BitVec.ofInt _ a) := by
    simp [MachineState.value, denotes.2]
  simp only [MachineState.extend, Argument.size, Option.bind_eq_bind, Option.bind_some, if_pos lt,
    loaded]
  rw [extended]
  rfl

/-- `movsx`, `movsxd`, `movzx` or a move to `eax`, by type and size. -/
theorem computes_widen {type : ValueType} (scalar : type.IsScalar) (range : type.InRange a)
    {slot : Int} (denotes : m.Denotes (sizeOf type) a (.memory (sizeOf type) slot))
    (lt : (sizeOf type).bits < dstSize.bits) :
    Computes calls
      [if type.isSigned ∧ type.widthBytes = 4 then
        emit .movsxd [.register (accumulator dstSize), .memory (sizeOf type) slot]
      else if type.isSigned then
        emit .movsx [.register (accumulator dstSize), .memory (sizeOf type) slot]
      else if type.widthBytes = 4 then
        emit .mov [.register .eax, .memory (sizeOf type) slot]
      else
        emit .movzx [.register (accumulator dstSize), .memory (sizeOf type) slot]] m dstSize
      (BitVec.ofInt _ a) := by
  have sized := size_accumulator dstSize
  have inFormat : Format.InRange ⟨type.isSigned, (sizeOf type).bits⟩ a := by
    rwa [bits_sizeOf scalar]
  have extend := extend_eq type.isSigned (accumulator dstSize) denotes (by rwa [sized]) inFormat
  rw [sized] at extend
  have through {item : Item} (run : execItems calls [item] m = m.extend type.isSigned
      (.register (accumulator dstSize)) (.memory (sizeOf type) slot)) :
      Computes calls [item] m dstSize (BitVec.ofInt _ a) :=
    computes_last _ (run.trans extend) ((SameFrame.refl m).writeAccumulator _ _)
      (MachineState.read_accumulator_self _ _ _)
  cases type with
  | void | unresolved =>
      simp [ValueType.IsScalar, ValueType.isInteger, ValueType.isSigned,
        ValueType.isUnsigned] at scalar
  | i8 | i16 | i32 | u8 | u16 | bool => exact through (execItems_singleton calls _ _ m)
  | i64 | u64 => exact absurd lt (not_lt.mpr dstSize.bits_le)
  | u32 =>
      -- a move to `eax` clears the upper half of `rax`
      have wide : dstSize = .qword := by
        cases dstSize <;> first | rfl | exact absurd lt (by decide)
      subst wide
      have run : execItems calls [emit .mov [.register .eax, .memory .dword slot]] m = _ :=
        (execItems_singleton calls _ _ m).trans (exec_mov_accumulator calls denotes)
      apply computes_last _ run ((SameFrame.refl m).writeAccumulator _ _)
      have zeroExtended := Format.ofInt_of_inRange (show 32 ≤ 64 by decide) inFormat
      exact (m.read_write_half _ .rax rfl rfl _).trans zeroExtended.symm

/-- An immediate in the range of its type has the value of its digits. -/
def Exact (operand : Operand) (a : Int) : Prop :=
  ∀ type value, operand = .immediate type value → (decimal value : Int) = a

theorem memory_of_not_immediate {operand : Operand}
    (formats : formatOperand map operand = some src) (denotes : m.Denotes size a src)
    (notImmediate : ¬operand.isImmediate) : ∃ slot, src = .memory size slot := by
  cases operand with
  | immediate => exact absurd rfl notImmediate
  | «variable» | temporary =>
      rcases Option.map_eq_some_iff.mp formats with ⟨slot, -, rfl⟩
      exact ⟨slot, by rw [memoryArgument, denotes.1]⟩
  | none | label | function =>
      obtain rfl := Option.some.inj formats
      exact denotes.elim

/-- An immediate that is exact denotes its value at every size. -/
theorem Exact.denotes {operand : Operand} (exact_ : Exact operand a)
    (formats : formatOperand map operand = some src) (immediate : operand.isImmediate)
    (m : MachineState) (size : SizePrefix) : m.Denotes size a src := by
  cases operand with
  | immediate type value =>
      obtain rfl := Option.some.inj formats
      rw [MachineState.Denotes, exact_ type value rfl]
  | none | label | function | «variable» | temporary => cases immediate

/-- `emit_convert`. -/
theorem emitConvert_performs {source target : ValueType}
    (isSource : operation.operand2.valueType = source)
    (isTarget : operation.operand1.valueType = target) (sourceScalar : source.IsScalar)
    (targetScalar : target.IsScalar) (range : source.InRange a)
    (exact_ : Exact operation.operand2 a)
    (setup : UnarySetup map m operation (sizeOf source) (sizeOf target) src offset a) :
    Performs calls (some (emitConvert operation src (.memory (sizeOf target) offset))) m
      (sizeOf target) offset (BitVec.ofInt _ a) := by
  have order (first second : ValueType) (scalar : first.IsScalar) (other : second.IsScalar) :
      (sizeOf first).bits < (sizeOf second).bits ↔ first.widthBytes < second.widthBytes := by
    rw [bits_sizeOf scalar, bits_sizeOf other, ValueType.widthBits_eq_widthBytes,
      ValueType.widthBits_eq_widthBytes]
    omega
  unfold emitConvert
  simp only [isSource, isTarget, registerFromSize_eq]
  by_cases direct : operation.operand2.isImmediate ∨ source.widthBytes = target.widthBytes
  · rw [if_pos direct]
    have denotes : m.Denotes (sizeOf target) a src := by
      rcases direct with immediate | same
      · exact exact_.denotes setup.source immediate m _
      · have denotes := setup.denotes
        rwa [sizeOf, same] at denotes
    exact (computes_narrow calls le_rfl denotes).performs calls rfl
  · rw [if_neg direct]
    rcases not_or.mp direct with ⟨notImmediate, differ⟩
    by_cases wider : source.widthBytes < target.widthBytes
    · rw [if_pos wider]
      rcases memory_of_not_immediate setup.source setup.denotes notImmediate with ⟨slot, rfl⟩
      have lt := (order source target sourceScalar targetScalar).mpr wider
      exact (computes_widen calls sourceScalar range setup.denotes lt).performs calls rfl
    · rw [if_neg wider]
      have le : (sizeOf target).bits ≤ (sizeOf source).bits := by
        rw [← not_lt, order source target sourceScalar targetScalar]
        exact wider
      exact (computes_narrow calls le setup.denotes).performs calls rfl

/-- `emit_cast`. -/
theorem emitCast_performs {source target : ValueType}
    (isSource : operation.operand2.valueType = source)
    (isTarget : operation.operand1.valueType = target) (sourceScalar : source.IsScalar)
    (targetScalar : target.IsScalar) (range : source.InRange a)
    (exact_ : Exact operation.operand2 a)
    (setup : UnarySetup map m operation (sizeOf source) (sizeOf target) src offset a) :
    Performs calls (emitCast operation map) m (sizeOf target) offset (BitVec.ofInt _ a) := by
  unfold emitCast
  rw [setup.formats]
  exact emitConvert_performs calls isSource isTarget sourceScalar targetScalar range exact_ setup

/-- `emit_assign`, which prints nothing for a slot that is assigned to itself. -/
theorem emitAssign_performs {source target : ValueType}
    (isSource : operation.operand2.valueType = source)
    (isTarget : operation.operand1.valueType = target) (sourceScalar : source.IsScalar)
    (targetScalar : target.IsScalar) (range : source.InRange a)
    (exact_ : Exact operation.operand2 a)
    (setup : UnarySetup map m operation (sizeOf source) (sizeOf target) src offset a) :
    Performs calls (emitAssign operation map) m (sizeOf target) offset (BitVec.ofInt _ a) := by
  unfold emitAssign
  rw [setup.formats]
  simp only [Option.bind_eq_bind, Option.bind_some]
  by_cases same : src.text = (Argument.memory (sizeOf target) offset).text
  · rw [if_pos same]
    obtain rfl := eq_of_text setup.numeral setup.source setup.denotes same.symm
    rcases setup.denotes with ⟨sizes, loaded⟩
    rw [← sizes] at loaded
    exact ⟨[], m, rfl, rfl, ⟨loaded, fun _ _ => rfl, rfl, rfl⟩⟩
  · rw [if_neg same]
    exact emitConvert_performs calls isSource isTarget sourceScalar targetScalar range exact_
      setup

/-! ## Comparisons -/

/-- The comparison of two integers. -/
def compares : BinaryOp → Int → Int → Bool
  | .relationalEqual, x, y => x = y
  | .relationalNotEqual, x, y => x ≠ y
  | .relationalLess, x, y => x < y
  | .relationalLessEqual, x, y => x ≤ y
  | .relationalGreater, x, y => x > y
  | .relationalGreaterEqual, x, y => x ≥ y
  | _, _, _ => false

theorem zero_ofBits (format : Format) (x y : BitVec format.width) :
    (Flags.ofSub x y).zero = decide (format.ofBits x = format.ofBits y) := by
  rw [Flags.zero_ofSub, decide_eq_decide]
  constructor
  · exact congrArg _
  · intro same
    rw [← format.ofInt_ofBits x, same, format.ofInt_ofBits]

/-- The order of two integers in the flags: the carry, or the sign unless it overflows. -/
theorem less_ofBits (isSigned : Bool) {w : Nat} (x y : BitVec w) :
    (if isSigned then (Flags.ofSub x y).sign != (Flags.ofSub x y).overflow
      else (Flags.ofSub x y).carry) =
      decide (Format.ofBits ⟨isSigned, w⟩ x < Format.ofBits ⟨isSigned, w⟩ y) := by
  cases isSigned with
  | false => simp [Format.ofBits]
  | true => simp [Format.ofBits]

/-- The comparisons, from equality and one order. -/
theorem compares_eq (op : BinaryOp) (left right : Int) :
    compares op left right =
      match op with
      | .relationalEqual => decide (left = right)
      | .relationalNotEqual => !decide (left = right)
      | .relationalLess => decide (left < right)
      | .relationalLessEqual => decide (left = right) || decide (left < right)
      | .relationalGreater => !decide (left = right) && !decide (left < right)
      | .relationalGreaterEqual => !decide (left < right)
      | _ => false := by
  rw [Bool.eq_iff_iff]
  cases op <;> simp [compares] <;> omega

/-- The flags of a comparison meet the condition of the `set` instruction exactly when the
integers of the words compare. -/
theorem condition_setInstruction {op : BinaryOp} (relational : op.isRelational)
    (isSigned : Bool) {w : Nat} (x y : BitVec w) :
    (setInstruction op isSigned).bind (MachineState.condition (Flags.ofSub x y)) =
      some (compares op (Format.ofBits ⟨isSigned, w⟩ x) (Format.ofBits ⟨isSigned, w⟩ y)) := by
  have zero := zero_ofBits ⟨isSigned, w⟩ x y
  have less := less_ofBits isSigned x y
  rw [compares_eq, ← zero, ← less]
  generalize Flags.ofSub x y = flags
  rcases flags with ⟨isZero, sign, carry, overflow⟩
  have notBne : (sign == overflow) = !(sign != overflow) := by
    cases sign <;> cases overflow <;> rfl
  cases isSigned with
  | false =>
      cases op <;> first
        | exact absurd relational Bool.false_ne_true
        | simp [setInstruction, MachineState.condition, Bool.or_comm, Bool.and_comm]
  | true =>
      cases op <;> first
        | exact absurd relational Bool.false_ne_true
        | simp [setInstruction, MachineState.condition, notBne]

/-- The accumulator is compared with an operand. -/
theorem exec_cmp {arg : Argument} {y : BitVec size.bits} (value : m.value size arg = some y) :
    Instruction.exec calls m ⟨.cmp, [.register (accumulator size), arg]⟩ =
      some { m with flags := some (Flags.ofSub (m.read (accumulator size) size.bits) y) } := by
  have own : m.value size (.register (accumulator size)) =
      some (m.read (accumulator size) size.bits) := if_pos (size_accumulator size)
  simp [Instruction.exec, MachineState.compare, Argument.size, Argument.isMemory, own, value]

theorem SameFrame.flags (m : MachineState) (flags : Option Flags) :
    SameFrame m { m with flags := flags } :=
  ⟨rfl, rfl, rfl⟩

/-- A comparison of the accumulator, and the byte of its truth value. -/
theorem computes_compare {set : Mnemonic} {arg : Argument} {y : BitVec size.bits}
    (value : m.value size arg = some y) {holds : Bool}
    (condition : MachineState.condition
      (Flags.ofSub (m.read (accumulator size) size.bits) y) set = some holds) :
    Computes calls [emit .cmp [.register (accumulator size), arg], emit set [.register .al]] m
      .byte (if holds then 1 else 0) := by
  let compared : MachineState :=
    { m with flags := some (Flags.ofSub (m.read (accumulator size) size.bits) y) }
  have run : execItems calls [emit .cmp [.register (accumulator size), arg]] m =
      some compared :=
    (execItems_singleton calls _ _ m).trans (exec_cmp calls value)
  have isSet : Instruction.exec calls compared ⟨set, [.register .al]⟩ =
      compared.set set (.register .al) := by
    cases set <;> first | rfl | cases condition
  have written : compared.set set (.register .al) =
      some (compared.write .al (if holds then 1 else 0 : BitVec 8)) := by
    simp only [MachineState.set, Argument.size, compared, Option.bind_eq_bind, Option.bind_some,
      condition]
    rfl
  apply Computes.append run (SameFrame.flags m _)
  apply computes_last
  · rw [execItems_singleton, isSet, written]
  · exact (SameFrame.refl compared).writeAccumulator .byte _
  · exact compared.read_accumulator_self .byte _

/-- `emit_relational`. -/
theorem emitRelational_performs {op : BinaryOp} (relational : op.isRelational)
    {type : ValueType} (isType : operation.operand2.valueType = type) (scalar : type.IsScalar)
    (setup : Setup map m operation (sizeOf type) .byte src1 src2 offset a b) :
    Performs calls (emitRelational op operation map) m .byte offset
      (BitVec.ofInt 8 (ofBool (compares op (type.wrap a) (type.wrap b)))) := by
  rcases exec_loadLargeImmediate calls scalar setup.second setup.right with
    ⟨loaded, load, same, supplies, -⟩
  have wrapped (value : Int) : type.wrap value =
      Format.ofBits ⟨type.isSigned, (sizeOf type).bits⟩
        (BitVec.ofInt (sizeOf type).bits value) := by
    rw [ValueType.wrap, Format.wrap, ValueType.format, bits_sizeOf scalar]
  let first := loaded.write (accumulator (sizeOf type)) (BitVec.ofInt (sizeOf type).bits a)
  have value := supplies first ((SameFrame.refl loaded).writeAccumulator _ _)
    (loaded.registers_write_of_ne (by rw [family_accumulator]; exact Family.noConfusion) _)
  have condition := condition_setInstruction relational type.isSigned
    (BitVec.ofInt (sizeOf type).bits a) (BitVec.ofInt (sizeOf type).bits b)
  rw [← wrapped, ← wrapped, Option.bind_eq_some_iff] at condition
  rcases condition with ⟨set, isSet, holds⟩
  rw [← loaded.read_accumulator_self (sizeOf type) (BitVec.ofInt _ a)] at holds
  have computes := Computes.append load same
    (Computes.mov (same.denotes setup.left) (computes_compare calls value holds))
  unfold emitRelational
  rw [setup.formats]
  simp only [Option.bind_eq_bind, Option.bind_some, isType, registerFromSize_eq, isSet]
  have word : BitVec.ofInt 8 (ofBool (compares op (type.wrap a) (type.wrap b))) =
      if compares op (type.wrap a) (type.wrap b) then 1 else 0 := by
    cases compares op (type.wrap a) (type.wrap b) <;> rfl
  rw [word]
  apply computes.performs
  rw [List.append_assoc]
  rfl

/-! ## Conditional jumps -/

/-- `emit_jmp_cond`: its `je` jumps when the condition is zero. -/
theorem emitJmpCond_tests {type : ValueType} (isType : operation.operand2.valueType = type)
    (scalar : type.IsScalar) (range : type.InRange a)
    (source : formatOperand map operation.operand2 = some src)
    (denotes : m.Denotes (sizeOf type) a src) :
    ∃ items next, emitJmpCond operation map =
        some (items ++ [emit .je [.label (labelId operation.operand1)]]) ∧
      execItems calls items m = some next ∧ SameFrame m next ∧
      next.jumps .je = some (decide (a = 0)) := by
  let first := m.write (accumulator (sizeOf type)) (BitVec.ofInt (sizeOf type).bits a)
  have zero : first.value (sizeOf type) (.immediate "0") = some 0 := by
    cases sizeOf type <;> rfl
  have load := exec_mov_accumulator calls denotes
  have compare := exec_cmp calls zero
  rw [m.read_accumulator_self] at compare
  have own : Format.ofBits ⟨type.isSigned, (sizeOf type).bits⟩ (BitVec.ofInt _ a) = a := by
    have value := Format.wrap_of_inRange range
    rwa [ValueType.format, ← bits_sizeOf scalar] at value
  refine ⟨[emit .mov [.register (accumulator (sizeOf type)), src],
      emit .cmp [.register (accumulator (sizeOf type)), .immediate "0"]],
    { first with flags := some (Flags.ofSub (BitVec.ofInt (sizeOf type).bits a) 0) },
    ?_, ?_, ?_, ?_⟩
  · unfold emitJmpCond
    rw [source, isType]
    simp only [Option.bind_eq_bind, Option.bind_some, registerFromSize_eq]
    rfl
  · rw [execItems_emit, load, Option.bind_some, execItems_singleton, compare]
  · exact ((SameFrame.refl m).writeAccumulator _ _).trans (SameFrame.flags first _)
  · have denoted := zero_ofBits ⟨type.isSigned, (sizeOf type).bits⟩
      (BitVec.ofInt (sizeOf type).bits a) 0
    rw [MachineState.jumps, Option.map_some, denoted, own]
    cases type.isSigned <;> simp [Format.ofBits]

/-! ## Words of results -/

section Words

variable {type : ValueType} (scalar : type.IsScalar)

include scalar

theorem format_eq : type.format = ⟨type.isSigned, (sizeOf type).bits⟩ := by
  rw [bits_sizeOf scalar]
  rfl

theorem ofInt_bitwise (op : ∀ w : Nat, BitVec w → BitVec w → BitVec w) (left right : Int) :
    BitVec.ofInt (sizeOf type).bits (type.format.bitwise op left right) =
      op _ (BitVec.ofInt _ left) (BitVec.ofInt _ right) := by
  rw [format_eq scalar]
  exact Format.ofInt_ofBits ⟨type.isSigned, (sizeOf type).bits⟩ _

theorem ofInt_wrap_shiftRight (value : Int) (amount : Nat) :
    BitVec.ofInt (sizeOf type).bits (type.wrap value / 2 ^ amount) =
      if type.isSigned then (BitVec.ofInt (sizeOf type).bits value).sshiftRight amount
      else BitVec.ofInt (sizeOf type).bits value >>> amount := by
  rw [ValueType.wrap, format_eq scalar]
  exact ofInt_shiftRight _ _ _

end Words

/-! ## Every operation -/

/-- The widths of the operands of an operation that computes are those that its emitter
assumes, and an immediate that is converted has the value of its digits. -/
def WidthsAgree (operation : Operation) : Prop :=
  let width (operand : Operand) := operand.valueType.widthBits
  match operation.opcode with
  | .binary op =>
      if op.isRelational then
        width operation.operand2 = width operation.operand3 ∧
          operation.operand1.valueType = .bool
      else if op.isShift then
        width operation.operand2 = width operation.operand1
      else
        width operation.operand2 = width operation.operand1 ∧
          width operation.operand3 = width operation.operand1
  | .negate | .bitwiseNot | .logicalNot =>
      width operation.operand2 = width operation.operand1
  | .assign | .cast =>
      ∀ type value, operation.operand2 = .immediate type value →
        type.InRange (decimal value)
  | _ => True

/-- The operands are scalars with slots or decimal digits, and their widths agree. -/
structure Selectable (map : StackMap) (operation : Operation) : Prop where
  scalars : ∀ operand ∈ formatted operation, operand.valueType.IsScalar
  numerals : ∀ operand ∈ formatted operation, Numeral operand
  slots : ∀ operand ∈ formatted operation, HasSlot map operand
  destination : operation.operand1.inMemory
  widths : WidthsAgree operation

/-- The operation computes its result into the slot of its destination. -/
def Implements (map : StackMap) (m : MachineState) (operation : Operation) (x : Int) : Prop :=
  ∃ offset, formatOperand map operation.operand1 =
      some (.memory (sizeOf operation.operand1.valueType) offset) ∧
    Performs calls (emitOperation operation map) m (sizeOf operation.operand1.valueType) offset
      (BitVec.ofInt _ x)

theorem sizeOf_eq {first second : ValueType} (widths : first.widthBits = second.widthBits) :
    sizeOf first = sizeOf second := by
  rw [sizeOf, sizeOf, ValueType.widthBytes, ValueType.widthBytes, widths]

section Operands

variable (descending : map.Descending) {operand : Operand}

include descending

/-- The slot of a destination. -/
theorem exists_format_memory (scalar : operand.valueType.IsScalar)
    (slot : HasSlot map operand) (inMemory : operand.inMemory) :
    ∃ offset, formatOperand map operand = some (.memory (sizeOf operand.valueType) offset) := by
  have sized : operand.valueType.widthBytes ≠ 0 := by
    intro empty
    have bits := bits_sizeOf scalar
    have positive := (sizeOf operand.valueType).bits_pos
    rw [bits, ValueType.widthBits_eq_widthBytes, empty] at positive
    exact absurd positive (Nat.lt_irrefl 0)
  cases operand with
  | «variable» type name | temporary type name =>
      rcases stackOffset_of_isSome descending (slot _ rfl sized) with ⟨entry, -, offset⟩
      exact ⟨entry.offset, by simp [formatOperand, offset, memoryArgument, sizeOf]⟩
  | none | label | function | immediate => cases inMemory

/-- An operand that is read denotes its value. -/
theorem exists_format_denotes (scalar : operand.valueType.IsScalar)
    (slot : HasSlot map operand) {a : Int} (read : operand.read (frameStore map m) = some a) :
    ∃ src, formatOperand map operand = some src ∧ m.Denotes (sizeOf operand.valueType) a src := by
  have formats : ∃ src, formatOperand map operand = some src := by
    cases operand with
    | immediate type value => exact ⟨.immediate value, rfl⟩
    | «variable» | temporary =>
        rcases exists_format_memory descending scalar slot rfl with ⟨offset, formats⟩
        exact ⟨_, formats⟩
    | none | label | function => cases read
  rcases formats with ⟨src, formats⟩
  exact ⟨src, formats, denotes_formatOperand scalar formats read⟩

end Operands

/-- The operands of a binary operation, as they are formatted. -/
theorem exists_setup (descending : map.Descending) {op : BinaryOp}
    (binary : operation.opcode = .binary op) (selectable : Selectable map operation)
    (readLeft : operation.operand2.read (frameStore map m) = some a)
    (readRight : operation.operand3.read (frameStore map m) = some b) :
    ∃ src1 src2 offset, formatOperand map operation.operand2 = some src1 ∧
      formatOperand map operation.operand3 = some src2 ∧
      formatOperand map operation.operand1 =
        some (.memory (sizeOf operation.operand1.valueType) offset) ∧
      m.Denotes (sizeOf operation.operand2.valueType) a src1 ∧
      m.Denotes (sizeOf operation.operand3.valueType) b src2 ∧
      Numeral operation.operand2 := by
  have scalars := selectable.scalars
  have numerals := selectable.numerals
  have slots := selectable.slots
  simp only [formatted, binary, List.forall_mem_cons] at scalars numerals slots
  rcases exists_format_memory descending scalars.1 slots.1 selectable.destination with
    ⟨offset, destination⟩
  rcases exists_format_denotes descending scalars.2.1 slots.2.1 readLeft with
    ⟨src1, first, left⟩
  rcases exists_format_denotes descending scalars.2.2.1 slots.2.2.1 readRight with
    ⟨src2, second, right⟩
  exact ⟨src1, src2, offset, first, second, destination, left, right, numerals.2.1⟩

theorem Implements.intro {x : Int} (destination : formatOperand map operation.operand1 =
      some (.memory (sizeOf operation.operand1.valueType) offset))
    {word : BitVec (sizeOf operation.operand1.valueType).bits}
    (isWord : BitVec.ofInt _ x = word)
    (performs : Performs calls (emitOperation operation map) m
      (sizeOf operation.operand1.valueType) offset word) :
    Implements calls map m operation x :=
  ⟨offset, destination, isWord ▸ performs⟩

/-- Sums, differences, products, quotients and bitwise operations. -/
theorem implements_arithmetic (descending : map.Descending) {op : BinaryOp}
    (binary : operation.opcode = .binary op) (notRelational : op.isRelational = false)
    (notShift : op.isShift = false) (selectable : Selectable map operation) {x : Int}
    (readLeft : operation.operand2.read (frameStore map m) = some a)
    (readRight : operation.operand3.read (frameStore map m) = some b)
    (result : binaryResult op operation.operand1.valueType a b = some x) :
    Implements calls map m operation x := by
  have scalar : operation.operand1.valueType.IsScalar :=
    selectable.scalars _ (by simp [formatted, binary])
  have widths := selectable.widths
  simp only [WidthsAgree, binary, notRelational, notShift, Bool.false_eq_true, if_false] at widths
  rcases exists_setup descending binary selectable readLeft readRight with
    ⟨src1, src2, offset, first, second, destination, left, right, numeral⟩
  rw [sizeOf_eq widths.1] at left
  rw [sizeOf_eq widths.2] at right
  have setup : Setup map m operation (sizeOf operation.operand1.valueType)
      (sizeOf operation.operand1.valueType) src1 src2 offset a b :=
    ⟨first, second, destination, left, right, numeral⟩
  rcases operation with ⟨opcode, dst, fst, snd⟩
  dsimp only at *
  subst binary
  cases op with
  | add =>
      obtain rfl := Option.some.inj result
      have performs := emitBinary_performs calls .add
        (fun _ x y => x + y) (fun _ _ _ => rfl) scalar rfl setup
      refine Implements.intro calls destination ?_ performs
      dsimp only
      rw [ofInt_wrap scalar, BitVec.ofInt_add, ofInt_wrap scalar, ofInt_wrap scalar]
  | sub =>
      obtain rfl := Option.some.inj result
      have performs := emitBinary_performs calls .sub
        (fun _ x y => x - y) (fun _ _ _ => rfl) scalar rfl setup
      refine Implements.intro calls destination ?_ performs
      dsimp only
      rw [ofInt_wrap scalar, Int.sub_eq_add_neg, BitVec.ofInt_add, BitVec.ofInt_neg,
        ofInt_wrap scalar, ofInt_wrap scalar, BitVec.sub_eq_add_neg]
  | mul =>
      obtain rfl := Option.some.inj result
      refine Implements.intro calls destination ?_ (emitMult_performs calls scalar rfl setup)
      dsimp only
      rw [ofInt_wrap scalar, BitVec.ofInt_mul, ofInt_wrap scalar, ofInt_wrap scalar]
  | div =>
      rcases Option.ite_none_right_eq_some.mp result with ⟨⟨nonzero, fits⟩, quotient⟩
      obtain rfl := Option.some.inj quotient
      exact Implements.intro calls destination rfl
        (emitDiv_performs calls rfl scalar setup nonzero fits)
  | bitwiseAnd | logicalAnd =>
      obtain rfl := Option.some.inj result
      have performs := emitBinary_performs calls .and
        (fun _ x y => x &&& y) (fun _ _ _ => rfl) scalar rfl setup
      refine Implements.intro calls destination ?_ performs
      dsimp only
      rw [ofInt_bitwise scalar, ofInt_wrap scalar, ofInt_wrap scalar]
  | bitwiseOr | logicalOr =>
      obtain rfl := Option.some.inj result
      have performs := emitBinary_performs calls .or
        (fun _ x y => x ||| y) (fun _ _ _ => rfl) scalar rfl setup
      refine Implements.intro calls destination ?_ performs
      dsimp only
      rw [ofInt_bitwise scalar, ofInt_wrap scalar, ofInt_wrap scalar]
  | bitwiseXor =>
      obtain rfl := Option.some.inj result
      have performs := emitBinary_performs calls .xor
        (fun _ x y => x ^^^ y) (fun _ _ _ => rfl) scalar rfl setup
      refine Implements.intro calls destination ?_ performs
      dsimp only
      rw [ofInt_bitwise scalar, ofInt_wrap scalar, ofInt_wrap scalar]
  | bitwiseLshift | bitwiseRshift => cases notShift
  | relationalEqual | relationalNotEqual | relationalLess | relationalLessEqual
  | relationalGreater | relationalGreaterEqual => cases notRelational

/-- Shifts, whose amount may have a type of another width. -/
theorem implements_shift (descending : map.Descending) {op : BinaryOp}
    (binary : operation.opcode = .binary op) (shift : op.isShift)
    (selectable : Selectable map operation) {x : Int}
    (readLeft : operation.operand2.read (frameStore map m) = some a)
    (readRight : operation.operand3.read (frameStore map m) = some b)
    (result : binaryResult op operation.operand1.valueType a b = some x) :
    Implements calls map m operation x := by
  have scalar : operation.operand1.valueType.IsScalar :=
    selectable.scalars _ (by simp [formatted, binary])
  have notRelational : op.isRelational = false := by
    cases op <;> first | rfl | exact absurd shift Bool.false_ne_true
  have widths := selectable.widths
  simp only [WidthsAgree, binary, notRelational, shift, Bool.false_eq_true, if_false,
    if_true] at widths
  rcases exists_setup descending binary selectable readLeft readRight with
    ⟨src1, src2, offset, first, second, destination, left, right, -⟩
  rw [sizeOf_eq widths] at left
  rcases operation with ⟨opcode, dst, fst, snd⟩
  dsimp only at *
  subst binary
  have inBits (range : 0 ≤ b ∧ b < dst.valueType.widthBits) :
      ∃ amount : Nat, b = amount ∧ amount < (sizeOf dst.valueType).bits := by
    rcases Int.eq_ofNat_of_zero_le range.1 with ⟨amount, rfl⟩
    rw [bits_sizeOf scalar]
    exact ⟨amount, rfl, Int.ofNat_lt.mp range.2⟩
  cases op with
  | bitwiseLshift =>
      rcases Option.ite_none_right_eq_some.mp result with ⟨range, shifted⟩
      obtain rfl := Option.some.inj shifted
      rcases inBits range with ⟨amount, rfl, inWidth⟩
      have performs := emitShift_performs calls ⟨.binary .bitwiseLshift, dst, fst, snd⟩ .shl
        (fun _ x count => x <<< count) (fun _ _ _ => rfl) rfl inWidth first second
        destination left right
      refine Implements.intro calls destination ?_ performs
      dsimp only
      rw [ofInt_wrap scalar, Int.toNat_natCast, ofInt_shiftLeft, ofInt_wrap scalar]
  | bitwiseRshift =>
      rcases Option.ite_none_right_eq_some.mp result with ⟨range, shifted⟩
      obtain rfl := Option.some.inj shifted
      rcases inBits range with ⟨amount, rfl, inWidth⟩
      have word := ofInt_wrap_shiftRight scalar a amount
      have performs (mnemonic : Mnemonic) (op : ∀ w, BitVec w → Nat → BitVec w)
          (isOp : ∀ m dst count, Instruction.exec calls m ⟨mnemonic, [dst, count]⟩ =
            m.shift op dst count) :=
        emitShift_performs calls ⟨.binary .bitwiseRshift, dst, fst, snd⟩ mnemonic op isOp rfl
          inWidth first second destination left right
      by_cases sign : dst.valueType.isSigned
      · refine Implements.intro calls destination (word.trans (if_pos sign)) ?_
        change Performs calls (emitRshift _ map) _ _ _ _
        rw [emitRshift, if_pos sign]
        exact performs .sar (fun _ x count => x.sshiftRight count) fun _ _ _ => rfl
      · refine Implements.intro calls destination (word.trans (if_neg sign)) ?_
        change Performs calls (emitRshift _ map) _ _ _ _
        rw [emitRshift, if_neg sign]
        exact performs .shr (fun _ x count => x >>> count) fun _ _ _ => rfl
  | add | sub | mul | div | bitwiseAnd | logicalAnd | bitwiseOr | logicalOr | bitwiseXor
  | relationalEqual | relationalNotEqual | relationalLess | relationalLessEqual
  | relationalGreater | relationalGreaterEqual => cases shift

/-- Comparisons. -/
theorem implements_relational (descending : map.Descending) {op : BinaryOp}
    (binary : operation.opcode = .binary op) (relational : op.isRelational)
    (selectable : Selectable map operation) {x : Int}
    (readLeft : operation.operand2.read (frameStore map m) = some a)
    (readRight : operation.operand3.read (frameStore map m) = some b)
    (result : binaryResult op operation.operand2.valueType a b = some x) :
    Implements calls map m operation x := by
  have scalar : operation.operand2.valueType.IsScalar :=
    selectable.scalars _ (by simp [formatted, binary])
  have widths := selectable.widths
  simp only [WidthsAgree, binary, relational, if_true] at widths
  rcases exists_setup descending binary selectable readLeft readRight with
    ⟨src1, src2, offset, first, second, destination, left, right, numeral⟩
  rw [← sizeOf_eq widths.1] at right
  have isBool : x = ofBool (compares op (operation.operand2.valueType.wrap a)
      (operation.operand2.valueType.wrap b)) := by
    cases op <;> first
      | exact (Option.some.inj result).symm
      | exact absurd relational Bool.false_ne_true
  subst isBool
  rcases operation with ⟨opcode, dst, fst, snd⟩
  dsimp only at *
  subst binary
  have setup : Setup map m ⟨.binary op, dst, fst, snd⟩ (sizeOf fst.valueType) .byte src1 src2
      offset a b := by
    rw [widths.2] at destination
    exact ⟨first, second, destination, left, right, numeral⟩
  have performs := emitRelational_performs calls relational rfl scalar setup
  have emits : emitOperation ⟨.binary op, dst, fst, snd⟩ map =
      emitRelational op ⟨.binary op, dst, fst, snd⟩ map := by
    cases op <;> first | rfl | exact absurd relational Bool.false_ne_true
  refine ⟨offset, destination, ?_⟩
  rw [emits]
  dsimp only
  rw [widths.2]
  exact performs

/-- Operations with one source. -/
theorem exists_unarySetup (descending : map.Descending)
    (operands : formatted operation = [operation.operand1, operation.operand2])
    (selectable : Selectable map operation)
    (read : operation.operand2.read (frameStore map m) = some a) :
    ∃ src offset, UnarySetup map m operation (sizeOf operation.operand2.valueType)
      (sizeOf operation.operand1.valueType) src offset a := by
  have scalars := selectable.scalars
  have numerals := selectable.numerals
  have slots := selectable.slots
  simp only [operands, List.forall_mem_cons] at scalars numerals slots
  rcases exists_format_memory descending scalars.1 slots.1 selectable.destination with
    ⟨offset, destination⟩
  rcases exists_format_denotes descending scalars.2.1 slots.2.1 read with
    ⟨src, source, denotes⟩
  exact ⟨src, offset, source, destination, denotes, numerals.2.1⟩

theorem exact_of_read {operand : Operand} {store : Store} (read : operand.read store = some a)
    (fits : ∀ type value, operand = .immediate type value → type.InRange (decimal value)) :
    Exact operand a := by
  rintro type value rfl
  rw [← ValueType.wrap_of_inRange (fits type value rfl)]
  exact Option.some.inj read

/-- Every emitter computes the result of its operation. -/
theorem emitOperation_implements (descending : map.Descending)
    (selectable : Selectable map operation) {x : Int}
    (result : operation.result (frameStore map m) = some x) :
    Implements calls map m operation x := by
  rcases operation with ⟨opcode, dst, fst, snd⟩
  cases opcode with
  | binary op =>
      rcases Option.bind_eq_some_iff.mp result with ⟨a, readLeft, result⟩
      rcases Option.bind_eq_some_iff.mp result with ⟨b, readRight, result⟩
      cases relational : op.isRelational with
      | true =>
          rw [operationType, if_pos relational] at result
          exact implements_relational calls descending rfl relational selectable readLeft
            readRight result
      | false =>
          rw [operationType, relational, if_neg Bool.false_ne_true] at result
          cases shift : op.isShift with
          | true =>
              exact implements_shift calls descending rfl shift selectable readLeft readRight
                result
          | false =>
              exact implements_arithmetic calls descending rfl relational shift selectable
                readLeft readRight result
  | negate =>
      rcases Option.bind_eq_some_iff.mp result with ⟨a, read, result⟩
      obtain rfl := Option.some.inj result
      rcases exists_unarySetup descending rfl selectable read with ⟨src, offset, setup⟩
      have scalar := selectable.scalars dst (.head _)
      rw [sizeOf_eq selectable.widths] at setup
      refine Implements.intro calls setup.destination ?_ (emitNeg_performs calls rfl setup)
      rw [ofInt_wrap scalar, BitVec.ofInt_neg]
  | bitwiseNot =>
      rcases Option.bind_eq_some_iff.mp result with ⟨a, read, result⟩
      obtain rfl := Option.some.inj result
      rcases exists_unarySetup descending rfl selectable read with ⟨src, offset, setup⟩
      have scalar := selectable.scalars dst (.head _)
      rw [sizeOf_eq selectable.widths] at setup
      refine Implements.intro calls setup.destination ?_ (emitNot_performs calls rfl setup)
      change _ = ~~~BitVec.ofInt _ a
      rw [ofInt_wrap scalar, Int.sub_eq_add_neg, BitVec.ofInt_add, BitVec.ofInt_neg,
        BitVec.neg_eq_not_add, BitVec.ofInt_neg, ← BitVec.sub_eq_add_neg]
      exact BitVec.add_sub_cancel _ _
  | logicalNot =>
      rcases Option.bind_eq_some_iff.mp result with ⟨a, read, result⟩
      obtain rfl := Option.some.inj result
      rcases exists_unarySetup descending rfl selectable read with ⟨src, offset, setup⟩
      have scalar := selectable.scalars dst (.head _)
      rw [sizeOf_eq selectable.widths] at setup
      refine Implements.intro calls setup.destination ?_ (emitNot_performs calls rfl setup)
      rw [ofInt_bitwise scalar]
      rfl
  | assign =>
      rcases Option.bind_eq_some_iff.mp result with ⟨a, read, result⟩
      obtain rfl := Option.some.inj result
      rcases exists_unarySetup descending rfl selectable read with ⟨src, offset, setup⟩
      have scalar := selectable.scalars dst (.head _)
      have exact_ : Exact fst a := exact_of_read read selectable.widths
      exact Implements.intro calls setup.destination (ofInt_wrap scalar _)
        (emitAssign_performs calls rfl rfl (selectable.scalars fst (.tail _ (.head _))) scalar
          (Operand.read_inRange read) exact_ setup)
  | cast =>
      rcases Option.bind_eq_some_iff.mp result with ⟨a, read, result⟩
      obtain rfl := Option.some.inj result
      rcases exists_unarySetup descending rfl selectable read with ⟨src, offset, setup⟩
      have scalar := selectable.scalars dst (.head _)
      have exact_ : Exact fst a := exact_of_read read selectable.widths
      exact Implements.intro calls setup.destination (ofInt_wrap scalar _)
        (emitCast_performs calls rfl rfl (selectable.scalars fst (.tail _ (.head _))) scalar
          (Operand.read_inRange read) exact_ setup)
  | invalid | label | jmpCond | jmpIncond | ret | param | call => cases result

/-! ## The other slots -/

/-- A result in one slot leaves the other slots of the frame as they are. -/
theorem Stores.load_entry {next : MachineState} {word : BitVec size.bits}
    (stores : Stores m next size offset word) (descending : map.Descending)
    (fits : frameSize map ≤ 2 ^ 63) {own other : StackEntry} (isOwn : own ∈ map.entries)
    (isOther : other ∈ map.entries) (differ : other ≠ own) (atOwn : own.offset = offset)
    (inOwn : size.bits ≤ own.type.widthBits) :
    next.memory.load (next.address other.offset) other.type.widthBits =
      m.memory.load (m.address other.offset) other.type.widthBits := by
  have ownBits := own.type.widthBits_eq_widthBytes
  have otherBits := other.type.widthBits_eq_widthBytes
  have ownFrame := descending.inFrame own isOwn
  have otherFrame := descending.inFrame other isOther
  have ownDeep := offset_inFrame isOwn
  have otherDeep := offset_inFrame isOther
  have symmetric : Std.Symm StackEntry.Apart := ⟨fun _ _ => Or.symm⟩
  have ordered : map.entries.Pairwise StackEntry.Apart := descending.apart.imp Or.inr
  have apart : Machine.Apart (m.address offset) size.bits (m.address other.offset)
      other.type.widthBits := by
    rw [← atOwn]
    rcases ordered.forall isOwn isOther (Ne.symm differ) with before | after
    · apply apart_of_offsets
      · omega
      · omega
    · apply Machine.Apart.symm
      apply apart_of_offsets
      · omega
      · omega
  rw [m.address_eq stores.base]
  apply Memory.load_congr
  intro byte covered
  exact stores.others byte fun inside => apart byte inside covered

/-! ## Operations of a function -/

/-- The operands of an operation have scalar types and agree in width. -/
structure Consistent (operation : Operation) : Prop where
  scalars : ∀ operand ∈ formatted operation, operand.valueType.IsScalar
  numerals : ∀ operand ∈ formatted operation, Numeral operand
  destination : operation.opcode.computes → operation.operand1.inMemory
  widths : WidthsAgree operation

/-- What the code of an operation of a function does: it computes the result into the slot
of the destination, or tests the condition, and changes nothing else in the frame. -/
structure Implemented (func : IrFunction) (operation : Operation) (m : MachineState) : Prop where
  computes : ∀ x, operation.result (frameStore (functionMap func) m) = some x →
    ∃ offset items next,
      formatOperand (functionMap func) operation.operand1 =
        some (.memory (sizeOf operation.operand1.valueType) offset) ∧
      emitOperation operation (functionMap func) = some items ∧
      execItems calls items m = some next ∧
      Stores m next (sizeOf operation.operand1.valueType) offset (BitVec.ofInt _ x) ∧
      (frameSize (functionMap func) ≤ 2 ^ 63 → ∀ own ∈ (functionMap func).entries,
        own.offset = offset → own.type = operation.operand1.valueType →
        ∀ other ∈ (functionMap func).entries, other ≠ own →
          next.memory.load (next.address other.offset) other.type.widthBits =
            m.memory.load (m.address other.offset) other.type.widthBits)
  jumps : operation.opcode = .jmpCond → ∀ a,
    operation.operand2.read (frameStore (functionMap func) m) = some a →
    ∃ items next, emitOperation operation (functionMap func) =
        some (items ++ [emit .je [.label (labelId operation.operand1)]]) ∧
      execItems calls items m = some next ∧ SameFrame m next ∧
      next.jumps .je = some (decide (a = 0))

/-- Every instruction selector implements its operation. -/
theorem operations_implemented {func : IrFunction} (listed : operation ∈ func.operations)
    (consistent : Consistent operation) (m : MachineState) :
    Implemented calls func operation m := by
  have descending : (functionMap func).Descending := stackPopulate_descending _ _
  have slots := hasSlot_functionMap listed
  constructor
  · intro x result
    have computes : operation.opcode.computes := by
      rcases operation with ⟨opcode, dst, fst, snd⟩
      cases opcode <;> first | rfl | cases result
    have scalar : operation.operand1.valueType.IsScalar := by
      apply consistent.scalars
      rcases operation with ⟨opcode, dst, fst, snd⟩
      cases opcode <;> first | exact .head _ | cases computes
    rcases emitOperation_implements calls descending
      ⟨consistent.scalars, consistent.numerals, slots, consistent.destination computes,
        consistent.widths⟩ result with
      ⟨offset, destination, items, next, emitted, run, stores⟩
    refine ⟨offset, items, next, destination, emitted, run, stores, ?_⟩
    intro fits own isOwn atOwn typed other isOther differ
    apply stores.load_entry descending fits isOwn isOther differ atOwn
    rw [typed, bits_sizeOf scalar]
  · intro isJump a read
    have isFormatted : operation.operand2 ∈ formatted operation := by
      simp [formatted, isJump]
    have scalar := consistent.scalars _ isFormatted
    rcases exists_format_denotes descending scalar (slots _ isFormatted) read with
      ⟨src, source, denotes⟩
    have emits : emitOperation operation (functionMap func) =
        emitJmpCond operation (functionMap func) := by
      unfold emitOperation
      rw [isJump]
    rw [emits]
    exact emitJmpCond_tests calls rfl scalar (Operand.read_inRange read) source denotes

/-! ### A product of bytes -/

/-- Three times a parameter of type `i8`. -/
def productOperation : Operation :=
  ⟨.binary .mul, .temporary .i8 0, .variable .i8 "x@0", .immediate .i8 "3"⟩

/-- The function that returns this product. -/
def productFunction : IrFunction where
  name := "f"
  parameters := [{ type := .i8, name := "x@0" }]
  returnType := .i8
  operations := [productOperation, ⟨.ret, .temporary .i8 0, .none, .none⟩]
  nextTemp := 1
  qualifiers := default
  defined := true

/-- The parameter is -3. -/
def productState : MachineState where
  registers _ := 4096
  memory byte := if byte = 4095 then 0xFD else 0
  flags := none

theorem operations_implemented_product :
    Consistent productOperation ∧ Implemented (fun _ _ => none) productFunction productOperation
        productState ∧
      productOperation.result (frameStore (functionMap productFunction) productState) =
        some (-9) := by
  have consistent : Consistent productOperation := by
    constructor
    · intro operand listed
      simp only [productOperation, formatted, List.mem_cons, List.not_mem_nil, or_false] at listed
      rcases listed with rfl | rfl | rfl <;> exact .inl rfl
    · intro operand listed
      simp only [productOperation, formatted, List.mem_cons, List.not_mem_nil, or_false] at listed
      rcases listed with rfl | rfl | rfl
      · trivial
      · trivial
      · intro c isDigit
        rcases List.mem_singleton.mp (show c ∈ ['3'] from isDigit) with rfl
        rfl
    · exact fun _ => rfl
    · exact ⟨rfl, rfl⟩
  exact ⟨consistent, operations_implemented _ (.head _) consistent _, by decide⟩

end Sulfur.Codegen
