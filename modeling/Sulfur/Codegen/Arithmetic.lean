import Sulfur.Codegen.Select

/-!
# The emitters of arithmetic

Every emitter of an arithmetic operation moves the first operand into the accumulator,
works on it there, and moves the result into the slot of the destination.  When the
destination is the first operand, some of them work in the slot itself.
-/

namespace Sulfur.Codegen

open Machine Ir Word

variable (calls : String → MachineState → Option MachineState) {map : StackMap}
  {m : MachineState} {operation : Operation} {size dstSize : SizePrefix}
  {src src1 src2 : Argument} {offset a b : Int}

/-- The operands of an operation, as they are formatted and as they are read. -/
structure Setup (map : StackMap) (m : MachineState) (operation : Operation)
    (size dstSize : SizePrefix) (src1 src2 : Argument) (offset a b : Int) : Prop where
  first : formatOperand map operation.operand2 = some src1
  second : formatOperand map operation.operand3 = some src2
  destination : formatOperand map operation.operand1 = some (.memory dstSize offset)
  left : m.Denotes size a src1
  right : m.Denotes size b src2
  numeral : Numeral operation.operand2

/-- The operands of an operation with one source. -/
structure UnarySetup (map : StackMap) (m : MachineState) (operation : Operation)
    (size dstSize : SizePrefix) (src : Argument) (offset a : Int) : Prop where
  source : formatOperand map operation.operand2 = some src
  destination : formatOperand map operation.operand1 = some (.memory dstSize offset)
  denotes : m.Denotes size a src
  numeral : Numeral operation.operand2

/-- The items that are emitted store the word. -/
def Performs (emitted : Option (List Item)) (m : MachineState) (size : SizePrefix)
    (offset : Int) (word : BitVec size.bits) : Prop :=
  ∃ items next, emitted = some items ∧ execItems calls items m = some next ∧
    Stores m next size offset word

theorem Setup.formats (setup : Setup map m operation size dstSize src1 src2 offset a b) :
    formatBinary map operation = some (src1, src2, .memory dstSize offset) := by
  simp [formatBinary, setup.first, setup.second, setup.destination]

theorem UnarySetup.formats (setup : UnarySetup map m operation size dstSize src offset a) :
    formatUnary map operation = some (src, .memory dstSize offset) := by
  simp [formatUnary, setup.source, setup.destination]

/-- A source with the text of the destination is in its slot. -/
theorem eq_of_text {operand : Operand} (numeral : Numeral operand)
    (formats : formatOperand map operand = some src) (denotes : m.Denotes size a src)
    (text : (Argument.memory dstSize offset).text = src.text) :
    src = .memory dstSize offset := by
  cases src with
  | memory own other =>
      rcases memory_text_injective text with ⟨rfl, rfl⟩
      rfl
  | immediate value =>
      cases operand with
      | immediate type digits =>
          obtain rfl : digits = value := Argument.immediate.inj (Option.some.inj formats)
          exact absurd text (text_ne_of_numeral numeral _ _)
      | «variable» | temporary =>
          rcases Option.map_eq_some_iff.mp formats with ⟨_, -, memory⟩
          cases memory
      | none | label | function => cases formats
  | register | label | symbol | empty => exact denotes.elim

/-- The last move of an emitter, from the accumulator to the destination. -/
theorem Computes.performs {items : List Item} {word : BitVec size.bits}
    {emitted : Option (List Item)} (computes : Computes calls items m size word)
    (isEmitted : emitted =
      some (items ++ [emit .mov [.memory size offset, .register (accumulator size)]])) :
    Performs calls emitted m size offset word := by
  rcases computes with ⟨next, run, same, rfl⟩
  refine ⟨_, _, isEmitted, ?_, same.stores offset _⟩
  rw [execItems_append, run, Option.bind_some, execItems_singleton,
    exec_mov_slot calls offset (size_accumulator size)]

/-! ## Two operands of one width -/

/-- An operation between the accumulator and an operand. -/
theorem binary_accumulator (m : MachineState) (op : ∀ w, BitVec w → BitVec w → BitVec w)
    {arg : Argument} {y : BitVec size.bits} (value : m.value size arg = some y) :
    m.binary op (.register (accumulator size)) arg =
      some (m.forgetFlags.write (accumulator size)
        (op _ (m.read (accumulator size) size.bits) y)) := by
  have own : m.value size (.register (accumulator size)) =
      some (m.read (accumulator size) size.bits) := if_pos (size_accumulator size)
  simp [MachineState.binary, Argument.size, Argument.isMemory, own, value,
    MachineState.assign]

/-- An operation of two operands in the accumulator. -/
theorem computes_binary {mnemonic : Mnemonic} {op : ∀ w, BitVec w → BitVec w → BitVec w}
    (isOp : ∀ m src, Instruction.exec calls m
        ⟨mnemonic, [.register (accumulator size), src]⟩ =
      m.binary op (.register (accumulator size)) src)
    (left : m.Denotes size a src1) (supplies : Supplies m size b src2) :
    Computes calls [emit .mov [.register (accumulator size), src1],
        emit mnemonic [.register (accumulator size), src2]] m size
      (op _ (BitVec.ofInt _ a) (BitVec.ofInt _ b)) := by
  apply Computes.mov left
  let first := m.write (accumulator size) (BitVec.ofInt size.bits a)
  have same : SameFrame m first := (SameFrame.refl m).writeAccumulator _ _
  have value := supplies first same
    (m.registers_write_of_ne (by rw [family_accumulator]; exact Family.noConfusion) _)
  have step := (isOp first src2).trans (binary_accumulator first op value)
  rw [MachineState.read_accumulator_self] at step
  apply computes_last
  · rw [execItems_singleton, step]
  · exact (SameFrame.refl first).forgetFlags.writeAccumulator _ _
  · exact MachineState.read_accumulator_self _ _ _

/-- `emit_binary`, in place and through the accumulator. -/
theorem emitBinary_performs (mnemonic : Mnemonic)
    (op : ∀ w, BitVec w → BitVec w → BitVec w)
    (isOp : ∀ m dst src, Instruction.exec calls m ⟨mnemonic, [dst, src]⟩ = m.binary op dst src)
    (scalar : operation.operand1.valueType.IsScalar)
    (sized : sizeOf operation.operand1.valueType = size)
    (setup : Setup map m operation size size src1 src2 offset a b) :
    Performs calls (emitBinary mnemonic operation map) m size offset
      (op _ (BitVec.ofInt _ a) (BitVec.ofInt _ b)) := by
  rcases exec_loadLargeImmediate calls scalar setup.second (sized ▸ setup.right) with
    ⟨loaded, load, same, supplies, inMemory⟩
  rw [sized] at supplies
  unfold emitBinary
  rw [setup.formats]
  simp only [Option.bind_eq_bind, Option.bind_some, registerFromSize_eq]
  rw [show sizePrefixFromSize operation.operand1.valueType.widthBytes = size from sized]
  generalize loadLargeImmediate operation.operand3 operation.operand1.valueType.widthBytes
    src2 = large at *
  rcases large with ⟨items, arg⟩
  have left := same.denotes setup.left
  by_cases inPlace : (Argument.memory size offset).text =
      src1.text ∧ !operation.operand3.inMemory
  · rw [if_pos inPlace]
    obtain rfl := eq_of_text setup.numeral setup.first setup.left inPlace.1
    have notMemory : arg.isMemory = false := by
      cases known : arg.isMemory with
      | false => rfl
      | true => simp [inMemory known] at inPlace
    have value := supplies loaded (.refl loaded) rfl
    have own : loaded.value size
        (.memory size offset) = some (BitVec.ofInt _ a) := by
      simp [MachineState.value, left.2]
    refine ⟨_, _, rfl, ?_, same.forgetFlags.stores offset _⟩
    simp [execItems_append, load, isOp, MachineState.binary, Argument.size, notMemory, own,
      value, MachineState.assign, execItems]
  · rw [if_neg inPlace]
    apply Computes.performs calls (Computes.append load same
      (computes_binary calls (fun m src => isOp m _ src) left supplies))
    rw [List.append_assoc]
    rfl

/-! ## Products -/

theorem sizeOf_eq_byte {type : ValueType} (scalar : type.IsScalar) :
    type.widthBytes = 1 ↔ sizeOf type = .byte := by
  cases type <;> first
    | decide
    | exact absurd scalar (by simp [ValueType.IsScalar, ValueType.isInteger,
        ValueType.isSigned, ValueType.isUnsigned])

/-- The low byte of a product of bytes does not depend on the extension. -/
theorem setWidth_product (isSigned : Bool) (x y : BitVec 8) :
    (if isSigned then x.signExtend 16 * y.signExtend 16
      else x.setWidth 16 * y.setWidth 16 : BitVec 16).setWidth 8 = x * y := by
  have narrow (bits : BitVec 8) : (bits.signExtend 16).setWidth 8 = bits :=
    Format.setWidth_extend ⟨true, 8⟩ (by decide) bits
  cases isSigned with
  | false => simp [BitVec.setWidth_mul]
  | true => simp [BitVec.setWidth_mul, narrow]

/-- A byte is multiplied with `al`. -/
theorem computes_multiplyByte (isSigned : Bool) {arg : Argument} (sized : arg.size = some .byte)
    {y : BitVec 8} (value : m.value .byte arg = some y) :
    Computes calls [emit (if isSigned then .imul else .mul) [arg]] m .byte
      (m.read .al 8 * y) := by
  let product : BitVec 16 := if isSigned then
      (m.read .al 8).signExtend 16 * y.signExtend 16
    else (m.read .al 8).setWidth 16 * y.setWidth 16
  have step : m.multiplyByte isSigned arg = some (m.forgetFlags.write .ax product) := by
    simp only [MachineState.multiplyByte, sized, value, Option.bind_eq_bind]
    rfl
  apply computes_last (m.forgetFlags.write .ax product)
  · rw [execItems_singleton, ← step]
    cases isSigned <;> rfl
  · exact (SameFrame.refl m).forgetFlags.writeAccumulator .word product
  · have read := m.forgetFlags.read_accumulator .word .byte
      (show 8 ≤ 16 by decide) (by decide) product
    exact read.trans (setWidth_product isSigned _ _)

/-- An operand of an instruction with one operand is in memory, or in the counter. -/
theorem computes_counter (reg : Register) (regSize : reg.size = size)
    (isCounter : reg.family = .rcx) {operand : Operand}
    (formats : formatOperand map operand = some src) (denotes : m.Denotes size b src)
    {mnemonic : Mnemonic} {outSize : SizePrefix} {word : BitVec outSize.bits}
    (works : ∀ (prepared : MachineState) (arg : Argument), SameFrame m prepared →
      (∀ family, family ≠ .rcx → prepared.registers family = m.registers family) →
      arg.size = some size → prepared.value size arg = some (BitVec.ofInt _ b) →
      Computes calls [emit mnemonic [arg]] prepared outSize word) :
    Computes calls
      (if operand.isImmediate then
        [emit .mov [.register reg, src], emit mnemonic [.register reg]]
      else [emit mnemonic [src]]) m outSize word := by
  subst regSize
  cases operand with
  | immediate type value =>
      let prepared := m.write reg (BitVec.ofInt reg.size.bits b)
      have run : execItems calls [emit .mov [.register reg, src]] m = some prepared := by
        rw [execItems_singleton, exec_mov calls reg denotes]
      have same : SameFrame m prepared := by
        apply (SameFrame.refl m).write
        · rw [isCounter]
          exact Family.noConfusion
        · rw [isCounter]
          exact Family.noConfusion
      have low : reg.start = 0 := by cases reg <;> first | rfl | cases isCounter
      have loaded : prepared.value reg.size (.register reg) = some (BitVec.ofInt _ b) := by
        have read := m.read_write reg reg rfl rfl (fun _ => low) reg.fits le_rfl
          (BitVec.ofInt reg.size.bits b)
        rw [BitVec.setWidth_eq] at read
        simp [MachineState.value, prepared, read]
      apply Computes.append run same
      apply works prepared _ same _ rfl loaded
      intro family differ
      exact m.registers_write_of_ne (by rwa [isCounter]) _
  | «variable» type | temporary type =>
      rcases Option.map_eq_some_iff.mp formats with ⟨slot, -, rfl⟩
      rcases denotes with ⟨own, loaded⟩
      have isValue : m.value reg.size (memoryArgument type slot) =
          some (BitVec.ofInt _ b) := by
        rw [memoryArgument, MachineState.value, if_pos own, loaded]
      exact works m (memoryArgument type slot) (.refl m) (fun _ _ => rfl)
        (congrArg some own) isValue
  | none | label | function =>
      obtain rfl := Option.some.inj formats
      exact denotes.elim

/-- `emit_mult`. -/
theorem emitMult_performs (scalar : operation.operand1.valueType.IsScalar)
    (sized : sizeOf operation.operand1.valueType = size)
    (setup : Setup map m operation size size src1 src2 offset a b) :
    Performs calls (emitMult operation map) m size offset
      (BitVec.ofInt _ a * BitVec.ofInt _ b) := by
  unfold emitMult
  rw [setup.formats]
  simp only [Option.bind_eq_bind, Option.bind_some, sizeOf_eq_byte scalar, sized]
  by_cases byte : size = .byte
  · subst byte
    rw [if_pos rfl]
    let first := m.write (accumulator .byte) (BitVec.ofInt 8 a)
    have same : SameFrame m first := (SameFrame.refl m).writeAccumulator _ _
    have product (prepared : MachineState) (arg : Argument) (_ : SameFrame first prepared)
        (others : ∀ family, family ≠ .rcx →
          prepared.registers family = first.registers family)
        (argSize : arg.size = some .byte)
        (value : prepared.value .byte arg = some (BitVec.ofInt _ b)) :
        Computes calls
          [emit (if operation.operand1.valueType.isSigned then .imul else .mul) [arg]] prepared
          .byte (BitVec.ofInt 8 a * BitVec.ofInt 8 b) := by
      have factor : prepared.read .al 8 = BitVec.ofInt 8 a := by
        rw [MachineState.read, Register.family, others .rax (by decide)]
        exact m.read_accumulator_self .byte _
      have product := computes_multiplyByte calls operation.operand1.valueType.isSigned
        argSize value
      rwa [factor] at product
    have multiply := computes_counter calls .cl rfl rfl setup.second
      (same.denotes setup.right) product
    exact (Computes.mov setup.left multiply).performs calls rfl
  · rw [if_neg byte]
    rcases exec_loadLargeImmediate calls scalar setup.second (sized ▸ setup.right) with
      ⟨loaded, load, same, supplies, -⟩
    rw [sized] at supplies
    have isMultiply (m : MachineState) (src : Argument) :
        Instruction.exec calls m ⟨.imul, [.register (accumulator size), src]⟩ =
          m.binary (fun _ x y => x * y) (.register (accumulator size)) src := by
      have notByte : (accumulator size).size ≠ .byte := by rwa [size_accumulator]
      exact if_neg notByte
    apply Computes.performs calls (Computes.append load same
      (computes_binary calls isMultiply (same.denotes setup.left) supplies))
    rw [registerFromSize_eq,
      show sizePrefixFromSize operation.operand1.valueType.widthBytes = size from sized,
      List.append_assoc]
    rfl

/-! ## Quotients -/

/-- The high half of the dividend is what the low half is extended with. -/
def Extended (isSigned : Bool) (m : MachineState) (size : SizePrefix)
    (x : BitVec size.bits) : Prop :=
  m.read (accumulator size) size.bits = x ∧
    m.read (extension size) size.bits =
      if isSigned && x.msb then BitVec.allOnes size.bits else 0

/-- A dividend with extension has the value of its low half. -/
theorem ofBits_append (isSigned : Bool) {w : Nat} (x : BitVec w) :
    Format.ofBits ⟨isSigned, w + w⟩
        ((if isSigned && x.msb then BitVec.allOnes w else 0) ++ x) =
      Format.ofBits ⟨isSigned, w⟩ x := by
  cases isSigned with
  | false => simp [Format.ofBits]
  | true =>
      have bits : (if x.msb then BitVec.allOnes w else 0) ++ x = x.signExtend (w + w) := by
        rw [BitVec.signExtend_eq_append_of_le (Nat.le_add_left w w)]
        apply BitVec.eq_of_getLsbD_eq
        intro bit inside
        cases x.msb <;> simp [BitVec.getLsbD_append]
      simp only [Bool.true_and, Format.ofBits, if_true, bits]
      exact BitVec.toInt_signExtend_of_le (Nat.le_add_left w w)

/-- Division of an extended dividend does not fault when the quotient fits. -/
theorem divide_eq {isSigned : Bool} {x y : BitVec size.bits} {arg : Argument}
    (sized : arg.size = some size) (value : m.value size arg = some y)
    (extended : Extended isSigned m size x)
    (nonzero : Format.ofBits ⟨isSigned, size.bits⟩ y ≠ 0)
    (fits : Format.InRange ⟨isSigned, size.bits⟩
      ((Format.ofBits ⟨isSigned, size.bits⟩ x).tdiv (Format.ofBits ⟨isSigned, size.bits⟩ y))) :
    m.divide isSigned arg = some ((m.forgetFlags.write (accumulator size)
        (BitVec.ofInt size.bits ((Format.ofBits ⟨isSigned, size.bits⟩ x).tdiv
          (Format.ofBits ⟨isSigned, size.bits⟩ y)))).write (extension size)
        (BitVec.ofInt size.bits ((Format.ofBits ⟨isSigned, size.bits⟩ x).tmod
          (Format.ofBits ⟨isSigned, size.bits⟩ y)))) := by
  have divisor : y ≠ 0 := by
    rintro rfl
    cases isSigned <;> simp [Format.ofBits] at nonzero
  have dividend := ofBits_append isSigned x
  unfold MachineState.divide
  rw [sized]
  simp only [Option.bind_eq_bind, Option.bind_some, value, extended.1, extended.2]
  cases isSigned with
  | false =>
      simp only [Format.ofBits, Bool.false_eq_true, if_false] at dividend nonzero fits ⊢
      rw [Int.tdiv_eq_ediv_of_nonneg (Int.natCast_nonneg _)] at fits ⊢
      rw [Int.tmod_eq_emod_of_nonneg (Int.natCast_nonneg _)]
      rw [dividend, if_pos ⟨divisor, fits⟩]
      rfl
  | true =>
      simp only [Format.ofBits, if_true] at dividend nonzero fits ⊢
      rw [dividend, if_pos ⟨divisor, fits⟩]
      rfl

/-- A register is cleared. -/
theorem exec_xor_self (reg : Register) :
    Instruction.exec calls m ⟨.xor, [.register reg, .register reg]⟩ =
      some (m.forgetFlags.write reg (0 : BitVec reg.size.bits)) := by
  simp [Instruction.exec, MachineState.binary, Argument.size, Argument.isMemory,
    MachineState.value, MachineState.assign]

/-- The high half of an unsigned dividend is cleared. -/
theorem exec_dividendExtension_unsigned {type : ValueType} (scalar : type.IsScalar) :
    ∃ prepared : MachineState, prepared.registers = m.registers ∧
      prepared.memory = m.memory ∧
      execItems calls (emitDividendExtension type.widthBytes false) m =
        some (prepared.write (extension (sizeOf type)) (0 : BitVec (sizeOf type).bits)) := by
  have cleared (reg : Register) :
      execItems calls [emit .xor [.register reg, .register reg]] m =
        some (m.forgetFlags.write reg (0 : BitVec reg.size.bits)) := by
    rw [execItems_singleton, exec_xor_self]
  cases type with
  | void | unresolved =>
      simp [ValueType.IsScalar, ValueType.isInteger, ValueType.isSigned,
        ValueType.isUnsigned] at scalar
  | i8 | u8 | bool => exact ⟨m, rfl, rfl, rfl⟩
  | i16 | u16 => exact ⟨m.forgetFlags, rfl, rfl, cleared .dx⟩
  | i32 | u32 => exact ⟨m.forgetFlags, rfl, rfl, cleared .edx⟩
  | i64 | u64 => exact ⟨m.forgetFlags, rfl, rfl, cleared .rdx⟩

/-- `emit_dividend_extension` after the dividend is in the accumulator. -/
theorem exec_dividendExtension {type : ValueType} (scalar : type.IsScalar)
    {x : BitVec (sizeOf type).bits}
    (low : m.read (accumulator (sizeOf type)) (sizeOf type).bits = x) :
    ∃ next, execItems calls (emitDividendExtension type.widthBytes type.isSigned) m =
        some next ∧ SameFrame m next ∧ next.registers .rcx = m.registers .rcx ∧
      Extended type.isSigned next (sizeOf type) x := by
  have counter (size : SizePrefix) : Family.rcx ≠ (extension size).family := by
    cases size <;> decide
  by_cases sign : type.isSigned
  · refine ⟨m.signDividend (sizeOf type), ?_, (SameFrame.refl m).writeExtension _ _,
      m.registers_write_of_ne (counter _) _, ?_, ?_⟩
    · rw [sign]
      cases type <;> first | rfl | cases sign
    · rw [MachineState.signDividend, MachineState.read_accumulator_write_extension, low]
    · rw [MachineState.signDividend, MachineState.read_extension_self, low, sign,
        Bool.true_and]
  · rw [Bool.not_eq_true] at sign
    rcases exec_dividendExtension_unsigned calls (m := m) scalar with
      ⟨prepared, registers, memory, run⟩
    have same : SameFrame m prepared := ⟨memory, by rw [registers], by rw [registers]⟩
    refine ⟨_, sign ▸ run, same.writeExtension _ _, ?_, ?_, ?_⟩
    · rw [prepared.registers_write_of_ne (counter _), registers]
    · rw [MachineState.read_accumulator_write_extension, MachineState.read, registers]
      exact low
    · rw [MachineState.read_extension_self, sign, Bool.false_and]
      rfl

/-- The counter is not part of a dividend. -/
theorem Extended.congr {isSigned : Bool} {x : BitVec size.bits}
    (extended : Extended isSigned m size x) {next : MachineState}
    (others : ∀ family, family ≠ .rcx → next.registers family = m.registers family) :
    Extended isSigned next size x := by
  have low : (accumulator size).family ≠ .rcx := by cases size <;> decide
  have high : (extension size).family ≠ .rcx := by cases size <;> decide
  constructor
  · rw [MachineState.read, others _ low]
    exact extended.1
  · rw [MachineState.read, others _ high]
    exact extended.2

/-- `div` or `idiv` of an extended dividend. -/
theorem computes_divide {isSigned : Bool} {x y : BitVec size.bits} {arg : Argument}
    (sized : arg.size = some size) (value : m.value size arg = some y)
    (extended : Extended isSigned m size x)
    (nonzero : Format.ofBits ⟨isSigned, size.bits⟩ y ≠ 0)
    (fits : Format.InRange ⟨isSigned, size.bits⟩
      ((Format.ofBits ⟨isSigned, size.bits⟩ x).tdiv (Format.ofBits ⟨isSigned, size.bits⟩ y))) :
    Computes calls [emit (if isSigned then .idiv else .div) [arg]] m size
      (BitVec.ofInt size.bits ((Format.ofBits ⟨isSigned, size.bits⟩ x).tdiv
        (Format.ofBits ⟨isSigned, size.bits⟩ y))) := by
  have divided := divide_eq sized value extended nonzero fits
  have run : execItems calls [emit (if isSigned then .idiv else .div) [arg]] m =
      m.divide isSigned arg := by
    rw [execItems_singleton]
    cases isSigned <;> rfl
  apply computes_last _ (run.trans divided)
  · exact ((SameFrame.refl m).forgetFlags.writeAccumulator _ _).writeExtension _ _
  · rw [MachineState.read_accumulator_write_extension, MachineState.read_accumulator_self]

theorem size_counterRegister (size : Nat) :
    (counterRegister size).size = sizePrefixFromSize size := by
  unfold counterRegister sizePrefixFromSize
  split_ifs <;> rfl

theorem family_counterRegister (size : Nat) : (counterRegister size).family = .rcx := by
  unfold counterRegister
  split_ifs <;> rfl

/-- `emit_div`. -/
theorem emitDiv_performs {type : ValueType} (isType : operation.operand1.valueType = type)
    (scalar : type.IsScalar)
    (setup : Setup map m operation (sizeOf type) (sizeOf type) src1 src2 offset a b)
    (nonzero : type.wrap b ≠ 0) (fits : type.InRange ((type.wrap a).tdiv (type.wrap b))) :
    Performs calls (emitDiv operation map) m (sizeOf type) offset
      (BitVec.ofInt _ ((type.wrap a).tdiv (type.wrap b))) := by
  have wrapped (value : Int) : type.wrap value =
      Format.ofBits ⟨type.isSigned, (sizeOf type).bits⟩
        (BitVec.ofInt (sizeOf type).bits value) := by
    rw [ValueType.wrap, Format.wrap, ValueType.format, bits_sizeOf scalar]
  rw [ValueType.InRange, ValueType.format, ← bits_sizeOf scalar] at fits
  rw [wrapped, wrapped] at fits ⊢
  rw [wrapped] at nonzero
  unfold emitDiv
  rw [setup.formats]
  simp only [Option.bind_eq_bind, Option.bind_some, isType, registerFromSize_eq]
  let first := m.write (accumulator (sizeOf type)) (BitVec.ofInt (sizeOf type).bits a)
  rcases exec_dividendExtension calls scalar (m := first)
    (MachineState.read_accumulator_self _ _ _) with ⟨middle, run, same, -, extended⟩
  have frame := ((SameFrame.refl m).writeAccumulator _ _ : SameFrame m first).trans same
  have divide := computes_counter calls (m := middle) _ (size_counterRegister type.widthBytes)
    (family_counterRegister type.widthBytes) setup.second (frame.denotes setup.right)
    fun prepared arg _ others argSize value =>
      computes_divide calls argSize value (extended.congr others) nonzero fits
  apply Computes.performs calls (Computes.mov setup.left (Computes.append run same divide))
  rw [List.cons_append, List.cons_append, List.cons_append]
  rfl

/-! ## One operand -/

/-- An operation with one operand in the accumulator. -/
theorem computes_unary {item : Argument → Item} {op : ∀ w, BitVec w → BitVec w}
    (isOp : ∀ m dst, execItems calls [item dst] m = m.unary op dst)
    (denotes : m.Denotes size a src) :
    Computes calls [emit .mov [.register (accumulator size), src],
      item (.register (accumulator size))] m size (op _ (BitVec.ofInt _ a)) := by
  apply Computes.mov denotes
  let first := m.write (accumulator size) (BitVec.ofInt size.bits a)
  have own : first.value size (.register (accumulator size)) =
      some (BitVec.ofInt size.bits a) := by
    rw [MachineState.value, if_pos (size_accumulator size)]
    exact congrArg some (MachineState.read_accumulator_self _ _ _)
  apply computes_last (first.forgetFlags.write (accumulator size)
    (op size.bits (BitVec.ofInt _ a)))
  · change execItems calls _ first = _
    rw [isOp]
    simp [MachineState.unary, Argument.size, own, MachineState.assign]
  · exact (SameFrame.refl first).forgetFlags.writeAccumulator _ _
  · exact MachineState.read_accumulator_self _ _ _

/-- An operation with one operand, in place or through the accumulator. -/
theorem unary_performs {item : Argument → Item} {op : ∀ w, BitVec w → BitVec w}
    (isOp : ∀ m dst, execItems calls [item dst] m = m.unary op dst)
    (setup : UnarySetup map m operation size size src offset a) :
    Performs calls (some (if (Argument.memory size offset).text = src.text then
        [item (.memory size offset)]
      else [emit .mov [.register (accumulator size), src], item (.register (accumulator size)),
        emit .mov [.memory size offset, .register (accumulator size)]])) m size offset
      (op _ (BitVec.ofInt _ a)) := by
  by_cases inPlace : (Argument.memory size offset).text = src.text
  · rw [if_pos inPlace]
    obtain rfl := eq_of_text setup.numeral setup.source setup.denotes inPlace
    refine ⟨_, _, rfl, ?_, (SameFrame.refl m).forgetFlags.stores offset _⟩
    rw [isOp]
    simp [MachineState.unary, Argument.size, MachineState.value, setup.denotes.2,
      MachineState.assign]
  · rw [if_neg inPlace]
    exact (computes_unary calls isOp setup.denotes).performs calls rfl

/-- `emit_neg`. -/
theorem emitNeg_performs (sized : sizeOf operation.operand1.valueType = size)
    (setup : UnarySetup map m operation size size src offset a) :
    Performs calls (emitNeg operation map) m size offset (-BitVec.ofInt _ a) := by
  have isNeg (m : MachineState) (dst : Argument) :
      execItems calls [emit .neg [dst]] m = m.unary (fun _ x => -x) dst := by
    rw [execItems_singleton]
    rfl
  have performs := unary_performs calls isNeg setup
  unfold emitNeg
  rw [setup.formats]
  simp only [Option.bind_eq_bind, Option.bind_some, registerFromSize_eq]
  rw [show sizePrefixFromSize operation.operand1.valueType.widthBytes = size from sized]
  rwa [apply_ite some] at performs

theorem immediateBits_one (size : SizePrefix) : immediateBits size "1" = 1 := by
  cases size <;> rfl

/-- `NOT` on words: all bits, or the lowest one of a truth value. -/
def invert (opcode : Opcode) (w : Nat) (x : BitVec w) : BitVec w :=
  if opcode = .bitwiseNot then ~~~x else x ^^^ 1#w

/-- `emit_not_on`, as an operation with one operand. -/
theorem exec_notOn (opcode : Opcode) (m : MachineState) (dst : Argument) :
    execItems calls [emitNotOn opcode dst] m = m.unary (invert opcode) dst := by
  unfold emitNotOn invert
  by_cases bitwise : opcode = .bitwiseNot
  · simp only [bitwise, if_true]
    rw [execItems_singleton]
    rfl
  · simp only [bitwise, if_false]
    rw [execItems_singleton]
    have value (size : SizePrefix) : m.value size (.immediate "1") = some 1 :=
      congrArg some (immediateBits_one size)
    simp [Instruction.exec, MachineState.binary, MachineState.unary, Argument.isMemory, value]

/-- `emit_not`. -/
theorem emitNot_performs (sized : sizeOf operation.operand1.valueType = size)
    (setup : UnarySetup map m operation size size src offset a) :
    Performs calls (emitNot operation map) m size offset
      (invert operation.opcode _ (BitVec.ofInt _ a)) := by
  have performs := unary_performs calls (exec_notOn calls operation.opcode) setup
  unfold emitNot
  rw [setup.formats]
  simp only [Option.bind_eq_bind, Option.bind_some, registerFromSize_eq]
  rw [show sizePrefixFromSize operation.operand1.valueType.widthBytes = size from sized]
  rwa [apply_ite some] at performs

/-! ## Shifts -/

/-- The amount of a shift is an immediate, or in `cl`. -/
theorem computes_shift {mnemonic : Mnemonic} {op : ∀ w, BitVec w → Nat → BitVec w}
    (isOp : ∀ m dst count, Instruction.exec calls m ⟨mnemonic, [dst, count]⟩ =
      m.shift op dst count)
    {count : Argument} (isCount : (∃ value, count = .immediate value) ∨ count = .register .cl)
    {amount : Nat} (inWidth : amount < size.bits)
    (value : m.value .byte count = some (BitVec.ofInt _ amount)) :
    Computes calls [emit mnemonic [.register (accumulator size), count]] m size
      (op _ (m.read (accumulator size) size.bits) amount) := by
  have own : m.value size (.register (accumulator size)) =
      some (m.read (accumulator size) size.bits) := if_pos (size_accumulator size)
  have small := size.bits_le
  have masked : amount % 2 ^ SizePrefix.byte.bits % (if size = .qword then 64 else 32) =
      amount := by
    have inByte : amount < 2 ^ 8 := by omega
    change amount % 2 ^ 8 % _ = amount
    rw [Nat.mod_eq_of_lt inByte]
    apply Nat.mod_eq_of_lt
    cases size <;> exact Nat.lt_of_lt_of_le inWidth (by decide)
  have step : m.shift op (.register (accumulator size)) count =
      some (m.forgetFlags.write (accumulator size)
        (op _ (m.read (accumulator size) size.bits) amount)) := by
    rcases isCount with ⟨digits, rfl⟩ | rfl
    · simp [MachineState.shift, Argument.size, own, value, masked, MachineState.assign]
    · simp [MachineState.shift, Argument.size, own, value, masked, MachineState.assign]
  apply computes_last
  · rw [execItems_singleton, isOp, step]
  · exact (SameFrame.refl m).forgetFlags.writeAccumulator _ _
  · exact MachineState.read_accumulator_self _ _ _

/-- The low byte of a word that was moved into the counter. -/
theorem read_counter (m : MachineState) {reg : Register} (isCounter : reg.family = .rcx)
    (b : Int) :
    (m.write reg (BitVec.ofInt reg.size.bits b)).read .cl 8 = BitVec.ofInt 8 b := by
  have low : reg.start = 0 := by cases reg <;> first | rfl | cases isCounter
  have wide : 8 ≤ reg.size.bits := by cases reg.size <;> decide
  rw [m.read_write reg .cl isCounter.symm low.symm (fun _ => low) reg.fits wide]
  exact Format.setWidth_ofInt wide b

/-- `emit_shift`. -/
theorem emitShift_performs (operation : Operation) (mnemonic : Mnemonic)
    (op : ∀ w, BitVec w → Nat → BitVec w)
    (isOp : ∀ m dst count, Instruction.exec calls m ⟨mnemonic, [dst, count]⟩ =
      m.shift op dst count)
    (sized : sizeOf operation.operand1.valueType = size) {amount : Nat}
    (inWidth : amount < size.bits)
    (first : formatOperand map operation.operand2 = some src1)
    (second : formatOperand map operation.operand3 = some src2)
    (destination : formatOperand map operation.operand1 = some (.memory size offset))
    (left : m.Denotes size a src1)
    (right : m.Denotes (sizeOf operation.operand3.valueType) amount src2) :
    Performs calls (emitShift mnemonic operation map) m size offset
      (op _ (BitVec.ofInt _ a) amount) := by
  let moved := m.write (accumulator size) (BitVec.ofInt size.bits a)
  have same : SameFrame m moved := (SameFrame.refl m).writeAccumulator _ _
  have word : moved.read (accumulator size) size.bits = BitVec.ofInt _ a :=
    MachineState.read_accumulator_self _ _ _
  have shift : Computes calls (if operation.operand3.isImmediate then
        [emit mnemonic [.register (accumulator size), src2]]
      else [emit .mov [.register (counterRegister operation.operand3.valueType.widthBytes), src2],
        emit mnemonic [.register (accumulator size), .register .cl]]) moved size
      (op _ (BitVec.ofInt _ a) amount) := by
    cases immediate : operation.operand3.isImmediate with
    | true =>
        cases isOperand : operation.operand3 with
        | immediate type value =>
            rw [isOperand] at second right
            rw [Operand.valueType_immediate] at right
            obtain rfl := Option.some.inj second
            have value : moved.value .byte (.immediate value) =
                some (BitVec.ofInt _ amount) := by
              have wide : 8 ≤ (sizeOf type).bits := by cases sizeOf type <;> decide
              have low := congrArg (BitVec.setWidth 8) right
              rw [Format.setWidth_ofInt wide, Format.setWidth_ofInt wide] at low
              exact congrArg some low
            have computes := computes_shift calls isOp (m := moved) (.inl ⟨_, rfl⟩) inWidth value
            rwa [word] at computes
        | none | label | function | «variable» | temporary =>
            rw [isOperand] at immediate
            cases immediate
    | false =>
        let counter := counterRegister operation.operand3.valueType.widthBytes
        let counted := moved.write counter (BitVec.ofInt counter.size.bits amount)
        have isCounter : counter.family = .rcx := family_counterRegister _
        have run : execItems calls [emit .mov [.register counter, src2]] moved =
            some counted := by
          rw [execItems_singleton, exec_mov calls counter]
          rw [size_counterRegister]
          exact same.denotes right
        have frame : SameFrame moved counted := by
          apply (SameFrame.refl moved).write
          · rw [isCounter]
            exact Family.noConfusion
          · rw [isCounter]
            exact Family.noConfusion
        have kept : counted.read (accumulator size) size.bits = BitVec.ofInt _ a := by
          have apart : (accumulator size).family ≠ counter.family := by
            rw [isCounter, family_accumulator]
            exact Family.noConfusion
          rw [moved.read_write_of_ne apart, word]
        have value : counted.value .byte (.register .cl) = some (BitVec.ofInt _ amount) :=
          congrArg some (read_counter moved isCounter amount)
        have computes := computes_shift calls isOp (m := counted) (.inr rfl) inWidth value
        rw [kept] at computes
        exact Computes.append run frame computes
  have performs : Performs calls _ m size offset _ :=
    (Computes.mov left shift).performs calls rfl
  unfold emitShift formatBinary
  rw [first, second, destination]
  simp only [Option.bind_eq_bind, Option.bind_some, registerFromSize_eq]
  rw [show sizePrefixFromSize operation.operand1.valueType.widthBytes = size from sized]
  exact performs

end Sulfur.Codegen
