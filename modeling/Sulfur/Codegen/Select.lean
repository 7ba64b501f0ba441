import Sulfur.Codegen.Machine

/-!
# Instruction selection

The instructions that are emitted for an operation leave its result in the slot of the
destination.  They change no other byte of the memory, and neither the stack pointer nor
the base pointer.
-/

namespace Sulfur.Codegen

open Machine Ir Word

/-! ## Texts of slots -/

/-- Sign and digits of a printed offset. -/
theorem toList_signedText (offset : Int) :
    (signedText offset).toList =
      (if offset < 0 then '-' else '+') :: Nat.toDigits 10 offset.natAbs := by
  unfold signedText
  by_cases negative : offset < 0
  · have digits : (-offset).toNat = offset.natAbs := by omega
    simp [negative, Int.repr_eq_if, digits, not_le.mpr negative]
  · have digits : offset.toNat = offset.natAbs := by omega
    simp [negative, Int.repr_eq_if, digits, not_lt.mp negative]

theorem signedText_injective : Function.Injective signedText := by
  intro first second same
  have lists := congrArg String.toList same
  rw [toList_signedText, toList_signedText, List.cons.injEq] at lists
  have magnitudes : first.natAbs = second.natAbs := by
    rw [← Nat.ofDigitChars_ten_toDigits (n := first.natAbs), lists.2,
      Nat.ofDigitChars_ten_toDigits]
  by_cases negative : first < 0
  · by_cases other : second < 0
    · omega
    · simp [negative, other] at lists
  · by_cases other : second < 0
    · simp [negative, other] at lists
    · omega

/-- Slots with one text are one slot. -/
theorem memory_text_injective {size other : SizePrefix} {offset otherOffset : Int}
    (same : (Argument.memory size offset).text = (Argument.memory other otherOffset).text) :
    size = other ∧ offset = otherOffset := by
  have lists := congrArg String.toList same
  simp only [Argument.text, String.toList_append, List.append_assoc] at lists
  have sizes : size = other := by
    cases size <;> cases other <;> first | rfl | exact absurd lists (by simp [SizePrefix.text])
  subst sizes
  rw [List.append_cancel_left_eq, List.append_cancel_left_eq, List.append_cancel_right_eq,
    String.toList_inj] at lists
  exact ⟨rfl, signedText_injective lists⟩

/-- An immediate operand is decimal. -/
def Numeral : Operand → Prop
  | .immediate _ value => ∀ c ∈ value.toList, c.isDigit
  | _ => True

/-- A slot is not printed like a number. -/
theorem text_ne_of_numeral {value : String} (digits : ∀ c ∈ value.toList, c.isDigit)
    (size : SizePrefix) (offset : Int) :
    (Argument.memory size offset).text ≠ (Argument.immediate value).text := by
  intro same
  have bracket : '[' ∈ value.toList := by
    have text : (Argument.memory size offset).text = value := same
    rw [← text]
    simp [Argument.text]
  exact absurd (digits '[' bracket) (by decide)

/-! ## Sizes -/

/-- The size of the operands of a type. -/
def sizeOf (type : ValueType) : SizePrefix :=
  sizePrefixFromSize type.widthBytes

theorem bits_sizeOf {type : ValueType} (scalar : type.IsScalar) :
    (sizeOf type).bits = type.widthBits := by
  cases type <;> first | rfl | exact absurd scalar (by simp [ValueType.IsScalar,
    ValueType.isInteger, ValueType.isSigned, ValueType.isUnsigned])

theorem registerFromSize_eq (size : Nat) :
    registerFromSize size = accumulator (sizePrefixFromSize size) := by
  unfold registerFromSize sizePrefixFromSize
  split_ifs <;> rfl

/-- A scalar type has the pattern of an integer also after reduction. -/
theorem ofInt_wrap {type : ValueType} (scalar : type.IsScalar) (value : Int) :
    BitVec.ofInt (sizeOf type).bits (type.wrap value) =
      BitVec.ofInt (sizeOf type).bits value := by
  rw [ofInt_eq_ofInt_iff, bits_sizeOf scalar]
  exact type.format.wrap_emod value

/-! ## The store of a frame -/

/-- The name that the stack map has for a slot. -/
def slotText : Slot → String
  | .temporary id => temporaryName id
  | .variable name => name

/-- What the slots of the frame hold.  An operand reads as much of it as its type is
wide. -/
def frameStore (map : StackMap) (m : MachineState) : Store := fun slot =>
  (m.memory.load (m.address (map.lookup (slotText slot))) 64).toInt

/-- The argument of an instruction of that size has the pattern of the integer. -/
def MachineState.Denotes (m : MachineState) (size : SizePrefix) (a : Int) : Argument → Prop
  | .memory own offset =>
      own = size ∧ m.memory.load (m.address offset) size.bits = BitVec.ofInt size.bits a
  | .immediate value =>
      BitVec.ofInt size.bits (decimal value) = BitVec.ofInt size.bits a
  | _ => False

variable {map : StackMap} {m : MachineState}

theorem load_eq_ofInt (m : MachineState) (address : BitVec 64) {width : Nat}
    (le : width ≤ 64) :
    m.memory.load address width = BitVec.ofInt width (m.memory.load address 64).toInt := by
  rw [Memory.load_of_le _ _ le, ← BitVec.signExtend_eq_setWidth_of_le _ le]
  rfl

theorem lookup_of_stackOffset {name : String} {offset : Int}
    (found : stackOffset map name = some offset) : map.lookup name = offset := by
  unfold stackOffset at found
  dsimp only at found
  split at found
  · cases found
  · exact Option.some.inj found

/-- A slot is read as much as its type is wide. -/
theorem read_frameStore {operand : Operand} {size : SizePrefix} {offset : Int}
    (formats : formatOperand map operand = some (.memory size offset)) :
    operand.read (frameStore map m) =
      some (operand.valueType.wrap (m.memory.load (m.address offset) 64).toInt) := by
  cases operand with
  | «variable» type name | temporary type name =>
      rcases Option.map_eq_some_iff.mp formats with ⟨found, isFound, isMemory⟩
      rw [memoryArgument, Argument.memory.injEq] at isMemory
      rw [← isMemory.2, ← lookup_of_stackOffset isFound]
      rfl
  | none | label | function | immediate => cases formats

theorem denotes_slot {type : ValueType} (scalar : type.IsScalar) {name : String}
    {arg : Argument} (formats : (stackOffset map name).map (memoryArgument type) = some arg)
    {a : Int}
    (read : type.wrap (m.memory.load (m.address (map.lookup name)) 64).toInt = a) :
    m.Denotes (sizeOf type) a arg := by
  rcases Option.map_eq_some_iff.mp formats with ⟨offset, found, rfl⟩
  constructor
  · rfl
  · rw [load_eq_ofInt m _ (SizePrefix.bits_le _), ← ofInt_wrap scalar,
      ← lookup_of_stackOffset found, read]

/-- A formatted operand denotes the value that is read from the frame. -/
theorem denotes_formatOperand {operand : Operand} (scalar : operand.valueType.IsScalar)
    {arg : Argument} (formats : formatOperand map operand = some arg) {a : Int}
    (read : operand.read (frameStore map m) = some a) :
    m.Denotes (sizeOf operand.valueType) a arg := by
  cases operand with
  | immediate type value =>
      obtain rfl := Option.some.inj formats
      have isValue : type.wrap (decimal value) = a := Option.some.inj read
      rw [← isValue]
      exact (ofInt_wrap scalar _).symm
  | «variable» type name => exact denotes_slot scalar formats (Option.some.inj read)
  | temporary type id => exact denotes_slot scalar formats (Option.some.inj read)
  | none | label | function => cases read

/-! ## The frame during an operation -/

/-- Memory, stack pointer and base pointer are the same. -/
structure SameFrame (m next : MachineState) : Prop where
  memory : next.memory = m.memory
  base : next.registers .rbp = m.registers .rbp
  top : next.registers .rsp = m.registers .rsp

namespace SameFrame

variable {next last : MachineState}

theorem refl (m : MachineState) : SameFrame m m := ⟨rfl, rfl, rfl⟩

theorem trans (first : SameFrame m next) (second : SameFrame next last) : SameFrame m last :=
  ⟨second.memory.trans first.memory, second.base.trans first.base,
    second.top.trans first.top⟩

theorem write (same : SameFrame m next) {reg : Register} (notBase : Family.rbp ≠ reg.family)
    (notTop : Family.rsp ≠ reg.family) {w : Nat} (word : BitVec w) :
    SameFrame m (next.write reg word) :=
  ⟨same.memory, (next.registers_write_of_ne notBase word).trans same.base,
    (next.registers_write_of_ne notTop word).trans same.top⟩

theorem writeAccumulator (same : SameFrame m next) (size : SizePrefix) {w : Nat}
    (word : BitVec w) : SameFrame m (next.write (accumulator size) word) := by
  apply same.write
  · rw [family_accumulator]
    exact Family.noConfusion
  · rw [family_accumulator]
    exact Family.noConfusion

theorem writeExtension (same : SameFrame m next) (size : SizePrefix) {w : Nat}
    (word : BitVec w) : SameFrame m (next.write (extension size) word) := by
  apply same.write <;> cases size <;> exact Family.noConfusion

theorem forgetFlags (same : SameFrame m next) : SameFrame m next.forgetFlags :=
  ⟨same.memory, same.base, same.top⟩

theorem address (same : SameFrame m next) (offset : Int) :
    next.address offset = m.address offset :=
  m.address_eq same.base offset

theorem denotes (same : SameFrame m next) {size : SizePrefix} {a : Int} {arg : Argument}
    (denotes : m.Denotes size a arg) : next.Denotes size a arg := by
  cases arg with
  | memory own offset =>
      constructor
      · exact denotes.1
      · rw [same.memory, same.address]
        exact denotes.2
  | immediate value => exact denotes
  | register | label | symbol | empty => exact denotes.elim

end SameFrame

/-- The word is stored in the slot, and nothing else has changed but scratch registers and
flags. -/
structure Stores (m next : MachineState) (size : SizePrefix) (offset : Int)
    (word : BitVec size.bits) : Prop where
  value : next.memory.load (m.address offset) size.bits = word
  others : ∀ byte, ¬Covers (m.address offset) size.bits byte →
    next.memory byte = m.memory byte
  base : next.registers .rbp = m.registers .rbp
  top : next.registers .rsp = m.registers .rsp

theorem SameFrame.stores {next : MachineState} (same : SameFrame m next) {size : SizePrefix}
    (offset : Int) (word : BitVec size.bits) :
    Stores m (next.setMemory (next.address offset) word) size offset word := by
  have fits : size.bits ≤ 8 * 2 ^ 64 := size.bits_le.trans (by norm_num)
  rw [same.address]
  constructor
  · exact Memory.load_store word fits
  · intro byte outside
    rw [MachineState.memory_setMemory, Memory.store_of_not_covers outside, same.memory]
  · exact same.base
  · exact same.top

/-! ## Moves -/

section Moves

variable (calls : String → MachineState → Option MachineState) {size : SizePrefix} {a : Int}
  {arg : Argument}

/-- An operand is moved into a register. -/
theorem exec_mov (reg : Register) (denotes : m.Denotes reg.size a arg) :
    Instruction.exec calls m ⟨.mov, [.register reg, arg]⟩ =
      some (m.write reg (BitVec.ofInt reg.size.bits a)) := by
  cases arg with
  | memory own offset =>
      rcases denotes with ⟨rfl, loaded⟩
      simp [Instruction.exec, MachineState.move, Argument.size, Argument.isMemory,
        MachineState.value, MachineState.assign, loaded]
  | immediate value =>
      have same : BitVec.ofNat reg.size.bits (decimal value) = _ := denotes
      simp [Instruction.exec, MachineState.move, Argument.size, Argument.isMemory,
        MachineState.assign, same]
  | register | label | symbol | empty => exact denotes.elim

theorem exec_mov_accumulator (denotes : m.Denotes size a arg) :
    Instruction.exec calls m ⟨.mov, [.register (accumulator size), arg]⟩ =
      some (m.write (accumulator size) (BitVec.ofInt size.bits a)) := by
  have moved := exec_mov calls (accumulator size)
    (show m.Denotes (accumulator size).size a arg by rwa [size_accumulator])
  rwa [size_accumulator] at moved

/-- A register is moved into a slot. -/
theorem exec_mov_slot (offset : Int) {reg : Register} (sized : reg.size = size) :
    Instruction.exec calls m ⟨.mov, [.memory size offset, .register reg]⟩ =
      some (m.setMemory (m.address offset) (m.read reg size.bits)) := by
  simp [Instruction.exec, MachineState.move, Argument.size, Argument.isMemory,
    MachineState.value, MachineState.assign, sized]

end Moves

/-! ## Second operands -/

/-- In every state with the frame and the counter register of this one, the argument of an
instruction has the pattern of the integer. -/
def Supplies (m : MachineState) (size : SizePrefix) (b : Int) (arg : Argument) : Prop :=
  ∀ next : MachineState, SameFrame m next → next.registers .rcx = m.registers .rcx →
    next.value size arg = some (BitVec.ofInt size.bits b)

theorem supplies_memory {size : SizePrefix} {b : Int} {own : SizePrefix} {offset : Int}
    (denotes : m.Denotes size b (.memory own offset)) :
    Supplies m size b (.memory own offset) := by
  intro next same _
  rcases same.denotes denotes with ⟨rfl, loaded⟩
  simp [MachineState.value, loaded]

/-- Immediates of 32 bits are extended to themselves. -/
theorem immediateBits_eq {size : SizePrefix} {value : String}
    (small : size = .qword → (decimal value : Int) < 2 ^ 31) :
    immediateBits size value = BitVec.ofInt size.bits (decimal value) := by
  cases size with
  | byte | word | dword => rfl
  | qword =>
      have range : Format.InRange ⟨true, 32⟩ (decimal value : Int) := by
        have bound := small rfl
        rw [Format.inRange_signed_iff]
        omega
      exact (Format.ofInt_of_inRange (show 32 ≤ 64 by decide) range).symm

theorem supplies_immediate {size : SizePrefix} {b : Int} {value : String}
    (denotes : m.Denotes size b (.immediate value))
    (small : size = .qword → (decimal value : Int) < 2 ^ 31) :
    Supplies m size b (.immediate value) := by
  intro next _ _
  have same : BitVec.ofInt size.bits (decimal value) = BitVec.ofInt size.bits b := denotes
  rw [MachineState.value, immediateBits_eq small, same]

/-- `load_large_immediate` leaves the frame as it is, and an argument with the value. -/
theorem exec_loadLargeImmediate (calls : String → MachineState → Option MachineState)
    {operand : Operand} {type : ValueType} (scalar : type.IsScalar) {format : Argument}
    (formats : formatOperand map operand = some format) {b : Int}
    (denotes : m.Denotes (sizeOf type) b format) :
    ∃ loaded, execItems calls (loadLargeImmediate operand type.widthBytes format).1 m =
        some loaded ∧ SameFrame m loaded ∧
      Supplies loaded (sizeOf type) b
        (loadLargeImmediate operand type.widthBytes format).2 ∧
      ((loadLargeImmediate operand type.widthBytes format).2.isMemory → operand.inMemory) := by
  cases operand with
  | immediate own value =>
      obtain rfl := Option.some.inj formats
      by_cases narrow : type.widthBytes < 8
      · have notWide : sizeOf type ≠ .qword := by
          intro wide
          have bits := bits_sizeOf scalar
          rw [wide, ValueType.widthBits_eq_widthBytes] at bits
          change 64 = _ at bits
          omega
        rw [loadLargeImmediate, if_pos narrow]
        exact ⟨m, rfl, .refl m,
          supplies_immediate denotes fun wide => absurd wide notWide, Bool.noConfusion⟩
      · by_cases small : -2 ^ 31 ≤ strtoll value ∧ strtoll value ≤ 2 ^ 31 - 1
        · have bound : (decimal value : Int) < 2 ^ 31 := by
            have least : strtoll value = min (decimal value : Int) (2 ^ 63 - 1) := rfl
            omega
          rw [loadLargeImmediate, if_neg narrow, if_pos small]
          exact ⟨m, rfl, .refl m, supplies_immediate denotes fun _ => bound,
            Bool.noConfusion⟩
        · have wide : sizeOf type = .qword := by
            cases type <;> first | rfl | exact absurd (by decide) narrow
          have moved : Instruction.exec calls m ⟨.mov, [.register .rcx, .immediate value]⟩ =
              some (m.write .rcx (BitVec.ofInt 64 b)) :=
            exec_mov calls .rcx (by rwa [wide] at denotes)
          rw [loadLargeImmediate, if_neg narrow, if_neg small, wide]
          refine ⟨m.write .rcx (BitVec.ofInt 64 b), ?_, ?_, ?_, Bool.noConfusion⟩
          · simp [execItems, moved]
          · exact (SameFrame.refl m).write (by decide) (by decide) _
          · intro next _ counter
            have read : next.read .rcx 64 = BitVec.ofInt 64 b := by
              rw [MachineState.read, Register.family, counter]
              have written := m.read_write .rcx .rcx (v := 64) rfl rfl
                (by decide) (by decide) le_rfl (BitVec.ofInt 64 b)
              rwa [BitVec.setWidth_eq] at written
            exact congrArg some read
  | «variable» own name =>
      rcases Option.map_eq_some_iff.mp formats with ⟨offset, -, rfl⟩
      exact ⟨m, rfl, .refl m, supplies_memory denotes, fun _ => rfl⟩
  | temporary own id =>
      rcases Option.map_eq_some_iff.mp formats with ⟨offset, -, rfl⟩
      exact ⟨m, rfl, .refl m, supplies_memory denotes, fun _ => rfl⟩
  | none | label | function =>
      obtain rfl := Option.some.inj formats
      exact denotes.elim

/-! ## Sequences of items -/

section Items

variable (calls : String → MachineState → Option MachineState)

theorem execItems_append (first second : List Item) (m : MachineState) :
    execItems calls (first ++ second) m =
      (execItems calls first m).bind (execItems calls second) := by
  induction first generalizing m with
  | nil => rfl
  | cons item rest inductionHypothesis =>
      cases item with
      | label id => exact inductionHypothesis m
      | instruction instr =>
          simp only [List.cons_append, execItems, inductionHypothesis, Option.bind_assoc]

@[simp]
theorem execItems_emit (mnemonic : Mnemonic) (arguments : List Argument) (rest : List Item)
    (m : MachineState) :
    execItems calls (emit mnemonic arguments :: rest) m =
      (Instruction.exec calls m ⟨mnemonic, arguments⟩).bind (execItems calls rest) := rfl

theorem execItems_singleton (mnemonic : Mnemonic) (arguments : List Argument)
    (m : MachineState) :
    execItems calls [emit mnemonic arguments] m =
      Instruction.exec calls m ⟨mnemonic, arguments⟩ :=
  Option.bind_fun_some _

/-- The items leave the frame as it is, and the word in the accumulator. -/
def Computes (items : List Item) (m : MachineState) (size : SizePrefix)
    (word : BitVec size.bits) : Prop :=
  ∃ next, execItems calls items m = some next ∧ SameFrame m next ∧
    next.read (accumulator size) size.bits = word

variable {calls} {size : SizePrefix} {word : BitVec size.bits}

/-- The result of the last instruction. -/
theorem computes_last {item : Item} (next : MachineState)
    (run : execItems calls [item] m = some next) (same : SameFrame m next)
    (read : next.read (accumulator size) size.bits = word) :
    Computes calls [item] m size word :=
  ⟨next, run, same, read⟩

/-- Items before others. -/
theorem Computes.append {first second : List Item} {middle : MachineState}
    (run : execItems calls first m = some middle) (same : SameFrame m middle)
    (computes : Computes calls second middle size word) :
    Computes calls (first ++ second) m size word := by
  rcases computes with ⟨next, rest, frame, read⟩
  refine ⟨next, ?_, same.trans frame, read⟩
  rw [execItems_append, run, Option.bind_some, rest]

/-- An operand is moved into the accumulator first. -/
theorem Computes.mov {source : SizePrefix} {a : Int} {arg : Argument}
    (denotes : m.Denotes source a arg) {items : List Item}
    (computes : Computes calls items
      (m.write (accumulator source) (BitVec.ofInt source.bits a)) size word) :
    Computes calls (emit .mov [.register (accumulator source), arg] :: items) m size word := by
  have run : execItems calls [emit .mov [.register (accumulator source), arg]] m =
      some (m.write (accumulator source) (BitVec.ofInt source.bits a)) := by
    rw [execItems_singleton, exec_mov_accumulator calls denotes]
  exact Computes.append run ((SameFrame.refl m).writeAccumulator _ _) computes

end Items

end Sulfur.Codegen
