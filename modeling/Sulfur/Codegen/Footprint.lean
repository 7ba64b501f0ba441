import Sulfur.Codegen.Frame
import Sulfur.Codegen.Select

/-!
# Footprints

The instructions that are emitted for an operation write to scratch registers and to slots
of the frame.  The stack pointer, the base pointer and the rest of the memory stay as they
are, whatever the values are.
-/

namespace Sulfur.Codegen

open Machine Ir

variable {frame : Nat} {m next : MachineState}

/-! ## Instructions -/

/-- A destination that is no pointer to the stack, and a slot only of the frame. -/
def Argument.InFrame (frame : Nat) : Argument → Prop
  | .register reg => reg.family ≠ .rbp ∧ reg.family ≠ .rsp
  | .memory size offset => -(frame : Int) ≤ offset ∧ 8 * offset + size.bits ≤ 0
  | _ => True

/-- The instructions that transfer control or move the stack pointer. -/
def Mnemonic.isTransfer : Mnemonic → Bool
  | .call | .ret | .push | .pop | .jmp | .je | .syscall => true
  | _ => false

@[simp]
theorem Mnemonic.isTransfer_mov : Mnemonic.mov.isTransfer = false := rfl

/-- The instructions that only read their first operand. -/
def Instruction.readsOnly : Instruction → Bool
  | ⟨.imul, [_]⟩ | ⟨.mul, _⟩ | ⟨.div, _⟩ | ⟨.idiv, _⟩ | ⟨.cmp, _⟩ => true
  | _ => false

/-- An instruction inside of the frame. -/
def Instruction.Local (frame : Nat) (instr : Instruction) : Prop :=
  instr.mnemonic.isTransfer = false ∧
    (instr.readsOnly = false → ∀ dst ∈ instr.arguments.head?, dst.InFrame frame)

/-- An instruction inside of the frame; a label is a place to jump to and is none. -/
def Item.Local (frame : Nat) : Item → Prop
  | .label _ => False
  | .instruction instr => instr.Local frame

/-- Nothing has changed but scratch registers, flags and the frame. -/
structure Within (frame : Nat) (m next : MachineState) : Prop where
  base : next.registers .rbp = m.registers .rbp
  top : next.registers .rsp = m.registers .rsp
  memory : ∀ byte, ¬Covers (m.address (-frame)) (8 * frame) byte →
    next.memory byte = m.memory byte

namespace Within

theorem forgetFlags (within : Within frame m.forgetFlags next) : Within frame m next :=
  ⟨within.base, within.top, within.memory⟩

theorem write {w : Nat} {reg : Register} (notBase : reg.family ≠ .rbp)
    (notTop : reg.family ≠ .rsp) (word : BitVec w) : Within frame m (m.write reg word) :=
  ⟨m.registers_write_of_ne notBase.symm word, m.registers_write_of_ne notTop.symm word,
    fun _ _ => rfl⟩

theorem trans {last : MachineState} (first : Within frame m next)
    (second : Within frame next last) : Within frame m last := by
  constructor
  · exact second.base.trans first.base
  · exact second.top.trans first.top
  · intro byte outside
    rw [second.memory byte, first.memory byte outside]
    rwa [m.address_eq first.base]

theorem assign {size : SizePrefix} {dst : Argument} (inFrame : dst.InFrame frame)
    {word : BitVec size.bits} (assigned : m.assign dst word = some next) :
    Within frame m next := by
  cases dst with
  | register reg =>
      rcases Option.ite_none_right_eq_some.mp assigned with ⟨-, ⟨⟩⟩
      exact .write inFrame.1 inFrame.2 word
  | memory own offset =>
      rcases Option.ite_none_right_eq_some.mp assigned with ⟨rfl, ⟨⟩⟩
      refine ⟨rfl, rfl, ?_⟩
      intro byte outside
      apply Memory.store_of_not_covers
      intro covers
      apply outside
      apply covers.widen inFrame.1
      have below := inFrame.2
      omega
  | immediate | label | symbol | empty => cases assigned

theorem move {dst src : Argument} (inFrame : dst.InFrame frame)
    (moved : m.move dst src = some next) : Within frame m next := by
  rcases Option.bind_eq_some_iff.mp moved with ⟨size, -, moved⟩
  rcases Option.ite_none_left_eq_some.mp moved with ⟨-, moved⟩
  split at moved
  · exact .assign inFrame moved
  · rcases Option.bind_eq_some_iff.mp moved with ⟨word, -, assigned⟩
    exact .assign inFrame assigned

theorem extend {isSigned : Bool} {dst src : Argument} (inFrame : dst.InFrame frame)
    (extended : m.extend isSigned dst src = some next) : Within frame m next := by
  cases dst with
  | register reg =>
      rcases Option.bind_eq_some_iff.mp extended with ⟨size, -, extended⟩
      rcases Option.ite_none_right_eq_some.mp extended with ⟨-, extended⟩
      rcases Option.bind_eq_some_iff.mp extended with ⟨word, -, ⟨⟩⟩
      exact .write inFrame.1 inFrame.2 _
  | memory | immediate | label | symbol | empty => cases extended

theorem binary {op : ∀ w, BitVec w → BitVec w → BitVec w} {dst src : Argument}
    (inFrame : dst.InFrame frame) (computed : m.binary op dst src = some next) :
    Within frame m next := by
  rcases Option.bind_eq_some_iff.mp computed with ⟨size, -, computed⟩
  rcases Option.ite_none_left_eq_some.mp computed with ⟨-, computed⟩
  rcases Option.bind_eq_some_iff.mp computed with ⟨x, -, computed⟩
  rcases Option.bind_eq_some_iff.mp computed with ⟨y, -, assigned⟩
  exact (Within.assign inFrame assigned).forgetFlags

theorem unary {op : ∀ w, BitVec w → BitVec w} {dst : Argument} (inFrame : dst.InFrame frame)
    (computed : m.unary op dst = some next) : Within frame m next := by
  rcases Option.bind_eq_some_iff.mp computed with ⟨size, -, computed⟩
  rcases Option.bind_eq_some_iff.mp computed with ⟨x, -, assigned⟩
  exact (Within.assign inFrame assigned).forgetFlags

theorem multiply {dst src : Argument} (inFrame : dst.InFrame frame)
    (computed : m.multiply dst src = some next) : Within frame m next := by
  cases dst with
  | register reg =>
      rcases Option.ite_none_left_eq_some.mp computed with ⟨-, computed⟩
      exact .binary inFrame computed
  | memory | immediate | label | symbol | empty => cases computed

theorem multiplyByte {isSigned : Bool} {src : Argument}
    (computed : m.multiplyByte isSigned src = some next) : Within frame m next := by
  unfold MachineState.multiplyByte at computed
  split at computed
  · rcases Option.bind_eq_some_iff.mp computed with ⟨y, -, ⟨⟩⟩
    apply forgetFlags
    exact .write (by decide) (by decide) _
  · cases computed

theorem writeAccumulator {w : Nat} (size : SizePrefix) (word : BitVec w) :
    Within frame m (m.write (accumulator size) word) := by
  have family := family_accumulator size
  apply write
  · rw [family]
    exact Family.noConfusion
  · rw [family]
    exact Family.noConfusion

theorem writeExtension {w : Nat} (size : SizePrefix) (word : BitVec w) :
    Within frame m (m.write (extension size) word) := by
  cases size <;> exact .write Family.noConfusion Family.noConfusion word

theorem signDividend (size : SizePrefix) : Within frame m (m.signDividend size) :=
  .writeExtension size _

theorem divide {isSigned : Bool} {src : Argument}
    (computed : m.divide isSigned src = some next) : Within frame m next := by
  rcases Option.bind_eq_some_iff.mp computed with ⟨size, -, computed⟩
  rcases Option.bind_eq_some_iff.mp computed with ⟨divisor, -, computed⟩
  rcases Option.ite_none_right_eq_some.mp computed with ⟨-, ⟨⟩⟩
  exact ((writeAccumulator size _).trans (writeExtension size _)).forgetFlags

theorem shift {op : ∀ w, BitVec w → Nat → BitVec w} {dst count : Argument}
    (inFrame : dst.InFrame frame) (computed : m.shift op dst count = some next) :
    Within frame m next := by
  rcases Option.bind_eq_some_iff.mp computed with ⟨size, -, computed⟩
  rcases Option.bind_eq_some_iff.mp computed with ⟨x, -, computed⟩
  dsimp only at computed
  split at computed
  · rcases Option.bind_eq_some_iff.mp computed with ⟨amount, -, assigned⟩
    exact (Within.assign inFrame assigned).forgetFlags
  · rcases Option.bind_eq_some_iff.mp computed with ⟨amount, -, assigned⟩
    exact (Within.assign inFrame assigned).forgetFlags
  · cases computed

theorem compare {x y : Argument} (computed : m.compare x y = some next) :
    Within frame m next := by
  rcases Option.bind_eq_some_iff.mp computed with ⟨size, -, computed⟩
  rcases Option.ite_none_left_eq_some.mp computed with ⟨-, computed⟩
  rcases Option.bind_eq_some_iff.mp computed with ⟨first, -, computed⟩
  rcases Option.bind_eq_some_iff.mp computed with ⟨second, -, ⟨⟩⟩
  exact ⟨rfl, rfl, fun _ _ => rfl⟩

theorem set {mnemonic : Mnemonic} {dst : Argument}
    (inFrame : ∀ flags, MachineState.condition flags mnemonic ≠ none → dst.InFrame frame)
    (computed : m.set mnemonic dst = some next) : Within frame m next := by
  unfold MachineState.set at computed
  split at computed
  · rcases Option.bind_eq_some_iff.mp computed with ⟨flags, -, computed⟩
    rcases Option.bind_eq_some_iff.mp computed with ⟨holds, isCondition, assigned⟩
    apply Within.assign _ assigned
    apply inFrame flags
    rw [isCondition]
    exact Option.some_ne_none holds
  · cases computed

end Within

/-- An instruction inside of the frame changes nothing outside of it. -/
theorem Instruction.Local.within {instr : Instruction} (isLocal : instr.Local frame)
    {calls : String → MachineState → Option MachineState}
    (executed : instr.exec calls m = some next) : Within frame m next := by
  rcases isLocal with ⟨stays, inFrame⟩
  unfold Instruction.exec at executed
  split at executed
  · exact .move (inFrame rfl _ rfl) executed
  · exact .extend (inFrame rfl _ rfl) (Option.ite_none_left_eq_some.mp executed).2
  · exact .extend (inFrame rfl _ rfl) (Option.ite_none_right_eq_some.mp executed).2
  · exact .extend (inFrame rfl _ rfl) (Option.ite_none_left_eq_some.mp executed).2
  -- `add`, `sub`, `and`, `or` and `xor`
  iterate 5 exact .binary (inFrame rfl _ rfl) executed
  -- `neg` and `not`
  iterate 2 exact .unary (inFrame rfl _ rfl) executed
  · exact .multiply (inFrame rfl _ rfl) executed
  iterate 2 exact .multiplyByte executed
  -- the extensions of a dividend
  iterate 4
    rcases executed
    exact .signDividend _
  iterate 2 exact .divide executed
  iterate 3 exact .shift (inFrame rfl _ rfl) executed
  · exact .compare executed
  · cases stays
  · cases stays
  · cases stays
  · rename_i mnemonic dst _ _ _ _ _ _ _ _ _
    apply Within.set _ executed
    intro flags isCondition
    cases mnemonic <;> first | exact inFrame rfl _ rfl | exact (isCondition rfl).elim
  · cases executed

/-! ## Destinations -/

variable {map : StackMap}

/-- The slots that have the name of the operand have its type. -/
def OwnSlot (map : StackMap) (operand : Operand) : Prop :=
  ∀ name, StackMap.slotName operand = some name →
    ∀ entry, map.lookupEntry name = some entry → entry.type = operand.valueType

theorem memoryArgument_inFrame (descending : map.Descending) {name : String}
    {type : ValueType}
    (own : ∀ entry, map.lookupEntry name = some entry → entry.type = type)
    {offset : Int} (found : stackOffset map name = some offset) :
    (memoryArgument type offset).InFrame (frameSize map) := by
  have isLookup := lookup_of_stackOffset found
  unfold StackMap.lookup at isLookup
  split at isLookup
  · rename_i entry isEntry
    have listed := (StackMap.mem_of_lookupEntry isEntry).1
    have below := descending.inFrame entry listed
    have deep := offset_inFrame listed
    have bits : (sizePrefixFromSize type.widthBytes).bits ≤ 8 * type.widthBytes := by
      have sized := descending.sized entry listed
      rw [own entry isEntry] at sized
      cases type <;> first | decide | exact absurd sized (by decide)
    rw [own entry isEntry] at below
    constructor
    · rw [← isLookup]
      exact deep
    · omega
  · unfold stackOffset at found
    rename_i missing
    simp [StackMap.lookup, missing] at found

theorem formatOperand_inFrame (descending : map.Descending) {operand : Operand}
    (own : OwnSlot map operand) {arg : Argument}
    (formats : formatOperand map operand = some arg) : arg.InFrame (frameSize map) := by
  cases operand with
  | «variable» type name =>
      rcases Option.map_eq_some_iff.mp formats with ⟨offset, found, rfl⟩
      exact memoryArgument_inFrame descending (own name rfl) found
  | temporary type id =>
      rcases Option.map_eq_some_iff.mp formats with ⟨offset, found, rfl⟩
      exact memoryArgument_inFrame descending (own _ rfl) found
  | none | label | function | immediate =>
      rcases formats
      trivial

@[simp]
theorem register_inFrame (size : Nat) :
    (Argument.register (registerFromSize size)).InFrame frame := by
  rw [registerFromSize_eq]
  constructor
  · rw [family_accumulator]
    exact Family.noConfusion
  · rw [family_accumulator]
    exact Family.noConfusion

@[simp]
theorem scratch_inFrame (reg : Register)
    (scratch : reg ∈ [.al, .ah, .eax, .rax, .dx, .edx, .rdx, .cl, .rcx]) :
    (Argument.register reg).InFrame frame := by
  have families : ∀ reg ∈ [Register.al, .ah, .eax, .rax, .dx, .edx, .rdx, .cl, .rcx],
      reg.family ≠ .rbp ∧ reg.family ≠ .rsp := by
    decide
  exact families reg scratch

@[simp]
theorem counterRegister_inFrame (size : Nat) :
    (Argument.register (counterRegister size)).InFrame frame := by
  unfold counterRegister
  split_ifs <;> exact ⟨Family.noConfusion, Family.noConfusion⟩

/-- The arguments are passed in scratch registers. -/
theorem paramRegister_inFrame {index size : Nat} {reg : Register}
    (found : paramRegister index size = some reg) : (Argument.register reg).InFrame frame := by
  unfold paramRegister at found
  rcases Option.bind_eq_some_iff.mp found with ⟨views, isViews, chosen⟩
  have listed : reg ∈ paramRegisters.flatten := by
    apply List.mem_flatten.mpr
    refine ⟨views, List.mem_of_getElem? isViews, ?_⟩
    split at chosen <;> first | exact List.mem_of_getElem? chosen | cases chosen
  have scratch : ∀ reg ∈ paramRegisters.flatten, reg.family ≠ .rbp ∧ reg.family ≠ .rsp := by
    decide
  exact scratch reg listed

/-! ## Emitters -/

/-- All items are instructions inside of the frame. -/
def AllLocal (frame : Nat) (items : List Item) : Prop :=
  ∀ item ∈ items, item.Local frame

@[simp]
theorem allLocal_nil : AllLocal frame [] := List.forall_mem_nil _

@[simp]
theorem allLocal_cons (item : Item) (rest : List Item) :
    AllLocal frame (item :: rest) ↔ item.Local frame ∧ AllLocal frame rest :=
  List.forall_mem_cons

@[simp]
theorem allLocal_append (first second : List Item) :
    AllLocal frame (first ++ second) ↔ AllLocal frame first ∧ AllLocal frame second :=
  List.forall_mem_append

/-- A source of a division or of a product of bytes. -/
@[simp]
theorem local_emit_read {mnemonic : Mnemonic} (reads : mnemonic ∈ [.imul, .mul, .div, .idiv])
    (src : Argument) : (emit mnemonic [src]).Local frame := by
  simp only [List.mem_cons, List.not_mem_nil, or_false] at reads
  rcases reads with rfl | rfl | rfl | rfl <;> exact ⟨rfl, Bool.noConfusion⟩

@[simp]
theorem local_emit {mnemonic : Mnemonic} {dst : Argument} (inFrame : dst.InFrame frame)
    (rest : List Argument) :
    (emit mnemonic (dst :: rest)).Local frame ↔ mnemonic.isTransfer = false := by
  constructor
  · exact And.left
  · intro stays
    refine ⟨stays, ?_⟩
    rintro - _ ⟨⟩
    exact inFrame

@[simp]
theorem local_emit_nil (mnemonic : Mnemonic) :
    (emit mnemonic []).Local frame ↔ mnemonic.isTransfer = false := by
  constructor
  · exact And.left
  · intro stays
    refine ⟨stays, ?_⟩
    rintro - _ ⟨⟩

/-- The emitted instructions stay inside of the frame. -/
def EmitsLocal (frame : Nat) (emitted : Option (List Item)) : Prop :=
  ∀ items, emitted = some items → AllLocal frame items

theorem EmitsLocal.some {items : List Item} (isLocal : AllLocal frame items) :
    EmitsLocal frame (some items) := by
  rintro _ ⟨⟩
  exact isLocal

theorem EmitsLocal.bind {α : Type} {value : Option α} {emitted : α → Option (List Item)}
    (each : ∀ x, value = Option.some x → EmitsLocal frame (emitted x)) :
    EmitsLocal frame (value.bind emitted) := by
  intro items run
  rcases Option.bind_eq_some_iff.mp run with ⟨x, isValue, run⟩
  exact each x isValue items run

/-- The format of a destination. -/
def Destination (frame : Nat) (map : StackMap) (operation : Operation) : Prop :=
  ∀ dst, formatOperand map operation.operand1 = some dst → dst.InFrame frame

section Emitters

variable {operation : Operation} (destination : Destination frame map operation)

theorem loadLargeImmediate_local (frame : Nat) (operand : Operand) (size : Nat)
    (format : Argument) :
    AllLocal frame (loadLargeImmediate operand size format).1 := by
  have scratch : (Argument.register .rcx).InFrame frame :=
    ⟨Family.noConfusion, Family.noConfusion⟩
  have load : (emit .mov [.register .rcx, format]).Local frame :=
    (local_emit scratch _).mpr rfl
  unfold loadLargeImmediate
  split
  · split
    · exact allLocal_nil
    · split
      · exact allLocal_nil
      · exact (allLocal_cons _ _).mpr ⟨load, allLocal_nil⟩
  · exact allLocal_nil

include destination

theorem EmitsLocal.binary {emitted : Argument × Argument × Argument → Option (List Item)}
    (each : ∀ src1 src2 dst, dst.InFrame frame → EmitsLocal frame (emitted (src1, src2, dst))) :
    EmitsLocal frame ((formatBinary map operation).bind emitted) := by
  apply EmitsLocal.bind
  rintro ⟨src1, src2, dst⟩ formats
  rcases Option.bind_eq_some_iff.mp formats with ⟨_, -, formats⟩
  rcases Option.bind_eq_some_iff.mp formats with ⟨_, -, formats⟩
  rcases Option.bind_eq_some_iff.mp formats with ⟨_, isDestination, ⟨⟩⟩
  exact each _ _ _ (destination _ isDestination)

theorem EmitsLocal.unary {emitted : Argument × Argument → Option (List Item)}
    (each : ∀ src dst, dst.InFrame frame → EmitsLocal frame (emitted (src, dst))) :
    EmitsLocal frame ((formatUnary map operation).bind emitted) := by
  apply EmitsLocal.bind
  rintro ⟨src, dst⟩ formats
  rcases Option.bind_eq_some_iff.mp formats with ⟨_, -, formats⟩
  rcases Option.bind_eq_some_iff.mp formats with ⟨_, isDestination, ⟨⟩⟩
  exact each _ _ (destination _ isDestination)

theorem emitBinary_local {mnemonic : Mnemonic} (stays : mnemonic.isTransfer = false) :
    EmitsLocal frame (emitBinary mnemonic operation map) := by
  apply EmitsLocal.binary destination
  intro src1 src2 dst inFrame
  have load := loadLargeImmediate_local frame operation.operand3
    operation.operand1.valueType.widthBytes src2
  dsimp only
  split
  · exact .some (by simp [load, stays, inFrame])
  · exact .some (by simp [load, stays, inFrame])

theorem emitMult_local : EmitsLocal frame (emitMult operation map) := by
  apply EmitsLocal.binary destination
  intro src1 src2 dst inFrame
  have load := loadLargeImmediate_local frame operation.operand3
    operation.operand1.valueType.widthBytes src2
  dsimp only
  split
  · apply EmitsLocal.some
    cases operation.operand1.valueType.isSigned <;> split <;>
      simp [inFrame, Mnemonic.isTransfer]
  · exact .some (by simp [load, inFrame, Mnemonic.isTransfer])

omit destination in
theorem emitDividendExtension_local (frame size : Nat) (isSigned : Bool) :
    AllLocal frame (emitDividendExtension size isSigned) := by
  unfold emitDividendExtension
  split <;> cases isSigned <;> simp [Mnemonic.isTransfer]

theorem emitDiv_local : EmitsLocal frame (emitDiv operation map) := by
  apply EmitsLocal.binary destination
  intro src1 src2 dst inFrame
  have extension := emitDividendExtension_local frame
    operation.operand1.valueType.widthBytes operation.operand1.valueType.isSigned
  apply EmitsLocal.some
  dsimp only
  split <;> split <;> simp [extension, inFrame, Mnemonic.isTransfer]

theorem emitShift_local {mnemonic : Mnemonic} (stays : mnemonic.isTransfer = false) :
    EmitsLocal frame (emitShift mnemonic operation map) := by
  apply EmitsLocal.binary destination
  intro src1 src2 dst inFrame
  apply EmitsLocal.some
  split <;> simp [stays, inFrame]

theorem emitRshift_local : EmitsLocal frame (emitRshift operation map) := by
  unfold emitRshift
  split
  · exact emitShift_local destination rfl
  · exact emitShift_local destination rfl

theorem emitNeg_local : EmitsLocal frame (emitNeg operation map) := by
  apply EmitsLocal.unary destination
  intro src dst inFrame
  dsimp only
  split
  · exact .some (by simp [inFrame, Mnemonic.isTransfer])
  · exact .some (by simp [inFrame, Mnemonic.isTransfer])

omit destination in
theorem emitNotOn_local (opcode : Opcode) {target : Argument} (inFrame : target.InFrame frame) :
    (emitNotOn opcode target).Local frame := by
  unfold emitNotOn
  split <;> simp [inFrame, Mnemonic.isTransfer]

theorem emitNot_local : EmitsLocal frame (emitNot operation map) := by
  apply EmitsLocal.unary destination
  intro src dst inFrame
  dsimp only
  split
  · exact .some (by simp [emitNotOn_local, inFrame])
  · exact .some (by simp [emitNotOn_local, inFrame])

omit destination in
theorem emitConvert_local {src dst : Argument} (inFrame : dst.InFrame frame) :
    AllLocal frame (emitConvert operation src dst) := by
  unfold emitConvert
  dsimp only
  split_ifs <;> simp [inFrame, Mnemonic.isTransfer]

theorem emitAssign_local : EmitsLocal frame (emitAssign operation map) := by
  apply EmitsLocal.unary destination
  intro src dst inFrame
  dsimp only
  split
  · exact .some allLocal_nil
  · exact .some (emitConvert_local inFrame)

theorem emitCast_local : EmitsLocal frame (emitCast operation map) := by
  apply EmitsLocal.unary destination
  intro src dst inFrame
  exact .some (emitConvert_local inFrame)

theorem emitRelational_local (op : BinaryOp) :
    EmitsLocal frame (emitRelational op operation map) := by
  apply EmitsLocal.binary destination
  intro src1 src2 dst inFrame
  have load := loadLargeImmediate_local frame operation.operand3
    operation.operand2.valueType.widthBytes src2
  dsimp only
  apply EmitsLocal.bind
  intro set chosen
  have stays : set.isTransfer = false := by
    cases op <;> rcases chosen <;> first | rfl | (split <;> rfl)
  have compares : Mnemonic.cmp.isTransfer = false := rfl
  exact .some (by simp [load, inFrame, stays, compares])

/-- The operations that compute a value stay inside of the frame. -/
theorem emitOperation_local (computes : operation.opcode.computes) :
    EmitsLocal frame (emitOperation operation map) := by
  unfold emitOperation
  split
  · exact emitBinary_local destination rfl
  · exact emitBinary_local destination rfl
  · exact emitMult_local destination
  · exact emitDiv_local destination
  · exact emitNeg_local destination
  iterate 2 exact emitBinary_local destination rfl
  iterate 2 exact emitBinary_local destination rfl
  · exact emitBinary_local destination rfl
  · exact emitRshift_local destination
  · exact emitShift_local destination rfl
  iterate 2 exact emitNot_local destination
  · exact emitRelational_local destination _
  all_goals
    rename_i isOpcode
    rw [isOpcode] at computes
  iterate 3 cases computes
  · exact emitAssign_local destination
  · exact emitCast_local destination
  all_goals cases computes

end Emitters

end Sulfur.Codegen
