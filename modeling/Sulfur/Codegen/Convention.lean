import Sulfur.Codegen.Selection

/-!
# Calls and returns

What the instructions around a call do to the stack and to the registers: the arguments
before it, the frame of the callee, the value in the accumulator, and the return.
-/

namespace Sulfur.Codegen

open Machine Ir Word

variable (calls : String → MachineState → Option MachineState) {map : StackMap}
  {m : MachineState}

/-! ## Stack instructions -/

@[simp]
theorem decimal_toString (n : Nat) : decimal (toString n) = n := by
  rw [decimal, Nat.toString_eq_repr, Nat.toList_repr, Nat.ofDigitChars_ten_toDigits]

/-- A whole register is moved into another one. -/
theorem exec_mov_whole {dst src : Register} (dstSize : dst.size = .qword)
    (srcSize : src.size = .qword) :
    Instruction.exec calls m ⟨.mov, [.register dst, .register src]⟩ =
      some (m.setFamily dst.family (m.registers src.family)) := by
  have whole {reg : Register} (sized : reg.size = .qword) : reg.start = 0 := by
    cases reg <;> first | rfl | cases sized
  have moved : Instruction.exec calls m ⟨.mov, [.register dst, .register src]⟩ =
      some (m.write dst (m.read src 64)) := by
    simp only [Instruction.exec, MachineState.move, Argument.size, Argument.isMemory,
      MachineState.value, MachineState.assign, dstSize, srcSize, Option.bind_eq_bind,
      Option.bind_some, Bool.false_and, Bool.false_eq_true, if_false, if_true]
    rfl
  rw [moved, m.write_whole (whole dstSize), m.read_whole (whole srcSize)]

theorem exec_push {reg : Register} (sized : reg.size = .qword) (start : reg.start = 0) :
    Instruction.exec calls m ⟨.push, [.register reg]⟩ =
      some (m.push (m.registers reg.family)) := by
  rw [Instruction.exec, if_pos sized, MachineState.read_whole _ start]

theorem exec_pop {reg : Register} (sized : reg.size = .qword) (start : reg.start = 0) :
    Instruction.exec calls m ⟨.pop, [.register reg]⟩ =
      some (m.drop.setFamily reg.family m.top) := by
  rw [Instruction.exec, if_pos sized, MachineState.write_whole _ start]

/-- The 32 bits of an immediate, extended. -/
def extendedImmediate (value : String) : BitVec 64 :=
  (BitVec.ofInt 32 (decimal value)).signExtend 64

/-- An operation on the stack pointer changes no other register. -/
theorem binary_rsp (op : ∀ w, BitVec w → BitVec w → BitVec w) (value : String) :
    m.binary op (.register .rsp) (.immediate value) =
      some (m.forgetFlags.setFamily .rsp
        (op 64 (m.registers .rsp) (extendedImmediate value))) := by
  have low : Register.rsp.start = 0 := rfl
  have written := m.forgetFlags.write_whole low
    (op 64 (m.read .rsp 64) (extendedImmediate value))
  refine (congrArg some written).trans ?_
  rw [m.read_whole low]
  rfl

theorem exec_add_rsp (value : String) :
    Instruction.exec calls m ⟨.add, [.register .rsp, .immediate value]⟩ =
      some (m.forgetFlags.setFamily .rsp (m.registers .rsp + extendedImmediate value)) :=
  binary_rsp (fun _ x y => x + y) value

theorem exec_sub_rsp (value : String) :
    Instruction.exec calls m ⟨.sub, [.register .rsp, .immediate value]⟩ =
      some (m.forgetFlags.setFamily .rsp (m.registers .rsp - extendedImmediate value)) :=
  binary_rsp (fun _ x y => x - y) value

/-- A small immediate is its number. -/
theorem extendedImmediate_toString {n : Nat} (small : n < 2 ^ 31) :
    extendedImmediate (toString n) = BitVec.ofNat 64 n := by
  have range : Format.InRange ⟨true, 32⟩ (n : Int) := by
    rw [Format.inRange_signed_iff]
    omega
  rw [extendedImmediate, decimal_toString]
  exact (Format.ofInt_of_inRange (show 32 ≤ 64 by decide) range).symm

/-! ## Returns -/

/-- The frame is left: the saved base pointer is below the return address. -/
def MachineState.leave (m : MachineState) : MachineState :=
  let base := m.setFamily .rsp (m.registers .rbp)
  base.drop.setFamily .rbp base.top

/-- The end of `emit_return` before its `ret`. -/
theorem exec_leave :
    execItems calls [emit .mov [.register .rsp, .register .rbp], emit .pop [.register .rbp]] m =
      some m.leave := by
  rw [execItems_emit, exec_mov_whole calls rfl rfl, Option.bind_some, execItems_singleton,
    exec_pop calls rfl rfl]
  rfl

/-- `emit_return` of a value, before its `ret`. -/
theorem exec_emitReturn {operation : Operation} {type : ValueType}
    (isType : operation.operand1.valueType = type) {src : Argument} {a : Int}
    (formats : formatOperand map operation.operand1 = some src)
    (denotes : m.Denotes (sizeOf type) a src) :
    ∃ items, emitReturn operation map = some (items ++ [emit .ret []]) ∧
      execItems calls items m =
        some (m.write (accumulator (sizeOf type)) (BitVec.ofInt (sizeOf type).bits a)).leave := by
  have isValue : operation.operand1 ≠ .none := by
    intro nothing
    rw [nothing] at formats
    obtain rfl := Option.some.inj formats
    exact denotes.elim
  refine ⟨emit .mov [.register (accumulator (sizeOf type)), src] ::
    [emit .mov [.register .rsp, .register .rbp], emit .pop [.register .rbp]], ?_, ?_⟩
  · unfold emitReturn
    simp only [if_neg isValue, formats, isType, Option.bind_eq_bind, Option.bind_some,
      registerFromSize_eq]
    rfl
  · rw [execItems_emit, exec_mov_accumulator calls denotes, Option.bind_some, exec_leave]

/-! ## The result of a call -/

/-- The end of `emit_call`: the pushed arguments are dropped. -/
def callRelease (params : List Operand) : List Item :=
  let stackArgs := params.length - 6
  let padding := stackArgs % 2
  if stackArgs + padding > 0 then
    [emit .add [.register .rsp, .immediate (toString ((stackArgs + padding) * 8))]]
  else
    []

/-- The part of `emit_call` before its `call`. -/
def callArguments (params : List Operand) (map : StackMap) : Option (List Item) := do
  let stackArgs := params.length - 6
  let padding := stackArgs % 2
  let align := if padding > 0 then [emit .sub [.register .rsp, .immediate "8"]] else []
  let pushes ← emitAll (emitStackArg map) (params.drop 6).reverse
  let moves ← emitAll (fun param => emitRegisterArg map param.2 param.1)
    (params.take 6).zipIdx
  return align ++ pushes ++ moves

/-- The move of the result into the slot of the destination. -/
def callResult (call : Operation) (map : StackMap) : Option (List Item) :=
  if call.operand1 = .none then
    some []
  else
    (formatOperand map call.operand1).map fun dst =>
      [emit .mov [dst, .register (registerFromSize call.operand1.valueType.widthBytes)]]

/-- The parts of `emit_call`. -/
theorem emitCall_eq (params : List Operand) (call : Operation) (map : StackMap) :
    emitCall params call map =
      (callArguments params map).bind fun arguments =>
        (callResult call map).map fun result =>
          arguments ++ emit .call [.symbol (functionName call.operand2)] ::
            (callRelease params ++ result) := by
  unfold emitCall callArguments callResult callRelease
  cases emitAll (emitStackArg map) (params.drop 6).reverse with
  | none => rfl
  | some pushes =>
      cases emitAll (fun param => emitRegisterArg map param.2 param.1)
        (params.take 6).zipIdx with
      | none => rfl
      | some moves =>
          by_cases nothing : call.operand1 = .none
          · simp [nothing]
          · cases formatOperand map call.operand1 with
            | none => simp [nothing]
            | some dst => simp [nothing]

end Sulfur.Codegen
