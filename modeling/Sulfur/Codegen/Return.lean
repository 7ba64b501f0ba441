import Sulfur.Codegen.Convention
import Sulfur.Ir.Hint
import Sulfur.Ir.Return

/-!
# Returned values

A function moves the value of a `return` into the part of the accumulator that is as wide
as the type of the value, and the caller reads the part that is as wide as the type of the
function.
-/

namespace Sulfur

theorem ValueType.Widens.target_isScalar {source target : ValueType}
    (widens : source.Widens target) : target.IsScalar := by
  have group := widens.1
  rw [ValueType.isSameGroup_comm] at group
  exact ValueType.isScalar_of_isSameGroup group

end Sulfur

namespace Sulfur.Codegen

open Machine Ir Word

variable {m : MachineState}

/-- The bits of `rax` that the caller reads above those that the callee writes are what the
value is extended with. -/
def Survives (source target : ValueType) (a : Int) (rax : BitVec 64) : Prop :=
  source.widthBits = target.widthBits ∨
    if source.widthBits = 32 then
      0 ≤ a
    else
      ∀ bit, source.widthBits ≤ bit → bit < target.widthBits →
        rax.getLsbD bit = decide (a < 0)

/-- A move to `eax` extends with zeros. -/
theorem setWidth_half_iff {type : ValueType} (half : type.widthBits = 32) {a : Int}
    (range : type.InRange a) :
    (BitVec.ofInt 32 a).setWidth 64 = BitVec.ofInt 64 a ↔ 0 ≤ a := by
  constructor
  · intro same
    by_contra negative
    have low : type.widthBits ≤ 63 := by omega
    have sign : (BitVec.ofInt 64 a).getLsbD 63 = decide (a < 0) :=
      getLsbD_ofInt_of_inRange range low (by decide)
    rw [← same, decide_eq_true (not_le.mp negative)] at sign
    simp at sign
  · intro nonneg
    have unsigned : Format.InRange ⟨false, 32⟩ a := by
      rw [Format.inRange_unsigned_iff]
      rw [ValueType.InRange, ValueType.format, half] at range
      cases sign : type.isSigned with
      | true =>
          rw [sign, Format.inRange_signed_iff] at range
          omega
      | false =>
          rw [sign, Format.inRange_unsigned_iff] at range
          exact range
    exact (Format.ofInt_of_inRange (show 32 ≤ 64 by decide) unsigned).symm

/-- The caller reads the value exactly when it survives. -/
theorem read_result_iff {source target : ValueType} (widens : source.Widens target) {a : Int}
    (range : source.InRange a) (m : MachineState) :
    (m.write (accumulator (sizeOf source)) (BitVec.ofInt (sizeOf source).bits a)).read
        (accumulator (sizeOf target)) (sizeOf target).bits =
        BitVec.ofInt (sizeOf target).bits a ↔
      Survives source target a (m.registers .rax) := by
  have sourceBits := bits_sizeOf widens.isScalar
  have targetBits := bits_sizeOf widens.target_isScalar
  by_cases same : source.widthBits = target.widthBits
  · rw [sizeOf_eq same, MachineState.read_accumulator_self]
    exact iff_of_true rfl (.inl same)
  · have narrower : source.widthBits < target.widthBits := lt_of_le_of_ne widens.2 same
    rw [Survives, or_iff_right same]
    by_cases half : source.widthBits = 32
    · rw [if_pos half, ← setWidth_half_iff half range]
      have isDword : sizeOf source = .dword := by
        cases size : sizeOf source <;> rw [size, half] at sourceBits <;>
          first | rfl | exact absurd sourceBits (by decide)
      have isQword : sizeOf target = .qword := by
        have large : 32 < (sizeOf target).bits := by omega
        cases size : sizeOf target <;> rw [size] at large <;>
          first | rfl | exact absurd large (by decide)
      rw [isDword, isQword]
      exact Eq.congr_left (m.read_write_half .eax .rax rfl rfl _)
    · have notHalf : (sizeOf source).bits ≠ 32 := by rwa [sourceBits]
      have field := Format.setWidth_ofInt (v := (sizeOf source).bits)
        (w := (sizeOf target).bits) (by omega) a
      rw [if_neg half, m.read_accumulator_above _ _ notHalf, ← field,
        extractLsb'_insertField_eq_iff _ (sizeOf target).bits_le, sourceBits, targetBits]
      apply forall_congr'
      intro bit
      apply forall_congr'
      intro above
      apply forall_congr'
      intro inside
      rw [getLsbD_ofInt_of_inRange range above inside]

/-- A slot has the value of a type exactly when its low part is the pattern. -/
theorem wrap_load_eq_iff {type : ValueType} (scalar : type.IsScalar) {a : Int}
    (range : type.InRange a) (m : MachineState) (address : BitVec 64) :
    type.wrap (m.memory.load address 64).toInt = a ↔
      m.memory.load address (sizeOf type).bits = BitVec.ofInt _ a := by
  rw [load_eq_ofInt m address (sizeOf type).bits_le, ← ofInt_wrap scalar]
  constructor
  · exact congrArg _
  · intro same
    have residues := ofInt_eq_ofInt_iff.mp same
    rw [bits_sizeOf scalar] at residues
    exact Format.eq_of_inRange_of_emod_eq (type.wrap_inRange _) range residues

/-- The registers that a return and the end of a call leave alone. -/
theorem exec_callRelease (calls : String → MachineState → Option MachineState)
    (params : List Operand) (m : MachineState) :
    ∃ next, execItems calls (callRelease params) m = some next ∧ next.memory = m.memory ∧
      ∀ family, family ≠ .rsp → next.registers family = m.registers family := by
  unfold callRelease
  dsimp only
  split
  · refine ⟨_, (execItems_singleton calls _ _ m).trans (exec_add_rsp calls _), rfl, ?_⟩
    intro family differ
    exact if_neg differ
  · exact ⟨m, rfl, rfl, fun _ _ => rfl⟩

/-- The accumulator passes the return and the end of the call. -/
theorem read_leave (m : MachineState) (size : SizePrefix) :
    m.leave.drop.read (accumulator size) size.bits = m.read (accumulator size) size.bits := by
  rw [MachineState.read, MachineState.read, family_accumulator]
  rfl

/-- A function returns an operand, and its caller stores the result of the call. -/
def Returned (calls : String → MachineState → Option MachineState)
    (function caller : IrFunction) (operand : Operand) (call : Operation)
    (params : List Operand) (m final : MachineState) : Prop :=
  ∃ items left result,
    emitReturn ⟨.ret, operand, .none, .none⟩ (functionMap function) =
        some (items ++ [emit .ret []]) ∧
      callResult call (functionMap caller) = some result ∧
      execItems calls items m = some left ∧
      execItems calls (callRelease params ++ result) left.drop = some final

/-- The code of the caller stores the part of the accumulator that it reads. -/
theorem exec_callResult (calls : String → MachineState → Option MachineState)
    {caller : IrFunction} {call : Operation} (listed : call ∈ caller.operations)
    (isCall : call.opcode = .call) (stored : call.operand1.inMemory)
    (scalar : call.operand1.valueType.IsScalar) (params : List Operand) (m : MachineState) :
    ∃ result final, callResult call (functionMap caller) = some result ∧
      execItems calls (callRelease params ++ result) m = some final ∧
      ∀ a, call.operand1.valueType.InRange a →
        (call.operand1.read (frameStore (functionMap caller) final) = some a ↔
          m.read (accumulator (sizeOf call.operand1.valueType))
            (sizeOf call.operand1.valueType).bits = BitVec.ofInt _ a) := by
  have isValue : call.operand1 ≠ .none := by
    intro nothing
    rw [nothing] at stored
    cases stored
  have slot := hasSlot_functionMap listed call.operand1 (by simp [formatted, isCall, isValue])
  rcases exists_format_memory (stackPopulate_descending _ _) scalar slot stored with
    ⟨offset, formats⟩
  rcases exec_callRelease calls params m with ⟨next, release, -, others⟩
  have kept : next.read (accumulator (sizeOf call.operand1.valueType))
      (sizeOf call.operand1.valueType).bits =
      m.read (accumulator (sizeOf call.operand1.valueType))
        (sizeOf call.operand1.valueType).bits := by
    rw [MachineState.read, MachineState.read, family_accumulator, others .rax (by decide)]
  let word := next.read (accumulator (sizeOf call.operand1.valueType))
    (sizeOf call.operand1.valueType).bits
  have move : execItems calls [emit .mov [.memory (sizeOf call.operand1.valueType) offset,
      .register (registerFromSize call.operand1.valueType.widthBytes)]] next =
        some (next.setMemory (next.address offset) word) := by
    rw [registerFromSize_eq, execItems_singleton]
    exact exec_mov_slot calls offset (size_accumulator _)
  refine ⟨[emit .mov [.memory (sizeOf call.operand1.valueType) offset,
    .register (registerFromSize call.operand1.valueType.widthBytes)]],
    next.setMemory (next.address offset) word, ?_, ?_, ?_⟩
  · rw [callResult, if_neg isValue]
    exact congrArg _ formats
  · rw [execItems_append, release, Option.bind_some, move]
  · intro a range
    have fits : (sizeOf call.operand1.valueType).bits ≤ 8 * 2 ^ 64 :=
      (SizePrefix.bits_le _).trans (by norm_num)
    rw [functionMap, read_frameStore formats, Option.some.injEq, wrap_load_eq_iff scalar range,
      ← kept]
    exact Eq.congr_left (Memory.load_store word fits)

/-- A returned value reaches its caller exactly when it survives. -/
theorem returned_value_iff (calls : String → MachineState → Option MachineState)
    {program : Program} {filename : String} {options : CompilerOptions}
    {modules : List Module} {analysis : ProgramAnalysis}
    (accepted : Accepted program filename options modules analysis)
    {func : FuncDecl} {body : Stmt} (inProgram : (func, body) ∈ analysis.program.functions)
    {base : Base} {value : Expr} (returns : .returnStmt base (some value) ∈ body.parts)
    (start : Nat) {function caller : IrFunction}
    (returned : ⟨.ret, (generateExpression value start).result, .none, .none⟩ ∈
      function.operations)
    {call : Operation} (listed : call ∈ caller.operations) (isCall : call.opcode = .call)
    (stored : call.operand1.inMemory) (typed : call.operand1.valueType = func.returnType)
    (params : List Operand) {m : MachineState} {a : Int}
    (read : (generateExpression value start).result.read
      (frameStore (functionMap function) m) = some a) :
    ∃ final, Returned calls function caller (generateExpression value start).result call params
        m final ∧
      (call.operand1.read (frameStore (functionMap caller) final) = some a ↔
        Survives value.resolved func.returnType a (m.registers .rax)) := by
  rcases accepted.typed_part inProgram returns with ⟨current, isCurrent, -, widens⟩
  obtain rfl := Option.some.inj isCurrent
  have notVoid : value.isVoidCall = false := by
    cases void : value.isVoidCall with
    | false => rfl
    | true =>
        rw [generateExpression_result_of_isVoidCall void] at read
        cases read
  have isType := (generateExpression_result notVoid start).1
  generalize (generateExpression value start).result = operand at *
  have isValue : operand ≠ .none := by
    rintro rfl
    cases read
  have slot := hasSlot_functionMap returned operand (by simp [formatted, isValue])
  rcases exists_format_denotes (stackPopulate_descending _ _) (isType ▸ widens.isScalar) slot
    read with ⟨src, formats, denotes⟩
  have range := Operand.read_inRange read
  rw [isType] at denotes range
  rcases exec_emitReturn calls
    (show (Operation.mk .ret operand .none .none).operand1.valueType = _ from isType) formats
    denotes with ⟨items, emitted, run⟩
  have target := widens.target_isScalar
  rw [← typed] at target
  rcases exec_callResult calls listed isCall stored target params
    (m.write (accumulator (sizeOf value.resolved)) (BitVec.ofInt _ a)).leave.drop with
    ⟨result, final, isResult, finish, reads⟩
  refine ⟨final, ⟨items, _, result, emitted, isResult, run, finish⟩, ?_⟩
  rw [reads a (typed ▸ ValueType.InRange.widen range widens), read_leave, typed]
  exact read_result_iff widens range m

/-! ### A parameter that is returned as a wider value -/

/-- A parameter of type `i8` that is returned as an `i64`. -/
def widenedSource : String :=
  "fn f(i8 x) i64 { return x; } fn main() i32 { i64 y = f(0 - 1); return 0; }"

theorem isSome_compileFrontend_widened :
    (compileFrontend widenedSource "main.su" {}).isSome := by
  decide

/-- The analysis of that program. -/
def widenedAnalysis : ProgramAnalysis :=
  (compileFrontend widenedSource "main.su" {}).get isSome_compileFrontend_widened

theorem accepted_widened :
    ∃ program, Accepted program "main.su" {} [] widenedAnalysis :=
  accepted_of_compileFrontend (Option.some_get _).symm

/-- The function `f`. -/
def widenedCallee : IrFunction where
  name := "f"
  parameters := [{ type := .i8, name := "x@0" }]
  returnType := .i64
  operations := [⟨.ret, .variable .i8 "x@0", .none, .none⟩]
  nextTemp := 0
  qualifiers := default
  defined := true

/-- The call of `f` in `main`. -/
def widenedCall : Operation :=
  ⟨.call, .variable .i64 "y@1", .function .i64 "f", .none⟩

/-- The function `main`. -/
def widenedCaller : IrFunction where
  name := "main"
  parameters := []
  returnType := .i32
  operations := [⟨.binary .sub, .temporary .i8 0, .immediate .i8 "0", .immediate .i8 "1"⟩,
    ⟨.param, .temporary .i8 0, .none, .none⟩, widenedCall,
    ⟨.ret, .immediate .i32 "0", .none, .none⟩]
  nextTemp := 1
  qualifiers := default
  defined := true

theorem functions_widened :
    (irGenerate widenedAnalysis.program).program.functions = [widenedCallee, widenedCaller] := by
  decide

/-- The values of the `return` statements of a body. -/
def returnedValues (body : Stmt) : List (Base × Expr) :=
  body.parts.filterMap fun part =>
    match part with
    | .returnStmt base (some value) => some (base, value)
    | _ => none

theorem mem_parts_of_mem_returnedValues {body : Stmt} {base : Base} {value : Expr}
    (listed : (base, value) ∈ returnedValues body) :
    .returnStmt base (some value) ∈ body.parts := by
  rcases List.mem_filterMap.mp listed with ⟨part, inParts, returns⟩
  split at returns
  · rcases returns
    exact inParts
  · cases returns

/-- The `return` of the first function. -/
theorem exists_return_widened :
    ∃ func body base value, (func, body) ∈ widenedAnalysis.program.functions ∧
      .returnStmt base (some value) ∈ body.parts ∧ func.returnType = .i64 ∧
      value.resolved = .i8 ∧ (generateExpression value 0).result = .variable .i8 "x@0" := by
  have only : (widenedAnalysis.program.functions.flatMap fun function =>
      (returnedValues function.2).map fun value =>
        (function.1.returnType, value.2.resolved, (generateExpression value.2 0).result)) =
      [(.i64, .i8, .variable .i8 "x@0"), (.i32, .i32, .immediate .i32 "0")] := by
    decide
  have listed := List.mem_cons_self (a := (ValueType.i64, ValueType.i8, Operand.variable .i8 "x@0"))
    (l := [(.i32, .i32, .immediate .i32 "0")])
  rw [← only] at listed
  rcases List.mem_flatMap.mp listed with ⟨⟨func, body⟩, inProgram, inFunction⟩
  rcases List.mem_map.mp inFunction with ⟨⟨base, value⟩, inBody, same⟩
  simp only [Prod.mk.injEq] at same
  exact ⟨func, body, base, value, inProgram, mem_parts_of_mem_returnedValues inBody, same.1,
    same.2.1, same.2.2⟩

/-- `main` after its entry. -/
def widenedStart : MachineState where
  registers
    | .rbp => 4096
    | .rsp => 4080
    | _ => 0
  memory _ := 0
  flags := none

/-- The code of `main` before the call. -/
def widenedBefore : List Item :=
  [emit .mov [.register .al, .immediate "0"], emit .sub [.register .al, .immediate "1"],
    emit .mov [.memory .byte (-1), .register .al],
    emit .movsx [.register .edi, .memory .byte (-1)]]

/-- The entry of `f` and the move of its parameter. -/
def widenedEntry : List Item :=
  [emit .push [.register .rbp], emit .mov [.register .rbp, .register .rsp],
    emit .sub [.register .rsp, .immediate "16"],
    emit .mov [.memory .byte (-1), .register .dil]]

/-- The state in which `f` returns. -/
def widenedState : Option MachineState :=
  (execItems (fun _ _ => none) widenedBefore widenedStart).bind fun atCall =>
    execItems (fun _ _ => none) widenedEntry (atCall.push 0)

/-- The value that `main` stores, beside the one that `f` returns. -/
theorem widened_values :
    (widenedState.bind fun m =>
      (execItems (fun _ _ => none) [emit .mov [.register .al, .memory .byte (-1)],
        emit .mov [.register .rsp, .register .rbp], emit .pop [.register .rbp]] m).bind fun left =>
      (execItems (fun _ _ => none) [emit .mov [.memory .qword (-16), .register .rax]]
        left.drop).bind fun final =>
      some ((Operand.variable .i8 "x@0").read (frameStore (functionMap widenedCallee) m),
        widenedCall.operand1.read (frameStore (functionMap widenedCaller) final))) =
      some (some (-1), some 255) := by
  decide

theorem returned_value_lost :
    (∃ program, Accepted program "main.su" {} [] widenedAnalysis) ∧
      (irGenerate widenedAnalysis.program).program.functions = [widenedCallee, widenedCaller] ∧
      ∃ m final, widenedState = some m ∧
        Returned (fun _ _ => none) widenedCallee widenedCaller (.variable .i8 "x@0") widenedCall
          [.temporary .i8 0] m final ∧
        (Operand.variable .i8 "x@0").read (frameStore (functionMap widenedCallee) m) =
          some (-1) ∧
        widenedCall.operand1.read (frameStore (functionMap widenedCaller) final) = some 255 := by
  refine ⟨accepted_widened, functions_widened, ?_⟩
  rcases Option.bind_eq_some_iff.mp widened_values with ⟨m, isState, rest⟩
  rcases Option.bind_eq_some_iff.mp rest with ⟨left, returned, rest⟩
  rcases Option.bind_eq_some_iff.mp rest with ⟨final, stored, values⟩
  have both := Prod.mk.inj (Option.some.inj values)
  exact ⟨m, final, isState, ⟨_, left, _, rfl, rfl, returned, stored⟩, both⟩

theorem returned_value_iff_widened :
    ∃ m final value, widenedState = some m ∧
      Returned (fun _ _ => none) widenedCallee widenedCaller (.variable .i8 "x@0") widenedCall
        [.temporary .i8 0] m final ∧
      (widenedCall.operand1.read (frameStore (functionMap widenedCaller) final) = some (-1) ↔
        Survives (Expr.resolved value) .i64 (-1) (m.registers .rax)) := by
  rcases accepted_widened with ⟨program, accepted⟩
  rcases exists_return_widened with ⟨func, body, base, value, inProgram, returns, returnType, -,
    result⟩
  rcases Option.bind_eq_some_iff.mp widened_values with ⟨m, isState, rest⟩
  rcases Option.bind_eq_some_iff.mp rest with ⟨left, -, rest⟩
  rcases Option.bind_eq_some_iff.mp rest with ⟨final, -, values⟩
  have read := (Prod.mk.inj (Option.some.inj values)).1
  rcases returned_value_iff (fun _ _ => none) accepted inProgram returns 0
      (show _ ∈ widenedCallee.operations by rw [result]; exact .head _)
      (show widenedCall ∈ widenedCaller.operations by decide) rfl rfl returnType.symm
      [.temporary .i8 0] (by rw [result]; exact read) with ⟨final, returned, survives⟩
  rw [result] at returned
  rw [returnType] at survives
  exact ⟨m, final, value, isState, returned, survives⟩

end Sulfur.Codegen
