import Sulfur.Codegen.Discipline
import Sulfur.Codegen.Format

/-!
# The shapes of emitted code

The code that is emitted for a function keeps the stack discipline, whatever its operations
are, when the names of its slots have one type each and its frame and the arguments of its
calls fit in 31 bits.
-/

namespace Sulfur.Codegen

open Machine Ir Jump

/-! ## Runs of shapes -/

/-- What items one after the other make of a shape. -/
inductive Shape.Runs (frame : Nat) : Shape → List Item → Shape → Prop
  | nil (shape : Shape) : Runs frame shape [] shape
  | cons {shape middle after : Shape} {item : Item} {rest : List Item}
      (step : Step frame shape item middle) (runs : Runs frame middle rest after) :
      Runs frame shape (item :: rest) after

namespace Shape.Runs

variable {frame : Nat} {shape middle after : Shape} {first second items : List Item}

theorem append (firstRuns : Runs frame shape first middle)
    (secondRuns : Runs frame middle second after) : Runs frame shape (first ++ second) after := by
  induction firstRuns with
  | nil => exact secondRuns
  | cons step _ inductionHypothesis => exact .cons step (inductionHypothesis secondRuns)

theorem single {item : Item} (step : Step frame shape item after) :
    Runs frame shape [item] after :=
  .cons step (.nil after)

theorem of_allLocal (isLocal : AllLocal frame items) (pushed : Nat) :
    Runs frame (.body pushed) items (.body pushed) := by
  induction items with
  | nil => exact .nil _
  | cons item rest inductionHypothesis =>
      rw [allLocal_cons] at isLocal
      exact .cons (.stay pushed isLocal.1) (inductionHypothesis isLocal.2)

/-- The shapes before the items of a run. -/
theorem exists_shapes (runs : Runs frame shape items after) :
    ∃ shapes : Nat → Shape, shapes 0 = shape ∧
      ∀ index item, items[index]? = some item →
        Step frame (shapes index) item (shapes (index + 1)) := by
  induction runs with
  | nil shape => exact ⟨fun _ => shape, rfl, fun _ _ found => by cases found⟩
  | @cons shape middle _ _ _ step _ inductionHypothesis =>
      rcases inductionHypothesis with ⟨shapes, isMiddle, steps⟩
      refine ⟨fun index => index.casesOn shape shapes, rfl, ?_⟩
      intro index item found
      cases index with
      | zero =>
          rcases found
          rw [← isMiddle] at step
          exact step
      | succ index => exact steps index item found

end Shape.Runs

/-! ## Operations -/

/-- The variables and temporaries of one name have one type. -/
def SingleTyped (func : IrFunction) : Prop :=
  ∀ first ∈ registeredOperands func.parameters func.operations,
    ∀ second ∈ registeredOperands func.parameters func.operations,
      (StackMap.slotName first).isSome → StackMap.slotName first = StackMap.slotName second →
        first.valueType = second.valueType

theorem ownSlot_of_registered {func : IrFunction} (single : SingleTyped func) {operand : Operand}
    (listed : operand ∈ registeredOperands func.parameters func.operations) :
    OwnSlot (functionMap func) operand :=
  fun _ named _ found => type_of_lookupEntry single listed named found

theorem ownSlot_operand1 {func : IrFunction} (single : SingleTyped func) {operation : Operation}
    (listed : operation ∈ func.operations) : OwnSlot (functionMap func) operation.operand1 := by
  apply ownSlot_of_registered single
  apply List.mem_append_right
  apply List.mem_flatMap.mpr
  exact ⟨operation, listed, List.mem_append_left _ List.mem_cons_self⟩

section Emitters

variable {map : StackMap} {frame : Nat} {operation : Operation}

/-- `emit_return` leaves the frame. -/
theorem emitReturn_runs {items : List Item} (emitted : emitReturn operation map = some items) :
    Shape.Runs frame (.body 0) items (.body 0) := by
  have leaves : Shape.Runs frame (.body 0) [emit .mov [.register .rsp, .register .rbp],
      emit .pop [.register .rbp], emit .ret []] (.body 0) :=
    .cons .leave (.cons .restore (.single .ret))
  unfold emitReturn at emitted
  dsimp only at emitted
  split at emitted
  · rcases emitted
    exact leaves
  · rcases Option.bind_eq_some_iff.mp emitted with ⟨src, -, ⟨⟩⟩
    exact .cons (.stay 0 ((local_emit (register_inFrame _) _).mpr rfl)) leaves

theorem emitJmpCond_runs {items : List Item} (emitted : emitJmpCond operation map = some items) :
    Shape.Runs frame (.body 0) items (.body 0) := by
  rcases Option.bind_eq_some_iff.mp emitted with ⟨cond, -, ⟨⟩⟩
  apply Shape.Runs.cons (.stay 0 ((local_emit (register_inFrame _) _).mpr rfl))
  apply Shape.Runs.cons (.stay 0 ((local_emit (register_inFrame _) _).mpr rfl))
  exact .single (.jump (by decide) _)

/-- An operation other than a call leaves the body of its function as it is. -/
theorem emitOperation_runs (destination : Destination frame map operation) {items : List Item}
    (emitted : emitOperation operation map = some items) :
    Shape.Runs frame (.body 0) items (.body 0) := by
  cases isComputing : operation.opcode.computes with
  | true => exact .of_allLocal (emitOperation_local destination isComputing items emitted) 0
  | false =>
      rcases operation with ⟨opcode, dst, fst, snd⟩
      cases opcode with
      | invalid | param | call =>
          rcases emitted
          exact .nil _
      | label =>
          rcases emitted
          exact .single (.label _)
      | jmpIncond =>
          rcases emitted
          exact .single (.jump (by decide) _)
      | jmpCond => exact emitJmpCond_runs emitted
      | ret => exact emitReturn_runs emitted
      | binary | negate | bitwiseNot | logicalNot | assign | cast => cases isComputing

/-! ## Calls -/

theorem emitStackArg_runs (frame : Nat) {param : Operand} {items : List Item}
    (emitted : emitStackArg map param = some items) (pushed : Nat) :
    Shape.Runs frame (.body pushed) items (.body (pushed + 8)) := by
  rcases Option.bind_eq_some_iff.mp emitted with ⟨src, -, ⟨⟩⟩
  apply Shape.Runs.cons _ (.single (.push pushed))
  apply Shape.Step.stay
  split_ifs <;> exact (local_emit (scratch_inFrame _ (by decide)) _).mpr rfl

theorem emitStackArgs_runs (frame : Nat) {params : List Operand} {items : List Item}
    (emitted : emitAll (emitStackArg map) params = some items) (pushed : Nat) :
    Shape.Runs frame (.body pushed) items (.body (pushed + 8 * params.length)) := by
  induction params generalizing items pushed with
  | nil =>
      rcases emitted
      exact .nil _
  | cons param rest inductionHypothesis =>
      rcases Option.bind_eq_some_iff.mp emitted with ⟨first, isFirst, emitted⟩
      rcases Option.bind_eq_some_iff.mp emitted with ⟨others, isOthers, ⟨⟩⟩
      have runs := (emitStackArg_runs frame isFirst pushed).append
        (inductionHypothesis isOthers (pushed + 8))
      rwa [show pushed + 8 + 8 * rest.length = pushed + 8 * (param :: rest).length by
        rw [List.length_cons]
        omega] at runs

theorem emitAll_local {α : Type} {emitOne : α → Option (List Item)} {values : List α}
    (each : ∀ value ∈ values, EmitsLocal frame (emitOne value)) :
    EmitsLocal frame (emitAll emitOne values) := by
  induction values with
  | nil => exact .some allLocal_nil
  | cons value rest inductionHypothesis =>
      rw [List.forall_mem_cons] at each
      apply EmitsLocal.bind
      intro first isFirst
      apply EmitsLocal.bind
      intro others isOthers
      apply EmitsLocal.some
      rw [allLocal_append]
      exact ⟨each.1 first isFirst, inductionHypothesis each.2 others isOthers⟩

theorem emitRegisterArg_local (index : Nat) (param : Operand) :
    EmitsLocal frame (emitRegisterArg map index param) := by
  apply EmitsLocal.bind
  intro src _
  apply EmitsLocal.bind
  intro reg isReg
  have inFrame : (Argument.register reg).InFrame frame := paramRegister_inFrame isReg
  split
  · cases param.valueType.isSigned <;> exact .some (by simp [inFrame, Mnemonic.isTransfer])
  · exact .some (by simp [inFrame])

/-- The bytes that are pushed for a call: the arguments after the first six, and a word of
padding when their number is odd. -/
def pushedBytes (params : List Operand) : Nat :=
  (params.length - 6 + (params.length - 6) % 2) * 8

theorem callArguments_runs {params : List Operand} {items : List Item}
    (emitted : callArguments params map = some items) :
    Shape.Runs frame (.body 0) items (.body (pushedBytes params)) := by
  rcases Option.bind_eq_some_iff.mp emitted with ⟨pushes, isPushes, emitted⟩
  rcases Option.bind_eq_some_iff.mp emitted with ⟨moves, isMoves, ⟨⟩⟩
  have moved : AllLocal frame moves :=
    emitAll_local (fun param _ => emitRegisterArg_local param.2 param.1) moves isMoves
  have pads : Shape.Runs frame (.body 0)
      (if (params.length - 6) % 2 > 0 then [emit .sub [.register .rsp, .immediate "8"]] else [])
      (.body ((params.length - 6) % 2 * 8)) := by
    rcases Nat.mod_two_eq_zero_or_one (params.length - 6) with even | odd
    · rw [even]
      exact .nil _
    · rw [odd]
      exact .single (.pad 0)
  have pushed := emitStackArgs_runs frame isPushes ((params.length - 6) % 2 * 8)
  rw [List.length_reverse, List.length_drop] at pushed
  have whole : (params.length - 6) % 2 * 8 + 8 * (params.length - 6) = pushedBytes params := by
    rw [pushedBytes]
    omega
  rw [whole] at pushed
  exact (pads.append pushed).append (.of_allLocal moved _)

theorem dvd_pushedBytes (params : List Operand) : 16 ∣ pushedBytes params := by
  rw [pushedBytes]
  omega

/-- A call leaves the body of its function as it is. -/
theorem emitCall_runs {params : List Operand} {call : Operation}
    (destination : Destination frame map call) (other : functionName call.operand2 ≠ "_start")
    (small : pushedBytes params < 2 ^ 31) {items : List Item}
    (emitted : emitCall params call map = some items) :
    Shape.Runs frame (.body 0) items (.body 0) := by
  rw [emitCall_eq] at emitted
  rcases Option.bind_eq_some_iff.mp emitted with ⟨arguments, isArguments, emitted⟩
  rcases Option.map_eq_some_iff.mp emitted with ⟨result, isResult, rfl⟩
  have released : Shape.Runs frame (.body (pushedBytes params)) (callRelease params) (.body 0) := by
    unfold callRelease
    dsimp only
    split
    · exact .single (.release small)
    · have nothing : pushedBytes params = 0 := by
        rw [pushedBytes]
        omega
      rw [nothing]
      exact .nil _
  have stored : AllLocal frame result := by
    unfold callResult at isResult
    split at isResult
    · rcases isResult
      exact allLocal_nil
    · rcases Option.map_eq_some_iff.mp isResult with ⟨dst, formats, rfl⟩
      simp [destination dst formats]
  exact (callArguments_runs isArguments).append
    (.cons (.call (dvd_pushedBytes params) other) (released.append (.of_allLocal stored 0)))

/-- The operations of a function leave its body as it is. -/
theorem emitOperations_runs {operations : List Operation} {params : List Operand}
    (destinations : ∀ operation ∈ operations, Destination frame map operation)
    (others : ∀ operation ∈ operations, operation.opcode = .call →
      functionName operation.operand2 ≠ "_start")
    (small : 8 * (params.length + operations.length + 1) < 2 ^ 31) {items : List Item}
    (emitted : emitOperations map params operations = some items) :
    Shape.Runs frame (.body 0) items (.body 0) := by
  induction operations generalizing params items with
  | nil =>
      rcases emitted
      exact .nil _
  | cons operation rest inductionHypothesis =>
      rw [List.forall_mem_cons] at destinations others
      rw [List.length_cons] at small
      unfold emitOperations at emitted
      split at emitted
      · apply inductionHypothesis destinations.2 others.2 _ emitted
        rw [List.length_append, List.length_singleton]
        omega
      · rename_i isCall
        rcases Option.bind_eq_some_iff.mp emitted with ⟨first, isFirst, emitted⟩
        rcases Option.bind_eq_some_iff.mp emitted with ⟨after, isAfter, ⟨⟩⟩
        have smallPushes : pushedBytes params < 2 ^ 31 := by
          rw [pushedBytes]
          omega
        apply (emitCall_runs destinations.1 (others.1 isCall) smallPushes isFirst).append
        apply inductionHypothesis destinations.2 others.2 _ isAfter
        rw [List.length_nil]
        omega
      · rcases Option.bind_eq_some_iff.mp emitted with ⟨first, isFirst, emitted⟩
        rcases Option.bind_eq_some_iff.mp emitted with ⟨after, isAfter, ⟨⟩⟩
        apply (emitOperation_runs destinations.1 isFirst).append
        exact inductionHypothesis destinations.2 others.2 (by omega) isAfter

end Emitters

/-! ## Functions -/

theorem emitParameter_local {map : StackMap} (descending : map.Descending) {param : Parameter}
    (own : OwnSlot map (.variable param.type param.name)) (index : Nat) :
    EmitsLocal (frameSize map) (emitParameter map index param) := by
  apply EmitsLocal.bind
  intro offset found
  have slot : (memoryArgument param.type offset).InFrame (frameSize map) :=
    memoryArgument_inFrame descending (own param.name rfl) found
  split
  · apply EmitsLocal.bind
    intro reg _
    exact .some (by simp [slot])
  · exact .some (by simp [slot])

/-- What a function must be for its code to keep the stack discipline. -/
structure Framed (func : IrFunction) : Prop where
  single : SingleTyped func
  frame : frameSize (functionMap func) < 2 ^ 31
  arguments : 8 * (func.operations.length + 1) < 2 ^ 31
  targets : ∀ operation ∈ func.operations, operation.opcode = .call →
    functionName operation.operand2 ≠ "_start"

/-- The code of a function sets up its frame and keeps it. -/
theorem emitDefinition_runs {func : IrFunction} (framed : Framed func)
    {emitted : EmittedFunction} (isEmitted : emitDefinition func = some emitted) :
    Shape.Runs (frameSize (functionMap func)) .outside emitted.items (.body 0) := by
  have descending : (functionMap func).Descending := stackPopulate_descending _ _
  rcases Option.bind_eq_some_iff.mp isEmitted with ⟨parameters, isParameters, isEmitted⟩
  rcases Option.bind_eq_some_iff.mp isEmitted with ⟨operations, isOperations, ⟨⟩⟩
  have entered : Shape.Runs (frameSize (functionMap func)) .outside
      [emit .push [.register .rbp], emit .mov [.register .rbp, .register .rsp],
        emit .sub [.register .rsp, .immediate (toString (frameSize (functionMap func)))]]
      (.body 0) :=
    .cons .save (.cons .base (.single .reserve))
  have moved : AllLocal (frameSize (functionMap func)) parameters := by
    apply emitAll_local _ _ isParameters
    rintro ⟨param, index⟩ listed
    apply emitParameter_local descending
    apply ownSlot_of_registered framed.single
    apply List.mem_append_left
    rcases List.mem_zipIdx listed with ⟨-, -, isParam⟩
    rw [isParam]
    exact List.mem_map_of_mem (List.getElem_mem _)
  have destinations : ∀ operation ∈ func.operations,
      Destination (frameSize (functionMap func)) (functionMap func) operation :=
    fun operation listed _ formats =>
      formatOperand_inFrame descending (ownSlot_operand1 framed.single listed) formats
  have small : 8 * (([] : List Operand).length + func.operations.length + 1) < 2 ^ 31 := by
    rw [List.length_nil, Nat.zero_add]
    exact framed.arguments
  exact (entered.append (.of_allLocal moved 0)).append
    (emitOperations_runs destinations framed.targets small isOperations)

/-! ## Programs -/

/-- The functions of a linked program and the code that is emitted for them. -/
def Emitted (functions : List IrFunction) (program : List EmittedFunction) : Prop :=
  List.Forall₂ (fun func emitted => emitDefinition func = some emitted) functions program

/-- The items of a linked program have the shapes of its functions. -/
theorem exists_shaping {functions : List IrFunction} {program : List EmittedFunction}
    (framed : ∀ func ∈ functions, Framed func) (emitted : Emitted functions program) :
    ∃ shaping : Shaping (routines program),
      ∀ (index : Nat) (func : IrFunction), functions[index]? = some func →
        shaping.frame (index + 1) = frameSize (functionMap func) := by
  have each : ∀ index : Nat, ∃ (frame : Nat) (shapes : Nat → Shape),
      (∀ func, functions[index]? = some func → frame = frameSize (functionMap func)) ∧
      16 ∣ frame ∧ frame < 2 ^ 31 ∧ shapes 0 = .outside ∧
      ∀ code, program[index]? = some code → ∀ place item, code.items[place]? = some item →
        (shapes place).Step frame item (shapes (place + 1)) := by
    intro index
    cases isFunc : functions[index]? with
    | none =>
        refine ⟨0, fun _ => .outside, fun _ found => (by cases found), dvd_zero _, by norm_num,
          rfl, ?_⟩
        intro code isCode
        have bound := (List.getElem?_eq_some_iff.mp isCode).1
        rw [List.getElem?_eq_none_iff] at isFunc
        have lengths := emitted.length_eq
        omega
    | some func =>
        have isFramed := framed func (List.mem_of_getElem? isFunc)
        rcases List.getElem?_eq_some_iff.mp isFunc with ⟨bound, isAt⟩
        have isEmitted := emitted.get bound (emitted.length_eq ▸ bound)
        rw [List.get_eq_getElem, isAt] at isEmitted
        rcases (emitDefinition_runs isFramed isEmitted).exists_shapes with ⟨shapes, entry, steps⟩
        refine ⟨_, shapes, fun other found => ?_, Nat.dvd_mul_left _ _, isFramed.frame, entry, ?_⟩
        · rcases found
          rfl
        · intro code isCode
          rw [List.getElem?_eq_getElem (emitted.length_eq ▸ bound), Option.some.injEq] at isCode
          subst isCode
          exact steps
  choose frame shapes frames aligned small entry steps using each
  refine ⟨⟨fun routine => frame (routine - 1), fun routine => shapes (routine - 1), rfl,
    fun routine => aligned _, fun routine => small _, fun routine _ => entry _, ?_⟩, ?_⟩
  · rintro ⟨routine, index⟩ inFunction item isItem
    rcases Option.bind_eq_some_iff.mp isItem with ⟨code, isCode, isItem⟩
    rcases Nat.exists_eq_succ_of_ne_zero inFunction with ⟨position, rfl⟩
    rw [routines, List.getElem?_cons_succ, List.getElem?_map] at isCode
    rcases Option.map_eq_some_iff.mp isCode with ⟨emittedCode, isEmitted, rfl⟩
    exact steps position emittedCode isEmitted index item isItem
  · intro index func isFunc
    exact frames index func isFunc

end Sulfur.Codegen
