import Sulfur.Codegen.Format

/-!
# Printed operands

An operand that is no operand of the IR, or an immediate without a text, is printed as
nothing.  What the emitters print has no such gap only when the operations have all of their
sources.
-/

namespace Sulfur.Codegen

open Ir

/-! ## Code without operands -/

/-- The operand is printed as some text. -/
def isPrinted : Operand → Bool
  | .none => false
  | .immediate _ value => value ≠ ""
  | _ => true

/-- The operands that an operation with a destination in memory reads, as its emitter prints
them. -/
def sources (operation : Operation) : List Operand :=
  match operation.opcode with
  | .binary _ =>
      if operation.operand1.inMemory then [operation.operand2, operation.operand3] else []
  | .negate | .bitwiseNot | .logicalNot | .cast | .assign =>
      if operation.operand1.inMemory then [operation.operand2] else []
  | .jmpCond => [operation.operand2]
  | .param => [operation.operand1]
  | .ret => if operation.operand1 = .none then [] else [operation.operand1]
  | .call | .label | .jmpIncond | .invalid => []

/-- An operand of an operation cannot be printed; that of a `PARAM` is printed by a later
`CALL`. -/
def Unprinted (operations : List Operation) : Prop :=
  ∃ before operation after, operations = before ++ operation :: after ∧
    (∃ operand ∈ sources operation, isPrinted operand = false) ∧
    (operation.opcode = .param → ∃ call ∈ after, call.opcode = .call)

theorem Unprinted.of_isInfix {inner outer : List Operation} (unprinted : Unprinted inner)
    (isInfix : inner <:+: outer) : Unprinted outer := by
  rcases unprinted with ⟨before, operation, after, rfl, lacks, called⟩
  rcases isInfix with ⟨first, last, rfl⟩
  refine ⟨first ++ before, operation, after ++ last, by simp, lacks, fun isParam => ?_⟩
  rcases called isParam with ⟨call, listed, isCall⟩
  exact ⟨call, List.mem_append_left _ listed, isCall⟩

theorem not_unprinted_of_isInfix {inner outer : List Operation} (printed : ¬Unprinted outer)
    (isInfix : inner <:+: outer) : ¬Unprinted inner :=
  fun unprinted => printed (unprinted.of_isInfix isInfix)

/-- The sources of an operation of printed code, other than a `PARAM`. -/
theorem isPrinted_of_not_unprinted {before after : List Operation} {operation : Operation}
    (printed : ¬Unprinted (before ++ operation :: after)) (other : operation.opcode ≠ .param) :
    ∀ operand ∈ sources operation, isPrinted operand = true := by
  intro operand listed
  by_contra lacks
  exact printed ⟨before, operation, after, rfl, ⟨operand, listed, Bool.eq_false_iff.mpr lacks⟩,
    fun isParam => absurd isParam other⟩

/-! ## The emitters -/

section Emitters

variable {map : StackMap} {operation : Operation} {items : List Item}

/-- What cannot be printed is formatted as nothing. -/
theorem not_complete_of_not_printed {operand : Operand} (lacks : isPrinted operand = false)
    {arg : Argument} (formats : formatOperand map operand = some arg) :
    arg.text = "" ∧ ¬arg.Complete := by
  cases operand with
  | none =>
      rcases formats
      exact ⟨rfl, not_complete_empty⟩
  | immediate type value =>
      rcases formats
      have empty : value = "" := by simpa [isPrinted] using lacks
      exact ⟨empty, fun complete => complete empty⟩
  | «variable» | temporary | label | function => cases lacks

theorem isPrinted_of_complete {operand : Operand} {arg : Argument}
    (formats : formatOperand map operand = some arg) (complete : arg.Complete) :
    isPrinted operand = true := by
  by_contra lacks
  exact (not_complete_of_not_printed (Bool.eq_false_iff.mpr lacks) formats).2 complete

theorem text_ne_of_inMemory {operand : Operand} (memory : operand.inMemory) {arg : Argument}
    (formats : formatOperand map operand = some arg) : arg.text ≠ "" := by
  have text (size : SizePrefix) (offset : Int) : (Argument.memory size offset).text ≠ "" := by
    intro empty
    have length := congrArg String.length empty
    simp [Argument.text, String.length_append] at length
  cases operand with
  | «variable» type name =>
      rcases Option.map_eq_some_iff.mp formats with ⟨offset, -, rfl⟩
      exact text _ _
  | temporary type id =>
      rcases Option.map_eq_some_iff.mp formats with ⟨offset, -, rfl⟩
      exact text _ _
  | none | immediate | label | function => cases memory

/-- An operand whose text is that of a destination in memory is printed. -/
theorem isPrinted_of_text {operand dst : Operand} (memory : dst.inMemory) {src dest : Argument}
    (formats : formatOperand map operand = some src)
    (dstFormats : formatOperand map dst = some dest)
    (same : dest.text = src.text) : isPrinted operand = true := by
  by_contra lacks
  have empty := (not_complete_of_not_printed (Bool.eq_false_iff.mpr lacks) formats).1
  exact text_ne_of_inMemory memory dstFormats (same.trans empty)

theorem complete_of_loadLargeImmediate {operand : Operand} {size : Nat} {format : Argument}
    (load : Complete (loadLargeImmediate operand size format).1)
    (loaded : (loadLargeImmediate operand size format).2.Complete) : format.Complete := by
  have both := And.intro load loaded
  unfold loadLargeImmediate at both
  split at both
  · split at both
    · exact both.2
    · split at both
      · exact both.2
      · exact both.1 _ (List.mem_singleton_self _) format (by simp)
  · exact both.2

theorem formats_of_formatBinary {src1 src2 dst : Argument}
    (formats : formatBinary map operation = some (src1, src2, dst)) :
    formatOperand map operation.operand2 = some src1 ∧
      formatOperand map operation.operand3 = some src2 ∧
      formatOperand map operation.operand1 = some dst := by
  rcases Option.bind_eq_some_iff.mp formats with ⟨_, isFirst, formats⟩
  rcases Option.bind_eq_some_iff.mp formats with ⟨_, isSecond, formats⟩
  rcases Option.bind_eq_some_iff.mp formats with ⟨_, isDst, ⟨⟩⟩
  exact ⟨isFirst, isSecond, isDst⟩

theorem formats_of_formatUnary {src dst : Argument}
    (formats : formatUnary map operation = some (src, dst)) :
    formatOperand map operation.operand2 = some src ∧
      formatOperand map operation.operand1 = some dst := by
  rcases Option.bind_eq_some_iff.mp formats with ⟨_, isFirst, formats⟩
  rcases Option.bind_eq_some_iff.mp formats with ⟨_, isDst, ⟨⟩⟩
  exact ⟨isFirst, isDst⟩

/-- Both sources of an operation are printed. -/
def SourcesPrinted (operation : Operation) : Prop :=
  isPrinted operation.operand2 = true ∧ isPrinted operation.operand3 = true

theorem sourcesPrinted_of_complete {src1 src2 dst : Argument}
    (formats : formatBinary map operation = some (src1, src2, dst)) (first : src1.Complete)
    (second : src2.Complete) : SourcesPrinted operation :=
  ⟨isPrinted_of_complete (formats_of_formatBinary formats).1 first,
    isPrinted_of_complete (formats_of_formatBinary formats).2.1 second⟩

theorem isPrinted_emitBinary {mnemonic : Mnemonic} (memory : operation.operand1.inMemory)
    (emitted : emitBinary mnemonic operation map = some items) (complete : Complete items) :
    SourcesPrinted operation := by
  rcases Option.bind_eq_some_iff.mp emitted with ⟨⟨src1, src2, dst⟩, formats, emitted⟩
  rcases formats_of_formatBinary formats with ⟨isFirst, isSecond, isDst⟩
  dsimp only at emitted
  split at emitted
  · rename_i inPlace
    rcases emitted
    simp only [complete_append, complete_cons, complete_emit, List.forall_mem_cons] at complete
    exact ⟨isPrinted_of_text memory isFirst isDst inPlace.1,
      isPrinted_of_complete isSecond (complete_of_loadLargeImmediate complete.1 complete.2.1.2.1)⟩
  · rcases emitted
    simp only [complete_append, complete_cons, complete_emit, List.forall_mem_cons] at complete
    exact sourcesPrinted_of_complete formats complete.2.1.2.1
      (complete_of_loadLargeImmediate complete.1 complete.2.2.1.2.1)

theorem isPrinted_emitMult (emitted : emitMult operation map = some items)
    (complete : Complete items) : SourcesPrinted operation := by
  rcases Option.bind_eq_some_iff.mp emitted with ⟨⟨src1, src2, dst⟩, formats, emitted⟩
  dsimp only at emitted
  split at emitted
  · rcases emitted
    simp only [complete_append, complete_cons, complete_emit, List.forall_mem_cons] at complete
    apply sourcesPrinted_of_complete formats complete.1.1.2.1
    have multiply := complete.1.2
    split at multiply
    · simp only [complete_cons, complete_emit, List.forall_mem_cons] at multiply
      exact multiply.1.2.1
    · simp only [complete_cons, complete_emit, List.forall_mem_cons] at multiply
      exact multiply.1.1
  · rcases emitted
    simp only [complete_append, complete_cons, complete_emit, List.forall_mem_cons] at complete
    exact sourcesPrinted_of_complete formats complete.2.1.2.1
      (complete_of_loadLargeImmediate complete.1 complete.2.2.1.2.1)

/-- The first source is moved into a register and the second one is used in one of two
ways, which the emitters choose by its kind. -/
theorem sourcesPrinted_of_choice (before : List Item) {first second : List Item}
    {reg src1 src2 dst : Argument} {last : Item} {choice : Prop} [Decidable choice]
    (formats : formatBinary map operation = some (src1, src2, dst))
    (complete : Complete (emit .mov [reg, src1] :: before ++
      (if choice then first else second) ++ [last]))
    (inFirst : Complete first → src2.Complete) (inSecond : Complete second → src2.Complete) :
    SourcesPrinted operation := by
  simp only [complete_append, complete_cons, complete_emit, List.forall_mem_cons] at complete
  apply sourcesPrinted_of_complete formats complete.1.1.1.2.1
  have chosen := complete.1.2
  split at chosen
  · exact inFirst chosen
  · exact inSecond chosen

theorem isPrinted_emitDiv (emitted : emitDiv operation map = some items)
    (complete : Complete items) : SourcesPrinted operation := by
  rcases Option.bind_eq_some_iff.mp emitted with ⟨⟨src1, src2, dst⟩, formats, ⟨⟩⟩
  exact sourcesPrinted_of_choice _ formats complete
    (fun counter => counter _ List.mem_cons_self src2 (by simp))
    (fun direct => direct _ List.mem_cons_self src2 (by simp))

theorem isPrinted_emitShift {mnemonic : Mnemonic}
    (emitted : emitShift mnemonic operation map = some items) (complete : Complete items) :
    SourcesPrinted operation := by
  rcases Option.bind_eq_some_iff.mp emitted with ⟨⟨src1, src2, dst⟩, formats, ⟨⟩⟩
  exact sourcesPrinted_of_choice [] formats complete
    (fun direct => direct _ List.mem_cons_self src2 (by simp))
    (fun counter => counter _ List.mem_cons_self src2 (by simp))

theorem isPrinted_emitRelational {op : BinaryOp}
    (emitted : emitRelational op operation map = some items) (complete : Complete items) :
    SourcesPrinted operation := by
  rcases Option.bind_eq_some_iff.mp emitted with ⟨⟨src1, src2, dst⟩, formats, emitted⟩
  rcases Option.bind_eq_some_iff.mp emitted with ⟨set, -, ⟨⟩⟩
  simp only [complete_append, complete_cons, complete_emit, List.forall_mem_cons] at complete
  exact sourcesPrinted_of_complete formats complete.2.1.2.1
    (complete_of_loadLargeImmediate complete.1 complete.2.2.1.2.1)

/-- The source of an operation that works in place when its destination is the source, and
else on a register that the source is moved into. -/
theorem isPrinted_of_inPlace (memory : operation.operand1.inMemory) {src dst reg : Argument}
    {inPlace rest : List Item} (formats : formatUnary map operation = some (src, dst))
    (emitted : (if dst.text = src.text then some inPlace
      else some (emit .mov [reg, src] :: rest)) = some items)
    (complete : Complete items) : isPrinted operation.operand2 = true := by
  rcases formats_of_formatUnary formats with ⟨isSrc, isDst⟩
  split at emitted
  · rename_i same
    exact isPrinted_of_text memory isSrc isDst same
  · cases emitted
    simp only [complete_cons, complete_emit, List.forall_mem_cons] at complete
    exact isPrinted_of_complete isSrc complete.1.2.1

theorem isPrinted_emitNeg (memory : operation.operand1.inMemory)
    (emitted : emitNeg operation map = some items) (complete : Complete items) :
    isPrinted operation.operand2 = true := by
  rcases Option.bind_eq_some_iff.mp emitted with ⟨⟨src, dst⟩, formats, emitted⟩
  exact isPrinted_of_inPlace memory formats emitted complete

theorem isPrinted_emitNot (memory : operation.operand1.inMemory)
    (emitted : emitNot operation map = some items) (complete : Complete items) :
    isPrinted operation.operand2 = true := by
  rcases Option.bind_eq_some_iff.mp emitted with ⟨⟨src, dst⟩, formats, emitted⟩
  exact isPrinted_of_inPlace memory formats emitted complete

theorem complete_of_emitConvert {src dst : Argument}
    (complete : Complete (emitConvert operation src dst)) : src.Complete := by
  unfold emitConvert at complete
  dsimp only at complete
  split at complete
  · simp only [complete_cons, complete_emit, List.forall_mem_cons] at complete
    exact complete.1.2.1
  · split at complete
    · have widen := ((complete_cons _ _).mp complete).1
      split at widen
      · exact widen _ (by simp)
      · split at widen
        · exact widen _ (by simp)
        · split at widen <;> exact widen _ (by simp)
    · simp only [complete_cons, complete_emit, List.forall_mem_cons] at complete
      exact complete.1.2.1

theorem isPrinted_emitAssign (memory : operation.operand1.inMemory)
    (emitted : emitAssign operation map = some items) (complete : Complete items) :
    isPrinted operation.operand2 = true := by
  rcases Option.bind_eq_some_iff.mp emitted with ⟨⟨src, dst⟩, formats, emitted⟩
  rcases formats_of_formatUnary formats with ⟨isSrc, isDst⟩
  dsimp only at emitted
  split at emitted
  · rename_i same
    exact isPrinted_of_text memory isSrc isDst same.symm
  · rcases emitted
    exact isPrinted_of_complete isSrc (complete_of_emitConvert complete)

theorem isPrinted_emitCast (emitted : emitCast operation map = some items)
    (complete : Complete items) : isPrinted operation.operand2 = true := by
  rcases Option.bind_eq_some_iff.mp emitted with ⟨⟨src, dst⟩, formats, ⟨⟩⟩
  exact isPrinted_of_complete (formats_of_formatUnary formats).1 (complete_of_emitConvert complete)

/-- The sources of an operation that is printed without a gap. -/
theorem isPrinted_emitOperation (emitted : emitOperation operation map = some items)
    (complete : Complete items) (other : operation.opcode ≠ .param) :
    ∀ operand ∈ sources operation, isPrinted operand = true := by
  unfold sources
  rcases operation with ⟨opcode, dst, fst, snd⟩
  cases opcode with
  | binary op =>
      dsimp only
      split
      · rename_i memory
        have both : SourcesPrinted ⟨.binary op, dst, fst, snd⟩ := by
          cases op with
          | add | sub | bitwiseAnd | logicalAnd | bitwiseOr | logicalOr | bitwiseXor =>
              exact isPrinted_emitBinary memory emitted complete
          | mul => exact isPrinted_emitMult emitted complete
          | div => exact isPrinted_emitDiv emitted complete
          | bitwiseLshift | bitwiseRshift => exact isPrinted_emitShift emitted complete
          | _ => exact isPrinted_emitRelational emitted complete
        rw [List.forall_mem_cons, List.forall_mem_singleton]
        exact both
      · exact List.forall_mem_nil _
  | negate =>
      dsimp only
      split
      · exact List.forall_mem_singleton.mpr (isPrinted_emitNeg ‹_› emitted complete)
      · exact List.forall_mem_nil _
  | bitwiseNot | logicalNot =>
      dsimp only
      split
      · exact List.forall_mem_singleton.mpr (isPrinted_emitNot ‹_› emitted complete)
      · exact List.forall_mem_nil _
  | cast =>
      dsimp only
      split
      · exact List.forall_mem_singleton.mpr (isPrinted_emitCast emitted complete)
      · exact List.forall_mem_nil _
  | assign =>
      dsimp only
      split
      · exact List.forall_mem_singleton.mpr (isPrinted_emitAssign ‹_› emitted complete)
      · exact List.forall_mem_nil _
  | jmpCond =>
      rcases Option.bind_eq_some_iff.mp emitted with ⟨cond, formats, ⟨⟩⟩
      simp only [complete_cons, complete_emit, List.forall_mem_cons] at complete
      exact List.forall_mem_singleton.mpr (isPrinted_of_complete formats complete.1.2.1)
  | ret =>
      dsimp only
      split
      · exact List.forall_mem_nil _
      · rename_i value
        change (if dst = .none then _ else _) = _ at emitted
        rw [if_neg value] at emitted
        rcases Option.bind_eq_some_iff.mp emitted with ⟨src, formats, ⟨⟩⟩
        simp only [complete_cons, complete_emit, List.forall_mem_cons] at complete
        exact List.forall_mem_singleton.mpr (isPrinted_of_complete formats complete.1.2.1)
  | param => exact absurd rfl other
  | call | label | jmpIncond | invalid => exact List.forall_mem_nil _

theorem complete_of_emitAll {α : Type} {emitOne : α → Option (List Item)} {values : List α}
    {items : List Item} (emitted : emitAll emitOne values = some items)
    (complete : Complete items) : ∀ value ∈ values, EmitsComplete (emitOne value) := by
  induction values generalizing items with
  | nil => exact List.forall_mem_nil _
  | cons value rest inductionHypothesis =>
      rcases Option.bind_eq_some_iff.mp emitted with ⟨first, isFirst, emitted⟩
      rcases Option.bind_eq_some_iff.mp emitted with ⟨others, isOthers, ⟨⟩⟩
      rw [complete_append] at complete
      rw [List.forall_mem_cons]
      exact ⟨⟨first, isFirst, complete.1⟩, inductionHypothesis isOthers complete.2⟩

/-- The arguments of a call that is printed without a gap. -/
theorem isPrinted_emitCall {params : List Operand} {call : Operation}
    (emitted : emitCall params call map = some items) (complete : Complete items) :
    ∀ param ∈ params, isPrinted param = true := by
  rcases Option.bind_eq_some_iff.mp emitted with ⟨pushes, isPushes, emitted⟩
  rcases Option.bind_eq_some_iff.mp emitted with ⟨moves, isMoves, emitted⟩
  have both : Complete pushes ∧ Complete moves := by
    dsimp only at emitted
    by_cases nothing : call.operand1 = .none
    · rw [if_pos nothing] at emitted
      rcases emitted
      simp only [complete_append] at complete
      exact ⟨complete.1.1.1.2, complete.1.1.2⟩
    · rw [if_neg nothing] at emitted
      rcases Option.bind_eq_some_iff.mp emitted with ⟨dst, -, ⟨⟩⟩
      simp only [complete_append] at complete
      exact ⟨complete.1.1.1.1.2, complete.1.1.1.2⟩
  intro param listed
  rw [← List.take_append_drop 6 params, List.mem_append] at listed
  rcases listed with inRegister | onStack
  · rw [← List.zipIdx_map_fst 0 (params.take 6)] at inRegister
    rcases List.mem_map.mp inRegister with ⟨⟨param, index⟩, listed, rfl⟩
    rcases complete_of_emitAll isMoves both.2 _ listed with ⟨items, isItems, complete⟩
    rcases Option.bind_eq_some_iff.mp isItems with ⟨src, formats, isItems⟩
    rcases Option.bind_eq_some_iff.mp isItems with ⟨reg, -, isItems⟩
    apply isPrinted_of_complete formats
    dsimp only at isItems
    split at isItems <;> rcases isItems <;>
      exact complete _ (List.mem_singleton_self _) src (by simp)
  · rcases complete_of_emitAll isPushes both.1 param (List.mem_reverse.mpr onStack) with
      ⟨items, isItems, complete⟩
    rcases Option.bind_eq_some_iff.mp isItems with ⟨src, formats, ⟨⟩⟩
    apply isPrinted_of_complete formats
    have load := ((complete_cons _ _).mp complete).1
    split at load
    · exact load src (by simp)
    · split at load <;> exact load src (by simp)

/-- The operands that wait for a call. -/
theorem isPrinted_params {params : List Operand} {operations : List Operation}
    (emitted : emitOperations map params operations = some items) (complete : Complete items)
    (calls : ∃ call ∈ operations, call.opcode = .call) :
    ∀ param ∈ params, isPrinted param = true := by
  induction operations generalizing params items with
  | nil =>
      rcases calls with ⟨call, listed, -⟩
      cases listed
  | cons operation rest inductionHypothesis =>
      rcases calls with ⟨call, listed, isCall⟩
      unfold emitOperations at emitted
      split at emitted
      · rename_i isParam
        rcases List.mem_cons.mp listed with rfl | inRest
        · rw [isParam] at isCall
          cases isCall
        · exact fun param inParams =>
            inductionHypothesis emitted complete ⟨call, inRest, isCall⟩ param
              (List.mem_append_left _ inParams)
      · rcases Option.bind_eq_some_iff.mp emitted with ⟨first, isFirst, emitted⟩
        rcases Option.bind_eq_some_iff.mp emitted with ⟨others, -, ⟨⟩⟩
        rw [complete_append] at complete
        exact isPrinted_emitCall isFirst complete.1
      · rename_i other
        rcases Option.bind_eq_some_iff.mp emitted with ⟨first, -, emitted⟩
        rcases Option.bind_eq_some_iff.mp emitted with ⟨others, isOthers, ⟨⟩⟩
        rw [complete_append] at complete
        rcases List.mem_cons.mp listed with rfl | inRest
        · exact absurd isCall other
        · exact inductionHypothesis isOthers complete.2 ⟨call, inRest, isCall⟩

/-- Code that is printed without a gap has all of its operands. -/
theorem not_unprinted_of_emitOperations {params : List Operand} {operations : List Operation}
    (emitted : emitOperations map params operations = some items) (complete : Complete items) :
    ¬Unprinted operations := by
  rintro ⟨before, operation, after, rfl, ⟨operand, listed, lacks⟩, called⟩
  induction before generalizing params items with
  | nil =>
      rw [List.nil_append] at emitted
      unfold emitOperations at emitted
      split at emitted
      · rename_i isParam
        have isOperand : operand = operation.operand1 := by
          simpa [sources, isParam] using listed
        have printed := isPrinted_params emitted complete (called isParam) operand
          (by simp [isOperand])
        rw [lacks] at printed
        cases printed
      · rename_i isCall
        simp [sources, isCall] at listed
      · rename_i notParam _
        rcases Option.bind_eq_some_iff.mp emitted with ⟨first, isFirst, emitted⟩
        rcases Option.bind_eq_some_iff.mp emitted with ⟨others, -, ⟨⟩⟩
        rw [complete_append] at complete
        have printed := isPrinted_emitOperation isFirst complete.1 notParam operand listed
        rw [lacks] at printed
        cases printed
  | cons first rest inductionHypothesis =>
      rw [List.cons_append] at emitted
      unfold emitOperations at emitted
      split at emitted
      · exact inductionHypothesis complete emitted
      · rcases Option.bind_eq_some_iff.mp emitted with ⟨items, -, emitted⟩
        rcases Option.bind_eq_some_iff.mp emitted with ⟨others, isOthers, ⟨⟩⟩
        rw [complete_append] at complete
        exact inductionHypothesis complete.2 isOthers
      · rcases Option.bind_eq_some_iff.mp emitted with ⟨items, -, emitted⟩
        rcases Option.bind_eq_some_iff.mp emitted with ⟨others, isOthers, ⟨⟩⟩
        rw [complete_append] at complete
        exact inductionHypothesis complete.2 isOthers

end Emitters

end Sulfur.Codegen
