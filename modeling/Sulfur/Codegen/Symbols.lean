import Sulfur.Codegen.Linkage
import Sulfur.Ir.Calls

/-!
# The symbols of a file

Every symbol that the assembly refers to is a label of the assembly or an external name.
The target of a call is decided by `is_defined_here` over the operations, the label by
`emit_function` and the visibility by `emit_func_linkage`.
-/

namespace Sulfur.Codegen

open Ir

/-! ## Call instructions -/

/-- The symbol that an item calls. -/
def Item.callTarget : Item → Option String
  | .instruction ⟨.call, [.symbol name]⟩ => some name
  | _ => none

/-- The symbols that items call. -/
def callTargets (items : List Item) : List String :=
  items.filterMap Item.callTarget

@[simp]
theorem callTargets_nil : callTargets [] = [] :=
  rfl

@[simp]
theorem callTargets_append (first second : List Item) :
    callTargets (first ++ second) = callTargets first ++ callTargets second :=
  List.filterMap_append

@[simp]
theorem callTargets_cons_label (id : Nat) (rest : List Item) :
    callTargets (.label id :: rest) = callTargets rest :=
  rfl

@[simp]
theorem callTargets_cons_emit {mnemonic : Mnemonic} (other : mnemonic ≠ .call)
    (arguments : List Argument) (rest : List Item) :
    callTargets (emit mnemonic arguments :: rest) = callTargets rest := by
  have noTarget : (emit mnemonic arguments).callTarget = none := by
    unfold Item.callTarget emit
    split
    · rename_i isCall
      simp only [Item.instruction.injEq, Instruction.mk.injEq] at isCall
      exact absurd isCall.1 other
    · rfl
  unfold callTargets
  rw [List.filterMap_cons, noTarget]

@[simp]
theorem callTargets_cons_call (name : String) (rest : List Item) :
    callTargets (emit .call [.symbol name] :: rest) = name :: callTargets rest :=
  rfl

/-- What is emitted, if anything is, calls the names. -/
def EmitsCalls (emitted : Option (List Item)) (names : List String) : Prop :=
  ∀ items ∈ emitted, callTargets items = names

theorem EmitsCalls.some {items : List Item} {names : List String}
    (calls : callTargets items = names) : EmitsCalls (some items) names := by
  rintro _ ⟨⟩
  exact calls

theorem EmitsCalls.bind {α : Type} {value : Option α} {emit : α → Option (List Item)}
    {names : List String} (each : ∀ result ∈ value, EmitsCalls (emit result) names) :
    EmitsCalls (value.bind emit) names := by
  intro items emitted
  rcases Option.bind_eq_some_iff.mp emitted with ⟨result, isResult, isItems⟩
  exact each result isResult items isItems

theorem loadLargeImmediate_calls (operand : Operand) (size : Nat) (format : Argument) :
    callTargets (loadLargeImmediate operand size format).1 = [] := by
  unfold loadLargeImmediate
  repeat' split
  all_goals rfl

theorem emitBinary_calls {mnemonic : Mnemonic} (other : mnemonic ≠ .call)
    (operation : Operation) (map : StackMap) :
    EmitsCalls (emitBinary mnemonic operation map) [] := by
  unfold emitBinary
  apply EmitsCalls.bind
  rintro ⟨src1, src2, dst⟩ _
  dsimp only
  split
  · apply EmitsCalls.some
    simp [loadLargeImmediate_calls, other]
  · apply EmitsCalls.some
    simp [loadLargeImmediate_calls, other]

theorem emitMult_calls (operation : Operation) (map : StackMap) :
    EmitsCalls (emitMult operation map) [] := by
  unfold emitMult
  apply EmitsCalls.bind
  rintro ⟨src1, src2, dst⟩ _
  dsimp only
  split
  · apply EmitsCalls.some
    repeat' split
    all_goals simp
  · apply EmitsCalls.some
    simp [loadLargeImmediate_calls]

theorem emitDividendExtension_calls (size : Nat) (isSigned : Bool) :
    callTargets (emitDividendExtension size isSigned) = [] := by
  unfold emitDividendExtension
  cases isSigned <;> split <;> rfl

theorem emitDiv_calls (operation : Operation) (map : StackMap) :
    EmitsCalls (emitDiv operation map) [] := by
  unfold emitDiv
  apply EmitsCalls.bind
  rintro ⟨src1, src2, dst⟩ _
  apply EmitsCalls.some
  dsimp only
  repeat' split
  all_goals simp [emitDividendExtension_calls]

theorem emitNeg_calls (operation : Operation) (map : StackMap) :
    EmitsCalls (emitNeg operation map) [] := by
  unfold emitNeg
  apply EmitsCalls.bind
  rintro ⟨src, dst⟩ _
  dsimp only
  split
  · exact .some (by simp)
  · exact .some (by simp)

theorem callTargets_cons_emitNotOn (opcode : Opcode) (target : Argument) (rest : List Item) :
    callTargets (emitNotOn opcode target :: rest) = callTargets rest := by
  unfold emitNotOn
  split <;> simp

theorem emitNot_calls (operation : Operation) (map : StackMap) :
    EmitsCalls (emitNot operation map) [] := by
  unfold emitNot
  apply EmitsCalls.bind
  rintro ⟨src, dst⟩ _
  dsimp only
  split
  · exact .some (by simp [callTargets_cons_emitNotOn])
  · exact .some (by simp [callTargets_cons_emitNotOn])

theorem emitShift_calls {mnemonic : Mnemonic} (other : mnemonic ≠ .call)
    (operation : Operation) (map : StackMap) :
    EmitsCalls (emitShift mnemonic operation map) [] := by
  unfold emitShift
  apply EmitsCalls.bind
  rintro ⟨src1, src2, dst⟩ _
  apply EmitsCalls.some
  dsimp only
  split <;> simp [other]

theorem emitConvert_calls (operation : Operation) (src dst : Argument) :
    callTargets (emitConvert operation src dst) = [] := by
  unfold emitConvert
  dsimp only
  repeat' split
  all_goals simp

theorem emitAssign_calls (operation : Operation) (map : StackMap) :
    EmitsCalls (emitAssign operation map) [] := by
  unfold emitAssign
  apply EmitsCalls.bind
  rintro ⟨src, dst⟩ _
  dsimp only
  split
  · exact .some rfl
  · exact .some (emitConvert_calls operation src dst)

theorem emitCast_calls (operation : Operation) (map : StackMap) :
    EmitsCalls (emitCast operation map) [] := by
  unfold emitCast
  apply EmitsCalls.bind
  rintro ⟨src, dst⟩ _
  exact .some (emitConvert_calls operation src dst)

theorem setInstruction_ne_call {op : BinaryOp} {isSigned : Bool} :
    ∀ set ∈ setInstruction op isSigned, set ≠ .call := by
  cases op <;> cases isSigned <;> simp [setInstruction]

theorem emitRelational_calls (op : BinaryOp) (operation : Operation) (map : StackMap) :
    EmitsCalls (emitRelational op operation map) [] := by
  unfold emitRelational
  apply EmitsCalls.bind
  rintro ⟨src1, src2, dst⟩ _
  dsimp only
  apply EmitsCalls.bind
  intro set isSet
  apply EmitsCalls.some
  simp [loadLargeImmediate_calls, setInstruction_ne_call set isSet]

theorem emitJmpCond_calls (operation : Operation) (map : StackMap) :
    EmitsCalls (emitJmpCond operation map) [] := by
  unfold emitJmpCond
  apply EmitsCalls.bind
  intro cond _
  exact .some (by simp)

theorem emitReturn_calls (operation : Operation) (map : StackMap) :
    EmitsCalls (emitReturn operation map) [] := by
  unfold emitReturn
  dsimp only
  split
  · exact .some (by simp)
  · apply EmitsCalls.bind
    intro src _
    exact .some (by simp)

/-- Only calls emit calls. -/
theorem emitOperation_calls (operation : Operation) (map : StackMap) :
    EmitsCalls (emitOperation operation map) [] := by
  unfold emitOperation
  split
  · exact emitBinary_calls (by decide) operation map
  · exact emitBinary_calls (by decide) operation map
  · exact emitMult_calls operation map
  · exact emitDiv_calls operation map
  · exact emitNeg_calls operation map
  · exact emitBinary_calls (by decide) operation map
  · exact emitBinary_calls (by decide) operation map
  · exact emitBinary_calls (by decide) operation map
  · exact emitBinary_calls (by decide) operation map
  · exact emitBinary_calls (by decide) operation map
  · unfold emitRshift
    split
    · exact emitShift_calls (by decide) operation map
    · exact emitShift_calls (by decide) operation map
  · exact emitShift_calls (by decide) operation map
  · exact emitNot_calls operation map
  · exact emitNot_calls operation map
  · exact emitRelational_calls _ operation map
  · exact .some rfl
  · exact .some rfl
  · exact emitJmpCond_calls operation map
  · exact emitAssign_calls operation map
  · exact emitCast_calls operation map
  · exact emitReturn_calls operation map
  · exact .some rfl
  · exact .some rfl
  · exact .some rfl

theorem emitAll_calls {α : Type} {emitOne : α → Option (List Item)} (values : List α)
    (each : ∀ value ∈ values, EmitsCalls (emitOne value) []) :
    EmitsCalls (emitAll emitOne values) [] := by
  induction values with
  | nil => exact .some rfl
  | cons value rest inductionHypothesis =>
      rw [List.forall_mem_cons] at each
      apply EmitsCalls.bind
      intro first isFirst
      apply EmitsCalls.bind
      intro others isRest
      apply EmitsCalls.some
      rw [callTargets_append, each.1 first isFirst, inductionHypothesis each.2 others isRest]
      rfl

theorem emitStackArg_calls (map : StackMap) (param : Operand) :
    EmitsCalls (emitStackArg map param) [] := by
  unfold emitStackArg
  apply EmitsCalls.bind
  intro src _
  apply EmitsCalls.some
  repeat' split
  all_goals simp

theorem emitRegisterArg_calls (map : StackMap) (index : Nat) (param : Operand) :
    EmitsCalls (emitRegisterArg map index param) [] := by
  unfold emitRegisterArg
  apply EmitsCalls.bind
  intro src _
  apply EmitsCalls.bind
  intro reg _
  split
  · apply EmitsCalls.some
    split <;> simp
  · exact .some (by simp)

/-- A call calls the name of its operand. -/
theorem emitCall_calls (params : List Operand) (call : Operation) (map : StackMap) :
    EmitsCalls (emitCall params call map) [functionName call.operand2] := by
  unfold emitCall
  apply EmitsCalls.bind
  intro pushes isPushes
  apply EmitsCalls.bind
  intro moves isMoves
  have noPush := emitAll_calls _ (fun param _ => emitStackArg_calls map param) pushes isPushes
  have noMove := emitAll_calls _
    (fun param _ => emitRegisterArg_calls map param.2 param.1) moves isMoves
  dsimp only
  split
  · apply EmitsCalls.some
    repeat' split
    all_goals simp [noPush, noMove]
  · apply EmitsCalls.bind
    intro dst _
    apply EmitsCalls.some
    repeat' split
    all_goals simp [noPush, noMove]

/-- The operations of a function call the names of their operands. -/
theorem emitOperations_calls (map : StackMap) {operations : List Operation}
    (byName : ∀ operation ∈ operations, operation.CallsByName) (params : List Operand) :
    EmitsCalls (emitOperations map params operations) (callNames operations) := by
  induction operations generalizing params with
  | nil => exact .some rfl
  | cons operation rest inductionHypothesis =>
      rw [List.forall_mem_cons] at byName
      unfold emitOperations
      split
      · rename_i isParam
        have noName : calledName operation = none := calledName_of_ne (by simp [isParam])
        unfold callNames
        rw [List.filterMap_cons, noName]
        exact inductionHypothesis byName.2 _
      · rename_i isCall
        rcases Option.isSome_iff_exists.mp (byName.1 isCall) with ⟨name, isName⟩
        have target : functionName operation.operand2 = name := by
          unfold calledName at isName
          split at isName
          · rename_i isFunction
            rw [isFunction]
            exact Option.some.inj isName
          · cases isName
        apply EmitsCalls.bind
        intro first isFirst
        apply EmitsCalls.bind
        intro others isRest
        apply EmitsCalls.some
        rw [callTargets_append, emitCall_calls params operation map first isFirst,
          inductionHypothesis byName.2 [] others isRest, target]
        unfold callNames
        rw [List.filterMap_cons, isName]
        rfl
      · rename_i noParam noCall
        apply EmitsCalls.bind
        intro first isFirst
        apply EmitsCalls.bind
        intro others isRest
        apply EmitsCalls.some
        rw [callTargets_append, emitOperation_calls operation map first isFirst,
          inductionHypothesis byName.2 params others isRest]
        unfold callNames
        rw [List.filterMap_cons, calledName_of_ne noCall]
        rfl

/-! ## Emitted functions -/

/-- The symbols that the functions of a file call. -/
def EmittedFunction.targets (func : EmittedFunction) : List String :=
  callTargets func.operations

theorem emitDefinition_targets {func : IrFunction} {emitted : EmittedFunction}
    (byName : ∀ operation ∈ func.operations, operation.CallsByName)
    (run : emitDefinition func = some emitted) :
    emitted.name = func.name ∧ emitted.targets = callNames func.operations := by
  unfold emitDefinition at run
  rcases Option.bind_eq_some_iff.mp run with ⟨moves, -, run⟩
  rcases Option.bind_eq_some_iff.mp run with ⟨items, isItems, run⟩
  obtain rfl := Option.some.inj run
  exact ⟨rfl, emitOperations_calls (functionMap func) byName [] items isItems⟩

/-- The labels of the functions and the symbols that they call. -/
theorem emitFunctions_targets {functions : List IrFunction} {emitted : List EmittedFunction}
    (byName : ∀ function ∈ functions, ∀ operation ∈ function.operations, operation.CallsByName)
    (run : emitFunctions functions = some emitted) :
    emitted.map EmittedFunction.name = (functions.filter isEmitted).map IrFunction.name ∧
      emitted.flatMap EmittedFunction.targets =
        (functions.filter isEmitted).flatMap fun function => callNames function.operations := by
  induction functions generalizing emitted with
  | nil =>
      obtain rfl := Option.some.inj run
      exact ⟨rfl, rfl⟩
  | cons func rest inductionHypothesis =>
      rw [List.forall_mem_cons] at byName
      unfold emitFunctions at run
      split at run
      · rename_i isPrinted
        rcases Option.bind_eq_some_iff.mp run with ⟨first, isFirst, run⟩
        rcases Option.bind_eq_some_iff.mp run with ⟨others, isRest, run⟩
        obtain rfl := Option.some.inj run
        have own := emitDefinition_targets byName.1 isFirst
        have inner := inductionHypothesis byName.2 isRest
        rw [List.filter_cons_of_pos isPrinted, List.map_cons, List.map_cons, List.flatMap_cons,
          List.flatMap_cons, own.1, own.2, inner.1, inner.2]
        exact ⟨rfl, rfl⟩
      · rename_i isSkipped
        rw [List.filter_cons_of_neg isSkipped]
        exact inductionHypothesis byName.2 run

/-- The labels of a file: that of the start routine, and those of the functions. -/
def fileLabels (isRoot : Bool) (functions : List EmittedFunction) : List String :=
  (if isRoot then ["_start"] else []) ++ functions.map EmittedFunction.name

/-- The targets of the calls of a file: that of the start routine, and those of the
functions. -/
def fileTargets (isRoot : Bool) (functions : List EmittedFunction) : List String :=
  (if isRoot then ["main"] else []) ++ functions.flatMap EmittedFunction.targets

/-- Every symbol of a file is provided in one way: the target of a call is either the label
of a function or external, the external names are called names without duplicates, and the
label of a function that is `global` stands in the file once. -/
structure SymbolsProvided (isRoot : Bool) (program : IrProgram)
    (functions : List EmittedFunction) : Prop where
  targets : ∀ target ∈ fileTargets isRoot functions,
    (target ∈ functions.map EmittedFunction.name ↔ target ∉ program.externs)
  distinct : program.externs.Nodup
  called : ∀ name ∈ program.externs, name ∈ fileTargets isRoot functions
  globals : ∀ function ∈ program.functions,
    emitFuncLinkage function = "global " ++ function.name ++ "\n" →
      (fileLabels isRoot functions).count function.name = 1

/-- The start routine of a root calls a function that is defined in the file or called
there, and no public function takes its label. -/
structure RootStarts (program analyzed : Program) : Prop where
  main : (∃ source ∈ program.declarations, source.1.name = "main" ∧ source.2.isSome) ∨
    analyzed.CallsName "main"
  start : ∀ source ∈ program.declarations, source.2.isSome → source.1.qualifiers.isPublic →
    source.1.name ≠ "_start"

/-- Definitions with different names have different labels. -/
theorem nodup_of_emits {modulePrefix : Option String}
    {sources : List (FuncDecl × Option Stmt)} {functions : List IrFunction}
    (emits : List.Forall₂ (Emits modulePrefix) sources functions)
    (apart : sources.Pairwise fun source other =>
      source.2.isSome → other.2.isSome → other.1.name ≠ source.1.name)
    (own : ∀ source ∈ sources, source.2.isSome → source.1.qualifiers.isExtern = false) :
    ((functions.filter IrFunction.defined).map IrFunction.name).Nodup := by
  induction emits with
  | nil => exact List.nodup_nil
  | @cons source function rest others first later inductionHypothesis =>
      rw [List.pairwise_cons] at apart
      rw [List.forall_mem_cons] at own
      have restNodup := inductionHypothesis apart.2 own.2
      by_cases defined : function.defined
      · rw [List.filter_cons_of_pos defined, List.map_cons, List.nodup_cons]
        refine ⟨?_, restNodup⟩
        intro again
        rcases List.mem_map.mp again with ⟨other, isOther, sameLabel⟩
        rw [List.mem_filter] at isOther
        rcases exists_source later other isOther.1 with ⟨otherSource, inRest, otherEmits⟩
        rw [first.defined] at defined
        have otherDefined := otherEmits.defined ▸ isOther.2
        rw [otherEmits.name, first.name, own.1 defined,
          own.2 otherSource inRest otherDefined] at sameLabel
        exact apart.1 otherSource inRest defined otherDefined (mangleFunction_injective sameLabel)
      · rw [List.filter_cons_of_neg defined]
        exact restNodup

/-- The functions of a root have the labels of their names. -/
theorem name_of_root {filename : String} {options : CompilerOptions}
    (root : options.isModule = false) {source : FuncDecl × Option Stmt}
    {function : IrFunction} (emits : Emits (options.modulePrefix filename) source function) :
    function.name = source.1.name := by
  rw [emits.name]
  simp [CompilerOptions.modulePrefix, CompilerOptions.moduleName, root, mangleFunction]

section Accepted

variable {program : Program} {filename : String} {options : CompilerOptions}
  {modules : List Module} {analysis : ProgramAnalysis}
  (accepted : Accepted program filename options modules analysis)

include accepted

/-- A function is printed when it has a body. -/
theorem isEmitted_iff_defined {function : IrFunction}
    (inFunctions : function ∈ (irGenerate analysis.program).program.functions) :
    isEmitted function = function.defined := by
  rcases exists_source (emits_of_accepted accepted) function inFunctions with
    ⟨⟨func, body⟩, declared, emits⟩
  cases body with
  | some body =>
      have noExtern := not_extern_of_definition accepted declared
      rw [emits.defined]
      simp [isEmitted, emits.qualifiers, noExtern, emits.operations rfl]
  | none =>
      rcases exists_source (irGenerate_lowers analysis.program) function inFunctions with
        ⟨⟨node, nodeBody⟩, -, code, rfl⟩
      cases nodeBody with
      | none => simp [isEmitted, loweredFunction]
      | some nodeBody => cases emits.defined

/-- The labels are those of the functions that are defined in the file. -/
theorem filter_isEmitted :
    (irGenerate analysis.program).program.functions.filter isEmitted =
      (irGenerate analysis.program).program.functions.filter IrFunction.defined := by
  apply List.filter_congr
  intro function inFunctions
  exact isEmitted_iff_defined accepted inFunctions

/-- Every call is printed. -/
theorem flatMap_isEmitted :
    ((irGenerate analysis.program).program.functions.filter isEmitted).flatMap
        (fun function => callNames function.operations) =
      (irGenerate analysis.program).program.called := by
  unfold IrProgram.called
  have silent : ∀ function ∈ (irGenerate analysis.program).program.functions,
      isEmitted function = false → callNames function.operations = [] := by
    intro function inFunctions skipped
    rw [isEmitted_iff_defined accepted inFunctions] at skipped
    rcases exists_source (irGenerate_lowers analysis.program) function inFunctions with
      ⟨⟨node, nodeBody⟩, -, code, rfl⟩
    cases nodeBody with
    | none => rfl
    | some nodeBody => cases skipped
  generalize (irGenerate analysis.program).program.functions = functions at silent
  induction functions with
  | nil => rfl
  | cons function rest inductionHypothesis =>
      rw [List.forall_mem_cons] at silent
      rw [List.flatMap_cons, ← inductionHypothesis silent.2]
      by_cases printed : isEmitted function
      · rw [List.filter_cons_of_pos printed, List.flatMap_cons]
      · rw [List.filter_cons_of_neg printed, silent.1 (Bool.not_eq_true _ ▸ printed)]
        rfl

/-- No two definitions have one label. -/
theorem nodup_labels :
    (((irGenerate analysis.program).program.functions.filter IrFunction.defined).map
      IrFunction.name).Nodup := by
  rcases accepted.links with ⟨imported, -, -, links⟩
  have symbols : (program.declarations.map fun source =>
      announcedSymbol (options.modulePrefix filename) (source.1, source.2.isSome)).Pairwise
        fun func other => func.defined → other.defined → other.name ≠ func.name := by
    have symmetric {func other : FuncSymbol}
        (apart : func.defined → other.defined → other.name ≠ func.name) :
        other.defined → func.defined → func.name ≠ other.name :=
      fun otherDefined defined => (apart defined otherDefined).symm
    have announced := program.announced_perm.map (announcedSymbol (options.modulePrefix filename))
    rw [List.map_map] at announced
    exact (announced.pairwise_iff symmetric).mp links.inserts.pairwise
  rw [List.pairwise_map] at symbols
  apply nodup_of_emits (emits_of_accepted accepted) symbols
  rintro ⟨func, body⟩ declared hasBody
  rcases Option.isSome_iff_exists.mp hasBody with ⟨body, rfl⟩
  exact not_extern_of_definition accepted declared

/-- A name has a label exactly when `is_defined_here` finds it. -/
theorem mem_labels_iff {functions : List EmittedFunction}
    (labels : functions.map EmittedFunction.name =
      ((irGenerate analysis.program).program.functions.filter isEmitted).map IrFunction.name)
    (name : String) :
    name ∈ functions.map EmittedFunction.name ↔
      isDefinedHere (irGenerate analysis.program).program name := by
  rw [labels, filter_isEmitted accepted, List.mem_map]
  unfold isDefinedHere
  rw [List.any_eq_true]
  simp only [List.mem_filter, Bool.and_eq_true, decide_eq_true_eq, and_assoc]

theorem isDefinedHere_iff (root : options.isModule = false) (name : String) :
    isDefinedHere (irGenerate analysis.program).program name ↔
      ∃ source ∈ program.declarations, source.1.name = name ∧ source.2.isSome := by
  have emits := emits_of_accepted accepted
  unfold isDefinedHere
  simp only [List.any_eq_true, Bool.and_eq_true, decide_eq_true_eq]
  constructor
  · rintro ⟨function, inFunctions, defined, rfl⟩
    rcases exists_source emits function inFunctions with ⟨source, declared, emitted⟩
    rw [emitted.defined] at defined
    exact ⟨source, declared, (name_of_root root emitted).symm, defined⟩
  · rintro ⟨source, declared, rfl, hasBody⟩
    rcases exists_source emits.flip source declared with ⟨function, inFunctions, emitted⟩
    exact ⟨function, inFunctions, emitted.defined.trans hasBody, name_of_root root emitted⟩

/-- The labels of public functions are those of the start routine in no file but a root with
a public function of that name. -/
theorem start_ne_iff (root : options.isModule = false) :
    (∀ function ∈ (irGenerate analysis.program).program.functions,
      function.defined → function.qualifiers.isPublic → function.name ≠ "_start") ↔
      ∀ source ∈ program.declarations, source.2.isSome → source.1.qualifiers.isPublic →
        source.1.name ≠ "_start" := by
  have emits := emits_of_accepted accepted
  constructor
  · intro each source declared hasBody isPublic
    rcases exists_source emits.flip source declared with ⟨function, inFunctions, emitted⟩
    rw [← name_of_root root emitted]
    exact each function inFunctions (emitted.defined.trans hasBody)
      (emitted.qualifiers ▸ isPublic)
  · intro each function inFunctions defined isPublic
    rcases exists_source emits function inFunctions with ⟨source, declared, emitted⟩
    rw [name_of_root root emitted]
    exact each source declared (emitted.defined ▸ defined) (emitted.qualifiers ▸ isPublic)

/-- The symbols of an accepted file are provided in one way exactly when it is a module, or
the start routine finds `main` and keeps its label. -/
theorem symbolsProvided_iff {functions : List EmittedFunction}
    (run : emitFunctions (irGenerate analysis.program).program.functions = some functions) :
    SymbolsProvided (!options.isModule) (irGenerate analysis.program).program functions ↔
      options.isModule ∨ RootStarts program analysis.program := by
  have byName : ∀ function ∈ (irGenerate analysis.program).program.functions,
      ∀ operation ∈ function.operations, operation.CallsByName := by
    intro function inFunctions
    rcases exists_source (irGenerate_lowers analysis.program) function inFunctions with
      ⟨source, -, lowers⟩
    exact callsByName_of_lowers lowers
  rcases emitFunctions_targets byName run with ⟨labels, targets⟩
  rw [flatMap_isEmitted accepted] at targets
  have labelled := mem_labels_iff accepted labels
  have labelsNodup : (functions.map EmittedFunction.name).Nodup := by
    rw [labels, filter_isEmitted accepted]
    exact nodup_labels accepted
  rcases externs_irGenerate analysis.program with ⟨distinct, externs⟩
  have provided (target : String) :
      (target ∈ functions.map EmittedFunction.name ↔
        target ∉ (irGenerate analysis.program).program.externs) ↔
      isDefinedHere (irGenerate analysis.program).program target ∨
        target ∈ (irGenerate analysis.program).program.called := by
    rw [labelled, externs]
    cases isDefinedHere (irGenerate analysis.program).program target <;> simp
  have called (name : String)
      (isExtern : name ∈ (irGenerate analysis.program).program.externs) :
      name ∈ functions.flatMap EmittedFunction.targets := by
    rw [targets]
    exact ((externs name).mp isExtern).1
  have labelOnce {function : IrFunction}
      (inFunctions : function ∈ (irGenerate analysis.program).program.functions)
      (defined : function.defined) :
      (functions.map EmittedFunction.name).count function.name = 1 := by
    apply List.count_eq_one_of_mem labelsNodup
    rw [labelled]
    exact List.any_eq_true.mpr ⟨function, inFunctions, by simp [defined]⟩
  cases kind : options.isModule with
  | true =>
      simp only [true_or, iff_true]
      constructor
      · intro target isTarget
        apply (provided target).mpr
        right
        rwa [← targets]
      · exact distinct
      · exact called
      · intro function inFunctions isGlobal
        exact labelOnce inFunctions ((emitFuncLinkage_eq_iff function function.name).mp isGlobal).1
  | false =>
      simp only [Bool.false_eq_true, false_or, Bool.not_false]
      have labelCount {function : IrFunction}
          (inFunctions : function ∈ (irGenerate analysis.program).program.functions)
          (defined : function.defined) :
          (fileLabels true functions).count function.name = 1 ↔ function.name ≠ "_start" := by
        unfold fileLabels
        rw [List.count_append, labelOnce inFunctions defined, if_pos rfl, List.count_cons,
          List.count_nil]
        by_cases start : function.name = "_start"
        · simp [start]
        · simp [start, Ne.symm start]
      constructor
      · intro symbols
        constructor
        · have main := symbols.targets "main" (List.mem_append_left _ (List.mem_singleton.mpr rfl))
          rw [provided, isDefinedHere_iff accepted kind, mem_called_irGenerate] at main
          exact main
        · rw [← start_ne_iff accepted kind]
          intro function inFunctions defined isPublic
          rw [← labelCount inFunctions defined]
          apply symbols.globals function inFunctions
          rw [emitFuncLinkage_eq_iff]
          exact ⟨defined, isPublic, rfl⟩
      · intro starts
        constructor
        · intro target isTarget
          rw [provided]
          rcases List.mem_append.mp isTarget with isMain | isCalled
          · rw [List.mem_singleton.mp isMain, isDefinedHere_iff accepted kind,
              mem_called_irGenerate]
            exact starts.main
          · right
            rwa [← targets]
        · exact distinct
        · exact fun name isExtern => List.mem_append_right _ (called name isExtern)
        · intro function inFunctions isGlobal
          rcases (emitFuncLinkage_eq_iff function function.name).mp isGlobal with
            ⟨defined, isPublic, -⟩
          rw [labelCount inFunctions defined]
          exact (start_ne_iff accepted kind).mpr starts.start function inFunctions defined isPublic

end Accepted

/-- A root that declares `main` without a body. -/
def undefinedMainSource : String :=
  "fn main() i32;"

theorem isSome_compileFrontend_undefinedMain :
    (compileFrontend undefinedMainSource "main.slfr" {}).isSome := by
  decide

/-- The analysis of that program. -/
def undefinedMainAnalysis : ProgramAnalysis :=
  (compileFrontend undefinedMainSource "main.slfr" {}).get isSome_compileFrontend_undefinedMain

/-- The program as it is parsed. -/
def undefinedMainProgram : Program :=
  ((parse (tokenize undefinedMainSource.toList "main.slfr").tokens "main.slfr").map
    fun parsed => parsed.program).getD {}

theorem accepted_undefinedMain :
    Accepted undefinedMainProgram "main.slfr" {} [] undefinedMainAnalysis := by
  rcases parsed_of_compileFrontend (Option.some_get isSome_compileFrontend_undefinedMain).symm
    with ⟨parsed, run, accepted⟩
  rwa [undefinedMainProgram, run]

theorem emitFunctions_undefinedMain :
    emitFunctions (irGenerate undefinedMainAnalysis.program).program.functions = some [] := by
  decide

/-- The start routine calls `main`, which is neither a label nor external. -/
theorem symbolsProvided_undefinedMain_differs :
    Accepted undefinedMainProgram "main.slfr" {} [] undefinedMainAnalysis ∧
      emitFunctions (irGenerate undefinedMainAnalysis.program).program.functions = some [] ∧
      ¬SymbolsProvided true (irGenerate undefinedMainAnalysis.program).program [] := by
  refine ⟨accepted_undefinedMain, emitFunctions_undefinedMain, fun symbols => ?_⟩
  have main := symbols.targets "main" (by decide)
  have noExterns : (irGenerate undefinedMainAnalysis.program).program.externs = [] := by
    decide
  rw [noExterns] at main
  exact absurd main (by decide)

theorem symbolsProvided_iff_undefinedMain :
    SymbolsProvided true (irGenerate undefinedMainAnalysis.program).program [] ↔
      ({} : CompilerOptions).isModule ∨
        RootStarts undefinedMainProgram undefinedMainAnalysis.program :=
  symbolsProvided_iff accepted_undefinedMain emitFunctions_undefinedMain

end Sulfur.Codegen
