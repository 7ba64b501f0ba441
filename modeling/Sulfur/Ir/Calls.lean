import Sulfur.Ir.Parts
import Sulfur.Semantic.Linkage

/-!
# Calls in the code

The names that the operations of a function call are those that the calls in its body link
to, and `collect_externs` lists the ones that the file does not define.
-/

namespace Sulfur

/-- The names that the calls in an expression link to. -/
def Expr.callTargets (value : Expr) : List String :=
  value.calls.map fun call => call.2.getD call.1

/-- The statements of a function call the name. -/
def Stmt.CallsName (body : Stmt) (name : String) : Prop :=
  ∃ part ∈ body.parts, ∃ value ∈ part.expressions, name ∈ value.callTargets

/-- A function of the program calls the name. -/
def Program.CallsName (program : Program) (name : String) : Prop :=
  ∃ value ∈ program.expressions, name ∈ value.callTargets

instance (program : Program) (name : String) : Decidable (program.CallsName name) := by
  unfold Program.CallsName
  infer_instance

namespace Ir

/-- The names that operations call. -/
def callNames (operations : List Operation) : List String :=
  operations.filterMap calledName

@[simp]
theorem callNames_nil : callNames [] = [] :=
  rfl

@[simp]
theorem callNames_append (first second : List Operation) :
    callNames (first ++ second) = callNames first ++ callNames second :=
  List.filterMap_append

/-- An operation that is not a call has no called name. -/
theorem calledName_of_ne {operation : Operation} (other : operation.opcode ≠ .call) :
    calledName operation = none := by
  unfold calledName
  split
  · rename_i isCall _
    exact absurd isCall other
  · rfl

theorem callNames_of_ne {operations : List Operation}
    (other : ∀ operation ∈ operations, operation.opcode ≠ .call) :
    callNames operations = [] :=
  List.filterMap_eq_nil_iff.mpr fun operation inCode => calledName_of_ne (other operation inCode)

/-- A call has the name of a function. -/
def Operation.CallsByName (operation : Operation) : Prop :=
  operation.opcode = .call → (calledName operation).isSome

theorem Operation.CallsByName.of_ne {operation : Operation} (other : operation.opcode ≠ .call) :
    operation.CallsByName :=
  fun isCall => absurd isCall other

/-! ## Expressions -/

/-- Code that calls the names, each through the operand of a function. -/
structure CallsNames (operations : List Operation) (names : List String) : Prop where
  names : ∀ name, name ∈ callNames operations ↔ name ∈ names
  byName : ∀ operation ∈ operations, operation.CallsByName

namespace CallsNames

theorem nil : CallsNames [] [] :=
  ⟨fun _ => Iff.rfl, List.forall_mem_nil _⟩

theorem append {first second : List Operation} {names others : List String}
    (earlier : CallsNames first names) (later : CallsNames second others) :
    CallsNames (first ++ second) (names ++ others) := by
  constructor
  · intro name
    rw [callNames_append, List.mem_append, List.mem_append, earlier.names, later.names]
  · rw [List.forall_mem_append]
    exact ⟨earlier.byName, later.byName⟩

theorem other {operations : List Operation}
    (noCall : ∀ operation ∈ operations, operation.opcode ≠ .call) : CallsNames operations [] := by
  constructor
  · intro name
    rw [callNames_of_ne noCall]
  · exact fun operation inCode => .of_ne (noCall operation inCode)

theorem append_other {first second : List Operation} {names : List String}
    (earlier : CallsNames first names) (noCall : ∀ operation ∈ second, operation.opcode ≠ .call) :
    CallsNames (first ++ second) names := by
  rw [← List.append_nil names]
  exact earlier.append (other noCall)

end CallsNames

theorem calls_generateIncrement (base : Base) (op : UnaryOp) {operand : ExprCode}
    {names : List String} (calls : CallsNames operand.operations names) :
    CallsNames (generateIncrement base op operand).operations names := by
  unfold generateIncrement
  dsimp only
  split
  · apply calls.append_other
    simp
  · apply calls.append_other
    simp

theorem calls_generateArguments {arguments : List Expr}
    (each : ∀ argument ∈ arguments, ∀ hint nextTemp,
      CallsNames (generateExpressionInto argument hint nextTemp).operations argument.callTargets)
    (nextTemp : Nat) :
    CallsNames (generateArguments arguments nextTemp).operations
      ((Expr.callsAll arguments).map fun call => call.2.getD call.1) := by
  induction arguments generalizing nextTemp with
  | nil => exact .nil
  | cons argument rest inductionHypothesis =>
      rw [List.forall_mem_cons] at each
      rw [generateArguments, Expr.callsAll, List.map_append]
      exact (each.1 none nextTemp).append (inductionHypothesis each.2 _)

/-- The code of an expression calls what the calls in the expression link to. -/
theorem calls_generateExpressionInto (value : Expr) (hint : Option Operand) (nextTemp : Nat) :
    CallsNames (generateExpressionInto value hint nextTemp).operations value.callTargets := by
  induction value using Expr.induction generalizing hint nextTemp with
  | binary base op left right leftHypothesis rightHypothesis =>
      have both := (leftHypothesis none nextTemp).append
        (rightHypothesis none (generateExpressionInto left none nextTemp).nextTemp)
      have targets : (Expr.binary base op left right).callTargets =
          left.callTargets ++ right.callTargets := List.map_append
      rw [targets]
      exact both.append_other (by simp)
  | unary base op operand operandHypothesis =>
      rw [generateExpressionInto, generateUnary]
      split
      · exact calls_generateIncrement base op (operandHypothesis none nextTemp)
      · apply (operandHypothesis none nextTemp).append_other
        cases op <;> simp [unaryOpcode]
  | cast base target operand operandHypothesis =>
      exact (operandHypothesis none nextTemp).append_other (by simp)
  | literal base tokenType value => exact .nil
  | identifier base name depth id symbol => exact .nil
  | funcCall base callee linkName arguments argumentsHypothesis =>
      have params : ∀ operation ∈ paramOperations (generateArguments arguments nextTemp).results,
          operation.opcode ≠ .call := by
        simp [paramOperations]
      have inner := (calls_generateArguments argumentsHypothesis nextTemp).append_other params
      constructor
      · intro name
        rw [generateExpressionInto, generateCall, callNames_append, List.mem_append, inner.names]
        simp [callNames, calledName, Expr.callTargets, Expr.calls, or_comm]
      · rw [generateExpressionInto, generateCall, List.forall_mem_append,
          List.forall_mem_singleton]
        exact ⟨inner.byName, fun _ => rfl⟩

/-! ## Statements -/

theorem calls_generateAssignment (dst : Operand) (value : Expr) (nextTemp : Nat) :
    CallsNames (generateAssignment dst value nextTemp).1 value.callTargets := by
  unfold generateAssignment
  dsimp only
  split
  · exact calls_generateExpressionInto value (some dst) nextTemp
  · exact (calls_generateExpressionInto value (some dst) nextTemp).append_other (by simp)

theorem calls_generateReturn (value : Option Expr) (nextTemp : Nat) :
    CallsNames (generateReturn value nextTemp).1 (value.toList.flatMap Expr.callTargets) := by
  cases value with
  | none => exact .other (by simp [generateReturn])
  | some value =>
      rw [Option.toList_some, List.flatMap_singleton]
      exact (calls_generateExpressionInto value none nextTemp).append_other (by simp)

/-- A part calls what its expressions link to. -/
theorem calls_ownOperations (part : Stmt) (nextTemp label : Nat) :
    CallsNames (ownOperations part nextTemp label)
      (part.expressions.flatMap Expr.callTargets) := by
  cases part with
  | varDecl decl =>
      cases initialised : decl.value with
      | none =>
          simp only [ownOperations, generateVarDecl, Stmt.expressions, initialised]
          exact .nil
      | some value =>
          simp only [ownOperations, generateVarDecl, Stmt.expressions, initialised,
            Option.toList_some, List.flatMap_singleton]
          exact calls_generateAssignment _ value nextTemp
  | varAssign assign =>
      rw [Stmt.expressions, List.flatMap_singleton]
      exact calls_generateAssignment _ assign.value nextTemp
  | ifStmt base condition branchThen branchElse =>
      rw [Stmt.expressions, List.flatMap_singleton]
      exact (calls_generateExpressionInto condition none nextTemp).append_other (by simp [jmpCond])
  | whileStmt base condition branchDo =>
      rw [Stmt.expressions, List.flatMap_singleton]
      exact (calls_generateExpressionInto condition none nextTemp).append_other (by simp [jmpCond])
  | returnStmt base value => exact calls_generateReturn value nextTemp
  | expression expr =>
      rw [Stmt.expressions, List.flatMap_singleton]
      exact calls_generateExpressionInto expr none nextTemp
  | block base statements => exact .nil
  | funcDecl func body => exact .nil

/-- The code of a statement calls what the expressions of its parts link to. -/
theorem mem_callNames_generateStatement (stmt : Stmt) (nextTemp : Nat) (program : IrProgram)
    (name : String) :
    name ∈ callNames (generateStatement stmt nextTemp program).operations ↔
      stmt.CallsName name := by
  constructor
  · intro called
    rcases List.mem_filterMap.mp called with ⟨operation, inCode, isName⟩
    rcases fromParts_generateStatement stmt nextTemp program operation inCode with
      ⟨label, rfl | rfl⟩ | ⟨part, isPart, start, label, inPart⟩
    · cases isName
    · cases isName
    · have inOwn : name ∈ callNames (ownOperations part start label) :=
        List.mem_filterMap.mpr ⟨operation, inPart, isName⟩
      rw [(calls_ownOperations part start label).names, List.mem_flatMap] at inOwn
      exact ⟨part, isPart, inOwn⟩
  · rintro ⟨part, isPart, value, inPart, target⟩
    rcases contains_generateStatement stmt nextTemp program part isPart value inPart with
      ⟨hint, start, inCode⟩
    rw [← (calls_generateExpressionInto value hint start).names] at target
    exact (inCode.sublist.filterMap calledName).subset target

theorem callsByName_generateStatement (stmt : Stmt) (nextTemp : Nat) (program : IrProgram) :
    ∀ operation ∈ (generateStatement stmt nextTemp program).operations,
      operation.CallsByName := by
  intro operation inCode
  rcases fromParts_generateStatement stmt nextTemp program operation inCode with
    ⟨label, rfl | rfl⟩ | ⟨part, -, start, label, inPart⟩
  · exact .of_ne (by simp [jmpIncond])
  · exact .of_ne (by simp [labelOperation])
  · exact (calls_ownOperations part start label).byName operation inPart

/-! ## Functions -/

/-- What a declaration becomes calls what the statements of its body call. -/
theorem mem_callNames_of_lowers {declaration : FuncDecl × Option Stmt} {function : IrFunction}
    (lowers : Lowers declaration function) (name : String) :
    name ∈ callNames function.operations ↔
      ∃ body ∈ declaration.2, body.CallsName name := by
  rcases lowers with ⟨program, rfl⟩
  rcases declaration with ⟨func, body⟩
  cases body with
  | none => simp [loweredFunction]
  | some body =>
      simp only [Option.map_some, loweredFunction, Option.mem_some_iff, exists_eq_left']
      rw [← mem_callNames_generateStatement body 0 program name]
      split
      · simp [callNames, calledName]
      · exact Iff.rfl

theorem callsByName_of_lowers {declaration : FuncDecl × Option Stmt} {function : IrFunction}
    (lowers : Lowers declaration function) :
    ∀ operation ∈ function.operations, operation.CallsByName := by
  rcases lowers with ⟨program, rfl⟩
  rcases declaration with ⟨func, body⟩
  cases body with
  | none => exact List.forall_mem_nil _
  | some body =>
      have each := callsByName_generateStatement body 0 program
      simp only [Option.map_some, loweredFunction]
      split
      · rw [List.forall_mem_append, List.forall_mem_singleton]
        exact ⟨each, .of_ne (by simp)⟩
      · exact each

/-! ## Programs -/

/-- The names that the functions of a program call. -/
def IrProgram.called (program : IrProgram) : List String :=
  program.functions.flatMap fun function => callNames function.operations

/-- The loop of `collect_externs` keeps each called name that is not defined here, once. -/
theorem collectExterns_foldl (isDefined : String → Bool) (called : List String)
    {externs : List String} (distinct : externs.Nodup) :
    (called.foldl
      (fun externs name =>
        if isDefined name || externs.contains name then externs else externs ++ [name])
      externs).Nodup ∧
    ∀ name, name ∈ called.foldl
      (fun externs name =>
        if isDefined name || externs.contains name then externs else externs ++ [name])
      externs ↔ name ∈ externs ∨ name ∈ called ∧ isDefined name = false := by
  induction called generalizing externs with
  | nil => exact ⟨distinct, by simp⟩
  | cons first rest inductionHypothesis =>
      rw [List.foldl_cons]
      by_cases skipped : (isDefined first || externs.contains first) = true
      · rw [if_pos skipped]
        refine ⟨(inductionHypothesis distinct).1, fun name => ?_⟩
        rw [(inductionHypothesis distinct).2 name]
        rw [Bool.or_eq_true, List.contains_iff_mem] at skipped
        grind
      · rw [if_neg skipped]
        rw [Bool.or_eq_true, List.contains_iff_mem, not_or, Bool.not_eq_true] at skipped
        have longer : (externs ++ [first]).Nodup := by
          rw [List.nodup_append]
          refine ⟨distinct, List.nodup_singleton _, ?_⟩
          rintro name listed other isFirst rfl
          rw [List.mem_singleton] at isFirst
          exact skipped.2 (isFirst ▸ listed)
        refine ⟨(inductionHypothesis longer).1, fun name => ?_⟩
        rw [(inductionHypothesis longer).2 name]
        grind

theorem externs_generateBlock {statements : List Stmt}
    (each : ∀ stmt ∈ statements, ∀ nextTemp program,
      (generateStatement stmt nextTemp program).program.externs = program.externs)
    (nextTemp : Nat) (program : IrProgram) :
    (generateBlock statements nextTemp program).program.externs = program.externs := by
  induction statements generalizing nextTemp program with
  | nil => rfl
  | cons stmt rest inductionHypothesis =>
      rw [List.forall_mem_cons] at each
      rw [generateBlock]
      exact (inductionHypothesis each.2 _ _).trans (each.1 nextTemp program)

/-- Statements add no external names. -/
theorem externs_generateStatement (stmt : Stmt) (nextTemp : Nat) (program : IrProgram) :
    (generateStatement stmt nextTemp program).program.externs = program.externs := by
  induction stmt using Stmt.induction generalizing nextTemp program with
  | block base statements statementsHypothesis =>
      exact externs_generateBlock statementsHypothesis nextTemp program
  | ifStmt base condition branchThen branchElse thenHypothesis elseHypothesis =>
      cases branchElse with
      | none => exact thenHypothesis _ _
      | some stmt => exact (elseHypothesis stmt rfl _ _).trans (thenHypothesis _ _)
  | whileStmt base condition branchDo doHypothesis => exact doHypothesis _ _
  | funcDecl func body bodyHypothesis =>
      cases body with
      | none => rfl
      | some body => exact bodyHypothesis body rfl 0 program
  | varDecl | varAssign | returnStmt | expression => rfl

/-- The external names are those that are called and not defined here. -/
theorem externs_irGenerate (program : Program) :
    (irGenerate program).program.externs.Nodup ∧
      ∀ name, name ∈ (irGenerate program).program.externs ↔
        name ∈ (irGenerate program).program.called ∧
          isDefinedHere (irGenerate program).program name = false := by
  have noExterns : (generateBlock program.statements 0 {}).program.externs = [] :=
    externs_generateBlock (fun stmt _ => externs_generateStatement stmt) 0 {}
  have empty : (generateBlock program.statements 0 {}).program.externs.Nodup := by
    rw [noExterns]
    exact List.nodup_nil
  have collected := collectExterns_foldl
    (isDefinedHere (generateBlock program.statements 0 {}).program)
    (generateBlock program.statements 0 {}).program.called empty
  refine ⟨collected.1, fun name => (collected.2 name).trans ?_⟩
  rw [noExterns, List.mem_nil_iff, false_or]
  exact Iff.rfl

/-- The functions of the code call what the functions of the program call. -/
theorem mem_called_irGenerate (program : Program) (name : String) :
    name ∈ (irGenerate program).program.called ↔ program.CallsName name := by
  have lowers := irGenerate_lowers program
  have fromFunction : name ∈ (irGenerate program).program.called ↔
      ∃ declaration ∈ program.declarations, ∃ body ∈ declaration.2, body.CallsName name := by
    rw [IrProgram.called, List.mem_flatMap]
    generalize program.declarations = declarations at lowers
    generalize (irGenerate program).program.functions = functions at lowers
    induction lowers with
    | nil => simp
    | cons first _ inductionHypothesis =>
        simp only [List.mem_cons, exists_eq_or_imp, inductionHypothesis,
          mem_callNames_of_lowers first]
  rw [fromFunction]
  constructor
  · rintro ⟨⟨func, body⟩, declared, stmt, rfl, part, isPart, value, inPart, target⟩
    refine ⟨value, ?_, target⟩
    refine List.mem_flatMap.mpr ⟨(func, stmt), ?_, List.mem_flatMap.mpr ⟨part, isPart, inPart⟩⟩
    exact (program.mem_functions_iff func stmt).mpr declared
  · rintro ⟨value, inProgram, target⟩
    rcases List.mem_flatMap.mp inProgram with ⟨⟨func, body⟩, isFunction, inBody⟩
    rcases List.mem_flatMap.mp inBody with ⟨part, isPart, inPart⟩
    exact ⟨(func, some body), (program.mem_functions_iff func body).mp isFunction, body, rfl, part,
      isPart, value, inPart, target⟩

end Ir

end Sulfur
