import Sulfur.Semantic.Resolution

/-!
# Closed functions

The variables that the operations of a generated function name are the mangled
variables of the analysed tree, so that a function keeps to its own slots exactly
when its source names nothing of the functions around it.
-/

namespace Sulfur.Ir

/-- The name of a `VARIABLE` operand. -/
def Operand.variableNames : Operand → List String
  | .variable _ name => [name]
  | _ => []

namespace Operand

@[simp]
theorem variableNames_variable (type : ValueType) (name : String) :
    (Operand.variable type name).variableNames = [name] := rfl

@[simp]
theorem variableNames_temporary (type : ValueType) (id : Nat) :
    (temporary type id).variableNames = [] := rfl

@[simp]
theorem variableNames_immediate (type : ValueType) (value : String) :
    (immediate type value).variableNames = [] := rfl

@[simp]
theorem variableNames_function (type : ValueType) (name : String) :
    (function type name).variableNames = [] := rfl

@[simp]
theorem variableNames_label (id : Nat) : (label id).variableNames = [] := rfl

@[simp]
theorem variableNames_none : none.variableNames = [] := rfl

end Operand

/-- The variables that an operation names. -/
def Operation.variableNames (operation : Operation) : List String :=
  operation.operand1.variableNames ++ operation.operand2.variableNames ++
    operation.operand3.variableNames

/-- The variables that a list of operations names. -/
def variableNames (operations : List Operation) : List String :=
  operations.flatMap Operation.variableNames

/-- Every `VARIABLE` operand of the function names a parameter of its or a variable
that is declared in its own body. -/
def ClosedFunction (declaration : FuncDecl × Option Stmt) (function : IrFunction) : Prop :=
  ∀ name ∈ variableNames function.operations,
    name ∈ function.parameters.map Parameter.name ∨
      name ∈ ((declaration.2.map Stmt.locals).getD []).map mangleEntry

instance (declaration : FuncDecl × Option Stmt) (function : IrFunction) :
    Decidable (ClosedFunction declaration function) :=
  inferInstanceAs (Decidable (∀ name ∈ variableNames function.operations, _ ∨ _))

@[simp]
theorem variableNames_nil : variableNames [] = [] := rfl

@[simp]
theorem variableNames_append (first second : List Operation) :
    variableNames (first ++ second) = variableNames first ++ variableNames second :=
  List.flatMap_append

@[simp]
theorem variableNames_cons (operation : Operation) (rest : List Operation) :
    variableNames (operation :: rest) = operation.variableNames ++ variableNames rest :=
  List.flatMap_cons

@[simp]
theorem variableNames_paramOperations (arguments : List Operand) :
    variableNames (paramOperations arguments) = arguments.flatMap Operand.variableNames := by
  induction arguments with
  | nil => rfl
  | cons argument rest inductionHypothesis =>
      simp only [paramOperations, List.map_cons, variableNames_cons, List.flatMap_cons]
        at inductionHypothesis ⊢
      rw [inductionHypothesis]
      simp [Operation.variableNames, Operand.variableNames]

/-! ## Expressions -/

/-- The names in the code of an expression and in its result. -/
def ExprCode.names (code : ExprCode) : List String :=
  variableNames code.operations ++ code.result.variableNames

/-- The names that a hint adds. -/
def hintNames (hint : Option Operand) : List String :=
  hint.toList.flatMap Operand.variableNames

@[simp]
theorem hintNames_none : hintNames none = [] := rfl

/-- The destination of an operation is the hint, or a temporary. -/
@[simp]
theorem variableNames_destination (hint : Option Operand) (type : ValueType)
    (nextTemp : Nat) : (destination hint type nextTemp).1.variableNames = hintNames hint := by
  cases hint <;> simp [destination, hintNames, Operand.variableNames]

/-- The code of an expression names the expression's variables, a hint apart. -/
theorem mem_names_generateExpressionInto (value : Expr) (hint : Option Operand)
    (nextTemp : Nat) (name : String) :
    name ∈ (generateExpressionInto value hint nextTemp).names ++ hintNames hint ↔
      name ∈ value.uses.map mangleEntry ++ hintNames hint := by
  induction value using Expr.induction generalizing hint nextTemp with
  | binary base op left right leftHypothesis rightHypothesis =>
      have first := leftHypothesis none nextTemp
      have second := rightHypothesis none (generateExpressionInto left none nextTemp).nextTemp
      simp only [ExprCode.names, hintNames_none, List.append_nil, List.mem_append]
        at first second
      simp only [generateExpressionInto, generateBinary, ExprCode.names, Expr.uses,
        Operation.variableNames, variableNames_append, variableNames_cons,
        variableNames_nil, variableNames_destination, List.map_append, List.mem_append,
        List.append_nil, ← first, ← second]
      grind
  | unary base op operand operandHypothesis =>
      have inner := operandHypothesis none nextTemp
      simp only [ExprCode.names, hintNames_none, List.append_nil, List.mem_append] at inner
      simp only [generateExpressionInto, generateUnary]
      split
      · simp only [generateIncrement]
        split <;>
          simp only [ExprCode.names, Expr.uses, Operation.variableNames, variableNames_append,
            variableNames_cons, variableNames_nil, Operand.variableNames_none,
            Operand.variableNames_temporary, Operand.variableNames_immediate,
            List.mem_append, List.append_nil, List.nil_append, ← inner] <;>
          grind
      · simp only [ExprCode.names, Expr.uses, Operation.variableNames, variableNames_append,
          variableNames_cons, variableNames_nil, variableNames_destination,
          Operand.variableNames_none, List.mem_append, List.append_nil, ← inner]
        grind
  | cast base target operand operandHypothesis =>
      have inner := operandHypothesis none nextTemp
      simp only [ExprCode.names, hintNames_none, List.append_nil, List.mem_append] at inner
      simp only [generateExpressionInto, generateCast, ExprCode.names, Expr.uses,
        Operation.variableNames, variableNames_append, variableNames_cons,
        variableNames_nil, variableNames_destination, Operand.variableNames_none,
        List.mem_append, List.append_nil, ← inner]
      grind
  | literal base tokenType value =>
      simp [generateExpressionInto, ExprCode.names, generateLiteral, Operand.variableNames,
        Expr.uses]
  | identifier base source depth id symbol =>
      simp [generateExpressionInto, ExprCode.names, generateIdentifier,
        Operand.variableNames, Expr.uses, mangleEntry]
  | funcCall base callee linkName arguments argumentsHypothesis =>
      have inner : name ∈ variableNames (generateArguments arguments nextTemp).operations ∨
          name ∈ (generateArguments arguments nextTemp).results.flatMap
            Operand.variableNames ↔
          name ∈ (Expr.usesAll arguments).map mangleEntry := by
        induction arguments generalizing nextTemp with
        | nil => simp [generateArguments, Expr.usesAll]
        | cons argument rest inductionHypothesis =>
            rw [List.forall_mem_cons] at argumentsHypothesis
            have first := argumentsHypothesis.1 none nextTemp
            have others := inductionHypothesis argumentsHypothesis.2
              (generateExpressionInto argument none nextTemp).nextTemp
            simp only [ExprCode.names, hintNames_none, List.append_nil, List.mem_append]
              at first
            simp only [generateArguments, Expr.usesAll, variableNames_append,
              List.flatMap_cons, List.map_append, List.mem_append, ← first, ← others]
            grind
      simp only [generateExpressionInto, generateCall]
      split
      · simp only [ExprCode.names, Expr.uses, Operation.variableNames, variableNames_append,
          variableNames_cons, variableNames_nil, variableNames_paramOperations,
          Operand.variableNames_none, Operand.variableNames_function, List.mem_append,
          List.append_nil, ← inner]
      · simp only [ExprCode.names, Expr.uses, Operation.variableNames, variableNames_append,
          variableNames_cons, variableNames_nil, variableNames_paramOperations,
          variableNames_destination, Operand.variableNames_none,
          Operand.variableNames_function, List.mem_append, List.append_nil, ← inner]
        grind

/-- Unless the expression is a variable, the code names its result. -/
theorem names_result_subset {value : Expr} (other : value.isIdentifier = false)
    (hint : Option Operand) (nextTemp : Nat) {name : String}
    (inResult : name ∈ (generateExpressionInto value hint nextTemp).result.variableNames) :
    name ∈ variableNames (generateExpressionInto value hint nextTemp).operations := by
  cases value with
  | binary base op left right =>
      simp_all [generateExpressionInto, generateBinary, Operation.variableNames]
  | unary base op operand =>
      simp only [generateExpressionInto, generateUnary] at inResult ⊢
      split
      · rename_i increments
        rw [if_pos increments] at inResult
        simp only [generateIncrement] at inResult
        split at inResult <;> simp [Operand.variableNames] at inResult
      · rename_i operates
        rw [if_neg operates] at inResult
        simp_all [Operation.variableNames]
  | cast base target operand =>
      simp_all [generateExpressionInto, generateCast, Operation.variableNames]
  | literal base tokenType text =>
      simp [generateExpressionInto, generateLiteral, Operand.variableNames] at inResult
  | identifier base source depth id symbol => cases other
  | funcCall base callee linkName arguments =>
      simp only [generateExpressionInto, generateCall] at inResult ⊢
      simp [Operation.variableNames, inResult]

theorem mem_names_generateExpression (value : Expr) (nextTemp : Nat) (name : String) :
    name ∈ (generateExpression value nextTemp).names ↔ name ∈ value.uses.map mangleEntry := by
  have names := mem_names_generateExpressionInto value none nextTemp name
  rwa [hintNames_none, List.append_nil, List.append_nil] at names

/-- The code of an assignment names the assigned variable and those of the value. -/
theorem mem_variableNames_generateAssignment (type : ValueType) (dst : String × Nat)
    (value : Expr) (nextTemp : Nat) (name : String) :
    name ∈ variableNames
        (generateAssignment (.variable type (mangleEntry dst)) value nextTemp).1 ↔
      name ∈ (value.assignmentUses dst).map mangleEntry := by
  by_cases itself : value.isVariable dst
  · cases value with
    | identifier base source depth id symbol =>
        obtain rfl : (source, id) = dst := by simpa [Expr.isVariable] using itself
        simp [generateAssignment, generateExpressionInto, generateIdentifier, wroteDirectly,
          Expr.assignmentUses, Expr.isVariable, mangleEntry]
    | _ => cases itself
  have uses : value.assignmentUses dst = dst :: value.uses := by
    simp [Expr.assignmentUses, itself]
  have names := mem_names_generateExpressionInto value
    (some (.variable type (mangleEntry dst))) nextTemp name
  simp only [ExprCode.names, hintNames, Option.toList_some, List.flatMap_cons,
    List.flatMap_nil, Operand.variableNames_variable, List.append_nil, List.mem_append,
    List.mem_singleton] at names
  rw [uses, List.map_cons, List.mem_cons, or_comm, ← names]
  unfold generateAssignment
  dsimp only
  split
  · rename_i direct
    -- the code ends in the destination, which only an operation can have put there
    obtain ⟨resultType, result⟩ : ∃ resultType, (generateExpressionInto value
        (some (.variable type (mangleEntry dst))) nextTemp).result =
          .variable resultType (mangleEntry dst) := by
      unfold wroteDirectly at direct
      split at direct
      · rename_i first second source target isSource isTarget
        obtain ⟨-, rfl⟩ := Operand.variable.inj isTarget
        exact ⟨first, by rw [isSource, of_decide_eq_true direct]⟩
      · cases direct
    have other : value.isIdentifier = false := by
      cases value with
      | identifier base source depth id symbol =>
          have same : mangleEntry (source, id) = mangleEntry dst :=
            (Operand.variable.inj result).2
          exact absurd (by simpa [Expr.isVariable] using mangleEntry_injective same) itself
      | _ => rfl
    have written := names_result_subset other (some (.variable type (mangleEntry dst)))
      nextTemp (by rw [result]; exact List.mem_singleton_self _)
    rw [result, Operand.variableNames_variable, List.mem_singleton]
    refine ⟨fun inCode => Or.inl (Or.inl inCode), fun inNames => ?_⟩
    rcases inNames with (inCode | rfl) | rfl
    · exact inCode
    · exact written
    · exact written
  · simp only [variableNames_append, variableNames_cons, variableNames_nil,
      Operation.variableNames, Operand.variableNames_variable, Operand.variableNames_none,
      List.append_nil, List.mem_append, List.mem_singleton]
    tauto

/-! ## Statements -/

/-- The code of a statement names the variables of the statement. -/
def NamesUses (stmt : Stmt) : Prop :=
  ∀ nextTemp program name,
    name ∈ variableNames (generateStatement stmt nextTemp program).operations ↔
      name ∈ stmt.uses.map mangleEntry

theorem generateBlock_names {statements : List Stmt}
    (each : ∀ stmt ∈ statements, NamesUses stmt) (nextTemp : Nat) (program : IrProgram)
    (name : String) :
    name ∈ variableNames (generateBlock statements nextTemp program).operations ↔
      name ∈ (Stmt.usesAll statements).map mangleEntry := by
  induction statements generalizing nextTemp program with
  | nil => simp [generateBlock, Stmt.usesAll]
  | cons stmt rest inductionHypothesis =>
      rw [List.forall_mem_cons] at each
      simp only [generateBlock, Stmt.usesAll, variableNames_append, List.map_append,
        List.mem_append, each.1 nextTemp program name, inductionHypothesis each.2]

theorem namesUses (stmt : Stmt) : NamesUses stmt := by
  induction stmt using Stmt.induction with
  | varDecl decl =>
      intro nextTemp program name
      simp only [generateStatement, generateVarDecl, Stmt.uses]
      cases decl.value with
      | none => simp
      | some value => exact mem_variableNames_generateAssignment _ (decl.name, decl.id) ..
  | varAssign assign =>
      intro nextTemp program name
      exact mem_variableNames_generateAssignment _ (assign.name, assign.id) ..
  | block base statements statementsHypothesis =>
      exact generateBlock_names statementsHypothesis
  | ifStmt base condition branchThen branchElse thenHypothesis elseHypothesis =>
      intro nextTemp program name
      have names := mem_names_generateExpression condition nextTemp name
      rw [ExprCode.names, List.mem_append] at names
      cases branchElse with
      | none =>
          simp only [generateStatement, Stmt.uses, Stmt.usesOption, variableNames_append,
            variableNames_cons, variableNames_nil, Operation.variableNames, jmpCond,
            labelOperation, Operand.variableNames_none, Operand.variableNames_label,
            List.append_nil, List.nil_append, List.map_append, List.mem_append, ← names,
            thenHypothesis _ _ name]
      | some stmt =>
          simp only [generateStatement, Stmt.uses, Stmt.usesOption, variableNames_append,
            variableNames_cons, variableNames_nil, Operation.variableNames, jmpCond, jmpIncond,
            labelOperation, Operand.variableNames_none, Operand.variableNames_label,
            List.append_nil, List.nil_append, List.map_append, List.mem_append, ← names,
            thenHypothesis _ _ name, elseHypothesis stmt rfl _ _ name]
  | whileStmt base condition branchDo doHypothesis =>
      intro nextTemp program name
      have names := mem_names_generateExpression condition nextTemp name
      rw [ExprCode.names, List.mem_append] at names
      simp only [generateStatement, Stmt.uses, variableNames_append, variableNames_cons,
        variableNames_nil, Operation.variableNames, jmpCond, jmpIncond, labelOperation,
        Operand.variableNames_none, Operand.variableNames_label, List.append_nil,
        List.nil_append, List.map_append, List.mem_append, ← names, doHypothesis _ _ name]
  | funcDecl func body =>
      intro nextTemp program name
      cases body <;> simp [generateStatement, Stmt.uses]
  | returnStmt base value =>
      intro nextTemp program name
      cases value with
      | none => simp [generateStatement, generateReturn, Stmt.uses, Operation.variableNames]
      | some value =>
          have names := mem_names_generateExpression value nextTemp name
          rw [ExprCode.names, List.mem_append] at names
          simp only [generateStatement, generateReturn, Stmt.uses, variableNames_append,
            variableNames_cons, variableNames_nil, Operation.variableNames,
            Operand.variableNames_none, List.append_nil, List.mem_append, ← names]
  | expression expr =>
      intro nextTemp program name
      have names := mem_names_generateExpression expr nextTemp name
      rw [ExprCode.names, List.mem_append] at names
      simp only [generateStatement, Stmt.uses]
      split
      · rename_i isIdentifier
        cases expr with
        | identifier base source depth id symbol =>
            simp [generateExpression, generateExpressionInto]
        | _ => cases isIdentifier
      · rename_i other
        rw [← names]
        exact ⟨Or.inl, fun inNames => inNames.elim id
          (names_result_subset (by simpa using other) none nextTemp)⟩

/-! ## Functions -/

/-- A generated function is closed when the analysed one is. -/
theorem closedFunction_iff {declaration : FuncDecl × Option Stmt} {function : IrFunction}
    (lowers : Lowers declaration function) :
    ClosedFunction declaration function ↔ ClosedAnalysed declaration := by
  obtain ⟨func, body⟩ := declaration
  obtain ⟨program, rfl⟩ := lowers
  cases body with
  | none => simp [ClosedFunction, ClosedAnalysed, loweredFunction]
  | some body =>
      have names (name : String) : name ∈ variableNames (loweredFunction func
          (some (generateStatement body 0 program))).operations ↔
            name ∈ body.uses.map mangleEntry := by
        rw [← namesUses body 0 program name]
        unfold loweredFunction
        dsimp only
        split <;> simp [Operation.variableNames]
      have parameters : (loweredFunction func
          (some (generateStatement body 0 program))).parameters.map Parameter.name =
            (func.parameters.map Parameter.entry).map mangleEntry := by
        simp [loweredFunction, generateParameters, Parameter.entry, mangleEntry]
      simp only [ClosedFunction, ClosedAnalysed, Option.map_some, Option.getD_some, names,
        parameters, ← List.mem_append, ← List.map_append, List.forall_mem_map,
        List.mem_map_of_injective mangleEntry_injective, FuncDecl.ownVariables, Option.mem_some_iff,
        forall_eq']

/-- A law of the generated functions that each has when its source has a law. -/
theorem forall₂_iff_of_lowers {sources declarations : List (FuncDecl × Option Stmt)}
    {functions : List IrFunction} {same : FuncDecl × Option Stmt → FuncDecl × Option Stmt → Prop}
    {law : FuncDecl × Option Stmt → IrFunction → Prop} {sourceLaw : FuncDecl × Option Stmt → Prop}
    (each : ∀ source declaration function, same source declaration →
      Lowers declaration function → (law declaration function ↔ sourceLaw source))
    (sourced : List.Forall₂ same sources declarations)
    (lowers : List.Forall₂ Lowers declarations functions) :
    List.Forall₂ law declarations functions ↔ ∀ source ∈ sources, sourceLaw source := by
  induction sourced generalizing functions with
  | nil =>
      cases lowers
      simp
  | cons first _ inductionHypothesis =>
      cases lowers with
      | cons lowered others =>
          rw [List.forall₂_cons, List.forall_mem_cons, inductionHypothesis others,
            each _ _ _ first lowered]

/-- The generated functions of an accepted program are closed exactly when the bodies
of its source name parameters and own variables only. -/
theorem closedFunctions_iff {program : Program} {filename : String}
    {options : CompilerOptions} {modules : List Module} {analysis : ProgramAnalysis}
    (accepted : Accepted program filename options modules analysis) :
    List.Forall₂ ClosedFunction analysis.program.declarations
        (irGenerate analysis.program).program.functions ↔
      ∀ declaration ∈ program.declarations, ClosedSource declaration := by
  refine forall₂_iff_of_lowers (fun source declaration function same lowers => ?_)
    accepted.sameClosed (irGenerate_lowers analysis.program)
  exact (closedFunction_iff lowers).trans same.symm

/-- A nested function that reads a variable of the function around it. -/
def enclosingSource : String :=
  "fn main() i32 { i32 x = 5; fn inner() i32 { return x; } return inner(); }"

theorem isSome_compileFrontend_enclosing :
    (compileFrontend enclosingSource "main.su" {}).isSome := by
  decide

/-- The analysis of that program. -/
def enclosingAnalysis : ProgramAnalysis :=
  (compileFrontend enclosingSource "main.su" {}).get isSome_compileFrontend_enclosing

/-- The inner function names a variable that the outer one declares. -/
theorem closedFunctions_enclosing_differs :
    (∃ program, Accepted program "main.su" {} [] enclosingAnalysis) ∧
      ¬List.Forall₂ ClosedFunction enclosingAnalysis.program.declarations
        (irGenerate enclosingAnalysis.program).program.functions := by
  refine ⟨accepted_of_compileFrontend (Option.some_get _).symm, ?_⟩
  decide

theorem closedFunctions_iff_enclosing :
    ∃ program, List.Forall₂ ClosedFunction enclosingAnalysis.program.declarations
        (irGenerate enclosingAnalysis.program).program.functions ↔
      ∀ declaration ∈ Program.declarations program, ClosedSource declaration := by
  obtain ⟨program, accepted⟩ := accepted_of_compileFrontend
    (Option.some_get isSome_compileFrontend_enclosing).symm
  exact ⟨program, closedFunctions_iff accepted⟩

end Sulfur.Ir
