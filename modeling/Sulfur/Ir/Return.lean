import Sulfur.Ir.Control
import Sulfur.Ir.Parts
import Sulfur.Library.Flow
import Sulfur.Semantic.Binding

/-!
# Returns

The paths of control through the operations of an accepted function end in returns:
those of a function with a value because all of its branches return, those of any other
function because it returns behind its body.
-/

namespace Sulfur

theorem ValueType.Widens.ne_void {source target : ValueType}
    (widens : source.Widens target) : target ≠ .void := by
  have group := widens.1
  cases source <;> cases target <;> simp_all [isSameGroup, isSigned, isUnsigned]

theorem ValueType.Widens.isScalar {source target : ValueType}
    (widens : source.Widens target) : source.IsScalar := by
  have group := widens.1
  cases source <;> cases target <;>
    simp_all [isSameGroup, isSigned, isUnsigned, IsScalar, isInteger]

end Sulfur

namespace Sulfur.Ir

open Jump Structured

/-! ## Branches that return -/

theorem returns_treeOfAll {statements : List Stmt}
    (each : ∀ stmt ∈ statements, ∀ nextTemp program, stmtAlwaysReturns stmt →
      (treeOf stmt nextTemp program).returns)
    (returns : stmtAlwaysReturns.anyAlwaysReturns statements) (nextTemp : Nat)
    (program : IrProgram) : (treeOfAll statements nextTemp program).returns := by
  induction statements generalizing nextTemp program with
  | nil => cases returns
  | cons stmt rest inductionHypothesis =>
      rw [List.forall_mem_cons] at each
      simp only [stmtAlwaysReturns.anyAlwaysReturns, Bool.or_eq_true] at returns
      rw [treeOfAll, Tree.returns, Bool.or_eq_true]
      rcases returns with first | others
      · exact Or.inl (each.1 nextTemp program first)
      · exact Or.inr (inductionHypothesis each.2 others _ _)

/-- The check of the analyser is the one on the structured program. -/
theorem returns_treeOf (stmt : Stmt) (nextTemp : Nat) (program : IrProgram)
    (returns : stmtAlwaysReturns stmt) : (treeOf stmt nextTemp program).returns := by
  induction stmt using Stmt.induction generalizing nextTemp program with
  | block base statements statementsHypothesis =>
      exact returns_treeOfAll
        (fun stmt inBlock nextTemp program => statementsHypothesis stmt inBlock nextTemp program)
        returns nextTemp program
  | ifStmt base condition branchThen branchElse thenHypothesis elseHypothesis =>
      cases branchElse with
      | none => cases returns
      | some stmt =>
          simp only [stmtAlwaysReturns, Bool.and_eq_true] at returns
          simp only [treeOf, Tree.returns, Bool.and_eq_true]
          constructor
          · exact thenHypothesis _ _ returns.1
          · exact elseHypothesis stmt rfl _ _ returns.2
  | returnStmt base value => cases value <;> rfl
  | varDecl | varAssign | whileStmt | funcDecl | expression => cases returns

/-! ## The operands of returns -/

theorem Operation.instr_of_ret {operation : Operation} (isRet : operation.opcode = .ret) :
    operation.instr = .ret operation.operand1 := by
  rcases operation with ⟨opcode, operand1, operand2, operand3⟩
  dsimp only at isRet
  rw [isRet]
  rfl

theorem Operation.opcode_of_instr {operation : Operation} {value : Operand}
    (isRet : operation.instr = .ret value) : operation.opcode = .ret := by
  unfold Operation.instr at isRet
  split at isRet <;> first | assumption | cases isRet

theorem Straight.opcode_ne_ret {operations : List Operation} (straight : Straight operations)
    {operation : Operation} (inCode : operation ∈ operations) : operation.opcode ≠ .ret := by
  intro isRet
  have isOp := straight operation inCode
  rw [Operation.instr_of_ret isRet] at isOp
  cases isOp

/-- What a return statement returns. -/
def returnedOperand (value : Option Expr) (nextTemp : Nat) : Operand :=
  match value with
  | none => .none
  | some value => (generateExpression value nextTemp).result

/-- Only a return statement returns. -/
theorem returnStmt_of_ownOperations {part : Stmt} {nextTemp label : Nat}
    {operation : Operation} (isOwn : operation ∈ ownOperations part nextTemp label)
    (isRet : operation.opcode = .ret) :
    ∃ base value, part = .returnStmt base value ∧
      operation.operand1 = returnedOperand value nextTemp := by
  have straight (value : Expr) := straight_generateExpressionInto value none nextTemp
  cases part with
  | varDecl decl =>
      exact absurd isRet ((straight_generateVarDecl decl nextTemp).opcode_ne_ret isOwn)
  | varAssign assign =>
      exact absurd isRet
        ((straight_generateAssignment _ assign.value nextTemp).opcode_ne_ret isOwn)
  | ifStmt base condition branchThen branchElse =>
      rcases List.mem_append.mp isOwn with inCondition | isJump
      · exact absurd isRet ((straight condition).opcode_ne_ret inCondition)
      · rw [List.mem_singleton.mp isJump] at isRet
        cases isRet
  | whileStmt base condition branchDo =>
      rcases List.mem_append.mp isOwn with inCondition | isJump
      · exact absurd isRet ((straight condition).opcode_ne_ret inCondition)
      · rw [List.mem_singleton.mp isJump] at isRet
        cases isRet
  | returnStmt base value =>
      refine ⟨base, value, rfl, ?_⟩
      cases value with
      | none => rw [List.mem_singleton.mp isOwn, returnedOperand]
      | some value =>
          rcases List.mem_append.mp isOwn with inValue | isReturn
          · exact absurd isRet ((straight value).opcode_ne_ret inValue)
          · rw [List.mem_singleton.mp isReturn, returnedOperand]
  | expression expr => exact absurd isRet ((straight expr).opcode_ne_ret isOwn)
  | block | funcDecl => cases isOwn

/-- A typed return has an operand where the function has a value. -/
theorem operand_iff_of_typed {func : FuncDecl} {base : Base} {value : Option Expr}
    (typed : (Stmt.returnStmt base value).Typed (some func)) (nextTemp : Nat) :
    returnedOperand value nextTemp = .none ↔ func.returnType = .void := by
  rcases typed with ⟨current, same, returns⟩
  cases same
  cases value with
  | none => exact iff_of_true rfl returns
  | some value =>
      rcases returns with ⟨-, widens⟩
      apply iff_of_false _ widens.ne_void
      intro nothing
      have notVoid : value.isVoidCall = false := by
        have scalar := widens.isScalar.ne_void
        cases value <;> simp_all [Expr.isVoidCall, Expr.resolved, Expr.base]
      have type := (generateExpression_result notVoid nextTemp).1
      rw [returnedOperand] at nothing
      rw [nothing] at type
      exact widens.isScalar.ne_unresolved type.symm

/-! ## Functions -/

/-- The operations of a function as instructions. -/
def IrFunction.instrs (function : IrFunction) : List (Instr Operation Operand Operand Nat) :=
  function.operations.map Operation.instr

/-- Every path of control through a function stays inside of its operations until it
ends in a return, of a value exactly when the function has one. -/
structure NeverFallsOff (function : IrFunction) : Prop where
  inside : ∀ pc, Path function.instrs 0 pc → pc < function.operations.length
  targets : ∀ operation ∈ function.operations, ∀ label,
    operation.instr.jumpsTo = some label → (target function.instrs label).isSome
  ends : ∀ pc, Path function.instrs 0 pc → (∀ next, ¬Flows function.instrs pc next) →
    ∃ operation, function.operations[pc]? = some operation ∧ operation.opcode = .ret
  value : ∀ operation ∈ function.operations, operation.opcode = .ret →
    (operation.operand1 = .none ↔ function.returnType = .void)
  runs : ∀ (World : Type) (calls : Calls World) (n pc : Nat) (state later : State World),
    iterate (irStep calls function.operations) n (.running 0 state) =
        some (.running pc later) →
      pc < function.operations.length

/-- Control that stays inside of closed code ends in returns. -/
theorem NeverFallsOff.of_confines {function : IrFunction} {positions : Set Nat}
    (nodup : (labelsOf function.instrs).Nodup) (closed : ClosedJumps function.instrs)
    (start : 0 ∈ positions) (subset : positions ⊆ Set.Ico 0 function.operations.length)
    (confines : Confines function.instrs positions)
    (value : ∀ operation ∈ function.operations, operation.opcode = .ret →
      (operation.operand1 = .none ↔ function.returnType = .void)) :
    NeverFallsOff function := by
  have inside : ∀ pc, Path function.instrs 0 pc → pc < function.operations.length :=
    fun pc path => (subset (confines.path start path)).2
  have targets : ∀ operation ∈ function.operations, ∀ label,
      operation.instr.jumpsTo = some label → (target function.instrs label).isSome := by
    intro operation inCode label jumps
    have declared := closed _ (List.mem_map_of_mem inCode) label jumps
    rcases At.self.target_mem nodup declared with ⟨dest, found, -⟩
    rw [found]
    rfl
  constructor
  · exact inside
  · exact targets
  · intro pc path stops
    have bound := inside pc path
    have here : function.operations[pc]? = some function.operations[pc] :=
      List.getElem?_eq_getElem bound
    refine ⟨_, here, ?_⟩
    have found : function.instrs[pc]? = some function.operations[pc].instr := by
      rw [IrFunction.instrs, List.getElem?_map, here]
      rfl
    cases isInstr : function.operations[pc].instr with
    | ret value => exact Operation.opcode_of_instr isInstr
    | jump name =>
        have isTarget := targets _ (List.getElem_mem bound) name (by rw [isInstr]; rfl)
        rcases Option.isSome_iff_exists.mp isTarget with ⟨dest, isDest⟩
        exact absurd (.jump found (by rw [isInstr]; rfl) isDest) (stops dest)
    | op | label | jumpUnless =>
        exact absurd (.next found (by rw [isInstr]; rfl)) (stops (pc + 1))
  · exact value
  · exact fun World calls n pc state later run => inside pc (.of_run run)

/-- A function that ends in a return does not fall off its end. -/
theorem NeverFallsOff.of_last {function : IrFunction} {front : List Operation}
    {operation : Operation} (last : function.operations = front ++ [operation])
    (isRet : operation.opcode = .ret) (nodup : (labelsOf function.instrs).Nodup)
    (closed : ClosedJumps function.instrs)
    (value : ∀ operation ∈ function.operations, operation.opcode = .ret →
      (operation.operand1 = .none ↔ function.returnType = .void)) :
    NeverFallsOff function := by
  have instrs : function.instrs =
      front.map Operation.instr ++ [.ret operation.operand1] := by
    rw [IrFunction.instrs, last, List.map_append, List.map_singleton,
      Operation.instr_of_ret isRet]
  have here : At function.instrs 0
      (front.map Operation.instr ++ [.ret operation.operand1]) := by
    rw [← instrs]
    exact At.self
  have frontClosed : ClosedJumps (front.map Operation.instr) := by
    rw [instrs] at closed
    simpa [ClosedJumps, Instr.jumpsTo] using closed
  apply NeverFallsOff.of_confines nodup closed _ _ (confines_of_ret nodup here frontClosed)
    value
  · simp
  · simp [last]

theorem endsWithReturn_eq_append {operations : List Operation}
    (ends : endsWithReturn operations) :
    ∃ front operation, operations = front ++ [operation] ∧ operation.opcode = .ret := by
  unfold endsWithReturn at ends
  split at ends
  · rename_i operation last
    rcases List.getLast?_eq_some_iff.mp last with ⟨front, same⟩
    exact ⟨front, operation, same, by simpa using ends⟩
  · cases ends

/-- The returns of a typed body fit its function. -/
theorem operand1_iff_of_body {func : FuncDecl} {body : Stmt}
    (typed : body.Typed (some func)) (program : IrProgram) :
    ∀ operation ∈ (generateStatement body 0 program).operations, operation.opcode = .ret →
      (operation.operand1 = .none ↔ func.returnType = .void) := by
  intro operation inCode isRet
  rcases fromParts_generateStatement body 0 program operation inCode with
    ⟨label, rfl | rfl⟩ | ⟨part, isPart, nextTemp, label, isOwn⟩
  · cases isRet
  · cases isRet
  · rcases returnStmt_of_ownOperations isOwn isRet with ⟨base, value, rfl, same⟩
    rw [same]
    exact operand_iff_of_typed (typed.parts _ isPart) nextTemp

/-- A typed function never falls off its end. -/
theorem neverFallsOff_of_typed {func : FuncDecl} {body : Stmt}
    (typed : (Stmt.funcDecl func (some body)).Typed none) (program : IrProgram) :
    NeverFallsOff (loweredFunction func (some (generateStatement body 0 program))) := by
  rcases typed with ⟨-, bodyTyped, returns⟩
  have value := operand1_iff_of_body bodyTyped program
  have nodup := nodup_statementLabels body 0 program
  have closed := (treeOf body 0 program).closedJumps
  rw [lower_treeOf] at nodup closed
  by_cases void : func.returnType = .void
  · by_cases ends : endsWithReturn (generateStatement body 0 program).operations
    · have operations : (loweredFunction func
          (some (generateStatement body 0 program))).operations =
            (generateStatement body 0 program).operations :=
        if_neg fun both => by simp [ends] at both
      rcases endsWithReturn_eq_append ends with ⟨front, operation, last, isRet⟩
      rw [← operations] at last nodup closed value
      exact .of_last last isRet nodup closed value
    · have operations : (loweredFunction func
          (some (generateStatement body 0 program))).operations =
            (generateStatement body 0 program).operations ++ [{ opcode := .ret }] :=
        if_pos ⟨void, by simp [ends]⟩
      have instrs : (loweredFunction func
          (some (generateStatement body 0 program))).instrs =
            (generateStatement body 0 program).operations.map Operation.instr ++
              [.ret .none] := by
        rw [IrFunction.instrs, operations, List.map_append]
        rfl
      apply NeverFallsOff.of_last operations rfl
      · rw [instrs]
        simpa using nodup
      · rw [instrs]
        simpa [ClosedJumps, Instr.jumpsTo] using closed
      · rw [operations, List.forall_mem_append, List.forall_mem_singleton]
        exact ⟨value, fun _ => iff_of_true rfl void⟩
  · have operations : (loweredFunction func (some (generateStatement body 0 program))).operations
        = (generateStatement body 0 program).operations :=
      if_neg fun both => void both.1
    rcases (treeOf body 0 program).exists_confines (by rwa [lower_treeOf])
      (returns_treeOf body 0 program (returns body rfl void)) At.self with
      ⟨positions, start, subset, confines⟩
    rw [lower_treeOf] at subset confines
    rw [Nat.zero_add, List.length_map, ← operations] at subset
    rw [← operations] at confines nodup closed value
    exact .of_confines nodup closed start subset confines value

theorem node_analyzeFuncDecl (s : Semantic) (func : FuncDecl) (body : Stmt)
    (analyzeBody : Semantic → StmtAnalysis) :
    ∃ node bodyNode, (analyzeFuncDecl s func (some body) (some analyzeBody)).node =
      .funcDecl node (some bodyNode) := by
  unfold analyzeFuncDecl
  dsimp only
  split
  · exact ⟨_, _, rfl⟩
  · split <;> exact ⟨_, _, rfl⟩

/-- A function that the analyser passes without an error never falls off its end,
wherever it stands, and neither does any function of an analysed program. -/
theorem neverFallsOff_of_clean :
    (∀ (s : Semantic) (func : FuncDecl) (body : Stmt), s.WellFormed →
      (Stmt.funcDecl func (some body)).Grammatical →
      Log.hadErrors (analyzeStatement (.funcDecl func (some body)) s).log = false →
        ∃ node bodyNode,
          (analyzeStatement (.funcDecl func (some body)) s).node =
              .funcDecl node (some bodyNode) ∧
            ∀ program, NeverFallsOff
              (loweredFunction node (some (generateStatement bodyNode 0 program)))) ∧
      ∀ (program : Program) (filename : String) (options : CompilerOptions)
        (modules : List Module) (analysis : ProgramAnalysis),
        Analyzed program filename options modules analysis →
          List.Forall₂
            (fun declaration function => declaration.2.isSome → NeverFallsOff function)
            analysis.program.declarations
            (irGenerate analysis.program).program.functions := by
  constructor
  · intro s func body wellFormed grammatical clean
    rcases node_analyzeFuncDecl s func body (fun s => analyzeStatement body s) with
      ⟨node, bodyNode, isNode⟩
    have typed := (analyzeStatement_sound grammatical s.currentFunc s wellFormed rfl).typed clean
    refine ⟨node, bodyNode, by simpa only [analyzeStatement] using isNode, ?_⟩
    simp only [analyzeStatement] at typed
    rw [isNode] at typed
    exact neverFallsOff_of_typed typed
  · intro program filename options modules analysis isAnalyzed
    have lowers := (List.forall₂_and_left _ _).mpr
      ⟨fun declaration isDeclared => isDeclared, irGenerate_lowers analysis.program⟩
    apply lowers.imp
    rintro ⟨func, body⟩ function ⟨isDeclared, start, rfl⟩ hasBody
    cases body with
    | none => cases hasBody
    | some body =>
        have inFunctions := (analysis.program.mem_functions_iff func body).mpr isDeclared
        have typed := Stmt.Typed.functions (.block {} analysis.program.statements)
          isAnalyzed.typed (func, body) inFunctions
        exact neverFallsOff_of_typed typed start

/-- A function that returns in both of its branches. -/
def chooseFunction : FuncDecl :=
  { name := "choose", parameters := [], returnType := .i32 }

/-- Its body. -/
def chooseBody : Stmt :=
  .block {} [.ifStmt {} (.literal {} .kwTrue "true")
    (.block {} [.returnStmt {} (some (.literal {} .integer "1"))])
    (some (.block {} [.returnStmt {} (some (.literal {} .integer "2"))]))]

theorem neverFallsOff_of_clean_choose :
    (∃ node bodyNode,
      (analyzeStatement (.funcDecl chooseFunction (some chooseBody))
          (topLevelState "main.slfr" none {})).node = .funcDecl node (some bodyNode) ∧
        ∀ program, NeverFallsOff
          (loweredFunction node (some (generateStatement bodyNode 0 program)))) ∧
      List.Forall₂
        (fun declaration function => declaration.2.isSome → NeverFallsOff function)
        shadowedAnalysis.program.declarations
        (irGenerate shadowedAnalysis.program).program.functions := by
  have wellFormed : (topLevelState "main.slfr" none {}).WellFormed :=
    ⟨by simp [Scope.WellFormed, topLevelState, Scope.push],
      by simp [topLevelState, FuncSymbolTable.Known]⟩
  constructor
  · apply neverFallsOff_of_clean.1 _ _ _ wellFormed
    · simp [Stmt.Grammatical, Stmt.GrammaticalOption, Stmt.GrammaticalAll, Stmt.isBlock,
        Expr.Grammatical, chooseFunction, chooseBody]
    · decide
  · exact neverFallsOff_of_clean.2 _ _ _ _ _ analyzed_shadowed

end Sulfur.Ir
