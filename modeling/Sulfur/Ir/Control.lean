import Sulfur.Ir.Semantics
import Sulfur.Library.Structured

/-!
# Control flow

The operations of a function are a flat program with jumps, and a statement with
the code of its conditions and elementary statements is a structured program.
The code of every statement runs as its structured execution does.
-/

namespace Sulfur.Ir

open Jump Structured

/-- An operation as an instruction of the jump machine. -/
def Operation.instr (operation : Operation) :
    Instr Operation Operand Operand Nat :=
  match operation.opcode, operation.operand1 with
  | .label, .label id => .label id
  | .jmpIncond, .label id => .jump id
  | .jmpCond, .label id => .jumpUnless id operation.operand2
  | .ret, value => .ret value
  | _, _ => .op operation

variable {World : Type}

/-- What the instructions mean: a condition holds when it is not zero, and a
return without an operand has no value. -/
def meaning (calls : Calls World) :
    Meaning Operation Operand Operand (State World) (Option Int) where
  exec operation state := operation.exec calls state
  test condition state := (condition.read state.store).map (· ≠ 0)
  result value state :=
    if value = .none then some none else (value.read state.store).map some

/-- Running operations, from one to the next or to a label. -/
def irStep (calls : Calls World) (operations : List Operation) :
    Config (State World) (Option Int) →
      Option (Config (State World) (Option Int)) :=
  step (meaning calls) (operations.map Operation.instr)

/-! ## Statements as structured programs -/

mutual

/-- The structured program of a statement: its own branches and loops around the
code of its conditions and elementary statements. -/
def treeOf : Stmt → Nat → IrProgram → Tree Operation Operand Operand Nat
  | .block _ statements, nextTemp, program =>
      treeOfAll statements nextTemp program
  | .ifStmt _ condition branchThen branchElse, nextTemp, program =>
      let cond := generateExpression condition nextTemp
      match branchElse with
      | none =>
          .ifThen cond.operations cond.result program.nextLabel
            (treeOf branchThen cond.nextTemp (program.skipLabels 1))
      | some branchElse =>
          let thenCode :=
            generateStatement branchThen cond.nextTemp (program.skipLabels 2)
          .ifThenElse cond.operations cond.result program.nextLabel
            (program.nextLabel + 1)
            (treeOf branchThen cond.nextTemp (program.skipLabels 2))
            (treeOf branchElse thenCode.nextTemp thenCode.program)
  | .whileStmt _ condition branchDo, nextTemp, program =>
      let cond := generateExpression condition nextTemp
      .loop cond.operations cond.result program.nextLabel (program.nextLabel + 1)
        (treeOf branchDo cond.nextTemp (program.skipLabels 2))
  | .returnStmt _ none, _, _ => .ret [] .none
  | .returnStmt _ (some value), nextTemp, _ =>
      let code := generateExpression value nextTemp
      .ret code.operations code.result
  | .varDecl decl, nextTemp, _ => .straight (generateVarDecl decl nextTemp).1
  | .varAssign assign, nextTemp, _ =>
      .straight (generateVarAssign assign nextTemp).1
  | .expression expr, nextTemp, _ =>
      .straight (generateExpression expr nextTemp).operations
  | .funcDecl _ _, _, _ => .straight []

/-- The code of the statements of a block, one after the other. -/
def treeOfAll : List Stmt → Nat → IrProgram → Tree Operation Operand Operand Nat
  | [], _, _ => .straight []
  | stmt :: rest, nextTemp, program =>
      let first := generateStatement stmt nextTemp program
      .seq (treeOf stmt nextTemp program)
        (treeOfAll rest first.nextTemp first.program)

end

/-! ## Straight code -/

/-- No operation of the list is a label, a jump or a return. -/
def Straight (operations : List Operation) : Prop :=
  ∀ operation ∈ operations, operation.instr = .op operation

@[simp]
theorem straight_nil : Straight [] := by
  simp [Straight]

@[simp]
theorem straight_append (first second : List Operation) :
    Straight (first ++ second) ↔ Straight first ∧ Straight second :=
  List.forall_mem_append

@[simp]
theorem straight_cons (operation : Operation) (rest : List Operation) :
    Straight (operation :: rest) ↔
      operation.instr = .op operation ∧ Straight rest :=
  List.forall_mem_cons

theorem Straight.map_instr {operations : List Operation}
    (straight : Straight operations) :
    operations.map Operation.instr = operations.map .op :=
  List.map_congr_left straight

theorem straight_paramOperations (arguments : List Operand) :
    Straight (paramOperations arguments) := by
  intro operation inParams
  obtain ⟨argument, -, rfl⟩ := List.mem_map.mp inParams
  rfl

theorem straight_generateIncrement {base : Base} {op : UnaryOp} {code : ExprCode}
    (straight : Straight code.operations) :
    Straight (generateIncrement base op code).operations := by
  unfold generateIncrement
  dsimp only
  split <;> simp [straight, Operation.instr]

theorem straight_generateArguments {arguments : List Expr}
    (each : ∀ argument ∈ arguments, ∀ start,
      Straight (generateExpressionInto argument none start).operations)
    (nextTemp : Nat) :
    Straight (generateArguments arguments nextTemp).operations := by
  induction arguments generalizing nextTemp with
  | nil => simp [generateArguments]
  | cons argument rest inductionHypothesis =>
      rw [List.forall_mem_cons] at each
      simp only [generateArguments, straight_append]
      exact ⟨each.1 nextTemp, inductionHypothesis each.2 _⟩

/-- The code of an expression does not jump. -/
theorem straight_generateExpressionInto (value : Expr) (hint : Option Operand)
    (nextTemp : Nat) :
    Straight (generateExpressionInto value hint nextTemp).operations := by
  induction value using Expr.induction generalizing hint nextTemp with
  | binary base op left right leftHypothesis rightHypothesis =>
      simp [generateExpressionInto, generateBinary, leftHypothesis, rightHypothesis,
        Operation.instr]
  | unary base op operand operandHypothesis =>
      simp only [generateExpressionInto, generateUnary]
      split
      · exact straight_generateIncrement (operandHypothesis none nextTemp)
      · simp only [straight_append, operandHypothesis, straight_cons, straight_nil,
          and_true, true_and]
        cases op <;> rfl
  | cast base target operand operandHypothesis =>
      simp [generateExpressionInto, generateCast, operandHypothesis, Operation.instr]
  | literal base tokenType text => simp [generateExpressionInto]
  | identifier base name depth id symbol => simp [generateExpressionInto]
  | funcCall base callee linkName arguments argumentsHypothesis =>
      have straight := straight_generateArguments
        (fun argument inArguments => argumentsHypothesis argument inArguments none)
        nextTemp
      simp [generateExpressionInto, generateCall, straight, straight_paramOperations,
        Operation.instr]

theorem straight_generateAssignment (dst : Operand) (value : Expr)
    (nextTemp : Nat) : Straight (generateAssignment dst value nextTemp).1 := by
  have straight := straight_generateExpressionInto value (some dst) nextTemp
  unfold generateAssignment
  dsimp only
  split <;> simp [straight, Operation.instr]

theorem straight_generateVarDecl (decl : VarDecl) (nextTemp : Nat) :
    Straight (generateVarDecl decl nextTemp).1 := by
  unfold generateVarDecl
  split
  · exact straight_nil
  · exact straight_generateAssignment _ _ _

/-! ## The code of a statement is the lowering of its structured program -/

theorem lower_treeOfAll {statements : List Stmt}
    (each : ∀ stmt ∈ statements, ∀ start before,
      (treeOf stmt start before).lower =
        (generateStatement stmt start before).operations.map Operation.instr)
    (nextTemp : Nat) (program : IrProgram) :
    (treeOfAll statements nextTemp program).lower =
      (generateBlock statements nextTemp program).operations.map
        Operation.instr := by
  induction statements generalizing nextTemp program with
  | nil => simp [treeOfAll, generateBlock, Tree.lower]
  | cons stmt rest inductionHypothesis =>
      rw [List.forall_mem_cons] at each
      simp only [treeOfAll, generateBlock, Tree.lower, each.1,
        inductionHypothesis each.2, List.map_append]

theorem lower_treeOf (stmt : Stmt) (nextTemp : Nat) (program : IrProgram) :
    (treeOf stmt nextTemp program).lower =
      (generateStatement stmt nextTemp program).operations.map
        Operation.instr := by
  have straight (value : Expr) (start : Nat) :=
    (straight_generateExpressionInto value none start).map_instr
  induction stmt using Stmt.induction generalizing nextTemp program with
  | varDecl decl =>
      simp [treeOf, generateStatement, Tree.lower,
        (straight_generateVarDecl decl nextTemp).map_instr]
  | varAssign assign =>
      simp [treeOf, generateStatement, Tree.lower, generateVarAssign,
        (straight_generateAssignment _ assign.value nextTemp).map_instr]
  | block base statements statementsHypothesis =>
      simpa [treeOf, generateStatement] using
        lower_treeOfAll statementsHypothesis nextTemp program
  | ifStmt base condition branchThen branchElse thenHypothesis elseHypothesis =>
      cases branchElse with
      | none =>
          simp [treeOf, generateStatement, Tree.lower, thenHypothesis, straight,
            generateExpression, jmpCond, labelOperation, Operation.instr]
      | some stmt =>
          have elseLower := elseHypothesis stmt rfl
          simp [treeOf, generateStatement, Tree.lower, thenHypothesis, elseLower,
            straight, generateExpression, jmpCond, jmpIncond, labelOperation,
            Operation.instr]
  | whileStmt base condition branchDo doHypothesis =>
      simp [treeOf, generateStatement, Tree.lower, doHypothesis, straight,
        generateExpression, jmpCond, jmpIncond, labelOperation, Operation.instr]
  | funcDecl func body =>
      cases body <;> simp [treeOf, generateStatement, Tree.lower]
  | returnStmt base value =>
      cases value with
      | none => simp [treeOf, generateStatement, generateReturn, Tree.lower,
          Operation.instr]
      | some result =>
          simp [treeOf, generateStatement, generateReturn, Tree.lower, straight,
            generateExpression, Operation.instr]
  | expression expr =>
      simp [treeOf, generateStatement, Tree.lower, straight, generateExpression]

/-! ## Labels -/

/-- The labels of a piece of code are taken from the counter, each once. -/
structure LabelsFresh (labels : List Nat) (first next : Nat) : Prop where
  le : first ≤ next
  within : ∀ label ∈ labels, first ≤ label ∧ label < next
  nodup : labels.Nodup

namespace LabelsFresh

variable {labels others : List Nat} {first middle next : Nat}

theorem nil (le : first ≤ next) : LabelsFresh [] first next :=
  ⟨le, by simp, List.nodup_nil⟩

theorem append (earlier : LabelsFresh labels first middle)
    (later : LabelsFresh others middle next) :
    LabelsFresh (labels ++ others) first next := by
  refine ⟨earlier.le.trans later.le, fun label inBoth => ?_, ?_⟩
  · have := earlier.le
    have := later.le
    rcases List.mem_append.mp inBoth with inFirst | inSecond
    · have := earlier.within label inFirst
      omega
    · have := later.within label inSecond
      omega
  · refine List.nodup_append.mpr ⟨earlier.nodup, later.nodup, ?_⟩
    intro label inFirst other inSecond same
    have := earlier.within label inFirst
    have := later.within other inSecond
    omega

/-- One more label below those of the code. -/
theorem extend (fresh : LabelsFresh labels (first + 1) next)
    {extended : List Nat} (permutation : extended.Perm (first :: labels)) :
    LabelsFresh extended first next := by
  have le := fresh.le
  refine ⟨by omega, fun label inExtended => ?_, ?_⟩
  · rcases List.mem_cons.mp (permutation.mem_iff.mp inExtended) with rfl | old
    · omega
    · have := fresh.within label old
      omega
  · refine permutation.nodup_iff.mpr (List.nodup_cons.mpr ⟨fun own => ?_, fresh.nodup⟩)
    have := fresh.within first own
    omega

end LabelsFresh

/-- The labels in the code of a statement. -/
def statementLabels (stmt : Stmt) (nextTemp : Nat) (program : IrProgram) :
    List Nat :=
  labelsOf (treeOf stmt nextTemp program).lower

/-- Lowering a statement takes fresh labels. -/
def TakesFreshLabels (stmt : Stmt) : Prop :=
  ∀ nextTemp program, LabelsFresh (statementLabels stmt nextTemp program)
    program.nextLabel (generateStatement stmt nextTemp program).program.nextLabel

@[simp]
theorem nextLabel_skipLabels (program : IrProgram) (count : Nat) :
    (program.skipLabels count).nextLabel = program.nextLabel + count := rfl

@[simp]
theorem nextLabel_finishFunction (func : FuncDecl) (code : StmtCode)
    (program : IrProgram) :
    (finishFunction func (some code) program).nextLabel =
      code.program.nextLabel := rfl

theorem blockLabels {statements : List Stmt}
    (each : ∀ stmt ∈ statements, TakesFreshLabels stmt) (nextTemp : Nat)
    (program : IrProgram) :
    LabelsFresh (labelsOf (treeOfAll statements nextTemp program).lower)
      program.nextLabel
      (generateBlock statements nextTemp program).program.nextLabel := by
  induction statements generalizing nextTemp program with
  | nil => exact .nil le_rfl
  | cons stmt rest inductionHypothesis =>
      rw [List.forall_mem_cons] at each
      simp only [treeOfAll, Tree.lower, labelsOf_append, generateBlock]
      exact (each.1 nextTemp program).append (inductionHypothesis each.2 _ _)

theorem takesFreshLabels (stmt : Stmt) : TakesFreshLabels stmt := by
  induction stmt using Stmt.induction with
  | varDecl decl | varAssign assign | expression expr =>
      intro nextTemp program
      simpa [statementLabels, treeOf, Tree.lower, generateStatement]
        using LabelsFresh.nil le_rfl
  | returnStmt base value =>
      intro nextTemp program
      cases value <;>
        simpa [statementLabels, treeOf, Tree.lower, generateStatement]
          using LabelsFresh.nil le_rfl
  | funcDecl func body bodyHypothesis =>
      intro nextTemp program
      cases body with
      | none =>
          simpa [statementLabels, treeOf, Tree.lower, generateStatement,
            finishFunction] using LabelsFresh.nil le_rfl
      | some body =>
          have le := (bodyHypothesis body rfl 0 program).le
          simpa [statementLabels, treeOf, Tree.lower, generateStatement]
            using LabelsFresh.nil le
  | block base statements statementsHypothesis =>
      intro nextTemp program
      simpa [statementLabels, treeOf, generateStatement]
        using blockLabels statementsHypothesis nextTemp program
  | ifStmt base condition branchThen branchElse thenHypothesis elseHypothesis =>
      intro nextTemp program
      cases branchElse with
      | none =>
          have thenFresh := thenHypothesis
            (generateExpression condition nextTemp).nextTemp (program.skipLabels 1)
          refine thenFresh.extend ?_
          simp [statementLabels, treeOf, Tree.lower]
      | some stmt =>
          have thenFresh := thenHypothesis
            (generateExpression condition nextTemp).nextTemp (program.skipLabels 2)
          have both := thenFresh.append (elseHypothesis stmt rfl
            (generateStatement branchThen
              (generateExpression condition nextTemp).nextTemp
              (program.skipLabels 2)).nextTemp _)
          -- the end label stands after both branches, the else label between them
          have withEnd : LabelsFresh _ (program.nextLabel + 1) _ :=
            LabelsFresh.extend both (List.Perm.refl _)
          refine withEnd.extend ?_
          simp only [statementLabels, treeOf, Tree.lower, labelsOf_append,
            labelsOf_map_op, labelsOf_cons_jumpUnless, labelsOf_cons_jump,
            labelsOf_cons_label, labelsOf_nil, List.nil_append]
          grind
  | whileStmt base condition branchDo doHypothesis =>
      intro nextTemp program
      have doFresh := doHypothesis
        (generateExpression condition nextTemp).nextTemp (program.skipLabels 2)
      have withEnd : LabelsFresh _ (program.nextLabel + 1) _ :=
        LabelsFresh.extend doFresh (List.Perm.refl _)
      refine withEnd.extend ?_
      simp only [statementLabels, treeOf, Tree.lower, labelsOf_append,
        labelsOf_map_op, labelsOf_cons_jumpUnless, labelsOf_cons_jump,
        labelsOf_cons_label, labelsOf_nil]
      grind

theorem nodup_statementLabels (stmt : Stmt) (nextTemp : Nat)
    (program : IrProgram) :
    (labelsOf (treeOf stmt nextTemp program).lower).Nodup :=
  (takesFreshLabels stmt nextTemp program).nodup

/-- The code of a statement runs to its end, returns or diverges exactly when
the structured execution of the statement ends normally, returns or does not
end. -/
theorem generateStatement_simulates (calls : Calls World) (stmt : Stmt)
    (nextTemp : Nat) (program : IrProgram) (state : State World) :
    let operations := (generateStatement stmt nextTemp program).operations
    let tree := treeOf stmt nextTemp program
    (∀ final, Reaches (irStep calls operations) (.running 0 state)
        (.running operations.length final) ↔
      ∃ fuel, tree.exec (meaning calls) fuel state = some (.normal final)) ∧
    (∀ result final, Reaches (irStep calls operations) (.running 0 state)
        (.returned result final) ↔
      ∃ fuel, tree.exec (meaning calls) fuel state =
        some (.returned result final)) ∧
    (Diverges (irStep calls operations) (.running 0 state) ↔
      ∀ fuel, tree.exec (meaning calls) fuel state = none) := by
  intro operations tree
  have nodup := nodup_statementLabels stmt nextTemp program
  have lower := lower_treeOf stmt nextTemp program
  have length : operations.length =
      (treeOf stmt nextTemp program).lower.length := by
    rw [lower, List.length_map]
  unfold irStep
  rw [length, ← lower]
  exact ⟨fun final => reaches_finish_iff nodup state final,
    fun result final => reaches_returned_iff nodup state final result,
    diverges_iff nodup state⟩

end Sulfur.Ir
