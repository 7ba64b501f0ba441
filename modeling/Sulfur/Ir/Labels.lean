import Sulfur.Ir.Control

/-!
# Jump targets

The labels of a program come from one counter.  A statement takes its labels before the
code that defines them is generated, and the code of a nested function goes to a list of
its own in between, so that each list has gaps in its labels but shares none of them.
-/

namespace Sulfur.Ir

/-- The label that an operation defines. -/
def Operation.definedLabel (operation : Operation) : Option Nat :=
  match operation.opcode, operation.operand1 with
  | .label, .label id => some id
  | _, _ => none

/-- The label that an operation jumps to. -/
def Operation.jumpTarget (operation : Operation) : Option Nat :=
  match operation.opcode, operation.operand1 with
  | .jmpCond, .label id => some id
  | .jmpIncond, .label id => some id
  | _, _ => none

/-- The labels that a list of operations marks. -/
def definedLabels (operations : List Operation) : List Nat :=
  operations.filterMap Operation.definedLabel

/-- The labels that a list of operations jumps to. -/
def jumpTargets (operations : List Operation) : List Nat :=
  operations.filterMap Operation.jumpTarget

/-- The labels that the functions of a program define. -/
def programLabels (functions : List IrFunction) : List Nat :=
  functions.flatMap fun function => definedLabels function.operations

@[simp]
theorem definedLabels_nil : definedLabels [] = [] := rfl

@[simp]
theorem jumpTargets_nil : jumpTargets [] = [] := rfl

@[simp]
theorem definedLabels_append (first second : List Operation) :
    definedLabels (first ++ second) = definedLabels first ++ definedLabels second :=
  List.filterMap_append

@[simp]
theorem jumpTargets_append (first second : List Operation) :
    jumpTargets (first ++ second) = jumpTargets first ++ jumpTargets second :=
  List.filterMap_append

@[simp]
theorem definedLabels_labelOperation (label : Nat) (rest : List Operation) :
    definedLabels (labelOperation label :: rest) = label :: definedLabels rest := rfl

@[simp]
theorem jumpTargets_labelOperation (label : Nat) (rest : List Operation) :
    jumpTargets (labelOperation label :: rest) = jumpTargets rest := rfl

@[simp]
theorem definedLabels_jmpCond (label : Nat) (condition : Operand) (rest : List Operation) :
    definedLabels (jmpCond label condition :: rest) = definedLabels rest := rfl

@[simp]
theorem jumpTargets_jmpCond (label : Nat) (condition : Operand) (rest : List Operation) :
    jumpTargets (jmpCond label condition :: rest) = label :: jumpTargets rest := rfl

@[simp]
theorem definedLabels_jmpIncond (label : Nat) (rest : List Operation) :
    definedLabels (jmpIncond label :: rest) = definedLabels rest := rfl

@[simp]
theorem jumpTargets_jmpIncond (label : Nat) (rest : List Operation) :
    jumpTargets (jmpIncond label :: rest) = label :: jumpTargets rest := rfl

@[simp]
theorem programLabels_append (first second : List IrFunction) :
    programLabels (first ++ second) = programLabels first ++ programLabels second :=
  List.flatMap_append

/-- Straight code neither defines a label nor jumps. -/
theorem Straight.noLabels {operations : List Operation} (straight : Straight operations) :
    definedLabels operations = [] ∧ jumpTargets operations = [] := by
  have each : ∀ operation ∈ operations,
      operation.definedLabel = none ∧ operation.jumpTarget = none := by
    intro operation listed
    have instr := straight operation listed
    unfold Operation.instr at instr
    unfold Operation.definedLabel Operation.jumpTarget
    rcases operation with ⟨opcode, operand1, operand2, operand3⟩
    cases opcode <;> cases operand1 <;> simp_all
  constructor
  · exact List.filterMap_eq_nil_iff.mpr fun operation listed => (each operation listed).1
  · exact List.filterMap_eq_nil_iff.mpr fun operation listed => (each operation listed).2

/-- Every jump has its label in the same code. -/
def JumpsInside (operations : List Operation) : Prop :=
  jumpTargets operations ⊆ definedLabels operations

theorem JumpsInside.append {first second : List Operation} (inFirst : JumpsInside first)
    (inSecond : JumpsInside second) : JumpsInside (first ++ second) := by
  unfold JumpsInside
  rw [jumpTargets_append, definedLabels_append]
  exact List.append_subset.mpr
    ⟨List.subset_append_of_subset_left _ inFirst, List.subset_append_of_subset_right _ inSecond⟩

theorem LabelsFresh.perm {labels others : List Nat} {first next : Nat}
    (fresh : LabelsFresh labels first next) (permutation : others.Perm labels) :
    LabelsFresh others first next := by
  constructor
  · exact fresh.le
  · exact fun label listed => fresh.within label (permutation.mem_iff.mp listed)
  · exact permutation.nodup_iff.mpr fresh.nodup

/-- What generating code has done to a program: the functions that it has added and the
code itself define fresh labels, and every jump is inside its code. -/
structure Labelled (program : IrProgram) (code : StmtCode) (added : List IrFunction) :
    Prop where
  functions : code.program.functions = program.functions ++ added
  fresh : LabelsFresh (definedLabels code.operations ++ programLabels added)
    program.nextLabel code.program.nextLabel
  jumps : JumpsInside code.operations
  addedJumps : ∀ function ∈ added, JumpsInside function.operations

/-- The code of a statement labels its jumps. -/
def LabelsJumps (stmt : Stmt) : Prop :=
  ∀ nextTemp program, ∃ added, Labelled program (generateStatement stmt nextTemp program) added

/-- Code without labels and jumps. -/
theorem Labelled.plain {program : IrProgram} {operations : List Operation} (nextTemp : Nat)
    (plain : definedLabels operations = [] ∧ jumpTargets operations = []) :
    Labelled program ⟨operations, nextTemp, program⟩ [] := by
  constructor
  · exact (List.append_nil _).symm
  · dsimp only
    rw [plain.1]
    exact .nil le_rfl
  · unfold JumpsInside
    dsimp only
    rw [plain.2]
    exact List.nil_subset _
  · exact nofun

theorem labelled_generateBlock {statements : List Stmt}
    (each : ∀ stmt ∈ statements, LabelsJumps stmt) (nextTemp : Nat) (program : IrProgram) :
    ∃ added, Labelled program (generateBlock statements nextTemp program) added := by
  induction statements generalizing nextTemp program with
  | nil => exact ⟨[], Labelled.plain nextTemp ⟨rfl, rfl⟩⟩
  | cons stmt rest inductionHypothesis =>
      rw [List.forall_mem_cons] at each
      rcases each.1 nextTemp program with ⟨added, first⟩
      rcases inductionHypothesis each.2 (generateStatement stmt nextTemp program).nextTemp
        (generateStatement stmt nextTemp program).program with ⟨more, others⟩
      refine ⟨added ++ more, ?_⟩
      constructor
      · simp only [generateBlock, others.functions, first.functions, List.append_assoc]
      · simp only [generateBlock, definedLabels_append, programLabels_append]
        apply (first.fresh.append others.fresh).perm
        grind
      · exact first.jumps.append others.jumps
      · exact List.forall_mem_append.mpr ⟨first.addedJumps, others.addedJumps⟩

/-- The `RETURN` at the end of a function is no label and no jump. -/
theorem finishFunction_labels (func : FuncDecl) (code : StmtCode) (program : IrProgram) :
    ∃ function : IrFunction,
      (finishFunction func (some code) program).functions =
          code.program.functions ++ [function] ∧
        definedLabels function.operations = definedLabels code.operations ∧
          jumpTargets function.operations = jumpTargets code.operations := by
  refine ⟨_, rfl, ?_⟩
  dsimp only
  split
  · constructor
    · rw [definedLabels_append]
      exact List.append_nil _
    · rw [jumpTargets_append]
      exact List.append_nil _
  · exact ⟨rfl, rfl⟩

theorem labelled_funcDecl (func : FuncDecl) {body : Stmt} (bodyLabels : LabelsJumps body)
    (nextTemp : Nat) (program : IrProgram) :
    ∃ added, Labelled program (generateStatement (.funcDecl func (some body)) nextTemp program)
      added := by
  rcases bodyLabels 0 program with ⟨added, inner⟩
  rcases finishFunction_labels func (generateStatement body 0 program) program with
    ⟨function, functions, defined, targets⟩
  refine ⟨added ++ [function], ?_⟩
  constructor
  · rw [← List.append_assoc, ← inner.functions]
    exact functions
  · -- The code of the body has become a function of its own.
    apply inner.fresh.perm
    simp only [generateStatement, definedLabels_nil, List.nil_append, programLabels_append]
    have own : programLabels [function] =
        definedLabels (generateStatement body 0 program).operations := by
      rw [← defined]
      exact List.append_nil _
    rw [own]
    exact List.perm_append_comm
  · exact List.nil_subset _
  · rw [List.forall_mem_append]
    constructor
    · exact inner.addedJumps
    · rw [List.forall_mem_singleton, JumpsInside, targets, defined]
      exact inner.jumps

theorem labelsJumps (stmt : Stmt) : LabelsJumps stmt := by
  induction stmt using Stmt.induction with
  | varDecl decl =>
      intro nextTemp program
      exact ⟨[], Labelled.plain _ (straight_generateVarDecl decl nextTemp).noLabels⟩
  | varAssign assign =>
      intro nextTemp program
      exact ⟨[], Labelled.plain _ (straight_generateAssignment _ assign.value nextTemp).noLabels⟩
  | expression expr =>
      intro nextTemp program
      exact ⟨[], Labelled.plain _ (straight_generateExpressionInto expr none nextTemp).noLabels⟩
  | returnStmt base value =>
      intro nextTemp program
      cases value with
      | none => exact ⟨[], Labelled.plain _ ⟨rfl, rfl⟩⟩
      | some result =>
          have plain := (straight_generateExpressionInto result none nextTemp).noLabels
          refine ⟨[], Labelled.plain _ ⟨?_, ?_⟩⟩
          · change definedLabels (_ ++ [_]) = []
            rw [definedLabels_append]
            exact List.append_eq_nil_iff.mpr ⟨plain.1, rfl⟩
          · change jumpTargets (_ ++ [_]) = []
            rw [jumpTargets_append]
            exact List.append_eq_nil_iff.mpr ⟨plain.2, rfl⟩
  | funcDecl func body bodyHypothesis =>
      intro nextTemp program
      cases body with
      | none =>
          refine ⟨_, rfl, .nil le_rfl, List.nil_subset _, ?_⟩
          rw [List.forall_mem_singleton]
          exact List.nil_subset _
      | some body => exact labelled_funcDecl func (bodyHypothesis body rfl) nextTemp program
  | block base statements statementsHypothesis =>
      exact fun nextTemp program => labelled_generateBlock statementsHypothesis nextTemp program
  | ifStmt base condition branchThen branchElse thenHypothesis elseHypothesis =>
      intro nextTemp program
      have plain := (straight_generateExpressionInto condition none nextTemp).noLabels
      cases branchElse with
      | none =>
          rcases thenHypothesis (generateExpression condition nextTemp).nextTemp
            (program.skipLabels 1) with ⟨added, thenCode⟩
          refine ⟨added, thenCode.functions, ?_, ?_, thenCode.addedJumps⟩
          · apply thenCode.fresh.extend
            simp only [generateStatement, generateExpression, definedLabels_append, plain.1,
              definedLabels_jmpCond, definedLabels_labelOperation, definedLabels_nil,
              List.nil_append]
            grind
          · have jumps := thenCode.jumps
            simp only [JumpsInside, generateStatement, generateExpression, definedLabels_append,
              jumpTargets_append, plain.1, plain.2, definedLabels_jmpCond, jumpTargets_jmpCond,
              definedLabels_labelOperation, jumpTargets_labelOperation, definedLabels_nil,
              jumpTargets_nil, List.nil_append, List.append_nil] at jumps ⊢
            grind
      | some stmt =>
          rcases thenHypothesis (generateExpression condition nextTemp).nextTemp
            (program.skipLabels 2) with ⟨added, thenCode⟩
          rcases elseHypothesis stmt rfl
            (generateStatement branchThen (generateExpression condition nextTemp).nextTemp
              (program.skipLabels 2)).nextTemp
            (generateStatement branchThen (generateExpression condition nextTemp).nextTemp
              (program.skipLabels 2)).program with ⟨more, elseCode⟩
          refine ⟨added ++ more, ?_, ?_, ?_, ?_⟩
          · rw [← List.append_assoc, ← show _ = program.functions ++ added from thenCode.functions]
            exact elseCode.functions
          · have withEnd : LabelsFresh _ (program.nextLabel + 1) _ :=
              LabelsFresh.extend (thenCode.fresh.append elseCode.fresh) (List.Perm.refl _)
            apply withEnd.extend
            simp only [generateStatement, generateExpression, definedLabels_append, plain.1,
              definedLabels_jmpCond, definedLabels_jmpIncond, definedLabels_labelOperation,
              definedLabels_nil, List.nil_append, programLabels_append]
            grind
          · have jumps := thenCode.jumps
            have elseJumps := elseCode.jumps
            simp only [JumpsInside, generateStatement, generateExpression, definedLabels_append,
              jumpTargets_append, plain.1, plain.2, definedLabels_jmpCond, jumpTargets_jmpCond,
              definedLabels_jmpIncond, jumpTargets_jmpIncond,
              definedLabels_labelOperation, jumpTargets_labelOperation, definedLabels_nil,
              jumpTargets_nil, List.nil_append, List.append_nil] at jumps elseJumps ⊢
            grind
          · rw [List.forall_mem_append]
            exact ⟨thenCode.addedJumps, elseCode.addedJumps⟩
  | whileStmt base condition branchDo doHypothesis =>
      intro nextTemp program
      have plain := (straight_generateExpressionInto condition none nextTemp).noLabels
      rcases doHypothesis (generateExpression condition nextTemp).nextTemp
        (program.skipLabels 2) with ⟨added, doCode⟩
      refine ⟨added, doCode.functions, ?_, ?_, doCode.addedJumps⟩
      · have withEnd : LabelsFresh _ (program.nextLabel + 1) _ :=
          LabelsFresh.extend doCode.fresh (List.Perm.refl _)
        apply withEnd.extend
        simp only [generateStatement, generateExpression, definedLabels_append, plain.1,
          definedLabels_jmpCond, definedLabels_jmpIncond, definedLabels_labelOperation,
          definedLabels_nil]
        grind
      · have jumps := doCode.jumps
        simp only [JumpsInside, generateStatement, generateExpression, definedLabels_append,
          jumpTargets_append, plain.1, plain.2, definedLabels_jmpCond, jumpTargets_jmpCond,
          definedLabels_jmpIncond, jumpTargets_jmpIncond,
          definedLabels_labelOperation, jumpTargets_labelOperation, definedLabels_nil,
          jumpTargets_nil, List.nil_append, List.append_nil] at jumps ⊢
        grind

/-- No label is defined twice in a program, and every jump of a function goes to a label
that this function defines, and no other one. -/
theorem jumpTargets_irGenerate (program : Program) :
    (programLabels (irGenerate program).program.functions).Nodup ∧
      ∀ function ∈ (irGenerate program).program.functions,
        ∀ label ∈ jumpTargets function.operations,
          (definedLabels function.operations).count label = 1 ∧
            (programLabels (irGenerate program).program.functions).count label = 1 := by
  have each : ∀ stmt ∈ program.statements, LabelsJumps stmt := fun stmt _ => labelsJumps stmt
  rcases labelled_generateBlock each 0 {} with ⟨added, labelled⟩
  have functions : (irGenerate program).program.functions = added := labelled.functions
  rw [functions]
  have nodup : (programLabels added).Nodup := (List.nodup_append.mp labelled.fresh.nodup).2.1
  refine ⟨nodup, fun function isFunction label isTarget => ?_⟩
  have defined := labelled.addedJumps function isFunction isTarget
  have ownNodup : (definedLabels function.operations).Nodup :=
    (List.nodup_flatMap.mp nodup).1 function isFunction
  constructor
  · exact List.count_eq_one_of_mem ownNodup defined
  · exact List.count_eq_one_of_mem nodup (List.mem_flatMap.mpr ⟨function, isFunction, defined⟩)

end Sulfur.Ir
