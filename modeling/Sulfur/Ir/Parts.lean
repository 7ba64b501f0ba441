import Sulfur.Ir.Function
import Sulfur.Semantic.Acceptance

/-!
# The code of the parts of a function

The operations of a function are those of its statements one by one, the jumps
and the labels around them, and perhaps a last return.
-/

namespace Sulfur

namespace Stmt

/-- The functions with a body are the declarations that have one. -/
theorem mem_functions_iff (stmt : Stmt) (func : FuncDecl) (body : Stmt) :
    (func, body) ∈ stmt.functions ↔ (func, some body) ∈ stmt.declarations := by
  induction stmt using Stmt.induction with
  | block base statements statementsHypothesis =>
      simp only [functions, declarations, mem_functionsAll]
      constructor
      · rintro ⟨stmt, inBlock, inStmt⟩
        induction statements with
        | nil => cases inBlock
        | cons first rest inductionHypothesis =>
            rw [List.forall_mem_cons] at statementsHypothesis
            rw [declarationsAll, List.mem_append]
            rcases List.mem_cons.mp inBlock with rfl | inRest
            · exact Or.inl (statementsHypothesis.1.mp inStmt)
            · exact Or.inr (inductionHypothesis statementsHypothesis.2 inRest)
      · intro declared
        induction statements with
        | nil => cases declared
        | cons first rest inductionHypothesis =>
            rw [List.forall_mem_cons] at statementsHypothesis
            rw [declarationsAll, List.mem_append] at declared
            rcases declared with inFirst | inRest
            · exact ⟨first, List.mem_cons_self .., statementsHypothesis.1.mpr inFirst⟩
            · rcases inductionHypothesis statementsHypothesis.2 inRest with
                ⟨stmt, inBlock, inStmt⟩
              exact ⟨stmt, List.mem_cons_of_mem _ inBlock, inStmt⟩
  | ifStmt base condition branchThen branchElse thenHypothesis elseHypothesis =>
      cases branchElse with
      | none =>
          simp [functions, functionsOption, declarations, declarationsOption, thenHypothesis]
      | some stmt =>
          simp [functions, functionsOption, declarations, declarationsOption, thenHypothesis,
            elseHypothesis stmt rfl]
  | whileStmt base condition branchDo doHypothesis => exact doHypothesis
  | funcDecl declared body bodyHypothesis =>
      cases body with
      | none => simp [functions, functionsOption, bodyOf, declarations, declarationsOption]
      | some stmt =>
          simp [functions, functionsOption, bodyOf, declarations, declarationsOption,
            bodyHypothesis stmt rfl, or_comm]
  | varDecl | varAssign | returnStmt | expression => simp [functions, declarations]

end Stmt

theorem Program.mem_functions_iff (program : Program) (func : FuncDecl) (body : Stmt) :
    (func, body) ∈ program.functions ↔ (func, some body) ∈ program.declarations :=
  Stmt.mem_functions_iff (.block {} program.statements) func body

end Sulfur

namespace Sulfur.Ir

/-- The code of a statement itself, without the statements inside it.  A condition
ends in a jump to the label. -/
def ownOperations : Stmt → Nat → Nat → List Operation
  | .varDecl decl, nextTemp, _ => (generateVarDecl decl nextTemp).1
  | .varAssign assign, nextTemp, _ => (generateVarAssign assign nextTemp).1
  | .ifStmt _ condition _ _, nextTemp, label
  | .whileStmt _ condition _, nextTemp, label =>
      (generateExpression condition nextTemp).operations ++
        [jmpCond label (generateExpression condition nextTemp).result]
  | .returnStmt _ value, nextTemp, _ => (generateReturn value nextTemp).1
  | .expression expr, nextTemp, _ => (generateExpression expr nextTemp).operations
  | .block .., _, _ => []
  | .funcDecl .., _, _ => []

/-- The jumps and labels that stand between the parts. -/
def Operation.IsGlue (operation : Operation) : Prop :=
  ∃ label, operation = jmpIncond label ∨ operation = labelOperation label

/-- An operation is one of the parts, or it stands between them. -/
def FromParts (parts : List Stmt) (operation : Operation) : Prop :=
  operation.IsGlue ∨
    ∃ part ∈ parts, ∃ nextTemp label, operation ∈ ownOperations part nextTemp label

/-! ## The owners of operations -/

/-- Operations with the statement that they belong to. -/
def tag (owner : Option Stmt) (operations : List Operation) :
    List (Option Stmt × Operation) :=
  operations.map fun operation => (owner, operation)

@[simp]
theorem map_snd_tag (owner : Option Stmt) (operations : List Operation) :
    (tag owner operations).map Prod.snd = operations := by
  simp [tag, Function.comp_def]

mutual

/-- The operations of a statement, each with the part that it belongs to; the jumps
and labels between the parts belong to none. -/
def tagged : Stmt → Nat → IrProgram → List (Option Stmt × Operation)
  | .block _ statements, nextTemp, program => taggedAll statements nextTemp program
  | .ifStmt base condition branchThen branchElse, nextTemp, program =>
      let cond := generateExpression condition nextTemp
      let own := ownOperations (.ifStmt base condition branchThen branchElse) nextTemp
        program.nextLabel
      let owner := Stmt.ifStmt base condition branchThen branchElse
      match branchElse with
      | none =>
          tag (some owner) own ++
            tagged branchThen cond.nextTemp (program.skipLabels 1) ++
            tag none [labelOperation program.nextLabel]
      | some branchElse =>
          let thenCode :=
            generateStatement branchThen cond.nextTemp (program.skipLabels 2)
          tag (some owner) own ++
            tagged branchThen cond.nextTemp (program.skipLabels 2) ++
            tag none
              [jmpIncond (program.nextLabel + 1), labelOperation program.nextLabel] ++
            tagged branchElse thenCode.nextTemp thenCode.program ++
            tag none [labelOperation (program.nextLabel + 1)]
  | .whileStmt base condition branchDo, nextTemp, program =>
      let cond := generateExpression condition nextTemp
      tag none [labelOperation program.nextLabel] ++
        tag (some (.whileStmt base condition branchDo))
          (ownOperations (.whileStmt base condition branchDo) nextTemp
            (program.nextLabel + 1)) ++
        tagged branchDo cond.nextTemp (program.skipLabels 2) ++
        tag none [jmpIncond program.nextLabel, labelOperation (program.nextLabel + 1)]
  | .funcDecl .., _, _ => []
  | .varDecl decl, nextTemp, _ =>
      tag (some (.varDecl decl)) (ownOperations (.varDecl decl) nextTemp 0)
  | .varAssign assign, nextTemp, _ =>
      tag (some (.varAssign assign)) (ownOperations (.varAssign assign) nextTemp 0)
  | .returnStmt base value, nextTemp, _ =>
      tag (some (.returnStmt base value)) (ownOperations (.returnStmt base value) nextTemp 0)
  | .expression expr, nextTemp, _ =>
      tag (some (.expression expr)) (ownOperations (.expression expr) nextTemp 0)

/-- The operations of the statements of a block, each with its statement. -/
def taggedAll : List Stmt → Nat → IrProgram → List (Option Stmt × Operation)
  | [], _, _ => []
  | stmt :: rest, nextTemp, program =>
      let first := generateStatement stmt nextTemp program
      tagged stmt nextTemp program ++ taggedAll rest first.nextTemp first.program

end

theorem map_snd_taggedAll {statements : List Stmt}
    (each : ∀ stmt ∈ statements, ∀ nextTemp program,
      (tagged stmt nextTemp program).map Prod.snd =
        (generateStatement stmt nextTemp program).operations)
    (nextTemp : Nat) (program : IrProgram) :
    (taggedAll statements nextTemp program).map Prod.snd =
      (generateBlock statements nextTemp program).operations := by
  induction statements generalizing nextTemp program with
  | nil => rfl
  | cons stmt rest inductionHypothesis =>
      rw [List.forall_mem_cons] at each
      simp [taggedAll, generateBlock, each.1, inductionHypothesis each.2]

/-- The tagged operations are those of the statement. -/
theorem map_snd_tagged (stmt : Stmt) (nextTemp : Nat) (program : IrProgram) :
    (tagged stmt nextTemp program).map Prod.snd =
      (generateStatement stmt nextTemp program).operations := by
  induction stmt using Stmt.induction generalizing nextTemp program with
  | block base statements statementsHypothesis =>
      exact map_snd_taggedAll statementsHypothesis nextTemp program
  | ifStmt base condition branchThen branchElse thenHypothesis elseHypothesis =>
      cases branchElse with
      | none => simp [tagged, generateStatement, ownOperations, thenHypothesis]
      | some stmt =>
          simp [tagged, generateStatement, ownOperations, thenHypothesis,
            elseHypothesis stmt rfl]
  | whileStmt base condition branchDo doHypothesis =>
      simp [tagged, generateStatement, ownOperations, doHypothesis]
  | funcDecl func body => cases body <;> simp [tagged, generateStatement]
  | varDecl decl => simp [tagged, generateStatement, ownOperations]
  | varAssign assign => simp [tagged, generateStatement, ownOperations]
  | returnStmt base value => simp [tagged, generateStatement, ownOperations]
  | expression expr => simp [tagged, generateStatement, ownOperations]

/-- The operation belongs to its owner, or it stands between the parts. -/
def OwnedBy (parts : List Stmt) (entry : Option Stmt × Operation) : Prop :=
  match entry.1 with
  | none => entry.2.IsGlue
  | some part => part ∈ parts ∧ ∃ nextTemp label, entry.2 ∈ ownOperations part nextTemp label

namespace OwnedBy

variable {parts more : List Stmt} {entry : Option Stmt × Operation}

theorem of_subset (subset : parts ⊆ more) (owned : OwnedBy parts entry) :
    OwnedBy more entry := by
  rcases entry with ⟨owner, operation⟩
  cases owner with
  | none => exact owned
  | some part => exact ⟨subset owned.1, owned.2⟩

theorem own {part : Stmt} (inParts : part ∈ parts) (nextTemp label : Nat) :
    ∀ entry ∈ tag (some part) (ownOperations part nextTemp label), OwnedBy parts entry := by
  intro entry isOwn
  rcases List.mem_map.mp isOwn with ⟨operation, isOperation, rfl⟩
  exact ⟨inParts, nextTemp, label, isOperation⟩

theorem glue {operations : List Operation}
    (isGlue : ∀ operation ∈ operations, operation.IsGlue) :
    ∀ entry ∈ tag none operations, OwnedBy parts entry := by
  intro entry isEntry
  rcases List.mem_map.mp isEntry with ⟨operation, isOperation, rfl⟩
  exact isGlue operation isOperation

end OwnedBy

theorem ownedBy_taggedAll {statements : List Stmt}
    (each : ∀ stmt ∈ statements, ∀ nextTemp program,
      ∀ entry ∈ tagged stmt nextTemp program, OwnedBy stmt.parts entry)
    (nextTemp : Nat) (program : IrProgram) :
    ∀ entry ∈ taggedAll statements nextTemp program,
      OwnedBy (Stmt.partsAll statements) entry := by
  induction statements generalizing nextTemp program with
  | nil => simp [taggedAll]
  | cons stmt rest inductionHypothesis =>
      rw [List.forall_mem_cons] at each
      rw [taggedAll, List.forall_mem_append]
      constructor
      · exact fun entry inFirst =>
          (each.1 _ _ entry inFirst).of_subset (List.subset_append_left ..)
      · exact fun entry inRest =>
          (inductionHypothesis each.2 _ _ entry inRest).of_subset
            (List.subset_append_right ..)

/-- Every operation of a statement belongs to one of its parts, or it stands between
them. -/
theorem ownedBy_tagged (stmt : Stmt) (nextTemp : Nat) (program : IrProgram) :
    ∀ entry ∈ tagged stmt nextTemp program, OwnedBy stmt.parts entry := by
  have jump (label : Nat) : (jmpIncond label).IsGlue := ⟨label, Or.inl rfl⟩
  have mark (label : Nat) : (labelOperation label).IsGlue := ⟨label, Or.inr rfl⟩
  induction stmt using Stmt.induction generalizing nextTemp program with
  | block base statements statementsHypothesis =>
      intro entry inBlock
      exact (ownedBy_taggedAll statementsHypothesis nextTemp program entry
        inBlock).of_subset (List.subset_cons_self ..)
  | ifStmt base condition branchThen branchElse thenHypothesis elseHypothesis =>
      have ofCondition := OwnedBy.own
        (List.mem_cons_self : Stmt.ifStmt base condition branchThen branchElse ∈
          (Stmt.ifStmt base condition branchThen branchElse).parts) nextTemp
          program.nextLabel
      have inThen (nextTemp : Nat) (program : IrProgram) :
          ∀ entry ∈ tagged branchThen nextTemp program,
            OwnedBy (Stmt.ifStmt base condition branchThen branchElse).parts entry :=
        fun entry inBranch => (thenHypothesis nextTemp program entry inBranch).of_subset
          (List.subset_cons_of_subset _ (List.subset_append_left ..))
      cases branchElse with
      | none =>
          rw [tagged]
          simp only [List.forall_mem_append]
          exact ⟨⟨ofCondition, inThen _ _⟩, OwnedBy.glue (by simp [mark])⟩
      | some stmt =>
          have inElse (nextTemp : Nat) (program : IrProgram) :
              ∀ entry ∈ tagged stmt nextTemp program,
                OwnedBy (Stmt.ifStmt base condition branchThen (some stmt)).parts entry :=
            fun entry inBranch =>
              (elseHypothesis stmt rfl nextTemp program entry inBranch).of_subset
                (List.subset_cons_of_subset _ (List.subset_append_right ..))
          rw [tagged]
          simp only [List.forall_mem_append]
          exact ⟨⟨⟨⟨ofCondition, inThen _ _⟩, OwnedBy.glue (by simp [jump, mark])⟩,
            inElse _ _⟩, OwnedBy.glue (by simp [mark])⟩
  | whileStmt base condition branchDo doHypothesis =>
      have ofCondition := OwnedBy.own
        (List.mem_cons_self : Stmt.whileStmt base condition branchDo ∈
          (Stmt.whileStmt base condition branchDo).parts) nextTemp (program.nextLabel + 1)
      have inDo (nextTemp : Nat) (program : IrProgram) :
          ∀ entry ∈ tagged branchDo nextTemp program,
            OwnedBy (Stmt.whileStmt base condition branchDo).parts entry :=
        fun entry inBranch => (doHypothesis nextTemp program entry inBranch).of_subset
          (List.subset_cons_self ..)
      rw [tagged]
      simp only [List.forall_mem_append]
      exact ⟨⟨⟨OwnedBy.glue (by simp [mark]), ofCondition⟩, inDo _ _⟩,
        OwnedBy.glue (by simp [jump, mark])⟩
  | funcDecl func body => simp [tagged]
  | varDecl decl => exact .own (List.mem_cons_self ..) nextTemp 0
  | varAssign assign => exact .own (List.mem_cons_self ..) nextTemp 0
  | returnStmt base value => exact .own (List.mem_cons_self ..) nextTemp 0
  | expression expr => exact .own (List.mem_cons_self ..) nextTemp 0

/-- Every operation of a statement comes from one of its parts. -/
theorem fromParts_generateStatement (stmt : Stmt) (nextTemp : Nat) (program : IrProgram) :
    ∀ operation ∈ (generateStatement stmt nextTemp program).operations,
      FromParts stmt.parts operation := by
  intro operation inCode
  rw [← map_snd_tagged] at inCode
  rcases List.mem_map.mp inCode with ⟨⟨owner, operation⟩, isEntry, rfl⟩
  have owned := ownedBy_tagged stmt nextTemp program _ isEntry
  cases owner with
  | none => exact Or.inl owned
  | some part => exact Or.inr ⟨part, owned.1, owned.2⟩

/-! ## Expressions inside the code -/

/-- The code of the expression stands in the code. -/
def Contains (operations : List Operation) (value : Expr) : Prop :=
  ∃ hint nextTemp, (generateExpressionInto value hint nextTemp).operations <:+: operations

theorem Contains.of_isInfix {operations more : List Operation} {value : Expr}
    (contains : Contains operations value) (isInfix : operations <:+: more) :
    Contains more value := by
  rcases contains with ⟨hint, nextTemp, inCode⟩
  exact ⟨hint, nextTemp, inCode.trans isInfix⟩

theorem contains_generateAssignment (dst : Operand) (value : Expr) (nextTemp : Nat) :
    Contains (generateAssignment dst value nextTemp).1 value := by
  refine ⟨some dst, nextTemp, ?_⟩
  unfold generateAssignment
  dsimp only
  split
  · exact List.infix_refl _
  · exact (List.prefix_append _ _).isInfix

theorem contains_generateBlock {statements : List Stmt}
    (each : ∀ stmt ∈ statements, ∀ nextTemp program, ∀ part ∈ stmt.parts,
      ∀ value ∈ part.expressions,
        Contains (generateStatement stmt nextTemp program).operations value)
    (nextTemp : Nat) (program : IrProgram) :
    ∀ part ∈ Stmt.partsAll statements, ∀ value ∈ part.expressions,
      Contains (generateBlock statements nextTemp program).operations value := by
  induction statements generalizing nextTemp program with
  | nil => simp [Stmt.partsAll]
  | cons stmt rest inductionHypothesis =>
      rw [List.forall_mem_cons] at each
      rw [Stmt.partsAll, List.forall_mem_append]
      constructor
      · intro part inFirst value inPart
        exact (each.1 nextTemp program part inFirst value inPart).of_isInfix
          (List.prefix_append _ _).isInfix
      · intro part inRest value inPart
        exact (inductionHypothesis each.2 _ _ part inRest value inPart).of_isInfix
          (List.suffix_append _ _).isInfix

/-- The code of every expression of a statement stands in the code of the statement. -/
theorem contains_generateStatement (stmt : Stmt) (nextTemp : Nat) (program : IrProgram) :
    ∀ part ∈ stmt.parts, ∀ value ∈ part.expressions,
      Contains (generateStatement stmt nextTemp program).operations value := by
  induction stmt using Stmt.induction generalizing nextTemp program with
  | varDecl decl =>
      simp only [Stmt.parts, List.forall_mem_singleton, Stmt.expressions, Option.mem_toList]
      intro value initialised
      rw [generateStatement, generateVarDecl, initialised]
      exact contains_generateAssignment _ value nextTemp
  | varAssign assign =>
      simp only [Stmt.parts, List.forall_mem_singleton, Stmt.expressions]
      exact contains_generateAssignment _ assign.value nextTemp
  | block base statements statementsHypothesis =>
      rw [Stmt.parts, List.forall_mem_cons]
      constructor
      · exact fun value inPart => absurd inPart (List.not_mem_nil)
      · exact contains_generateBlock statementsHypothesis nextTemp program
  | ifStmt base condition branchThen branchElse thenHypothesis elseHypothesis =>
      rw [Stmt.parts, List.forall_mem_cons, List.forall_mem_append]
      simp only [Stmt.expressions, List.forall_mem_singleton]
      cases branchElse with
      | none =>
          rw [generateStatement]
          refine ⟨⟨none, nextTemp, ?_⟩, fun part inThen value inPart => ?_, ?_⟩
          · simp only [List.append_assoc]
            exact (List.prefix_append _ _).isInfix
          · have contains := thenHypothesis (generateExpression condition nextTemp).nextTemp
              (program.skipLabels 1) part inThen value inPart
            exact contains.of_isInfix (List.infix_append _ _ _)
          · simp [Stmt.partsOption]
      | some stmt =>
          rw [generateStatement]
          refine ⟨⟨none, nextTemp, ?_⟩, fun part inThen value inPart => ?_,
            fun part inElse value inPart => ?_⟩
          · simp only [List.append_assoc]
            exact (List.prefix_append _ _).isInfix
          · have contains := thenHypothesis (generateExpression condition nextTemp).nextTemp
              (program.skipLabels 2) part inThen value inPart
            simp only [List.append_assoc]
            rw [← List.append_assoc, ← List.append_assoc]
            exact contains.of_isInfix (List.infix_append _ _ _)
          · have contains := elseHypothesis stmt rfl
              (generateStatement branchThen (generateExpression condition nextTemp).nextTemp
                (program.skipLabels 2)).nextTemp
              (generateStatement branchThen (generateExpression condition nextTemp).nextTemp
                (program.skipLabels 2)).program part inElse value inPart
            exact contains.of_isInfix (List.infix_append _ _ _)
  | whileStmt base condition branchDo doHypothesis =>
      rw [Stmt.parts, List.forall_mem_cons]
      simp only [Stmt.expressions, List.forall_mem_singleton]
      rw [generateStatement]
      refine ⟨⟨none, nextTemp, ?_⟩, fun part inDo value inPart => ?_⟩
      · simp only [List.append_assoc]
        rw [← List.append_assoc]
        exact List.infix_append _ _ _
      · have contains := doHypothesis (generateExpression condition nextTemp).nextTemp
          (program.skipLabels 2) part inDo value inPart
        exact contains.of_isInfix (List.infix_append _ _ _)
  | funcDecl func body =>
      simp [Stmt.parts, Stmt.expressions]
  | returnStmt base value =>
      simp only [Stmt.parts, List.forall_mem_singleton, Stmt.expressions, Option.mem_toList]
      rintro result rfl
      exact ⟨none, nextTemp, (List.prefix_append _ _).isInfix⟩
  | expression expr =>
      simp only [Stmt.parts, List.forall_mem_singleton, Stmt.expressions]
      exact ⟨none, nextTemp, List.infix_refl _⟩

end Sulfur.Ir
