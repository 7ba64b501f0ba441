import Sulfur.Ir.Generate

/-!
# Generated functions

Each function declaration of a program, wherever it stands, becomes one function
of the generated program, and a function follows the functions that its body
declares.
-/

namespace Sulfur

namespace Stmt

mutual

/-- The function declarations in a statement, in the order in which they are
lowered. -/
def declarations : Stmt → List (FuncDecl × Option Stmt)
  | block _ statements => declarationsAll statements
  | ifStmt _ _ branchThen branchElse =>
      branchThen.declarations ++ declarationsOption branchElse
  | whileStmt _ _ branchDo => branchDo.declarations
  | funcDecl func body => declarationsOption body ++ [(func, body)]
  | _ => []

/-- The same for a branch or a body that may be missing. -/
def declarationsOption : Option Stmt → List (FuncDecl × Option Stmt)
  | none => []
  | some stmt => stmt.declarations

/-- The same for the statements of a block. -/
def declarationsAll : List Stmt → List (FuncDecl × Option Stmt)
  | [] => []
  | stmt :: rest => stmt.declarations ++ declarationsAll rest

end

theorem declarationsAll_toList (branch : Option Stmt) :
    declarationsAll branch.toList = declarationsOption branch := by
  cases branch <;> simp [declarationsAll, declarationsOption]

end Stmt

/-- The function declarations of a program, in the order in which they are lowered. -/
def Program.declarations (program : Program) : List (FuncDecl × Option Stmt) :=
  Stmt.declarationsAll program.statements

end Sulfur

namespace Sulfur.Ir

/-- The function that `generate_function` pushes. -/
def loweredFunction (func : FuncDecl) (code : Option StmtCode) : IrFunction :=
  { name := func.linkName.getD func.name
    parameters := generateParameters func.parameters
    returnType := func.returnType
    operations :=
      match code with
      | none => []
      | some code =>
          if func.returnType = .void ∧ !endsWithReturn code.operations then
            code.operations ++ [{ opcode := .ret }]
          else
            code.operations
    nextTemp := (code.map StmtCode.nextTemp).getD 0
    qualifiers := func.qualifiers
    defined := code.isSome }

/-- The function is the lowering of the declaration, from some program on. -/
def Lowers (declaration : FuncDecl × Option Stmt) (function : IrFunction) : Prop :=
  ∃ program, function = loweredFunction declaration.1
    (declaration.2.map fun body => generateStatement body 0 program)

/-- The second program has the lowered declarations besides the functions of the
first one. -/
def AddsFunctions (declarations : List (FuncDecl × Option Stmt))
    (before after : IrProgram) : Prop :=
  ∃ new, after.functions = before.functions ++ new ∧
    List.Forall₂ Lowers declarations new

namespace AddsFunctions

theorem none (program : IrProgram) : AddsFunctions [] program program :=
  ⟨[], by simp, .nil⟩

theorem append {first second : List (FuncDecl × Option Stmt)}
    {before between after : IrProgram} (adds : AddsFunctions first before between)
    (others : AddsFunctions second between after) :
    AddsFunctions (first ++ second) before after := by
  obtain ⟨new, functions, lowers⟩ := adds
  obtain ⟨more, moreFunctions, moreLower⟩ := others
  exact ⟨new ++ more, by rw [moreFunctions, functions, List.append_assoc],
    List.rel_append lowers moreLower⟩

end AddsFunctions

theorem generateBlock_adds {statements : List Stmt}
    (each : ∀ stmt ∈ statements, ∀ nextTemp program, AddsFunctions stmt.declarations program
      (generateStatement stmt nextTemp program).program) (nextTemp : Nat)
    (program : IrProgram) :
    AddsFunctions (Stmt.declarationsAll statements) program
      (generateBlock statements nextTemp program).program := by
  induction statements generalizing nextTemp program with
  | nil => exact .none program
  | cons stmt rest inductionHypothesis =>
      rw [List.forall_mem_cons] at each
      exact (each.1 nextTemp program).append (inductionHypothesis each.2 _ _)

/-- A statement adds the functions that it declares. -/
theorem generateStatement_adds (stmt : Stmt) (nextTemp : Nat) (program : IrProgram) :
    AddsFunctions stmt.declarations program
      (generateStatement stmt nextTemp program).program := by
  induction stmt using Stmt.induction generalizing nextTemp program with
  | block base statements statementsHypothesis =>
      exact generateBlock_adds statementsHypothesis nextTemp program
  | ifStmt base condition branchThen branchElse thenHypothesis elseHypothesis =>
      cases branchElse with
      | none =>
          have thenAdds := thenHypothesis (generateExpression condition nextTemp).nextTemp
            (program.skipLabels 1)
          exact thenAdds.append (.none _)
      | some stmt =>
          have thenAdds := thenHypothesis (generateExpression condition nextTemp).nextTemp
            (program.skipLabels 2)
          exact thenAdds.append (elseHypothesis stmt rfl _ _)
  | whileStmt base condition branchDo doHypothesis =>
      exact doHypothesis (generateExpression condition nextTemp).nextTemp
        (program.skipLabels 2)
  | funcDecl func body bodyHypothesis =>
      cases body with
      | none => exact ⟨[loweredFunction func none], rfl, .cons ⟨program, rfl⟩ .nil⟩
      | some body =>
          have bodyAdds := bodyHypothesis body rfl 0 program
          exact bodyAdds.append
            ⟨[loweredFunction func (some (generateStatement body 0 program))], rfl,
              .cons ⟨program, rfl⟩ .nil⟩
  | varDecl | varAssign | returnStmt | expression => exact .none program

/-- The generated functions are the lowered declarations in their order. -/
theorem irGenerate_lowers (program : Program) :
    List.Forall₂ Lowers program.declarations (irGenerate program).program.functions := by
  obtain ⟨new, functions, lowers⟩ := generateBlock_adds
    (fun stmt (_ : stmt ∈ program.statements) => generateStatement_adds stmt) 0 {}
  rw [functions_irGenerate, functions]
  exact lowers

end Sulfur.Ir
