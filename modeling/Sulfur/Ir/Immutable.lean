import Sulfur.Ir.Control
import Sulfur.Ir.Parts
import Sulfur.Semantic.Settled

/-!
# Immutable variables

An operation of an analysed program writes a variable that is declared `mut`, or
it belongs to the initialiser of the variable that it writes.  A run that stays
outside of the initialiser of an immutable variable therefore keeps its value.
-/

namespace Sulfur

namespace Expr

/-- The variable that an expression is. -/
def ownVariable : Expr → List (String × Nat)
  | identifier _ name _ id _ => [(name, id)]
  | _ => []

mutual

/-- The operands of the increments and decrements in an expression. -/
def increments : Expr → List (String × Nat)
  | binary _ _ left right => left.increments ++ right.increments
  | unary _ op operand =>
      (if op.isIncrementOrDecrement then operand.ownVariable else []) ++
        operand.increments
  | cast _ _ operand => operand.increments
  | literal .. => []
  | identifier .. => []
  | funcCall _ _ _ arguments => incrementsAll arguments

/-- The same for the arguments of a call. -/
def incrementsAll : List Expr → List (String × Nat)
  | [] => []
  | argument :: rest => argument.increments ++ incrementsAll rest

end

theorem mem_incrementsAll {use : String × Nat} (arguments : List Expr) :
    use ∈ incrementsAll arguments ↔ ∃ argument ∈ arguments, use ∈ argument.increments := by
  induction arguments with
  | nil => simp [incrementsAll]
  | cons argument rest inductionHypothesis => simp [incrementsAll, inductionHypothesis]

/-- Only variables that are declared mutable are incremented. -/
theorem Typed.increments {s : Semantic} {expr : Expr} (typed : expr.Typed s) :
    ∀ use ∈ expr.increments, ∃ symbol, s.scope.lookup use.1 = some symbol ∧
      use.2 = symbol.id ∧ symbol.qualifiers.isMutable := by
  intro use isIncrement
  induction expr using Expr.induction with
  | binary base op left right leftHypothesis rightHypothesis =>
      rcases List.mem_append.mp isIncrement with inLeft | inRight
      · exact leftHypothesis typed.1 inLeft
      · exact rightHypothesis typed.2.1 inRight
  | unary base op operand operandHypothesis =>
      rcases typed with ⟨operandTyped, -, isMutable⟩
      rw [Expr.increments, List.mem_append] at isIncrement
      rcases isIncrement with isOperand | inOperand
      · split at isOperand
        · rename_i increments
          have resolves := isMutable increments
          cases operand with
          | identifier header name depth id symbol =>
              rw [ownVariable, List.mem_singleton] at isOperand
              rcases operandTyped with ⟨found, lookup, -, -, -, sameId, sameSymbol⟩
              rw [sameSymbol] at resolves
              rw [isOperand]
              exact ⟨found, lookup, sameId, resolves⟩
          | _ => cases isOperand
        · cases isOperand
      · exact operandHypothesis operandTyped inOperand
  | cast base target operand operandHypothesis =>
      exact operandHypothesis typed.1 isIncrement
  | literal | identifier => cases isIncrement
  | funcCall base callee linkName arguments argumentsHypothesis =>
      rcases typed with ⟨func, -, -, -, argumentsTyped⟩
      rcases (mem_incrementsAll arguments).mp isIncrement with
        ⟨argument, inArguments, inArgument⟩
      exact argumentsHypothesis argument inArguments
        (argumentsTyped.typed argument inArguments) inArgument

end Expr

/-- The variables that a statement outside of its substatements writes, besides the one
that it declares. -/
def Stmt.overwrites (part : Stmt) : List (String × Nat) :=
  part.assigned ++ part.expressions.flatMap Expr.increments

/-- A checked statement overwrites variables only that are declared mutable. -/
theorem Stmt.CheckedBelow.overwrites {funcs : FuncSymbolTable} {binders : List Binder}
    {part : Stmt} (checked : part.CheckedBelow funcs binders) :
    ∀ use ∈ part.overwrites, ∃ binder ∈ binders, binder.isMutable ∧
      binder.mangled = mangleEntry use := by
  rcases checked with ⟨s, -, -, visible, typed, assigned⟩
  have ofLookup {use : String × Nat} (found : ∃ symbol, s.scope.lookup use.1 = some symbol ∧
      use.2 = symbol.id ∧ symbol.qualifiers.isMutable) :
      ∃ binder ∈ binders, binder.isMutable ∧ binder.mangled = mangleEntry use := by
    rcases found with ⟨symbol, lookup, id, isMutable⟩
    rcases Scope.mem_blocks_of_lookup lookup with ⟨inBlocks, name⟩
    refine ⟨symbol.binder, visible inBlocks, isMutable, ?_⟩
    rw [Binder.mangled, mangleEntry, name, id]
    rfl
  intro use isWritten
  rw [Stmt.overwrites, List.mem_append, List.mem_flatMap] at isWritten
  rcases isWritten with isAssigned | ⟨expr, isPart, isIncrement⟩
  · exact ofLookup (assigned use isAssigned)
  · exact ofLookup ((typed expr isPart).increments use isIncrement)

end Sulfur

namespace Sulfur.Ir

open Jump

/-! ## The variables that operations write -/

/-- The variable that is the destination of an operation.  The first operand of a
`PARAM` and of a `RETURN` is a source. -/
def Operation.target (operation : Operation) : Option String :=
  match operation.opcode, operation.operand1 with
  | .param, _ => none
  | .ret, _ => none
  | _, .variable _ name => some name
  | _, _ => none

/-- The name of the variable that an operand is. -/
def Operand.variableName : Operand → Option String
  | .variable _ name => some name
  | _ => Option.none

theorem Operation.variableName_of_target (operation : Operation) (name : String)
    (target : operation.target = some name) :
    operation.operand1.variableName = some name := by
  rcases operation with ⟨opcode, operand1, operand2, operand3⟩
  cases opcode <;> cases operand1 <;> first | exact target | cases target

theorem Operation.target_of_variableName {operation : Operation} {name : String}
    (isVariable : operation.operand1.variableName = some name)
    (notParam : operation.opcode ≠ .param) (notRet : operation.opcode ≠ .ret) :
    operation.target = some name := by
  rcases operation with ⟨opcode, operand1, operand2, operand3⟩
  cases operand1 with
  | «variable» type other =>
      cases opcode with
      | param => exact absurd rfl notParam
      | ret => exact absurd rfl notRet
      | _ => exact isVariable
  | _ => cases isVariable

theorem variableName_destination {hint : Option Operand} {type : ValueType} {nextTemp : Nat}
    {name : String} (isVariable : (destination hint type nextTemp).1.variableName = some name) :
    hint.bind Operand.variableName = some name := by
  cases hint with
  | none => cases isVariable
  | some hint => exact isVariable

/-- Code that writes variables from the list only, besides the one it may leave its
value in. -/
def WritesOnly (hint : Option Operand) (uses : List (String × Nat))
    (operations : List Operation) : Prop :=
  ∀ operation ∈ operations, ∀ name, operation.target = some name →
    hint.bind Operand.variableName = some name ∨ ∃ use ∈ uses, mangleEntry use = name

namespace WritesOnly

variable {hint : Option Operand} {uses more : List (String × Nat)}
  {first second : List Operation}

theorem nil : WritesOnly hint uses [] := by
  simp [WritesOnly]

theorem mono (writes : WritesOnly none uses first) (subset : uses ⊆ more) :
    WritesOnly hint more first := by
  intro operation inCode name target
  rcases writes operation inCode name target with none | ⟨use, isUse, same⟩
  · cases none
  · exact Or.inr ⟨use, subset isUse, same⟩

theorem append (firstWrites : WritesOnly hint uses first)
    (secondWrites : WritesOnly hint uses second) :
    WritesOnly hint uses (first ++ second) :=
  List.forall_mem_append.mpr ⟨firstWrites, secondWrites⟩

/-- The last operation of an expression, whose destination is the hint. -/
theorem toDestination {operation : Operation} {type : ValueType} {nextTemp : Nat}
    (isDestination : operation.operand1 = (destination hint type nextTemp).1) :
    WritesOnly hint uses [operation] := by
  intro last isLast name target
  have isVariable := last.variableName_of_target name target
  rw [List.mem_singleton.mp isLast, isDestination] at isVariable
  exact Or.inl (variableName_destination isVariable)

end WritesOnly

/-- An expression leaves its value in a variable only if it is that variable. -/
theorem variableName_result {expr : Expr} {nextTemp : Nat} {name : String}
    (isVariable : (generateExpressionInto expr none nextTemp).result.variableName = some name) :
    ∃ use ∈ expr.ownVariable, mangleEntry use = name := by
  cases expr with
  | identifier base other depth id symbol =>
      exact ⟨(other, id), List.mem_singleton_self _, Option.some.inj isVariable⟩
  | binary base op left right => cases isVariable
  | unary base op operand =>
      simp only [generateExpressionInto, generateUnary, generateIncrement] at isVariable
      split at isVariable
      · split at isVariable <;> cases isVariable
      · cases isVariable
  | cast base target operand => cases isVariable
  | literal base tokenType value => cases isVariable
  | funcCall base callee linkName arguments =>
      simp only [generateExpressionInto, generateCall] at isVariable
      split at isVariable <;> cases isVariable

/-- An increment writes its operand, and temporaries. -/
theorem writesOnly_generateIncrement {base : Base} {op : UnaryOp} {code : ExprCode}
    {uses : List (String × Nat)} (codeWrites : WritesOnly hint uses code.operations)
    (result : ∀ name, code.result.variableName = some name →
      ∃ use ∈ uses, mangleEntry use = name) :
    WritesOnly hint uses (generateIncrement base op code).operations := by
  have temporary (opcode : Opcode) (type : ValueType) (id : Nat) (src1 src2 : Operand) :
      WritesOnly hint uses [⟨opcode, .temporary type id, src1, src2⟩] := by
    intro operation isLast name target
    have isVariable := operation.variableName_of_target name target
    rw [List.mem_singleton.mp isLast] at isVariable
    cases isVariable
  have update (src : Operand) :
      WritesOnly hint uses [⟨.assign, code.result, src, .none⟩] := by
    intro operation isLast name target
    have isVariable := operation.variableName_of_target name target
    rw [List.mem_singleton.mp isLast] at isVariable
    exact Or.inr (result name isVariable)
  unfold generateIncrement
  dsimp only
  split
  · exact codeWrites.append ((temporary _ _ _ _ _).append
      ((temporary _ _ _ _ _).append (update _)))
  · exact codeWrites.append ((temporary _ _ _ _ _).append (update _))

theorem writesOnly_generateArguments {arguments : List Expr}
    (each : ∀ argument ∈ arguments, ∀ nextTemp, WritesOnly none argument.increments
      (generateExpressionInto argument none nextTemp).operations) (nextTemp : Nat) :
    WritesOnly none (Expr.incrementsAll arguments)
      (generateArguments arguments nextTemp).operations := by
  induction arguments generalizing nextTemp with
  | nil => exact .nil
  | cons argument rest inductionHypothesis =>
      rw [List.forall_mem_cons] at each
      apply WritesOnly.append
      · exact (each.1 nextTemp).mono (List.subset_append_left _ _)
      · exact (inductionHypothesis each.2 _).mono (List.subset_append_right _ _)

theorem writesOnly_paramOperations {uses : List (String × Nat)} (results : List Operand) :
    WritesOnly none uses (paramOperations results) := by
  intro operation isParam name target
  rcases List.mem_map.mp isParam with ⟨result, -, rfl⟩
  cases target

/-- The code of an expression writes the hint and what the expression increments. -/
theorem writesOnly_generateExpressionInto (expr : Expr) (hint : Option Operand)
    (nextTemp : Nat) :
    WritesOnly hint expr.increments
      (generateExpressionInto expr hint nextTemp).operations := by
  induction expr using Expr.induction generalizing hint nextTemp with
  | binary base op left right leftHypothesis rightHypothesis =>
      apply WritesOnly.append
      · apply WritesOnly.append
        · exact (leftHypothesis none nextTemp).mono (List.subset_append_left _ _)
        · exact (rightHypothesis none _).mono (List.subset_append_right _ _)
      · exact .toDestination rfl
  | unary base op operand operandHypothesis =>
      have operandWrites := operandHypothesis none nextTemp
      simp only [generateExpressionInto, generateUnary]
      split
      · rename_i increments
        apply writesOnly_generateIncrement
        · exact operandWrites.mono (List.subset_append_right _ _)
        · intro name isVariable
          rcases variableName_result isVariable with ⟨use, isOwn, same⟩
          refine ⟨use, ?_, same⟩
          rw [Expr.increments, if_pos increments]
          exact List.mem_append_left _ isOwn
      · apply WritesOnly.append
        · exact operandWrites.mono (List.subset_append_right _ _)
        · exact .toDestination rfl
  | cast base target operand operandHypothesis =>
      apply WritesOnly.append
      · exact (operandHypothesis none nextTemp).mono (List.Subset.refl _)
      · exact .toDestination rfl
  | literal | identifier => exact .nil
  | funcCall base callee linkName arguments argumentsHypothesis =>
      have argumentsWrite := writesOnly_generateArguments
        (fun argument isArgument => argumentsHypothesis argument isArgument none) nextTemp
      simp only [generateExpressionInto, generateCall]
      apply WritesOnly.append
      · exact (argumentsWrite.append (writesOnly_paramOperations _)).mono
          (List.Subset.refl _)
      · split
        · intro operation isLast name target
          have isVariable := operation.variableName_of_target name target
          rw [List.mem_singleton.mp isLast] at isVariable
          cases isVariable
        · exact .toDestination rfl

theorem writesOnly_generateAssignment (type : ValueType) (dst : String) (value : Expr)
    (nextTemp : Nat) :
    WritesOnly (some (.variable type dst)) value.increments
      (generateAssignment (.variable type dst) value nextTemp).1 := by
  have code := writesOnly_generateExpressionInto value (some (.variable type dst)) nextTemp
  unfold generateAssignment
  dsimp only
  split
  · exact code
  · apply code.append
    intro operation isLast name target
    have isVariable := operation.variableName_of_target name target
    rw [List.mem_singleton.mp isLast] at isVariable
    exact Or.inl isVariable

/-- The code of a statement outside of its substatements writes the variable that it
declares or one that it overwrites. -/
theorem target_ownOperations {part : Stmt} {nextTemp label : Nat} {operation : Operation}
    (isOwn : operation ∈ ownOperations part nextTemp label) {name : String}
    (target : operation.target = some name) :
    (∃ decl, part = .varDecl decl ∧ decl.binder.mangled = name) ∨
      ∃ use ∈ part.overwrites, mangleEntry use = name := by
  have ofExpr {expr : Expr} {nextTemp : Nat} (isPart : expr ∈ part.expressions)
      (inCode : operation ∈ (generateExpression expr nextTemp).operations) :
      ∃ use ∈ part.overwrites, mangleEntry use = name := by
    rcases writesOnly_generateExpressionInto expr none nextTemp operation inCode name target
      with none | ⟨use, isIncrement, same⟩
    · cases none
    · exact ⟨use, List.mem_append_right _ (List.mem_flatMap.mpr ⟨expr, isPart, isIncrement⟩),
        same⟩
  cases part with
  | varDecl decl =>
      rw [ownOperations, generateVarDecl] at isOwn
      split at isOwn
      · cases isOwn
      · rename_i value isValue
        rcases writesOnly_generateAssignment _ _ value nextTemp operation isOwn name target
          with isTarget | ⟨use, isIncrement, same⟩
        · exact Or.inl ⟨decl, rfl, Option.some.inj isTarget⟩
        · refine Or.inr ⟨use, List.mem_append_right _ (List.mem_flatMap.mpr
            ⟨value, ?_, isIncrement⟩), same⟩
          rw [Stmt.expressions, isValue]
          exact List.mem_singleton_self _
  | varAssign assign =>
      rcases writesOnly_generateAssignment _ _ assign.value nextTemp operation isOwn name
        target with isTarget | ⟨use, isIncrement, same⟩
      · exact Or.inr ⟨(assign.name, assign.id), List.mem_append_left _
          (List.mem_singleton_self _), Option.some.inj isTarget⟩
      · exact Or.inr ⟨use, List.mem_append_right _ (List.mem_flatMap.mpr
          ⟨assign.value, List.mem_singleton_self _, isIncrement⟩), same⟩
  | ifStmt base condition branchThen branchElse =>
      rcases List.mem_append.mp isOwn with inCondition | isJump
      · exact Or.inr (ofExpr (List.mem_singleton_self _) inCondition)
      · rw [List.mem_singleton.mp isJump] at target
        cases target
  | whileStmt base condition branchDo =>
      rcases List.mem_append.mp isOwn with inCondition | isJump
      · exact Or.inr (ofExpr (List.mem_singleton_self _) inCondition)
      · rw [List.mem_singleton.mp isJump] at target
        cases target
  | returnStmt base value =>
      cases value with
      | none =>
          rw [List.mem_singleton.mp isOwn] at target
          cases target
      | some value =>
          rcases List.mem_append.mp isOwn with inValue | isReturn
          · exact Or.inr (ofExpr (List.mem_singleton_self _) inValue)
          · rw [List.mem_singleton.mp isReturn] at target
            cases target
  | expression expr => exact Or.inr (ofExpr (List.mem_singleton_self _) isOwn)
  | block | funcDecl => cases isOwn

/-! ## Runs -/

/-- The integer in the slot of a variable. -/
def variableIn {World : Type} (name : String) :
    Config (State World) (Option Int) → Int
  | .running _ state => state.store (.variable name)
  | .returned _ state => state.store (.variable name)

section Runs

variable {World : Type} {calls : Calls World}

theorem store_write_of_ne {state later : State World} {dst : Operand} {value : Int}
    {name : String} (written : state.write dst value = some later)
    (differs : dst.variableName ≠ some name) :
    later.store (.variable name) = state.store (.variable name) := by
  rw [State.write, Option.map_eq_some_iff] at written
  rcases written with ⟨slot, isSlot, rfl⟩
  apply Store.update_of_ne
  rintro rfl
  cases dst <;> cases isSlot
  exact differs rfl

/-- An operation changes no variable but its destination. -/
theorem store_exec_of_ne {operation : Operation} {state later : State World}
    {name : String} (run : operation.exec calls state = some later)
    (differs : operation.target ≠ some name) :
    later.store (.variable name) = state.store (.variable name) := by
  rcases operation with ⟨opcode, dst, src1, src2⟩
  have written {middle : State World} {value : Int} (store : middle.store = state.store)
      (written : middle.write dst value = some later)
      (notParam : opcode ≠ .param)
      (notRet : opcode ≠ .ret) :
      later.store (.variable name) = state.store (.variable name) := by
    rw [← store]
    exact store_write_of_ne written fun isVariable =>
      differs (Operation.target_of_variableName isVariable notParam notRet)
  have computed (computes : opcode.computes) (notParam : opcode ≠ .param)
      (notRet : opcode ≠ .ret) :
      later.store (.variable name) = state.store (.variable name) := by
    rw [Operation.exec_of_computes computes, Option.bind_eq_some_iff] at run
    rcases run with ⟨value, -, isWritten⟩
    exact written rfl isWritten notParam notRet
  cases opcode with
  | label =>
      rw [← Option.some.inj run]
  | param =>
      simp only [Operation.exec, Option.bind_eq_bind, Option.bind_eq_some_iff] at run
      rcases run with ⟨value, -, passed⟩
      rw [← Option.some.inj passed]
  | call =>
      simp only [Operation.exec, execCall] at run
      split at run
      · simp only [Option.bind_eq_bind, Option.bind_eq_some_iff] at run
        rcases run with ⟨⟨register, world⟩, -, returned⟩
        split at returned
        · rw [← Option.some.inj returned]
        · have kept : ({ state with params := [], world := world } : State World).store =
              state.store := rfl
          exact written kept returned nofun nofun
      · cases run
  | invalid | jmpCond | jmpIncond | ret => cases run
  | binary | negate | bitwiseNot | logicalNot | assign | cast =>
      exact computed rfl nofun nofun

/-- A step changes no variable but the destination of the operation at its position. -/
theorem variableIn_step {operations : List Operation} {name : String}
    {visited later : Config (State World) (Option Int)}
    (step : irStep calls operations visited = some later)
    (differs : ∀ pc state operation, visited = .running pc state →
      operations[pc]? = some operation → operation.target ≠ some name) :
    variableIn name later = variableIn name visited := by
  cases visited with
  | returned => cases step
  | running pc state =>
      unfold irStep Jump.step at step
      dsimp only at step
      rw [List.getElem?_map] at step
      cases here : operations[pc]? with
      | none =>
          rw [here] at step
          cases step
      | some operation =>
          rw [here, Option.map_some] at step
          split at step
          · cases step
          · rename_i op isOp
            rw [Option.map_eq_some_iff] at step
            rcases step with ⟨next, run, rfl⟩
            have same : op = operation := by
              have isInstr := Option.some.inj isOp
              unfold Operation.instr at isInstr
              split at isInstr <;> first | exact (Instr.op.inj isInstr).symm | cases isInstr
            rw [same] at run
            exact store_exec_of_ne run (differs pc state operation rfl here)
          · rw [← Option.some.inj step]
            rfl
          · rw [Option.map_eq_some_iff] at step
            rcases step with ⟨target, -, rfl⟩
            rfl
          · rw [Option.bind_eq_some_iff] at step
            rcases step with ⟨holds, -, step⟩
            split at step
            · rw [← Option.some.inj step]
              rfl
            · rw [Option.map_eq_some_iff] at step
              rcases step with ⟨target, -, rfl⟩
              rfl
          · rw [Option.map_eq_some_iff] at step
            rcases step with ⟨result, -, rfl⟩
            rfl

end Runs

/-! ## Functions -/

/-- The operations of a generated function, each with the statement that it belongs
to. -/
def taggedFunction (func : FuncDecl) (body : Option Stmt) (program : IrProgram) :
    List (Option Stmt × Operation) :=
  match body with
  | none => []
  | some body =>
      tagged body 0 program ++
        if func.returnType = .void ∧
            !endsWithReturn (generateStatement body 0 program).operations then
          tag none [{ opcode := .ret }]
        else
          []

theorem map_snd_taggedFunction (func : FuncDecl) (body : Option Stmt)
    (program : IrProgram) :
    (taggedFunction func body program).map Prod.snd =
      (loweredFunction func
        (body.map fun body => generateStatement body 0 program)).operations := by
  cases body with
  | none => rfl
  | some body =>
      simp only [taggedFunction, loweredFunction, Option.map_some, List.map_append,
        map_snd_tagged]
      split <;> simp

/-- The operation at the position belongs to the initialiser of the variable. -/
def InInitialiser (code : List (Option Stmt × Operation)) (binder : Binder) (pc : Nat) :
    Prop :=
  ∃ decl operation, code[pc]? = some (some (.varDecl decl), operation) ∧
    decl.binder = binder

/-- The destination of every operation is mutable, or the operation belongs to its
initialiser. -/
def RespectsMutability (binders : List Binder) (code : List (Option Stmt × Operation)) :
    Prop :=
  ∀ pc owner operation, code[pc]? = some (owner, operation) →
    ∀ name, operation.target = some name →
      ∃ binder ∈ binders, binder.mangled = name ∧
        (binder.isMutable ∨ InInitialiser code binder pc)

theorem RespectsMutability.of_owned {binders : List Binder}
    {code : List (Option Stmt × Operation)} {parts : List Stmt}
    (owned : ∀ entry ∈ code, OwnedBy parts entry ∨ entry.2.target = none)
    (overwrites : ∀ part ∈ parts, ∀ use ∈ part.overwrites,
      ∃ binder ∈ binders, binder.isMutable ∧ binder.mangled = mangleEntry use)
    (declared : ∀ decl, .varDecl decl ∈ parts → decl.binder ∈ binders) :
    RespectsMutability binders code := by
  intro pc owner operation here name target
  rcases owned _ (List.mem_of_getElem? here) with isOwned | nothing
  · cases owner with
    | none =>
        rcases isOwned with ⟨label, rfl | rfl⟩ <;> cases target
    | some part =>
        rcases isOwned with ⟨inParts, nextTemp, label, isOwn⟩
        rcases target_ownOperations isOwn target with ⟨decl, rfl, same⟩ | ⟨use, isWritten, same⟩
        · exact ⟨decl.binder, declared decl inParts, same, Or.inr ⟨decl, operation, here, rfl⟩⟩
        · rcases overwrites part inParts use isWritten with
            ⟨binder, isBinder, isMutable, mangled⟩
          exact ⟨binder, isBinder, mangled.trans same, Or.inl isMutable⟩
  · rw [nothing] at target
    cases target

/-- A run that stays outside of the initialiser of an immutable variable keeps its
value. -/
theorem RespectsMutability.keeps {binders : List Binder}
    {code : List (Option Stmt × Operation)} (respects : RespectsMutability binders code)
    (distinct : (binders.map Binder.mangled).Nodup) {binder : Binder}
    (isBinder : binder ∈ binders) (immutable : binder.isMutable = false) {World : Type}
    (calls : Calls World) {n : Nat} {config final : Config (State World) (Option Int)}
    (run : iterate (irStep calls (code.map Prod.snd)) n config = some final)
    (outside : ∀ m < n, ∀ pc state,
      iterate (irStep calls (code.map Prod.snd)) m config = some (.running pc state) →
        ¬InInitialiser code binder pc) :
    variableIn binder.mangled final = variableIn binder.mangled config := by
  apply iterate_keeps run
  intro m earlier visited later reached step
  apply variableIn_step step
  rintro pc state operation rfl here target
  rw [List.getElem?_map, Option.map_eq_some_iff] at here
  rcases here with ⟨⟨owner, operation⟩, here, rfl⟩
  rcases respects pc owner operation here _ target with ⟨other, isOther, mangled, writes⟩
  have same : other = binder := List.inj_on_of_nodup_map distinct isOther isBinder mangled
  rw [same] at writes
  rcases writes with isMutable | inInitialiser
  · simp [immutable] at isMutable
  · exact outside m earlier pc state reached inInitialiser

/-- The tagged code of a part stands in the code. -/
def HasPart (code : List (Option Stmt × Operation)) (part : Stmt) : Prop :=
  ∃ nextTemp program, tagged part nextTemp program <:+: code

theorem HasPart.of_isInfix {code more : List (Option Stmt × Operation)} {part : Stmt}
    (hasPart : HasPart code part) (isInfix : code <:+: more) : HasPart more part := by
  rcases hasPart with ⟨nextTemp, program, stands⟩
  exact ⟨nextTemp, program, stands.trans isInfix⟩

theorem hasPart_taggedAll {statements : List Stmt}
    (each : ∀ stmt ∈ statements, ∀ nextTemp program, ∀ part ∈ stmt.parts,
      HasPart (tagged stmt nextTemp program) part) (nextTemp : Nat) (program : IrProgram) :
    ∀ part ∈ Stmt.partsAll statements,
      HasPart (taggedAll statements nextTemp program) part := by
  induction statements generalizing nextTemp program with
  | nil => simp [Stmt.partsAll]
  | cons stmt rest inductionHypothesis =>
      rw [List.forall_mem_cons] at each
      rw [Stmt.partsAll, List.forall_mem_append]
      constructor
      · intro part isPart
        exact (each.1 nextTemp program part isPart).of_isInfix
          (List.prefix_append _ _).isInfix
      · intro part isPart
        exact (inductionHypothesis each.2 _ _ part isPart).of_isInfix
          (List.suffix_append _ _).isInfix

theorem hasPart_tagged (stmt : Stmt) (nextTemp : Nat) (program : IrProgram) :
    ∀ part ∈ stmt.parts, HasPart (tagged stmt nextTemp program) part := by
  induction stmt using Stmt.induction generalizing nextTemp program with
  | block base statements statementsHypothesis =>
      rw [Stmt.parts, List.forall_mem_cons]
      constructor
      · exact ⟨nextTemp, program, List.infix_refl _⟩
      · exact hasPart_taggedAll statementsHypothesis nextTemp program
  | ifStmt base condition branchThen branchElse thenHypothesis elseHypothesis =>
      rw [Stmt.parts, List.forall_mem_cons, List.forall_mem_append]
      apply And.intro ⟨nextTemp, program, List.infix_refl _⟩
      cases branchElse with
      | none =>
          constructor
          · intro part inThen
            have stands := thenHypothesis (generateExpression condition nextTemp).nextTemp
              (program.skipLabels 1) part inThen
            exact stands.of_isInfix (List.infix_append _ _ _)
          · simp [Stmt.partsOption]
      | some stmt =>
          constructor
          · intro part inThen
            have stands := thenHypothesis (generateExpression condition nextTemp).nextTemp
              (program.skipLabels 2) part inThen
            apply stands.of_isInfix
            rw [tagged]
            simp only [List.append_assoc]
            rw [← List.append_assoc]
            exact List.infix_append _ _ _
          · intro part inElse
            have stands := elseHypothesis stmt rfl
              (generateStatement branchThen (generateExpression condition nextTemp).nextTemp
                (program.skipLabels 2)).nextTemp
              (generateStatement branchThen (generateExpression condition nextTemp).nextTemp
                (program.skipLabels 2)).program part inElse
            exact stands.of_isInfix (List.infix_append _ _ _)
  | whileStmt base condition branchDo doHypothesis =>
      rw [Stmt.parts, List.forall_mem_cons]
      constructor
      · exact ⟨nextTemp, program, List.infix_refl _⟩
      · intro part inDo
        have stands := doHypothesis (generateExpression condition nextTemp).nextTemp
          (program.skipLabels 2) part inDo
        exact stands.of_isInfix (List.infix_append _ _ _)
  | varDecl | varAssign | funcDecl | returnStmt | expression =>
      intro part isPart
      rw [List.mem_singleton.mp isPart]
      exact ⟨nextTemp, program, List.infix_refl _⟩

theorem taggedAll_append (first rest : List Stmt) (nextTemp : Nat) (program : IrProgram) :
    ∃ laterTemp laterProgram, taggedAll (first ++ rest) nextTemp program =
      taggedAll first nextTemp program ++ taggedAll rest laterTemp laterProgram := by
  induction first generalizing nextTemp program with
  | nil => exact ⟨nextTemp, program, rfl⟩
  | cons stmt others inductionHypothesis =>
      rcases inductionHypothesis (generateStatement stmt nextTemp program).nextTemp
        (generateStatement stmt nextTemp program).program with
        ⟨laterTemp, laterProgram, equal⟩
      exact ⟨laterTemp, laterProgram, by simp [taggedAll, equal]⟩

/-- The code from `start` to `stop` is that of the statements below a declaration in its
block, which is the scope of the variable. -/
structure ScopeAt (code : List (Option Stmt × Operation)) (decl : VarDecl)
    (rest : List Stmt) (start stop : Nat) : Prop where
  stands : ∃ before after declTemp restTemp declProgram restProgram,
    code = before ++ tagged (.varDecl decl) declTemp declProgram ++
      taggedAll rest restTemp restProgram ++ after ∧
    start = before.length + (tagged (.varDecl decl) declTemp declProgram).length ∧
    stop = start + (taggedAll rest restTemp restProgram).length

/-- Every declaration in a block has its scope in the code. -/
theorem exists_scopeAt {stmt : Stmt} {base : Base} {front rest : List Stmt} {decl : VarDecl}
    (isPart : .block base (front ++ .varDecl decl :: rest) ∈ stmt.parts) (nextTemp : Nat)
    (program : IrProgram) {code : List (Option Stmt × Operation)}
    (stands : tagged stmt nextTemp program <:+: code) :
    ∃ start stop, ScopeAt code decl rest start stop := by
  rcases hasPart_tagged stmt nextTemp program _ isPart with
    ⟨partTemp, partProgram, inStmt⟩
  rcases inStmt.trans stands with ⟨before, after, isCode⟩
  rcases taggedAll_append front (.varDecl decl :: rest) partTemp partProgram with
    ⟨declTemp, declProgram, equal⟩
  rw [tagged, equal, taggedAll] at isCode
  have joined : code = before ++ taggedAll front partTemp partProgram ++
      tagged (.varDecl decl) declTemp declProgram ++
      taggedAll rest (generateStatement (.varDecl decl) declTemp declProgram).nextTemp
        (generateStatement (.varDecl decl) declTemp declProgram).program ++ after := by
    rw [← isCode]
    simp only [List.append_assoc]
  exact ⟨_, _, ⟨_, _, _, _, _, _, joined, rfl, rfl⟩⟩

/-- Inside of the scope of a variable control is not in its initialiser. -/
theorem ScopeAt.outside {code : List (Option Stmt × Operation)} {decl : VarDecl}
    {rest : List Stmt} {start stop : Nat} (scope : ScopeAt code decl rest start stop)
    (fresh : decl.binder ∉ Stmt.bindersAll rest) {pc : Nat} (lower : start ≤ pc)
    (upper : pc < stop) : ¬InInitialiser code decl.binder pc := by
  rcases scope with ⟨before, after, declTemp, restTemp, declProgram, restProgram, rfl, rfl, rfl⟩
  rintro ⟨other, operation, here, same⟩
  have inRest : (some (.varDecl other), operation) ∈ taggedAll rest restTemp restProgram := by
    rw [List.getElem?_append_left (by simp only [List.length_append]; omega),
      List.getElem?_append_right (by simp only [List.length_append]; omega)] at here
    exact List.mem_of_getElem? here
  have owned := ownedBy_taggedAll
    (fun stmt _ nextTemp program => ownedBy_tagged stmt nextTemp program) restTemp restProgram _
    inRest
  rcases (Stmt.mem_partsAll rest).mp owned.1 with ⟨stmt, inStatements, inStmt⟩
  have isBinder := stmt.binder_mem_of_within (stmt.parts_subset_within inStmt)
  rw [same] at isBinder
  exact fresh ((Stmt.mem_bindersAll rest).mpr ⟨stmt, inStatements, isBinder⟩)

/-! ## Programs -/

/-- Every run leaves the value of the variable as it is. -/
def Keeps (operations : List Operation) (binder : Binder) : Prop :=
  ∀ (World : Type) (calls : Calls World) (n : Nat)
    (config final : Config (State World) (Option Int)),
    iterate (irStep calls operations) n config = some final →
      variableIn binder.mangled final = variableIn binder.mangled config

/-- Every run that moves inside of the code from `start` to `stop` leaves the value of
the variable as it is. -/
def KeepsInside (operations : List Operation) (binder : Binder) (start stop : Nat) : Prop :=
  ∀ (World : Type) (calls : Calls World) (n : Nat)
    (config final : Config (State World) (Option Int)),
    iterate (irStep calls operations) n config = some final →
      (∀ m < n, ∀ pc state,
        iterate (irStep calls operations) m config = some (.running pc state) →
          start ≤ pc ∧ pc < stop) →
        variableIn binder.mangled final = variableIn binder.mangled config

/-- What the declarations without `mut` promise in the code of a body: the code respects
mutability, a parameter or a variable from elsewhere keeps its value in every run, and
a variable of the body in every run through its scope. -/
structure KeepsImmutable (binders : List Binder) (parameters : List Parameter)
    (body : Option Stmt) (code : List (Option Stmt × Operation)) : Prop where
  respects : RespectsMutability binders code
  parameter : ∀ param ∈ parameters, param.binder.isMutable = false →
    Keeps (code.map Prod.snd) param.binder
  elsewhere : ∀ binder ∈ binders, binder ∉ body.elim [] Stmt.binders →
    binder.isMutable = false → Keeps (code.map Prod.snd) binder
  inBlock : ∀ base front decl rest,
    .block base (front ++ .varDecl decl :: rest) ∈ body.elim [] Stmt.parts →
      decl.binder.isMutable = false →
        ∃ start stop, ScopeAt code decl rest start stop ∧
          KeepsInside (code.map Prod.snd) decl.binder start stop

/-- A function without a body has no code. -/
theorem keepsImmutable_none (binders : List Binder) (parameters : List Parameter) :
    KeepsImmutable binders parameters none [] := by
  have nothing (binder : Binder) : Keeps [] binder := by
    intro World calls n config final run
    apply iterate_keeps run
    intro m earlier visited later reached step
    apply variableIn_step step
    intro pc state operation running here
    simp at here
  constructor
  · intro pc owner operation here
    simp at here
  · exact fun param isParam immutable => nothing param.binder
  · exact fun binder isBinder isElsewhere immutable => nothing binder
  · intro base front decl rest isPart
    simp at isPart

section Bodies

variable {binders : List Binder} {parameters : List Parameter} {body : Stmt}
  {code : List (Option Stmt × Operation)}

/-- A variable is initialised where it is declared. -/
theorem mem_binders_of_inInitialiser
    (owned : ∀ entry ∈ code, OwnedBy body.parts entry ∨ entry = (none, { opcode := .ret }))
    {binder : Binder} {pc : Nat} (inInitialiser : InInitialiser code binder pc) :
    binder ∈ body.binders := by
  rcases inInitialiser with ⟨decl, operation, here, rfl⟩
  rcases owned _ (List.mem_of_getElem? here) with isOwned | isReturn
  · exact body.binder_mem_of_within (body.parts_subset_within isOwned.1)
  · cases isReturn

/-- A variable is not declared again below its declaration. -/
theorem not_mem_bindersAll_of_nodup {base : Base} {front rest : List Stmt} {decl : VarDecl}
    (isPart : .block base (front ++ .varDecl decl :: rest) ∈ body.parts)
    (once : body.binders.Nodup) :
    decl.binder ∈ body.binders ∧ decl.binder ∉ Stmt.bindersAll rest := by
  have sublist := body.binders_sublist_of_part isPart
  rw [Stmt.binders, Stmt.bindersAll_append, Stmt.bindersAll, Stmt.binders] at sublist
  have inBlock := List.sublist_append_right (Stmt.bindersAll front)
    ([decl.binder] ++ Stmt.bindersAll rest)
  have nodup := once.sublist (inBlock.trans sublist)
  constructor
  · exact (inBlock.trans sublist).subset List.mem_cons_self
  · exact (List.nodup_cons.mp nodup).1

/-- The code of a body that overwrites mutable variables only keeps the others. -/
theorem keepsImmutable_of_overwrites
    (overwrites : ∀ part ∈ body.parts, ∀ use ∈ part.overwrites,
      ∃ binder ∈ binders, binder.isMutable ∧ binder.mangled = mangleEntry use)
    (declared : (parameters.map Parameter.binder ++ body.binders).Sublist binders)
    (distinct : (binders.map Binder.mangled).Nodup)
    (owned : ∀ entry ∈ code, OwnedBy body.parts entry ∨ entry = (none, { opcode := .ret }))
    {program : IrProgram} (stands : tagged body 0 program <:+: code) :
    KeepsImmutable binders parameters (some body) code := by
  have respects : RespectsMutability binders code := by
    apply RespectsMutability.of_owned _ overwrites
    · intro decl isPart
      exact declared.subset (List.mem_append_right _
        (body.binder_mem_of_within (body.parts_subset_within isPart)))
    · intro entry inCode
      rcases owned entry inCode with isOwned | rfl
      · exact Or.inl isOwned
      · exact Or.inr rfl
  have keeps {binder : Binder} (isBinder : binder ∈ binders)
      (isElsewhere : binder ∉ body.binders) (immutable : binder.isMutable = false) :
      Keeps (code.map Prod.snd) binder := by
    intro World calls n config final run
    apply respects.keeps distinct isBinder immutable calls run
    intro m earlier pc state reached inInitialiser
    exact isElsewhere (mem_binders_of_inInitialiser owned inInitialiser)
  have once : (parameters.map Parameter.binder ++ body.binders).Nodup :=
    (List.Nodup.of_map _ distinct).sublist declared
  constructor
  · exact respects
  · intro param isParam immutable
    have isBinder : param.binder ∈ parameters.map Parameter.binder :=
      List.mem_map_of_mem isParam
    exact keeps (declared.subset (List.mem_append_left _ isBinder))
      (List.disjoint_of_nodup_append once isBinder) immutable
  · exact fun binder => keeps
  · intro base front decl rest isPart immutable
    rcases exists_scopeAt isPart 0 program stands with ⟨start, stop, scope⟩
    rcases not_mem_bindersAll_of_nodup isPart (List.nodup_append.mp once).2.1 with
      ⟨isBinder, fresh⟩
    refine ⟨start, stop, scope, ?_⟩
    intro World calls n config final run stays
    apply respects.keeps distinct (declared.subset (List.mem_append_right _ isBinder))
      immutable calls run
    intro m earlier pc state reached
    rcases stays m earlier pc state reached with ⟨lower, upper⟩
    exact scope.outside fresh lower upper

/-- A function returns once more behind its body. -/
theorem mem_taggedFunction {func : FuncDecl} {program : IrProgram}
    {entry : Option Stmt × Operation}
    (inCode : entry ∈ taggedFunction func (some body) program) :
    OwnedBy body.parts entry ∨ entry = (none, { opcode := .ret }) := by
  rw [taggedFunction, List.mem_append] at inCode
  rcases inCode with inBody | isReturn
  · exact Or.inl (ownedBy_tagged body 0 program entry inBody)
  · split at isReturn
    · exact Or.inr (List.mem_singleton.mp isReturn)
    · exact absurd isReturn List.not_mem_nil

end Bodies

/-- In an analysed program no operation writes a variable without `mut` but its
initialiser, neither at the top level nor in a function. -/
theorem immutable_of_analyzed {program : Program} {filename : String}
    {options : CompilerOptions} {modules : List Module} {analysis : ProgramAnalysis}
    (isAnalyzed : Analyzed program filename options modules analysis) :
    (taggedAll analysis.program.statements 0 {}).map Prod.snd =
        (irGenerate analysis.program).programOperations ∧
      KeepsImmutable analysis.program.binders []
        (some (.block {} analysis.program.statements))
        (taggedAll analysis.program.statements 0 {}) ∧
      List.Forall₂
        (fun declaration function => ∃ start,
          (taggedFunction declaration.1 declaration.2 start).map Prod.snd =
              function.operations ∧
            KeepsImmutable analysis.program.binders declaration.1.parameters declaration.2
              (taggedFunction declaration.1 declaration.2 start))
        analysis.program.declarations (irGenerate analysis.program).program.functions := by
  have distinct := isAnalyzed.nodup_mangled
  have overwrites : ∀ part ∈ (Stmt.block {} analysis.program.statements).within,
      ∀ use ∈ part.overwrites, ∃ binder ∈ analysis.program.binders,
        binder.isMutable ∧ binder.mangled = mangleEntry use := by
    rw [Stmt.within, List.forall_mem_cons]
    constructor
    · intro use isWritten
      simp [Stmt.overwrites, Stmt.assigned, Stmt.expressions] at isWritten
    · exact fun part isPart => (isAnalyzed.checked part isPart).overwrites
  have keeps {parameters : List Parameter} {body : Stmt}
      (inProgram : body.within ⊆ (Stmt.block {} analysis.program.statements).within)
      (declared : (parameters.map Parameter.binder ++ body.binders).Sublist
        analysis.program.binders) {code : List (Option Stmt × Operation)}
      (owned : ∀ entry ∈ code,
        OwnedBy body.parts entry ∨ entry = (none, { opcode := .ret }))
      {start : IrProgram} (stands : tagged body 0 start <:+: code) :
      KeepsImmutable analysis.program.binders parameters (some body) code := by
    apply keepsImmutable_of_overwrites _ declared distinct owned stands
    exact fun part isPart => overwrites part (inProgram (body.parts_subset_within isPart))
  constructor
  · exact map_snd_tagged (.block {} analysis.program.statements) 0 {}
  · constructor
    · apply keeps (List.Subset.refl _) (List.Sublist.refl _) _ (List.infix_refl _)
      exact fun entry inCode => Or.inl (ownedBy_tagged (.block {} _) 0 {} entry inCode)
    · have lowers := (List.forall₂_and_left _ _).mpr
        ⟨fun declaration isDeclared => isDeclared, irGenerate_lowers analysis.program⟩
      apply lowers.imp
      rintro ⟨func, body⟩ function ⟨isDeclared, start, rfl⟩
      refine ⟨start, map_snd_taggedFunction func body start, ?_⟩
      cases body with
      | none => exact keepsImmutable_none _ _
      | some body =>
          apply keeps
            (Stmt.within_subset_of_declared (.block {} analysis.program.statements) isDeclared)
            (Stmt.binders_sublist_of_declared (.block {} analysis.program.statements)
              isDeclared)
            (fun entry => mem_taggedFunction)
          exact (List.prefix_append _ _).isInfix

theorem immutable_of_analyzed_shadowed :
    (taggedAll shadowedAnalysis.program.statements 0 {}).map Prod.snd =
        (irGenerate shadowedAnalysis.program).programOperations ∧
      KeepsImmutable shadowedAnalysis.program.binders []
        (some (.block {} shadowedAnalysis.program.statements))
        (taggedAll shadowedAnalysis.program.statements 0 {}) ∧
      List.Forall₂
        (fun declaration function => ∃ start,
          (taggedFunction declaration.1 declaration.2 start).map Prod.snd =
              function.operations ∧
            KeepsImmutable shadowedAnalysis.program.binders declaration.1.parameters
              declaration.2 (taggedFunction declaration.1 declaration.2 start))
        shadowedAnalysis.program.declarations
        (irGenerate shadowedAnalysis.program).program.functions :=
  immutable_of_analyzed analyzed_shadowed

end Sulfur.Ir
