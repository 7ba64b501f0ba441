import Sulfur.Semantic.Typing
import Sulfur.Semantic.Program

/-!
# Accepted programs

A statement that is analysed without an error carries typed expressions
throughout, and the analyser keeps its tables well formed on the way.  The
statements of a program are analysed in one pass, so the same holds of every
statement of a program without errors.
-/

namespace Sulfur

/-- A value of the first type may stand where the second one is expected. -/
def ValueType.Widens (source target : ValueType) : Prop :=
  source.isSameGroup target ∧ source.widthBits ≤ target.widthBits

/-- An expression that some analysis has accepted. -/
def Expr.Accepted (expr : Expr) : Prop :=
  ∃ s : Semantic, s.WellFormed ∧ expr.Typed s

/-- No variable of a scope has the number. -/
def Scope.Free (scope : Scope) (id : Nat) : Prop :=
  ∀ table ∈ scope.stack, ∀ symbol ∈ table, symbol.id ≠ id

namespace Stmt

/-- The statement is a block. -/
def isBlock : Stmt → Bool
  | block .. => true
  | _ => false

/-- The statement is an `if`. -/
def isIf : Stmt → Bool
  | ifStmt .. => true
  | _ => false

mutual

/-- The trees that the parser builds: declared types are type keywords, bodies
and branches are blocks, and an `else` is followed by a block or an `if`. -/
def Grammatical : Stmt → Prop
  | varDecl decl =>
      decl.varType ≠ .unresolved ∧ ∀ value ∈ decl.value, value.Grammatical
  | varAssign assign => assign.value.Grammatical
  | block _ statements => GrammaticalAll statements
  | ifStmt _ condition branchThen branchElse =>
      condition.Grammatical ∧ (branchThen.isBlock ∧ branchThen.Grammatical) ∧
        (∀ stmt ∈ branchElse, stmt.isBlock ∨ stmt.isIf) ∧
        GrammaticalOption branchElse
  | whileStmt _ condition branchDo =>
      condition.Grammatical ∧ branchDo.isBlock ∧ branchDo.Grammatical
  | funcDecl func body =>
      func.returnType ≠ .unresolved ∧
        (∀ param ∈ func.parameters, param.type ≠ .unresolved) ∧
        (∀ stmt ∈ body, stmt.isBlock) ∧ GrammaticalOption body
  | returnStmt _ value => ∀ result ∈ value, result.Grammatical
  | expression expr => expr.Grammatical

/-- The same for a branch or a body that may be missing. -/
def GrammaticalOption : Option Stmt → Prop
  | none => True
  | some stmt => stmt.Grammatical

/-- The same for the statements of a block. -/
def GrammaticalAll : List Stmt → Prop
  | [] => True
  | stmt :: rest => stmt.Grammatical ∧ GrammaticalAll rest

end

mutual

/-- The annotations of an analysed statement, inside a function if there is
one. -/
def Typed (func : Option FuncDecl) : Stmt → Prop
  | varDecl decl =>
      decl.varType.IsScalar ∧
        ∀ value ∈ decl.value, ∃ s : Semantic, s.WellFormed ∧ value.Typed s ∧
          s.scope.Free decl.id ∧ value.resolved.Widens decl.varType
  | varAssign assign =>
      ∃ (s : Semantic) (sym : VarSymbol), s.WellFormed ∧ assign.value.Typed s ∧
        s.scope.lookup assign.name = some sym ∧ assign.id = sym.id ∧
        assign.base.resolved = sym.type ∧ sym.qualifiers.isMutable ∧
        assign.value.resolved.Widens assign.base.resolved
  | block _ statements => TypedAll func statements
  | ifStmt _ condition branchThen branchElse =>
      (condition.Accepted ∧ condition.resolved = .bool) ∧ branchThen.Typed func ∧
        TypedOption func branchElse
  | whileStmt _ condition branchDo =>
      (condition.Accepted ∧ condition.resolved = .bool) ∧ branchDo.Typed func
  | funcDecl inner body =>
      (∀ param ∈ inner.parameters, param.type.IsScalar) ∧
        TypedOption (some inner) body ∧
        ∀ stmt ∈ body, inner.returnType ≠ .void → stmtAlwaysReturns stmt
  | returnStmt _ value =>
      ∃ current, func = some current ∧
        match value with
        | none => current.returnType = .void
        | some result =>
            result.Accepted ∧ result.resolved.Widens current.returnType
  | expression expr => expr.Accepted

/-- The same for a branch or a body that may be missing. -/
def TypedOption (func : Option FuncDecl) : Option Stmt → Prop
  | none => True
  | some stmt => stmt.Typed func

/-- The same for the statements of a block. -/
def TypedAll (func : Option FuncDecl) : List Stmt → Prop
  | [] => True
  | stmt :: rest => stmt.Typed func ∧ TypedAll func rest

end

theorem grammaticalOption_iff (branch : Option Stmt) :
    GrammaticalOption branch ↔ ∀ stmt ∈ branch, stmt.Grammatical := by
  cases branch <;> simp [GrammaticalOption]

theorem grammaticalAll_iff (statements : List Stmt) :
    GrammaticalAll statements ↔ ∀ stmt ∈ statements, stmt.Grammatical := by
  induction statements with
  | nil => simp [GrammaticalAll]
  | cons stmt rest inductionHypothesis =>
      simp [GrammaticalAll, inductionHypothesis]

theorem typedAll_iff (func : Option FuncDecl) (statements : List Stmt) :
    TypedAll func statements ↔ ∀ stmt ∈ statements, stmt.Typed func := by
  induction statements with
  | nil => simp [TypedAll]
  | cons stmt rest inductionHypothesis => simp [TypedAll, inductionHypothesis]

end Stmt

/-! ## The tables stay well formed -/

namespace Scope

theorem WellFormed.push {scope : Scope} (wellFormed : scope.WellFormed) :
    scope.push.WellFormed := by
  intro table inStack
  rcases List.mem_cons.mp inStack with rfl | inStack
  · simp
  · exact wellFormed table inStack

theorem WellFormed.pop {scope : Scope} (wellFormed : scope.WellFormed) :
    scope.pop.WellFormed :=
  fun table inStack => wellFormed table (List.mem_of_mem_drop inStack)

theorem WellFormed.insert {scope : Scope} (wellFormed : scope.WellFormed)
    (symbol : VarSymbol) (type : symbol.type.IsScalar) (filename : String) :
    (scope.insert symbol filename).1.WellFormed := by
  unfold Scope.insert
  split
  · exact wellFormed
  · rename_i table outer stack
    split
    · exact wellFormed
    · have older : ∀ old ∈ scope.stack, ∀ other ∈ old,
          other.type.IsScalar ∧ other.id < scope.nextId + 1 :=
        fun old inStack other inTable =>
          ⟨(wellFormed old inStack other inTable).1,
            Nat.lt_succ_of_lt (wellFormed old inStack other inTable).2⟩
      intro changed inStack other inTable
      rcases List.mem_cons.mp inStack with rfl | inStack
      · rcases List.mem_append.mp inTable with inTable | new
        · exact older table (by simp [stack]) other inTable
        · rw [List.mem_singleton.mp new]
          exact ⟨type, Nat.lt_succ_self _⟩
      · exact older changed (by simp [stack, inStack]) other inTable

/-- The two symbols differ in their flags at most. -/
def SameEntry (old new : VarSymbol) : Prop :=
  new = { old with initialized := new.initialized }

theorem mem_markTable {name : String} {table : List VarSymbol}
    {symbol : VarSymbol} (inTable : symbol ∈ markTable name table) :
    ∃ old ∈ table, SameEntry old symbol := by
  induction table with
  | nil => simp [markTable] at inTable
  | cons first rest inductionHypothesis =>
      unfold markTable at inTable
      split at inTable
      · rcases List.mem_cons.mp inTable with rfl | inTable
        · exact ⟨first, by simp, rfl⟩
        · exact ⟨symbol, by simp [inTable], rfl⟩
      · rcases List.mem_cons.mp inTable with rfl | inTable
        · exact ⟨symbol, by simp, rfl⟩
        · obtain ⟨old, inRest, same⟩ := inductionHypothesis inTable
          exact ⟨old, by simp [inRest], same⟩

theorem mem_markStack {name : String} {stack : List (List VarSymbol)}
    {table : List VarSymbol} (inStack : table ∈ markStack name stack)
    {symbol : VarSymbol} (inTable : symbol ∈ table) :
    ∃ oldTable ∈ stack, ∃ old ∈ oldTable, SameEntry old symbol := by
  induction stack with
  | nil => simp [markStack] at inStack
  | cons first outer inductionHypothesis =>
      unfold markStack at inStack
      split at inStack
      · rcases List.mem_cons.mp inStack with rfl | inStack
        · obtain ⟨old, inOld, same⟩ := mem_markTable inTable
          exact ⟨first, by simp, old, inOld, same⟩
        · exact ⟨table, by simp [inStack], symbol, inTable, rfl⟩
      · rcases List.mem_cons.mp inStack with rfl | inStack
        · exact ⟨table, by simp, symbol, inTable, rfl⟩
        · obtain ⟨oldTable, inOuter, old⟩ := inductionHypothesis inStack
          exact ⟨oldTable, by simp [inOuter], old⟩

theorem mem_restoreTable {table : List VarSymbol} {state : FlowState}
    {symbol : VarSymbol} (inTable : symbol ∈ (restoreTable table state).1) :
    ∃ old ∈ table, SameEntry old symbol := by
  induction table generalizing state with
  | nil => simp [restoreTable] at inTable
  | cons first rest inductionHypothesis =>
      cases state with
      | nil => exact ⟨symbol, by simpa [restoreTable] using inTable, rfl⟩
      | cons flag state =>
          rcases List.mem_cons.mp inTable with rfl | inTable
          · exact ⟨first, by simp, rfl⟩
          · obtain ⟨old, inRest, same⟩ := inductionHypothesis inTable
            exact ⟨old, by simp [inRest], same⟩

theorem mem_restoreStack {stack : List (List VarSymbol)} {state : FlowState}
    {table : List VarSymbol} (inStack : table ∈ (restoreStack stack state).1)
    {symbol : VarSymbol} (inTable : symbol ∈ table) :
    ∃ oldTable ∈ stack, ∃ old ∈ oldTable, SameEntry old symbol := by
  induction stack with
  | nil => simp [restoreStack] at inStack
  | cons first outer inductionHypothesis =>
      rcases List.mem_cons.mp inStack with rfl | inStack
      · obtain ⟨old, inOld, same⟩ := mem_restoreTable inTable
        exact ⟨first, by simp, old, inOld, same⟩
      · obtain ⟨oldTable, inOuter, old⟩ := inductionHypothesis inStack
        exact ⟨oldTable, by simp [inOuter], old⟩

/-- Changing flags keeps a scope well formed. -/
theorem WellFormed.of_sameEntry {scope : Scope} (wellFormed : scope.WellFormed)
    {stack : List (List VarSymbol)}
    (same : ∀ table ∈ stack, ∀ symbol ∈ table,
      ∃ oldTable ∈ scope.stack, ∃ old ∈ oldTable, SameEntry old symbol) :
    Scope.WellFormed { scope with stack := stack } := by
  intro table inStack symbol inTable
  obtain ⟨oldTable, inOldStack, old, inOldTable, entry⟩ :=
    same table inStack symbol inTable
  rw [entry]
  exact wellFormed oldTable inOldStack old inOldTable

theorem WellFormed.markInitialized {scope : Scope}
    (wellFormed : scope.WellFormed) (name : String) :
    (scope.markInitialized name).WellFormed :=
  wellFormed.of_sameEntry fun _ inStack _ inTable => mem_markStack inStack inTable

theorem WellFormed.flowRestore {scope : Scope} (wellFormed : scope.WellFormed)
    (state : FlowState) : (scope.flowRestore state).WellFormed :=
  wellFormed.of_sameEntry fun _ inStack _ inTable =>
    mem_restoreStack inStack inTable

/-- The symbol that an insertion appends has the number that was next. -/
theorem lookup_insert {scope : Scope} {symbol : VarSymbol} {filename : String}
    (clean : Log.hadErrors (scope.insert symbol filename).2 = false)
    {table : List VarSymbol} (inStack : table ∈ scope.stack) :
    ∃ found, (scope.insert symbol filename).1.lookup symbol.name = some found ∧
      found.id = scope.nextId := by
  unfold Scope.insert at clean ⊢
  split
  · rename_i empty
    simp [empty] at inStack
  · rename_i head outer stack
    simp only [stack] at clean
    split
    · rename_i other taken
      simp [taken] at clean
    · rename_i free
      refine ⟨{ symbol with id := scope.nextId, depth := scope.depth - 1 }, ?_, rfl⟩
      have absent : head.find? (fun other => other.name = symbol.name) = none :=
        free
      simp [Scope.lookup, lookupTable, List.find?_append, absent]

end Scope

namespace FuncSymbolTable

theorem mem_markDefined {table : FuncSymbolTable} {name : String}
    {func : FuncSymbol} (inTable : func ∈ (table.markDefined name).functions) :
    ∃ old ∈ table.functions, func.returnType = old.returnType ∧
      func.parameters = old.parameters := by
  unfold markDefined at inTable
  dsimp only at inTable
  split at inTable
  · exact ⟨func, inTable, rfl, rfl⟩
  · obtain ⟨index, bound, rfl⟩ := List.mem_iff_getElem.mp inTable
    rw [List.getElem_modify]
    rw [List.length_modify] at bound
    split
    · exact ⟨table.functions[index], List.getElem_mem _, rfl, rfl⟩
    · exact ⟨table.functions[index], List.getElem_mem _, rfl, rfl⟩

theorem Known.insert {table : FuncSymbolTable} (known : table.Known)
    (func : FuncSymbol) (returnType : func.returnType ≠ .unresolved)
    (parameters : ∀ param ∈ func.parameters, param.type ≠ .unresolved)
    (filename : String) : (table.insert func filename).table.Known := by
  unfold FuncSymbolTable.insert
  split
  · exact known
  · split
    · dsimp only
      split
      · exact known
      · split
        · exact known
        · split
          · intro changed inTable
            obtain ⟨old, inOld, sameReturn, sameParameters⟩ :=
              mem_markDefined inTable
            rw [sameReturn, sameParameters]
            exact known old inOld
          · exact known
    · intro changed inTable
      rcases List.mem_append.mp inTable with inTable | new
      · exact known changed inTable
      · rw [List.mem_singleton.mp new]
        exact ⟨returnType, parameters⟩

end FuncSymbolTable

/-! ## Statements -/

/-- The analysis of a statement keeps the tables well formed, and leaves a
typed statement when it logs no error. -/
structure StmtAnalysis.Sound (s : Semantic) (analysis : StmtAnalysis) : Prop where
  wellFormed : analysis.state.WellFormed
  currentFunc : analysis.state.currentFunc = s.currentFunc
  typed : Log.hadErrors analysis.log = false → analysis.node.Typed s.currentFunc

section Statements

variable {s : Semantic}

theorem checkAssignmentType_cases (s : Semantic) {resolved : ValueType}
    (target : ValueType) (span : Span) (known : resolved ≠ .unresolved) :
    let check := checkAssignmentType s resolved target span
    Log.hadErrors check.log = !check.ok ∧
      (check.ok → resolved.Widens target) := by
  have cases := checkConversion_cases target
    (resolved.widthBits > target.widthBits)
    (s.isError_error "type mismatch"
      "cannot assign '%s' to a variable of type '%s'"
      (some ("make sure the expression type matches the variable type, or " ++
        "cast it"))
      .semanticTypeMismatch span [resolved.name, target.name])
    (s.isError_error "narrowing conversion"
      "cannot implicitly narrow '%s' to '%s'"
      (some "cast the value explicitly, or use a wider variable type")
      .semanticInvalidImplicitCast span [resolved.name, target.name]) known
  exact ⟨cases.1, fun ok => ⟨(cases.2 ok).1, by simpa using (cases.2 ok).2⟩⟩

theorem checkReturnType_cases (s : Semantic) {resolved : ValueType}
    (target : ValueType) (funcName : String) (span : Span)
    (known : resolved ≠ .unresolved) :
    let check := checkReturnType s resolved target funcName span
    Log.hadErrors check.log = !check.ok ∧
      (check.ok → resolved.Widens target) := by
  have cases := checkConversion_cases target
    (resolved.widthBits > target.widthBits)
    (s.isError_error "type mismatch"
      "function '%s' expects to return '%s', but this expression has type '%s'"
      (some ("make sure the returned expression matches the function's return " ++
        "type, or cast it"))
      .semanticTypeMismatch span [funcName, target.name, resolved.name])
    (s.isError_error "narrowing conversion"
      ("cannot implicitly narrow '%s' to '%s' when returning from function " ++
        "'%s'")
      (some "cast the value explicitly, or change the function's return type")
      .semanticInvalidImplicitCast span [resolved.name, target.name, funcName])
    known
  exact ⟨cases.1, fun ok => ⟨(cases.2 ok).1, by simpa using (cases.2 ok).2⟩⟩

theorem insertVarDecl_wellFormed (wellFormed : s.WellFormed) (decl : VarDecl)
    {sym : VarSymbol} (type : sym.type.IsScalar) :
    (insertVarDecl s decl sym).state.WellFormed :=
  ⟨wellFormed.scope.insert _ type s.filename, wellFormed.funcs⟩

theorem analyzeInitialiser_sound (wellFormed : s.WellFormed) {decl : VarDecl}
    (type : decl.varType.IsScalar)
    (grammatical : ∀ value ∈ decl.value, value.Grammatical) {sym : VarSymbol}
    (symType : sym.type.IsScalar) (name : sym.name = decl.name) :
    (analyzeInitialiser s decl sym).Sound s := by
  unfold analyzeInitialiser
  split
  · rename_i value
    exact ⟨insertVarDecl_wellFormed wellFormed _ symType, rfl,
      fun _ => ⟨type, by simp [value]⟩⟩
  · rename_i value initialiser
    have sound := analyzeExpr_sound wellFormed
      (grammatical value initialiser) decl.varType
    dsimp only
    split
    · rename_i failed
      simp only [Bool.not_eq_true'] at failed
      exact ⟨wellFormed, rfl, by simp [sound.log, failed]⟩
    · rename_i ok
      simp only [Bool.not_eq_true, Bool.not_eq_false'] at ok
      obtain ⟨checkLog, checkOk⟩ := checkAssignmentType_cases s decl.varType
        decl.base.span (sound.resolved ok)
      split
      · rename_i failed
        simp only [Bool.not_eq_true'] at failed
        exact ⟨wellFormed, rfl, by simp [checkLog, failed]⟩
      · rename_i checked
        simp only [Bool.not_eq_true, Bool.not_eq_false'] at checked
        refine ⟨insertVarDecl_wellFormed wellFormed decl symType, rfl,
          fun clean => ⟨type, fun result initialised => ?_⟩⟩
        obtain rfl := Option.some.inj initialised
        refine ⟨s, wellFormed, sound.typed ok, ?_, checkOk checked⟩
        intro table inStack symbol inTable
        simp only [StmtAnalysis.after, insertVarDecl, Log.hadErrors_append,
          Bool.or_eq_false_iff] at clean ⊢
        obtain ⟨found, lookup, id⟩ := Scope.lookup_insert clean.2 inStack
        rw [name] at lookup
        simp only [lookup, id]
        exact Nat.ne_of_lt (wellFormed.scope table inStack symbol inTable).2

theorem analyzeVarSymQual_log (s : Semantic) (sym : VarSymbol) :
    Log.hadErrors (analyzeVarSymQual s sym).log = !(analyzeVarSymQual s sym).ok := by
  unfold analyzeVarSymQual
  split
  · simp
  · split <;> simp

theorem analyzeVarDecl_sound (wellFormed : s.WellFormed) {decl : VarDecl}
    (grammatical : (Stmt.varDecl decl).Grammatical) :
    (analyzeVarDecl s decl).Sound s := by
  unfold analyzeVarDecl
  dsimp only
  split
  · exact ⟨wellFormed, rfl, by simp⟩
  · rename_i value
    have type := ValueType.isScalar_of_ne grammatical.1 value
    split
    · exact ⟨wellFormed, rfl, by simp⟩
    · split
      · rename_i failed
        simp only [Bool.not_eq_true'] at failed
        exact ⟨wellFormed, rfl, by simp [analyzeVarSymQual_log, failed]⟩
      · exact analyzeInitialiser_sound wellFormed type grammatical.2 type rfl

theorem analyzeVarAssign_sound (wellFormed : s.WellFormed) {assign : VarAssign}
    (grammatical : assign.value.Grammatical) :
    (analyzeVarAssign s assign).Sound s := by
  unfold analyzeVarAssign
  split
  · exact ⟨wellFormed, rfl, by simp⟩
  · rename_i sym found
    have sound := analyzeExpr_sound wellFormed grammatical sym.type
    dsimp only
    split
    · rename_i failed
      simp only [Bool.not_eq_true'] at failed
      exact ⟨wellFormed, rfl, by simp [sound.log, failed]⟩
    · rename_i ok
      simp only [Bool.not_eq_true, Bool.not_eq_false'] at ok
      obtain ⟨checkLog, checkOk⟩ := checkAssignmentType_cases s sym.type
        assign.base.span (sound.resolved ok)
      split
      · rename_i failed
        simp only [Bool.not_eq_true'] at failed
        exact ⟨wellFormed, rfl, by simp [checkLog, failed]⟩
      · rename_i checked
        simp only [Bool.not_eq_true, Bool.not_eq_false'] at checked
        refine ⟨⟨wellFormed.scope.markInitialized _, wellFormed.funcs⟩, rfl,
          fun clean => ⟨s, sym, wellFormed, sound.typed ok, found, rfl, rfl, ?_,
            checkOk checked⟩⟩
        by_contra immutable
        simp [immutable] at clean

theorem analyzeReturn_sound (wellFormed : s.WellFormed) {base : Base}
    {value : Option Expr}
    (grammatical : ∀ result ∈ value, result.Grammatical) :
    (analyzeReturn s base value).Sound s := by
  unfold analyzeReturn
  cases current : s.currentFunc with
  | none => exact ⟨wellFormed, rfl, by simp⟩
  | some func =>
      cases value with
      | none =>
          refine ⟨wellFormed, rfl, fun clean => ⟨func, current, ?_⟩⟩
          by_contra type
          simp [type] at clean
      | some value =>
          have grammatical := grammatical value rfl
          dsimp only
          split
          · have sound := analyzeExpr_sound wellFormed grammatical .unresolved
            refine ⟨wellFormed, rfl, fun clean => ?_⟩
            simp only at clean
            split at clean
            · simp_all [sound.log]
            · simp at clean
          · have sound := analyzeExpr_sound wellFormed grammatical func.returnType
            refine ⟨wellFormed, rfl, fun clean => ⟨func, current, ?_⟩⟩
            simp only at clean
            split at clean
            · simp_all [sound.log]
            · rename_i ok
              simp only [Bool.not_eq_true, Bool.not_eq_false'] at ok
              obtain ⟨checkLog, checkOk⟩ := checkReturnType_cases s
                func.returnType func.name base.span (sound.resolved ok)
              simp only [Log.hadErrors_append, Bool.or_eq_false_iff, checkLog,
                Bool.not_eq_false'] at clean
              exact ⟨⟨s, wellFormed, sound.typed ok⟩, checkOk clean.2⟩

theorem analyzeExprStmt_sound (wellFormed : s.WellFormed) {expr : Expr}
    (grammatical : expr.Grammatical) : (analyzeExprStmt s expr).Sound s := by
  have sound := analyzeExpr_sound wellFormed grammatical .unresolved
  refine ⟨wellFormed, rfl, fun clean => ⟨s, wellFormed, sound.typed ?_⟩⟩
  simp only [analyzeExprStmt, Log.hadErrors_append, Bool.or_eq_false_iff,
    sound.log, Bool.not_eq_false'] at clean
  exact clean.1

/-- An accepted condition is a typed boolean. -/
theorem analyzeCondition_cases (wellFormed : s.WellFormed) (keyword : String)
    {condition : Expr} (grammatical : condition.Grammatical) :
    let analysis := analyzeCondition s keyword condition
    Log.hadErrors analysis.log = !analysis.ok ∧
      (analysis.ok → analysis.node.Typed s ∧ analysis.node.resolved = .bool) := by
  have sound := analyzeExpr_sound wellFormed grammatical .bool
  unfold analyzeCondition
  dsimp only
  split
  · rename_i failed
    simp only [Bool.not_eq_true'] at failed
    simp [sound.log, failed]
  · rename_i ok
    simp only [Bool.not_eq_true, Bool.not_eq_false'] at ok
    split
    · simp
    · rename_i type
      push Not at type
      exact ⟨sound.log, fun ok => ⟨sound.typed ok, type⟩⟩

/-- A branch is sound when its analysis is, from any well-formed state inside
the same function. -/
def SoundFrom (func : Option FuncDecl) (analyze : Semantic → StmtAnalysis) :
    Prop :=
  ∀ s : Semantic, s.WellFormed → s.currentFunc = func → (analyze s).Sound s

theorem analyzeIf_sound (wellFormed : s.WellFormed) {base : Base}
    {condition : Expr} {branchThen : Stmt} {branchElse : Option Stmt}
    (grammatical : condition.Grammatical)
    (thenSound : SoundFrom s.currentFunc fun s => analyzeStatement branchThen s)
    (elseSound : ∀ stmt ∈ branchElse,
      SoundFrom s.currentFunc fun s => analyzeStatement stmt s) :
    (analyzeIf s base condition branchThen branchElse
      (fun s => analyzeStatement branchThen s)
      (fun s => analyzeOption branchElse s)).Sound s := by
  obtain ⟨conditionLog, conditionTyped⟩ :=
    analyzeCondition_cases wellFormed "if" grammatical
  unfold analyzeIf
  dsimp only
  split
  · rename_i failed
    simp only [Bool.not_eq_true'] at failed
    exact ⟨wellFormed, rfl, by simp [conditionLog, failed]⟩
  · rename_i ok
    simp only [Bool.not_eq_true, Bool.not_eq_false'] at ok
    obtain ⟨typed, bool⟩ := conditionTyped ok
    have first := thenSound s wellFormed rfl
    have restored : ({ (analyzeStatement branchThen s).state with
        scope := (analyzeStatement branchThen s).state.scope.flowRestore
          s.scope.flowSave } : Semantic).WellFormed :=
      ⟨first.wellFormed.scope.flowRestore _, first.wellFormed.funcs⟩
    cases branchElse with
    | none =>
        refine ⟨⟨restored.scope.flowRestore _, restored.funcs⟩,
          first.currentFunc, fun clean => ?_⟩
        simp only [analyzeOption, Log.hadErrors_append, Bool.or_eq_false_iff]
          at clean
        exact ⟨⟨⟨s, wellFormed, typed⟩, bool⟩, first.typed clean.1.2, trivial⟩
    | some stmt =>
        have second := elseSound stmt rfl _ restored first.currentFunc
        refine ⟨⟨second.wellFormed.scope.flowRestore _, second.wellFormed.funcs⟩,
          second.currentFunc.trans first.currentFunc, fun clean => ?_⟩
        simp only [analyzeOption, Log.hadErrors_append, Bool.or_eq_false_iff]
          at clean
        have typedElse := second.typed clean.2
        rw [first.currentFunc] at typedElse
        exact ⟨⟨⟨s, wellFormed, typed⟩, bool⟩, first.typed clean.1.2, typedElse⟩

theorem analyzeWhile_sound (wellFormed : s.WellFormed) {base : Base}
    {condition : Expr} {branchDo : Stmt} (grammatical : condition.Grammatical)
    (doSound : SoundFrom s.currentFunc fun s => analyzeStatement branchDo s) :
    (analyzeWhile s base condition branchDo
      (fun s => analyzeStatement branchDo s)).Sound s := by
  obtain ⟨conditionLog, conditionTyped⟩ :=
    analyzeCondition_cases wellFormed "while" grammatical
  unfold analyzeWhile
  dsimp only
  split
  · rename_i failed
    simp only [Bool.not_eq_true'] at failed
    exact ⟨wellFormed, rfl, by simp [conditionLog, failed]⟩
  · rename_i ok
    simp only [Bool.not_eq_true, Bool.not_eq_false'] at ok
    obtain ⟨typed, bool⟩ := conditionTyped ok
    have body := doSound s wellFormed rfl
    refine ⟨⟨body.wellFormed.scope.flowRestore _, body.wellFormed.funcs⟩,
      body.currentFunc, fun clean => ?_⟩
    simp only [Log.hadErrors_append, Bool.or_eq_false_iff] at clean
    exact ⟨⟨⟨s, wellFormed, typed⟩, bool⟩, body.typed clean.2⟩

theorem insertParameters_sound (filename : String) (span : Span) {scope : Scope}
    (wellFormed : scope.WellFormed) {params : List Parameter}
    (known : ∀ param ∈ params, param.type ≠ .unresolved) :
    (insertParameters filename span scope params).scope.WellFormed ∧
      (insertParameters filename span scope params).parameters.map Parameter.type =
        params.map Parameter.type := by
  induction params generalizing scope with
  | nil => exact ⟨wellFormed, rfl⟩
  | cons param rest inductionHypothesis =>
      have restKnown : ∀ param ∈ rest, param.type ≠ .unresolved :=
        fun other inRest => known other (List.mem_cons_of_mem _ inRest)
      unfold insertParameters
      split
      · obtain ⟨others, types⟩ := inductionHypothesis wellFormed restKnown
        exact ⟨others, by simp [types]⟩
      · rename_i value
        have type := ValueType.isScalar_of_ne (known param (by simp)) value
        obtain ⟨others, types⟩ := inductionHypothesis
          (wellFormed.insert
            { name := param.name
              type := param.type
              initialized := true
              span := span
              qualifiers := param.qualifiers } type filename) restKnown
        exact ⟨others, by simp [types]⟩

/-- Parameters without an error in their log are scalar. -/
theorem analyzeParameters_scalar {span : Span} {previous : List String}
    {params : List Parameter}
    (known : ∀ param ∈ params, param.type ≠ .unresolved)
    (clean : Log.hadErrors (analyzeParameters s span previous params) = false) :
    ∀ param ∈ params, param.type.IsScalar := by
  induction params generalizing previous with
  | nil => simp
  | cons param rest inductionHypothesis =>
      simp only [analyzeParameters, Log.hadErrors_append, Bool.or_eq_false_iff]
        at clean
      intro other inParams
      rcases List.mem_cons.mp inParams with rfl | inRest
      · apply ValueType.isScalar_of_ne (known other (by simp))
        rintro type
        simp [type] at clean
      · exact inductionHypothesis
          (fun other inRest => known other (List.mem_cons_of_mem _ inRest))
          clean.2 other inRest

/-- From the body on, a function is sound once its parameters are scalar. -/
theorem analyzeFuncBody_sound (wellFormed : s.WellFormed) (func : FuncDecl)
    {body : Stmt} (known : ∀ param ∈ func.parameters, param.type ≠ .unresolved)
    (bodySound : ∀ func, SoundFrom func fun s => analyzeStatement body s) :
    let analysis := analyzeFuncBody s func fun s => analyzeStatement body s
    analysis.state.WellFormed ∧ analysis.state.currentFunc = s.currentFunc ∧
      ((∀ param ∈ func.parameters, param.type.IsScalar) →
        Log.hadErrors analysis.log = false → analysis.node.Typed s.currentFunc) := by
  obtain ⟨insertedWellFormed, types⟩ := insertParameters_sound
    s.filename func.base.span wellFormed.scope.push known
  unfold analyzeFuncBody
  generalize insertParameters s.filename func.base.span s.scope.push
    func.parameters = inserted at insertedWellFormed types
  have sound := bodySound _
    { s with
      scope := inserted.scope
      currentFunc := some { func with parameters := inserted.parameters } }
    ⟨insertedWellFormed, wellFormed.funcs⟩ rfl
  refine ⟨⟨sound.wellFormed.scope.pop, sound.wellFormed.funcs⟩, rfl,
    fun scalar clean => ?_⟩
  simp only [Log.hadErrors_append, Bool.or_eq_false_iff] at clean
  refine ⟨fun param inParams => ?_, sound.typed clean.1.2, ?_⟩
  · have inTypes := List.mem_map_of_mem (f := Parameter.type) inParams
    rw [types] at inTypes
    obtain ⟨original, inOriginal, type⟩ := List.mem_map.mp inTypes
    rw [← type]
    exact scalar original inOriginal
  · intro stmt isBody value
    obtain rfl := Option.some.inj isBody
    by_contra returns
    rw [if_pos ⟨value, by simpa using returns⟩] at clean
    simp at clean

theorem analyzeFuncSymQual_log (s : Semantic) (sym : FuncSymbol) :
    Log.hadErrors (analyzeFuncSymQual s sym).log =
      !(analyzeFuncSymQual s sym).ok := by
  unfold analyzeFuncSymQual
  split
  · simp
  · split <;> simp

theorem analyzeFuncDecl_sound (wellFormed : s.WellFormed) {func : FuncDecl}
    {body : Option Stmt} (returnType : func.returnType ≠ .unresolved)
    (known : ∀ param ∈ func.parameters, param.type ≠ .unresolved)
    (bodySound : ∀ stmt ∈ body, ∀ func,
      SoundFrom func fun s => analyzeStatement stmt s) :
    (analyzeStatement (.funcDecl func body) s).Sound s := by
  have inserted : ({ s with
      funcs := (s.funcs.insert (funcSymbol s func body.isSome)
        s.filename).table } : Semantic).WellFormed :=
    ⟨wellFormed.scope, wellFormed.funcs.insert _ returnType known s.filename⟩
  unfold analyzeStatement analyzeFuncDecl
  dsimp only
  split
  · rename_i failed
    simp only [Bool.not_eq_true'] at failed
    exact ⟨wellFormed, rfl, by simp [analyzeFuncSymQual_log, failed]⟩
  · split
    · rename_i failed
      simp only [Bool.not_eq_true'] at failed
      have error := FuncSymbolTable.hadErrors_of_insert_not_ok failed
      exact ⟨inserted, rfl, by simp [error]⟩
    · cases body with
      | none =>
          refine ⟨inserted, rfl, fun clean => ⟨?_, trivial, by simp⟩⟩
          simp only [Log.hadErrors_append, Bool.or_eq_false_iff] at clean
          exact analyzeParameters_scalar known clean.1
      | some body =>
          dsimp only
          obtain ⟨wellFormedAfter, currentFunc, typed⟩ :=
            analyzeFuncBody_sound inserted
              { func with linkName := some (funcSymbol s func true).linkName } known
              (bodySound body rfl)
          refine ⟨wellFormedAfter, currentFunc, fun clean => ?_⟩
          simp only [StmtAnalysis.after, Log.hadErrors_append,
            Bool.or_eq_false_iff] at clean
          exact typed (analyzeParameters_scalar known clean.1.1) clean.2

theorem analyzeStatements_sound {statements : List Stmt} {func : Option FuncDecl}
    (sound : ∀ stmt ∈ statements,
      SoundFrom func fun s => analyzeStatement stmt s)
    (wellFormed : s.WellFormed) (currentFunc : s.currentFunc = func) :
    let analysis := analyzeStatements statements s
    analysis.state.WellFormed ∧ analysis.state.currentFunc = func ∧
      (Log.hadErrors analysis.log = false → Stmt.TypedAll func analysis.nodes) := by
  induction statements generalizing s with
  | nil => exact ⟨wellFormed, currentFunc, fun _ => trivial⟩
  | cons stmt rest inductionHypothesis =>
      have first := sound stmt (by simp) s wellFormed currentFunc
      have others := inductionHypothesis
        (fun other inRest => sound other (List.mem_cons_of_mem _ inRest))
        first.wellFormed (first.currentFunc.trans currentFunc)
      refine ⟨others.1, others.2.1, fun clean => ?_⟩
      simp only [analyzeStatements, Log.hadErrors_append, Bool.or_eq_false_iff]
        at clean
      have typed := first.typed clean.1
      rw [currentFunc] at typed
      exact ⟨typed, others.2.2 clean.2⟩

end Statements

/-- The analysis of a statement is sound from every well-formed state. -/
theorem analyzeStatement_sound {stmt : Stmt} (grammatical : stmt.Grammatical)
    (func : Option FuncDecl) :
    SoundFrom func fun s => analyzeStatement stmt s := by
  induction stmt using Stmt.induction generalizing func with
  | varDecl decl =>
      rintro s wellFormed -
      exact analyzeVarDecl_sound wellFormed grammatical
  | varAssign assign =>
      rintro s wellFormed -
      exact analyzeVarAssign_sound wellFormed grammatical
  | block base statements statementsHypothesis =>
      rintro s wellFormed rfl
      have grammatical := (Stmt.grammaticalAll_iff statements).mp grammatical
      obtain ⟨wellFormedAfter, currentFunc, typed⟩ := analyzeStatements_sound
        (s := { s with scope := s.scope.push })
        (fun stmt inBlock => statementsHypothesis stmt inBlock
          (grammatical stmt inBlock) s.currentFunc)
        ⟨wellFormed.scope.push, wellFormed.funcs⟩ rfl
      exact ⟨⟨wellFormedAfter.scope.pop, wellFormedAfter.funcs⟩, currentFunc,
        typed⟩
  | ifStmt base condition branchThen branchElse thenHypothesis elseHypothesis =>
      rintro s wellFormed rfl
      obtain ⟨conditionGrammatical, ⟨-, thenGrammatical⟩, -, elseGrammatical⟩ :=
        grammatical
      refine analyzeIf_sound wellFormed conditionGrammatical
        (thenHypothesis thenGrammatical _) ?_
      rintro stmt rfl
      exact elseHypothesis stmt rfl elseGrammatical _
  | whileStmt base condition branchDo doHypothesis =>
      rintro s wellFormed rfl
      obtain ⟨conditionGrammatical, -, doGrammatical⟩ := grammatical
      exact analyzeWhile_sound wellFormed conditionGrammatical
        (doHypothesis doGrammatical _)
  | funcDecl func body bodyHypothesis =>
      rintro s wellFormed rfl
      obtain ⟨returnType, known, -, bodyGrammatical⟩ := grammatical
      refine analyzeFuncDecl_sound wellFormed returnType known ?_
      rintro stmt rfl inner
      exact bodyHypothesis stmt rfl bodyGrammatical inner
  | returnStmt base value =>
      rintro s wellFormed -
      exact analyzeReturn_sound wellFormed grammatical
  | expression expr =>
      rintro s wellFormed -
      exact analyzeExprStmt_sound wellFormed grammatical

end Sulfur
