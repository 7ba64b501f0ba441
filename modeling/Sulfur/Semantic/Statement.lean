import Sulfur.Semantic.Expression

/-!
# Statement analysis

The statements of `semantic.c`.  An analysis takes the state of the analyser
and returns the state it leaves, the annotated statement and what it logged.
-/

namespace Sulfur

/-- What `analyze_statement` leaves behind and logs. -/
structure StmtAnalysis where
  state : Semantic
  node : Stmt
  log : Log
  deriving Repr

/-- The same for the statements of a block. -/
structure StmtsAnalysis where
  state : Semantic
  nodes : List Stmt
  log : Log
  deriving Repr

/-- An analysis after something else was logged. -/
def StmtAnalysis.after (log : Log) (analysis : StmtAnalysis) : StmtAnalysis :=
  { analysis with log := log ++ analysis.log }

/-- `check_assignment_type`. -/
def checkAssignmentType (s : Semantic) (resolved target : ValueType)
    (span : Span) : Check :=
  checkConversion resolved target (resolved.widthBits > target.widthBits)
    (s.error "type mismatch" "cannot assign '%s' to a variable of type '%s'"
      (some ("make sure the expression type matches the variable type, or " ++
        "cast it"))
      .semanticTypeMismatch span [resolved.name, target.name])
    (s.error "narrowing conversion" "cannot implicitly narrow '%s' to '%s'"
      (some "cast the value explicitly, or use a wider variable type")
      .semanticInvalidImplicitCast span [resolved.name, target.name])

/-- `check_return_type`. -/
def checkReturnType (s : Semantic) (resolved target : ValueType)
    (funcName : String) (span : Span) : Check :=
  checkConversion resolved target (resolved.widthBits > target.widthBits)
    (s.error "type mismatch"
      "function '%s' expects to return '%s', but this expression has type '%s'"
      (some ("make sure the returned expression matches the function's return " ++
        "type, or cast it"))
      .semanticTypeMismatch span [funcName, target.name, resolved.name])
    (s.error "narrowing conversion"
      ("cannot implicitly narrow '%s' to '%s' when returning from function " ++
        "'%s'")
      (some "cast the value explicitly, or change the function's return type")
      .semanticInvalidImplicitCast span [resolved.name, target.name, funcName])

/-- The statements of a path through the tree include a return. -/
def stmtAlwaysReturns : Stmt → Bool
  | .returnStmt .. => true
  | .block _ statements => anyAlwaysReturns statements
  | .ifStmt _ _ branchThen branchElse =>
      match branchElse with
      | none => false
      | some branchElse =>
          stmtAlwaysReturns branchThen && stmtAlwaysReturns branchElse
  | _ => false
where
  /-- The loop of `stmt_always_returns` over a block. -/
  anyAlwaysReturns : List Stmt → Bool
    | [] => false
    | stmt :: rest => stmtAlwaysReturns stmt || anyAlwaysReturns rest

/-- `stmt_always_returns` on a pointer that may be null. -/
def optionAlwaysReturns : Option Stmt → Bool
  | none => false
  | some stmt => stmtAlwaysReturns stmt

/-- `has_no_effect`. -/
def hasNoEffect : Expr → Bool
  | .literal .. | .identifier .. => true
  | .binary _ _ left right => hasNoEffect left && hasNoEffect right
  | .unary _ op operand =>
      if op.isIncrementOrDecrement then false else hasNoEffect operand
  | .cast _ _ operand => hasNoEffect operand
  | .funcCall .. => false

/-! ## Declarations and assignments of variables -/

/-- `shadows_parameter`. -/
def shadowsParameter (s : Semantic) (name : String) : Bool :=
  match s.currentFunc with
  | none => false
  | some func => func.parameters.any fun param => param.name = name

/-- `analyze_var_sym_qual`. -/
def analyzeVarSymQual (s : Semantic) (sym : VarSymbol) : Check :=
  if sym.qualifiers.isPublic then
    ⟨false,
      [s.error "invalid qualifier" "variables cannot be public"
        (some "remove the invalid qualifier") .semanticInvalidQualifier
        sym.span []]⟩
  else if sym.qualifiers.isExtern then
    ⟨false,
      [s.error "invalid qualifier" "variables cannot be extern"
        (some "remove the invalid qualifier") .semanticInvalidQualifier
        sym.span []]⟩
  else
    ⟨true, []⟩

/-- The end of `analyze_var_decl`: insert the symbol, and read its number back. -/
def insertVarDecl (s : Semantic) (decl : VarDecl) (sym : VarSymbol) :
    StmtAnalysis :=
  let inserted := s.scope.insert sym s.filename
  let id :=
    match inserted.1.lookup decl.name with
    | some found => found.id
    | none => decl.id
  ⟨{ s with scope := inserted.1 }, .varDecl { decl with id := id }, inserted.2⟩

/-- The initialiser of `analyze_var_decl`, and the insertion after it. -/
def analyzeInitialiser (s : Semantic) (decl : VarDecl) (sym : VarSymbol) :
    StmtAnalysis :=
  match decl.value with
  | none => insertVarDecl s decl sym
  | some value =>
      let analysis := analyzeExpr s value decl.varType
      let decl := { decl with value := some analysis.node }
      let check := checkAssignmentType s analysis.node.resolved decl.varType
        decl.base.span
      if !analysis.ok then
        ⟨s, .varDecl decl, analysis.log⟩
      else if !check.ok then
        ⟨s, .varDecl decl, analysis.log ++ check.log⟩
      else
        (insertVarDecl s decl sym).after (analysis.log ++ check.log)

/-- `analyze_var_decl`. -/
def analyzeVarDecl (s : Semantic) (decl : VarDecl) : StmtAnalysis :=
  let sym : VarSymbol :=
    { name := decl.name
      type := decl.varType
      initialized := decl.value.isSome
      span := decl.base.span
      qualifiers := decl.qualifiers }
  let qualifiers := analyzeVarSymQual s sym
  if sym.type = .void then
    ⟨s, .varDecl decl,
      [s.error "invalid type" "variables cannot be 'void'"
        (some "give the variable '%s' a valid type") .semanticInvalidType
        decl.base.span [decl.name]]⟩
  else if shadowsParameter s sym.name then
    ⟨s, .varDecl decl,
      [s.error "redeclaration" "'%s' shadows a parameter of function '%s'"
        (some "rename the variable, or remove the declaration")
        .semanticRedeclaration decl.base.span
        [decl.name, (s.currentFunc.map FuncDecl.name).getD ""]]⟩
  else if !qualifiers.ok then
    ⟨s, .varDecl decl, qualifiers.log⟩
  else
    analyzeInitialiser s decl sym

/-- `analyze_var_assign`. -/
def analyzeVarAssign (s : Semantic) (assign : VarAssign) : StmtAnalysis :=
  match s.scope.lookup assign.name with
  | none =>
      ⟨s, .varAssign assign, [s.reportUndeclared assign.name assign.base.span]⟩
  | some sym =>
      let analysis := analyzeExpr s assign.value sym.type
      let assign := { assign with id := sym.id, value := analysis.node }
      let check := checkAssignmentType s analysis.node.resolved sym.type
        assign.base.span
      let mutability :=
        if sym.qualifiers.isMutable then
          []
        else
          [s.error "invalid assign" "variable '%s' is not mutable"
            (some "make the variable mutable or dont assign values to it")
            .semanticInvalidAssign assign.base.span [assign.name]]
      if !analysis.ok then
        ⟨s, .varAssign assign, analysis.log⟩
      else if !check.ok then
        ⟨s, .varAssign assign, analysis.log ++ check.log⟩
      else
        ⟨{ s with scope := s.scope.markInitialized assign.name },
          .varAssign
            { assign with base := { assign.base with resolved := sym.type } },
          analysis.log ++ check.log ++ mutability⟩

/-- `analyze_return`. -/
def analyzeReturn (s : Semantic) (base : Base) (value : Option Expr) :
    StmtAnalysis :=
  match s.currentFunc with
  | none =>
      ⟨s, .returnStmt base value,
        [s.error "return outside function"
          "'return' cannot be used outside of a function"
          (some "move this return inside a function body, or remove it")
          .semanticReturnOutsideFunction base.span []]⟩
  | some func =>
      match value with
      | none =>
          ⟨s, .returnStmt base none,
            if func.returnType ≠ .void then
              [s.error "missing return value"
                ("function '%s' expects a return value of type '%s', but " ++
                  "this 'return' provides none")
                (some ("return a value of the expected type, or change the " ++
                  "function's return type to 'void'"))
                .semanticNoValueReturn base.span
                [func.name, func.returnType.name]]
            else
              []⟩
      | some value =>
          if func.returnType = .void then
            let analysis := analyzeExpr s value .unresolved
            ⟨s, .returnStmt base (some analysis.node),
              if !analysis.ok then
                analysis.log
              else
                analysis.log ++
                  [s.error "unexpected return value"
                    ("function '%s' is 'void' and should not return a value, " ++
                      "but this 'return' provides a value of type '%s'")
                    (some ("remove the returned value, or give the function " ++
                      "a non-void return type"))
                    .semanticVoidReturnValue base.span
                    [func.name, analysis.node.resolved.name]]⟩
          else
            let analysis := analyzeExpr s value func.returnType
            ⟨s, .returnStmt base (some analysis.node),
              if !analysis.ok then
                analysis.log
              else
                analysis.log ++
                  (checkReturnType s analysis.node.resolved func.returnType
                    func.name base.span).log⟩

/-- The branch of `analyze_statement` for an expression. -/
def analyzeExprStmt (s : Semantic) (expr : Expr) : StmtAnalysis :=
  let analysis := analyzeExpr s expr .unresolved
  ⟨s, .expression analysis.node, analysis.log ++
    if hasNoEffect analysis.node then
      [logWarning s.filename "unused expression"
        "the result of this expression is discarded"
        (some "assign the result to a variable, or remove the statement")
        .semanticUnusedExpression expr.span []]
    else
      []⟩

/-! ## Conditions -/

/-- The condition of `analyze_if` and of `analyze_while`, which differ in the
word of their report. -/
def analyzeCondition (s : Semantic) (keyword : String) (condition : Expr) :
    ExprAnalysis :=
  let analysis := analyzeExpr s condition .bool
  if !analysis.ok then
    analysis
  else if analysis.node.resolved ≠ .bool then
    ⟨false, analysis.node, analysis.log ++
      [s.error "type mismatch"
        (keyword ++ " condition should always be a boolean expression, found %s")
        (some "check for typos and missing operands") .semanticTypeMismatch
        analysis.node.span [analysis.node.resolved.name]]⟩
  else
    analysis

/-- The flow state after a branch, all true when the branch always returns. -/
def branchFlow (scope : Scope) (returns : Bool) : FlowState :=
  if returns then scope.flowSave.flowFill true else scope.flowSave

/-- `analyze_if`, on the analyses of its branches. -/
def analyzeIf (s : Semantic) (base : Base) (condition : Expr)
    (branchThen : Stmt) (branchElse : Option Stmt)
    (analyzeThen : Semantic → StmtAnalysis)
    (analyzeElse : Semantic → Semantic × Option Stmt × Log) : StmtAnalysis :=
  let analysis := analyzeCondition s "if" condition
  if !analysis.ok then
    ⟨s, .ifStmt base analysis.node branchThen branchElse, analysis.log⟩
  else
    let before := s.scope.flowSave
    let thenAnalysis := analyzeThen s
    let afterThen := branchFlow thenAnalysis.state.scope
      (stmtAlwaysReturns thenAnalysis.node)
    let restored := thenAnalysis.state.scope.flowRestore before
    let elseAnalysis := analyzeElse { thenAnalysis.state with scope := restored }
    let afterElse := branchFlow elseAnalysis.1.scope
      (optionAlwaysReturns elseAnalysis.2.1)
    let merged := elseAnalysis.1.scope.flowRestore (afterThen.flowAnd afterElse)
    ⟨{ elseAnalysis.1 with scope := merged },
      .ifStmt base analysis.node thenAnalysis.node elseAnalysis.2.1,
      analysis.log ++ thenAnalysis.log ++ elseAnalysis.2.2⟩

/-- `analyze_while`, on the analysis of its body. -/
def analyzeWhile (s : Semantic) (base : Base) (condition : Expr)
    (branchDo : Stmt) (analyzeDo : Semantic → StmtAnalysis) : StmtAnalysis :=
  let analysis := analyzeCondition s "while" condition
  if !analysis.ok then
    ⟨s, .whileStmt base analysis.node branchDo, analysis.log⟩
  else
    let before := s.scope.flowSave
    let doAnalysis := analyzeDo s
    let restored := doAnalysis.state.scope.flowRestore before
    ⟨{ doAnalysis.state with scope := restored },
      .whileStmt base analysis.node doAnalysis.node,
      analysis.log ++ doAnalysis.log⟩

/-! ## Functions -/

/-- `analyze_func_sym_qual`. -/
def analyzeFuncSymQual (s : Semantic) (sym : FuncSymbol) : Check :=
  if sym.qualifiers.isMutable then
    ⟨false,
      [s.error "invalid qualifier" "function '%s' cannot be mutable"
        (some "remove the invalid qualifier") .semanticInvalidQualifier
        sym.span [sym.name]]⟩
  else if sym.qualifiers.isExtern && sym.qualifiers.isPublic then
    ⟨false,
      [s.error "invalid qualifier"
        "function '%s' cannot be both public and extern"
        (some "remove one of the qualifiers") .semanticInvalidQualifier
        sym.span [sym.name]]⟩
  else
    ⟨true, []⟩

/-- The first loop of `analyze_func_decl`: the reports on the parameters, given
the names of those before them. -/
def analyzeParameters (s : Semantic) (span : Span) :
    List String → List Parameter → Log
  | _, [] => []
  | previous, param :: rest =>
      let invalid :=
        if param.type = .void then
          [s.error "invalid type" "parameters cannot be 'void'"
            (some "give the parameter '%s' a valid type") .semanticInvalidType
            span [param.name]]
        else
          []
      let redeclared :=
        if previous.contains param.name then
          [s.error "redeclaration" "parameter '%s' is already declared"
            (some "rename one of the parameters") .semanticRedeclaration
            span [param.name]]
        else
          []
      invalid ++ redeclared ++
        analyzeParameters s span (previous ++ [param.name]) rest

/-- What the second loop of `analyze_func_decl` leaves behind and logs. -/
structure ParametersInsertion where
  scope : Scope
  parameters : List Parameter
  log : Log
  deriving Repr

/-- The second loop of `analyze_func_decl`: the parameters become variables,
and keep the numbers that a lookup finds. -/
def insertParameters (filename : String) (span : Span) :
    Scope → List Parameter → ParametersInsertion
  | scope, [] => ⟨scope, [], []⟩
  | scope, param :: rest =>
      if param.type = .void then
        let others := insertParameters filename span scope rest
        ⟨others.scope, param :: others.parameters, others.log⟩
      else
        let inserted := scope.insert
          { name := param.name
            type := param.type
            initialized := true
            span := span
            qualifiers := param.qualifiers } filename
        let id := ((inserted.1.lookup param.name).map VarSymbol.id).getD 0
        let others := insertParameters filename span inserted.1 rest
        ⟨others.scope, { param with id := id } :: others.parameters,
          inserted.2 ++ others.log⟩

/-- The symbol that `analyze_func_decl` builds.  The table reads the types of
the parameters only, so that their numbers may be those of the parser. -/
def funcSymbol (s : Semantic) (func : FuncDecl) (defined : Bool) : FuncSymbol :=
  { name := func.name
    linkName := mangleFunction s.modulePrefix func.name func.qualifiers.isExtern
    returnType := func.returnType
    parameters := func.parameters
    defined := defined
    span := func.base.span
    qualifiers := func.qualifiers }

/-- The part of `analyze_func_decl` from the body on. -/
def analyzeFuncBody (s : Semantic) (func : FuncDecl)
    (analyzeBody : Semantic → StmtAnalysis) : StmtAnalysis :=
  let inserted := insertParameters s.filename func.base.span s.scope.push
    func.parameters
  let func := { func with parameters := inserted.parameters }
  let body := analyzeBody
    { s with scope := inserted.scope, currentFunc := some func }
  let missing :=
    if func.returnType ≠ .void ∧ !stmtAlwaysReturns body.node then
      [s.error "missing return"
        "function '%s' does not return a value of type '%s' in all paths"
        (some "check all paths for missing returns") .semanticMissingReturn
        func.base.span [func.name, func.returnType.name]]
    else
      []
  ⟨{ body.state with
      scope := body.state.scope.pop
      currentFunc := s.currentFunc },
    .funcDecl func (some body.node), inserted.log ++ body.log ++ missing⟩

/-- `analyze_func_decl`, on the analysis of the body. -/
def analyzeFuncDecl (s : Semantic) (func : FuncDecl) (body : Option Stmt)
    (analyzeBody : Option (Semantic → StmtAnalysis)) : StmtAnalysis :=
  let sym := funcSymbol s func body.isSome
  let func := { func with linkName := some sym.linkName }
  let qualifiers := analyzeFuncSymQual s sym
  if !qualifiers.ok then
    ⟨s, .funcDecl func body, qualifiers.log⟩
  else
    let params := analyzeParameters s func.base.span [] func.parameters
    let insertion := s.funcs.insert sym s.filename
    let s := { s with funcs := insertion.table }
    if !insertion.ok then
      ⟨s, .funcDecl func body, params ++ insertion.log⟩
    else
      match analyzeBody with
      | none => ⟨s, .funcDecl func none, params ++ insertion.log⟩
      | some analyzeBody =>
          (analyzeFuncBody s func analyzeBody).after (params ++ insertion.log)

mutual

/-- `analyze_statement`. -/
def analyzeStatement : Stmt → Semantic → StmtAnalysis
  | .varDecl decl, s => analyzeVarDecl s decl
  | .varAssign assign, s => analyzeVarAssign s assign
  | .block base statements, s =>
      let analysis :=
        analyzeStatements statements { s with scope := s.scope.push }
      ⟨{ analysis.state with scope := analysis.state.scope.pop },
        .block base analysis.nodes, analysis.log⟩
  | .ifStmt base condition branchThen branchElse, s =>
      analyzeIf s base condition branchThen branchElse
        (fun s => analyzeStatement branchThen s)
        (fun s => analyzeOption branchElse s)
  | .whileStmt base condition branchDo, s =>
      analyzeWhile s base condition branchDo fun s => analyzeStatement branchDo s
  | .funcDecl func body, s =>
      analyzeFuncDecl s func body
        (match body with
        | none => none
        | some body => some fun s => analyzeStatement body s)
  | .returnStmt base value, s => analyzeReturn s base value
  | .expression expr, s => analyzeExprStmt s expr

/-- The branch after `else`, if there is one. -/
def analyzeOption : Option Stmt → Semantic → Semantic × Option Stmt × Log
  | none, s => (s, none, [])
  | some stmt, s =>
      let analysis := analyzeStatement stmt s
      (analysis.state, some analysis.node, analysis.log)

/-- The statement loop of `analyze_block` and of `analyze_program`. -/
def analyzeStatements : List Stmt → Semantic → StmtsAnalysis
  | [], s => ⟨s, [], []⟩
  | stmt :: rest, s =>
      let first := analyzeStatement stmt s
      let others := analyzeStatements rest first.state
      ⟨others.state, first.node :: others.nodes, first.log ++ others.log⟩

end

end Sulfur
