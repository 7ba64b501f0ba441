import Sulfur.Semantic.Annotation
import Sulfur.Semantic.Flow

/-!
# Elaboration

What the analyser does to statements that it accepts, as one relation between
the state before, the statements, the annotated statements and the state after.
Every law about accepted programs that speaks of names or tables follows from
it by induction.
-/

namespace Sulfur

/-- The expression is a variable. -/
def Expr.isIdentifier : Expr → Bool
  | identifier .. => true
  | _ => false

/-- The second expression is what an accepted analysis makes of the first. -/
structure Semantic.Elaborated (s : Semantic) (source node : Expr) : Prop where
  annotated : source.Annotated node
  typed : node.Typed s
  identifier : source.isIdentifier → node.isIdentifier

/-- The symbol that `analyze_var_decl` builds. -/
def VarDecl.symbol (decl : VarDecl) : VarSymbol :=
  { name := decl.name
    type := decl.varType
    initialized := decl.value.isSome
    span := decl.base.span
    qualifiers := decl.qualifiers }

/-- The function table behind the declaration of a function. -/
def Semantic.declare (s : Semantic) (func : FuncDecl) (defined : Bool) :
    FuncSymbolTable.Insertion :=
  s.funcs.insert (funcSymbol s func defined) s.filename

/-- The parameters of a function in a table of their own. -/
def Semantic.enter (s : Semantic) (func : FuncDecl) : ParametersInsertion :=
  insertParameters s.filename func.base.span s.scope.push func.parameters

/-- A function with the name that `analyze_func_decl` links it by. -/
def Semantic.link (s : Semantic) (func : FuncDecl) : FuncDecl :=
  { func with linkName := some (funcSymbol s func true).linkName }

/-- What the analyser has checked of a declared function. -/
structure Semantic.Declares (s : Semantic) (func : FuncDecl) (defined : Bool) : Prop where
  notMutable : func.qualifiers.isMutable = false
  notBoth : (func.qualifiers.isExtern && func.qualifiers.isPublic) = false
  scalar : ∀ param ∈ func.parameters, param.type.IsScalar
  inserted : (s.declare func defined).ok

/-- `Elaborates before statements nodes after`: the statements are accepted. -/
inductive Elaborates : Semantic → List Stmt → List Stmt → Semantic → Prop
  | nil {s : Semantic} : Elaborates s [] [] s
  | varDecl {s after : Semantic} {decl : VarDecl} {value : Option Expr}
      {rest nodes : List Stmt} (scalar : decl.varType.IsScalar)
      (initialiser : Option.Rel s.Elaborated decl.value value)
      (widens : ∀ node ∈ value, node.resolved.Widens decl.varType)
      (free : Log.hadErrors (s.scope.insert decl.symbol s.filename).2 = false)
      (others : Elaborates { s with scope := (s.scope.insert decl.symbol s.filename).1 }
        rest nodes after) :
      Elaborates s (.varDecl decl :: rest)
        (.varDecl { decl with id := s.scope.nextId, value := value } :: nodes) after
  | varAssign {s after : Semantic} {assign : VarAssign} {value : Expr} {sym : VarSymbol}
      {rest nodes : List Stmt} (found : s.scope.lookup assign.name = some sym)
      (isMutable : sym.qualifiers.isMutable)
      (elaborated : s.Elaborated assign.value value)
      (widens : value.resolved.Widens sym.type)
      (others : Elaborates { s with scope := s.scope.markInitialized assign.name }
        rest nodes after) :
      Elaborates s (.varAssign assign :: rest)
        (.varAssign
          { assign with
            base := { assign.base with resolved := sym.type }
            id := sym.id
            value := value } :: nodes) after
  | block {s between after : Semantic} {base : Base} {statements inner : List Stmt}
      {rest nodes : List Stmt}
      (inside : Elaborates { s with scope := s.scope.push } statements inner between)
      (others : Elaborates { between with scope := between.scope.pop } rest nodes after) :
      Elaborates s (.block base statements :: rest) (.block base inner :: nodes) after
  | ifStmt {s afterThen afterElse after : Semantic} {base : Base}
      {condition node : Expr} {branchThen thenNode : Stmt}
      {branchElse elseNode : Option Stmt} {rest nodes : List Stmt}
      (elaborated : s.Elaborated condition node) (bool : node.resolved = .bool)
      (first : Elaborates s [branchThen] [thenNode] afterThen)
      (second : Elaborates
        { afterThen with scope := afterThen.scope.flowRestore s.scope.flowSave }
        branchElse.toList elseNode.toList afterElse)
      (others : Elaborates
        { afterElse with
          scope := afterElse.scope.flowRestore
            ((branchFlow afterThen.scope (stmtAlwaysReturns thenNode)).flowAnd
              (branchFlow afterElse.scope (optionAlwaysReturns elseNode))) }
        rest nodes after) :
      Elaborates s (.ifStmt base condition branchThen branchElse :: rest)
        (.ifStmt base node thenNode elseNode :: nodes) after
  | whileStmt {s afterDo after : Semantic} {base : Base} {condition node : Expr}
      {branchDo doNode : Stmt} {rest nodes : List Stmt}
      (elaborated : s.Elaborated condition node) (bool : node.resolved = .bool)
      (body : Elaborates s [branchDo] [doNode] afterDo)
      (others : Elaborates
        { afterDo with scope := afterDo.scope.flowRestore s.scope.flowSave }
        rest nodes after) :
      Elaborates s (.whileStmt base condition branchDo :: rest)
        (.whileStmt base node doNode :: nodes) after
  | declaration {s after : Semantic} {func : FuncDecl} {rest nodes : List Stmt}
      (declares : s.Declares func false)
      (others : Elaborates { s with funcs := (s.declare func false).table }
        rest nodes after) :
      Elaborates s (.funcDecl func none :: rest)
        (.funcDecl (s.link func) none :: nodes) after
  | definition {s between after : Semantic} {func : FuncDecl} {body bodyNode : Stmt}
      {rest nodes : List Stmt} (declares : s.Declares func true)
      (free : Log.hadErrors (s.enter func).log = false)
      (inside : Elaborates
        { s with
          funcs := (s.declare func true).table
          scope := (s.enter func).scope
          currentFunc := some { s.link func with parameters := (s.enter func).parameters } }
        [body] [bodyNode] between)
      (returns : func.returnType ≠ .void → stmtAlwaysReturns bodyNode)
      (others : Elaborates
        { between with
          scope := between.scope.pop
          currentFunc := s.currentFunc } rest nodes after) :
      Elaborates s (.funcDecl func (some body) :: rest)
        (.funcDecl { s.link func with parameters := (s.enter func).parameters }
          (some bodyNode) :: nodes) after
  | returnStmt {s after : Semantic} {base : Base} {value node : Option Expr}
      {func : FuncDecl} {rest nodes : List Stmt} (inside : s.currentFunc = some func)
      (elaborated : Option.Rel s.Elaborated value node)
      (nothing : node = none → func.returnType = .void)
      (widens : ∀ result ∈ node, result.resolved.Widens func.returnType)
      (others : Elaborates s rest nodes after) :
      Elaborates s (.returnStmt base value :: rest) (.returnStmt base node :: nodes) after
  | expression {s after : Semantic} {expr node : Expr} {rest nodes : List Stmt}
      (elaborated : s.Elaborated expr node) (others : Elaborates s rest nodes after) :
      Elaborates s (.expression expr :: rest) (.expression node :: nodes) after

namespace Scope

@[simp]
theorem depth_push (scope : Scope) : scope.push.depth = scope.depth + 1 := rfl

@[simp]
theorem depth_pop (scope : Scope) : scope.pop.depth = scope.depth - 1 := by
  simp [depth, pop]

@[simp]
theorem depth_insert (scope : Scope) (symbol : VarSymbol) (filename : String) :
    (scope.insert symbol filename).1.depth = scope.depth := by
  unfold insert
  split
  · rfl
  · rename_i table outer stack
    split
    · rfl
    · simp [depth, stack]

@[simp]
theorem depth_markInitialized (scope : Scope) (name : String) :
    (scope.markInitialized name).depth = scope.depth := by
  unfold depth markInitialized
  dsimp only
  induction scope.stack with
  | nil => rfl
  | cons table outer inductionHypothesis =>
      unfold markStack
      split
      · rfl
      · simp [inductionHypothesis]

@[simp]
theorem depth_flowRestore (scope : Scope) (state : FlowState) :
    (scope.flowRestore state).depth = scope.depth := by
  unfold depth flowRestore
  dsimp only
  induction scope.stack with
  | nil => rfl
  | cons table outer inductionHypothesis => simp [restoreStack, inductionHypothesis]

end Scope

theorem depth_insertParameters (filename : String) (span : Span) (scope : Scope)
    (params : List Parameter) :
    (insertParameters filename span scope params).scope.depth = scope.depth := by
  induction params generalizing scope with
  | nil => rfl
  | cons param rest inductionHypothesis =>
      unfold insertParameters
      split
      · exact inductionHypothesis scope
      · exact (inductionHypothesis _).trans (Scope.depth_insert _ _ _)

namespace Elaborates

variable {s between after : Semantic}

/-- One statement and then the others. -/
theorem cons {stmt node : Stmt} {rest nodes : List Stmt}
    (first : Elaborates s [stmt] [node] between)
    (others : Elaborates between rest nodes after) :
    Elaborates s (stmt :: rest) (node :: nodes) after := by
  cases first with
  | varDecl scalar initialiser widens free nothing =>
      cases nothing
      exact .varDecl scalar initialiser widens free others
  | varAssign found isMutable elaborated widens nothing =>
      cases nothing
      exact .varAssign found isMutable elaborated widens others
  | block inside nothing =>
      cases nothing
      exact .block inside others
  | ifStmt elaborated bool first second nothing =>
      cases nothing
      exact .ifStmt elaborated bool first second others
  | whileStmt elaborated bool body nothing =>
      cases nothing
      exact .whileStmt elaborated bool body others
  | declaration declares nothing =>
      cases nothing
      exact .declaration declares others
  | definition declares free inside returns nothing =>
      cases nothing
      exact .definition declares free inside returns others
  | returnStmt inside elaborated nothingReturned widens nothing =>
      cases nothing
      exact .returnStmt inside elaborated nothingReturned widens others
  | expression elaborated nothing =>
      cases nothing
      exact .expression elaborated others

/-- The number of open tables is the same behind accepted statements. -/
theorem depth_eq {statements nodes : List Stmt}
    (elaborates : Elaborates s statements nodes after) :
    after.scope.depth = s.scope.depth := by
  induction elaborates with
  | nil => rfl
  | varDecl _ _ _ _ _ inductionHypothesis =>
      rw [inductionHypothesis]
      exact Scope.depth_insert _ _ _
  | varAssign _ _ _ _ _ inductionHypothesis =>
      rw [inductionHypothesis]
      exact Scope.depth_markInitialized _ _
  | block _ _ insideHypothesis inductionHypothesis =>
      rw [inductionHypothesis]
      simp only [Scope.depth_pop, insideHypothesis, Scope.depth_push, Nat.add_sub_cancel]
  | ifStmt _ _ _ _ _ firstHypothesis secondHypothesis inductionHypothesis =>
      rw [inductionHypothesis]
      simp only [Scope.depth_flowRestore, secondHypothesis, firstHypothesis]
  | whileStmt _ _ _ _ bodyHypothesis inductionHypothesis =>
      rw [inductionHypothesis]
      simp only [Scope.depth_flowRestore, bodyHypothesis]
  | declaration _ _ inductionHypothesis => exact inductionHypothesis
  | definition _ _ _ _ _ insideHypothesis inductionHypothesis =>
      rw [inductionHypothesis]
      simp only [Scope.depth_pop, insideHypothesis, Semantic.enter,
        depth_insertParameters, Scope.depth_push, Nat.add_sub_cancel]
  | returnStmt _ _ _ _ _ inductionHypothesis => exact inductionHypothesis
  | expression _ _ inductionHypothesis => exact inductionHypothesis

theorem stack_ne_nil {statements nodes : List Stmt}
    (elaborates : Elaborates s statements nodes after) (nonempty : s.scope.stack ≠ []) :
    after.scope.stack ≠ [] := by
  have depth := elaborates.depth_eq
  unfold Scope.depth at depth
  intro empty
  rw [empty] at depth
  exact nonempty (List.eq_nil_of_length_eq_zero depth.symm)

end Elaborates

/-- The analysis of a statement that logs no error elaborates it. -/
def ElaboratesClean (stmt : Stmt) : Prop :=
  ∀ s : Semantic, s.WellFormed → s.scope.stack ≠ [] →
    Log.hadErrors (analyzeStatement stmt s).log = false →
    Elaborates s [stmt] [(analyzeStatement stmt s).node] (analyzeStatement stmt s).state

section Statements

variable {s : Semantic}

theorem analyzeExpr_elaborated (wellFormed : s.WellFormed) {source : Expr}
    (grammatical : source.Grammatical) {expected : ValueType}
    (ok : (analyzeExpr s source expected).ok) :
    s.Elaborated source (analyzeExpr s source expected).node := by
  refine ⟨analyzeExpr_annotates s source expected ok,
    (analyzeExpr_sound wellFormed grammatical expected).typed ok, fun isIdentifier => ?_⟩
  cases source with
  | identifier base name depth id symbol =>
      unfold analyzeExpr analyzeIdentifier
      split
      · rfl
      · split <;> rfl
  | _ => cases isIdentifier

theorem elaborates_varDecl (wellFormed : s.WellFormed)
    (nonempty : s.scope.stack ≠ []) {decl : VarDecl}
    (grammatical : (Stmt.varDecl decl).Grammatical)
    (clean : Log.hadErrors (analyzeVarDecl s decl).log = false) :
    Elaborates s [.varDecl decl] [(analyzeVarDecl s decl).node]
      (analyzeVarDecl s decl).state := by
  unfold analyzeVarDecl at clean ⊢
  dsimp only at clean ⊢
  split at clean
  · simp at clean
  split at clean
  · simp at clean
  split at clean
  · rename_i failed
    simp only [Bool.not_eq_true'] at failed
    simp [analyzeVarSymQual_log, failed] at clean
  rename_i notVoid shadows qualifiers
  rw [if_neg notVoid, if_neg shadows, if_neg qualifiers]
  have scalar := ValueType.isScalar_of_ne grammatical.1 notVoid
  change Log.hadErrors (analyzeInitialiser s decl decl.symbol).log = false at clean
  change Elaborates s _ [(analyzeInitialiser s decl decl.symbol).node]
    (analyzeInitialiser s decl decl.symbol).state
  unfold analyzeInitialiser at clean ⊢
  cases initialiser : decl.value with
  | none =>
      simp only [initialiser] at clean ⊢
      rw [insertVarDecl_clean nonempty rfl clean]
      have node : ({ decl with id := s.scope.nextId } : VarDecl) =
          { decl with id := s.scope.nextId, value := none } := by
        rw [← initialiser]
      rw [node]
      refine .varDecl scalar ?_ nofun clean .nil
      rw [initialiser]
      exact .none
  | some value =>
      have sound := analyzeExpr_sound wellFormed
        (grammatical.2 value initialiser) decl.varType
      simp only [initialiser] at clean ⊢
      split at clean
      · rename_i failed
        simp only [Bool.not_eq_true'] at failed
        simp [sound.log, failed] at clean
      rename_i ok
      have succeeded : (analyzeExpr s value decl.varType).ok := by simpa using ok
      obtain ⟨checkLog, checkOk⟩ := checkAssignmentType_cases s decl.varType decl.base.span
        (sound.resolved succeeded)
      split at clean
      · rename_i failed
        simp only [Bool.not_eq_true'] at failed
        simp [checkLog, failed] at clean
      rename_i checked
      rw [if_neg ok, if_neg checked]
      simp only [StmtAnalysis.after, Log.hadErrors_append, Bool.or_eq_false_iff] at clean ⊢
      rw [insertVarDecl_clean nonempty rfl clean.2]
      refine .varDecl scalar ?_ ?_ clean.2 .nil
      · rw [initialiser]
        exact .some (analyzeExpr_elaborated wellFormed (grammatical.2 value initialiser)
          succeeded)
      · rintro node ⟨⟩
        exact checkOk (by simpa using checked)

theorem elaborates_varAssign (wellFormed : s.WellFormed) {assign : VarAssign}
    (grammatical : assign.value.Grammatical)
    (clean : Log.hadErrors (analyzeVarAssign s assign).log = false) :
    Elaborates s [.varAssign assign] [(analyzeVarAssign s assign).node]
      (analyzeVarAssign s assign).state := by
  unfold analyzeVarAssign at clean ⊢
  cases found : s.scope.lookup assign.name with
  | none => simp [found] at clean
  | some sym =>
      have sound := analyzeExpr_sound wellFormed grammatical sym.type
      simp only [found] at clean ⊢
      split at clean
      · rename_i failed
        simp only [Bool.not_eq_true'] at failed
        simp [sound.log, failed] at clean
      rename_i ok
      have succeeded : (analyzeExpr s assign.value sym.type).ok := by simpa using ok
      obtain ⟨checkLog, checkOk⟩ := checkAssignmentType_cases s sym.type assign.base.span
        (sound.resolved succeeded)
      split at clean
      · rename_i failed
        simp only [Bool.not_eq_true'] at failed
        simp [checkLog, failed] at clean
      rename_i checked
      rw [if_neg ok, if_neg checked]
      refine .varAssign found ?_ (analyzeExpr_elaborated wellFormed grammatical succeeded)
        (checkOk (by simpa using checked)) .nil
      by_contra immutable
      simp [immutable] at clean

theorem elaborates_return (wellFormed : s.WellFormed) {base : Base}
    {value : Option Expr} (grammatical : ∀ result ∈ value, result.Grammatical)
    (clean : Log.hadErrors (analyzeReturn s base value).log = false) :
    Elaborates s [.returnStmt base value] [(analyzeReturn s base value).node]
      (analyzeReturn s base value).state := by
  unfold analyzeReturn at clean ⊢
  cases current : s.currentFunc with
  | none => simp [current] at clean
  | some func =>
      simp only [current] at clean ⊢
      cases value with
      | none =>
          refine .returnStmt current .none (fun _ => ?_) nofun .nil
          by_contra type
          simp [type] at clean
      | some value =>
          have grammatical := grammatical value rfl
          dsimp only at clean ⊢
          split at clean
          · have sound := analyzeExpr_sound wellFormed grammatical .unresolved
            simp only at clean
            split at clean
            · simp_all [sound.log]
            · simp at clean
          · rename_i notVoid
            rw [if_neg notVoid]
            have sound := analyzeExpr_sound wellFormed grammatical func.returnType
            simp only at clean
            split at clean
            · simp_all [sound.log]
            · rename_i ok
              have succeeded : (analyzeExpr s value func.returnType).ok := by
                simpa using ok
              obtain ⟨checkLog, checkOk⟩ := checkReturnType_cases s
                func.returnType func.name base.span (sound.resolved succeeded)
              simp only [Log.hadErrors_append, Bool.or_eq_false_iff, checkLog,
                Bool.not_eq_false'] at clean
              refine .returnStmt current
                (.some (analyzeExpr_elaborated wellFormed grammatical succeeded)) nofun
                ?_ .nil
              rintro node ⟨⟩
              exact checkOk clean.2

theorem elaborates_expression (wellFormed : s.WellFormed) {expr : Expr}
    (grammatical : expr.Grammatical)
    (clean : Log.hadErrors (analyzeExprStmt s expr).log = false) :
    Elaborates s [.expression expr] [(analyzeExprStmt s expr).node]
      (analyzeExprStmt s expr).state := by
  have sound := analyzeExpr_sound wellFormed grammatical .unresolved
  have ok : (analyzeExpr s expr .unresolved).ok := by
    simp only [analyzeExprStmt, Log.hadErrors_append, Bool.or_eq_false_iff, sound.log,
      Bool.not_eq_false'] at clean
    exact clean.1
  exact .expression (analyzeExpr_elaborated wellFormed grammatical ok) .nil

/-- A condition that is accepted is an elaborated boolean. -/
theorem analyzeCondition_elaborated (wellFormed : s.WellFormed) (keyword : String)
    {condition : Expr} (grammatical : condition.Grammatical)
    (ok : (analyzeCondition s keyword condition).ok) :
    s.Elaborated condition (analyzeCondition s keyword condition).node ∧
      (analyzeCondition s keyword condition).node.resolved = .bool := by
  obtain ⟨-, typed⟩ := analyzeCondition_cases wellFormed keyword grammatical
  refine ⟨?_, (typed ok).2⟩
  revert ok
  unfold analyzeCondition
  dsimp only
  split
  · exact analyzeExpr_elaborated wellFormed grammatical
  · split
    · exact nofun
    · exact analyzeExpr_elaborated wellFormed grammatical

theorem elaborates_if (wellFormed : s.WellFormed) (nonempty : s.scope.stack ≠ [])
    {base : Base} {condition : Expr} {branchThen : Stmt} {branchElse : Option Stmt}
    (grammatical : (Stmt.ifStmt base condition branchThen branchElse).Grammatical)
    (thenElaborates : ElaboratesClean branchThen)
    (elseElaborates : ∀ stmt ∈ branchElse, ElaboratesClean stmt)
    (clean : Log.hadErrors (analyzeStatement
      (.ifStmt base condition branchThen branchElse) s).log = false) :
    Elaborates s [.ifStmt base condition branchThen branchElse]
      [(analyzeStatement (.ifStmt base condition branchThen branchElse) s).node]
      (analyzeStatement (.ifStmt base condition branchThen branchElse) s).state := by
  obtain ⟨conditionGrammatical, ⟨-, thenGrammatical⟩, -, -⟩ := grammatical
  obtain ⟨conditionLog, -⟩ := analyzeCondition_cases wellFormed "if" conditionGrammatical
  unfold analyzeStatement analyzeIf at clean ⊢
  dsimp only at clean ⊢
  split at clean
  · rename_i failed
    simp only [Bool.not_eq_true'] at failed
    simp [conditionLog, failed] at clean
  rename_i ok
  obtain ⟨elaborated, bool⟩ := analyzeCondition_elaborated wellFormed "if"
    conditionGrammatical (by simpa using ok)
  rw [if_neg ok]
  simp only [Log.hadErrors_append, Bool.or_eq_false_iff] at clean
  have first := thenElaborates s wellFormed nonempty clean.1.2
  have thenWellFormed : (analyzeStatement branchThen s).state.WellFormed :=
    (analyzeStatement_sound thenGrammatical s.currentFunc s wellFormed rfl).wellFormed
  have restoredNonempty : ((analyzeStatement branchThen s).state.scope.flowRestore
      s.scope.flowSave).stack ≠ [] := by
    refine List.ne_nil_of_length_pos ?_
    change 0 < Scope.depth _
    rw [Scope.depth_flowRestore, first.depth_eq]
    exact List.length_pos_of_ne_nil nonempty
  cases branchElse with
  | none => exact .ifStmt elaborated bool first .nil .nil
  | some stmt =>
      exact .ifStmt elaborated bool first
        (elseElaborates stmt rfl _
          ⟨thenWellFormed.scope.flowRestore _, thenWellFormed.funcs⟩ restoredNonempty clean.2)
        .nil

theorem elaborates_while (wellFormed : s.WellFormed) (nonempty : s.scope.stack ≠ [])
    {base : Base} {condition : Expr} {branchDo : Stmt}
    (grammatical : condition.Grammatical) (doElaborates : ElaboratesClean branchDo)
    (clean : Log.hadErrors (analyzeStatement
      (.whileStmt base condition branchDo) s).log = false) :
    Elaborates s [.whileStmt base condition branchDo]
      [(analyzeStatement (.whileStmt base condition branchDo) s).node]
      (analyzeStatement (.whileStmt base condition branchDo) s).state := by
  obtain ⟨conditionLog, -⟩ := analyzeCondition_cases wellFormed "while" grammatical
  unfold analyzeStatement analyzeWhile at clean ⊢
  dsimp only at clean ⊢
  split at clean
  · rename_i failed
    simp only [Bool.not_eq_true'] at failed
    simp [conditionLog, failed] at clean
  rename_i ok
  obtain ⟨elaborated, bool⟩ := analyzeCondition_elaborated wellFormed "while"
    grammatical (by simpa using ok)
  rw [if_neg ok]
  simp only [Log.hadErrors_append, Bool.or_eq_false_iff] at clean
  exact .whileStmt elaborated bool (doElaborates s wellFormed nonempty clean.2) .nil

/-- Qualifiers that pass leave the function immutable and not both kinds of external. -/
theorem analyzeFuncSymQual_ok {sym : FuncSymbol} (ok : (analyzeFuncSymQual s sym).ok) :
    sym.qualifiers.isMutable = false ∧
      (sym.qualifiers.isExtern && sym.qualifiers.isPublic) = false := by
  unfold analyzeFuncSymQual at ok
  cases isMutable : sym.qualifiers.isMutable with
  | true => simp [isMutable] at ok
  | false =>
      cases both : (sym.qualifiers.isExtern && sym.qualifiers.isPublic) with
      | true => simp [isMutable, both] at ok
      | false => exact ⟨rfl, rfl⟩

theorem elaborates_funcDecl (wellFormed : s.WellFormed) {func : FuncDecl}
    {body : Option Stmt} (returnType : func.returnType ≠ .unresolved)
    (known : ∀ param ∈ func.parameters, param.type ≠ .unresolved)
    (bodyElaborates : ∀ stmt ∈ body, ElaboratesClean stmt)
    (clean : Log.hadErrors (analyzeStatement (.funcDecl func body) s).log = false) :
    Elaborates s [.funcDecl func body]
      [(analyzeStatement (.funcDecl func body) s).node]
      (analyzeStatement (.funcDecl func body) s).state := by
  unfold analyzeStatement analyzeFuncDecl at clean ⊢
  dsimp only at clean ⊢
  split at clean
  · rename_i failed
    simp only [Bool.not_eq_true'] at failed
    exact absurd clean (by simp [analyzeFuncSymQual_log, failed])
  rename_i qualifiers
  rw [if_neg qualifiers]
  split at clean
  · rename_i failed
    simp only [Bool.not_eq_true'] at failed
    have error := FuncSymbolTable.hadErrors_of_insert_not_ok failed
    exact absurd clean (by simp [error])
  rename_i inserted
  rw [if_neg inserted]
  have declares (scalar : ∀ param ∈ func.parameters, param.type.IsScalar) :
      s.Declares func body.isSome := by
    have valid : (analyzeFuncSymQual s (funcSymbol s func body.isSome)).ok := by
      simpa using qualifiers
    obtain ⟨notMutable, notBoth⟩ := analyzeFuncSymQual_ok valid
    exact ⟨notMutable, notBoth, scalar, by simpa [Semantic.declare] using inserted⟩
  cases body with
  | none =>
      simp only [Log.hadErrors_append, Bool.or_eq_false_iff] at clean
      exact .declaration (declares (analyzeParameters_scalar known clean.1)) .nil
  | some body =>
      simp only [StmtAnalysis.after, analyzeFuncBody, Log.hadErrors_append,
        Bool.or_eq_false_iff] at clean
      have scalar := analyzeParameters_scalar known clean.1.1
      have insideWellFormed : Semantic.WellFormed
          { s with
            funcs := (s.declare func true).table
            scope := (s.enter func).scope
            currentFunc :=
              some { s.link func with parameters := (s.enter func).parameters } } :=
        ⟨(insertParameters_sound s.filename func.base.span wellFormed.scope.push known).1,
          wellFormed.funcs.insert _ returnType known s.filename⟩
      have insideNonempty : (s.enter func).scope.stack ≠ [] := by
        refine List.ne_nil_of_length_pos ?_
        change 0 < Scope.depth _
        simp [Semantic.enter, depth_insertParameters]
      refine .definition (declares scalar) clean.2.1.1
        (bodyElaborates body rfl _ insideWellFormed insideNonempty clean.2.1.2) ?_ .nil
      intro value
      by_contra returns
      have missing := clean.2.2
      rw [if_pos ⟨value, by simpa using returns⟩] at missing
      simp at missing

theorem elaborates_statements {statements : List Stmt}
    (each : ∀ stmt ∈ statements, ElaboratesClean stmt ∧ stmt.Grammatical)
    (wellFormed : s.WellFormed) (nonempty : s.scope.stack ≠ [])
    (clean : Log.hadErrors (analyzeStatements statements s).log = false) :
    Elaborates s statements (analyzeStatements statements s).nodes
      (analyzeStatements statements s).state := by
  induction statements generalizing s with
  | nil => exact .nil
  | cons stmt rest inductionHypothesis =>
      rw [List.forall_mem_cons] at each
      simp only [analyzeStatements, Log.hadErrors_append, Bool.or_eq_false_iff] at clean
      have first := each.1.1 s wellFormed nonempty clean.1
      have kept := (analyzeStatement_sound each.1.2 s.currentFunc s wellFormed rfl).wellFormed
      exact first.cons
        (inductionHypothesis each.2 kept (first.stack_ne_nil nonempty) clean.2)

end Statements

theorem elaboratesClean {stmt : Stmt} (grammatical : stmt.Grammatical) :
    ElaboratesClean stmt := by
  induction stmt using Stmt.induction with
  | varDecl decl =>
      exact fun s wellFormed nonempty => elaborates_varDecl wellFormed nonempty grammatical
  | varAssign assign =>
      exact fun s wellFormed _ => elaborates_varAssign wellFormed grammatical
  | block base statements statementsHypothesis =>
      intro s wellFormed _ clean
      have all := (Stmt.grammaticalAll_iff statements).mp grammatical
      have inside := elaborates_statements (s := { s with scope := s.scope.push })
        (fun stmt inBlock => ⟨statementsHypothesis stmt inBlock (all stmt inBlock),
          all stmt inBlock⟩)
        ⟨wellFormed.scope.push, wellFormed.funcs⟩ (by simp [Scope.push]) clean
      exact .block inside .nil
  | ifStmt base condition branchThen branchElse thenHypothesis elseHypothesis =>
      intro s wellFormed nonempty clean
      refine elaborates_if wellFormed nonempty grammatical
        (thenHypothesis grammatical.2.1.2) ?_ clean
      rintro stmt rfl
      exact elseHypothesis stmt rfl grammatical.2.2.2
  | whileStmt base condition branchDo doHypothesis =>
      exact fun s wellFormed nonempty => elaborates_while wellFormed nonempty grammatical.1
        (doHypothesis grammatical.2.2)
  | funcDecl func body bodyHypothesis =>
      intro s wellFormed _ clean
      obtain ⟨returnType, known, -, bodyGrammatical⟩ := grammatical
      refine elaborates_funcDecl wellFormed returnType known ?_ clean
      rintro stmt rfl
      exact bodyHypothesis stmt rfl bodyGrammatical
  | returnStmt base value =>
      exact fun s wellFormed _ => elaborates_return wellFormed grammatical
  | expression expr =>
      exact fun s wellFormed _ => elaborates_expression wellFormed grammatical

/-! ## Programs -/

/-- The name under which `sf_analyze` analyses a file. -/
def CompilerOptions.moduleName (options : CompilerOptions) (filename : String) :
    Option String :=
  if options.isModule then moduleNameFromPath filename options.modulePaths else none

/-- The state in which the statements of a program are analysed. -/
def topLevelState (filename : String) (moduleName : Option String)
    (funcs : FuncSymbolTable) : Semantic :=
  { scope := Scope.push {}
    funcs := funcs
    currentFunc := none
    filename := filename
    modulePrefix := moduleName.map mangleModulePrefix }

/-- An analysed program is elaborated by the run over its statements, in the state that
its imports leave. -/
theorem Analyzed.elaborates_topLevel {program : Program} {filename : String}
    {options : CompilerOptions} {modules : List Module} {analysis : ProgramAnalysis}
    (isAnalyzed : Analyzed program filename options modules analysis) :
    ∃ imports : ImportAnalysis,
      analyzeImports (analyzeProgram false modules.length) filename program.imports {}
          modules = some imports ∧
        imports.funcs.Known ∧
        (analyzeTopLevel program filename (options.moduleName filename)
          imports.funcs).nodes = analysis.program.statements ∧
        (analyzeTopLevel program filename (options.moduleName filename)
          imports.funcs).state.funcs = analysis.funcs ∧
        Elaborates (topLevelState filename (options.moduleName filename) imports.funcs)
          program.statements analysis.program.statements
          (analyzeTopLevel program filename (options.moduleName filename)
            imports.funcs).state := by
  have modulesWellFormed := isAnalyzed.modulesWellFormed
  obtain ⟨imports, imported, run⟩ := Option.bind_eq_some_iff.mp isAnalyzed.analyzed
  have clean := isAnalyzed.noErrors
  obtain rfl := Option.some.inj run
  simp only [Log.hadErrors_append, Bool.or_eq_false_iff] at clean
  have grammatical := isAnalyzed.parsed.grammatical
  have known := (analyzeImports_sound (analyzeProgram_sound false _) {}
    (by simp [FuncSymbolTable.Known]) modulesWellFormed imported).1
  refine ⟨imports, imported, known, rfl, rfl, elaborates_statements
    (s := topLevelState filename (options.moduleName filename) imports.funcs)
    (fun stmt inProgram => ⟨elaboratesClean (grammatical stmt inProgram).1,
      (grammatical stmt inProgram).1⟩)
    ⟨by simp [Scope.WellFormed, topLevelState, Scope.push], known⟩
    (by simp [topLevelState, Scope.push]) clean.1.2⟩

theorem Analyzed.elaborates {program : Program} {filename : String}
    {options : CompilerOptions} {modules : List Module} {analysis : ProgramAnalysis}
    (isAnalyzed : Analyzed program filename options modules analysis) :
    ∃ (imports : ImportAnalysis) (after : Semantic),
      analyzeImports (analyzeProgram false modules.length) filename program.imports {}
          modules = some imports ∧
        imports.funcs.Known ∧ after.funcs = analysis.funcs ∧
        Elaborates (topLevelState filename (options.moduleName filename) imports.funcs)
          program.statements analysis.program.statements after := by
  rcases isAnalyzed.elaborates_topLevel with
    ⟨imports, imported, known, -, funcs, elaborates⟩
  exact ⟨imports, _, imported, known, funcs, elaborates⟩

/-- An accepted program is elaborated in the state that its imports leave. -/
theorem Accepted.elaborates {program : Program} {filename : String}
    {options : CompilerOptions} {modules : List Module} {analysis : ProgramAnalysis}
    (accepted : Accepted program filename options modules analysis) :
    ∃ (imports : ImportAnalysis) (after : Semantic),
      analyzeImports (analyzeProgram false modules.length) filename program.imports {}
          modules = some imports ∧
        imports.funcs.Known ∧ after.funcs = analysis.funcs ∧
        Elaborates (topLevelState filename (options.moduleName filename) imports.funcs)
          program.statements analysis.program.statements after :=
  accepted.isAnalyzed.elaborates

end Sulfur
