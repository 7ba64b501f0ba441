import Sulfur.Semantic.Flow

/-!
# Reads follow writes

Every statement that is analysed without an error keeps the flags sound along
its executions, from which it follows that a function reads none of its
variables before it has written it.
-/

namespace Sulfur

open Trace

/-! ## Statements without an error -/

section Clean

variable {s : Semantic}

/-- A declaration that is accepted inserts a variable with the next number, whose
flag tells whether it has an initialiser. -/
theorem analyzeVarDecl_clean (wellFormed : s.WellFormed)
    (nonempty : s.scope.stack ≠ []) {decl : VarDecl}
    (grammatical : (Stmt.varDecl decl).Grammatical)
    (clean : Log.hadErrors (analyzeVarDecl s decl).log = false) :
    ∃ value sym,
      (analyzeVarDecl s decl).node =
        .varDecl { decl with id := s.scope.nextId, value := value } ∧
      (analyzeVarDecl s decl).state.scope = (s.scope.insert sym s.filename).1 ∧
      Log.hadErrors (s.scope.insert sym s.filename).2 = false ∧
      sym.initialized = value.isSome ∧ ∀ expr ∈ value, expr.Typed s := by
  unfold analyzeVarDecl at clean ⊢
  dsimp only at clean ⊢
  split at clean
  · simp at clean
  split at clean
  · simp at clean
  split at clean
  · rename_i failed
    simp only [Bool.not_eq_true'] at failed
    simp [analyzeVarSymQual_log, failed] at clean
  rename_i type shadows qualifiers
  rw [if_neg type, if_neg shadows, if_neg qualifiers]
  unfold analyzeInitialiser at clean ⊢
  cases initialiser : decl.value with
  | none =>
      simp only [initialiser] at clean ⊢
      refine ⟨none, _, ?_, rfl, clean, rfl, nofun⟩
      rw [insertVarDecl_clean nonempty rfl clean]
      cases decl
      cases initialiser
      rfl
  | some value =>
      have sound := analyzeExpr_sound wellFormed
        (grammatical.2 value initialiser) decl.varType
      simp only [initialiser] at clean ⊢
      split at clean
      · rename_i failed
        simp only [Bool.not_eq_true'] at failed
        simp [sound.log, failed] at clean
      rename_i ok
      have succeeded : (analyzeExpr s value decl.varType).ok := by simpa using ok
      split at clean
      · rename_i failed
        simp only [Bool.not_eq_true'] at failed
        simp [(checkAssignmentType_cases s decl.varType decl.base.span
          (sound.resolved succeeded)).1, failed] at clean
      rename_i checked
      rw [if_neg ok, if_neg checked]
      simp only [StmtAnalysis.after, Log.hadErrors_append, Bool.or_eq_false_iff] at clean ⊢
      refine ⟨_, _, insertVarDecl_clean nonempty rfl clean.2, rfl, clean.2, rfl, ?_⟩
      rintro expr ⟨⟩
      exact sound.typed succeeded

theorem analyzeVarAssign_clean (wellFormed : s.WellFormed) {assign : VarAssign}
    (grammatical : assign.value.Grammatical)
    (clean : Log.hadErrors (analyzeVarAssign s assign).log = false) :
    ∃ sym analyzed, s.scope.lookup assign.name = some sym ∧
      (analyzeVarAssign s assign).node = .varAssign analyzed ∧
      analyzed.id = sym.id ∧ analyzed.value.Typed s ∧
      (analyzeVarAssign s assign).state.scope =
        s.scope.markInitialized assign.name := by
  unfold analyzeVarAssign at clean ⊢
  cases found : s.scope.lookup assign.name with
  | none => simp [found] at clean
  | some sym =>
      have sound := analyzeExpr_sound wellFormed grammatical sym.type
      simp only [found] at clean ⊢
      split at clean
      · rename_i failed
        simp only [Bool.not_eq_true'] at failed
        simp [sound.log, failed] at clean
      rename_i ok
      have succeeded : (analyzeExpr s assign.value sym.type).ok := by simpa using ok
      split at clean
      · rename_i failed
        simp only [Bool.not_eq_true'] at failed
        simp [(checkAssignmentType_cases s sym.type assign.base.span
          (sound.resolved succeeded)).1, failed] at clean
      rename_i checked
      rw [if_neg ok, if_neg checked]
      exact ⟨sym, _, rfl, rfl, rfl, sound.typed succeeded, rfl⟩

theorem analyzeReturn_clean (wellFormed : s.WellFormed) {base : Base}
    {value : Option Expr} (grammatical : ∀ result ∈ value, result.Grammatical)
    (clean : Log.hadErrors (analyzeReturn s base value).log = false) :
    ∃ analyzed, (analyzeReturn s base value).node = .returnStmt base analyzed ∧
      (analyzeReturn s base value).state = s ∧ ∀ expr ∈ analyzed, expr.Typed s := by
  unfold analyzeReturn at clean ⊢
  cases current : s.currentFunc with
  | none => simp [current] at clean
  | some func =>
      simp only [current] at clean ⊢
      cases value with
      | none => exact ⟨none, rfl, rfl, nofun⟩
      | some value =>
          have accepted (expected : ValueType) {check : Log}
              (clean : Log.hadErrors (if !(analyzeExpr s value expected).ok then
                  (analyzeExpr s value expected).log
                else (analyzeExpr s value expected).log ++ check) = false) :
              ∀ expr ∈ some (analyzeExpr s value expected).node, expr.Typed s := by
            have sound := analyzeExpr_sound wellFormed (grammatical value rfl) expected
            rintro expr ⟨⟩
            refine sound.typed ?_
            cases ok : (analyzeExpr s value expected).ok with
            | true => rfl
            | false =>
                have failed := sound.log
                rw [ok] at clean failed
                exact absurd (failed.symm.trans clean) (by decide)
          dsimp only at clean ⊢
          split at clean
          · rename_i void
            rw [if_pos void]
            exact ⟨_, rfl, rfl, accepted _ clean⟩
          · rename_i value
            rw [if_neg value]
            exact ⟨_, rfl, rfl, accepted _ clean⟩

end Clean

/-! ## The flags stay sound -/

/-- An analysis appends variables with new numbers to the innermost table, and
the flags that it leaves are sound along every execution. -/
structure FlowSound (before after : Semantic) (declared : List Nat)
    (behaviour : Behaviour Nat) : Prop where
  shape : ∃ new, after.scope.shape = Scope.extendShape before.scope.shape new
  nextId : before.scope.nextId ≤ after.scope.nextId
  declared : ∀ id ∈ declared, before.scope.nextId ≤ id
  sound : behaviour.Sound before.scope.Covered after.scope.Covered

namespace FlowSound

variable {before middle after : Semantic} {declared others : List Nat}
  {behaviour second : Behaviour Nat}

/-- An analysis that leaves the scope as it is. -/
theorem of_scope_eq (scope : after.scope = before.scope)
    (sound : behaviour.Sound before.scope.Covered before.scope.Covered) :
    FlowSound before after [] behaviour := by
  refine ⟨⟨[], by rw [scope, Scope.extendShape_nil]⟩, by rw [scope], nofun, ?_⟩
  rw [scope]
  exact sound

theorem seq (first : FlowSound before middle declared behaviour)
    (rest : FlowSound middle after others second) :
    FlowSound before after (declared ++ others) (.seq behaviour second) := by
  obtain ⟨new, extended⟩ := first.shape
  obtain ⟨newer, extendedAgain⟩ := rest.shape
  refine ⟨⟨new ++ newer, ?_⟩, first.nextId.trans rest.nextId, fun id inEither => ?_,
    first.sound.seq rest.sound⟩
  · rw [extendedAgain, extended, Scope.extendShape_append]
  · rcases List.mem_append.mp inEither with inFirst | inRest
    · exact first.declared id inFirst
    · exact first.nextId.trans (rest.declared id inRest)

end FlowSound

/-- The analysis of a statement, from every state with a table. -/
def FlowsSoundly (stmt : Stmt) : Prop :=
  ∀ s : Semantic, s.WellFormed → s.scope.stack ≠ [] →
    Log.hadErrors (analyzeStatement stmt s).log = false →
    FlowSound s (analyzeStatement stmt s).state (analyzeStatement stmt s).node.declared
        (analyzeStatement stmt s).node.behaviour ∧
      (stmt.isBlock ∨ stmt.isIf →
        (analyzeStatement stmt s).state.scope.shape = s.scope.shape)

theorem stack_ne_nil_of_shape {before after : Scope} (new : List Nat)
    (nonempty : before.stack ≠ [])
    (shape : after.shape = Scope.extendShape before.shape new) : after.stack ≠ [] := by
  rintro empty
  have extended : Scope.extendShape before.shape new ≠ [] :=
    Scope.extendShape_ne_nil new (by simpa [Scope.shape, Scope.shapeOf] using nonempty)
  rw [← shape] at extended
  simp [Scope.shape, Scope.shapeOf, empty] at extended

section Statements

variable {s : Semantic}

theorem flowSound_varDecl (wellFormed : s.WellFormed) (nonempty : s.scope.stack ≠ [])
    {decl : VarDecl} (grammatical : (Stmt.varDecl decl).Grammatical)
    (clean : Log.hadErrors (analyzeVarDecl s decl).log = false) :
    FlowSound s (analyzeVarDecl s decl).state (analyzeVarDecl s decl).node.declared
      (analyzeVarDecl s decl).node.behaviour := by
  obtain ⟨value, sym, node, scope, inserted, flag, typed⟩ :=
    analyzeVarDecl_clean wellFormed nonempty grammatical clean
  rw [node]
  refine ⟨⟨_, scope ▸ Scope.shape_insert nonempty inserted⟩, ?_, ?_, ?_⟩
  · rw [scope, Scope.nextId_insert nonempty inserted]
    omega
  · simp [Stmt.declared]
  · rw [scope]
    cases value with
    | none =>
        refine .straight (fun assigned covered => ⟨trivial, trivial⟩) fun _ assigned covered => ?_
        refine covered.insert wellFormed.scope nonempty inserted (fun id has below => ?_) ?_
        · exact ⟨has, Nat.ne_of_lt below⟩
        · simp [flag]
    | some expr =>
        have exprTyped := typed expr rfl
        refine .straight (fun assigned covered => ?_) fun _ assigned covered => ?_
        · exact (safe_append _ _ _).mpr
            ⟨exprTyped.safe covered, trivial, trivial, trivial⟩
        · simp only [VarDecl.events, optionEvents, after_append]
          refine (covered.after_events expr).insert wellFormed.scope nonempty inserted
            (fun id has below => ?_) fun _ => ?_
          · exact Or.inr ⟨has, Nat.ne_of_lt below⟩
          · exact Or.inl rfl

theorem flowSound_varAssign (wellFormed : s.WellFormed) {assign : VarAssign}
    (grammatical : assign.value.Grammatical)
    (clean : Log.hadErrors (analyzeVarAssign s assign).log = false) :
    FlowSound s (analyzeVarAssign s assign).state
      (analyzeVarAssign s assign).node.declared
      (analyzeVarAssign s assign).node.behaviour := by
  obtain ⟨sym, analyzed, lookup, node, id, typed, scope⟩ :=
    analyzeVarAssign_clean wellFormed grammatical clean
  rw [node]
  refine ⟨⟨[], ?_⟩, ?_, nofun, ?_⟩
  · rw [scope, Scope.shape_markInitialized, Scope.extendShape_nil]
  · rw [scope]
    exact le_rfl
  · rw [scope]
    refine .straight (fun assigned covered => ?_) fun _ assigned covered => ?_
    · exact (safe_append _ _ _).mpr ⟨typed.safe covered, trivial, trivial⟩
    · rw [after_append, id]
      exact (covered.after_events analyzed.value).markInitialized lookup

theorem flowSound_return (wellFormed : s.WellFormed) {base : Base}
    {value : Option Expr} (grammatical : ∀ result ∈ value, result.Grammatical)
    (clean : Log.hadErrors (analyzeReturn s base value).log = false) :
    FlowSound s (analyzeReturn s base value).state
      (analyzeReturn s base value).node.declared
      (analyzeReturn s base value).node.behaviour := by
  obtain ⟨analyzed, node, state, typed⟩ :=
    analyzeReturn_clean wellFormed grammatical clean
  rw [node]
  refine .of_scope_eq (congrArg Semantic.scope state) ?_
  cases analyzed with
  | none => exact .straight (fun _ _ => trivial) fun _ _ covered => covered
  | some expr => exact (typed expr rfl).sound .returned

theorem flowSound_statements {statements : List Stmt}
    (each : ∀ stmt ∈ statements, FlowsSoundly stmt ∧ stmt.Grammatical)
    (wellFormed : s.WellFormed) (nonempty : s.scope.stack ≠ [])
    (clean : Log.hadErrors (analyzeStatements statements s).log = false) :
    FlowSound s (analyzeStatements statements s).state
      (Stmt.declaredAll (analyzeStatements statements s).nodes)
      (Stmt.behaviourAll (analyzeStatements statements s).nodes) := by
  induction statements generalizing s with
  | nil =>
      exact .of_scope_eq rfl
        (.straight (fun _ _ => trivial) fun _ _ covered => covered)
  | cons stmt rest inductionHypothesis =>
      rw [List.forall_mem_cons] at each
      simp only [analyzeStatements, Log.hadErrors_append, Bool.or_eq_false_iff] at clean
      have first := (each.1.1 s wellFormed nonempty clean.1).1
      have kept := (analyzeStatement_sound each.1.2 s.currentFunc s wellFormed rfl).wellFormed
      obtain ⟨new, shape⟩ := first.shape
      exact first.seq
        (inductionHypothesis each.2 kept (stack_ne_nil_of_shape new nonempty shape) clean.2)

theorem flowSound_block {base : Base} {statements : List Stmt}
    (each : ∀ stmt ∈ statements, FlowsSoundly stmt ∧ stmt.Grammatical)
    (wellFormed : s.WellFormed)
    (clean : Log.hadErrors (analyzeStatement (.block base statements) s).log = false) :
    let analysis := analyzeStatement (.block base statements) s
    FlowSound s analysis.state analysis.node.declared analysis.node.behaviour ∧
      analysis.state.scope.shape = s.scope.shape := by
  have inner := flowSound_statements (s := { s with scope := s.scope.push }) each
    ⟨wellFormed.scope.push, wellFormed.funcs⟩ (by simp [Scope.push]) clean
  obtain ⟨new, extended⟩ := inner.shape
  have shape : (analyzeStatement (.block base statements) s).state.scope.shape =
      s.scope.shape := by
    have outer := congrArg List.tail extended
    simpa [analyzeStatement, Scope.shape, Scope.shapeOf, Scope.pop, Scope.push,
      Scope.extendShape] using outer
  refine ⟨⟨⟨[], by rw [shape, Scope.extendShape_nil]⟩, inner.nextId, inner.declared, ?_⟩,
    shape⟩
  -- the table of the block is empty before it and dropped behind it
  refine inner.sound.consequence (fun assigned covered => ?_) fun assigned covered => ?_
  · intro table inStack symbol inTable
    rcases List.mem_cons.mp inStack with rfl | inOuter
    · cases inTable
    · exact covered table inOuter symbol inTable
  · exact fun table inStack => covered table (List.mem_of_mem_drop inStack)

/-- What a branch leaves behind, before the flags are merged. -/
theorem sound_branchFlow {pre : Set Nat → Prop}
    {behaviour : Behaviour Nat} {scope : Scope} (returns : Bool)
    (sound : behaviour.Sound pre scope.Covered)
    (abnormal : returns → ∀ trace, ¬ behaviour .normal trace) :
    behaviour.Sound pre
      ((branchFlow scope returns).Covered (Scope.positions scope.shape)) := by
  unfold branchFlow
  cases returns with
  | true => exact sound.of_abnormal (abnormal rfl)
  | false =>
      refine sound.consequence (fun _ holds => holds) fun assigned covered => ?_
      exact (scope.covered_iff assigned).mp covered

theorem length_branchFlow (scope : Scope) (returns : Bool) :
    (branchFlow scope returns).length = (Scope.positions scope.shape).length := by
  unfold branchFlow
  split <;> simp

/-- Restoring the flags of a scope of the same shape. -/
theorem covered_restored {before after : Scope} (shape : after.shape = before.shape)
    (assigned : Set Nat) :
    (after.flowRestore before.flowSave).Covered assigned ↔ before.Covered assigned := by
  rw [after.covered_flowRestore (by rw [shape, Scope.length_flowSave]), shape,
    before.covered_iff]

theorem flowSound_option (wellFormed : s.WellFormed) (nonempty : s.scope.stack ≠ [])
    {branch : Option Stmt} (branchKind : ∀ stmt ∈ branch, stmt.isBlock ∨ stmt.isIf)
    (flows : ∀ stmt ∈ branch, FlowsSoundly stmt)
    (clean : Log.hadErrors (analyzeOption branch s).2.2 = false) :
    FlowSound s (analyzeOption branch s).1
        (Stmt.declaredOption (analyzeOption branch s).2.1)
        (Stmt.behaviourOption (analyzeOption branch s).2.1) ∧
      (analyzeOption branch s).1.scope.shape = s.scope.shape := by
  cases branch with
  | none =>
      exact ⟨.of_scope_eq rfl
        (.straight (fun _ _ => trivial) fun _ _ covered => covered), rfl⟩
  | some stmt =>
      obtain ⟨sound, keepsShape⟩ := flows stmt rfl s wellFormed nonempty clean
      exact ⟨sound, keepsShape (branchKind stmt rfl)⟩

theorem flowSound_if (wellFormed : s.WellFormed) (nonempty : s.scope.stack ≠ [])
    {base : Base} {condition : Expr} {branchThen : Stmt} {branchElse : Option Stmt}
    (grammatical : (Stmt.ifStmt base condition branchThen branchElse).Grammatical)
    (thenFlows : FlowsSoundly branchThen)
    (elseFlows : ∀ stmt ∈ branchElse, FlowsSoundly stmt)
    (clean : Log.hadErrors (analyzeStatement
      (.ifStmt base condition branchThen branchElse) s).log = false) :
    let analysis := analyzeStatement (.ifStmt base condition branchThen branchElse) s
    FlowSound s analysis.state analysis.node.declared analysis.node.behaviour ∧
      analysis.state.scope.shape = s.scope.shape := by
  obtain ⟨conditionGrammatical, ⟨thenBlock, thenGrammatical⟩, elseKind, -⟩ := grammatical
  obtain ⟨conditionLog, conditionTyped⟩ :=
    analyzeCondition_cases wellFormed "if" conditionGrammatical
  unfold analyzeStatement analyzeIf at clean ⊢
  dsimp only at clean ⊢
  split at clean
  · rename_i failed
    simp only [Bool.not_eq_true'] at failed
    simp [conditionLog, failed] at clean
  rename_i ok
  have typed := (conditionTyped (by simpa using ok)).1
  rw [if_neg ok]
  simp only [Log.hadErrors_append, Bool.or_eq_false_iff] at clean
  obtain ⟨thenSound, keepsThen⟩ := thenFlows s wellFormed nonempty clean.1.2
  have thenShape := keepsThen (Or.inl thenBlock)
  have thenWellFormed : (analyzeStatement branchThen s).state.WellFormed :=
    (analyzeStatement_sound thenGrammatical s.currentFunc s wellFormed rfl).wellFormed
  generalize analyzeStatement branchThen s = thenAnalysis at *
  -- the second branch starts with the flags that the first one found
  generalize restoredState : ({ thenAnalysis.state with
    scope := thenAnalysis.state.scope.flowRestore s.scope.flowSave } : Semantic) =
      restored at *
  have restoredScope : restored.scope =
      thenAnalysis.state.scope.flowRestore s.scope.flowSave := by rw [← restoredState]
  have restoredWellFormed : restored.WellFormed := by
    rw [← restoredState]
    exact ⟨thenWellFormed.scope.flowRestore _, thenWellFormed.funcs⟩
  have restoredShape : restored.scope.shape = s.scope.shape := by
    rw [restoredScope, Scope.shape_flowRestore, thenShape]
  have restoredNonempty : restored.scope.stack ≠ [] :=
    stack_ne_nil_of_shape [] nonempty (by rw [restoredShape, Scope.extendShape_nil])
  obtain ⟨elseSound, elseShape⟩ := flowSound_option restoredWellFormed restoredNonempty
    elseKind elseFlows clean.2
  generalize analyzeOption branchElse restored = elseAnalysis at *
  have shape : elseAnalysis.1.scope.shape = s.scope.shape := elseShape.trans restoredShape
  have restoredNext : s.scope.nextId ≤ restored.scope.nextId := by
    rw [restoredScope]
    exact thenSound.nextId
  have afterThen := sound_branchFlow (stmtAlwaysReturns thenAnalysis.node)
    thenSound.sound Stmt.not_normal_of_alwaysReturns
  have afterElse := sound_branchFlow (optionAlwaysReturns elseAnalysis.2.1)
    elseSound.sound Stmt.not_normal_of_optionAlwaysReturns
  refine ⟨⟨⟨[], by simp [shape]⟩, restoredNext.trans elseSound.nextId, fun id inEither => ?_,
    ?_⟩, by simp [shape]⟩
  · rcases List.mem_append.mp inEither with inThen | inElse
    · exact thenSound.declared id inThen
    · exact restoredNext.trans (elseSound.declared id inElse)
  rw [thenShape] at afterThen
  rw [shape] at afterElse
  have thenLength := length_branchFlow thenAnalysis.state.scope
    (stmtAlwaysReturns thenAnalysis.node)
  have elseLength := length_branchFlow elseAnalysis.1.scope
    (optionAlwaysReturns elseAnalysis.2.1)
  rw [thenShape] at thenLength
  rw [shape] at elseLength
  have ids := congrArg Scope.positions shape
  refine (typed.sound .normal).seq (.choice ?_ ?_)
  · refine afterThen.consequence (fun _ covered => covered) fun assigned covered => ?_
    exact Scope.covered_flowAnd ids thenLength elseLength (Or.inl covered)
  · refine afterElse.consequence (fun assigned covered => ?_) fun assigned covered => ?_
    · rw [restoredScope]
      exact (covered_restored thenShape assigned).mpr covered
    · exact Scope.covered_flowAnd ids thenLength elseLength (Or.inr covered)

theorem flowSound_while (wellFormed : s.WellFormed) (nonempty : s.scope.stack ≠ [])
    {base : Base} {condition : Expr} {branchDo : Stmt}
    (grammatical : (Stmt.whileStmt base condition branchDo).Grammatical)
    (doFlows : FlowsSoundly branchDo)
    (clean : Log.hadErrors (analyzeStatement
      (.whileStmt base condition branchDo) s).log = false) :
    let analysis := analyzeStatement (.whileStmt base condition branchDo) s
    FlowSound s analysis.state analysis.node.declared analysis.node.behaviour := by
  obtain ⟨conditionGrammatical, isBlock, -⟩ := grammatical
  obtain ⟨conditionLog, conditionTyped⟩ :=
    analyzeCondition_cases wellFormed "while" conditionGrammatical
  unfold analyzeStatement analyzeWhile at clean ⊢
  dsimp only at clean ⊢
  split at clean
  · rename_i failed
    simp only [Bool.not_eq_true'] at failed
    simp [conditionLog, failed] at clean
  rename_i ok
  have typed := (conditionTyped (by simpa using ok)).1
  rw [if_neg ok]
  simp only [Log.hadErrors_append, Bool.or_eq_false_iff] at clean
  obtain ⟨body, keepsShape⟩ := doFlows s wellFormed nonempty clean.2
  have shape := keepsShape (Or.inl isBlock)
  refine ⟨⟨[], by simp [shape]⟩, body.nextId, body.declared, ?_⟩
  -- the flags before the loop stay sound, since the body declares new variables only
  have again : Behaviour.Sound s.scope.Covered _ s.scope.Covered :=
    body.sound.frame (Stmt.declares_behaviour _)
    fun assigned later covered kept table inStack symbol inTable flag => by
      refine kept symbol.id (covered table inStack symbol inTable flag) fun inBody => ?_
      have new := body.declared symbol.id inBody
      have old := (wellFormed.scope table inStack symbol inTable).2
      omega
  refine (Behaviour.Sound.loop (typed.sound .normal) again).consequence
    (fun _ covered => covered) fun assigned covered => ?_
  exact (covered_restored shape assigned).mpr covered

theorem flowSound_expression (wellFormed : s.WellFormed) {expr : Expr}
    (grammatical : expr.Grammatical)
    (clean : Log.hadErrors (analyzeExprStmt s expr).log = false) :
    FlowSound s (analyzeExprStmt s expr).state (analyzeExprStmt s expr).node.declared
      (analyzeExprStmt s expr).node.behaviour := by
  have sound := analyzeExpr_sound wellFormed grammatical .unresolved
  have ok : (analyzeExpr s expr .unresolved).ok := by
    simp only [analyzeExprStmt, Log.hadErrors_append, Bool.or_eq_false_iff, sound.log,
      Bool.not_eq_false'] at clean
    exact clean.1
  exact .of_scope_eq rfl ((sound.typed ok).sound .normal)

end Statements

/-- Outside nested functions the flags stay sound. -/
theorem flowsSoundly {stmt : Stmt} (grammatical : stmt.Grammatical)
    (flat : ∀ part ∈ stmt.parts, part.isFuncDecl = false) : FlowsSoundly stmt := by
  induction stmt using Stmt.induction with
  | varDecl decl =>
      intro s wellFormed nonempty clean
      exact ⟨flowSound_varDecl wellFormed nonempty grammatical clean, by simp [Stmt.isBlock,
        Stmt.isIf]⟩
  | varAssign assign =>
      intro s wellFormed _ clean
      exact ⟨flowSound_varAssign wellFormed grammatical clean, by simp [Stmt.isBlock,
        Stmt.isIf]⟩
  | block base statements statementsHypothesis =>
      intro s wellFormed _ clean
      have allGrammatical := (Stmt.grammaticalAll_iff statements).mp grammatical
      obtain ⟨sound, shape⟩ := flowSound_block (fun stmt inBlock =>
        ⟨statementsHypothesis stmt inBlock (allGrammatical stmt inBlock)
          fun part inStmt => flat part (List.mem_cons_of_mem _
            ((Stmt.mem_partsAll statements).mpr ⟨stmt, inBlock, inStmt⟩)),
          allGrammatical stmt inBlock⟩) wellFormed clean
      exact ⟨sound, fun _ => shape⟩
  | ifStmt base condition branchThen branchElse thenHypothesis elseHypothesis =>
      intro s wellFormed nonempty clean
      have thenFlows := thenHypothesis grammatical.2.1.2 fun part inThen =>
        flat part (List.mem_cons_of_mem _ (List.mem_append_left _ inThen))
      have elseFlows : ∀ stmt ∈ branchElse, FlowsSoundly stmt := by
        rintro stmt rfl
        exact elseHypothesis stmt rfl grammatical.2.2.2 fun part inElse =>
          flat part (List.mem_cons_of_mem _ (List.mem_append_right _ inElse))
      obtain ⟨sound, shape⟩ :=
        flowSound_if wellFormed nonempty grammatical thenFlows elseFlows clean
      exact ⟨sound, fun _ => shape⟩
  | whileStmt base condition branchDo doHypothesis =>
      intro s wellFormed nonempty clean
      have doFlows := doHypothesis grammatical.2.2 fun part inDo =>
        flat part (List.mem_cons_of_mem _ inDo)
      exact ⟨flowSound_while wellFormed nonempty grammatical doFlows clean,
        by simp [Stmt.isBlock, Stmt.isIf]⟩
  | funcDecl func body bodyHypothesis =>
      have nested := flat (.funcDecl func body) (by simp [Stmt.parts])
      cases nested
  | returnStmt base value =>
      intro s wellFormed _ clean
      exact ⟨flowSound_return wellFormed grammatical clean, by simp [Stmt.isBlock,
        Stmt.isIf]⟩
  | expression expr =>
      intro s wellFormed _ clean
      exact ⟨flowSound_expression wellFormed grammatical clean, by simp [Stmt.isBlock,
        Stmt.isIf]⟩

/-! ## Functions -/

/-- A call gives every parameter a value. -/
def entryEvents (params : List Parameter) : List (Event Nat) :=
  params.flatMap fun param => [.declare param.id, .write param.id]

/-- The variables of a function: its parameters and what its body declares. -/
def localsOf (func : FuncDecl) (body : Stmt) : List Nat :=
  func.parameters.map Parameter.id ++ body.declared

theorem safe_entryEvents (assigned : Set Nat) (params : List Parameter) :
    Safe assigned (entryEvents params) := by
  induction params generalizing assigned with
  | nil => trivial
  | cons param rest inductionHypothesis => exact ⟨trivial, trivial, inductionHypothesis _⟩

/-- The parameters become variables with new numbers whose flags are sound. -/
theorem insertParameters_flow (filename : String) (span : Span) {scope : Scope}
    (wellFormed : scope.WellFormed) (nonempty : scope.stack ≠ [])
    {params : List Parameter} (scalar : ∀ param ∈ params, param.type.IsScalar)
    (clean : Log.hadErrors (insertParameters filename span scope params).log = false)
    {assigned : Set Nat} (covered : scope.Covered assigned) :
    let inserted := insertParameters filename span scope params
    inserted.scope.stack ≠ [] ∧ scope.nextId ≤ inserted.scope.nextId ∧
      (∀ param ∈ inserted.parameters, scope.nextId ≤ param.id) ∧
      inserted.scope.Covered (after assigned (entryEvents inserted.parameters)) := by
  induction params generalizing scope assigned with
  | nil => exact ⟨nonempty, le_rfl, nofun, covered⟩
  | cons param rest inductionHypothesis =>
      rw [List.forall_mem_cons] at scalar
      unfold insertParameters at clean ⊢
      rw [if_neg scalar.1.ne_void] at clean ⊢
      simp only [Log.hadErrors_append, Bool.or_eq_false_iff] at clean
      dsimp only
      generalize symbolIs :
        ({ name := param.name
           type := param.type
           initialized := true
           span := span
           qualifiers := param.qualifiers } : VarSymbol) = symbol at *
      have name : symbol.name = param.name := by rw [← symbolIs]
      obtain ⟨table, inStack⟩ := List.exists_mem_of_ne_nil _ nonempty
      obtain ⟨found, lookup, id⟩ := Scope.lookup_insert clean.1 inStack
      rw [name] at lookup
      have nextId := Scope.nextId_insert nonempty clean.1
      have firstCovered : (scope.insert symbol filename).1.Covered
          (Insert.insert scope.nextId (assigned \ {scope.nextId})) :=
        covered.insert wellFormed nonempty clean.1
          (fun id has below => Or.inr ⟨has, Nat.ne_of_lt below⟩) fun _ => Or.inl rfl
      obtain ⟨others, grows, fresh, restCovered⟩ := inductionHypothesis
        (wellFormed.insert symbol (symbolIs ▸ scalar.1) filename)
        (stack_ne_nil_of_shape _ nonempty (Scope.shape_insert nonempty clean.1))
        scalar.2 clean.2 firstCovered
      rw [lookup, Option.map_some, Option.getD_some, id]
      refine ⟨others, by omega, ?_, restCovered⟩
      rw [List.forall_mem_cons]
      exact ⟨le_rfl, fun other inRest => by have := fresh other inRest; omega⟩

/-- The analysis of a function without an error, part by part. -/
theorem analyzeFuncDecl_clean {s : Semantic} {func : FuncDecl} {body : Stmt}
    (known : ∀ param ∈ func.parameters, param.type ≠ .unresolved)
    (clean : Log.hadErrors
      (analyzeStatement (.funcDecl func (some body)) s).log = false) :
    ∃ inner : Semantic, ∃ inserted : ParametersInsertion,
      inserted = insertParameters s.filename func.base.span s.scope.push
        func.parameters ∧
      (∀ param ∈ func.parameters, param.type.IsScalar) ∧
      Log.hadErrors inserted.log = false ∧
      inner.scope = inserted.scope ∧ inner.funcs = (s.funcs.insert
        (funcSymbol s func true) s.filename).table ∧
      Log.hadErrors (analyzeStatement body inner).log = false ∧
      (analyzeStatement (.funcDecl func (some body)) s).node =
        .funcDecl
          { func with
            linkName := some (funcSymbol s func true).linkName
            parameters := inserted.parameters }
          (some (analyzeStatement body inner).node) := by
  have steps : analyzeStatement (.funcDecl func (some body)) s =
      analyzeFuncDecl s func (some body) (some fun s => analyzeStatement body s) := rfl
  rw [steps] at clean ⊢
  unfold analyzeFuncDecl at clean ⊢
  dsimp only [Option.isSome_some] at clean ⊢
  split at clean
  · rename_i failed
    simp only [Bool.not_eq_true'] at failed
    exact absurd clean (by simp [analyzeFuncSymQual_log, failed])
  rename_i qualifiers
  rw [if_neg qualifiers]
  split at clean
  · rename_i failed
    simp only [Bool.not_eq_true'] at failed
    have error := FuncSymbolTable.hadErrors_of_insert_not_ok failed
    exact absurd clean (by simp [error])
  rename_i inserted
  rw [if_neg inserted]
  simp only [StmtAnalysis.after, analyzeFuncBody, Log.hadErrors_append,
    Bool.or_eq_false_iff] at clean
  exact ⟨_, _, rfl, analyzeParameters_scalar known clean.1.1, clean.2.1.1, rfl, rfl,
    clean.2.1.2, rfl⟩

/-- In a function without nested functions that is analysed without an error,
every execution of the body reads a variable of the function only after it has
written it since its declaration. -/
theorem reads_follow_writes {s : Semantic} (wellFormed : s.WellFormed)
    {func : FuncDecl} {body : Stmt}
    (grammatical : (Stmt.funcDecl func (some body)).Grammatical)
    (flat : ∀ part ∈ body.parts, part.isFuncDecl = false)
    (clean : Log.hadErrors
      (analyzeStatement (.funcDecl func (some body)) s).log = false)
    {analyzed : FuncDecl} {analyzedBody : Stmt}
    (node : (analyzeStatement (.funcDecl func (some body)) s).node =
      .funcDecl analyzed (some analyzedBody))
    {outcome : Outcome} {trace : List (Event Nat)}
    (run : analyzedBody.behaviour outcome trace) :
    ReadsFollowWrites {id | id ∈ localsOf analyzed analyzedBody}
      (entryEvents analyzed.parameters ++ trace) := by
  obtain ⟨returnType, known, -, bodyGrammatical⟩ := grammatical
  obtain ⟨inner, inserted, insertion, scalar, insertClean, scope, funcs, bodyClean, result⟩ :=
    analyzeFuncDecl_clean known clean
  obtain ⟨rfl, bodyEq⟩ := Stmt.funcDecl.inj (result.symm.trans node)
  obtain rfl := Option.some.inj bodyEq
  -- everything outside the function counts as written, so that its own variables do not
  have outside : s.scope.push.Covered {id | id < s.scope.nextId} := by
    intro table inStack symbol inTable _
    rcases List.mem_cons.mp inStack with rfl | inOuter
    · cases inTable
    · exact (wellFormed.scope table inOuter symbol inTable).2
  obtain ⟨nonempty, grows, paramsFresh, covered⟩ := insertParameters_flow s.filename
    func.base.span wellFormed.scope.push (by simp [Scope.push]) scalar
    (insertion ▸ insertClean) outside
  rw [← insertion] at nonempty grows paramsFresh covered
  have innerWellFormed : inner.WellFormed := by
    refine ⟨?_, ?_⟩
    · rw [scope, insertion]
      exact (insertParameters_sound s.filename func.base.span wellFormed.scope.push
        known).1
    · rw [funcs]
      exact wellFormed.funcs.insert _ returnType known s.filename
  obtain ⟨flow, -⟩ := flowsSoundly bodyGrammatical flat inner innerWellFormed
    (scope ▸ nonempty) bodyClean
  have safe : Safe {id | id < s.scope.nextId} (entryEvents inserted.parameters ++ trace) :=
    (safe_append _ _ _).mpr ⟨safe_entryEvents _ _,
      (flow.sound _ (scope ▸ covered) outcome trace run).1⟩
  refine safe.readsFollowWrites ?_
  · intro id isLocal below
    have fresh : s.scope.nextId ≤ id := by
      rcases List.mem_append.mp isLocal with isParam | inBody
      · obtain ⟨param, inParams, rfl⟩ := List.mem_map.mp isParam
        exact paramsFresh param inParams
      · have innerFresh := flow.declared id inBody
        rw [scope] at innerFresh
        exact grows.trans innerFresh
    exact absurd below (Nat.not_lt.mpr fresh)

/-- A body that writes its variable in both branches of an `if`. -/
def branchesBody : Stmt :=
  .block {}
    [.varDecl
        { qualifiers := { isMutable := true }
          varType := .i32
          name := "x"
          value := none },
      .ifStmt {} (.literal {} .kwTrue "true")
        (.block {} [.varAssign { name := "x", value := .literal {} .integer "1" }])
        (some (.block {} [.varAssign { name := "x", value := .literal {} .integer "2" }])),
      .returnStmt {} (some (.identifier {} "x" 0 0 none))]

/-- A function without parameters. -/
def branchesFunc : FuncDecl :=
  { name := "f", parameters := [], returnType := .i32 }

/-- The state at the top level. -/
def topLevel : Semantic :=
  { scope := Scope.push {}, filename := "main.su" }

/-- A branch with the annotations of the analyser. -/
def branchesAssigned (value : String) : Stmt :=
  .block {}
    [.varAssign
      { base := { resolved := .i32 }
        name := "x"
        value := .literal { resolved := .i32 } .integer value }]

/-- The body with the annotations of the analyser. -/
def branchesAnalyzed : Stmt :=
  .block {}
    [.varDecl
        { qualifiers := { isMutable := true }
          varType := .i32
          name := "x"
          value := none },
      .ifStmt {} (.literal { resolved := .bool } .kwTrue "true")
        (branchesAssigned "1") (some (branchesAssigned "2")),
      .returnStmt {}
        (some (.identifier { resolved := .i32 } "x" 2 0
          (some
            { name := "x"
              type := .i32
              initialized := true
              depth := 2
              qualifiers := { isMutable := true } })))]

theorem reads_follow_writes_branches :
    ReadsFollowWrites {id | id ∈ localsOf branchesFunc branchesAnalyzed}
      (entryEvents branchesFunc.parameters ++ [.declare 0, .write 0, .read 0]) := by
  have wellFormed : topLevel.WellFormed :=
    ⟨by simp [Scope.WellFormed, topLevel, Scope.push],
      by simp [FuncSymbolTable.Known, topLevel]⟩
  have grammatical : (Stmt.funcDecl branchesFunc (some branchesBody)).Grammatical := by
    simp [Stmt.Grammatical, Stmt.GrammaticalOption, Stmt.GrammaticalAll, branchesFunc,
      branchesBody, Stmt.isBlock, Expr.Grammatical]
  have node : (analyzeStatement (.funcDecl branchesFunc (some branchesBody)) topLevel).node =
      .funcDecl { branchesFunc with linkName := some "f" } (some branchesAnalyzed) := rfl
  -- the first branch is taken
  have branch : (branchesAssigned "1").behaviour .normal [.write 0] :=
    Or.inr ⟨[.write 0], [], Or.inl ⟨rfl, rfl⟩, Or.inl ⟨rfl, rfl⟩, rfl⟩
  have choice : Stmt.behaviour (.ifStmt {} (.literal { resolved := .bool } .kwTrue "true")
      (branchesAssigned "1") (some (branchesAssigned "2"))) .normal [.write 0] :=
    Or.inr ⟨[], [.write 0], Or.inl ⟨rfl, rfl⟩, Or.inl branch, rfl⟩
  have run : branchesAnalyzed.behaviour .returned [.declare 0, .write 0, .read 0] :=
    Or.inr ⟨[.declare 0], [.write 0, .read 0], Or.inl ⟨rfl, rfl⟩,
      Or.inr ⟨[.write 0], [.read 0], choice,
        Or.inl ⟨by decide, Or.inl ⟨rfl, rfl⟩⟩, rfl⟩, rfl⟩
  exact reads_follow_writes wellFormed grammatical (by decide) (by decide)
    node run

end Sulfur
