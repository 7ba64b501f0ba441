import Sulfur.Semantic.Flow

/-!
# Balance of the scope stack

A flow state has no names: its flags are matched to the symbols of a scope by position.  The
analysis of a statement, clean or not, leaves every table that it finds with the symbols that
it had, and adds symbols at the end of the innermost one only.  A block, a branch or a loop
adds none, so that the flags saved before it fit the tables after it.
-/

namespace Sulfur

/-- A symbol but for its flag. -/
def VarSymbol.unflagged (symbol : VarSymbol) : VarSymbol :=
  { symbol with initialized := false }

/-- The statements whose analysis declares nothing in the scope around them. -/
def Stmt.isCompound : Stmt → Bool
  | block .. | ifStmt .. | whileStmt .. => true
  | _ => false

theorem Stmt.isCompound_of_isBlock {stmt : Stmt} (block : stmt.isBlock) :
    stmt.isCompound := by
  cases stmt <;> simp_all [isBlock, isCompound]

theorem Stmt.isCompound_of_isIf {stmt : Stmt} (ifStmt : stmt.isIf) : stmt.isCompound := by
  cases stmt <;> simp_all [isIf, isCompound]

namespace Scope

/-- The tables but for the flags. -/
def frames (scope : Scope) : List (List VarSymbol) :=
  scope.stack.map fun table => table.map VarSymbol.unflagged

/-- The innermost table may have more symbols at its end, and nothing else differs but for
the flags. -/
def Extends (before after : Scope) : Prop :=
  ∃ table outer added, before.frames = table :: outer ∧
    after.frames = (table ++ added) :: outer

theorem length_frames (scope : Scope) : scope.frames.length = scope.depth :=
  List.length_map _

theorem frames_ne_nil_iff (scope : Scope) : scope.frames ≠ [] ↔ scope.stack ≠ [] := by
  simp [frames]

/-! ## Flags by position -/

theorem frames_flowRestore (scope : Scope) (state : FlowState) :
    (scope.flowRestore state).frames = scope.frames :=
  map_restoreStack (fun _ _ => rfl) scope.stack state

theorem frames_markInitialized (scope : Scope) (name : String) :
    (scope.markInitialized name).frames = scope.frames :=
  map_markStack (fun _ => rfl) name scope.stack

/-- Two tables with the same symbols take flags alike. -/
theorem restoreTable_of_unflagged {table other : List VarSymbol}
    (same : other.map VarSymbol.unflagged = table.map VarSymbol.unflagged)
    (state : FlowState) (enough : table.length ≤ state.length) :
    restoreTable other state = restoreTable table state := by
  induction table generalizing other state with
  | nil => rw [List.map_eq_nil_iff.mp same]
  | cons symbol rest inductionHypothesis =>
      rcases List.map_eq_cons_iff.mp same with ⟨first, others, rfl, firstSame, othersSame⟩
      cases state with
      | nil => simp at enough
      | cons flag state =>
          have flagged : { first with initialized := flag } =
              { symbol with initialized := flag } :=
            congrArg (fun blank : VarSymbol => { blank with initialized := flag }) firstSame
          rw [restoreTable, restoreTable, flagged,
            inductionHypothesis othersSame state (Nat.le_of_succ_le_succ enough)]

theorem restoreStack_of_unflagged {stack other : List (List VarSymbol)}
    (same : (other.map fun table => table.map VarSymbol.unflagged) =
      stack.map fun table => table.map VarSymbol.unflagged)
    (state : FlowState) (enough : (flags stack).length ≤ state.length) :
    restoreStack other state = restoreStack stack state := by
  induction stack generalizing other with
  | nil => rw [List.map_eq_nil_iff.mp same]
  | cons table outer inductionHypothesis =>
      rcases List.map_eq_cons_iff.mp same with ⟨first, others, rfl, firstSame, othersSame⟩
      rw [flags, List.length_append, List.length_map] at enough
      have outerEnough : (flags outer).length ≤ state.length := by omega
      have remain : (restoreStack outer state).2 = state.drop (flags outer).length := by
        have split := (restoreStack_append outer (state.take (flags outer).length)
          (state.drop (flags outer).length) (by simp [outerEnough])).1
        rwa [List.take_append_drop] at split
      have tableEnough : table.length ≤ (restoreStack outer state).2.length := by
        rw [remain, List.length_drop]
        omega
      simp only [restoreStack, inductionHypothesis othersSame outerEnough,
        restoreTable_of_unflagged firstSame _ tableEnough]

theorem restoreTable_initialized (table : List VarSymbol) (rest : FlowState) :
    restoreTable table (table.map VarSymbol.initialized ++ rest) = (table, rest) := by
  induction table with
  | nil => rfl
  | cons symbol others inductionHypothesis => simp [restoreTable, inductionHypothesis]

theorem restoreStack_flags (stack : List (List VarSymbol)) (rest : FlowState) :
    restoreStack stack (flags stack ++ rest) = (stack, rest) := by
  induction stack generalizing rest with
  | nil => rfl
  | cons table outer inductionHypothesis =>
      simp only [restoreStack, flags, List.append_assoc, inductionHypothesis,
        restoreTable_initialized]

/-- Flags for the symbols of a scope fit every scope with the same symbols. -/
theorem flowRestore_of_frames {before after : Scope} (same : after.frames = before.frames)
    {state : FlowState} (length : state.length = before.flowSave.length) :
    (after.flowRestore state).stack = (before.flowRestore state).stack :=
  congrArg Prod.fst (restoreStack_of_unflagged same state length.ge)

/-- What was saved is restored, whatever happened to the flags in between. -/
theorem flowRestore_flowSave {before after : Scope} (same : after.frames = before.frames) :
    (after.flowRestore before.flowSave).stack = before.stack := by
  rw [flowRestore_of_frames same rfl]
  have restored := restoreStack_flags before.stack []
  rw [List.append_nil] at restored
  exact congrArg Prod.fst restored

/-! ## Extensions -/

namespace Extends

theorem of_frames {before after : Scope} (opened : before.stack ≠ [])
    (same : after.frames = before.frames) : before.Extends after := by
  rcases List.exists_cons_of_ne_nil ((frames_ne_nil_iff before).mpr opened) with
    ⟨table, outer, frames⟩
  exact ⟨table, outer, [], frames, by rw [same, frames, List.append_nil]⟩

theorem refl {scope : Scope} (opened : scope.stack ≠ []) : scope.Extends scope :=
  of_frames opened rfl

theorem trans {first second third : Scope} (before : first.Extends second)
    (after : second.Extends third) : first.Extends third := by
  rcases before with ⟨table, outer, added, frames, middle⟩
  rcases after with ⟨table', outer', more, middle', last⟩
  rcases List.cons.inj (middle'.symm.trans middle) with ⟨rfl, rfl⟩
  exact ⟨table, outer', added ++ more, frames, by rw [last, List.append_assoc]⟩

theorem opened {before after : Scope} (grown : before.Extends after) :
    after.stack ≠ [] := by
  rcases grown with ⟨table, outer, added, -, frames⟩
  rw [← frames_ne_nil_iff, frames]
  exact List.cons_ne_nil _ _

theorem depth {before after : Scope} (grown : before.Extends after) :
    after.depth = before.depth := by
  rcases grown with ⟨table, outer, added, frames, after⟩
  rw [← length_frames, ← length_frames, frames, after, List.length_cons, List.length_cons]

/-- What happened in an inner scope is gone when the scope is closed. -/
theorem frames_pop {scope after : Scope} (grown : scope.push.Extends after) :
    after.pop.frames = scope.frames := by
  rcases grown with ⟨table, outer, added, frames, after⟩
  have pushed : scope.push.frames = [] :: scope.frames := rfl
  rw [pushed] at frames
  rcases List.cons.inj frames with ⟨-, rfl⟩
  rw [Scope.frames, pop, List.map_drop]
  exact congrArg (List.drop 1) after

end Extends

theorem extends_insert {scope : Scope} (opened : scope.stack ≠ []) (symbol : VarSymbol)
    (filename : String) : scope.Extends (scope.insert symbol filename).1 := by
  rcases List.exists_cons_of_ne_nil opened with ⟨table, outer, stack⟩
  unfold insert
  rw [stack]
  dsimp only
  split
  · exact .refl opened
  · refine ⟨table.map VarSymbol.unflagged, _,
      [VarSymbol.unflagged { symbol with id := scope.nextId, depth := scope.depth - 1 }],
      by rw [frames, stack]; rfl, ?_⟩
    rw [frames, List.map_cons, List.map_append]
    rfl

end Scope

/-! ## Statements -/

open Scope

theorem extends_insertParameters (filename : String) (span : Span) {scope : Scope}
    (opened : scope.stack ≠ []) (parameters : List Parameter) :
    scope.Extends (insertParameters filename span scope parameters).scope := by
  induction parameters generalizing scope with
  | nil => exact .refl opened
  | cons param rest inductionHypothesis =>
      unfold insertParameters
      split
      · exact inductionHypothesis opened
      · exact (extends_insert opened _ _).trans
          (inductionHypothesis (extends_insert opened _ _).opened)

/-- A function is analysed in a scope of its own, which is closed on the one way out. -/
theorem frames_analyzeFuncBody (s : Semantic) (func : FuncDecl)
    {analyzeBody : Semantic → StmtAnalysis}
    (bodyExtends : ∀ s : Semantic, s.scope.stack ≠ [] →
      s.scope.Extends (analyzeBody s).state.scope) :
    (analyzeFuncBody s func analyzeBody).state.scope.frames = s.scope.frames := by
  have pushed : s.scope.push.stack ≠ [] := List.cons_ne_nil _ _
  have inserted := extends_insertParameters s.filename func.base.span pushed func.parameters
  exact (inserted.trans
    (bodyExtends { s with scope := _, currentFunc := some _ } inserted.opened)).frames_pop

section Statements

variable {s : Semantic} (opened : s.scope.stack ≠ [])

include opened

theorem extends_analyzeInitialiser (decl : VarDecl) (sym : VarSymbol) :
    s.scope.Extends (analyzeInitialiser s decl sym).state.scope := by
  unfold analyzeInitialiser
  split
  · exact extends_insert opened sym s.filename
  · dsimp only
    split
    · exact .refl opened
    · split
      · exact .refl opened
      · exact extends_insert opened sym s.filename

theorem extends_analyzeVarDecl (decl : VarDecl) :
    s.scope.Extends (analyzeVarDecl s decl).state.scope := by
  unfold analyzeVarDecl
  dsimp only
  split
  · exact .refl opened
  · split
    · exact .refl opened
    · split
      · exact .refl opened
      · exact extends_analyzeInitialiser opened _ _

theorem extends_analyzeVarAssign (assign : VarAssign) :
    s.scope.Extends (analyzeVarAssign s assign).state.scope := by
  unfold analyzeVarAssign
  split
  · exact .refl opened
  · dsimp only
    split
    · exact .refl opened
    · split
      · exact .refl opened
      · exact .of_frames opened (frames_markInitialized s.scope _)

/-- A branch is restored twice, and what it has declared is below the top no more. -/
theorem extends_analyzeIf (base : Base) (condition : Expr) (branchThen : Stmt)
    (branchElse : Option Stmt) {analyzeThen : Semantic → StmtAnalysis}
    {analyzeElse : Semantic → Semantic × Option Stmt × Log}
    (thenExtends : ∀ s : Semantic, s.scope.stack ≠ [] →
      s.scope.Extends (analyzeThen s).state.scope)
    (elseExtends : ∀ s : Semantic, s.scope.stack ≠ [] →
      s.scope.Extends (analyzeElse s).1.scope) :
    s.scope.Extends (analyzeIf s base condition branchThen branchElse analyzeThen
      analyzeElse).state.scope := by
  unfold analyzeIf
  dsimp only
  split
  · exact .refl opened
  · have afterThen := thenExtends s opened
    have restored := afterThen.trans
      (.of_frames afterThen.opened (frames_flowRestore _ s.scope.flowSave))
    have afterElse := restored.trans (elseExtends { (analyzeThen s).state with
      scope := (analyzeThen s).state.scope.flowRestore s.scope.flowSave } restored.opened)
    exact afterElse.trans (.of_frames afterElse.opened (frames_flowRestore _ _))

theorem extends_analyzeWhile (base : Base) (condition : Expr) (branchDo : Stmt)
    {analyzeDo : Semantic → StmtAnalysis}
    (doExtends : ∀ s : Semantic, s.scope.stack ≠ [] →
      s.scope.Extends (analyzeDo s).state.scope) :
    s.scope.Extends (analyzeWhile s base condition branchDo analyzeDo).state.scope := by
  unfold analyzeWhile
  dsimp only
  split
  · exact .refl opened
  · have afterDo := doExtends s opened
    exact afterDo.trans (.of_frames afterDo.opened (frames_flowRestore _ s.scope.flowSave))

theorem extends_analyzeFuncDecl (func : FuncDecl) (body : Option Stmt)
    {analyzeBody : Option (Semantic → StmtAnalysis)}
    (bodyExtends : ∀ analyze ∈ analyzeBody, ∀ s : Semantic, s.scope.stack ≠ [] →
      s.scope.Extends (analyze s).state.scope) :
    s.scope.Extends (analyzeFuncDecl s func body analyzeBody).state.scope := by
  unfold analyzeFuncDecl
  dsimp only
  split
  · exact .refl opened
  · split
    · exact .refl opened
    · split
      · exact .refl opened
      · rename_i analyze
        exact .of_frames opened (frames_analyzeFuncBody _ _ (bodyExtends analyze rfl))

end Statements

theorem extends_analyzeStatements {statements : List Stmt}
    (each : ∀ stmt ∈ statements, ∀ s : Semantic, s.scope.stack ≠ [] →
      s.scope.Extends (analyzeStatement stmt s).state.scope)
    {s : Semantic} (opened : s.scope.stack ≠ []) :
    s.scope.Extends (analyzeStatements statements s).state.scope := by
  induction statements generalizing s with
  | nil => exact .refl opened
  | cons stmt rest inductionHypothesis =>
      have first := each stmt (List.mem_cons_self ..) s opened
      exact first.trans (inductionHypothesis
        (fun other inRest => each other (List.mem_cons_of_mem _ inRest)) first.opened)

/-- A block closes the scope that it opens. -/
theorem frames_analyzeBlock (base : Base) {statements : List Stmt}
    (each : ∀ stmt ∈ statements, ∀ s : Semantic, s.scope.stack ≠ [] →
      s.scope.Extends (analyzeStatement stmt s).state.scope) (s : Semantic) :
    (analyzeStatement (.block base statements) s).state.scope.frames = s.scope.frames :=
  (extends_analyzeStatements each (s := { s with scope := s.scope.push })
    (List.cons_ne_nil _ _)).frames_pop

/-- Whatever the statement is and whatever it logs. -/
theorem extends_analyzeStatement (stmt : Stmt) (s : Semantic)
    (opened : s.scope.stack ≠ []) :
    s.scope.Extends (analyzeStatement stmt s).state.scope := by
  induction stmt using Stmt.induction generalizing s with
  | varDecl decl => exact extends_analyzeVarDecl opened decl
  | varAssign assign => exact extends_analyzeVarAssign opened assign
  | block base statements inductionHypothesis =>
      exact .of_frames opened (frames_analyzeBlock base inductionHypothesis s)
  | ifStmt base condition branchThen branchElse thenHypothesis elseHypothesis =>
      apply extends_analyzeIf opened base condition branchThen branchElse thenHypothesis
      intro s opened
      cases branchElse with
      | none => exact .refl opened
      | some stmt => exact elseHypothesis stmt rfl s opened
  | whileStmt base condition branchDo doHypothesis =>
      exact extends_analyzeWhile opened base condition branchDo doHypothesis
  | funcDecl func body bodyHypothesis =>
      unfold analyzeStatement
      apply extends_analyzeFuncDecl opened func body
      cases body with
      | none =>
          rintro analyze ⟨⟩
      | some stmt =>
          rintro analyze ⟨⟩
          exact bodyHypothesis stmt rfl
  | returnStmt base value =>
      have kept : (analyzeReturn s base value).state = s := by
        unfold analyzeReturn
        split
        · rfl
        · split
          · rfl
          · split <;> rfl
      rw [analyzeStatement, kept]
      exact .refl opened
  | expression expr => exact .refl opened

/-- Of the statements that the parser builds, the compound ones add nothing at all: their
branches and bodies are blocks. -/
theorem frames_analyzeStatement {stmt : Stmt} (grammatical : stmt.Grammatical)
    (compound : stmt.isCompound) (s : Semantic) (opened : s.scope.stack ≠ []) :
    (analyzeStatement stmt s).state.scope.frames = s.scope.frames := by
  induction stmt using Stmt.induction generalizing s with
  | block base statements =>
      exact frames_analyzeBlock base (fun stmt _ => extends_analyzeStatement stmt) s
  | ifStmt base condition branchThen branchElse thenHypothesis elseHypothesis =>
      rcases grammatical with ⟨-, ⟨thenBlock, thenGrammatical⟩, elseShape, elseGrammatical⟩
      rw [analyzeStatement]
      unfold analyzeIf
      dsimp only
      split
      · rfl
      · have afterThen := thenHypothesis thenGrammatical
          (Stmt.isCompound_of_isBlock thenBlock) s opened
        rw [frames_flowRestore]
        cases branchElse with
        | none => rw [analyzeOption, frames_flowRestore, afterThen]
        | some stmt =>
            have elseCompound : stmt.isCompound :=
              (elseShape stmt rfl).elim Stmt.isCompound_of_isBlock Stmt.isCompound_of_isIf
            have restored : ((analyzeStatement branchThen s).state.scope.flowRestore
                s.scope.flowSave).stack ≠ [] := by
              rwa [flowRestore_flowSave afterThen]
            rw [analyzeOption, elseHypothesis stmt rfl elseGrammatical elseCompound _ restored,
              frames_flowRestore, afterThen]
  | whileStmt base condition branchDo doHypothesis =>
      rcases grammatical with ⟨-, doBlock, doGrammatical⟩
      rw [analyzeStatement]
      unfold analyzeWhile
      dsimp only
      split
      · rfl
      · rw [frames_flowRestore]
        exact doHypothesis doGrammatical (Stmt.isCompound_of_isBlock doBlock) s opened
  | _ => cases compound

/-- The analysis of a statement that the parser builds keeps the scope stack balanced,
whatever it logs: the depth stays, the symbols of every table stay where they are, and new
ones come at the end of the innermost table only.  A compound statement adds none, so that
flags for the scope before it fall to the same symbols after it, and those that were saved
restore the stack as it was. -/
theorem analyzeStatement_balanced {stmt : Stmt} (grammatical : stmt.Grammatical)
    {s : Semantic} (opened : 0 < s.scope.depth) :
    (analyzeStatement stmt s).state.scope.depth = s.scope.depth ∧
      (∃ table outer added, s.scope.frames = table :: outer ∧
        (analyzeStatement stmt s).state.scope.frames = (table ++ added) :: outer) ∧
      (stmt.isCompound →
        (analyzeStatement stmt s).state.scope.frames = s.scope.frames ∧
          (∀ state : FlowState, state.length = s.scope.flowSave.length →
            ((analyzeStatement stmt s).state.scope.flowRestore state).stack =
              (s.scope.flowRestore state).stack) ∧
          ((analyzeStatement stmt s).state.scope.flowRestore s.scope.flowSave).stack =
            s.scope.stack) := by
  have nonempty : s.scope.stack ≠ [] := List.ne_nil_of_length_pos opened
  have grown := extends_analyzeStatement stmt s nonempty
  refine ⟨grown.depth, grown, fun compound => ?_⟩
  have same := frames_analyzeStatement grammatical compound s nonempty
  exact ⟨same, fun state length => flowRestore_of_frames same length,
    flowRestore_flowSave same⟩

/-- A scope with a mutable variable that has no value yet. -/
def unsetVariable : Semantic :=
  { scope :=
      { stack :=
          [[{ name := "x"
              type := .i32
              initialized := false
              qualifiers := { isMutable := true } }]]
        nextId := 1 }
    filename := "main.su" }

/-- The block `{ x = 1; i32 y; i32 y; }`. -/
def redeclaringBlock : Stmt :=
  .block {}
    [.varAssign { name := "x", value := .literal {} .integer "1" },
      .varDecl { name := "y", varType := .i32, value := none },
      .varDecl { name := "y", varType := .i32, value := none }]

theorem analyzeStatement_balanced_redeclaringBlock :
    Log.hadErrors (analyzeStatement redeclaringBlock unsetVariable).log ∧
      (analyzeStatement redeclaringBlock unsetVariable).state.scope.flowSave ≠
        unsetVariable.scope.flowSave ∧
      ((analyzeStatement redeclaringBlock unsetVariable).state.scope.flowRestore
        unsetVariable.scope.flowSave).stack = unsetVariable.scope.stack := by
  have grammatical : redeclaringBlock.Grammatical := by
    simp [redeclaringBlock, Stmt.Grammatical, Stmt.GrammaticalAll, Expr.Grammatical]
  have balanced := analyzeStatement_balanced grammatical
    (show 0 < unsetVariable.scope.depth by decide)
  exact ⟨by decide, by decide, (balanced.2.2 rfl).2.2⟩

end Sulfur
