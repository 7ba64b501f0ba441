import Sulfur.Semantic.Binding

/-!
# Settled trees

What the later passes read from an analysed tree without a check of their own:
types of expressions, numbers of variables, link names and arguments of calls.
An analysis that logs no error has settled all of them.
-/

namespace Sulfur

namespace Expr

mutual

/-- The nodes of an expression.  The callee of a call is none of them. -/
def nodes : Expr → List Expr
  | binary base op left right => binary base op left right :: (left.nodes ++ right.nodes)
  | unary base op operand => unary base op operand :: operand.nodes
  | cast base target operand => cast base target operand :: operand.nodes
  | literal base tokenType value => [literal base tokenType value]
  | identifier base name depth id symbol => [identifier base name depth id symbol]
  | funcCall base callee linkName arguments =>
      funcCall base callee linkName arguments :: nodesAll arguments

/-- The same for the arguments of a call. -/
def nodesAll : List Expr → List Expr
  | [] => []
  | argument :: rest => argument.nodes ++ nodesAll rest

end

theorem mem_nodesAll {node : Expr} (arguments : List Expr) :
    node ∈ nodesAll arguments ↔ ∃ argument ∈ arguments, node ∈ argument.nodes := by
  induction arguments with
  | nil => simp [nodesAll]
  | cons argument rest inductionHypothesis => simp [nodesAll, inductionHypothesis]

/-- Every node of a typed expression is typed. -/
theorem Typed.node {s : Semantic} {expr node : Expr} (typed : expr.Typed s)
    (isNode : node ∈ expr.nodes) : node.Typed s := by
  induction expr using Expr.induction with
  | binary base op left right leftHypothesis rightHypothesis =>
      simp only [nodes, List.mem_cons, List.mem_append] at isNode
      rcases isNode with rfl | inLeft | inRight
      · exact typed
      · exact leftHypothesis typed.1 inLeft
      · exact rightHypothesis typed.2.1 inRight
  | unary base op operand operandHypothesis =>
      rcases List.mem_cons.mp isNode with rfl | inOperand
      · exact typed
      · exact operandHypothesis typed.1 inOperand
  | cast base target operand operandHypothesis =>
      rcases List.mem_cons.mp isNode with rfl | inOperand
      · exact typed
      · exact operandHypothesis typed.1 inOperand
  | literal base tokenType value =>
      rw [List.mem_singleton.mp isNode]
      exact typed
  | identifier base name depth id symbol =>
      rw [List.mem_singleton.mp isNode]
      exact typed
  | funcCall base callee linkName arguments argumentsHypothesis =>
      rcases List.mem_cons.mp isNode with rfl | inArguments
      · exact typed
      · rcases (mem_nodesAll arguments).mp inArguments with ⟨argument, isArgument, inArgument⟩
        rcases typed with ⟨func, -, -, -, argumentsTyped⟩
        exact argumentsHypothesis argument isArgument
          (argumentsTyped.typed argument isArgument) inArgument

/-- A typed node has a type. -/
theorem Typed.resolved_ne {s : Semantic} (wellFormed : s.WellFormed) {node : Expr}
    (typed : node.Typed s) : node.resolved ≠ .unresolved := by
  induction node using Expr.induction with
  | binary base op left right leftHypothesis rightHypothesis =>
      rcases typed with ⟨leftTyped, -, opTyped⟩
      have known := leftHypothesis leftTyped
      change base.resolved ≠ _
      unfold BinaryOp.Typed at opTyped
      split at opTyped
      · simp [opTyped.1]
      · split at opTyped
        · rwa [opTyped]
        · split at opTyped
          · simp [opTyped.1]
          · rcases opTyped with ⟨group, -, result⟩
            rw [result]
            revert group
            cases left.resolved <;> cases right.resolved <;> decide
  | unary base op operand operandHypothesis =>
      rcases typed with ⟨operandTyped, opTyped, -⟩
      have known := operandHypothesis operandTyped
      change base.resolved ≠ _
      have same : base.resolved = operand.resolved := by
        unfold UnaryOp.Typed at opTyped
        split at opTyped
        · exact opTyped.2
        · rw [opTyped.2, opTyped.1]
        · exact opTyped.2
      rwa [same]
  | cast base target operand =>
      rcases typed with ⟨-, resolved, castable⟩
      change base.resolved ≠ _
      rintro unresolved
      rw [← resolved, unresolved] at castable
      simp [ValueType.isCastable] at castable
  | literal base tokenType value =>
      change base.resolved ≠ _
      cases tokenType with
      | integer =>
          rcases typed with ⟨-, -, integer, -⟩
          exact ValueType.ne_unresolved_of_isInteger integer
      | kwTrue => simp [show base.resolved = .bool from typed]
      | kwFalse => simp [show base.resolved = .bool from typed]
  | identifier base name depth id symbol =>
      rcases typed with ⟨found, lookup, -, resolved, -⟩
      rcases Scope.mem_of_lookup_eq_some lookup with ⟨table, inStack, inTable, -⟩
      change base.resolved ≠ _
      rw [resolved]
      exact (wellFormed.scope table inStack found inTable).1.ne_unresolved
  | funcCall base callee linkName arguments =>
      rcases typed with ⟨func, lookup, resolved, -⟩
      change base.resolved ≠ _
      rw [resolved]
      exact (wellFormed.funcs func (FuncSymbolTable.mem_of_lookup_eq_some lookup).1).1

theorem ArgumentsTyped.length_eq {s : Semantic} {params : List Parameter}
    {arguments : List Expr} (typed : ArgumentsTyped s params arguments) :
    arguments.length = params.length := by
  induction arguments generalizing params with
  | nil => simp [show params = [] from typed]
  | cons argument rest inductionHypothesis =>
      rcases typed with ⟨-, ⟨param, head, -⟩, others⟩
      cases params with
      | nil => cases head
      | cons first more => simp [inductionHypothesis others]

end Expr

/-! ## Function tables -/

namespace FuncSymbolTable

/-- The later table has the entries of the earlier one, as far as calls read them. -/
def Extends (before after : FuncSymbolTable) : Prop :=
  ∀ name entry, before.lookup name = some entry →
    ∃ later, after.lookup name = some later ∧ later.linkName = entry.linkName ∧
      later.parameters = entry.parameters

namespace Extends

theorem refl (table : FuncSymbolTable) : table.Extends table :=
  fun _ entry found => ⟨entry, found, rfl, rfl⟩

theorem trans {first second third : FuncSymbolTable} (before : first.Extends second)
    (after : second.Extends third) : first.Extends third := by
  intro name entry found
  rcases before name entry found with ⟨between, foundBetween, linkName, parameters⟩
  rcases after name between foundBetween with ⟨later, foundLater, laterName, laterParameters⟩
  exact ⟨later, foundLater, laterName.trans linkName, laterParameters.trans parameters⟩

end Extends

theorem extends_insert {table : FuncSymbolTable} {func : FuncSymbol} {filename : String}
    (ok : (table.insert func filename).ok) :
    table.Extends (table.insert func filename).table := by
  intro name entry found
  by_cases same : name = func.name
  · subst same
    rcases (insert_cases ok).2 with ⟨missing, -⟩ | ⟨existing, found', -, inserted⟩
    · rw [missing] at found
      cases found
    · rw [inserted]
      split
      · rw [lookup_markDefined, found]
        exact ⟨_, rfl, by simp, by simp⟩
      · exact ⟨entry, found, rfl, rfl⟩
  · exact ⟨entry, by rw [lookup_insert_of_ne ok same, found], rfl, rfl⟩

end FuncSymbolTable

/-! ## Statements -/

namespace Stmt

mutual

/-- A statement and the statements in it, those in nested functions included. -/
def within : Stmt → List Stmt
  | block base statements => block base statements :: withinAll statements
  | ifStmt base condition branchThen branchElse =>
      ifStmt base condition branchThen branchElse ::
        (branchThen.within ++ withinOption branchElse)
  | whileStmt base condition branchDo =>
      whileStmt base condition branchDo :: branchDo.within
  | funcDecl func body => funcDecl func body :: withinOption body
  | varDecl decl => [varDecl decl]
  | varAssign assign => [varAssign assign]
  | returnStmt base value => [returnStmt base value]
  | expression expr => [expression expr]

/-- The same for a branch or a body that may be missing. -/
def withinOption : Option Stmt → List Stmt
  | none => []
  | some stmt => stmt.within

/-- The same for the statements of a block. -/
def withinAll : List Stmt → List Stmt
  | [] => []
  | stmt :: rest => stmt.within ++ withinAll rest

end

theorem withinAll_toList (branch : Option Stmt) :
    withinAll branch.toList = withinOption branch := by
  cases branch <;> simp [withinAll, withinOption]

theorem mem_withinAll {part : Stmt} (statements : List Stmt) :
    part ∈ withinAll statements ↔ ∃ stmt ∈ statements, part ∈ stmt.within := by
  induction statements with
  | nil => simp [withinAll]
  | cons stmt rest inductionHypothesis => simp [withinAll, inductionHypothesis]

/-- The variable that an assignment writes. -/
def assigned : Stmt → List (String × Nat)
  | varAssign assign => [(assign.name, assign.id)]
  | _ => []

/-- The parts of a statement are statements in it. -/
theorem parts_subset_within (stmt : Stmt) : stmt.parts ⊆ stmt.within := by
  induction stmt using Stmt.induction with
  | block base statements statementsHypothesis =>
      apply List.cons_subset_cons
      intro part inParts
      rcases (mem_partsAll statements).mp inParts with ⟨stmt, inBlock, inStmt⟩
      exact (mem_withinAll statements).mpr
        ⟨stmt, inBlock, statementsHypothesis stmt inBlock inStmt⟩
  | ifStmt base condition branchThen branchElse thenHypothesis elseHypothesis =>
      apply List.cons_subset_cons
      apply append_subset_append thenHypothesis
      cases branchElse with
      | none => exact List.Subset.refl _
      | some stmt => exact elseHypothesis stmt rfl
  | whileStmt base condition branchDo doHypothesis =>
      exact List.cons_subset_cons _ doHypothesis
  | funcDecl func body =>
      exact List.cons_subset_cons _ (List.nil_subset _)
  | varDecl | varAssign | returnStmt | expression => exact List.Subset.refl _

/-- The statements of a function that is declared in a statement are in it. -/
theorem within_subset_of_declared (stmt : Stmt) {func : FuncDecl} {body : Stmt}
    (declared : (func, some body) ∈ stmt.declarations) : body.within ⊆ stmt.within := by
  induction stmt using Stmt.induction with
  | block base statements statementsHypothesis =>
      rcases (mem_declarationsAll statements).mp declared with ⟨stmt, inBlock, inStmt⟩
      intro part inBody
      exact List.mem_cons_of_mem _ ((mem_withinAll statements).mpr
        ⟨stmt, inBlock, statementsHypothesis stmt inBlock inStmt inBody⟩)
  | ifStmt base condition branchThen branchElse thenHypothesis elseHypothesis =>
      apply List.subset_cons_of_subset
      rcases List.mem_append.mp declared with inThen | inElse
      · exact List.subset_append_of_subset_left _ (thenHypothesis inThen)
      · cases branchElse with
        | none => cases inElse
        | some stmt =>
            exact List.subset_append_of_subset_right _ (elseHypothesis stmt rfl inElse)
  | whileStmt base condition branchDo doHypothesis =>
      exact List.subset_cons_of_subset _ (doHypothesis declared)
  | funcDecl other otherBody bodyHypothesis =>
      apply List.subset_cons_of_subset
      rcases List.mem_append.mp declared with nested | isOwn
      · cases otherBody with
        | none => cases nested
        | some stmt => exact bodyHypothesis stmt rfl nested
      · rw [List.mem_singleton, Prod.mk.injEq] at isOwn
        rw [← isOwn.2]
        exact List.Subset.refl _
  | varDecl | varAssign | returnStmt | expression => cases declared

/-- The variables that are declared in a statement are among its binders. -/
theorem binder_mem_of_within (stmt : Stmt) {decl : VarDecl}
    (isWithin : varDecl decl ∈ stmt.within) : decl.binder ∈ stmt.binders := by
  induction stmt using Stmt.induction with
  | varDecl other =>
      rw [within, List.mem_singleton, varDecl.injEq] at isWithin
      rw [isWithin]
      exact List.mem_singleton_self _
  | block base statements statementsHypothesis =>
      simp only [within, List.mem_cons, reduceCtorEq, false_or] at isWithin
      rcases (mem_withinAll statements).mp isWithin with ⟨stmt, inBlock, inStmt⟩
      exact (mem_bindersAll statements).mpr
        ⟨stmt, inBlock, statementsHypothesis stmt inBlock inStmt⟩
  | ifStmt base condition branchThen branchElse thenHypothesis elseHypothesis =>
      simp only [within, List.mem_cons, reduceCtorEq, false_or, List.mem_append] at isWithin
      rw [binders, List.mem_append]
      rcases isWithin with inThen | inElse
      · exact Or.inl (thenHypothesis inThen)
      · cases branchElse with
        | none => cases inElse
        | some stmt => exact Or.inr (elseHypothesis stmt rfl inElse)
  | whileStmt base condition branchDo doHypothesis =>
      simp only [within, List.mem_cons, reduceCtorEq, false_or] at isWithin
      exact doHypothesis isWithin
  | funcDecl func body bodyHypothesis =>
      simp only [within, List.mem_cons, reduceCtorEq, false_or] at isWithin
      cases body with
      | none => cases isWithin
      | some stmt => exact List.mem_append_right _ (bodyHypothesis stmt rfl isWithin)
  | varAssign | returnStmt | expression => simp [within] at isWithin

/-- The variables of a part are among those of the statement, in their order. -/
theorem binders_sublist_of_part (stmt : Stmt) {part : Stmt} (isPart : part ∈ stmt.parts) :
    part.binders.Sublist stmt.binders := by
  induction stmt using Stmt.induction with
  | block base statements statementsHypothesis =>
      rcases List.mem_cons.mp isPart with rfl | inParts
      · exact List.Sublist.refl _
      · rw [binders]
        induction statements with
        | nil => cases inParts
        | cons first rest inductionHypothesis =>
            rw [List.forall_mem_cons] at statementsHypothesis
            rw [bindersAll]
            rcases List.mem_append.mp inParts with inFirst | inRest
            · exact (statementsHypothesis.1 inFirst).trans (List.sublist_append_left _ _)
            · exact (inductionHypothesis statementsHypothesis.2
                (List.mem_cons_of_mem _ inRest) inRest).trans (List.sublist_append_right _ _)
  | ifStmt base condition branchThen branchElse thenHypothesis elseHypothesis =>
      rcases List.mem_cons.mp isPart with rfl | inParts
      · exact List.Sublist.refl _
      · rw [binders]
        rcases List.mem_append.mp inParts with inThen | inElse
        · exact (thenHypothesis inThen).trans (List.sublist_append_left _ _)
        · cases branchElse with
          | none => cases inElse
          | some stmt =>
              exact (elseHypothesis stmt rfl inElse).trans (List.sublist_append_right _ _)
  | whileStmt base condition branchDo doHypothesis =>
      rcases List.mem_cons.mp isPart with rfl | inParts
      · exact List.Sublist.refl _
      · exact doHypothesis inParts
  | varDecl | varAssign | funcDecl | returnStmt | expression =>
      rw [List.mem_singleton.mp isPart]

/-- The variables of a function that is declared in a statement, the parameters first,
are consecutive binders of it. -/
theorem binders_sublist_of_declared (stmt : Stmt) {func : FuncDecl} {body : Stmt}
    (declared : (func, some body) ∈ stmt.declarations) :
    (func.parameters.map Parameter.binder ++ body.binders).Sublist stmt.binders := by
  induction stmt using Stmt.induction with
  | block base statements statementsHypothesis =>
      rw [binders]
      rw [declarations] at declared
      induction statements with
      | nil => cases declared
      | cons first rest inductionHypothesis =>
          rw [List.forall_mem_cons] at statementsHypothesis
          rw [bindersAll]
          rcases List.mem_append.mp declared with inFirst | inRest
          · exact (statementsHypothesis.1 inFirst).trans (List.sublist_append_left _ _)
          · exact (inductionHypothesis statementsHypothesis.2 inRest).trans
              (List.sublist_append_right _ _)
  | ifStmt base condition branchThen branchElse thenHypothesis elseHypothesis =>
      rw [binders]
      rcases List.mem_append.mp declared with inThen | inElse
      · exact (thenHypothesis inThen).trans (List.sublist_append_left _ _)
      · cases branchElse with
        | none => cases inElse
        | some stmt =>
            exact (elseHypothesis stmt rfl inElse).trans (List.sublist_append_right _ _)
  | whileStmt base condition branchDo doHypothesis => exact doHypothesis declared
  | funcDecl other otherBody bodyHypothesis =>
      rcases List.mem_append.mp declared with nested | isOwn
      · cases otherBody with
        | none => cases nested
        | some stmt =>
            exact (bodyHypothesis stmt rfl nested).trans (List.sublist_append_right _ _)
      · rw [List.mem_singleton, Prod.mk.injEq] at isOwn
        rw [← isOwn.1, ← isOwn.2]
        exact List.Sublist.refl _
  | varDecl | varAssign | returnStmt | expression => cases declared

/-- What the analyser has checked of a statement outside of its substatements. -/
structure Checked (s : Semantic) (part : Stmt) : Prop where
  typed : ∀ expr ∈ part.expressions, expr.Typed s
  assigned : ∀ use ∈ part.assigned, ∃ symbol, s.scope.lookup use.1 = some symbol ∧
    use.2 = symbol.id ∧ symbol.qualifiers.isMutable

theorem Checked.of_typed {s : Semantic} {part : Stmt} (nothing : part.assigned = [])
    (typed : ∀ expr ∈ part.expressions, expr.Typed s) : part.Checked s := by
  constructor
  · exact typed
  · rw [nothing]
    exact nofun

/-- The statement is checked in a state whose functions are those of the table and
whose variables are among the given ones. -/
def CheckedBelow (funcs : FuncSymbolTable) (binders : List Binder) (part : Stmt) : Prop :=
  ∃ s : Semantic, s.WellFormed ∧ s.funcs.Extends funcs ∧
    s.scope.blocks.flatten ⊆ binders ∧ part.Checked s

theorem CheckedBelow.mono {funcs later : FuncSymbolTable} {binders all : List Binder}
    {part : Stmt} (checked : part.CheckedBelow funcs binders)
    (more : funcs.Extends later) (subset : binders ⊆ all) :
    part.CheckedBelow later all := by
  rcases checked with ⟨s, wellFormed, known, visible, partChecked⟩
  exact ⟨s, wellFormed, known.trans more, List.Subset.trans visible subset, partChecked⟩

end Stmt

/-! ## Elaborated statements -/

/-- What the analysis of statements checks and leaves behind. -/
structure Checks (nodes : List Stmt) (before after : Semantic) : Prop where
  wellFormed : after.WellFormed
  more : before.funcs.Extends after.funcs
  visible : after.scope.blocks.flatten ⊆
    before.scope.blocks.flatten ++ Stmt.bindersAll nodes
  checked : ∀ part ∈ Stmt.withinAll nodes,
    part.CheckedBelow after.funcs (before.scope.blocks.flatten ++ Stmt.bindersAll nodes)

namespace Checks

variable {before between after : Semantic} {node : Stmt} {nodes : List Stmt}

theorem nil (wellFormed : before.WellFormed) : Checks [] before before :=
  ⟨wellFormed, .refl _, List.subset_append_left _ _, nofun⟩

theorem cons (first : Checks [node] before between) (others : Checks nodes between after) :
    Checks (node :: nodes) before after := by
  have visible := first.visible
  have own := first.checked
  simp only [Stmt.bindersAll, Stmt.withinAll, List.append_nil] at visible own
  have later : between.scope.blocks.flatten ++ Stmt.bindersAll nodes ⊆
      before.scope.blocks.flatten ++ Stmt.bindersAll (node :: nodes) := by
    rw [Stmt.bindersAll, ← List.append_assoc]
    exact append_subset_append visible (List.Subset.refl _)
  constructor
  · exact others.wellFormed
  · exact first.more.trans others.more
  · exact List.Subset.trans others.visible later
  · rw [Stmt.withinAll, List.forall_mem_append]
    constructor
    · intro part isPart
      apply (own part isPart).mono others.more
      rw [Stmt.bindersAll, ← List.append_assoc]
      exact List.subset_append_left _ _
    · intro part isPart
      exact (others.checked part isPart).mono (.refl _) later

/-- A statement around others, which are checked below the variables that it
declares. -/
theorem around {inner : List Stmt} {start : Semantic} (wellFormed : before.WellFormed)
    (checked : node.Checked before) (within : node.within = node :: Stmt.withinAll inner)
    (later : after.WellFormed) (more : before.funcs.Extends after.funcs)
    (blocks : after.scope.blocks = before.scope.blocks)
    (visible : start.scope.blocks.flatten ++ Stmt.bindersAll inner ⊆
      before.scope.blocks.flatten ++ node.binders)
    (inside : ∀ part ∈ Stmt.withinAll inner,
      part.CheckedBelow after.funcs
        (start.scope.blocks.flatten ++ Stmt.bindersAll inner)) :
    Checks [node] before after := by
  constructor
  · exact later
  · exact more
  · rw [blocks]
    exact List.subset_append_left _ _
  · simp only [Stmt.bindersAll, Stmt.withinAll, List.append_nil]
    rw [within, List.forall_mem_cons]
    constructor
    · exact ⟨before, wellFormed, more, List.subset_append_left _ _, checked⟩
    · intro part isPart
      exact (inside part isPart).mono (.refl _) visible

/-- A statement that has no substatements and declares nothing. -/
theorem single (wellFormed : before.WellFormed) (checked : node.Checked before)
    (within : node.within = [node]) (later : after.WellFormed)
    (funcs : after.funcs = before.funcs)
    (visible : after.scope.blocks.flatten ⊆
      before.scope.blocks.flatten ++ node.binders) :
    Checks [node] before after := by
  have more : before.funcs.Extends after.funcs := by
    rw [funcs]
    exact .refl _
  constructor
  · exact later
  · exact more
  · simpa [Stmt.bindersAll] using visible
  · simp only [Stmt.bindersAll, Stmt.withinAll, List.append_nil]
    rw [within, List.forall_mem_singleton]
    exact ⟨before, wellFormed, more, List.subset_append_left _ _, checked⟩

end Checks

theorem typed_of_rel {s : Semantic} {value node : Option Expr}
    (elaborated : Option.Rel s.Elaborated value node) :
    ∀ expr ∈ node.toList, expr.Typed s := by
  cases elaborated with
  | none => exact nofun
  | some result => exact List.forall_mem_singleton.mpr result.typed

theorem Semantic.WellFormed.with_scope {s : Semantic} (wellFormed : s.WellFormed)
    {scope : Scope} (scopeWellFormed : scope.WellFormed) :
    Semantic.WellFormed { s with scope := scope } :=
  ⟨scopeWellFormed, wellFormed.funcs⟩

/-- Grammatical statements are checked while they are elaborated. -/
def Checking (s : Semantic) (statements nodes : List Stmt) (after : Semantic) : Prop :=
  (∀ stmt ∈ statements, stmt.Grammatical) → s.WellFormed → s.scope.stack ≠ [] →
    Checks nodes s after

namespace Checking

variable {s between after : Semantic}

/-- A statement in front of others, which has kept the number of tables. -/
theorem cons {stmt node : Stmt} {rest nodes : List Stmt}
    (first : Checking s [stmt] [node] between)
    (elaborates : Elaborates s [stmt] [node] between)
    (others : Checking between rest nodes after) :
    Checking s (stmt :: rest) (node :: nodes) after := by
  intro grammatical wellFormed nonempty
  rw [List.forall_mem_cons] at grammatical
  have head := first (List.forall_mem_singleton.mpr grammatical.1) wellFormed nonempty
  exact head.cons (others grammatical.2 head.wellFormed
    (stack_ne_nil_of_depth_eq elaborates.depth_eq nonempty))

theorem varDecl {decl : VarDecl} {value : Option Expr} (scalar : decl.varType.IsScalar)
    (initialiser : Option.Rel s.Elaborated decl.value value)
    (free : Log.hadErrors (s.scope.insert decl.symbol s.filename).2 = false) :
    Checking s [.varDecl decl]
      [.varDecl { decl with id := s.scope.nextId, value := value }]
      { s with scope := (s.scope.insert decl.symbol s.filename).1 } := by
  intro _ wellFormed nonempty
  have later := wellFormed.with_scope
    (wellFormed.scope.insert decl.symbol scalar s.filename)
  have checked : (Stmt.varDecl { decl with id := s.scope.nextId, value := value }).Checked
      s := .of_typed rfl (typed_of_rel initialiser)
  apply Checks.single wellFormed checked rfl later rfl
  have first : Binds [.varDecl { decl with id := s.scope.nextId, value := value }] s.scope
      (s.scope.insert decl.symbol s.filename).1 :=
    ⟨⟨bound_of_rel initialiser, trivial⟩, Scope.blocks_insert nonempty free,
      Scope.nextId_insert nonempty free, rfl⟩
  simpa only [Stmt.bindersAll, List.append_nil] using first.visible

theorem varAssign {assign : VarAssign} {value : Expr} {sym : VarSymbol}
    (found : s.scope.lookup assign.name = some sym) (isMutable : sym.qualifiers.isMutable)
    (elaborated : s.Elaborated assign.value value) :
    Checking s [.varAssign assign]
      [.varAssign
        { assign with
          base := { assign.base with resolved := sym.type }
          id := sym.id
          value := value }]
      { s with scope := s.scope.markInitialized assign.name } := by
  intro _ wellFormed _
  have later := wellFormed.with_scope (wellFormed.scope.markInitialized assign.name)
  have checked : (Stmt.varAssign
      { assign with
        base := { assign.base with resolved := sym.type }
        id := sym.id
        value := value }).Checked s :=
    ⟨List.forall_mem_singleton.mpr elaborated.typed,
      List.forall_mem_singleton.mpr ⟨sym, found, rfl, isMutable⟩⟩
  apply Checks.single wellFormed checked rfl later rfl
  rw [Scope.blocks_markInitialized]
  exact List.subset_append_left _ _

theorem block {base : Base} {statements inner : List Stmt}
    (inside : Elaborates { s with scope := s.scope.push } statements inner between)
    (insideChecking : Checking { s with scope := s.scope.push } statements inner between) :
    Checking s [.block base statements] [.block base inner]
      { between with scope := between.scope.pop } := by
  intro grammatical wellFormed _
  have own : (Stmt.block base statements).Grammatical :=
    List.forall_mem_singleton.mp grammatical
  have sources := (Stmt.grammaticalAll_iff _).mp own
  have opened := insideChecking sources (wellFormed.with_scope wellFormed.scope.push)
    (List.cons_ne_nil _ _)
  have later := opened.wellFormed.with_scope opened.wellFormed.scope.pop
  have blocks : between.scope.pop.blocks = s.scope.blocks := by
    simp [(inside.binds sources (List.cons_ne_nil _ _)).blocks]
  have checked : (Stmt.block base inner).Checked s := .of_typed rfl (List.forall_mem_nil _)
  exact .around wellFormed checked rfl later opened.more blocks (List.Subset.refl _)
    opened.checked

/-- The branches of an `if` are checked one after the other, the second one from the
flags in front of the first one. -/
theorem ifStmt {afterThen afterElse : Semantic} {base : Base} {condition node : Expr}
    {branchThen thenNode : Stmt} {branchElse elseNode : Option Stmt}
    (elaborated : s.Elaborated condition node)
    (first : Elaborates s [branchThen] [thenNode] afterThen)
    (second : Elaborates
      { afterThen with scope := afterThen.scope.flowRestore s.scope.flowSave }
      branchElse.toList elseNode.toList afterElse)
    (firstChecking : Checking s [branchThen] [thenNode] afterThen)
    (secondChecking : Checking
      { afterThen with scope := afterThen.scope.flowRestore s.scope.flowSave }
      branchElse.toList elseNode.toList afterElse) (flow : FlowState) :
    Checking s [.ifStmt base condition branchThen branchElse]
      [.ifStmt base node thenNode elseNode]
      { afterElse with scope := afterElse.scope.flowRestore flow } := by
  intro grammatical wellFormed nonempty
  rcases List.forall_mem_singleton.mp grammatical with
    ⟨-, ⟨thenBlock, thenGrammatical⟩, elseBranch, elseGrammatical⟩
  have thenSources : ∀ stmt ∈ [branchThen], stmt.Grammatical := by
    simpa using thenGrammatical
  have elseSources : ∀ stmt ∈ branchElse.toList, stmt.Grammatical := by
    simpa using (Stmt.grammaticalOption_iff _).mp elseGrammatical
  have thenChecks := firstChecking thenSources wellFormed nonempty
  have restored := thenChecks.wellFormed.with_scope
    (thenChecks.wellFormed.scope.flowRestore s.scope.flowSave)
  have restoredNonempty := stack_ne_nil_of_depth_eq
    (by simp [first.depth_eq] :
      (afterThen.scope.flowRestore s.scope.flowSave).depth = s.scope.depth) nonempty
  have elseChecks := secondChecking elseSources restored restoredNonempty
  have kept : Checks [thenNode] s
      { afterThen with scope := afterThen.scope.flowRestore s.scope.flowSave } :=
    ⟨restored, thenChecks.more, by simpa using thenChecks.visible, thenChecks.checked⟩
  have branches := kept.cons elseChecks
  have later := elseChecks.wellFormed.with_scope
    (elseChecks.wellFormed.scope.flowRestore flow)
  have within : (Stmt.ifStmt base node thenNode elseNode).within =
      .ifStmt base node thenNode elseNode ::
        Stmt.withinAll (thenNode :: elseNode.toList) := by
    rw [Stmt.within, Stmt.withinAll, Stmt.withinAll_toList]
  have binders : Stmt.bindersAll (thenNode :: elseNode.toList) =
      (Stmt.ifStmt base node thenNode elseNode).binders := by
    rw [Stmt.bindersAll, Stmt.bindersAll_toList, Stmt.binders]
  have thenBlocks := (first.binds thenSources nonempty).blocks_eq
    (first.binder_eq_nil (by simpa using Stmt.blockName_of_isBlock thenBlock))
  have elseBlocks := (second.binds elseSources restoredNonempty).blocks_eq
    (second.binder_eq_nil fun stmt inBranch =>
      (elseBranch stmt (Option.mem_toList.mp inBranch)).elim Stmt.blockName_of_isBlock
        Stmt.blockName_of_isIf)
  have checked : (Stmt.ifStmt base node thenNode elseNode).Checked s :=
    .of_typed rfl (List.forall_mem_singleton.mpr elaborated.typed)
  exact .around wellFormed checked within later branches.more
    (by simp [elseBlocks, thenBlocks]) (by rw [binders]; exact List.Subset.refl _)
    branches.checked

theorem whileStmt {afterDo : Semantic} {base : Base} {condition node : Expr}
    {branchDo doNode : Stmt} (elaborated : s.Elaborated condition node)
    (body : Elaborates s [branchDo] [doNode] afterDo)
    (bodyChecking : Checking s [branchDo] [doNode] afterDo) :
    Checking s [.whileStmt base condition branchDo] [.whileStmt base node doNode]
      { afterDo with scope := afterDo.scope.flowRestore s.scope.flowSave } := by
  intro grammatical wellFormed nonempty
  rcases List.forall_mem_singleton.mp grammatical with ⟨-, doBlock, doGrammatical⟩
  have sources : ∀ stmt ∈ [branchDo], stmt.Grammatical := by
    simpa using doGrammatical
  have bodyChecks := bodyChecking sources wellFormed nonempty
  have later := bodyChecks.wellFormed.with_scope
    (bodyChecks.wellFormed.scope.flowRestore s.scope.flowSave)
  have within : (Stmt.whileStmt base node doNode).within =
      .whileStmt base node doNode :: Stmt.withinAll [doNode] := by
    simp [Stmt.within, Stmt.withinAll]
  have blocks := (body.binds sources nonempty).blocks_eq
    (body.binder_eq_nil (by simpa using Stmt.blockName_of_isBlock doBlock))
  have checked : (Stmt.whileStmt base node doNode).Checked s :=
    .of_typed rfl (List.forall_mem_singleton.mpr elaborated.typed)
  exact .around wellFormed checked within later bodyChecks.more (by simp [blocks])
    (by simp [Stmt.bindersAll, Stmt.binders]) bodyChecks.checked

theorem declaration {func : FuncDecl} (declares : s.Declares func false) :
    Checking s [.funcDecl func none] [.funcDecl (s.link func) none]
      { s with funcs := (s.declare func false).table } := by
  intro grammatical wellFormed _
  rcases List.forall_mem_singleton.mp grammatical with ⟨returnType, known, -, -⟩
  have later : Semantic.WellFormed { s with funcs := (s.declare func false).table } :=
    ⟨wellFormed.scope, wellFormed.funcs.insert _ returnType known s.filename⟩
  have nothing : ∀ part ∈ Stmt.withinAll [], part.CheckedBelow
      (s.declare func false).table (s.scope.blocks.flatten ++ Stmt.bindersAll []) :=
    List.forall_mem_nil _
  have checked : (Stmt.funcDecl (s.link func) none).Checked s :=
    .of_typed rfl (List.forall_mem_nil _)
  exact .around wellFormed checked rfl later
    (FuncSymbolTable.extends_insert declares.inserted) rfl (by simp [Stmt.bindersAll])
    nothing

/-- The body of a definition is checked below its parameters. -/
theorem definition {func : FuncDecl} {body bodyNode : Stmt}
    (declares : s.Declares func true) (free : Log.hadErrors (s.enter func).log = false)
    (inside : Elaborates
      { s with
        funcs := (s.declare func true).table
        scope := (s.enter func).scope
        currentFunc := some { s.link func with parameters := (s.enter func).parameters } }
      [body] [bodyNode] between)
    (insideChecking : Checking
      { s with
        funcs := (s.declare func true).table
        scope := (s.enter func).scope
        currentFunc := some { s.link func with parameters := (s.enter func).parameters } }
      [body] [bodyNode] between) :
    Checking s [.funcDecl func (some body)]
      [.funcDecl { s.link func with parameters := (s.enter func).parameters }
        (some bodyNode)]
      { between with scope := between.scope.pop, currentFunc := s.currentFunc } := by
  intro grammatical wellFormed _
  rcases List.forall_mem_singleton.mp grammatical with
    ⟨returnType, known, bodyBlock, bodyGrammatical⟩
  have sources : ∀ stmt ∈ [body], stmt.Grammatical := by
    simpa [Stmt.GrammaticalOption] using bodyGrammatical
  have entered : Semantic.WellFormed
      { s with
        funcs := (s.declare func true).table
        scope := (s.enter func).scope
        currentFunc :=
          some { s.link func with parameters := (s.enter func).parameters } } :=
    ⟨(insertParameters_sound s.filename func.base.span wellFormed.scope.push known).1,
      wellFormed.funcs.insert _ returnType known s.filename⟩
  have enteredBlocks := blocks_enter declares free
  have enteredNonempty : (s.enter func).scope.stack ≠ [] :=
    stack_ne_nil_of_depth_eq (depth_insertParameters _ _ _ _)
      (List.cons_ne_nil [] s.scope.stack : s.scope.push.stack ≠ [])
  have bodyChecks := insideChecking sources entered enteredNonempty
  have later : Semantic.WellFormed
      { between with scope := between.scope.pop, currentFunc := s.currentFunc } :=
    ⟨bodyChecks.wellFormed.scope.pop, bodyChecks.wellFormed.funcs⟩
  have within : (Stmt.funcDecl
      { s.link func with parameters := (s.enter func).parameters }
        (some bodyNode)).within =
      .funcDecl { s.link func with parameters := (s.enter func).parameters }
        (some bodyNode) :: Stmt.withinAll [bodyNode] := by
    simp [Stmt.within, Stmt.withinOption, Stmt.withinAll]
  have bodyBlocks := (inside.binds sources enteredNonempty).blocks_eq
    (inside.binder_eq_nil (by simpa using Stmt.blockName_of_isBlock (bodyBlock _ rfl)))
  have checked : (Stmt.funcDecl
      { s.link func with parameters := (s.enter func).parameters }
        (some bodyNode)).Checked s := .of_typed rfl (List.forall_mem_nil _)
  apply Checks.around wellFormed checked within later
    ((FuncSymbolTable.extends_insert declares.inserted).trans bodyChecks.more)
    (by simp [bodyBlocks, enteredBlocks]) _ bodyChecks.checked
  intro binder isVisible
  simp only [enteredBlocks, List.flatten_cons, Stmt.bindersAll, List.append_nil,
    List.mem_append, Stmt.binders, Stmt.bindersOption, Option.isSome_some,
    if_true] at isVisible ⊢
  tauto

/-- A statement that only has expressions. -/
theorem expressions {stmt node : Stmt} (within : node.within = [node])
    (nothing : node.assigned = []) (typed : ∀ expr ∈ node.expressions, expr.Typed s) :
    Checking s [stmt] [node] s :=
  fun _ wellFormed _ =>
    .single wellFormed (.of_typed nothing typed) within wellFormed rfl
      (List.subset_append_left _ _)

end Checking

/-- Accepted statements are checked, and keep the tables. -/
theorem Elaborates.checks {s after : Semantic} {statements nodes : List Stmt}
    (elaborates : Elaborates s statements nodes after) :
    Checking s statements nodes after := by
  induction elaborates with
  | nil => exact fun _ wellFormed _ => .nil wellFormed
  | varDecl scalar initialiser widens free others inductionHypothesis =>
      exact (Checking.varDecl scalar initialiser free).cons
        (.varDecl scalar initialiser widens free .nil) inductionHypothesis
  | varAssign found isMutable elaborated widens others inductionHypothesis =>
      exact (Checking.varAssign found isMutable elaborated).cons
        (.varAssign found isMutable elaborated widens .nil) inductionHypothesis
  | block inside others insideHypothesis inductionHypothesis =>
      exact (Checking.block inside insideHypothesis).cons (.block inside .nil)
        inductionHypothesis
  | ifStmt elaborated bool first second others firstHypothesis secondHypothesis
      inductionHypothesis =>
      exact (Checking.ifStmt elaborated first second firstHypothesis secondHypothesis _).cons
        (.ifStmt elaborated bool first second .nil) inductionHypothesis
  | whileStmt elaborated bool body others bodyHypothesis inductionHypothesis =>
      exact (Checking.whileStmt elaborated body bodyHypothesis).cons
        (.whileStmt elaborated bool body .nil) inductionHypothesis
  | declaration declares others inductionHypothesis =>
      exact (Checking.declaration declares).cons (.declaration declares .nil)
        inductionHypothesis
  | definition declares free inside returns others insideHypothesis inductionHypothesis =>
      exact (Checking.definition declares free inside insideHypothesis).cons
        (.definition declares free inside returns .nil) inductionHypothesis
  | @returnStmt s after base value node func rest nodes inside elaborated nothing widens others
      inductionHypothesis =>
      have own : Checking s [.returnStmt base value] [.returnStmt base node] s :=
        .expressions rfl rfl (typed_of_rel elaborated)
      exact own.cons (.returnStmt inside elaborated nothing widens .nil) inductionHypothesis
  | @expression s after expr node rest nodes elaborated others inductionHypothesis =>
      have own : Checking s [.expression expr] [.expression node] s :=
        .expressions rfl rfl (List.forall_mem_singleton.mpr elaborated.typed)
      exact own.cons (.expression elaborated .nil) inductionHypothesis

theorem Scope.mem_blocks_of_lookup {scope : Scope} {name : String} {symbol : VarSymbol}
    (found : scope.lookup name = some symbol) :
    symbol.binder ∈ scope.blocks.flatten ∧ symbol.binder.name = name := by
  apply Blocks.mem_of_resolve
  rw [resolve_blocks, found, Option.map_some]

/-! ## Programs -/

/-- A variable of the list has the name and the number. -/
def Declared (binders : List Binder) (use : String × Nat) : Prop :=
  ∃ binder ∈ binders, binder.name = use.1 ∧ binder.id = use.2

theorem declared_of_lookup {s : Semantic} {binders : List Binder} {name : String}
    {symbol : VarSymbol} (visible : s.scope.blocks.flatten ⊆ binders)
    (found : s.scope.lookup name = some symbol) : Declared binders (name, symbol.id) := by
  rcases Scope.mem_blocks_of_lookup found with ⟨inBlocks, sameName⟩
  exact ⟨symbol.binder, visible inBlocks, sameName, rfl⟩

/-- What the later passes rely on at a node of an expression. -/
def Expr.Settled (binders : List Binder) (funcs : FuncSymbolTable) (node : Expr) : Prop :=
  node.resolved ≠ .unresolved ∧
    match node with
    | identifier _ name _ id _ => Declared binders (name, id)
    | funcCall _ callee linkName arguments =>
        ∃ func, funcs.lookup callee.name = some func ∧ linkName = some func.linkName ∧
          arguments.length = func.parameters.length
    | _ => True

/-- What they rely on in a statement. -/
def Stmt.Settled (binders : List Binder) (funcs : FuncSymbolTable) (part : Stmt) : Prop :=
  (∀ expr ∈ part.expressions, ∀ node ∈ expr.nodes, node.Settled binders funcs) ∧
    ∀ use ∈ part.assigned, Declared binders use

theorem settled_node {binders : List Binder} {funcs : FuncSymbolTable} {node : Expr}
    {s : Semantic} (wellFormed : s.WellFormed) (known : s.funcs.Extends funcs)
    (visible : s.scope.blocks.flatten ⊆ binders) (typed : node.Typed s) :
    node.Settled binders funcs := by
  apply And.intro (typed.resolved_ne wellFormed)
  cases node with
  | identifier base name depth id symbol =>
      rcases typed with ⟨found, lookup, -, -, -, sameId, -⟩
      rw [sameId]
      exact declared_of_lookup visible lookup
  | funcCall base callee linkName arguments =>
      rcases typed with ⟨func, found, -, link, argumentsTyped⟩
      rcases known _ func found with ⟨later, foundLater, laterLink, parameters⟩
      exact ⟨later, foundLater, by rw [link, laterLink],
        by rw [parameters, argumentsTyped.length_eq]⟩
  | binary | unary | cast | literal => trivial

theorem Stmt.CheckedBelow.settled {funcs : FuncSymbolTable} {binders : List Binder}
    {part : Stmt} (checked : part.CheckedBelow funcs binders) : part.Settled binders funcs := by
  rcases checked with ⟨s, wellFormed, known, visible, typed, assigned⟩
  constructor
  · intro expr isPart node isNode
    exact settled_node wellFormed known visible ((typed expr isPart).node isNode)
  · rintro ⟨name, id⟩ isAssigned
    rcases assigned _ isAssigned with ⟨symbol, found, rfl, -⟩
    exact declared_of_lookup visible found

/-- The statements of an analysed program are checked. -/
theorem Analyzed.checked {program : Program} {filename : String}
    {options : CompilerOptions} {modules : List Module} {analysis : ProgramAnalysis}
    (isAnalyzed : Analyzed program filename options modules analysis) :
    ∀ part ∈ Stmt.withinAll analysis.program.statements,
      part.CheckedBelow analysis.funcs analysis.program.binders := by
  rcases isAnalyzed.elaborates with ⟨imports, after, -, known, funcs, elaborates⟩
  rw [← funcs]
  exact (elaborates.checks
    (fun stmt inProgram => (isAnalyzed.parsed.grammatical stmt inProgram).1)
    ⟨by simp [Scope.WellFormed, topLevelState, Scope.push], known⟩
    (List.cons_ne_nil _ _)).checked

/-- The run over the statements of a program, below functions that it imports. -/
def Program.run (program : Program) (filename : String) (options : CompilerOptions)
    (imports : FuncSymbolTable) : StmtsAnalysis :=
  analyzeTopLevel program filename (options.moduleName filename) imports

/-- An analysis without an error settles the whole tree.  The variables and parameters
of definitions carry the numbers of the symbols that the run over the statements
inserts, every identifier and assignment the number of one of them, and no expression
is refused without an error. -/
theorem settled_of_analyzed {program : Program} {filename : String}
    {options : CompilerOptions} {modules : List Module} {analysis : ProgramAnalysis}
    (isAnalyzed : Analyzed program filename options modules analysis) :
    (∀ part ∈ Stmt.withinAll analysis.program.statements,
        part.Settled analysis.program.binders analysis.funcs) ∧
      (∃ imports, (program.run filename options imports).nodes =
          analysis.program.statements ∧
        analysis.program.binders.map Binder.id =
          List.range (program.run filename options imports).state.scope.nextId) ∧
      ∀ (s : Semantic) (expr : Expr) (expected : ValueType), s.WellFormed →
        expr.Grammatical →
        Log.hadErrors (analyzeExpr s expr expected).log =
          !(analyzeExpr s expr expected).ok := by
  constructor
  · exact fun part inProgram => (isAnalyzed.checked part inProgram).settled
  · constructor
    · rcases isAnalyzed.elaborates_topLevel with
        ⟨imports, -, known, nodes, funcs, elaborates⟩
      have binds := elaborates.binds
        (fun stmt inProgram => (isAnalyzed.parsed.grammatical stmt inProgram).1)
        (List.cons_ne_nil _ _)
      refine ⟨imports.funcs, nodes, ?_⟩
      unfold Program.run Program.binders
      rw [binds.ids, binds.nextId, List.range_eq_range']
      simp [topLevelState, Scope.push]
    · intro s expr expected wellFormed exprGrammatical
      exact (analyzeExpr_sound wellFormed exprGrammatical expected).log

/-- A program that inserts nothing. -/
def prototypeSource : String :=
  "extern fn f(i32 a) void; fn main() i32 { return 0; }"

theorem isSome_compileFrontend_prototype :
    (compileFrontend prototypeSource "main.slfr" {}).isSome := by
  decide

/-- The analysis of that program. -/
def prototypeAnalysis : ProgramAnalysis :=
  (compileFrontend prototypeSource "main.slfr" {}).get isSome_compileFrontend_prototype

/-- The program as it is parsed. -/
def prototypeProgram : Program :=
  ((parse (tokenize prototypeSource.toList "main.slfr").tokens "main.slfr").map
    fun parsed => parsed.program).getD {}

/-- The parameter of a function without a body carries a number, but no symbol is
inserted. -/
theorem prototype_parameter_unsettled :
    Analyzed prototypeProgram "main.slfr" {} [] prototypeAnalysis ∧
      prototypeAnalysis.program.parameters.map Parameter.id = [0] ∧
      (prototypeProgram.run "main.slfr" {} {}).nodes.length = 2 ∧
      (prototypeProgram.run "main.slfr" {} {}).state.scope.nextId = 0 := by
  constructor
  · rcases parsed_of_compileFrontend (Option.some_get isSome_compileFrontend_prototype).symm
      with ⟨parsed, run, accepted⟩
    rw [prototypeProgram, run]
    exact accepted.isAnalyzed
  · decide

theorem settled_of_analyzed_shadowed :
    (∀ part ∈ Stmt.withinAll shadowedAnalysis.program.statements,
        part.Settled shadowedAnalysis.program.binders shadowedAnalysis.funcs) ∧
      (∃ imports, (shadowedProgram.run "main.slfr" {} imports).nodes =
          shadowedAnalysis.program.statements ∧
        shadowedAnalysis.program.binders.map Binder.id =
          List.range (shadowedProgram.run "main.slfr" {} imports).state.scope.nextId) ∧
      Log.hadErrors (analyzeExpr (topLevelState "main.slfr" none {})
          (.literal {} .integer "300") .u8).log =
        !(analyzeExpr (topLevelState "main.slfr" none {})
          (.literal {} .integer "300") .u8).ok := by
  rcases settled_of_analyzed analyzed_shadowed with ⟨settled, numbers, loud⟩
  have wellFormed : (topLevelState "main.slfr" none {}).WellFormed :=
    ⟨by simp [Scope.WellFormed, topLevelState, Scope.push],
      by simp [topLevelState, FuncSymbolTable.Known]⟩
  exact ⟨settled, numbers, loud _ _ _ wellFormed trivial⟩

end Sulfur
