import Sulfur.Ir.Function
import Sulfur.Semantic.Elaboration

/-!
# Names inside functions

The tables of the enclosing functions stay open while a nested function is
analysed, so that a name may resolve to a variable of another activation.  The
numbers of the variables tell which function declares them: those of a function
follow the numbers that were given out before it.
-/

namespace Sulfur

/-! ## The variables of a tree -/

namespace Expr

mutual

/-- The variables that an expression names, with their numbers. -/
def uses : Expr → List (String × Nat)
  | binary _ _ left right => left.uses ++ right.uses
  | unary _ _ operand => operand.uses
  | cast _ _ operand => operand.uses
  | literal .. => []
  | identifier _ name _ id _ => [(name, id)]
  | funcCall _ _ _ arguments => usesAll arguments

/-- The same for the arguments of a call. -/
def usesAll : List Expr → List (String × Nat)
  | [] => []
  | argument :: rest => argument.uses ++ usesAll rest

end

/-- The variables that an expression names. -/
def names (expr : Expr) : List String :=
  expr.uses.map Prod.fst

/-- The expression is the variable with that name and number. -/
def isVariable (dst : String × Nat) : Expr → Bool
  | identifier _ name _ id _ => (name, id) = dst
  | _ => false

/-- The variables that the assignment of the value names: nothing is emitted for
the assignment of a variable to itself. -/
def assignmentUses (dst : String × Nat) (value : Expr) : List (String × Nat) :=
  if value.isVariable dst then [] else dst :: value.uses

end Expr

namespace Stmt

mutual

/-- The variables that the code of a statement names, in one function. -/
def uses : Stmt → List (String × Nat)
  | varDecl decl =>
      match decl.value with
      | none => []
      | some value => value.assignmentUses (decl.name, decl.id)
  | varAssign assign => assign.value.assignmentUses (assign.name, assign.id)
  | block _ statements => usesAll statements
  | ifStmt _ condition branchThen branchElse =>
      condition.uses ++ branchThen.uses ++ usesOption branchElse
  | whileStmt _ condition branchDo => condition.uses ++ branchDo.uses
  | funcDecl .. => []
  | returnStmt _ value =>
      match value with
      | none => []
      | some value => value.uses
  | expression expr => if expr.isIdentifier then [] else expr.uses

/-- The same for a branch that may be missing. -/
def usesOption : Option Stmt → List (String × Nat)
  | none => []
  | some stmt => stmt.uses

/-- The same for the statements of a block. -/
def usesAll : List Stmt → List (String × Nat)
  | [] => []
  | stmt :: rest => stmt.uses ++ usesAll rest

end

mutual

/-- The variables that a statement declares, in one function. -/
def locals : Stmt → List (String × Nat)
  | varDecl decl => [(decl.name, decl.id)]
  | block _ statements => localsAll statements
  | ifStmt _ _ branchThen branchElse => branchThen.locals ++ localsOption branchElse
  | whileStmt _ _ branchDo => branchDo.locals
  | _ => []

/-- The same for a branch that may be missing. -/
def localsOption : Option Stmt → List (String × Nat)
  | none => []
  | some stmt => stmt.locals

/-- The same for the statements of a block. -/
def localsAll : List Stmt → List (String × Nat)
  | [] => []
  | stmt :: rest => stmt.locals ++ localsAll rest

end

/-- The name that a statement adds to its own block. -/
def blockName : Stmt → List String
  | varDecl decl => [decl.name]
  | _ => []

mutual

/-- A statement names the given variables of its function only, as far as code is
emitted for it: not for a bare variable, nor for its assignment to itself. -/
def ClosedIn (own : List String) : Stmt → Prop
  | varDecl decl => ∀ value ∈ decl.value, ∀ name ∈ value.names, name ∈ own
  | varAssign assign =>
      (assign.value.isIdentifier ∧ assign.value.names = [assign.name]) ∨
        (assign.name ∈ own ∧ ∀ name ∈ assign.value.names, name ∈ own)
  | block _ statements => ClosedInAll own statements
  | ifStmt _ condition branchThen branchElse =>
      (∀ name ∈ condition.names, name ∈ own) ∧ branchThen.ClosedIn own ∧
        ClosedInOption own branchElse
  | whileStmt _ condition branchDo =>
      (∀ name ∈ condition.names, name ∈ own) ∧ branchDo.ClosedIn own
  | funcDecl .. => True
  | returnStmt _ value => ∀ result ∈ value, ∀ name ∈ result.names, name ∈ own
  | expression expr => expr.isIdentifier ∨ ∀ name ∈ expr.names, name ∈ own

/-- The same for a branch that may be missing. -/
def ClosedInOption (own : List String) : Option Stmt → Prop
  | none => True
  | some stmt => stmt.ClosedIn own

/-- The statements of a block, each with the names declared before it. -/
def ClosedInAll (own : List String) : List Stmt → Prop
  | [] => True
  | stmt :: rest => stmt.ClosedIn own ∧ ClosedInAll (stmt.blockName ++ own) rest

end

theorem blockName_of_isBlock {stmt : Stmt} (block : stmt.isBlock) : stmt.blockName = [] := by
  cases stmt <;> first | rfl | cases block

theorem blockName_of_isIf {stmt : Stmt} (branches : stmt.isIf) : stmt.blockName = [] := by
  cases stmt <;> first | rfl | cases branches

section Lists

variable (branch : Option Stmt)

theorem usesAll_toList : usesAll branch.toList = usesOption branch := by
  cases branch <;> simp [usesAll, usesOption]

theorem localsAll_toList : localsAll branch.toList = localsOption branch := by
  cases branch <;> simp [localsAll, localsOption]

theorem closedInAll_toList (own : List String) :
    ClosedInAll own branch.toList ↔ ClosedInOption own branch := by
  cases branch <;> simp [ClosedInAll, ClosedInOption]

end Lists

end Stmt

attribute [local simp] Stmt.uses Stmt.usesOption Stmt.usesAll Stmt.locals Stmt.localsOption
  Stmt.localsAll Stmt.ClosedIn Stmt.ClosedInOption Stmt.ClosedInAll

/-- The body of a declared function names its parameters and own variables only. -/
def ClosedSource (declaration : FuncDecl × Option Stmt) : Prop :=
  ∀ body ∈ declaration.2, body.ClosedIn (declaration.1.parameters.map Parameter.name)

/-- The name of a variable's slot. -/
def mangleEntry (found : String × Nat) : String :=
  mangleVariable found.1 found.2

theorem mangleEntry_injective : Function.Injective mangleEntry := by
  intro first second equal
  obtain ⟨names, numbers⟩ := mangleVariable_injective equal
  exact Prod.ext names numbers

/-- A parameter with its number. -/
def Parameter.entry (param : Parameter) : String × Nat :=
  (param.name, param.id)

/-- The variables of a function: its parameters, and those that its body
declares. -/
def FuncDecl.ownVariables (func : FuncDecl) (body : Option Stmt) : List (String × Nat) :=
  func.parameters.map Parameter.entry ++
    (body.map Stmt.locals).getD []

/-- The same law on the analysed function, by the numbers. -/
def ClosedAnalysed (declaration : FuncDecl × Option Stmt) : Prop :=
  ∀ body ∈ declaration.2, ∀ found ∈ body.uses,
    found ∈ declaration.1.ownVariables declaration.2

/-! ## Tables -/

namespace Scope

/-- The names of the variables with their numbers, table by table. -/
def tables (scope : Scope) : List (List (String × Nat)) :=
  scope.stack.map fun table => table.map fun symbol => (symbol.name, symbol.id)

@[simp]
theorem tables_push (scope : Scope) : scope.push.tables = [] :: scope.tables := rfl

@[simp]
theorem tables_pop (scope : Scope) : scope.pop.tables = scope.tables.drop 1 := by
  simp [tables, pop]

@[simp]
theorem tables_flowRestore (scope : Scope) (state : FlowState) :
    (scope.flowRestore state).tables = scope.tables :=
  map_restoreStack (fun _ _ => rfl) scope.stack state

@[simp]
theorem tables_markInitialized (scope : Scope) (name : String) :
    (scope.markInitialized name).tables = scope.tables :=
  map_markStack (fun _ => rfl) name scope.stack

theorem tables_insert {scope : Scope} {symbol : VarSymbol} {filename : String}
    {table : List (String × Nat)} {outer : List (List (String × Nat))}
    (tables : scope.tables = table :: outer)
    (clean : Log.hadErrors (scope.insert symbol filename).2 = false) :
    (scope.insert symbol filename).1.tables =
      (table ++ [(symbol.name, scope.nextId)]) :: outer := by
  have nonempty : scope.stack ≠ [] := by
    intro empty
    simp [Scope.tables, empty] at tables
  obtain ⟨first, rest, stack, inserted⟩ := insert_of_clean nonempty clean
  simp only [Scope.tables, stack, List.map_cons, List.cons.injEq] at tables
  rw [inserted, ← tables.1, ← tables.2]
  simp [Scope.tables]

/-- A lookup finds the first entry with the name. -/
theorem find?_tables {scope : Scope} {name : String} {symbol : VarSymbol}
    (found : scope.lookup name = some symbol) :
    scope.tables.flatten.find? (fun entry => entry.1 = name) =
      some (name, symbol.id) := by
  unfold lookup at found
  unfold tables
  generalize scope.stack = stack at found ⊢
  induction stack with
  | nil => cases found
  | cons table outer inductionHypothesis =>
      rw [List.findSome?_cons] at found
      rw [List.map_cons, List.flatten_cons, List.find?_append, List.find?_map]
      change (Option.map _ (lookupTable table name)).or _ = _
      cases here : lookupTable table name with
      | none =>
          rw [here] at found
          exact inductionHypothesis found
      | some other =>
          rw [here] at found
          obtain rfl := Option.some.inj found
          have named : other.name = name := by
            simpa using List.find?_some here
          simp [named]

/-- The innermost tables are those of one function, with the numbers that were
given out since it was entered. -/
structure Splits (scope : Scope) (own outer : List (List (String × Nat))) (start : Nat) :
    Prop where
  tables : scope.tables = own ++ outer
  older : ∀ entry ∈ outer.flatten, entry.2 < start
  newer : ∀ entry ∈ own.flatten, start ≤ entry.2 ∧ entry.2 < scope.nextId
  started : start ≤ scope.nextId

namespace Splits

variable {scope : Scope} {own outer : List (List (String × Nat))} {start : Nat}

/-- A name resolves to a variable of the function when the function has that
name. -/
theorem lookup (splits : scope.Splits own outer start) {name : String}
    {symbol : VarSymbol} (found : scope.lookup name = some symbol) :
    (name ∈ own.flatten.map Prod.fst ↔ start ≤ symbol.id) ∧
      (start ≤ symbol.id → (name, symbol.id) ∈ own.flatten) ∧
      symbol.id < scope.nextId := by
  have entry := find?_tables found
  rw [splits.tables, List.flatten_append, List.find?_append] at entry
  cases here : own.flatten.find? (fun entry => entry.1 = name) with
  | some other =>
      rw [here] at entry
      obtain rfl := Option.some.inj entry
      have inOwn := List.mem_of_find?_eq_some here
      have bounds := splits.newer _ inOwn
      exact ⟨⟨fun _ => bounds.1, fun _ => List.mem_map.mpr ⟨_, inOwn, rfl⟩⟩,
        fun _ => inOwn, bounds.2⟩
  | none =>
      rw [here] at entry
      have below := splits.older _ (List.mem_of_find?_eq_some entry)
      have missing : name ∉ own.flatten.map Prod.fst := by
        intro named
        obtain ⟨other, inOwn, rfl⟩ := List.mem_map.mp named
        simpa using List.find?_eq_none.mp here other inOwn
      have started := splits.started
      dsimp only at below
      exact ⟨⟨fun named => absurd named missing, fun own => by omega⟩, fun own => by omega,
        by omega⟩

theorem push (splits : scope.Splits own outer start) :
    scope.push.Splits ([] :: own) outer start :=
  ⟨by simp [splits.tables], splits.older, splits.newer, splits.started⟩

/-- A new function begins with no variables. -/
theorem enter (splits : scope.Splits own outer start) :
    scope.push.Splits [[]] (own ++ outer) scope.nextId := by
  refine ⟨by simp [splits.tables], fun entry inTables => ?_, nofun, le_rfl⟩
  rw [List.flatten_append, List.mem_append] at inTables
  rcases inTables with inOwn | inOuter
  · exact (splits.newer entry inOwn).2
  · exact (splits.older entry inOuter).trans_le splits.started

theorem stack_ne_nil {table : List (String × Nat)}
    (splits : scope.Splits (table :: own) outer start) : scope.stack ≠ [] := by
  intro empty
  have none := splits.tables
  simp [Scope.tables, empty] at none

theorem insert {table : List (String × Nat)}
    (splits : scope.Splits (table :: own) outer start) {symbol : VarSymbol}
    {filename : String}
    (clean : Log.hadErrors (scope.insert symbol filename).2 = false) :
    (scope.insert symbol filename).1.Splits
      ((table ++ [(symbol.name, scope.nextId)]) :: own) outer start := by
  have tables := tables_insert splits.tables clean
  have nextId := nextId_insert splits.stack_ne_nil clean
  have started := splits.started
  refine ⟨tables, splits.older, fun entry inOwn => ?_, by omega⟩
  rw [nextId]
  simp only [List.flatten_cons, List.mem_append, List.mem_singleton] at inOwn
  rcases inOwn with (inTable | rfl) | inOthers
  · have bounds := splits.newer entry (by simp [inTable])
    omega
  · exact ⟨started, Nat.lt_succ_self _⟩
  · have bounds := splits.newer entry
      (by rw [List.flatten_cons]; exact List.mem_append_right _ inOthers)
    omega

theorem flowRestore (splits : scope.Splits own outer start) (state : FlowState) :
    (scope.flowRestore state).Splits own outer start :=
  ⟨by rw [tables_flowRestore, splits.tables], splits.older, splits.newer, splits.started⟩

theorem markInitialized (splits : scope.Splits own outer start) (name : String) :
    (scope.markInitialized name).Splits own outer start :=
  ⟨by rw [tables_markInitialized, splits.tables], splits.older, splits.newer,
    splits.started⟩

/-- A block that is closed again leaves the other tables. -/
theorem pop {table : List (String × Nat)} (splits : scope.Splits (table :: own) outer start) :
    scope.pop.Splits own outer start := by
  refine ⟨by simp [splits.tables], splits.older, fun entry inOwn => ?_, splits.started⟩
  exact splits.newer entry (by rw [List.flatten_cons]; exact List.mem_append_right _ inOwn)

/-- A function that is left leaves the tables of the one around it. -/
theorem leave {before : Scope} {table : List (String × Nat)}
    (splits : before.Splits own outer start)
    (inside : scope.Splits [table] (own ++ outer) before.nextId) :
    scope.pop.Splits own outer start := by
  refine ⟨by simp [inside.tables], splits.older, fun entry inOwn => ?_,
    splits.started.trans inside.started⟩
  have bounds := splits.newer entry inOwn
  exact ⟨bounds.1, bounds.2.trans_le inside.started⟩

end Splits

end Scope

/-! ## Expressions -/

namespace Expr

/-- The analysis keeps the names. -/
theorem Annotated.names_eq {source node : Expr} (annotated : source.Annotated node) :
    node.names = source.names := by
  unfold names
  induction node using Expr.induction generalizing source with
  | binary base op left right leftHypothesis rightHypothesis =>
      cases annotated with
      | binary first second =>
          simp [uses, leftHypothesis first, rightHypothesis second]
  | unary base op operand operandHypothesis =>
      cases annotated with
      | unary inner => simpa only [uses] using operandHypothesis inner
  | cast base target operand operandHypothesis =>
      cases annotated with
      | cast inner => simpa only [uses] using operandHypothesis inner
      | widened inner group => simpa only [uses] using operandHypothesis inner
  | literal base tokenType value =>
      cases annotated with
      | literal => rfl
  | identifier base name depth id symbol =>
      cases annotated with
      | identifier => rfl
  | funcCall base callee linkName arguments argumentsHypothesis =>
      cases annotated with
      | funcCall inner =>
          unfold uses
          induction inner with
          | nil => rfl
          | cons first _ inductionHypothesis =>
              rw [List.forall_mem_cons] at argumentsHypothesis
              simp [usesAll, argumentsHypothesis.1 first,
                inductionHypothesis argumentsHypothesis.2]

theorem mem_usesAll {found : String × Nat} (arguments : List Expr) :
    found ∈ usesAll arguments ↔ ∃ argument ∈ arguments, found ∈ argument.uses := by
  induction arguments with
  | nil => simp [usesAll]
  | cons argument rest inductionHypothesis => simp [usesAll, inductionHypothesis]

/-- The numbers are those of the entries that the names resolve to. -/
theorem Typed.uses {s : Semantic} {node : Expr} (typed : node.Typed s) :
    ∀ found ∈ node.uses, ∃ symbol, s.scope.lookup found.1 = some symbol ∧
      found.2 = symbol.id := by
  intro found inUses
  induction node using Expr.induction with
  | binary base op left right leftHypothesis rightHypothesis =>
      rcases List.mem_append.mp inUses with inLeft | inRight
      · exact leftHypothesis typed.1 inLeft
      · exact rightHypothesis typed.2.1 inRight
  | unary base op operand operandHypothesis => exact operandHypothesis typed.1 inUses
  | cast base target operand operandHypothesis => exact operandHypothesis typed.1 inUses
  | literal base tokenType value => cases inUses
  | identifier base name depth id symbol =>
      obtain ⟨entry, lookup, -, -, -, same, -⟩ := typed
      rw [List.mem_singleton.mp inUses]
      exact ⟨entry, lookup, same⟩
  | funcCall base callee linkName arguments argumentsHypothesis =>
      obtain ⟨func, -, -, -, argumentsTyped⟩ := typed
      obtain ⟨argument, inArguments, inArgument⟩ := (mem_usesAll arguments).mp inUses
      exact argumentsHypothesis argument inArguments
        (argumentsTyped.typed argument inArguments) inArgument

end Expr

namespace Semantic.Elaborated

variable {s : Semantic} {source node : Expr} {own outer : List (List (String × Nat))}
  {start : Nat}

/-- The names of an expression are those of its function when the numbers are. -/
theorem closed_iff (elaborated : s.Elaborated source node)
    (splits : s.scope.Splits own outer start) :
    (∀ name ∈ source.names, name ∈ own.flatten.map Prod.fst) ↔
      ∀ found ∈ node.uses, start ≤ found.2 := by
  rw [← elaborated.annotated.names_eq, Expr.names, List.forall_mem_map]
  refine forall₂_congr fun found inUses => ?_
  obtain ⟨symbol, lookup, id⟩ := elaborated.typed.uses found inUses
  rw [id]
  exact (splits.lookup lookup).1

theorem mem_own (elaborated : s.Elaborated source node)
    (splits : s.scope.Splits own outer start) {found : String × Nat}
    (inUses : found ∈ node.uses) (recent : start ≤ found.2) : found ∈ own.flatten := by
  obtain ⟨symbol, lookup, id⟩ := elaborated.typed.uses found inUses
  have inOwn := (splits.lookup lookup).2.1 (id ▸ recent)
  rwa [← id] at inOwn

/-- An assignment is silent when its source assigns a variable to itself. -/
theorem isVariable_iff (elaborated : s.Elaborated source node) {name : String}
    {symbol : VarSymbol} (lookup : s.scope.lookup name = some symbol) :
    node.isVariable (name, symbol.id) ↔ source.isIdentifier ∧ source.names = [name] := by
  rw [← elaborated.annotated.names_eq]
  have kept := elaborated.identifier
  cases node with
  | identifier base other depth id entry =>
      obtain ⟨found, otherLookup, -, -, -, same, -⟩ := elaborated.typed
      have isIdentifier : source.isIdentifier := by
        cases elaborated.annotated
        rfl
      simp only [Expr.isVariable, isIdentifier, Expr.names, Expr.uses, List.map_cons,
        List.map_nil, List.cons.injEq, and_true, true_and, decide_eq_true_eq, Prod.mk.injEq]
      refine ⟨And.left, fun equal => ⟨equal, ?_⟩⟩
      rw [equal, lookup] at otherLookup
      rw [same, Option.some.inj otherLookup]
  | _ =>
      simp only [Expr.isVariable, Bool.false_eq_true, false_iff, not_and]
      exact fun isIdentifier => absurd (kept isIdentifier) Bool.false_ne_true

end Semantic.Elaborated

/-! ## Statements -/

/-- Both declarations are closed, or neither is. -/
def SameClosed (source node : FuncDecl × Option Stmt) : Prop :=
  ClosedSource source ↔ ClosedAnalysed node

/-- What the analysis makes of the names in statements of a function: `own` are the
function's variables before them, and `new` those that they add to their block. -/
structure Resolves (statements nodes : List Stmt) (own new : List (String × Nat))
    (start : Nat) : Prop where
  names : new.map Prod.fst = statements.flatMap Stmt.blockName
  declared : ∀ found ∈ new, found ∈ Stmt.localsAll nodes
  recent : ∀ found ∈ Stmt.localsAll nodes, start ≤ found.2
  closed : ∀ names : List String, (∀ name, name ∈ names ↔ name ∈ own.map Prod.fst) →
    (Stmt.ClosedInAll names statements ↔ ∀ found ∈ Stmt.usesAll nodes, start ≤ found.2)
  mem_own : ∀ found ∈ Stmt.usesAll nodes, start ≤ found.2 →
    found ∈ own ∨ found ∈ Stmt.localsAll nodes
  declarations : List.Forall₂ SameClosed (Stmt.declarationsAll statements)
    (Stmt.declarationsAll nodes)

namespace Resolves

variable {own : List (String × Nat)} {start : Nat}

theorem nil : Resolves [] [] own [] start :=
  ⟨rfl, nofun, nofun, fun _ _ => by simp [Stmt.ClosedInAll, Stmt.usesAll], nofun, .nil⟩

/-- One statement and then the others, which see what it declares. -/
theorem cons {stmt node : Stmt} {rest nodes : List Stmt}
    {new more later : List (String × Nat)} (first : Resolves [stmt] [node] own new start)
    (others : Resolves rest nodes later more start)
    (adds : ∀ found, found ∈ later ↔ found ∈ own ∨ found ∈ new) :
    Resolves (stmt :: rest) (node :: nodes) own (new ++ more) start := by
  have firstNames : new.map Prod.fst = stmt.blockName := by simpa using first.names
  have firstDeclared := first.declared
  have firstRecent := first.recent
  have firstOwn := first.mem_own
  have firstDeclarations := first.declarations
  simp only [Stmt.localsAll, Stmt.usesAll, Stmt.declarationsAll, List.append_nil] at *
  refine ⟨by simp [firstNames, others.names], fun found inNew => ?_,
    fun found inLocals => ?_, fun names same => ?_, fun found inUses recent => ?_,
    List.rel_append firstDeclarations others.declarations⟩
  · rw [List.mem_append] at inNew
    rw [Stmt.localsAll, List.mem_append]
    exact inNew.imp (firstDeclared found) (others.declared found)
  · rw [Stmt.localsAll, List.mem_append] at inLocals
    exact inLocals.elim (firstRecent found) (others.recent found)
  · have firstClosed := first.closed names same
    have othersClosed := others.closed (stmt.blockName ++ names) fun name => by
      rw [← firstNames, List.mem_append, same name, List.mem_map, List.mem_map, List.mem_map]
      simp only [adds, or_and_right, exists_or, or_comm]
    simp only [Stmt.ClosedInAll, Stmt.usesAll, List.append_nil, and_true] at firstClosed
    simp only [Stmt.ClosedInAll, Stmt.usesAll, firstClosed, othersClosed,
      List.forall_mem_append]
  · rw [Stmt.usesAll, List.mem_append] at inUses
    rw [Stmt.localsAll, List.mem_append]
    rcases inUses with inFirst | inOthers
    · exact (firstOwn found inFirst recent).imp_right Or.inl
    · rcases others.mem_own found inOthers recent with inLater | inLocals
      · rcases (adds found).mp inLater with inOwn | inNew
        · exact Or.inl inOwn
        · exact Or.inr (Or.inl (firstDeclared found inNew))
      · exact Or.inr (Or.inr inLocals)

/-- A statement that declares nothing. -/
theorem elementary {stmt node : Stmt} (names : stmt.blockName = [])
    (locals : node.locals = []) (sourceDeclarations : stmt.declarations = [])
    (nodeDeclarations : node.declarations = [])
    (closed : ∀ names : List String, (∀ name, name ∈ names ↔ name ∈ own.map Prod.fst) →
      (stmt.ClosedIn names ↔ ∀ found ∈ node.uses, start ≤ found.2))
    (mem_own : ∀ found ∈ node.uses, start ≤ found.2 → found ∈ own) :
    Resolves [stmt] [node] own [] start := by
  refine ⟨by simp [names], nofun, by simp [Stmt.localsAll, locals], fun names same => ?_,
    fun found inUses recent => Or.inl (mem_own found (by simpa [Stmt.usesAll] using inUses)
      recent), ?_⟩
  · simpa [Stmt.ClosedInAll, Stmt.usesAll] using closed names same
  · simp [Stmt.declarationsAll, sourceDeclarations, nodeDeclarations]

/-- Statements without a declaration of their own add nothing to their block. -/
theorem eq_nil {statements nodes : List Stmt} {new : List (String × Nat)}
    (resolves : Resolves statements nodes own new start)
    (none : ∀ stmt ∈ statements, stmt.blockName = []) : new = [] := by
  have names := resolves.names
  rw [List.flatMap_eq_nil_iff.mpr none] at names
  simpa using names

end Resolves

section Elementary

variable {s : Semantic} {table : List (String × Nat)}
  {rest outer : List (List (String × Nat))} {start : Nat}

/-- The names of an expression, against the names of its function. -/
theorem closed_names {source node : Expr} (elaborated : s.Elaborated source node)
    (splits : s.scope.Splits (table :: rest) outer start) {names : List String}
    (same : ∀ name, name ∈ names ↔ name ∈ (table :: rest).flatten.map Prod.fst) :
    (∀ name ∈ source.names, name ∈ names) ↔ ∀ found ∈ node.uses, start ≤ found.2 := by
  rw [← elaborated.closed_iff splits]
  exact forall₂_congr fun name _ => same name

theorem resolves_varDecl (splits : s.scope.Splits (table :: rest) outer start)
    {decl : VarDecl} {value : Option Expr}
    (initialiser : Option.Rel s.Elaborated decl.value value) :
    Resolves [.varDecl decl]
      [.varDecl { decl with id := s.scope.nextId, value := value }]
      (table :: rest).flatten [(decl.name, s.scope.nextId)] start := by
  have declarations : List.Forall₂ SameClosed (Stmt.declarationsAll [.varDecl decl])
      (Stmt.declarationsAll
        [.varDecl { decl with id := s.scope.nextId, value := value }]) := .nil
  cases value with
  | none =>
      have nothing : decl.value = none := by
        cases known : decl.value with
        | none => rfl
        | some source =>
            rw [known] at initialiser
            cases initialiser
      refine ⟨rfl, fun _ => id, ?_, fun names _ => ?_, nofun, declarations⟩
      · simpa [Stmt.localsAll, Stmt.locals] using splits.started
      · simp [Stmt.ClosedInAll, Stmt.ClosedIn, Stmt.usesAll, Stmt.uses, nothing]
  | some node =>
      obtain ⟨source, isSource, elaborated⟩ : ∃ source, decl.value = some source ∧
          s.Elaborated source node := by
        cases known : decl.value with
        | none =>
            rw [known] at initialiser
            cases initialiser
        | some source =>
            rw [known] at initialiser
            cases initialiser with
            | some elaborated => exact ⟨source, rfl, elaborated⟩
      -- the new number differs from those of the variables that the value names
      have emitted : node.isVariable (decl.name, s.scope.nextId) = false := by
        cases node with
        | identifier base name depth id symbol =>
            obtain ⟨found, lookup, -, -, -, same, -⟩ := elaborated.typed
            have below := (splits.lookup lookup).2.2
            rw [← same] at below
            simp only [Expr.isVariable, Prod.mk.injEq, decide_eq_false_iff_not, not_and]
            omega
        | _ => rfl
      have uses : Stmt.usesAll
          [.varDecl { decl with id := s.scope.nextId, value := some node }] =
            (decl.name, s.scope.nextId) :: node.uses := by
        simp [Stmt.usesAll, Stmt.uses, Expr.assignmentUses, emitted]
      refine ⟨rfl, fun _ => id, ?_, fun names same => ?_, fun found inUses recent => ?_,
        declarations⟩
      · simpa [Stmt.localsAll, Stmt.locals] using splits.started
      · rw [uses, List.forall_mem_cons, ← closed_names elaborated splits same]
        simp [Stmt.ClosedInAll, Stmt.ClosedIn, isSource, splits.started]
      · rw [uses] at inUses
        rcases List.mem_cons.mp inUses with rfl | inValue
        · exact Or.inr (List.mem_singleton_self _)
        · exact Or.inl (elaborated.mem_own splits inValue recent)

theorem resolves_varAssign (splits : s.scope.Splits (table :: rest) outer start)
    {assign : VarAssign} {value : Expr} {symbol : VarSymbol} (base : Base)
    (found : s.scope.lookup assign.name = some symbol)
    (elaborated : s.Elaborated assign.value value) :
    Resolves [.varAssign assign]
      [.varAssign { assign with base := base, id := symbol.id, value := value }]
      (table :: rest).flatten [] start := by
  have target := splits.lookup found
  have silent := elaborated.isVariable_iff found
  refine .elementary rfl rfl rfl rfl (fun names same => ?_) fun use inUses recent => ?_
  · simp only [Stmt.ClosedIn, Stmt.uses, Expr.assignmentUses, ← silent,
      closed_names elaborated splits same, same assign.name, target.1]
    split
    · rename_i isVariable
      simp [isVariable]
    · rename_i other
      simp [other]
  · simp only [Stmt.uses, Expr.assignmentUses] at inUses
    split at inUses
    · cases inUses
    · rcases List.mem_cons.mp inUses with rfl | inValue
      · exact target.2.1 recent
      · exact elaborated.mem_own splits inValue recent

theorem resolves_return (splits : s.scope.Splits (table :: rest) outer start)
    {base : Base} {value node : Option Expr}
    (elaborated : Option.Rel s.Elaborated value node) :
    Resolves [.returnStmt base value] [.returnStmt base node]
      (table :: rest).flatten [] start := by
  refine .elementary rfl rfl rfl rfl (fun names same => ?_) fun use inUses recent => ?_
  · cases elaborated with
    | none => simp [Stmt.ClosedIn, Stmt.uses]
    | some result =>
        simpa [Stmt.ClosedIn, Stmt.uses] using closed_names result splits same
  · cases elaborated with
    | none => cases inUses
    | some result => exact result.mem_own splits inUses recent

theorem resolves_expression (splits : s.scope.Splits (table :: rest) outer start)
    {expr node : Expr} (elaborated : s.Elaborated expr node) :
    Resolves [.expression expr] [.expression node] (table :: rest).flatten [] start := by
  have kept : node.isIdentifier = expr.isIdentifier := by
    cases isIdentifier : expr.isIdentifier with
    | true => exact elaborated.identifier isIdentifier
    | false =>
        have annotated := elaborated.annotated
        cases annotated <;> simp_all [Expr.isIdentifier]
  refine .elementary rfl rfl rfl rfl (fun names same => ?_) fun use inUses recent => ?_
  · simp only [Stmt.ClosedIn, Stmt.uses, kept, closed_names elaborated splits same]
    split <;> simp_all
  · simp only [Stmt.uses] at inUses
    split at inUses
    · cases inUses
    · exact elaborated.mem_own splits inUses recent

/-- A function without a body names nothing. -/
theorem resolves_declaration {own : List (String × Nat)} {func node : FuncDecl} :
    Resolves [.funcDecl func none] [.funcDecl node none] own [] start := by
  refine ⟨rfl, nofun, nofun, ?_, nofun, .cons ⟨fun _ => nofun, fun _ => nofun⟩ .nil⟩
  simp [Stmt.ClosedInAll, Stmt.ClosedIn, Stmt.usesAll, Stmt.uses]

theorem resolves_block {base : Base} {statements inner : List Stmt}
    {new : List (String × Nat)}
    (inside : Resolves statements inner (table :: rest).flatten new start) :
    Resolves [.block base statements] [.block base inner] (table :: rest).flatten [] start := by
  have locals : Stmt.localsAll [.block base inner] = Stmt.localsAll inner := by
    simp [Stmt.localsAll, Stmt.locals]
  have uses : Stmt.usesAll [.block base inner] = Stmt.usesAll inner := by
    simp [Stmt.usesAll, Stmt.uses]
  refine ⟨rfl, nofun, locals ▸ inside.recent, fun names same => ?_, ?_, ?_⟩
  · rw [uses]
    simpa [Stmt.ClosedInAll, Stmt.ClosedIn] using inside.closed names same
  · rw [uses, locals]
    exact inside.mem_own
  · simpa [Stmt.declarationsAll, Stmt.declarations] using inside.declarations

theorem resolves_while (splits : s.scope.Splits (table :: rest) outer start)
    {base : Base} {condition node : Expr} {branchDo doNode : Stmt}
    (elaborated : s.Elaborated condition node)
    (body : Resolves [branchDo] [doNode] (table :: rest).flatten [] start) :
    Resolves [.whileStmt base condition branchDo] [.whileStmt base node doNode]
      (table :: rest).flatten [] start := by
  have recent := body.recent
  have own := body.mem_own
  have declarations := body.declarations
  simp only [Stmt.localsAll, Stmt.usesAll, Stmt.declarationsAll, List.append_nil] at *
  refine ⟨rfl, List.forall_mem_nil _, ?_, fun names same => ?_, fun found inUses later => ?_, ?_⟩
  · simpa [Stmt.localsAll, Stmt.locals] using recent
  · have closed := body.closed names same
    simp only [Stmt.ClosedInAll, Stmt.usesAll, List.append_nil, and_true] at closed
    simp only [Stmt.ClosedInAll, Stmt.ClosedIn, Stmt.usesAll, Stmt.uses, List.append_nil,
      and_true, closed, closed_names elaborated splits same, List.forall_mem_append]
  · simp only [Stmt.usesAll, Stmt.uses, List.append_nil, List.mem_append] at inUses
    simp only [Stmt.localsAll, Stmt.locals, List.append_nil]
    rcases inUses with inCondition | inBody
    · exact Or.inl (elaborated.mem_own splits inCondition later)
    · exact own found inBody later
  · simpa [Stmt.declarationsAll, Stmt.declarations] using declarations

theorem resolves_if (splits : s.scope.Splits (table :: rest) outer start)
    {base : Base} {condition node : Expr} {branchThen thenNode : Stmt}
    {branchElse elseNode : Option Stmt} (elaborated : s.Elaborated condition node)
    (first : Resolves [branchThen] [thenNode] (table :: rest).flatten [] start)
    (second : Resolves branchElse.toList elseNode.toList (table :: rest).flatten [] start) :
    Resolves [.ifStmt base condition branchThen branchElse]
      [.ifStmt base node thenNode elseNode] (table :: rest).flatten [] start := by
  have thenRecent := first.recent
  have thenOwn := first.mem_own
  have thenDeclarations := first.declarations
  have elseRecent := second.recent
  have elseOwn := second.mem_own
  have elseDeclarations := second.declarations
  simp only [Stmt.localsAll, Stmt.usesAll, Stmt.declarationsAll, List.append_nil,
    Stmt.localsAll_toList, Stmt.usesAll_toList, Stmt.declarationsAll_toList] at *
  refine ⟨rfl, List.forall_mem_nil _, ?_, fun names same => ?_, fun found inUses later => ?_, ?_⟩
  · simp only [Stmt.localsAll, Stmt.locals, List.append_nil, List.forall_mem_append]
    exact ⟨thenRecent, elseRecent⟩
  · have thenClosed := first.closed names same
    have elseClosed := second.closed names same
    simp only [Stmt.ClosedInAll, Stmt.usesAll, List.append_nil, and_true,
      Stmt.usesAll_toList, Stmt.closedInAll_toList] at thenClosed elseClosed
    simp only [Stmt.ClosedInAll, Stmt.ClosedIn, Stmt.usesAll, Stmt.uses, List.append_nil,
      and_true, thenClosed, elseClosed, closed_names elaborated splits same,
      List.forall_mem_append, and_assoc]
  · simp only [Stmt.usesAll, Stmt.uses, List.append_nil, List.mem_append] at inUses
    simp only [Stmt.localsAll, Stmt.locals, List.append_nil, List.mem_append]
    rcases inUses with (inCondition | inThen) | inElse
    · exact Or.inl (elaborated.mem_own splits inCondition later)
    · exact (thenOwn found inThen later).imp_right Or.inl
    · exact (elseOwn found inElse later).imp_right Or.inr
  · simpa [Stmt.declarationsAll, Stmt.declarations] using
      List.rel_append thenDeclarations elseDeclarations

end Elementary

theorem insertParameters_splits (filename : String) (span : Span) {scope : Scope}
    {table : List (String × Nat)} {outer : List (List (String × Nat))} {start : Nat}
    (splits : scope.Splits [table] outer start) {params : List Parameter}
    (scalar : ∀ param ∈ params, param.type.IsScalar)
    (clean : Log.hadErrors (insertParameters filename span scope params).log = false) :
    (insertParameters filename span scope params).scope.Splits
        [table ++ (insertParameters filename span scope params).parameters.map
          Parameter.entry] outer start ∧
      (insertParameters filename span scope params).parameters.map Parameter.name =
        params.map Parameter.name := by
  induction params generalizing scope table with
  | nil => exact ⟨by simpa [insertParameters] using splits, rfl⟩
  | cons param rest inductionHypothesis =>
      rw [List.forall_mem_cons] at scalar
      unfold insertParameters at clean ⊢
      rw [if_neg scalar.1.ne_void] at clean ⊢
      simp only [Log.hadErrors_append, Bool.or_eq_false_iff] at clean
      dsimp only
      generalize symbolIs :
        ({ name := param.name
           type := param.type
           initialized := true
           span := span
           qualifiers := param.qualifiers } : VarSymbol) = symbol at *
      have name : symbol.name = param.name := by rw [← symbolIs]
      obtain ⟨first, inStack⟩ := List.exists_mem_of_ne_nil _ splits.stack_ne_nil
      obtain ⟨found, lookup, id⟩ := Scope.lookup_insert clean.1 inStack
      rw [name] at lookup
      obtain ⟨others, names⟩ := inductionHypothesis (splits.insert clean.1) scalar.2 clean.2
      rw [lookup, Option.map_some, Option.getD_some, id]
      refine ⟨?_, by simp [names]⟩
      simpa [name, Parameter.entry] using others

/-- The numbers of a body's own variables are those of the parameters and of its
declarations, so that the definition is closed as its source is. -/
theorem resolves_definition {own : List (String × Nat)} {start : Nat} {func node : FuncDecl}
    {body bodyNode : Stmt} {scope : Scope} {outer : List (List (String × Nat))}
    {entered : Nat} (splits : scope.Splits [node.parameters.map Parameter.entry] outer entered)
    (inside : Resolves [body] [bodyNode]
      [node.parameters.map Parameter.entry].flatten [] entered)
    (names : node.parameters.map Parameter.name = func.parameters.map Parameter.name) :
    Resolves [.funcDecl func (some body)] [.funcDecl node (some bodyNode)] own [] start := by
  have recent := inside.recent
  have own := inside.mem_own
  have closed := inside.closed (func.parameters.map Parameter.name) fun name => by
    rw [← names]
    simp [Parameter.entry]
  have declarations := inside.declarations
  simp only [Stmt.localsAll, Stmt.usesAll, Stmt.declarationsAll, Stmt.ClosedInAll,
    List.append_nil, and_true, List.flatten_cons, List.flatten_nil] at *
  have same : SameClosed (func, some body) (node, some bodyNode) := by
    simp only [SameClosed, ClosedSource, ClosedAnalysed, FuncDecl.ownVariables,
      Option.mem_some_iff, forall_eq', Option.map_some, Option.getD_some, closed,
      List.mem_append]
    refine forall₂_congr fun found inUses => ⟨own found inUses, fun isOwn => ?_⟩
    exact isOwn.elim (fun inParams => (splits.newer found (by simpa using inParams)).1)
      (recent found)
  refine ⟨rfl, List.forall_mem_nil _, List.forall_mem_nil _, ?_, List.forall_mem_nil _, ?_⟩
  · simp [Stmt.ClosedInAll, Stmt.ClosedIn, Stmt.usesAll, Stmt.uses]
  · simpa [Stmt.declarationsAll, Stmt.declarations, Stmt.declarationsOption] using
      List.rel_append declarations (.cons same .nil)

namespace Elaborates

/-- The names of accepted statements resolve to variables of their function as far
as the source keeps to them. -/
theorem resolves {s after : Semantic} {statements nodes : List Stmt}
    (elaborates : Elaborates s statements nodes after)
    (grammatical : ∀ stmt ∈ statements, stmt.Grammatical) {table : List (String × Nat)}
    {rest outer : List (List (String × Nat))} {start : Nat}
    (splits : s.scope.Splits (table :: rest) outer start) :
    ∃ new, Resolves statements nodes (table :: rest).flatten new start ∧
      after.scope.Splits ((table ++ new) :: rest) outer start := by
  induction elaborates generalizing table rest outer start with
  | nil => exact ⟨[], .nil, by simpa using splits⟩
  | varDecl scalar initialiser widens free _ inductionHypothesis =>
      rw [List.forall_mem_cons] at grammatical
      obtain ⟨more, others, kept⟩ := inductionHypothesis grammatical.2 (splits.insert free)
      refine ⟨_, (resolves_varDecl splits initialiser).cons others ?_, ?_⟩
      · simp [or_comm, or_left_comm, VarDecl.symbol]
      · simpa [VarDecl.symbol] using kept
  | varAssign found _ elaborated _ _ inductionHypothesis =>
      rw [List.forall_mem_cons] at grammatical
      obtain ⟨more, others, kept⟩ := inductionHypothesis grammatical.2
        (splits.markInitialized _)
      exact ⟨_, (resolves_varAssign splits _ found elaborated).cons others (by simp), kept⟩
  | block _ _ insideHypothesis inductionHypothesis =>
      rw [List.forall_mem_cons] at grammatical
      obtain ⟨new, inside, opened⟩ := insideHypothesis
        ((Stmt.grammaticalAll_iff _).mp grammatical.1) splits.push
      obtain ⟨more, others, kept⟩ := inductionHypothesis grammatical.2 opened.pop
      exact ⟨_, (resolves_block inside).cons others (by simp), kept⟩
  | ifStmt elaborated _ _ _ _ firstHypothesis secondHypothesis inductionHypothesis =>
      rw [List.forall_mem_cons] at grammatical
      obtain ⟨-, ⟨thenBlock, thenGrammatical⟩, elseBranch, elseGrammatical⟩ := grammatical.1
      obtain ⟨new, first, afterThen⟩ := firstHypothesis (by simpa using thenGrammatical)
        splits
      obtain rfl := first.eq_nil (by simpa using Stmt.blockName_of_isBlock thenBlock)
      rw [List.append_nil] at afterThen
      obtain ⟨new, second, afterElse⟩ := secondHypothesis
        (by simpa using (Stmt.grammaticalOption_iff _).mp elseGrammatical)
        (afterThen.flowRestore _)
      obtain rfl := second.eq_nil fun stmt inBranch =>
        (elseBranch stmt (Option.mem_toList.mp inBranch)).elim Stmt.blockName_of_isBlock
          Stmt.blockName_of_isIf
      rw [List.append_nil] at afterElse
      obtain ⟨more, others, kept⟩ := inductionHypothesis grammatical.2
        (afterElse.flowRestore _)
      exact ⟨_, (resolves_if splits elaborated first second).cons others (by simp), kept⟩
  | whileStmt elaborated _ _ _ bodyHypothesis inductionHypothesis =>
      rw [List.forall_mem_cons] at grammatical
      obtain ⟨-, doBlock, doGrammatical⟩ := grammatical.1
      obtain ⟨new, body, afterDo⟩ := bodyHypothesis (by simpa using doGrammatical) splits
      obtain rfl := body.eq_nil (by simpa using Stmt.blockName_of_isBlock doBlock)
      rw [List.append_nil] at afterDo
      obtain ⟨more, others, kept⟩ := inductionHypothesis grammatical.2
        (afterDo.flowRestore _)
      exact ⟨_, (resolves_while splits elaborated body).cons others (by simp), kept⟩
  | declaration _ _ inductionHypothesis =>
      rw [List.forall_mem_cons] at grammatical
      obtain ⟨more, others, kept⟩ := inductionHypothesis grammatical.2 splits
      exact ⟨_, resolves_declaration.cons others (by simp), kept⟩
  | definition declares free _ _ _ insideHypothesis inductionHypothesis =>
      rw [List.forall_mem_cons] at grammatical
      obtain ⟨-, -, bodyBlock, bodyGrammatical⟩ := grammatical.1
      obtain ⟨entered, names⟩ := insertParameters_splits _ _ splits.enter declares.scalar free
      rw [List.nil_append] at entered
      obtain ⟨new, inside, afterBody⟩ := insideHypothesis
        (by simpa [Stmt.GrammaticalOption] using bodyGrammatical) entered
      obtain rfl := inside.eq_nil (by simpa using Stmt.blockName_of_isBlock (bodyBlock _ rfl))
      obtain ⟨more, others, kept⟩ := inductionHypothesis grammatical.2
        (splits.leave afterBody)
      exact ⟨_, (resolves_definition entered inside names).cons others (by simp), kept⟩
  | returnStmt _ elaborated _ _ _ inductionHypothesis =>
      rw [List.forall_mem_cons] at grammatical
      obtain ⟨more, others, kept⟩ := inductionHypothesis grammatical.2 splits
      exact ⟨_, (resolves_return splits elaborated).cons others (by simp), kept⟩
  | expression elaborated _ inductionHypothesis =>
      rw [List.forall_mem_cons] at grammatical
      obtain ⟨more, others, kept⟩ := inductionHypothesis grammatical.2 splits
      exact ⟨_, (resolves_expression splits elaborated).cons others (by simp), kept⟩

end Elaborates

/-- The analysed functions of an accepted program are closed as their sources are. -/
theorem Accepted.sameClosed {program : Program} {filename : String}
    {options : CompilerOptions} {modules : List Module} {analysis : ProgramAnalysis}
    (accepted : Accepted program filename options modules analysis) :
    List.Forall₂ SameClosed program.declarations analysis.program.declarations := by
  obtain ⟨imports, after, -, -, -, elaborates⟩ := accepted.elaborates
  have splits : (topLevelState filename (options.moduleName filename)
      imports.funcs).scope.Splits [[]] [] 0 :=
    ⟨rfl, nofun, nofun, le_rfl⟩
  obtain ⟨new, resolves, -⟩ := elaborates.resolves
    (fun stmt inProgram => (accepted.fromParser.grammatical stmt inProgram).1) splits
  exact resolves.declarations

end Sulfur
