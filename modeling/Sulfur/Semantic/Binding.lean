import Sulfur.Semantic.Resolution
import Sulfur.Semantic.Linkage

/-!
# Lexical binding

The analyser resolves names with a stack of tables that it opens and closes on
its walk.  The rule that this implements needs no stack: a name means its
declaration above the point in the innermost block that has one.  It is stated
here on the analysed tree alone, whose declarations carry their numbers.
-/

namespace Sulfur

/-- A variable or parameter as its declaration announces it, with the number that
the declaration carries. -/
structure Binder where
  name : String
  type : ValueType
  isMutable : Bool
  id : Nat
  deriving DecidableEq, Repr

/-- What a declaration binds. -/
def VarDecl.binder (decl : VarDecl) : Binder :=
  { name := decl.name
    type := decl.varType
    isMutable := decl.qualifiers.isMutable
    id := decl.id }

/-- What a parameter binds. -/
def Parameter.binder (param : Parameter) : Binder :=
  { name := param.name
    type := param.type
    isMutable := param.qualifiers.isMutable
    id := param.id }

/-- What an entry of a symbol table binds. -/
def VarSymbol.binder (symbol : VarSymbol) : Binder :=
  { name := symbol.name
    type := symbol.type
    isMutable := symbol.qualifiers.isMutable
    id := symbol.id }

/-- The name of the variable in the intermediate representation. -/
def Binder.mangled (binder : Binder) : String :=
  mangleVariable binder.name binder.id

/-! ## The declarative rule -/

/-- The blocks around a point, the innermost first, each with its declarations above
the point. -/
abbrev Blocks := List (List Binder)

namespace Blocks

/-- The declaration that a name means. -/
def resolve (blocks : Blocks) (name : String) : Option Binder :=
  blocks.findSome? fun block => block.find? fun binder => binder.name = name

/-- The use carries the number of the declaration that its name means. -/
def Binds (blocks : Blocks) (use : String × Nat) : Prop :=
  ∃ binder, blocks.resolve use.1 = some binder ∧ use.2 = binder.id

/-- The blocks below declarations of the innermost one. -/
def declare : Blocks → List Binder → Blocks
  | [], _ => []
  | block :: outer, more => (block ++ more) :: outer

@[simp]
theorem declare_nil (blocks : Blocks) : blocks.declare [] = blocks := by
  cases blocks <;> simp [declare]

theorem declare_append (blocks : Blocks) (first second : List Binder) :
    blocks.declare (first ++ second) = (blocks.declare first).declare second := by
  cases blocks <;> simp [declare]

@[simp]
theorem declare_cons (block : List Binder) (outer : Blocks) (more : List Binder) :
    declare (block :: outer) more = (block ++ more) :: outer :=
  rfl

/-- A name means a declaration of some block. -/
theorem mem_of_resolve {blocks : Blocks} {name : String} {binder : Binder}
    (found : blocks.resolve name = some binder) :
    binder ∈ blocks.flatten ∧ binder.name = name := by
  rcases List.exists_of_findSome?_eq_some found with ⟨block, inBlocks, inBlock⟩
  constructor
  · exact List.mem_flatten.mpr ⟨block, inBlocks, List.mem_of_find?_eq_some inBlock⟩
  · simpa using List.find?_some inBlock

end Blocks

namespace Stmt

/-- The variable that a statement declares in its own block. -/
def binder : Stmt → List Binder
  | varDecl decl => [decl.binder]
  | _ => []

mutual

/-- Every use in the statement carries the number of the declaration that its name
means: a variable is not visible in its own initialiser, and the parameters of a
function are in a block around its body. -/
def BoundIn (blocks : Blocks) : Stmt → Prop
  | varDecl decl => ∀ value ∈ decl.value, ∀ use ∈ value.uses, blocks.Binds use
  | varAssign assign =>
      blocks.Binds (assign.name, assign.id) ∧
        ∀ use ∈ assign.value.uses, blocks.Binds use
  | block _ statements => BoundInAll ([] :: blocks) statements
  | ifStmt _ condition branchThen branchElse =>
      (∀ use ∈ condition.uses, blocks.Binds use) ∧ branchThen.BoundIn blocks ∧
        BoundInOption blocks branchElse
  | whileStmt _ condition branchDo =>
      (∀ use ∈ condition.uses, blocks.Binds use) ∧ branchDo.BoundIn blocks
  | funcDecl func body =>
      BoundInOption (func.parameters.map Parameter.binder :: blocks) body
  | returnStmt _ value => ∀ result ∈ value, ∀ use ∈ result.uses, blocks.Binds use
  | expression expr => ∀ use ∈ expr.uses, blocks.Binds use

/-- The same for a branch that may be missing. -/
def BoundInOption (blocks : Blocks) : Option Stmt → Prop
  | none => True
  | some stmt => stmt.BoundIn blocks

/-- The statements of a block, each below the declarations of those before it. -/
def BoundInAll (blocks : Blocks) : List Stmt → Prop
  | [] => True
  | stmt :: rest =>
      stmt.BoundIn blocks ∧ BoundInAll (blocks.declare stmt.binder) rest

end

mutual

/-- The variables and the parameters of definitions that a statement declares, in
their textual order. -/
def binders : Stmt → List Binder
  | varDecl decl => [decl.binder]
  | block _ statements => bindersAll statements
  | ifStmt _ _ branchThen branchElse => branchThen.binders ++ bindersOption branchElse
  | whileStmt _ _ branchDo => branchDo.binders
  | funcDecl func body =>
      (if body.isSome then func.parameters.map Parameter.binder else []) ++
        bindersOption body
  | _ => []

/-- The same for a branch or a body that may be missing. -/
def bindersOption : Option Stmt → List Binder
  | none => []
  | some stmt => stmt.binders

/-- The same for the statements of a block. -/
def bindersAll : List Stmt → List Binder
  | [] => []
  | stmt :: rest => stmt.binders ++ bindersAll rest

end

theorem boundInAll_toList (blocks : Blocks) (branch : Option Stmt) :
    BoundInAll blocks branch.toList ↔ BoundInOption blocks branch := by
  cases branch <;> simp [BoundInAll, BoundInOption]

theorem mem_bindersAll {binder : Binder} (statements : List Stmt) :
    binder ∈ bindersAll statements ↔ ∃ stmt ∈ statements, binder ∈ stmt.binders := by
  induction statements with
  | nil => simp [bindersAll]
  | cons stmt rest inductionHypothesis => simp [bindersAll, inductionHypothesis]

theorem bindersAll_append (first rest : List Stmt) :
    bindersAll (first ++ rest) = bindersAll first ++ bindersAll rest := by
  induction first with
  | nil => rfl
  | cons stmt others inductionHypothesis => simp [bindersAll, inductionHypothesis]

theorem bindersAll_toList (branch : Option Stmt) :
    bindersAll branch.toList = bindersOption branch := by
  cases branch <;> simp [bindersAll, bindersOption]

end Stmt

/-- The declarations of a program that the analyser inserts. -/
def Program.binders (program : Program) : List Binder :=
  Stmt.bindersAll program.statements

/-- The parameters of all functions of a program, those without a body included. -/
def Program.parameters (program : Program) : List Parameter :=
  program.declarations.flatMap fun declaration => declaration.1.parameters

/-- Every use in the program is bound lexically. -/
def Program.Bound (program : Program) : Prop :=
  Stmt.BoundInAll [[]] program.statements

/-! ## The tables of the analyser -/

namespace Scope

/-- The tables as blocks of declarations. -/
def blocks (scope : Scope) : Blocks :=
  scope.stack.map fun table => table.map VarSymbol.binder

@[simp]
theorem blocks_push (scope : Scope) : scope.push.blocks = [] :: scope.blocks := rfl

@[simp]
theorem blocks_pop (scope : Scope) : scope.pop.blocks = scope.blocks.drop 1 := by
  simp [blocks, pop]

@[simp]
theorem blocks_flowRestore (scope : Scope) (state : FlowState) :
    (scope.flowRestore state).blocks = scope.blocks :=
  map_restoreStack (fun _ _ => rfl) scope.stack state

@[simp]
theorem blocks_markInitialized (scope : Scope) (name : String) :
    (scope.markInitialized name).blocks = scope.blocks :=
  map_markStack (fun _ => rfl) name scope.stack

@[simp]
theorem nextId_push (scope : Scope) : scope.push.nextId = scope.nextId := rfl

@[simp]
theorem nextId_pop (scope : Scope) : scope.pop.nextId = scope.nextId := rfl

@[simp]
theorem nextId_flowRestore (scope : Scope) (state : FlowState) :
    (scope.flowRestore state).nextId = scope.nextId := rfl

theorem blocks_insert {scope : Scope} {symbol : VarSymbol} {filename : String}
    (nonempty : scope.stack ≠ [])
    (clean : Log.hadErrors (scope.insert symbol filename).2 = false) :
    (scope.insert symbol filename).1.blocks =
      scope.blocks.declare [{ symbol.binder with id := scope.nextId }] := by
  rcases insert_of_clean nonempty clean with ⟨table, outer, stack, inserted⟩
  rw [inserted]
  simp [blocks, stack, VarSymbol.binder]

/-- A lookup finds the declaration that the name means. -/
theorem resolve_blocks (scope : Scope) (name : String) :
    scope.blocks.resolve name = (scope.lookup name).map VarSymbol.binder := by
  unfold Blocks.resolve blocks lookup
  induction scope.stack with
  | nil => rfl
  | cons table outer inductionHypothesis =>
      have here : (table.map VarSymbol.binder).find? (fun binder => binder.name = name) =
          (lookupTable table name).map VarSymbol.binder := List.find?_map
      rw [List.map_cons, List.findSome?_cons, List.findSome?_cons, here]
      cases lookupTable table name with
      | none => exact inductionHypothesis
      | some symbol => rfl

theorem binds_of_lookup {scope : Scope} {name : String} {symbol : VarSymbol}
    (found : scope.lookup name = some symbol) : scope.blocks.Binds (name, symbol.id) :=
  ⟨symbol.binder, by rw [resolve_blocks, found, Option.map_some], rfl⟩

end Scope

theorem Semantic.Elaborated.bound {s : Semantic} {source node : Expr}
    (elaborated : s.Elaborated source node) :
    ∀ use ∈ node.uses, s.scope.blocks.Binds use := by
  intro use inUses
  rcases elaborated.typed.uses use inUses with ⟨symbol, found, id⟩
  have binds := Scope.binds_of_lookup found
  rwa [← id] at binds

theorem bound_of_rel {s : Semantic} {value node : Option Expr}
    (elaborated : Option.Rel s.Elaborated value node) :
    ∀ result ∈ node, ∀ use ∈ result.uses, s.scope.blocks.Binds use := by
  cases elaborated with
  | none => exact nofun
  | some result =>
      rintro node ⟨⟩
      exact result.bound

/-! ## Statements -/

/-- What the analysis of statements does to the blocks and to the numbers. -/
structure Binds (nodes : List Stmt) (before after : Scope) : Prop where
  bound : Stmt.BoundInAll before.blocks nodes
  blocks : after.blocks = before.blocks.declare (nodes.flatMap Stmt.binder)
  nextId : after.nextId = before.nextId + (Stmt.bindersAll nodes).length
  ids : (Stmt.bindersAll nodes).map Binder.id =
    List.range' before.nextId (Stmt.bindersAll nodes).length

namespace Binds

variable {before between after : Scope} {node : Stmt} {nodes : List Stmt}

theorem nil : Binds [] before before :=
  ⟨trivial, by simp, rfl, rfl⟩

/-- One statement and then the others, which see what it declares. -/
theorem cons (first : Binds [node] before between) (others : Binds nodes between after) :
    Binds (node :: nodes) before after := by
  rcases first with ⟨bound, blocks, nextId, ids⟩
  simp only [Stmt.BoundInAll, Stmt.bindersAll, List.flatMap_cons, List.flatMap_nil,
    List.append_nil, and_true] at bound blocks nextId ids
  constructor
  · exact ⟨bound, blocks ▸ others.bound⟩
  · rw [others.blocks, blocks, List.flatMap_cons, Blocks.declare_append]
  · rw [others.nextId, nextId, Stmt.bindersAll, List.length_append, Nat.add_assoc]
  · rw [Stmt.bindersAll, List.map_append, ids, others.ids, nextId, List.length_append,
      List.range'_append_1]

/-- A statement that declares nothing. -/
theorem elementary (own : node.binder = []) (inner : node.binders = [])
    (bound : node.BoundIn before.blocks) (blocks : after.blocks = before.blocks)
    (nextId : after.nextId = before.nextId) : Binds [node] before after := by
  constructor
  · exact ⟨bound, trivial⟩
  · simp [blocks, own]
  · simp [nextId, Stmt.bindersAll, inner]
  · simp [Stmt.bindersAll, inner]

/-- A branch, which declares nothing in the block around it. -/
theorem blocks_eq (binds : Binds nodes before after)
    (own : nodes.flatMap Stmt.binder = []) : after.blocks = before.blocks := by
  rw [binds.blocks, own, Blocks.declare_nil]

theorem block {base : Base} (inside : Binds nodes before.push after) :
    Binds [.block base nodes] before after.pop := by
  constructor
  · exact ⟨inside.bound, trivial⟩
  · simp [inside.blocks, Stmt.binder]
  · simpa [Stmt.bindersAll, Stmt.binders] using inside.nextId
  · simpa [Stmt.bindersAll, Stmt.binders] using inside.ids

theorem whileStmt {base : Base} {condition : Expr} {doNode : Stmt} {state : FlowState}
    (uses : ∀ use ∈ condition.uses, before.blocks.Binds use)
    (own : [doNode].flatMap Stmt.binder = []) (body : Binds [doNode] before after) :
    Binds [.whileStmt base condition doNode] before (after.flowRestore state) := by
  have blocks := body.blocks_eq own
  rcases body with ⟨bound, -, nextId, ids⟩
  constructor
  · exact ⟨⟨uses, bound.1⟩, trivial⟩
  · simp [blocks, Stmt.binder]
  · simpa [Stmt.bindersAll, Stmt.binders] using nextId
  · simpa [Stmt.bindersAll, Stmt.binders] using ids

theorem ifStmt {base : Base} {condition : Expr} {thenNode : Stmt} {elseNode : Option Stmt}
    {state later : FlowState} (uses : ∀ use ∈ condition.uses, before.blocks.Binds use)
    (thenOwn : [thenNode].flatMap Stmt.binder = [])
    (elseOwn : elseNode.toList.flatMap Stmt.binder = [])
    (first : Binds [thenNode] before between)
    (second : Binds elseNode.toList (between.flowRestore state) after) :
    Binds [.ifStmt base condition thenNode elseNode] before (after.flowRestore later) := by
  have thenBlocks := first.blocks_eq thenOwn
  have elseBlocks := second.blocks_eq elseOwn
  rcases first with ⟨thenBound, -, thenNext, thenIds⟩
  rcases second with ⟨elseBound, -, elseNext, elseIds⟩
  rw [Scope.blocks_flowRestore, thenBlocks] at elseBlocks elseBound
  rw [Stmt.boundInAll_toList] at elseBound
  simp only [Stmt.bindersAll, List.append_nil, Stmt.bindersAll_toList] at *
  constructor
  · exact ⟨⟨uses, thenBound.1, elseBound⟩, trivial⟩
  · simp [elseBlocks, Stmt.binder]
  · simp [elseNext, thenNext, Stmt.bindersAll, Stmt.binders, Nat.add_assoc]
  · simp [Stmt.bindersAll, Stmt.binders, thenIds, elseIds, thenNext, List.range'_append_1]

/-- A definition: the parameters are in a block around the body. -/
theorem definition {node : FuncDecl} {bodyNode : Stmt} {entered : Scope}
    (blocks : entered.blocks = node.parameters.map Parameter.binder :: before.blocks)
    (nextId : entered.nextId = before.nextId + node.parameters.length)
    (ids : node.parameters.map Parameter.id =
      List.range' before.nextId node.parameters.length)
    (own : [bodyNode].flatMap Stmt.binder = []) (body : Binds [bodyNode] entered after) :
    Binds [.funcDecl node (some bodyNode)] before after.pop := by
  have bodyBlocks := body.blocks_eq own
  rcases body with ⟨bound, -, bodyNext, bodyIds⟩
  rw [blocks] at bound bodyBlocks
  rw [nextId] at bodyNext bodyIds
  simp only [Stmt.bindersAll, List.append_nil] at bodyNext bodyIds
  constructor
  · exact ⟨bound.1, trivial⟩
  · simp [bodyBlocks, Stmt.binder]
  · simp [bodyNext, Stmt.bindersAll, Stmt.binders, Stmt.bindersOption, Nat.add_assoc]
  · have parameters : (node.parameters.map Parameter.binder).map Binder.id =
        node.parameters.map Parameter.id := by
      rw [List.map_map]
      rfl
    simp only [Stmt.bindersAll, Stmt.binders, Stmt.bindersOption, Option.isSome_some, if_true,
      List.append_nil, List.map_append, parameters, ids, bodyIds, List.length_append,
      List.length_map, List.range'_append_1]

end Binds

theorem stack_ne_nil_of_depth_eq {before after : Scope} (depth : after.depth = before.depth)
    (nonempty : before.stack ≠ []) : after.stack ≠ [] := by
  apply List.ne_nil_of_length_pos
  change 0 < after.depth
  rw [depth]
  exact List.length_pos_of_ne_nil nonempty

theorem insertParameters_binds (filename : String) (span : Span) {scope : Scope}
    {params : List Parameter} (nonempty : scope.stack ≠ [])
    (scalar : ∀ param ∈ params, param.type.IsScalar)
    (clean : Log.hadErrors (insertParameters filename span scope params).log = false) :
    (insertParameters filename span scope params).scope.blocks =
        scope.blocks.declare
          ((insertParameters filename span scope params).parameters.map Parameter.binder) ∧
      (insertParameters filename span scope params).scope.nextId =
        scope.nextId + params.length ∧
      (insertParameters filename span scope params).parameters.map Parameter.id =
        List.range' scope.nextId params.length := by
  induction params generalizing scope with
  | nil => exact ⟨(Blocks.declare_nil _).symm, rfl, rfl⟩
  | cons param rest inductionHypothesis =>
      rw [List.forall_mem_cons] at scalar
      unfold insertParameters at clean ⊢
      rw [if_neg scalar.1.ne_void] at clean ⊢
      simp only [Log.hadErrors_append, Bool.or_eq_false_iff] at clean
      dsimp only
      generalize symbolIs :
        ({ name := param.name
           type := param.type
           initialized := true
           span := span
           qualifiers := param.qualifiers } : VarSymbol) = symbol at *
      have name : symbol.name = param.name := by rw [← symbolIs]
      have binder : ({ symbol.binder with id := scope.nextId } : Binder) =
          Parameter.binder { param with id := scope.nextId } := by
        rw [← symbolIs]
        rfl
      rcases List.exists_mem_of_ne_nil _ nonempty with ⟨table, inStack⟩
      rcases Scope.lookup_insert clean.1 inStack with ⟨found, lookup, id⟩
      have kept := stack_ne_nil_of_depth_eq (Scope.depth_insert scope symbol filename) nonempty
      rcases inductionHypothesis kept scalar.2 clean.2 with ⟨blocks, nextId, ids⟩
      rw [name] at lookup
      rw [lookup, Option.map_some, Option.getD_some, id]
      constructor
      · rw [blocks, Scope.blocks_insert nonempty clean.1, binder, List.map_cons,
          ← Blocks.declare_append, List.singleton_append]
      · rw [nextId, Scope.nextId_insert nonempty clean.1]
        constructor
        · simp [Nat.add_comm, Nat.add_left_comm]
        · rw [List.map_cons, ids, Scope.nextId_insert nonempty clean.1, List.length_cons,
            List.range'_succ]

/-- The parameters of a definition are in a block of their own. -/
theorem blocks_enter {s : Semantic} {func : FuncDecl} (declares : s.Declares func true)
    (free : Log.hadErrors (s.enter func).log = false) :
    (s.enter func).scope.blocks =
      (s.enter func).parameters.map Parameter.binder :: s.scope.blocks := by
  have entered := (insertParameters_binds s.filename func.base.span
    (List.cons_ne_nil [] s.scope.stack : s.scope.push.stack ≠ []) declares.scalar free).1
  rwa [Scope.blocks_push, Blocks.declare_cons, List.nil_append] at entered

theorem length_insertParameters (filename : String) (span : Span) (scope : Scope)
    (params : List Parameter) :
    (insertParameters filename span scope params).parameters.length = params.length := by
  induction params generalizing scope with
  | nil => rfl
  | cons param rest inductionHypothesis =>
      unfold insertParameters
      split
      · simp [inductionHypothesis]
      · simp [inductionHypothesis]

namespace Elaborates

/-- The analysed statements declare in their block what their sources declare. -/
theorem blockNames {s after : Semantic} {statements nodes : List Stmt}
    (elaborates : Elaborates s statements nodes after) :
    (nodes.flatMap Stmt.binder).map Binder.name = statements.flatMap Stmt.blockName := by
  induction elaborates with
  | nil => rfl
  | _ => simpa [Stmt.binder, Stmt.blockName, VarDecl.binder]

theorem binder_eq_nil {s after : Semantic} {statements nodes : List Stmt}
    (elaborates : Elaborates s statements nodes after)
    (none : ∀ stmt ∈ statements, stmt.blockName = []) :
    nodes.flatMap Stmt.binder = [] := by
  have names := elaborates.blockNames
  rw [List.flatMap_eq_nil_iff.mpr none] at names
  exact List.map_eq_nil_iff.mp names

/-- The names of accepted statements are bound lexically, and their declarations take
the next numbers. -/
theorem binds {s after : Semantic} {statements nodes : List Stmt}
    (elaborates : Elaborates s statements nodes after)
    (grammatical : ∀ stmt ∈ statements, stmt.Grammatical) (nonempty : s.scope.stack ≠ []) :
    Binds nodes s.scope after.scope := by
  induction elaborates with
  | nil => exact .nil
  | @varDecl s after decl value rest nodes scalar initialiser widens free others
      inductionHypothesis =>
      rw [List.forall_mem_cons] at grammatical
      have inserted := stack_ne_nil_of_depth_eq
        (Scope.depth_insert s.scope decl.symbol s.filename) nonempty
      apply Binds.cons _ (inductionHypothesis grammatical.2 inserted)
      constructor
      · exact ⟨bound_of_rel initialiser, trivial⟩
      · exact Scope.blocks_insert nonempty free
      · exact Scope.nextId_insert nonempty free
      · rfl
  | varAssign found _ elaborated _ others inductionHypothesis =>
      rw [List.forall_mem_cons] at grammatical
      apply Binds.cons _ (inductionHypothesis grammatical.2 _)
      · exact .elementary rfl rfl ⟨Scope.binds_of_lookup found, elaborated.bound⟩
          (Scope.blocks_markInitialized _ _) rfl
      · exact stack_ne_nil_of_depth_eq (Scope.depth_markInitialized _ _) nonempty
  | block inside others insideHypothesis inductionHypothesis =>
      rw [List.forall_mem_cons] at grammatical
      have opened := insideHypothesis ((Stmt.grammaticalAll_iff _).mp grammatical.1)
        (List.cons_ne_nil _ _)
      apply opened.block.cons (inductionHypothesis grammatical.2 _)
      apply stack_ne_nil_of_depth_eq _ nonempty
      simp [inside.depth_eq]
  | ifStmt elaborated bool first second others firstHypothesis secondHypothesis
      inductionHypothesis =>
      rw [List.forall_mem_cons] at grammatical
      rcases grammatical.1 with ⟨-, ⟨thenBlock, thenGrammatical⟩, elseBranch, elseGrammatical⟩
      have thenOwn := first.binder_eq_nil (by simpa using Stmt.blockName_of_isBlock thenBlock)
      have elseOwn := second.binder_eq_nil fun stmt inBranch =>
        (elseBranch stmt (Option.mem_toList.mp inBranch)).elim Stmt.blockName_of_isBlock
          Stmt.blockName_of_isIf
      have thenBinds := firstHypothesis (by simpa using thenGrammatical) nonempty
      have elseBinds := secondHypothesis
        (by simpa using (Stmt.grammaticalOption_iff _).mp elseGrammatical)
        (stack_ne_nil_of_depth_eq (by simp [first.depth_eq]) nonempty)
      apply (Binds.ifStmt elaborated.bound thenOwn elseOwn thenBinds elseBinds).cons
        (inductionHypothesis grammatical.2 _)
      apply stack_ne_nil_of_depth_eq _ nonempty
      simp [second.depth_eq, first.depth_eq]
  | whileStmt elaborated bool body others bodyHypothesis inductionHypothesis =>
      rw [List.forall_mem_cons] at grammatical
      rcases grammatical.1 with ⟨-, doBlock, doGrammatical⟩
      have own := body.binder_eq_nil (by simpa using Stmt.blockName_of_isBlock doBlock)
      have inner := bodyHypothesis (by simpa using doGrammatical) nonempty
      apply (Binds.whileStmt elaborated.bound own inner).cons
        (inductionHypothesis grammatical.2 _)
      apply stack_ne_nil_of_depth_eq _ nonempty
      simp [body.depth_eq]
  | declaration declares others inductionHypothesis =>
      rw [List.forall_mem_cons] at grammatical
      apply Binds.cons _ (inductionHypothesis grammatical.2 nonempty)
      exact .elementary rfl rfl trivial rfl rfl
  | @definition s between after func body bodyNode rest nodes declares free inside returns
      others insideHypothesis inductionHypothesis =>
      rw [List.forall_mem_cons] at grammatical
      rcases grammatical.1 with ⟨-, -, bodyBlock, bodyGrammatical⟩
      have own := inside.binder_eq_nil
        (by simpa using Stmt.blockName_of_isBlock (bodyBlock _ rfl))
      have parameters : (s.enter func).parameters.length = func.parameters.length :=
        length_insertParameters _ _ _ _
      have open_ : s.scope.push.stack ≠ [] := List.cons_ne_nil _ _
      rcases insertParameters_binds s.filename func.base.span open_ declares.scalar free with
        ⟨-, nextId, ids⟩
      have body := insideHypothesis
        (by simpa [Stmt.GrammaticalOption] using bodyGrammatical)
        (stack_ne_nil_of_depth_eq (depth_insertParameters _ _ _ _) open_)
      have whole : Binds [.funcDecl
          { s.link func with parameters := (s.enter func).parameters } (some bodyNode)]
          s.scope between.scope.pop :=
        .definition (blocks_enter declares free) (by rw [parameters]; exact nextId)
          (by rw [parameters]; exact ids) own body
      apply whole.cons (inductionHypothesis grammatical.2 _)
      apply stack_ne_nil_of_depth_eq _ nonempty
      simp [inside.depth_eq, Semantic.enter, depth_insertParameters]
  | returnStmt inside elaborated nothing widens others inductionHypothesis =>
      rw [List.forall_mem_cons] at grammatical
      apply Binds.cons _ (inductionHypothesis grammatical.2 nonempty)
      exact .elementary rfl rfl (bound_of_rel elaborated) rfl rfl
  | expression elaborated others inductionHypothesis =>
      rw [List.forall_mem_cons] at grammatical
      apply Binds.cons _ (inductionHypothesis grammatical.2 nonempty)
      exact .elementary rfl rfl elaborated.bound rfl rfl

end Elaborates

theorem append_subset_append {α : Type} {first second more others : List α}
    (left : first ⊆ second) (right : more ⊆ others) : first ++ more ⊆ second ++ others :=
  List.append_subset.mpr ⟨List.Subset.trans left (List.subset_append_left _ _),
    List.Subset.trans right (List.subset_append_right _ _)⟩

/-- Behind statements nothing is visible but what was before them or is declared in
them. -/
theorem Binds.visible {nodes : List Stmt} {before after : Scope}
    (binds : Binds nodes before after) :
    after.blocks.flatten ⊆ before.blocks.flatten ++ Stmt.bindersAll nodes := by
  rw [binds.blocks]
  have own : nodes.flatMap Stmt.binder ⊆ Stmt.bindersAll nodes := by
    clear binds
    induction nodes with
    | nil => exact List.nil_subset _
    | cons node rest inductionHypothesis =>
        rw [List.flatMap_cons, Stmt.bindersAll]
        apply append_subset_append _ inductionHypothesis
        cases node <;> simp [Stmt.binder, Stmt.binders]
  intro binder isVisible
  cases blocks : before.blocks with
  | nil =>
      rw [blocks] at isVisible
      cases isVisible
  | cons block outer =>
      rw [blocks] at isVisible
      simp only [Blocks.declare_cons, List.flatten_cons, List.mem_append] at isVisible ⊢
      rcases isVisible with (inBlock | isOwn) | inOuter
      · exact Or.inl (Or.inl inBlock)
      · exact Or.inr (own isOwn)
      · exact Or.inl (Or.inr inOuter)

/-! ## Programs -/

/-- The statements of an analysed program are bound from an empty file on, and their
declarations are numbered from zero on. -/
theorem Analyzed.binds {program : Program} {filename : String} {options : CompilerOptions}
    {modules : List Module} {analysis : ProgramAnalysis}
    (isAnalyzed : Analyzed program filename options modules analysis) :
    ∃ after : Semantic, Binds analysis.program.statements (Scope.push {}) after.scope := by
  rcases isAnalyzed.elaborates with ⟨imports, after, -, -, -, elaborates⟩
  exact ⟨after, elaborates.binds
    (fun stmt inProgram => (isAnalyzed.parsed.grammatical stmt inProgram).1)
    (List.cons_ne_nil _ _)⟩

theorem Analyzed.map_id_binders {program : Program} {filename : String}
    {options : CompilerOptions} {modules : List Module} {analysis : ProgramAnalysis}
    (isAnalyzed : Analyzed program filename options modules analysis) :
    analysis.program.binders.map Binder.id = List.range analysis.program.binders.length := by
  rcases isAnalyzed.binds with ⟨after, binds⟩
  rw [List.range_eq_range']
  exact binds.ids

theorem Analyzed.nodup_ids {program : Program} {filename : String}
    {options : CompilerOptions} {modules : List Module} {analysis : ProgramAnalysis}
    (isAnalyzed : Analyzed program filename options modules analysis) :
    (analysis.program.binders.map Binder.id).Nodup := by
  rw [isAnalyzed.map_id_binders]
  exact List.nodup_range

theorem Analyzed.nodup_mangled {program : Program} {filename : String}
    {options : CompilerOptions} {modules : List Module} {analysis : ProgramAnalysis}
    (isAnalyzed : Analyzed program filename options modules analysis) :
    (analysis.program.binders.map Binder.mangled).Nodup := by
  have ids := isAnalyzed.nodup_ids
  unfold List.Nodup at ids ⊢
  rw [List.pairwise_map] at ids ⊢
  exact ids.imp fun differ same => differ (mangleVariable_injective same).2

/-- Every identifier and every assignment of an accepted program carries the number of
the declaration that its name means lexically, and no two of the variables and
parameters of definitions share a number or a name in the intermediate code. -/
theorem bound_of_analyzed {program : Program} {filename : String}
    {options : CompilerOptions} {modules : List Module} {analysis : ProgramAnalysis}
    (isAnalyzed : Analyzed program filename options modules analysis) :
    analysis.program.Bound ∧ (analysis.program.binders.map Binder.id).Nodup ∧
      (analysis.program.binders.map Binder.mangled).Nodup := by
  rcases isAnalyzed.binds with ⟨after, binds⟩
  constructor
  · exact binds.bound
  · exact And.intro isAnalyzed.nodup_ids isAnalyzed.nodup_mangled

/-- Two external functions, and a variable in the block of another of its name. -/
def shadowedSource : String :=
  "extern fn f(i32 a) void; extern fn g(i32 a) void; " ++
    "fn main() i32 { mut i32 x = 1; { i32 x = x + 1; f(x); } x = 3; return x; }"

theorem isSome_compileFrontend_shadowed :
    (compileFrontend shadowedSource "main.slfr" {}).isSome := by
  decide +kernel

/-- The analysis of that program. -/
def shadowedAnalysis : ProgramAnalysis :=
  (compileFrontend shadowedSource "main.slfr" {}).get isSome_compileFrontend_shadowed

/-- The program as it is parsed. -/
def shadowedProgram : Program :=
  ((parse (tokenize shadowedSource.toList "main.slfr").tokens "main.slfr").map
    fun parsed => parsed.program).getD {}

theorem analyzed_shadowed :
    Analyzed shadowedProgram "main.slfr" {} [] shadowedAnalysis := by
  rcases parsed_of_compileFrontend (Option.some_get isSome_compileFrontend_shadowed).symm
    with ⟨parsed, run, accepted⟩
  rw [shadowedProgram, run]
  exact accepted.isAnalyzed

theorem bound_of_analyzed_shadowed :
    shadowedAnalysis.program.Bound ∧
      (shadowedAnalysis.program.binders.map Binder.id).Nodup ∧
      (shadowedAnalysis.program.binders.map Binder.mangled).Nodup :=
  bound_of_analyzed analyzed_shadowed

/-- The parameters of functions without a body are never inserted: those of two such
functions have the same number and, with the same name, the same mangled name. -/
theorem prototype_parameters_clash :
    Analyzed shadowedProgram "main.slfr" {} [] shadowedAnalysis ∧
      shadowedAnalysis.program.parameters.map Parameter.id = [0, 0] ∧
      ¬(shadowedAnalysis.program.parameters.map fun param => param.binder.mangled).Nodup := by
  constructor
  · exact analyzed_shadowed
  · decide +kernel

end Sulfur
