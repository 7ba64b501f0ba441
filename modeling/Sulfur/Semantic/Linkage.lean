import Sulfur.Ir.Function
import Sulfur.Semantic.Elaboration

/-!
# Function tables

The function table gives a name the link name and the qualifiers of its first
declaration, and later declarations change nothing but the mark of a definition.
Every call of the file takes its link name from that entry.
-/

namespace Sulfur

/-! ## Insertions -/

/-- What no later declaration changes in an entry. -/
structure FuncSymbol.Keeps (entry later : FuncSymbol) : Prop where
  linkName : later.linkName = entry.linkName
  qualifiers : later.qualifiers = entry.qualifiers
  imported : later.imported = entry.imported
  defined : entry.defined → later.defined

namespace FuncSymbol.Keeps

theorem refl (entry : FuncSymbol) : entry.Keeps entry :=
  ⟨rfl, rfl, rfl, fun defined => defined⟩

theorem trans {entry later last : FuncSymbol} (first : entry.Keeps later)
    (second : later.Keeps last) : entry.Keeps last :=
  ⟨second.linkName.trans first.linkName, second.qualifiers.trans first.qualifiers,
    second.imported.trans first.imported, second.defined ∘ first.defined⟩

end FuncSymbol.Keeps

namespace FuncSymbolTable

theorem name_of_lookup {table : FuncSymbolTable} {name : String} {entry : FuncSymbol}
    (found : table.lookup name = some entry) : entry.name = name :=
  (mem_of_lookup_eq_some found).2

theorem lookup_markDefined (table : FuncSymbolTable) (name other : String) :
    (table.markDefined name).lookup other =
      (table.lookup other).map fun entry =>
        if other = name then { entry with defined := true } else entry := by
  unfold markDefined lookup
  dsimp only
  induction table.functions with
  | nil => rfl
  | cons first rest inductionHypothesis =>
      by_cases named : first.name = name
      · rw [List.findIdx?_cons, if_pos (by simpa using named)]
        by_cases isOther : first.name = other
        · have same : other = name := isOther.symm.trans named
          simp [isOther, same]
        · have different : other ≠ name := fun same => isOther (named.trans same.symm)
          simp [isOther, different]
      · rw [List.findIdx?_cons, if_neg (by simpa using named)]
        by_cases isOther : first.name = other
        · have different : other ≠ name := fun same => named (isOther.trans same)
          cases rest.findIdx? fun entry => entry.name = name <;> simp [isOther, different]
        · cases index : rest.findIdx? fun entry => entry.name = name <;>
          · rw [index] at inductionHypothesis
            simpa [List.find?_cons, isOther] using inductionHypothesis

/-- What an insertion that succeeds does: it adds an entry for a new name, and at
most marks the entry of a known one. -/
theorem insert_cases {table : FuncSymbolTable} {func : FuncSymbol} {filename : String}
    (ok : (table.insert func filename).ok) :
    (func.defined → func.qualifiers.isExtern = false) ∧
      ((table.lookup func.name = none ∧
          (table.insert func filename).table =
            { functions := table.functions ++ [{ func with id := table.nextId }]
              nextId := table.nextId + 1 }) ∨
        ∃ existing, table.lookup func.name = some existing ∧
          (func.defined → existing.defined = false) ∧
          (table.insert func filename).table =
            if func.defined then table.markDefined func.name else table) := by
  unfold insert at ok ⊢
  by_cases external : func.qualifiers.isExtern && func.defined
  · simp [external] at ok
  rw [if_neg external] at ok ⊢
  constructor
  · intro defined
    simpa [defined] using external
  cases found : table.lookup func.name with
  | none => exact Or.inl ⟨rfl, rfl⟩
  | some existing =>
      right
      rw [found] at ok
      dsimp only at ok ⊢
      by_cases signature : hasSameSignature func existing
      · simp only [signature, Bool.not_true, Bool.false_eq_true, if_false] at ok ⊢
        by_cases twice : func.defined && existing.defined
        · simp [twice] at ok
        · rw [if_neg twice]
          refine ⟨existing, rfl, fun defined => by simpa [defined] using twice, ?_⟩
          split <;> rfl
      · simp [signature] at ok

/-- An insertion leaves the entries of the other names alone. -/
theorem lookup_insert_of_ne {table : FuncSymbolTable} {func : FuncSymbol}
    {filename name : String} (ok : (table.insert func filename).ok)
    (other : name ≠ func.name) :
    (table.insert func filename).table.lookup name = table.lookup name := by
  rcases (insert_cases ok).2 with ⟨-, inserted⟩ | ⟨existing, -, -, inserted⟩
  · rw [inserted]
    simp [lookup, List.find?_append, Ne.symm other]
  · rw [inserted]
    split
    · rw [lookup_markDefined]
      simp [other]
    · rfl

/-- The entry of the inserted name. -/
theorem lookup_insert_self {table : FuncSymbolTable} {func : FuncSymbol}
    {filename : String} (ok : (table.insert func filename).ok) :
    ∃ entry, (table.insert func filename).table.lookup func.name = some entry ∧
      (((table.lookup func.name).getD func).Keeps entry) ∧
      (func.defined → entry.defined) := by
  rcases (insert_cases ok).2 with ⟨missing, inserted⟩ | ⟨existing, found, -, inserted⟩
  · refine ⟨{ func with id := table.nextId }, ?_, ?_, id⟩
    · rw [inserted]
      unfold lookup at missing ⊢
      rw [List.find?_append, missing]
      simp
    · rw [missing]
      exact ⟨rfl, rfl, rfl, id⟩
  · rw [inserted, found, Option.getD_some]
    by_cases defined : func.defined
    · rw [if_pos defined, lookup_markDefined, found]
      exact ⟨{ existing with defined := true }, by simp, ⟨rfl, rfl, rfl, fun _ => rfl⟩,
        fun _ => rfl⟩
    · rw [if_neg defined]
      exact ⟨existing, found, .refl existing, fun isDefined => absurd isDefined defined⟩

/-- The insertions of a list of symbols, all of which succeed. -/
inductive Inserts (filename : String) :
    FuncSymbolTable → List FuncSymbol → FuncSymbolTable → Prop
  | nil {table : FuncSymbolTable} : Inserts filename table [] table
  | cons {table after : FuncSymbolTable} {func : FuncSymbol} {rest : List FuncSymbol}
      (ok : (table.insert func filename).ok)
      (others : Inserts filename (table.insert func filename).table rest after) :
      Inserts filename table (func :: rest) after

namespace Inserts

variable {filename : String} {table between after : FuncSymbolTable}
  {first second : List FuncSymbol}

theorem append (inserts : Inserts filename table first between)
    (others : Inserts filename between second after) :
    Inserts filename table (first ++ second) after := by
  induction inserts with
  | nil => exact others
  | cons ok _ inductionHypothesis => exact .cons ok (inductionHypothesis others)

/-- An entry stays what it is. -/
theorem keeps (inserts : Inserts filename table first after) {name : String}
    {entry : FuncSymbol} (found : table.lookup name = some entry) :
    ∃ later, after.lookup name = some later ∧ entry.Keeps later := by
  induction inserts generalizing entry with
  | nil => exact ⟨entry, found, .refl entry⟩
  | @cons table after func rest ok _ inductionHypothesis =>
      by_cases same : name = func.name
      · subst same
        rcases lookup_insert_self ok with ⟨next, lookup, kept, -⟩
        rw [found, Option.getD_some] at kept
        rcases inductionHypothesis lookup with ⟨later, last, keepsLater⟩
        exact ⟨later, last, kept.trans keepsLater⟩
      · exact inductionHypothesis ((lookup_insert_of_ne ok same).trans found)

/-- Calls that link by a table link by the later one too. -/
theorem links (inserts : Inserts filename table first after)
    {calls : List (String × Option String)}
    (linked : ∀ call ∈ calls, ∃ entry, table.lookup call.1 = some entry ∧
      call.2 = some entry.linkName) :
    ∀ call ∈ calls, ∃ entry, after.lookup call.1 = some entry ∧
      call.2 = some entry.linkName := by
  intro call inCalls
  rcases linked call inCalls with ⟨entry, lookup, link⟩
  rcases inserts.keeps lookup with ⟨later, last, kept⟩
  exact ⟨later, last, by rw [link, kept.linkName]⟩

/-- The entry of a new name is that of its first declaration. -/
theorem first_declaration (inserts : Inserts filename table first after) {name : String}
    (missing : table.lookup name = none) {func : FuncSymbol}
    (declared : first.find? (fun func => func.name = name) = some func) :
    ∃ entry, after.lookup name = some entry ∧ func.Keeps entry := by
  induction inserts with
  | nil => cases declared
  | @cons table after head rest ok others inductionHypothesis =>
      by_cases named : head.name = name
      · subst named
        obtain rfl : head = func := by simpa using declared
        rcases lookup_insert_self ok with ⟨next, lookup, kept, -⟩
        rw [missing, Option.getD_none] at kept
        rcases others.keeps lookup with ⟨later, last, keepsLater⟩
        exact ⟨later, last, kept.trans keepsLater⟩
      · rw [List.find?_cons_of_neg (by simpa using named)] at declared
        exact inductionHypothesis
          ((lookup_insert_of_ne ok (Ne.symm named)).trans missing) declared

/-- A name with a definition is not defined again. -/
theorem not_defined (inserts : Inserts filename table first after) {name : String}
    {entry : FuncSymbol} (found : table.lookup name = some entry) (defined : entry.defined) :
    ∀ func ∈ first, func.name = name → func.defined = false := by
  induction inserts generalizing entry with
  | nil => exact nofun
  | @cons table after head rest ok others inductionHypothesis =>
      rw [List.forall_mem_cons]
      by_cases named : name = head.name
      · subst named
        constructor
        · intro _
          rcases (insert_cases ok).2 with ⟨missing, -⟩ | ⟨existing, lookup, once, -⟩
          · rw [missing] at found
            cases found
          · obtain rfl : existing = entry := Option.some.inj (lookup.symm.trans found)
            by_contra isDefined
            rw [once (by simpa using isDefined)] at defined
            cases defined
        · rcases lookup_insert_self ok with ⟨next, lookup, kept, -⟩
          rw [found, Option.getD_some] at kept
          exact inductionHypothesis lookup (kept.defined defined)
      · constructor
        · exact fun same => absurd same.symm named
        · exact inductionHypothesis ((lookup_insert_of_ne ok named).trans found) defined

/-- A definition is not external. -/
theorem not_extern (inserts : Inserts filename table first after) :
    ∀ func ∈ first, func.defined → func.qualifiers.isExtern = false := by
  induction inserts with
  | nil => exact nofun
  | cons ok _ inductionHypothesis =>
      exact List.forall_mem_cons.mpr ⟨(insert_cases ok).1, inductionHypothesis⟩

/-- A name that the table lists with definitions only is defined nowhere else. -/
theorem missing (inserts : Inserts filename table first after)
    (all : ∀ name entry, table.lookup name = some entry → entry.defined) {func : FuncSymbol}
    (inserted : func ∈ first) (defined : func.defined) : table.lookup func.name = none := by
  cases found : table.lookup func.name with
  | none => rfl
  | some entry =>
      have undefined := inserts.not_defined found (all _ _ found) func inserted rfl
      rw [undefined] at defined
      cases defined

/-- No name has two definitions. -/
theorem pairwise (inserts : Inserts filename table first after) :
    first.Pairwise fun func other => func.defined → other.defined → other.name ≠ func.name := by
  induction inserts with
  | nil => exact .nil
  | @cons table after head rest ok others inductionHypothesis =>
      apply List.Pairwise.cons _ inductionHypothesis
      intro other inRest defined otherDefined named
      rcases lookup_insert_self ok with ⟨entry, lookup, -, marked⟩
      have undefined := others.not_defined lookup (marked defined) other inRest named
      rw [undefined] at otherDefined
      cases otherDefined

end Inserts

end FuncSymbolTable

/-! ## Declarations in the order of the analysis -/

namespace Stmt

mutual

/-- The function declarations in a statement in the order in which they are
analysed, and whether they have a body. -/
def announced : Stmt → List (FuncDecl × Bool)
  | block _ statements => announcedAll statements
  | ifStmt _ _ branchThen branchElse =>
      branchThen.announced ++ announcedOption branchElse
  | whileStmt _ _ branchDo => branchDo.announced
  | funcDecl func body => (func, body.isSome) :: announcedOption body
  | _ => []

/-- The same for a branch or a body that may be missing. -/
def announcedOption : Option Stmt → List (FuncDecl × Bool)
  | none => []
  | some stmt => stmt.announced

/-- The same for the statements of a block. -/
def announcedAll : List Stmt → List (FuncDecl × Bool)
  | [] => []
  | stmt :: rest => stmt.announced ++ announcedAll rest

end

theorem announcedAll_toList (branch : Option Stmt) :
    announcedAll branch.toList = announcedOption branch := by
  cases branch <;> simp [announcedAll, announcedOption]

theorem mem_declarationsAll {declaration : FuncDecl × Option Stmt} (statements : List Stmt) :
    declaration ∈ declarationsAll statements ↔
      ∃ stmt ∈ statements, declaration ∈ stmt.declarations := by
  induction statements with
  | nil => simp [declarationsAll]
  | cons stmt rest inductionHypothesis => simp [declarationsAll, inductionHypothesis]

theorem announcedAll_perm {statements : List Stmt}
    (each : ∀ stmt ∈ statements,
      stmt.announced.Perm (stmt.declarations.map fun source => (source.1, source.2.isSome))) :
    (announcedAll statements).Perm
      ((declarationsAll statements).map fun source => (source.1, source.2.isSome)) := by
  induction statements with
  | nil => exact List.Perm.nil
  | cons stmt rest inductionHypothesis =>
      rw [List.forall_mem_cons] at each
      rw [announcedAll, declarationsAll, List.map_append]
      exact each.1.append (inductionHypothesis each.2)

/-- The analysis and the lowering meet the same declarations, each as often. -/
theorem announced_perm (stmt : Stmt) :
    stmt.announced.Perm (stmt.declarations.map fun source => (source.1, source.2.isSome)) := by
  induction stmt using Stmt.induction with
  | block base statements statementsHypothesis => exact announcedAll_perm statementsHypothesis
  | ifStmt base condition branchThen branchElse thenHypothesis elseHypothesis =>
      cases branchElse with
      | none =>
          rw [announced, announcedOption, declarations, declarationsOption, List.append_nil,
            List.append_nil]
          exact thenHypothesis
      | some stmt =>
          rw [announced, announcedOption, declarations, declarationsOption, List.map_append]
          exact thenHypothesis.append (elseHypothesis stmt rfl)
  | whileStmt base condition branchDo doHypothesis => exact doHypothesis
  | funcDecl declared body bodyHypothesis =>
      cases body with
      | none => exact List.Perm.refl _
      | some stmt =>
          -- The analysis enters a function before its body, the lowering after it.
          rw [announced, announcedOption, declarations, declarationsOption, List.map_append]
          exact ((bodyHypothesis stmt rfl).cons _).trans (List.perm_append_singleton _ _).symm
  | varDecl | varAssign | returnStmt | expression => exact List.Perm.nil

end Stmt

/-- The function declarations of a program, in the order of the source. -/
def Program.announced (program : Program) : List (FuncDecl × Bool) :=
  Stmt.announcedAll program.statements

theorem Program.announced_perm (program : Program) :
    program.announced.Perm
      (program.declarations.map fun source => (source.1, source.2.isSome)) :=
  Stmt.announced_perm (.block {} program.statements)

theorem Program.mem_announced_iff (program : Program) (func : FuncDecl) (defined : Bool) :
    (func, defined) ∈ program.announced ↔
      ∃ body, (func, body) ∈ program.declarations ∧ body.isSome = defined := by
  rw [program.announced_perm.mem_iff, List.mem_map]
  constructor
  · rintro ⟨⟨other, body⟩, declared, same⟩
    obtain ⟨rfl, rfl⟩ := Prod.mk.inj same
    exact ⟨body, declared, rfl⟩
  · rintro ⟨body, declared, rfl⟩
    exact ⟨(func, body), declared, rfl⟩

/-- The symbol that `analyze_func_decl` builds. -/
def announcedSymbol (modulePrefix : Option String) (header : FuncDecl × Bool) : FuncSymbol :=
  { name := header.1.name
    linkName := mangleFunction modulePrefix header.1.name header.1.qualifiers.isExtern
    returnType := header.1.returnType
    parameters := header.1.parameters
    defined := header.2
    span := header.1.base.span
    qualifiers := header.1.qualifiers }

/-! ## Calls -/

namespace Expr

mutual

/-- The callees of the calls in an expression, with the link names. -/
def calls : Expr → List (String × Option String)
  | binary _ _ left right => left.calls ++ right.calls
  | unary _ _ operand => operand.calls
  | cast _ _ operand => operand.calls
  | literal .. => []
  | identifier .. => []
  | funcCall _ callee linkName arguments => (callee.name, linkName) :: callsAll arguments

/-- The same for the arguments of a call. -/
def callsAll : List Expr → List (String × Option String)
  | [] => []
  | argument :: rest => argument.calls ++ callsAll rest

end

theorem mem_callsAll {call : String × Option String} (arguments : List Expr) :
    call ∈ callsAll arguments ↔ ∃ argument ∈ arguments, call ∈ argument.calls := by
  induction arguments with
  | nil => simp [callsAll]
  | cons argument rest inductionHypothesis => simp [callsAll, inductionHypothesis]

/-- A call takes its link name from the table. -/
theorem Typed.calls {s : Semantic} {expr : Expr} (typed : expr.Typed s) :
    ∀ call ∈ expr.calls, ∃ entry, s.funcs.lookup call.1 = some entry ∧
      call.2 = some entry.linkName := by
  intro call inCalls
  induction expr using Expr.induction with
  | binary base op left right leftHypothesis rightHypothesis =>
      rcases List.mem_append.mp inCalls with inLeft | inRight
      · exact leftHypothesis typed.1 inLeft
      · exact rightHypothesis typed.2.1 inRight
  | unary base op operand operandHypothesis => exact operandHypothesis typed.1 inCalls
  | cast base target operand operandHypothesis => exact operandHypothesis typed.1 inCalls
  | literal base tokenType value => cases inCalls
  | identifier base name depth id symbol => cases inCalls
  | funcCall base callee linkName arguments argumentsHypothesis =>
      rcases typed with ⟨func, lookup, -, link, argumentsTyped⟩
      rcases List.mem_cons.mp inCalls with rfl | inArguments
      · exact ⟨func, lookup, link⟩
      · rcases (mem_callsAll arguments).mp inArguments with ⟨argument, isArgument, inArgument⟩
        exact argumentsHypothesis argument isArgument
          (argumentsTyped.typed argument isArgument) inArgument

/-- The analysis keeps the callees. -/
theorem Annotated.callees {source node : Expr} (annotated : source.Annotated node) :
    node.calls.map Prod.fst = source.calls.map Prod.fst := by
  induction node using Expr.induction generalizing source with
  | binary base op left right leftHypothesis rightHypothesis =>
      cases annotated with
      | binary first second => simp [calls, leftHypothesis first, rightHypothesis second]
  | unary base op operand operandHypothesis =>
      cases annotated with
      | unary inner => simpa [calls] using operandHypothesis inner
  | cast base target operand operandHypothesis =>
      cases annotated with
      | cast inner => simpa [calls] using operandHypothesis inner
      | widened inner _ => simpa [calls] using operandHypothesis inner
  | literal base tokenType value =>
      cases annotated
      rfl
  | identifier base name depth id symbol =>
      cases annotated
      rfl
  | funcCall base callee linkName arguments argumentsHypothesis =>
      cases annotated with
      | funcCall inner =>
          simp only [calls, List.map_cons, List.cons.injEq, true_and]
          induction inner with
          | nil => rfl
          | cons first _ inductionHypothesis =>
              rw [List.forall_mem_cons] at argumentsHypothesis
              simp [callsAll, argumentsHypothesis.1 first,
                inductionHypothesis argumentsHypothesis.2]

end Expr

namespace Stmt

mutual

/-- The calls in a statement, those in nested functions included. -/
def calls : Stmt → List (String × Option String)
  | varDecl decl =>
      match decl.value with
      | none => []
      | some value => value.calls
  | varAssign assign => assign.value.calls
  | block _ statements => callsAll statements
  | ifStmt _ condition branchThen branchElse =>
      condition.calls ++ branchThen.calls ++ callsOption branchElse
  | whileStmt _ condition branchDo => condition.calls ++ branchDo.calls
  | funcDecl _ body => callsOption body
  | returnStmt _ value =>
      match value with
      | none => []
      | some value => value.calls
  | expression expr => expr.calls

/-- The same for a branch that may be missing. -/
def callsOption : Option Stmt → List (String × Option String)
  | none => []
  | some stmt => stmt.calls

/-- The same for the statements of a block. -/
def callsAll : List Stmt → List (String × Option String)
  | [] => []
  | stmt :: rest => stmt.calls ++ callsAll rest

end

theorem callsAll_toList (branch : Option Stmt) :
    callsAll branch.toList = callsOption branch := by
  cases branch <;> simp [callsAll, callsOption]

end Stmt

/-- The callees of the calls in a program, with the link names. -/
def Program.calls (program : Program) : List (String × Option String) :=
  Stmt.callsAll program.statements

/-! ## Elaborated statements -/

/-- A declaration and what the analyser makes of it. -/
structure Linked (modulePrefix : Option String) (source node : FuncDecl × Option Stmt) :
    Prop where
  name : node.1.name = source.1.name
  qualifiers : node.1.qualifiers = source.1.qualifiers
  linkName : node.1.linkName =
    some (mangleFunction modulePrefix source.1.name source.1.qualifiers.isExtern)
  body : node.2.isSome = source.2.isSome
  returns : node.1.returnType ≠ .void → ∀ body ∈ node.2, stmtAlwaysReturns body

/-- What accepted statements do to the function table and take from it. -/
structure Links (filename : String) (modulePrefix : Option String)
    (statements nodes : List Stmt) (before after : FuncSymbolTable) : Prop where
  inserts : FuncSymbolTable.Inserts filename before
    ((Stmt.announcedAll statements).map (announcedSymbol modulePrefix)) after
  calls : ∀ call ∈ Stmt.callsAll nodes, ∃ entry, after.lookup call.1 = some entry ∧
    call.2 = some entry.linkName
  callees : (Stmt.callsAll nodes).map Prod.fst = (Stmt.callsAll statements).map Prod.fst
  declarations : List.Forall₂ (Linked modulePrefix) (Stmt.declarationsAll statements)
    (Stmt.declarationsAll nodes)

namespace Links

variable {filename : String} {modulePrefix : Option String}
  {before between after : FuncSymbolTable}

theorem cons {stmt node : Stmt} {rest nodes : List Stmt}
    (first : Links filename modulePrefix [stmt] [node] before between)
    (others : Links filename modulePrefix rest nodes between after) :
    Links filename modulePrefix (stmt :: rest) (node :: nodes) before after := by
  rcases first with ⟨inserts, calls, callees, declarations⟩
  simp only [Stmt.announcedAll, Stmt.callsAll, Stmt.declarationsAll, List.append_nil] at *
  constructor
  · simpa [Stmt.announcedAll] using inserts.append others.inserts
  · rw [Stmt.callsAll, List.forall_mem_append]
    exact ⟨others.inserts.links calls, others.calls⟩
  · simp [Stmt.callsAll, callees, others.callees]
  · exact List.rel_append declarations others.declarations

/-- A statement that declares no function. -/
theorem elementary {stmt node : Stmt} (announced : stmt.announced = [])
    (source : stmt.declarations = []) (analysed : node.declarations = [])
    (calls : ∀ call ∈ node.calls, ∃ entry, before.lookup call.1 = some entry ∧
      call.2 = some entry.linkName)
    (callees : node.calls.map Prod.fst = stmt.calls.map Prod.fst) :
    Links filename modulePrefix [stmt] [node] before before := by
  constructor
  · simpa [Stmt.announcedAll, announced] using .nil
  · simpa [Stmt.callsAll] using calls
  · simpa [Stmt.callsAll] using callees
  · simp [Stmt.declarationsAll, source, analysed]

theorem block {base : Base} {statements inner : List Stmt}
    (inside : Links filename modulePrefix statements inner before after) :
    Links filename modulePrefix [.block base statements] [.block base inner] before after := by
  constructor
  · simpa [Stmt.announcedAll, Stmt.announced] using inside.inserts
  · simpa [Stmt.callsAll, Stmt.calls] using inside.calls
  · simpa [Stmt.callsAll, Stmt.calls] using inside.callees
  · simpa [Stmt.declarationsAll, Stmt.declarations] using inside.declarations

theorem whileStmt {base : Base} {condition node : Expr} {branchDo doNode : Stmt}
    (calls : ∀ call ∈ node.calls, ∃ entry, before.lookup call.1 = some entry ∧
      call.2 = some entry.linkName)
    (callees : node.calls.map Prod.fst = condition.calls.map Prod.fst)
    (body : Links filename modulePrefix [branchDo] [doNode] before after) :
    Links filename modulePrefix [.whileStmt base condition branchDo]
      [.whileStmt base node doNode] before after := by
  rcases body with ⟨inserts, bodyCalls, bodyCallees, declarations⟩
  simp only [Stmt.announcedAll, Stmt.callsAll, Stmt.declarationsAll, List.append_nil] at *
  constructor
  · simpa [Stmt.announcedAll, Stmt.announced] using inserts
  · simp only [Stmt.callsAll, Stmt.calls, List.append_nil, List.forall_mem_append]
    exact ⟨inserts.links calls, bodyCalls⟩
  · simp [Stmt.callsAll, Stmt.calls, callees, bodyCallees]
  · simpa [Stmt.declarationsAll, Stmt.declarations] using declarations

theorem ifStmt {base : Base} {condition node : Expr} {branchThen thenNode : Stmt}
    {branchElse elseNode : Option Stmt}
    (calls : ∀ call ∈ node.calls, ∃ entry, before.lookup call.1 = some entry ∧
      call.2 = some entry.linkName)
    (callees : node.calls.map Prod.fst = condition.calls.map Prod.fst)
    (first : Links filename modulePrefix [branchThen] [thenNode] before between)
    (second : Links filename modulePrefix branchElse.toList elseNode.toList between after) :
    Links filename modulePrefix [.ifStmt base condition branchThen branchElse]
      [.ifStmt base node thenNode elseNode] before after := by
  rcases first with ⟨inserts, thenCalls, thenCallees, declarations⟩
  rcases second with ⟨elseInserts, elseCalls, elseCallees, elseDeclarations⟩
  simp only [Stmt.announcedAll, Stmt.callsAll, Stmt.declarationsAll, List.append_nil,
    Stmt.announcedAll_toList, Stmt.callsAll_toList, Stmt.declarationsAll_toList] at *
  constructor
  · simpa [Stmt.announcedAll, Stmt.announced] using inserts.append elseInserts
  · simp only [Stmt.callsAll, Stmt.calls, List.append_nil, List.forall_mem_append]
    exact ⟨⟨elseInserts.links (inserts.links calls), elseInserts.links thenCalls⟩, elseCalls⟩
  · simp [Stmt.callsAll, Stmt.calls, callees, thenCallees, elseCallees]
  · simpa [Stmt.declarationsAll, Stmt.declarations] using
      List.rel_append declarations elseDeclarations

end Links

/-- The calls of an elaborated expression that may be missing. -/
theorem calls_of_rel {s : Semantic} {value node : Option Expr}
    (elaborated : Option.Rel s.Elaborated value node) :
    ∀ result ∈ node, ∀ call ∈ result.calls, ∃ entry, s.funcs.lookup call.1 = some entry ∧
      call.2 = some entry.linkName := by
  cases elaborated with
  | none => exact nofun
  | some isElaborated =>
      rintro result ⟨⟩
      exact isElaborated.typed.calls

theorem callees_of_rel {s : Semantic} {value node : Option Expr} :
    Option.Rel s.Elaborated value node →
      (match node with
        | none => []
        | some result => result.calls).map Prod.fst =
      (match value with
        | none => []
        | some source => source.calls).map Prod.fst := by
  intro elaborated
  cases elaborated with
  | none => rfl
  | some isElaborated => exact isElaborated.annotated.callees

namespace Elaborates

variable {s after : Semantic} {statements nodes : List Stmt}

theorem same_module (elaborates : Elaborates s statements nodes after) :
    after.filename = s.filename ∧ after.modulePrefix = s.modulePrefix := by
  induction elaborates with
  | nil => exact ⟨rfl, rfl⟩
  | varDecl _ _ _ _ _ inductionHypothesis => exact inductionHypothesis
  | varAssign _ _ _ _ _ inductionHypothesis => exact inductionHypothesis
  | block _ _ insideHypothesis inductionHypothesis =>
      exact ⟨inductionHypothesis.1.trans insideHypothesis.1,
        inductionHypothesis.2.trans insideHypothesis.2⟩
  | ifStmt _ _ _ _ _ firstHypothesis secondHypothesis inductionHypothesis =>
      exact ⟨inductionHypothesis.1.trans (secondHypothesis.1.trans firstHypothesis.1),
        inductionHypothesis.2.trans (secondHypothesis.2.trans firstHypothesis.2)⟩
  | whileStmt _ _ _ _ bodyHypothesis inductionHypothesis =>
      exact ⟨inductionHypothesis.1.trans bodyHypothesis.1,
        inductionHypothesis.2.trans bodyHypothesis.2⟩
  | declaration _ _ inductionHypothesis => exact inductionHypothesis
  | definition _ _ _ _ _ insideHypothesis inductionHypothesis =>
      exact ⟨inductionHypothesis.1.trans insideHypothesis.1,
        inductionHypothesis.2.trans insideHypothesis.2⟩
  | returnStmt _ _ _ _ _ inductionHypothesis => exact inductionHypothesis
  | expression _ _ inductionHypothesis => exact inductionHypothesis

/-- The declarations are inserted in their order, and the calls link by the table
that they leave. -/
theorem links (elaborates : Elaborates s statements nodes after) :
    Links s.filename s.modulePrefix statements nodes s.funcs after.funcs := by
  induction elaborates with
  | nil => exact ⟨.nil, by simp [Stmt.callsAll], rfl, .nil⟩
  | varDecl _ initialiser _ _ _ inductionHypothesis =>
      apply (Links.elementary rfl rfl rfl _ _).cons inductionHypothesis
      · intro call inCalls
        simp only [Stmt.calls] at inCalls
        split at inCalls
        · cases inCalls
        · exact calls_of_rel initialiser _ rfl call inCalls
      · exact callees_of_rel initialiser
  | varAssign _ _ elaborated _ _ inductionHypothesis =>
      apply (Links.elementary rfl rfl rfl _ _).cons inductionHypothesis
      · exact elaborated.typed.calls
      · exact elaborated.annotated.callees
  | block inside _ insideHypothesis inductionHypothesis =>
      rcases inside.same_module with ⟨filename, modulePrefix⟩
      rw [filename, modulePrefix] at inductionHypothesis
      exact (Links.block insideHypothesis).cons inductionHypothesis
  | ifStmt elaborated _ first second _ firstHypothesis secondHypothesis inductionHypothesis =>
      rcases first.same_module with ⟨firstFilename, firstPrefix⟩
      rcases second.same_module with ⟨secondFilename, secondPrefix⟩
      rw [secondFilename, secondPrefix, firstFilename, firstPrefix] at inductionHypothesis
      rw [firstFilename, firstPrefix] at secondHypothesis
      exact (Links.ifStmt elaborated.typed.calls elaborated.annotated.callees firstHypothesis
        secondHypothesis).cons inductionHypothesis
  | whileStmt elaborated _ body _ bodyHypothesis inductionHypothesis =>
      rcases body.same_module with ⟨filename, modulePrefix⟩
      rw [filename, modulePrefix] at inductionHypothesis
      exact (Links.whileStmt elaborated.typed.calls elaborated.annotated.callees
        bodyHypothesis).cons inductionHypothesis
  | declaration declares _ inductionHypothesis =>
      apply Links.cons _ inductionHypothesis
      constructor
      · exact .cons declares.inserted .nil
      · exact nofun
      · rfl
      · exact .cons ⟨rfl, rfl, rfl, rfl, fun _ => nofun⟩ .nil
  | @definition s between after func body bodyNode _ _ declares _ inside returns _
      insideHypothesis inductionHypothesis =>
      rcases inside.same_module with ⟨filename, modulePrefix⟩
      rw [filename, modulePrefix] at inductionHypothesis
      apply Links.cons _ inductionHypothesis
      rcases insideHypothesis with ⟨inserts, calls, callees, declarations⟩
      simp only [Stmt.announcedAll, Stmt.callsAll, Stmt.declarationsAll, List.append_nil] at *
      constructor
      · rw [Stmt.announcedAll, Stmt.announcedAll, List.append_nil]
        exact .cons declares.inserted inserts
      · simpa [Stmt.callsAll, Stmt.calls, Stmt.callsOption] using calls
      · simpa [Stmt.callsAll, Stmt.calls, Stmt.callsOption] using callees
      · have own : Linked s.modulePrefix (func, some body)
            ({ s.link func with parameters := (s.enter func).parameters }, some bodyNode) :=
          ⟨rfl, rfl, rfl, rfl, fun value _ isBody => Option.some.inj isBody ▸ returns value⟩
        simpa [Stmt.declarationsAll, Stmt.declarations, Stmt.declarationsOption] using
          List.rel_append declarations (.cons own .nil)
  | returnStmt _ elaborated _ _ _ inductionHypothesis =>
      apply (Links.elementary rfl rfl rfl _ _).cons inductionHypothesis
      · intro call inCalls
        simp only [Stmt.calls] at inCalls
        split at inCalls
        · cases inCalls
        · exact calls_of_rel elaborated _ rfl call inCalls
      · exact callees_of_rel elaborated
  | expression elaborated _ inductionHypothesis =>
      apply (Links.elementary rfl rfl rfl _ _).cons inductionHypothesis
      · exact elaborated.typed.calls
      · exact elaborated.annotated.callees

/-- No declaration is both external and public. -/
theorem notBoth (elaborates : Elaborates s statements nodes after) :
    ∀ header ∈ Stmt.announcedAll statements,
      (header.1.qualifiers.isExtern && header.1.qualifiers.isPublic) = false := by
  induction elaborates with
  | nil => simp [Stmt.announcedAll]
  | varDecl _ _ _ _ _ inductionHypothesis =>
      simpa only [Stmt.announcedAll, Stmt.announced, List.nil_append] using inductionHypothesis
  | varAssign _ _ _ _ _ inductionHypothesis =>
      simpa only [Stmt.announcedAll, Stmt.announced, List.nil_append] using inductionHypothesis
  | block _ _ insideHypothesis inductionHypothesis =>
      simp only [Stmt.announcedAll, Stmt.announced, List.forall_mem_append]
      exact ⟨insideHypothesis, inductionHypothesis⟩
  | ifStmt _ _ _ _ _ firstHypothesis secondHypothesis inductionHypothesis =>
      simp only [Stmt.announcedAll, List.append_nil, Stmt.announcedAll_toList] at *
      simp only [Stmt.announced, List.forall_mem_append]
      exact ⟨⟨firstHypothesis, secondHypothesis⟩, inductionHypothesis⟩
  | whileStmt _ _ _ _ bodyHypothesis inductionHypothesis =>
      simp only [Stmt.announcedAll, List.append_nil] at *
      simp only [Stmt.announced, List.forall_mem_append]
      exact ⟨bodyHypothesis, inductionHypothesis⟩
  | declaration declares _ inductionHypothesis =>
      simp only [Stmt.announcedAll, Stmt.announced, Stmt.announcedOption, List.cons_append,
        List.nil_append, List.forall_mem_cons]
      exact ⟨declares.notBoth, inductionHypothesis⟩
  | definition declares _ _ _ _ insideHypothesis inductionHypothesis =>
      simp only [Stmt.announcedAll, Stmt.announced, Stmt.announcedOption, List.append_nil,
        List.cons_append, List.forall_mem_cons, List.forall_mem_append] at *
      exact ⟨declares.notBoth, insideHypothesis, inductionHypothesis⟩
  | returnStmt _ _ _ _ _ inductionHypothesis =>
      simpa only [Stmt.announcedAll, Stmt.announced, List.nil_append] using inductionHypothesis
  | expression _ _ inductionHypothesis =>
      simpa only [Stmt.announcedAll, Stmt.announced, List.nil_append] using inductionHypothesis

end Elaborates

/-! ## Imported symbols -/

namespace FuncSymbolTable

/-- Every name of the table has a definition. -/
def AllDefined (table : FuncSymbolTable) : Prop :=
  ∀ name entry, table.lookup name = some entry → entry.defined

/-- An insertion that fails changes nothing. -/
theorem insert_of_not_ok {table : FuncSymbolTable} {func : FuncSymbol} {filename : String}
    (failed : (table.insert func filename).ok = false) :
    (table.insert func filename).table = table := by
  revert failed
  unfold insert
  split
  · exact fun _ => rfl
  · split
    · dsimp only
      split
      · exact fun _ => rfl
      · split
        · exact fun _ => rfl
        · split <;> exact nofun
    · exact nofun

theorem AllDefined.insert {table : FuncSymbolTable} (all : table.AllDefined)
    {func : FuncSymbol} (defined : func.defined) (filename : String) :
    (table.insert func filename).table.AllDefined := by
  intro name entry found
  cases ok : (table.insert func filename).ok with
  | false =>
      rw [insert_of_not_ok ok] at found
      exact all name entry found
  | true =>
      by_cases same : name = func.name
      · subst same
        rcases lookup_insert_self ok with ⟨next, lookup, -, marked⟩
        rw [lookup] at found
        obtain rfl := Option.some.inj found
        exact marked defined
      · rw [lookup_insert_of_ne ok same] at found
        exact all name entry found

/-- The names of the entries are different. -/
def Distinct (table : FuncSymbolTable) : Prop :=
  (table.functions.map FuncSymbol.name).Nodup

/-- A mark changes no other field. -/
theorem map_markDefined {α : Type} (field : FuncSymbol → α)
    (unmarked : ∀ entry, field { entry with defined := true } = field entry)
    (table : FuncSymbolTable) (name : String) :
    (table.markDefined name).functions.map field = table.functions.map field := by
  unfold markDefined
  dsimp only
  split
  · rfl
  · apply List.ext_getElem?
    intro index
    rw [List.getElem?_map, List.getElem?_modify, List.getElem?_map]
    cases table.functions[index]? with
    | none => rfl
    | some entry =>
        simp only [Option.map_some]
        split
        · exact congrArg some (unmarked entry)
        · rfl

theorem map_name_markDefined (table : FuncSymbolTable) (name : String) :
    (table.markDefined name).functions.map FuncSymbol.name =
      table.functions.map FuncSymbol.name :=
  map_markDefined FuncSymbol.name (fun _ => rfl) table name

theorem Distinct.insert {table : FuncSymbolTable} (distinct : table.Distinct)
    (func : FuncSymbol) (filename : String) :
    (table.insert func filename).table.Distinct := by
  cases ok : (table.insert func filename).ok with
  | false => rwa [insert_of_not_ok ok]
  | true =>
      rcases (insert_cases ok).2 with ⟨missing, inserted⟩ | ⟨existing, -, -, inserted⟩
      · have absent : func.name ∉ table.functions.map FuncSymbol.name := by
          intro inTable
          rcases List.mem_map.mp inTable with ⟨entry, isEntry, named⟩
          have different := List.find?_eq_none.mp missing entry isEntry
          simp [named] at different
        rw [inserted]
        simpa [Distinct, List.nodup_append] using
          ⟨distinct, fun entry isEntry named =>
            absent (List.mem_map.mpr ⟨entry, isEntry, named⟩)⟩
      · rw [inserted]
        by_cases defined : func.defined
        · rwa [if_pos defined, Distinct, map_name_markDefined]
        · rwa [if_neg defined]

/-- The entry of a name is the one that a lookup finds. -/
theorem Distinct.lookup_iff {table : FuncSymbolTable} (distinct : table.Distinct)
    (entry : FuncSymbol) :
    table.lookup entry.name = some entry ↔ entry ∈ table.functions := by
  constructor
  · exact fun found => (mem_of_lookup_eq_some found).1
  · intro inTable
    cases found : table.lookup entry.name with
    | none =>
        have different := List.find?_eq_none.mp found entry inTable
        simp at different
    | some first =>
        have same := List.inj_on_of_nodup_map distinct (mem_of_lookup_eq_some found).1 inTable
          (name_of_lookup found)
        rw [same]

theorem Inserts.distinct {filename : String} {table after : FuncSymbolTable}
    {symbols : List FuncSymbol} (inserts : Inserts filename table symbols after)
    (distinct : table.Distinct) : after.Distinct := by
  induction inserts with
  | nil => exact distinct
  | cons ok others inductionHypothesis => exact inductionHypothesis (distinct.insert _ _)

/-- A law of tables that insertions of defined symbols keep. -/
def KeptByImports (law : FuncSymbolTable → Prop) : Prop :=
  ∀ table func filename, law table → func.defined → law (table.insert func filename).table

end FuncSymbolTable

section Imports

variable {law : FuncSymbolTable → Prop} (kept : FuncSymbolTable.KeptByImports law)

include kept

theorem importPublicSymbols_kept (filename : String) {funcs : FuncSymbolTable}
    (before : law funcs) (symbols : List FuncSymbol) :
    law (importPublicSymbols filename funcs symbols).1 := by
  induction symbols generalizing funcs with
  | nil => exact before
  | cons src rest inductionHypothesis =>
      unfold importPublicSymbols
      split
      · exact inductionHypothesis before
      · apply inductionHypothesis
        apply kept _ _ _ before
        rfl

/-- The imports of a program only insert definitions. -/
theorem analyzeImports_kept {analyzeProgram : ProgramAnalyzer} {filename : String}
    {imports : List Import} {funcs : FuncSymbolTable} (before : law funcs)
    {modules : List Module} {result : ImportAnalysis}
    (run : analyzeImports analyzeProgram filename imports funcs modules = some result) :
    law result.funcs := by
  induction imports generalizing funcs modules result with
  | nil =>
      obtain rfl := Option.some.inj run
      exact before
  | cons imp rest inductionHypothesis =>
      unfold analyzeImports at run
      split at run
      · rcases Option.bind_eq_some_iff.mp run with ⟨others, rest, run⟩
        obtain rfl := Option.some.inj run
        apply inductionHypothesis before rest
      · rcases Option.bind_eq_some_iff.mp run with ⟨moduleResult, -, run⟩
        split at run
        · rcases Option.bind_eq_some_iff.mp run with ⟨others, rest, run⟩
          obtain rfl := Option.some.inj run
          apply inductionHypothesis before rest
        · rcases Option.bind_eq_some_iff.mp run with ⟨dep, -, run⟩
          rcases Option.bind_eq_some_iff.mp run with ⟨others, rest, run⟩
          obtain rfl := Option.some.inj run
          apply inductionHypothesis (importPublicSymbols_kept kept filename before _) rest

end Imports

/-- `import_public_symbols` passes on the symbols that are public and the module's
own. -/
def FuncSymbol.isExported (symbol : FuncSymbol) : Bool :=
  symbol.qualifiers.isPublic && !symbol.imported

theorem importPublicSymbols_filter (filename : String) (funcs : FuncSymbolTable)
    (symbols : List FuncSymbol) :
    importPublicSymbols filename funcs symbols =
      importPublicSymbols filename funcs (symbols.filter FuncSymbol.isExported) := by
  induction symbols generalizing funcs with
  | nil => rfl
  | cons src rest inductionHypothesis =>
      cases exported : src.isExported with
      | true =>
          have passed : (!src.qualifiers.isPublic || src.imported) = false := by
            simpa [FuncSymbol.isExported, or_comm] using exported
          rw [List.filter_cons_of_pos exported, importPublicSymbols, importPublicSymbols,
            if_neg (by simp [passed]), if_neg (by simp [passed])]
          simp only [inductionHypothesis]
      | false =>
          have skipped : (!src.qualifiers.isPublic || src.imported) = true := by
            cases isPublic : src.qualifiers.isPublic <;>
              simp_all [FuncSymbol.isExported]
          rw [List.filter_cons_of_neg (by simp [exported]), importPublicSymbols, if_pos skipped]
          exact inductionHypothesis funcs

/-! ## Programs -/

/-- The prefix of the link names of a file, if it is compiled as a module. -/
def CompilerOptions.modulePrefix (options : CompilerOptions) (filename : String) :
    Option String :=
  (options.moduleName filename).map mangleModulePrefix

theorem Accepted.notBoth {program : Program} {filename : String} {options : CompilerOptions}
    {modules : List Module} {analysis : ProgramAnalysis}
    (accepted : Accepted program filename options modules analysis) :
    ∀ header ∈ program.announced,
      (header.1.qualifiers.isExtern && header.1.qualifiers.isPublic) = false := by
  rcases accepted.elaborates with ⟨imports, after, -, -, -, elaborates⟩
  exact elaborates.notBoth

/-- The table of an accepted program, its calls and its declarations. -/
theorem Accepted.links {program : Program} {filename : String} {options : CompilerOptions}
    {modules : List Module} {analysis : ProgramAnalysis}
    (accepted : Accepted program filename options modules analysis) :
    ∃ imported : FuncSymbolTable, imported.AllDefined ∧ imported.Distinct ∧
      Links filename (options.modulePrefix filename) program.statements
        analysis.program.statements imported analysis.funcs := by
  rcases accepted.elaborates with ⟨imports, after, run, -, funcs, elaborates⟩
  have defined : imports.funcs.AllDefined :=
    analyzeImports_kept (fun _ _ filename all isDefined => all.insert isDefined filename)
      nofun run
  have distinct : imports.funcs.Distinct :=
    analyzeImports_kept (fun _ func filename distinct _ => distinct.insert func filename)
      .nil run
  refine ⟨imports.funcs, defined, distinct, ?_⟩
  rw [← funcs]
  exact elaborates.links

end Sulfur
