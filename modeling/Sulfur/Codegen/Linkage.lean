import Sulfur.Codegen.Emit
import Sulfur.Ir.Closed
import Sulfur.Semantic.Linkage

/-!
# Link names

The label and the visibility of a function in the assembly come from the
declaration with its body, those in the function table from its first
declaration.
-/

namespace Sulfur.Codegen

open Ir

/-! ## Emitted definitions -/

theorem anyAlwaysReturns_operations {statements : List Stmt}
    (each : ∀ stmt ∈ statements, ∀ nextTemp program, stmtAlwaysReturns stmt →
      (generateStatement stmt nextTemp program).operations ≠ [])
    (returns : stmtAlwaysReturns.anyAlwaysReturns statements) (nextTemp : Nat)
    (program : IrProgram) : (generateBlock statements nextTemp program).operations ≠ [] := by
  induction statements generalizing nextTemp program with
  | nil => cases returns
  | cons stmt rest inductionHypothesis =>
      rw [List.forall_mem_cons] at each
      simp only [stmtAlwaysReturns.anyAlwaysReturns, Bool.or_eq_true] at returns
      simp only [generateBlock, ne_eq, List.append_eq_nil_iff, not_and]
      intro empty
      rcases returns with first | others
      · exact absurd empty (each.1 nextTemp program first)
      · exact inductionHypothesis each.2 others _ _

/-- A statement that returns has code. -/
theorem alwaysReturns_operations (stmt : Stmt) (nextTemp : Nat) (program : IrProgram)
    (returns : stmtAlwaysReturns stmt) :
    (generateStatement stmt nextTemp program).operations ≠ [] := by
  induction stmt using Stmt.induction generalizing nextTemp program with
  | block base statements statementsHypothesis =>
      exact anyAlwaysReturns_operations statementsHypothesis returns nextTemp program
  | ifStmt base condition branchThen branchElse _ _ =>
      cases branchElse <;> simp [generateStatement]
  | returnStmt base value =>
      cases value <;> simp [generateStatement, generateReturn]
  | varDecl | varAssign | whileStmt | funcDecl | expression => cases returns

/-- What the declaration of a source becomes in the generated program. -/
structure Emits (modulePrefix : Option String) (source : FuncDecl × Option Stmt)
    (function : IrFunction) : Prop where
  name : function.name =
    mangleFunction modulePrefix source.1.name source.1.qualifiers.isExtern
  qualifiers : function.qualifiers = source.1.qualifiers
  defined : function.defined = source.2.isSome
  operations : source.2.isSome → function.operations ≠ []

theorem Emits.of_lowers {modulePrefix : Option String}
    {source declaration : FuncDecl × Option Stmt} {function : IrFunction}
    (linked : Linked modulePrefix source declaration)
    (lowers : Lowers declaration function) : Emits modulePrefix source function := by
  rcases lowers with ⟨program, rfl⟩
  constructor
  · simp [loweredFunction, linked.linkName]
  · exact linked.qualifiers
  · simp [loweredFunction, linked.body]
  · intro hasBody
    rw [← linked.body, Option.isSome_iff_exists] at hasBody
    rcases hasBody with ⟨body, isBody⟩
    simp only [isBody, Option.map_some, loweredFunction]
    by_cases returnType : declaration.1.returnType = .void
    · split
      · simp
      · rename_i ends
        intro empty
        simp [returnType, empty, endsWithReturn] at ends
    · rw [if_neg (fun both => returnType both.1)]
      apply alwaysReturns_operations
      exact linked.returns returnType body isBody

/-! ## Visibility -/

/-- The assembly declares the label `global`. -/
def DeclaresGlobal (program : IrProgram) (isRoot : Bool) (label : String) : Prop :=
  (isRoot ∧ label = "_start") ∨
    ∃ func ∈ program.functions, emitFuncLinkage func = "global " ++ label ++ "\n"

instance (program : IrProgram) (isRoot : Bool) (label : String) :
    Decidable (DeclaresGlobal program isRoot label) := by
  unfold DeclaresGlobal
  infer_instance

theorem emitFuncLinkage_eq_iff (func : IrFunction) (label : String) :
    emitFuncLinkage func = "global " ++ label ++ "\n" ↔
      func.defined ∧ func.qualifiers.isPublic ∧ func.name = label := by
  unfold emitFuncLinkage
  by_cases declared : func.defined ∧ func.qualifiers.isPublic
  · rw [if_pos declared]
    simp [declared, ← String.toList_inj]
  · rw [if_neg declared]
    constructor
    · intro empty
      simp [← String.toList_inj] at empty
    · rintro ⟨defined, isPublic, -⟩
      exact absurd ⟨defined, isPublic⟩ declared

/-- Importers take the name over from the table. -/
def Exports (funcs : FuncSymbolTable) (name : String) : Prop :=
  ∃ symbol ∈ funcs.functions, symbol.name = name ∧ symbol.isExported

instance (funcs : FuncSymbolTable) (name : String) : Decidable (Exports funcs name) := by
  unfold Exports
  infer_instance

/-- The entry of a function and its emitted definition agree. -/
structure LinkageAgrees (options : CompilerOptions) (analysis : ProgramAnalysis)
    (name : String) (function : IrFunction) : Prop where
  emitted : isEmitted function
  calls : ∀ call ∈ analysis.program.calls, call.1 = name → call.2 = some function.name
  importers : ∀ symbol ∈ analysis.funcs.functions, symbol.name = name →
    symbol.isExported → symbol.linkName = function.name
  exports : Exports analysis.funcs name ↔
    DeclaresGlobal (irGenerate analysis.program).program (!options.isModule) function.name

instance (options : CompilerOptions) (analysis : ProgramAnalysis) (name : String)
    (function : IrFunction) : Decidable (LinkageAgrees options analysis name function) :=
  decidable_of_iff
    (isEmitted function ∧
      (∀ call ∈ analysis.program.calls, call.1 = name → call.2 = some function.name) ∧
      (∀ symbol ∈ analysis.funcs.functions, symbol.name = name →
        symbol.isExported → symbol.linkName = function.name) ∧
      (Exports analysis.funcs name ↔
        DeclaresGlobal (irGenerate analysis.program).program (!options.isModule) function.name))
    ⟨fun ⟨emitted, calls, importers, exports⟩ => ⟨emitted, calls, importers, exports⟩,
      fun ⟨emitted, calls, importers, exports⟩ => ⟨emitted, calls, importers, exports⟩⟩

/-- The first declaration of the name, in the order of the file, is external only where
that does not change the name of a call, and public exactly when the function is
`global`. -/
def FirstDeclarationAgrees (options : CompilerOptions) (filename : String)
    (program : Program) (func : FuncDecl) : Prop :=
  ∀ header ∈ program.announced.find? (fun header => header.1.name = func.name),
    (header.1.qualifiers.isExtern →
      options.modulePrefix filename = none ∨ ∀ call ∈ program.calls, call.1 ≠ func.name) ∧
    header.1.qualifiers.isPublic =
      (func.qualifiers.isPublic || (!options.isModule && func.name = "_start"))

/-! ## Definitions and the function table -/

section Definitions

variable {program : Program} {filename : String} {options : CompilerOptions}
  {modules : List Module} {analysis : ProgramAnalysis}

theorem emits_of_accepted (accepted : Accepted program filename options modules analysis) :
    List.Forall₂ (Emits (options.modulePrefix filename)) program.declarations
      (irGenerate analysis.program).program.functions := by
  rcases accepted.links with ⟨imported, -, -, links⟩
  have compose {sources declarations : List (FuncDecl × Option Stmt)}
      {functions : List IrFunction}
      (linked : List.Forall₂ (Linked (options.modulePrefix filename)) sources declarations)
      (lowers : List.Forall₂ Lowers declarations functions) :
      List.Forall₂ (Emits (options.modulePrefix filename)) sources functions := by
    induction linked generalizing functions with
    | nil =>
        cases lowers
        exact .nil
    | cons first _ inductionHypothesis =>
        cases lowers with
        | cons lowered others =>
            exact .cons (.of_lowers first lowered) (inductionHypothesis others)
  exact compose links.declarations (irGenerate_lowers analysis.program)

theorem exists_source {α β : Type} {related : α → β → Prop} {sources : List α}
    {functions : List β} (all : List.Forall₂ related sources functions) :
    ∀ function ∈ functions, ∃ source ∈ sources, related source function := by
  induction all with
  | nil => exact nofun
  | cons first _ inductionHypothesis =>
      rintro function inFunctions
      rcases List.mem_cons.mp inFunctions with rfl | inRest
      · exact ⟨_, List.mem_cons_self .., first⟩
      · rcases inductionHypothesis function inRest with ⟨source, inSources, isRelated⟩
        exact ⟨source, List.mem_cons_of_mem _ inSources, isRelated⟩

/-- A law of the functions that each has when its source has a law. -/
theorem forall₂_iff_of_emits {modulePrefix : Option String}
    {sources : List (FuncDecl × Option Stmt)} {functions : List IrFunction}
    {law : FuncDecl × Option Stmt → IrFunction → Prop} {sourceLaw : FuncDecl × Option Stmt → Prop}
    (emits : List.Forall₂ (Emits modulePrefix) sources functions)
    (each : ∀ source ∈ sources, ∀ function ∈ functions, Emits modulePrefix source function →
      (law source function ↔ sourceLaw source)) :
    List.Forall₂ law sources functions ↔ ∀ source ∈ sources, sourceLaw source := by
  induction emits with
  | nil => simp
  | cons first _ inductionHypothesis =>
      rw [List.forall₂_cons, List.forall_mem_cons,
        each _ (List.mem_cons_self ..) _ (List.mem_cons_self ..) first, inductionHypothesis]
      intro source inSources function inFunctions
      exact each source (List.mem_cons_of_mem _ inSources) function
        (List.mem_cons_of_mem _ inFunctions)

variable {func : FuncDecl} {body : Stmt}

theorem announced_of_declared (declared : (func, some body) ∈ program.declarations) :
    (func, true) ∈ program.announced :=
  (program.mem_announced_iff func true).mpr ⟨some body, declared, rfl⟩

variable (accepted : Accepted program filename options modules analysis)
  (declared : (func, some body) ∈ program.declarations)

include accepted declared

/-- The entry of a function with a body is that of the first declaration in the file. -/
theorem entry_of_definition :
    ∃ header entry,
      program.announced.find? (fun header => header.1.name = func.name) = some header ∧
        analysis.funcs.lookup func.name = some entry ∧
        (announcedSymbol (options.modulePrefix filename) header).Keeps entry := by
  rcases accepted.links with ⟨imported, all, -, links⟩
  have announced := announced_of_declared declared
  have missing : imported.lookup func.name = none :=
    links.inserts.missing all (List.mem_map_of_mem announced) rfl
  cases found : program.announced.find? (fun header => header.1.name = func.name) with
  | none =>
      have different := List.find?_eq_none.mp found _ announced
      simp at different
  | some header =>
      have first : ((Stmt.announcedAll program.statements).map
          (announcedSymbol (options.modulePrefix filename))).find?
            (fun symbol => symbol.name = func.name) =
          some (announcedSymbol (options.modulePrefix filename) header) := by
        rw [List.find?_map]
        exact congrArg (Option.map _) found
      rcases links.inserts.first_declaration missing first with ⟨entry, lookup, keeps⟩
      exact ⟨header, entry, rfl, lookup, keeps⟩

/-- A function with a body is not external. -/
theorem not_extern_of_definition : func.qualifiers.isExtern = false := by
  rcases accepted.links with ⟨imported, -, -, links⟩
  exact links.inserts.not_extern _
    (List.mem_map_of_mem (announced_of_declared declared)) rfl

/-- Two functions with bodies have the same qualifiers if they have the same name. -/
theorem qualifiers_of_same_name {other : FuncDecl} {otherBody : Stmt}
    (otherDeclared : (other, some otherBody) ∈ program.declarations)
    (same : other.name = func.name) : other.qualifiers = func.qualifiers := by
  rcases accepted.links with ⟨imported, -, -, links⟩
  let symbol (func : FuncDecl) : FuncSymbol :=
    announcedSymbol (options.modulePrefix filename) (func, true)
  by_cases equal : symbol other = symbol func
  · exact congrArg FuncSymbol.qualifiers equal
  · have symmetric : Std.Symm fun first second : FuncSymbol =>
        first.defined → second.defined → second.name ≠ first.name :=
      ⟨fun _ _ apart firstDefined secondDefined => (apart secondDefined firstDefined).symm⟩
    have different := links.inserts.pairwise.forall
      (List.mem_map_of_mem (announced_of_declared otherDeclared))
      (List.mem_map_of_mem (announced_of_declared declared)) equal rfl rfl
    exact absurd same.symm different

/-- The label of a function with a body is `global` when the function is public, or when
it is the entry point of a root. -/
theorem declaresGlobal_iff {function : IrFunction}
    (inFunctions : function ∈ (irGenerate analysis.program).program.functions)
    (emits : Emits (options.modulePrefix filename) (func, some body) function) :
    DeclaresGlobal (irGenerate analysis.program).program (!options.isModule) function.name ↔
      (func.qualifiers.isPublic || (!options.isModule && func.name = "_start")) := by
  have external := not_extern_of_definition accepted declared
  have rootName (root : options.isModule = false) : function.name = func.name := by
    rw [emits.name]
    simp [CompilerOptions.modulePrefix, CompilerOptions.moduleName, root, mangleFunction]
  simp only [DeclaresGlobal, emitFuncLinkage_eq_iff]
  constructor
  · rintro (⟨root, start⟩ | ⟨other, isOther, defined, isPublic, named⟩)
    · rw [rootName (by simpa using root)] at start
      simp [start, root]
    · rcases exists_source (emits_of_accepted accepted) other isOther with
        ⟨⟨source, sourceBody⟩, inSources, otherEmits⟩
      rw [otherEmits.defined, Option.isSome_iff_exists] at defined
      rcases defined with ⟨sourceBody, rfl⟩
      have names := (otherEmits.name.symm.trans named).trans emits.name
      rw [not_extern_of_definition accepted inSources, external] at names
      have same := qualifiers_of_same_name accepted declared inSources
        (mangleFunction_injective names)
      rw [otherEmits.qualifiers, same] at isPublic
      simp [isPublic]
  · intro visible
    rcases Bool.or_eq_true_iff.mp visible with isPublic | start
    · right
      exact ⟨function, inFunctions, emits.defined, by rw [emits.qualifiers]; exact isPublic,
        rfl⟩
    · left
      simp only [Bool.and_eq_true, Bool.not_eq_true', decide_eq_true_eq] at start
      exact ⟨by simp [start.1], (rootName start.1).trans start.2⟩

theorem linkageAgrees_function_iff {function : IrFunction}
    (inFunctions : function ∈ (irGenerate analysis.program).program.functions)
    (emits : Emits (options.modulePrefix filename) (func, some body) function) :
    LinkageAgrees options analysis func.name function ↔
      FirstDeclarationAgrees options filename program func := by
  have external := not_extern_of_definition accepted declared
  have globals := declaresGlobal_iff accepted declared inFunctions emits
  rcases entry_of_definition accepted declared with ⟨header, entry, first, lookup, keeps⟩
  rcases accepted.links with ⟨imported, -, distinct, links⟩
  have named : header.1.name = func.name := by simpa using List.find?_some first
  have label : function.name = mangleFunction (options.modulePrefix filename) func.name false := by
    rw [emits.name, external]
  have linkName : entry.linkName = mangleFunction (options.modulePrefix filename) func.name
      header.1.qualifiers.isExtern := by
    rw [keeps.linkName, announcedSymbol, named]
  have inTable := (FuncSymbolTable.mem_of_lookup_eq_some lookup).1
  have unique (symbol : FuncSymbol) (isSymbol : symbol ∈ analysis.funcs.functions)
      (same : symbol.name = func.name) : symbol = entry := by
    have found := ((links.inserts.distinct distinct).lookup_iff symbol).mpr isSymbol
    rw [same, lookup] at found
    exact (Option.some.inj found).symm
  have exported : Exports analysis.funcs func.name ↔ header.1.qualifiers.isPublic := by
    have isExported : entry.isExported = header.1.qualifiers.isPublic := by
      simp [FuncSymbol.isExported, keeps.qualifiers, keeps.imported, announcedSymbol]
    rw [← isExported]
    constructor
    · rintro ⟨symbol, isSymbol, same, exported⟩
      rwa [← unique symbol isSymbol same]
    · exact fun exported => ⟨entry, inTable, FuncSymbolTable.name_of_lookup lookup, exported⟩
  -- A call of the source is a call of the analysed program with the link name of the entry.
  have called : (∃ call ∈ program.calls, call.1 = func.name) ↔
      ∃ call ∈ analysis.program.calls, call.1 = func.name := by
    have callees : func.name ∈ program.calls.map Prod.fst ↔
        func.name ∈ analysis.program.calls.map Prod.fst := by
      rw [Program.calls, Program.calls, links.callees]
    simpa only [List.mem_map] using callees
  have link (call : String × Option String) (inCalls : call ∈ analysis.program.calls)
      (same : call.1 = func.name) : call.2 = some entry.linkName := by
    rcases links.calls call inCalls with ⟨symbol, found, linked⟩
    rw [same, lookup] at found
    rw [linked, Option.some.inj found]
  constructor
  · intro agrees next isFirst
    obtain rfl : header = next := Option.some.inj (first.symm.trans isFirst)
    constructor
    · intro isExtern
      by_cases isCalled : ∃ call ∈ program.calls, call.1 = func.name
      · rcases called.mp isCalled with ⟨call, inCalls, same⟩
        have names := (link call inCalls same).symm.trans (agrees.calls call inCalls same)
        rw [linkName, label, isExtern] at names
        exact Or.inl (mangleFunction_keepName_iff.mp (Option.some.inj names))
      · exact Or.inr (fun call inCalls same => isCalled ⟨call, inCalls, same⟩)
    · rw [Bool.eq_iff_iff, ← exported, ← globals]
      exact agrees.exports
  · intro agrees
    rcases agrees header first with ⟨whenExtern, isPublic⟩
    constructor
    · simp [isEmitted, emits.qualifiers, external, emits.operations rfl]
    · intro call inCalls same
      rw [link call inCalls same, linkName, label]
      cases isExtern : header.1.qualifiers.isExtern with
      | false => rfl
      | true =>
          rcases whenExtern isExtern with noPrefix | notCalled
          · rw [mangleFunction_keepName_iff.mpr noPrefix]
          · rcases called.mpr ⟨call, inCalls, same⟩ with ⟨sourceCall, inSource, sameSource⟩
            exact absurd sameSource (notCalled sourceCall inSource)
    · intro symbol isSymbol same isExported
      have visible := exported.mp ⟨symbol, isSymbol, same, isExported⟩
      have notBoth := accepted.notBoth header (List.mem_of_find?_eq_some first)
      rw [visible, Bool.and_true] at notBoth
      rw [unique symbol isSymbol same, linkName, label, notBoth]
    · rw [exported, globals, isPublic]

end Definitions

/-- The calls, the importers and the visibility of every function with a body agree with
its emitted definition exactly when its first declaration does. -/
theorem linkageAgrees_iff {program : Program} {filename : String}
    {options : CompilerOptions} {modules : List Module} {analysis : ProgramAnalysis}
    (accepted : Accepted program filename options modules analysis) :
    List.Forall₂
        (fun declaration function => declaration.2.isSome →
          LinkageAgrees options analysis declaration.1.name function)
        program.declarations (irGenerate analysis.program).program.functions ↔
      ∀ declaration ∈ program.declarations, declaration.2.isSome →
        FirstDeclarationAgrees options filename program declaration.1 := by
  apply forall₂_iff_of_emits (emits_of_accepted accepted)
  rintro ⟨func, body⟩ inSources function inFunctions emits
  cases body with
  | none => simp
  | some body =>
      simp only [Option.isSome_some, true_imp_iff]
      exact linkageAgrees_function_iff accepted inSources inFunctions emits

/-- A module that declares a function external before it defines it. -/
def redeclaredSource : String :=
  "extern fn f() i32; pub fn f() i32 { return 1; } fn g() i32 { return f(); }"

/-- The options of a module that is found below `m`. -/
def redeclaredOptions : CompilerOptions :=
  { isModule := true
    modulePaths := ["m"] }

theorem isSome_compileFrontend_redeclared :
    (compileFrontend redeclaredSource "m/a.slfr" redeclaredOptions).isSome := by
  decide

/-- The analysis of that program. -/
def redeclaredAnalysis : ProgramAnalysis :=
  (compileFrontend redeclaredSource "m/a.slfr" redeclaredOptions).get
    isSome_compileFrontend_redeclared

/-- The program as it is parsed. -/
def redeclaredProgram : Program :=
  ((parse (tokenize redeclaredSource.toList "m/a.slfr").tokens "m/a.slfr").map
    fun parsed => parsed.program).getD {}

theorem accepted_redeclared :
    Accepted redeclaredProgram "m/a.slfr" redeclaredOptions [] redeclaredAnalysis := by
  rcases parsed_of_compileFrontend (Option.some_get isSome_compileFrontend_redeclared).symm
    with ⟨parsed, run, accepted⟩
  rwa [redeclaredProgram, run]

/-- The call of `f` links to the name `f`, and the label of `f` is global while
importers do not see `f`. -/
theorem linkageAgrees_redeclared_differs :
    Accepted redeclaredProgram "m/a.slfr" redeclaredOptions [] redeclaredAnalysis ∧
      ¬List.Forall₂
        (fun declaration function => declaration.2.isSome →
          LinkageAgrees redeclaredOptions redeclaredAnalysis declaration.1.name function)
        redeclaredProgram.declarations
        (irGenerate redeclaredAnalysis.program).program.functions := by
  constructor
  · exact accepted_redeclared
  · decide

theorem linkageAgrees_iff_redeclared :
    List.Forall₂
        (fun declaration function => declaration.2.isSome →
          LinkageAgrees redeclaredOptions redeclaredAnalysis declaration.1.name function)
        redeclaredProgram.declarations
        (irGenerate redeclaredAnalysis.program).program.functions ↔
      ∀ declaration ∈ redeclaredProgram.declarations, declaration.2.isSome →
        FirstDeclarationAgrees redeclaredOptions "m/a.slfr" redeclaredProgram declaration.1 :=
  linkageAgrees_iff accepted_redeclared

end Sulfur.Codegen
