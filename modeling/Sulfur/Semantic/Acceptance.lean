import Sulfur.Frontend.Lexer
import Sulfur.Frontend.Parser.Grammar

/-!
# Accepted programs as a whole

A program is accepted when the parser made it of some tokens, the modules it
imports likewise, and the analysis of all of them logs no error.  The statements
that the analyser returns are then typed.
-/

namespace Sulfur

/-- The statements are those that the parser made of a token list without
logging an error; resolving the imports changes the imports only. -/
def Program.FromParser (program : Program) (filename : String) : Prop :=
  ∃ tokens parsed, parse tokens filename = some parsed ∧
    Log.hadErrors parsed.log = false ∧
    program.statements = parsed.program.statements

theorem Program.FromParser.grammatical {program : Program} {filename : String}
    (fromParser : program.FromParser filename) : program.Grammatical := by
  obtain ⟨tokens, parsed, run, -, statements⟩ := fromParser
  unfold Program.Grammatical
  rw [statements]
  exact parse_grammatical run

/-- A module as the resolution of the imports leaves it. -/
structure Module.FromParser (mod : Module) : Prop where
  ast : ∀ program ∈ mod.ast, program.FromParser mod.filename
  analysis : mod.analysis = .pending
  funcs : mod.funcs = {}

/-- A program that parser and analyser accept without logging an error. -/
structure Accepted (program : Program) (filename : String)
    (options : CompilerOptions) (modules : List Module)
    (analysis : ProgramAnalysis) : Prop where
  fromParser : program.FromParser filename
  modulesFromParser : ∀ mod ∈ modules, mod.FromParser
  analyzed : analyze program filename options modules = some analysis
  noErrors : Log.hadErrors analysis.log = false

/-- A tree that the parser builds, whatever it logs. -/
def Program.Parsed (program : Program) (filename : String) : Prop :=
  ∃ tokens parsed, parse tokens filename = some parsed ∧
    program.statements = parsed.program.statements

theorem Program.Parsed.grammatical {program : Program} {filename : String}
    (isParsed : program.Parsed filename) : program.Grammatical := by
  rcases isParsed with ⟨tokens, parsed, run, statements⟩
  unfold Program.Grammatical
  rw [statements]
  exact parse_grammatical run

/-- A module with a tree of the parser, before its analysis. -/
structure Module.Parsed (mod : Module) : Prop where
  ast : ∀ program ∈ mod.ast, program.Parsed mod.filename
  analysis : mod.analysis = .pending
  funcs : mod.funcs = {}

/-- A tree of the parser that the analyser accepts without logging an error. -/
structure Analyzed (program : Program) (filename : String)
    (options : CompilerOptions) (modules : List Module)
    (analysis : ProgramAnalysis) : Prop where
  parsed : program.Parsed filename
  modulesParsed : ∀ mod ∈ modules, mod.Parsed
  analyzed : analyze program filename options modules = some analysis
  noErrors : Log.hadErrors analysis.log = false

theorem Accepted.isAnalyzed {program : Program} {filename : String}
    {options : CompilerOptions} {modules : List Module} {analysis : ProgramAnalysis}
    (accepted : Accepted program filename options modules analysis) :
    Analyzed program filename options modules analysis := by
  constructor
  · rcases accepted.fromParser with ⟨tokens, parsed, run, -, statements⟩
    exact ⟨tokens, parsed, run, statements⟩
  · intro mod inModules
    rcases accepted.modulesFromParser mod inModules with ⟨ast, analysis, funcs⟩
    constructor
    · intro program tree
      rcases ast program tree with ⟨tokens, parsed, run, -, statements⟩
      exact ⟨tokens, parsed, run, statements⟩
    · exact analysis
    · exact funcs
  · exact accepted.analyzed
  · exact accepted.noErrors

/-- The front end of `compilation_run` on a preprocessed source without imports:
every stage starts when the one before it has logged no error. -/
def compileFrontend (source filename : String) (options : CompilerOptions) :
    Option ProgramAnalysis :=
  let tokenized := tokenize source.toList filename
  if Log.hadErrors tokenized.log then
    none
  else do
    let parsed ← parse tokenized.tokens filename
    if Log.hadErrors parsed.log then
      none
    else do
      let analysis ← analyze parsed.program filename options []
      if Log.hadErrors analysis.log then none else some analysis

theorem parsed_of_compileFrontend {source filename : String}
    {options : CompilerOptions} {analysis : ProgramAnalysis}
    (run : compileFrontend source filename options = some analysis) :
    ∃ parsed, parse (tokenize source.toList filename).tokens filename = some parsed ∧
      Accepted parsed.program filename options [] analysis := by
  simp only [compileFrontend, Option.bind_eq_bind, Option.bind_eq_some_iff,
    Option.ite_none_left_eq_some, Option.some.injEq] at run
  obtain ⟨-, parsed, parsedRun, parsedClean, _, analyzed, clean, rfl⟩ := run
  exact ⟨parsed, parsedRun, ⟨_, parsed, parsedRun, by simpa using parsedClean, rfl⟩,
    by simp, analyzed, by simpa using clean⟩

theorem accepted_of_compileFrontend {source filename : String}
    {options : CompilerOptions} {analysis : ProgramAnalysis}
    (run : compileFrontend source filename options = some analysis) :
    ∃ program, Accepted program filename options [] analysis := by
  obtain ⟨parsed, -, accepted⟩ := parsed_of_compileFrontend run
  exact ⟨parsed.program, accepted⟩

/-- A module whose tree, as long as it waits for its analysis, is grammatical,
and whose function table is well formed. -/
structure Module.WellFormed (mod : Module) : Prop where
  ast : mod.analysis = .pending → ∀ program ∈ mod.ast, program.Grammatical
  funcs : mod.funcs.Known

/-- Every module of a list is well formed. -/
def ModulesWellFormed (modules : List Module) : Prop :=
  ∀ mod ∈ modules, mod.WellFormed

theorem ModulesWellFormed.set {modules : List Module}
    (wellFormed : ModulesWellFormed modules) (index : Nat) (mod : Module)
    (new : mod.WellFormed) : ModulesWellFormed (modules.set index mod) := by
  intro other inModules
  rcases List.mem_or_eq_of_mem_set inModules with old | rfl
  · exact wellFormed other old
  · exact new

theorem importPublicSymbols_known (filename : String) {funcs : FuncSymbolTable}
    (known : funcs.Known) {symbols : List FuncSymbol}
    (symbolsKnown : ∀ func ∈ symbols, func.returnType ≠ .unresolved ∧
      ∀ param ∈ func.parameters, param.type ≠ .unresolved) :
    (importPublicSymbols filename funcs symbols).1.Known := by
  induction symbols generalizing funcs with
  | nil => exact known
  | cons src rest inductionHypothesis =>
      have restKnown := fun func inRest =>
        symbolsKnown func (List.mem_cons_of_mem _ inRest)
      obtain ⟨returnType, parameters⟩ := symbolsKnown src (by simp)
      unfold importPublicSymbols
      split
      · exact inductionHypothesis known restKnown
      · exact inductionHypothesis
          (known.insert { src with imported := true, defined := true }
            returnType parameters filename) restKnown

/-- What the analysis of a program guarantees. -/
structure ProgramAnalysis.Sound (analysis : ProgramAnalysis) : Prop where
  funcs : analysis.funcs.Known
  modules : ModulesWellFormed analysis.modules
  typed : Log.hadErrors analysis.log = false →
    Stmt.TypedAll none analysis.program.statements

/-- An analyser of programs keeps the modules well formed and is sound. -/
def SoundAnalyzer (analyzeProgram : ProgramAnalyzer) : Prop :=
  ∀ program filename moduleName modules analysis, program.Grammatical →
    ModulesWellFormed modules →
    analyzeProgram program filename moduleName modules = some analysis →
    analysis.Sound

theorem analyzeModule_sound {analyzeProgram : ProgramAnalyzer}
    (sound : SoundAnalyzer analyzeProgram) {modules : List Module}
    (wellFormed : ModulesWellFormed modules) {index : Nat}
    {result : ModuleResult}
    (run : analyzeModule analyzeProgram modules index = some result) :
    ModulesWellFormed result.modules := by
  obtain ⟨mod, found, run⟩ := Option.bind_eq_some_iff.mp run
  have modWellFormed := wellFormed mod (List.mem_of_getElem? found)
  split at run
  · obtain rfl := Option.some.inj run
    exact wellFormed
  · obtain rfl := Option.some.inj run
    exact wellFormed
  · obtain rfl := Option.some.inj run
    exact wellFormed
  · rename_i pending
    split at run
    · rename_i ast loaded tree
      obtain ⟨analysis, analyzed, run⟩ := Option.bind_eq_some_iff.mp run
      obtain rfl := Option.some.inj run
      have started := wellFormed.set index
        { mod with analysis := .inProgress }
        ⟨by simp, modWellFormed.funcs⟩
      have programSound := sound ast mod.filename (some mod.name) _ analysis
        (modWellFormed.ast pending ast tree) started analyzed
      refine programSound.modules.set index _ ⟨?_, programSound.funcs⟩
      dsimp only
      split <;> simp
    · obtain rfl := Option.some.inj run
      exact wellFormed.set index _ ⟨by simp, modWellFormed.funcs⟩

theorem analyzeImports_sound {analyzeProgram : ProgramAnalyzer}
    (sound : SoundAnalyzer analyzeProgram) {filename : String}
    {imports : List Import} (funcs : FuncSymbolTable) (known : funcs.Known)
    {modules : List Module} (wellFormed : ModulesWellFormed modules)
    {result : ImportAnalysis}
    (run : analyzeImports analyzeProgram filename imports funcs modules =
      some result) :
    result.funcs.Known ∧ ModulesWellFormed result.modules := by
  induction imports generalizing funcs modules result with
  | nil =>
      obtain rfl := Option.some.inj run
      exact ⟨known, wellFormed⟩
  | cons imp rest inductionHypothesis =>
      unfold analyzeImports at run
      split at run
      · obtain ⟨others, rest, run⟩ := Option.bind_eq_some_iff.mp run
        obtain rfl := Option.some.inj run
        have restSound := inductionHypothesis _ known wellFormed rest
        exact restSound
      · obtain ⟨moduleResult, analyzed, run⟩ := Option.bind_eq_some_iff.mp run
        have analyzedWellFormed := analyzeModule_sound sound wellFormed analyzed
        split at run
        · obtain ⟨others, rest, run⟩ := Option.bind_eq_some_iff.mp run
          obtain rfl := Option.some.inj run
          have restSound := inductionHypothesis _ known analyzedWellFormed rest
          exact restSound
        · obtain ⟨dep, found, run⟩ := Option.bind_eq_some_iff.mp run
          obtain ⟨others, rest, run⟩ := Option.bind_eq_some_iff.mp run
          obtain rfl := Option.some.inj run
          have depKnown := (analyzedWellFormed dep (List.mem_of_getElem? found)).funcs
          have restSound := inductionHypothesis _
            (importPublicSymbols_known filename known depKnown)
            analyzedWellFormed rest
          exact restSound

theorem analyzeProgram_sound (isRoot : Bool) (fuel : Nat) :
    SoundAnalyzer (analyzeProgram isRoot fuel) := by
  induction fuel generalizing isRoot with
  | zero =>
      intro program filename moduleName modules analysis _ _ run
      simp [analyzeProgram] at run
  | succ fuel inductionHypothesis =>
      intro program filename moduleName modules analysis grammatical wellFormed run
      obtain ⟨imports, imported, run⟩ := Option.bind_eq_some_iff.mp run
      obtain rfl := Option.some.inj run
      obtain ⟨known, modulesWellFormed⟩ := analyzeImports_sound
        (inductionHypothesis false) {} (by simp [FuncSymbolTable.Known])
        wellFormed imported
      obtain ⟨stateWellFormed, -, typed⟩ := analyzeStatements_sound
        (s := { scope := Scope.push {}
                funcs := imports.funcs
                currentFunc := none
                filename := filename
                modulePrefix := moduleName.map mangleModulePrefix })
        (fun stmt inStatements => analyzeStatement_sound
          (grammatical stmt inStatements).1 none)
        ⟨by simp [Scope.WellFormed, Scope.push], known⟩ rfl
      refine ⟨stateWellFormed.funcs, modulesWellFormed, fun clean => typed ?_⟩
      simp only [Log.hadErrors_append, Bool.or_eq_false_iff] at clean
      exact clean.1.2

theorem Analyzed.modulesWellFormed {program : Program} {filename : String}
    {options : CompilerOptions} {modules : List Module} {analysis : ProgramAnalysis}
    (isAnalyzed : Analyzed program filename options modules analysis) :
    ModulesWellFormed modules := by
  intro mod inModules
  have isParsed := isAnalyzed.modulesParsed mod inModules
  refine ⟨fun _ program tree => (isParsed.ast program tree).grammatical, ?_⟩
  rw [isParsed.funcs]
  simp [FuncSymbolTable.Known]

/-- The statements of an analysed program are typed. -/
theorem Analyzed.typed {program : Program} {filename : String}
    {options : CompilerOptions} {modules : List Module} {analysis : ProgramAnalysis}
    (isAnalyzed : Analyzed program filename options modules analysis) :
    Stmt.TypedAll none analysis.program.statements :=
  (analyzeProgram_sound _ _ _ _ _ _ _ isAnalyzed.parsed.grammatical
    isAnalyzed.modulesWellFormed isAnalyzed.analyzed).typed isAnalyzed.noErrors

/-! ## The statements of a program -/

namespace Stmt

mutual

/-- The statements of one function: a statement with those inside it, down to
the declarations of other functions. -/
def parts : Stmt → List Stmt
  | block base statements => block base statements :: partsAll statements
  | ifStmt base condition branchThen branchElse =>
      ifStmt base condition branchThen branchElse ::
        (branchThen.parts ++ partsOption branchElse)
  | whileStmt base condition branchDo =>
      whileStmt base condition branchDo :: branchDo.parts
  | stmt => [stmt]

/-- The same for a branch or a body that may be missing. -/
def partsOption : Option Stmt → List Stmt
  | none => []
  | some stmt => stmt.parts

/-- The same for the statements of a block. -/
def partsAll : List Stmt → List Stmt
  | [] => []
  | stmt :: rest => stmt.parts ++ partsAll rest

end

mutual

/-- The functions declared in a statement that have a body, nested ones
included. -/
def functions : Stmt → List (FuncDecl × Stmt)
  | block _ statements => functionsAll statements
  | ifStmt _ _ branchThen branchElse =>
      branchThen.functions ++ functionsOption branchElse
  | whileStmt _ _ branchDo => branchDo.functions
  | funcDecl func body => bodyOf func body ++ functionsOption body
  | _ => []

/-- The same for a branch or a body that may be missing. -/
def functionsOption : Option Stmt → List (FuncDecl × Stmt)
  | none => []
  | some stmt => stmt.functions

/-- The same for the statements of a block. -/
def functionsAll : List Stmt → List (FuncDecl × Stmt)
  | [] => []
  | stmt :: rest => stmt.functions ++ functionsAll rest

/-- A function with its body, if it has one. -/
def bodyOf (func : FuncDecl) : Option Stmt → List (FuncDecl × Stmt)
  | none => []
  | some body => [(func, body)]

end

theorem mem_partsAll {part : Stmt} (statements : List Stmt) :
    part ∈ partsAll statements ↔ ∃ stmt ∈ statements, part ∈ stmt.parts := by
  induction statements with
  | nil => simp [partsAll]
  | cons stmt rest inductionHypothesis => simp [partsAll, inductionHypothesis]

theorem mem_functionsAll {inner : FuncDecl × Stmt} (statements : List Stmt) :
    inner ∈ functionsAll statements ↔
      ∃ stmt ∈ statements, inner ∈ stmt.functions := by
  induction statements with
  | nil => simp [functionsAll]
  | cons stmt rest inductionHypothesis => simp [functionsAll, inductionHypothesis]

/-- The parts of a typed statement are typed. -/
theorem Typed.parts {stmt : Stmt} {func : Option FuncDecl}
    (typed : stmt.Typed func) : ∀ part ∈ stmt.parts, part.Typed func := by
  induction stmt using Stmt.induction with
  | block base statements statementsHypothesis =>
      have all := (typedAll_iff func statements).mp typed
      intro part inParts
      rcases List.mem_cons.mp inParts with rfl | inParts
      · exact typed
      · obtain ⟨stmt, inBlock, inStmt⟩ := (mem_partsAll statements).mp inParts
        exact statementsHypothesis stmt inBlock (all stmt inBlock) part inStmt
  | ifStmt base condition branchThen branchElse thenHypothesis elseHypothesis =>
      obtain ⟨-, thenTyped, elseTyped⟩ := id typed
      intro part inParts
      rcases List.mem_cons.mp inParts with rfl | inParts
      · exact typed
      · rcases List.mem_append.mp inParts with inThen | inElse
        · exact thenHypothesis thenTyped part inThen
        · cases branchElse with
          | none => cases inElse
          | some stmt => exact elseHypothesis stmt rfl elseTyped part inElse
  | whileStmt base condition branchDo doHypothesis =>
      intro part inParts
      rcases List.mem_cons.mp inParts with rfl | inParts
      · exact typed
      · exact doHypothesis typed.2 part inParts
  | varDecl | varAssign | funcDecl | returnStmt | expression =>
      intro part inParts
      rw [List.mem_singleton.mp inParts]
      exact typed

/-- The bodies of the functions in a typed statement are typed. -/
theorem Typed.functions (stmt : Stmt) {func : Option FuncDecl}
    (typed : stmt.Typed func) :
    ∀ inner ∈ stmt.functions, (Stmt.funcDecl inner.1 (some inner.2)).Typed none := by
  induction stmt using Stmt.induction generalizing func with
  | block base statements statementsHypothesis =>
      have all := (typedAll_iff func statements).mp typed
      intro inner inFunctions
      obtain ⟨stmt, inBlock, inStmt⟩ :=
        (mem_functionsAll statements).mp inFunctions
      exact statementsHypothesis stmt inBlock (all stmt inBlock) inner inStmt
  | ifStmt base condition branchThen branchElse thenHypothesis elseHypothesis =>
      obtain ⟨-, thenTyped, elseTyped⟩ := typed
      intro inner inFunctions
      rcases List.mem_append.mp inFunctions with inThen | inElse
      · exact thenHypothesis thenTyped inner inThen
      · cases branchElse with
        | none => cases inElse
        | some stmt => exact elseHypothesis stmt rfl elseTyped inner inElse
  | whileStmt base condition branchDo doHypothesis =>
      exact doHypothesis typed.2
  | funcDecl declared body bodyHypothesis =>
      intro inner inFunctions
      rcases List.mem_append.mp inFunctions with own | nested
      · cases body with
        | none => cases own
        | some body =>
            rw [List.mem_singleton.mp own]
            exact typed
      · cases body with
        | none => cases nested
        | some body => exact bodyHypothesis body rfl typed.2.1 inner nested
  | varDecl | varAssign | returnStmt | expression =>
      intro inner inFunctions
      cases inFunctions

end Stmt

/-- The functions of a program with their bodies. -/
def Program.functions (program : Program) : List (FuncDecl × Stmt) :=
  Stmt.functionsAll program.statements

/-- The bodies of an accepted program are typed. -/
theorem Accepted.typed_function {program : Program} {filename : String}
    {options : CompilerOptions} {modules : List Module}
    {analysis : ProgramAnalysis}
    (accepted : Accepted program filename options modules analysis)
    {func : FuncDecl} {body : Stmt}
    (inProgram : (func, body) ∈ analysis.program.functions) :
    (Stmt.funcDecl func (some body)).Typed none :=
  Stmt.Typed.functions (.block {} analysis.program.statements)
    accepted.isAnalyzed.typed (func, body) inProgram

/-- Every statement of a function of an accepted program is typed. -/
theorem Accepted.typed_part {program : Program} {filename : String}
    {options : CompilerOptions} {modules : List Module}
    {analysis : ProgramAnalysis}
    (accepted : Accepted program filename options modules analysis)
    {func : FuncDecl} {body : Stmt}
    (inProgram : (func, body) ∈ analysis.program.functions) {part : Stmt}
    (inBody : part ∈ body.parts) : part.Typed (some func) :=
  Stmt.Typed.parts (accepted.typed_function inProgram).2.1 part inBody

/-- The expressions that stand in a statement itself. -/
def Stmt.expressions : Stmt → List Expr
  | .varDecl decl => decl.value.toList
  | .varAssign assign => [assign.value]
  | .ifStmt _ condition _ _ => [condition]
  | .whileStmt _ condition _ => [condition]
  | .returnStmt _ value => value.toList
  | .expression expr => [expr]
  | .block .. => []
  | .funcDecl .. => []

/-- The expressions in the functions of a program. -/
def Program.expressions (program : Program) : List Expr :=
  program.functions.flatMap fun function =>
    function.2.parts.flatMap Stmt.expressions

theorem Stmt.Typed.accepted {stmt : Stmt} {func : Option FuncDecl}
    (typed : stmt.Typed func) : ∀ value ∈ stmt.expressions, value.Accepted := by
  intro value inStmt
  cases stmt with
  | varDecl decl =>
      obtain ⟨s, wellFormed, valueTyped, -⟩ :=
        typed.2 value (Option.mem_toList.mp inStmt)
      exact ⟨s, wellFormed, valueTyped⟩
  | varAssign assign =>
      obtain ⟨s, sym, wellFormed, valueTyped, -⟩ := typed
      rw [List.mem_singleton.mp inStmt]
      exact ⟨s, wellFormed, valueTyped⟩
  | ifStmt base condition branchThen branchElse =>
      rw [List.mem_singleton.mp inStmt]
      exact typed.1.1
  | whileStmt base condition branchDo =>
      rw [List.mem_singleton.mp inStmt]
      exact typed.1.1
  | returnStmt base result =>
      obtain ⟨current, -, returns⟩ := typed
      cases result with
      | none => cases inStmt
      | some result =>
          rw [List.mem_singleton.mp inStmt]
          exact returns.1
  | expression expr =>
      rw [List.mem_singleton.mp inStmt]
      exact typed
  | block | funcDecl => cases inStmt

/-- Every expression of an accepted program is accepted. -/
theorem Accepted.accepted_expression {program : Program} {filename : String}
    {options : CompilerOptions} {modules : List Module}
    {analysis : ProgramAnalysis}
    (accepted : Accepted program filename options modules analysis)
    {value : Expr} (inProgram : value ∈ analysis.program.expressions) :
    value.Accepted := by
  obtain ⟨⟨func, body⟩, inFunctions, inBody⟩ := List.mem_flatMap.mp inProgram
  obtain ⟨part, inParts, inPart⟩ := List.mem_flatMap.mp inBody
  exact (accepted.typed_part inFunctions inParts).accepted value inPart

end Sulfur
