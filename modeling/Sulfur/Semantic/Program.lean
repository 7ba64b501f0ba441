import Sulfur.Semantic.Statement

/-!
# Program analysis

`sf_analyze` with the modules that a program imports.  Resolving an import to a
file happens before the analysis; the list of modules, each with the tree that
the parser made of its file, is an input here.
-/

namespace Sulfur

/-- `sf_module_state`. -/
inductive ModuleState
  | unloaded
  | loading
  | loaded
  | failed
  deriving DecidableEq, Repr

/-- `sf_module_analysis`. -/
inductive ModuleAnalysis
  | pending
  | inProgress
  | done
  | failed
  deriving DecidableEq, Repr

/-- `sf_module`. -/
structure Module where
  state : ModuleState
  ast : Option Program
  filename : String
  name : String
  analysis : ModuleAnalysis := .pending
  funcs : FuncSymbolTable := {}
  deriving Repr

/-- The fields of `sf_compiler_options` that the analyser reads. -/
structure CompilerOptions where
  isModule : Bool := false
  modulePaths : List String := []
  deriving Repr

/-- What the analysis of a program returns, leaves behind and logs. -/
structure ProgramAnalysis where
  ok : Bool
  program : Program
  funcs : FuncSymbolTable
  modules : List Module
  log : Log
  deriving Repr

/-- The state of the import loop of `analyze_program`. -/
structure ImportAnalysis where
  ok : Bool
  funcs : FuncSymbolTable
  modules : List Module
  log : Log
  deriving Repr

/-- The loop of `import_public_symbols`. -/
def importPublicSymbols (filename : String) :
    FuncSymbolTable → List FuncSymbol → FuncSymbolTable × Log
  | funcs, [] => (funcs, [])
  | funcs, src :: rest =>
      if !src.qualifiers.isPublic || src.imported then
        importPublicSymbols filename funcs rest
      else
        let insertion :=
          funcs.insert { src with imported := true, defined := true } filename
        let others := importPublicSymbols filename insertion.table rest
        (others.1, insertion.log ++ others.2)

/-- `has_qualifiers`. -/
def hasQualifiers (sym : FuncSymbol) : Bool :=
  sym.qualifiers.isMutable || sym.qualifiers.isPublic || sym.qualifiers.isExtern

/-- `check_main_function`: what it logs. -/
def checkMainFunction (filename : String) (funcs : FuncSymbolTable) : Log :=
  match funcs.lookup "main" with
  | none =>
      [logError filename "missing entry point function"
        "the program does not define a '%s' function"
        (some "define a valid function as the program entry point")
        .semanticNoMainFunction {} ["main"]]
  | some main =>
      let returnType :=
        if main.returnType ≠ .i32 then
          [logError filename "invalid return type"
            "the '%s' function must return '%s'"
            (some "change the funtion return type")
            .semanticInvalidReturnType main.span ["main", ValueType.i32.name]]
        else
          []
      let parameters :=
        if main.parameters.length > 0 then
          [logError filename "invalid parameters"
            "the '%s' function must not have any parameters"
            (some "remove all parameters from the function")
            .semanticInvalidParameters main.span ["main"]]
        else
          []
      let qualifiers :=
        if hasQualifiers main then
          [logError filename "invalid qualifiers"
            "the '%s' function must not have any qualifiers"
            (some "remove all qualifiers from the function")
            .semanticInvalidQualifier main.span ["main"]]
        else
          []
      returnType ++ parameters ++ qualifiers

/-- The check that `analyze_program` makes of the root. -/
def rootLog (isRoot : Bool) (filename : String) (funcs : FuncSymbolTable) : Log :=
  if isRoot then checkMainFunction filename funcs else []

/-- What `analyze_module` needs of `analyze_program`. -/
abbrev ProgramAnalyzer :=
  Program → String → Option String → List Module → Option ProgramAnalysis

/-- What `analyze_module` returns, leaves behind and logs. -/
structure ModuleResult where
  ok : Bool
  modules : List Module
  log : Log
  deriving Repr

/-- `analyze_module`; `none` for an index that no import has, and where the
analysis of the module's program answers `none`. -/
def analyzeModule (analyzeProgram : ProgramAnalyzer) (modules : List Module)
    (index : Nat) : Option ModuleResult := do
  let mod ← modules[index]?
  match mod.analysis with
  | .done => return ⟨true, modules, []⟩
  | .failed => return ⟨false, modules, []⟩
  | .inProgress =>
      return ⟨false, modules,
        [logError mod.filename "cyclic import"
          "module '%s' is part of an import cycle"
          (some "remove the circular import") .semanticCyclicImport {}
          [mod.filename]]⟩
  | .pending =>
      match mod.state, mod.ast with
      | .loaded, some ast =>
          let started := modules.set index { mod with analysis := .inProgress }
          let analysis ←
            analyzeProgram ast mod.filename (some mod.name) started
          let finished :=
            { mod with
              ast := some analysis.program
              funcs := analysis.funcs
              analysis := if analysis.ok then .done else .failed }
          return ⟨analysis.ok, analysis.modules.set index finished, analysis.log⟩
      | _, _ =>
          return ⟨false, modules.set index { mod with analysis := .failed }, []⟩

/-- The import loop of `analyze_program`. -/
def analyzeImports (analyzeProgram : ProgramAnalyzer) (filename : String) :
    List Import → FuncSymbolTable → List Module → Option ImportAnalysis
  | [], funcs, modules => some ⟨true, funcs, modules, []⟩
  | imp :: rest, funcs, modules => do
      if !imp.resolved then
        let others ← analyzeImports analyzeProgram filename rest funcs modules
        return { others with ok := false }
      else
        let result ← analyzeModule analyzeProgram modules imp.moduleIndex
        if !result.ok then
          let others ←
            analyzeImports analyzeProgram filename rest funcs result.modules
          return { others with ok := false, log := result.log ++ others.log }
        else
          let dep ← result.modules[imp.moduleIndex]?
          let imported := importPublicSymbols filename funcs dep.funcs.functions
          let others ←
            analyzeImports analyzeProgram filename rest imported.1 result.modules
          return { others with log := result.log ++ imported.2 ++ others.log }

/-- The statement loop of `analyze_program`, in the state after the imports. -/
def analyzeTopLevel (program : Program) (filename : String)
    (moduleName : Option String) (funcs : FuncSymbolTable) : StmtsAnalysis :=
  analyzeStatements program.statements
    { scope := Scope.push {}
      funcs := funcs
      currentFunc := none
      filename := filename
      modulePrefix := moduleName.map mangleModulePrefix }

/-- `analyze_program`.  Each level of imports takes one unit of fuel. -/
def analyzeProgram (isRoot : Bool) : Nat → ProgramAnalyzer
  | 0, _, _, _, _ => none
  | fuel + 1, program, filename, moduleName, modules => do
      let imports ← analyzeImports (analyzeProgram false fuel) filename
        program.imports {} modules
      let statements := analyzeTopLevel program filename moduleName imports.funcs
      let main := rootLog isRoot filename statements.state.funcs
      some
        { ok := imports.ok
          program := { program with statements := statements.nodes }
          funcs := statements.state.funcs
          modules := imports.modules
          log := imports.log ++ statements.log ++ main }

/-- `sf_analyze`.  Every nested level takes a pending module, so that one unit
of fuel for each module and one for the program are enough. -/
def analyze (program : Program) (filename : String) (options : CompilerOptions)
    (modules : List Module) : Option ProgramAnalysis :=
  let moduleName :=
    if options.isModule then moduleNameFromPath filename options.modulePaths
    else none
  analyzeProgram (!options.isModule) (modules.length + 1) program filename
    moduleName modules

end Sulfur
