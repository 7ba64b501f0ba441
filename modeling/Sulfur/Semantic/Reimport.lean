import Sulfur.Ir.Generate
import Sulfur.Semantic.Imports
import Sulfur.Semantic.Linkage

/-!
# Importing again

`analyze_module` analyses a module once and remembers it by a mark.  The table that it
leaves is the one that the module has without the marks, so that two runs over the same
modules can be compared.  The public functions of a module are inserted at every import of
the module.
-/

namespace Sulfur

/-! ## Tables without marks -/

/-- The tree of a module that was loaded. -/
def Module.loadedTree (mod : Module) : Option Program :=
  if mod.state = .loaded then mod.ast else none

/-- The imports of a program inserted into a table, if that logs no error. -/
def importsTable (tableOf : Nat → Option FuncSymbolTable) (filename : String) :
    List Import → FuncSymbolTable → Option FuncSymbolTable
  | [], funcs => some funcs
  | imp :: rest, funcs =>
      if imp.resolved then
        (tableOf imp.moduleIndex).bind fun table =>
          let imported := importPublicSymbols filename funcs table.functions
          if Log.hadErrors imported.2 then none
          else importsTable tableOf filename rest imported.1
      else
        none

/-- The table after the statements of a program, if they log no error. -/
def statementsTable (program : Program) (filename : String) (moduleName : Option String)
    (funcs : FuncSymbolTable) : Option FuncSymbolTable :=
  let statements := analyzeTopLevel program filename moduleName funcs
  if Log.hadErrors statements.log then none else some statements.state.funcs

/-- The table of a module whose analysis logs no error, from those of its imports. -/
def moduleTable (modules : List Module) : Nat → Nat → Option FuncSymbolTable
  | 0, _ => none
  | fuel + 1, index =>
      modules[index]?.bind fun mod =>
        mod.loadedTree.bind fun ast =>
          (importsTable (moduleTable modules fuel) mod.filename ast.imports {}).bind
            (statementsTable ast mod.filename (some mod.name))

theorem importsTable_append (tableOf : Nat → Option FuncSymbolTable) (filename : String)
    (first second : List Import) (funcs : FuncSymbolTable) :
    importsTable tableOf filename (first ++ second) funcs =
      (importsTable tableOf filename first funcs).bind
        (importsTable tableOf filename second) := by
  induction first generalizing funcs with
  | nil => rfl
  | cons imp rest inductionHypothesis =>
      rw [List.cons_append, importsTable, importsTable]
      split
      · rw [Option.bind_assoc]
        congr 1
        funext table
        dsimp only
        split
        · rfl
        · exact inductionHypothesis _
      · rfl

/-- Tables that are known stay known. -/
theorem importsTable_mono {tableOf more : Nat → Option FuncSymbolTable}
    (grows : ∀ index table, tableOf index = some table → more index = some table)
    {filename : String} {imports : List Import} {funcs after : FuncSymbolTable}
    (found : importsTable tableOf filename imports funcs = some after) :
    importsTable more filename imports funcs = some after := by
  induction imports generalizing funcs with
  | nil => exact found
  | cons imp rest inductionHypothesis =>
      unfold importsTable at found ⊢
      by_cases resolved : imp.resolved
      · rw [if_pos resolved] at found ⊢
        rcases Option.bind_eq_some_iff.mp found with ⟨table, isTable, found⟩
        rw [grows _ table isTable, Option.bind_some]
        dsimp only at found ⊢
        split at found
        · cases found
        · rename_i clean
          rw [if_neg clean]
          exact inductionHypothesis found
      · rw [if_neg resolved] at found
        cases found

theorem moduleTable_succ {modules : List Module} {fuel index : Nat} {table : FuncSymbolTable}
    (found : moduleTable modules fuel index = some table) :
    moduleTable modules (fuel + 1) index = some table := by
  induction fuel generalizing index table with
  | zero => cases found
  | succ fuel inductionHypothesis =>
      rw [moduleTable] at found
      rcases Option.bind_eq_some_iff.mp found with ⟨mod, listed, found⟩
      rcases Option.bind_eq_some_iff.mp found with ⟨ast, loaded, found⟩
      rcases Option.bind_eq_some_iff.mp found with ⟨funcs, imported, found⟩
      have more := importsTable_mono (fun _ _ => inductionHypothesis) imported
      rw [moduleTable, listed, Option.bind_some, loaded, Option.bind_some, more,
        Option.bind_some]
      exact found

theorem moduleTable_mono {modules : List Module} {fuel more index : Nat}
    {table : FuncSymbolTable} (le : fuel ≤ more)
    (found : moduleTable modules fuel index = some table) :
    moduleTable modules more index = some table := by
  induction le with
  | refl => exact found
  | step _ inductionHypothesis => exact moduleTable_succ inductionHypothesis

/-- A module has one table. -/
theorem moduleTable_unique {modules : List Module} {fuel other index : Nat}
    {table otherTable : FuncSymbolTable} (found : moduleTable modules fuel index = some table)
    (otherFound : moduleTable modules other index = some otherTable) : table = otherTable := by
  have first := moduleTable_mono (Nat.le_max_left fuel other) found
  have second := moduleTable_mono (Nat.le_max_right fuel other) otherFound
  exact Option.some.inj (first.symm.trans second)

/-! ## The course of the analysis -/

/-- What a module of the list may be in the course of the analysis: what it was, a module
that is being analysed, or one that has its table. -/
def Follows (modules : List Module) (index : Nat) (mod now : Module) : Prop :=
  now = mod ∨ now.analysis = .inProgress ∨
    now.analysis = .done ∧ ∃ fuel, moduleTable modules fuel index = some now.funcs

/-- The list of modules in the course of the analysis of a list. -/
structure Agrees (modules current : List Module) : Prop where
  length : current.length = modules.length
  each : ∀ index mod now, modules[index]? = some mod → current[index]? = some now →
    Follows modules index mod now

theorem Agrees.refl (modules : List Module) : Agrees modules modules := by
  constructor
  · rfl
  · intro index mod now listed alsoListed
    left
    exact Option.some.inj (alsoListed.symm.trans listed)

theorem Agrees.set {modules current : List Module} (agrees : Agrees modules current)
    {index : Nat} {mod new : Module} (listed : modules[index]? = some mod)
    (follows : Follows modules index mod new) : Agrees modules (current.set index new) := by
  constructor
  · rw [List.length_set]
    exact agrees.length
  · intro other otherMod now otherListed isNow
    by_cases same : other = index
    · subst same
      obtain rfl := Option.some.inj (listed.symm.trans otherListed)
      rcases List.getElem?_eq_some_iff.mp isNow with ⟨inside, value⟩
      rw [List.getElem_set_self] at value
      exact value ▸ follows
    · rw [List.getElem?_set_ne (Ne.symm same)] at isNow
      exact agrees.each other otherMod now otherListed isNow

/-- A module that is being analysed. -/
def Analysing (current : List Module) (index : Nat) : Prop :=
  ∃ now, current[index]? = some now ∧ now.analysis = .inProgress

/-- The number of modules that are not analysed yet. -/
def pendingModules (modules : List Module) : Nat :=
  modules.countP fun mod => mod.analysis = .pending

/-- A pending module is what it was. -/
theorem Agrees.of_pending {modules current : List Module} (agrees : Agrees modules current)
    {index : Nat} {now : Module} (isNow : current[index]? = some now)
    (pending : now.analysis = .pending) : modules[index]? = some now := by
  rcases List.getElem?_eq_some_iff.mp isNow with ⟨inside, -⟩
  rw [agrees.length] at inside
  have listed := List.getElem?_eq_getElem inside
  rcases agrees.each index _ now listed isNow with rfl | active | ⟨done, -⟩
  · exact listed
  · rw [pending] at active
    cases active
  · rw [pending] at done
    cases done

/-- A module that is done. -/
def Analysed (current : List Module) (index : Nat) : Prop :=
  ∃ now, current[index]? = some now ∧ now.analysis = .done

/-- An analysis of a module that returns without errors leaves the module done. -/
def TablesModules (modules : List Module) (analyzer : ProgramAnalyzer) : Prop :=
  ∀ current index result, Agrees modules current →
    analyzeModule analyzer current index = some result → result.ok →
    Log.hadErrors result.log = false →
    Agrees modules result.modules ∧ Analysed result.modules index ∧
      ∀ other, Analysed current other → Analysed result.modules other

/-- A module is answered when it is done already, or when its program is accepted. -/
theorem analyzeModule_ok {analyzer : ProgramAnalyzer} {current : List Module} {index : Nat}
    {result : ModuleResult} (run : analyzeModule analyzer current index = some result)
    (ok : result.ok) :
    ∃ now, current[index]? = some now ∧
      (now.analysis = .done ∧ result = ⟨true, current, []⟩ ∨
        now.analysis = .pending ∧ ∃ ast ∈ now.loadedTree, ∃ analysis : ProgramAnalysis,
          analyzer ast now.filename (some now.name)
              (current.set index { now with analysis := .inProgress }) = some analysis ∧
            analysis.ok ∧
            result = ⟨true, analysis.modules.set index
              { now with
                ast := some analysis.program
                funcs := analysis.funcs
                analysis := .done }, analysis.log⟩) := by
  unfold analyzeModule at run
  rcases Option.bind_eq_some_iff.mp run with ⟨now, isNow, run⟩
  refine ⟨now, isNow, ?_⟩
  split at run
  · rename_i done
    obtain rfl := Option.some.inj run
    exact .inl ⟨done, rfl⟩
  · obtain rfl := Option.some.inj run
    cases ok
  · obtain rfl := Option.some.inj run
    cases ok
  · rename_i pending
    right
    refine ⟨pending, ?_⟩
    split at run
    · rename_i ast loaded tree
      rcases Option.bind_eq_some_iff.mp run with ⟨analysis, analysed, run⟩
      obtain rfl := Option.some.inj run
      refine ⟨ast, ?_, analysis, analysed, ok, ?_⟩
      · unfold Module.loadedTree
        rw [if_pos loaded, tree]
        rfl
      · have accepted : analysis.ok = true := ok
        simp [accepted]
    · obtain rfl := Option.some.inj run
      cases ok

/-- What a part of the analysis does to the list of modules. -/
structure Progresses (modules current after : List Module) : Prop where
  agrees : Agrees modules after
  analysing : ∀ index, Analysing after index → Analysing current index
  pending : pendingModules after ≤ pendingModules current

theorem Progresses.refl {modules current : List Module} (agrees : Agrees modules current) :
    Progresses modules current current :=
  ⟨agrees, fun _ => id, le_refl _⟩

theorem Progresses.trans {modules first second third : List Module}
    (earlier : Progresses modules first second) (later : Progresses modules second third) :
    Progresses modules first third := by
  constructor
  · exact later.agrees
  · exact fun index => earlier.analysing index ∘ later.analysing index
  · exact later.pending.trans earlier.pending

/-- The analysis of a module returns, and leaves the table. -/
structure TableReturned (modules : List Module) (fuel index : Nat) (table : FuncSymbolTable)
    (current : List Module) (result : ModuleResult) : Prop where
  returns : analyzeModule (analyzeProgram false fuel) current index = some result
  ok : result.ok
  clean : Log.hadErrors result.log = false
  progresses : Progresses modules current result.modules
  done : ∃ now, result.modules[index]? = some now ∧ now.funcs = table

/-- The modules that have their tables at a depth are analysed, when no module on the way
has its table at this depth. -/
def ReturnsTables (modules : List Module) (depth : Nat) : Prop :=
  ∀ index table, moduleTable modules depth index = some table →
    ∀ current fuel, Agrees modules current →
      (∀ other, Analysing current other → moduleTable modules depth other = none) →
      pendingModules current ≤ fuel →
      ∃ result, TableReturned modules fuel index table current result

theorem analyzeImports_returns {modules : List Module} {depth fuel : Nat}
    (returns : ReturnsTables modules depth) {filename : String} {imports : List Import}
    {funcs after : FuncSymbolTable} {current : List Module}
    (found : importsTable (moduleTable modules depth) filename imports funcs = some after)
    (agrees : Agrees modules current)
    (above : ∀ other, Analysing current other → moduleTable modules depth other = none)
    (enough : pendingModules current ≤ fuel) :
    ∃ result, analyzeImports (analyzeProgram false fuel) filename imports funcs current =
        some result ∧
      result.ok ∧ Log.hadErrors result.log = false ∧ result.funcs = after ∧
      Progresses modules current result.modules := by
  induction imports generalizing funcs current with
  | nil =>
      obtain rfl := Option.some.inj found
      exact ⟨_, rfl, rfl, rfl, rfl, .refl agrees⟩
  | cons imp rest inductionHypothesis =>
      unfold importsTable at found
      split at found
      · rename_i resolved
        rcases Option.bind_eq_some_iff.mp found with ⟨table, isTable, found⟩
        dsimp only at found
        split at found
        · cases found
        · rename_i clean
          rcases returns imp.moduleIndex table isTable current fuel agrees above enough with
            ⟨first, returned⟩
          rcases returned.done with ⟨dep, isDep, rfl⟩
          have progresses := returned.progresses
          rcases inductionHypothesis found progresses.agrees
            (fun other active => above other (progresses.analysing other active))
            (progresses.pending.trans enough) with
            ⟨others, loop, ok, othersClean, same, restProgresses⟩
          refine ⟨{ others with log := first.log ++
            (importPublicSymbols filename funcs dep.funcs.functions).2 ++ others.log }, ?_, ok, ?_,
            same, progresses.trans restProgresses⟩
          · unfold analyzeImports
            rw [if_neg (by simp [resolved])]
            change (analyzeModule _ _ _).bind _ = _
            rw [returned.returns, Option.bind_some, if_neg (by simp [returned.ok])]
            change (first.modules[imp.moduleIndex]?).bind _ = _
            rw [isDep, Option.bind_some]
            change (analyzeImports _ _ _ _ _).bind _ = _
            rw [loop]
            rfl
          · rw [Log.hadErrors_append, Log.hadErrors_append, returned.clean, othersClean]
            simpa using clean
      · cases found

/-- A module that is started is no longer pending. -/
theorem pendingModules_set {current : List Module} {index : Nat} (inside : index < current.length)
    (pending : current[index].analysis = .pending) {new : Module}
    (started : new.analysis ≠ .pending) :
    pendingModules (current.set index new) < pendingModules current := by
  unfold pendingModules
  have counted : 0 < current.countP fun mod => mod.analysis = .pending :=
    List.countP_pos_iff.mpr ⟨_, List.getElem_mem inside, by simpa using pending⟩
  rw [List.countP_set inside]
  simp only [pending, started, decide_true, decide_false, if_true, Bool.false_eq_true, if_false]
  omega

theorem pendingModules_set_le (current : List Module) (index : Nat) {new : Module}
    (started : new.analysis ≠ .pending) :
    pendingModules (current.set index new) ≤ pendingModules current := by
  by_cases inside : index < current.length
  · unfold pendingModules
    rw [List.countP_set inside]
    simp [started]
  · rw [List.set_eq_of_length_le (Nat.le_of_not_lt inside)]

theorem analysing_set {current : List Module} {index other : Nat} {new : Module}
    (active : Analysing (current.set index new) other) :
    other = index ∧ new.analysis = .inProgress ∨ other ≠ index ∧ Analysing current other := by
  rcases active with ⟨now, isNow, active⟩
  by_cases same : other = index
  · subst same
    left
    rcases List.getElem?_eq_some_iff.mp isNow with ⟨inside, value⟩
    rw [List.getElem_set_self] at value
    exact ⟨rfl, value ▸ active⟩
  · right
    rw [List.getElem?_set_ne (Ne.symm same)] at isNow
    exact ⟨same, now, isNow, active⟩

section Course

variable {modules : List Module} (fresh : ∀ mod ∈ modules, mod.analysis = .pending)

include fresh

/-- A module that is done has its table. -/
theorem Agrees.of_done {current : List Module} (agrees : Agrees modules current)
    {index : Nat} {now : Module} (isNow : current[index]? = some now)
    (done : now.analysis = .done) :
    ∃ fuel, moduleTable modules fuel index = some now.funcs := by
  rcases List.getElem?_eq_some_iff.mp isNow with ⟨inside, -⟩
  rw [agrees.length] at inside
  have listed := List.getElem?_eq_getElem inside
  rcases agrees.each index _ now listed isNow with rfl | active | ⟨-, found⟩
  · have pending := fresh _ (List.getElem_mem inside)
    rw [done] at pending
    cases pending
  · rw [done] at active
    cases active
  · exact found

/-- The imports of a program that log no error are those of the tables. -/
theorem analyzeImports_table {analyzer : ProgramAnalyzer}
    (tables : TablesModules modules analyzer) {filename : String} {imports : List Import}
    {funcs : FuncSymbolTable} {current : List Module} {result : ImportAnalysis}
    (agrees : Agrees modules current)
    (run : analyzeImports analyzer filename imports funcs current = some result)
    (ok : result.ok) (clean : Log.hadErrors result.log = false) :
    Agrees modules result.modules ∧
      (∀ imp ∈ imports, Analysed result.modules imp.moduleIndex) ∧
      (∀ other, Analysed current other → Analysed result.modules other) ∧
      ∃ fuel, importsTable (moduleTable modules fuel) filename imports funcs =
        some result.funcs := by
  induction imports generalizing funcs current result with
  | nil =>
      obtain rfl := Option.some.inj run
      exact ⟨agrees, List.forall_mem_nil _, fun _ => id, 0, rfl⟩
  | cons imp rest inductionHypothesis =>
      unfold analyzeImports at run
      split at run
      · rcases Option.bind_eq_some_iff.mp run with ⟨others, -, run⟩
        obtain rfl := Option.some.inj run
        cases ok
      · rename_i resolved
        rcases Option.bind_eq_some_iff.mp run with ⟨moduleResult, analysed, run⟩
        split at run
        · rcases Option.bind_eq_some_iff.mp run with ⟨others, -, run⟩
          obtain rfl := Option.some.inj run
          cases ok
        · rename_i answered
          rcases Option.bind_eq_some_iff.mp run with ⟨dep, isDep, run⟩
          rcases Option.bind_eq_some_iff.mp run with ⟨others, loop, run⟩
          obtain rfl := Option.some.inj run
          simp only [Log.hadErrors_append, Bool.or_eq_false_iff] at clean
          rcases tables current imp.moduleIndex moduleResult agrees analysed
            (by simpa using answered) clean.1.1 with ⟨between, ⟨now, isNow, done⟩, first⟩
          obtain rfl := Option.some.inj (isDep.symm.trans isNow)
          rcases between.of_done fresh isNow done with ⟨fuel, isTable⟩
          rcases inductionHypothesis between loop ok clean.2 with
            ⟨after, analysedRest, later, more, found⟩
          refine ⟨after, ?_, fun other known => later other (first other known), max fuel more, ?_⟩
          · rw [List.forall_mem_cons]
            exact ⟨later _ ⟨dep, isDep, done⟩, analysedRest⟩
          unfold importsTable
          rw [if_pos (by simpa using resolved), moduleTable_mono (Nat.le_max_left ..) isTable,
            Option.bind_some]
          dsimp only
          rw [if_neg (by simp [clean.1.2])]
          exact importsTable_mono
            (fun _ _ => moduleTable_mono (Nat.le_max_right ..)) found

/-- What a module's program leaves is its table. -/
theorem tablesModules (fuel : Nat) : TablesModules modules (analyzeProgram false fuel) := by
  induction fuel with
  | zero =>
      intro current index result agrees run ok clean
      rcases analyzeModule_ok run ok with
        ⟨now, isNow, ⟨done, rfl⟩ | ⟨-, ast, -, analysis, analysed, -⟩⟩
      · exact ⟨agrees, ⟨now, isNow, done⟩, fun _ => id⟩
      · cases analysed
  | succ fuel inductionHypothesis =>
      intro current index result agrees run ok clean
      rcases analyzeModule_ok run ok with
        ⟨now, isNow, ⟨done, rfl⟩ | ⟨pending, ast, tree, analysis, analysed, accepted, rfl⟩⟩
      · exact ⟨agrees, ⟨now, isNow, done⟩, fun _ => id⟩
      · have listed := agrees.of_pending isNow pending
        have started : Agrees modules
            (current.set index { now with analysis := .inProgress }) :=
          agrees.set listed (.inr (.inl rfl))
        unfold analyzeProgram at analysed
        rcases Option.bind_eq_some_iff.mp analysed with ⟨imports, imported, analysed⟩
        obtain rfl := Option.some.inj analysed
        simp only [Log.hadErrors_append, Bool.or_eq_false_iff] at clean
        rcases analyzeImports_table fresh inductionHypothesis started imported accepted
          clean.1.1 with ⟨finished, -, keeps, depth, found⟩
        have table : moduleTable modules (depth + 1) index =
            some (analyzeTopLevel ast now.filename (some now.name) imports.funcs).state.funcs := by
          rw [moduleTable, listed, Option.bind_some, Option.mem_def.mp tree, Option.bind_some,
            found, Option.bind_some]
          unfold statementsTable
          dsimp only
          rw [if_neg (by simp [clean.1.2])]
        rcases List.getElem?_eq_some_iff.mp listed with ⟨inside, -⟩
        rw [← finished.length] at inside
        refine ⟨finished.set listed (.inr (.inr ⟨rfl, depth + 1, table⟩)),
          ⟨_, List.getElem?_set_self inside, rfl⟩, fun other known => ?_⟩
        by_cases same : other = index
        · exact ⟨_, by rw [same]; exact List.getElem?_set_self inside, rfl⟩
        · rcases known with ⟨otherNow, isOther, done⟩
          have begun : Analysed (current.set index { now with analysis := .inProgress }) other :=
            ⟨otherNow, by rwa [List.getElem?_set_ne (Ne.symm same)], done⟩
          rcases keeps other begun with ⟨later, isLater, laterDone⟩
          exact ⟨later, by rwa [List.getElem?_set_ne (Ne.symm same)], laterDone⟩

/-- A pending module is analysed after its imports, which do not lead back to it. -/
theorem returns_pending {depth : Nat} (returns : ReturnsTables modules depth) {index : Nat}
    {mod : Module} (listed : modules[index]? = some mod) {table : FuncSymbolTable}
    (found : moduleTable modules (depth + 1) index = some table)
    (late : moduleTable modules depth index = none) {current : List Module} {fuel : Nat}
    (agrees : Agrees modules current) (isModule : current[index]? = some mod)
    (above : ∀ other, Analysing current other → moduleTable modules depth other = none)
    (enough : pendingModules current ≤ fuel) :
    ∃ result, TableReturned modules fuel index table current result := by
  have unfolded := found
  rw [moduleTable, listed, Option.bind_some] at unfolded
  rcases Option.bind_eq_some_iff.mp unfolded with ⟨ast, loaded, unfolded⟩
  rcases Option.bind_eq_some_iff.mp unfolded with ⟨funcs, imported, statements⟩
  rcases List.getElem?_eq_some_iff.mp isModule with ⟨inside, value⟩
  have pending : mod.analysis = .pending := fresh mod (List.mem_of_getElem? listed)
  have fewer : pendingModules (current.set index { mod with analysis := .inProgress }) <
      pendingModules current :=
    pendingModules_set inside (value ▸ pending) nofun
  obtain ⟨fuel, rfl⟩ : ∃ less, fuel = less + 1 :=
    Nat.exists_eq_add_one_of_ne_zero (by omega)
  have started : Agrees modules (current.set index { mod with analysis := .inProgress }) :=
    agrees.set listed (.inr (.inl rfl))
  have startedAbove : ∀ other,
      Analysing (current.set index { mod with analysis := .inProgress }) other →
        moduleTable modules depth other = none := by
    intro other active
    rcases analysing_set active with ⟨rfl, -⟩ | ⟨-, active⟩
    · exact late
    · exact above other active
  rcases analyzeImports_returns returns imported started startedAbove
    (Nat.le_of_lt_succ (lt_of_lt_of_le fewer enough)) with
    ⟨imports, loop, ok, importsClean, rfl, progresses⟩
  unfold statementsTable at statements
  dsimp only at statements
  split at statements
  · cases statements
  rename_i statementsClean
  obtain rfl := Option.some.inj statements
  unfold Module.loadedTree at loaded
  split at loaded
  · rename_i state
    let analysed := analyzeTopLevel ast mod.filename (some mod.name) imports.funcs
    let finished : Module :=
      { mod with
        ast := some { ast with statements := analysed.nodes }
        funcs := analysed.state.funcs
        analysis := .done }
    have agreesAfter : Agrees modules (imports.modules.set index finished) :=
      progresses.agrees.set listed (.inr (.inr ⟨rfl, depth + 1, found⟩))
    have run : analyzeModule (analyzeProgram false (fuel + 1)) current index =
        some ⟨true, imports.modules.set index finished, imports.log ++ analysed.log ++ []⟩ := by
      rw [analyzeModule_loaded _ isModule pending state loaded]
      unfold analyzeProgram
      change ((analyzeImports _ _ _ _ _).bind _).map _ = _
      rw [loop, Option.bind_some, Option.map_some, ok]
      rfl
    refine ⟨_, run, rfl, ?_, ?_, ?_⟩
    · rw [Log.hadErrors_append, Log.hadErrors_append, importsClean]
      simpa using statementsClean
    · constructor
      · exact agreesAfter
      · intro other active
        rcases analysing_set active with ⟨-, active⟩ | ⟨differs, active⟩
        · cases active
        · rcases analysing_set (progresses.analysing other active) with ⟨same, -⟩ | ⟨-, active⟩
          · exact absurd same differs
          · exact active
      · have isDone : finished.analysis ≠ .pending := by simp [finished]
        apply (pendingModules_set_le _ _ isDone).trans
        exact progresses.pending.trans fewer.le
    · refine ⟨_, List.getElem?_set_self ?_, rfl⟩
      rw [progresses.agrees.length, ← agrees.length]
      exact inside
  · cases loaded

/-- A module that has its table is analysed. -/
theorem returnsTables (depth : Nat) : ReturnsTables modules depth := by
  induction depth with
  | zero => exact fun _ _ found => nomatch found
  | succ depth inductionHypothesis =>
      intro index table found current fuel agrees above enough
      have below : ∀ other, Analysing current other → moduleTable modules depth other = none := by
        intro other active
        cases early : moduleTable modules depth other with
        | none => rfl
        | some table =>
            have late := above other active
            rw [moduleTable_succ early] at late
            cases late
      cases early : moduleTable modules depth index with
      | some earlyTable =>
          obtain rfl := moduleTable_unique early found
          exact inductionHypothesis index earlyTable early current fuel agrees below enough
      | none =>
          rcases Option.bind_eq_some_iff.mp found with ⟨mod, listed, -⟩
          rcases List.getElem?_eq_some_iff.mp listed with ⟨inside, -⟩
          have insideNow := inside
          rw [← agrees.length] at insideNow
          have isNow := List.getElem?_eq_getElem insideNow
          rcases agrees.each index mod _ listed isNow with same | active | ⟨done, depth, known⟩
          · exact returns_pending fresh inductionHypothesis listed found early agrees
              (isNow.trans (congrArg some same)) below enough
          · have noTable := above index ⟨_, isNow, active⟩
            rw [found] at noTable
            cases noTable
          · refine ⟨⟨true, current, []⟩, ?_⟩
            constructor
            · unfold analyzeModule
              rw [isNow]
              simp [done]
            · rfl
            · rfl
            · exact .refl agrees
            · exact ⟨_, isNow, moduleTable_unique known found⟩

end Course

/-! ## Insertions -/

/-- The symbols that an import of a module inserts. -/
def FuncSymbolTable.exports (table : FuncSymbolTable) : List FuncSymbol :=
  (table.functions.filter FuncSymbol.isExported).map fun src =>
    { src with imported := true, defined := true }

theorem importPublicSymbols_inserts {filename : String} {funcs : FuncSymbolTable}
    {symbols : List FuncSymbol}
    (clean : Log.hadErrors (importPublicSymbols filename funcs symbols).2 = false) :
    FuncSymbolTable.Inserts filename funcs
      ((symbols.filter FuncSymbol.isExported).map fun src =>
        { src with imported := true, defined := true })
      (importPublicSymbols filename funcs symbols).1 := by
  induction symbols generalizing funcs with
  | nil => exact .nil
  | cons src rest inductionHypothesis =>
      unfold importPublicSymbols at clean ⊢
      split at clean
      · rename_i skipped
        rw [if_pos skipped]
        have noExport : ¬src.isExported := by
          unfold FuncSymbol.isExported
          cases isPublic : src.qualifiers.isPublic <;> simp_all
        rw [List.filter_cons_of_neg noExport]
        exact inductionHypothesis clean
      · rename_i passed
        rw [if_neg passed]
        have isExport : src.isExported := by
          unfold FuncSymbol.isExported
          cases isPublic : src.qualifiers.isPublic <;> simp_all
        rw [List.filter_cons_of_pos isExport, List.map_cons]
        simp only [Log.hadErrors_append, Bool.or_eq_false_iff] at clean
        constructor
        · by_contra failed
          rw [FuncSymbolTable.hadErrors_of_insert_not_ok (by simpa using failed)] at clean
          cases clean.1
        · exact inductionHypothesis clean.2

/-- Imports without errors insert the exports of the modules. -/
theorem importsTable_inserts {tableOf : Nat → Option FuncSymbolTable} {filename : String}
    {imports : List Import} {funcs after : FuncSymbolTable}
    (found : importsTable tableOf filename imports funcs = some after) :
    FuncSymbolTable.Inserts filename funcs
      (imports.flatMap fun imp => ((tableOf imp.moduleIndex).getD {}).exports) after := by
  induction imports generalizing funcs with
  | nil =>
      obtain rfl := Option.some.inj found
      exact .nil
  | cons imp rest inductionHypothesis =>
      unfold importsTable at found
      split at found
      · rcases Option.bind_eq_some_iff.mp found with ⟨table, isTable, found⟩
        dsimp only at found
        split at found
        · cases found
        · rename_i clean
          rw [List.flatMap_cons, isTable]
          exact (importPublicSymbols_inserts (by simpa using clean)).append
            (inductionHypothesis found)
      · cases found

/-- A module that is imported twice exports nothing. -/
theorem exports_of_again {tableOf : Nat → Option FuncSymbolTable} {filename : String}
    {before rest : List Import} {imp other : Import} {after : FuncSymbolTable}
    (found : importsTable tableOf filename (before ++ imp :: rest) {} = some after)
    (again : other ∈ before ++ rest) (same : other.moduleIndex = imp.moduleIndex) :
    ((tableOf imp.moduleIndex).getD {}).exports = [] := by
  have pairwise := (importsTable_inserts found).pairwise
  rw [List.pairwise_flatMap] at pairwise
  have symmetric {first second : Import}
      (apart : ∀ func ∈ ((tableOf first.moduleIndex).getD {}).exports,
        ∀ later ∈ ((tableOf second.moduleIndex).getD {}).exports,
          func.defined → later.defined → later.name ≠ func.name) :
      ∀ func ∈ ((tableOf second.moduleIndex).getD {}).exports,
        ∀ later ∈ ((tableOf first.moduleIndex).getD {}).exports,
          func.defined → later.defined → later.name ≠ func.name :=
    fun func isFunc later isLater defined laterDefined =>
      (apart later isLater func isFunc laterDefined defined).symm
  have first := (List.perm_middle.pairwise_iff symmetric).mp pairwise.2
  have apart := (List.pairwise_cons.mp first).1 other again
  rw [same] at apart
  rw [List.eq_nil_iff_forall_not_mem]
  intro symbol isExport
  have defined : symbol.defined := by
    rcases List.mem_map.mp isExport with ⟨src, -, rfl⟩
    rfl
  exact apart symbol isExport symbol isExport defined defined rfl

/-- An import of a module that exports nothing inserts nothing. -/
theorem importsTable_insert {tableOf : Nat → Option FuncSymbolTable} {filename : String}
    {before rest : List Import} {imp : Import} {funcs after table : FuncSymbolTable}
    (resolved : imp.resolved) (isTable : tableOf imp.moduleIndex = some table)
    (nothing : table.exports = [])
    (found : importsTable tableOf filename (before ++ rest) funcs = some after) :
    importsTable tableOf filename (before ++ imp :: rest) funcs = some after := by
  rw [importsTable_append] at found ⊢
  rcases Option.bind_eq_some_iff.mp found with ⟨between, first, second⟩
  have inserted : importPublicSymbols filename between table.functions = (between, []) := by
    rw [importPublicSymbols_filter, List.map_eq_nil_iff.mp nothing]
    rfl
  rw [first, Option.bind_some, importsTable, if_pos resolved, isTable, Option.bind_some, inserted]
  exact second

/-! ## Programs -/

section Programs

variable {program : Program} {filename : String} {options : CompilerOptions}
  {modules : List Module}

/-- The statements of a program in a table that are analysed without errors. -/
structure CleanStatements (program : Program) (filename : String) (options : CompilerOptions)
    (imported : FuncSymbolTable) (analysis : ProgramAnalysis) : Prop where
  statements : analysis.program.statements =
    (analyzeTopLevel program filename (options.moduleName filename) imported).nodes
  funcs : analysis.funcs =
    (analyzeTopLevel program filename (options.moduleName filename) imported).state.funcs
  clean : Log.hadErrors
    (analyzeTopLevel program filename (options.moduleName filename) imported).log = false
  root : Log.hadErrors (rootLog (!options.isModule) filename analysis.funcs) = false

/-- An accepted program is analysed in the tables of its modules. -/
theorem importsTable_of_accepted {analysis : ProgramAnalysis}
    (accepted : Accepted program filename options modules analysis) (ok : analysis.ok) :
    Agrees modules analysis.modules ∧
      (∀ imp ∈ program.imports, Analysed analysis.modules imp.moduleIndex) ∧
      ∃ fuel imported,
        importsTable (moduleTable modules fuel) filename program.imports {} = some imported ∧
          CleanStatements program filename options imported analysis := by
  have fresh : ∀ mod ∈ modules, mod.analysis = .pending :=
    fun mod isModule => (accepted.modulesFromParser mod isModule).analysis
  have run := accepted.analyzed
  unfold analyze analyzeProgram at run
  rcases Option.bind_eq_some_iff.mp run with ⟨imports, imported, run⟩
  obtain rfl := Option.some.inj run
  have clean := accepted.noErrors
  simp only [Log.hadErrors_append, Bool.or_eq_false_iff] at clean
  rcases analyzeImports_table fresh (tablesModules fresh modules.length) (.refl modules) imported
    ok clean.1.1 with ⟨agrees, analysed, -, fuel, found⟩
  exact ⟨agrees, analysed, fuel, imports.funcs, found, rfl, rfl, clean.1.2, clean.2⟩

/-- A program whose imports have their tables is accepted. -/
theorem accepted_of_importsTable {fuel : Nat} {imported : FuncSymbolTable}
    {analysis : ProgramAnalysis} (fromParser : program.FromParser filename)
    (modulesFromParser : ∀ mod ∈ modules, mod.FromParser)
    (found : importsTable (moduleTable modules fuel) filename program.imports {} = some imported)
    (clean : CleanStatements program filename options imported analysis) :
    ∃ other, Accepted program filename options modules other ∧ other.ok ∧
      other.funcs = analysis.funcs ∧
      other.program.statements = analysis.program.statements := by
  have fresh : ∀ mod ∈ modules, mod.analysis = .pending :=
    fun mod isModule => (modulesFromParser mod isModule).analysis
  have noneActive : ∀ other, Analysing modules other → moduleTable modules fuel other = none := by
    rintro other ⟨now, isNow, active⟩
    rw [fresh now (List.mem_of_getElem? isNow)] at active
    cases active
  rcases analyzeImports_returns (returnsTables fresh fuel) found (.refl modules) noneActive
    List.countP_le_length with ⟨imports, loop, ok, importsClean, rfl, -⟩
  let top := analyzeTopLevel program filename (options.moduleName filename) imports.funcs
  let other : ProgramAnalysis :=
    { ok := imports.ok
      program := { program with statements := top.nodes }
      funcs := top.state.funcs
      modules := imports.modules
      log := imports.log ++ top.log ++ rootLog (!options.isModule) filename top.state.funcs }
  have run : analyze program filename options modules = some other := by
    unfold analyze analyzeProgram
    change (analyzeImports _ _ _ _ _).bind _ = _
    rw [loop]
    rfl
  have root := clean.root
  rw [clean.funcs] at root
  have noErrors : Log.hadErrors other.log = false := by
    rw [Log.hadErrors_append, Log.hadErrors_append, importsClean, clean.clean, root]
    rfl
  exact ⟨other, ⟨fromParser, modulesFromParser, run, noErrors⟩, ok, clean.funcs.symm,
    clean.statements.symm⟩

/-- The program with one more import. -/
def Program.importing (program : Program) (before : List Import) (imp : Import)
    (rest : List Import) : Program :=
  { program with imports := before ++ imp :: rest }

/-- An accepted program that imports one of its modules again is accepted, with the same
table and the same code, exactly when the module exports nothing. -/
theorem accepted_importing_iff {analysis : ProgramAnalysis}
    (accepted : Accepted program filename options modules analysis) (ok : analysis.ok)
    {before rest : List Import} (imports : program.imports = before ++ rest) {imp : Import}
    (resolved : imp.resolved)
    (again : ∃ other ∈ program.imports, other.moduleIndex = imp.moduleIndex) :
    (∃ more, Accepted (program.importing before imp rest) filename options modules more ∧
        more.ok ∧ more.funcs = analysis.funcs ∧
        Ir.irGenerate more.program = Ir.irGenerate analysis.program) ↔
      ∀ mod ∈ analysis.modules[imp.moduleIndex]?, ∀ symbol ∈ mod.funcs.functions,
        symbol.isExported = false := by
  have fresh : ∀ mod ∈ modules, mod.analysis = .pending :=
    fun mod isModule => (accepted.modulesFromParser mod isModule).analysis
  rcases importsTable_of_accepted accepted ok with ⟨agrees, analysed, fuel, imported, found, clean⟩
  rcases again with ⟨other, isImport, same⟩
  rcases same ▸ analysed other isImport with ⟨mod, isModule, done⟩
  rcases agrees.of_done fresh isModule done with ⟨depth, isTable⟩
  have exports : mod.funcs.exports = [] ↔
      ∀ mod ∈ analysis.modules[imp.moduleIndex]?, ∀ symbol ∈ mod.funcs.functions,
        symbol.isExported = false := by
    rw [isModule]
    simp [FuncSymbolTable.exports]
  rw [← exports]
  constructor
  · rintro ⟨more, moreAccepted, moreOk, -⟩
    rcases importsTable_of_accepted moreAccepted moreOk with
      ⟨-, -, moreFuel, moreImported, moreFound, -⟩
    have deep := importsTable_mono
      (fun _ _ => moduleTable_mono (Nat.le_max_left moreFuel depth)) moreFound
    rw [imports] at isImport
    have nothing := exports_of_again deep isImport same
    rwa [moduleTable_mono (Nat.le_max_right moreFuel depth) isTable] at nothing
  · intro nothing
    rw [imports] at found
    have deep := importsTable_mono
      (fun _ _ => moduleTable_mono (Nat.le_max_left fuel depth)) found
    have inserted := importsTable_insert resolved
      (moduleTable_mono (Nat.le_max_right fuel depth) isTable) nothing deep
    have fromParser : (program.importing before imp rest).FromParser filename :=
      accepted.fromParser
    have moreClean : CleanStatements (program.importing before imp rest) filename options imported
        analysis :=
      ⟨clean.statements, clean.funcs, clean.clean, clean.root⟩
    rcases accepted_of_importsTable fromParser accepted.modulesFromParser inserted moreClean with
      ⟨more, moreAccepted, moreOk, funcs, statements⟩
    refine ⟨more, moreAccepted, moreOk, funcs, ?_⟩
    unfold Ir.irGenerate
    rw [statements]

end Programs

/-! ## A module with a public function -/

/-- The tree of a source. -/
def parsedProgram (source filename : String) : Program :=
  ((parse (tokenize source.toList filename).tokens filename).map fun parsed =>
    parsed.program).getD {}

theorem fromParser_parsedProgram {source filename : String}
    (parses : (parse (tokenize source.toList filename).tokens filename).map
      (fun parsed => Log.hadErrors parsed.log) = some false) :
    (parsedProgram source filename).FromParser filename := by
  rcases Option.map_eq_some_iff.mp parses with ⟨parsed, run, clean⟩
  refine ⟨_, parsed, run, clean, ?_⟩
  unfold parsedProgram
  rw [run]
  rfl

/-- A module with one public function. -/
def exportingModules : List Module :=
  [{ state := .loaded
     ast := some (parsedProgram "pub fn f() i32 { return 1; }" "m.slfr")
     filename := "m.slfr"
     name := "m.slfr" }]

/-- The import of that module. -/
def importM : Import :=
  { path := "m.slfr"
    moduleIndex := 0
    resolved := true }

/-- A program that imports the module and calls its function. -/
def importingProgram : Program :=
  { parsedProgram "import m; fn main() i32 { return f(); }" "main.slfr" with
    imports := [importM] }

theorem isSome_analyze_importing :
    (analyze importingProgram "main.slfr" {} exportingModules).isSome := by
  decide

/-- The analysis of that program. -/
def importingAnalysis : ProgramAnalysis :=
  (analyze importingProgram "main.slfr" {} exportingModules).get isSome_analyze_importing

theorem accepted_importing :
    Accepted importingProgram "main.slfr" {} exportingModules importingAnalysis := by
  constructor
  · exact fromParser_parsedProgram (by decide)
  · intro mod isModule
    rw [List.mem_singleton.mp isModule]
    constructor
    · rintro program ⟨⟩
      exact fromParser_parsedProgram (by decide)
    · rfl
    · rfl
  · exact (Option.some_get isSome_analyze_importing).symm
  · decide

theorem ok_importing : importingAnalysis.ok = true := by
  decide

/-- The second import reports that the function is already defined. -/
theorem accepted_importing_differs :
    Accepted importingProgram "main.slfr" {} exportingModules importingAnalysis ∧
      importingAnalysis.ok = true ∧
      ¬∃ more, Accepted (importingProgram.importing [importM] importM []) "main.slfr" {}
        exportingModules more := by
  refine ⟨accepted_importing, ok_importing, ?_⟩
  rintro ⟨more, accepted⟩
  have errors : (analyze (importingProgram.importing [importM] importM []) "main.slfr" {}
      exportingModules).map (fun analysis => Log.hadErrors analysis.log) = some true := by
    decide
  rw [accepted.analyzed, Option.map_some, accepted.noErrors] at errors
  cases errors

theorem accepted_importing_iff_exporting :
    (∃ more, Accepted (importingProgram.importing [importM] importM []) "main.slfr" {}
          exportingModules more ∧
        more.ok ∧ more.funcs = importingAnalysis.funcs ∧
        Ir.irGenerate more.program = Ir.irGenerate importingAnalysis.program) ↔
      ∀ mod ∈ importingAnalysis.modules[importM.moduleIndex]?,
        ∀ symbol ∈ mod.funcs.functions, symbol.isExported = false :=
  accepted_importing_iff accepted_importing ok_importing rfl rfl
    ⟨importM, List.mem_singleton.mpr rfl, rfl⟩

end Sulfur
