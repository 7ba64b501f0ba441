import Sulfur.Library.Search
import Sulfur.Semantic.Program

/-!
# Import cycles

`analyze_module` searches the graph of the imports in depth.  The marks of the
search are the analysis states of the modules; an import that was not resolved
is a missing successor.
-/

namespace Sulfur

open Search (Event Visits Session)
open Relation

/-! ## The graph of a module list -/

/-- The state of an analysis as a mark of the search. -/
def ModuleAnalysis.mark : ModuleAnalysis → Search.Mark
  | .pending => .pending
  | .inProgress => .active
  | .done => .done
  | .failed => .failed

/-- The module that an import was resolved to. -/
def Import.target (imp : Import) : Option Nat :=
  if imp.resolved then some imp.moduleIndex else none

namespace Module

/-- `analyze_module` starts the analysis of a module only when it is loaded and
has a tree. -/
def Loaded (mod : Module) : Prop :=
  mod.state = .loaded ∧ mod.ast.isSome

/-- The imports in the tree of a module. -/
def imports (mod : Module) : List Import :=
  (mod.ast.map Program.imports).getD []

end Module

/-- The imports between the modules of a list. -/
def importGraph (modules : List Module) : Search.Graph Nat where
  ready index := ∃ mod ∈ modules[index]?, mod.Loaded
  next index := ((modules[index]?.map Module.imports).getD []).map Import.target

/-- The marks that the states of the modules stand for. -/
def analysisMarks (modules : List Module) (index : Nat) : Search.Mark :=
  (modules[index]?.map fun mod => mod.analysis.mark).getD .pending

/-- Every import that was resolved leads to a module of the list. -/
def ImportsResolve (modules : List Module) : Prop :=
  ∀ index target, (importGraph modules).Edge index target → target < modules.length

/-! ## The calls of `analyze_program` -/

/-- The events of `analyze_module`: a module is entered when `analyze_program`
is called for it and left when its statements have been analysed. -/
def moduleEvents (programEvents : Program → List Module → List (Event Nat))
    (modules : List Module) (index : Nat) : List (Event Nat) :=
  match modules[index]? with
  | none => []
  | some mod =>
      match mod.analysis with
      | .pending =>
          match mod.state, mod.ast with
          | .loaded, some ast =>
              .enter index ::
                programEvents ast
                  (modules.set index { mod with analysis := .inProgress }) ++
                [.leave index]
          | _, _ => [.refuse index]
      | _ => []

/-- The modules after `analyze_module`. -/
def modulesAfter (analyzeProgram : ProgramAnalyzer) (modules : List Module)
    (index : Nat) : List Module :=
  ((analyzeModule analyzeProgram modules index).map ModuleResult.modules).getD modules

/-- The events of the import loop of `analyze_program`. -/
def importEvents (programEvents : Program → List Module → List (Event Nat))
    (analyzeProgram : ProgramAnalyzer) : List Import → List Module → List (Event Nat)
  | [], _ => []
  | imp :: rest, modules =>
      if imp.resolved then
        moduleEvents programEvents modules imp.moduleIndex ++
          importEvents programEvents analyzeProgram rest
            (modulesAfter analyzeProgram modules imp.moduleIndex)
      else
        importEvents programEvents analyzeProgram rest modules

/-- The events of `analyze_program` for the modules below a program. -/
def programEvents : Nat → Program → List Module → List (Event Nat)
  | 0, _, _ => []
  | fuel + 1, program, modules =>
      importEvents (programEvents fuel) (analyzeProgram false fuel) program.imports
        modules

/-- Calls of `analyze_module`, one after the other. -/
def analyzeModules (analyzeProgram : ProgramAnalyzer) :
    List Nat → List Module → Option (List Bool × List Module)
  | [], modules => some ([], modules)
  | index :: rest, modules => do
      let result ← analyzeModule analyzeProgram modules index
      let others ← analyzeModules analyzeProgram rest result.modules
      return (result.ok :: others.1, others.2)

/-- The events of such calls. -/
def sessionEvents (fuel : Nat) : List Nat → List Module → List (Event Nat)
  | [], _ => []
  | index :: rest, modules =>
      moduleEvents (programEvents fuel) modules index ++
        sessionEvents fuel rest (modulesAfter (analyzeProgram false fuel) modules index)

/-! ## The analysis searches the graph -/

theorem analysisMarks_of_get {modules : List Module} {index : Nat} {mod : Module}
    (listed : modules[index]? = some mod) :
    analysisMarks modules index = mod.analysis.mark := by
  simp [analysisMarks, listed]

theorem analysisMarks_set {modules : List Module} {index : Nat}
    (inRange : index < modules.length) (new : Module) :
    analysisMarks (modules.set index new) =
      Search.mark (analysisMarks modules) index new.analysis.mark := by
  funext other
  by_cases same : other = index
  · subst same
    simp [analysisMarks, inRange]
  · rw [Search.mark_of_ne _ same]
    simp [analysisMarks, List.getElem?_set_ne (Ne.symm same)]

/-- A module that is as loaded as the one in its place and has the same imports
leaves the graph as it is. -/
theorem importGraph_set {modules : List Module} {index : Nat} {new : Module}
    (inRange : index < modules.length)
    (loaded : new.Loaded ↔ (importGraph modules).ready index)
    (imports : new.imports.map Import.target = (importGraph modules).next index) :
    importGraph (modules.set index new) = importGraph modules := by
  have ready : (importGraph (modules.set index new)).ready = (importGraph modules).ready := by
    funext other
    by_cases same : other = index
    · subst same
      rw [← loaded]
      simp [importGraph, inRange]
    · simp [importGraph, List.getElem?_set_ne (Ne.symm same)]
  have next : (importGraph (modules.set index new)).next = (importGraph modules).next := by
    funext other
    by_cases same : other = index
    · subst same
      rw [← imports]
      simp [importGraph, inRange]
    · simp [importGraph, List.getElem?_set_ne (Ne.symm same)]
  calc
    importGraph (modules.set index new)
      = ⟨(importGraph (modules.set index new)).ready,
          (importGraph (modules.set index new)).next⟩ := rfl
    _ = importGraph modules := by rw [ready, next]

/-- The modules of a list that are not seen yet. -/
def unseenModules (modules : List Module) : Nat :=
  Search.unseen (Finset.range modules.length) (analysisMarks modules)

/-- A result of `analyze_module` is the one of a search of the graph. -/
structure ModuleSearched (fuel : Nat) (modules : List Module) (index : Nat)
    (result : ModuleResult) : Prop where
  returns : analyzeModule (analyzeProgram false fuel) modules index = some result
  visits : Visits (importGraph modules) (analysisMarks modules) [some index] result.ok
    (analysisMarks result.modules) (moduleEvents (programEvents fuel) modules index)
  graph : importGraph result.modules = importGraph modules
  length : result.modules.length = modules.length

/-- The fuel is enough for the modules that are not seen yet. -/
def SearchesModules (fuel : Nat) : Prop :=
  ∀ modules, ImportsResolve modules → unseenModules modules ≤ fuel →
    ∀ index < modules.length, ∃ result, ModuleSearched fuel modules index result

/-- A result of the import loop is the one of a search of the imports. -/
structure ImportsSearched (fuel : Nat) (filename : String) (imports : List Import)
    (funcs : FuncSymbolTable) (modules : List Module) (result : ImportAnalysis) :
    Prop where
  returns :
    analyzeImports (analyzeProgram false fuel) filename imports funcs modules =
      some result
  visits : Visits (importGraph modules) (analysisMarks modules)
    (imports.map Import.target) result.ok (analysisMarks result.modules)
    (importEvents (programEvents fuel) (analyzeProgram false fuel) imports modules)
  graph : importGraph result.modules = importGraph modules
  length : result.modules.length = modules.length

theorem ImportsResolve.of_same {modules after : List Module}
    (resolve : ImportsResolve modules) (graph : importGraph after = importGraph modules)
    (length : after.length = modules.length) : ImportsResolve after := by
  intro index target edge
  rw [graph] at edge
  rw [length]
  exact resolve index target edge

theorem ModuleSearched.unseen_le {fuel : Nat} {modules : List Module} {index : Nat}
    {result : ModuleResult} (searched : ModuleSearched fuel modules index result) :
    unseenModules result.modules ≤ unseenModules modules := by
  rw [unseenModules, searched.length]
  exact searched.visits.extends.unseen_le _

/-- One import that was resolved, and then the others. -/
theorem ModuleSearched.cons {fuel : Nat} {filename : String} {imp : Import}
    {rest : List Import} {funcs : FuncSymbolTable} {modules : List Module}
    {result : ModuleResult} {others : ImportAnalysis} (resolved : imp.resolved = true)
    (first : ModuleSearched fuel modules imp.moduleIndex result)
    (searched : ImportsSearched fuel filename rest funcs result.modules others) :
    Visits (importGraph modules) (analysisMarks modules)
      ((imp :: rest).map Import.target) (result.ok && others.ok)
      (analysisMarks others.modules)
      (importEvents (programEvents fuel) (analyzeProgram false fuel) (imp :: rest)
        modules) := by
  have after : modulesAfter (analyzeProgram false fuel) modules imp.moduleIndex =
      result.modules := by
    simp [modulesAfter, first.returns]
  have target : imp.target = some imp.moduleIndex := by
    simp [Import.target, resolved]
  have visits := searched.visits
  rw [first.graph] at visits
  simp only [List.map_cons, target, importEvents, resolved, if_true, after]
  exact first.visits.cons visits

theorem analyzeImports_searches {fuel : Nat} (searches : SearchesModules fuel)
    (filename : String) (imports : List Import) (funcs : FuncSymbolTable)
    (modules : List Module) (resolve : ImportsResolve modules)
    (enough : unseenModules modules ≤ fuel)
    (inRange : ∀ target, some target ∈ imports.map Import.target →
      target < modules.length) :
    ∃ result, ImportsSearched fuel filename imports funcs modules result := by
  induction imports generalizing funcs modules with
  | nil => exact ⟨_, rfl, .nil, rfl, rfl⟩
  | cons imp rest inductionHypothesis =>
      have restInRange : ∀ target, some target ∈ rest.map Import.target →
          target < modules.length :=
        fun target listed => inRange target (List.mem_cons_of_mem _ listed)
      cases resolved : imp.resolved with
      | false =>
          obtain ⟨others, searched⟩ :=
            inductionHypothesis funcs modules resolve enough restInRange
          refine ⟨{ others with ok := false }, ?_, ?_, searched.graph, searched.length⟩
          · simp [analyzeImports, resolved, searched.returns]
          · simpa [Import.target, importEvents, resolved] using
              Visits.missing searched.visits
      | true =>
          have headInRange : imp.moduleIndex < modules.length :=
            inRange _ (by simp [Import.target, resolved])
          obtain ⟨result, first⟩ :=
            searches modules resolve enough imp.moduleIndex headInRange
          have between := resolve.of_same first.graph first.length
          have enoughBetween := first.unseen_le.trans enough
          rw [← first.length] at restInRange headInRange
          cases ok : result.ok with
          | false =>
              obtain ⟨others, searched⟩ :=
                inductionHypothesis funcs result.modules between enoughBetween restInRange
              refine ⟨{ others with ok := false, log := result.log ++ others.log },
                ?_, ?_, ?_, ?_⟩
              · simp [analyzeImports, resolved, first.returns, ok, searched.returns]
              · simpa [ok] using first.cons resolved searched
              · exact searched.graph.trans first.graph
              · exact searched.length.trans first.length
          | true =>
              have dep := List.getElem?_eq_getElem headInRange
              let imported := importPublicSymbols filename funcs
                result.modules[imp.moduleIndex].funcs.functions
              obtain ⟨others, searched⟩ := inductionHypothesis imported.1 result.modules
                between enoughBetween restInRange
              refine ⟨{ others with log := result.log ++ imported.2 ++ others.log },
                ?_, ?_, ?_, ?_⟩
              · simp [analyzeImports, resolved, first.returns, ok, searched.returns, dep,
                  imported]
              · simpa [ok] using first.cons resolved searched
              · exact searched.graph.trans first.graph
              · exact searched.length.trans first.length

/-- A module that is not pending is answered from its mark. -/
theorem analyzeModule_known (analyzer : ProgramAnalyzer) {modules : List Module}
    {index : Nat} {mod : Module} (listed : modules[index]? = some mod)
    (seen : mod.analysis ≠ .pending) :
    ∃ log, analyzeModule analyzer modules index =
      some ⟨mod.analysis.mark == .done, modules, log⟩ := by
  simp only [analyzeModule, listed, Option.bind_eq_bind, Option.bind_some]
  cases analysis : mod.analysis with
  | pending => exact absurd analysis seen
  | inProgress => exact ⟨_, rfl⟩
  | done => exact ⟨_, rfl⟩
  | failed => exact ⟨_, rfl⟩

theorem searched_known {fuel : Nat} {modules : List Module} {index : Nat} {mod : Module}
    (listed : modules[index]? = some mod) (seen : mod.analysis ≠ .pending) :
    ∃ result, ModuleSearched fuel modules index result := by
  obtain ⟨log, returns⟩ :=
    analyzeModule_known (analyzeProgram false fuel) listed seen
  have known : analysisMarks modules index ≠ .pending := by
    rw [analysisMarks_of_get listed]
    cases analysis : mod.analysis <;> simp_all [ModuleAnalysis.mark]
  have events : moduleEvents (programEvents fuel) modules index = [] := by
    cases analysis : mod.analysis <;> simp_all [moduleEvents]
  have visits : Visits (importGraph modules) (analysisMarks modules) [some index]
      (analysisMarks modules index == .done && true) (analysisMarks modules) [] :=
    .known known .nil
  refine ⟨_, returns, ?_, rfl, rfl⟩
  rw [events]
  simpa [analysisMarks_of_get listed] using visits

/-- A module that is not loaded is refused. -/
theorem searched_refused {fuel : Nat} {modules : List Module} {index : Nat} {mod : Module}
    (listed : modules[index]? = some mod) (pending : mod.analysis = .pending)
    (notLoaded : ¬mod.Loaded) :
    ∃ result, ModuleSearched fuel modules index result := by
  have inRange : index < modules.length := (List.getElem?_eq_some_iff.mp listed).1
  have notReady : ¬(importGraph modules).ready index := by
    simpa [importGraph, listed] using notLoaded
  have refused : analyzeModule (analyzeProgram false fuel) modules index =
        some ⟨false, modules.set index { mod with analysis := .failed }, []⟩ ∧
      moduleEvents (programEvents fuel) modules index = [.refuse index] := by
    cases state : mod.state <;> cases ast : mod.ast <;>
      simp_all [analyzeModule, moduleEvents, Module.Loaded]
  have visits : Visits (importGraph modules) (analysisMarks modules) [some index] false
      (Search.mark (analysisMarks modules) index .failed) [.refuse index] :=
    .refused (by simp [analysisMarks_of_get listed, pending, ModuleAnalysis.mark])
      notReady .nil
  refine ⟨_, refused.1, ?_, ?_, by simp⟩
  · rw [refused.2, analysisMarks_set inRange]
    exact visits
  · refine importGraph_set inRange ?_ ?_
    · simp [importGraph, listed, Module.Loaded]
    · simp [importGraph, listed, Module.imports]

theorem analyzeModule_loaded (analyzer : ProgramAnalyzer) {modules : List Module}
    {index : Nat} {mod : Module} {ast : Program} (listed : modules[index]? = some mod)
    (pending : mod.analysis = .pending) (state : mod.state = .loaded)
    (tree : mod.ast = some ast) :
    analyzeModule analyzer modules index =
      (analyzer ast mod.filename (some mod.name)
        (modules.set index { mod with analysis := .inProgress })).map fun analysis =>
          ⟨analysis.ok, analysis.modules.set index
            { mod with
              ast := some analysis.program
              funcs := analysis.funcs
              analysis := if analysis.ok then .done else .failed }, analysis.log⟩ := by
  obtain ⟨_, _, filename, name, _, funcs⟩ := mod
  subst pending state tree
  simp only [analyzeModule, listed, Option.bind_eq_bind, Option.bind_some]
  exact Option.map_eq_bind.symm

/-- A pending module is entered, and left after its imports. -/
theorem searched_loaded {fuel : Nat} (searches : SearchesModules fuel)
    {modules : List Module} {index : Nat} {mod : Module} {ast : Program}
    (resolve : ImportsResolve modules) (enough : unseenModules modules ≤ fuel + 1)
    (listed : modules[index]? = some mod) (pending : mod.analysis = .pending)
    (state : mod.state = .loaded) (tree : mod.ast = some ast) :
    ∃ result, ModuleSearched (fuel + 1) modules index result := by
  have inRange : index < modules.length := (List.getElem?_eq_some_iff.mp listed).1
  have unseen : analysisMarks modules index = .pending := by
    simp [analysisMarks_of_get listed, pending, ModuleAnalysis.mark]
  have ready : (importGraph modules).ready index := by
    simp [importGraph, listed, Module.Loaded, state, tree]
  have next : (importGraph modules).next index = ast.imports.map Import.target := by
    simp [importGraph, listed, Module.imports, tree]
  let started := modules.set index { mod with analysis := .inProgress }
  have startedGraph : importGraph started = importGraph modules := by
    refine importGraph_set inRange ?_ ?_
    · simp [importGraph, listed, Module.Loaded]
    · simp [importGraph, listed, Module.imports]
  have startedMarks : analysisMarks started =
      Search.mark (analysisMarks modules) index .active :=
    analysisMarks_set inRange _
  have startedLength : started.length = modules.length := by simp [started]
  have fewer : unseenModules started ≤ fuel := by
    have less := Search.unseen_enter_lt (Finset.mem_range.mpr inRange) unseen
    rw [← startedMarks] at less
    rw [unseenModules, startedLength]
    exact Nat.le_of_lt_succ (less.trans_le enough)
  obtain ⟨imports, searched⟩ := analyzeImports_searches searches mod.filename ast.imports
    {} started (resolve.of_same startedGraph startedLength) fewer (by
      rw [startedLength, ← next]
      exact fun target edge => resolve index target edge)
  let statements := analyzeTopLevel ast mod.filename (some mod.name) imports.funcs
  let analysis : ProgramAnalysis :=
    { ok := imports.ok
      program := { ast with statements := statements.nodes }
      funcs := statements.state.funcs
      modules := imports.modules
      log := imports.log ++ statements.log }
  have analysed : analyzeProgram false (fuel + 1) ast mod.filename (some mod.name)
      started = some analysis := by
    simp [analyzeProgram, searched.returns, rootLog, analysis, statements]
  let finished : Module :=
    { mod with
      ast := some analysis.program
      funcs := analysis.funcs
      analysis := if analysis.ok then .done else .failed }
  have finishedInRange : index < imports.modules.length := by
    rw [searched.length, startedLength]
    exact inRange
  have graph : importGraph imports.modules = importGraph modules :=
    searched.graph.trans startedGraph
  have finishedMark : finished.analysis.mark = Search.outcome imports.ok := by
    cases ok : imports.ok <;> simp [finished, analysis, ok, ModuleAnalysis.mark, Search.outcome]
  refine ⟨⟨imports.ok, imports.modules.set index finished, analysis.log⟩, ?_, ?_, ?_, ?_⟩
  · rw [analyzeModule_loaded _ listed pending state tree, analysed]
    rfl
  · have inside := searched.visits
    rw [startedGraph, startedMarks, ← next] at inside
    have visits := Visits.searched unseen ready inside .nil
    have events : moduleEvents (programEvents (fuel + 1)) modules index =
        .enter index :: importEvents (programEvents fuel) (analyzeProgram false fuel)
          ast.imports started ++ [.leave index] := by
      simp [moduleEvents, listed, pending, state, tree, programEvents, started]
    rw [events, analysisMarks_set finishedInRange, finishedMark]
    simpa using visits
  · rw [← graph]
    refine importGraph_set finishedInRange ?_ ?_
    · rw [graph]
      simp [ready, finished, Module.Loaded, state]
    · rw [graph, next]
      simp [finished, Module.imports, analysis]
  · simp [searched.length, startedLength]

theorem searchesModules (fuel : Nat) : SearchesModules fuel := by
  induction fuel with
  | zero =>
      intro modules _ enough index inRange
      have listed := List.getElem?_eq_getElem inRange
      refine searched_known listed fun pending => ?_
      have unseen : analysisMarks modules index = .pending := by
        simp [analysisMarks_of_get listed, pending, ModuleAnalysis.mark]
      have fewer := Search.unseen_enter_lt (Finset.mem_range.mpr inRange) unseen
      exact absurd (fewer.trans_le enough) (Nat.not_lt_zero _)
  | succ fuel inductionHypothesis =>
      intro modules resolve enough index inRange
      have listed := List.getElem?_eq_getElem inRange
      by_cases pending : modules[index].analysis = .pending
      · by_cases loaded : modules[index].Loaded
        · obtain ⟨ast, tree⟩ := Option.isSome_iff_exists.mp loaded.2
          exact searched_loaded inductionHypothesis resolve enough listed pending loaded.1 tree
        · exact searched_refused listed pending loaded
      · exact searched_known listed pending

/-- Calls of `analyze_module` are searches of the graph, one after the other. -/
theorem analyzeModules_session {fuel : Nat} (calls : List Nat) (modules : List Module)
    (resolve : ImportsResolve modules) (enough : unseenModules modules ≤ fuel)
    (inRange : ∀ index ∈ calls, index < modules.length) :
    ∃ answers after,
      analyzeModules (analyzeProgram false fuel) calls modules = some (answers, after) ∧
        Session (importGraph modules) (analysisMarks modules) calls answers
          (analysisMarks after) (sessionEvents fuel calls modules) := by
  induction calls generalizing modules with
  | nil => exact ⟨[], modules, rfl, .nil⟩
  | cons index rest inductionHypothesis =>
      obtain ⟨result, first⟩ := searchesModules fuel modules resolve enough index
        (inRange index (List.mem_cons_self ..))
      have restInRange : ∀ other ∈ rest, other < result.modules.length := by
        rw [first.length]
        exact fun other listed => inRange other (List.mem_cons_of_mem _ listed)
      obtain ⟨answers, after, returns, session⟩ := inductionHypothesis result.modules
        (resolve.of_same first.graph first.length) (first.unseen_le.trans enough)
        restInRange
      have next : modulesAfter (analyzeProgram false fuel) modules index =
          result.modules := by
        simp [modulesAfter, first.returns]
      refine ⟨result.ok :: answers, after, ?_, ?_⟩
      · simp [analyzeModules, first.returns, returns]
      · rw [first.graph] at session
        rw [sessionEvents, next]
        exact .cons first.visits session

/-! ## The cycle check is exact -/

theorem analysisMarks_pending {modules : List Module}
    (pending : ∀ mod ∈ modules, mod.analysis = .pending) (index : Nat) :
    analysisMarks modules index = .pending := by
  cases listed : modules[index]? with
  | none => simp [analysisMarks, listed]
  | some mod =>
      rw [analysisMarks_of_get listed, pending mod (List.mem_of_getElem? listed)]
      rfl

theorem exists_done_of_mark {modules : List Module} {index : Nat}
    (done : analysisMarks modules index = .done) :
    ∃ mod, modules[index]? = some mod ∧ mod.analysis = .done := by
  cases listed : modules[index]? with
  | none => simp [analysisMarks, listed] at done
  | some mod =>
      refine ⟨mod, rfl, ?_⟩
      rw [analysisMarks_of_get listed] at done
      cases analysis : mod.analysis <;> simp_all [ModuleAnalysis.mark]

/-- The exact cycle check, from a list of modules of which none is analysed yet:
any calls of `analyze_module` return; the answer about a module is true exactly
when every module it reaches is loaded, has its imports resolved and is on no
cycle; these modules then end as done.  `analyze_program` runs at most once for
each module, and analyses its statements after those of the modules it imports,
but for a module that leads back to it and is still in progress. -/
theorem analyzeModules_exact (modules : List Module) (calls : List Nat) (fuel : Nat)
    (pending : ∀ mod ∈ modules, mod.analysis = .pending)
    (resolve : ImportsResolve modules)
    (inRange : ∀ index ∈ calls, index < modules.length)
    (enough : modules.length ≤ fuel) :
    ∃ answers after,
      analyzeModules (analyzeProgram false fuel) calls modules = some (answers, after) ∧
        List.Forall₂ (fun index ok => ok = true ↔ (importGraph modules).Sound index)
          calls answers ∧
        (∀ index ∈ calls, (importGraph modules).Sound index →
          ∀ other, ReflTransGen (importGraph modules).Edge index other →
            ∃ mod, after[other]? = some mod ∧ mod.analysis = .done) ∧
        (sessionEvents fuel calls modules).Nodup ∧
        ∀ earlier index later,
          sessionEvents fuel calls modules = earlier ++ .leave index :: later →
            ∀ target, (importGraph modules).Edge index target →
              .leave target ∈ earlier ∨ .refuse target ∈ earlier ∨
                Search.Open earlier target ∧
                  TransGen (importGraph modules).Edge target index := by
  have unseen := analysisMarks_pending pending
  have fits : unseenModules modules ≤ fuel := by
    calc
      unseenModules modules ≤ (Finset.range modules.length).card := Search.unseen_le_card _ _
      _ = modules.length := Finset.card_range _
      _ ≤ fuel := enough
  obtain ⟨answers, after, returns, session⟩ :=
    analyzeModules_session calls modules resolve fits inRange
  have settled : Search.Settled (importGraph modules) (analysisMarks modules) :=
    Search.settled_pending unseen
  have recorded : Search.Recorded (analysisMarks modules) [] :=
    Search.recorded_pending unseen
  refine ⟨answers, after, returns, session.answers settled, ?_, session.once.1, ?_⟩
  · intro index called sound other reaches
    exact exists_done_of_mark (session.done settled called sound reaches)
  · intro earlier index later split target edge
    have ordered := session.ordered settled recorded
    rw [split] at ordered
    simpa using ordered.due target edge

/-- Two modules that import each other. -/
def cyclicModules : List Module :=
  [{ state := .loaded
     ast := some { imports := [{ path := "b", moduleIndex := 1, resolved := true }] }
     filename := "a.sf"
     name := "a" },
   { state := .loaded
     ast := some { imports := [{ path := "a", moduleIndex := 0, resolved := true }] }
     filename := "b.sf"
     name := "b" }]

theorem importsResolve_cyclicModules : ImportsResolve cyclicModules := by
  intro index target edge
  match index with
  | 0 =>
      have same : target = 1 := by
        simpa [Search.Graph.Edge, importGraph, cyclicModules, Module.imports,
          Import.target] using edge
      simp [same, cyclicModules]
  | 1 =>
      have same : target = 0 := by
        simpa [Search.Graph.Edge, importGraph, cyclicModules, Module.imports,
          Import.target] using edge
      simp [same, cyclicModules]
  | index + 2 => simp [Search.Graph.Edge, importGraph, cyclicModules] at edge

theorem analyzeModules_exact_cyclic :
    ∃ answers after,
      analyzeModules (analyzeProgram false 2) [0, 1] cyclicModules =
          some (answers, after) ∧
        List.Forall₂ (fun index ok => ok = true ↔ (importGraph cyclicModules).Sound index)
          [0, 1] answers := by
  obtain ⟨answers, after, returns, exact_, _⟩ := analyzeModules_exact cyclicModules [0, 1] 2
    (by decide) importsResolve_cyclicModules (by decide) (by decide)
  exact ⟨answers, after, returns, exact_⟩

/-- On a cycle the statements of a module are analysed before those of a module
that it imports. -/
theorem analyzeModule_cycle_early :
    ¬∀ earlier index later,
      sessionEvents 2 [0] cyclicModules = earlier ++ .leave index :: later →
        ∀ target, (importGraph cyclicModules).Edge index target →
          .leave target ∈ earlier ∨ .refuse target ∈ earlier := by
  intro ordered
  have events : sessionEvents 2 [0] cyclicModules =
      [.enter 0, .enter 1] ++ .leave 1 :: [.leave 0] := by
    decide
  have early := ordered _ _ _ events 0 (by
    simp [Search.Graph.Edge, importGraph, cyclicModules, Module.imports, Import.target])
  simp at early

end Sulfur
