import Sulfur.Frontend.Lexeme
import Sulfur.Frontend.Parser.Grammar
import Sulfur.Frontend.Parser.Termination
import Sulfur.Frontend.Preprocessor
import Sulfur.Semantic.Program

/-!
# Module resolution

`module.c`: every import is bound to an entry of the module list.  An entry is made before
its file is read, so that an import of a file that is being loaded finds it, and every file
is loaded once.
-/

namespace Sulfur

/-- The files that can be opened, by name. -/
abbrev Files := List (String × String)

/-- What is done with a file. -/
inductive FileEvent
  | read (filename : String)
  | parse (filename : String)
  deriving DecidableEq, Repr

/-- The file that an event is about. -/
def FileEvent.filename : FileEvent → String
  | .read filename => filename
  | .parse filename => filename

/-- The module list with what has been logged and done. -/
structure Resolver where
  modules : List Module := []
  log : Log := []
  events : List FileEvent := []

/-- `sf_log_had_fatal`. -/
def Log.hadFatal (log : Log) : Bool :=
  log.any fun diagnostic => diagnostic.severity = .fatal

namespace Resolver

/-- Log what a stage has reported. -/
def report (r : Resolver) (log : Log) : Resolver :=
  { r with log := r.log ++ log }

/-- Note a file that is read or parsed. -/
def record (r : Resolver) (event : FileEvent) : Resolver :=
  { r with events := r.events ++ [event] }

/-- `add_module`. -/
def addModule (r : Resolver) (mod : Module) : Resolver :=
  { r with modules := r.modules ++ [mod] }

/-- Write to a module of the list. -/
def modifyModule (r : Resolver) (index : Nat) (change : Module → Module) : Resolver :=
  { r with modules := r.modules.modify index change }

end Resolver

/-- `file_exists`. -/
def fileExists (files : Files) (filename : String) : Bool :=
  (files.lookup filename).isSome

/-- `join_path`. -/
def joinPath (directory filename : String) : String :=
  let needsSeparator := directory.length > 0 ∧ directory.toList.getLastD '/' ≠ '/'
  directory ++ (if needsSeparator then "/" else "") ++ filename

/-- `find_module_path`. -/
def findModulePath (files : Files) (modulePaths : List String) (filename : String) :
    Option String :=
  if fileExists files filename then
    some filename
  else
    (modulePaths.map fun directory => joinPath directory filename).find? (fileExists files)

/-- `find_module_index`. -/
def findModuleIndex (modules : List Module) (filename : String) : Option Nat :=
  modules.findIdx? fun mod => mod.filename = filename

/-- The part of `resolve_import` from `sf_file_read` to `sf_parse`: the tree of the file,
unless an error has been logged.  `none` only when the fuel of the parser runs out. -/
def loadModule (files : Files) (filename : String) (r : Resolver) :
    Option (Option Program × Resolver) :=
  let r := r.record (.read filename)
  let preprocessed := preprocess ((files.lookup filename).getD "").toList
  if Log.hadErrors r.log then
    some (none, r)
  else
    let tokenized := tokenize preprocessed filename
    let r := r.report tokenized.log
    if Log.hadErrors r.log then
      some (none, r)
    else
      (parse tokenized.tokens filename).map fun parsed =>
        let r := (r.record (.parse filename)).report parsed.log
        (if Log.hadErrors r.log then none else some parsed.program, r)

/-- The import with its module. -/
def Import.bind (imp : Import) (index : Nat) : Import :=
  { imp with moduleIndex := index, resolved := true }

/-- The error of an import that no search directory has a file for. -/
def moduleNotFound (imp : Import) (importer : String) : Diagnostic :=
  { title := "module not found"
    desc := "unable to find module '%s'"
    hint := some "check the import path and configured module search directories"
    file := importer
    code := .moduleNotFound
    span := imp.base.span
    severity := .error
    arguments := [imp.path] }

/-- How the imports of a file are resolved. -/
abbrev ImportResolver :=
  List Import → String → Resolver → Option (List Import × Resolver)

/-- The end of `resolve_import`: the entry of the module has been made, and its file is
loaded. -/
def resolveLoaded (resolveImports : ImportResolver) (filename : String) (index : Nat)
    (loaded : Option Program × Resolver) : Option Resolver :=
  match loaded with
  | (none, r) => some (r.modifyModule index fun mod => { mod with state := .failed })
  | (some ast, r) =>
      let r := r.modifyModule index fun mod => { mod with ast := some ast }
      (resolveImports ast.imports filename r).map fun (imports, r) =>
        -- The imports of the tree have been changed in place.
        r.modifyModule index fun mod =>
          { mod with
            ast := some { ast with imports := imports }
            state := if Log.hadFatal r.log then .failed else .loaded }

/-- `resolve_import`. -/
def resolveImport (resolveImports : ImportResolver) (files : Files)
    (modulePaths : List String) (imp : Import) (importer : String) (r : Resolver) :
    Option (Import × Resolver) :=
  match findModulePath files modulePaths imp.path with
  | none => some (imp, r.report [moduleNotFound imp importer])
  | some filename =>
      match findModuleIndex r.modules filename with
      | some index => some (imp.bind index, r)
      | none => do
          let index := r.modules.length
          let r := r.addModule
            { state := .loading, ast := none, filename := filename, name := imp.path }
          let loaded ← loadModule files filename r
          let r ← resolveLoaded resolveImports filename index loaded
          return (imp.bind index, r)

/-- The loop of `resolve_imports`. -/
def resolveEach (resolve : Import → Resolver → Option (Import × Resolver)) :
    List Import → Resolver → Option (List Import × Resolver)
  | [], r => some ([], r)
  | imp :: rest, r => do
      let (imp, r) ← resolve imp r
      if Log.hadFatal r.log then
        return (imp :: rest, r)
      else
        let (rest, r) ← resolveEach resolve rest r
        return (imp :: rest, r)

/-- `resolve_imports`, with fuel for the files that are loaded inside each other. -/
def resolveImports (files : Files) (modulePaths : List String) : Nat → ImportResolver
  | 0, _, _, _ => none
  | fuel + 1, imports, importer, r =>
      resolveEach
        (fun imp r =>
          resolveImport (resolveImports files modulePaths fuel) files modulePaths imp importer r)
        imports r

/-- `sf_module_resolve`, on an empty list of modules. -/
def moduleResolve (files : Files) (modulePaths : List String) (fuel : Nat)
    (imports : List Import) (importer : String) : Option (List Import × Resolver) :=
  resolveImports files modulePaths fuel imports importer {}

/-! ## Every parse of a file returns -/

theorem tokenize_endsInEof (input : List Char) (filename : String) :
    EndsInEof (tokenize input filename).tokens := by
  rcases tokenizeLoop_lexed filename input.length { rest := input } with
    ⟨body, last, split, isEnd, -⟩
  unfold EndsInEof tokenize
  rw [split, List.getLast?_concat, Option.map_some, isEnd]

/-- The tree of a file. -/
def parseFile (files : Files) (filename : String) : Option Parsed :=
  parse (tokenize (preprocess ((files.lookup filename).getD "").toList) filename).tokens
    filename

theorem isSome_parseFile (files : Files) (filename : String) :
    (parseFile files filename).isSome :=
  isSome_parse (tokenize_endsInEof _ filename) filename

/-- The parser leaves the imports without a module. -/
def Program.Unbound (program : Program) : Prop :=
  ∀ imp ∈ program.imports, imp.resolved = false

theorem parseImport_yields (fuel : Nat) :
    Yields (parseImport fuel) fun result => ∀ imp ∈ result, imp.resolved = false := by
  unfold parseImport
  apply Yields.then
  intro token
  apply Yields.then
  intro isImport
  split
  · apply Yields.then
    intro path
    split
    · exact .pure nofun
    · split
      · exact .pure nofun
      · exact .pure (by rintro imp ⟨⟩; rfl)
  · exact .pure nofun

theorem parseTopLevel_unbound (fuel : Nat) :
    Yields (parseTopLevel fuel) fun result =>
      ∀ imp, result = some (.importNode imp) → imp.resolved = false := by
  unfold parseTopLevel
  apply Yields.then
  intro token
  split
  · apply Yields.then
    intro result
    split
    · exact .pure nofun
    · exact .then fun _ => .pure nofun
  · split
    · refine (parseImport_yields fuel).bind fun result unbound => ?_
      split
      · rename_i node
        apply Yields.pure
        rintro imp isNode
        obtain rfl := TopLevel.importNode.inj (Option.some.inj isNode)
        exact unbound _ rfl
      · exact .then fun _ => .pure nofun
    · exact .then fun _ => .then fun _ => .pure nofun

theorem parseLoop_unbound (fuel : Nat) {program : Program} (unbound : program.Unbound) :
    Yields (parseLoop fuel program) Program.Unbound := by
  induction fuel generalizing program with
  | zero => exact .failure
  | succ fuel inductionHypothesis =>
      unfold parseLoop
      apply Yields.then
      intro token
      split
      · apply Yields.then
        intro start
        refine (parseTopLevel_unbound fuel).bind fun result resultUnbound => ?_
        split
        · rename_i node
          apply inductionHypothesis
          cases node with
          | statement stmt => exact unbound
          | importNode node =>
              intro imp isImport
              rcases List.mem_append.mp isImport with old | new
              · exact unbound imp old
              · rw [List.mem_singleton.mp new]
                exact resultUnbound node rfl
        · apply Yields.then
          intro current
          dsimp only
          split
          · exact .then fun _ => inductionHypothesis unbound
          · exact inductionHypothesis unbound
      · exact .pure unbound

theorem parse_unbound {tokens : List Token} {filename : String} {parsed : Parsed}
    (run : parse tokens filename = some parsed) : parsed.program.Unbound := by
  unfold parse at run
  split at run
  · obtain rfl := Option.some.inj run
    exact nofun
  · rcases Option.map_eq_some_iff.mp run with ⟨result, returned, rfl⟩
    have empty : Program.Unbound {} := nofun
    exact parseLoop_unbound _ empty _ result returned

/-! ## The module list -/

namespace Resolver

/-- The names of the files with an entry. -/
def names (r : Resolver) : List String :=
  r.modules.map Module.filename

end Resolver

/-- An import with a module has the entry of the file that is found under its path; one
without a module is not found, or an error has been logged. -/
structure Import.Bound (files : Files) (modulePaths : List String) (names : List String)
    (errors : Bool) (imp : Import) : Prop where
  points : imp.resolved → ∃ filename, names[imp.moduleIndex]? = some filename ∧
    findModulePath files modulePaths imp.path = some filename
  reported : imp.resolved = false →
    findModulePath files modulePaths imp.path = none ∨ errors

theorem Import.Bound.mono {files : Files} {modulePaths names more : List String}
    {errors moreErrors : Bool} {imp : Import}
    (bound : imp.Bound files modulePaths names errors) (longer : names <+: more)
    (keeps : errors → moreErrors) : imp.Bound files modulePaths more moreErrors := by
  constructor
  · intro resolved
    rcases bound.points resolved with ⟨filename, entry, found⟩
    rcases longer with ⟨rest, rfl⟩
    rcases List.getElem?_eq_some_iff.mp entry with ⟨inside, -⟩
    refine ⟨filename, ?_, found⟩
    rw [List.getElem?_append_left inside, entry]
  · intro unresolved
    exact (bound.reported unresolved).imp_right keeps

/-- The tree of a module is the tree of its file, with bound imports. -/
structure Module.Settled (files : Files) (modulePaths : List String) (names : List String)
    (errors : Bool) (mod : Module) : Prop where
  tree : ∀ ast ∈ mod.ast, ∃ parsed ∈ parseFile files mod.filename,
    ast.statements = parsed.program.statements ∧
      ast.imports.map Import.path = parsed.program.imports.map Import.path
  bound : ∀ ast ∈ mod.ast, ∀ imp ∈ ast.imports, imp.Bound files modulePaths names errors

theorem Module.Settled.mono {files : Files} {modulePaths names more : List String}
    {errors moreErrors : Bool} {mod : Module}
    (settled : mod.Settled files modulePaths names errors) (longer : names <+: more)
    (keeps : errors → moreErrors) : mod.Settled files modulePaths more moreErrors := by
  constructor
  · exact settled.tree
  · intro ast isTree imp isImport
    exact (settled.bound ast isTree imp isImport).mono longer keeps

/-- What holds of the module list throughout: the files are different, each is read and
parsed once, and the modules that are not being loaded are settled. -/
structure Resolver.Sound (files : Files) (modulePaths : List String) (r : Resolver) :
    Prop where
  names : r.names.Nodup
  exist : ∀ name ∈ r.names, fileExists files name
  events : r.events.Nodup
  eventNames : ∀ event ∈ r.events, event.filename ∈ r.names
  settled : ∀ mod ∈ r.modules, mod.state ≠ .loading →
    mod.Settled files modulePaths r.names (Log.hadErrors r.log)

namespace Resolver

/-- What a part of the resolution does: it adds modules, none of which is still being
loaded, and keeps what holds throughout. -/
structure Resolves (files : Files) (modulePaths : List String) (before after : Resolver) :
    Prop where
  added : ∃ newer, after.modules = before.modules ++ newer ∧
    ∀ mod ∈ newer, mod.state ≠ .loading
  errors : Log.hadErrors before.log → Log.hadErrors after.log
  sound : after.Sound files modulePaths

section Steps

variable {files : Files} {modulePaths : List String} {first second third r : Resolver}

theorem Resolves.refl (sound : r.Sound files modulePaths) : Resolves files modulePaths r r :=
  ⟨⟨[], (List.append_nil _).symm, nofun⟩, id, sound⟩

theorem Resolves.trans (earlier : Resolves files modulePaths first second)
    (later : Resolves files modulePaths second third) :
    Resolves files modulePaths first third := by
  rcases earlier.added with ⟨newer, modules, finished⟩
  rcases later.added with ⟨newest, allModules, allFinished⟩
  constructor
  · refine ⟨newer ++ newest, ?_, List.forall_mem_append.mpr ⟨finished, allFinished⟩⟩
    rw [allModules, modules, List.append_assoc]
  · exact later.errors ∘ earlier.errors
  · exact later.sound

theorem Resolves.names (resolves : Resolves files modulePaths first second) :
    first.names <+: second.names := by
  rcases resolves.added with ⟨newer, modules, -⟩
  unfold Resolver.names
  rw [modules, List.map_append]
  exact List.prefix_append _ _

theorem Resolves.length_le (resolves : Resolves files modulePaths first second) :
    first.modules.length ≤ second.modules.length := by
  rcases resolves.added with ⟨newer, modules, -⟩
  rw [modules, List.length_append]
  exact Nat.le_add_right _ _

/-- More messages change nothing. -/
theorem Sound.report (sound : r.Sound files modulePaths) (log : Log) :
    (r.report log).Sound files modulePaths := by
  constructor
  · exact sound.names
  · exact sound.exist
  · exact sound.events
  · exact sound.eventNames
  · intro mod isModule finished
    apply (sound.settled mod isModule finished).mono (List.prefix_refl _)
    intro errors
    unfold Resolver.report
    rw [Log.hadErrors_append, errors, Bool.true_or]

/-- A file that has no entry gets one. -/
theorem Sound.addModule (sound : r.Sound files modulePaths) {mod : Module}
    (new : mod.filename ∉ r.names) (exists_ : fileExists files mod.filename)
    (loading : mod.state = .loading) : (r.addModule mod).Sound files modulePaths := by
  have names : (r.addModule mod).names = r.names ++ [mod.filename] := List.map_append
  constructor
  · rw [names, List.nodup_append]
    refine ⟨sound.names, List.nodup_singleton _, ?_⟩
    intro name isName other isOther same
    rw [List.mem_singleton.mp isOther] at same
    exact new (same ▸ isName)
  · rw [names, List.forall_mem_append, List.forall_mem_singleton]
    exact ⟨sound.exist, exists_⟩
  · exact sound.events
  · intro event isEvent
    rw [names]
    exact List.mem_append_left _ (sound.eventNames event isEvent)
  · intro other isModule finished
    rcases List.mem_append.mp isModule with old | isNew
    · rw [names]
      exact (sound.settled other old finished).mono (List.prefix_append _ _) id
    · rw [List.mem_singleton.mp isNew] at finished
      exact absurd loading finished

theorem modify_middle (before newer : List Module) (entry : Module)
    (change : Module → Module) :
    (before ++ entry :: newer).modify before.length change =
      before ++ change entry :: newer := by
  induction before with
  | nil => rfl
  | cons first before inductionHypothesis =>
      rw [List.cons_append, List.length_cons, List.modify_succ_cons, inductionHypothesis,
        List.cons_append]

/-- An entry may change when it keeps its file name and is settled unless it is still being
loaded. -/
theorem Sound.modify (sound : r.Sound files modulePaths) {before newer : List Module}
    {entry : Module} (modules : r.modules = before ++ entry :: newer) (change : Module → Module)
    (sameName : (change entry).filename = entry.filename)
    (settles : (change entry).state ≠ .loading →
      (change entry).Settled files modulePaths r.names (Log.hadErrors r.log)) :
    (r.modifyModule before.length change).modules = before ++ change entry :: newer ∧
      (r.modifyModule before.length change).Sound files modulePaths := by
  have changed : (r.modifyModule before.length change).modules =
      before ++ change entry :: newer := by
    unfold Resolver.modifyModule
    rw [modules]
    exact modify_middle before newer entry change
  have names : (r.modifyModule before.length change).names = r.names := by
    unfold Resolver.names
    rw [changed, modules, List.map_append, List.map_cons, sameName, List.map_append,
      List.map_cons]
  refine ⟨changed, ?_⟩
  constructor
  · rw [names]
    exact sound.names
  · rw [names]
    exact sound.exist
  · exact sound.events
  · rw [names]
    exact sound.eventNames
  · rw [names, changed]
    intro mod isModule finished
    have old (listed : mod ∈ r.modules) := sound.settled mod listed finished
    rw [modules] at old
    rcases List.mem_append.mp isModule with isBefore | isAfter
    · exact old (List.mem_append_left _ isBefore)
    · rcases List.mem_cons.mp isAfter with rfl | isNewer
      · exact settles finished
      · exact old (List.mem_append_right _ (List.mem_cons_of_mem _ isNewer))

end Steps

end Resolver

/-! ## Loading a file -/

section Loading

variable {files : Files} {modulePaths : List String} {r : Resolver}

/-- A file that has no entry in the list has not been read or parsed. -/
theorem Resolver.Sound.record (sound : r.Sound files modulePaths) {event : FileEvent}
    (listed : event.filename ∈ r.names) (new : event ∉ r.events) :
    (r.record event).Sound files modulePaths := by
  constructor
  · exact sound.names
  · exact sound.exist
  · unfold Resolver.record
    rw [List.nodup_append]
    refine ⟨sound.events, List.nodup_singleton _, ?_⟩
    intro old isOld other isOther same
    rw [List.mem_singleton.mp isOther] at same
    exact new (same ▸ isOld)
  · unfold Resolver.record
    rw [List.forall_mem_append, List.forall_mem_singleton]
    exact ⟨sound.eventNames, listed⟩
  · exact sound.settled

/-- Loading a file for the first time leaves the list as it is. -/
theorem loadModule_spec (sound : r.Sound files modulePaths) {filename : String}
    (listed : filename ∈ r.names) (new : ∀ event ∈ r.events, event.filename ≠ filename) :
    ∃ tree after, loadModule files filename r = some (tree, after) ∧
      after.modules = r.modules ∧ (Log.hadErrors r.log → Log.hadErrors after.log) ∧
      after.Sound files modulePaths ∧
      ∀ ast ∈ tree, ∃ parsed ∈ parseFile files filename, ast = parsed.program := by
  have read : (r.record (.read filename)).Sound files modulePaths :=
    sound.record listed fun isOld => new _ isOld rfl
  have unread : FileEvent.parse filename ∉ (r.record (.read filename)).events := by
    intro isOld
    rcases List.mem_append.mp isOld with old | last
    · exact new _ old rfl
    · cases List.mem_singleton.mp last
  rcases Option.isSome_iff_exists.mp (isSome_parseFile files filename) with ⟨parsed, run⟩
  unfold parseFile at run
  unfold loadModule
  dsimp only
  split
  · exact ⟨none, _, rfl, rfl, id, read, nofun⟩
  · rename_i noErrors
    have noErrors : ¬ Log.hadErrors r.log := noErrors
    split
    · exact ⟨none, _, rfl, rfl, fun errors => absurd errors noErrors, read.report _, nofun⟩
    · rw [run, Option.map_some]
      refine ⟨_, _, rfl, rfl, fun errors => absurd errors noErrors, ?_, ?_⟩
      · apply Resolver.Sound.report
        apply Resolver.Sound.record (read.report _)
        · exact listed
        · exact unread
      · intro ast isTree
        split at isTree
        · cases isTree
        · obtain rfl := Option.some.inj isTree
          exact ⟨parsed, run, rfl⟩

end Loading

/-! ## Resolving imports -/

/-- How many files can be opened bounds the list. -/
theorem Resolver.Sound.length_le {files : Files} {modulePaths : List String} {r : Resolver}
    (sound : r.Sound files modulePaths) : r.modules.length ≤ files.length := by
  have within : r.names ⊆ files.map Prod.fst := by
    intro name listed
    rcases Option.isSome_iff_exists.mp (sound.exist name listed) with ⟨content, found⟩
    rcases List.lookup_eq_some_iff.mp found with ⟨earlier, later, rfl, -⟩
    exact List.mem_map.mpr
      ⟨(name, content), List.mem_append_right _ List.mem_cons_self, rfl⟩
  calc r.modules.length
      = r.names.length := (List.length_map _).symm
    _ ≤ (files.map Prod.fst).length := sound.names.subperm within |>.length_le
    _ = files.length := List.length_map _

/-- From a list of at least `size` modules, the imports of a file are all bound. -/
def ResolvesFrom (files : Files) (modulePaths : List String) (size : Nat)
    (resolve : ImportResolver) : Prop :=
  ∀ imports importer r, size ≤ r.modules.length → r.Sound files modulePaths →
    (∀ imp ∈ imports, imp.resolved = false) →
    ∃ bound after, resolve imports importer r = some (bound, after) ∧
      r.Resolves files modulePaths after ∧
      bound.map Import.path = imports.map Import.path ∧
      ∀ imp ∈ bound, imp.Bound files modulePaths after.names (Log.hadErrors after.log)

section Resolution

variable {files : Files} {modulePaths : List String} {size : Nat} {resolve : ImportResolver}

/-- The last entry is finished. -/
theorem resolveLoaded_spec (resolves : ResolvesFrom files modulePaths size resolve)
    {before : List Module} {entry : Module} {r : Resolver} (large : size ≤ before.length + 1)
    (modules : r.modules = before ++ [entry]) (sound : r.Sound files modulePaths)
    (loading : entry.state = .loading) (empty : entry.ast = none) {tree : Option Program}
    (parses : ∀ ast ∈ tree, ∃ parsed ∈ parseFile files entry.filename,
      ast = parsed.program) :
    ∃ after finished newer,
      resolveLoaded resolve entry.filename before.length (tree, r) = some after ∧
      after.modules = before ++ finished :: newer ∧
      finished.filename = entry.filename ∧
      (∀ mod ∈ finished :: newer, mod.state ≠ .loading) ∧
      (Log.hadErrors r.log → Log.hadErrors after.log) ∧
      after.Sound files modulePaths := by
  cases tree with
  | none =>
      rcases sound.modify modules (fun mod => { mod with state := .failed }) rfl
        (fun _ => ⟨by rw [empty]; exact nofun, by rw [empty]; exact nofun⟩) with
        ⟨failed, stillSound⟩
      refine ⟨_, _, [], rfl, failed, rfl, ?_, id, stillSound⟩
      rw [List.forall_mem_singleton]
      exact nofun
  | some ast =>
      rcases parses ast rfl with ⟨parsed, isParsed, rfl⟩
      rcases sound.modify modules (fun mod => { mod with ast := some parsed.program }) rfl
        (fun finished => absurd loading finished) with ⟨loaded, loadedSound⟩
      rcases resolves parsed.program.imports entry.filename _
        (by rw [loaded, List.length_append]; exact large) loadedSound
        (parse_unbound isParsed) with ⟨bound, after, run, resolved, paths, areBound⟩
      rcases resolved.added with ⟨newer, allModules, finished⟩
      rw [loaded, List.append_assoc, List.singleton_append] at allModules
      have settled : Module.Settled files modulePaths after.names (Log.hadErrors after.log)
          { entry with
            ast := some { parsed.program with imports := bound }
            state := if Log.hadFatal after.log then .failed else .loaded } := by
        constructor
        · rintro ast ⟨⟩
          exact ⟨parsed, isParsed, rfl, paths⟩
        · rintro ast ⟨⟩
          exact areBound
      rcases resolved.sound.modify allModules
        (fun mod =>
          { mod with
            ast := some { parsed.program with imports := bound }
            state := if Log.hadFatal after.log then .failed else .loaded }) rfl
        (fun _ => settled) with ⟨final, finalSound⟩
      refine ⟨_, _, newer, ?_, final, rfl, ?_, resolved.errors, finalSound⟩
      · unfold resolveLoaded
        dsimp only
        rw [run]
        rfl
      · rw [List.forall_mem_cons]
        refine ⟨?_, finished⟩
        dsimp only
        split <;> exact nofun

theorem findModuleIndex_names {modules : List Module} {filename : String} {index : Nat}
    (found : findModuleIndex modules filename = some index) :
    (modules.map Module.filename)[index]? = some filename := by
  rcases List.findIdx?_eq_some_iff_getElem.mp found with ⟨inside, same, -⟩
  rw [List.getElem?_map, List.getElem?_eq_getElem inside]
  exact congrArg some (of_decide_eq_true same)

theorem findModuleIndex_none {modules : List Module} {filename : String}
    (missing : findModuleIndex modules filename = none) :
    filename ∉ modules.map Module.filename := by
  intro listed
  rcases List.mem_map.mp listed with ⟨mod, isModule, same⟩
  have differs := List.findIdx?_eq_none_iff.mp missing mod isModule
  exact of_decide_eq_false differs same

theorem fileExists_findModulePath {path filename : String}
    (found : findModulePath files modulePaths path = some filename) :
    fileExists files filename := by
  unfold findModulePath at found
  split at found
  · rename_i isFile
    obtain rfl := Option.some.inj found
    exact isFile
  · exact List.find?_some found

/-- What one import does. -/
theorem resolveImport_spec (resolves : ResolvesFrom files modulePaths (size + 1) resolve)
    {imp : Import} (importer : String) {r : Resolver} (large : size ≤ r.modules.length)
    (sound : r.Sound files modulePaths) (unresolved : imp.resolved = false) :
    ∃ bound after,
      resolveImport resolve files modulePaths imp importer r = some (bound, after) ∧
      r.Resolves files modulePaths after ∧ bound.path = imp.path ∧
      bound.Bound files modulePaths after.names (Log.hadErrors after.log) := by
  unfold resolveImport
  cases found : findModulePath files modulePaths imp.path with
  | none =>
      refine ⟨imp, _, rfl, ?_, rfl, ?_⟩
      · constructor
        · exact ⟨[], (List.append_nil _).symm, nofun⟩
        · intro errors
          unfold Resolver.report
          rw [Log.hadErrors_append, errors, Bool.true_or]
        · exact sound.report _
      · constructor
        · intro resolved
          rw [unresolved] at resolved
          cases resolved
        · intro _
          exact .inl found
  | some filename =>
      dsimp only
      cases present : findModuleIndex r.modules filename with
      | some index =>
          refine ⟨_, r, rfl, .refl sound, rfl, ?_⟩
          constructor
          · intro _
            exact ⟨filename, findModuleIndex_names present, found⟩
          · exact nofun
      | none =>
          have new : filename ∉ r.names := findModuleIndex_none present
          let entry : Module :=
            { state := .loading, ast := none, filename := filename, name := imp.path }
          have entered : (r.addModule entry).Sound files modulePaths :=
            sound.addModule new (fileExists_findModulePath found) rfl
          have listed : filename ∈ (r.addModule entry).names := by
            unfold Resolver.names Resolver.addModule
            rw [List.map_append]
            exact List.mem_append_right _ (List.mem_singleton.mpr rfl)
          have unread : ∀ event ∈ (r.addModule entry).events, event.filename ≠ filename := by
            rintro event isOld rfl
            exact new (sound.eventNames event isOld)
          rcases loadModule_spec entered listed unread with
            ⟨tree, loaded, load, modules, errors, loadedSound, parses⟩
          rcases resolveLoaded_spec resolves (Nat.succ_le_succ large) modules loadedSound rfl rfl
            parses with ⟨after, finished, newer, finishes, allModules, name, states, moreErrors,
              afterSound⟩
          refine ⟨imp.bind r.modules.length, after, ?_, ?_, rfl, ?_⟩
          · change (loadModule files filename (r.addModule entry)).bind _ = _
            rw [load, Option.bind_some]
            change (resolveLoaded _ _ _ _).bind _ = _
            rw [finishes]
            rfl
          · constructor
            · exact ⟨finished :: newer, allModules, states⟩
            · exact moreErrors ∘ errors
            · exact afterSound
          · constructor
            · intro _
              refine ⟨filename, ?_, found⟩
              change after.names[r.modules.length]? = some filename
              unfold Resolver.names
              rw [allModules, List.map_append, List.map_cons, name,
                List.getElem?_append_right (List.length_map _).le, List.length_map, Nat.sub_self]
              rfl
            · exact nofun

theorem Log.hadErrors_of_hadFatal {log : Log} (fatal : Log.hadFatal log) :
    Log.hadErrors log := by
  rcases List.any_eq_true.mp fatal with ⟨diagnostic, logged, isFatal⟩
  refine List.any_eq_true.mpr ⟨diagnostic, logged, ?_⟩
  unfold Diagnostic.isError
  rw [of_decide_eq_true isFatal]
  rfl

/-- The imports of a file, one after the other. -/
theorem resolveEach_spec (resolves : ResolvesFrom files modulePaths (size + 1) resolve)
    {importer : String} (imports : List Import) {r : Resolver}
    (large : size ≤ r.modules.length) (sound : r.Sound files modulePaths)
    (unresolved : ∀ imp ∈ imports, imp.resolved = false) :
    ∃ bound after,
      resolveEach (fun imp r => resolveImport resolve files modulePaths imp importer r) imports r =
        some (bound, after) ∧
      r.Resolves files modulePaths after ∧
      bound.map Import.path = imports.map Import.path ∧
      ∀ imp ∈ bound, imp.Bound files modulePaths after.names (Log.hadErrors after.log) := by
  induction imports generalizing r with
  | nil => exact ⟨[], r, rfl, .refl sound, rfl, nofun⟩
  | cons imp rest inductionHypothesis =>
      rw [List.forall_mem_cons] at unresolved
      rcases resolveImport_spec resolves importer large sound unresolved.1 with
        ⟨bound, middle, run, first, path, isBound⟩
      by_cases fatal : Log.hadFatal middle.log
      · refine ⟨bound :: rest, middle, ?_, first, ?_, ?_⟩
        · change (resolveImport _ _ _ _ _ _).bind _ = _
          rw [run, Option.bind_some]
          dsimp only
          rw [if_pos fatal]
          rfl
        · rw [List.map_cons, path, List.map_cons]
        · rw [List.forall_mem_cons]
          refine ⟨isBound, ?_⟩
          intro other isRest
          constructor
          · intro resolved
            rw [unresolved.2 other isRest] at resolved
            cases resolved
          · intro _
            exact .inr (Log.hadErrors_of_hadFatal fatal)
      · rcases inductionHypothesis (large.trans first.length_le) first.sound unresolved.2 with
          ⟨others, after, runs, later, paths, areBound⟩
        refine ⟨bound :: others, after, ?_, first.trans later, ?_, ?_⟩
        · change (resolveImport _ _ _ _ _ _).bind _ = _
          rw [run, Option.bind_some]
          dsimp only
          rw [if_neg fatal]
          change (resolveEach _ _ _).bind _ = _
          rw [runs]
          rfl
        · rw [List.map_cons, path, paths, List.map_cons]
        · rw [List.forall_mem_cons]
          exact ⟨isBound.mono later.names later.errors, areBound⟩

end Resolution

/-- With fuel for the files that have no entry yet, every import is bound. -/
theorem resolvesFrom_resolveImports (files : Files) (modulePaths : List String) (fuel : Nat)
    {size : Nat} (enough : files.length < fuel + size) :
    ResolvesFrom files modulePaths size (resolveImports files modulePaths fuel) := by
  induction fuel generalizing size with
  | zero =>
      intro imports importer r large sound _
      have bounded := sound.length_le
      omega
  | succ fuel inductionHypothesis =>
      intro imports importer r large sound unresolved
      have inner : ResolvesFrom files modulePaths (size + 1)
          (resolveImports files modulePaths fuel) :=
        inductionHypothesis (by omega)
      exact resolveEach_spec inner imports large sound unresolved

/-- On imports as the parser leaves them, the resolution returns.  Then the modules have
different files, each file has been read and parsed at most once, and the imports of the
root and of every module are bound. -/
theorem moduleResolve_bound (files : Files) (modulePaths : List String)
    (imports : List Import) (importer : String)
    (unresolved : ∀ imp ∈ imports, imp.resolved = false) (fuel : Nat)
    (enough : files.length < fuel) :
    ∃ bound after, moduleResolve files modulePaths fuel imports importer = some (bound, after) ∧
      bound.map Import.path = imports.map Import.path ∧
      after.names.Nodup ∧ after.events.Nodup ∧
      (∀ imp ∈ bound, imp.Bound files modulePaths after.names (Log.hadErrors after.log)) ∧
      ∀ mod ∈ after.modules,
        mod.Settled files modulePaths after.names (Log.hadErrors after.log) := by
  have empty : Resolver.Sound files modulePaths {} := by
    constructor
    · exact List.nodup_nil
    · exact nofun
    · exact List.nodup_nil
    · exact nofun
    · exact nofun
  have resolves : ResolvesFrom files modulePaths 0 (resolveImports files modulePaths fuel) :=
    resolvesFrom_resolveImports files modulePaths fuel enough
  rcases resolves imports importer {} (Nat.zero_le _) empty unresolved with
    ⟨bound, after, run, resolved, paths, areBound⟩
  refine ⟨bound, after, run, paths, resolved.sound.names, resolved.sound.events, areBound, ?_⟩
  rcases resolved.added with ⟨newer, modules, finished⟩
  rw [List.nil_append] at modules
  intro mod isModule
  exact resolved.sound.settled mod isModule (finished mod (modules ▸ isModule))

/-- Two files that import each other, in two directories. -/
def cyclicFiles : Files :=
  [("left.slfr", "import right;"), ("lib/right.slfr", "import left;")]

theorem moduleResolve_bound_cyclic :
    (∃ bound after,
      moduleResolve cyclicFiles ["lib"] 3 [{ path := "left.slfr" }] "main" = some (bound, after) ∧
      after.names.Nodup ∧ after.events.Nodup ∧
      ∀ imp ∈ bound, imp.Bound cyclicFiles ["lib"] after.names (Log.hadErrors after.log)) ∧
    (moduleResolve cyclicFiles ["lib"] 3 [{ path := "left.slfr" }] "main").map
      (fun (imports, after) => (imports.map Import.moduleIndex, after.names)) =
        some ([0], ["left.slfr", "lib/right.slfr"]) := by
  constructor
  · rcases moduleResolve_bound cyclicFiles ["lib"] [{ path := "left.slfr" }] "main" (by decide)
      3 (by decide) with ⟨bound, after, run, -, names, events, areBound, -⟩
    exact ⟨bound, after, run, names, events, areBound⟩
  · decide

end Sulfur
