import Sulfur.Module.Resolve
import Sulfur.Semantic.Mangling

/-!
# Module names

A function of a module is named twice: by the path of the import that made the entry of the
module, and by the path below a search directory when the module itself is compiled.  The
names agree only if that search directory, which is the first that contains the file, is
followed in the name of the file by the path of the import.
-/

namespace Sulfur

/-! ## The parts of a path -/

/-- The parts of a path that are not empty. -/
def pathParts (path : List Char) : List (List Char) :=
  (path.splitOn '/').filter (!·.isEmpty)

theorem pathParts_append (directory path : List Char) :
    pathParts (directory ++ '/' :: path) = pathParts directory ++ pathParts path := by
  unfold pathParts
  rw [List.splitOn_append_cons_self, List.filter_append]

theorem pathParts_slash (path : List Char) : pathParts ('/' :: path) = pathParts path :=
  pathParts_append [] path

theorem pathParts_slashes {slashes : List Char} (areSlashes : ∀ c ∈ slashes, c = '/')
    (path : List Char) : pathParts (slashes ++ path) = pathParts path := by
  induction slashes with
  | nil => rfl
  | cons c slashes inductionHypothesis =>
      rw [List.forall_mem_cons] at areSlashes
      rw [areSlashes.1, List.cons_append, pathParts_slash, inductionHypothesis areSlashes.2]

/-- The length of the parts, each after its length. -/
def partsLength (path : List Char) : Nat :=
  ((pathParts path).flatMap (Code.frame (Nat.toDigits 10))).length

theorem partsLength_append (directory path : List Char) :
    partsLength (directory ++ '/' :: path) = partsLength directory + partsLength path := by
  unfold partsLength
  rw [pathParts_append, List.flatMap_append, List.length_append]

/-- Only slashes have no part. -/
theorem partsLength_pos {path : List Char} {c : Char} (inPath : c ∈ path) (noSlash : c ≠ '/') :
    0 < partsLength path := by
  have part : pathParts path ≠ [] := by
    induction path with
    | nil => cases inPath
    | cons d rest inductionHypothesis =>
        by_cases isSlash : d = '/'
        · subst isSlash
          rw [pathParts_slash]
          exact inductionHypothesis ((List.mem_cons.mp inPath).resolve_left noSlash)
        · intro noParts
          unfold pathParts at noParts
          rw [List.splitOn_cons_eq_if_modifyHead, if_neg (by simpa using isSlash)] at noParts
          cases splits : rest.splitOn '/' with
          | nil => exact List.splitOn_ne_nil _ _ splits
          | cons first others =>
              rw [splits] at noParts
              simp at noParts
  rcases List.exists_cons_of_ne_nil part with ⟨first, others, parts⟩
  have isPart : first ∈ pathParts path := parts ▸ List.mem_cons_self
  have notEmpty := (List.mem_filter.mp isPart).2
  have positive : 0 < first.length := by
    apply List.length_pos_of_ne_nil
    rintro rfl
    cases notEmpty
  unfold partsLength
  rw [parts, List.flatMap_cons, List.length_append, Code.frame, List.length_append]
  omega

theorem partsLength_pos_of_last {path : List Char} (nonempty : path ≠ [])
    (last : path.getLast? ≠ some '/') : 0 < partsLength path := by
  rw [List.getLast?_eq_some_getLast nonempty] at last
  exact partsLength_pos (List.getLast_mem nonempty) fun isSlash => last (congrArg some isSlash)

/-! ## The extension -/

/-- Without a dot after the last slash there is no extension. -/
theorem withoutExtension_slash {directory name : List Char} (noDot : '.' ∉ name)
    (noSlash : '/' ∉ name) :
    withoutExtension (directory ++ '/' :: name) = directory ++ '/' :: name := by
  have run : (directory ++ '/' :: name).reverse.takeWhile (fun c => c ≠ '.' && c ≠ '/') =
      name.reverse := by
    rw [List.reverse_append, List.reverse_cons, List.append_assoc, List.takeWhile_append_of_pos]
    · simp
    · intro c isName
      rw [List.mem_reverse] at isName
      have notDot : c ≠ '.' := fun isDot => noDot (isDot ▸ isName)
      have notSlash : c ≠ '/' := fun isSlash => noSlash (isSlash ▸ isName)
      simp [notDot, notSlash]
  have before : (directory ++ '/' :: name).take
      ((directory ++ '/' :: name).length - name.length) = directory ++ ['/'] := by
    rw [List.append_cons, List.length_append, Nat.add_sub_cancel, List.take_left]
  simp only [withoutExtension, run, List.length_reverse, before]
  simp

theorem withoutExtension_name {name : List Char} (noDot : '.' ∉ name) (noSlash : '/' ∉ name) :
    withoutExtension name = name := by
  have run : name.reverse.takeWhile (fun c => c ≠ '.' && c ≠ '/') = name.reverse := by
    rw [List.takeWhile_eq_self_iff]
    intro c isName
    rw [List.mem_reverse] at isName
    have notDot : c ≠ '.' := fun isDot => noDot (isDot ▸ isName)
    have notSlash : c ≠ '/' := fun isSlash => noSlash (isSlash ▸ isName)
    simp [notDot, notSlash]
  simp only [withoutExtension, run, List.length_reverse, Nat.sub_self, List.take_zero]
  simp

/-- A path ends in what follows its last dot or slash. -/
theorem exists_name (path : List Char) :
    ∃ name, '.' ∉ name ∧ '/' ∉ name ∧
      (path = name ∨ ∃ before, path = before ++ '.' :: name ∨ path = before ++ '/' :: name) := by
  induction path with
  | nil => exact ⟨[], List.not_mem_nil, List.not_mem_nil, .inl rfl⟩
  | cons c rest inductionHypothesis =>
      rcases inductionHypothesis with ⟨name, noDot, noSlash, rfl | ⟨before, rfl | rfl⟩⟩
      · by_cases isDot : c = '.'
        · exact ⟨rest, noDot, noSlash, .inr ⟨[], .inl (by rw [isDot, List.nil_append])⟩⟩
        · by_cases isSlash : c = '/'
          · exact ⟨rest, noDot, noSlash, .inr ⟨[], .inr (by rw [isSlash, List.nil_append])⟩⟩
          · refine ⟨c :: rest, ?_, ?_, .inl rfl⟩
            · exact fun inName => (List.mem_cons.mp inName).elim (isDot ·.symm) noDot
            · exact fun inName => (List.mem_cons.mp inName).elim (isSlash ·.symm) noSlash
      · exact ⟨name, noDot, noSlash, .inr ⟨c :: before, .inl rfl⟩⟩
      · exact ⟨name, noDot, noSlash, .inr ⟨c :: before, .inr rfl⟩⟩

/-- The extension is that of the path below a directory. -/
theorem withoutExtension_directory (directory path : List Char) :
    withoutExtension (directory ++ '/' :: path) = directory ++ '/' :: withoutExtension path := by
  rcases exists_name path with ⟨name, noDot, noSlash, rfl | ⟨before, rfl | rfl⟩⟩
  · rw [withoutExtension_slash noDot noSlash, withoutExtension_name noDot noSlash]
  · rw [← List.cons_append, ← List.append_assoc, withoutExtension_append noDot noSlash,
      withoutExtension_append noDot noSlash]
  · rw [← List.cons_append, ← List.append_assoc, withoutExtension_slash noDot noSlash,
      withoutExtension_slash noDot noSlash, List.append_assoc, List.cons_append]

theorem withoutExtension_slashes {slashes : List Char} (areSlashes : ∀ c ∈ slashes, c = '/')
    (path : List Char) : withoutExtension (slashes ++ path) = slashes ++ withoutExtension path := by
  induction slashes with
  | nil => rfl
  | cons c slashes inductionHypothesis =>
      rw [List.forall_mem_cons] at areSlashes
      have below := withoutExtension_directory [] (slashes ++ path)
      rw [inductionHypothesis areSlashes.2] at below
      rw [areSlashes.1]
      exact below

/-- Slashes before a path do not change its prefix. -/
theorem mangleModulePrefix_slashes {slashes : List Char} (areSlashes : ∀ c ∈ slashes, c = '/')
    (path : String) :
    mangleModulePrefix (String.ofList (slashes ++ path.toList)) = mangleModulePrefix path := by
  apply String.toList_inj.mp
  have parts := pathParts_slashes areSlashes (withoutExtension path.toList)
  have text : (String.ofList (slashes ++ path.toList)).toList = slashes ++ path.toList :=
    String.toList_ofList
  unfold pathParts at parts
  rw [toList_mangleModulePrefix, toList_mangleModulePrefix, text,
    withoutExtension_slashes areSlashes, parts]

theorem partsLength_of_mangleModulePrefix {path other : String}
    (same : mangleModulePrefix path = mangleModulePrefix other) :
    partsLength (withoutExtension path.toList) = partsLength (withoutExtension other.toList) := by
  have texts := congrArg String.toList same
  rw [toList_mangleModulePrefix, toList_mangleModulePrefix] at texts
  exact congrArg List.length (List.append_cancel_left texts)

/-! ## The two names -/

/-- A path without a leading `./`. -/
def withoutDot (path : List Char) : List Char :=
  if ['.', '/'].isPrefixOf path then path.drop 2 else path

/-- A search directory without a leading `./` and without slashes at its end. -/
def searchDirectory (directory : String) : List Char :=
  ((withoutDot directory.toList).reverse.dropWhile (· = '/')).reverse

/-- The test that `sf_module_name_from_path` makes of a search directory. -/
def containsFile (file directory : List Char) : Bool :=
  !directory.isEmpty && directory.isPrefixOf file &&
    (file.drop directory.length).headD '\x00' = '/'

/-- The first search directory that contains the file. -/
def namingDirectory (modulePaths : List String) (file : String) : Option (List Char) :=
  (modulePaths.map searchDirectory).find? (containsFile (withoutDot file.toList))

theorem moduleNameFromPath_eq (file : String) (modulePaths : List String) :
    moduleNameFromPath file modulePaths = (namingDirectory modulePaths file).map fun directory =>
      String.ofList ((withoutDot file.toList).drop (directory.length + 1)) := by
  unfold namingDirectory
  induction modulePaths with
  | nil => rfl
  | cons first rest inductionHypothesis =>
      have step : moduleNameFromPath file (first :: rest) =
          if containsFile (withoutDot file.toList) (searchDirectory first) then
            some (String.ofList
              ((withoutDot file.toList).drop ((searchDirectory first).length + 1)))
          else
            moduleNameFromPath file rest := by
        cases contains : containsFile (withoutDot file.toList) (searchDirectory first) with
        | true =>
            unfold containsFile searchDirectory withoutDot at contains
            simp only [moduleNameFromPath, List.findSome?_cons, contains, if_true]
            rfl
        | false =>
            unfold containsFile searchDirectory withoutDot at contains
            simp only [moduleNameFromPath, List.findSome?_cons, contains, Bool.false_eq_true,
              if_false]
      rw [step, inductionHypothesis, List.map_cons, List.find?_cons]
      cases containsFile (withoutDot file.toList) (searchDirectory first) <;> rfl

theorem namingDirectory_spec {modulePaths : List String} {file : String} {directory : List Char}
    (names : namingDirectory modulePaths file = some directory) :
    0 < partsLength directory ∧ directory.getLast? ≠ some '/' ∧
      ∃ rest, withoutDot file.toList = directory ++ '/' :: rest := by
  have listed := List.mem_of_find?_eq_some names
  have contains := List.find?_some names
  rcases List.mem_map.mp listed with ⟨source, -, rfl⟩
  unfold containsFile at contains
  simp only [Bool.and_eq_true, Bool.not_eq_true', List.isEmpty_eq_false_iff,
    decide_eq_true_eq] at contains
  rcases contains with ⟨⟨nonempty, isPrefix⟩, slash⟩
  have last : (searchDirectory source).getLast? ≠ some '/' := by
    unfold searchDirectory
    rw [List.getLast?_reverse]
    intro isHead
    have stops := List.head?_dropWhile_not (fun c : Char => decide (c = '/'))
      (withoutDot source.toList).reverse
    rw [isHead] at stops
    cases stops
  refine ⟨partsLength_pos_of_last nonempty last, last, ?_⟩
  rcases List.isPrefixOf_iff_prefix.mp isPrefix with ⟨tail, whole⟩
  rw [← whole, List.drop_left] at slash
  cases tail with
  | nil => cases slash
  | cons c rest =>
      obtain rfl : c = '/' := slash
      exact ⟨rest, whole.symm⟩

/-- The first search directory that contains the file is followed, slashes aside, by the path of
the import. -/
def NamedAsImported (modulePaths : List String) (file path : String) : Prop :=
  ∃ directory slashes, namingDirectory modulePaths file = some directory ∧
    (∀ c ∈ slashes, c = '/') ∧
    withoutDot file.toList = directory ++ '/' :: (slashes ++ path.toList)

theorem found_below {files : Files} {modulePaths : List String} {path file : String}
    (found : findModulePath files modulePaths path = some file) :
    file = path ∨ ∃ directory, file.toList = directory ++ '/' :: path.toList := by
  unfold findModulePath at found
  split at found
  · exact .inl (Option.some.inj found).symm
  · rcases List.mem_map.mp (List.mem_of_find?_eq_some found) with ⟨directory, -, rfl⟩
    unfold joinPath
    dsimp only
    by_cases empty : directory = ""
    · subst empty
      exact .inl (by simp)
    · have nonempty : directory.toList ≠ [] := by simpa using empty
      have long : 0 < directory.length := by
        rw [← String.length_toList]
        exact List.length_pos_of_ne_nil nonempty
      right
      by_cases slash : directory.toList.getLastD '/' = '/'
      · refine ⟨directory.toList.dropLast, ?_⟩
        rw [if_neg (not_and_not_right.mpr fun _ => slash), String.append_empty,
          String.toList_append]
        have last : directory.toList.getLast nonempty = '/' := by
          rwa [List.getLastD_eq_getLast?, List.getLast?_eq_some_getLast nonempty,
            Option.getD_some] at slash
        have whole := List.dropLast_append_getLast nonempty
        rw [last] at whole
        conv_lhs => rw [← whole]
        simp
      · refine ⟨directory.toList, ?_⟩
        rw [if_pos ⟨long, slash⟩]
        simp

theorem withoutDot_cases (path : List Char) :
    withoutDot path = path ∨ path = '.' :: '/' :: withoutDot path := by
  unfold withoutDot
  split
  · rename_i isPrefix
    rcases List.isPrefixOf_iff_prefix.mp isPrefix with ⟨rest, rfl⟩
    exact .inr rfl
  · exact .inl rfl

/-- A file that is found lies in a directory, or it is named by the path itself. -/
theorem withoutDot_found {files : Files} {modulePaths : List String} {path file : String}
    (found : findModulePath files modulePaths path = some file) :
    (∃ directory, withoutDot file.toList = directory ++ '/' :: path.toList) ∨
      withoutDot file.toList = path.toList ∨
      path.toList = ['.'] ++ '/' :: withoutDot file.toList := by
  rcases found_below found with rfl | ⟨directory, below⟩
  · exact .inr (withoutDot_cases file.toList)
  · rcases withoutDot_cases file.toList with same | dotted
    · exact .inl ⟨directory, same.trans below⟩
    · rw [below] at dotted
      match directory, dotted with
      | [], dotted => cases dotted
      | [c], dotted =>
          injection dotted with _ dotted
          injection dotted with _ dotted
          exact .inr (.inl (by rw [below]; exact dotted.symm))
      | c :: d :: directory, dotted =>
          injection dotted with _ dotted
          injection dotted with _ dotted
          exact .inl ⟨directory, by rw [below]; exact dotted.symm⟩

theorem namedAsImported_of_same {modulePaths : List String} {file path : String}
    {directory outer rest : List Char}
    (names : namingDirectory modulePaths file = some directory)
    (inside : withoutDot file.toList = directory ++ '/' :: rest)
    (found : withoutDot file.toList = outer ++ '/' :: path.toList)
    (same : partsLength outer = partsLength directory) :
    NamedAsImported modulePaths file path := by
  rcases namingDirectory_spec names with ⟨-, last, -⟩
  rcases List.append_eq_append_iff.mp (inside.symm.trans found) with
    ⟨between, outerIs, restIs⟩ | ⟨between, directoryIs, pathIs⟩
  · cases between with
    | nil =>
        obtain ⟨-, rfl⟩ := List.cons.inj restIs
        exact ⟨directory, [], names, List.forall_mem_nil _, inside⟩
    | cons c between =>
        obtain ⟨rfl, rfl⟩ := List.cons.inj restIs
        rw [outerIs, partsLength_append] at same
        refine ⟨directory, between ++ ['/'], names, ?_, by rw [inside]; simp⟩
        intro c inSlashes
        rcases List.mem_append.mp inSlashes with inBetween | isLast
        · by_contra noSlash
          have positive := partsLength_pos inBetween noSlash
          omega
        · exact List.mem_singleton.mp isLast
  · cases between with
    | nil =>
        obtain ⟨-, rest⟩ := List.cons.inj pathIs
        exact ⟨directory, [], names, List.forall_mem_nil _, by rw [inside, rest]; rfl⟩
    | cons c between =>
        obtain ⟨rfl, -⟩ := List.cons.inj pathIs
        subst directoryIs
        rw [partsLength_append] at same
        cases between with
        | nil => exact absurd (by simp) last
        | cons d between =>
            have positive : 0 < partsLength (d :: between) := by
              apply partsLength_pos_of_last (List.cons_ne_nil d between)
              intro isLast
              apply last
              rw [List.getLast?_append, List.getLast?_cons_cons, isLast]
              rfl
            omega

/-- A module that is found has the same prefix where it is imported and where it is compiled
exactly when it is named as it is imported. -/
theorem samePrefix_iff {files : Files} {modulePaths : List String} {path file : String}
    (found : findModulePath files modulePaths path = some file) :
    (∃ name ∈ moduleNameFromPath file modulePaths,
      mangleModulePrefix path = mangleModulePrefix name) ↔
      NamedAsImported modulePaths file path := by
  rw [moduleNameFromPath_eq]
  constructor
  · rintro ⟨name, isName, same⟩
    rcases Option.map_eq_some_iff.mp isName with ⟨directory, names, rfl⟩
    rcases namingDirectory_spec names with ⟨positive, -, rest, inside⟩
    have lengths := partsLength_of_mangleModulePrefix same
    have below : (withoutDot file.toList).drop (directory.length + 1) = rest := by
      rw [inside, ← List.drop_drop, List.drop_left]
      rfl
    rw [String.toList_ofList, below] at lengths
    have whole := congrArg (fun text => partsLength (withoutExtension text)) inside
    simp only [withoutExtension_directory, partsLength_append] at whole
    rcases withoutDot_found found with ⟨outer, lies⟩ | isPath | dotted
    · have parts := congrArg (fun text => partsLength (withoutExtension text)) lies
      simp only [withoutExtension_directory, partsLength_append] at parts
      exact namedAsImported_of_same names inside lies (by omega)
    · rw [isPath] at whole
      omega
    · have parts := congrArg (fun text => partsLength (withoutExtension text)) dotted
      simp only [withoutExtension_directory, partsLength_append] at parts
      omega
  · rintro ⟨directory, slashes, names, areSlashes, inside⟩
    refine ⟨_, Option.map_eq_some_iff.mpr ⟨directory, names, rfl⟩, ?_⟩
    have below : (withoutDot file.toList).drop (directory.length + 1) =
        slashes ++ path.toList := by
      rw [inside, ← List.drop_drop, List.drop_left]
      rfl
    rw [below, mangleModulePrefix_slashes areSlashes]

/-! ## The module list -/

namespace Resolver

/-- Every module has the file that is found under its name. -/
def Named (files : Files) (modulePaths : List String) (r : Resolver) : Prop :=
  ∀ mod ∈ r.modules, findModulePath files modulePaths mod.name = some mod.filename

section Steps

variable {files : Files} {modulePaths : List String} {r : Resolver}

theorem Named.modify (named : r.Named files modulePaths) (index : Nat) {change : Module → Module}
    (keeps : ∀ mod, (change mod).name = mod.name ∧ (change mod).filename = mod.filename) :
    (r.modifyModule index change).Named files modulePaths := by
  intro mod listed
  rcases List.mem_iff_getElem?.mp listed with ⟨i, entry⟩
  change (r.modules.modify index change)[i]? = some mod at entry
  rw [List.getElem?_modify] at entry
  rcases Option.map_eq_some_iff.mp entry with ⟨old, isOld, rfl⟩
  have found := named old (List.mem_of_getElem? isOld)
  split
  · rw [(keeps old).1, (keeps old).2, found]
  · exact found

theorem Named.addModule (named : r.Named files modulePaths) {mod : Module}
    (found : findModulePath files modulePaths mod.name = some mod.filename) :
    (r.addModule mod).Named files modulePaths :=
  List.forall_mem_append.mpr ⟨named, List.forall_mem_singleton.mpr found⟩

end Steps

end Resolver

open Resolver

/-- A resolution of imports leaves the modules named. -/
def KeepsNames (files : Files) (modulePaths : List String) (resolve : ImportResolver) : Prop :=
  ∀ imports importer r bound after, resolve imports importer r = some (bound, after) →
    r.Named files modulePaths → after.Named files modulePaths

section Resolution

variable {files : Files} {modulePaths : List String} {resolve : ImportResolver}
  {r after : Resolver}

theorem loadModule_modules {filename : String} {loaded : Option Program × Resolver}
    (load : loadModule files filename r = some loaded) : loaded.2.modules = r.modules := by
  unfold loadModule at load
  dsimp only at load
  split at load
  · obtain rfl := Option.some.inj load
    rfl
  · split at load
    · obtain rfl := Option.some.inj load
      rfl
    · rcases Option.map_eq_some_iff.mp load with ⟨parsed, -, rfl⟩
      rfl

theorem resolveLoaded_named (keeps : KeepsNames files modulePaths resolve) {filename : String}
    {index : Nat} {loaded : Option Program × Resolver}
    (named : loaded.2.Named files modulePaths)
    (run : resolveLoaded resolve filename index loaded = some after) :
    after.Named files modulePaths := by
  rcases loaded with ⟨_ | ast, r⟩
  · obtain rfl := Option.some.inj run
    exact named.modify index fun _ => ⟨rfl, rfl⟩
  · rcases Option.map_eq_some_iff.mp run with ⟨⟨imports, middle⟩, runs, rfl⟩
    have inner := keeps _ _ _ _ _ runs (named.modify index fun _ => ⟨rfl, rfl⟩)
    exact inner.modify index fun _ => ⟨rfl, rfl⟩

/-- A new entry has the path of the import as its name. -/
theorem resolveImport_named (keeps : KeepsNames files modulePaths resolve) {imp bound : Import}
    {importer : String} (named : r.Named files modulePaths)
    (run : resolveImport resolve files modulePaths imp importer r = some (bound, after)) :
    after.Named files modulePaths := by
  unfold resolveImport at run
  split at run
  · obtain ⟨-, rfl⟩ := Prod.mk.inj (Option.some.inj run)
    exact named
  · rename_i filename found
    split at run
    · obtain ⟨-, rfl⟩ := Prod.mk.inj (Option.some.inj run)
      exact named
    · rcases Option.bind_eq_some_iff.mp run with ⟨loaded, load, run⟩
      rcases Option.bind_eq_some_iff.mp run with ⟨last, finishes, run⟩
      obtain ⟨-, rfl⟩ := Prod.mk.inj (Option.some.inj run)
      refine resolveLoaded_named keeps ?_ finishes
      unfold Resolver.Named
      rw [loadModule_modules load]
      exact named.addModule found

theorem resolveEach_named (keeps : KeepsNames files modulePaths resolve) {importer : String}
    (imports : List Import) {bound : List Import} (named : r.Named files modulePaths)
    (run : resolveEach (fun imp r => resolveImport resolve files modulePaths imp importer r)
      imports r = some (bound, after)) : after.Named files modulePaths := by
  induction imports generalizing r bound with
  | nil =>
      obtain ⟨-, rfl⟩ := Prod.mk.inj (Option.some.inj run)
      exact named
  | cons imp rest inductionHypothesis =>
      rcases Option.bind_eq_some_iff.mp run with ⟨⟨first, middle⟩, runs, run⟩
      have middleNamed := resolveImport_named keeps named runs
      dsimp only at run
      split at run
      · obtain ⟨-, rfl⟩ := Prod.mk.inj (Option.some.inj run)
        exact middleNamed
      · rcases Option.bind_eq_some_iff.mp run with ⟨⟨others, last⟩, runsOn, run⟩
        obtain ⟨-, rfl⟩ := Prod.mk.inj (Option.some.inj run)
        exact inductionHypothesis middleNamed runsOn

theorem keepsNames_resolveImports (files : Files) (modulePaths : List String) (fuel : Nat) :
    KeepsNames files modulePaths (resolveImports files modulePaths fuel) := by
  induction fuel with
  | zero => exact nofun
  | succ fuel inductionHypothesis =>
      intro imports importer r bound after run named
      exact resolveEach_named inductionHypothesis imports named run

end Resolution

theorem mangleFunction_inj {modulePrefix otherPrefix name : String} :
    mangleFunction (some modulePrefix) name false = mangleFunction (some otherPrefix) name false ↔
      modulePrefix = otherPrefix := by
  constructor
  · intro same
    have texts := congrArg String.toList same
    simp only [mangleFunction, Bool.false_eq_true, if_false, String.toList_append,
      List.append_cancel_right_eq] at texts
    exact String.toList_inj.mp texts
  · rintro rfl
    rfl

/-- The functions of a module that has been resolved have the same link names where they are
imported and where the module is compiled exactly when the first search directory that contains
the file of the module is followed by the path of the import. -/
theorem sameLinkNames_iff {files : Files} {modulePaths : List String} {fuel : Nat}
    {imports bound : List Import} {importer : String} {after : Resolver}
    (run : moduleResolve files modulePaths fuel imports importer = some (bound, after))
    {mod : Module} (isModule : mod ∈ after.modules) (name : String) :
    (∃ moduleName ∈ moduleNameFromPath mod.filename modulePaths,
      mangleFunction (some (mangleModulePrefix mod.name)) name false =
        mangleFunction (some (mangleModulePrefix moduleName)) name false) ↔
      NamedAsImported modulePaths mod.filename mod.name := by
  have named := keepsNames_resolveImports files modulePaths fuel _ _ _ _ _ run nofun
  rw [← samePrefix_iff (named mod isModule)]
  simp only [mangleFunction_inj]

/-- The entry of a file in the list of a run. -/
theorem exists_module {run : Option (List Import × Resolver)} {entries : List (String × String)}
    (resolved : run.map (fun result => result.2.modules.map fun mod => (mod.filename, mod.name)) =
      some entries) {filename name : String} (listed : (filename, name) ∈ entries) :
    ∃ bound after, run = some (bound, after) ∧
      ∃ mod ∈ after.modules, mod.filename = filename ∧ mod.name = name := by
  rcases Option.map_eq_some_iff.mp resolved with ⟨⟨bound, after⟩, isRun, rfl⟩
  rcases List.mem_map.mp listed with ⟨mod, isModule, names⟩
  exact ⟨bound, after, isRun, mod, isModule, Prod.mk.inj names⟩

theorem sameLinkNames_iff_cyclic :
    ∃ bound after,
      moduleResolve cyclicFiles ["lib"] 3 [{ path := "left.slfr" }] "main" = some (bound, after) ∧
      ∃ mod ∈ after.modules, mod.filename = "lib/right.slfr" ∧
        ((∃ moduleName ∈ moduleNameFromPath mod.filename ["lib"],
          mangleFunction (some (mangleModulePrefix mod.name)) "f" false =
            mangleFunction (some (mangleModulePrefix moduleName)) "f" false) ↔
          NamedAsImported ["lib"] mod.filename mod.name) := by
  have resolved : (moduleResolve cyclicFiles ["lib"] 3 [{ path := "left.slfr" }] "main").map
      (fun result => result.2.modules.map fun mod => (mod.filename, mod.name)) =
        some [("left.slfr", "left.slfr"), ("lib/right.slfr", "right.slfr")] := by
    decide
  rcases exists_module resolved (List.mem_cons_of_mem _ List.mem_cons_self) with
    ⟨bound, after, run, mod, isModule, filename, -⟩
  exact ⟨bound, after, run, mod, isModule, filename, sameLinkNames_iff run isModule "f"⟩

/-! ### Search directories inside each other -/

/-- A module in a directory inside of a search directory. -/
def nestedFiles : Files :=
  [("lib/core/x.slfr", "pub fn f() void { }")]

/-- The module is found in the second directory and named below the first. -/
theorem nested_linkNames_differ :
    ∃ bound after,
      moduleResolve nestedFiles ["lib", "lib/core"] 2 [{ path := "x.slfr" }] "main" =
        some (bound, after) ∧
      ∃ mod ∈ after.modules,
        ¬∃ moduleName ∈ moduleNameFromPath mod.filename ["lib", "lib/core"],
          mangleFunction (some (mangleModulePrefix mod.name)) "f" false =
            mangleFunction (some (mangleModulePrefix moduleName)) "f" false := by
  have resolved : (moduleResolve nestedFiles ["lib", "lib/core"] 2 [{ path := "x.slfr" }]
      "main").map (fun result => result.2.modules.map fun mod => (mod.filename, mod.name)) =
        some [("lib/core/x.slfr", "x.slfr")] := by
    decide
  rcases exists_module resolved List.mem_cons_self with
    ⟨bound, after, run, mod, isModule, filename, name⟩
  refine ⟨bound, after, run, mod, isModule, ?_⟩
  rw [filename, name]
  decide

end Sulfur
