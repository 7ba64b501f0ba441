import Sulfur.Semantic.Linkage

/-!
# Histories of a function table

The calls of `sf_func_symbol_table_insert` on one table, in any order and with any symbols:
declarations, definitions, extern declarations and imports.  A call that fails leaves no
trace, and the calls that succeed are the insertions of the table.
-/

namespace Sulfur

/-- The arguments of a call of `sf_func_symbol_table_insert` besides the table. -/
structure InsertCall where
  func : FuncSymbol
  filename : String
  deriving DecidableEq, Repr, Inhabited

/-- An entry and what later calls leave of it: nothing but the mark of a definition may
differ, and the mark stays. -/
structure FuncSymbol.Marked (entry later : FuncSymbol) : Prop where
  same : later = { entry with defined := later.defined }
  defined : entry.defined → later.defined

namespace FuncSymbol.Marked

theorem refl (entry : FuncSymbol) : entry.Marked entry :=
  ⟨rfl, fun defined => defined⟩

theorem trans {entry later last : FuncSymbol} (first : entry.Marked later)
    (second : later.Marked last) : entry.Marked last := by
  constructor
  · rw [second.same, first.same]
  · exact second.defined ∘ first.defined

end FuncSymbol.Marked

namespace FuncSymbolTable

/-- The calls one after the other. -/
def insertAll (table : FuncSymbolTable) (calls : List InsertCall) : FuncSymbolTable :=
  calls.foldl (fun table call => (table.insert call.func call.filename).table) table

/-- The symbols of the calls that return true, in their order. -/
def accepted (table : FuncSymbolTable) : List InsertCall → List FuncSymbol
  | [] => []
  | call :: rest =>
      let insertion := table.insert call.func call.filename
      if insertion.ok then
        call.func :: insertion.table.accepted rest
      else
        insertion.table.accepted rest

/-- Every entry stays where it is and stays what it is but for its mark. -/
def Grows (before after : FuncSymbolTable) : Prop :=
  ∀ (index : Nat) (entry : FuncSymbol), before.functions[index]? = some entry →
    ∃ later, after.functions[index]? = some later ∧ entry.Marked later

theorem insertAll_append (table : FuncSymbolTable) (first second : List InsertCall) :
    table.insertAll (first ++ second) = (table.insertAll first).insertAll second :=
  List.foldl_append

/-! ## Entries stay -/

namespace Grows

theorem refl (table : FuncSymbolTable) : table.Grows table :=
  fun _ entry found => ⟨entry, found, .refl entry⟩

theorem trans {first second third : FuncSymbolTable} (before : first.Grows second)
    (after : second.Grows third) : first.Grows third := by
  intro index entry found
  rcases before index entry found with ⟨later, foundLater, marked⟩
  rcases after index later foundLater with ⟨last, foundLast, markedLast⟩
  exact ⟨last, foundLast, marked.trans markedLast⟩

theorem markDefined (table : FuncSymbolTable) (name : String) :
    table.Grows (table.markDefined name) := by
  unfold FuncSymbolTable.markDefined
  split
  · exact refl table
  · rename_i position _
    intro index entry found
    rw [List.getElem?_modify, found]
    simp only [Option.map_eq_map, Option.map_some]
    by_cases isPosition : position = index
    · rw [if_pos isPosition]
      exact ⟨_, rfl, rfl, fun _ => rfl⟩
    · rw [if_neg isPosition]
      exact ⟨entry, rfl, .refl entry⟩

theorem append (table : FuncSymbolTable) (added : List FuncSymbol) (nextId : Nat) :
    table.Grows { functions := table.functions ++ added, nextId := nextId } := by
  intro index entry found
  rcases List.getElem?_eq_some_iff.mp found with ⟨inside, -⟩
  exact ⟨entry, by rw [List.getElem?_append_left inside, found], .refl entry⟩

theorem insert (table : FuncSymbolTable) (func : FuncSymbol) (filename : String) :
    table.Grows (table.insert func filename).table := by
  cases ok : (table.insert func filename).ok with
  | false =>
      rw [insert_of_not_ok ok]
      exact refl table
  | true =>
      rcases (insert_cases ok).2 with ⟨-, inserted⟩ | ⟨existing, -, -, inserted⟩
      · rw [inserted]
        exact append table _ _
      · rw [inserted]
        by_cases defined : func.defined
        · rw [if_pos defined]
          exact markDefined table _
        · rw [if_neg defined]
          exact refl table

theorem insertAll (table : FuncSymbolTable) (calls : List InsertCall) :
    table.Grows (table.insertAll calls) := by
  induction calls generalizing table with
  | nil => exact refl table
  | cons call rest inductionHypothesis =>
      exact (insert table call.func call.filename).trans (inductionHypothesis _)

end Grows

/-! ## The calls that succeed -/

/-- The file name goes into the log only. -/
theorem insert_filename (table : FuncSymbolTable) (func : FuncSymbol)
    (filename other : String) :
    (table.insert func filename).ok = (table.insert func other).ok ∧
      (table.insert func filename).table = (table.insert func other).table := by
  unfold FuncSymbolTable.insert
  split
  · exact ⟨rfl, rfl⟩
  · split
    · dsimp only
      split
      · exact ⟨rfl, rfl⟩
      · split
        · exact ⟨rfl, rfl⟩
        · split <;> exact ⟨rfl, rfl⟩
    · exact ⟨rfl, rfl⟩

/-- A history is the insertions of the symbols that it accepts. -/
theorem inserts_accepted (filename : String) (table : FuncSymbolTable)
    (calls : List InsertCall) :
    Inserts filename table (table.accepted calls) (table.insertAll calls) := by
  induction calls generalizing table with
  | nil => exact .nil
  | cons call rest inductionHypothesis =>
      have others := inductionHypothesis (table.insert call.func call.filename).table
      cases ok : (table.insert call.func call.filename).ok with
      | false =>
          simpa [accepted, ok, insertAll, insert_of_not_ok ok] using others
      | true =>
          rcases insert_filename table call.func filename call.filename with
            ⟨sameAnswer, sameTable⟩
          have both : Inserts filename table
              (call.func :: (table.insert call.func call.filename).table.accepted rest)
              ((table.insert call.func call.filename).table.insertAll rest) :=
            .cons (sameAnswer.trans ok) (by rwa [sameTable])
          simpa [accepted, ok, insertAll] using both

/-- Of the symbols of one name, at most one is a definition. -/
theorem Inserts.count_definitions {filename : String} {table after : FuncSymbolTable}
    {symbols : List FuncSymbol} (inserts : Inserts filename table symbols after)
    (name : String) :
    symbols.countP (fun func => func.defined && func.name = name) ≤ 1 := by
  have pairwise := inserts.pairwise
  clear inserts
  induction symbols with
  | nil => exact Nat.zero_le 1
  | cons func rest inductionHypothesis =>
      rw [List.pairwise_cons] at pairwise
      rw [List.countP_cons]
      by_cases isOwn : func.defined && func.name = name
      · -- The first definition excludes every later one.
        have others : rest.countP (fun func => func.defined && func.name = name) = 0 := by
          rw [List.countP_eq_zero]
          intro other isOther
          simp only [Bool.and_eq_true, decide_eq_true_eq] at isOwn ⊢
          rintro ⟨defined, named⟩
          exact pairwise.1 other isOther isOwn.1 defined (named.trans isOwn.2.symm)
        rw [others, if_pos isOwn]
      · rw [if_neg isOwn]
        exact inductionHypothesis pairwise.2

/-! ## The order of the entries -/

/-- The entries are the names of the symbols, each where it comes first, with their
numbers. -/
structure Lists (table : FuncSymbolTable) (symbols : List FuncSymbol) : Prop where
  names : table.functions.map FuncSymbol.name = (symbols.map FuncSymbol.name).eraseDups
  ids : table.functions.map FuncSymbol.id = List.range table.functions.length
  nextId : table.nextId = table.functions.length

namespace Lists

variable {table : FuncSymbolTable} {symbols : List FuncSymbol}

theorem mem_names (lists : table.Lists symbols) (name : String) :
    name ∈ symbols.map FuncSymbol.name ↔ (table.lookup name).isSome := by
  rw [← List.mem_eraseDups, ← lists.names, lookup, List.find?_isSome]
  simp

theorem again (lists : table.Lists symbols) {func : FuncSymbol}
    (known : (table.lookup func.name).isSome) : table.Lists (symbols ++ [func]) := by
  refine ⟨?_, lists.ids, lists.nextId⟩
  have listed := (lists.mem_names func.name).mpr known
  rw [List.mem_map] at listed
  rw [lists.names, List.map_append, List.eraseDups_append]
  simp [List.removeAll, listed]

theorem markDefined (lists : table.Lists symbols) (name : String) :
    (table.markDefined name).Lists symbols := by
  have length : (table.markDefined name).functions.length = table.functions.length := by
    have names := congrArg List.length (map_name_markDefined table name)
    simpa using names
  constructor
  · rw [map_name_markDefined, lists.names]
  · rw [map_markDefined FuncSymbol.id (fun _ => rfl), lists.ids, length]
  · rw [length]
    exact lists.nextId

theorem add (lists : table.Lists symbols) {func : FuncSymbol}
    (missing : table.lookup func.name = none) :
    Lists
      { functions := table.functions ++ [{ func with id := table.nextId }]
        nextId := table.nextId + 1 } (symbols ++ [func]) := by
  have unlisted : func.name ∉ symbols.map FuncSymbol.name := by
    rw [lists.mem_names, missing]
    exact Bool.false_ne_true
  constructor
  · rw [List.mem_map] at unlisted
    rw [List.map_append, List.map_append, List.eraseDups_append, ← lists.names]
    simp [List.removeAll, List.eraseDups_cons, unlisted]
  · simp [lists.ids, lists.nextId, List.range_succ]
  · simp [lists.nextId]

theorem insert (lists : table.Lists symbols) {func : FuncSymbol} {filename : String}
    (ok : (table.insert func filename).ok) :
    (table.insert func filename).table.Lists (symbols ++ [func]) := by
  rcases (insert_cases ok).2 with ⟨missing, inserted⟩ | ⟨existing, found, -, inserted⟩
  · rw [inserted]
    exact lists.add missing
  · have known : (table.lookup func.name).isSome := by
      rw [found]
      rfl
    rw [inserted]
    by_cases defined : func.defined
    · rw [if_pos defined]
      exact (lists.again known).markDefined _
    · rw [if_neg defined]
      exact lists.again known

theorem insertAll (lists : table.Lists symbols) (calls : List InsertCall) :
    (table.insertAll calls).Lists (symbols ++ table.accepted calls) := by
  induction calls generalizing table symbols with
  | nil => simpa [FuncSymbolTable.insertAll, accepted] using lists
  | cons call rest inductionHypothesis =>
      cases ok : (table.insert call.func call.filename).ok with
      | false =>
          have others := inductionHypothesis lists
          simpa [FuncSymbolTable.insertAll, accepted, ok, insert_of_not_ok ok] using others
      | true =>
          have others := inductionHypothesis (lists.insert ok)
          simpa [FuncSymbolTable.insertAll, accepted, ok] using others

end Lists

/-- Whatever is inserted into an empty table, in any order: the names are distinct, the
entries are numbered in the order in which their names come first, no entry changes but for
its mark and the mark stays, no name is defined twice, and a call that fails changes
nothing. -/
theorem history_invariants (calls : List InsertCall) :
    ((insertAll {} calls).functions.map FuncSymbol.name).Nodup ∧
      (insertAll {} calls).functions.map FuncSymbol.name =
        ((accepted {} calls).map FuncSymbol.name).eraseDups ∧
      (insertAll {} calls).functions.map FuncSymbol.id =
        List.range (insertAll {} calls).functions.length ∧
      (∀ first second, calls = first ++ second →
        (insertAll {} first).Grows (insertAll {} calls)) ∧
      (∀ name, (accepted {} calls).countP
        (fun func => func.defined && func.name = name) ≤ 1) ∧
      ∀ first call second, calls = first ++ call :: second →
        ((insertAll {} first).insert call.func call.filename).ok = false →
          insertAll {} (first ++ [call]) = insertAll {} first := by
  have inserts := inserts_accepted "" {} calls
  have lists : (insertAll {} calls).Lists (accepted {} calls) := by
    have empty : Lists {} [] := ⟨rfl, rfl, rfl⟩
    simpa using empty.insertAll calls
  refine ⟨inserts.distinct List.nodup_nil, lists.names, lists.ids, ?_, ?_, ?_⟩
  · rintro first second rfl
    rw [insertAll_append]
    exact Grows.insertAll _ _
  · exact inserts.count_definitions
  · intro first call second _ failed
    rw [insertAll_append]
    exact insert_of_not_ok failed

end FuncSymbolTable

end Sulfur
