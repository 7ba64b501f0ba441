import Sulfur.Semantic.Acceptance
import Sulfur.Semantic.Trace

/-!
# Definite assignment

The flags of a scope are sound when every variable whose flag is set has a
value.  The analyser keeps them sound along every execution: it saves and
restores them by position, which the tables allow because a branch leaves the
scope with the entries that it found.
-/

namespace Sulfur

open Trace

/-! ## Scopes by position -/

namespace Scope

/-- The numbers of the variables, table by table. -/
def shapeOf (stack : List (List VarSymbol)) : List (List Nat) :=
  stack.map fun table => table.map VarSymbol.id

/-- The numbers of the variables of a scope, table by table. -/
def shape (scope : Scope) : List (List Nat) :=
  shapeOf scope.stack

/-- The numbers of a shape in the order of the flags. -/
def positions : List (List Nat) → List Nat
  | [] => []
  | table :: outer => positions outer ++ table

/-- A shape with more variables in its innermost table. -/
def extendShape : List (List Nat) → List Nat → List (List Nat)
  | [], _ => []
  | table :: outer, new => (table ++ new) :: outer

/-- Every variable whose flag is set has a value. -/
def Covered (scope : Scope) (assigned : Set Nat) : Prop :=
  ∀ table ∈ scope.stack, ∀ symbol ∈ table, symbol.initialized → symbol.id ∈ assigned

@[simp]
theorem extendShape_nil (shape : List (List Nat)) : extendShape shape [] = shape := by
  cases shape <;> simp [extendShape]

theorem extendShape_append (shape : List (List Nat)) (first second : List Nat) :
    extendShape (extendShape shape first) second = extendShape shape (first ++ second) := by
  cases shape <;> simp [extendShape]

theorem extendShape_ne_nil {shape : List (List Nat)} (new : List Nat)
    (nonempty : shape ≠ []) : extendShape shape new ≠ [] := by
  cases shape with
  | nil => exact absurd rfl nonempty
  | cons table outer => simp [extendShape]

end Scope

/-- The flags of a state that are set belong to variables with a value. -/
def FlowState.Covered (state : FlowState) (ids : List Nat) (assigned : Set Nat) :
    Prop :=
  ∀ entry ∈ state.zip ids, entry.1 → entry.2 ∈ assigned

namespace FlowState

@[simp]
theorem length_flowFill (state : FlowState) (value : Bool) :
    (state.flowFill value).length = state.length := by
  simp [flowFill]

@[simp]
theorem length_flowAnd (first second : FlowState) :
    (first.flowAnd second).length = first.length := by
  fun_induction flowAnd first second <;> simp_all

/-- A flag of a conjunction is set in both states. -/
theorem Covered.flowAnd_left {first : FlowState} {ids : List Nat} {assigned : Set Nat}
    (covered : first.Covered ids assigned) (second : FlowState) :
    (first.flowAnd second).Covered ids assigned := by
  unfold Covered at covered ⊢
  induction first generalizing second ids with
  | nil => simp [flowAnd]
  | cons flag state inductionHypothesis =>
      cases second with
      | nil => exact covered
      | cons other others =>
          cases ids with
          | nil => simp
          | cons id ids =>
              simp only [flowAnd, List.zip_cons_cons, List.forall_mem_cons,
                Bool.and_eq_true] at covered ⊢
              exact ⟨fun both => covered.1 both.1, inductionHypothesis covered.2 others⟩

theorem Covered.flowAnd_right {first second : FlowState} {ids : List Nat}
    {assigned : Set Nat} (covered : second.Covered ids assigned)
    (length : first.length = second.length) :
    (first.flowAnd second).Covered ids assigned := by
  unfold Covered at covered ⊢
  induction first generalizing second ids with
  | nil => simp [flowAnd]
  | cons flag state inductionHypothesis =>
      cases second with
      | nil => cases length
      | cons other others =>
          cases ids with
          | nil => simp
          | cons id ids =>
              simp only [flowAnd, List.zip_cons_cons, List.forall_mem_cons,
                Bool.and_eq_true] at covered ⊢
              exact ⟨fun both => covered.1 both.2,
                inductionHypothesis covered.2 (Nat.succ.inj length)⟩

end FlowState

namespace Scope

theorem length_flags (stack : List (List VarSymbol)) :
    (flags stack).length = (positions (shapeOf stack)).length := by
  induction stack with
  | nil => rfl
  | cons table outer inductionHypothesis =>
      simpa [flags, shapeOf, positions] using inductionHypothesis

@[simp]
theorem length_flowSave (scope : Scope) :
    scope.flowSave.length = (positions scope.shape).length :=
  length_flags scope.stack

/-- The flags by position are the flags of the entries. -/
theorem covered_iff (scope : Scope) (assigned : Set Nat) :
    scope.Covered assigned ↔ scope.flowSave.Covered (positions scope.shape) assigned := by
  unfold Covered FlowState.Covered flowSave shape
  induction scope.stack with
  | nil => simp [flags]
  | cons table outer inductionHypothesis =>
      have entries : (flags (table :: outer)).zip (positions (shapeOf (table :: outer))) =
          (flags outer).zip (positions (shapeOf outer)) ++
            table.map fun symbol => (symbol.initialized, symbol.id) := by
        change List.zip (flags outer ++ table.map VarSymbol.initialized)
          (positions (shapeOf outer) ++ table.map VarSymbol.id) = _
        rw [List.zip_append (length_flags outer), List.zip_map']
      rw [entries, List.forall_mem_append, ← inductionHypothesis, List.forall_mem_cons,
        and_comm]
      simp

theorem restoreTable_append (table : List VarSymbol) {state : FlowState}
    (rest : FlowState) (length : state.length = table.length) :
    (restoreTable table (state ++ rest)).2 = rest ∧
      (restoreTable table (state ++ rest)).1.map VarSymbol.initialized = state := by
  induction table generalizing state with
  | nil =>
      obtain rfl := List.eq_nil_of_length_eq_zero length
      exact ⟨rfl, rfl⟩
  | cons symbol others inductionHypothesis =>
      cases state with
      | nil => cases length
      | cons flag state =>
          obtain ⟨remain, restored⟩ := inductionHypothesis (Nat.succ.inj length)
          exact ⟨remain, congrArg (flag :: ·) restored⟩

theorem restoreStack_append (stack : List (List VarSymbol)) (state rest : FlowState)
    (length : state.length = (flags stack).length) :
    (restoreStack stack (state ++ rest)).2 = rest ∧
      flags (restoreStack stack (state ++ rest)).1 = state := by
  induction stack generalizing state rest with
  | nil =>
      obtain rfl := List.eq_nil_of_length_eq_zero length
      exact ⟨rfl, rfl⟩
  | cons table outer inductionHypothesis =>
      rw [flags, List.length_append, List.length_map] at length
      obtain ⟨first, second, rfl, firstLength, secondLength⟩ :
          ∃ first second, state = first ++ second ∧
            first.length = (flags outer).length ∧ second.length = table.length :=
        ⟨state.take (flags outer).length, state.drop (flags outer).length,
          (List.take_append_drop _ _).symm, by simp [length], by simp [length]⟩
      obtain ⟨remain, restored⟩ := inductionHypothesis first (second ++ rest) firstLength
      rw [← List.append_assoc] at remain restored
      obtain ⟨tableRemain, tableRestored⟩ := restoreTable_append table rest secondLength
      simp only [restoreStack, flags, remain, restored, tableRemain, tableRestored,
        and_self]

/-- The flags apart, a restored table has the entries that it had. -/
theorem map_restoreTable {α : Type} {view : VarSymbol → α}
    (blind : ∀ symbol flag, view { symbol with initialized := flag } = view symbol)
    (table : List VarSymbol) (state : FlowState) :
    (restoreTable table state).1.map view = table.map view := by
  induction table generalizing state with
  | nil => rfl
  | cons symbol rest inductionHypothesis =>
      cases state with
      | nil => rfl
      | cons flag state => simp [restoreTable, inductionHypothesis, blind]

theorem map_restoreStack {α : Type} {view : VarSymbol → α}
    (blind : ∀ symbol flag, view { symbol with initialized := flag } = view symbol)
    (stack : List (List VarSymbol)) (state : FlowState) :
    (restoreStack stack state).1.map (fun table => table.map view) =
      stack.map fun table => table.map view := by
  induction stack generalizing state with
  | nil => rfl
  | cons table outer inductionHypothesis =>
      simp [restoreStack, inductionHypothesis, map_restoreTable blind]

@[simp]
theorem shape_flowRestore (scope : Scope) (state : FlowState) :
    (scope.flowRestore state).shape = scope.shape :=
  map_restoreStack (fun _ _ => rfl) scope.stack state

theorem covered_flowRestore (scope : Scope) {state : FlowState}
    (length : state.length = (positions scope.shape).length) (assigned : Set Nat) :
    (scope.flowRestore state).Covered assigned ↔
      state.Covered (positions scope.shape) assigned := by
  have restored : (scope.flowRestore state).flowSave = state := by
    have restored := (restoreStack_append scope.stack state []
      (length.trans (length_flags scope.stack).symm)).2
    rwa [List.append_nil] at restored
  rw [covered_iff, restored, shape_flowRestore]

/-- The flags of a conjunction are sound when those of either state are. -/
theorem covered_flowAnd {scope : Scope} {ids : List Nat} (shape : positions scope.shape = ids)
    {first second : FlowState} (firstLength : first.length = ids.length)
    (secondLength : second.length = ids.length) {assigned : Set Nat}
    (covered : first.Covered ids assigned ∨ second.Covered ids assigned) :
    (scope.flowRestore (first.flowAnd second)).Covered assigned := by
  rw [covered_flowRestore _ (by simp [firstLength, shape]), shape]
  rcases covered with inFirst | inSecond
  · exact inFirst.flowAnd_left second
  · exact inSecond.flowAnd_right (firstLength.trans secondLength.symm)

/-! ### Insertions and writes -/

/-- A clean insertion appends an entry with the next number. -/
theorem insert_of_clean {scope : Scope} {symbol : VarSymbol} {filename : String}
    (nonempty : scope.stack ≠ [])
    (clean : Log.hadErrors (scope.insert symbol filename).2 = false) :
    ∃ table outer, scope.stack = table :: outer ∧
      (scope.insert symbol filename).1 =
        ⟨(table ++ [{ symbol with id := scope.nextId, depth := scope.depth - 1 }]) ::
          outer, scope.nextId + 1⟩ := by
  unfold insert at clean ⊢
  split
  · rename_i empty
    exact absurd empty nonempty
  · rename_i table outer stack
    simp only [stack] at clean
    split
    · rename_i other taken
      simp [taken] at clean
    · exact ⟨table, outer, stack, rfl⟩

theorem shape_insert {scope : Scope} {symbol : VarSymbol} {filename : String}
    (nonempty : scope.stack ≠ [])
    (clean : Log.hadErrors (scope.insert symbol filename).2 = false) :
    (scope.insert symbol filename).1.shape = extendShape scope.shape [scope.nextId] := by
  obtain ⟨table, outer, stack, inserted⟩ := insert_of_clean nonempty clean
  simp [inserted, shape, shapeOf, stack, extendShape]

theorem nextId_insert {scope : Scope} {symbol : VarSymbol} {filename : String}
    (nonempty : scope.stack ≠ [])
    (clean : Log.hadErrors (scope.insert symbol filename).2 = false) :
    (scope.insert symbol filename).1.nextId = scope.nextId + 1 := by
  obtain ⟨table, outer, stack, inserted⟩ := insert_of_clean nonempty clean
  rw [inserted]

theorem Covered.insert {scope : Scope} {symbol : VarSymbol} {filename : String}
    {assigned later : Set Nat} (covered : scope.Covered assigned)
    (wellFormed : scope.WellFormed) (nonempty : scope.stack ≠ [])
    (clean : Log.hadErrors (scope.insert symbol filename).2 = false)
    (kept : ∀ id ∈ assigned, id < scope.nextId → id ∈ later)
    (new : symbol.initialized → scope.nextId ∈ later) :
    (scope.insert symbol filename).1.Covered later := by
  obtain ⟨table, outer, stack, inserted⟩ := insert_of_clean nonempty clean
  have older : ∀ old ∈ scope.stack, ∀ other ∈ old, other.initialized → other.id ∈ later :=
    fun old inStack other inTable flag =>
      kept other.id (covered old inStack other inTable flag)
        (wellFormed old inStack other inTable).2
  rw [inserted]
  intro changed inStack other inTable flag
  rcases List.mem_cons.mp inStack with rfl | inOuter
  · rcases List.mem_append.mp inTable with inTable | own
    · exact older table (by simp [stack]) other inTable flag
    · rw [List.mem_singleton.mp own] at flag ⊢
      exact new flag
  · exact older changed (by simp [stack, inOuter]) other inTable flag

/-- The flags apart, a write changes no entry. -/
theorem map_markTable {α : Type} {view : VarSymbol → α}
    (blind : ∀ symbol, view { symbol with initialized := true } = view symbol)
    (name : String) (table : List VarSymbol) :
    (markTable name table).map view = table.map view := by
  induction table with
  | nil => rfl
  | cons symbol rest inductionHypothesis =>
      unfold markTable
      split <;> simp [inductionHypothesis, blind]

theorem map_markStack {α : Type} {view : VarSymbol → α}
    (blind : ∀ symbol, view { symbol with initialized := true } = view symbol)
    (name : String) (stack : List (List VarSymbol)) :
    (markStack name stack).map (fun table => table.map view) =
      stack.map fun table => table.map view := by
  induction stack with
  | nil => rfl
  | cons table outer inductionHypothesis =>
      unfold markStack
      split
      · simp [map_markTable blind]
      · simp [inductionHypothesis]

theorem shape_markInitialized (scope : Scope) (name : String) :
    (scope.markInitialized name).shape = scope.shape :=
  map_markStack (fun _ => rfl) name scope.stack

/-- A marked table differs in the entry that the lookup finds. -/
theorem mem_markTable_cases {name : String} {table : List VarSymbol}
    {symbol : VarSymbol} (inTable : symbol ∈ markTable name table) :
    symbol ∈ table ∨
      ∃ found, lookupTable table name = some found ∧ symbol.id = found.id := by
  induction table with
  | nil => simp [markTable] at inTable
  | cons first rest inductionHypothesis =>
      unfold markTable at inTable
      split at inTable
      · rename_i named
        rcases List.mem_cons.mp inTable with rfl | inRest
        · exact Or.inr ⟨first, by simp [lookupTable, named], rfl⟩
        · exact Or.inl (List.mem_cons_of_mem _ inRest)
      · rename_i other
        rcases List.mem_cons.mp inTable with rfl | inRest
        · exact Or.inl (List.mem_cons_self ..)
        · rcases inductionHypothesis inRest with old | ⟨found, lookup, id⟩
          · exact Or.inl (List.mem_cons_of_mem _ old)
          · refine Or.inr ⟨found, ?_, id⟩
            rw [lookupTable, List.find?_cons_of_neg (by simpa using other)]
            exact lookup

theorem Covered.markInitialized {scope : Scope} {assigned : Set Nat}
    (covered : scope.Covered assigned) {name : String} {found : VarSymbol}
    (lookup : scope.lookup name = some found) :
    (scope.markInitialized name).Covered (Insert.insert found.id assigned) := by
  obtain ⟨stack, nextId⟩ := scope
  unfold Covered Scope.markInitialized
  unfold Covered at covered
  unfold Scope.lookup at lookup
  dsimp only at covered lookup ⊢
  induction stack with
  | nil => cases lookup
  | cons table outer inductionHypothesis =>
      rw [List.forall_mem_cons] at covered
      have older : ∀ old ∈ outer, ∀ symbol ∈ old, symbol.initialized →
          symbol.id ∈ Insert.insert found.id assigned :=
        fun old inOuter symbol inTable flag =>
          Or.inr (covered.2 old inOuter symbol inTable flag)
      unfold markStack
      split
      · rename_i here
        obtain ⟨first, isFirst⟩ := Option.isSome_iff_exists.mp here
        obtain rfl : first = found := by
          simpa [List.findSome?_cons, isFirst] using lookup
        rw [List.forall_mem_cons]
        refine ⟨fun symbol inTable flag => ?_, older⟩
        rcases mem_markTable_cases inTable with old | ⟨marked, isMarked, id⟩
        · exact Or.inr (covered.1 symbol old flag)
        · obtain rfl := Option.some.inj (isMarked.symm.trans isFirst)
          exact Or.inl id
      · rename_i missing
        rw [Option.not_isSome_iff_eq_none] at missing
        rw [List.findSome?_cons, missing] at lookup
        rw [List.forall_mem_cons]
        exact ⟨fun symbol inTable flag => Or.inr (covered.1 symbol inTable flag),
          inductionHypothesis covered.2 lookup⟩

end Scope

/-! ## Expressions -/

namespace Expr

/-- The variables that a typed expression reads have set flags. -/
theorem Typed.reads {s : Semantic} {expr : Expr} (typed : expr.Typed s) {id : Nat}
    (read : .read id ∈ expr.events) :
    ∃ table ∈ s.scope.stack, ∃ symbol ∈ table, symbol.initialized ∧ symbol.id = id := by
  induction expr using Expr.induction with
  | binary base op left right leftHypothesis rightHypothesis =>
      rcases List.mem_append.mp read with inLeft | inRight
      · exact leftHypothesis typed.1 inLeft
      · exact rightHypothesis typed.2.1 inRight
  | unary base op operand operandHypothesis =>
      rcases List.mem_append.mp read with inOperand | written
      · exact operandHypothesis typed.1 inOperand
      · split at written
        · cases operand <;> simp [Expr.written] at written
        · cases written
  | cast base target operand operandHypothesis => exact operandHypothesis typed.1 read
  | literal base tokenType value => cases read
  | identifier base name depth own symbol =>
      obtain ⟨found, lookup, flag, -, -, same, -⟩ := typed
      obtain ⟨table, inStack, inTable, -⟩ := Scope.mem_of_lookup_eq_some lookup
      obtain rfl := Event.read.inj (List.mem_singleton.mp read)
      exact ⟨table, inStack, found, inTable, flag, same.symm⟩
  | funcCall base callee linkName arguments argumentsHypothesis =>
      obtain ⟨func, -, -, -, argumentsTyped⟩ := typed
      obtain ⟨argument, inArguments, inArgument⟩ := (mem_argumentEvents arguments).mp read
      exact argumentsHypothesis argument inArguments
        (argumentsTyped.typed argument inArguments) inArgument

theorem Typed.safe {s : Semantic} {expr : Expr} (typed : expr.Typed s)
    {assigned : Set Nat} (covered : s.scope.Covered assigned) :
    Safe assigned expr.events := by
  refine safe_of_reads expr.not_declare_mem_events fun id read => ?_
  obtain ⟨table, inStack, symbol, inTable, flag, rfl⟩ := typed.reads read
  exact covered table inStack symbol inTable flag

end Expr

/-- An insertion without an error gives the declaration the next number. -/
theorem insertVarDecl_clean {s : Semantic} (nonempty : s.scope.stack ≠ []) {decl : VarDecl}
    {sym : VarSymbol} (name : sym.name = decl.name)
    (clean : Log.hadErrors (insertVarDecl s decl sym).log = false) :
    (insertVarDecl s decl sym).node = .varDecl { decl with id := s.scope.nextId } := by
  obtain ⟨table, inStack⟩ := List.exists_mem_of_ne_nil _ nonempty
  obtain ⟨found, lookup, id⟩ := Scope.lookup_insert clean inStack
  rw [name] at lookup
  simp [insertVarDecl, lookup, id]

theorem Scope.Covered.after_events {scope : Scope} {assigned : Set Nat}
    (covered : scope.Covered assigned) (expr : Expr) :
    scope.Covered (after assigned expr.events) :=
  fun table inStack symbol inTable flag =>
    mem_after (covered table inStack symbol inTable flag)
      (expr.not_declare_mem_events symbol.id)

/-- The accesses of an expression keep the flags sound. -/
theorem Expr.Typed.sound {s : Semantic} {expr : Expr} (typed : expr.Typed s)
    (outcome : Outcome) :
    Behaviour.Sound s.scope.Covered (.straight outcome expr.events) s.scope.Covered :=
  .straight (fun _ covered => typed.safe covered)
    fun _ _ covered => covered.after_events expr

end Sulfur
