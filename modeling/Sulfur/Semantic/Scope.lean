import Sulfur.Semantic.Symbol

/-!
# Scopes and flow states

`sf_scope` as the list of its variable tables, the innermost table first and
each table in the order of insertion, so that the functions recurse along the
list.  The flags of a flow state are listed as in the source, the outermost
table first.
-/

namespace Sulfur

/-- `sf_scope`; a push never fails, so `failed_pushes` has no counterpart. -/
structure Scope where
  stack : List (List VarSymbol) := []
  nextId : Nat := 0
  deriving DecidableEq, Repr, Inhabited

/-- The flags of `sf_flow_state`. -/
abbrev FlowState := List Bool

namespace Scope

/-- The number of tables on the stack. -/
def depth (scope : Scope) : Nat :=
  scope.stack.length

/-- `scope_push`. -/
def push (scope : Scope) : Scope :=
  { scope with stack := [] :: scope.stack }

/-- `scope_pop`. -/
def pop (scope : Scope) : Scope :=
  { scope with stack := scope.stack.drop 1 }

/-- `sf_var_symbol_table_lookup`. -/
def lookupTable (table : List VarSymbol) (name : String) : Option VarSymbol :=
  table.find? fun symbol => symbol.name = name

/-- `scope_lookup`, the innermost table first. -/
def lookup (scope : Scope) (name : String) : Option VarSymbol :=
  scope.stack.findSome? fun table => lookupTable table name

/-- `scope_insert`, with what it logs. -/
def insert (scope : Scope) (symbol : VarSymbol) (filename : String) :
    Scope × Log :=
  match scope.stack with
  | [] => (scope, [])
  | table :: outer =>
      match lookupTable table symbol.name with
      | some _ =>
          (scope,
            [logError filename "symbol redefinition"
              "'%s' is already declared in this scope"
              (some ("rename the new variable, or remove the duplicate " ++
                "declaration"))
              .semanticRedeclaration symbol.span [symbol.name]])
      | none =>
          let inserted :=
            { symbol with id := scope.nextId, depth := scope.depth - 1 }
          ({ stack := (table ++ [inserted]) :: outer
             nextId := scope.nextId + 1 }, [])

/-- `scope_find_closest`. -/
def findClosest (scope : Scope) (name : String) : Option String :=
  Sulfur.findClosest (scope.stack.flatten.map VarSymbol.name) name

/-- Set the flag of the entry of a table that a lookup of the name finds. -/
def markTable (name : String) : List VarSymbol → List VarSymbol
  | [] => []
  | symbol :: rest =>
      if symbol.name = name then
        { symbol with initialized := true } :: rest
      else
        symbol :: markTable name rest

/-- The same for the innermost table that has the name. -/
def markStack (name : String) : List (List VarSymbol) → List (List VarSymbol)
  | [] => []
  | table :: outer =>
      if (lookupTable table name).isSome then
        markTable name table :: outer
      else
        table :: markStack name outer

/-- The write `sym->initialized = true` through the result of a lookup. -/
def markInitialized (scope : Scope) (name : String) : Scope :=
  { scope with stack := markStack name scope.stack }

/-- The flags of a stack of tables, the outermost table first. -/
def flags : List (List VarSymbol) → FlowState
  | [] => []
  | table :: outer => flags outer ++ table.map VarSymbol.initialized

/-- `scope_flow_save`. -/
def flowSave (scope : Scope) : FlowState :=
  flags scope.stack

/-- Give the entries of a table the flags in front of a list, as long as there
are any, and return the flags that remain. -/
def restoreTable : List VarSymbol → FlowState → List VarSymbol × FlowState
  | [], state => ([], state)
  | table, [] => (table, [])
  | symbol :: rest, flag :: state =>
      let restored := restoreTable rest state
      ({ symbol with initialized := flag } :: restored.1, restored.2)

/-- Give the entries of all tables their flags, the outermost table first. -/
def restoreStack :
    List (List VarSymbol) → FlowState → List (List VarSymbol) × FlowState
  | [], state => ([], state)
  | table :: outer, state =>
      let restoredOuter := restoreStack outer state
      let restored := restoreTable table restoredOuter.2
      (restored.1 :: restoredOuter.1, restored.2)

/-- `scope_flow_restore`. -/
def flowRestore (scope : Scope) (state : FlowState) : Scope :=
  { scope with stack := (restoreStack scope.stack state).1 }

end Scope

namespace FlowState

/-- `scope_flow_fill`. -/
def flowFill (state : FlowState) (value : Bool) : FlowState :=
  state.map fun _ => value

/-- `scope_flow_and`: the flags past the end of the other state stay. -/
def flowAnd : FlowState → FlowState → FlowState
  | [], _ => []
  | state, [] => state
  | flag :: state, other :: others => (flag && other) :: flowAnd state others

end FlowState

end Sulfur
