import Sulfur.Frontend.Ast
import Sulfur.Utils.Text

/-!
# Function symbols

The function table of `symbol.c`.  The functions log, so they return the
diagnostics together with the table.
-/

namespace Sulfur

/-- `sf_func_symbol`. -/
structure FuncSymbol where
  name : String
  linkName : String
  returnType : ValueType
  parameters : List Parameter
  defined : Bool
  span : Span := {}
  id : Nat := 0
  qualifiers : Qualifiers := {}
  imported : Bool := false
  deriving DecidableEq, Repr, Inhabited

/-- `sf_func_symbol_table`. -/
structure FuncSymbolTable where
  functions : List FuncSymbol := []
  nextId : Nat := 0
  deriving DecidableEq, Repr, Inhabited

/-- A diagnostic with the severity `SF_LOG_SEVERITY_ERROR`. -/
def logError (file title desc : String) (hint : Option String) (code : LogCode)
    (span : Span) (arguments : List String) : Diagnostic :=
  { title := title
    desc := desc
    hint := hint
    file := file
    code := code
    span := span
    severity := .error
    arguments := arguments }

/-- A diagnostic with the severity `SF_LOG_SEVERITY_WARNING`. -/
def logWarning (file title desc : String) (hint : Option String) (code : LogCode)
    (span : Span) (arguments : List String) : Diagnostic :=
  { logError file title desc hint code span arguments with severity := .warning }

@[simp]
theorem isError_logError (file title desc : String) (hint : Option String)
    (code : LogCode) (span : Span) (arguments : List String) :
    (logError file title desc hint code span arguments).isError = true :=
  rfl

@[simp]
theorem isError_logWarning (file title desc : String) (hint : Option String)
    (code : LogCode) (span : Span) (arguments : List String) :
    (logWarning file title desc hint code span arguments).isError = false :=
  rfl

/-- `has_same_parameters`. -/
def hasSameParameters (a b : FuncSymbol) : Bool :=
  a.parameters.map Parameter.type = b.parameters.map Parameter.type

/-- `has_same_return_type`. -/
def hasSameReturnType (a b : FuncSymbol) : Bool :=
  a.returnType = b.returnType

/-- `has_same_name`. -/
def hasSameName (a b : FuncSymbol) : Bool :=
  a.name = b.name

/-- `has_same_signature`. -/
def hasSameSignature (a b : FuncSymbol) : Bool :=
  hasSameReturnType a b && hasSameParameters a b && hasSameName a b

namespace FuncSymbolTable

/-- `sf_func_symbol_table_lookup`. -/
def lookup (table : FuncSymbolTable) (name : String) : Option FuncSymbol :=
  table.functions.find? fun func => func.name = name

/-- `sf_func_symbol_table_find_closest`. -/
def findClosest (table : FuncSymbolTable) (name : String) : Option String :=
  Sulfur.findClosest (table.functions.map FuncSymbol.name) name

/-- Set the `defined` mark of the entry that a lookup of the name finds. -/
def markDefined (table : FuncSymbolTable) (name : String) : FuncSymbolTable :=
  { table with
    functions :=
      match table.functions.findIdx? fun func => func.name = name with
      | none => table.functions
      | some index =>
          table.functions.modify index fun func => { func with defined := true } }

/-- What `sf_func_symbol_table_insert` returns, leaves behind and logs. -/
structure Insertion where
  ok : Bool
  table : FuncSymbolTable
  log : Log

/-- `sf_func_symbol_table_insert`. -/
def insert (table : FuncSymbolTable) (func : FuncSymbol) (filename : String) :
    Insertion :=
  if func.qualifiers.isExtern && func.defined then
    ⟨false, table,
      [logError filename "invalid definition"
        "extern function '%s' cannot be defined here"
        (some "do not define extern functions where it is declared")
        .semanticInvalidDefinition func.span [func.name]]⟩
  else
    match table.lookup func.name with
    | some existing =>
        let redeclared :=
          if !func.defined then
            [logWarning filename "redeclaration" "'%s' is already declared"
              (some "remove the duplicate declaration")
              .semanticRedeclaration func.span [func.name]]
          else
            []
        if !hasSameSignature func existing then
          ⟨false, table, redeclared ++
            [logError filename "conflicting declaration"
              "'%s' was previously declared with a different signature"
              (some ("make the return type and parameters match the previous " ++
                "declaration"))
              .semanticConflictingDeclaration func.span [func.name]]⟩
        else if func.defined && existing.defined then
          ⟨false, table, redeclared ++
            [logError filename "redefinition" "'%s' is already defined"
              (some "rename the new function, or remove the duplicate definition")
              .semanticRedefinition func.span [func.name]]⟩
        else if func.defined then
          ⟨true, table.markDefined func.name, redeclared⟩
        else
          ⟨true, table, redeclared⟩
    | none =>
        ⟨true,
          { functions := table.functions ++ [{ func with id := table.nextId }]
            nextId := table.nextId + 1 }, []⟩

/-- A failed insertion logs an error. -/
theorem hadErrors_of_insert_not_ok {table : FuncSymbolTable} {func : FuncSymbol}
    {filename : String} (failed : (table.insert func filename).ok = false) :
    Log.hadErrors (table.insert func filename).log = true := by
  revert failed
  unfold insert
  split
  · simp
  · split
    · dsimp only
      split
      · simp
      · split
        · simp
        · split <;> simp
    · simp

end FuncSymbolTable

end Sulfur
