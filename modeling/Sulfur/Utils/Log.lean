import Mathlib.Tactic

/-!
# Diagnostics

Every stage of the compiler reports through `sf_log`.  A stage is modelled as
a function that returns the diagnostics it logs, in order; the driver stops
after a stage whose log contains an error.
-/

namespace Sulfur

/-- `sf_span`. -/
structure Span where
  line : Nat := 0
  col : Nat := 0
  len : Nat := 0
  deriving DecidableEq, Repr, Inhabited

/-- `sf_log_severity`. -/
inductive Severity
  | info
  | warning
  | error
  | fatal
  deriving DecidableEq, Repr

/-- The members of `sf_log_error_code` that the modelled stages use. -/
inductive LogCode
  | generalInsufficientMemory
  | lexerUndefinedToken
  | parserUnexpectedToken
  | parserRepeatedQualifier
  | semanticRedeclaration
  | semanticRedefinition
  | semanticUndeclared
  | semanticUninitialized
  | semanticTypeMismatch
  | semanticInvalidExplicitCast
  | semanticInvalidImplicitCast
  | semanticLiteralOverflow
  | semanticDivisionByZero
  | semanticConstantExpr
  | semanticReturnOutsideFunction
  | semanticNoValueReturn
  | semanticVoidReturnValue
  | semanticMissingReturn
  | semanticInvalidType
  | semanticNoMainFunction
  | semanticInvalidReturnType
  | semanticInvalidParameters
  | semanticInvalidAssign
  | semanticInvalidQualifier
  | semanticInvalidDefinition
  | semanticConflictingDeclaration
  | semanticUnusedExpression
  | semanticUselessCast
  | semanticArgumentCount
  | semanticCyclicImport
  | moduleNotFound
  deriving DecidableEq, Repr

/-- One call of `sf_log`: the format strings, and the arguments they print. -/
structure Diagnostic where
  title : String
  desc : String
  hint : Option String
  file : String
  code : LogCode
  span : Span
  severity : Severity
  arguments : List String := []
  deriving DecidableEq, Repr

/-- The severities that `emit_log` counts in `g_error_count`. -/
def Diagnostic.isError (diagnostic : Diagnostic) : Bool :=
  diagnostic.severity = .error || diagnostic.severity = .fatal

/-- What was logged, in order. -/
abbrev Log := List Diagnostic

/-- `sf_log_had_errors`, for the diagnostics of one stage. -/
def Log.hadErrors (log : Log) : Bool :=
  log.any Diagnostic.isError

namespace Log

@[simp]
theorem hadErrors_nil : hadErrors [] = false :=
  rfl

@[simp]
theorem hadErrors_cons (diagnostic : Diagnostic) (log : Log) :
    hadErrors (diagnostic :: log) = (diagnostic.isError || hadErrors log) :=
  rfl

@[simp]
theorem hadErrors_append (first second : Log) :
    hadErrors (first ++ second) = (hadErrors first || hadErrors second) :=
  List.any_append

end Log

end Sulfur
