import Sulfur.Utils.Log
import Sulfur.Frontend.Operator

/-!
# Syntax trees

The nodes of `ast.h`.  The analyser writes its results into fields of the
nodes (`resolved`, `id`, `symbol`, `linkName`), which the parser leaves blank;
the analyser of this model returns the tree with those fields filled in.
-/

namespace Sulfur

/-- `sf_qualifiers`. -/
structure Qualifiers where
  isMutable : Bool := false
  isPublic : Bool := false
  isExtern : Bool := false
  deriving DecidableEq, Repr, Inhabited

/-- `sf_parameter`. -/
structure Parameter where
  type : ValueType
  name : String
  id : Nat := 0
  qualifiers : Qualifiers := {}
  deriving DecidableEq, Repr, Inhabited

/-- `sf_var_symbol`. -/
structure VarSymbol where
  name : String
  type : ValueType
  initialized : Bool
  depth : Nat := 0
  id : Nat := 0
  span : Span := {}
  qualifiers : Qualifiers := {}
  deriving DecidableEq, Repr, Inhabited

/-- The header common to all nodes, `sf_ast_node`. -/
structure Base where
  resolved : ValueType := .unresolved
  span : Span := {}
  deriving DecidableEq, Repr, Inhabited

/-- The token types that `parse_primary` turns into literal nodes. -/
inductive LiteralType
  | integer
  | kwTrue
  | kwFalse
  deriving DecidableEq, Repr, Inhabited

/-- The callee of a call, an identifier node that is never analysed. -/
structure Callee where
  base : Base := {}
  name : String
  deriving DecidableEq, Repr, Inhabited

/-- Expression nodes.  `symbol` is the table entry that the analyser resolved
an identifier to. -/
inductive Expr
  | binary (base : Base) (op : BinaryOp) (left right : Expr)
  | unary (base : Base) (op : UnaryOp) (operand : Expr)
  | cast (base : Base) (targetType : ValueType) (operand : Expr)
  | literal (base : Base) (tokenType : LiteralType) (value : String)
  | identifier (base : Base) (name : String) (depth id : Nat)
      (symbol : Option VarSymbol)
  | funcCall (base : Base) (callee : Callee) (linkName : Option String)
      (arguments : List Expr)
  deriving Repr, Inhabited

/-- `sf_var_decl_node`. -/
structure VarDecl where
  base : Base := {}
  qualifiers : Qualifiers := {}
  varType : ValueType
  name : String
  id : Nat := 0
  value : Option Expr
  deriving Repr, Inhabited

/-- `sf_var_assign_node`. -/
structure VarAssign where
  base : Base := {}
  name : String
  value : Expr
  id : Nat := 0
  deriving Repr, Inhabited

/-- `sf_func_decl_node` without its body. -/
structure FuncDecl where
  base : Base := {}
  name : String
  linkName : Option String := none
  qualifiers : Qualifiers := {}
  parameters : List Parameter
  returnType : ValueType
  deriving DecidableEq, Repr, Inhabited

/-- Statement nodes. -/
inductive Stmt
  | varDecl (decl : VarDecl)
  | varAssign (assign : VarAssign)
  | block (base : Base) (statements : List Stmt)
  | ifStmt (base : Base) (condition : Expr) (branchThen : Stmt)
      (branchElse : Option Stmt)
  | whileStmt (base : Base) (condition : Expr) (branchDo : Stmt)
  | funcDecl (func : FuncDecl) (body : Option Stmt)
  | returnStmt (base : Base) (value : Option Expr)
  | expression (expr : Expr)
  deriving Repr, Inhabited

/-- `sf_import_node`. -/
structure Import where
  base : Base := {}
  path : String
  moduleIndex : Nat := 0
  resolved : Bool := false
  deriving DecidableEq, Repr, Inhabited

/-- `sf_program_node`. -/
structure Program where
  statements : List Stmt := []
  imports : List Import := []
  deriving Repr, Inhabited

namespace Expr

/-- The header of a node. -/
def base : Expr → Base
  | binary base .. => base
  | unary base .. => base
  | cast base .. => base
  | literal base .. => base
  | identifier base .. => base
  | funcCall base .. => base

/-- The type that the analysis has given to an expression. -/
def resolved (expr : Expr) : ValueType :=
  expr.base.resolved

/-- The place of an expression in the source. -/
def span (expr : Expr) : Span :=
  expr.base.span

/-- The node is a literal. -/
def isLiteral : Expr → Bool
  | literal .. => true
  | _ => false

/-- The expression is a call that returns no value. -/
def isVoidCall : Expr → Bool
  | funcCall base .. => base.resolved = .void
  | _ => false

/-- Induction over expressions with one hypothesis for each argument of a
call. -/
@[elab_as_elim]
theorem induction {motive : Expr → Prop}
    (binary : ∀ base op left right, motive left → motive right →
      motive (.binary base op left right))
    (unary : ∀ base op operand, motive operand → motive (.unary base op operand))
    (cast : ∀ base target operand, motive operand →
      motive (.cast base target operand))
    (literal : ∀ base tokenType value, motive (.literal base tokenType value))
    (identifier : ∀ base name depth id symbol,
      motive (.identifier base name depth id symbol))
    (funcCall : ∀ base callee linkName arguments,
      (∀ argument ∈ arguments, motive argument) →
      motive (.funcCall base callee linkName arguments)) :
    ∀ expr, motive expr
  | .binary base op left right =>
      binary base op left right
        (Expr.induction binary unary cast literal identifier funcCall left)
        (Expr.induction binary unary cast literal identifier funcCall right)
  | .unary base op operand =>
      unary base op operand
        (Expr.induction binary unary cast literal identifier funcCall operand)
  | .cast base target operand =>
      cast base target operand
        (Expr.induction binary unary cast literal identifier funcCall operand)
  | .literal base tokenType value => literal base tokenType value
  | .identifier base name depth id symbol =>
      identifier base name depth id symbol
  | .funcCall base callee linkName arguments =>
      funcCall base callee linkName arguments fun argument _ =>
        Expr.induction binary unary cast literal identifier funcCall argument

end Expr

namespace Stmt

/-- Induction over statements with one hypothesis for each substatement. -/
@[elab_as_elim]
theorem induction {motive : Stmt → Prop}
    (varDecl : ∀ decl, motive (.varDecl decl))
    (varAssign : ∀ assign, motive (.varAssign assign))
    (block : ∀ base statements, (∀ stmt ∈ statements, motive stmt) →
      motive (.block base statements))
    (ifStmt : ∀ base condition branchThen branchElse, motive branchThen →
      (∀ stmt ∈ branchElse, motive stmt) →
      motive (.ifStmt base condition branchThen branchElse))
    (whileStmt : ∀ base condition branchDo, motive branchDo →
      motive (.whileStmt base condition branchDo))
    (funcDecl : ∀ func body, (∀ stmt ∈ body, motive stmt) →
      motive (.funcDecl func body))
    (returnStmt : ∀ base value, motive (.returnStmt base value))
    (expression : ∀ expr, motive (.expression expr)) :
    ∀ stmt, motive stmt
  | .varDecl decl => varDecl decl
  | .varAssign assign => varAssign assign
  | .block base statements =>
      block base statements fun stmt _ =>
        Stmt.induction varDecl varAssign block ifStmt whileStmt funcDecl
          returnStmt expression stmt
  | .ifStmt base condition branchThen branchElse =>
      ifStmt base condition branchThen branchElse
        (Stmt.induction varDecl varAssign block ifStmt whileStmt funcDecl
          returnStmt expression branchThen)
        fun stmt _ =>
          Stmt.induction varDecl varAssign block ifStmt whileStmt funcDecl
            returnStmt expression stmt
  | .whileStmt base condition branchDo =>
      whileStmt base condition branchDo
        (Stmt.induction varDecl varAssign block ifStmt whileStmt funcDecl
          returnStmt expression branchDo)
  | .funcDecl func body =>
      funcDecl func body fun stmt _ =>
        Stmt.induction varDecl varAssign block ifStmt whileStmt funcDecl
          returnStmt expression stmt
  | .returnStmt base value => returnStmt base value
  | .expression expr => expression expr

end Stmt

end Sulfur
