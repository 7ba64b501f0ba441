import Sulfur.Utils.ValueType

/-!
# Operators

`sf_ir_operation_type` lists unary and binary operators in one enumeration,
and each kind of node only ever holds its own half.  The two halves are
separate types here, so that a binary node cannot hold a unary operator.
-/

namespace Sulfur

/-- The operators of a `sf_binary_node`. -/
inductive BinaryOp
  | add
  | sub
  | div
  | mul
  | bitwiseAnd
  | bitwiseOr
  | bitwiseXor
  | bitwiseRshift
  | bitwiseLshift
  | relationalEqual
  | relationalNotEqual
  | relationalLess
  | relationalLessEqual
  | relationalGreater
  | relationalGreaterEqual
  | logicalOr
  | logicalAnd
  deriving DecidableEq, Repr, Inhabited

/-- The operators of a `sf_unary_node`. -/
inductive UnaryOp
  | negate
  | bitwiseNot
  | logicalNot
  | prefixIncrement
  | postfixIncrement
  | prefixDecrement
  | postfixDecrement
  deriving DecidableEq, Repr, Inhabited

namespace BinaryOp

/-- `sf_op_is_logical`. -/
def isLogical : BinaryOp → Bool
  | logicalAnd | logicalOr => true
  | _ => false

/-- `sf_op_is_shift`. -/
def isShift : BinaryOp → Bool
  | bitwiseLshift | bitwiseRshift => true
  | _ => false

/-- `sf_op_is_relational`. -/
def isRelational : BinaryOp → Bool
  | relationalEqual | relationalNotEqual | relationalLess
  | relationalLessEqual | relationalGreater | relationalGreaterEqual => true
  | _ => false

/-- `sf_type_operation_name`. -/
def name : BinaryOp → String
  | add => "+"
  | sub => "-"
  | mul => "*"
  | div => "/"
  | bitwiseAnd => "&"
  | bitwiseOr => "|"
  | bitwiseXor => "^"
  | bitwiseRshift => ">>"
  | bitwiseLshift => "<<"
  | relationalEqual => "=="
  | relationalNotEqual => "!="
  | relationalLess => "<"
  | relationalLessEqual => "<="
  | relationalGreater => ">"
  | relationalGreaterEqual => ">="
  | logicalAnd => "&&"
  | logicalOr => "||"

end BinaryOp

namespace UnaryOp

/-- `sf_type_is_increment_or_decrement`. -/
def isIncrementOrDecrement : UnaryOp → Bool
  | prefixIncrement | prefixDecrement | postfixIncrement | postfixDecrement =>
      true
  | _ => false

end UnaryOp

end Sulfur
