import Sulfur.Frontend.Ast
import Sulfur.Utils.Text

/-!
# The intermediate representation

The operands, operations, functions and programs of `ir.h`.
-/

namespace Sulfur.Ir

/-- `sf_ir_opcode`.  The opcodes of the binary operators are one constructor,
since `sf_type_operation_to_opcode` maps the operators to them one to one. -/
inductive Opcode
  | invalid
  | binary (op : BinaryOp)
  | negate
  | bitwiseNot
  | logicalNot
  | assign
  | label
  | jmpCond
  | jmpIncond
  | cast
  | ret
  | param
  | call
  deriving DecidableEq, Repr, Inhabited

/-- `sf_ir_operand`.  The operands without a value type of their own carry
`SF_VAL_TYPE_UNRESOLVED`. -/
inductive Operand
  | none
  | temporary (type : ValueType) (id : Nat)
  | variable (type : ValueType) (name : String)
  | immediate (type : ValueType) (value : String)
  | label (id : Nat)
  | function (type : ValueType) (name : String)
  deriving DecidableEq, Repr, Inhabited

namespace Operand

/-- The `value_type` of an operand, which a label and an empty operand do not have. -/
def valueType : Operand → ValueType
  | temporary type _ => type
  | «variable» type _ => type
  | immediate type _ => type
  | function type _ => type
  | none => .unresolved
  | label _ => .unresolved

@[simp]
theorem valueType_temporary (type : ValueType) (id : Nat) :
    (temporary type id).valueType = type := rfl

@[simp]
theorem valueType_variable (type : ValueType) (name : String) :
    («variable» type name).valueType = type := rfl

@[simp]
theorem valueType_immediate (type : ValueType) (value : String) :
    (immediate type value).valueType = type := rfl

/-- The operand is an immediate. -/
def isImmediate : Operand → Bool
  | immediate .. => true
  | _ => false

/-- The operands that live in a stack slot. -/
def inMemory : Operand → Bool
  | temporary .. | «variable» .. => true
  | _ => false

@[simp]
theorem inMemory_temporary (type : ValueType) (id : Nat) :
    (temporary type id).inMemory = true := rfl

@[simp]
theorem inMemory_variable (type : ValueType) (name : String) :
    («variable» type name).inMemory = true := rfl

@[simp]
theorem inMemory_immediate (type : ValueType) (value : String) :
    (immediate type value).inMemory = false := rfl

end Operand

/-- `sf_ir_operation`. -/
structure Operation where
  opcode : Opcode
  operand1 : Operand := .none
  operand2 : Operand := .none
  operand3 : Operand := .none
  deriving DecidableEq, Repr, Inhabited

/-- `sf_ir_function`. -/
structure IrFunction where
  name : String
  parameters : List Parameter
  returnType : ValueType
  operations : List Operation
  nextTemp : Nat
  qualifiers : Qualifiers
  defined : Bool
  deriving DecidableEq, Repr, Inhabited

/-- `sf_ir_program`. -/
structure IrProgram where
  functions : List IrFunction := []
  nextLabel : Nat := 0
  externs : List String := []
  deriving DecidableEq, Repr, Inhabited

/-- `sf_type_operation_to_opcode` on the unary operators. -/
def unaryOpcode : UnaryOp → Opcode
  | .negate => .negate
  | .bitwiseNot => .bitwiseNot
  | .logicalNot => .logicalNot
  | _ => .invalid

end Sulfur.Ir
