import Sulfur.Utils.Log
import Sulfur.Utils.ValueType
import Sulfur.Frontend.Operator

/-!
# Tokens

The token types of `lexer.h` with the classifications of `token_utils.c`.  A
conversion that answers `SF_OP_TYPE_UNRESOLVED` in the source answers `none`.
-/

namespace Sulfur

/-- `sf_token_type`. -/
inductive TokenType
  | undefined
  | identifier
  | integer
  | kwTrue
  | kwFalse
  | plus
  | minus
  | star
  | slash
  | equal
  | equalEqual
  | bang
  | bangEqual
  | less
  | lessEqual
  | greater
  | greaterEqual
  | plusEqual
  | minusEqual
  | starEqual
  | slashEqual
  | ampEqual
  | pipeEqual
  | caretEqual
  | leftShiftEqual
  | rightShiftEqual
  | plusPlus
  | minusMinus
  | ampAmp
  | pipePipe
  | amp
  | pipe
  | caret
  | tilde
  | leftShift
  | rightShift
  | semicolon
  | lparen
  | rparen
  | lbrace
  | rbrace
  | comma
  | dot
  | kwI8
  | kwI16
  | kwI32
  | kwI64
  | kwU8
  | kwU16
  | kwU32
  | kwU64
  | kwBool
  | kwVoid
  | kwAs
  | kwIf
  | kwElse
  | kwWhile
  | kwFn
  | kwReturn
  | kwMut
  | kwPub
  | kwExtern
  | kwImport
  | eof
  deriving DecidableEq, Repr, Inhabited

/-- `sf_token`; the value is the text between the start of the buffer and its
terminating zero. -/
structure Token where
  type : TokenType
  value : String := ""
  span : Span := {}
  deriving DecidableEq, Repr, Inhabited

namespace TokenType

/-- `sf_token_is_type`. -/
def isType : TokenType → Bool
  | kwI8 | kwI16 | kwI32 | kwI64 | kwU8 | kwU16 | kwU32 | kwU64 | kwBool
  | kwVoid => true
  | _ => false

/-- `sf_token_is_ident`. -/
def isIdent (type : TokenType) : Bool :=
  type = identifier

/-- `sf_token_is_block`. -/
def isBlock (type : TokenType) : Bool :=
  type = lbrace

/-- `sf_token_is_if`. -/
def isIf (type : TokenType) : Bool :=
  type = kwIf

/-- `sf_token_is_while`. -/
def isWhile (type : TokenType) : Bool :=
  type = kwWhile

/-- `sf_token_is_fn`. -/
def isFn (type : TokenType) : Bool :=
  type = kwFn

/-- `sf_token_is_return`. -/
def isReturn (type : TokenType) : Bool :=
  type = kwReturn

/-- `sf_token_is_qual`. -/
def isQual : TokenType → Bool
  | kwMut | kwExtern | kwPub => true
  | _ => false

/-- `sf_token_is_import`. -/
def isImport (type : TokenType) : Bool :=
  type = kwImport

/-- `sf_token_is_assign`. -/
def isAssign : TokenType → Bool
  | equal | plusEqual | minusEqual | starEqual | slashEqual | ampEqual
  | pipeEqual | caretEqual | leftShiftEqual | rightShiftEqual => true
  | _ => false

/-- `sf_token_to_type`. -/
def toType : TokenType → ValueType
  | kwI8 => .i8
  | kwI16 => .i16
  | kwI32 => .i32
  | kwI64 => .i64
  | kwU8 => .u8
  | kwU16 => .u16
  | kwU32 => .u32
  | kwU64 => .u64
  | kwBool => .bool
  | kwVoid => .void
  | _ => .unresolved

/-- `sf_token_to_unary_op`. -/
def toUnaryOp : TokenType → Option UnaryOp
  | minus => some .negate
  | tilde => some .bitwiseNot
  | bang => some .logicalNot
  | plusPlus => some .prefixIncrement
  | minusMinus => some .prefixDecrement
  | _ => none

/-- `sf_token_to_postfix_op`. -/
def toPostfixOp : TokenType → Option UnaryOp
  | plusPlus => some .postfixIncrement
  | minusMinus => some .postfixDecrement
  | _ => none

/-- `sf_token_to_binary_op`. -/
def toBinaryOp : TokenType → Option BinaryOp
  | plus | plusEqual => some .add
  | minus | minusEqual => some .sub
  | star | starEqual => some .mul
  | slash | slashEqual => some .div
  | amp | ampEqual => some .bitwiseAnd
  | pipe | pipeEqual => some .bitwiseOr
  | caret | caretEqual => some .bitwiseXor
  | rightShift | rightShiftEqual => some .bitwiseRshift
  | leftShift | leftShiftEqual => some .bitwiseLshift
  | equalEqual => some .relationalEqual
  | bangEqual => some .relationalNotEqual
  | less => some .relationalLess
  | lessEqual => some .relationalLessEqual
  | greater => some .relationalGreater
  | greaterEqual => some .relationalGreaterEqual
  | ampAmp => some .logicalAnd
  | pipePipe => some .logicalOr
  | _ => none

theorem toType_eq_unresolved_iff (type : TokenType) :
    type.toType = .unresolved ↔ type.isType = false := by
  cases type <;> simp [toType, isType]

end TokenType

end Sulfur
