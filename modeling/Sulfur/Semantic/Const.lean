import Sulfur.Semantic.Scope

/-!
# Constant evaluation

`semantic_const.c`.  An evaluation that answers `false` in the source returns
`none`.  The C types `uint64_t` and `int64_t` hold every intermediate result
that the functions do not reject, except for the left shifts, which reduce.
-/

namespace Sulfur

/-- `strtoull` on a string of decimal digits; `none` when it sets `ERANGE`. -/
def strtoull (digits : String) : Option Nat :=
  let value := Nat.ofDigitChars 10 digits.toList 0
  if value < 2 ^ 64 then some value else none

/-- `literal_magnitude`. -/
def literalMagnitude : Expr → Option Nat
  | .literal _ .integer value => strtoull value
  | _ => none

/-- `INT64_MIN`. -/
def int64Min : Int :=
  -2 ^ 63

/-- `INT64_MAX`. -/
def int64Max : Int :=
  2 ^ 63 - 1

/-- `eval_uint_binary`; the operands are below `2 ^ 64`. -/
def evalUintBinary (op : BinaryOp) (l r : Nat) : Option Nat :=
  match op with
  | .add => if l + r < 2 ^ 64 then some (l + r) else none
  | .sub => if l < r then none else some (l - r)
  | .mul => if l * r < 2 ^ 64 then some (l * r) else none
  | .div => if r = 0 then none else some (l / r)
  | .bitwiseLshift => if r ≥ 64 then none else some (l * 2 ^ r % 2 ^ 64)
  | .bitwiseRshift => if r ≥ 64 then none else some (l / 2 ^ r)
  | .bitwiseAnd => some (l &&& r)
  | .bitwiseOr => some (l ||| r)
  | .bitwiseXor => some (l ^^^ r)
  | _ => none

/-- The result, if an `int64_t` holds it. -/
def int64Checked (value : Int) : Option Int :=
  if int64Min ≤ value ∧ value ≤ int64Max then some value else none

/-- A bitwise operation on the patterns of two `int64_t`. -/
def int64Bitwise (op : BitVec 64 → BitVec 64 → BitVec 64) (l r : Int) : Int :=
  (op (BitVec.ofInt 64 l) (BitVec.ofInt 64 r)).toInt

/-- `eval_int_binary`; the operands are in the range of `int64_t`. -/
def evalIntBinary (op : BinaryOp) (l r : Int) : Option Int :=
  match op with
  | .add => int64Checked (l + r)
  | .sub => int64Checked (l - r)
  | .mul => int64Checked (l * r)
  | .div =>
      if r = 0 then none
      else if l = int64Min ∧ r = -1 then none
      else some (l.tdiv r)
  | .bitwiseLshift =>
      if r < 0 ∨ r ≥ 64 then none
      else some (BitVec.ofInt 64 (l * 2 ^ r.toNat)).toInt
  | .bitwiseRshift =>
      if r < 0 ∨ r ≥ 64 then none else some (l / 2 ^ r.toNat)
  | .bitwiseAnd => some (int64Bitwise (· &&& ·) l r)
  | .bitwiseOr => some (int64Bitwise (· ||| ·) l r)
  | .bitwiseXor => some (int64Bitwise (· ^^^ ·) l r)
  | _ => none

/-- `sf_const_eval_uint`. -/
def constEvalUint : Expr → Option Nat
  | .binary _ op left right => do
      let l ← constEvalUint left
      let r ← constEvalUint right
      evalUintBinary op l r
  | expr => literalMagnitude expr

/-- `eval_int_negate` under a literal. -/
def negatedMagnitude (magnitude : Nat) : Option Int :=
  if magnitude > 2 ^ 63 then none else some (-magnitude)

/-- `sf_const_eval_int`. -/
def constEvalInt : Expr → Option Int
  | .literal base tokenType value => do
      let magnitude ← literalMagnitude (.literal base tokenType value)
      if (magnitude : Int) > int64Max then none else some magnitude
  | .unary _ op operand =>
      if op = .negate then
        match operand with
        | .literal base tokenType value => do
            let magnitude ← literalMagnitude (.literal base tokenType value)
            negatedMagnitude magnitude
        | operand => do
            let child ← constEvalInt operand
            if child = int64Min then none else some (-child)
      else
        none
  | .binary _ op left right => do
      let l ← constEvalInt left
      let r ← constEvalInt right
      evalIntBinary op l r
  | _ => none

/-- `compare_int` and `compare_uint`, which compare in the same way. -/
def compareConst (op : BinaryOp) (l r : Int) : Option Bool :=
  match op with
  | .relationalEqual => some (l = r)
  | .relationalNotEqual => some (l ≠ r)
  | .relationalLess => some (l < r)
  | .relationalLessEqual => some (l ≤ r)
  | .relationalGreater => some (l > r)
  | .relationalGreaterEqual => some (l ≥ r)
  | _ => none

/-- The integer branches of `eval_relational`, chosen by the type of the left
operand. -/
def evalRelationalInteger (op : BinaryOp) (left right : Expr) : Option Bool :=
  if left.resolved.isSigned then do
    let l ← constEvalInt left
    let r ← constEvalInt right
    compareConst op l r
  else do
    let l ← constEvalUint left
    let r ← constEvalUint right
    compareConst op l r

/-- `sf_const_eval_bool`. -/
def constEvalBool : Expr → Option Bool
  | .literal _ tokenType _ =>
      match tokenType with
      | .kwTrue => some true
      | .kwFalse => some false
      | .integer => none
  | .unary _ op operand =>
      if op = .logicalNot then do
        let operandValue ← constEvalBool operand
        return !operandValue
      else
        none
  | .binary _ op left right =>
      if op.isLogical then do
        let l ← constEvalBool left
        let r ← constEvalBool right
        return if op = .logicalAnd then l && r else l || r
      else if op.isRelational then
        if left.resolved = .bool then
          if op ≠ .relationalEqual ∧ op ≠ .relationalNotEqual then
            none
          else do
            let l ← constEvalBool left
            let r ← constEvalBool right
            return if op = .relationalEqual then l = r else l ≠ r
        else
          evalRelationalInteger op left right
      else
        none
  | _ => none

/-- `sf_const_is_zero`. -/
def constIsZero (expr : Expr) (isSigned : Bool) : Bool :=
  if isSigned then
    constEvalInt expr = some 0
  else
    constEvalUint expr = some 0

/-- `signed_fits`. -/
def signedFits (type : ValueType) (value : Int) : Bool :=
  match type with
  | .i8 => -128 ≤ value ∧ value ≤ 127
  | .i16 => -32768 ≤ value ∧ value ≤ 32767
  | .i32 => -2147483648 ≤ value ∧ value ≤ 2147483647
  | _ => true

/-- What a check returns and logs. -/
structure Check where
  ok : Bool
  log : Log := []
  deriving DecidableEq, Repr

/-- The hint that both overflow reports share. -/
def overflowHint : Option String :=
  some ("the expression overflows at compile time; use a wider type or " ++
    "restructure the expression")

/-- `check_signed_overflow`. -/
def checkSignedOverflow (expr : Expr) (resolved : ValueType) (filename : String) :
    Check :=
  match constEvalInt expr with
  | none => ⟨true, []⟩
  | some value =>
      if signedFits resolved value then
        ⟨true, []⟩
      else
        ⟨false,
          [logError filename "constant expression overflow"
            ("the constant expression evaluates to '%lld', which does not " ++
              "fit in type '%s'")
            overflowHint .semanticLiteralOverflow expr.span
            [toString value, resolved.name]]⟩

/-- The operands of a constant unsigned subtraction that underflows. -/
def underflowOperands : Expr → Option (Nat × Nat)
  | .binary _ .sub left right => do
      let l ← constEvalUint left
      let r ← constEvalUint right
      if l < r then some (l, r) else none
  | _ => none

/-- `check_unsigned_overflow`. -/
def checkUnsignedOverflow (expr : Expr) (resolved : ValueType)
    (filename : String) : Check :=
  match constEvalUint expr with
  | none =>
      match underflowOperands expr with
      | none => ⟨true, []⟩
      | some (l, r) =>
          ⟨false,
            [logError filename "constant expression underflow"
              ("the constant expression '%llu - %llu' underflows for an " ++
                "unsigned type")
              (some ("unsigned subtraction cannot produce a negative result; " ++
                "check operand order or use a signed type"))
              .semanticLiteralOverflow expr.span [toString l, toString r]]⟩
  | some value =>
      if resolved.uintLiteralFits value then
        ⟨true, []⟩
      else
        ⟨false,
          [logError filename "constant expression overflow"
            ("the constant expression evaluates to '%llu', which does not " ++
              "fit in type '%s'")
            overflowHint .semanticLiteralOverflow expr.span
            [toString value, resolved.name]]⟩

/-- `sf_const_check_overflow`. -/
def constCheckOverflow (expr : Expr) (resolved : ValueType) (filename : String) :
    Check :=
  if resolved.isSigned then
    checkSignedOverflow expr resolved filename
  else
    checkUnsignedOverflow expr resolved filename

/-- `sf_const_warn`: what it logs. -/
def constWarn (filename : String) (expr : Expr) (desc : String) : Log :=
  match constEvalBool expr with
  | none => []
  | some value =>
      [logWarning filename "constant condition" desc
        (some "check the operands and operators")
        .semanticConstantExpr expr.span [if value then "true" else "false"]]

/-- A check that succeeds logs nothing, and one that fails logs an error. -/
def Check.Sound (check : Check) : Prop :=
  if check.ok then check.log = [] else Log.hadErrors check.log = true

theorem constCheckOverflow_sound (expr : Expr) (resolved : ValueType)
    (filename : String) : (constCheckOverflow expr resolved filename).Sound := by
  unfold constCheckOverflow checkSignedOverflow checkUnsignedOverflow Check.Sound
  split
  · split
    · simp
    · split <;> simp
  · split
    · split <;> simp
    · split <;> simp

@[simp]
theorem hadErrors_constWarn (filename : String) (expr : Expr) (desc : String) :
    Log.hadErrors (constWarn filename expr desc) = false := by
  unfold constWarn
  split <;> simp

end Sulfur
