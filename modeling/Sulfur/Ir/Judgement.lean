import Sulfur.Ir.Constant
import Sulfur.Ir.Hint
import Sulfur.Semantic.Judged

/-!
# The evaluators against the generated code

The evaluators of `semantic_const.c` work in 64 bits, and the generated code wraps at
every node to the node's type.  The two agree on an expression and its parts exactly
when the 64-bit value of every part is one of its type.
-/

namespace Sulfur

open Word

/-! ## The signed evaluator -/

theorem eq_of_int64Checked {value result : Int} (found : int64Checked value = some result) :
    value = result := by
  unfold int64Checked at found
  split at found
  · exact Option.some.inj found
  · cases found

/-- A bitwise result that the type holds is the one at the type's width. -/
theorem bitwise_eq_of_inRange {type : ValueType}
    {op : ∀ w : Nat, BitVec w → BitVec w → BitVec w}
    (commutes : ∀ (format : Format) (width : Nat) (x y : BitVec format.width),
      format.extend width (op _ x y) = op _ (format.extend width x) (format.extend width y))
    {a b : Int} (first : type.InRange a) (second : type.InRange b)
    (range : type.InRange (int64Bitwise (op 64) a b)) :
    type.format.bitwise op a b = int64Bitwise (op 64) a b := by
  have narrow : type.widthBits ≤ 64 := by cases type <;> decide
  by_cases signed : type.isSigned
  · have widened := @Format.bitwise_widen type.format ValueType.i64.format signed narrow op
      (commutes _ _) _ _ first second
    rw [← widened]
    rfl
  · have unsigned : type.isSigned = false := Bool.eq_false_iff.mpr signed
    have widened := @Format.bitwise_widen type.format ValueType.u64.format unsigned narrow op
      (commutes _ _) _ _ first second
    have nonneg : 0 ≤ (op 64 (BitVec.ofInt 64 a) (BitVec.ofInt 64 b)).toInt := by
      unfold ValueType.InRange ValueType.format at range
      rw [unsigned] at range
      exact range.1
    rw [← widened]
    change ((op 64 (BitVec.ofInt 64 a) (BitVec.ofInt 64 b)).toNat : Int) =
      (op 64 (BitVec.ofInt 64 a) (BitVec.ofInt 64 b)).toInt
    have pattern := BitVec.toInt_eq_toNat_cond (op 64 (BitVec.ofInt 64 a) (BitVec.ofInt 64 b))
    split at pattern
    · exact pattern.symm
    · have bound := (op 64 (BitVec.ofInt 64 a) (BitVec.ofInt 64 b)).isLt
      omega

/-- A reduction to 64 bits that the type holds is the reduction to the type. -/
theorem wrap_eq_of_inRange {type wide : ValueType} (narrow : type.widthBits ≤ wide.widthBits)
    {value : Int} (range : type.InRange (wide.wrap value)) :
    type.wrap value = wide.wrap value := by
  have forgets : type.wrap (wide.wrap value) = type.wrap value :=
    Format.wrap_wrap_of_le narrow value
  rw [← forgets]
  exact ValueType.wrap_of_inRange range

namespace Ir

theorem binaryResult_of_evalIntBinary {op : BinaryOp} {type : ValueType} {a b value : Int}
    (first : type.InRange a) (second : op.isShift = false → type.InRange b)
    (amount : op.isShift → 0 ≤ b ∧ b < type.widthBits) (range : type.InRange value)
    (evaluated : evalIntBinary op a b = some value) :
    binaryResult op type a b = some value := by
  have left := ValueType.wrap_of_inRange first
  have narrow : type.widthBits ≤ 64 := by cases type <;> decide
  cases op with
  | add | sub | mul =>
      have right := ValueType.wrap_of_inRange (second rfl)
      cases eq_of_int64Checked evaluated
      simp [binaryResult, left, right, ValueType.wrap_of_inRange range]
  | div =>
      have right := ValueType.wrap_of_inRange (second rfl)
      simp only [evalIntBinary, Option.ite_none_left_eq_some, Option.some.injEq] at evaluated
      rcases evaluated with ⟨nonzero, _, rfl⟩
      simp [binaryResult, left, right, nonzero, range]
  | bitwiseLshift =>
      simp only [evalIntBinary, Option.ite_none_left_eq_some, Option.some.injEq] at evaluated
      rcases evaluated with ⟨_, rfl⟩
      change type.InRange (ValueType.i64.wrap (a * 2 ^ b.toNat)) at range
      have reduced := wrap_eq_of_inRange narrow range
      simp only [binaryResult, left, if_pos (amount rfl), reduced]
      rfl
  | bitwiseRshift =>
      simp only [evalIntBinary, Option.ite_none_left_eq_some, Option.some.injEq] at evaluated
      rcases evaluated with ⟨_, rfl⟩
      simp only [binaryResult, left, if_pos (amount rfl)]
  | bitwiseAnd =>
      have right := ValueType.wrap_of_inRange (second rfl)
      cases evaluated
      simp only [binaryResult, left, right]
      exact congrArg some (bitwise_eq_of_inRange Format.extend_and first (second rfl) range)
  | bitwiseOr =>
      have right := ValueType.wrap_of_inRange (second rfl)
      cases evaluated
      simp only [binaryResult, left, right]
      exact congrArg some (bitwise_eq_of_inRange Format.extend_or first (second rfl) range)
  | bitwiseXor =>
      have right := ValueType.wrap_of_inRange (second rfl)
      cases evaluated
      simp only [binaryResult, left, right]
      exact congrArg some (bitwise_eq_of_inRange Format.extend_xor first (second rfl) range)
  | _ => cases evaluated

/-- Where its values stay in their types, the signed evaluator computes what the
generated code does. -/
theorem evaluate_of_constEvalInt {World : Type} {allowed : BinaryOp → Bool}
    (subset : ∀ op, allowed op → op.calculates) {expected : ValueType}
    {expr : Expr} (calculation : expr.Calculation allowed expected)
    (inRange : expr.JudgedInRange true) {value : Int}
    (evaluated : constEvalInt expr = some value) (calls : Calls World)
    (memory : Memory World) : evaluate calls expr memory = some (some value, memory) := by
  have range := inRange.value evaluated
  induction calculation generalizing value with
  | literal =>
      rcases constEvalInt_literal_inv evaluated with ⟨magnitude, parsed, rfl⟩
      exact evaluate_literal parsed range calls memory
  | negatedLiteral _ _ _ same _ =>
      rcases constEvalInt_negatedLiteral_inv evaluated with ⟨magnitude, parsed, rfl⟩
      exact evaluate_negatedLiteral parsed same range calls memory
  | negate _ compound _ _ inductionHypothesis =>
      rcases constEvalInt_negate_inv compound evaluated with ⟨child, operandValue, _, rfl⟩
      have operandRange := inRange.operand compound
      exact evaluate_negate
        (inductionHypothesis operandRange operandValue (operandRange.value operandValue)) range
  | @shift _ base op left right allows shifts _ _ same checked leftHypothesis
      rightHypothesis =>
      rcases constEvalInt_binary_inv evaluated with ⟨a, b, leftValue, rightValue, operation⟩
      have leftRange := inRange.left.value leftValue
      have rightRange := inRange.right.value rightValue
      have amount := checked b rightValue
      have typed : (Expr.binary base op left right).resolved = left.resolved := same.symm
      have result := binaryResult_of_evalIntBinary leftRange
        (fun plain => absurd shifts (by simp [plain])) (fun _ => amount) (typed ▸ range)
        operation
      rw [same] at result
      exact evaluate_binary (subset op allows)
        (leftHypothesis inRange.left leftValue leftRange)
        (rightHypothesis inRange.right rightValue rightRange) result
  | @arithmetic _ base op left right allows plain first second group promoted _ _
      leftHypothesis rightHypothesis =>
      rcases constEvalInt_binary_inv evaluated with ⟨a, b, leftValue, rightValue, operation⟩
      have leftRange := inRange.left.value leftValue
      have rightRange := inRange.right.value rightValue
      have ranges := ValueType.InRange.promote group leftRange rightRange
      rw [promoted] at ranges
      have result := binaryResult_of_evalIntBinary ranges.1 (fun _ => ranges.2)
        (fun shifts => absurd shifts (by simp [plain])) range operation
      exact evaluate_binary (subset op allows)
        (leftHypothesis inRange.left leftValue leftRange)
        (rightHypothesis inRange.right rightValue rightRange) result

end Ir

/-! ## The unsigned evaluator -/

theorem toInt_ofNat_of_lt {value : Nat} (small : value < 2 ^ 63) :
    (BitVec.ofNat 64 value).toInt = value := by
  rw [BitVec.toInt_ofNat']
  exact Int.bmod_eq_of_le (by omega) (by omega)

theorem int64Bitwise_natCast {op : BitVec 64 → BitVec 64 → BitVec 64} {a b value : Nat}
    (pattern : op (BitVec.ofNat 64 a) (BitVec.ofNat 64 b) = BitVec.ofNat 64 value)
    (small : value < 2 ^ 63) : int64Bitwise op a b = value := by
  rw [int64Bitwise, BitVec.ofInt_natCast, BitVec.ofInt_natCast, pattern,
    toInt_ofNat_of_lt small]

/-- Below `2 ^ 63` both evaluators compute the same. -/
theorem evalIntBinary_of_evalUintBinary {op : BinaryOp} {a b value : Nat}
    (first : a < 2 ^ 63) (small : value < 2 ^ 63)
    (evaluated : evalUintBinary op a b = some value) :
    evalIntBinary op a b = some (value : Int) := by
  cases op with
  | add =>
      simp only [evalUintBinary, Option.ite_none_right_eq_some, Option.some.injEq] at evaluated
      rw [evalIntBinary, int64Checked, if_pos (by unfold int64Min int64Max; omega)]
      exact congrArg some (by omega)
  | sub =>
      simp only [evalUintBinary, Option.ite_none_left_eq_some, Option.some.injEq] at evaluated
      rw [evalIntBinary, int64Checked, if_pos (by unfold int64Min int64Max; omega)]
      exact congrArg some (by omega)
  | mul =>
      simp only [evalUintBinary, Option.ite_none_right_eq_some, Option.some.injEq] at evaluated
      have product : (a : Int) * b = value := by exact_mod_cast evaluated.2
      rw [evalIntBinary, product, int64Checked,
        if_pos (by unfold int64Min int64Max; omega)]
  | div =>
      simp only [evalUintBinary, Option.ite_none_left_eq_some, Option.some.injEq] at evaluated
      rcases evaluated with ⟨nonzero, rfl⟩
      rw [evalIntBinary, if_neg (by exact_mod_cast nonzero),
        if_neg (by unfold int64Min; omega), Int.tdiv_eq_ediv_of_nonneg (by omega)]
      rfl
  | bitwiseLshift =>
      simp only [evalUintBinary, Option.ite_none_left_eq_some, Option.some.injEq] at evaluated
      rcases evaluated with ⟨amount, rfl⟩
      have shifted : BitVec.ofInt 64 ((a : Int) * 2 ^ b) =
          BitVec.ofNat 64 (a * 2 ^ b % 2 ^ 64) := by
        have cast : (a : Int) * 2 ^ b = ((a * 2 ^ b : Nat) : Int) := by push_cast; rfl
        rw [cast, BitVec.ofInt_natCast]
        apply BitVec.eq_of_toNat_eq
        simp
      rw [evalIntBinary, if_neg (by omega), Int.toNat_natCast, shifted,
        toInt_ofNat_of_lt small]
  | bitwiseRshift =>
      simp only [evalUintBinary, Option.ite_none_left_eq_some, Option.some.injEq] at evaluated
      rcases evaluated with ⟨amount, rfl⟩
      rw [evalIntBinary, if_neg (by omega), Int.toNat_natCast]
      push_cast
      rfl
  | bitwiseAnd =>
      cases evaluated
      exact congrArg some (int64Bitwise_natCast BitVec.ofNat_and.symm small)
  | bitwiseOr =>
      cases evaluated
      exact congrArg some (int64Bitwise_natCast BitVec.ofNat_or.symm small)
  | bitwiseXor =>
      cases evaluated
      exact congrArg some (int64Bitwise_natCast BitVec.ofNat_xor.symm small)
  | _ => cases evaluated

theorem constEvalInt_of_constEvalUint {expr : Expr}
    (small : ∀ part ∈ expr.subexpressions, ∀ value, constEvalUint part = some value →
      value < 2 ^ 63) {value : Nat} (evaluated : constEvalUint expr = some value) :
    constEvalInt expr = some (value : Int) := by
  have bound := small expr expr.mem_subexpressions value evaluated
  induction expr using Expr.induction generalizing value with
  | binary base op left right leftHypothesis rightHypothesis =>
      rcases constEvalUint_binary_inv evaluated with ⟨a, b, leftValue, rightValue, operation⟩
      have smallLeft := fun part inLeft =>
        small part (List.mem_cons_of_mem _ (List.mem_append_left _ inLeft))
      have smallRight := fun part inRight =>
        small part (List.mem_cons_of_mem _ (List.mem_append_right _ inRight))
      have leftBound := smallLeft left left.mem_subexpressions a leftValue
      have rightBound := smallRight right right.mem_subexpressions b rightValue
      rw [constEvalInt_binary (leftHypothesis smallLeft leftValue leftBound)
        (rightHypothesis smallRight rightValue rightBound)]
      exact evalIntBinary_of_evalUintBinary leftBound bound operation
  | unary base op operand =>
      rw [constEvalUint_unary] at evaluated
      cases evaluated
  | literal base tokenType digits =>
      cases tokenType with
      | integer =>
          rw [constEvalUint_literal] at evaluated
          exact constEvalInt_literal evaluated (by unfold int64Max; omega)
      | kwTrue => cases evaluated
      | kwFalse => cases evaluated
  | cast => cases evaluated
  | identifier => cases evaluated
  | funcCall => cases evaluated

namespace Ir

theorem binaryResult_of_evalUintBinary {op : BinaryOp} {type : ValueType}
    (unsigned : type.isSigned = false) {a b value : Nat}
    (first : type.InRange a) (second : op.isShift = false → type.InRange b)
    (amount : op.isShift → b < type.widthBits) (range : type.InRange value)
    (evaluated : evalUintBinary op a b = some value) :
    binaryResult op type a b = some (value : Int) := by
  have left := ValueType.wrap_of_inRange first
  have narrow : type.widthBits ≤ 64 := by cases type <;> decide
  cases op with
  | add | mul =>
      have right := ValueType.wrap_of_inRange (second rfl)
      simp only [evalUintBinary, Option.ite_none_right_eq_some, Option.some.injEq] at evaluated
      rcases evaluated with ⟨_, rfl⟩
      push_cast at range
      simp [binaryResult, left, right, ValueType.wrap_of_inRange range]
  | sub =>
      have right := ValueType.wrap_of_inRange (second rfl)
      simp only [evalUintBinary, Option.ite_none_left_eq_some, Option.some.injEq] at evaluated
      have difference : (a : Int) - b = value := by omega
      simp [binaryResult, left, right, difference, ValueType.wrap_of_inRange range]
  | div =>
      have right := ValueType.wrap_of_inRange (second rfl)
      simp only [evalUintBinary, Option.ite_none_left_eq_some, Option.some.injEq] at evaluated
      rcases evaluated with ⟨nonzero, rfl⟩
      have quotient := natCast_tdiv a b
      have positive : (b : Int) ≠ 0 := by exact_mod_cast nonzero
      simp only [binaryResult, left, right, quotient]
      exact if_pos ⟨positive, range⟩
  | bitwiseLshift =>
      simp only [evalUintBinary, Option.ite_none_left_eq_some, Option.some.injEq] at evaluated
      rcases evaluated with ⟨_, rfl⟩
      have reduced : ValueType.u64.wrap ((a : Int) * 2 ^ b) =
          ((a * 2 ^ b % 2 ^ 64 : Nat) : Int) := by
        change ((BitVec.ofInt 64 ((a : Int) * 2 ^ b)).toNat : Int) = _
        have cast : (a : Int) * 2 ^ b = ((a * 2 ^ b : Nat) : Int) := by push_cast; rfl
        rw [cast, BitVec.ofInt_natCast, BitVec.toNat_ofNat]
      rw [← reduced] at range
      have wrapped := wrap_eq_of_inRange narrow range
      have inside : (0 : Int) ≤ b ∧ (b : Int) < type.widthBits := by
        have below := amount rfl
        omega
      simp only [binaryResult, left, if_pos inside, Int.toNat_natCast, wrapped, reduced]
  | bitwiseRshift =>
      simp only [evalUintBinary, Option.ite_none_left_eq_some, Option.some.injEq] at evaluated
      rcases evaluated with ⟨_, rfl⟩
      have inside : (0 : Int) ≤ b ∧ (b : Int) < type.widthBits := by
        have below := amount rfl
        omega
      simp only [binaryResult, left, if_pos inside, Int.toNat_natCast]
      push_cast
      rfl
  | bitwiseAnd =>
      have right := ValueType.wrap_of_inRange (second rfl)
      cases evaluated
      simp only [binaryResult, left, right]
      exact congrArg some (bitwise_natCast unsigned BitVec.ofNat_and.symm range)
  | bitwiseOr =>
      have right := ValueType.wrap_of_inRange (second rfl)
      cases evaluated
      simp only [binaryResult, left, right]
      exact congrArg some (bitwise_natCast unsigned BitVec.ofNat_or.symm range)
  | bitwiseXor =>
      have right := ValueType.wrap_of_inRange (second rfl)
      cases evaluated
      simp only [binaryResult, left, right]
      exact congrArg some (bitwise_natCast unsigned BitVec.ofNat_xor.symm range)
  | _ => cases evaluated

theorem amount_lt_of_evalUintBinary {op : BinaryOp} (shifts : op.isShift) {a b value : Nat}
    (evaluated : evalUintBinary op a b = some value) : b < 64 := by
  cases op with
  | bitwiseLshift | bitwiseRshift =>
      simp only [evalUintBinary, Option.ite_none_left_eq_some] at evaluated
      exact not_le.mp evaluated.1
  | _ => cases shifts

/-- A shift amount that the unsigned evaluator uses is below the width. -/
theorem shiftAmount_lt_of_constEvalUint {allowed : BinaryOp → Bool}
    (subset : ∀ op, allowed op → op.calculates) {expected : ValueType} {right : Expr}
    (calculation : right.Calculation allowed expected) {type : ValueType}
    (same : right.resolved = type) (unsigned : type.isSigned = false)
    (inRange : right.JudgedInRange false) {b : Nat} (bound : b < 64)
    (evaluated : constEvalUint right = some b)
    (checked : ∀ amount, constEvalInt right = some amount →
      0 ≤ amount ∧ amount < type.widthBits) : b < type.widthBits := by
  by_cases wide : type = .u64
  · rw [wide]
    exact bound
  · have types := calculation.resolved_of_constEvalUint subset evaluated
    have small : ∀ part ∈ right.subexpressions, ∀ value, constEvalUint part = some value →
        value < 2 ^ 63 := by
      intro part inRight value found
      have range := inRange part inRight value (by rw [Expr.judged, found]; rfl)
      rw [types.2 part inRight, ← types.1, same] at range
      have integer : type.isInteger := same ▸ calculation.isInteger
      cases type with
      | u8 | u16 | u32 =>
          have small := range.2
          simp only [ValueType.format, ValueType.widthBits] at small
          omega
      | u64 => exact absurd rfl wide
      | _ => first | exact absurd unsigned (by decide) | exact absurd integer (by decide)
    have below := (checked b (constEvalInt_of_constEvalUint small evaluated)).2
    exact_mod_cast below

/-- Where its values stay in their types, the unsigned evaluator computes what the
generated code does. -/
theorem evaluate_of_constEvalUint {World : Type} {allowed : BinaryOp → Bool}
    (subset : ∀ op, allowed op → op.calculates) {expected : ValueType}
    {expr : Expr} (calculation : expr.Calculation allowed expected)
    (unsigned : expr.resolved.isSigned = false) (inRange : expr.JudgedInRange false)
    {value : Nat} (evaluated : constEvalUint expr = some value) (calls : Calls World)
    (memory : Memory World) :
    evaluate calls expr memory = some (some (value : Int), memory) := by
  have judged : ∀ {part : Expr} {found : Nat}, constEvalUint part = some found →
      part.judged false = some (found : Int) := by
    intro part found partValue
    rw [Expr.judged, partValue]
    rfl
  have range := inRange.value (judged evaluated)
  induction calculation generalizing value with
  | literal =>
      rw [constEvalUint_literal] at evaluated
      exact evaluate_literal evaluated range calls memory
  | negatedLiteral =>
      rw [constEvalUint_unary] at evaluated
      cases evaluated
  | negate =>
      rw [constEvalUint_unary] at evaluated
      cases evaluated
  | @shift _ base op left right allows shifts first second same checked leftHypothesis
      rightHypothesis =>
      rcases constEvalUint_binary_inv evaluated with ⟨a, b, leftValue, rightValue, operation⟩
      have leftTypes := first.resolved_of_constEvalUint subset leftValue
      have rightTypes := second.resolved_of_constEvalUint subset rightValue
      have typed : (Expr.binary base op left right).resolved = left.resolved := same.symm
      rw [typed] at unsigned range
      have rightSame : right.resolved = left.resolved := rightTypes.1.trans leftTypes.1.symm
      have bound := amount_lt_of_evalUintBinary shifts operation
      have leftRange := inRange.left.value (judged leftValue)
      have rightRange := inRange.right.value (judged rightValue)
      have amount := shiftAmount_lt_of_constEvalUint subset second rightSame unsigned
        inRange.right bound rightValue checked
      have result := binaryResult_of_evalUintBinary unsigned leftRange
        (fun plain => absurd shifts (by simp [plain])) (fun _ => amount) range operation
      rw [same] at result
      exact evaluate_binary (subset op allows)
        (leftHypothesis unsigned inRange.left leftValue leftRange)
        (rightHypothesis (rightSame ▸ unsigned) inRange.right rightValue rightRange) result
  | @arithmetic _ base op left right allows plain first second group promoted _ _
      leftHypothesis rightHypothesis =>
      rcases constEvalUint_binary_inv evaluated with ⟨a, b, leftValue, rightValue, operation⟩
      rcases Expr.same_of_promote first.isInteger (second.resolved_cases subset) group promoted
        with ⟨rightSame, resultSame⟩
      have typed : (Expr.binary base op left right).resolved = left.resolved := resultSame
      have leftRange := inRange.left.value (judged leftValue)
      have rightRange := inRange.right.value (judged rightValue)
      rw [typed] at unsigned range
      have result := binaryResult_of_evalUintBinary unsigned leftRange
        (fun _ => rightSame ▸ rightRange) (fun shifts => absurd shifts (by simp [plain]))
        range operation
      rw [← resultSame] at result
      exact evaluate_binary (subset op allows)
        (leftHypothesis unsigned inRange.left leftValue leftRange)
        (rightHypothesis (rightSame ▸ unsigned) inRange.right rightValue rightRange) result

end Ir

/-! ## Agreement -/

theorem isConstant_of_judged {isSigned : Bool} {expr : Expr} {value : Int}
    (evaluated : expr.judged isSigned = some value) : expr.IsConstant := by
  unfold Expr.judged at evaluated
  split at evaluated
  · exact isConstant_of_constEvalInt evaluated
  · rcases Option.map_eq_some_iff.mp evaluated with ⟨found, unsigned, _⟩
    exact isConstant_of_constEvalUint unsigned

namespace Ir

variable {World : Type}

theorem evaluate_of_judged {allowed : BinaryOp → Bool}
    (subset : ∀ op, allowed op → op.calculates) {expected : ValueType} {expr : Expr}
    (calculation : expr.Calculation allowed expected) {isSigned : Bool}
    (sign : isSigned = false → expr.resolved.isSigned = false)
    (inRange : expr.JudgedInRange isSigned) {value : Int}
    (evaluated : expr.judged isSigned = some value) (calls : Calls World)
    (memory : Memory World) : evaluate calls expr memory = some (some value, memory) := by
  cases isSigned with
  | true => exact evaluate_of_constEvalInt subset calculation inRange evaluated calls memory
  | false =>
      rcases Option.map_eq_some_iff.mp evaluated with ⟨found, unsigned, rfl⟩
      exact evaluate_of_constEvalUint subset calculation (sign rfl) inRange unsigned calls
        memory

/-- The generated code of an accepted expression computes the value that the evaluator of
its signedness finds, if exact values stand where the analysis checks nothing. -/
theorem run_of_judged {s : Semantic} {source : Expr} {expected : ValueType}
    (accepted : (analyzeExpr s source expected).ok) {value : Int}
    (evaluated : (analyzeExpr s source expected).node.judged
      (analyzeExpr s source expected).node.resolved.isSigned = some value)
    (exact : (analyzeExpr s source expected).node.ExactWhereUnchecked
      (analyzeExpr s source expected).node.resolved.isSigned)
    (calls : Calls World) (nextTemp : Nat) {state : State World}
    (params : state.params = []) :
    let generated := generateExpression (analyzeExpr s source expected).node nextTemp
    (execAll calls generated.operations state).map (observe generated) =
      some (some value, state.memory) := by
  have constant : source.IsConstant :=
    (analyzeExpr_annotates s source expected accepted).isConstant
      (isConstant_of_judged evaluated)
  have subset : ∀ op, BinaryOp.calculates op → BinaryOp.calculates op :=
    fun _ calculates => calculates
  have calculation := analyzeExpr_calculation s subset constant accepted
  have inRange := calculation.judgedInRange subset evaluated exact
  dsimp only
  rw [run_of_evaluate subset calculation calls nextTemp params]
  exact evaluate_of_judged subset calculation id inRange evaluated calls _

/-- The expression `-(2 * 3)` at type `i8`, run from a memory of zeros. -/
theorem run_of_judged_negatedProduct :
    let generated := generateExpression (analyzeExpr freshState negatedProduct .i8).node 0
    (execAll noCalls generated.operations zeros).map (observe generated) =
      some (some (-6), zeros.memory) :=
  have evaluated : (analyzeExpr freshState negatedProduct .i8).node.judged
      (analyzeExpr freshState negatedProduct .i8).node.resolved.isSigned = some (-6) := by
    decide
  have exact : (analyzeExpr freshState negatedProduct .i8).node.ExactWhereUnchecked
      (analyzeExpr freshState negatedProduct .i8).node.resolved.isSigned := by
    decide
  run_of_judged (by decide) evaluated exact noCalls 0 rfl

/-- The expression `100 << 1`. -/
def shiftedHundred : Expr :=
  .binary {} .bitwiseLshift (numeral "100") (numeral "1")

/-- Accepted at type `i8`, it is 200 for the evaluator and -56 at run time. -/
theorem shiftedHundred_differs :
    (compileFrontend "fn main() i32 { i8 x = 100 << 1; return 0; }" "main.su" {}).isSome ∧
      (analyzeExpr freshState shiftedHundred .i8).ok ∧
      (analyzeExpr freshState shiftedHundred .i8).node.resolved = .i8 ∧
      constEvalInt (analyzeExpr freshState shiftedHundred .i8).node = some 200 ∧
      ((execAll noCalls (generateExpression
          (analyzeExpr freshState shiftedHundred .i8).node 0).operations zeros).map
        fun final => (observe (generateExpression
          (analyzeExpr freshState shiftedHundred .i8).node 0) final).1) =
        some (some (-56)) := by
  refine ⟨by decide, by decide, by decide, by decide, ?_⟩
  decide

end Ir

end Sulfur
