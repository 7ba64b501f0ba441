import Sulfur.Ir.Semantics
import Sulfur.Semantic.Acceptance

/-!
# Destination hints

An assignment passes its variable down to the outermost operator of its value
as a hint, and that operator then works at the type of the variable instead of
its own.  The two lowerings are compared here for every expression and every
outcome, traps included.  They agree exactly when reduction to the variable's
type leaves the operator's exact result in the range of the operator's type,
and a shift by the variable's width is one by the operator's.
-/

namespace Sulfur.Ir

/-- The assignment without a hint: the value goes into a temporary of its own
type, and the temporary is converted. -/
def plainAssignment (dst : Operand) (value : Expr) (nextTemp : Nat) :
    List Operation :=
  let code := generateExpression value nextTemp
  let temporary := .temporary value.resolved code.nextTemp
  code.operations ++
    [⟨.assign, temporary, code.result, .none⟩, ⟨.assign, dst, temporary, .none⟩]

/-- The destination and the value of a statement that assigns one. -/
def assignment : Stmt → Option (Operand × Expr)
  | .varDecl decl =>
      decl.value.map fun value => (VarDecl.destination decl, value)
  | .varAssign assign => some (VarAssign.destination assign, assign.value)
  | _ => none

/-- The initialised declarations and the assignments in the functions of a
program. -/
def assignments (program : Program) : List (Operand × Expr) :=
  program.functions.flatMap fun function =>
    function.2.parts.filterMap assignment

/-- The integer that an operator makes of its operands before any reduction,
for the operators whose result may leave the type of the operands. -/
def exactBinary (op : BinaryOp) (a b : Int) : Option Int :=
  match op with
  | .add => some (a + b)
  | .sub => some (a - b)
  | .mul => some (a * b)
  | .div => if b = 0 then none else some (a.tdiv b)
  | .bitwiseLshift => some (a * 2 ^ b.toNat)
  | _ => none

/-- The same for the unary operators. -/
def exactUnary (op : UnaryOp) (a : Int) : Option Int :=
  match op with
  | .negate => some (-a)
  | .bitwiseNot => some (-a - 1)
  | _ => none

variable {World : Type}

/-- The values that the operands of a binary operator have from a state on. -/
def operandValues (calls : Calls World) (left right : Expr) (nextTemp : Nat)
    (state : State World) : Option (Int × Int) := do
  let leftCode := generateExpression left nextTemp
  let rightCode := generateExpression right leftCode.nextTemp
  let after ← execAll calls (leftCode.operations ++ rightCode.operations) state
  let a ← leftCode.result.read after.store
  let b ← rightCode.result.read after.store
  return (a, b)

/-- The value that an operand has from a state on. -/
def operandValue (calls : Calls World) (operand : Expr) (nextTemp : Nat)
    (state : State World) : Option Int := do
  let code := generateExpression operand nextTemp
  let after ← execAll calls code.operations state
  code.result.read after.store

/-- The exact result of the outermost operator of an expression, on the values
that its operands have from a state on.  A cast has the value of its operand,
and a call the content of the return register. -/
def exactResult (calls : Calls World) (value : Expr) (nextTemp : Nat)
    (state : State World) : Option Int :=
  match value with
  | .binary _ op left right =>
      (operandValues calls left right nextTemp state).bind fun (a, b) => exactBinary op a b
  | .unary _ op operand => (operandValue calls operand nextTemp state).bind (exactUnary op)
  | .cast _ _ operand => operandValue calls operand nextTemp state
  | .funcCall _ callee linkName arguments => do
      let code := generateArguments arguments nextTemp
      let after ←
        execAll calls (code.operations ++ paramOperations code.results) state
      let (register, _) ←
        calls (linkName.getD callee.name) after.params after.world
      return register
  | _ => none

/-- The amount of an expression that is a shift, from a state on. -/
def shiftAmount (calls : Calls World) (value : Expr) (nextTemp : Nat)
    (state : State World) : Option Int :=
  match value with
  | .binary _ op left right =>
      if op.isShift then (operandValues calls left right nextTemp state).map Prod.snd else none
  | _ => none

/-- The exact result of the outermost operator, reduced to the type of the
destination, is a value of the expression's own type; and no shift is defined at
the width of the destination only. -/
structure HintHarmless (calls : Calls World) (dst : Operand) (value : Expr)
    (nextTemp : Nat) (state : State World) : Prop where
  result : ∀ exact, exactResult calls value nextTemp state = some exact →
    value.resolved.InRange (dst.valueType.wrap exact)
  amount : ∀ amount, shiftAmount calls value nextTemp state = some amount →
    0 ≤ amount → amount < dst.valueType.widthBits → amount < value.resolved.widthBits

end Sulfur.Ir

namespace Sulfur

theorem ValueType.Widens.signed {source target : ValueType}
    (widens : source.Widens target) :
    source.format.signed = target.format.signed :=
  isSigned_eq_of_isSameGroup widens.1

/-- A value of a type is one of every type that the type widens to. -/
theorem ValueType.InRange.widen {source target : ValueType} {value : Int}
    (range : source.InRange value) (widens : source.Widens target) :
    target.InRange value :=
  Word.Format.InRange.widen range widens.signed widens.2

theorem ValueType.Widens.refl {type : ValueType} (scalar : type.IsScalar) :
    type.Widens type := by
  refine ⟨?_, le_rfl⟩
  cases type <;> simp_all [IsScalar, isSameGroup, isInteger, isSigned, isUnsigned]

/-- Only `bool` itself is wider than `bool`. -/
theorem ValueType.Widens.eq_bool {target : ValueType}
    (widens : ValueType.bool.Widens target) : target = .bool := by
  have group := widens.1
  cases target <;> simp_all [isSameGroup, isSigned, isUnsigned]

theorem ValueType.wrap_eq_wrap_iff_inRange {source target : ValueType}
    (widens : source.Widens target) (value : Int) :
    target.wrap value = target.wrap (source.wrap value) ↔
      source.InRange (target.wrap value) :=
  Word.Format.wrap_eq_wrap_of_le_iff widens.signed widens.2

theorem ValueType.inRange_zero (type : ValueType) : type.InRange 0 := by
  unfold InRange Word.Format.InRange
  have positive : (0 : Int) < 2 ^ type.format.width := by positivity
  split <;> omega

theorem BinaryOp.Typed.resolved_of_relational {op : BinaryOp}
    {result left right : ValueType} (typed : op.Typed result left right)
    (relational : op.isRelational) : result = .bool := by
  cases op <;>
    simp_all [BinaryOp.Typed, BinaryOp.isRelational, BinaryOp.isLogical,
      BinaryOp.isShift]

/-- The two operands of an operator other than a shift have values of the type
of its node. -/
theorem BinaryOp.Typed.operands_inRange {op : BinaryOp}
    {result left right : ValueType} (typed : op.Typed result left right)
    (relational : op.isRelational = false) {a b : Int} (aRange : left.InRange a)
    (bRange : right.InRange b) :
    result.InRange a ∧ (op.isShift = false → result.InRange b) := by
  unfold BinaryOp.Typed at typed
  split at typed
  · obtain ⟨rfl, rfl, rfl⟩ := typed
    exact ⟨aRange, fun _ => bRange⟩
  · split at typed
    · rename_i shift
      subst typed
      exact ⟨aRange, by simp [shift]⟩
    · rw [if_neg (by simp [relational])] at typed
      obtain ⟨group, integer, rfl⟩ := typed
      have rightGroup : right.isSameGroup left := by
        rw [ValueType.isSameGroup_comm]
        exact group
      refine ⟨aRange.widen ⟨?_, ValueType.widthBits_le_promote_left _ _⟩,
        fun _ => bRange.widen ⟨?_, ValueType.widthBits_le_promote_right _ _⟩⟩
      · rcases ValueType.promote_eq_or left right with chosen | chosen
        · rw [chosen]
          exact (ValueType.Widens.refl (.inl integer)).1
        · rw [chosen]
          exact group
      · rcases ValueType.promote_eq_or left right with chosen | chosen
        · rw [chosen]
          exact rightGroup
        · rw [chosen]
          exact (ValueType.Widens.refl
            (ValueType.isScalar_of_isSameGroup rightGroup)).1

end Sulfur

namespace Sulfur.Ir

open Word

/-- A shift by the whole width leaves no bit. -/
theorem wrap_mul_two_pow {target : ValueType} (a : Int) {n : Nat} (whole : target.widthBits ≤ n) :
    target.wrap (a * 2 ^ n) = 0 := by
  have divides : (2 : Int) ^ target.format.width ∣ a * 2 ^ n :=
    (pow_dvd_pow 2 whole).mul_left a
  rw [← ValueType.wrap_of_inRange target.inRange_zero]
  apply Format.wrap_eq_wrap_iff.mpr
  rw [Int.emod_eq_zero_of_dvd divides, Int.zero_emod]

/-- A quotient leaves the type of its operands only at the least value. -/
theorem inRange_tdiv {source target : ValueType} (widens : source.Widens target) {a b : Int}
    (aRange : source.InRange a) (bRange : source.InRange b)
    (wider : source.widthBits < target.widthBits) : target.InRange (a.tdiv b) := by
  have sign := widens.signed
  have smaller := Int.natAbs_tdiv_le_natAbs a b
  have grows : (2 : Int) * 2 ^ source.widthBits ≤ 2 ^ target.widthBits := by
    rw [← pow_succ']
    exact pow_le_pow_right₀ (by norm_num) wider
  have positive : (0 : Int) < 2 ^ source.widthBits := by positivity
  unfold ValueType.InRange at *
  rcases sourceFormat : source.format with ⟨signed, width⟩
  rcases targetFormat : target.format with ⟨targetSigned, targetWidth⟩
  obtain rfl : source.widthBits = width := congrArg Format.width sourceFormat
  obtain rfl : target.widthBits = targetWidth := congrArg Format.width targetFormat
  rw [sourceFormat, targetFormat] at sign
  rw [sourceFormat] at aRange bRange
  obtain rfl : signed = targetSigned := sign
  cases signed with
  | true =>
      rw [Format.inRange_signed_iff] at *
      omega
  | false =>
      rw [Format.inRange_unsigned_iff] at *
      have nonneg := Int.tdiv_nonneg aRange.1 bRange.1
      omega

/-- Two shifts that are defined below different widths agree exactly when their values
do and the amount does not lie between the widths. -/
theorem guarded_eq_iff {narrow wide : Nat} (le : narrow ≤ wide) {b x y : Int} :
    ((if 0 ≤ b ∧ b < wide then some x else none) =
        if 0 ≤ b ∧ b < narrow then some y else none) ↔
      (0 ≤ b → b < narrow → x = y) ∧ (0 ≤ b → b < wide → b < narrow) := by
  by_cases inWide : 0 ≤ b ∧ b < wide
  · by_cases inNarrow : b < narrow
    · simp [inWide, inNarrow]
    · simp [inWide, inNarrow]
  · have notNarrow : ¬(0 ≤ b ∧ b < narrow) := by omega
    rw [if_neg inWide, if_neg notNarrow]
    exact iff_of_true rfl ⟨fun nonneg below => absurd ⟨nonneg, below⟩ notNarrow,
      fun nonneg below => absurd ⟨nonneg, below⟩ inWide⟩

section Widen

variable {source target : ValueType} {a b : Int}

theorem leftShiftResult_widen_iff (widens : source.Widens target) (aRange : source.InRange a) :
    (binaryResult .bitwiseLshift target a b).map target.wrap =
        (binaryResult .bitwiseLshift source a b).map target.wrap ↔
      source.InRange (target.wrap (a * 2 ^ b.toNat)) ∧
        (0 ≤ b → b < target.widthBits → b < source.widthBits) := by
  have aTarget : target.wrap a = a := ValueType.wrap_of_inRange (aRange.widen widens)
  simp only [binaryResult, ValueType.wrap_of_inRange aRange, aTarget,
    apply_ite (Option.map target.wrap), Option.map_some, Option.map_none]
  rw [guarded_eq_iff widens.2, ValueType.wrap_wrap, ValueType.wrap_eq_wrap_iff_inRange widens]
  refine and_congr_left fun amount => ⟨fun inside => ?_, fun inRange _ _ => inRange⟩
  by_cases inTarget : 0 ≤ b ∧ b < target.widthBits
  · exact inside inTarget.1 (amount inTarget.1 inTarget.2)
  · -- undefined shifts ask for nothing, and the formula gives no more than `a` or zero
    rcases lt_or_ge b 0 with negative | nonneg
    · rw [Int.toNat_of_nonpos negative.le, pow_zero, mul_one, aTarget]
      exact aRange
    · rw [wrap_mul_two_pow a (by omega)]
      exact source.inRange_zero

theorem rightShiftResult_widen_iff (widens : source.Widens target) (aRange : source.InRange a) :
    (binaryResult .bitwiseRshift target a b).map target.wrap =
        (binaryResult .bitwiseRshift source a b).map target.wrap ↔
      (0 ≤ b → b < target.widthBits → b < source.widthBits) := by
  have aTarget : target.wrap a = a := ValueType.wrap_of_inRange (aRange.widen widens)
  simp only [binaryResult, ValueType.wrap_of_inRange aRange, aTarget,
    apply_ite (Option.map target.wrap), Option.map_some, Option.map_none]
  rw [guarded_eq_iff widens.2]
  exact and_iff_right fun _ _ => rfl

theorem divResult_widen_iff (widens : source.Widens target) (aRange : source.InRange a)
    (bRange : source.InRange b) :
    (binaryResult .div target a b).map target.wrap =
        (binaryResult .div source a b).map target.wrap ↔
      ∀ exact, exactBinary .div a b = some exact → source.InRange (target.wrap exact) := by
  simp only [binaryResult, ValueType.wrap_of_inRange aRange, ValueType.wrap_of_inRange bRange,
    ValueType.wrap_of_inRange (aRange.widen widens),
    ValueType.wrap_of_inRange (bRange.widen widens), exactBinary]
  by_cases zero : b = 0
  · simp [zero]
  · simp only [zero, if_false, ne_eq, not_false_eq_true, true_and, Option.some.injEq,
      forall_eq']
    rcases widens.2.lt_or_eq with wider | same
    · have inTarget := inRange_tdiv widens aRange bRange wider
      rw [if_pos inTarget, ValueType.wrap_of_inRange inTarget]
      by_cases inSource : source.InRange (a.tdiv b)
      · simp [inSource]
      · simp [inSource]
    · obtain rfl := ValueType.eq_of_isSameGroup_of_widthBits_eq widens.1 same
      exact iff_of_true rfl (ValueType.wrap_inRange _ _)

/-- An operator at a wider type gives the result at its own type, converted, or
traps as there, exactly when the exact result stays in range and no shift is
defined at the wider type only. -/
theorem binaryResult_widen_iff {op : BinaryOp} (relational : op.isRelational = false)
    (widens : source.Widens target) (aRange : source.InRange a)
    (bRange : op.isShift = false → source.InRange b) :
    (binaryResult op target a b).map target.wrap =
        (binaryResult op source a b).map target.wrap ↔
      (∀ exact, exactBinary op a b = some exact → source.InRange (target.wrap exact)) ∧
        (op.isShift → 0 ≤ b → b < target.widthBits → b < source.widthBits) := by
  cases op with
  | add | sub | mul =>
      simp [binaryResult, ValueType.wrap_of_inRange aRange, ValueType.wrap_of_inRange (bRange rfl),
        ValueType.wrap_of_inRange (aRange.widen widens),
        ValueType.wrap_of_inRange ((bRange rfl).widen widens), exactBinary, BinaryOp.isShift,
        ValueType.wrap_eq_wrap_iff_inRange widens]
  | bitwiseLshift =>
      simpa [exactBinary, BinaryOp.isShift] using leftShiftResult_widen_iff widens aRange
  | bitwiseRshift =>
      simpa [exactBinary, BinaryOp.isShift] using rightShiftResult_widen_iff widens aRange
  | div =>
      simpa [BinaryOp.isShift] using divResult_widen_iff widens aRange (bRange rfl)
  | bitwiseAnd | bitwiseOr | bitwiseXor | logicalAnd | logicalOr =>
      refine iff_of_true ?_ ⟨by simp [exactBinary], by simp [BinaryOp.isShift]⟩
      simp only [binaryResult, ValueType.wrap_of_inRange aRange,
        ValueType.wrap_of_inRange (bRange rfl), ValueType.wrap_of_inRange (aRange.widen widens),
        ValueType.wrap_of_inRange ((bRange rfl).widen widens), Option.map_some]
      apply congrArg fun value => some (target.wrap value)
      apply Format.bitwise_widen widens.signed widens.2 _ aRange (bRange rfl)
      first
        | exact Format.extend_and _ _
        | exact Format.extend_or _ _
        | exact Format.extend_xor _ _
  | relationalEqual | relationalNotEqual | relationalLess | relationalLessEqual
  | relationalGreater | relationalGreaterEqual => cases relational

end Widen

/-- The same for the unary operators. -/
theorem unaryResult_widen_iff {op : UnaryOp} (increment : op.isIncrementOrDecrement = false)
    {operand : ValueType} {source target : ValueType}
    (typed : op.Typed source operand) (widens : source.Widens target)
    {operand2 : Operand} {store : Store} {a : Int}
    (read : operand2.read store = some a) (plainDst dst : Operand)
    (plainType : plainDst.valueType = source) (dstType : dst.valueType = target) :
    (Operation.result ⟨unaryOpcode op, dst, operand2, .none⟩ store).map target.wrap =
        (Operation.result ⟨unaryOpcode op, plainDst, operand2, .none⟩ store).map target.wrap ↔
      ∀ exact, exactUnary op a = some exact → source.InRange (target.wrap exact) := by
  cases op with
  | negate | bitwiseNot =>
      simp [unaryOpcode, Operation.result, read, plainType, dstType, exactUnary,
        ValueType.wrap_eq_wrap_iff_inRange widens]
  | logicalNot =>
      obtain ⟨-, rfl⟩ := typed
      obtain rfl := widens.eq_bool
      simp [unaryOpcode, Operation.result, plainType, dstType, exactUnary]
  | prefixIncrement | postfixIncrement | prefixDecrement | postfixDecrement =>
      cases increment

/-! ## The two lowerings of an assignment -/

theorem generateExpression_inRange (value : Expr) (nextTemp : Nat) {store : Store}
    {a : Int}
    (read : (generateExpression value nextTemp).result.read store = some a) :
    value.resolved.InRange a := by
  cases void : value.isVoidCall with
  | true =>
      rw [generateExpression_result_of_isVoidCall void] at read
      cases read
  | false =>
      rw [← (generateExpression_result void nextTemp).1]
      exact Operand.read_inRange read

/-- The value that an operand has after some operations; there is none when they
trap. -/
def valueAfter (calls : Calls World) (operations : List Operation)
    (state : State World) (dst : Operand) : Option Int :=
  (execAll calls operations state).bind fun final => dst.read final.store

section Values

variable {calls : Calls World} {operations : List Operation} {state : State World}

/-- What a computing operation leaves in its destination, a slot of its type. -/
theorem valueAfter_computes {opcode : Opcode} (computes : opcode.computes) {dst : Operand}
    (slot : dst.slot.isSome) (operand2 operand3 : Operand) :
    valueAfter calls (operations ++ [⟨opcode, dst, operand2, operand3⟩]) state dst =
      (execAll calls operations state).bind fun after =>
        (Operation.result ⟨opcode, dst, operand2, operand3⟩ after.store).map
          dst.valueType.wrap := by
  rw [valueAfter, execAll_append, Option.bind_assoc]
  congr 1
  funext after
  rw [execAll_singleton, Operation.exec_of_computes computes, Option.bind_assoc]
  cases result : Operation.result ⟨opcode, dst, operand2, operand3⟩ after.store with
  | none => rfl
  | some value =>
      obtain ⟨place, isPlace⟩ := Option.isSome_iff_exists.mp slot
      have written : after.write dst value = some
          { after with store := after.store.update place (dst.valueType.wrap value) } := by
        rw [State.write, isPlace, Option.map_some]
      simp only [Option.bind_some, written, State.read_write written, Option.map_some]

/-- An assignment converts the value of its source. -/
theorem map_result_assign {dst src : Operand} (store : Store) :
    (Operation.result ⟨.assign, dst, src, .none⟩ store).map dst.valueType.wrap =
      (src.read store).map dst.valueType.wrap := by
  cases read : src.read store <;> simp [Operation.result, read]

/-- What a call leaves in its destination. -/
theorem valueAfter_call {dst : Operand} (slot : dst.slot.isSome) (type : ValueType)
    (name : String) :
    valueAfter calls (operations ++ [⟨.call, dst, .function type name, .none⟩]) state dst =
      (execAll calls operations state).bind fun after =>
        (calls name after.params after.world).map fun called =>
          dst.valueType.wrap called.1 := by
  rw [valueAfter, execAll_append, Option.bind_assoc]
  congr 1
  funext after
  rw [execAll_singleton]
  change (execCall calls dst (.function type name) after).bind _ = _
  unfold execCall
  cases called : calls name after.params after.world with
  | none => simp [called]
  | some returned =>
      obtain ⟨register, world⟩ := returned
      obtain ⟨place, isPlace⟩ := Option.isSome_iff_exists.mp slot
      have stored : dst ≠ .none := by
        rintro rfl
        cases isPlace
      have written : State.write { after with params := [], world := world } dst register = some
          ⟨after.store.update place (dst.valueType.wrap register), [], world⟩ := by
        rw [State.write, isPlace, Option.map_some]
      simp only [called, stored, if_false, Option.bind_eq_bind, Option.bind_some, written,
        State.read_write written, Option.map_some]

/-- The plain lowering leaves the value of the expression, converted. -/
theorem valueAfter_plain (type : ValueType) (name : String) (value : Expr) (nextTemp : Nat) :
    valueAfter calls (plainAssignment (.variable type name) value nextTemp) state
        (.variable type name) =
      (execAll calls (generateExpression value nextTemp).operations state).bind fun after =>
        ((generateExpression value nextTemp).result.read after.store).map type.wrap := by
  let code := generateExpression value nextTemp
  let temporary : Operand := .temporary value.resolved code.nextTemp
  calc
    valueAfter calls (plainAssignment (.variable type name) value nextTemp) state
          (.variable type name) =
        (valueAfter calls (code.operations ++ [⟨.assign, temporary, code.result, .none⟩]) state
          temporary).map type.wrap := by
      rw [plainAssignment, List.append_cons, valueAfter_computes rfl rfl]
      simp only [map_result_assign]
      rw [valueAfter, Option.map_bind]
      rfl
    _ = (execAll calls code.operations state).bind fun after =>
          (code.result.read after.store).map type.wrap := by
      rw [valueAfter_computes rfl rfl, Option.map_bind]
      congr 1
      funext after
      rw [Function.comp_apply, map_result_assign]
      cases read : code.result.read after.store with
      | none => rfl
      | some a =>
          have inRange := generateExpression_inRange value nextTemp read
          simp only [Option.map_some, temporary, Operand.valueType,
            ValueType.wrap_of_inRange inRange]

end Values

section Assignment

variable {calls : Calls World} {type : ValueType} {name : String} {nextTemp : Nat}
  {state : State World}

/-- Without an exact result nothing can go wrong. -/
theorem HintHarmless.of_none {dst : Operand} {value : Expr}
    (result : exactResult calls value nextTemp state = none)
    (amount : shiftAmount calls value nextTemp state = none) :
    HintHarmless calls dst value nextTemp state := by
  constructor
  · intro exact isExact
    rw [result] at isExact
    cases isExact
  · intro shifted isAmount
    rw [amount] at isAmount
    cases isAmount

/-- Only the exact result matters where nothing is shifted. -/
theorem hintHarmless_iff_of_shiftAmount {dst : Operand} {value : Expr}
    (nothing : shiftAmount calls value nextTemp state = none) :
    HintHarmless calls dst value nextTemp state ↔
      ∀ exact, exactResult calls value nextTemp state = some exact →
        value.resolved.InRange (dst.valueType.wrap exact) := by
  constructor
  · exact fun harmless => harmless.result
  · intro result
    refine ⟨result, ?_⟩
    simp [nothing]

/-- An expression that ends in an operation into its destination. -/
theorem hint_iff_of_computes {value : Expr} (opcode : Opcode) (computes : opcode.computes)
    {operations : List Operation} {operand2 operand3 : Operand} {fresh next : Nat}
    (plain : generateExpression value nextTemp =
      ⟨.temporary value.resolved fresh,
        operations ++ [⟨opcode, .temporary value.resolved fresh, operand2, operand3⟩], next⟩)
    (hinted : (generateAssignment (.variable type name) value nextTemp).1 =
      operations ++ [⟨opcode, .variable type name, operand2, operand3⟩]) :
    valueAfter calls (generateAssignment (.variable type name) value nextTemp).1 state
        (.variable type name) =
      valueAfter calls (plainAssignment (.variable type name) value nextTemp) state
        (.variable type name) ↔
      ∀ after, execAll calls operations state = some after →
        (Operation.result ⟨opcode, .variable type name, operand2, operand3⟩ after.store).map
            type.wrap =
          (Operation.result ⟨opcode, .temporary value.resolved fresh, operand2, operand3⟩
            after.store).map fun x => type.wrap (value.resolved.wrap x) := by
  have plainValue :
      valueAfter calls (plainAssignment (.variable type name) value nextTemp) state
          (.variable type name) =
        (valueAfter calls
          (operations ++ [⟨opcode, .temporary value.resolved fresh, operand2, operand3⟩]) state
          (.temporary value.resolved fresh)).map type.wrap := by
    rw [valueAfter_plain, plain, valueAfter, Option.map_bind]
    rfl
  rw [hinted, plainValue, valueAfter_computes computes rfl, valueAfter_computes computes rfl]
  cases execAll calls operations state with
  | none => simp
  | some after => simp [Operand.valueType, Function.comp_def]

theorem generateAssignment_of_hinted {value : Expr} {code : ExprCode}
    (hinted : generateExpressionInto value (some (.variable type name)) nextTemp =
      code) (direct : code.result = .variable type name) :
    (generateAssignment (.variable type name) value nextTemp).1 =
      code.operations := by
  simp [generateAssignment, hinted, direct, wroteDirectly]

theorem hintHarmless_binary_iff {base : Base} {op : BinaryOp} {left right : Expr} {a b : Int}
    (values : operandValues calls left right nextTemp state = some (a, b)) :
    HintHarmless calls (.variable type name) (.binary base op left right) nextTemp state ↔
      (∀ exact, exactBinary op a b = some exact → base.resolved.InRange (type.wrap exact)) ∧
        (op.isShift → 0 ≤ b → b < type.widthBits → b < base.resolved.widthBits) := by
  constructor
  · rintro ⟨result, amount⟩
    constructor
    · intro exact isExact
      apply result exact
      rw [exactResult, values]
      exact isExact
    · intro shift
      apply amount b
      rw [shiftAmount, if_pos shift, values]
      rfl
  · rintro ⟨result, amount⟩
    constructor
    · intro exact isExact
      rw [exactResult, values] at isExact
      exact result exact isExact
    · intro shifted isAmount
      rw [shiftAmount, values] at isAmount
      obtain ⟨shift, isAmount⟩ := Option.ite_none_right_eq_some.mp isAmount
      obtain rfl := Option.some.inj isAmount
      exact amount shift

/-- The hint of a binary operator. -/
theorem binary_hint_iff {base : Base} {op : BinaryOp} {left right : Expr}
    (typed : op.Typed base.resolved left.resolved right.resolved)
    (widens : base.resolved.Widens type) :
    valueAfter calls
        (generateAssignment (.variable type name) (.binary base op left right) nextTemp).1 state
        (.variable type name) =
      valueAfter calls
        (plainAssignment (.variable type name) (.binary base op left right) nextTemp) state
        (.variable type name) ↔
      HintHarmless calls (.variable type name) (.binary base op left right) nextTemp state := by
  rw [hint_iff_of_computes (.binary op) rfl rfl (generateAssignment_of_hinted rfl rfl)]
  have values : operandValues calls left right nextTemp state =
      (execAll calls ((generateExpressionInto left none nextTemp).operations ++
        (generateExpressionInto right none
          (generateExpressionInto left none nextTemp).nextTemp).operations) state).bind fun after =>
        ((generateExpressionInto left none nextTemp).result.read after.store).bind fun a =>
          ((generateExpressionInto right none
            (generateExpressionInto left none nextTemp).nextTemp).result.read after.store).bind
              fun b => some (a, b) := rfl
  have firstRange := @generateExpression_inRange left nextTemp
  have secondRange := @generateExpression_inRange right
    (generateExpressionInto left none nextTemp).nextTemp
  unfold generateExpression at firstRange secondRange
  generalize generateExpressionInto left none nextTemp = leftCode at *
  generalize generateExpressionInto right none leftCode.nextTemp = rightCode at *
  have nothing (isNone : operandValues calls left right nextTemp state = none) :
      HintHarmless calls (.variable type name) (.binary base op left right) nextTemp state :=
    .of_none (by simp [exactResult, isNone]) (by simp [shiftAmount, isNone])
  cases run : execAll calls (leftCode.operations ++ rightCode.operations) state with
  | none => exact iff_of_true (by simp) (nothing (by rw [values, run, Option.bind_none]))
  | some after =>
      simp only [run, Option.some.injEq, forall_eq', Operation.result] at values ⊢
      cases first : leftCode.result.read after.store with
      | none => exact iff_of_true rfl (nothing (by simp [values, first]))
      | some a =>
          cases second : rightCode.result.read after.store with
          | none => exact iff_of_true rfl (nothing (by simp [values, first, second]))
          | some b =>
              have isPair : operandValues calls left right nextTemp state = some (a, b) := by
                simp [values, first, second]
              rw [hintHarmless_binary_iff isPair]
              simp only [Option.bind_eq_bind, Option.bind_some]
              cases relational : op.isRelational with
              | true =>
                  have bool : base.resolved = .bool := typed.resolved_of_relational relational
                  obtain rfl : type = .bool := ValueType.Widens.eq_bool (bool ▸ widens)
                  have resolved : (Expr.binary base op left right).resolved = .bool := bool
                  have noExact : exactBinary op a b = none := by
                    cases op <;> first | rfl | cases relational
                  have noShift : op.isShift = false := by
                    cases op <;> first | rfl | cases relational
                  refine iff_of_true ?_ ⟨by simp [noExact], by simp [noShift]⟩
                  simp only [operationType, relational, if_true, resolved, ValueType.wrap_wrap]
              | false =>
                  obtain ⟨firstWide, secondWide⟩ := typed.operands_inRange relational
                    (firstRange first) (secondRange second)
                  have converted (result : Option Int)
                      (isResult : binaryResult op base.resolved a b = result) :
                      result.map (fun x => type.wrap (base.resolved.wrap x)) =
                        result.map type.wrap := by
                    cases result with
                    | none => rfl
                    | some x =>
                        have inRange := binaryResult_inRange relational isResult
                        simp [ValueType.wrap_of_inRange inRange]
                  simp only [operationType, relational, Bool.false_eq_true, if_false,
                    Operand.valueType]
                  change _ = (binaryResult op base.resolved a b).map
                    (fun x => type.wrap (base.resolved.wrap x)) ↔ _
                  rw [converted _ rfl]
                  exact binaryResult_widen_iff relational widens firstWide secondWide

theorem unaryResult_inRange {op : UnaryOp} (increment : op.isIncrementOrDecrement = false)
    {dst operand2 : Operand} {store : Store} {x : Int}
    (result : Operation.result ⟨unaryOpcode op, dst, operand2, .none⟩ store = some x) :
    dst.valueType.InRange x := by
  cases op with
  | negate | bitwiseNot =>
      obtain ⟨a, -, computed⟩ := Option.bind_eq_some_iff.mp result
      obtain rfl := Option.some.inj computed
      exact ValueType.wrap_inRange _ _
  | logicalNot =>
      obtain ⟨a, -, computed⟩ := Option.bind_eq_some_iff.mp result
      obtain rfl := Option.some.inj computed
      exact Format.bitwise_inRange _ _ _ _
  | prefixIncrement | postfixIncrement | prefixDecrement | postfixDecrement =>
      cases increment

/-- The hint of a unary operator other than the increments. -/
theorem unary_hint_iff {base : Base} {op : UnaryOp} {operand : Expr}
    (increment : op.isIncrementOrDecrement = false)
    (typed : op.Typed base.resolved operand.resolved)
    (widens : base.resolved.Widens type) :
    valueAfter calls
        (generateAssignment (.variable type name) (.unary base op operand) nextTemp).1 state
        (.variable type name) =
      valueAfter calls
        (plainAssignment (.variable type name) (.unary base op operand) nextTemp) state
        (.variable type name) ↔
      HintHarmless calls (.variable type name) (.unary base op operand) nextTemp state := by
  have computes : (unaryOpcode op).computes := by
    cases op <;> first | rfl | cases increment
  have code (hint : Option Operand) :
      generateExpressionInto (.unary base op operand) hint nextTemp =
        ⟨(destination hint base.resolved (generateExpression operand nextTemp).nextTemp).1,
          (generateExpression operand nextTemp).operations ++
            [⟨unaryOpcode op,
              (destination hint base.resolved (generateExpression operand nextTemp).nextTemp).1,
              (generateExpression operand nextTemp).result, .none⟩],
          (destination hint base.resolved (generateExpression operand nextTemp).nextTemp).2⟩ := by
    simp [generateExpression, generateExpressionInto, generateUnary, increment]
  rw [hint_iff_of_computes _ computes (code none) (generateAssignment_of_hinted (code _) rfl)]
  have value : operandValue calls operand nextTemp state =
      (execAll calls (generateExpression operand nextTemp).operations state).bind fun after =>
        (generateExpression operand nextTemp).result.read after.store := rfl
  generalize generateExpression operand nextTemp = operandCode at *
  have nothing (isNone : operandValue calls operand nextTemp state = none) :
      HintHarmless calls (.variable type name) (.unary base op operand) nextTemp state :=
    .of_none (by simp [exactResult, isNone]) rfl
  cases run : execAll calls operandCode.operations state with
  | none => exact iff_of_true (by simp) (nothing (by rw [value, run, Option.bind_none]))
  | some after =>
      simp only [run, Option.bind_some, Option.some.injEq, forall_eq'] at value ⊢
      cases read : operandCode.result.read after.store with
      | none =>
          refine iff_of_true ?_ (nothing (value.trans read))
          cases op <;> simp [unaryOpcode, Operation.result, read] at increment ⊢
      | some a =>
          have harmless : HintHarmless calls (.variable type name) (.unary base op operand)
              nextTemp state ↔
                ∀ exact, exactUnary op a = some exact →
                  base.resolved.InRange (type.wrap exact) := by
            rw [hintHarmless_iff_of_shiftAmount rfl, exactResult, value, read]
            rfl
          have converted (result : Option Int)
              (isResult : Operation.result ⟨unaryOpcode op,
                .temporary base.resolved operandCode.nextTemp, operandCode.result, .none⟩
                after.store = result) :
              result.map (fun x => type.wrap (base.resolved.wrap x)) = result.map type.wrap := by
            cases result with
            | none => rfl
            | some x =>
                have inRange := unaryResult_inRange increment isResult
                rw [Operand.valueType] at inRange
                simp [ValueType.wrap_of_inRange inRange]
          rw [harmless]
          change _ = Option.map (fun x => type.wrap (base.resolved.wrap x))
            (Operation.result ⟨unaryOpcode op, .temporary base.resolved operandCode.nextTemp,
              operandCode.result, .none⟩ after.store) ↔ _
          rw [converted _ rfl]
          exact unaryResult_widen_iff increment typed widens read _ _ rfl rfl

/-- The hint of a cast. -/
theorem cast_hint_iff {base : Base} {target : ValueType} {operand : Expr}
    (widens : base.resolved.Widens type) :
    valueAfter calls
        (generateAssignment (.variable type name) (.cast base target operand) nextTemp).1 state
        (.variable type name) =
      valueAfter calls
        (plainAssignment (.variable type name) (.cast base target operand) nextTemp) state
        (.variable type name) ↔
      HintHarmless calls (.variable type name) (.cast base target operand) nextTemp state := by
  rw [hint_iff_of_computes .cast rfl rfl (generateAssignment_of_hinted rfl rfl)]
  have value : exactResult calls (.cast base target operand) nextTemp state =
      (execAll calls (generateExpressionInto operand none nextTemp).operations state).bind
        fun after => (generateExpressionInto operand none nextTemp).result.read after.store := rfl
  have harmless : HintHarmless calls (.variable type name) (.cast base target operand) nextTemp
      state ↔ ∀ exact, exactResult calls (.cast base target operand) nextTemp state = some exact →
        base.resolved.InRange (type.wrap exact) :=
    hintHarmless_iff_of_shiftAmount rfl
  rw [harmless, value]
  cases execAll calls (generateExpressionInto operand none nextTemp).operations state with
  | none => simp
  | some after =>
      cases read : (generateExpressionInto operand none nextTemp).result.read after.store with
      | none => simp [Operation.result, read]
      | some a =>
          simp only [Operation.result, read, Option.some.injEq, forall_eq', Option.bind_eq_bind,
            Option.bind_some, Option.pure_def, Option.map_some, Operand.valueType,
            ValueType.wrap_wrap]
          exact ValueType.wrap_eq_wrap_iff_inRange widens a

/-- The hint of a call. -/
theorem call_hint_iff {base : Base} {callee : Callee} {linkName : Option String}
    {arguments : List Expr} (widens : base.resolved.Widens type) :
    valueAfter calls
        (generateAssignment (.variable type name)
          (.funcCall base callee linkName arguments) nextTemp).1 state (.variable type name) =
      valueAfter calls
        (plainAssignment (.variable type name)
          (.funcCall base callee linkName arguments) nextTemp) state (.variable type name) ↔
      HintHarmless calls (.variable type name)
        (.funcCall base callee linkName arguments) nextTemp state := by
  have returns : base.resolved ≠ .void :=
    (ValueType.isScalar_of_isSameGroup widens.1).ne_void
  have code (hint : Option Operand) :
      generateExpressionInto (.funcCall base callee linkName arguments) hint nextTemp =
        ⟨(destination hint base.resolved (generateArguments arguments nextTemp).nextTemp).1,
          (generateArguments arguments nextTemp).operations ++
              paramOperations (generateArguments arguments nextTemp).results ++
            [⟨.call,
              (destination hint base.resolved (generateArguments arguments nextTemp).nextTemp).1,
              .function base.resolved (linkName.getD callee.name), .none⟩],
          (destination hint base.resolved (generateArguments arguments nextTemp).nextTemp).2⟩ := by
    simp [generateExpressionInto, generateCall, returns]
  have plainValue : valueAfter calls (plainAssignment (.variable type name)
        (.funcCall base callee linkName arguments) nextTemp) state (.variable type name) =
      (valueAfter calls (generateExpressionInto (.funcCall base callee linkName arguments) none
        nextTemp).operations state (generateExpressionInto (.funcCall base callee linkName
          arguments) none nextTemp).result).map type.wrap := by
    rw [valueAfter_plain, valueAfter, Option.map_bind]
    rfl
  rw [plainValue, generateAssignment_of_hinted (code _) rfl, code none]
  dsimp only [destination]
  rw [valueAfter_call rfl, valueAfter_call rfl]
  have value : exactResult calls (.funcCall base callee linkName arguments) nextTemp state =
      (execAll calls ((generateArguments arguments nextTemp).operations ++
        paramOperations (generateArguments arguments nextTemp).results) state).bind fun after =>
          (calls (linkName.getD callee.name) after.params after.world).bind fun called =>
            some called.1 := rfl
  have harmless : HintHarmless calls (.variable type name)
      (.funcCall base callee linkName arguments) nextTemp state ↔
        ∀ exact, exactResult calls (.funcCall base callee linkName arguments) nextTemp state =
          some exact → base.resolved.InRange (type.wrap exact) :=
    hintHarmless_iff_of_shiftAmount rfl
  rw [harmless, value]
  cases execAll calls ((generateArguments arguments nextTemp).operations ++
      paramOperations (generateArguments arguments nextTemp).results) state with
  | none => simp
  | some after =>
      simp only [Option.bind_some, Operand.valueType]
      cases calls (linkName.getD callee.name) after.params after.world with
      | none => simp
      | some called =>
          simp only [Option.bind_some, Option.map_some, Option.some.injEq, forall_eq']
          exact ValueType.wrap_eq_wrap_iff_inRange widens called.1

/-- A value that no operation computes into the hint is converted as without
it. -/
theorem valueAfter_of_not_hinted {value : Expr}
    (unhinted : generateExpressionInto value (some (.variable type name)) nextTemp =
      generateExpression value nextTemp)
    (converted : wroteDirectly (generateExpression value nextTemp).result
      (.variable type name) = false) :
    valueAfter calls (generateAssignment (.variable type name) value nextTemp).1 state
        (.variable type name) =
      valueAfter calls (plainAssignment (.variable type name) value nextTemp) state
        (.variable type name) := by
  have operations : (generateAssignment (.variable type name) value nextTemp).1 =
      (generateExpression value nextTemp).operations ++
        [⟨.assign, .variable type name,
          (generateExpression value nextTemp).result, .none⟩] := by
    simp [generateAssignment, unhinted, converted]
  rw [operations, valueAfter_computes rfl rfl, valueAfter_plain]
  congr 1
  funext after
  exact map_result_assign after.store

/-- The two lowerings of an assignment agree exactly when the hint is harmless:
for every typed expression, in every state. -/
theorem valueAfter_eq_iff {s : Semantic} {value : Expr} (typed : value.Typed s)
    (widens : value.resolved.Widens type)
    (same : ∀ base source depth id symbol,
      value = .identifier base source depth id symbol →
        mangleVariable source id = name → base.resolved = type) :
    valueAfter calls (generateAssignment (.variable type name) value nextTemp).1 state
        (.variable type name) =
      valueAfter calls (plainAssignment (.variable type name) value nextTemp) state
        (.variable type name) ↔
      HintHarmless calls (.variable type name) value nextTemp state := by
  cases value with
  | binary base op left right => exact binary_hint_iff typed.2.2 widens
  | unary base op operand =>
      cases increment : op.isIncrementOrDecrement with
      | false => exact unary_hint_iff increment typed.2.1 widens
      | true =>
          refine iff_of_true (valueAfter_of_not_hinted ?_ ?_) (.of_none ?_ rfl)
          · simp [generateExpression, generateExpressionInto, generateUnary,
              increment]
          · simp only [generateExpression, generateExpressionInto, generateUnary,
              increment, if_true, generateIncrement]
            split <;> rfl
          · have noExact : exactUnary op = fun _ => none := by
              funext x
              cases op <;> first | rfl | cases increment
            rw [exactResult, noExact, Option.bind_fun_none]
  | cast base target operand => exact cast_hint_iff widens
  | literal base tokenType text =>
      exact iff_of_true (valueAfter_of_not_hinted rfl rfl) (.of_none rfl rfl)
  | identifier base source depth id symbol =>
      refine iff_of_true ?_ (.of_none rfl rfl)
      by_cases own : mangleVariable source id = name
      · have sameType := same base source depth id symbol rfl own
        have operations : (generateAssignment (.variable type name)
            (.identifier base source depth id symbol) nextTemp).1 = [] := by
          simp [generateAssignment, generateExpressionInto, generateIdentifier,
            wroteDirectly, own]
        rw [operations, valueAfter_plain]
        simp [valueAfter, execAll, generateExpression, generateExpressionInto,
          generateIdentifier, Operand.read, sameType, own]
      · exact valueAfter_of_not_hinted rfl
          (by simp [generateExpression, generateExpressionInto,
            generateIdentifier, wroteDirectly, own])
  | funcCall base callee linkName arguments => exact call_hint_iff widens

end Assignment

/-! ## Accepted programs -/

/-- What the analyser has checked of an assignment. -/
structure AssignmentTyped (dst : Operand) (value : Expr) (type : ValueType)
    (name : String) : Prop where
  destination : dst = .variable type name
  typed : ∃ s : Semantic, value.Typed s
  widens : value.resolved.Widens type
  own : ∀ base source depth id symbol,
    value = .identifier base source depth id symbol →
      mangleVariable source id = name → base.resolved = type

theorem assignmentTyped_of_typed {part : Stmt} {func : Option FuncDecl}
    (typed : part.Typed func) {dst : Operand} {value : Expr}
    (assigns : assignment part = some (dst, value)) :
    ∃ type name, AssignmentTyped dst value type name := by
  cases part with
  | varDecl decl =>
      obtain ⟨initialiser, initialised, pair⟩ := Option.map_eq_some_iff.mp assigns
      obtain ⟨rfl, rfl⟩ := Prod.mk.inj pair
      obtain ⟨s, -, valueTyped, free, widens⟩ := typed.2 _ initialised
      refine ⟨_, _, rfl, ⟨s, valueTyped⟩, widens, ?_⟩
      -- the variable is not yet in scope when its own value is analysed
      rintro base source depth id symbol rfl own
      obtain ⟨found, lookup, -, -, -, number, -⟩ := valueTyped
      obtain ⟨table, inStack, inTable, -⟩ := Scope.mem_of_lookup_eq_some lookup
      have sameId := (mangleVariable_injective own).2
      exact absurd (number.symm.trans sameId) (free table inStack found inTable)
  | varAssign assign =>
      obtain ⟨rfl, rfl⟩ := Prod.mk.inj (Option.some.inj assigns)
      obtain ⟨s, sym, -, valueTyped, lookup, number, type, -, widens⟩ := typed
      refine ⟨_, _, rfl, ⟨s, valueTyped⟩, widens, ?_⟩
      intro base source depth id symbol value own
      rw [value] at valueTyped
      obtain ⟨found, sourceLookup, -, resolved, -⟩ := valueTyped
      rw [(mangleVariable_injective own).1, lookup] at sourceLookup
      rw [resolved, ← Option.some.inj sourceLookup, type]
  | block | ifStmt | whileStmt | funcDecl | returnStmt | expression => cases assigns

theorem assignmentTyped_of_accepted {program : Program} {filename : String}
    {options : CompilerOptions} {modules : List Module}
    {analysis : ProgramAnalysis}
    (accepted : Accepted program filename options modules analysis)
    {dst : Operand} {value : Expr}
    (inProgram : (dst, value) ∈ assignments analysis.program) :
    ∃ type name, AssignmentTyped dst value type name := by
  obtain ⟨⟨func, body⟩, inFunctions, inBody⟩ := List.mem_flatMap.mp inProgram
  obtain ⟨part, inParts, assigns⟩ := List.mem_filterMap.mp inBody
  exact assignmentTyped_of_typed (accepted.typed_part inFunctions inParts) assigns

/-- An assignment of an accepted program leaves the same value with the hint as
without it, or traps as without it, exactly when the hint is harmless. -/
theorem hinted_assignment_iff {program : Program} {filename : String}
    {options : CompilerOptions} {modules : List Module}
    {analysis : ProgramAnalysis}
    (accepted : Accepted program filename options modules analysis)
    {dst : Operand} {value : Expr}
    (inProgram : (dst, value) ∈ assignments analysis.program)
    (calls : Calls World) (nextTemp : Nat) (state : State World) :
    valueAfter calls (generateAssignment dst value nextTemp).1 state dst =
        valueAfter calls (plainAssignment dst value nextTemp) state dst ↔
      HintHarmless calls dst value nextTemp state := by
  obtain ⟨type, name, assigned⟩ := assignmentTyped_of_accepted accepted inProgram
  obtain ⟨s, typed⟩ := assigned.typed
  have destination := assigned.destination
  subst destination
  exact valueAfter_eq_iff typed assigned.widens assigned.own

/-! ### A sum that leaves its type -/

/-- The sum of two values of type `i8`, assigned to a wider variable. -/
def sumSource : String :=
  "fn main() i32 { i8 a = 100; i64 v = a + a; return 0; }"

theorem isSome_compileFrontend_sum :
    (compileFrontend sumSource "main.su" {}).isSome := by
  decide

/-- The analysis of that program. -/
def sumAnalysis : ProgramAnalysis :=
  (compileFrontend sumSource "main.su" {}).get isSome_compileFrontend_sum

theorem accepted_sum :
    ∃ program, Accepted program "main.su" {} [] sumAnalysis :=
  accepted_of_compileFrontend (Option.some_get _).symm

theorem length_assignments_sum :
    (assignments sumAnalysis.program).length = 2 := by
  decide

/-- The assignment to the wider variable. -/
def sumAssignment : Operand × Expr :=
  (assignments sumAnalysis.program).get ⟨1, by rw [length_assignments_sum]; decide⟩

theorem sumAssignment_mem : sumAssignment ∈ assignments sumAnalysis.program :=
  List.get_mem _ _

/-- Every variable and temporary is 100. -/
def hundreds : State Unit :=
  ⟨fun _ => 100, [], ()⟩

/-- Without the hint the sum is reduced to `i8` before it is widened. -/
theorem valueAfter_plain_sum :
    valueAfter noCalls (plainAssignment sumAssignment.1 sumAssignment.2 0) hundreds
      sumAssignment.1 = some (-56) := by
  decide

theorem valueAfter_hinted_sum :
    valueAfter noCalls (generateAssignment sumAssignment.1 sumAssignment.2 0).1
      hundreds sumAssignment.1 = some 200 := by
  decide

theorem hinted_sum_differs :
    (∃ program, Accepted program "main.su" {} [] sumAnalysis) ∧
      sumAssignment ∈ assignments sumAnalysis.program ∧
      valueAfter noCalls (generateAssignment sumAssignment.1 sumAssignment.2 0).1 hundreds
          sumAssignment.1 ≠
        valueAfter noCalls (plainAssignment sumAssignment.1 sumAssignment.2 0) hundreds
          sumAssignment.1 := by
  refine ⟨accepted_sum, sumAssignment_mem, ?_⟩
  rw [valueAfter_hinted_sum, valueAfter_plain_sum]
  decide

theorem hinted_assignment_iff_sum :
    valueAfter noCalls (generateAssignment sumAssignment.1 sumAssignment.2 0).1 hundreds
          sumAssignment.1 =
        valueAfter noCalls (plainAssignment sumAssignment.1 sumAssignment.2 0) hundreds
          sumAssignment.1 ↔
      HintHarmless noCalls sumAssignment.1 sumAssignment.2 0 hundreds := by
  obtain ⟨program, accepted⟩ := accepted_sum
  exact hinted_assignment_iff accepted sumAssignment_mem noCalls 0 hundreds

end Sulfur.Ir
