import Sulfur.Semantic.Annotation

/-!
# Operator domains

Which operand types each operator is made for, and which accepted expressions
keep to them.  The checks of the analyser leave two gaps: `analyze_shift` does
not look at the types of its operands, and a cast from `void` to `void` counts
as one between equal types.
-/

namespace Sulfur

/-- The operand types of a binary operator. -/
def BinaryOp.Admits (op : BinaryOp) (left right : ValueType) : Prop :=
  if op.isLogical then
    left = .bool ∧ right = .bool
  else if op.isRelational then
    left = right ∧ left ≠ .void
  else
    left.isInteger ∧ right.isInteger

/-- The operand types of a unary operator. -/
def UnaryOp.Admits (op : UnaryOp) (operand : ValueType) : Prop :=
  if op = .logicalNot then operand = .bool else operand.isInteger

/-- A cast converts between integers or keeps a boolean. -/
def CastAdmits (operand target : ValueType) : Prop :=
  operand.isInteger ∧ target.isInteger ∨ operand = .bool ∧ target = .bool

/-- The kinds of types that the operators tell apart. -/
inductive Kind
  | integer
  | boolean
  | nothing
  deriving DecidableEq, Repr

/-- The kind of the values of a type. -/
def ValueType.kind (type : ValueType) : Kind :=
  if type.isInteger then .integer else if type = .bool then .boolean else .nothing

namespace Expr

mutual

/-- Every operator of an annotated tree has operands of its domain. -/
def InDomain : Expr → Prop
  | binary _ op left right =>
      left.InDomain ∧ right.InDomain ∧ op.Admits left.resolved right.resolved
  | unary _ op operand => operand.InDomain ∧ op.Admits operand.resolved
  | cast _ target operand => operand.InDomain ∧ CastAdmits operand.resolved target
  | literal .. => True
  | identifier .. => True
  | funcCall _ _ _ arguments => ArgumentsInDomain arguments

/-- The same for each argument of a call. -/
def ArgumentsInDomain : List Expr → Prop
  | [] => True
  | argument :: rest => argument.InDomain ∧ ArgumentsInDomain rest

end

/-- The kind that an expression has by its outermost form, and by the
declaration of the name that it is. -/
def form (s : Semantic) : Expr → Kind
  | binary _ op left _ =>
      if op.isLogical || op.isRelational then .boolean
      else if op.isShift then left.form s
      else .integer
  | unary _ op _ => if op = .logicalNot then .boolean else .integer
  | cast _ target _ => target.kind
  | literal _ tokenType _ => if tokenType = .integer then .integer else .boolean
  | identifier _ name .. =>
      ((s.scope.lookup name).map fun symbol => symbol.type.kind).getD .nothing
  | funcCall _ callee .. =>
      ((s.funcs.lookup callee.name).map fun func => func.returnType.kind).getD .nothing

mutual

/-- Every shift of a source tree has integers on both sides, and no cast names
`void`. -/
def ShiftsIntegers (s : Semantic) : Expr → Prop
  | binary _ op left right =>
      left.ShiftsIntegers s ∧ right.ShiftsIntegers s ∧
        (op.isShift → left.form s = .integer ∧ right.form s = .integer)
  | unary _ _ operand => operand.ShiftsIntegers s
  | cast _ target operand => operand.ShiftsIntegers s ∧ target ≠ .void
  | literal .. => True
  | identifier .. => True
  | funcCall _ _ _ arguments => ArgumentsShiftIntegers s arguments

/-- The same for each argument of a call. -/
def ArgumentsShiftIntegers (s : Semantic) : List Expr → Prop
  | [] => True
  | argument :: rest => argument.ShiftsIntegers s ∧ ArgumentsShiftIntegers s rest

end

end Expr

theorem ValueType.kind_eq_integer {type : ValueType} :
    type.kind = .integer ↔ type.isInteger := by
  cases type <;> decide

theorem ValueType.kind_eq_boolean {type : ValueType} :
    type.kind = .boolean ↔ type = .bool := by
  cases type <;> decide

theorem ValueType.kind_eq_of_isSameGroup {a b : ValueType} (group : a.isSameGroup b) :
    a.kind = b.kind := by
  revert group
  cases a <;> cases b <;> decide

/-- A castable pair is in the domain of a cast unless it ends in `void`. -/
theorem castAdmits_iff {operand target : ValueType} (castable : operand.isCastable target) :
    CastAdmits operand target ↔ target ≠ .void := by
  revert castable
  unfold CastAdmits
  cases operand <;> cases target <;> decide

section Rules

variable {left right result operand : ValueType}

theorem BinaryOp.Typed.kind {op : BinaryOp} (typed : op.Typed result left right) :
    result.kind =
      if op.isLogical || op.isRelational then .boolean
      else if op.isShift then left.kind
      else .integer := by
  unfold BinaryOp.Typed at typed
  split at typed
  · rename_i logical
    rw [logical, Bool.true_or, if_pos rfl, typed.1]
    rfl
  · rename_i logical
    rw [Bool.not_eq_true] at logical
    split at typed
    · rename_i shift
      have relational : op.isRelational = false := by
        revert shift
        cases op <;> decide
      rw [logical, relational, shift, typed]
      rfl
    · rename_i shift
      rw [Bool.not_eq_true] at shift
      split at typed
      · rename_i relational
        rw [relational, Bool.or_true, if_pos rfl, typed.1]
        rfl
      · rename_i relational
        rw [Bool.not_eq_true] at relational
        obtain ⟨group, integer, rfl⟩ := typed
        rw [logical, relational, shift]
        refine ValueType.kind_eq_integer.mpr (ValueType.isInteger_promote integer ?_)
        rwa [← ValueType.isInteger_eq_of_isSameGroup group]

/-- The typing rules put the operands of every binary operator but the shifts
into its domain. -/
theorem BinaryOp.Typed.admits_iff {op : BinaryOp} (typed : op.Typed result left right) :
    op.Admits left right ↔
      (op.isShift → left.kind = .integer ∧ right.kind = .integer) := by
  simp only [ValueType.kind_eq_integer]
  unfold BinaryOp.Typed at typed
  unfold BinaryOp.Admits
  split at typed
  · rename_i logical
    have shift : op.isShift = false := by
      revert logical
      cases op <;> decide
    simp [logical, shift, typed]
  · rename_i logical
    split at typed
    · rename_i shift
      have relational : op.isRelational = false := by
        revert shift
        cases op <;> decide
      simp [logical, shift, relational]
    · rename_i shift
      split at typed
      · rename_i relational
        obtain ⟨-, rfl, scalar⟩ := typed
        simp [logical, shift, relational, scalar.ne_void]
      · rename_i relational
        have integer := typed.2.1
        rw [ValueType.isInteger_eq_of_isSameGroup typed.1] at integer
        simp [logical, shift, relational, typed.2.1, integer]

theorem UnaryOp.Typed.kind {op : UnaryOp} (typed : op.Typed result operand) :
    result.kind = if op = .logicalNot then .boolean else .integer := by
  cases op with
  | negate =>
      refine ValueType.kind_eq_integer.mpr ?_
      rw [typed.2, ValueType.isInteger, typed.1, Bool.true_or]
  | logicalNot => exact ValueType.kind_eq_boolean.mpr typed.2
  | _ => exact ValueType.kind_eq_integer.mpr (typed.2 ▸ typed.1)

theorem UnaryOp.Typed.admits {op : UnaryOp} (typed : op.Typed result operand) :
    op.Admits operand := by
  cases op with
  | negate =>
      change operand.isInteger = true
      rw [ValueType.isInteger, typed.1, Bool.true_or]
  | logicalNot => exact typed.1
  | _ => exact typed.1

theorem LiteralType.Typed.kind {tokenType : LiteralType} {value : String}
    (typed : tokenType.Typed result value) :
    result.kind = if tokenType = .integer then .integer else .boolean := by
  cases tokenType with
  | integer =>
      obtain ⟨_, _, integer, _⟩ := typed
      exact ValueType.kind_eq_integer.mpr integer
  | kwTrue => exact ValueType.kind_eq_boolean.mpr typed
  | kwFalse => exact ValueType.kind_eq_boolean.mpr typed

end Rules

namespace Expr

/-- The type of an accepted node is of the kind of its source. -/
theorem Typed.kind_eq_form {s : Semantic} {source node : Expr} (typed : node.Typed s)
    (annotated : source.Annotated node) : node.resolved.kind = source.form s := by
  induction node using Expr.induction generalizing source with
  | binary base op left right leftHypothesis _ =>
      cases annotated with
      | binary first second =>
          have kind := typed.2.2.kind
          rw [leftHypothesis typed.1 first] at kind
          exact kind
  | unary base op operand _ =>
      cases annotated with
      | unary inner => exact typed.2.1.kind
  | cast base target operand operandHypothesis =>
      have resolved : (cast base target operand).resolved = target := typed.2.1
      rw [resolved]
      cases annotated with
      | cast inner => rfl
      | widened inner group =>
          rw [← ValueType.kind_eq_of_isSameGroup group]
          exact operandHypothesis typed.1 inner
  | literal base tokenType value =>
      cases annotated with
      | literal => exact LiteralType.Typed.kind typed
  | identifier base name depth id symbol =>
      cases annotated with
      | identifier =>
          obtain ⟨found, lookup, _, resolved, _⟩ := typed
          simp [form, lookup, Expr.resolved, Expr.base, resolved]
  | funcCall base callee linkName arguments _ =>
      cases annotated with
      | funcCall inner =>
          obtain ⟨func, lookup, resolved, _⟩ := typed
          simp [form, lookup, Expr.resolved, Expr.base, resolved]

theorem argumentsInDomain_iff (arguments : List Expr) :
    ArgumentsInDomain arguments ↔ ∀ argument ∈ arguments, argument.InDomain := by
  induction arguments with
  | nil => simp [ArgumentsInDomain]
  | cons argument rest inductionHypothesis =>
      simp [ArgumentsInDomain, inductionHypothesis]

/-- An accepted tree keeps to the domains of its operators exactly when the
shifts and casts of its source do. -/
theorem Typed.inDomain_iff {s : Semantic} {source node : Expr} (typed : node.Typed s)
    (annotated : source.Annotated node) : node.InDomain ↔ source.ShiftsIntegers s := by
  induction node using Expr.induction generalizing source with
  | binary base op left right leftHypothesis rightHypothesis =>
      cases annotated with
      | binary first second =>
          simp only [InDomain, ShiftsIntegers, leftHypothesis typed.1 first,
            rightHypothesis typed.2.1 second, typed.2.2.admits_iff,
            typed.1.kind_eq_form first, typed.2.1.kind_eq_form second]
  | unary base op operand operandHypothesis =>
      cases annotated with
      | unary inner =>
          simp only [InDomain, ShiftsIntegers, operandHypothesis typed.1 inner,
            typed.2.1.admits, and_true]
  | cast base target operand operandHypothesis =>
      cases annotated with
      | cast inner =>
          simp only [InDomain, ShiftsIntegers, operandHypothesis typed.1 inner,
            castAdmits_iff typed.2.2]
      | widened inner group =>
          have scalar := ValueType.isScalar_of_isSameGroup
            ((ValueType.isSameGroup_comm _ _).trans group)
          simp only [InDomain, operandHypothesis typed.1 inner, castAdmits_iff typed.2.2,
            scalar.ne_void, ne_eq, not_false_eq_true, and_true]
  | literal base tokenType value =>
      cases annotated with
      | literal => exact Iff.rfl
  | identifier base name depth id symbol =>
      cases annotated with
      | identifier => exact Iff.rfl
  | funcCall base callee linkName arguments argumentsHypothesis =>
      cases annotated with
      | funcCall inner =>
          obtain ⟨func, _, _, _, typedArguments⟩ := typed
          have typedEach := typedArguments.typed
          simp only [InDomain, ShiftsIntegers]
          clear typedArguments
          induction inner with
          | nil => exact Iff.rfl
          | cons head _ restHypothesis =>
              rw [List.forall_mem_cons] at argumentsHypothesis typedEach
              simp only [ArgumentsInDomain, ArgumentsShiftIntegers,
                argumentsHypothesis.1 typedEach.1 head,
                restHypothesis argumentsHypothesis.2 typedEach.2]

end Expr

end Sulfur
