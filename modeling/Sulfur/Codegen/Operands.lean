import Sulfur.Codegen.Linkage
import Sulfur.Codegen.Printed
import Sulfur.Ir.Immutable
import Sulfur.Ir.Width

/-!
# Operands that can be printed

A call of a function without a value ends in no operand, and the analyser lets it stand
under a cast or a shift.  The code generator prints all operands of an accepted program
exactly when no such call is used as an operand.
-/

namespace Sulfur

namespace Expr

/-- The code of the expression ends in no operand that can be printed: it is a call of a
function without a value, or a number without digits. -/
def lacksOperand : Expr → Bool
  | .literal _ .integer value => value = ""
  | expr => expr.isVoidCall

mutual

/-- The operands of the operators and the arguments of the calls of an expression can be
printed. -/
def HasOperands : Expr → Prop
  | .binary _ _ left right =>
      (left.HasOperands ∧ left.lacksOperand = false) ∧
        right.HasOperands ∧ right.lacksOperand = false
  | .unary _ _ operand => operand.HasOperands ∧ operand.lacksOperand = false
  | .cast _ _ operand => operand.HasOperands ∧ operand.lacksOperand = false
  | .literal .. => True
  | .identifier .. => True
  | .funcCall _ _ _ arguments => ArgumentsHaveOperands arguments

/-- The same for each argument, which has a value itself. -/
def ArgumentsHaveOperands : List Expr → Prop
  | [] => True
  | argument :: rest =>
      (argument.HasOperands ∧ argument.lacksOperand = false) ∧ ArgumentsHaveOperands rest

end

/-- The expression can be printed with all of its operands. -/
def IsOperand (expr : Expr) : Prop :=
  expr.HasOperands ∧ expr.lacksOperand = false

theorem argumentsHaveOperands_iff (arguments : List Expr) :
    ArgumentsHaveOperands arguments ↔ ∀ argument ∈ arguments, argument.IsOperand := by
  induction arguments with
  | nil => simp [ArgumentsHaveOperands]
  | cons argument rest inductionHypothesis =>
      simp [ArgumentsHaveOperands, inductionHypothesis, IsOperand]

theorem isVoidCall_of_lacksOperand {expr : Expr} (has : expr.lacksOperand = false) :
    expr.isVoidCall = false := by
  unfold lacksOperand at has
  split at has
  · rfl
  · exact has

/-- A typed expression with operands has a scalar type. -/
theorem IsOperand.isScalar {s : Semantic} (wellFormed : s.WellFormed) {value : Expr}
    (typed : value.Typed s) (isOperand : value.IsOperand) : value.resolved.IsScalar := by
  apply ValueType.isScalar_of_ne (typed.resolved_ne wellFormed)
  induction value using Expr.induction with
  | binary base op left right leftHypothesis rightHypothesis =>
      rcases typed with ⟨leftTyped, -, rule⟩
      change base.resolved ≠ _
      unfold BinaryOp.Typed at rule
      split at rule
      · rw [rule.1]
        exact ValueType.noConfusion
      · split at rule
        · rw [rule]
          exact leftHypothesis leftTyped isOperand.1.1
        · split at rule
          · rw [rule.1]
            exact ValueType.noConfusion
          · rw [rule.2.2]
            have group := rule.1
            rw [ValueType.isSameGroup_comm] at group
            rcases ValueType.promote_eq_or left.resolved right.resolved with same | same <;>
              rw [same]
            · exact (ValueType.isScalar_of_isSameGroup rule.1).ne_void
            · exact (ValueType.isScalar_of_isSameGroup group).ne_void
  | unary base op operand =>
      rcases typed with ⟨-, rule, -⟩
      change base.resolved ≠ _
      have scalar : base.resolved.IsScalar := by
        cases op with
        | negate => exact rule.2 ▸ .inl (by simp [ValueType.isInteger, rule.1])
        | logicalNot => exact .inr rule.2
        | _ => exact rule.2 ▸ .inl rule.1
      exact scalar.ne_void
  | cast base target operand operandHypothesis =>
      rcases typed with ⟨operandTyped, same, castable⟩
      have source := operandHypothesis operandTyped isOperand.1
      change base.resolved ≠ _
      rw [same]
      rintro rfl
      unfold ValueType.isCastable at castable
      split at castable
      · cases castable
      · simp at castable
  | literal base tokenType text =>
      change base.resolved ≠ _
      cases tokenType with
      | integer =>
          rcases typed with ⟨_, -, integer, -⟩
          exact ValueType.IsScalar.ne_void (.inl integer)
      | kwTrue | kwFalse =>
          rw [show base.resolved = .bool from typed]
          exact ValueType.noConfusion
  | identifier base name depth id symbol =>
      rcases typed with ⟨found, lookup, -, same, -⟩
      change base.resolved ≠ _
      rw [same]
      rcases Scope.mem_of_lookup_eq_some lookup with ⟨table, inStack, inTable, -⟩
      exact (wellFormed.scope table inStack found inTable).1.ne_void
  | funcCall base callee linkName arguments =>
      have returns := isVoidCall_of_lacksOperand isOperand.2
      change base.resolved ≠ _
      simpa [isVoidCall] using returns

end Expr

/-- The expressions of a statement itself can be printed, and their values where they are
used. -/
def Stmt.HasOperands : Stmt → Prop
  | .varDecl decl => ∀ value ∈ decl.value, value.IsOperand
  | .varAssign assign => assign.value.IsOperand
  | .ifStmt _ condition _ _ => condition.IsOperand
  | .whileStmt _ condition _ => condition.IsOperand
  | .returnStmt _ value => ∀ result ∈ value, result.IsOperand
  | .expression expr => expr.HasOperands
  | .block .. => True
  | .funcDecl .. => True

end Sulfur

namespace Sulfur.Codegen

open Ir

/-! ## Code with operands -/

/-- The operands of an operation have values, also that of a `PARAM`. -/
structure Printable (operation : Operation) : Prop where
  formats : Formats operation
  sized : operation.opcode = .param → operation.operand1.valueType.widthBytes ≠ 0

/-- Every operation of a list can be printed. -/
def AllPrintable (operations : List Operation) : Prop :=
  ∀ operation ∈ operations, Printable operation

@[simp]
theorem allPrintable_nil : AllPrintable [] := List.forall_mem_nil _

@[simp]
theorem allPrintable_append (first second : List Operation) :
    AllPrintable (first ++ second) ↔ AllPrintable first ∧ AllPrintable second :=
  List.forall_mem_append

@[simp]
theorem allPrintable_cons (operation : Operation) (rest : List Operation) :
    AllPrintable (operation :: rest) ↔ Printable operation ∧ AllPrintable rest :=
  List.forall_mem_cons

/-- Without a `PARAM` the operands need values only. -/
theorem printable_of_formats {operation : Operation} (other : operation.opcode ≠ .param)
    (formats : Formats operation) : Printable operation :=
  ⟨formats, fun isParam => absurd isParam other⟩

theorem hasValue_temporary {type : ValueType} (scalar : type.IsScalar) (id : Nat) :
    HasValue (.temporary type id) := by
  change type.widthBytes ≠ 0
  rcases scalar with integer | rfl
  · cases type <;> first | decide | cases integer
  · decide

theorem widthBytes_ne_zero {type : ValueType} (scalar : type.IsScalar) : type.widthBytes ≠ 0 :=
  hasValue_temporary scalar 0

theorem hasValue_destination {hint : Option Operand} (hinted : ∀ operand ∈ hint, HasValue operand)
    {type : ValueType} (scalar : type.IsScalar) (nextTemp : Nat) :
    HasValue (destination hint type nextTemp).1 := by
  cases hint with
  | none => exact hasValue_temporary scalar nextTemp
  | some operand => exact hinted operand rfl

/-- The code of an expression with an operand ends in an operand with a value. -/
theorem hasValue_into {value : Expr} (has : value.lacksOperand = false)
    (scalar : value.resolved.IsScalar) {hint : Option Operand}
    (hinted : ∀ operand ∈ hint, HasValue operand) (nextTemp : Nat) :
    HasValue (generateExpressionInto value hint nextTemp).result := by
  cases value with
  | binary base op left right => exact hasValue_destination hinted scalar _
  | unary base op operand =>
      simp only [generateExpressionInto, generateUnary]
      split
      · unfold generateIncrement
        dsimp only
        split <;> exact hasValue_temporary scalar _
      · exact hasValue_destination hinted scalar _
  | cast base target operand => exact hasValue_destination hinted scalar _
  | literal base tokenType text =>
      cases tokenType with
      | integer =>
          change text ≠ ""
          simpa [Expr.lacksOperand] using has
      | kwTrue =>
          change "1" ≠ ""
          decide
      | kwFalse =>
          change "0" ≠ ""
          decide
  | identifier base name depth id symbol => exact widthBytes_ne_zero scalar
  | funcCall base callee linkName arguments =>
      have returns : base.resolved ≠ .void := scalar.ne_void
      simp only [generateExpressionInto, generateCall, if_neg returns]
      exact hasValue_destination hinted scalar _

theorem hasValue_result {value : Expr} (has : value.lacksOperand = false)
    (scalar : value.resolved.IsScalar) (nextTemp : Nat) :
    HasValue (generateExpressionInto value none nextTemp).result :=
  @hasValue_into value has scalar none nofun nextTemp

/-- The type of the operand of an expression. -/
theorem sized_result {value : Expr} (has : value.lacksOperand = false)
    (scalar : value.resolved.IsScalar) (nextTemp : Nat) :
    (generateExpressionInto value none nextTemp).result.valueType.widthBytes ≠ 0 := by
  have type := (generateExpression_result (Expr.isVoidCall_of_lacksOperand has) nextTemp).1
  rw [generateExpression] at type
  rw [type]
  exact widthBytes_ne_zero scalar

theorem allPrintable_generateArguments {s : Semantic} (wellFormed : s.WellFormed)
    {arguments : List Expr} (typed : ∀ argument ∈ arguments, argument.Typed s)
    (isOperand : ∀ argument ∈ arguments, argument.IsOperand)
    (each : ∀ argument ∈ arguments, ∀ start,
      AllPrintable (generateExpressionInto argument none start).operations) (nextTemp : Nat) :
    AllPrintable (generateArguments arguments nextTemp).operations ∧
      AllPrintable (paramOperations (generateArguments arguments nextTemp).results) := by
  induction arguments generalizing nextTemp with
  | nil => exact ⟨allPrintable_nil, allPrintable_nil⟩
  | cons argument rest inductionHypothesis =>
      rw [List.forall_mem_cons] at typed isOperand each
      have others := inductionHypothesis typed.2 isOperand.2 each.2
        (generateExpressionInto argument none nextTemp).nextTemp
      have scalar := isOperand.1.isScalar wellFormed typed.1
      have value := hasValue_result isOperand.1.2 scalar nextTemp
      have param : Printable
          { opcode := .param
            operand1 := (generateExpressionInto argument none nextTemp).result } :=
        ⟨List.forall_mem_singleton.mpr value, fun _ => sized_result isOperand.1.2 scalar nextTemp⟩
      simp only [generateArguments, paramOperations, List.map_cons, allPrintable_append,
        allPrintable_cons]
      exact ⟨⟨each.1 nextTemp, others.1⟩, param, others.2⟩

/-- A typed expression with operands is lowered to operations with values. -/
theorem allPrintable_generateExpressionInto {s : Semantic} (wellFormed : s.WellFormed)
    {value : Expr} (typed : value.Typed s) (has : value.HasOperands) {hint : Option Operand}
    (hinted : ∀ operand ∈ hint, HasValue operand) (nextTemp : Nat) :
    AllPrintable (generateExpressionInto value hint nextTemp).operations := by
  induction value using Expr.induction generalizing hint nextTemp with
  | binary base op left right leftHypothesis rightHypothesis =>
      have scalar : base.resolved.IsScalar := Expr.IsOperand.isScalar wellFormed typed ⟨has, rfl⟩
      rcases typed with ⟨leftTyped, rightTyped, -⟩
      rcases has with ⟨leftHas, rightHas⟩
      simp only [generateExpressionInto, generateBinary, allPrintable_append, allPrintable_cons,
        allPrintable_nil, and_true]
      refine ⟨⟨leftHypothesis leftTyped leftHas.1 (by simp) _,
        rightHypothesis rightTyped rightHas.1 (by simp) _⟩, ?_⟩
      apply printable_of_formats (by simp)
      simp only [Formats, formatted, List.forall_mem_cons, List.not_mem_nil, false_implies,
        implies_true, and_true]
      exact ⟨hasValue_destination hinted scalar _,
        hasValue_result leftHas.2 (Expr.IsOperand.isScalar wellFormed leftTyped leftHas) _,
        hasValue_result rightHas.2 (Expr.IsOperand.isScalar wellFormed rightTyped rightHas) _⟩
  | unary base op operand operandHypothesis =>
      have scalar : base.resolved.IsScalar := Expr.IsOperand.isScalar wellFormed typed ⟨has, rfl⟩
      rcases typed with ⟨operandTyped, -, -⟩
      have inner := @operandHypothesis operandTyped has.1 none (by simp) nextTemp
      have result := hasValue_result has.2
        (Expr.IsOperand.isScalar wellFormed operandTyped has) nextTemp
      have fresh (id : Nat) := hasValue_temporary scalar id
      have one : HasValue (.immediate base.resolved "1") := by simp [HasValue]
      cases increment : op.isIncrementOrDecrement with
      | true =>
          simp only [generateExpressionInto, generateUnary, increment, if_true, generateIncrement]
          have printable {opcode : Opcode} {dst fst snd : Operand}
              (isOpcode : opcode = .assign ∨ ∃ op, opcode = .binary op) (dstValue : HasValue dst)
              (fstValue : HasValue fst) (sndValue : opcode ≠ .assign → HasValue snd) :
              Printable ⟨opcode, dst, fst, snd⟩ := by
            rcases isOpcode with rfl | ⟨op, rfl⟩
            · exact printable_of_formats (by simp)
                (by simp [Formats, formatted, dstValue, fstValue])
            · exact printable_of_formats (by simp)
                (by simp [Formats, formatted, dstValue, fstValue, sndValue])
          split
          · simp only [allPrintable_append, allPrintable_cons, allPrintable_nil, and_true]
            exact ⟨inner, printable (.inl rfl) (fresh _) result (by simp),
              printable (.inr ⟨_, rfl⟩) (fresh _) result fun _ => one,
              printable (.inl rfl) result (fresh _) (by simp)⟩
          · simp only [allPrintable_append, allPrintable_cons, allPrintable_nil, and_true]
            exact ⟨inner, printable (.inr ⟨_, rfl⟩) (fresh _) result fun _ => one,
              printable (.inl rfl) result (fresh _) (by simp)⟩
      | false =>
          simp only [generateExpressionInto, generateUnary, increment, Bool.false_eq_true, if_false,
            allPrintable_append, allPrintable_cons, allPrintable_nil, and_true]
          refine ⟨inner, ?_⟩
          have destinationValue := hasValue_destination hinted scalar
            (generateExpressionInto operand none nextTemp).nextTemp
          cases op <;> first
            | exact absurd increment (by decide)
            | exact printable_of_formats (by simp [unaryOpcode])
                (by simp [Formats, formatted, unaryOpcode, result, destinationValue])
  | cast base target operand operandHypothesis =>
      have scalar : base.resolved.IsScalar := Expr.IsOperand.isScalar wellFormed typed ⟨has, rfl⟩
      have result := hasValue_result has.2
        (Expr.IsOperand.isScalar wellFormed typed.1 has) nextTemp
      have destinationValue := hasValue_destination hinted scalar
        (generateExpressionInto operand none nextTemp).nextTemp
      simp only [generateExpressionInto, generateCast, allPrintable_append, allPrintable_cons,
        allPrintable_nil, and_true]
      refine ⟨operandHypothesis typed.1 has.1 (by simp) _, ?_⟩
      exact printable_of_formats (by simp) (by simp [Formats, formatted, result, destinationValue])
  | literal | identifier => exact allPrintable_nil
  | funcCall base callee linkName arguments argumentsHypothesis =>
      rcases typed with ⟨func, found, type, -, argumentsTyped⟩
      have isOperand := (Expr.argumentsHaveOperands_iff arguments).mp has
      have code := allPrintable_generateArguments wellFormed argumentsTyped.typed isOperand
        (fun argument listed start => argumentsHypothesis argument listed
          (argumentsTyped.typed argument listed) (isOperand argument listed).1 (by simp) start)
        nextTemp
      simp only [generateExpressionInto, generateCall, allPrintable_append, allPrintable_cons,
        allPrintable_nil, and_true]
      refine ⟨code, printable_of_formats (by simp) ?_⟩
      by_cases void : base.resolved = .void
      · simp [Formats, formatted, void]
      · have known : base.resolved ≠ .unresolved := by
          rw [type]
          exact (wellFormed.funcs func (FuncSymbolTable.mem_of_lookup_eq_some found).1).1
        have value := hasValue_destination hinted (ValueType.isScalar_of_ne known void)
          (generateArguments arguments nextTemp).nextTemp
        simp only [if_neg void]
        intro operand listed
        simp only [formatted] at listed
        split at listed
        · cases listed
        · rw [List.mem_singleton.mp listed]
          exact value

/-! ## Code without operands -/

theorem isPrinted_result (value : Expr) (nextTemp : Nat) :
    isPrinted (generateExpressionInto value none nextTemp).result = !value.lacksOperand := by
  cases value with
  | binary | cast | identifier => rfl
  | unary base op operand =>
      simp only [generateExpressionInto, generateUnary]
      split
      · unfold generateIncrement
        dsimp only
        split <;> rfl
      · rfl
  | literal base tokenType text =>
      cases tokenType with
      | integer => simp [generateExpressionInto, generateLiteral, isPrinted, Expr.lacksOperand]
      | kwTrue | kwFalse =>
          simp [generateExpressionInto, generateLiteral, isPrinted, Expr.lacksOperand,
            Expr.isVoidCall]
  | funcCall base callee linkName arguments =>
      simp only [generateExpressionInto, generateCall, Expr.lacksOperand, Expr.isVoidCall]
      split <;> rename_i void <;> simp [void, isPrinted, destination]

theorem inMemory_destination {hint : Option Operand} (hinted : ∀ operand ∈ hint, operand.inMemory)
    (type : ValueType) (nextTemp : Nat) : (destination hint type nextTemp).1.inMemory := by
  cases hint with
  | none => rfl
  | some operand => exact hinted operand rfl

/-- The code of an argument stands in that of the arguments. -/
theorem exists_argument {arguments : List Expr} (nextTemp : Nat) :
    ∀ argument ∈ arguments, ∃ start,
      (generateExpressionInto argument none start).operations <:+:
        (generateArguments arguments nextTemp).operations ∧
      (generateExpressionInto argument none start).result ∈
        (generateArguments arguments nextTemp).results := by
  induction arguments generalizing nextTemp with
  | nil => exact List.forall_mem_nil _
  | cons first rest inductionHypothesis =>
      rw [List.forall_mem_cons]
      constructor
      · exact ⟨nextTemp, (List.prefix_append _ _).isInfix, List.mem_cons_self⟩
      · intro argument inRest
        rcases inductionHypothesis (generateExpressionInto first none nextTemp).nextTemp argument
          inRest with ⟨start, isInfix, isResult⟩
        exact ⟨start, isInfix.trans (List.suffix_append _ _).isInfix,
          List.mem_cons_of_mem _ isResult⟩

/-- An argument that cannot be printed. -/
theorem unprinted_params {results : List Operand} {operand : Operand} (listed : operand ∈ results)
    (lacks : isPrinted operand = false) (operations : List Operation) {call : Operation}
    (isCall : call.opcode = .call) :
    Unprinted (operations ++ paramOperations results ++ [call]) := by
  rcases List.append_of_mem listed with ⟨before, after, rfl⟩
  refine ⟨operations ++ paramOperations before, { opcode := .param, operand1 := operand },
    paramOperations after ++ [call], ?_, ⟨operand, List.mem_singleton_self _, lacks⟩,
    fun _ => ⟨call, List.mem_append_right _ (List.mem_singleton_self _), isCall⟩⟩
  simp only [paramOperations, List.map_append, List.map_cons, List.append_assoc, List.cons_append]

/-- An expression whose code is printed has all of its operands. -/
theorem hasOperands_of_printed {s : Semantic} {value : Expr} (typed : value.Typed s)
    {hint : Option Operand} (hinted : ∀ operand ∈ hint, operand.inMemory) (nextTemp : Nat)
    (printed : ¬Unprinted (generateExpressionInto value hint nextTemp).operations) :
    value.HasOperands := by
  have has {source : Expr} {start : Nat}
      (isPrinted : isPrinted (generateExpressionInto source none start).result = true) :
      source.lacksOperand = false := by
    rwa [isPrinted_result, Bool.not_eq_true'] at isPrinted
  have fresh : ∀ operand ∈ (none : Option Operand), operand.inMemory := nofun
  induction value using Expr.induction generalizing hint nextTemp with
  | binary base op left right leftHypothesis rightHypothesis =>
      simp only [generateExpressionInto, generateBinary] at printed
      have own := isPrinted_of_not_unprinted printed (by simp)
      simp only [sources, inMemory_destination hinted, if_true, List.forall_mem_cons,
        List.not_mem_nil, false_implies, implies_true, and_true] at own
      have leftHas := leftHypothesis typed.1 fresh nextTemp
        (not_unprinted_of_isInfix printed (by
          rw [List.append_assoc]
          exact (List.prefix_append _ _).isInfix))
      have rightHas := rightHypothesis typed.2.1 fresh
        (generateExpressionInto left none nextTemp).nextTemp
        (not_unprinted_of_isInfix printed (List.infix_append _ _ _))
      exact ⟨⟨leftHas, has own.1⟩, rightHas, has own.2⟩
  | unary base op operand operandHypothesis =>
      cases increment : op.isIncrementOrDecrement with
      | true =>
          have isMutable := typed.2.2 increment
          unfold resolvesMutable at isMutable
          split at isMutable
          · exact ⟨trivial, rfl⟩
          · cases isMutable
      | false =>
          simp only [generateExpressionInto, generateUnary, increment, Bool.false_eq_true,
            if_false] at printed
          have own := isPrinted_of_not_unprinted printed
            (by cases op <;> simp [unaryOpcode])
          have operandHas := operandHypothesis typed.1 fresh nextTemp
            (not_unprinted_of_isInfix printed (List.prefix_append _ _).isInfix)
          refine ⟨operandHas, has (own (generateExpressionInto operand none nextTemp).result ?_)⟩
          cases op <;> first
            | exact absurd increment (by decide)
            | simp [sources, unaryOpcode, inMemory_destination hinted]
  | cast base target operand operandHypothesis =>
      simp only [generateExpressionInto, generateCast] at printed
      have own := isPrinted_of_not_unprinted printed (by simp)
      have operandHas := operandHypothesis typed.1 fresh nextTemp
        (not_unprinted_of_isInfix printed (List.prefix_append _ _).isInfix)
      refine ⟨operandHas, has (own (generateExpressionInto operand none nextTemp).result ?_)⟩
      simp [sources, inMemory_destination hinted]
  | literal | identifier => trivial
  | funcCall base callee linkName arguments argumentsHypothesis =>
      rcases typed with ⟨func, -, -, -, argumentsTyped⟩
      apply (Expr.argumentsHaveOperands_iff arguments).mpr
      intro argument listed
      rcases exists_argument nextTemp argument listed with ⟨start, isInfix, isResult⟩
      simp only [generateExpressionInto, generateCall] at printed
      have argumentHas := argumentsHypothesis argument listed (argumentsTyped.typed argument listed)
        fresh start (not_unprinted_of_isInfix printed (by
          rw [List.append_assoc]
          exact isInfix.trans (List.prefix_append _ _).isInfix))
      refine ⟨argumentHas, @has argument start ?_⟩
      by_contra lacks
      exact printed (unprinted_params isResult (Bool.eq_false_iff.mpr lacks) _ rfl)

/-! ## Statements -/

theorem allPrintable_generateAssignment {s : Semantic} (wellFormed : s.WellFormed) {value : Expr}
    (typed : value.Typed s) (isOperand : value.IsOperand) {dst : Operand} (dstValue : HasValue dst)
    (nextTemp : Nat) : AllPrintable (generateAssignment dst value nextTemp).1 := by
  have hinted : ∀ operand ∈ some dst, HasValue operand := by
    rintro operand ⟨⟩
    exact dstValue
  have code := allPrintable_generateExpressionInto wellFormed typed isOperand.1 hinted nextTemp
  have result := hasValue_into isOperand.2 (isOperand.isScalar wellFormed typed) hinted nextTemp
  unfold generateAssignment
  dsimp only
  split
  · exact code
  · rw [allPrintable_append, allPrintable_cons]
    exact ⟨code, printable_of_formats (by simp) (by simp [Formats, formatted, result, dstValue]),
      allPrintable_nil⟩

theorem printable_ret : Printable { opcode := .ret } :=
  printable_of_formats (by simp) (by simp [Formats, formatted])

/-- The code of a typed statement itself has operands with values. -/
theorem allPrintable_ownOperations {part : Stmt} {func : Option FuncDecl}
    (typed : part.Typed func) (has : part.HasOperands) (nextTemp label : Nat) :
    AllPrintable (ownOperations part nextTemp label) := by
  have expression {value : Expr} {s : Semantic} (wellFormed : s.WellFormed)
      (typed : value.Typed s) (has : value.HasOperands) :
      AllPrintable (generateExpression value nextTemp).operations :=
    @allPrintable_generateExpressionInto s wellFormed value typed has none nofun nextTemp
  have condition {value : Expr} (accepted : value.Accepted) (isOperand : value.IsOperand) :
      AllPrintable ((generateExpression value nextTemp).operations ++
        [jmpCond label (generateExpression value nextTemp).result]) := by
    rcases accepted with ⟨s, wellFormed, valueTyped⟩
    have result := hasValue_result isOperand.2 (isOperand.isScalar wellFormed valueTyped) nextTemp
    rw [allPrintable_append, allPrintable_cons]
    exact ⟨expression wellFormed valueTyped isOperand.1,
      printable_of_formats (by simp [jmpCond]) (List.forall_mem_singleton.mpr result),
      allPrintable_nil⟩
  cases part with
  | varDecl decl =>
      simp only [ownOperations, generateVarDecl]
      split
      · exact allPrintable_nil
      · rename_i value isValue
        rcases typed.2 value isValue with ⟨s, wellFormed, valueTyped, -, -⟩
        exact allPrintable_generateAssignment wellFormed valueTyped (has value isValue)
          (show HasValue (VarDecl.destination decl) from widthBytes_ne_zero typed.1) nextTemp
  | varAssign assign =>
      rcases typed with ⟨s, sym, wellFormed, valueTyped, -, -, -, -, widens⟩
      have group := widens.1
      rw [ValueType.isSameGroup_comm] at group
      have dstValue : HasValue (VarAssign.destination assign) :=
        widthBytes_ne_zero (ValueType.isScalar_of_isSameGroup group)
      exact allPrintable_generateAssignment wellFormed valueTyped has dstValue nextTemp
  | ifStmt base value branchThen branchElse => exact condition typed.1.1 has
  | whileStmt base value branchDo => exact condition typed.1.1 has
  | returnStmt base value =>
      rcases typed with ⟨current, -, returns⟩
      cases value with
      | none =>
          exact List.forall_mem_singleton.mpr printable_ret
      | some result =>
          rcases returns with ⟨⟨s, wellFormed, resultTyped⟩, widens⟩
          have isOperand := has result rfl
          have value := hasValue_result isOperand.2
            (isOperand.isScalar wellFormed resultTyped) nextTemp
          simp only [ownOperations, generateReturn, allPrintable_append, allPrintable_cons,
            allPrintable_nil, and_true]
          refine ⟨expression wellFormed resultTyped isOperand.1,
            printable_of_formats (by simp) fun operand listed => ?_⟩
          simp only [formatted] at listed
          split at listed
          · cases listed
          · rw [List.mem_singleton.mp listed]
            exact value
  | expression expr =>
      rcases typed with ⟨s, wellFormed, exprTyped⟩
      exact expression wellFormed exprTyped has
  | block | funcDecl => exact allPrintable_nil

theorem isOperand_of_assignment {s : Semantic} {value : Expr} (typed : value.Typed s)
    (scalar : value.resolved.IsScalar) {dst : Operand} (memory : dst.inMemory) {nextTemp : Nat}
    (printed : ¬Unprinted (generateAssignment dst value nextTemp).1) : value.IsOperand := by
  have hinted : ∀ operand ∈ some dst, operand.inMemory := by
    rintro operand ⟨⟩
    exact memory
  have inCode : (generateExpressionInto value (some dst) nextTemp).operations <:+:
      (generateAssignment dst value nextTemp).1 := by
    unfold generateAssignment
    dsimp only
    split
    · exact List.infix_refl _
    · exact (List.prefix_append _ _).isInfix
  refine ⟨hasOperands_of_printed typed hinted nextTemp
    (not_unprinted_of_isInfix printed inCode), ?_⟩
  cases value with
  | literal base tokenType text =>
      cases tokenType with
      | kwTrue | kwFalse => rfl
      | integer =>
          have own := @isPrinted_of_not_unprinted [] [] _ printed (by simp)
          have text := own (.immediate base.resolved text)
            (by simp [sources, memory, generateExpressionInto, generateLiteral])
          simpa [isPrinted, Expr.lacksOperand] using text
  | funcCall base callee linkName arguments =>
      exact decide_eq_false scalar.ne_void
  | binary | unary | cast | identifier => rfl

/-- A statement whose code is printed has all of its operands. -/
theorem hasOperands_of_statement {part : Stmt} {func : Option FuncDecl}
    (typed : part.Typed func) {nextTemp : Nat} {program : IrProgram}
    (printed : ¬Unprinted (generateStatement part nextTemp program).operations) :
    part.HasOperands := by
  have expression {value : Expr} {s : Semantic} (valueTyped : value.Typed s)
      (inCode : (generateExpression value nextTemp).operations <:+:
        (generateStatement part nextTemp program).operations) : value.HasOperands :=
    @hasOperands_of_printed s value valueTyped none nofun nextTemp
      (not_unprinted_of_isInfix printed inCode)
  have has {value : Expr}
      (isPrinted : isPrinted (generateExpression value nextTemp).result = true) :
      value.lacksOperand = false := by
    rwa [generateExpression, isPrinted_result, Bool.not_eq_true'] at isPrinted
  cases part with
  | varDecl decl =>
      intro value isValue
      rcases typed.2 value isValue with ⟨s, wellFormed, valueTyped, -, widens⟩
      have isValue : decl.value = some value := isValue
      simp only [generateStatement, generateVarDecl, isValue] at printed
      exact isOperand_of_assignment valueTyped (ValueType.isScalar_of_isSameGroup widens.1) rfl
        printed
  | varAssign assign =>
      rcases typed with ⟨s, sym, wellFormed, valueTyped, -, -, -, -, widens⟩
      exact isOperand_of_assignment valueTyped (ValueType.isScalar_of_isSameGroup widens.1) rfl
        printed
  | ifStmt base value branchThen branchElse =>
      rcases typed.1.1 with ⟨s, wellFormed, valueTyped⟩
      have stands : (generateExpression value nextTemp).operations ++
          [jmpCond program.nextLabel (generateExpression value nextTemp).result] <:+:
          (generateStatement (.ifStmt base value branchThen branchElse) nextTemp
            program).operations := by
        cases branchElse <;> simp only [generateStatement, List.append_assoc] <;>
          rw [← List.append_assoc (generateExpression value nextTemp).operations] <;>
          exact (List.prefix_append _ _).isInfix
      have own := isPrinted_of_not_unprinted (not_unprinted_of_isInfix printed stands)
        (by simp [jmpCond])
      exact ⟨expression valueTyped ((List.prefix_append _ _).isInfix.trans stands),
        has (own _ (List.mem_singleton_self _))⟩
  | whileStmt base value branchDo =>
      rcases typed.1.1 with ⟨s, wellFormed, valueTyped⟩
      have stands : (generateExpression value nextTemp).operations ++
          [jmpCond (program.nextLabel + 1) (generateExpression value nextTemp).result] <:+:
          (generateStatement (.whileStmt base value branchDo) nextTemp program).operations := by
        rw [generateStatement]
        simp only [List.append_assoc]
        rw [← List.append_assoc (generateExpression value nextTemp).operations]
        exact List.infix_append' _ _ _
      have own := isPrinted_of_not_unprinted (not_unprinted_of_isInfix printed stands)
        (by simp [jmpCond])
      exact ⟨expression valueTyped ((List.prefix_append _ _).isInfix.trans stands),
        has (own _ (List.mem_singleton_self _))⟩
  | returnStmt base value =>
      rintro result rfl
      rcases typed with ⟨current, -, ⟨s, wellFormed, resultTyped⟩, widens⟩
      refine ⟨expression resultTyped (List.prefix_append _ _).isInfix, has ?_⟩
      have scalar := ValueType.isScalar_of_isSameGroup widens.1
      by_cases nothing : (generateExpression result nextTemp).result = .none
      · have returns := not_isVoidCall scalar.ne_void
        have type := (generateExpression_result returns nextTemp).1
        rw [nothing] at type
        exact absurd type.symm scalar.ne_unresolved
      · have own := isPrinted_of_not_unprinted printed (by simp)
        exact own _ (by simp [sources, nothing])
  | expression expr =>
      rcases typed with ⟨s, wellFormed, exprTyped⟩
      exact expression exprTyped (List.infix_refl _)
  | block | funcDecl => trivial

/-! ## Programs -/

/-- The code generator prints every instruction of a program with all of its operands. -/
def PrintsOperands (functions : List IrFunction) : Prop :=
  ∀ func ∈ functions, isEmitted func = true →
    ∃ emitted, emitDefinition func = some emitted ∧ emitted.Complete

end Sulfur.Codegen

namespace Sulfur

/-- The statements of the functions that are not `extern` have all of their operands. -/
def Program.HasOperands (program : Program) : Prop :=
  ∀ func body, (func, body) ∈ program.functions → func.qualifiers.isExtern = false →
    ∀ part ∈ body.parts, part.HasOperands

end Sulfur

namespace Sulfur.Codegen

open Ir

/-- The code of the body of a function stands in that of the function. -/
theorem isInfix_loweredFunction (func : FuncDecl) (code : StmtCode) :
    code.operations <:+: (loweredFunction func (some code)).operations := by
  unfold loweredFunction
  dsimp only
  split
  · exact (List.prefix_append _ _).isInfix
  · exact List.infix_refl _

/-- A function ends in a `RET` that has nothing to print. -/
theorem allPrintable_loweredFunction (func : FuncDecl) {code : StmtCode}
    (printable : AllPrintable code.operations) :
    AllPrintable (loweredFunction func (some code)).operations := by
  unfold loweredFunction
  dsimp only
  split
  · rw [allPrintable_append]
    exact ⟨printable, List.forall_mem_singleton.mpr printable_ret⟩
  · exact printable

/-- A body whose statements have all of their operands is lowered to operations with
values. -/
theorem allPrintable_generateStatement {body : Stmt} {func : Option FuncDecl} (nextTemp : Nat)
    (program : IrProgram) (typed : ∀ part ∈ body.parts, part.Typed func)
    (has : ∀ part ∈ body.parts, part.HasOperands) :
    AllPrintable (generateStatement body nextTemp program).operations := by
  intro operation listed
  rcases fromParts_generateStatement body nextTemp program operation listed with
    ⟨label, rfl | rfl⟩ | ⟨part, inBody, temp, label, isOwn⟩
  · exact printable_of_formats (by simp [jmpIncond]) (by simp [Formats, formatted, jmpIncond])
  · exact printable_of_formats (by simp [labelOperation])
      (by simp [Formats, formatted, labelOperation])
  · exact allPrintable_ownOperations (typed part inBody) (has part inBody) temp label operation
      isOwn

/-- The code generator prints all the operands of an accepted program exactly when no call
without a value is used as one, and no number without digits. -/
theorem printsOperands_iff {program : Program} {filename : String} {options : CompilerOptions}
    {modules : List Module} {analysis : ProgramAnalysis}
    (accepted : Accepted program filename options modules analysis) :
    PrintsOperands (irGenerate analysis.program).program.functions ↔
      analysis.program.HasOperands := by
  have lowers := irGenerate_lowers analysis.program
  constructor
  · intro prints func body inProgram notExtern part inBody
    have declared := (Program.mem_functions_iff _ func body).mp inProgram
    rcases exists_source lowers.flip _ declared with ⟨function, inFunctions, before, rfl⟩
    have printed : ¬Unprinted (generateStatement body 0 before).operations := by
      intro unprinted
      have wholeUnprinted :=
        unprinted.of_isInfix (isInfix_loweredFunction func (generateStatement body 0 before))
      have isEmitted : isEmitted
          (loweredFunction func (some (generateStatement body 0 before))) = true := by
        rcases wholeUnprinted with ⟨first, operation, after, whole, -, -⟩
        rw [Codegen.isEmitted, whole]
        simp [loweredFunction, notExtern]
      rcases prints _ inFunctions isEmitted with ⟨emitted, isDefinition, complete⟩
      rcases Option.bind_eq_some_iff.mp isDefinition with ⟨moves, -, isDefinition⟩
      rcases Option.bind_eq_some_iff.mp isDefinition with ⟨items, isItems, ⟨⟩⟩
      exact not_unprinted_of_emitOperations isItems complete.operations wholeUnprinted
    rcases hasPart_tagged body 0 before part inBody with ⟨nextTemp, between, isInfix⟩
    have stands := isInfix.map Prod.snd
    rw [map_snd_tagged, map_snd_tagged] at stands
    exact hasOperands_of_statement (accepted.typed_part inProgram inBody)
      (not_unprinted_of_isInfix printed stands)
  · intro has function inFunctions isEmitted
    rcases exists_source lowers function inFunctions with ⟨⟨func, body⟩, declared, before, rfl⟩
    cases body with
    | none => simp [Codegen.isEmitted, loweredFunction] at isEmitted
    | some body =>
        have inProgram := (Program.mem_functions_iff _ func body).mpr declared
        have notExtern : func.qualifiers.isExtern = false := by
          simp only [Codegen.isEmitted, loweredFunction, Bool.and_eq_true,
            Bool.not_eq_true'] at isEmitted
          exact isEmitted.1
        have typed := accepted.typed_function inProgram
        have whole := allPrintable_loweredFunction func (allPrintable_generateStatement 0 before
          (fun part inBody => accepted.typed_part inProgram inBody)
          fun part inBody => has func body inProgram notExtern part inBody)
        apply emitDefinition_complete
        · exact fun operation listed => (whole operation listed).formats
        · exact fun operation listed => (whole operation listed).sized
        · intro param listed
          rcases List.mem_map.mp listed with ⟨source, isSource, rfl⟩
          exact widthBytes_ne_zero (typed.1 source isSource)

/-! ### A discarded cast to `void` -/

/-- A call of a function without a value, cast to `void`. -/
def discardedSource : String :=
  "fn f() void { } fn main() i32 { f() as void; return 0; }"

theorem isSome_compileFrontend_discarded :
    (compileFrontend discardedSource "main.su" {}).isSome := by
  decide

/-- The analysis of that program. -/
def discardedAnalysis : ProgramAnalysis :=
  (compileFrontend discardedSource "main.su" {}).get isSome_compileFrontend_discarded

theorem accepted_discarded :
    ∃ program, Accepted program "main.su" {} [] discardedAnalysis :=
  accepted_of_compileFrontend (Option.some_get _).symm

theorem printsOperands_iff_discarded :
    PrintsOperands (irGenerate discardedAnalysis.program).program.functions ↔
      discardedAnalysis.program.HasOperands := by
  rcases accepted_discarded with ⟨program, accepted⟩
  exact printsOperands_iff accepted

/-- The destination of the cast has no slot. -/
theorem discarded_not_printed :
    (∃ program, Accepted program "main.su" {} [] discardedAnalysis) ∧
      ¬PrintsOperands (irGenerate discardedAnalysis.program).program.functions := by
  have aborts : ∃ func ∈ (irGenerate discardedAnalysis.program).program.functions,
      isEmitted func = true ∧ emitDefinition func = none := by
    decide
  refine ⟨accepted_discarded, fun prints => ?_⟩
  rcases aborts with ⟨func, inProgram, emits, isNone⟩
  rcases prints func inProgram emits with ⟨emitted, isSome, -⟩
  rw [isNone] at isSome
  cases isSome

end Sulfur.Codegen
